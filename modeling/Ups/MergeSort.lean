-- The merge sort of linked lists (genmergesort.h). The comparison returns a number, and the
-- sort only looks at its sign. The sorted lists come out right as soon as the comparison is
-- right on the pairs that a merge compares, and each merge compares an element with the next
-- larger element of the other list.
import Mathlib.Data.List.Perm.Basic
import Mathlib.Data.List.Sort
import Mathlib.Order.Basic

namespace ups_rules.merge_sort

variable {α : Type*}

/-! ## The pure model -/

/-- `name_merge`. When the comparison is not negative the second list goes first. -/
def mergeLists (cmp : α → α → Int) (list1 list2 : List α) : List α :=
  List.merge list1 list2 fun a b => decide (cmp a b < 0)

/-- The function `name` that the macro makes, with `name_split` at `len / 2`. -/
def sortList (cmp : α → α → Int) (list : List α) (len : Nat) : List α :=
  if len > 1 then
    mergeLists cmp (sortList cmp (list.take (len / 2)) (len / 2))
      (sortList cmp (list.drop (len / 2)) ((len + 1) / 2))
  else list
termination_by len

/-! ## Permutation -/

theorem mergeLists_perm (cmp : α → α → Int) (A B : List α) :
    (mergeLists cmp A B).Perm (A ++ B) := List.merge_perm_append _

theorem sortList_perm (cmp : α → α → Int) (list : List α) (len : Nat) :
    (sortList cmp list len).Perm list := by
  induction list, len using sortList.induct with
  | case1 list len h ih1 ih2 =>
    rw [sortList, if_pos h]
    calc mergeLists cmp _ _
        _ |>.Perm _ := mergeLists_perm cmp _ _
        _ |>.Perm (list.take (len / 2) ++ list.drop (len / 2)) := ih1.append ih2
        _ |>.Perm list := by rw [List.take_append_drop]
  | case2 list len h => rw [sortList, if_neg h]

theorem mergeLists_cons (cmp : α → α → Int) (a b : α) (A B : List α) :
    mergeLists cmp (a :: A) (b :: B) =
      if cmp a b < 0 then a :: mergeLists cmp A (b :: B) else b :: mergeLists cmp (a :: A) B := by
  unfold mergeLists
  rw [List.cons_merge_cons]
  by_cases h : cmp a b < 0 <;> simp [h]

/-- The induction on two lists that a merge takes elements from. -/
theorem merge_induction (cmp : α → α → Int) {P : List α → List α → Prop}
    (nil_left : ∀ B, P [] B) (nil_right : ∀ A, P A [])
    (left : ∀ a A b B, cmp a b < 0 → P A (b :: B) → P (a :: A) (b :: B))
    (right : ∀ a A b B, ¬ cmp a b < 0 → P (a :: A) B → P (a :: A) (b :: B)) :
    ∀ A B, P A B := by
  intro A
  induction A with
  | nil => exact nil_left
  | cons a A ihA =>
    intro B
    induction B with
    | nil => exact nil_right _
    | cons b B ihB =>
      by_cases h : cmp a b < 0
      · exact left a A b B h (ihA (b :: B))
      · exact right a A b B h ihB

theorem sublist_merge_left (cmp : α → α → Int) (A B : List α) :
    A.Sublist (mergeLists cmp A B) := by
  induction A, B using merge_induction cmp with
  | nil_left B => simp
  | nil_right A => simp [mergeLists]
  | left a A b B h ih => rw [mergeLists_cons, if_pos h]; exact ih.cons_cons a
  | right a A b B h ih => rw [mergeLists_cons, if_neg h]; exact ih.cons b

theorem sublist_merge_right (cmp : α → α → Int) (A B : List α) :
    B.Sublist (mergeLists cmp A B) := by
  induction A, B using merge_induction cmp with
  | nil_left B => simp [mergeLists]
  | nil_right A => simp
  | left a A b B h ih => rw [mergeLists_cons, if_pos h]; exact ih.cons a
  | right a A b B h ih => rw [mergeLists_cons, if_neg h]; exact ih.cons_cons b

/-! ## Which comparisons a merge needs -/

section order

variable {K : Type*} [LinearOrder K] (cmp : α → α → Int) (v : α → K)

/-- The comparison is right on a pair. -/
def Right (a b : α) : Prop := cmp a b < 0 ↔ v a < v b

/-- One of the two elements is the next larger one for the other. -/
def Meets (A B : List α) (a b : α) : Prop :=
  (v a < v b ∧ ∀ b' ∈ B, v a < v b' → v b ≤ v b') ∨
    (v b < v a ∧ ∀ a' ∈ A, v b < v a' → v a ≤ v a')

/-- A relation holds of all pairs that meet in a merge of the two lists. -/
def MergeSafe (R : α → α → Prop) (A B : List α) : Prop :=
  ∀ a ∈ A, ∀ b ∈ B, Meets v A B a b → R a b

/-- A relation holds of all pairs that meet in a merge of the sort. -/
def SortSafe (R : α → α → Prop) (list : List α) (len : Nat) : Prop :=
  if len > 1 then
    SortSafe R (list.take (len / 2)) (len / 2) ∧ SortSafe R (list.drop (len / 2)) ((len + 1) / 2) ∧
      MergeSafe v R (list.take (len / 2)) (list.drop (len / 2))
  else True
termination_by len

variable {cmp v}

theorem MergeSafe.congr {R : α → α → Prop} {A A' B B' : List α} (hA : ∀ x, x ∈ A' ↔ x ∈ A)
    (hB : ∀ x, x ∈ B' ↔ x ∈ B) (h : MergeSafe v R A B) : MergeSafe v R A' B' := by
  intro a ha b hb hm
  refine h a ((hA a).mp ha) b ((hB b).mp hb) ?_
  rcases hm with ⟨hlt, hnext⟩ | ⟨hlt, hnext⟩
  · exact Or.inl ⟨hlt, fun b' hb' => hnext b' ((hB b').mpr hb')⟩
  · exact Or.inr ⟨hlt, fun a' ha' => hnext a' ((hA a').mpr ha')⟩

/-- Two sorted lists merge to a sorted list when the pairs that meet compare right. -/
theorem mergeLists_sorted (hz : ∀ a b, v a = v b → ¬ cmp a b < 0) (A B : List α)
    (hA : A.Pairwise fun x y => v x ≤ v y) (hB : B.Pairwise fun x y => v x ≤ v y)
    (h : MergeSafe v (Right cmp v) A B) : (mergeLists cmp A B).Pairwise fun x y => v x ≤ v y := by
  induction A, B using merge_induction cmp with
  | nil_left B => simpa [mergeLists] using hB
  | nil_right A => simpa [mergeLists] using hA
  | left a A b B hc ih =>
    obtain ⟨haA, hA'⟩ := List.pairwise_cons.mp hA
    obtain ⟨hbB, _⟩ := List.pairwise_cons.mp hB
    have hab : v a < v b := by
      rcases lt_trichotomy (v a) (v b) with hlt | heq | hgt
      · exact hlt
      · exact absurd hc (hz a b heq)
      · refine (h a (by simp) b (by simp) (Or.inr ⟨hgt, ?_⟩)).mp hc
        intro a' ha' _
        rcases List.mem_cons.mp ha' with rfl | ha'
        · exact le_refl _
        · exact haA a' ha'
    have hfirst : ∀ y ∈ b :: B, v a < v y := by
      intro y hy
      rcases List.mem_cons.mp hy with rfl | hy
      · exact hab
      · exact lt_of_lt_of_le hab (hbB y hy)
    rw [mergeLists_cons, if_pos hc]
    refine List.pairwise_cons.mpr ⟨fun y hy => ?_, ih hA' hB ?_⟩
    · rcases List.mem_append.mp ((mergeLists_perm cmp A (b :: B)).subset hy) with hy | hy
      · exact haA y hy
      · exact le_of_lt (hfirst y hy)
    · -- `a` is below all of the second list, so it is the next larger one for no element
      intro x hx y hy hm
      refine h x (List.mem_cons_of_mem a hx) y hy ?_
      rcases hm with hm | ⟨hlt, hnext⟩
      · exact Or.inl hm
      · refine Or.inr ⟨hlt, fun a' ha' hya' => ?_⟩
        rcases List.mem_cons.mp ha' with rfl | ha'
        · exact absurd hya' (lt_asymm (hfirst y hy))
        · exact hnext a' ha' hya'
  | right a A b B hc ih =>
    obtain ⟨haA, _⟩ := List.pairwise_cons.mp hA
    obtain ⟨hbB, hB'⟩ := List.pairwise_cons.mp hB
    have hba : v b ≤ v a := by
      rcases lt_or_ge (v a) (v b) with hlt | hge
      · refine absurd ((h a (by simp) b (by simp) (Or.inl ⟨hlt, ?_⟩)).mpr hlt) hc
        intro b' hb' _
        rcases List.mem_cons.mp hb' with rfl | hb'
        · exact le_refl _
        · exact hbB b' hb'
      · exact hge
    have hfirst : ∀ x ∈ a :: A, v b ≤ v x := by
      intro x hx
      rcases List.mem_cons.mp hx with rfl | hx
      · exact hba
      · exact le_trans hba (haA x hx)
    rw [mergeLists_cons, if_neg hc]
    refine List.pairwise_cons.mpr ⟨fun y hy => ?_, ih hA hB' ?_⟩
    · rcases List.mem_append.mp ((mergeLists_perm cmp (a :: A) B).subset hy) with hy | hy
      · exact hfirst y hy
      · exact hbB y hy
    · intro x hx y hy hm
      refine h x hx y (List.mem_cons_of_mem b hy) ?_
      rcases hm with ⟨hlt, hnext⟩ | hm
      · refine Or.inl ⟨hlt, fun b' hb' hxb' => ?_⟩
        rcases List.mem_cons.mp hb' with rfl | hb'
        · exact absurd (hfirst x hx) (not_le_of_gt hxb')
        · exact hnext b' hb' hxb'
      · exact Or.inr hm

/-- A merge that comes out strictly sorted compared right all the pairs that meet. -/
theorem mergeSafe_of_sorted (A B : List α)
    (h : (mergeLists cmp A B).Pairwise fun x y => v x < v y) : MergeSafe v (Right cmp v) A B := by
  induction A, B using merge_induction cmp with
  | nil_left B => intro a ha; cases ha
  | nil_right A => intro a _ b hb; cases hb
  | left a A b B hc ih =>
    have hB := h.sublist (sublist_merge_right cmp (a :: A) (b :: B))
    rw [mergeLists_cons, if_pos hc] at h
    obtain ⟨ha, hrest⟩ := List.pairwise_cons.mp h
    have hab : v a < v b := ha b ((sublist_merge_right cmp A (b :: B)).subset (by simp))
    intro x hx y hy hm
    rcases List.mem_cons.mp hx with rfl | hxA
    · rcases List.mem_cons.mp hy with rfl | hyB
      · exact iff_of_true hc hab
      · -- `b` stands between `a` and every later element of the second list
        have hby : v b < v y := (List.pairwise_cons.mp hB).1 y hyB
        rcases hm with ⟨_, hnext⟩ | ⟨hlt, _⟩
        · exact absurd (hnext b (by simp) hab) (not_le_of_gt hby)
        · exact absurd (hab.trans hby) (lt_asymm hlt)
    · refine ih hrest x hxA y hy ?_
      rcases hm with hm | ⟨hlt, hnext⟩
      · exact Or.inl hm
      · exact Or.inr ⟨hlt, fun a' ha' => hnext a' (List.mem_cons_of_mem a ha')⟩
  | right a A b B hc ih =>
    have hA := h.sublist (sublist_merge_left cmp (a :: A) (b :: B))
    rw [mergeLists_cons, if_neg hc] at h
    obtain ⟨hb, hrest⟩ := List.pairwise_cons.mp h
    have hba : v b < v a := hb a ((sublist_merge_left cmp (a :: A) B).subset (by simp))
    intro x hx y hy hm
    rcases List.mem_cons.mp hy with rfl | hyB
    · rcases List.mem_cons.mp hx with rfl | hxA
      · exact iff_of_false hc (lt_asymm hba)
      · have hax : v a < v x := (List.pairwise_cons.mp hA).1 x hxA
        rcases hm with ⟨hlt, _⟩ | ⟨_, hnext⟩
        · exact absurd (hba.trans hax) (lt_asymm hlt)
        · exact absurd (hnext a (by simp) hba) (not_le_of_gt hax)
    · refine ih hrest x hx y hyB ?_
      rcases hm with ⟨hlt, hnext⟩ | hm
      · exact Or.inl ⟨hlt, fun b' hb' => hnext b' (List.mem_cons_of_mem b hb')⟩
      · exact Or.inr hm

/-- The sort of a whole list is sorted when all the merges are safe. -/
theorem sortList_sorted (hz : ∀ a b, v a = v b → ¬ cmp a b < 0) (list : List α) (len : Nat)
    (hlen : list.length = len) (h : SortSafe v (Right cmp v) list len) :
    (sortList cmp list len).Pairwise fun x y => v x ≤ v y := by
  induction list, len using sortList.induct with
  | case1 list len hgt ih1 ih2 =>
    rw [SortSafe, if_pos hgt] at h
    obtain ⟨h1, h2, hmerge⟩ := h
    rw [sortList, if_pos hgt]
    apply mergeLists_sorted hz
    · exact ih1 (by rw [List.length_take]; omega) h1
    · exact ih2 (by rw [List.length_drop]; omega) h2
    · exact hmerge.congr (fun x => (sortList_perm cmp _ _).mem_iff)
        (fun x => (sortList_perm cmp _ _).mem_iff)
  | case2 list len hle =>
    rw [sortList, if_neg hle]
    match list, hlen with
    | [], _ => exact List.Pairwise.nil
    | [x], _ => exact List.pairwise_singleton _ _
    | _ :: _ :: _, hlen => simp only [List.length_cons] at hlen; omega

/-- A comparison that is right on all pairs is right on those that meet. -/
theorem sortSafe_of_forall {R : α → α → Prop} (h : ∀ a b, R a b) (list : List α) (len : Nat) :
    SortSafe v R list len := by
  induction list, len using sortList.induct with
  | case1 list len hgt ih1 ih2 =>
    rw [SortSafe, if_pos hgt]
    exact ⟨ih1, ih2, fun a _ b _ _ => h a b⟩
  | case2 list len hle =>
    rw [SortSafe, if_neg hle]
    trivial

/-- A sort that comes out strictly sorted had only safe merges. -/
theorem sortSafe_of_sorted (list : List α) (len : Nat)
    (h : (sortList cmp list len).Pairwise fun x y => v x < v y) : SortSafe v (Right cmp v) list len := by
  induction list, len using sortList.induct with
  | case1 list len hgt ih1 ih2 =>
    rw [sortList, if_pos hgt] at h
    rw [SortSafe, if_pos hgt]
    refine ⟨ih1 (h.sublist (sublist_merge_left cmp _ _)),
      ih2 (h.sublist (sublist_merge_right cmp _ _)), ?_⟩
    exact (mergeSafe_of_sorted _ _ h).congr (fun x => (sortList_perm cmp _ _).mem_iff.symm)
      (fun x => (sortList_perm cmp _ _).mem_iff.symm)
  | case2 list len hle => rw [SortSafe, if_neg hle]; trivial

end order

end ups_rules.merge_sort
