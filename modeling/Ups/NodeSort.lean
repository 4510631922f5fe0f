-- The merge sort over the nodes themselves (genmergesort.h): the list is split and relinked in place.
-- It makes the list that the sort of lists makes, as long as the length plus 1 is still an int.
import Mathlib.Algebra.Ring.Int.Defs
import Mathlib.Algebra.Ring.Nat
import Ups.MergeSort
import Ups.NodeArena

open node_arena
open ups_rules.merge_sort

namespace ups_rules.node_sort

/-! ## The pure model -/

/-- A pointer to a node, `none` for NULL. -/
abbrev Ptr := Option Nat

/-- The `next` field of each node. -/
abbrev Links := Nat → Ptr

/-- What an int holds after it overflows. -/
def asInt (n : Int) : Int := n.bmod (2 ^ 32)

/-- The loop of `name_split`, for so many turns: `prev` and `list`. A null pointer is followed to `none`. -/
def splitLoop (next : Links) : Nat → Ptr → Ptr → Option (Ptr × Ptr)
  | 0, prev, list => some (prev, list)
  | _ + 1, _, none => none
  | len + 1, _, some a => splitLoop next len (some a) (next a)

def split (next : Links) (list : Ptr) (len : Int) : Option (Links × Ptr) :=
  match splitLoop next len.toNat none list with
  | some (some prev, list) => some (Function.update next prev none, list)
  | _ => none

/-- The loop of `name_merge`, and the assignment behind it. -/
def mergeLoop (cmp : Nat → Nat → Int) : Nat → Links → Nat → Ptr → Ptr → Option Links
  | 0, _, _, _, _ => none
  | fuel + 1, next, list, some a, some b =>
    if cmp a b < 0 then
      let next := Function.update next list (some a)
      mergeLoop cmp fuel next a (next a) (some b)
    else
      let next := Function.update next list (some b)
      mergeLoop cmp fuel next b (some a) (next b)
  | _ + 1, next, list, some a, none => some (Function.update next list (some a))
  | _ + 1, next, list, none, list2 => some (Function.update next list list2)

def merge (cmp : Nat → Nat → Int) (fuel : Nat) (next : Links) : Ptr → Ptr → Option (Links × Ptr)
  | some a, some b =>
    if cmp a b < 0 then
      (mergeLoop cmp fuel next a (next a) (some b)).map fun next => (next, some a)
    else
      (mergeLoop cmp fuel next b (some a) (next b)).map fun next => (next, some b)
  | _, _ => none

theorem half_lt {len : Int} (h : len > 1) : (len.tdiv 2).toNat < len.toNat := by
  rw [Int.tdiv_eq_ediv_of_nonneg (by omega)]
  omega

theorem other_half_lt {len : Int} (h : len > 1) : ((asInt (len + 1)).tdiv 2).toNat < len.toNat := by
  have hle : asInt (len + 1) ≤ len + 1 := by
    unfold asInt
    rw [Int.bmod_def]
    split <;> omega
  rcases Int.lt_or_le (asInt (len + 1)) 0 with hneg | hpos
  · have hnonpos : (asInt (len + 1)).tdiv 2 ≤ 0 := by
      have hflip := Int.neg_tdiv (asInt (len + 1)) 2
      have hnonneg : 0 ≤ (-asInt (len + 1)).tdiv 2 := Int.tdiv_nonneg (by omega) (by decide)
      omega
    omega
  · rw [Int.tdiv_eq_ediv_of_nonneg hpos]
    omega

/-- The function `name` that the macro makes. -/
def sortNodes (cmp : Nat → Nat → Int) (fuel : Nat) (next : Links) (list : Ptr) (len : Int) :
    Option (Links × Ptr) :=
  if len > 1 then do
    let (next, list2) ← split next list (len.tdiv 2)
    let (next, list) ← sortNodes cmp fuel next list (len.tdiv 2)
    let (next, list2) ← sortNodes cmp fuel next list2 ((asInt (len + 1)).tdiv 2)
    merge cmp fuel next list list2
  else some (next, list)
termination_by len.toNat
decreasing_by
  · exact half_lt ‹_›
  · exact other_half_lt ‹_›

/-- A comparison that puts the nodes in an order, in which different nodes may be equal. -/
structure TotalPreorder (cmp : Nat → Nat → Int) : Prop where
  swap : ∀ a b, cmp a b < 0 ↔ 0 < cmp b a
  trans : ∀ a b c, cmp a b ≤ 0 → cmp b c ≤ 0 → cmp a c ≤ 0

def InOrder (cmp : Nat → Nat → Int) (l : List Nat) : Prop := l.Pairwise fun a b => cmp a b ≤ 0

/-- The sort of the linked list comes to an end, and gives its nodes linked in order. -/
def Sorts (cmp : Nat → Nat → Int) (next : Links) (l : List Nat) : Prop :=
  ∀ fuel, l.length ≤ fuel → ∃ next' l',
    sortNodes cmp fuel next l.head? l.length = some (next', l'.head?) ∧
      l'.Perm l ∧ Linked next' l' ∧ InOrder cmp l'

/-! ## Linked lists -/

variable {cmp : Nat → Nat → Int} {next next' : Links} {l l' l1 l2 A B : List Nat} {a b fuel : Nat}

theorem linked_tail (h : Linked next (l1 ++ l2)) : Linked next l2 := by
  induction l1 with
  | nil => exact h
  | cons a l1 ih => exact ih (linked_cons.mp h).2

/-- The links and the first node say which list it is. -/
theorem linked_unique (h : Linked next l) (h' : Linked next l') (hhead : l.head? = l'.head?) :
    l = l' := by
  induction l generalizing l' with
  | nil =>
    cases l' with
    | nil => rfl
    | cons b l' => cases hhead
  | cons a l ih =>
    cases l' with
    | nil => cases hhead
    | cons b l' =>
      obtain rfl : a = b := Option.some.inj hhead
      obtain ⟨hnext, hrest⟩ := linked_cons.mp h
      obtain ⟨hnext', hrest'⟩ := linked_cons.mp h'
      rw [ih hrest hrest' (hnext.symm.trans hnext')]

/-- A list that ends has no node twice. -/
theorem linked_nodup (h : Linked next l) : l.Nodup := by
  induction l with
  | nil => exact List.nodup_nil
  | cons a l ih =>
    refine List.nodup_cons.mpr ⟨fun hmem => ?_, ih (linked_cons.mp h).2⟩
    obtain ⟨l1, l2, rfl⟩ := List.append_of_mem hmem
    have hsuffix : Linked next (a :: l2) := @linked_tail next (a :: l1) (a :: l2) h
    have hlen := congrArg List.length (linked_unique h hsuffix rfl)
    simp only [List.length_cons, List.length_append] at hlen
    omega

/-! ## Splitting -/

theorem splitLoop_spec (h : Linked next (l1 ++ l2)) (prev : Ptr) :
    splitLoop next l1.length prev (l1 ++ l2).head? =
      some (if l1 = [] then prev else l1.getLast?, l2.head?) := by
  induction l1 generalizing prev with
  | nil => rfl
  | cons a l1 ih =>
    rw [List.cons_append] at h ⊢
    obtain ⟨hnext, hrest⟩ := linked_cons.mp h
    rw [List.length_cons, List.head?_cons, splitLoop, hnext, ih hrest,
      if_neg (List.cons_ne_nil a l1)]
    cases l1 with
    | nil => rfl
    | cons c l1 => rw [if_neg (List.cons_ne_nil c l1), List.getLast?_cons_cons]

/-- The last node of the first part is cut off from the second part. -/
theorem linked_cut (h : Linked next (l1 ++ l2)) (hlast : l1.getLast? = some b) :
    Linked (Function.update next b none) l1 := by
  have hnodup := linked_nodup h
  induction l1 with
  | nil => exact linked_nil
  | cons a l1 ih =>
    obtain ⟨hnext, hrest⟩ := linked_cons.mp h
    rw [List.cons_append, List.nodup_cons] at hnodup
    rw [linked_cons]
    cases l1 with
    | nil =>
      obtain rfl : a = b := Option.some.inj hlast
      exact ⟨Function.update_self .., linked_nil⟩
    | cons c l1 =>
      rw [List.getLast?_cons_cons] at hlast
      refine ⟨?_, ih hrest hlast hnodup.2⟩
      rw [Function.update_of_ne, hnext]
      · rfl
      · rintro rfl
        exact hnodup.1 (List.mem_append_left _ (List.mem_of_getLast? hlast))

theorem split_spec (h : Linked next (l1 ++ l2)) (hne : l1 ≠ []) :
    ∃ next', split next (l1 ++ l2).head? l1.length = some (next', l2.head?) ∧
      Linked next' l1 ∧ Linked next' l2 ∧ ∀ x, x ∉ l1 ++ l2 → next' x = next x := by
  obtain ⟨b, hlast⟩ : ∃ b, l1.getLast? = some b :=
    ⟨l1.getLast hne, List.getLast?_eq_some_getLast hne⟩
  have hb : b ∈ l1 := List.mem_of_getLast? hlast
  refine ⟨Function.update next b none, ?_, linked_cut h hlast, ?_, ?_⟩
  · unfold split
    rw [Int.toNat_natCast, splitLoop_spec h, if_neg hne, hlast]
  · refine (linked_tail h).congr fun x hx => Function.update_of_ne ?_ ..
    rintro rfl
    exact (List.nodup_append.mp (linked_nodup h)).2.2 x hb x hx rfl
  · intro x hx
    refine Function.update_of_ne ?_ ..
    rintro rfl
    exact hx (List.mem_append_left l2 hb)

/-! ## Merging -/

theorem linked_update (h : Linked next l) (hb : b ∉ l) (p : Ptr) :
    Linked (Function.update next b p) l := by
  refine h.congr fun x hx => Function.update_of_ne ?_ ..
  rintro rfl
  exact hb hx

/-- The node before the list now points to it. -/
theorem linked_behind (h : Linked next' l) (hb : next' b = l.head?) : Linked next' (b :: l) :=
  linked_cons.mpr ⟨hb, h⟩

theorem mergeLists_nil_left (B : List Nat) : mergeLists cmp [] B = B := by
  unfold mergeLists
  rw [List.nil_merge]

theorem mergeLists_nil_right (A : List Nat) : mergeLists cmp A [] = A := by
  unfold mergeLists
  rw [List.merge_right]

/-- Behind the last node that is merged, the rest of the two lists is linked as the merge of lists
has it. -/
theorem mergeLoop_spec (cmp : Nat → Nat → Int) (fuel : Nat) (hA : Linked next A)
    (hB : Linked next B) (hnodup : (A ++ B).Nodup)
    (hb : b ∉ A ++ B) (hfuel : A.length + B.length < fuel) :
    ∃ next', mergeLoop cmp fuel next b A.head? B.head? = some next' ∧
      Linked next' (b :: mergeLists cmp A B) ∧ ∀ x, x ∉ b :: (A ++ B) → next' x = next x := by
  obtain ⟨fuel, rfl⟩ : ∃ k, fuel = k + 1 := ⟨fuel - 1, by omega⟩
  have hkept : ∀ p, ∀ x, x ∉ b :: (A ++ B) → Function.update next b p x = next x := by
    intro p x hx
    exact Function.update_of_ne (List.ne_of_not_mem_cons hx) ..
  induction A, B using merge_induction cmp generalizing next b fuel with
  | nil_left B =>
    refine ⟨Function.update next b B.head?, ?_, ?_, hkept _⟩
    · cases B <;> rfl
    · rw [mergeLists_nil_left]
      exact linked_behind (linked_update hB hb _) (Function.update_self ..)
  | nil_right A =>
    rw [List.append_nil] at hb
    refine ⟨Function.update next b A.head?, ?_, ?_, hkept _⟩
    · cases A <;> rfl
    · rw [mergeLists_nil_right]
      exact linked_behind (linked_update hA hb _) (Function.update_self ..)
  | left a A c B hc ih =>
    rw [List.cons_append, List.nodup_cons] at hnodup
    rw [List.cons_append, List.mem_cons, not_or] at hb
    have hbA : b ∉ A := fun h => hb.2 (List.mem_append_left _ h)
    have hbB : b ∉ c :: B := fun h => hb.2 (List.mem_append_right _ h)
    have hnext : Function.update next b (some a) a = A.head? := by
      rw [Function.update_of_ne (Ne.symm hb.1)]
      exact (linked_cons.mp hA).1
    rw [List.length_cons] at hfuel
    obtain ⟨k, rfl⟩ : ∃ k, fuel = k + 1 := ⟨fuel - 1, by omega⟩
    obtain ⟨next', heq, hlinked, hsame⟩ := ih (linked_update (linked_cons.mp hA).2 hbA (some a))
      (linked_update hB hbB (some a)) hnodup.2 hnodup.1 k (by omega)
      fun p x hx => Function.update_of_ne (List.ne_of_not_mem_cons hx) ..
    refine ⟨next', ?_, ?_, ?_⟩
    · rw [List.head?_cons, List.head?_cons, mergeLoop, if_pos hc]
      dsimp only
      rw [hnext]
      exact heq
    · rw [mergeLists_cons, if_pos hc]
      refine linked_behind hlinked ((hsame b ?_).trans (Function.update_self ..))
      rw [List.mem_cons, not_or]
      exact hb
    · intro x hx
      rw [List.cons_append, List.mem_cons, not_or] at hx
      exact (hsame x hx.2).trans (Function.update_of_ne hx.1 ..)
  | right a A c B hc ih =>
    have hperm : (a :: A ++ c :: B).Perm (c :: (a :: A ++ B)) := List.perm_middle
    rw [hperm.nodup_iff, List.nodup_cons] at hnodup
    rw [hperm.mem_iff, List.mem_cons, not_or] at hb
    have hbA : b ∉ a :: A := fun h => hb.2 (List.mem_append_left _ h)
    have hbB : b ∉ B := fun h => hb.2 (List.mem_append_right _ h)
    have hnext : Function.update next b (some c) c = B.head? := by
      rw [Function.update_of_ne (Ne.symm hb.1)]
      exact (linked_cons.mp hB).1
    rw [List.length_cons, List.length_cons] at hfuel
    obtain ⟨k, rfl⟩ : ∃ k, fuel = k + 1 := ⟨fuel - 1, by omega⟩
    obtain ⟨next', heq, hlinked, hsame⟩ := ih (linked_update hA hbA (some c))
      (linked_update (linked_cons.mp hB).2 hbB (some c)) hnodup.2 hnodup.1 k
      (by rw [List.length_cons]; omega)
      fun p x hx => Function.update_of_ne (List.ne_of_not_mem_cons hx) ..
    refine ⟨next', ?_, ?_, ?_⟩
    · rw [List.head?_cons, List.head?_cons, mergeLoop, if_neg hc]
      dsimp only
      rw [hnext]
      exact heq
    · rw [mergeLists_cons, if_neg hc]
      refine linked_behind hlinked ((hsame b ?_).trans (Function.update_self ..))
      rw [List.mem_cons, not_or]
      exact hb
    · intro x hx
      rw [List.mem_cons, not_or, hperm.mem_iff, List.mem_cons, not_or] at hx
      exact (hsame x (mt List.mem_cons.mp (not_or.mpr hx.2))).trans (Function.update_of_ne hx.1 ..)

theorem merge_spec (cmp : Nat → Nat → Int) (fuel : Nat) (hA : Linked next A) (hB : Linked next B)
    (hnodup : (A ++ B).Nodup)
    (hneA : A ≠ []) (hneB : B ≠ []) (hfuel : A.length + B.length ≤ fuel) :
    ∃ next', merge cmp fuel next A.head? B.head? = some (next', (mergeLists cmp A B).head?) ∧
      Linked next' (mergeLists cmp A B) ∧ ∀ x, x ∉ A ++ B → next' x = next x := by
  obtain ⟨a, A, rfl⟩ := List.exists_cons_of_ne_nil hneA
  obtain ⟨c, B, rfl⟩ := List.exists_cons_of_ne_nil hneB
  obtain ⟨hnextA, hA'⟩ := linked_cons.mp hA
  obtain ⟨hnextB, hB'⟩ := linked_cons.mp hB
  rw [mergeLists_cons, List.head?_cons, List.head?_cons, merge]
  by_cases hc : cmp a c < 0
  · rw [if_pos hc, if_pos hc]
    rw [List.cons_append, List.nodup_cons] at hnodup
    obtain ⟨next', heq, hlinked, hsame⟩ := mergeLoop_spec cmp fuel hA' hB hnodup.2
      hnodup.1 (by rw [List.length_cons] at hfuel; omega)
    refine ⟨next', ?_, hlinked, hsame⟩
    rw [hnextA]
    exact congrArg (Option.map fun next => (next, some a)) heq
  · have hperm : (a :: A ++ c :: B).Perm (c :: (a :: A ++ B)) := List.perm_middle
    rw [if_neg hc, if_neg hc]
    rw [hperm.nodup_iff, List.nodup_cons] at hnodup
    obtain ⟨next', heq, hlinked, hsame⟩ := mergeLoop_spec cmp fuel hA hB' hnodup.2
      hnodup.1 (by rw [List.length_cons] at hfuel ⊢; rw [List.length_cons] at hfuel; omega)
    refine ⟨next', ?_, hlinked, fun x hx => hsame x (mt hperm.mem_iff.mpr hx)⟩
    rw [hnextB]
    exact congrArg (Option.map fun next => (next, some c)) heq

/-! ## Sorting -/

theorem asInt_succ {n : Nat} (h : n + 1 < 2 ^ 31) : asInt ((n : Int) + 1) = (n : Int) + 1 := by
  unfold asInt
  rw [Int.bmod_def, if_pos (by omega)]
  omega

/-- The nodes are linked as the sort of lists has them, and no other links are changed. -/
def SortedAs (next next' : Links) (l l' : List Nat) : Prop :=
  Linked next' l' ∧ ∀ x, x ∉ l → next' x = next x

theorem sortNodes_short (h : l.length ≤ 1) :
    sortNodes cmp fuel next l.head? l.length = some (next, l.head?) := by
  rw [sortNodes, if_neg (by omega)]

/-- Both halves are sorted, and merged. -/
theorem sortNodes_halves {fuel : Nat} {len : Int} (h : Linked next (A ++ B)) (hlen : len > 1)
    (hA : A.length = len.tdiv 2) (hne : A ≠ [])
    (hsortA : ∀ next, Linked next A → ∃ next', sortNodes cmp fuel next A.head? (len.tdiv 2) =
      some (next', l1.head?) ∧ SortedAs next next' A l1)
    (hsortB : ∀ next, Linked next B → ∃ next', sortNodes cmp fuel next B.head?
      ((asInt (len + 1)).tdiv 2) = some (next', l2.head?) ∧ SortedAs next next' B l2)
    (hpermA : l1.Perm A) (hpermB : l2.Perm B) (hneB : B ≠ []) (hfuel : A.length + B.length ≤ fuel) :
    ∃ next', sortNodes cmp fuel next (A ++ B).head? len = some (next', (mergeLists cmp l1 l2).head?) ∧
      SortedAs next next' (A ++ B) (mergeLists cmp l1 l2) := by
  obtain ⟨next₀, hsplit, hA₀, hB₀, hsame₀⟩ := split_spec h hne
  obtain ⟨next₁, heq₁, hlinked₁, hsame₁⟩ := hsortA next₀ hA₀
  have hdis := (List.nodup_append.mp (linked_nodup h)).2.2
  have hB₁ : Linked next₁ B := hB₀.congr fun x hx => hsame₁ x fun hxA => hdis x hxA x hx rfl
  obtain ⟨next₂, heq₂, hlinked₂, hsame₂⟩ := hsortB next₁ hB₁
  have hA₂ : Linked next₂ l1 := by
    refine hlinked₁.congr fun x hx => hsame₂ x fun hxB => ?_
    exact hdis x (hpermA.mem_iff.mp hx) x hxB rfl
  have hperm : (l1 ++ l2).Perm (A ++ B) := hpermA.append hpermB
  have hlen₁ := hpermA.length_eq
  have hlen₂ := hpermB.length_eq
  have hne₁ : l1 ≠ [] := fun hc => hne (List.eq_nil_of_length_eq_zero (by rw [← hlen₁, hc]; rfl))
  have hne₂ : l2 ≠ [] := fun hc => hneB (List.eq_nil_of_length_eq_zero (by rw [← hlen₂, hc]; rfl))
  obtain ⟨next₃, heq₃, hlinked₃, hsame₃⟩ := merge_spec cmp fuel hA₂ hlinked₂
    (hperm.nodup_iff.mpr (linked_nodup h)) hne₁ hne₂ (by omega)
  refine ⟨next₃, ?_, hlinked₃, fun x hx => ?_⟩
  · have hhead : (A ++ B).head? = A.head? := by
      obtain ⟨a, A, rfl⟩ := List.exists_cons_of_ne_nil hne
      rfl
    rw [hhead] at hsplit ⊢
    rw [sortNodes, if_pos hlen, ← hA, hsplit]
    rw [← hA] at heq₁
    simp only [Option.bind_eq_bind, Option.bind_some, heq₁, heq₂, heq₃]
  · have hx' := hx
    rw [List.mem_append, not_or] at hx'
    rw [hsame₃ x (mt hperm.mem_iff.mp hx), hsame₂ x hx'.2, hsame₁ x hx'.1, hsame₀ x hx]

/-- Below the largest int, the nodes come out linked as the sort of lists has them. -/
theorem sortNodes_spec (cmp : Nat → Nat → Int) (fuel : Nat) {len : Nat} (h : Linked next l)
    (hlen : l.length = len) (hint : len + 1 < 2 ^ 31)
    (hfuel : len ≤ fuel) :
    ∃ next', sortNodes cmp fuel next l.head? len = some (next', (sortList cmp l len).head?) ∧
      SortedAs next next' l (sortList cmp l len) := by
  induction l, len using sortList.induct generalizing next with
  | case1 l len hgt ih1 ih2 =>
    have htake : (l.take (len / 2)).length = len / 2 := by
      rw [List.length_take]
      omega
    have hdrop : (l.drop (len / 2)).length = (len + 1) / 2 := by
      rw [List.length_drop]
      omega
    have hne : l.take (len / 2) ≠ [] := fun hc => by
      rw [hc, List.length_nil] at htake
      omega
    have hneB : l.drop (len / 2) ≠ [] := fun hc => by
      rw [hc, List.length_nil] at hdrop
      omega
    have hhalf : (len : Int).tdiv 2 = (len / 2 : Nat) := by
      rw [Int.tdiv_eq_ediv_of_nonneg (by omega)]
      rfl
    have hother : (asInt ((len : Int) + 1)).tdiv 2 = ((len + 1) / 2 : Nat) := by
      rw [asInt_succ hint, Int.tdiv_eq_ediv_of_nonneg (by omega)]
      rfl
    rw [sortList, if_pos hgt]
    have hlinked : Linked next (l.take (len / 2) ++ l.drop (len / 2)) := by rwa [List.take_append_drop]
    have hsorted := sortNodes_halves hlinked (show (len : Int) > 1 by omega)
      (by rw [htake, hhalf]) hne
      (fun next hA => hhalf ▸ ih1 hA htake (by omega) (by omega))
      (fun next hB => hother ▸ ih2 hB hdrop (by omega) (by omega))
      (sortList_perm cmp _ _) (sortList_perm cmp _ _) hneB (by omega)
    rwa [List.take_append_drop] at hsorted
  | case2 l len hle =>
    rw [sortList, if_neg hle]
    exact ⟨next, hlen ▸ sortNodes_short (by omega), h, fun _ _ => rfl⟩

/-- At the largest int, the length of the second half overflows, and it is left as it is. -/
theorem sortNodes_largest (cmp : Nat → Nat → Int) (fuel : Nat) (h : Linked next l)
    (hlen : l.length + 1 = 2 ^ 31) (hfuel : l.length ≤ fuel) :
    ∃ next', sortNodes cmp fuel next l.head? l.length =
        some (next', (mergeLists cmp (sortList cmp (l.take (l.length / 2)) (l.length / 2))
          (l.drop (l.length / 2))).head?) ∧
      SortedAs next next' l (mergeLists cmp (sortList cmp (l.take (l.length / 2)) (l.length / 2))
        (l.drop (l.length / 2))) := by
  have htake : (l.take (l.length / 2)).length = l.length / 2 := by
    rw [List.length_take]
    omega
  have hdrop : (l.drop (l.length / 2)).length = (l.length + 1) / 2 := by
    rw [List.length_drop]
    omega
  have hne : l.take (l.length / 2) ≠ [] := fun hc => by
    rw [hc, List.length_nil] at htake
    omega
  have hneB : l.drop (l.length / 2) ≠ [] := fun hc => by
    rw [hc, List.length_nil] at hdrop
    omega
  have hhalf : (l.length : Int).tdiv 2 = (l.length / 2 : Nat) := by
    rw [Int.tdiv_eq_ediv_of_nonneg (by omega)]
    rfl
  have hother : (asInt ((l.length : Int) + 1)).tdiv 2 = -2 ^ 30 := by
    rw [show (l.length : Int) + 1 = 2 ^ 31 by omega]
    decide
  have hlinked : Linked next (l.take (l.length / 2) ++ l.drop (l.length / 2)) := by
    rwa [List.take_append_drop]
  have hsorted := sortNodes_halves hlinked (show (l.length : Int) > 1 by omega)
    (by rw [htake, hhalf]) hne
    (fun next hA => hhalf ▸ sortNodes_spec cmp fuel hA htake (by omega) (by omega))
    (fun next hB => ⟨next, by rw [hother, sortNodes, if_neg (by decide)], hB, fun _ _ => rfl⟩)
    (sortList_perm cmp _ _) (List.Perm.refl _) hneB (by omega)
  rwa [List.take_append_drop] at hsorted

/-! ## The order -/

theorem TotalPreorder.of_not_lt (hcmp : TotalPreorder cmp) (h : ¬cmp a b < 0) : cmp b a ≤ 0 := by
  rcases Int.lt_or_le 0 (cmp b a) with hpos | hle
  · exact absurd ((hcmp.swap a b).mpr hpos) h
  · exact hle

theorem mergeLists_inOrder (hcmp : TotalPreorder cmp) (hA : InOrder cmp A) (hB : InOrder cmp B) :
    InOrder cmp (mergeLists cmp A B) := by
  induction A, B using merge_induction cmp with
  | nil_left B => rwa [mergeLists_nil_left]
  | nil_right A => rwa [mergeLists_nil_right]
  | left a A b B hc ih =>
    obtain ⟨haA, hA'⟩ := List.pairwise_cons.mp hA
    rw [mergeLists_cons, if_pos hc]
    refine List.pairwise_cons.mpr ⟨fun y hy => ?_, ih hA' hB⟩
    rcases List.mem_append.mp ((mergeLists_perm cmp A (b :: B)).subset hy) with hy | hy
    · exact haA y hy
    · rcases List.mem_cons.mp hy with rfl | hy
      · exact Int.le_of_lt hc
      · exact hcmp.trans a b y (Int.le_of_lt hc) ((List.pairwise_cons.mp hB).1 y hy)
  | right a A b B hc ih =>
    obtain ⟨hbB, hB'⟩ := List.pairwise_cons.mp hB
    have hba := hcmp.of_not_lt hc
    rw [mergeLists_cons, if_neg hc]
    refine List.pairwise_cons.mpr ⟨fun y hy => ?_, ih hA hB'⟩
    rcases List.mem_append.mp ((mergeLists_perm cmp (a :: A) B).subset hy) with hy | hy
    · rcases List.mem_cons.mp hy with rfl | hy
      · exact hba
      · exact hcmp.trans b a y hba ((List.pairwise_cons.mp hA).1 y hy)
    · exact hbB y hy

theorem sortList_inOrder (hcmp : TotalPreorder cmp) {len : Nat} (hlen : l.length = len) :
    InOrder cmp (sortList cmp l len) := by
  induction l, len using sortList.induct with
  | case1 l len hgt ih1 ih2 =>
    rw [sortList, if_pos hgt]
    refine mergeLists_inOrder hcmp (ih1 ?_) (ih2 ?_)
    · rw [List.length_take]
      omega
    · rw [List.length_drop]
      omega
  | case2 l len hle =>
    rw [sortList, if_neg hle]
    cases l with
    | nil => exact List.Pairwise.nil
    | cons x l =>
      cases l with
      | nil => exact List.pairwise_singleton _ _
      | cons y l =>
        simp only [List.length_cons] at hlen
        omega

/-- What the sort of the largest length gives is in order when the second half was. -/
theorem sorts_largest_iff (hcmp : TotalPreorder cmp) (h : Linked next l) (hlen : l.length + 1 = 2 ^ 31) :
    Sorts cmp next l ↔ InOrder cmp (l.drop (l.length / 2)) := by
  have hperm : (mergeLists cmp (sortList cmp (l.take (l.length / 2)) (l.length / 2))
      (l.drop (l.length / 2))).Perm l := by
    refine (mergeLists_perm cmp _ _).trans ?_
    have hhalves := (sortList_perm cmp (l.take (l.length / 2)) (l.length / 2)).append_right
      (l.drop (l.length / 2))
    rwa [List.take_append_drop] at hhalves
  constructor
  · intro hsorts
    obtain ⟨next', l', hsort, -, hlinked, horder⟩ := hsorts l.length (Nat.le_refl _)
    obtain ⟨next'', heq, hlinked', -⟩ := sortNodes_largest cmp l.length h hlen (Nat.le_refl _)
    have hboth := hsort.symm.trans heq
    obtain ⟨hnext, hhead⟩ := Prod.ext_iff.mp (Option.some.inj hboth)
    dsimp only at hnext hhead
    rw [hnext] at hlinked
    rw [linked_unique hlinked hlinked' hhead] at horder
    exact horder.sublist (sublist_merge_right cmp _ _)
  · intro horder fuel hfuel
    obtain ⟨next', heq, hlinked, -⟩ := sortNodes_largest cmp fuel h hlen hfuel
    refine ⟨next', _, heq, hperm, hlinked, ?_⟩
    refine mergeLists_inOrder hcmp (sortList_inOrder hcmp ?_) horder
    rw [List.length_take]
    omega

/-- The nodes of a list of any length that is an int come out linked in order, but when the length
plus 1 is no int any more, only if the second half was in order before. -/
theorem list_is_sorted_iff (hcmp : TotalPreorder cmp) (h : Linked next l) (hlen : l.length < 2 ^ 31) :
    Sorts cmp next l ↔ l.length + 1 < 2 ^ 31 ∨ InOrder cmp (l.drop (l.length / 2)) := by
  by_cases hint : l.length + 1 < 2 ^ 31
  · refine iff_of_true (fun fuel hfuel => ?_) (.inl hint)
    obtain ⟨next', heq, hlinked, -⟩ := sortNodes_spec cmp fuel h rfl hint hfuel
    exact ⟨next', _, heq, sortList_perm cmp l _, hlinked, sortList_inOrder hcmp rfl⟩
  · rw [sorts_largest_iff hcmp h (by omega)]
    exact (or_iff_right hint).symm

/-- The addresses, the higher ones first. -/
def downwards (a b : Nat) : Int := (b : Int) - a

theorem downwards_totalPreorder : TotalPreorder downwards where
  swap a b := by
    unfold downwards
    omega
  trans a b c := by
    unfold downwards
    omega

/-- Each node points to the next one, up to the last. -/
def row (n : Nat) (a : Nat) : Ptr := if a + 1 < n then some (a + 1) else none

theorem linked_row (n k : Nat) (h : k ≤ n) : Linked (row n) (List.range' (n - k) k) := by
  induction k with
  | zero => exact linked_nil
  | succ k ih =>
    rw [List.range'_succ, linked_cons, show n - (k + 1) + 1 = n - k by omega]
    refine ⟨?_, ih (by omega)⟩
    unfold row
    cases k with
    | zero => exact if_neg (by omega)
    | succ k =>
      rw [List.range'_succ, if_pos (by omega), show n - (k + 1 + 1) + 1 = n - (k + 1) by omega]
      rfl

theorem not_inOrder_downwards {m : Nat} (h : 2 ≤ m) : ¬InOrder downwards (List.range' a m) := by
  obtain ⟨m, rfl⟩ : ∃ k, m = k + 2 := ⟨m - 2, by omega⟩
  intro horder
  rw [List.range'_succ, List.range'_succ] at horder
  have hle := (List.pairwise_cons.mp horder).1 (a + 1) List.mem_cons_self
  unfold downwards at hle
  omega

theorem three_nodes_are_sorted : Sorts downwards (row 3) [0, 1, 2] :=
  (list_is_sorted_iff downwards_totalPreorder (linked_row 3 3 (Nat.le_refl 3)) (by decide)).mpr
    (.inl (by decide))

/-- A list of the largest length that runs upwards is not sorted downwards. -/
theorem largest_list_is_not_sorted :
    ¬∀ (cmp : Nat → Nat → Int) (next : Links) (l : List Nat), TotalPreorder cmp → Linked next l →
      l.length < 2 ^ 31 → Sorts cmp next l := by
  intro h
  have hlength : (List.range' 0 (2 ^ 31 - 1)).length = 2 ^ 31 - 1 := List.length_range'
  have hlinked : Linked (row (2 ^ 31 - 1)) (List.range' 0 (2 ^ 31 - 1)) :=
    linked_row (2 ^ 31 - 1) (2 ^ 31 - 1) (Nat.le_refl _)
  have hsorts := h downwards (row (2 ^ 31 - 1)) (List.range' 0 (2 ^ 31 - 1)) downwards_totalPreorder
    hlinked (by omega)
  rw [sorts_largest_iff downwards_totalPreorder hlinked (by omega), hlength, List.drop_range'] at hsorts
  exact not_inOrder_downwards (by decide) hsorts

end ups_rules.node_sort
