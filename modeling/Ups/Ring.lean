-- Doubly linked rings: nodes with a next and a previous link, headed by a node that is on
-- no list itself, and what linking and unlinking a node does to the list.
import Mathlib.Data.List.Basic
import Mathlib.Data.List.Nodup
import Mathlib.Logic.Function.Basic

namespace ring

variable {α : Type} {next prev next' prev' : α → α} {a b h m z : α}
  {l l1 l2 : List α}

/-- The links lead from `a` over the nodes of the list to `z`, and back. -/
def Seg (next prev : α → α) : α → List α → α → Prop
  | a, [], z => next a = z ∧ prev z = a
  | a, b :: l, z => next a = b ∧ prev b = a ∧ Seg next prev b l z

/-- The nodes of the ring headed by `h`, in the order of the next links, each once. -/
structure IsRing (next prev : α → α) (h : α) (l : List α) : Prop where
  seg : Seg next prev h l h
  nodup : (h :: l).Nodup

theorem seg_nil : Seg next prev a [] z ↔ next a = z ∧ prev z = a := Iff.rfl

theorem seg_cons :
    Seg next prev a (b :: l) z ↔ next a = b ∧ prev b = a ∧ Seg next prev b l z := Iff.rfl

theorem seg_append :
    Seg next prev a (l1 ++ b :: l2) z ↔ Seg next prev a l1 b ∧ Seg next prev b l2 z := by
  induction l1 generalizing a with
  | nil => rw [List.nil_append, seg_cons, seg_nil, and_assoc]
  | cons c l1 ih => rw [List.cons_append, seg_cons, seg_cons, ih, and_assoc, and_assoc]

/-- Only the next links of `a` and of the list, and the previous links of the list and of `z`,
are looked at. -/
theorem seg_congr (hnext : ∀ x ∈ a :: l, next' x = next x)
    (hprev : ∀ x ∈ l ++ [z], prev' x = prev x) (hseg : Seg next prev a l z) :
    Seg next' prev' a l z := by
  induction l generalizing a with
  | nil =>
    unfold Seg at hseg ⊢
    rw [hnext a (by simp), hprev z (by simp)]
    exact hseg
  | cons b l ih =>
    unfold Seg at hseg ⊢
    obtain ⟨hab, hba, hrest⟩ := hseg
    rw [hnext a (by simp), hprev b (by simp)]
    refine ⟨hab, hba, ih ?_ ?_ hrest⟩
    · intro x hx
      exact hnext x (List.mem_cons_of_mem a hx)
    · intro x hx
      exact hprev x (List.mem_cons_of_mem b hx)

theorem prev_mem (hseg : Seg next prev a l m) : prev m ∈ a :: l := by
  induction l generalizing a with
  | nil =>
    rw [hseg.2]
    exact List.mem_cons_self
  | cons b l ih => exact List.mem_cons_of_mem a (ih hseg.2.2)

/-- The last link leads to `z` instead. -/
theorem seg_retarget (hseg : Seg next prev a l m) (hnodup : (a :: l).Nodup)
    (hnext : ∀ x, x ≠ prev m → next' x = next x) (hprev : ∀ x ∈ l, prev' x = prev x)
    (hto : next' (prev m) = z) (hback : prev' z = prev m) : Seg next' prev' a l z := by
  induction l generalizing a with
  | nil =>
    rw [hseg.2] at hto hback
    exact ⟨hto, hback⟩
  | cons b l ih =>
    obtain ⟨hab, hba, hrest⟩ := hseg
    have ha : a ≠ prev m := fun hc => (List.nodup_cons.mp hnodup).1 (hc ▸ prev_mem hrest)
    refine ⟨(hnext a ha).trans hab, (hprev b List.mem_cons_self).trans hba, ih hrest ?_ ?_⟩
    · exact (List.nodup_cons.mp hnodup).2
    · intro x hx
      exact hprev x (List.mem_cons_of_mem b hx)

/-- What the links of a node on the ring lead to leads back. -/
theorem IsRing.links (hring : IsRing next prev h l) (hm : m ∈ l) :
    prev (next m) = m ∧ next (prev m) = m := by
  obtain ⟨l1, l2, rfl⟩ := List.append_of_mem hm
  obtain ⟨hleft, hright⟩ := seg_append.mp hring.seg
  constructor
  · cases l2 with
    | nil =>
      obtain ⟨hn, hp⟩ := hright
      rw [hn, hp]
    | cons b l2 =>
      obtain ⟨hn, hp, -⟩ := hright
      rw [hn, hp]
  · rcases l1.eq_nil_or_concat with rfl | ⟨l1, b, rfl⟩
    · obtain ⟨hn, hp⟩ := hleft
      rw [hp, hn]
    · rw [List.concat_eq_append] at hleft
      obtain ⟨-, hn, hp⟩ := seg_append.mp hleft
      rw [hp, hn]

/-- No node of the ring is its own neighbour. -/
theorem IsRing.prev_ne (hring : IsRing next prev h l) (hm : m ∈ l) : prev m ≠ m := by
  obtain ⟨l1, l2, rfl⟩ := List.append_of_mem hm
  have hmem := prev_mem (seg_append.mp hring.seg).1
  have hnodup : (h :: l1 ++ m :: l2).Nodup := hring.nodup
  intro hc
  rw [hc] at hmem
  exact (List.nodup_append.mp hnodup).2.2 m hmem m List.mem_cons_self rfl

theorem isRing_nil (hn : next h = h) (hp : prev h = h) : IsRing next prev h [] where
  seg := ⟨hn, hp⟩
  nodup := List.nodup_singleton h

/-- A ring without nodes is the head alone. -/
theorem IsRing.eq_nil_iff (hring : IsRing next prev h l) : next h = h ↔ l = [] := by
  cases l with
  | nil => exact iff_of_true hring.seg.1 rfl
  | cons b l =>
    have hb : next h = b := hring.seg.1
    have hne : h ≠ b := by
      rintro rfl
      exact absurd hring.nodup (by simp)
    rw [hb]
    exact iff_of_false (Ne.symm hne) (by simp)

theorem IsRing.next_cons (hring : IsRing next prev h (b :: l)) : next h = b := hring.seg.1

section
variable [DecidableEq α]

/-- A node that is not on the ring is linked behind the head. -/
theorem IsRing.link (hring : IsRing next prev h l) (hm : m ∉ h :: l)
    (hn : next' = Function.update (Function.update next m (next h)) h m)
    (hp : prev' = Function.update (Function.update prev m h) (next h) m) :
    IsRing next' prev' h (m :: l) := by
  have hmh : m ≠ h := fun hc => hm (hc ▸ List.mem_cons_self)
  have hml : m ∉ l := fun hc => hm (List.mem_cons_of_mem h hc)
  have hnodup := hring.nodup
  have hnh : next' h = m := by rw [hn, Function.update_self]
  have hnm : next' m = next h := by
    rw [hn, Function.update_of_ne hmh, Function.update_self]
  have hpn : prev' (next h) = m := by rw [hp, Function.update_self]
  have hpm : prev' m = h := by
    have hne : m ≠ next h := by
      rintro hc
      cases l with
      | nil => exact hmh (hc.trans hring.seg.1)
      | cons b l => exact hml (by rw [hc, hring.next_cons]; exact List.mem_cons_self)
    rw [hp, Function.update_of_ne hne, Function.update_self]
  refine ⟨⟨hnh, hpm, ?_⟩, ?_⟩
  · cases l with
    | nil =>
      have hh : next h = h := hring.seg.1
      rw [hh] at hnm hpn
      exact ⟨hnm, hpn⟩
    | cons b l =>
      obtain ⟨hb, hbh, hrest⟩ := hring.seg
      rw [hb] at hnm hpn
      refine ⟨hnm, hpn, seg_congr ?_ ?_ hrest⟩
      · intro x hx
        have hxm : x ≠ m := fun hc => hml (hc ▸ hx)
        have hxh : x ≠ h := fun hc => (List.nodup_cons.mp hnodup).1 (hc ▸ hx)
        rw [hn, Function.update_of_ne hxh, Function.update_of_ne hxm]
      · intro x hx
        have hxm : x ≠ m := by
          rintro rfl
          rcases List.mem_append.mp hx with hx | hx
          · exact hml (List.mem_cons_of_mem b hx)
          · exact hmh (List.mem_singleton.mp hx)
        have hxb : x ≠ next h := by
          rw [hb]
          rintro rfl
          rcases List.mem_append.mp hx with hx | hx
          · exact (List.nodup_cons.mp (List.nodup_cons.mp hnodup).2).1 hx
          · exact (List.nodup_cons.mp hnodup).1 (List.mem_singleton.mp hx ▸ List.mem_cons_self)
        rw [hp, Function.update_of_ne hxb, Function.update_of_ne hxm]
  · rw [List.nodup_cons, List.nodup_cons]
    rw [List.nodup_cons] at hnodup
    refine ⟨?_, hml, hnodup.2⟩
    rw [List.mem_cons, not_or]
    exact ⟨hmh.symm, hnodup.1⟩

/-- A node of the ring is taken out of it. -/
theorem IsRing.unlink (hring : IsRing next prev h l) (hm : m ∈ l)
    (hn : next' = Function.update next (prev m) (next m))
    (hp : prev' = Function.update prev (next m) (prev m)) :
    IsRing next' prev' h (l.erase m) := by
  have hnodup := hring.nodup
  obtain ⟨l1, l2, rfl⟩ := List.append_of_mem hm
  obtain ⟨hleft, hright⟩ := seg_append.mp hring.seg
  have herase : (l1 ++ m :: l2).erase m = l1 ++ l2 := by
    have hm1 : m ∉ l1 := by
      intro hc
      simp [List.nodup_append] at hnodup
      grind
    rw [List.erase_append_right _ hm1, List.erase_cons_head]
  have hnodup' : (h :: (l1 ++ l2)).Nodup := by
    refine List.Nodup.sublist ?_ hnodup
    apply List.Sublist.cons_cons
    exact List.Sublist.append_left (List.sublist_cons_self m l2) l1
  have hsame : ∀ x, x ≠ prev m → next' x = next x := by
    intro x hx
    rw [hn, Function.update_of_ne hx]
  have hsame' : ∀ x, x ≠ next m → prev' x = prev x := by
    intro x hx
    rw [hp, Function.update_of_ne hx]
  have hto : next' (prev m) = next m := by rw [hn, Function.update_self]
  have hback : prev' (next m) = prev m := by rw [hp, Function.update_self]
  refine ⟨?_, by rwa [herase]⟩
  rw [herase]
  have hmem : prev m ∈ h :: l1 := prev_mem hleft
  have hnext_not : next m ∉ l1 := by
    intro hc
    cases l2 with
    | nil =>
      rw [hright.1] at hc
      simp [hc] at hnodup
    | cons b l2 =>
      rw [hright.1] at hc
      simp [List.nodup_append] at hnodup
      grind
  have hfront : Seg next' prev' h l1 (next m) :=
    seg_retarget hleft (by simp at hnodup' ⊢; grind) hsame
      (fun x hx => hsame' x fun hc => hnext_not (hc ▸ hx)) hto hback
  cases l2 with
  | nil =>
    rw [hright.1] at hfront
    rwa [List.append_nil]
  | cons b l2 =>
    obtain ⟨hb, -, hrest⟩ := hright
    rw [hb] at hfront hsame'
    rw [seg_append]
    refine ⟨hfront, seg_congr ?_ ?_ hrest⟩
    · intro x hx
      apply hsame
      rintro rfl
      simp [List.nodup_append] at hnodup'
      simp at hmem hx
      grind
    · intro x hx
      apply hsame'
      rintro rfl
      simp [List.nodup_append] at hnodup'
      simp at hx
      grind

end

end ring
