-- Doubly linked lists that end in null pointers: the nodes from a first one on, and what putting
-- a node in and taking one out does to the list.
import Ups.LinkedPath

open linked_path

namespace sibling_lists

variable {α : Type} {next prev next' prev' : α → Option α} {q f f' z : Option α} {a b : α}
  {l l1 l2 : List α}

/-- The pointer `f` and the next links lead over the nodes of the list to `z`, and the previous
links back to `q`. -/
def Linked (next prev : α → Option α) : Option α → Option α → List α → Option α → Prop
  | _, f, [], z => f = z
  | q, f, a :: l, z => f = some a ∧ prev a = q ∧ Linked next prev (some a) (next a) l z

theorem Linked.first (h : Linked next prev q f l none) : f = l.head? := by
  cases l with
  | nil => exact h
  | cons a l => exact h.1

/-- Only the links of the nodes are looked at. -/
theorem Linked.congr (h : Linked next prev q f l z) (hnext : ∀ x ∈ l, next' x = next x)
    (hprev : ∀ x ∈ l, prev' x = prev x) : Linked next' prev' q f l z := by
  induction l generalizing q f with
  | nil => exact h
  | cons a l ih =>
    rw [List.forall_mem_cons] at hnext hprev
    refine ⟨h.1, hprev.1.trans h.2.1, ?_⟩
    rw [hnext.1]
    exact ih h.2.2 hnext.2 hprev.2

/-- What the links of a node in the list lead to. -/
theorem Linked.links (h : Linked next prev q f (l1 ++ b :: l2) none) :
    prev b = lastOf q l1 ∧ next b = l2.head? := by
  induction l1 generalizing q f with
  | nil => exact ⟨h.2.1, h.2.2.first⟩
  | cons a l1 ih => exact ih h.2.2

/-- The previous link of the next node leads back. -/
theorem Linked.next_prev (h : Linked next prev q f l none) (ha : a ∈ l) (hb : next a = some b) :
    b ∈ l ∧ prev b = some a := by
  induction l generalizing q f with
  | nil => exact absurd ha List.not_mem_nil
  | cons c l ih =>
    rcases List.mem_cons.mp ha with rfl | ha
    · cases l with
      | nil =>
        have hnone := h.2.2
        rw [Linked, hb] at hnone
        cases hnone
      | cons d l =>
        obtain ⟨hd, hback, -⟩ := h.2.2
        obtain rfl : d = b := Option.some.inj (hd.symm.trans hb)
        exact ⟨by simp, hback⟩
    · obtain ⟨hmem, hback⟩ := ih h.2.2 ha
      exact ⟨List.mem_cons_of_mem c hmem, hback⟩

/-- The next link of the previous node leads back. -/
theorem Linked.prev_next (h : Linked next prev none f l none) (ha : a ∈ l)
    (hb : prev a = some b) : b ∈ l ∧ next b = some a := by
  obtain ⟨l1, l2, rfl⟩ := List.append_of_mem ha
  have hprev := h.links.1
  rw [hb] at hprev
  rcases l1.eq_nil_or_concat with rfl | ⟨l1, c, rfl⟩
  · cases hprev
  · rw [List.concat_eq_append] at h hprev ⊢
    rw [lastOf_append] at hprev
    obtain rfl : b = c := Option.some.inj hprev
    rw [List.append_assoc] at h ⊢
    exact ⟨by simp, h.links.2⟩

theorem lastOf_self_iff (hnodup : (a :: l).Nodup) : lastOf (some a) l = some a ↔ l = [] := by
  constructor
  · intro h
    by_contra hne
    have hmem := lastOf_mem none l
    rw [lastOf_congr none (some a) hne, h] at hmem
    have ha : a ∈ l := by simpa using hmem
    exact (List.nodup_cons.mp hnodup).1 ha
  · rintro rfl
    rfl

section
variable [DecidableEq α]

/-- A new node is put between those of `l1` and those of `l2`. -/
theorem Linked.insert (h : Linked next prev q f (l1 ++ l2) none) (hnodup : (l1 ++ l2).Nodup)
    (hb : b ∉ l1 ++ l2) (hbnext : next' b = l2.head?) (hbprev : prev' b = lastOf q l1)
    (hfirst : f' = if l1 = [] then some b else f)
    (hnext : ∀ x, x ∈ l1 ++ l2 → next' x = if some x = lastOf q l1 then some b else next x)
    (hprev : ∀ x, x ∈ l1 ++ l2 → prev' x = if some x = l2.head? then some b else prev x)
    (hq : ∀ x ∈ l1 ++ l2, some x ≠ q) : Linked next' prev' q f' (l1 ++ b :: l2) none := by
  induction l1 generalizing q f f' with
  | nil =>
    rw [List.nil_append] at h hnodup hnext hprev hq ⊢
    rw [if_pos rfl] at hfirst
    refine ⟨hfirst, hbprev, ?_⟩
    rw [hbnext]
    cases l2 with
    | nil => rfl
    | cons c l2 =>
      refine ⟨rfl, ?_, ?_⟩
      · rw [hprev c List.mem_cons_self, List.head?_cons, if_pos rfl]
      · rw [hnext c List.mem_cons_self, lastOf_nil, if_neg (hq c List.mem_cons_self)]
        refine h.2.2.congr ?_ ?_
        · intro x hx
          rw [hnext x (List.mem_cons_of_mem c hx), lastOf_nil,
            if_neg (hq x (List.mem_cons_of_mem c hx))]
        · intro x hx
          rw [hprev x (List.mem_cons_of_mem c hx), List.head?_cons, if_neg]
          rintro hc
          cases hc
          exact (List.nodup_cons.mp hnodup).1 hx
  | cons a l1 ih =>
    rw [List.cons_append] at h hnodup hb hnext hprev hq ⊢
    obtain ⟨hf, hback, hrest⟩ := h
    rw [if_neg (List.cons_ne_nil a l1)] at hfirst
    obtain ⟨ha, hnodup'⟩ := List.nodup_cons.mp hnodup
    have hahead : some a ≠ l2.head? := by
      intro hc
      exact ha (List.mem_append_right l1 (List.mem_of_head? hc.symm))
    refine ⟨hfirst.trans hf, ?_, ?_⟩
    · rw [hprev a List.mem_cons_self, if_neg hahead]
      exact hback
    · refine ih hrest hnodup' (fun hc => hb (List.mem_cons_of_mem a hc)) hbprev ?_ ?_ ?_ ?_
      · rw [hnext a List.mem_cons_self, lastOf_cons]
        have hnodup1 : (a :: l1).Nodup := by
          rw [← List.cons_append] at hnodup
          exact (List.nodup_append.mp hnodup).1
        by_cases hl1 : l1 = []
        · rw [if_pos hl1, if_pos ((lastOf_self_iff hnodup1).mpr hl1).symm]
        · rw [if_neg hl1, if_neg]
          exact fun hc => hl1 ((lastOf_self_iff hnodup1).mp hc.symm)
      · exact fun x hx => hnext x (List.mem_cons_of_mem a hx)
      · exact fun x hx => hprev x (List.mem_cons_of_mem a hx)
      · intro x hx hc
        cases hc
        exact ha hx

/-- The node between those of `l1` and those of `l2` is taken out. -/
theorem Linked.remove (h : Linked next prev q f (l1 ++ b :: l2) none)
    (hnodup : (l1 ++ b :: l2).Nodup)
    (hfirst : f' = if l1 = [] then l2.head? else f)
    (hnext : ∀ x, x ∈ l1 ++ l2 → next' x = if some x = lastOf q l1 then l2.head? else next x)
    (hprev : ∀ x, x ∈ l1 ++ l2 → prev' x = if some x = l2.head? then lastOf q l1 else prev x)
    (hq : ∀ x ∈ l1 ++ l2, some x ≠ q) : Linked next' prev' q f' (l1 ++ l2) none := by
  induction l1 generalizing q f f' with
  | nil =>
    rw [List.nil_append] at h hnodup hnext hprev hq ⊢
    rw [if_pos rfl] at hfirst
    rw [hfirst]
    cases l2 with
    | nil => rfl
    | cons c l2 =>
      obtain ⟨-, hc2⟩ := List.nodup_cons.mp hnodup
      refine ⟨rfl, ?_, ?_⟩
      · rw [hprev c List.mem_cons_self, List.head?_cons, if_pos rfl]
        rfl
      · rw [hnext c List.mem_cons_self, lastOf_nil, if_neg (hq c List.mem_cons_self)]
        refine h.2.2.2.2.congr ?_ ?_
        · intro x hx
          rw [hnext x (List.mem_cons_of_mem c hx), lastOf_nil,
            if_neg (hq x (List.mem_cons_of_mem c hx))]
        · intro x hx
          rw [hprev x (List.mem_cons_of_mem c hx), List.head?_cons, if_neg]
          rintro hc
          cases hc
          exact (List.nodup_cons.mp hc2).1 hx
  | cons a l1 ih =>
    rw [List.cons_append] at h hnodup hnext hprev hq ⊢
    obtain ⟨hf, hback, hrest⟩ := h
    rw [if_neg (List.cons_ne_nil a l1)] at hfirst
    obtain ⟨ha, hnodup'⟩ := List.nodup_cons.mp hnodup
    have hanot : a ∉ l1 ++ l2 := by
      intro hc
      refine ha ?_
      rcases List.mem_append.mp hc with hc | hc
      · exact List.mem_append_left _ hc
      · exact List.mem_append_right _ (List.mem_cons_of_mem b hc)
    have hahead : some a ≠ l2.head? := by
      intro hc
      exact hanot (List.mem_append_right l1 (List.mem_of_head? hc.symm))
    refine ⟨hfirst.trans hf, ?_, ?_⟩
    · rw [hprev a List.mem_cons_self, if_neg hahead]
      exact hback
    · refine ih hrest hnodup' ?_ ?_ ?_ ?_
      · rw [hnext a List.mem_cons_self, lastOf_cons]
        have hnodup1 : (a :: l1).Nodup := by
          rw [← List.cons_append] at hnodup
          exact (List.nodup_append.mp hnodup).1
        by_cases hl1 : l1 = []
        · rw [if_pos hl1, if_pos ((lastOf_self_iff hnodup1).mpr hl1).symm]
        · rw [if_neg hl1, if_neg]
          exact fun hc => hl1 ((lastOf_self_iff hnodup1).mp hc.symm)
      · exact fun x hx => hnext x (List.mem_cons_of_mem a hx)
      · exact fun x hx => hprev x (List.mem_cons_of_mem a hx)
      · intro x hx hc
        cases hc
        exact hanot hx

end

end sibling_lists
