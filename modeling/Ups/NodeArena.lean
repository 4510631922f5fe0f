-- Nodes that are linked into disjoint lists: taking a node out of its list, putting one in front
-- of a list, moving a whole list, and the search with a predecessor.
import Mathlib.Data.List.Basic
import Mathlib.Data.List.Nodup
import Mathlib.Data.List.Perm.Subperm
import Mathlib.Logic.Function.Basic
import Ups.LinkedPath

namespace node_arena

open linked_path

/-- The links of nodes that point to the next one, and of the head pointer. -/
def linkOf (head : Option Nat) (next : Nat → Option Nat) : Option Nat → Option Nat
  | none => head
  | some a => next a

/-- From its first node on, the nodes of the list point to each other, and the last one to nothing. -/
def Linked (next : Nat → Option Nat) (l : List Nat) : Prop :=
  Path (linkOf l.head? next) none l none

variable {next next' : Nat → Option Nat} {a b : Nat} {l l1 l2 : List Nat}

theorem linked_nil : Linked next [] := rfl

theorem linked_cons : Linked next (a :: l) ↔ next a = l.head? ∧ Linked next l := by
  have hrest : ∀ head, Path (linkOf head next) (some a) l none ↔
      next a = l.head? ∧ Linked next l := by
    intro head
    cases l with
    | nil => exact ⟨fun h => ⟨h, linked_nil⟩, fun h => h.1⟩
    | cons b l =>
      have hhead : ∀ x ∈ some b :: l.map some,
          linkOf head next x = linkOf (b :: l).head? next x := by
        intro x hx
        rw [← List.map_cons, List.mem_map] at hx
        obtain ⟨c, -, rfl⟩ := hx
        rfl
      constructor
      · intro h
        exact ⟨h.1, rfl, h.2.congr fun x hx => (hhead x hx).symm⟩
      · rintro ⟨hnext, -, h⟩
        exact ⟨hnext, h.congr hhead⟩
  constructor
  · intro h
    exact (hrest _).mp h.2
  · intro h
    exact ⟨rfl, (hrest _).mpr h⟩

theorem Linked.congr (h : Linked next l) (hsame : ∀ x ∈ l, next' x = next x) : Linked next' l := by
  induction l with
  | nil => exact linked_nil
  | cons a l ih =>
    rw [linked_cons] at h ⊢
    refine ⟨(hsame a List.mem_cons_self).trans h.1, ih h.2 ?_⟩
    intro x hx
    exact hsame x (List.mem_cons_of_mem a hx)

/-- Each node points to the first one behind it. -/
theorem Linked.next_eq (h : Linked next (l1 ++ a :: l2)) : next a = l2.head? := by
  induction l1 with
  | nil => exact (linked_cons.mp h).1
  | cons b l1 ih => exact ih (linked_cons.mp h).2

/-- A list is linked in front of another one when its last node points there. -/
theorem Linked.append (h1 : Linked next l1) (h2 : Linked next l2) (hnodup : l1.Nodup)
    (hdis : ∀ x ∈ l1, x ∉ l2) (hlast : l1.getLast? = some b) :
    Linked (Function.update next b l2.head?) (l1 ++ l2) := by
  induction l1 with
  | nil => cases hlast
  | cons a l1 ih =>
    rw [linked_cons] at h1
    rw [List.nodup_cons] at hnodup
    rw [List.cons_append, linked_cons]
    cases l1 with
    | nil =>
      obtain rfl : a = b := Option.some.inj hlast
      refine ⟨Function.update_self .., h2.congr ?_⟩
      intro x hx
      apply Function.update_of_ne
      rintro rfl
      exact hdis x List.mem_cons_self hx
    | cons c l1 =>
      rw [List.getLast?_cons_cons] at hlast
      refine ⟨?_, ih h1.2 hnodup.2 (fun x hx => hdis x (List.mem_cons_of_mem a hx)) hlast⟩
      rw [Function.update_of_ne, h1.1]
      · rfl
      · rintro rfl
        exact hnodup.1 (List.mem_of_getLast? hlast)

/-- The pointers after node `a` behind `prev` is unlinked; the head pointer is not among them. -/
def unlink (next : Nat → Option Nat) (prev : Option Nat) (a : Nat) : Nat → Option Nat :=
  match prev with
  | none => next
  | some b => Function.update next b (next a)

theorem unlink_of_ne (hb : (∀ c, l1.getLast? = some c → b ≠ c)) :
    unlink next l1.getLast? a b = next b := by
  cases hlast : l1.getLast? with
  | none => rfl
  | some c => exact Function.update_of_ne (hb c hlast) ..

theorem Linked.remove (h : Linked next (l1 ++ a :: l2)) (hnodup : (l1 ++ a :: l2).Nodup) :
    Linked (unlink next l1.getLast? a) (l1 ++ l2) := by
  induction l1 with
  | nil => exact (linked_cons.mp h).2
  | cons b l1 ih =>
    rw [List.cons_append, linked_cons] at h
    rw [List.cons_append, List.nodup_cons] at hnodup
    rw [List.cons_append, linked_cons]
    cases l1 with
    | nil =>
      have hba : b ∉ l2 := fun hb => hnodup.1 (List.mem_cons_of_mem a hb)
      refine ⟨(Function.update_self ..).trans (linked_cons.mp h.2).1, ?_⟩
      apply (linked_cons.mp h.2).2.congr
      intro x hx
      apply Function.update_of_ne
      rintro rfl
      exact hba hx
    | cons c l1 =>
      rw [List.getLast?_cons_cons]
      refine ⟨?_, ih h.2 hnodup.2⟩
      rw [unlink_of_ne, h.1]
      · rfl
      · rintro d hd rfl
        exact hnodup.1 (List.mem_append_left _ (List.mem_of_getLast? hd))

/-! ## The search with a predecessor -/

/-- `prev = NULL; for (x = head; x != NULL; x = x->next) { if (hit) break; prev = x; }`: the node
found and the one before it. `none` is a loop that has not come to its end. -/
def search (next : Nat → Option Nat) (hit : Nat → Bool) :
    Nat → Option Nat → Option Nat → Option (Option Nat × Option Nat)
  | 0, _, _ => none
  | _ + 1, none, prev => some (none, prev)
  | fuel + 1, some a, prev =>
    if hit a then some (some a, prev) else search next hit fuel (next a) (some a)

variable {fuel : Nat}

theorem search_missed (hit : Nat → Bool) (prev : Option Nat) (h : Linked next l) (hl : ∀ x ∈ l, hit x = false) (hfuel : l.length < fuel) :
    search next hit fuel l.head? prev = some (none, l.getLast?.or prev) := by
  induction l generalizing fuel prev with
  | nil =>
    cases fuel with
    | zero => exact absurd hfuel (Nat.not_lt_zero _)
    | succ fuel => rfl
  | cons a l ih =>
    cases fuel with
    | zero => exact absurd hfuel (Nat.not_lt_zero _)
    | succ fuel =>
      rw [linked_cons] at h
      have ha : hit a = false := hl a List.mem_cons_self
      rw [List.head?_cons, search, ha, if_neg Bool.false_ne_true, h.1,
        ih _ h.2 (fun x hx => hl x (List.mem_cons_of_mem a hx)) (Nat.lt_of_succ_lt_succ hfuel)]
      cases l with
      | nil => rfl
      | cons b l => rw [List.getLast?_cons_cons, List.getLast?_cons]; rfl

theorem search_found {hit : Nat → Bool} (prev : Option Nat) (h : Linked next (l1 ++ a :: l2)) (hl1 : ∀ x ∈ l1, hit x = false)
    (ha : hit a = true) (hfuel : (l1 ++ a :: l2).length < fuel) :
    search next hit fuel (l1 ++ a :: l2).head? prev = some (some a, l1.getLast?.or prev) := by
  induction l1 generalizing fuel prev with
  | nil =>
    cases fuel with
    | zero => exact absurd hfuel (Nat.not_lt_zero _)
    | succ fuel => exact if_pos ha
  | cons b l1 ih =>
    cases fuel with
    | zero => exact absurd hfuel (Nat.not_lt_zero _)
    | succ fuel =>
      rw [List.cons_append, linked_cons] at h
      have hb : hit b = false := hl1 b List.mem_cons_self
      rw [List.cons_append, List.head?_cons, search, hb, if_neg Bool.false_ne_true, h.1,
        ih _ h.2 (fun x hx => hl1 x (List.mem_cons_of_mem b hx)) (Nat.lt_of_succ_lt_succ hfuel)]
      cases l1 with
      | nil => rfl
      | cons c l1 => rw [List.getLast?_cons_cons, List.getLast?_cons]; rfl

/-! ## Disjoint lists -/

/-- The lists are linked, and none of the first `n` nodes is in two places. -/
structure Arena {ι : Type} (next : Nat → Option Nat) (n : Nat) (lists : ι → List Nat) : Prop where
  linked : ∀ i, Linked next (lists i)
  nodup : ∀ i, (lists i).Nodup
  apart : ∀ i j, ∀ a ∈ lists i, a ∈ lists j → i = j
  bound : ∀ i, ∀ a ∈ lists i, a < n

section lists

variable {ι : Type} {n : Nat} {lists : ι → List Nat} {i j : ι}

theorem Arena.length_le (h : Arena next n lists) (i : ι) : (lists i).length ≤ n := by
  have hsub : (lists i) ⊆ List.range n := fun a ha => List.mem_range.mpr (h.bound i a ha)
  have hle := ((h.nodup i).subperm hsub).length_le
  rwa [List.length_range] at hle

theorem Arena.grow (h : Arena next n lists) {m : Nat} (hm : n ≤ m) : Arena next m lists :=
  ⟨h.linked, h.nodup, h.apart, fun i a ha => Nat.lt_of_lt_of_le (h.bound i a ha) hm⟩

variable [DecidableEq ι]

/-- A node that is nowhere is put in front of a list. -/
theorem Arena.put (h : Arena next n lists) (ha : ∀ i, a ∉ lists i) (hn : a < n) (j : ι) :
    Arena (Function.update next a (lists j).head?) n (Function.update lists j (a :: lists j)) := by
  have hsame : ∀ i, Linked (Function.update next a (lists j).head?) (lists i) := by
    intro i
    apply (h.linked i).congr
    intro x hx
    apply Function.update_of_ne
    rintro rfl
    exact ha i hx
  have hmem : ∀ i, ∀ x ∈ Function.update lists j (a :: lists j) i,
      (x = a ∧ i = j) ∨ x ∈ lists i := by
    intro i x hx
    by_cases hij : i = j
    · subst hij
      rw [Function.update_self, List.mem_cons] at hx
      exact hx.imp (fun h => ⟨h, rfl⟩) id
    · rw [Function.update_of_ne hij] at hx
      exact Or.inr hx
  refine ⟨?_, ?_, ?_, ?_⟩
  · intro i
    by_cases hij : i = j
    · subst hij
      rw [Function.update_self, linked_cons, Function.update_self]
      exact ⟨rfl, hsame i⟩
    · rw [Function.update_of_ne hij]
      exact hsame i
  · intro i
    by_cases hij : i = j
    · subst hij
      rw [Function.update_self, List.nodup_cons]
      exact ⟨ha i, h.nodup i⟩
    · rw [Function.update_of_ne hij]
      exact h.nodup i
  · intro i k x hi hk
    rcases hmem i x hi with ⟨rfl, rfl⟩ | hxi <;> rcases hmem k x hk with ⟨hxa, rfl⟩ | hxk
    · rfl
    · exact absurd hxk (ha k)
    · exact absurd (hxa ▸ hxi) (ha i)
    · exact h.apart i k x hxi hxk
  · intro i x hi
    rcases hmem i x hi with ⟨rfl, -⟩ | hxi
    · exact hn
    · exact h.bound i x hxi

/-- A node is taken out of its list. -/
theorem Arena.take (h : Arena next n lists) (hi : lists i = l1 ++ a :: l2) :
    Arena (unlink next l1.getLast? a) n (Function.update lists i (l1 ++ l2)) ∧
      ∀ k, a ∉ Function.update lists i (l1 ++ l2) k := by
  have hnodup : (l1 ++ a :: l2).Nodup := hi ▸ h.nodup i
  have hsub : ∀ x ∈ l1 ++ l2, x ∈ lists i := by
    intro x hx
    rw [hi, List.mem_append, List.mem_cons]
    exact (List.mem_append.mp hx).imp id Or.inr
  have hmem : ∀ k, ∀ x ∈ Function.update lists i (l1 ++ l2) k, x ∈ lists k := by
    intro k x hx
    by_cases hki : k = i
    · subst hki
      rw [Function.update_self] at hx
      exact hsub x hx
    · rwa [Function.update_of_ne hki] at hx
  refine ⟨⟨?_, ?_, ?_, ?_⟩, ?_⟩
  · intro k
    by_cases hki : k = i
    · subst hki
      rw [Function.update_self]
      exact (hi ▸ h.linked k).remove hnodup
    · rw [Function.update_of_ne hki]
      apply (h.linked k).congr
      intro x hx
      apply unlink_of_ne
      rintro c hc rfl
      apply hki
      apply h.apart k i x hx
      rw [hi]
      exact List.mem_append_left _ (List.mem_of_getLast? hc)
  · intro k
    by_cases hki : k = i
    · subst hki
      rw [Function.update_self]
      exact hnodup.sublist ((List.sublist_cons_self a l2).append_left l1)
    · rw [Function.update_of_ne hki]
      exact h.nodup k
  · intro k m x hk hm
    exact h.apart k m x (hmem k x hk) (hmem m x hm)
  · intro k x hk
    exact h.bound k x (hmem k x hk)
  · intro k hk
    by_cases hki : k = i
    · subst hki
      rw [Function.update_self] at hk
      have hperm : (a :: (l1 ++ l2)).Nodup := (List.perm_middle.nodup_iff).mp hnodup
      exact (List.nodup_cons.mp hperm).1 hk
    · rw [Function.update_of_ne hki] at hk
      apply hki
      apply h.apart k i a hk
      rw [hi]
      exact List.mem_append_right _ List.mem_cons_self

/-- The nodes of a list are all put in front of another one. -/
theorem Arena.pour (h : Arena next n lists) (hij : i ≠ j) (hlast : (lists i).getLast? = some b) :
    Arena (Function.update next b (lists j).head?) n
      (Function.update (Function.update lists i []) j (lists i ++ lists j)) := by
  have hdis : ∀ x ∈ lists i, x ∉ lists j := fun x hi hj => hij (h.apart i j x hi hj)
  have hb : b ∈ lists i := List.mem_of_getLast? hlast
  have hmem : ∀ k, ∀ x ∈ Function.update (Function.update lists i []) j (lists i ++ lists j) k,
      (k = j ∧ (x ∈ lists i ∨ x ∈ lists j)) ∨ (k ≠ i ∧ k ≠ j ∧ x ∈ lists k) := by
    intro k x hx
    by_cases hkj : k = j
    · subst hkj
      rw [Function.update_self, List.mem_append] at hx
      exact Or.inl ⟨rfl, hx⟩
    · rw [Function.update_of_ne hkj] at hx
      by_cases hki : k = i
      · subst hki
        rw [Function.update_self] at hx
        exact absurd hx List.not_mem_nil
      · rw [Function.update_of_ne hki] at hx
        exact Or.inr ⟨hki, hkj, hx⟩
  refine ⟨?_, ?_, ?_, ?_⟩
  · intro k
    by_cases hkj : k = j
    · subst hkj
      rw [Function.update_self]
      exact (h.linked i).append (h.linked k) (h.nodup i) hdis hlast
    · rw [Function.update_of_ne hkj]
      by_cases hki : k = i
      · subst hki
        rw [Function.update_self]
        exact linked_nil
      · rw [Function.update_of_ne hki]
        apply (h.linked k).congr
        intro x hx
        apply Function.update_of_ne
        rintro rfl
        exact hki (h.apart k i x hx hb)
  · intro k
    by_cases hkj : k = j
    · subst hkj
      rw [Function.update_self]
      exact (h.nodup i).append (h.nodup k) hdis
    · rw [Function.update_of_ne hkj]
      by_cases hki : k = i
      · subst hki
        rw [Function.update_self]
        exact List.nodup_nil
      · rw [Function.update_of_ne hki]
        exact h.nodup k
  · intro k m x hk hm
    rcases hmem k x hk with ⟨rfl, hxk⟩ | ⟨hki, hkj, hxk⟩ <;>
      rcases hmem m x hm with ⟨rfl, hxm⟩ | ⟨hmi, hmj, hxm⟩
    · rfl
    · rcases hxk with hxk | hxk
      · exact absurd (h.apart m i x hxm hxk) hmi
      · exact absurd (h.apart m k x hxm hxk) hmj
    · rcases hxm with hxm | hxm
      · exact absurd (h.apart k i x hxk hxm) hki
      · exact absurd (h.apart k m x hxk hxm) hkj
    · exact h.apart k m x hxk hxm
  · intro k x hk
    rcases hmem k x hk with ⟨-, hxi | hxj⟩ | ⟨-, -, hxk⟩
    · exact h.bound i x hxi
    · exact h.bound j x hxj
    · exact h.bound k x hxk

end lists

end node_arena
