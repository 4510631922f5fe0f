-- Rooted trees over any type: every node has a parent and a list of its children, and leads up
-- to the root. What attaching a new node, moving one and taking a leaf away does to the tree.
import Mathlib.Data.List.Nodup
import Mathlib.Data.List.Perm.Subperm
import Mathlib.Logic.Function.Basic
import Mathlib.Logic.Relation
import Mathlib.Tactic.Common

namespace trees

variable {α : Type} {root o p q a b : α} {mem mem' : α → Prop} {parent parent' : α → Option α}
  {kids kids' : α → List α}

/-- One step up. -/
def Up (parent : α → Option α) (o p : α) : Prop := parent o = some p

/-- The second node is the first one, or above it. -/
abbrev Anc (parent : α → Option α) : α → α → Prop := Relation.ReflTransGen (Up parent)

/-- The nodes of `mem` are a tree: what is below the root, each node once in the list of the
children of its parent. -/
structure IsTree (root : α) (mem : α → Prop) (parent : α → Option α) (kids : α → List α) : Prop where
  root_mem : mem root
  root_parent : parent root = none
  parent_mem : ∀ o p, mem o → parent o = some p → mem p
  mem_kids : ∀ p, mem p → ∀ o, o ∈ kids p ↔ mem o ∧ parent o = some p
  nodup : ∀ p, mem p → (kids p).Nodup
  reach : ∀ o, mem o → Anc parent o root

namespace IsTree

theorem exists_parent (h : IsTree root mem parent kids) (ho : mem o) (hne : o ≠ root) :
    ∃ p, parent o = some p ∧ mem p := by
  rcases Relation.ReflTransGen.cases_head (h.reach o ho) with rfl | ⟨p, hp, -⟩
  · exact absurd rfl hne
  · exact ⟨p, hp, h.parent_mem o p ho hp⟩

theorem mem_of_kid (h : IsTree root mem parent kids) (hp : mem p) (ho : o ∈ kids p) : mem o :=
  ((h.mem_kids p hp o).mp ho).1

theorem parent_of_kid (h : IsTree root mem parent kids) (hp : mem p) (ho : o ∈ kids p) :
    parent o = some p :=
  ((h.mem_kids p hp o).mp ho).2

theorem kid_ne_root (h : IsTree root mem parent kids) (hp : mem p) (ho : o ∈ kids p) :
    o ≠ root := by
  rintro rfl
  have hparent := h.parent_of_kid hp ho
  rw [h.root_parent] at hparent
  cases hparent

theorem anc_mem (h : IsTree root mem parent kids) (ho : mem o) (ha : Anc parent o a) : mem a := by
  induction ha with
  | refl => exact ho
  | tail _ hstep ih => exact h.parent_mem _ _ ih hstep

/-- The steps up from a node come to an end. -/
theorem acc (h : IsTree root mem parent kids) (ho : mem o) :
    Acc (fun p o => parent o = some p) o := by
  have hreach := h.reach o ho
  clear ho
  induction hreach using Relation.ReflTransGen.head_induction_on with
  | refl =>
    refine ⟨_, fun p hp => ?_⟩
    rw [h.root_parent] at hp
    cases hp
  | head hstep _ ih =>
    refine ⟨_, fun p hp => ?_⟩
    obtain rfl : p = _ := Option.some.inj (hp.symm.trans hstep)
    exact ih

/-- No node is above itself. -/
theorem not_anc_parent (h : IsTree root mem parent kids) (ho : mem o) (hp : parent o = some p) :
    ¬Anc parent p o := by
  induction h.acc ho generalizing p with
  | intro o _ ih =>
    intro hanc
    have hpmem := h.parent_mem o p ho hp
    rcases Relation.ReflTransGen.cases_head hanc with rfl | ⟨q, hq, hqo⟩
    · exact ih p hp hpmem hp Relation.ReflTransGen.refl
    · exact ih p hp hpmem hq (hqo.tail hp)

/-- Steps up from a node that do not come to `o` are not changed with the parent of `o`. -/
theorem anc_of_same (hsame : ∀ x, x ≠ o → parent' x = parent x) (hnot : ¬Anc parent a o)
    (hanc : Anc parent a b) : Anc parent' a b := by
  induction hanc with
  | refl => exact Relation.ReflTransGen.refl
  | tail hab hstep ih =>
    refine ih.tail ?_
    have hne : ∀ c, Anc parent a c → c ≠ o := by
      rintro c hc rfl
      exact hnot hc
    rename_i c d
    unfold Up
    rw [hsame c (hne c hab)]
    exact hstep

/-- A node that is given a parent which it is not above leaves all nodes below the root. -/
theorem reach_of_moved (hsame : ∀ x, x ≠ o → parent' x = parent x) (ho : parent' o = some p)
    (hp : Anc parent' p root) (hanc : Anc parent a root) : Anc parent' a root := by
  induction hanc using Relation.ReflTransGen.head_induction_on with
  | refl => exact Relation.ReflTransGen.refl
  | @head x y hstep _ ih =>
    by_cases hx : x = o
    · rw [hx]
      exact Relation.ReflTransGen.head ho hp
    · refine Relation.ReflTransGen.head ?_ ih
      unfold Up
      rw [hsame x hx]
      exact hstep

/-- A new node is put among the children of `p`. -/
theorem attach (h : IsTree root mem parent kids) (ho : ¬mem o) (hp : mem p)
    (hmem : ∀ x, mem' x ↔ x = o ∨ mem x) (hparent : parent' o = some p)
    (hsame : ∀ x, x ≠ o → parent' x = parent x) (hnone : kids' o = [])
    (hkids : ∀ x, mem x → ∀ y, y ∈ kids' x ↔ y = o ∧ x = p ∨ y ∈ kids x)
    (hnodup : ∀ x, mem x → (kids' x).Nodup) : IsTree root mem' parent' kids' := by
  have hne : ∀ x, mem x → x ≠ o := by
    rintro x hx rfl
    exact ho hx
  have hup : Anc parent' p root := by
    refine anc_of_same hsame ?_ (h.reach p hp)
    exact fun hanc => ho (h.anc_mem hp hanc)
  refine ⟨(hmem root).mpr (Or.inr h.root_mem), ?_, ?_, ?_, ?_, ?_⟩
  · rw [hsame root (hne root h.root_mem), h.root_parent]
  · intro x y hx hxy
    rw [hmem]
    by_cases hxo : x = o
    · rw [hxo, hparent] at hxy
      exact Or.inr (Option.some.inj hxy ▸ hp)
    · rw [hsame x hxo] at hxy
      exact Or.inr (h.parent_mem x y (((hmem x).mp hx).resolve_left hxo) hxy)
  · intro x hx y
    rw [hmem]
    by_cases hxo : x = o
    · rw [hxo, hnone]
      refine iff_of_false List.not_mem_nil ?_
      rintro ⟨rfl | hy, hpar⟩
      · rw [hparent] at hpar
        exact hne p hp (Option.some.inj hpar)
      · rw [hsame y (hne y hy)] at hpar
        exact ho (h.parent_mem y o hy hpar)
    · have hxmem := ((hmem x).mp hx).resolve_left hxo
      rw [hkids x hxmem, h.mem_kids x hxmem]
      by_cases hyo : y = o
      · rw [hyo, hparent]
        simp [ho, eq_comm]
      · rw [hsame y hyo]
        simp [hyo]
  · intro x hx
    rcases (hmem x).mp hx with rfl | hx
    · rw [hnone]
      exact List.nodup_nil
    · exact hnodup x hx
  · intro x hx
    rcases (hmem x).mp hx with rfl | hx
    · exact Relation.ReflTransGen.head hparent hup
    · exact reach_of_moved hsame hparent hup (h.reach x hx)

/-- A node that is not above `p` is put among the children of `p`. -/
theorem move (h : IsTree root mem parent kids) (ho : mem o) (hp : mem p)
    (hnot : ¬Anc parent p o) (hparent : parent' o = some p)
    (hsame : ∀ x, x ≠ o → parent' x = parent x)
    (hkids : ∀ x, mem x → ∀ y, y ∈ kids' x ↔ y = o ∧ x = p ∨ y ≠ o ∧ y ∈ kids x)
    (hnodup : ∀ x, mem x → (kids' x).Nodup) : IsTree root mem parent' kids' := by
  have hup : Anc parent' p root := anc_of_same hsame hnot (h.reach p hp)
  have hroot : root ≠ o := by
    rintro rfl
    exact hnot (h.reach p hp)
  refine ⟨h.root_mem, ?_, ?_, ?_, hnodup, ?_⟩
  · rw [hsame root hroot, h.root_parent]
  · intro x y hx hxy
    by_cases hxo : x = o
    · rw [hxo, hparent] at hxy
      exact Option.some.inj hxy ▸ hp
    · rw [hsame x hxo] at hxy
      exact h.parent_mem x y hx hxy
  · intro x hx y
    rw [hkids x hx, h.mem_kids x hx]
    by_cases hyo : y = o
    · rw [hyo, hparent]
      simp [ho, eq_comm]
    · rw [hsame y hyo]
      simp [hyo]
  · intro x hx
    exact reach_of_moved hsame hparent hup (h.reach x hx)

/-- A node without children is taken away. -/
theorem detach (h : IsTree root mem parent kids) (ho : mem o) (hne : o ≠ root)
    (hleaf : kids o = []) (hmem : ∀ x, mem' x ↔ x ≠ o ∧ mem x)
    (hsame : ∀ x, x ≠ o → parent' x = parent x)
    (hkids : ∀ x, mem' x → ∀ y, y ∈ kids' x ↔ y ≠ o ∧ y ∈ kids x)
    (hnodup : ∀ x, mem' x → (kids' x).Nodup) : IsTree root mem' parent' kids' := by
  have hnokid : ∀ x, mem x → parent x ≠ some o := by
    intro x hx hxo
    have hkid := (h.mem_kids o ho x).mpr ⟨hx, hxo⟩
    rw [hleaf] at hkid
    exact List.not_mem_nil hkid
  refine ⟨(hmem root).mpr ⟨hne.symm, h.root_mem⟩, ?_, ?_, ?_, hnodup, ?_⟩
  · rw [hsame root hne.symm, h.root_parent]
  · intro x y hx hxy
    obtain ⟨hxo, hx⟩ := (hmem x).mp hx
    rw [hsame x hxo] at hxy
    refine (hmem y).mpr ⟨?_, h.parent_mem x y hx hxy⟩
    rintro rfl
    exact hnokid x hx hxy
  · intro x hx y
    obtain ⟨hxo, hxmem⟩ := (hmem x).mp hx
    rw [hkids x hx, hmem, h.mem_kids x hxmem]
    by_cases hyo : y = o
    · simp [hyo]
    · rw [hsame y hyo]
      simp [hyo]
  · intro x hx
    obtain ⟨hxo, hx⟩ := (hmem x).mp hx
    refine anc_of_same hsame ?_ (h.reach x hx)
    intro hanc
    rcases Relation.ReflTransGen.cases_tail hanc with hc | ⟨y, hxy, hyo⟩
    · exact hxo hc.symm
    · exact hnokid y (h.anc_mem hx hxy) hyo

/-- The children of some nodes are put into another order. -/
theorem permute (h : IsTree root mem parent kids)
    (hkids : ∀ x, mem x → (kids' x).Perm (kids x)) : IsTree root mem parent kids' where
  root_mem := h.root_mem
  root_parent := h.root_parent
  parent_mem := h.parent_mem
  mem_kids := fun p hp o => ((hkids p hp).mem_iff).trans (h.mem_kids p hp o)
  nodup := fun p hp => ((hkids p hp).nodup_iff).mpr (h.nodup p hp)
  reach := h.reach

/-- The node and those above it, up to the root. -/
inductive Chain (parent : α → Option α) : α → List α → Prop where
  | root {o : α} : parent o = none → Chain parent o [o]
  | step {o p : α} {l : List α} : parent o = some p → Chain parent p l → Chain parent o (o :: l)

theorem chain_exists (h : IsTree root mem parent kids) (ho : mem o) :
    ∃ l, Chain parent o l ∧ l.Nodup ∧ ∀ x ∈ l, mem x ∧ Anc parent o x := by
  induction h.acc ho with
  | intro o _ ih =>
    cases hp : parent o with
    | none =>
      refine ⟨[o], .root hp, List.nodup_singleton o, ?_⟩
      rw [List.forall_mem_singleton]
      exact ⟨ho, Relation.ReflTransGen.refl⟩
    | some p =>
      obtain ⟨l, hl, hnodup, hall⟩ := ih p hp (h.parent_mem o p ho hp)
      refine ⟨o :: l, .step hp hl, List.nodup_cons.mpr ⟨?_, hnodup⟩, ?_⟩
      · intro hc
        exact h.not_anc_parent ho hp (hall o hc).2
      · rw [List.forall_mem_cons]
        refine ⟨⟨ho, Relation.ReflTransGen.refl⟩, fun x hx => ?_⟩
        exact ⟨(hall x hx).1, Relation.ReflTransGen.head hp (hall x hx).2⟩

/-- A node is not further from the root than there are nodes. -/
theorem chain_bounded (h : IsTree root mem parent kids) {nodes : List α}
    (hnodes : ∀ x, mem x → x ∈ nodes) (ho : mem o) :
    ∃ l, Chain parent o l ∧ l.length ≤ nodes.length ∧ ∀ x ∈ l, mem x := by
  obtain ⟨l, hl, hnodup, hall⟩ := h.chain_exists ho
  refine ⟨l, hl, ?_, fun x hx => (hall x hx).1⟩
  exact (hnodup.subperm fun x hx => hnodes x (hall x hx).1).length_le

theorem chain_mem_iff {l : List α} (hl : Chain parent o l) : a ∈ l ↔ Anc parent o a := by
  induction hl with
  | root hp =>
    rw [List.mem_singleton]
    constructor
    · rintro rfl
      exact Relation.ReflTransGen.refl
    · intro hanc
      rcases Relation.ReflTransGen.cases_head hanc with hc | ⟨q, hq, -⟩
      · exact hc.symm
      · rw [Up, hp] at hq
        cases hq
  | @step o p l hp _ ih =>
    rw [List.mem_cons, ih]
    constructor
    · rintro (rfl | hanc)
      · exact Relation.ReflTransGen.refl
      · exact Relation.ReflTransGen.head hp hanc
    · intro hanc
      rcases Relation.ReflTransGen.cases_head hanc with hc | ⟨q, hq, hqa⟩
      · exact Or.inl hc.symm
      · obtain rfl : q = p := Option.some.inj (hq.symm.trans hp)
        exact Or.inr hqa

theorem chain_unique {l l' : List α} (h : Chain parent o l) (h' : Chain parent o l') : l = l' := by
  induction h generalizing l' with
  | root hp =>
    cases h' with
    | root => rfl
    | step hp' =>
      rw [hp] at hp'
      cases hp'
  | step hp _ ih =>
    cases h' with
    | root hp' =>
      rw [hp] at hp'
      cases hp'
    | step hp' hl' =>
      rw [hp] at hp'
      cases hp'
      rw [ih hl']

theorem Chain.congr {l : List α} (h : Chain parent o l) (hsame : ∀ x ∈ l, parent' x = parent x) :
    Chain parent' o l := by
  induction h with
  | root hp =>
    rw [List.forall_mem_singleton] at hsame
    exact .root (hsame.trans hp)
  | step hp _ ih =>
    rw [List.forall_mem_cons] at hsame
    exact .step (hsame.1.trans hp) (ih hsame.2)

/-- Going over a list of nodes and all that is below them takes fewer than `n` nested turns, each
over a node, what is below it, and the rest of the list. -/
inductive Turns (kids : α → List α) : Nat → List α → Prop where
  | nil {n : Nat} : Turns kids (n + 1) []
  | cons {n : Nat} {c : α} {l : List α} : Turns kids n (kids c) → Turns kids n l →
    Turns kids (n + 1) (c :: l)

theorem Turns.mono {n m : Nat} {l : List α} (h : Turns kids n l) (hle : n ≤ m) :
    Turns kids m l := by
  induction h generalizing m with
  | nil =>
    obtain ⟨m, rfl⟩ := Nat.exists_eq_add_of_le hle
    rw [Nat.add_right_comm]
    exact .nil
  | cons _ _ ih1 ih2 =>
    obtain ⟨m, rfl⟩ := Nat.exists_eq_add_of_le hle
    rw [Nat.add_right_comm]
    exact .cons (ih1 (Nat.le_add_right _ _)) (ih2 (Nat.le_add_right _ _))

theorem Turns.sublist {n : Nat} {l l' : List α} (h : Turns kids n l)
    (hkids : ∀ x, (kids' x).Sublist (kids x)) (hl : l'.Sublist l) : Turns kids' n l' := by
  induction h generalizing l' with
  | nil =>
    rw [List.sublist_nil] at hl
    rw [hl]
    exact .nil
  | @cons n c l _ _ ih1 ih2 =>
    cases hl with
    | cons _ hl => exact (ih2 hl).mono (Nat.le_succ n)
    | cons_cons _ hl => exact .cons (ih1 (hkids c)) (ih2 hl)

/-- The turns for a list add up to those below one of its nodes and its length. -/
theorem turns_list {n : Nat} {l : List α} (h : ∀ c ∈ l, Turns kids (n + 1) (kids c)) :
    Turns kids (n + 1 + l.length) l := by
  induction l with
  | nil => exact .nil
  | cons c l ih =>
    rw [List.forall_mem_cons] at h
    exact .cons (h.1.mono (Nat.le_add_right _ _)) (ih h.2)

theorem turns_below (h : IsTree root mem parent kids) {nodes : List α}
    (hnodes : ∀ x, mem x → x ∈ nodes) (k : Nat) (ho : mem o) {l : List α}
    (hl : Chain parent o l) (hk : nodes.length ≤ l.length + k) :
    Turns kids (k * nodes.length + 1) (kids o) := by
  induction k generalizing o l with
  | zero =>
    cases hkids : kids o with
    | nil => exact .nil
    | cons c cs =>
      -- The child would be too far from the root
      exfalso
      have hc : c ∈ kids o := by
        rw [hkids]
        exact List.mem_cons_self
      obtain ⟨l', hl', hlen, -⟩ := h.chain_bounded hnodes (h.mem_of_kid ho hc)
      cases hl' with
      | root hnone =>
        rw [h.parent_of_kid ho hc] at hnone
        cases hnone
      | step hp hl' =>
        rw [h.parent_of_kid ho hc] at hp
        cases hp
        rw [chain_unique hl' hl, List.length_cons] at hlen
        omega
  | succ k ih =>
    have hlist : Turns kids (k * nodes.length + 1 + (kids o).length) (kids o) := by
      apply turns_list
      intro c hc
      refine ih (h.mem_of_kid ho hc) (.step (h.parent_of_kid ho hc) hl) ?_
      rw [List.length_cons]
      omega
    refine hlist.mono ?_
    have hlen := ((h.nodup o ho).subperm fun c hc => hnodes c (h.mem_of_kid ho hc)).length_le
    rw [Nat.add_mul, Nat.one_mul]
    omega

/-- Going over all that is below a node takes a number of turns that only depends on the number of
nodes. -/
theorem turns (h : IsTree root mem parent kids) {nodes : List α}
    (hnodes : ∀ x, mem x → x ∈ nodes) (ho : mem o) :
    Turns kids (nodes.length * nodes.length + 1) (kids o) := by
  obtain ⟨l, hl, -, -⟩ := h.chain_exists ho
  exact h.turns_below hnodes nodes.length ho hl (Nat.le_add_left _ _)

end IsTree

end trees
