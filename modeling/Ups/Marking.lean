-- Marking with three colours. What is grey was reached, what is black was scanned as well; a scan
-- colours all successors. Once no grey node has anything left to colour, the coloured nodes are the
-- least closed set that contains the roots.
import Mathlib.Order.Bounds.Basic
import Mathlib.Data.Set.Insert
import Mathlib.Data.List.Basic
import Mathlib.Tactic.Common

namespace marking

variable {V : Type*}

/-- A set that contains the roots, and with each node its successors. -/
def Closed (roots : Set V) (succ : V → Set V) (A : Set V) : Prop :=
  roots ⊆ A ∧ ∀ v ∈ A, succ v ⊆ A

inductive Reach (roots : Set V) (succ : V → Set V) : V → Prop
  | root {v : V} : v ∈ roots → Reach roots succ v
  | step {v w : V} : Reach roots succ v → w ∈ succ v → Reach roots succ w

structure Marked (roots : Set V) (succ : V → Set V) (grey black : Set V) : Prop where
  reached : roots ⊆ grey ∪ black
  reach : ∀ v ∈ grey ∪ black, Reach roots succ v
  scanned : ∀ v ∈ black, succ v ⊆ grey ∪ black

variable {roots : Set V} {succ : V → Set V} {grey black grey' black' : Set V} {v : V}

theorem isLeast_reach (roots : Set V) (succ : V → Set V) :
    IsLeast {A | Closed roots succ A} {v | Reach roots succ v} := by
  refine ⟨⟨fun v => Reach.root, fun v hv w hw => Reach.step hv hw⟩, ?_⟩
  rintro A ⟨hroots, hsucc⟩ v hv
  induction hv with
  | root h => exact hroots h
  | step _ hw ih => exact hsucc _ ih hw

theorem Marked.start (h : grey ∪ black = roots) (hblack : black = ∅) :
    Marked roots succ grey black := by
  subst hblack
  exact ⟨h.ge, fun v hv => .root (h.le hv), fun v hv => hv.elim⟩

/-- The scan of a coloured node. -/
theorem Marked.scan (h : Marked roots succ grey black) (hv : v ∈ grey ∪ black)
    (hcoloured : grey' ∪ black' = grey ∪ black ∪ succ v) (hblack : black' ⊆ insert v black) :
    Marked roots succ grey' black' := by
  have hsub : grey ∪ black ⊆ grey' ∪ black' := hcoloured.ge.trans' Set.subset_union_left
  refine ⟨h.reached.trans hsub, fun u hu => ?_, fun u hu => ?_⟩
  · rcases hcoloured.le hu with hu | hu
    · exact h.reach u hu
    · exact .step (h.reach v hv) hu
  · rcases hblack hu with rfl | hu
    · exact hcoloured.ge.trans' Set.subset_union_right
    · exact (h.scanned u hu).trans hsub

/-- Marking has reached everything once all grey nodes have only coloured successors. -/
theorem Marked.coloured (h : Marked roots succ grey black)
    (hdone : ∀ v ∈ grey, succ v ⊆ grey ∪ black) : grey ∪ black = {v | Reach roots succ v} := by
  refine Set.Subset.antisymm h.reach ((isLeast_reach roots succ).2 ⟨h.reached, ?_⟩)
  rintro v (hv | hv)
  · exact hdone v hv
  · exact h.scanned v hv

/-- Among nodes in a list, fewer are left when more are black. -/
theorem countP_not_mem_lt {l : List V} {A B : Set V} [DecidablePred (· ∉ A)] [DecidablePred (· ∉ B)]
    (h : A ⊆ B) {v : V} (hv : v ∈ l) (hvA : v ∉ A) (hvB : v ∈ B) :
    l.countP (· ∉ B) < l.countP (· ∉ A) := by
  induction l with
  | nil => cases hv
  | cons u l ih =>
    have hle : l.countP (· ∉ B) ≤ l.countP (· ∉ A) :=
      List.countP_mono_left fun w _ hw => decide_eq_true fun hA => of_decide_eq_true hw (h hA)
    rw [List.countP_cons, List.countP_cons]
    rcases List.mem_cons.1 hv with rfl | hv
    · rw [if_neg (by simpa using hvB), if_pos (by simpa using hvA)]
      omega
    · have := ih hv
      by_cases hu : u ∈ A
      · rw [if_neg (by simpa using h hu), if_neg (by simpa using hu)]
        omega
      · rw [if_pos (show decide (u ∉ A) = true by simpa using hu)]
        split <;> omega

end marking
