-- Throwing elements out of an array in place: a cursor reads every cell, and another one, which
-- is never ahead of it, writes the cells that are kept.
import Mathlib.Data.List.TakeDrop

namespace compaction

variable {α : Type*}

/-- What is in the cells once `n` of them were read: what was kept of these, up to the cursor that
writes, and behind it what was there before. -/
structure Compacts (keep : α → Bool) (all : List α) (n : Nat) (cells : List α) (dst : Nat) :
    Prop where
  dst_eq : dst = ((all.take n).filter keep).length
  cells_eq : cells = (all.take n).filter keep ++ all.drop dst

variable {keep : α → Bool} {all cells : List α} {n dst : Nat} {x : α}

theorem Compacts.start (keep : α → Bool) (all : List α) : Compacts keep all 0 all 0 :=
  ⟨by simp, by simp⟩

theorem Compacts.dst_le (h : Compacts keep all n cells dst) : dst ≤ n := by
  rw [h.dst_eq]
  exact Nat.le_trans (List.length_filter_le _ _) (List.length_take_le _ _)

/-- The cursor that writes has not changed what is still to be read. -/
theorem Compacts.read (h : Compacts keep all n cells dst) : cells[n]? = all[n]? := by
  have hle := h.dst_le
  rw [h.cells_eq, List.getElem?_append_right (by rw [← h.dst_eq]; exact hle), ← h.dst_eq,
    List.getElem?_drop, Nat.add_sub_cancel' hle]

theorem take_succ_eq (hx : all[n]? = some x) : all.take (n + 1) = all.take n ++ [x] := by
  rw [List.take_add_one, hx, Option.toList_some]

theorem Compacts.skip (h : Compacts keep all n cells dst) (hx : all[n]? = some x)
    (hkeep : keep x = false) : Compacts keep all (n + 1) cells dst := by
  have hfilter : (all.take (n + 1)).filter keep = (all.take n).filter keep := by
    simp [take_succ_eq hx, hkeep]
  exact ⟨by rw [hfilter, h.dst_eq], by rw [hfilter, h.cells_eq]⟩

theorem Compacts.copy (h : Compacts keep all n cells dst) (hx : all[n]? = some x)
    (hkeep : keep x = true) : Compacts keep all (n + 1) (cells.set dst x) (dst + 1) := by
  have hfilter : (all.take (n + 1)).filter keep = (all.take n).filter keep ++ [x] := by
    simp [take_succ_eq hx, hkeep]
  have hlt : dst < all.length :=
    Nat.lt_of_le_of_lt h.dst_le (List.getElem?_eq_some_iff.1 hx).1
  constructor
  · rw [hfilter, List.length_append, ← h.dst_eq]
    rfl
  · rw [hfilter, h.cells_eq, List.set_append_right _ _ (Nat.le_of_eq h.dst_eq.symm), ← h.dst_eq,
      Nat.sub_self, List.drop_eq_getElem_cons hlt, List.set_cons_zero, List.append_assoc]
    rfl

/-- Nothing is behind the cells that are kept only if all of them are. -/
theorem filter_append_drop_eq_filter_iff (keep : α → Bool) (all : List α) :
    all.filter keep ++ all.drop (all.filter keep).length = all.filter keep ↔
      ∀ x ∈ all, keep x = true := by
  rw [List.append_right_eq_self, List.drop_eq_nil_iff]
  constructor
  · intro hle
    have hall : all.filter keep = all := List.filter_sublist.eq_of_length_le hle
    exact List.filter_eq_self.1 hall
  · intro hall
    have heq : all.filter keep = all := List.filter_eq_self.2 hall
    exact Nat.le_of_eq (by rw [heq])

end compaction
