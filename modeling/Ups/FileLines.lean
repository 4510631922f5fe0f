-- The lines of a text, each with the newline that ends it, and where in the text they start.
import Mathlib.Data.List.Basic
import Mathlib.Tactic.Common

namespace file_lines

variable {α : Type} {nl c : α} {t : List α} {ls : List (List α)} {l : List α}
  {n m : Nat}

section
variable [DecidableEq α]

def lines (nl : α) : List α → List (List α)
  | [] => []
  | c :: t =>
    if c = nl then [c] :: lines nl t
    else match lines nl t with
      | [] => [[c]]
      | l :: ls => (c :: l) :: ls

/-- How long the first line is. -/
def firstLength (nl : α) (t : List α) : Nat :=
  let run := t.takeWhile (· != nl)
  if run.length < t.length then run.length + 1 else t.length

theorem lines_newline (t : List α) : lines nl (nl :: t) = [nl] :: lines nl t := by
  rw [lines, if_pos rfl]

theorem lines_of_ne (hc : c ≠ nl) (hl : lines nl t = l :: ls) :
    lines nl (c :: t) = (c :: l) :: ls := by
  rw [lines, if_neg hc, hl]

theorem lines_flatten (nl : α) (t : List α) : (lines nl t).flatten = t := by
  induction t with
  | nil => rfl
  | cons c t ih =>
    unfold lines
    split
    · rw [List.flatten_cons, ih, List.singleton_append]
    · split
      · rename_i hl
        rw [hl] at ih
        rw [← ih]
        rfl
      · rename_i l ls hl
        rw [hl, List.flatten_cons] at ih
        rw [List.flatten_cons, List.cons_append, ih]

theorem lines_ne_nil (nl : α) (t : List α) : ∀ l ∈ lines nl t, l ≠ [] := by
  induction t with
  | nil => exact fun l hl => absurd hl (by simp [lines])
  | cons c t ih =>
    unfold lines
    split
    · rw [List.forall_mem_cons]
      exact ⟨List.cons_ne_nil c [], ih⟩
    · split
      · rw [List.forall_mem_singleton]
        exact List.cons_ne_nil c []
      · rename_i l ls hl
        rw [hl, List.forall_mem_cons] at ih
        rw [List.forall_mem_cons]
        exact ⟨List.cons_ne_nil c l, ih.2⟩

theorem firstLength_newline (t : List α) : firstLength nl (nl :: t) = 1 := by
  simp [firstLength]

theorem firstLength_of_ne (hc : c ≠ nl) : firstLength nl (c :: t) = firstLength nl t + 1 := by
  unfold firstLength
  dsimp only
  rw [List.takeWhile_cons_of_pos (by simpa using hc), List.length_cons, List.length_cons]
  split_ifs <;> omega

theorem firstLength_pos (h : t ≠ []) : 0 < firstLength nl t := by
  have := List.length_pos_of_ne_nil h
  unfold firstLength
  dsimp only
  split_ifs <;> omega

/-- The first line, and the lines of the rest. -/
theorem lines_of_ne_nil (h : t ≠ []) :
    lines nl t = t.take (firstLength nl t) :: lines nl (t.drop (firstLength nl t)) := by
  induction t with
  | nil => exact absurd rfl h
  | cons c t ih =>
    by_cases hc : c = nl
    · rw [hc, firstLength_newline, lines_newline]
      rfl
    · rw [firstLength_of_ne hc, List.take_succ_cons, List.drop_succ_cons]
      by_cases ht : t = []
      · rw [ht]
        simp [lines, hc, firstLength]
      · exact lines_of_ne hc (ih ht)

theorem firstLength_le (nl : α) (t : List α) : firstLength nl t ≤ t.length := by
  unfold firstLength
  dsimp only
  split_ifs <;> omega

end

/-- Where a line starts. -/
def lineStart (ls : List (List α)) (n : Nat) : Nat := (ls.take n).flatten.length

theorem lineStart_zero (ls : List (List α)) : lineStart ls 0 = 0 := rfl

theorem lineStart_cons (l : List α) (ls : List (List α)) (n : Nat) :
    lineStart (l :: ls) (n + 1) = l.length + lineStart ls n := by
  unfold lineStart
  rw [List.take_succ_cons, List.flatten_cons, List.length_append]

theorem lineStart_succ (h : ls[n]? = some l) : lineStart ls (n + 1) = lineStart ls n + l.length := by
  unfold lineStart
  rw [List.take_add_one, h, Option.toList_some, List.flatten_append, List.length_append,
    List.flatten_singleton]

theorem lineStart_mono (ls : List (List α)) (h : n ≤ m) : lineStart ls n ≤ lineStart ls m := by
  obtain ⟨d, rfl⟩ := Nat.exists_eq_add_of_le h
  unfold lineStart
  rw [List.take_add, List.flatten_append, List.length_append]
  omega

/-- A line that is not empty starts before the next ones. -/
theorem lineStart_lt (hne : ∀ l ∈ ls, l ≠ []) (hn : n < ls.length) (h : n < m) :
    lineStart ls n < lineStart ls m := by
  have hsucc := lineStart_succ (List.getElem?_eq_getElem hn)
  have hpos := List.length_pos_of_ne_nil (hne ls[n] (List.getElem_mem hn))
  have hmono := lineStart_mono ls (show n + 1 ≤ m from h)
  omega

/-- The text of a line stands where the line starts. -/
theorem line_at (h : ls[n]? = some l) : (ls.flatten.drop (lineStart ls n)).take l.length = l := by
  have hsplit : ls.flatten = (ls.take n).flatten ++ (ls.drop n).flatten := by
    rw [← List.flatten_append, List.take_append_drop]
  have hdrop : ls.drop n = l :: ls.drop (n + 1) := by
    obtain ⟨hn, rfl⟩ := List.getElem?_eq_some_iff.mp h
    exact List.drop_eq_getElem_cons hn
  rw [hsplit, lineStart, List.drop_left, hdrop, List.flatten_cons, List.take_left]

section
variable [DecidableEq α]

theorem lines_drop (nl : α) (t : List α) (n : Nat) :
    lines nl (t.drop (lineStart (lines nl t) n)) = (lines nl t).drop n := by
  induction n generalizing t with
  | zero => rfl
  | succ n ih =>
    by_cases ht : t = []
    · rw [ht]
      rfl
    · have hlen : (t.take (firstLength nl t)).length = firstLength nl t := by
        rw [List.length_take]
        exact Nat.min_eq_left (firstLength_le nl t)
      rw [lines_of_ne_nil ht, lineStart_cons, hlen, List.drop_succ_cons, ← ih, List.drop_drop]

/-- The lines of a longer text start with those of the text but the last. -/
theorem lines_append (nl : α) (t more : List α) :
    (lines nl t).dropLast.IsPrefix (lines nl (t ++ more)) := by
  induction t with
  | nil => exact List.nil_prefix
  | cons c t ih =>
    obtain ⟨ls', hls'⟩ := ih
    rw [List.cons_append]
    by_cases hc : c = nl
    · rw [hc, lines_newline, lines_newline, ← hls']
      cases lines nl t with
      | nil => exact List.nil_prefix
      | cons l ls => exact ⟨ls', by rw [List.dropLast_cons_cons, List.cons_append]⟩
    · cases hl : lines nl t with
      | nil => exact ⟨_, by rw [lines, if_neg hc, hl]; rfl⟩
      | cons l ls =>
        rw [lines_of_ne hc hl]
        rw [hl] at hls'
        cases ls with
        | nil => exact List.nil_prefix
        | cons l' ls =>
          rw [List.dropLast_cons_cons, List.cons_append] at hls'
          rw [lines_of_ne hc hls'.symm]
          exact ⟨ls', by rw [List.dropLast_cons_cons, List.cons_append]⟩

theorem line_append (more : List α) (h : n + 1 < (lines nl t).length) :
    (lines nl (t ++ more))[n]? = (lines nl t)[n]? := by
  obtain ⟨ls', hls'⟩ := lines_append nl t more
  rw [← hls', List.getElem?_append_left (by rw [List.length_dropLast]; omega),
    List.getElem?_dropLast, if_pos (by omega)]

/-- The lines of a text start where they do in a longer one. -/
theorem lineStart_append (more : List α) (h : n < (lines nl t).length) :
    lineStart (lines nl (t ++ more)) n = lineStart (lines nl t) n := by
  obtain ⟨ls', hls'⟩ := lines_append nl t more
  unfold lineStart
  rw [← hls', List.take_append_of_le_length (by rw [List.length_dropLast]; omega),
    List.dropLast_eq_take, List.take_take, Nat.min_eq_left (by omega)]

theorem length_lines_append (nl : α) (t more : List α) :
    (lines nl t).length ≤ (lines nl (t ++ more)).length := by
  refine Nat.le_of_not_lt fun hlt => ?_
  have hstart := lineStart_append more hlt
  have hlast := lineStart_lt (lines_ne_nil nl t) hlt hlt
  unfold lineStart at hstart hlast
  rw [List.take_length, lines_flatten, List.length_append] at hstart
  rw [List.take_length, lines_flatten] at hlast
  omega

theorem length_lines_le (nl : α) (t : List α) : (lines nl t).length ≤ t.length := by
  induction t with
  | nil => exact Nat.le_refl _
  | cons c t ih =>
    unfold lines
    split
    · exact Nat.succ_le_succ ih
    · split
      · exact Nat.succ_le_succ (Nat.zero_le _)
      · rename_i l ls hl
        rw [hl] at ih
        exact Nat.le_succ_of_le ih

end

/-! ## Pieces of a text that is edited -/

variable {ins : List α} {pos a len : Nat}

/-- What is before an insertion stays. -/
theorem piece_before_insert (h : a + len ≤ pos) (hpos : pos ≤ t.length) :
    ((t.take pos ++ ins ++ t.drop pos).drop a).take len = (t.drop a).take len := by
  apply List.ext_getElem?
  intro i
  by_cases hi : i < len
  · simp only [List.getElem?_take, List.getElem?_drop, hi, if_true, List.append_assoc]
    rw [List.getElem?_append_left (by rw [List.length_take]; omega), List.getElem?_take,
      if_pos (by omega)]
  · simp only [List.getElem?_take, hi, if_false]

/-- What is behind an insertion goes up. -/
theorem piece_behind_insert (h : pos ≤ a) (hpos : pos ≤ t.length) :
    (t.take pos ++ ins ++ t.drop pos).drop (a + ins.length) = t.drop a := by
  have hlen : (t.take pos ++ ins).length = pos + ins.length := by
    rw [List.length_append, List.length_take, Nat.min_eq_left hpos]
  rw [List.drop_append, List.drop_eq_nil_of_le (by omega), List.nil_append, List.drop_drop, hlen]
  congr 1
  omega

/-- What is before a deletion stays. -/
theorem piece_before_delete (h : a + len ≤ pos) (hpos : pos ≤ t.length) (m : Nat) :
    ((t.take pos ++ t.drop (pos + m)).drop a).take len = (t.drop a).take len := by
  apply List.ext_getElem?
  intro i
  by_cases hi : i < len
  · simp only [List.getElem?_take, List.getElem?_drop, hi, if_true]
    rw [List.getElem?_append_left (by rw [List.length_take]; omega), List.getElem?_take,
      if_pos (by omega)]
  · simp only [List.getElem?_take, hi, if_false]

/-- What is behind a deletion goes down. -/
theorem piece_behind_delete (h : pos + m ≤ a) (hpos : pos ≤ t.length) :
    (t.take pos ++ t.drop (pos + m)).drop (a - m) = t.drop a := by
  have hlen : (t.take pos).length = pos := by rw [List.length_take, Nat.min_eq_left hpos]
  rw [List.drop_append, List.drop_eq_nil_of_le (by omega), List.nil_append, List.drop_drop, hlen]
  congr 1
  omega

end file_lines
