-- The longest line of a source file (so.c): get_line_offsets counts the columns of a line in its own way,
-- and what readline shows of the line is never longer, as long as the columns are ints.
import Ups.SourceRuns

open file_lines
open ups_rules.strcache
open ups_rules.source_file

namespace ups_rules.line_widths

/-! ## The pure model -/

/-- What is left of a number in an int. -/
def asInt (n : Int) : Int := n.bmod (2 ^ 32)

/-- What is left of a number in a `size_t`. -/
def asSize (n : Int) : Nat := (n % 2 ^ 64).toNat

/-- The loop over the characters of a line, in ints. -/
def specialsInt (tabwidth : Nat) : List UInt8 → Nat → Int → Int
  | [], _, specials_offset => specials_offset
  | c :: line, i, specials_offset =>
    specialsInt tabwidth line (i + 1)
      (if c = backspace then
        if (i : Int) + specials_offset > 1 then asInt (specials_offset - 2) else specials_offset
      else if c = tab then
        let cpos := asInt ((i : Int) + specials_offset)
        asInt (specials_offset + asInt ((tabwidth : Int) - 1 - cpos.tmod tabwidth))
      else specials_offset)

/-- What `get_line_offsets` leaves in `so_max_linelen`, for a file with these lines. -/
def maxLinelen (tabwidth : Nat) (ls : List (List UInt8)) : Nat :=
  ls.foldl (fun so_max_linelen l =>
    let linelen := asSize ((textOf l).length + specialsInt tabwidth (textOf l) 0 0)
    if linelen > so_max_linelen then linelen else so_max_linelen) 0

/-- The size is returned as an int. -/
def soGetMaxLinelen (tabwidth : Nat) (F : List UInt8) : Int :=
  asInt (maxLinelen tabwidth (lines newline F))

/-- The column that `get_line_offsets` has come to behind a character. -/
def nextColumn (tabwidth column : Nat) (c : UInt8) : Nat :=
  if c = backspace then if column > 1 then column - 1 else column + 1
  else if c = tab then column + (tabwidth - column % tabwidth)
  else column + 1

def columnOf (tabwidth : Nat) (line : List UInt8) : Nat := line.foldl (nextColumn tabwidth) 0

/-- The length of each line is an int, and every column that `get_line_offsets` comes to is one. -/
def Fits (tabwidth : Nat) (F : List UInt8) : Prop :=
  ∀ l ∈ lines newline F, (textOf l).length < 2 ^ 31 ∧
    ∀ n, columnOf tabwidth ((textOf l).take n) < 2 ^ 31

/-- No line is shown with more characters than the longest line is said to have. -/
def Bounded (tabwidth : Nat) (F : List UInt8) : Prop :=
  ∀ l ∈ lines newline F, ((shownLine tabwidth l).length : Int) ≤ soGetMaxLinelen tabwidth F

/-! ## Columns -/

variable {tabwidth column shown i : Nat} {F line l : List UInt8} {c : UInt8} {so so' : So}
  {s s' : Scan}

/-- How long the shown text is behind a character. -/
def nextShown (tabwidth shown : Nat) (c : UInt8) : Nat :=
  if c = tab then shown + (tabwidth - shown % tabwidth)
  else if c = backspace then if shown = 0 then 1 else shown - 1
  else shown + 1

theorem length_showChar (tabwidth : Nat) (text : List UInt8) (c : UInt8) :
    (showChar tabwidth text c).length = nextShown tabwidth text.length c := by
  unfold showChar nextShown
  by_cases htab : c = tab
  · rw [if_pos htab, if_pos htab, List.length_append, List.length_replicate]
  rw [if_neg htab, if_neg htab]
  by_cases hback : c = backspace
  · rw [if_pos hback, if_pos hback]
    cases text with
    | nil => rfl
    | cons d text =>
      rw [if_neg (List.cons_ne_nil d text), if_neg (by rw [List.length_cons]; omega),
        List.length_dropLast]
  · rw [if_neg hback, if_neg hback, List.length_append, List.length_singleton]

theorem length_shown (tabwidth : Nat) (line text : List UInt8) :
    (line.foldl (showChar tabwidth) text).length = line.foldl (nextShown tabwidth) text.length := by
  induction line generalizing text with
  | nil => rfl
  | cons c line ih => rw [List.foldl_cons, ih, length_showChar, List.foldl_cons]

theorem tab_stop (hwidth : 0 < tabwidth) (n : Nat) :
    n + (tabwidth - n % tabwidth) = tabwidth * (n / tabwidth + 1) := by
  have hmod := Nat.mod_lt n hwidth
  have hdiv := Nat.div_add_mod n tabwidth
  rw [Nat.mul_add, Nat.mul_one]
  omega

/-- The column is never behind the text that is shown: where a backspace has nothing before it, or only one
character, the column goes on. -/
theorem shown_le_column (hwidth : 0 < tabwidth) (h : shown ≤ column) (c : UInt8) :
    nextShown tabwidth shown c ≤ nextColumn tabwidth column c := by
  unfold nextShown nextColumn
  by_cases htab : c = tab
  · have hback : c ≠ backspace := by
      rw [htab]
      decide
    rw [if_pos htab, if_neg hback, if_pos htab, tab_stop hwidth, tab_stop hwidth]
    exact Nat.mul_le_mul_left tabwidth (Nat.succ_le_succ (Nat.div_le_div_right h))
  rw [if_neg htab, if_neg htab]
  split_ifs <;> omega

theorem shown_le_columnOf (hwidth : 0 < tabwidth) (l : List UInt8) :
    (shownLine tabwidth l).length ≤ columnOf tabwidth (textOf l) := by
  unfold shownLine columnOf
  rw [length_shown]
  have hfold : ∀ (line : List UInt8) (shown column : Nat), shown ≤ column →
      line.foldl (nextShown tabwidth) shown ≤ line.foldl (nextColumn tabwidth) column := by
    intro line
    induction line with
    | nil => exact fun _ _ h => h
    | cons c line ih => exact fun _ _ h => ih _ _ (shown_le_column hwidth h c)
  exact hfold _ _ _ (Nat.le_refl 0)

/-! ## Special characters -/

theorem tmod_column (column tabwidth : Nat) :
    ((column : Int)).tmod tabwidth = ((column % tabwidth : Nat) : Int) := rfl

theorem specialsOffset_eq (hwidth : 0 < tabwidth) (line : List UInt8) {specials_offset : Int}
    (h : (i : Int) + specials_offset = column) :
    (i + line.length : Nat) + specialsOffset tabwidth line i specials_offset =
      (line.foldl (nextColumn tabwidth) column : Nat) := by
  induction line generalizing i specials_offset column with
  | nil => exact h
  | cons c line ih =>
    rw [List.foldl_cons, specialsOffset, List.length_cons, show i + (line.length + 1) =
      i + 1 + line.length by omega]
    apply ih
    unfold nextColumn
    rw [h, tmod_column]
    have hmod := Nat.mod_lt column hwidth
    split_ifs <;> omega

theorem asInt_eq {n : Int} (hlow : -2 ^ 31 ≤ n) (hhigh : n < 2 ^ 31) : asInt n = n := by
  unfold asInt
  rw [Int.bmod_def]
  split <;> omega

/-- Nothing overflows as long as the lengths and the columns are ints. -/
theorem specialsInt_eq (hwidth : 0 < tabwidth) (hint : tabwidth < 2 ^ 31) (line : List UInt8)
    {specials_offset : Int} (h : (i : Int) + specials_offset = column)
    (hi : i + line.length < 2 ^ 31)
    (hfits : ∀ n, (line.take n).foldl (nextColumn tabwidth) column < 2 ^ 31) :
    specialsInt tabwidth line i specials_offset = specialsOffset tabwidth line i specials_offset := by
  induction line generalizing i specials_offset column with
  | nil => rfl
  | cons c line ih =>
    have hcolumn : column < 2 ^ 31 := hfits 0
    have hnext : nextColumn tabwidth column c < 2 ^ 31 := by
      have hone := hfits 1
      rwa [List.take_succ_cons, List.take_zero, List.foldl_cons, List.foldl_nil] at hone
    have hmod := Nat.mod_lt column hwidth
    rw [List.length_cons] at hi
    have hstep : (if c = backspace then
        if (i : Int) + specials_offset > 1 then asInt (specials_offset - 2) else specials_offset
      else if c = tab then asInt (specials_offset +
          asInt ((tabwidth : Int) - 1 - (asInt ((i : Int) + specials_offset)).tmod tabwidth))
      else specials_offset) =
        (if c = backspace then
          if (i : Int) + specials_offset > 1 then specials_offset - 2 else specials_offset
        else if c = tab then
          specials_offset + ((tabwidth : Int) - 1 - ((i : Int) + specials_offset).tmod tabwidth)
        else specials_offset) := by
      unfold nextColumn at hnext
      rw [h, asInt_eq (n := column) (by omega) (by omega), tmod_column]
      by_cases hback : c = backspace
      · rw [if_pos hback, if_pos hback]
        split_ifs
        · exact asInt_eq (by omega) (by omega)
        · rfl
      rw [if_neg hback, if_neg hback]
      by_cases htab : c = tab
      · rw [if_neg hback, if_pos htab] at hnext
        rw [if_pos htab, if_pos htab]
        rw [asInt_eq (n := (tabwidth : Int) - 1 - _) (by omega) (by omega),
          asInt_eq (by omega) (by omega)]
      · rw [if_neg htab, if_neg htab]
    rw [specialsInt, specialsOffset]
    dsimp only
    rw [hstep]
    refine ih (?_ : ((i + 1 : Nat) : Int) + _ = (nextColumn tabwidth column c : Nat)) ?_ ?_
    · unfold nextColumn
      rw [h, tmod_column]
      split_ifs <;> omega
    · omega
    · intro n
      have hlater := hfits (n + 1)
      rwa [List.take_succ_cons, List.foldl_cons] at hlater

/-! ## The longest line -/

/-- The larger of what is there and the columns of a line. -/
def longer (tabwidth so_max_linelen : Nat) (l : List UInt8) : Nat :=
  if columnOf tabwidth (textOf l) > so_max_linelen then columnOf tabwidth (textOf l) else so_max_linelen

theorem linelen_eq (hwidth : 0 < tabwidth) (line : List UInt8) :
    (line.length : Int) + specialsOffset tabwidth line 0 0 = (columnOf tabwidth line : Nat) := by
  have heq := specialsOffset_eq hwidth line (show ((0 : Nat) : Int) + 0 = (0 : Nat) from rfl)
  rw [Nat.zero_add] at heq
  exact heq

theorem le_longer (tabwidth n : Nat) (l : List UInt8) :
    n ≤ longer tabwidth n l ∧ columnOf tabwidth (textOf l) ≤ longer tabwidth n l := by
  unfold longer
  split_ifs <;> omega

theorem foldl_longer (tabwidth : Nat) (ls : List (List UInt8)) (n : Nat) :
    n ≤ ls.foldl (longer tabwidth) n ∧
      ∀ l ∈ ls, columnOf tabwidth (textOf l) ≤ ls.foldl (longer tabwidth) n := by
  induction ls generalizing n with
  | nil => exact ⟨Nat.le_refl n, fun l hl => absurd hl List.not_mem_nil⟩
  | cons l ls ih =>
    obtain ⟨hn, hl⟩ := le_longer tabwidth n l
    obtain ⟨hle, hall⟩ := ih (longer tabwidth n l)
    rw [List.foldl_cons, List.forall_mem_cons]
    exact ⟨Nat.le_trans hn hle, Nat.le_trans hl hle, hall⟩

theorem foldl_longer_lt (ls : List (List UInt8)) {n : Nat} (hn : n < 2 ^ 31)
    (h : ∀ l ∈ ls, columnOf tabwidth (textOf l) < 2 ^ 31) : ls.foldl (longer tabwidth) n < 2 ^ 31 := by
  induction ls generalizing n with
  | nil => exact hn
  | cons l ls ih =>
    rw [List.forall_mem_cons] at h
    refine ih ?_ h.2
    unfold longer
    split_ifs
    · exact h.1
    · exact hn

/-- In ints, the longest line is the same. -/
theorem maxLinelen_eq (hwidth : 0 < tabwidth) (hint : tabwidth < 2 ^ 31) (hfits : Fits tabwidth F) :
    maxLinelen tabwidth (lines newline F) = (lines newline F).foldl (longer tabwidth) 0 := by
  unfold maxLinelen
  refine List.foldl_ext _ _ _ fun n l hl => ?_
  obtain ⟨hlen, hcolumns⟩ := hfits l hl
  have hcolumn := hcolumns (textOf l).length
  rw [List.take_length] at hcolumn
  have hspecials := specialsInt_eq hwidth hint (textOf l) (show ((0 : Nat) : Int) + 0 = (0 : Nat) from rfl)
    (by omega) hcolumns
  have hsize : asSize ((columnOf tabwidth (textOf l) : Nat) : Int) = columnOf tabwidth (textOf l) := by
    unfold asSize
    omega
  dsimp only
  rw [hspecials, linelen_eq hwidth, hsize]
  rfl

theorem soGetMaxLinelen_eq (hwidth : 0 < tabwidth) (hint : tabwidth < 2 ^ 31)
    (hfits : Fits tabwidth F) :
    soGetMaxLinelen tabwidth F = ((lines newline F).foldl (longer tabwidth) 0 : Nat) := by
  unfold soGetMaxLinelen
  rw [maxLinelen_eq hwidth hint hfits]
  have hlt := foldl_longer_lt (lines newline F) (n := 0) (by decide) fun l hl => by
    have hcolumn := (hfits l hl).2 (textOf l).length
    rwa [List.take_length] at hcolumn
  exact asInt_eq (by omega) (by omega)

theorem bounded_of_fits (hwidth : 0 < tabwidth) (hint : tabwidth < 2 ^ 31) (hfits : Fits tabwidth F) :
    Bounded tabwidth F := by
  intro l hl
  rw [soGetMaxLinelen_eq hwidth hint hfits]
  exact Int.ofNat_le.mpr (Nat.le_trans (shown_le_columnOf hwidth l)
    ((foldl_longer tabwidth (lines newline F) 0).2 l hl))

/-- A line that is shown with 2^31 characters or more is longer than any int. -/
theorem length_lt_of_bounded (h : Bounded tabwidth F) : ∀ l ∈ lines newline F,
    (shownLine tabwidth l).length < 2 ^ 31 := by
  intro l hl
  have hle := h l hl
  have hint : soGetMaxLinelen tabwidth F < 2 ^ 31 := by
    unfold soGetMaxLinelen asInt
    rw [Int.bmod_def]
    split <;> omega
  omega

/-! ## The file that is open -/

theorem scanLines_max (fuel : Nat) (h : Scanned F s)
    (heq : scanLines (readsFile F) (turns F) fuel s = .ok s') :
    s'.so.so_max_linelen = ((lines newline F).drop s.so.so_nlines).foldl (longer s.so.so_tabwidth)
      s.so.so_max_linelen := by
  induction fuel generalizing s with
  | zero => cases heq
  | succ fuel ih =>
    unfold scanLines at heq
    cases hl : (lines newline F)[s.so.so_nlines]? with
    | none =>
      have hn := List.getElem?_eq_none_iff.mp hl
      have hend : F.length ≤ s.pos := by
        rw [h.pos, lineStart, List.take_of_length_le hn, lines_flatten]
      obtain ⟨sc', heq', -⟩ := getEnded_end h.cache hend
      rw [heq'] at heq
      cases heq
      rw [List.drop_of_length_le hn, List.foldl_nil]
    | some l =>
      obtain ⟨hn, hget⟩ := List.getElem?_eq_some_iff.mp hl
      obtain ⟨sc', behind, heq', hscanned⟩ := scanned_next h hl
      rw [heq'] at heq
      dsimp only [bind, Except.bind] at heq
      have hlonger : (if ((textOf l).length + specialsOffset s.so.so_tabwidth (textOf l) 0 0).toNat >
            s.so.so_max_linelen then
          ((textOf l).length + specialsOffset s.so.so_tabwidth (textOf l) 0 0).toNat
          else s.so.so_max_linelen) = longer s.so.so_tabwidth s.so.so_max_linelen l := by
        rw [linelen_eq h.width, Int.toNat_natCast]
        rfl
      have hrest := ih (hscanned _) heq
      dsimp only at hrest
      rw [hrest, List.drop_eq_getElem_cons hn, List.foldl_cons, hget, hlonger]

theorem endScan_max {input : Input} {turns : Nat} (h : endScan input turns s = .ok so) :
    so.so_max_linelen = s.so.so_max_linelen := by
  unfold endScan at h
  dsimp only at h
  split at h
  · split at h
    · cases h
    · simp only [bind, Except.bind] at h
      split at h
      · cases h
      · cases h
        rfl
  · cases h
    rfl

theorem soOpen_max (hwidth : 0 < tabwidth) (htakes : TakesLines makeStrcache F)
    (h : soOpen F tabwidth = .ok so) :
    so.so_max_linelen = (lines newline F).foldl (longer tabwidth) 0 := by
  unfold soOpen getLineOffsets at h
  simp only [bind, Except.bind] at h
  split at h
  · cases h
  · rename_i s hscan
    have hscanned : Scanned F (startScan ⟨makeStrcache, 0, 0, 0, [], [], 0, tabwidth⟩) :=
      ⟨hwidth, ready_make F, htakes, Or.inr fun i hi => absurd hi (Nat.not_lt_zero i), rfl,
        Nat.zero_le _, placed_none _⟩
    rw [endScan_max h, scanLines_max _ hscanned hscan]
    rfl

theorem foldl_nextColumn_le (hwidth : 0 < tabwidth) (line : List UInt8) (column : Nat) :
    line.foldl (nextColumn tabwidth) column ≤ column + tabwidth * line.length := by
  induction line generalizing column with
  | nil => exact Nat.le_add_right _ _
  | cons c line ih =>
    have hnext : nextColumn tabwidth column c ≤ column + tabwidth := by
      unfold nextColumn
      split_ifs <;> omega
    have hrest := ih (nextColumn tabwidth column c)
    rw [List.foldl_cons, List.length_cons, Nat.mul_succ]
    omega

/-- A file that is not too long has lengths and columns that are ints. -/
theorem fits_of_length (hwidth : 0 < tabwidth) (h : tabwidth * F.length < 2 ^ 31) :
    Fits tabwidth F := by
  intro l hl
  have hlen : (textOf l).length ≤ F.length := by
    have htext := (List.takeWhile_sublist (· != newline) (l := l)).length_le
    have hline := (List.sublist_flatten_of_mem hl).length_le
    rw [lines_flatten] at hline
    exact Nat.le_trans htext hline
  have hpos : F.length ≤ tabwidth * F.length := Nat.le_mul_of_pos_left _ hwidth
  refine ⟨by omega, fun n => ?_⟩
  have htake : ((textOf l).take n).length ≤ F.length :=
    Nat.le_trans (List.length_take_le' n (textOf l)) hlen
  have hmul := Nat.mul_le_mul_left tabwidth htake
  have hcolumn := foldl_nextColumn_le hwidth ((textOf l).take n) 0
  unfold columnOf
  omega

end ups_rules.line_widths
