-- The lines of a source file in front of a point, as they are counted for the scroll bar (srcbuf.c):
-- a walk over the table of the lines and the list of the edit blocks at once.
import Mathlib.Algebra.Order.BigOperators.Group.List
import Mathlib.Algebra.Order.Group.Int
import Mathlib.Algebra.Ring.Int.Defs
import Mathlib.Algebra.Ring.Nat
import Ups.SrcBuf

open file_lines
open ups_rules.lbuf (Byte)
open ups_rules.prop_changes (EditBuffer)
open ups_rules.srcbuf

namespace ups_rules.pixel_counts

/-! ## The pure model -/

structure LineCounts where
  last_nl_point : Nat
  num_edit_lines : Nat
  num_mixed_lines : Nat

/-- The loop of `srcbuf_get_editblock_height`, for the given number of points from `point` on. -/
def heightLoop (text : List Byte) (start lim : Nat) : Nat → Nat → LineCounts → LineCounts
  | 0, _, c => c
  | n + 1, point, c =>
    match text[point]? with
    | none => c
    | some byte =>
      if byte = newline then
        if c.last_nl_point ≠ lim ∧ start ≤ c.last_nl_point then
          heightLoop text start lim n (point + 1) ⟨point, c.num_edit_lines + 1, c.num_mixed_lines⟩
        else
          heightLoop text start lim n (point + 1) ⟨point, c.num_edit_lines, c.num_mixed_lines + 1⟩
      else heightLoop text start lim n (point + 1) c

/-- There is a newline before the point. -/
def BehindNewline (text : List Byte) (start : Nat) : Prop :=
  0 < start ∧ text[start - 1]? = some newline

instance (text : List Byte) (start : Nat) : Decidable (BehindNewline text start) :=
  inferInstanceAs (Decidable (_ ∧ _))

/-- `srcbuf_get_editblock_height` for a block between the points `start` and `lim`. -/
def heightBetween (text : List Byte) (start lim editline_height srcline_height : Nat) : Int :=
  let c := heightLoop text start lim (lim - start) start
    ⟨if BehindNewline text start then start else lim, 0, 0⟩
  let rest : Prop := c.last_nl_point + 1 ≠ lim
  let num_mixed_lines := if rest then c.num_mixed_lines + 1 else c.num_mixed_lines
  let num_file_lines : Int := if rest then -1 else 0
  num_file_lines * srcline_height + c.num_edit_lines * editline_height +
    num_mixed_lines * (max editline_height srcline_height : Nat)

def srcbufGetEditblockHeight (sb : Srcbuf) (eb : Editblock)
    (lim_point editline_height srcline_height : Nat) : Option Int := do
  let start ← editGetPropchangePoint sb.buffer eb.startpc
  let lim ← editGetPropchangePoint sb.buffer eb.limpc
  let lim := if lim_point < lim then lim_point else lim
  some (heightBetween sb.text start lim editline_height srcline_height)

/-- `none` stands for `EDIT_MAX_POINT`, which is behind every point. The outer `none` is a fault. -/
def startpos (b : EditBuffer) : List Editblock → Option (Option Nat)
  | [] => some none
  | eb :: _ => (editGetPropchangePoint b eb.startpc).map some

/-- The inner loop of `srcbuf_count_pixels`, over the entries of the lines that are left. The first
component says whether it goes to `quit`. -/
def lineScan (offset : Nat) (ebstart : Option Nat) (lim_point : Nat) (lim_ypos : Int)
    (srcline_height : Nat) : List Nat → Nat → Int → Bool × Nat × Int
  | [], lnum, ypos => (false, lnum, ypos)
  | entry :: entries, lnum, ypos =>
    if lim_ypos ≤ ypos ∨ lim_point ≤ entry + offset then (true, lnum, ypos)
    else if ∃ p ∈ ebstart, p < entry + offset then (false, lnum, ypos)
    else lineScan offset ebstart lim_point lim_ypos srcline_height entries (lnum + 1)
      (ypos + srcline_height)

/-- The beginning of a turn of the outer loop: the next block is taken if the walk is at it. -/
def takeBlock (sb : Srcbuf) (lim_point editline_height srcline_height entry offset : Nat)
    (ypos : Int) : List Editblock → Option (Nat × Int × List Editblock)
  | [] => some (offset, ypos, [])
  | eb :: ebs => do
    let ebstart ← editGetPropchangePoint sb.buffer eb.startpc
    if ebstart ≤ entry + offset then
      let height ← srcbufGetEditblockHeight sb eb lim_point editline_height srcline_height
      let lim ← editGetPropchangePoint sb.buffer eb.limpc
      some (offset + (lim - ebstart), ypos + height, ebs)
    else some (offset, ypos, eb :: ebs)

/-- The outer loop. -/
def countLoop (sb : Srcbuf) (lim_point : Nat) (lim_ypos : Int)
    (editline_height srcline_height : Nat) :
    Nat → Nat → Nat → Int → List Editblock → Option (Nat × Int)
  | 0, _, _, _, _ => none
  | fuel + 1, lnum, offset, ypos, ebs => do
    let entry ← sb.linetab[lnum]?
    let (offset, ypos, ebs) ←
      takeBlock sb lim_point editline_height srcline_height entry offset ypos ebs
    let ebstart ← startpos sb.buffer ebs
    let (quit, lnum, ypos) := lineScan offset ebstart lim_point lim_ypos srcline_height
      ((sb.linetab.take sb.num_file_lines).drop lnum) lnum ypos
    if quit || lnum == sb.num_file_lines then some (lnum, ypos)
    else countLoop sb lim_point lim_ypos editline_height srcline_height fuel lnum offset ypos ebs

/-- Every turn but the first and the last takes a block. `none` is a fault, or no end. -/
def srcbufCountPixels (sb : Srcbuf) (lim_point : Nat) (lim_ypos : Int)
    (editline_height srcline_height : Nat) : Option (Nat × Int) :=
  countLoop sb lim_point lim_ypos editline_height srcline_height (sb.eblist.length + 2) 0 0 0
    sb.eblist

/-! ## What is counted -/

/-- The height of all the text: that of the blocks, and that of the lines. -/
def totalHeight (sb : Srcbuf) (editline_height srcline_height : Nat) : Int :=
  (sb.eblist.map fun eb => (srcbufGetEditblockHeight sb eb sb.text.length editline_height
    srcline_height).getD 0).sum + sb.num_file_lines * srcline_height

/-- Where a line starts, if it is one of the file's. -/
def lineStartPoint (sb : Srcbuf) (lnum : Nat) : Option Nat :=
  (srcbufFileLnumToPointRange sb lnum).join.map (·.1)

/-- How many lines start before the point. -/
def linesBefore (sb : Srcbuf) (lim_point : Nat) : Nat :=
  (List.range sb.num_file_lines).countP fun lnum => ∃ start ∈ lineStartPoint sb lnum, start < lim_point

/-- Where a block starts and where it ends, before its newline. -/
def span (sb : Srcbuf) (eb : Editblock) : Nat × Nat :=
  ((editGetPropchangePoint sb.buffer eb.startpc).getD 0,
    (editGetPropchangePoint sb.buffer eb.limpc).getD 0)

/-- The bytes in front of a line that are not counted for it: of each block before `start` its
newline, and all of it when the line is not behind it for the walk, which takes the line at `entry`
for the one that is `offset` bytes further on. -/
def lost (entry start : Nat) : Nat → List (Nat × Nat) → Nat
  | _, [] => 0
  | offset, (ebstart, eblim) :: spans =>
    (if start ≤ ebstart then 0
      else if ebstart = 0 ∨ ebstart < entry + offset then 1
      else eblim - ebstart + 1) + lost entry start (offset + (eblim - ebstart)) spans

/-- No line starts so little behind the point that it is taken for one before it. -/
def Clear (sb : Srcbuf) (lim_point : Nat) : Prop :=
  ∀ lnum entry start, sb.linetab[lnum]? = some entry → lineStartPoint sb lnum = some start →
    lim_point ≤ start → lim_point + lost entry start 0 (sb.eblist.map (span sb)) ≤ start

/-! ## Heights -/

section
variable {text : List Byte} {start lim lim' e s : Nat}

/-- The newlines among so many bytes from a point on. -/
def newlines (text : List Byte) (n point : Nat) : Nat :=
  ((text.drop point).take n).count newline

theorem newlines_succ {byte : Byte} {point : Nat} (h : text[point]? = some byte) (n : Nat) :
    newlines text (n + 1) point = newlines text n (point + 1) + if byte = newline then 1 else 0 := by
  obtain ⟨hlt, rfl⟩ := List.getElem?_eq_some_iff.1 h
  rw [newlines, newlines, List.drop_eq_getElem_cons hlt, List.take_succ_cons, List.count_cons]
  simp only [beq_iff_eq]

theorem newlines_of_none {point : Nat} (h : text[point]? = none) (n : Nat) :
    newlines text n point = 0 := by
  rw [newlines, List.drop_eq_nil_of_le (List.getElem?_eq_none_iff.1 h), List.take_nil]
  rfl

theorem newlines_add (text : List Byte) (n m point : Nat) :
    newlines text (n + m) point = newlines text n point + newlines text m (point + n) := by
  rw [newlines, newlines, newlines, List.take_add, List.count_append, List.drop_drop]

theorem newlines_of_last {n point : Nat} (h : text[point + n]? = some newline) :
    newlines text 1 (point + n) = 1 := by
  rw [show (1 : Nat) = 0 + 1 from rfl, newlines_succ h, if_pos rfl]
  rfl

/-- The first newline ends a mixed line, unless there is one before the block, and each other one a
line of the block. -/
theorem heightLoop_spec (text : List Byte) {start lim n point : Nat} (c : LineCounts) (hpoint : start ≤ point)
    (hlim : point + n ≤ lim) :
    (newlines text n point = 0 → heightLoop text start lim n point c = c) ∧
      (0 < newlines text n point →
        text[(heightLoop text start lim n point c).last_nl_point]? = some newline ∧
        point ≤ (heightLoop text start lim n point c).last_nl_point ∧
        (heightLoop text start lim n point c).num_edit_lines +
            (if c.last_nl_point ≠ lim ∧ start ≤ c.last_nl_point then 0 else 1) =
          c.num_edit_lines + newlines text n point ∧
        (heightLoop text start lim n point c).num_mixed_lines = c.num_mixed_lines +
          if c.last_nl_point ≠ lim ∧ start ≤ c.last_nl_point then 0 else 1) := by
  induction n generalizing point c with
  | zero => exact ⟨fun _ => rfl, fun h => absurd h (Nat.lt_irrefl 0)⟩
  | succ n ih =>
    rw [heightLoop]
    cases hbyte : text[point]? with
    | none =>
      rw [newlines_of_none hbyte]
      exact ⟨fun _ => rfl, fun h => absurd h (Nat.lt_irrefl 0)⟩
    | some byte =>
      rw [newlines_succ hbyte]
      dsimp only
      by_cases hnl : byte = newline
      · rw [if_pos hnl, if_pos hnl]
        refine ⟨fun h => absurd h (Nat.succ_ne_zero _), fun _ => ?_⟩
        have hfirst : text[point]? = some newline := by rw [hbyte, hnl]
        -- the lines behind this newline are all of the block
        have hnext (c' : LineCounts) (hc' : c'.last_nl_point = point) :
            text[(heightLoop text start lim n (point + 1) c').last_nl_point]? = some newline ∧
            point ≤ (heightLoop text start lim n (point + 1) c').last_nl_point ∧
            (heightLoop text start lim n (point + 1) c').num_edit_lines =
              c'.num_edit_lines + newlines text n (point + 1) ∧
            (heightLoop text start lim n (point + 1) c').num_mixed_lines = c'.num_mixed_lines := by
          obtain ⟨hnone, hsome⟩ := ih c' (Nat.le_succ_of_le hpoint) (by omega)
          have hin : c'.last_nl_point ≠ lim ∧ start ≤ c'.last_nl_point := by omega
          rcases Nat.eq_zero_or_pos (newlines text n (point + 1)) with hzero | hpos
          · rw [hnone hzero, hzero, hc']
            exact ⟨hfirst, Nat.le_refl _, rfl, rfl⟩
          · obtain ⟨hlast, hle, hedit, hmixed⟩ := hsome hpos
            rw [if_pos hin] at hedit hmixed
            exact ⟨hlast, Nat.le_of_succ_le hle, hedit, hmixed⟩
        split
        · obtain ⟨hlast, hle, hedit, hmixed⟩ :=
            hnext ⟨point, c.num_edit_lines + 1, c.num_mixed_lines⟩ rfl
          dsimp only at hedit hmixed
          exact ⟨hlast, hle, by omega, hmixed⟩
        · obtain ⟨hlast, hle, hedit, hmixed⟩ :=
            hnext ⟨point, c.num_edit_lines, c.num_mixed_lines + 1⟩ rfl
          dsimp only at hedit hmixed
          exact ⟨hlast, hle, by omega, hmixed⟩
      · rw [if_neg hnl, if_neg hnl, Nat.add_zero]
        obtain ⟨hnone, hsome⟩ := ih c (Nat.le_succ_of_le hpoint) (by omega)
        refine ⟨hnone, fun h => ?_⟩
        obtain ⟨hlast, hle, hrest⟩ := hsome h
        exact ⟨hlast, Nat.le_of_succ_le hle, hrest⟩

/-- The height of the lines that end in the block. -/
def endedHeight (behind : Prop) [Decidable behind] (n e s : Nat) : Nat :=
  if behind then n * e else if n = 0 then 0 else (n - 1) * e + max e s

/-- There is more height for a line that does not end in the block, but not when the block's last
byte is a newline. -/
theorem heightBetween_eq (text : List Byte) (e s : Nat) (h : start ≤ lim) : ∃ rest : Bool,
    heightBetween text start lim e s =
        endedHeight (BehindNewline text start) (newlines text (lim - start) start) e s +
          (if rest then (max e s : Nat) - (s : Int) else 0) ∧
      (rest = false → BehindNewline text start ∧ start + 1 = lim ∨
        text[lim - 1]? = some newline ∧ start < lim) := by
  obtain ⟨hnone, hsome⟩ := heightLoop_spec text
    ⟨if BehindNewline text start then start else lim, 0, 0⟩ (Nat.le_refl start)
    (show start + (lim - start) ≤ lim by omega)
  unfold heightBetween endedHeight
  dsimp only at hnone hsome ⊢
  rcases Nat.eq_zero_or_pos (newlines text (lim - start) start) with hzero | hpos
  · rw [hnone hzero, hzero, if_pos rfl]
    refine ⟨decide ((if BehindNewline text start then start else lim) + 1 ≠ lim), ?_, ?_⟩
    · by_cases hrest : (if BehindNewline text start then start else lim) + 1 = lim
      · simp [hrest]
      · simp only [hrest, ne_eq, not_false_eq_true, if_true, decide_true]
        push_cast
        split <;> omega
    · intro hrest
      have hlast := of_not_not (of_decide_eq_false hrest)
      by_cases hbehind : BehindNewline text start
      · rw [if_pos hbehind] at hlast
        exact .inl ⟨hbehind, hlast⟩
      · rw [if_neg hbehind] at hlast
        omega
  · have hlt : start < lim := by
      by_contra hge
      rw [show lim - start = 0 by omega] at hpos
      exact absurd hpos (Nat.lt_irrefl 0)
    obtain ⟨hlast, hle, hedit, hmixed⟩ := hsome hpos
    set r := heightLoop text start lim (lim - start) start
      ⟨if BehindNewline text start then start else lim, 0, 0⟩
    refine ⟨decide (r.last_nl_point + 1 ≠ lim), ?_, ?_⟩
    · by_cases hbehind : BehindNewline text start
      · rw [if_pos hbehind, if_pos ⟨hlt.ne, Nat.le_refl _⟩] at hedit hmixed
        rw [hmixed, show r.num_edit_lines = newlines text (lim - start) start by omega, if_pos hbehind]
        by_cases hrest : r.last_nl_point + 1 = lim
        · simp [hrest]
        · simp only [hrest, ne_eq, not_false_eq_true, if_true, decide_true]
          push_cast
          omega
      · rw [if_neg hbehind, if_neg (fun h => h.1 rfl)] at hedit hmixed
        rw [hmixed, show r.num_edit_lines = newlines text (lim - start) start - 1 by omega,
          if_neg hbehind, if_neg hpos.ne']
        by_cases hrest : r.last_nl_point + 1 = lim
        · simp [hrest]
        · simp only [hrest, ne_eq, not_false_eq_true, if_true, decide_true]
          push_cast
          omega
    · intro hrest
      have hend := of_not_not (of_decide_eq_false hrest)
      rw [show r.last_nl_point = lim - 1 by omega] at hlast
      exact .inr ⟨hlast, hlt⟩

theorem endedHeight_mono (behind : Prop) [Decidable behind] (e s : Nat) {n m : Nat} (h : n ≤ m) :
    endedHeight behind n e s ≤ endedHeight behind m e s := by
  unfold endedHeight
  split
  · exact Nat.mul_le_mul_right e h
  · split
    · exact Nat.zero_le _
    · rw [if_neg (by omega)]
      have := Nat.mul_le_mul_right e (show n - 1 ≤ m - 1 by omega)
      omega

/-- A newline ends a line that is no lower than what a part of one adds. -/
theorem endedHeight_succ (behind : Prop) [Decidable behind] (n e s : Nat) :
    endedHeight behind n e s + (max e s - s) ≤ endedHeight behind (n + 1) e s := by
  unfold endedHeight
  split
  · rw [Nat.succ_mul]
    omega
  · rw [if_neg (Nat.succ_ne_zero n), Nat.add_sub_cancel]
    split
    · omega
    · have hpred : n = n - 1 + 1 := by omega
      have hmul : n * e = (n - 1) * e + e := by
        conv_lhs => rw [hpred, Nat.succ_mul]
      omega

theorem heightBetween_nonneg (h : start ≤ lim) : 0 ≤ heightBetween text start lim e s := by
  obtain ⟨rest, heq, -⟩ := heightBetween_eq text e s h
  rw [heq]
  have := Nat.le_max_right e s
  split <;> omega

/-- A block that is cut off at a point is not higher. -/
theorem heightBetween_mono (hstart : start = 0 ∨ start < lim') (hle : lim' ≤ lim) :
    heightBetween text start lim' e s ≤ heightBetween text start lim e s := by
  rcases Nat.eq_or_lt_of_le hle with rfl | hlt
  · exact Int.le_refl _
  · obtain ⟨rest', heq', -⟩ := heightBetween_eq text e s
      (show start ≤ lim' by omega)
    obtain ⟨rest, heq, hrest⟩ := heightBetween_eq text e s
      (show start ≤ lim by omega)
    have hmax := Nat.le_max_right e s
    have hsplit : newlines text (lim - start) start =
        newlines text (lim' - start) start + newlines text (lim - lim') lim' := by
      rw [show lim - start = lim' - start + (lim - lim') by omega, newlines_add,
        show start + (lim' - start) = lim' by omega]
    have hmono := endedHeight_mono (BehindNewline text start) e s
      (Nat.le.intro hsplit.symm)
    rw [heq, heq']
    cases rest with
    | true => split <;> simp only [if_true] <;> omega
    | false =>
      rcases hrest rfl with ⟨hbehind, hone⟩ | ⟨hnl, -⟩
      · have := hbehind.1
        omega
      · -- the block goes on to a newline, and that ends one more line
        have hlast : 1 ≤ newlines text (lim - lim') lim' := by
          have hnl' : text[lim' + (lim - lim' - 1)]? = some newline := by
            rwa [show lim' + (lim - lim' - 1) = lim - 1 by omega]
          rw [show lim - lim' = lim - lim' - 1 + 1 by omega, newlines_add, newlines_of_last hnl']
          omega
        have hmore := endedHeight_mono (BehindNewline text start) e s
          (show newlines text (lim' - start) start + 1 ≤ newlines text (lim - start) start by omega)
        have hsucc := endedHeight_succ (BehindNewline text start)
          (newlines text (lim' - start) start) e s
        split <;> simp only [Bool.false_eq_true, if_false] <;> omega

end

/-! ## The blocks that are behind the walk -/

/-- The blocks stand one behind the other, and each ends behind its start. -/
def Spaced (spans : List (Nat × Nat)) : Prop :=
  (∀ p ∈ spans, p.1 ≤ p.2) ∧ spans.Pairwise fun p q => p.2 < q.1

/-- The bytes without their newlines of the blocks that are passed when the line at `entry` is
counted. -/
def passed (entry : Nat) : Nat → List (Nat × Nat) → Nat
  | _, [] => 0
  | offset, (ebstart, eblim) :: spans =>
    (if ebstart = 0 ∨ ebstart < entry + offset then eblim - ebstart else 0) +
      passed entry (offset + (eblim - ebstart)) spans

section
variable {spans : List (Nat × Nat)} {entry entry' offset ebstart eblim : Nat}

theorem Spaced.tail {p : Nat × Nat} (h : Spaced (p :: spans)) : Spaced spans :=
  ⟨fun q hq => h.1 q (List.mem_cons_of_mem p hq), (List.pairwise_cons.1 h.2).2⟩

/-- Behind a block that is not passed none is. -/
theorem passed_eq_zero (h : Spaced spans)
    (hfirst : ∀ p ∈ spans, p.1 ≠ 0 ∧ entry + offset ≤ p.1) : passed entry offset spans = 0 := by
  induction spans generalizing offset with
  | nil => rfl
  | cons p spans ih =>
    obtain ⟨ebstart, eblim⟩ := p
    obtain ⟨hpos, hle⟩ := hfirst _ List.mem_cons_self
    have hspan := h.1 _ List.mem_cons_self
    dsimp only at hpos hle hspan
    rw [passed, if_neg (by omega), Nat.zero_add]
    refine ih h.tail fun q hq => ?_
    have hq' := (List.pairwise_cons.1 h.2).1 q hq
    dsimp only at hq'
    omega

theorem passed_mono (h : entry ≤ entry') : passed entry offset spans ≤ passed entry' offset spans := by
  induction spans generalizing offset with
  | nil => exact Nat.le_refl 0
  | cons p spans ih =>
    obtain ⟨ebstart, eblim⟩ := p
    rw [passed, passed]
    have hrest : passed entry (offset + (eblim - ebstart)) spans ≤
        passed entry' (offset + (eblim - ebstart)) spans := ih
    split
    · rw [if_pos (by omega)]
      omega
    · omega

theorem passed_cons (h : ebstart = 0 ∨ ebstart < entry + offset) :
    passed entry offset ((ebstart, eblim) :: spans) =
      eblim - ebstart + passed entry (offset + (eblim - ebstart)) spans := by
  rw [passed, if_pos h]

end

/-! ## The walk -/

section
variable {s N lnum : Nat} {lim_ypos ypos : Int}

/-- The lines are counted up to the first one at which the walk is not before the point any more, or
at which it is behind the next block. -/
theorem lineScan_spec (L : Nat → Nat) (lim_point offset : Nat) (ebstart : Option Nat)
    (hypos : ypos + (N - lnum : Nat) * (s : Int) < lim_ypos)
    (hle : lnum ≤ N) : ∃ quit lnum',
      lineScan offset ebstart lim_point lim_ypos s ((List.range' lnum (N - lnum)).map L) lnum ypos =
        (quit, lnum', ypos + (lnum' - lnum : Nat) * (s : Int)) ∧
      lnum ≤ lnum' ∧ lnum' ≤ N ∧
      (∀ j, lnum ≤ j → j < lnum' →
        L j + offset < lim_point ∧ ∀ p ∈ ebstart, L j + offset ≤ p) ∧
      (quit = true → lnum' < N ∧ lim_point ≤ L lnum' + offset) ∧
      (quit = false → lnum' < N →
        L lnum' + offset < lim_point ∧ ∃ p ∈ ebstart, p < L lnum' + offset) := by
  obtain ⟨count, rfl⟩ := Nat.exists_eq_add_of_le hle
  rw [Nat.add_sub_cancel_left] at hypos ⊢
  clear hle
  induction count generalizing lnum ypos with
  | zero =>
    refine ⟨false, lnum, ?_, Nat.le_refl _, Nat.le_refl _, fun j h1 h2 => ?_, nofun, fun _ h => ?_⟩
    · simp [lineScan]
    · omega
    · omega
  | succ count ih =>
    have hs : (0 : Int) ≤ (count : Int) * s :=
      Int.mul_nonneg (Int.natCast_nonneg _) (Int.natCast_nonneg _)
    rw [Int.natCast_succ, Int.add_mul, Int.one_mul] at hypos
    rw [List.range'_succ, List.map_cons, lineScan]
    by_cases hlim : lim_point ≤ L lnum + offset
    · rw [if_pos (.inr hlim)]
      refine ⟨true, lnum, by simp, Nat.le_refl _, by omega, fun j h1 h2 => ?_, fun _ => ⟨by omega, hlim⟩,
        nofun⟩
      omega
    · rw [if_neg (by omega)]
      by_cases hbreak : ∃ p ∈ ebstart, p < L lnum + offset
      · rw [if_pos hbreak]
        refine ⟨false, lnum, by simp, Nat.le_refl _, by omega, fun j h1 h2 => ?_, nofun, fun _ _ => ?_⟩
        · omega
        · exact ⟨by omega, hbreak⟩
      · rw [if_neg hbreak]
        obtain ⟨quit, lnum', heq, h1, h2, hbefore, hquit, hstop⟩ :=
          @ih (lnum + 1) (ypos + s) (by omega)
        refine ⟨quit, lnum', ?_, by omega, by omega, fun j hj hj' => ?_, ?_, ?_⟩
        · rw [heq, show lnum' - lnum = lnum' - (lnum + 1) + 1 by omega, Int.natCast_succ, Int.add_mul,
            Int.one_mul, Int.add_assoc, Int.add_comm (s : Int)]
        · rcases Nat.eq_or_lt_of_le hj with rfl | hlt
          · refine ⟨by omega, fun p hp => ?_⟩
            by_contra hgt
            exact hbreak ⟨p, hp, by omega⟩
          · exact hbefore j hlt hj'
        · rwa [show lnum + (count + 1) = lnum + 1 + count by omega]
        · rwa [show lnum + (count + 1) = lnum + 1 + count by omega]

end

/-! ## The turns -/

/-- The points of the block are those of its span. -/
def Pointed (sb : Srcbuf) (eb : Editblock) : Prop :=
  editGetPropchangePoint sb.buffer eb.startpc = some (span sb eb).1 ∧
    editGetPropchangePoint sb.buffer eb.limpc = some (span sb eb).2 ∧
    (span sb eb).2 ≤ sb.text.length

def fullHeight (sb : Srcbuf) (e s : Nat) (eb : Editblock) : Int :=
  (srcbufGetEditblockHeight sb eb sb.text.length e s).getD 0

/-- The walk stops at the first line that is not before the point. -/
def StopsAt (result : Option (Nat × Int)) (P : Nat → Nat) (N lim_point lnum : Nat) : Prop :=
  ∃ lnum' ypos, result = some (lnum', ypos) ∧ lnum ≤ lnum' ∧ lnum' ≤ N ∧
    (∀ j, lnum ≤ j → j < lnum' → P j < lim_point) ∧ (lnum' < N → lim_point ≤ P lnum')

section
variable {sb : Srcbuf} {eb : Editblock} {ebs : List Editblock}
  {lim_point offset e s N lnum fuel : Nat} {lim_ypos ypos : Int} {L : Nat → Nat}

theorem fullHeight_eq (h : Pointed sb eb) : fullHeight sb e s eb =
    heightBetween sb.text (span sb eb).1 (span sb eb).2 e s := by
  obtain ⟨hstart, hlim, hle⟩ := h
  unfold fullHeight srcbufGetEditblockHeight
  rw [hstart, hlim]
  dsimp only [Option.bind_eq_bind, Option.bind_some]
  rw [show (if sb.text.length < (span sb eb).2 then sb.text.length else (span sb eb).2) =
    (span sb eb).2 from if_neg (Nat.not_lt.2 hle)]
  rfl

theorem fullHeight_nonneg (h : Pointed sb eb) (hspan : (span sb eb).1 ≤ (span sb eb).2) :
    0 ≤ fullHeight sb e s eb := by
  rw [fullHeight_eq h]
  exact heightBetween_nonneg hspan

theorem height_le (h : Pointed sb eb)
    (hlim : (span sb eb).1 = 0 ∨ (span sb eb).1 < lim_point) :
    ∃ height, srcbufGetEditblockHeight sb eb lim_point e s = some height ∧
      height ≤ fullHeight sb e s eb := by
  have hfull := fullHeight_eq (e := e) (s := s) h
  obtain ⟨hstart, hend, -⟩ := h
  refine ⟨heightBetween sb.text (span sb eb).1
    (if lim_point < (span sb eb).2 then lim_point else (span sb eb).2) e s, ?_, ?_⟩
  · unfold srcbufGetEditblockHeight
    rw [hstart, hend]
    rfl
  · rw [hfull]
    split
    · rename_i hlt
      exact heightBetween_mono hlim hlt.le
    · exact Int.le_refl _

/-- What the walk has to know of the table of the lines. -/
structure Lines (sb : Srcbuf) (N : Nat) (L : Nat → Nat) : Prop where
  num : sb.num_file_lines = N
  linetab : sb.linetab = (List.range (N + 1)).map L
  mono : ∀ j k, j ≤ k → L j ≤ L k

theorem Lines.entry (h : Lines sb N L) (hle : lnum ≤ N) : sb.linetab[lnum]? = some (L lnum) := by
  rw [h.linetab, List.getElem?_map, List.getElem?_range (by omega)]
  rfl

theorem Lines.rest (h : Lines sb N L) (lnum : Nat) :
    (sb.linetab.take sb.num_file_lines).drop lnum = (List.range' lnum (N - lnum)).map L := by
  rw [h.num, h.linetab, ← List.map_take, ← List.map_drop, List.take_range, Nat.min_eq_left (by omega),
    List.range_eq_range', List.drop_range', Nat.mul_one, Nat.zero_add]

/-- A turn scans lines, when a block was taken or not, up to the end or to the next block. -/
theorem countLoop_turn (hlines : Lines sb N L) {ebs' : List Editblock} {offset' : Nat} {ypos' : Int}
    (htake : takeBlock sb lim_point e s (L lnum) offset ypos ebs = some (offset', ypos', ebs'))
    (hpointed : ∀ eb ∈ ebs', Pointed sb eb) (hspaced : Spaced (ebs'.map (span sb)))
    (hpos : ∀ p ∈ ebs'.map (span sb), p.1 ≠ 0) (hle : lnum ≤ N)
    (hypos : ypos' + (ebs'.map (fullHeight sb e s)).sum + (N - lnum : Nat) * (s : Int) < lim_ypos)
    (hnext : ∀ eb rest lnum' ypos'', ebs' = eb :: rest → lnum' ≤ N →
      (span sb eb).1 < L lnum' + offset' → (span sb eb).1 < lim_point →
      ypos'' + (ebs'.map (fullHeight sb e s)).sum + (N - lnum' : Nat) * (s : Int) < lim_ypos →
      StopsAt (countLoop sb lim_point lim_ypos e s fuel lnum' offset' ypos'' ebs')
        (fun j => L j + offset' + passed (L j) offset' (ebs'.map (span sb))) N lim_point lnum') :
    StopsAt (countLoop sb lim_point lim_ypos e s (fuel + 1) lnum offset ypos ebs)
      (fun j => L j + offset' + passed (L j) offset' (ebs'.map (span sb))) N lim_point lnum := by
  have hsum : 0 ≤ (ebs'.map (fullHeight sb e s)).sum := by
    refine List.sum_nonneg fun x hx => ?_
    obtain ⟨eb, heb, rfl⟩ := List.mem_map.1 hx
    exact fullHeight_nonneg (hpointed eb heb) (hspaced.1 _ (List.mem_map_of_mem heb))
  obtain ⟨ebstart, hstart, hhead⟩ : ∃ ebstart, startpos sb.buffer ebs' = some ebstart ∧
      ebstart = ebs'.head?.map fun eb => (span sb eb).1 := by
    cases ebs' with
    | nil => exact ⟨none, rfl, rfl⟩
    | cons eb rest =>
      refine ⟨some (span sb eb).1, ?_, rfl⟩
      rw [startpos, (hpointed eb List.mem_cons_self).1]
      rfl
  -- a line that is not behind the next block is not behind any
  have hzero (j : Nat) (hj : ∀ p ∈ ebstart, L j + offset' ≤ p) :
      passed (L j) offset' (ebs'.map (span sb)) = 0 := by
    refine passed_eq_zero hspaced fun p hp => ⟨hpos p hp, ?_⟩
    cases ebs' with
    | nil => cases hp
    | cons eb rest =>
      have hfirst := hj (span sb eb).1 (by rw [hhead]; rfl)
      rcases List.mem_cons.1 hp with rfl | hp
      · exact hfirst
      · have hspan := hspaced.1 _ (List.mem_map_of_mem List.mem_cons_self)
        have hgt := (List.pairwise_cons.1 hspaced.2).1 p hp
        omega
  obtain ⟨quit, lnum', hscan, hge, hle', hbefore, hquit, hstop⟩ := lineScan_spec L lim_point
    offset' ebstart
    (show ypos' + (N - lnum : Nat) * (s : Int) < lim_ypos by omega) hle
  have hloop : countLoop sb lim_point lim_ypos e s (fuel + 1) lnum offset ypos ebs =
      if quit || lnum' == N then some (lnum', ypos' + (lnum' - lnum : Nat) * (s : Int))
      else countLoop sb lim_point lim_ypos e s fuel lnum' offset'
        (ypos' + (lnum' - lnum : Nat) * (s : Int)) ebs' := by
    rw [countLoop, hlines.entry hle]
    dsimp only [Option.bind_eq_bind, Option.bind_some]
    rw [htake]
    dsimp only [Option.bind_some]
    rw [hstart]
    dsimp only [Option.bind_some]
    rw [hlines.rest, hscan, hlines.num]
  rw [hloop]
  have hscanned : ∀ j, lnum ≤ j → j < lnum' →
      L j + offset' + passed (L j) offset' (ebs'.map (span sb)) < lim_point := by
    intro j h1 h2
    obtain ⟨hlim, hnot⟩ := hbefore j h1 h2
    rw [hzero j hnot]
    exact hlim
  cases quit with
  | true =>
    obtain ⟨hlt, hlim⟩ := hquit rfl
    exact ⟨lnum', _, rfl, hge, hle', hscanned, fun _ => by dsimp only; omega⟩
  | false =>
    by_cases hend : lnum' = N
    · rw [if_pos (by simp [hend])]
      exact ⟨lnum', _, rfl, hge, hle', hscanned, fun h => absurd h (by omega)⟩
    · obtain ⟨hlim, p, hp, hgt⟩ := hstop rfl (by omega)
      rw [if_neg (by simp [hend])]
      cases hebs : ebs' with
      | nil =>
        rw [hhead, hebs] at hp
        cases hp
      | cons eb rest =>
        rw [hhead, hebs] at hp
        obtain rfl : (span sb eb).1 = p := Option.some.inj hp
        have hsplit : (N - lnum : Nat) * (s : Int) =
            (lnum' - lnum : Nat) * (s : Int) + (N - lnum' : Nat) * (s : Int) := by
          rw [← Int.add_mul, ← Int.natCast_add, show lnum' - lnum + (N - lnum') = N - lnum by omega]
        obtain ⟨lnum'', ypos'', heq, hge', hle'', hbefore', hlast⟩ := hnext eb rest lnum'
          (ypos' + (lnum' - lnum : Nat) * (s : Int)) hebs hle' hgt (by omega) (by omega)
        rw [hebs] at heq hbefore' hlast hscanned
        refine ⟨lnum'', ypos'', heq, by omega, hle'', fun j h1 h2 => ?_, hlast⟩
        by_cases hj : j < lnum'
        · exact hscanned j h1 hj
        · exact hbefore' j (by omega) h2

end

theorem StopsAt.congr {result : Option (Nat × Int)} {P P' : Nat → Nat} {N lim_point lnum : Nat}
    (h : StopsAt result P N lim_point lnum) (hP : ∀ j, lnum ≤ j → P j = P' j) :
    StopsAt result P' N lim_point lnum := by
  obtain ⟨lnum', ypos, heq, hge, hle, hbefore, hlast⟩ := h
  refine ⟨lnum', ypos, heq, hge, hle, fun j h1 h2 => ?_, fun hlt => ?_⟩
  · rw [← hP j h1]
    exact hbefore j h1 h2
  · rw [← hP lnum' hge]
    exact hlast hlt

section
variable {sb : Srcbuf} {eb : Editblock} {ebs : List Editblock}
  {lim_point offset e s N lnum fuel : Nat} {lim_ypos ypos : Int} {L : Nat → Nat}

/-- When the walk is behind the next block, that one is taken, and in further turns other ones. -/
theorem countLoop_due (hlines : Lines sb N L) (hpointed : ∀ eb' ∈ eb :: ebs, Pointed sb eb')
    (hspaced : Spaced ((eb :: ebs).map (span sb))) (hle : lnum ≤ N)
    (hdue : (span sb eb).1 = 0 ∨ (span sb eb).1 < L lnum + offset)
    (hlim : (span sb eb).1 = 0 ∨ (span sb eb).1 < lim_point)
    (hypos : ypos + ((eb :: ebs).map (fullHeight sb e s)).sum + (N - lnum : Nat) * (s : Int) <
      lim_ypos) (hfuel : ebs.length < fuel) :
    StopsAt (countLoop sb lim_point lim_ypos e s fuel lnum offset ypos (eb :: ebs))
      (fun j => L j + offset + passed (L j) offset ((eb :: ebs).map (span sb))) N lim_point lnum := by
  induction fuel generalizing eb ebs lnum offset ypos with
  | zero => exact absurd hfuel (Nat.not_lt_zero _)
  | succ fuel ih =>
    have hpoint := hpointed eb List.mem_cons_self
    have hspan := hspaced.1 _ (List.mem_map_of_mem List.mem_cons_self)
    have hrest := hspaced.tail
    obtain ⟨height, hheight, hfull⟩ := height_le (e := e) (s := s) hpoint hlim
    have htake : takeBlock sb lim_point e s (L lnum) offset ypos (eb :: ebs) =
        some (offset + ((span sb eb).2 - (span sb eb).1), ypos + height, ebs) := by
      rw [takeBlock, hpoint.1]
      dsimp only [Option.bind_eq_bind, Option.bind_some]
      rw [if_pos (by omega), hheight, hpoint.2.1]
      rfl
    rw [List.map_cons, List.sum_cons] at hypos
    refine (countLoop_turn hlines htake (fun eb' heb => hpointed eb' (List.mem_cons_of_mem _ heb))
      hrest (fun p hp => ?_) hle (by omega) ?_).congr fun j hj => ?_
    · have hgt := (List.pairwise_cons.1 hspaced.2).1 p hp
      omega
    · rintro eb2 rest lnum' ypos'' rfl hle' hdue' hlim' hypos'
      refine ih (fun eb' heb => hpointed eb' (List.mem_cons_of_mem _ heb)) hrest hle' (.inr hdue')
        (.inr hlim') hypos' ?_
      rw [List.length_cons] at hfuel
      omega
    · have hmono := hlines.mono lnum j hj
      have hpassed := @passed_cons (ebs.map (span sb)) (L j) offset (span sb eb).1 (span sb eb).2
        (show (span sb eb).1 = 0 ∨ (span sb eb).1 < L j + offset by omega)
      rw [List.map_cons, hpassed]
      omega

/-- The walk ends, and without blocks that it does not pass in time it would be exact. -/
theorem countPixels_spec (lim_point : Nat) (hlines : Lines sb N L) (hzero : L 0 = 0)
    (hpointed : ∀ eb ∈ sb.eblist, Pointed sb eb) (hspaced : Spaced (sb.eblist.map (span sb)))
    (hypos : totalHeight sb e s < lim_ypos) :
    StopsAt (srcbufCountPixels sb lim_point lim_ypos e s)
      (fun j => L j + passed (L j) 0 (sb.eblist.map (span sb))) N lim_point 0 := by
  have htotal : (0 : Int) + (sb.eblist.map (fullHeight sb e s)).sum + (N - 0 : Nat) * (s : Int) <
      lim_ypos := by
    rw [totalHeight, hlines.num] at hypos
    rw [Int.zero_add, Nat.sub_zero]
    exact hypos
  unfold srcbufCountPixels
  cases heb : sb.eblist with
  | nil =>
    rw [heb] at htotal
    have htake : takeBlock sb lim_point e s (L 0) 0 0 [] = some (0, 0, []) := rfl
    exact countLoop_turn hlines htake (fun eb h => absurd h List.not_mem_nil)
      ⟨fun p h => absurd h List.not_mem_nil, List.Pairwise.nil⟩
      (fun p h => absurd h List.not_mem_nil) (Nat.zero_le N) htotal fun eb rest _ _ h => nomatch h
  | cons eb ebs =>
    rw [heb] at hpointed hspaced htotal
    by_cases hfirst : (span sb eb).1 = 0
    · exact countLoop_due hlines hpointed hspaced (Nat.zero_le N) (.inl hfirst) (.inl hfirst) htotal
        (by rw [List.length_cons]; omega)
    · have htake : takeBlock sb lim_point e s (L 0) 0 0 (eb :: ebs) = some (0, 0, eb :: ebs) := by
        rw [takeBlock, (hpointed eb List.mem_cons_self).1]
        dsimp only [Option.bind_eq_bind, Option.bind_some]
        rw [if_neg (by omega)]
      refine countLoop_turn hlines htake hpointed hspaced (fun p hp => ?_) (Nat.zero_le N) htotal ?_
      · rcases List.mem_cons.1 hp with rfl | hp
        · exact hfirst
        · have hgt := (List.pairwise_cons.1 hspaced.2).1 p hp
          omega
      · rintro eb2 rest lnum' ypos'' h hle' hdue' hlim' hypos'
        cases h
        exact countLoop_due hlines hpointed hspaced hle' (.inr hdue') (.inr hlim') hypos'
          (by rw [List.length_cons]; omega)

end

/-! ## The points of the lines -/

section
variable {ls : List (List Byte)} {sb : Srcbuf} {bl : List (Editblock × Nat)} {file : List Byte}
  {pc total' offset k j lim_point : Nat}

theorem lost_eq_zero {entry start : Nat} {spans : List (Nat × Nat)}
    (h : ∀ p ∈ spans, start ≤ p.1) : lost entry start offset spans = 0 := by
  induction spans generalizing offset with
  | nil => rfl
  | cons p spans ih =>
    obtain ⟨ebstart, eblim⟩ := p
    rw [lost, if_pos (h _ List.mem_cons_self), Nat.zero_add]
    exact ih fun q hq => h q (List.mem_cons_of_mem _ hq)

/-- A block stands in front of its line, behind other ones. -/
theorem placed_span (hhead : Headed sb.buffer pc) (h : Placed ls sb.buffer total' bl)
    {p : Editblock × Nat} (hp : p ∈ bl) : ∃ before, total' ≤ before ∧
      before + p.1.text.length ≤ total' + total bl ∧ 0 < p.1.text.length ∧
      editGetPropchangePoint sb.buffer p.1.startpc = some (lineStart ls p.2 + before) ∧
      editGetPropchangePoint sb.buffer p.1.limpc =
        some (lineStart ls p.2 + before + p.1.text.length - 1) := by
  induction bl generalizing total' with
  | nil => cases hp
  | cons q bl ih =>
    obtain ⟨eb, n⟩ := q
    obtain ⟨hlen, hstart, hlim, hrest⟩ := h
    rw [total_cons]
    rcases List.mem_cons.1 hp with rfl | hp
    · exact ⟨total', Nat.le_refl _, by dsimp only; omega, hlen, hhead.point hstart, hhead.point hlim⟩
    · obtain ⟨before, hle, hto, hpoints⟩ := ih hrest hp
      exact ⟨before, by omega, by dsimp only; omega, hpoints⟩

theorem span_of_placed (hhead : Headed sb.buffer pc) (h : Placed ls sb.buffer total' bl)
    {p : Editblock × Nat} (hp : p ∈ bl) : ∃ before, total' ≤ before ∧
      before + p.1.text.length ≤ total' + total bl ∧ 0 < p.1.text.length ∧
      span sb p.1 =
        (lineStart ls p.2 + before, lineStart ls p.2 + before + p.1.text.length - 1) := by
  obtain ⟨before, hle, hto, hlen, hstart, hlim⟩ := placed_span hhead h hp
  refine ⟨before, hle, hto, hlen, ?_⟩
  rw [span, hstart, hlim]
  rfl

theorem spaced_of_placed (hhead : Headed sb.buffer pc) (h : Placed ls sb.buffer total' bl)
    (hsorted : bl.Pairwise fun p q => p.2 ≤ q.2) :
    Spaced ((bl.map Prod.fst).map (span sb)) := by
  induction bl generalizing total' with
  | nil => exact ⟨nofun, List.Pairwise.nil⟩
  | cons p bl ih =>
    rw [List.pairwise_cons] at hsorted
    obtain ⟨hle, hrest⟩ := ih h.2.2.2 hsorted.2
    have hspan : span sb p.1 = (lineStart ls p.2 + total',
        lineStart ls p.2 + total' + p.1.text.length - 1) := by
      rw [span, hhead.point h.2.1, hhead.point h.2.2.1]
      rfl
    have hlen : 0 < p.1.text.length := h.1
    rw [List.map_cons, List.map_cons]
    refine ⟨List.forall_mem_cons.2 ⟨?_, hle⟩, List.pairwise_cons.2 ⟨fun q hq => ?_, hrest⟩⟩
    · rw [hspan]
      dsimp only
      omega
    · rw [List.map_map] at hq
      obtain ⟨r, hr, rfl⟩ := List.mem_map.1 hq
      obtain ⟨before, hbefore, -, -, hspan'⟩ := span_of_placed hhead h.2.2.2 hr
      have hmono := lineStart_mono ls (hsorted.1 r hr)
      rw [hspan, Function.comp_apply, hspan']
      dsimp only
      omega

/-- What is passed and what is lost in front of a line are all its blocks. -/
theorem passed_add_lost (hhead : Headed sb.buffer pc) (h : Placed ls sb.buffer total' bl)
    (hsorted : bl.Pairwise fun p q => p.2 ≤ q.2) (hne : ∀ l ∈ ls, l ≠ []) (hk : k < ls.length)
    (hoffset : offset ≤ total') :
    passed (lineStart ls k) offset ((bl.map Prod.fst).map (span sb)) +
      lost (lineStart ls k) (lineStart ls k + total' + shift bl k) offset
        ((bl.map Prod.fst).map (span sb)) = shift bl k := by
  induction bl generalizing total' offset with
  | nil => rfl
  | cons p bl ih =>
    have hspaced := spaced_of_placed hhead h hsorted
    have hspan : span sb p.1 = (lineStart ls p.2 + total',
        lineStart ls p.2 + total' + p.1.text.length - 1) := by
      rw [span, hhead.point h.2.1, hhead.point h.2.2.1]
      rfl
    have hlen : 0 < p.1.text.length := h.1
    rw [List.pairwise_cons] at hsorted
    by_cases hp : p.2 ≤ k
    · have hmono := lineStart_mono ls hp
      rw [shift_cons_le hp]
      have hrest := ih h.2.2.2 hsorted.2 (show offset + (p.1.text.length - 1) ≤
        total' + p.1.text.length by omega)
      rw [List.map_cons, List.map_cons, hspan, passed, lost,
        if_neg (show ¬ lineStart ls k + total' + (p.1.text.length + shift bl k) ≤
          lineStart ls p.2 + total' by omega),
        show lineStart ls p.2 + total' + p.1.text.length - 1 - (lineStart ls p.2 + total') =
          p.1.text.length - 1 by omega,
        show lineStart ls k + total' + (p.1.text.length + shift bl k) =
          lineStart ls k + (total' + p.1.text.length) + shift bl k by omega]
      split <;> omega
    · -- this block and the others stand in front of later lines
      have hbehind : ∀ q ∈ p :: bl, k < q.2 := by
        refine List.forall_mem_cons.2 ⟨by omega, fun q hq => ?_⟩
        have := hsorted.1 q hq
        omega
      have hall : ∀ q ∈ ((p :: bl).map Prod.fst).map (span sb), lineStart ls k + total' < q.1 := by
        intro q hq
        rw [List.map_map] at hq
        obtain ⟨r, hr, rfl⟩ := List.mem_map.1 hq
        obtain ⟨before, hbefore, -, -, hspan'⟩ := span_of_placed hhead h hr
        have hlt := lineStart_lt hne hk (hbehind r hr)
        rw [Function.comp_apply, hspan']
        dsimp only
        omega
      rw [shift_of_lt hbehind, Nat.add_zero, passed_eq_zero hspaced, lost_eq_zero]
      · intro q hq
        exact (hall q hq).le
      · intro q hq
        have := hall q hq
        omega

theorem shift_mono (bl : List (Editblock × Nat)) (h : k ≤ j) : shift bl k ≤ shift bl j := by
  induction bl with
  | nil => exact Nat.le_refl _
  | cons p bl ih =>
    by_cases hp : p.2 ≤ k
    · rw [shift_cons_le hp, shift_cons_le (hp.trans h)]
      omega
    · have hskip : shift (p :: bl) k = shift bl k := by
        unfold shift
        rw [List.filter_cons_of_neg (by simpa using hp)]
      rw [hskip]
      by_cases hj : p.2 ≤ j
      · rw [shift_cons_le hj]
        omega
      · have hskip' : shift (p :: bl) j = shift bl j := by
          unfold shift
          rw [List.filter_cons_of_neg (by simpa using hj)]
        rwa [hskip']

end

/-! ## The law -/

section
variable {file : List Byte} {sb : Srcbuf} {pc : Nat} {bl : List (Editblock × Nat)} {N m : Nat}
  {p : Nat → Bool}

theorem countP_le (hm : m ≤ N) (habove : ∀ j, m ≤ j → j < N → p j = false) :
    (List.range N).countP p ≤ m := by
  obtain ⟨d, rfl⟩ := Nat.exists_eq_add_of_le hm
  have hrest : ((List.range d).map (m + ·)).countP p = 0 := by
    rw [List.countP_eq_zero]
    intro j hj
    obtain ⟨i, hi, rfl⟩ := List.mem_map.1 hj
    have := List.mem_range.1 hi
    rw [habove (m + i) (by omega) (by omega)]
    exact Bool.false_ne_true
  rw [List.range_add, List.countP_append, hrest, Nat.add_zero]
  exact List.countP_le_length.trans_eq List.length_range

theorem countP_eq (hm : m ≤ N) (hbelow : ∀ j < m, p j = true)
    (habove : ∀ j, m ≤ j → j < N → p j = false) : (List.range N).countP p = m := by
  refine Nat.le_antisymm (countP_le hm habove) ?_
  have hall : (List.range m).countP p = m := by
    rw [List.countP_eq_length.2 fun j hj => hbelow j (List.mem_range.1 hj), List.length_range]
  obtain ⟨d, rfl⟩ := Nat.exists_eq_add_of_le hm
  rw [List.range_add, List.countP_append, hall]
  exact Nat.le_add_right m _

theorem lines_of_inv (h : Inv file sb pc bl) :
    Lines sb (lines newline file).length (lineStart (lines newline file)) :=
  ⟨h.num, h.linetab.trans (makeLinetab_spec file), fun _ _ => lineStart_mono _⟩

theorem lineStartPoint_eq (h : Inv file sb pc bl) {k : Nat} (hk : k < (lines newline file).length) :
    lineStartPoint sb k = some (lineStart (lines newline file) k + shift bl k) := by
  rw [lineStartPoint, h.range hk]
  rfl

theorem lt_of_lineStartPoint (h : Inv file sb pc bl) {k start : Nat}
    (hstart : lineStartPoint sb k = some start) : k < (lines newline file).length := by
  by_contra hge
  have hnum := h.num
  rw [lineStartPoint, srcbufFileLnumToPointRange, if_pos (.inr (by omega))] at hstart
  cases hstart

theorem pointed_of_inv (h : Inv file sb pc bl) : ∀ eb ∈ sb.eblist, Pointed sb eb := by
  intro eb heb
  rw [h.eblist] at heb
  obtain ⟨p, hp, rfl⟩ := List.mem_map.1 heb
  obtain ⟨before, -, hto, hlen, hstart, hlim⟩ := placed_span h.headed h.placed hp
  have hlength := h.length
  have hline := lineStart_le file (h.line p hp).le
  rw [Pointed, span, hstart, hlim]
  refine ⟨rfl, rfl, ?_⟩
  simp only [Option.getD_some]
  omega

end

/-- The walk ends, and it counts the lines that start before the point exactly when no line starts
so little behind it that it is taken for one of them. It takes a line for one that starts earlier by
the newlines of the blocks in front of it, and by whole blocks that it is not behind yet. -/
theorem lines_are_counted_iff_none_starts_close_behind_the_point {file : List Byte} {sb : Srcbuf}
    (h : Reaches file sb) (lim_point editline_height srcline_height : Nat) (lim_ypos : Int)
    (hypos : totalHeight sb editline_height srcline_height < lim_ypos) :
    ∃ lnum ypos,
      srcbufCountPixels sb lim_point lim_ypos editline_height srcline_height = some (lnum, ypos) ∧
      (lnum = linesBefore sb lim_point ↔ Clear sb lim_point) := by
  obtain ⟨pc, bl, hinv⟩ := inv_of_reaches h
  have hlines := lines_of_inv hinv
  have hnum := hinv.num
  set L := lineStart (lines newline file)
  obtain ⟨spans, hspans⟩ : ∃ spans, spans = sb.eblist.map (span sb) := ⟨_, rfl⟩
  have hspaced : Spaced (sb.eblist.map (span sb)) := by
    rw [hinv.eblist]
    exact spaced_of_placed hinv.headed hinv.placed hinv.sorted
  have hstops := countPixels_spec lim_point hlines rfl (pointed_of_inv hinv) hspaced hypos
  rw [← hspans] at hstops
  obtain ⟨lnum, ypos, heq, -, hle, hbefore, hlast⟩ := hstops
  dsimp only at hbefore hlast
  refine ⟨lnum, ypos, heq, ?_⟩
  have hS {k : Nat} (hk : k < (lines newline file).length) :
      lineStartPoint sb k = some (L k + shift bl k) := lineStartPoint_eq hinv hk
  -- a line starts as far behind where the walk takes it to be as is lost
  have hP {k : Nat} (hk : k < (lines newline file).length) :
      L k + passed (L k) 0 spans + lost (L k) (L k + shift bl k) 0 spans = L k + shift bl k := by
    have hsum := passed_add_lost hinv.headed hinv.placed hinv.sorted (lines_ne_nil newline file) hk
      (Nat.le_refl 0)
    rw [Nat.add_zero, ← hinv.eblist, ← hspans] at hsum
    rw [Nat.add_assoc, hsum]
  have hmono {j k : Nat} (hjk : j ≤ k) : L j + passed (L j) 0 spans ≤ L k + passed (L k) 0 spans := by
    have hL := hlines.mono j k hjk
    have hpassed : passed (L j) 0 spans ≤ passed (L k) 0 spans := passed_mono hL
    omega
  have hcount {j : Nat} (hj : j < (lines newline file).length) :
      (∃ start ∈ lineStartPoint sb j, start < lim_point) ↔ L j + shift bl j < lim_point := by
    rw [hS hj]
    simp
  constructor
  · rintro heq' k entry start hentry hstart hlim
    have hk := lt_of_lineStartPoint hinv hstart
    rw [hS hk, Option.some_inj] at hstart
    rw [hlines.entry hk.le, Option.some_inj] at hentry
    subst hstart hentry
    -- no line from this one on starts before the point
    have hfew : linesBefore sb lim_point ≤ k := by
      rw [linesBefore, hnum]
      refine countP_le hk.le fun j h1 h2 => decide_eq_false ?_
      have hL := hlines.mono k j h1
      have hshift := shift_mono bl h1
      rw [hcount h2]
      omega
    have hreached := hlast (by omega)
    have hthere := hmono (show lnum ≤ k by omega)
    have hsum := hP hk
    rw [← hspans]
    omega
  · intro hclear
    rw [linesBefore, hnum]
    refine (countP_eq hle (fun j hj => decide_eq_true ?_) fun j h1 h2 => decide_eq_false ?_).symm
    · rw [hcount (by omega)]
      by_contra hge
      have hk : j < (lines newline file).length := by omega
      have hlost := hclear j (L j) (L j + shift bl j) (hlines.entry hk.le) (hS hk) (by omega)
      rw [← hspans] at hlost
      have hsum := hP hk
      have htaken := hbefore j (Nat.zero_le j) hj
      omega
    · rw [hcount h2]
      have hreached := hlast (by omega)
      have hthere := hmono h1
      have hsum := hP h2
      omega

theorem two_lines_are_counted :
    ∃ lnum ypos, srcbufCountPixels (srcbufVisitFile twoLines 1 1 0) 2 100 12 10 = some (lnum, ypos) ∧
      (lnum = linesBefore (srcbufVisitFile twoLines 1 1 0) 2 ↔
        Clear (srcbufVisitFile twoLines 1 1 0) 2) :=
  lines_are_counted_iff_none_starts_close_behind_the_point (Reaches.visit 1 1 0) 2 12 10 100 (by decide)

/-- `x` and a newline, in front of the first line. -/
def addX : Op := .add 0 0 0 1 1 ⟨5, 2, 3, [120#8, 10#8]⟩

def withX : Srcbuf := (addX.exec (srcbufVisitFile twoLines 1 1 0)).get (by decide)

/-- The first line starts at the point 2, behind the block, and is counted as one before it. -/
theorem a_line_is_counted_that_starts_at_the_point :
    ¬ ∀ (file : List Byte) (sb : Srcbuf), Reaches file sb →
      ∀ (lim_point editline_height srcline_height : Nat) (lim_ypos : Int),
        totalHeight sb editline_height srcline_height < lim_ypos →
        ∃ ypos, srcbufCountPixels sb lim_point lim_ypos editline_height srcline_height =
          some (linesBefore sb lim_point, ypos) := by
  intro hall
  have hlegal : Legal (srcbufVisitFile twoLines 1 1 0) addX :=
    ⟨by decide, by decide, by decide, nofun, by decide, by decide⟩
  obtain ⟨ypos, h⟩ := hall twoLines withX
    (.call addX (.visit 1 1 0) hlegal (Option.some_get _).symm) 2 12 10 100 (by decide)
  have hone : (srcbufCountPixels withX 2 100 12 10).map (·.1) = some 1 := by decide
  have hzero : linesBefore withX 2 = 0 := by decide
  rw [h, hzero] at hone
  cases hone

end ups_rules.pixel_counts
