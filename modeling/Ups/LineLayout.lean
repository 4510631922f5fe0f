-- The layout of one display line (convert_line in render.c). The text comes in chunks, each the
-- bytes up to the end of a block; one byte behind the chunk may be looked at.
import Mathlib.Algebra.Ring.Int.Defs
import Mathlib.Algebra.Ring.Nat
import Mathlib.Data.List.Infix
import Mathlib.Tactic.Common

namespace ups_rules.line_layout

/-! ## The pure model -/

abbrev Byte := BitVec 8

structure RenderContext where
  tabspaces : Nat
  stop_at_newline : Bool
  fold_lines : Bool
  lmore_width : Int
  lmore_rmargin : Int
  rmore_width : Int
  rmore_lmargin : Int

/-- The properties at a place of the text, up to `next_pc_point`. -/
structure Propchange where
  char_width_tab : Byte → Int
  next_pc_point : Nat

structure Display where
  /-- `edit_get_next_propchange` -/
  get_next_propchange : Propchange → Nat → Propchange
  display_width : Int
  render_context : RenderContext

structure Lmap where
  point : Nat
  ch_offset : Nat
  column : Nat
deriving DecidableEq

/-- What `edit__convert_line` gives back of a line. -/
structure Layout where
  next : Lmap
  line_continues : Bool
  linebuf : List Byte
deriving DecidableEq

/-- The bytes from `iptr` to `ilim`, by their number, and the byte at `ilim`. -/
structure Chunk where
  left : Nat
  behind : Byte

/-- What `edit_get_bytes` gives at each place of a text of `n` bytes. -/
structure Chunks (n : Nat) where
  size : Nat → Nat
  behind : Nat → Byte
  size_pos : ∀ p < n, 0 < size p
  size_le : ∀ p < n, p + size p ≤ n

/-- All of the text behind a place, with a NUL behind it. -/
def wholeText (n : Nat) : Chunks n where
  size := fun p => n - p
  behind := fun _ => 0#8
  size_pos := fun p hp => Nat.sub_pos_of_lt hp
  size_le := fun p hp => by omega

def newline : Byte := 10#8

def carriageReturn : Byte := 13#8

def blank : Byte := 32#8

def isprint (c : Byte) : Bool := 32 ≤ c.toNat && c.toNat ≤ 126

/-- The part of the line that is converted so far, and where it ends. -/
structure Locals where
  point : Nat
  ch_offset : Nat
  xpos : Int
  linebuf : List Byte
  pc : Propchange

/-- `%03o` -/
def octal (ch : Nat) : List Byte :=
  [BitVec.ofNat 8 (48 + ch / 64), BitVec.ofNat 8 (48 + ch / 8 % 8), BitVec.ofNat 8 (48 + ch % 8)]

/-- The second character of an escape, for the characters that have one. -/
def escape (ch : Nat) : Option Byte :=
  if ch = 10 then some 110#8
  else if ch = 13 then some 114#8
  else if ch = 9 then some 116#8
  else if ch = 8 then some 98#8
  else none

def convertChar (cnum : Nat) (ch : Byte) (tabspaces : Nat) : List Byte :=
  if ch = 9#8 ∧ tabspaces ≠ 0 then List.replicate (tabspaces - cnum % tabspaces) blank
  else if ch.toNat < 32 then
    match escape ch.toNat with
    | some c => [92#8, c]
    | none => [94#8, ch ||| 64#8]
  else if ch = 127#8 then [94#8, 63#8]
  else 92#8 :: octal ch.toNat

/-- The loop over the bytes that stand for a character: those that fit, and `xpos` behind them. -/
def place (char_width_tab : Byte → Int) (xlim : Int) : List Byte → Int → List Byte × Int
  | [], xpos => ([], xpos)
  | c :: cs, xpos =>
    if xpos + char_width_tab c > xlim then ([], xpos)
    else
      let (placed, xpos) := place char_width_tab xlim cs (xpos + char_width_tab c)
      (c :: placed, xpos)

/-- How a turn of the main loop goes on. -/
inductive Turn where
  | next (l : Locals)
  | newline
  /-- A character that does not fit where lines are not folded. -/
  | noFold
  /-- A character of which only the part in `l.ch_offset` fits. -/
  | full (l : Locals)
  /-- The panic. -/
  | botch

section
variable (d : Display) (xlim : Int) (column : Nat)

/-- `++point`, with the properties there. -/
def Locals.advance (l : Locals) : Locals :=
  { l with
    point := l.point + 1
    pc :=
      if l.point + 1 = l.pc.next_pc_point then d.get_next_propchange l.pc (l.point + 1) else l.pc }

/-- The characters that stand for `c`, as far as they fit. -/
def showChar (c : Byte) (l : Locals) : Turn :=
  let cnum := (((column : Int) + l.linebuf.length - l.ch_offset) % 2 ^ 64).toNat
  let charstr := convertChar cnum c d.render_context.tabspaces
  if charstr.length ≤ l.ch_offset then .botch
  else
    let (placed, xpos) := place l.pc.char_width_tab xlim (charstr.drop l.ch_offset) l.xpos
    let l := { l with
      xpos := xpos
      linebuf := l.linebuf ++ placed
      ch_offset := l.ch_offset + placed.length }
    if l.ch_offset = charstr.length then .next (Locals.advance d { l with ch_offset := 0 })
    else .full l

/-- A turn for the byte `c`, with whether a newline is seen behind it. -/
def turn (c : Byte) (newlineAhead : Bool) (l : Locals) : Turn :=
  let rc := d.render_context
  if isprint c then
    if !rc.fold_lines && l.xpos ≥ xlim then .noFold
    else if rc.fold_lines && l.xpos + l.pc.char_width_tab c > xlim then .full l
    else
      .next (Locals.advance d { l with
        xpos := l.xpos + l.pc.char_width_tab c
        linebuf := l.linebuf ++ [c] })
  else if rc.stop_at_newline && (c = newline || (c = carriageReturn && newlineAhead)) then .newline
  else showChar d xlim column c l

inductive Exit where
  | eof | newline | noFold | full | botch
deriving DecidableEq

/-- The state at the end of the main loop; `rest` is the text from `point` on. -/
structure Stopped where
  exit : Exit
  rest : List Byte
  chunk : Chunk
  l : Locals

variable {n : Nat} (ck : Chunks n)

/-- `edit_get_bytes` where `iptr` is at the end of its chunk. -/
def refill (point : Nat) (rest : List Byte) (ch : Chunk) : Chunk :=
  if ch.left ≠ 0 then ch
  else if rest = [] then ⟨0, 0#8⟩
  else ⟨ck.size point, ck.behind point⟩

/-- `iptr[1]`; `rest` is the text behind `iptr`. -/
def ahead (rest : List Byte) (ch : Chunk) : Byte :=
  if 1 < ch.left then rest.headD ch.behind else ch.behind

def Chunk.skip (ch : Chunk) (k : Nat) : Chunk := { ch with left := ch.left - k }

/-- The main loop. -/
def loop : List Byte → Chunk → Locals → Stopped
  | [], ch, l => ⟨.eof, [], refill ck l.point [] ch, l⟩
  | c :: rest, ch, l =>
    let ch := refill ck l.point (c :: rest) ch
    match turn d xlim column c (ahead rest ch = newline) l with
    | .next l => loop rest (ch.skip 1) l
    | .newline => ⟨.newline, c :: rest, ch, l⟩
    | .noFold => ⟨.noFold, c :: rest, ch, l⟩
    | .full l => ⟨.full, c :: rest, ch, l⟩
    | .botch => ⟨.botch, c :: rest, ch, l⟩

/-- The number of bytes that a loop up to a newline or the end of the chunk skips. -/
def skipped : List Byte → Nat → Nat
  | c :: rest, left + 1 => if c = newline then 0 else skipped rest left + 1
  | _, _ => 0

/-- Whether the text at `iptr` is the end of a line. -/
def atNewline (rest : List Byte) (ch : Chunk) : Bool :=
  d.render_context.stop_at_newline &&
    (rest.headD 0#8 = newline ||
      (rest.headD 0#8 = carriageReturn && ahead rest.tail ch = newline))

/-- The end of `convert_line`, from the test of `iptr == ilim` on. -/
def conclude (rest : List Byte) (ch : Chunk) (point : Nat) (l : Locals) : Layout :=
  let ch := refill ck point rest ch
  let line_continues := ch.left ≠ 0 && !atNewline d rest ch
  let n := if line_continues && !d.render_context.fold_lines then skipped rest ch.left else 0
  if line_continues && d.render_context.fold_lines then
    ⟨⟨point, l.ch_offset, column + l.linebuf.length⟩, true, l.linebuf⟩
  else
    ⟨⟨if (ch.skip n).left ≠ 0 then point + n + 1 else point + n, l.ch_offset, 0⟩, false,
      l.linebuf ++ [blank]⟩

/-- What is behind the main loop; nothing after the panic. -/
def finish (s : Stopped) : Option Layout :=
  match s.exit with
  | .botch => none
  | .newline =>
    if s.rest.headD 0#8 = carriageReturn then
      some (conclude d column ck s.rest.tail (s.chunk.skip 1) (s.l.point + 1) s.l)
    else some (conclude d column ck s.rest s.chunk s.l.point s.l)
  | .noFold =>
    let n := skipped s.rest s.chunk.left
    some (conclude d column ck (s.rest.drop n) (s.chunk.skip n) (s.l.point + n) s.l)
  | .eof | .full => some (conclude d column ck s.rest s.chunk s.l.point s.l)
end

/-- `xpos` at the beginning of the line. -/
def startXpos (d : Display) (lm : Lmap) : Int :=
  if lm.column ≠ 0 then d.render_context.lmore_width + d.render_context.lmore_rmargin else 0

def rightLimit (d : Display) (lm : Lmap) : Int :=
  d.display_width - startXpos d lm -
    (d.render_context.rmore_lmargin + d.render_context.rmore_width)

def startLocals (d : Display) (lm : Lmap) (pc : Propchange) : Locals :=
  ⟨lm.point, lm.ch_offset, startXpos d lm, [], pc⟩

/-- `edit__convert_line`, with the properties at the beginning of the line. -/
def convertLine (d : Display) (text : List Byte) (ck : Chunks text.length) (lm : Lmap)
    (pc : Propchange) : Option Layout :=
  finish d lm.column ck
    (loop d (rightLimit d lm) lm.column ck (text.drop lm.point) ⟨0, 0#8⟩ (startLocals d lm pc))

/-! ## The layout from the text alone -/

/-- The bytes up to the next newline, with it. -/
def lineEnd : List Byte → Nat
  | [] => 0
  | c :: rest => if c = newline then 1 else lineEnd rest + 1

/-- A line with nothing to come behind it, where the next line begins at `next`. -/
def ended (next : Nat) (l : Locals) : Layout :=
  ⟨⟨next, l.ch_offset, 0⟩, false, l.linebuf ++ [blank]⟩

section
variable (d : Display) (xlim : Int) (column : Nat)

def folded (l : Locals) : Layout :=
  ⟨⟨l.point, l.ch_offset, column + l.linebuf.length⟩, true, l.linebuf⟩

/-- What the line is, from the text at `l.point` on. -/
def layout : List Byte → Locals → Option Layout
  | [], l => some (ended l.point l)
  | c :: rest, l =>
    match turn d xlim column c (rest.headD 0#8 = newline) l with
    | .next l => layout rest l
    | .newline => some (ended (l.point + if c = carriageReturn then 2 else 1) l)
    | .noFold => some (ended (l.point + lineEnd (c :: rest)) l)
    | .full l =>
      some (if d.render_context.fold_lines then folded column l
        else ended (l.point + lineEnd (c :: rest)) l)
    | .botch => none

/-- The first `size` bytes have a newline, or they are all of the text. -/
def Reach (rest : List Byte) (size : Nat) : Prop :=
  newline ∈ rest.take size ∨ rest.length ≤ size

variable {n : Nat} (ck : Chunks n)

/-- The byte behind the one at `iptr` looks like a newline when it is one. -/
def Agrees (c : Byte) (rest : List Byte) (ch : Chunk) : Prop :=
  d.render_context.stop_at_newline = true → c = carriageReturn →
    (ahead rest ch = newline ↔ rest.headD 0#8 = newline)

/-- Where the loop over the rest of a line that is not folded came to the end of its chunk, the
loop at the end of `convert_line` comes to the end of the line in the next one. -/
def SecondEnds (rest : List Byte) (point : Nat) : Prop :=
  rest = [] ∨
    if atNewline d rest ⟨ck.size point, ck.behind point⟩ ∧ rest.headD 0#8 = carriageReturn then
      rest.length = 1
    else Reach rest (ck.size point)

/-- None of the characters for `c` fits. -/
def NothingFits (c : Byte) (l : Locals) : Prop :=
  ∃ l', turn d xlim column c false l = .full l' ∧ l'.linebuf = l.linebuf

/-- Along the loop, no decision on the line rests on where a chunk ends. -/
def Sound : List Byte → Chunk → Locals → Prop
  | [], _, _ => True
  | c :: rest, ch, l =>
    let ch := refill ck l.point (c :: rest) ch
    (Agrees d c rest ch ∧
      match turn d xlim column c (ahead rest ch = newline) l with
      | .next l => Sound rest (ch.skip 1) l
      | .noFold =>
        newline ∈ (c :: rest).take ch.left ∨
          SecondEnds d ck ((c :: rest).drop ch.left) (l.point + ch.left)
      | .full _ => d.render_context.fold_lines = true ∨ Reach (c :: rest) ch.left
      | .newline | .botch => True) ∨
    (¬ Agrees d c rest ch ∧ rest.headD 0#8 ≠ newline ∧ d.render_context.fold_lines = false ∧
      NothingFits d xlim column c l ∧ SecondEnds d ck rest (l.point + 1))
end

/-! ## The end of the line -/

/-- Where a loop up to a newline or the end of the chunk leaves the next line to begin. -/
def lineEndIn (rest : List Byte) (left : Nat) : Nat :=
  if left - skipped rest left ≠ 0 then skipped rest left + 1 else skipped rest left

theorem skipped_nil (left : Nat) : skipped [] left = 0 := by
  simp [skipped]

theorem skipped_zero (rest : List Byte) : skipped rest 0 = 0 := by
  cases rest <;> simp [skipped]

theorem lineEnd_pos (c : Byte) (rest : List Byte) : 0 < lineEnd (c :: rest) := by
  rw [lineEnd]
  split <;> omega

theorem lineEndIn_eq_iff (rest : List Byte) (left : Nat) (h : left ≤ rest.length) :
    lineEndIn rest left = lineEnd rest ↔ Reach rest left := by
  induction rest generalizing left with
  | nil => simp [lineEndIn, skipped_nil, lineEnd, Reach] at h ⊢; omega
  | cons c rest ih =>
    cases left with
    | zero =>
      have := lineEnd_pos c rest
      simp [lineEndIn, skipped_zero, Reach]
      omega
    | succ left =>
      simp only [List.length_cons, Nat.add_le_add_iff_right] at h
      have ih := ih left h
      by_cases hc : c = newline
      · simp [lineEndIn, skipped, lineEnd, Reach, hc]
      · have hc' : newline ≠ c := fun e => hc e.symm
        simp only [Reach, List.take_succ_cons, List.mem_cons, hc', false_or, List.length_cons,
          Nat.add_le_add_iff_right] at ih ⊢
        rw [← ih]
        simp only [lineEndIn, skipped, hc, if_false, lineEnd, Nat.add_sub_add_right]
        split <;> omega

theorem skipped_of_notMem (rest : List Byte) (left : Nat) (h : left ≤ rest.length)
    (hn : newline ∉ rest.take left) : skipped rest left = left := by
  induction rest generalizing left with
  | nil => simp at h; simp [h, skipped_nil]
  | cons c rest ih =>
    cases left with
    | zero => simp [skipped_zero]
    | succ left =>
      simp at h hn
      have hc : c ≠ newline := fun e => hn.1 e.symm
      simp [skipped, hc, ih left h hn.2]

/-- A newline in the chunk is where the loop stops. -/
theorem skipped_of_mem (rest : List Byte) (left : Nat) (hn : newline ∈ rest.take left) :
    skipped rest left < left ∧ (rest.drop (skipped rest left)).headD 0#8 = newline ∧
      lineEnd rest = skipped rest left + 1 := by
  induction rest generalizing left with
  | nil => simp at hn
  | cons c rest ih =>
    cases left with
    | zero => simp at hn
    | succ left =>
      by_cases hc : c = newline
      · simp [skipped, hc, lineEnd]
      · have hn' : newline ∈ rest.take left := by
          rcases List.mem_cons.mp (by simpa using hn) with h | h
          · exact absurd h.symm hc
          · exact h
        have := ih left hn'
        simp [skipped, hc, lineEnd]
        exact ⟨this.1, by simpa using this.2.1, this.2.2⟩

theorem lineEnd_of_notMem (rest : List Byte) (left : Nat) (h : left ≤ rest.length)
    (hn : newline ∉ rest.take left) : lineEnd rest = left + lineEnd (rest.drop left) := by
  induction rest generalizing left with
  | nil => simp at h; simp [h]
  | cons c rest ih =>
    cases left with
    | zero => simp
    | succ left =>
      simp at h hn
      have hc : c ≠ newline := fun e => hn.1 e.symm
      simp [lineEnd, hc, ih left h hn.2]
      omega

theorem refill_of_left (n : Nat) (ck : Chunks n) (point : Nat) (rest : List Byte) (ch : Chunk)
    (h : ch.left ≠ 0) : refill ck point rest ch = ch := by
  simp [refill, h]

section
variable (d : Display) (xlim : Int) (column : Nat) {n : Nat} (ck : Chunks n)

/-- After a refill there is a byte in the chunk, and the chunk is within the text. -/
theorem refill_left (point : Nat) (c : Byte) (rest : List Byte) (ch : Chunk)
    (hch : ch.left ≤ rest.length + 1) (hp : point + (rest.length + 1) = n) :
    0 < (refill ck point (c :: rest) ch).left ∧
      (refill ck point (c :: rest) ch).left ≤ rest.length + 1 := by
  have h1 := ck.size_pos point (by omega)
  have h2 := ck.size_le point (by omega)
  rw [refill]
  split
  · omega
  · simp; omega

theorem conclude_nil (point : Nat) (l : Locals) (ch : Chunk) (hch : ch.left = 0) :
    conclude d column ck [] ch point l = ended point l := by
  simp [conclude, refill, hch, Chunk.skip, ended]

/-- The end of a line that is not folded, where there is text in the chunk. -/
theorem conclude_unfolded (hf : d.render_context.fold_lines = false) (rest : List Byte)
    (ch : Chunk) (point : Nat) (l : Locals) (hch : ch.left ≠ 0) :
    conclude d column ck rest ch point l =
      ended (point + if atNewline d rest ch then 1 else lineEndIn rest ch.left) l := by
  rw [conclude, refill_of_left n ck point rest ch hch]
  cases ha : atNewline d rest ch with
  | true => simp [hch, ended, Chunk.skip]
  | false =>
    simp [hf, hch, ended, Chunk.skip, lineEndIn]
    split <;> omega

/-- The end of a line that is folded, where a character was cut. -/
theorem conclude_folded (hf : d.render_context.fold_lines = true) (rest : List Byte)
    (ch : Chunk) (point : Nat) (l : Locals) (hch : ch.left ≠ 0) (ha : atNewline d rest ch = false) :
    conclude d column ck rest ch point l =
      ⟨⟨point, l.ch_offset, column + l.linebuf.length⟩, true, l.linebuf⟩ := by
  rw [conclude, refill_of_left n ck point rest ch hch]
  simp [hf, ha, hch]

theorem conclude_atNewline (rest : List Byte) (ch : Chunk) (point : Nat) (l : Locals)
    (hch : (refill ck point rest ch).left ≠ 0)
    (ha : atNewline d rest (refill ck point rest ch) = true) :
    conclude d column ck rest ch point l = ended (point + 1) l := by
  simp [conclude, ha, hch, Chunk.skip, ended]

/-- The second chunk of a line that is not folded: the line ends where the next newline is just
when it is found there. -/
theorem conclude_second (hf : d.render_context.fold_lines = false) (rest : List Byte)
    (ch : Chunk) (point : Nat) (l : Locals) (hch : ch.left = 0) (hp : point + rest.length = n) :
    conclude d column ck rest ch point l = ended (point + lineEnd rest) l ↔
      SecondEnds d ck rest point := by
  cases rest with
  | nil => simp [conclude_nil d column ck point l ch hch, lineEnd, SecondEnds]
  | cons c rest =>
    have h1 := ck.size_pos point (by simp at hp; omega)
    have h2 := ck.size_le point (by simp at hp; omega)
    have hsize : ck.size point ≤ (c :: rest).length := by omega
    have hr : refill ck point (c :: rest) ch = ⟨ck.size point, ck.behind point⟩ := by
      simp [refill, hch]
    have hconclude : conclude d column ck (c :: rest) ch point l =
        conclude d column ck (c :: rest) ⟨ck.size point, ck.behind point⟩ point l := by
      rw [conclude, conclude, hr, refill_of_left _ _ _ _ _ (by simpa using h1.ne')]
    rw [hconclude, conclude_unfolded d column ck hf _ _ _ _ (by simpa using h1.ne')]
    simp only [ended, Layout.mk.injEq, Lmap.mk.injEq, and_true, Nat.add_right_inj, SecondEnds,
      List.cons_ne_nil, false_or, List.headD_cons, List.length_cons, Nat.add_eq_right]
    by_cases ha : atNewline d (c :: rest) ⟨ck.size point, ck.behind point⟩ = true
    · by_cases hc : c = carriageReturn
      · rw [if_pos ha, if_pos ⟨ha, hc⟩, lineEnd, if_neg (by simp [hc, newline, carriageReturn])]
        cases rest with
        | nil => simp [lineEnd]
        | cons c' rest =>
          have := lineEnd_pos c' rest
          simp
          omega
      · have hn : c = newline := by
          simp [atNewline, hc] at ha
          exact ha.2
        have hreach : Reach (c :: rest) (ck.size point) := by
          left
          rw [hn]
          cases hk : ck.size point with
          | zero => omega
          | succ k => simp
        rw [if_pos ha, if_neg (fun h => hc h.2), lineEnd, if_pos hn]
        simp [hreach]
    · rw [if_neg ha, if_neg (fun h => ha h.1)]
      exact lineEndIn_eq_iff _ _ hsize
end

/-! ## The turns -/

theorem place_placed (char_width_tab : Byte → Int) (xlim : Int) (cs : List Byte) (xpos : Int) :
    (place char_width_tab xlim cs xpos).1 <+: cs := by
  induction cs generalizing xpos with
  | nil => simp [place]
  | cons c cs ih =>
    simp only [place]
    split
    · simp
    · simpa using ih _

section
variable (d : Display) (xlim : Int) (column : Nat)

/-- What is placed of a turn stands behind what was there; a character that is cut keeps the
place. -/
def Turn.Grows (l : Locals) : Turn → Prop
  | .next l' => l'.point = l.point + 1 ∧ l.linebuf <+: l'.linebuf
  | .full l' => l'.point = l.point ∧ l.linebuf <+: l'.linebuf
  | _ => True

theorem showChar_grows (c : Byte) (l : Locals) :
    Turn.Grows l (showChar d xlim column c l) := by
  simp only [showChar]
  split
  · trivial
  · split <;> simp [Turn.Grows, Locals.advance]

theorem turn_grows (c : Byte) (b : Bool) (l : Locals) :
    Turn.Grows l (turn d xlim column c b l) := by
  simp only [turn]
  split
  · split
    · trivial
    · split <;> simp [Turn.Grows, Locals.advance]
  · split
    · trivial
    · apply showChar_grows

/-- What is seen behind a byte matters only for a carriage return. -/
theorem turn_congr (c : Byte) (b b' : Bool) (l : Locals)
    (h : d.render_context.stop_at_newline = true → c = carriageReturn → b = b') :
    turn d xlim column c b l = turn d xlim column c b' l := by
  by_cases hs : d.render_context.stop_at_newline = true
  · by_cases hc : c = carriageReturn
    · rw [h hs hc]
    · simp [turn, hc]
  · simp [turn, hs]

/-- A line end is seen by the loop and by what is behind it alike. -/
theorem atNewline_of_turn (c : Byte) (rest : List Byte) (ch : Chunk) (l : Locals)
    (h : turn d xlim column c (ahead rest ch = newline) l ≠ .newline) :
    atNewline d (c :: rest) ch = false := by
  by_cases hp : isprint c = true
  · have h1 : c ≠ newline := fun e => by simp [e, isprint, newline] at hp
    have h2 : c ≠ carriageReturn := fun e => by simp [e, isprint, carriageReturn] at hp
    simp [atNewline, h1, h2]
  · by_contra hn
    apply h
    rw [turn, if_neg hp, if_pos]
    exact Bool.not_eq_false _ ▸ hn

theorem turn_newline (c : Byte) (b : Bool) (l : Locals)
    (h : turn d xlim column c b l = .newline) :
    d.render_context.stop_at_newline = true ∧
      (c = newline ∨ (c = carriageReturn ∧ b = true)) := by
  simp only [turn] at h
  split at h
  · split at h
    · simp at h
    · split at h <;> simp at h
  · split at h
    · rename_i hs
      simpa using hs
    · simp only [showChar] at h
      split at h
      · simp at h
      · split at h <;> simp at h

/-- Behind `buf` there is a byte that is no blank. -/
def Marked (buf : List Byte) (buf' : List Byte) : Prop :=
  ∃ b t, b ≠ blank ∧ buf' = buf ++ b :: t

theorem Marked.mono {buf buf' buf'' : List Byte} (h : Marked buf buf') (hp : buf' <+: buf'') :
    Marked buf buf'' := by
  obtain ⟨b, t, hb, rfl⟩ := h
  obtain ⟨t', rfl⟩ := hp
  exact ⟨b, t ++ t', hb, by simp⟩

theorem Marked.ne {buf buf' : List Byte} (h : Marked buf buf') :
    buf' ≠ buf ∧ buf' ≠ buf ++ [blank] := by
  obtain ⟨b, t, hb, rfl⟩ := h
  refine ⟨by simp, ?_⟩
  simp only [ne_eq, List.append_cancel_left_eq, List.cons.injEq, not_and]
  exact fun h => absurd h hb

theorem convertChar_carriageReturn (cnum tabspaces : Nat) :
    convertChar cnum carriageReturn tabspaces = [92#8, 114#8] := by
  simp [convertChar, carriageReturn, escape]

theorem turn_carriageReturn (l : Locals) :
    turn d xlim column carriageReturn false l = showChar d xlim column carriageReturn l := by
  simp [turn, isprint, carriageReturn, newline]

/-- What is placed behind `l.linebuf` begins with no blank. -/
def Turn.Marks (l : Locals) : Turn → Prop
  | .next l' => Marked l.linebuf l'.linebuf
  | .full l' =>
    (l'.linebuf = l.linebuf ∧ l'.ch_offset = l.ch_offset) ∨ Marked l.linebuf l'.linebuf
  | .botch => True
  | _ => False

theorem place_marked (char_width_tab : Byte → Int) (xpos : Int) (buf cs : List Byte)
    (h : ∀ b ∈ cs, b ≠ blank) :
    (place char_width_tab xlim cs xpos).1 = [] ∨
      Marked buf (buf ++ (place char_width_tab xlim cs xpos).1) := by
  have hplaced := (place_placed char_width_tab xlim cs xpos).subset
  cases hp : (place char_width_tab xlim cs xpos).1 with
  | nil => simp
  | cons b t =>
    right
    exact ⟨b, t, h b (hplaced (by simp [hp])), rfl⟩

theorem showChar_marks (l : Locals) :
    Turn.Marks l (showChar d xlim column carriageReturn l) := by
  have hchars : ∀ b ∈ [92#8, 114#8].drop l.ch_offset, b ≠ blank := by
    intro b hb
    have := List.mem_of_mem_drop hb
    simp only [List.mem_cons, List.not_mem_nil, or_false] at this
    rcases this with rfl | rfl <;> decide
  have hplaced := place_marked xlim l.pc.char_width_tab l.xpos l.linebuf _ hchars
  simp only [showChar, convertChar_carriageReturn]
  split
  · trivial
  · split
    · rename_i hoffset hall
      simp only [Turn.Marks, Locals.advance]
      rcases hplaced with h | h
      · rw [h] at hall
        simp at hall hoffset
        omega
      · exact h
    · simp only [Turn.Marks]
      rcases hplaced with h | h
      · simp [h]
      · exact Or.inr h
end

/-! ## A line in chunks -/

section
variable (d : Display) (xlim : Int) (column : Nat) {n : Nat} (ck : Chunks n)

theorem turn_noFold (c : Byte) (b : Bool) (l : Locals)
    (h : turn d xlim column c b l = .noFold) : d.render_context.fold_lines = false := by
  simp only [turn] at h
  split at h
  · split at h
    · rename_i hf
      simp at hf
      exact hf.1
    · split at h <;> simp at h
  · split at h
    · simp at h
    · simp only [showChar] at h
      split at h
      · simp at h
      · split at h <;> simp at h

theorem layout_grows (text : List Byte) (l : Locals) (r : Layout)
    (h : layout d xlim column text l = some r) : l.linebuf <+: r.linebuf := by
  induction text generalizing l with
  | nil =>
    simp only [layout, Option.some.injEq] at h
    simp [← h, ended]
  | cons c rest ih =>
    have hgrows := turn_grows d xlim column c (rest.headD 0#8 = newline) l
    simp only [layout] at h
    cases ht : turn d xlim column c (rest.headD 0#8 = newline) l with
    | next l' =>
      simp only [ht, Turn.Grows] at h hgrows
      exact hgrows.2.trans (ih l' h)
    | newline | noFold =>
      simp only [ht, Option.some.injEq] at h
      simp [← h, ended]
    | full l' =>
      simp only [ht, Turn.Grows, Option.some.injEq] at h hgrows
      apply hgrows.2.trans
      rw [← h]
      split <;> simp [ended, folded]
    | botch => simp only [ht, reduceCtorEq] at h

theorem conclude_linebuf (rest : List Byte) (ch : Chunk) (point : Nat) (l : Locals) :
    (conclude d column ck rest ch point l).linebuf = l.linebuf ∨
      (conclude d column ck rest ch point l).linebuf = l.linebuf ++ [blank] := by
  simp only [conclude]
  split <;> simp

theorem conclude_point (rest : List Byte) (ch : Chunk) (point : Nat) (l : Locals) :
    point ≤ (conclude d column ck rest ch point l).next.point := by
  simp only [conclude]
  split
  · simp
  · dsimp only
    split_ifs <;> omega

/-- At a line end that is seen as such, the next line begins behind it. -/
theorem finish_newline (c : Byte) (rest : List Byte) (ch : Chunk) (l : Locals)
    (hs : d.render_context.stop_at_newline = true) (hch : ch.left ≠ 0)
    (hp : l.point + (rest.length + 1) = n)
    (hc : c = newline ∨ (c = carriageReturn ∧ rest.headD 0#8 = newline)) :
    finish d column ck ⟨.newline, c :: rest, ch, l⟩ =
      some (ended (l.point + if c = carriageReturn then 2 else 1) l) := by
  rcases hc with rfl | ⟨rfl, hnl⟩
  · have hne : newline ≠ carriageReturn := by decide
    simp only [finish, List.headD_cons, hne, if_false, Option.some.injEq]
    apply conclude_atNewline
    · rwa [refill_of_left _ _ _ _ _ hch]
    · simp [atNewline, hs]
  · simp only [finish, List.headD_cons, if_true, List.tail_cons, Option.some.injEq]
    cases rest with
    | nil => simp [newline] at hnl
    | cons c' rest =>
      simp only [List.headD_cons] at hnl
      have h1 := ck.size_pos (l.point + 1) (by simp at hp; omega)
      rw [conclude_atNewline]
      · rw [refill]
        split
        · assumption
        · simp; omega
      · simp [atNewline, hs, hnl]

/-- The rest of a line that is not folded, from a character on that does not fit. -/
theorem finish_noFold (hf : d.render_context.fold_lines = false) (rest : List Byte) (ch : Chunk)
    (l : Locals) (hch : ch.left ≤ rest.length) (hp : l.point + rest.length = n) :
    finish d column ck ⟨.noFold, rest, ch, l⟩ = some (ended (l.point + lineEnd rest) l) ↔
      newline ∈ rest.take ch.left ∨
        SecondEnds d ck (rest.drop ch.left) (l.point + ch.left) := by
  simp only [finish, Option.some.injEq]
  by_cases hn : newline ∈ rest.take ch.left
  · obtain ⟨hlt, hhead, hend⟩ := skipped_of_mem rest ch.left hn
    have hleft : (ch.skip (skipped rest ch.left)).left ≠ 0 := by
      simp only [Chunk.skip]
      omega
    have hone : lineEndIn (rest.drop (skipped rest ch.left))
        (ch.skip (skipped rest ch.left)).left = 1 := by
      cases hr : rest.drop (skipped rest ch.left) with
      | nil => simp [hr, newline] at hhead
      | cons c rest' =>
        simp only [hr, List.headD_cons] at hhead
        obtain ⟨k, hk⟩ := Nat.exists_eq_succ_of_ne_zero hleft
        simp [hk, lineEndIn, skipped, hhead]
    rw [conclude_unfolded d column ck hf _ _ _ _ hleft, hone, hend]
    simp [hn, Nat.add_assoc]
  · have hskip := skipped_of_notMem rest ch.left hch hn
    have hsecond := conclude_second d column ck hf (rest.drop ch.left) (ch.skip ch.left)
      (l.point + ch.left) l (by simp [Chunk.skip]) (by simp; omega)
    rw [hskip, lineEnd_of_notMem rest ch.left hch hn, ← Nat.add_assoc, hsecond]
    simp [hn]

/-- A character of which only a part fits. -/
theorem finish_full (rest : List Byte) (ch : Chunk) (l : Locals) (hch : ch.left ≤ rest.length)
    (hleft : ch.left ≠ 0) (ha : atNewline d rest ch = false) :
    finish d column ck ⟨.full, rest, ch, l⟩ =
        some (if d.render_context.fold_lines then folded column l
          else ended (l.point + lineEnd rest) l) ↔
      d.render_context.fold_lines = true ∨ Reach rest ch.left := by
  simp only [finish, Option.some.injEq]
  cases hf : d.render_context.fold_lines with
  | true => simp [conclude_folded d column ck hf _ _ _ _ hleft ha, folded]
  | false =>
    rw [conclude_unfolded d column ck hf _ _ _ _ hleft, ← lineEndIn_eq_iff _ _ hch]
    simp [ha, ended]
end

section
variable (d : Display) (xlim : Int) (column : Nat) {n : Nat} (ck : Chunks n)

/-- A line end at the end of a chunk that is not seen is shown, and then it changes the line. -/
theorem finish_unseen (rest : List Byte) (ch : Chunk) (l : Locals)
    (hs : d.render_context.stop_at_newline = true) (hch : ch.left = 1)
    (hp : l.point + (rest.length + 1) = n) (hnl : rest.headD 0#8 = newline)
    (ha : ahead rest ch ≠ newline) :
    finish d column ck (match showChar d xlim column carriageReturn l with
      | .next l => loop d xlim column ck rest (ch.skip 1) l
      | .newline => ⟨.newline, carriageReturn :: rest, ch, l⟩
      | .noFold => ⟨.noFold, carriageReturn :: rest, ch, l⟩
      | .full l => ⟨.full, carriageReturn :: rest, ch, l⟩
      | .botch => ⟨.botch, carriageReturn :: rest, ch, l⟩) ≠
    some (ended (l.point + 2) l) := by
  have hgrows := showChar_grows d xlim column carriageReturn l
  have hmarks := showChar_marks d xlim column l
  cases ht : showChar d xlim column carriageReturn l with
  | next l' =>
    simp only [ht, Turn.Grows, Turn.Marks] at hgrows hmarks ⊢
    cases rest with
    | nil => simp [newline] at hnl
    | cons c' rest =>
      simp only [List.headD_cons] at hnl
      have hturn : turn d xlim column c' (ahead rest (refill ck l'.point (c' :: rest) (ch.skip 1))
          = newline) l' = .newline := by
        simp [turn, hnl, hs, isprint, newline]
      have hleft := refill_left ck l'.point c' rest (ch.skip 1) (by simp [Chunk.skip, hch])
        (by simp at hp; omega)
      rw [loop]
      simp only [hturn]
      rw [finish_newline d column ck c' rest _ l' hs hleft.1.ne' (by simp at hp; omega)
        (Or.inl hnl)]
      simp only [ended, ne_eq, Option.some.injEq, Layout.mk.injEq, not_and]
      intro _ _ hbuf
      exact hmarks.ne.1 (List.append_cancel_right hbuf)
  | full l' =>
    simp only [ht, Turn.Grows, Turn.Marks] at hgrows hmarks ⊢
    have hat : atNewline d (carriageReturn :: rest) ch = false := by
      have hne : carriageReturn ≠ newline := by decide
      simp [atNewline, ha, hne]
    simp only [finish, ne_eq, Option.some.injEq]
    cases hf : d.render_context.fold_lines with
    | true =>
      rw [conclude_folded d column ck hf _ _ _ _ (by simp [hch]) hat]
      simp [ended]
    | false =>
      rw [conclude_unfolded d column ck hf _ _ _ _ (by simp [hch])]
      simp [hch, ended, lineEndIn, skipped, carriageReturn, newline, skipped_zero, hgrows.1]
  | newline | noFold => simp [ht, Turn.Marks] at hmarks
  | botch => simp [finish]

/-- A carriage return at the end of a chunk that is taken for a line end. -/
theorem finish_mistaken (rest : List Byte) (ch : Chunk) (l : Locals) (hch : ch.left = 1)
    (hp : l.point + (rest.length + 1) = n) :
    finish d column ck ⟨.newline, carriageReturn :: rest, ch, l⟩ =
        (match showChar d xlim column carriageReturn l with
        | .next l => layout d xlim column rest l
        | .newline => some (ended (l.point + 2) l)
        | .noFold => some (ended (l.point + lineEnd (carriageReturn :: rest)) l)
        | .full l =>
          some (if d.render_context.fold_lines then folded column l
            else ended (l.point + lineEnd (carriageReturn :: rest)) l)
        | .botch => none) ↔
      d.render_context.fold_lines = false ∧ NothingFits d xlim column carriageReturn l ∧
        SecondEnds d ck rest (l.point + 1) := by
  have hgrows := showChar_grows d xlim column carriageReturn l
  have hmarks := showChar_marks d xlim column l
  have hskip : (ch.skip 1).left = 0 := by simp [Chunk.skip, hch]
  have hbuf := conclude_linebuf d column ck rest (ch.skip 1) (l.point + 1) l
  have hlineEnd : lineEnd (carriageReturn :: rest) = lineEnd rest + 1 := by
    simp [lineEnd, carriageReturn, newline]
  simp only [finish, List.headD_cons, if_true, List.tail_cons, NothingFits,
    turn_carriageReturn]
  -- What is marked is not in the line that ends at the carriage return.
  have hdiffer : ∀ r : Layout, Marked l.linebuf r.linebuf →
      conclude d column ck rest (ch.skip 1) (l.point + 1) l ≠ r := by
    intro r hr he
    rw [he] at hbuf
    rcases hbuf with h | h
    · exact hr.ne.1 h
    · exact hr.ne.2 h
  cases ht : showChar d xlim column carriageReturn l with
  | next l' =>
    simp only [ht, Turn.Marks] at hmarks
    simp only [reduceCtorEq, false_and, exists_false, and_false, iff_false]
    intro he
    exact hdiffer _ (hmarks.mono (layout_grows d xlim column rest l' _ he.symm)) rfl
  | full l' =>
    simp only [ht, Turn.Grows, Turn.Marks] at hgrows hmarks
    simp only [Option.some.injEq, Turn.full.injEq, exists_eq_left']
    cases hf : d.render_context.fold_lines with
    | true =>
      simp only [if_true, Bool.true_eq_false, false_and, iff_false]
      rcases hmarks with h | h
      · intro he
        have hle := conclude_point d column ck rest (ch.skip 1) (l.point + 1) l
        rw [he] at hle
        simp only [folded, hgrows.1] at hle
        omega
      · exact hdiffer _ (by simpa [folded] using h)
    | false =>
      simp only [Bool.false_eq_true, if_false, true_and]
      rcases hmarks with h | h
      · have hsame : ended (l'.point + lineEnd (carriageReturn :: rest)) l' =
            ended (l.point + 1 + lineEnd rest) l := by
          simp [ended, h, hgrows.1, hlineEnd]
          omega
        rw [hsame, conclude_second d column ck hf rest _ _ l hskip (by omega)]
        simp [h]
      · have hne : l'.linebuf ≠ l.linebuf := h.ne.1
        simp only [hne, false_and, iff_false]
        exact hdiffer _ (h.mono (by simp [ended]))
  | newline | noFold => simp [ht, Turn.Marks] at hmarks
  | botch => simp
end

section
variable (d : Display) (xlim : Int) (column : Nat) {n : Nat} (ck : Chunks n)

theorem agrees_turn (c : Byte) (rest : List Byte) (ch : Chunk) (l : Locals)
    (h : Agrees d c rest ch) :
    turn d xlim column c (ahead rest ch = newline) l =
      turn d xlim column c (rest.headD 0#8 = newline) l := by
  apply turn_congr
  intro hs hc
  simp only [h hs hc]

/-- Where a byte behind the chunk is taken for one of the text, the chunk ends. -/
theorem left_of_not_agrees (c : Byte) (rest : List Byte) (ch : Chunk)
    (h : ¬ Agrees d c rest ch) (hch : 0 < ch.left) (hle : ch.left ≤ rest.length + 1) :
    d.render_context.stop_at_newline = true ∧ c = carriageReturn ∧ ch.left = 1 ∧
      ¬ (ahead rest ch = newline ↔ rest.headD 0#8 = newline) := by
  simp only [Agrees, Classical.not_imp] at h
  obtain ⟨hs, hc, hne⟩ := h
  refine ⟨hs, hc, ?_, hne⟩
  by_contra hone
  apply hne
  cases rest with
  | nil => simp at hle; omega
  | cons c' rest =>
    have : 1 < ch.left := by omega
    simp [ahead, this]

/-- Along the loop the line in chunks is the line in the text just when no decision on it rests on
where a chunk ends. -/
theorem finish_loop_iff (text : List Byte) (ch : Chunk) (l : Locals)
    (hch : ch.left ≤ text.length) (hp : l.point + text.length = n) :
    finish d column ck (loop d xlim column ck text ch l) = layout d xlim column text l ↔
      Sound d xlim column ck text ch l := by
  induction text generalizing ch l with
  | nil =>
    have hzero : (refill ck l.point [] ch).left = 0 := by
      simp at hch
      simp [refill, hch]
    simp [loop, finish, layout, Sound, conclude_nil d column ck l.point l _ hzero]
  | cons c rest ih =>
    simp only [List.length_cons] at hch hp
    obtain ⟨hpos, hle⟩ := refill_left ck l.point c rest ch hch hp
    generalize hr : refill ck l.point (c :: rest) ch = ch' at hpos hle
    by_cases hag : Agrees d c rest ch'
    · -- The turn is that of the text.
      have hturn := agrees_turn d xlim column c rest ch' l hag
      have hgrows := turn_grows d xlim column c (rest.headD 0#8 = newline) l
      simp only [loop, layout, Sound, hr, hag, true_and, not_true, false_and, or_false, hturn]
      cases ht : turn d xlim column c (rest.headD 0#8 = newline) l with
      | next l' =>
        simp only [ht, Turn.Grows] at hgrows ⊢
        exact ih (ch'.skip 1) l' (by simp [Chunk.skip]; omega) (by omega)
      | newline =>
        obtain ⟨hs, hc⟩ := turn_newline d xlim column c _ l ht
        simp only [decide_eq_true_eq] at hc
        simp [finish_newline d column ck c rest ch' l hs hpos.ne' hp hc]
      | noFold =>
        have hf := turn_noFold d xlim column c _ l ht
        exact finish_noFold d column ck hf (c :: rest) ch' l hle (by simpa using hp)
      | full l' =>
        simp only [ht, Turn.Grows] at hgrows ⊢
        have hat := atNewline_of_turn d xlim column c rest ch' l (by rw [hturn, ht]; simp)
        exact finish_full d column ck (c :: rest) ch' l' hle hpos.ne' hat
      | botch => simp [finish]
    · obtain ⟨hs, rfl, hone, hne⟩ := left_of_not_agrees d c rest ch' hag hpos hle
      simp only [loop, layout, Sound, hr, hag, false_and, false_or, not_false_eq_true, true_and]
      by_cases hnl : rest.headD 0#8 = newline
      · have ha : ahead rest ch' ≠ newline := fun h => hne ⟨fun _ => hnl, fun _ => h⟩
        have hturn : turn d xlim column carriageReturn true l = .newline := by
          simp [turn, hs, isprint, carriageReturn]
        simp only [ha, hnl, decide_true, decide_false, hturn, turn_carriageReturn, if_true,
          ne_eq, not_true, false_and, iff_false]
        exact finish_unseen d xlim column ck rest ch' l hs hone hp hnl ha
      · have ha : ahead rest ch' = newline := by
          by_contra h
          exact hne ⟨fun h' => absurd h' h, fun h' => absurd h' hnl⟩
        have hturn : turn d xlim column carriageReturn true l = .newline := by
          simp [turn, hs, isprint, carriageReturn]
        simp only [ha, hnl, decide_true, decide_false, hturn, turn_carriageReturn, if_true,
          ne_eq, not_false_eq_true, true_and]
        exact finish_mistaken d xlim column ck rest ch' l hone hp
end

/-! ## Lines of all of the text -/

section
variable (d : Display) (xlim : Int) (column : Nat)

theorem sound_wholeText (n : Nat) (text : List Byte) (ch : Chunk) (l : Locals)
    (hch : ch.left = 0 ∨ ch = ⟨text.length, 0#8⟩) (hp : l.point + text.length = n) :
    Sound d xlim column (wholeText n) text ch l := by
  induction text generalizing ch l with
  | nil => simp [Sound]
  | cons c rest ih =>
    have hr : refill (wholeText n) l.point (c :: rest) ch = ⟨rest.length + 1, 0#8⟩ := by
      rcases hch with h | rfl
      · simp only [List.length_cons] at hp
        simp [refill, h, wholeText]
        omega
      · simp [refill]
    have hahead : ahead rest ⟨rest.length + 1, 0#8⟩ = rest.headD 0#8 := by
      cases rest <;> simp [ahead]
    have hag : Agrees d c rest ⟨rest.length + 1, 0#8⟩ := by simp [Agrees, hahead]
    have hgrows := turn_grows d xlim column c (rest.headD 0#8 = newline) l
    have hend : ∀ point, SecondEnds d (wholeText n) ((c :: rest).drop (rest.length + 1)) point := by
      simp [SecondEnds]
    rw [Sound]
    simp only [hr, hahead, hag, true_and]
    apply Or.inl
    cases ht : turn d xlim column c (rest.headD 0#8 = newline) l with
    | next l' =>
      simp only [ht, Turn.Grows, List.length_cons] at hgrows hp ⊢
      exact ih _ l' (Or.inr (by simp [Chunk.skip])) (by omega)
    | noFold => exact Or.inr (hend _)
    | full l' => simp [Reach]
    | newline | botch => trivial
end

/-- No decision on the line at `lm` rests on where a chunk ends. -/
def LineSound (d : Display) (text : List Byte) (ck : Chunks text.length) (lm : Lmap)
    (pc : Propchange) : Prop :=
  Sound d (rightLimit d lm) lm.column ck (text.drop lm.point) ⟨0, 0#8⟩ (startLocals d lm pc)

/-- The line is that of the text just where no decision on it rests on the chunks. -/
theorem convertLine_eq_layout_iff (d : Display) (text : List Byte) (ck : Chunks text.length)
    (lm : Lmap) (pc : Propchange) :
    convertLine d text ck lm pc =
        layout d (rightLimit d lm) lm.column (text.drop lm.point) (startLocals d lm pc) ↔
      LineSound d text ck lm pc := by
  rw [convertLine, LineSound]
  by_cases h : lm.point ≤ text.length
  · apply finish_loop_iff
    · simp
    · simp [startLocals, h]
  · rw [List.drop_eq_nil_of_le (by omega)]
    simp [loop, finish, layout, Sound, refill, conclude_nil]

theorem convertLine_wholeText (d : Display) (text : List Byte) (lm : Lmap) (pc : Propchange) :
    convertLine d text (wholeText text.length) lm pc =
      layout d (rightLimit d lm) lm.column (text.drop lm.point) (startLocals d lm pc) := by
  rw [convertLine_eq_layout_iff, LineSound]
  by_cases h : lm.point ≤ text.length
  · apply sound_wholeText
    · simp
    · simp [startLocals, h]
  · rw [List.drop_eq_nil_of_le (by omega)]
    simp [Sound]

/-- A line is the one of the whole text in one chunk just where no decision on it rests on where
a chunk ends. -/
theorem convertLine_eq_wholeText_iff (d : Display) (text : List Byte) (ck : Chunks text.length)
    (lm : Lmap) (pc : Propchange) :
    convertLine d text ck lm pc = convertLine d text (wholeText text.length) lm pc ↔
      LineSound d text ck lm pc := by
  rw [convertLine_wholeText, convertLine_eq_layout_iff]

/-- Folded lines of a text without carriage returns are the same in all chunks. -/
theorem sound_of_folded (d : Display) (xlim : Int) (column : Nat) {n : Nat} (ck : Chunks n)
    (hf : d.render_context.fold_lines = true) (text : List Byte) (ch : Chunk) (l : Locals)
    (hcr : carriageReturn ∉ text) : Sound d xlim column ck text ch l := by
  induction text generalizing ch l with
  | nil => simp [Sound]
  | cons c rest ih =>
    simp only [List.mem_cons, not_or] at hcr
    rw [Sound]
    apply Or.inl
    refine ⟨fun _ hc => absurd hc.symm hcr.1, ?_⟩
    generalize ht : turn d xlim column c _ l = t
    cases t with
    | next l' => exact ih _ l' hcr.2
    | noFold =>
      have := turn_noFold d xlim column c _ l ht
      simp [hf] at this
    | full l' => exact Or.inl hf
    | newline | botch => trivial

theorem convertLine_of_folded (d : Display) (text : List Byte) (ck : Chunks text.length)
    (lm : Lmap) (pc : Propchange) (hf : d.render_context.fold_lines = true)
    (hcr : carriageReturn ∉ text) :
    convertLine d text ck lm pc =
      layout d (rightLimit d lm) lm.column (text.drop lm.point) (startLocals d lm pc) := by
  rw [convertLine_eq_layout_iff]
  apply sound_of_folded d _ _ ck hf
  exact fun h => hcr (List.mem_of_mem_drop h)

/-- The text in blocks of `size` bytes, with `behind` behind each. -/
def blocks (n size : Nat) (hsize : 0 < size) (behind : Byte) : Chunks n where
  size := fun p => min (size - p % size) (n - p)
  behind := fun _ => behind
  size_pos := fun p hp => by
    have := Nat.mod_lt p hsize
    omega
  size_le := fun p hp => by omega

/-- Characters of width 1, in lines of `width`. -/
def plainDisplay (width : Int) (fold_lines : Bool) : Display where
  get_next_propchange := fun pc _ => pc
  display_width := width
  render_context := ⟨8, true, fold_lines, 0, 0, 0, 0⟩

def plainProps : Propchange := ⟨fun _ => 1, 1000⟩

/-- A carriage return at the end of a block before its newline, and an unfolded line that goes on
for more than a block behind the one in which it leaves the window. -/
theorem convertLine_blocks_ne :
    convertLine (plainDisplay 80 true) [97, 13, 10, 98] (blocks 4 2 (by decide) 0) ⟨0, 0, 0⟩
        plainProps ≠
      convertLine (plainDisplay 80 true) [97, 13, 10, 98] (wholeText 4) ⟨0, 0, 0⟩ plainProps ∧
    convertLine (plainDisplay 1 false) [97, 98, 99, 100, 101, 10] (blocks 6 2 (by decide) 0)
        ⟨0, 0, 0⟩ plainProps ≠
      convertLine (plainDisplay 1 false) [97, 98, 99, 100, 101, 10] (wholeText 6) ⟨0, 0, 0⟩
        plainProps := by
  decide

end ups_rules.line_layout
