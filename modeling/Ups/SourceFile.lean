-- The index of the lines of a source file (so.c): how get_line_offsets finds the lines through the
-- cache of the file, when a file has grown or has been rewritten, and how so_getline shows a line.
import Ups.FileLines
import Ups.StrcacheEnds

open file_lines
open ups_rules.strcache

namespace ups_rules.source_file

/-! ## The pure model -/

def LINES_PER_BLOCK : Nat := 128

def newline : UInt8 := 10

def tab : UInt8 := 9

def backspace : UInt8 := 8

def blank : UInt8 := 32

/-- `block_t`. The offsets of a new block are not read before they are stored. -/
structure Block where
  bl_offset : Nat
  bl_lines : List Nat
  size : bl_lines.length = LINES_PER_BLOCK

def newBlock (bl_offset : Nat) : Block :=
  ⟨bl_offset, List.replicate LINES_PER_BLOCK 0, List.length_replicate ..⟩

/-- `*lptr = pos` -/
def Block.store (bl : Block) (lptr pos : Nat) : Block :=
  ⟨bl.bl_offset, bl.bl_lines.set lptr pos, by rw [List.length_set, bl.size]⟩

/-- `so_t`. There is no line callback, and the time of the file is left out. -/
structure So where
  so_strcache : Strcache
  so_size : Nat
  so_nlines : Nat
  so_max_linelen : Nat
  so_block : List Block
  so_lastline : List UInt8
  so_lastline_offset : Nat
  so_tabwidth : Nat

/-- The loop over the characters of a line that sums up `specials_offset`. -/
def specialsOffset (tabwidth : Nat) : List UInt8 → Nat → Int → Int
  | [], _, specials_offset => specials_offset
  | c :: line, i, specials_offset =>
    specialsOffset tabwidth line (i + 1)
      (if c = backspace then
        if (i : Int) + specials_offset > 1 then specials_offset - 2 else specials_offset
      else if c = tab then
        specials_offset + ((tabwidth : Int) - 1 - ((i : Int) + specials_offset).tmod tabwidth)
      else specials_offset)

/-- Where `get_line_offsets` is: the blocks before `last_block`, and the index of `lptr` in it. -/
structure Scan where
  so : So
  before : List Block
  last_block : Option Block
  lptr : Nat
  pos : Nat

/-- The index of `llim`; both pointers are NULL when there is no block. -/
def Scan.llim (s : Scan) : Nat := if s.last_block.isSome then LINES_PER_BLOCK else 0

def Scan.withRoom (s : Scan) : Scan :=
  if s.lptr = s.llim then { s with
    before := s.before ++ s.last_block.toList
    last_block := some (newBlock s.pos)
    lptr := 0 }
  else s

/-- `*lptr++ = pos` -/
def Scan.store (s : Scan) : Scan :=
  { s with last_block := s.last_block.map (·.store s.lptr s.pos), lptr := s.lptr + 1 }

/-- The loop of `get_line_offsets`. -/
def scanLines (input : Input) (turns : Nat) : Nat → Scan → Except Stop Scan
  | 0, _ => .error .fault
  | fuel + 1, s => do
    let (sc, found) ← getEnded input turns s.so.so_strcache s.pos newline
    let so := { s.so with so_strcache := sc }
    match found with
    | none => .ok { s with so := so }
    | some (line, behind) =>
      let linelen := ((line.length : Int) + specialsOffset so.so_tabwidth line 0 0).toNat
      let s := s.withRoom.store
      scanLines input turns fuel { s with
        so := { so with
          so_max_linelen := if linelen > so.so_max_linelen then linelen else so.so_max_linelen
          so_nlines := so.so_nlines + 1 }
        pos := s.pos + line.length + if behind ≠ 0 then 1 else 0 }

/-- `get_line_offsets` up to its loop. -/
def startScan (so : So) : Scan :=
  match so.so_block.getLast? with
  | none => {
      so := { so with so_nlines := 0 }
      before := []
      last_block := none
      lptr := 0
      pos := 0 }
  | some last_block => {
      so := { so with
        so_nlines := (so.so_block.length - 1) * LINES_PER_BLOCK
        so_strcache := fileHasGrown so.so_strcache }
      before := so.so_block.dropLast
      last_block := some last_block
      lptr := 0
      pos := last_block.bl_offset }

/-- `lptr[-1]` -/
def Scan.lastOffset (s : Scan) : Option Nat :=
  if s.lptr = 0 then none else s.last_block.bind fun bl => bl.bl_lines[s.lptr - 1]?

/-- `get_line_offsets` behind its loop. -/
def endScan (input : Input) (turns : Nat) (s : Scan) : Except Stop So :=
  let so := { s.so with so_block := s.before ++ s.last_block.toList, so_size := s.pos }
  if so.so_nlines ≠ 0 then
    match s.lastOffset with
    | none => .error .fault
    | some so_lastline_offset => do
      let (sc, found) ← getEnded input turns so.so_strcache so_lastline_offset newline
      .ok { so with
        so_strcache := sc
        so_lastline_offset := so_lastline_offset
        so_lastline := (found.map Prod.fst).getD [] }
  else .ok so

/-- Over a file `F`; the loops take fewer turns than they may. -/
def getLineOffsets (F : List UInt8) (so : So) : Except Stop So := do
  let s ← scanLines (readsFile F) (turns F) (turns F) (startScan so)
  endScan (readsFile F) (turns F) s

/-- `so_open_via_func`, with `Default_tabwidth`. -/
def soOpen (F : List UInt8) (tabwidth : Nat) : Except Stop So :=
  getLineOffsets F {
    so_strcache := makeStrcache
    so_size := 0
    so_nlines := 0
    so_max_linelen := 0
    so_block := []
    so_lastline := []
    so_lastline_offset := 0
    so_tabwidth := tabwidth }

def soReadMore (F : List UInt8) (so : So) (reread : Bool) : Except Stop So :=
  getLineOffsets F (if reread then { so with
      so_block := []
      so_nlines := 0
      so_strcache := forgetBuffers so.so_strcache }
    else so)

/-- The loop of `readline`, with what is in `so_peekbuf`. -/
def expand (tabwidth : Nat) (iptr : List UInt8) (tabspaces : Nat) (obuf : List UInt8) : List UInt8 :=
  match tabspaces, iptr with
  | tabspaces + 1, iptr => expand tabwidth iptr tabspaces (obuf ++ [blank])
  | 0, [] => obuf
  | 0, ch :: iptr =>
    if ch = tab then
      expand tabwidth iptr (tabwidth - 1 - obuf.length % tabwidth) (obuf ++ [blank])
    else if ch = backspace ∧ obuf ≠ [] then expand tabwidth iptr 0 obuf.dropLast
    else if ch = 0 then expand tabwidth iptr 0 (obuf ++ [128])
    else expand tabwidth iptr 0 (obuf ++ [ch])
termination_by (iptr.length, tabspaces)

def readline (F : List UInt8) (so : So) (offset : Nat) : Except Stop (So × List UInt8) := do
  let (sc, found) ← getEnded (readsFile F) (turns F) so.so_strcache offset newline
  .ok ({ so with so_strcache := sc },
    expand so.so_tabwidth ((found.map Prod.fst).getD []) 0 [])

def soGetline (F : List UInt8) (so : So) (lnum : Int) : Except Stop (So × List UInt8) :=
  if lnum < 0 ∨ lnum ≥ so.so_nlines then .error (.panic "lnum out of range in so_getline")
  else
    let offset := (so.so_block[lnum.toNat / LINES_PER_BLOCK]?).bind fun bl =>
      bl.bl_lines[lnum.toNat % LINES_PER_BLOCK]?
    match offset with
    | none => .error .fault
    | some offset => readline F so offset

/-! ## The lines of a file -/

/-- A line without the newline that ends it. -/
def textOf (l : List UInt8) : List UInt8 := l.takeWhile (· != newline)

/-- What is shown, once a character has been added. A backspace with nothing before it is kept. -/
def showChar (tabwidth : Nat) (shown : List UInt8) (ch : UInt8) : List UInt8 :=
  if ch = tab then shown ++ List.replicate (tabwidth - shown.length % tabwidth) blank
  else if ch = backspace then if shown = [] then [backspace] else shown.dropLast
  else shown ++ [if ch = 0 then 128 else ch]

/-- A line as it is shown. -/
def shownLine (tabwidth : Nat) (l : List UInt8) : List UInt8 :=
  (textOf l).foldl (showChar tabwidth) []

/-- The saved line of the cache takes the lines of the file: it has been enlarged, or no line as
long as a buffer comes before the first longer one. -/
def TakesLines (sc : Strcache) (F : List UInt8) : Prop :=
  Enlarged sc ∨ ∀ before l after, lines newline F = before ++ l :: after →
    (textOf l).length = DEFAULT_BUFSIZE → ∃ l' ∈ before, DEFAULT_BUFSIZE < (textOf l').length

/-- A file that is open, after any changes of it that are followed by `so_read_more`, and any calls
of `so_getline`. -/
inductive Reaches : List UInt8 → So → Prop where
  | opened {F : List UInt8} {tabwidth : Nat} {so : So} (hwidth : 0 < tabwidth)
    (htakes : TakesLines makeStrcache F) (h : soOpen F tabwidth = .ok so) : Reaches F so
  | grown {F : List UInt8} {so so' : So} (more : List UInt8) (run : Reaches F so)
    (htakes : TakesLines so.so_strcache (F ++ more))
    (h : soReadMore (F ++ more) so false = .ok so') : Reaches (F ++ more) so'
  | rewritten {F : List UInt8} {so so' : So} (F' : List UInt8) (run : Reaches F so)
    (htakes : TakesLines so.so_strcache F') (h : soReadMore F' so true = .ok so') : Reaches F' so'
  | shown {F : List UInt8} {so so' : So} {lnum : Int} {s : List UInt8} (run : Reaches F so)
    (h : soGetline F so lnum = .ok (so', s)) : Reaches F so'

end ups_rules.source_file
