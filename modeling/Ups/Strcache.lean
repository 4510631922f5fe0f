-- The cache of blocks of a file (strcache.c): what a search for the buffer of an offset finds, and
-- what the buffers hold.
import Mathlib.Data.List.TakeWhile
import Mathlib.Data.List.TakeDrop
import Mathlib.Tactic.Common

namespace ups_rules.strcache

/-! ## The pure model -/

structure Buf where
  b_last_used : Nat
  b_offset : Nat
  b_lim : Nat
  b_len : Nat
  b_data : List UInt8
  deriving DecidableEq

/-- `len` is `sc_saved_line_len`, and `size` how many bytes are allocated. -/
structure SavedLine where
  len : Nat
  size : Nat
  deriving DecidableEq

structure Strcache where
  sc_last_buf : Nat
  sc_bufs : List Buf
  sc_nbufs : Nat
  sc_bufsize : Nat
  sc_offset : Int
  sc_saved_line : Option SavedLine
  sc_current_stamp : Nat
  deriving DecidableEq

/-- A fault is a write behind allocated memory, or a loop that does not end. -/
inductive Stop where
  | panic (message : String)
  | fault
  deriving DecidableEq

/-- What an input function reads at an offset, up to a number of bytes. -/
abbrev Input := Nat → Nat → Option (List UInt8)

def DEFAULT_NBUFS : Nat := 4

def DEFAULT_BUFSIZE : Nat := 2048

def memchr (c : UInt8) (s : List UInt8) : Option Nat := s.findIdx? (· == c)

/-- With a dummy buffer. -/
def makeStrcache : Strcache where
  sc_last_buf := 0
  sc_bufs := [⟨0, 0, 0, 0, []⟩]
  sc_nbufs := 0
  sc_bufsize := 0
  sc_offset := 0
  sc_saved_line := none
  sc_current_stamp := 0

/-- `allocated` says whether there is memory for the data, which is not read before it is set. -/
def setBufs (sc : Strcache) (nbufs bufsize : Nat) (allocated : Bool) :
    Except Stop (Strcache × Int) :=
  let nbufs := if nbufs = 0 then DEFAULT_NBUFS else nbufs
  let bufsize := if bufsize = 0 then DEFAULT_BUFSIZE else bufsize
  if bufsize &&& (bufsize - 1) ≠ 0 then .error (.panic "bufsize not a power of two")
  else if allocated = false then .ok (sc, -1)
  else .ok ({ sc with
    sc_bufs := List.replicate nbufs ⟨0, 0, 0, 0, List.replicate bufsize 0⟩
    sc_last_buf := 0
    sc_nbufs := nbufs
    sc_bufsize := bufsize }, 0)

def setOffset (sc : Strcache) (offset : Int) : Strcache := { sc with sc_offset := offset }

/-- The loop of `find_buf`: the buffer with the block and its number, or else the least recently
used one. -/
def searchBufs (buf_offset : Nat) : List Buf → Nat → Nat × Buf → (Nat × Buf) ⊕ (Nat × Buf)
  | [], _, lru => .inr lru
  | b :: bufs, i, lru =>
    if 0 < b.b_len ∧ b.b_offset = buf_offset then .inl (i, b)
    else searchBufs buf_offset bufs (i + 1) (if b.b_last_used < lru.2.b_last_used then (i, b) else lru)

/-- A buffer once the block has been read into it. -/
def refilled (b : Buf) (stamp buf_offset : Nat) (bytes : List UInt8) : Buf where
  b_last_used := stamp
  b_offset := buf_offset
  b_lim := buf_offset + bytes.length
  b_len := bytes.length
  b_data := bytes ++ b.b_data.drop bytes.length

/-- `find_buf`, once there are buffers. -/
def findBlock (input : Input) (sc : Strcache) (offset : Nat) :
    Except Stop (Strcache × Option (Nat × Buf)) :=
  match sc.sc_bufs with
  | [] => .error .fault
  | first :: _ =>
    -- `offset & ~(sc->sc_bufsize - 1)`
    let buf_offset := offset - (offset &&& (sc.sc_bufsize - 1))
    match searchBufs buf_offset (sc.sc_bufs.take sc.sc_nbufs) 0 (0, first) with
    | .inl (i, b) => .ok (sc, if offset < b.b_lim then some (i, b) else none)
    | .inr (i, b) =>
      match input buf_offset sc.sc_bufsize with
      | none => .ok (sc, none)
      | some bytes =>
        let b := refilled b sc.sc_current_stamp buf_offset bytes
        .ok ({ sc with
          sc_bufs := sc.sc_bufs.set i b
          sc_current_stamp := sc.sc_current_stamp + 1 },
          if offset < b.b_lim then some (i, b) else none)

def findBuf (input : Input) (sc : Strcache) (offset : Nat) :
    Except Stop (Strcache × Option (Nat × Buf)) := do
  let (sc, res) ← if sc.sc_nbufs = 0 then setBufs sc 0 0 true else .ok (sc, 0)
  if res ≠ 0 then .ok (sc, none) else findBlock input sc offset

def forgetBuf (b : Buf) : Buf := { b with b_lim := b.b_offset, b_len := 0 }

/-- A loop over the buffers. -/
def mapBufs (sc : Strcache) (f : Buf → Buf) : Strcache :=
  { sc with sc_bufs := (sc.sc_bufs.take sc.sc_nbufs).map f ++ sc.sc_bufs.drop sc.sc_nbufs }

def fileHasGrown (sc : Strcache) : Strcache :=
  mapBufs sc fun b => if b.b_len < sc.sc_bufsize then forgetBuf b else b

def forgetBuffers (sc : Strcache) : Strcache := mapBufs sc forgetBuf

/-- The buffer that `sc_get_string` and `sc_get_bytes` start with. -/
def firstBuf (input : Input) (sc : Strcache) (offset : Nat) :
    Except Stop (Strcache × Option (Nat × Buf)) :=
  match sc.sc_bufs[sc.sc_last_buf]? with
  | none => .error .fault
  | some b =>
    if b.b_offset > offset ∨ offset ≥ b.b_lim then do
      let (sc, res) ← findBuf input sc offset
      match res with
      | none => .ok (sc, none)
      | some (i, b) => .ok ({ sc with sc_last_buf := i }, some (i, b))
    else .ok (sc, some (sc.sc_last_buf, b))

/-- The saved line is doubled if it does not take a number of bytes, with one byte more. -/
def grown (line : SavedLine) (nbytes : Nat) : SavedLine :=
  if nbytes > line.len then ⟨line.len * 2, line.len * 2 + 1⟩ else line

/-- The loop of `sc_get_string`, with what has been copied. The character that is put behind the
string has to fit as well. -/
def copyString (input : Input) (endchar : UInt8) :
    Nat → Strcache → SavedLine → Nat → List UInt8 → Except Stop (Strcache × Option (List UInt8))
  | 0, _, _, _, _ => .error .fault
  | fuel + 1, sc, line, offset, res => do
    let (sc, found) ← findBuf input sc (offset + res.length)
    match found with
    | none => if res.length < line.size then .ok (sc, some res) else .error .fault
    | some (_, b) =>
      let stop := memchr endchar (b.b_data.take b.b_len)
      let chunk_len := stop.getD b.b_len
      let line := grown line (res.length + chunk_len)
      let sc := { sc with sc_saved_line := some line }
      if res.length + chunk_len > line.size then .error .fault
      else
        let res := res ++ b.b_data.take chunk_len
        match stop with
        | none => copyString input endchar fuel sc line offset res
        | some _ => if res.length < line.size then .ok (sc, some res) else .error .fault

def getString (input : Input) (fuel : Nat) (sc : Strcache) (offset : Int) (endchar : UInt8) :
    Except Stop (Strcache × Option (List UInt8)) :=
  let offset := offset + sc.sc_offset
  if offset < 0 then .error (.panic "offset < 0 in gss")
  else do
    let offset := offset.toNat
    let (sc, found) ← firstBuf input sc offset
    match found with
    | none => .ok (sc, none)
    | some (i, b) =>
      let start := (b.b_data.drop (offset - b.b_offset)).take (b.b_len - (offset - b.b_offset))
      match memchr endchar start with
      | some n => .ok (sc, some (start.take n))
      | none =>
        if b.b_len < sc.sc_bufsize then
          .ok ({ sc with sc_bufs := sc.sc_bufs.set i { b with b_data := b.b_data.set b.b_len 0 } },
            some start)
        else
          let line := sc.sc_saved_line.getD ⟨sc.sc_bufsize, sc.sc_bufsize⟩
          let sc := { sc with sc_saved_line := some line }
          if start.length > line.size then .error .fault
          else copyString input endchar fuel sc line offset start

/-- The loop of `sc_get_bytes`. -/
def copyBytes (input : Input) :
    Nat → Strcache → Nat → Nat → Nat → List UInt8 → Except Stop (Strcache × Option (List UInt8))
  | 0, _, _, _, _, _ => .error .fault
  | fuel + 1, sc, size, offset, remaining, res => do
    let (sc, found) ← findBuf input sc (offset + res.length)
    match found with
    | none => .ok (sc, some res)
    | some (_, b) =>
      let to_copy := if remaining < b.b_len then remaining else b.b_len
      if res.length + to_copy > size then .error .fault
      else
        let res := res ++ b.b_data.take to_copy
        if remaining - to_copy > 0 then
          copyBytes input fuel sc size offset (remaining - to_copy) res
        else .ok (sc, some res)

/-- `while (nbytes > res_len) res_len *= 2` -/
def doubled (nbytes : Nat) : Nat → Nat → Except Stop Nat
  | 0, _ => .error .fault
  | fuel + 1, res_len => if nbytes > res_len then doubled nbytes fuel (res_len * 2) else .ok res_len

/-- The saved line that `sc_get_bytes` takes. -/
def lineFor (sc : Strcache) (nbytes : Nat) : Except Stop SavedLine :=
  match sc.sc_saved_line with
  | none =>
    let res_len := if nbytes > sc.sc_bufsize then nbytes else sc.sc_bufsize
    .ok ⟨res_len, res_len⟩
  | some line =>
    if nbytes > line.len then do
      let res_len ← doubled nbytes (nbytes + 1) line.len
      .ok ⟨res_len, res_len⟩
    else .ok line

def getBytes (input : Input) (fuel : Nat) (sc : Strcache) (offset : Int) (nbytes : Nat) :
    Except Stop (Strcache × Option (List UInt8)) :=
  let offset := offset + sc.sc_offset
  if offset < 0 then .error (.panic "offset < 0 in scb")
  else do
    let offset := offset.toNat
    let (sc, found) ← firstBuf input sc offset
    match found with
    | none => .ok (sc, none)
    | some (_, b) =>
      let start := offset - b.b_offset
      if start + nbytes ≤ b.b_len then .ok (sc, some ((b.b_data.drop start).take nbytes))
      else do
        let line ← lineFor sc nbytes
        let sc := { sc with sc_saved_line := some line }
        let res := (b.b_data.drop start).take (b.b_len - start)
        if res.length > line.size then .error .fault
        else copyBytes input fuel sc line.size offset (nbytes - res.length) res

/-! ## Runs -/

inductive Op where
  | setBufs (nbufs bufsize : Nat) (allocated : Bool)
  | setOffset (offset : Int)
  | forgetBuffers
  | getBytes (offset : Int) (nbytes : Nat)
  | getString (offset : Int) (endchar : UInt8)

/-- An input function that returns the bytes of a file. -/
def readsFile (F : List UInt8) : Input := fun offset nbytes => some ((F.drop offset).take nbytes)

/-- More turns than the loops take. -/
def turns (F : List UInt8) : Nat := F.length + 2

def Op.exec (F : List UInt8) (sc : Strcache) : Op → Except Stop Strcache
  | .setBufs nbufs bufsize allocated => do
    let (sc, _) ← strcache.setBufs sc nbufs bufsize allocated
    .ok sc
  | .setOffset offset => .ok (strcache.setOffset sc offset)
  | .forgetBuffers => .ok (strcache.forgetBuffers sc)
  | .getBytes offset nbytes => do
    let (sc, _) ← strcache.getBytes (readsFile F) (turns F) sc offset nbytes
    .ok sc
  | .getString offset endchar => do
    let (sc, _) ← strcache.getString (readsFile F) (turns F) sc offset endchar
    .ok sc

/-- The states after any run of calls that come back, in which the file may grow. -/
inductive Reaches : List UInt8 → Strcache → Prop where
  | make (F : List UInt8) : Reaches F makeStrcache
  | call {F : List UInt8} {sc sc' : Strcache} (op : Op) (run : Reaches F sc)
    (step : op.exec F sc = .ok sc') : Reaches F sc'
  | grow {F : List UInt8} {sc : Strcache} (more : List UInt8) (run : Reaches F sc) :
    Reaches (F ++ more) (fileHasGrown sc)

/-- The bytes of the file from an offset on; null at its end or behind it. -/
def bytesAt (F : List UInt8) (offset nbytes : Nat) : Option (List UInt8) :=
  if F.length ≤ offset then none else some ((F.drop offset).take nbytes)

/-- The bytes up to the first one that is `endchar`, or to the end of the file. -/
def stringFrom (F : List UInt8) (offset : Nat) (endchar : UInt8) : List UInt8 :=
  (F.drop offset).takeWhile (· != endchar)

def stringAt (F : List UInt8) (offset : Nat) (endchar : UInt8) : Option (List UInt8) :=
  if F.length ≤ offset then none else some (stringFrom F offset endchar)

/-- The size of the buffers, once there are any. -/
def blockSize (sc : Strcache) : Nat := if sc.sc_nbufs = 0 then DEFAULT_BUFSIZE else sc.sc_bufsize

/-- A saved line that is doubled for every block it has no room for takes what is from `start` to
`stop` in a file of `n` bytes, from the block at `p` on, and one character behind it. -/
def Takes (B n start stop : Nat) : Nat → SavedLine → Nat → Prop
  | 0, _, _ => False
  | fuel + 1, line, p =>
    if n ≤ p then p - start < line.size
    else
      let lim := min (p + B) n
      let next := min stop lim
      let line := grown line (next - start)
      next - start ≤ line.size ∧
        if stop < lim then next - start < line.size else Takes B n start stop fuel line next

/-- The string ends in its first block, or the saved line takes it. -/
def Meets (F : List UInt8) (sc : Strcache) (offset : Nat) (endchar : UInt8) : Prop :=
  let B := blockSize sc
  let lim := (offset / B + 1) * B
  let stop := offset + (stringFrom F offset endchar).length
  let line := sc.sc_saved_line.getD ⟨B, B⟩
  stop < lim ∨ lim - offset ≤ line.size ∧ Takes B F.length offset stop (turns F) line lim

end ups_rules.strcache
