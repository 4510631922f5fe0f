-- The text of an edit buffer (lbuf.c): a list of blocks that are made and read from the file
-- when they are first looked at, with the place of the last search kept.
import Ups.LinkedPath
import Mathlib.Data.List.TakeDrop
import Mathlib.Logic.Function.Basic

open linked_path

namespace ups_rules.lbuf

/-! ## The buffer -/

abbrev Byte := BitVec 8

/-- `text` is null while the bytes are still to be read from the file, else a buffer of
`blocksize` bytes, of which the first `blocklen` count. -/
structure Block where
  text : Option (List Byte)
  blocklen : Nat
  file_offset : Nat
  next : Option Nat

/-- `Text_bufdata`, with the blocks that were allocated from the pool and the number of reads
so far. -/
structure Bufdata where
  blocks : Option Nat
  lastprev : Option Nat
  lastpos : Nat
  done_all_file_offsets : Bool
  buflen : Nat
  blocksize : Nat
  heap : Nat → Block
  nblocks : Nat
  reads : Nat

structure Env where
  /-- The n-th read of so many bytes at an offset: whether it succeeds, and what is in the buffer
  then. -/
  read_func : Nat → Nat → Nat → List Byte → Bool × List Byte
  /-- What new memory for a block's text holds. -/
  junk : Nat → Nat → Byte

/-- How a call ends early. -/
inductive Stop where
  | read_failed (b : Bufdata) (bl : Nat)
  | panicked (text : String)
  | null_pointer
  | out_of_fuel

namespace Bufdata

def setBlock (b : Bufdata) (bl : Nat) (v : Block) : Bufdata :=
  { b with heap := Function.update b.heap bl v }

/-- The first block, or the one behind a block. -/
def link (b : Bufdata) : Option Nat → Option Nat
  | none => b.blocks
  | some bl => (b.heap bl).next

def setLink (b : Bufdata) : Option Nat → Option Nat → Bufdata
  | none, v => { b with blocks := v }
  | some prev, v => b.setBlock prev { b.heap prev with next := v }

/-- A pointer to bytes that is not null. -/
def textOf (b : Bufdata) (bl : Nat) : Except Stop (List Byte) :=
  match (b.heap bl).text with
  | none => .error .null_pointer
  | some text => .ok text

end Bufdata

/-- `alloc` from the pool -/
def allocText (env : Env) (b : Bufdata) (bl : Nat) : List Byte :=
  (List.range b.blocksize).map (env.junk bl)

def memcpy (buf : List Byte) (off : Nat) (src : List Byte) : List Byte :=
  buf.take off ++ src ++ buf.drop (off + src.length)

/-- Within one buffer: `n` bytes from `src` on go to `dst`. -/
def memmove (buf : List Byte) (dst src n : Nat) : List Byte :=
  memcpy buf dst ((buf.drop src).take n)

/-- `text_create_lbuf_buffer`, for a file of this size. -/
def createLbufBuffer (size blocksize : Nat) : Bufdata where
  blocks := none
  lastprev := none
  lastpos := 0
  done_all_file_offsets := false
  buflen := size
  blocksize := blocksize
  heap := fun _ => ⟨none, 0, 0, none⟩
  nblocks := 0
  reads := 0

/-! ## Finding a block -/

/-- The text pointer is set before the read. -/
def readText (env : Env) (b : Bufdata) (bl : Nat) : Except Stop Bufdata :=
  let blk := b.heap bl
  let r := env.read_func b.reads blk.file_offset blk.blocklen (allocText env b bl)
  let b := { b.setBlock bl { blk with text := some r.2 } with reads := b.reads + 1 }
  if r.1 then .ok b else .error (.read_failed b bl)

/-- `bl->text == NULL && !read_text(b, bl)` -/
def needText (env : Env) (b : Bufdata) (bl : Nat) : Except Stop Bufdata :=
  match (b.heap bl).text with
  | none => readText env b bl
  | some _ => .ok b

def appendBlock (env : Env) (b : Bufdata) (prev : Option Nat) (allocate_text : Bool) :
    Bufdata × Nat :=
  let bl := b.nblocks
  let text := if allocate_text then some (allocText env b bl) else none
  let b := { b.setBlock bl ⟨text, 0, 0, b.link prev⟩ with nblocks := bl + 1 }
  (b.setLink prev (some bl), bl)

/-- The first half of a turn of the loop of `get_block`. Behind the last block a new one is made
for the bytes of the file that come next; at the end of the buffer there is none. -/
def makeBlock (env : Env) (b : Bufdata) (wanted_pos pos : Nat) (prev : Option Nat) :
    Option Nat → Except Stop (Bufdata × Option Nat)
  | some bl => .ok (b, some bl)
  | none =>
    if pos = b.buflen ∧ wanted_pos = pos then .ok (b, none)
    else if b.buflen ≤ pos then .error (.panicked "pos botch in gb")
    else
      let blocklen := min (b.buflen - pos) b.blocksize
      let (b, bl) := appendBlock env b prev false
      .ok (b.setBlock bl { b.heap bl with blocklen := blocklen, file_offset := pos }, some bl)

/-- Gives the position of the block that was found, the one before it and the block. -/
def getBlockLoop (env : Env) (wanted_pos : Nat) : Nat → Bufdata → Nat → Option Nat → Option Nat →
    Except Stop (Bufdata × Nat × Option Nat × Option Nat)
  | 0, _, _, _, _ => .error .out_of_fuel
  | fuel + 1, b, pos, prev, bl => do
    let (b, bl) ← makeBlock env b wanted_pos pos prev bl
    match bl with
    | none => .ok (b, pos, prev, none)
    | some bl =>
      if pos ≤ wanted_pos ∧ wanted_pos < pos + (b.heap bl).blocklen then
        .ok (b, pos, prev, some bl)
      else
        let blk := b.heap bl
        getBlockLoop env wanted_pos fuel b (pos + blk.blocklen) (some bl) blk.next

/-- Where the search starts: `pos`, `prev` and `bl`. -/
def searchStart (b : Bufdata) (wanted_pos : Nat) : Nat × Option Nat × Option Nat :=
  if b.lastprev ≠ none ∧ b.lastpos ≤ wanted_pos then (b.lastpos, b.lastprev, b.link b.lastprev)
  else (0, none, b.blocks)

/-- Gives `prev`, `bl` and the offset within the block. Each turn of the loop gets at least one
byte nearer to the position. -/
def getBlock (env : Env) (b : Bufdata) (wanted_pos : Nat) :
    Except Stop (Bufdata × Option Nat × Option Nat × Nat) := do
  let (pos, prev, bl) := searchStart b wanted_pos
  let (b, pos, prev, bl) ← getBlockLoop env wanted_pos (wanted_pos + 1) b pos prev bl
  let b ← match bl with
    | none => .ok b
    | some bl => needText env b bl
  .ok ({ b with lastpos := pos, lastprev := prev }, prev, bl, wanted_pos - pos)

/-- `none` is the result FALSE at a position outside the buffer. -/
def lbufGetBytes (env : Env) (b : Bufdata) (pos : Nat) :
    Except Stop (Bufdata × Option (List Byte)) :=
  if b.buflen ≤ pos then .ok (b, none)
  else do
    let (b, _, bl, offset_within_block) ← getBlock env b pos
    match bl with
    | none => .error .null_pointer
    | some bl =>
      let text ← b.textOf bl
      .ok (b, some ((text.drop offset_within_block).take
        ((b.heap bl).blocklen - offset_within_block)))

def lbufGetBytesBefore (env : Env) (b : Bufdata) (pos : Nat) :
    Except Stop (Bufdata × Option (List Byte)) :=
  if pos = 0 ∨ b.buflen < pos then .ok (b, none)
  else do
    let (b, _, bl, offset_within_block) ← getBlock env b (pos - 1)
    match bl with
    | none => .error .null_pointer
    | some bl =>
      let text ← b.textOf bl
      .ok (b, some (text.take (offset_within_block + 1)))

/-- `!b->done_all_file_offsets && !set_all_file_offsets(b)` -/
def setAllFileOffsets (env : Env) (b : Bufdata) : Except Stop Bufdata :=
  if b.done_all_file_offsets then .ok b
  else do
    let (b, _) ← getBlock env b b.buflen
    .ok { b with done_all_file_offsets := true }

/-- The place of the last search is forgotten unless it lies before the position. -/
def forgetPlace (b : Bufdata) (pos : Nat) : Bufdata :=
  if pos ≤ b.lastpos then { b with lastprev := none } else b

/-! ## Deleting -/

/-- The bytes of a block from an offset on that are to be deleted: how many, and the text without
them. -/
def cutBlock (b : Bufdata) (bl offset_within_block zapcount : Nat) :
    Except Stop (Nat × Option (List Byte)) :=
  let blk := b.heap bl
  if blk.blocklen ≤ offset_within_block + zapcount then
    .ok (blk.blocklen - offset_within_block, blk.text)
  else do
    let text ← b.textOf bl
    .ok (zapcount, some (memmove text offset_within_block (offset_within_block + zapcount)
      (blk.blocklen - (offset_within_block + zapcount))))

/-- The part within the first block, when the deletion does not start at its first byte. Gives
`prev`, `bl` and what is left to delete. -/
def zapWithin (b : Bufdata) (prev bl : Option Nat) (offset_within_block zapcount : Nat) :
    Except Stop (Bufdata × Option Nat × Option Nat × Nat) :=
  if offset_within_block = 0 then .ok (b, prev, bl, zapcount)
  else
    match bl with
    | none => .error .null_pointer
    | some bl => do
      let blk := b.heap bl
      let (block_zapcount, text) ← cutBlock b bl offset_within_block zapcount
      let b := { b.setBlock bl { blk with
          text := text
          blocklen := blk.blocklen - block_zapcount } with
        buflen := b.buflen - block_zapcount }
      .ok (b, some bl, blk.next, zapcount - block_zapcount)

/-- The loop over the whole blocks. -/
def zapBlocks : Nat → Bufdata → Option Nat → Option Nat → Nat →
    Except Stop (Bufdata × Option Nat × Nat)
  | 0, _, _, _, _ => .error .out_of_fuel
  | _ + 1, b, _, none, zapcount => .ok (b, none, zapcount)
  | fuel + 1, b, prev, some bl, zapcount =>
    let blk := b.heap bl
    if zapcount < blk.blocklen then .ok (b, some bl, zapcount)
    else
      let b := b.setLink prev blk.next
      zapBlocks fuel { b with buflen := b.buflen - blk.blocklen } prev blk.next
        (zapcount - blk.blocklen)

/-- The partial block at the end of the deletion. -/
def zapFront (env : Env) (b : Bufdata) (bl : Option Nat) (zapcount : Nat) : Except Stop Bufdata :=
  if zapcount = 0 then .ok b
  else
    match bl with
    | none => .error .null_pointer
    | some bl => do
      let b ← needText env b bl
      let blk := b.heap bl
      let text ← b.textOf bl
      .ok { b.setBlock bl { blk with
          text := some (memmove text 0 zapcount (blk.blocklen - zapcount))
          blocklen := blk.blocklen - zapcount } with
        buflen := b.buflen - zapcount }

def lbufDelete (env : Env) (b : Bufdata) (pos zapcount : Nat) : Except Stop Bufdata := do
  let b ← setAllFileOffsets env b
  if b.buflen < pos + zapcount then .error (.panicked "pos out of range in lbuf_delete")
  else
    let expected_new_buflen := b.buflen - zapcount
    let (b, prev, bl, offset_within_block) ← getBlock env b pos
    let b := forgetPlace b pos
    let (b, prev, bl, zapcount) ← zapWithin b prev bl offset_within_block zapcount
    let (b, bl, zapcount) ← zapBlocks (zapcount + 1) b prev bl zapcount
    let b ← zapFront env b bl zapcount
    if b.buflen = expected_new_buflen then .ok b else .error (.panicked "lbuf_delete botch")

/-! ## Inserting -/

/-- Gives the bytes that did not fit. -/
def transfer (b : Bufdata) (bl : Nat) (offset_within_block : Nat) (instext : List Byte) :
    Except Stop (Bufdata × List Byte) :=
  let blk := b.heap bl
  let room := b.blocksize - blk.blocklen
  if room = 0 then .ok (b, instext)
  else if blk.blocklen < offset_within_block then .error (.panicked "offset botch in transfer")
  else do
    let to_copy := min room instext.length
    let text ← b.textOf bl
    let text := if offset_within_block = blk.blocklen then text
      else memmove text (offset_within_block + to_copy) offset_within_block
        (blk.blocklen - offset_within_block)
    let text := memcpy text offset_within_block (instext.take to_copy)
    .ok ({ b.setBlock bl { blk with
        text := some text
        blocklen := blk.blocklen + to_copy } with
      buflen := b.buflen + to_copy }, instext.drop to_copy)

/-- The bytes of the inserted text, and then those of the residue, go behind the bytes of the
block. -/
def fillBlock (b : Bufdata) (bl : Nat) (instext residue : List Byte) :
    Except Stop (Bufdata × List Byte × List Byte) := do
  let (b, instext) ← transfer b bl (b.heap bl).blocklen instext
  let (b, residue) ← transfer b bl (b.heap bl).blocklen residue
  .ok (b, instext, residue)

/-- The bytes of the block beyond the insertion point are put aside. -/
def takeResidue (b : Bufdata) (bl offset_within_block : Nat) :
    Except Stop (Bufdata × List Byte) :=
  let blk := b.heap bl
  let residue_len := blk.blocklen - offset_within_block
  if residue_len = 0 then .ok (b, [])
  else do
    let text ← b.textOf bl
    .ok ({ b.setBlock bl { blk with blocklen := blk.blocklen - residue_len } with
      buflen := b.buflen - residue_len }, (text.drop offset_within_block).take residue_len)

/-- The room in the block behind `bl`. -/
def spareSpace (b : Bufdata) (bl : Option Nat) : Nat :=
  match bl with
  | none => 0
  | some bl =>
    match (b.heap bl).next with
    | none => 0
    | some next => b.blocksize - (b.heap next).blocklen

/-- Full blocks are inserted until the rest fits in the block behind them. Each takes at least one
byte. -/
def insertBlocks (env : Env) (spare_space : Nat) : Nat → Bufdata → Option Nat → Option Nat →
    List Byte → List Byte → Except Stop (Bufdata × Option Nat × List Byte × List Byte)
  | 0, _, _, _, _, _ => .error .out_of_fuel
  | fuel + 1, b, prev, bl, instext, residue =>
    if instext.length + residue.length ≤ spare_space then .ok (b, bl, instext, residue)
    else do
      let (b, bl) := appendBlock env b prev true
      let (b, instext, residue) ← fillBlock b bl instext residue
      insertBlocks env spare_space fuel b (some bl) (some bl) instext residue

/-- What is left goes to the front of the block behind `bl`. -/
def insertFront (env : Env) (b : Bufdata) (bl : Option Nat) (instext residue : List Byte) :
    Except Stop (Bufdata × List Byte × List Byte) :=
  if instext.length + residue.length = 0 then .ok (b, instext, residue)
  else
    match bl with
    | none => .error (.panicked "bl botch in li")
    | some bl =>
      match (b.heap bl).next with
      | none => .error (.panicked "bl botch in li")
      | some bl => do
        let offset_for_residue := instext.length
        let b ← needText env b bl
        let (b, instext) ← transfer b bl 0 instext
        let (b, residue) ← transfer b bl offset_for_residue residue
        .ok (b, instext, residue)

/-- From where the first block, if there is one, is full. -/
def insertRest (env : Env) (b : Bufdata) (prev bl : Option Nat) (instext residue : List Byte)
    (expected_new_buflen : Nat) : Except Stop Bufdata := do
  let (b, bl, instext, residue) ← insertBlocks env (spareSpace b bl)
    (instext.length + residue.length + 1) b prev bl instext residue
  let (b, instext, residue) ← insertFront env b bl instext residue
  if instext.length + residue.length = 0 ∧ b.buflen = expected_new_buflen then .ok b
  else .error (.panicked "buflen botch in li")

/-- At the start of a block the end of the block before it is used. -/
def backUp (b : Bufdata) (prev bl : Option Nat) (offset_within_block : Nat) : Option Nat × Nat :=
  match prev with
  | none => (bl, offset_within_block)
  | some prev =>
    if offset_within_block = 0 then (some prev, (b.heap prev).blocklen)
    else (bl, offset_within_block)

def lbufInsert (env : Env) (b : Bufdata) (pos : Nat) (instext : List Byte) :
    Except Stop Bufdata := do
  let b ← setAllFileOffsets env b
  let pos := min pos b.buflen
  let (b, prev, bl, offset_within_block) ← getBlock env b pos
  let b := forgetPlace b pos
  let (bl, offset_within_block) := backUp b prev bl offset_within_block
  let expected_new_buflen := b.buflen + instext.length
  match bl with
  | none => insertRest env b prev none instext [] expected_new_buflen
  | some bl =>
    if (b.heap bl).blocklen + instext.length ≤ b.blocksize then do
      let b ← needText env b bl
      let (b, _) ← transfer b bl offset_within_block instext
      .ok b
    else do
      let (b, residue) ← takeResidue b bl offset_within_block
      let b ← needText env b bl
      let (b, instext, residue) ← fillBlock b bl instext residue
      insertRest env b (some bl) (some bl) instext residue expected_new_buflen

/-! ## The calls -/

inductive Op where
  | insert (pos : Nat) (instext : List Byte)
  | delete (pos zapcount : Nat)
  | get_bytes (pos : Nat)
  | get_bytes_before (pos : Nat)

def exec (env : Env) (b : Bufdata) : Op → Except Stop (Bufdata × Option (List Byte))
  | .insert pos instext => do
    let b ← lbufInsert env b pos instext
    .ok (b, none)
  | .delete pos zapcount => do
    let b ← lbufDelete env b pos zapcount
    .ok (b, none)
  | .get_bytes pos => lbufGetBytes env b pos
  | .get_bytes_before pos => lbufGetBytesBefore env b pos

end ups_rules.lbuf
