-- The jumps that the debugger finds in a piece of the text (xc_get_jumps in xc_text.c), and when
-- they are those of the machine. The walk keeps in step with the instructions, but it takes the
-- second byte of an opcode for its address.
import Mathlib.Data.List.Forall2
import Ups.Disassemble
import Ups.StackWords

open le_bytes
open ups_rules.machine
open ups_rules.opcodes
open ups_rules.next_pc
open ups_rules.code_text
open ups_rules.disassemble

namespace ups_rules.get_jumps

/-! ## The pure model -/

/-- `jumptype_t`, without the end of a list. -/
inductive JumpType where
  | JT_BRANCH | JT_CALL
  deriving DecidableEq

/-- `jump_t` -/
structure JumpEntry where
  ju_type : JumpType
  ju_addr : Nat
  ju_dstaddr : Nat
  ju_unconditional : Bool
  deriving DecidableEq

/-- `none` is the panic on an offset of more than two bytes. -/
def packTextloc (cf_index pc_offset : Nat) : Option Nat :=
  if cf_index < 65536 ∧ pc_offset < 65536 then some (cf_index * 65536 + pc_offset) else none

/-- An entry for the instruction whose opcode the text pointer is behind. -/
def entryAt (cf_index pc : Nat) (ju_type : JumpType) (ju_dstaddr : Nat) (ju_unconditional : Bool) :
    Option (Option JumpEntry) := do
  let ju_addr ← packTextloc cf_index (pc - 1)
  return some { ju_type, ju_addr, ju_dstaddr, ju_unconditional }

/-- The switch of `xc_get_jumps`, with the text pointer behind the opcode; the inner `none` is
`JT_END`. -/
def jumpAt (cf_index : Nat) (text : Nat → BitVec 8) (want_calls : Bool) (opcode : Opcode)
    (pc : Nat) : Option (Option JumpEntry) :=
  match opcode with
  | .OC_JUMP | .OC_JUMP_IF_ZERO | .OC_JUMP_IF_NON_ZERO => do
    let ju_dstaddr ← packTextloc cf_index (getword text pc)
    entryAt cf_index pc .JT_BRANCH ju_dstaddr (opcode == .OC_JUMP)
  | .OC_RET | .OC_RET_WORD | .OC_RET_STRUCT | .OC_SWITCH_ON_TABLE | .OC_SWITCH_ON_CHAIN _ =>
    entryAt cf_index pc .JT_BRANCH 0 false
  | .OC_CALL _ | .OC_CALL_INDIRECT =>
    if want_calls then entryAt cf_index pc .JT_CALL 0 true else return none
  | _ => return none

/-- The loop of `xc_get_jumps`, up to the end of the list. Offsets are from `cf_text_and_data`. -/
def getJumpsFrom (cf_index : Nat) (text : Nat → BitVec 8) (lim : Nat) (want_calls : Bool) :
    Nat → Nat → Option (List JumpEntry)
  | 0, _ => some []
  | fuel + 1, pc =>
    if pc < lim then do
      let opcode ← opcodeOf (getword text pc)
      let jbuf ← jumpAt cf_index text want_calls opcode (pc + 2)
      let size ← ciOperandSize opcode (getword text (pc + 2))
      let rest ← getJumpsFrom cf_index text lim want_calls fuel (pc + 2 + size)
      return jbuf.toList ++ rest
    else some []

/-- The list without the entry of `JT_END` behind it. -/
def xcGetJumps (cf_index : Nat) (text : Nat → BitVec 8) (pc len : Nat) (want_calls : Bool) :
    Option (List JumpEntry) :=
  getJumpsFrom cf_index text (pc + len) want_calls len pc

/-! ## The control flow of the machine -/

def isJump : Opcode → Bool
  | .OC_JUMP | .OC_JUMP_IF_ZERO | .OC_JUMP_IF_NON_ZERO => true
  | _ => false

/-- The instructions that a list of jumps is about. -/
def isListed (want_calls : Bool) : Opcode → Bool
  | .OC_JUMP | .OC_JUMP_IF_ZERO | .OC_JUMP_IF_NON_ZERO | .OC_SWITCH_ON_TABLE
  | .OC_SWITCH_ON_CHAIN _ | .OC_RET | .OC_RET_WORD | .OC_RET_LONG_LONG | .OC_RET_FLOAT
  | .OC_RET_DOUBLE | .OC_RET_STRUCT => true
  | .OC_CALL _ | .OC_CALL_INDIRECT => want_calls
  | _ => false

/-- The offset at which the machine continues behind a jump that is taken. -/
def takenTo (text : Nat → BitVec 8) (start : Nat) : Int :=
  (start : Int) + 2 + (BitVec.ofNat 16 (getword text (start + 2))).toInt

/-- The entry is about the instruction. -/
def Describes (cf_index : Nat) (text : Nat → BitVec 8) (entry : JumpEntry)
    (instr : Nat × Opcode) : Prop :=
  packTextloc cf_index instr.1 = some entry.ju_addr ∧
    (isJump instr.2 = true → 0 ≤ takenTo text instr.1 ∧
      packTextloc cf_index (takenTo text instr.1).toNat = some entry.ju_dstaddr)

/-- One entry for each of the emitted instructions that are to be listed, in their order. -/
def IsControlFlow (cf_index : Nat) (text : Nat → BitVec 8) (want_calls : Bool)
    (emitted : List (Nat × Opcode)) (jumps : List JumpEntry) : Prop :=
  List.Forall₂ (Describes cf_index text) jumps (emitted.filter fun i => isListed want_calls i.2)

/-- The call emits an instruction that is to be listed. -/
def emitsListed (want_calls : Bool) (e : Emission) : Bool :=
  isListed want_calls (e.opcodeOf (emptyText false))

/-- The jumps that are found in the piece of the text that the calls of `body` emit are those of
the machine. -/
def FindsJumps (checksp : Bool) (before body after : List (Word × Emission)) (cf_index : Nat)
    (beyond : Nat → BitVec 8) (want_calls : Bool) : Prop :=
  let tx := emitAll (emptyText checksp) before
  let tx' := emitAll tx body
  let text := segment (emitAll tx' after) beyond
  let start := tx.tx_text.length
  ∃ jumps, xcGetJumps cf_index text start (tx'.tx_text.length - start) want_calls = some jumps ∧
    IsControlFlow cf_index text want_calls (tx'.emitted.drop tx.emitted.length) jumps

/-! ## The walk -/

section
variable {cf_index lim fuel pc : Nat} {text : Nat → BitVec 8} {want_calls : Bool}
  {i : Instr} {is : List Instr}

/-- The instructions are in the text from an offset on. -/
def Spelled (text : Nat → BitVec 8) (pc : Nat) (is : List Instr) : Prop :=
  ∀ a < (textOf is).length, some (text (pc + a)) = (textOf is)[a]?

theorem Spelled.tail (h : Spelled text pc (i :: is)) : Spelled text (pc + i.bytes.length) is := by
  intro a ha
  have hlen : (textOf (i :: is)).length = i.bytes.length + (textOf is).length := by simp [textOf]
  have hnext := h (i.bytes.length + a) (by omega)
  rw [Nat.add_assoc, hnext]
  simp only [textOf, List.flatMap_cons]
  rw [List.getElem?_append_right (Nat.le_add_right _ _), Nat.add_sub_cancel_left]

/-- The walk reads the opcode. -/
theorem Spelled.opcode (h : Spelled text pc (i :: is)) :
    opcodeOf (getword text pc) = some i.opcode := by
  have hle := num_le i.opcode
  have hlow := h 0 (by simp [textOf, Instr.bytes])
  have hhigh := h 1 (by simp [textOf, Instr.bytes]; omega)
  simp [textOf, Instr.bytes, leBytes] at hlow hhigh
  have hword : getword text pc = i.opcode.num := by
    unfold getword
    rw [hlow, hhigh, BitVec.toNat_ofNat, BitVec.toNat_ofNat]
    omega
  rw [hword]
  exact stack_words.opcodeOf_num i.opcode

theorem length_bytes (i : Instr) : i.bytes.length = 2 + i.operands.length := by
  simp [Instr.bytes]

theorem isSwitch_of_not_listed {op : Opcode} (h : isListed want_calls op = false) :
    isSwitch op = false := by
  cases op with
  | OC_SWITCH_ON_TABLE | OC_SWITCH_ON_CHAIN s => cases h
  | _ => rfl

theorem jumpAt_of_not_listed {op : Opcode} (h : isListed want_calls op = false) :
    jumpAt cf_index text want_calls op pc = some none := by
  cases op with
  | OC_CALL s | OC_CALL_INDIRECT =>
    obtain rfl : want_calls = false := h
    rfl
  | OC_JUMP | OC_JUMP_IF_ZERO | OC_JUMP_IF_NON_ZERO | OC_SWITCH_ON_TABLE | OC_SWITCH_ON_CHAIN s
  | OC_RET | OC_RET_WORD | OC_RET_LONG_LONG | OC_RET_FLOAT | OC_RET_DOUBLE | OC_RET_STRUCT => cases h
  | _ => rfl

/-- The walk passes an instruction that is not to be listed, and keeps in step. -/
theorem getJumpsFrom_pass (h : Spelled text pc (i :: is)) (hpc : pc < lim)
    (hi : isListed want_calls i.opcode = false) :
    getJumpsFrom cf_index text lim want_calls (fuel + 1) pc =
      getJumpsFrom cf_index text lim want_calls fuel (pc + i.bytes.length) := by
  have hsize : ciOperandSize i.opcode (getword text (pc + 2)) = some i.operands.length := by
    rw [ciOperandSize_of_not_switch (isSwitch_of_not_listed hi) _ i.ncase, i.size]
  rw [length_bytes, ← Nat.add_assoc, getJumpsFrom, if_pos hpc, h.opcode]
  simp only [Option.bind_eq_bind, Option.bind_some, jumpAt_of_not_listed hi, hsize]
  cases getJumpsFrom cf_index text lim want_calls fuel (pc + 2 + i.operands.length) with
  | none => rfl
  | some rest => rfl

theorem packTextloc_eq {a p : Nat} (h : packTextloc cf_index a = some p) :
    p = cf_index * 65536 + a := by
  unfold packTextloc at h
  split at h
  · exact (Option.some.inj h).symm
  · cases h

theorem entryAt_addr {ju_type : JumpType} {dst : Nat} {unconditional : Bool} {entry : JumpEntry}
    (h : entryAt cf_index (pc + 2) ju_type dst unconditional = some (some entry)) :
    entry.ju_addr = cf_index * 65536 + (pc + 1) := by
  unfold entryAt at h
  simp only [Option.bind_eq_bind, Option.bind_eq_some_iff] at h
  obtain ⟨addr, haddr, hentry⟩ := h
  cases hentry
  exact packTextloc_eq haddr

/-- An entry is one byte behind the instruction. -/
theorem jumpAt_addr {op : Opcode} {entry : JumpEntry}
    (h : jumpAt cf_index text want_calls op (pc + 2) = some (some entry)) :
    entry.ju_addr = cf_index * 65536 + (pc + 1) := by
  cases op with
  | OC_JUMP | OC_JUMP_IF_ZERO | OC_JUMP_IF_NON_ZERO =>
    obtain ⟨dst, -, hentry⟩ := Option.bind_eq_some_iff.mp h
    exact entryAt_addr hentry
  | OC_RET | OC_RET_WORD | OC_RET_STRUCT | OC_SWITCH_ON_TABLE | OC_SWITCH_ON_CHAIN s =>
    exact entryAt_addr h
  | OC_CALL s | OC_CALL_INDIRECT =>
    simp only [jumpAt] at h
    split at h
    · exact entryAt_addr h
    · cases h
  | _ => cases h

/-- All entries are behind the place where the walk begins. -/
theorem getJumpsFrom_behind {jumps : List JumpEntry}
    (h : getJumpsFrom cf_index text lim want_calls fuel pc = some jumps) :
    ∀ entry ∈ jumps, cf_index * 65536 + pc < entry.ju_addr := by
  induction fuel generalizing pc jumps with
  | zero =>
    cases h
    simp
  | succ fuel ih =>
    rw [getJumpsFrom] at h
    split at h
    · simp only [Option.bind_eq_bind, Option.bind_eq_some_iff] at h
      obtain ⟨op, -, jbuf, hjbuf, size, -, rest, hrest, hjumps⟩ := h
      cases hjumps
      intro entry hentry
      rcases List.mem_append.mp hentry with hhere | hlater
      · obtain rfl : jbuf = some entry := by simpa using hhere
        rw [jumpAt_addr hjbuf]
        omega
      · have := ih hrest entry hlater
        omega
    · cases h
      simp

/-- The walk finds the jumps of the machine in instructions of which none is to be listed, and in
no others. -/
theorem walk_iff (h : Spelled text pc is) (hlim : pc + (textOf is).length = lim)
    (hfuel : lim ≤ pc + fuel) :
    (∃ jumps, getJumpsFrom cf_index text lim want_calls fuel pc = some jumps ∧
      IsControlFlow cf_index text want_calls (startsOf pc is) jumps) ↔
      ∀ i ∈ is, isListed want_calls i.opcode = false := by
  induction is generalizing pc fuel with
  | nil =>
    have hnil : getJumpsFrom cf_index text lim want_calls fuel pc = some [] := by
      obtain rfl : pc = lim := by simpa [textOf] using hlim
      cases fuel <;> simp [getJumpsFrom]
    simp [hnil, IsControlFlow, startsOf]
  | cons i is ih =>
    have hlen : (textOf (i :: is)).length = i.bytes.length + (textOf is).length := by simp [textOf]
    have hbytes := length_bytes i
    obtain ⟨fuel, rfl⟩ : ∃ k, fuel = k + 1 := ⟨fuel - 1, by omega⟩
    by_cases hi : isListed want_calls i.opcode = true
    · -- the entry of the instruction would have to be at its first byte
      refine iff_of_false ?_ fun hnone => ?_
      · rintro ⟨jumps, hjumps, hflow⟩
        simp only [IsControlFlow, startsOf, List.filter_cons, hi, if_true,
          List.forall₂_cons_right_iff] at hflow
        obtain ⟨entry, rest, ⟨haddr, -⟩, -, rfl⟩ := hflow
        have := getJumpsFrom_behind hjumps entry List.mem_cons_self
        have := packTextloc_eq haddr
        omega
      · rw [hnone i List.mem_cons_self] at hi
        cases hi
    · rw [Bool.not_eq_true] at hi
      have hrest := @ih fuel (pc + i.bytes.length) h.tail (by omega) (by omega)
      rw [getJumpsFrom_pass h (by omega) hi]
      simp only [List.forall_mem_cons, hi, true_and, ← hrest]
      simp [IsControlFlow, startsOf, hi]

end

/-! ## What the calls emit -/

section
variable {tx : Text} {want_calls : Bool}

/-- What is to be listed of a call does not depend on the text. -/
theorem isListed_opcodeOf (tx : Text) (e : Emission) :
    isListed want_calls (e.opcodeOf tx) = emitsListed want_calls e := by
  cases e with
  | link used => rfl
  | _ => rfl

theorem emitted_ciCodeOpcode (want_calls : Bool) (tx : Text) (op : Opcode) :
    ∃ checks a, (ciCodeOpcode tx op).emitted = tx.emitted ++ checks ++ [(a, op)] ∧
      ∀ i ∈ checks, isListed want_calls i.2 = false := by
  unfold ciCodeOpcode
  split
  · refine ⟨[(tx.tx_text.length, .OC_CHECK_SP (formFor tx.tx_sp))],
      (codeCheckSp tx).tx_text.length, ?_, by simp [isListed]⟩
    rw [(begins_codeOpcode _ op).emitted, codeCheckSp, (adds_operand _ _ _).emitted,
      (begins_codeOpcode tx _).emitted]
  · refine ⟨[], tx.tx_text.length, ?_, by simp⟩
    rw [(begins_codeOpcode tx op).emitted, List.append_nil]

theorem emitted_emit (want_calls : Bool) (tx : Text) (e : Emission) :
    ∃ l, (emit tx e).emitted = tx.emitted ++ l ∧
      ((∀ i ∈ l, isListed want_calls i.2 = false) ↔ emitsListed want_calls e = false) := by
  obtain ⟨checks, a, hemitted, hchecks⟩ := emitted_ciCodeOpcode want_calls tx (e.opcodeOf tx)
  refine ⟨checks ++ [(a, e.opcodeOf tx)], ?_, ?_⟩
  · rw [(e.adds_operands tx).emitted, hemitted, List.append_assoc]
  · rw [List.forall_mem_append, and_iff_right hchecks]
    simp [isListed_opcodeOf]

/-- A sequence of calls emits an instruction that is to be listed when one of them does. -/
theorem emitted_emitAll (want_calls : Bool) (tx : Text) (es : List (Word × Emission)) :
    ∃ l, (emitAll tx es).emitted = tx.emitted ++ l ∧
      ((∀ i ∈ l, isListed want_calls i.2 = false) ↔
        ∀ e ∈ es, emitsListed want_calls e.2 = false) := by
  induction es generalizing tx with
  | nil => exact ⟨[], by simp [emitAll], by simp⟩
  | cons e es ih =>
    obtain ⟨l, hl, hiff⟩ := emitted_emit want_calls (adjustSp tx e.1) e.2
    obtain ⟨ls, hls, hiffs⟩ := ih (emit (adjustSp tx e.1) e.2)
    refine ⟨l ++ ls, ?_, ?_⟩
    · change (emitAll (emit (adjustSp tx e.1) e.2) es).emitted = _
      rw [hls, hl, List.append_assoc]
      rfl
    · rw [List.forall_mem_append, hiff, hiffs, List.forall_mem_cons]

theorem forall_startsOf (a : Nat) (is : List Instr) :
    (∀ i ∈ startsOf a is, isListed want_calls i.2 = false) ↔
      ∀ i ∈ is, isListed want_calls i.opcode = false := by
  induction is generalizing a with
  | nil => simp [startsOf]
  | cons i is ih => rw [startsOf, List.forall_mem_cons, List.forall_mem_cons, ih]

/-- The instructions that a part of the calls emits are in the text of all. -/
theorem spelled_segment {tx' : Text} {is js ks : List Instr} (h : Spells tx' (is ++ js ++ ks))
    (beyond : Nat → BitVec 8) : Spelled (segment tx' beyond) (textOf is).length js := by
  intro a ha
  have hlen : (textOf (is ++ js ++ ks)).length =
      (textOf is).length + (textOf js).length + (textOf ks).length := by
    simp [textOf, Nat.add_assoc]
  rw [segment_eq h beyond _ (by omega)]
  have htext : textOf (is ++ js ++ ks) = textOf is ++ (textOf js ++ textOf ks) := by simp [textOf]
  rw [htext, List.getElem?_append_right (Nat.le_add_right _ _), Nat.add_sub_cancel_left,
    List.getElem?_append_left ha]

theorem length_startsOf (a : Nat) (is : List Instr) : (startsOf a is).length = is.length := by
  induction is generalizing a with
  | nil => rfl
  | cons i is ih => rw [startsOf, List.length_cons, List.length_cons, ih]

end

/-! ## The law -/

/-- The machine takes a jump to the offset that `takenTo` names. -/
theorem jump_takenTo {m : Machine} {text : Nat → BitVec 8} {start : Nat} {a : Word}
    (hpc : m.pc = a + BitVec.ofNat 64 (start + 2)) (hget : m.get 2 = getword text (start + 2)) :
    m.jump.pc = a + BitVec.ofInt 64 (takenTo text start) := by
  have hstart : ((start + 2 : Nat) : Int) = (start : Int) + 2 := by omega
  unfold takenTo
  rw [Machine.jump, hget, hpc, BitVec.ofInt_add, ← hstart, BitVec.ofInt_natCast, BitVec.add_assoc]

/-- The debugger lists the jumps of the machine in the pieces of the text in which there is
nothing to list, and in no others: each entry is one byte behind its instruction. -/
theorem finds_jumps_iff_there_are_none (checksp : Bool) (before body after : List (Word × Emission))
    (cf_index : Nat) (beyond : Nat → BitVec 8) (want_calls : Bool) :
    FindsJumps checksp before body after cf_index beyond want_calls ↔
      ∀ e ∈ body, emitsListed want_calls e.2 = false := by
  obtain ⟨is, his, -⟩ := emitAll_spells (spells_emptyText checksp) before
  obtain ⟨js, hjs, -⟩ := emitAll_spells his body
  obtain ⟨ks, hks, -⟩ := emitAll_spells hjs after
  obtain ⟨l, hl, hiff⟩ := emitted_emitAll want_calls
    (emitAll (emptyText checksp) before) body
  rw [List.nil_append] at his hjs hks
  have hstarts : (emitAll (emitAll (emptyText checksp) before) body).emitted.drop
      (emitAll (emptyText checksp) before).emitted.length = startsOf (textOf is).length js := by
    rw [hjs.starts, his.starts, startsOf_append, List.drop_left, Nat.zero_add]
  have hdrop : l = startsOf (textOf is).length js := by
    rw [← hstarts, hl, List.drop_left]
  have hlen : (textOf (is ++ js)).length = (textOf is).length + (textOf js).length := by
    simp [textOf]
  rw [← hiff, hdrop, forall_startsOf]
  unfold FindsJumps
  dsimp only
  rw [hstarts, his.text, hjs.text, hlen, Nat.add_sub_cancel_left]
  exact walk_iff (spelled_segment hks beyond) rfl (le_refl _)

set_option maxRecDepth 8000 in
/-- A jump over two bytes is listed at its second byte, and as a jump to offset 2. -/
theorem a_jump_is_listed_one_byte_behind :
    ¬ ∀ checksp before body after cf_index beyond want_calls,
      FindsJumps checksp before body after cf_index beyond want_calls := by
  intro h
  obtain ⟨jumps, hjumps, hflow⟩ := h false [] [(0#64, .jump .JUMP 2#64)] [] 0 (fun _ => 0#8) false
  have hlist : xcGetJumps 0 (segment (emitAll (emptyText false) [(0#64, .jump .JUMP 2#64)])
      fun _ => 0#8) 0 4 false = some [⟨.JT_BRANCH, 1, 2, true⟩] := by decide
  cases hjumps.symm.trans hlist
  obtain ⟨haddr, -⟩ := (List.forall₂_cons.mp hflow).1
  cases haddr

end ups_rules.get_jumps
