-- The emitters of the code generator (ci_opcodes.c and ci_compile.c) and the text segment that a
-- sequence of their calls leaves. An emitter codes an opcode of two bytes and the bytes of its
-- operand; what is patched later, a jump or the stack size of a LINK, is patched in place.
import Ups.NextPc

open le_bytes
open ups_rules.machine
open ups_rules.opcodes
open ups_rules.next_pc

namespace ups_rules.code_text

/-! ## The pure model -/

/-- The text of a compilation (text_t) up to `tx_pc`. -/
structure Text where
  tx_text : List (BitVec 8)
  /-- `tx_flags & CI_CP_CHECKSP` -/
  tx_checksp : Bool
  tx_sp : Word
  tx_max_sp : Word
  /-- Where `ci_code_opcode` emitted an opcode, and which. The source does not keep this. -/
  emitted : List (Nat × Opcode)

def emptyText (checksp : Bool) : Text :=
  { tx_text := [], tx_checksp := checksp, tx_sp := 0#64, tx_max_sp := 0#64, emitted := [] }

def ciCodeByte (tx : Text) (byte : BitVec 8) : Text := { tx with tx_text := tx.tx_text ++ [byte] }

def ciCodeWord (tx : Text) (word : Word) : Text :=
  ciCodeByte (ciCodeByte tx (word.setWidth 8)) ((word >>> 8).setWidth 8)

def ciCodeLong (tx : Text) (l : Word) : Text :=
  ciCodeWord (ciCodeWord tx (l &&& 0xffff#64)) ((l >>> 16) &&& 0xffff#64)

def ciCodeQuad (tx : Text) (q : Word) : Text :=
  ciCodeLong (ciCodeLong tx (q &&& 0xffffffff#64)) ((q >>> 32) &&& 0xffffffff#64)

/-- An operand of size `s`. -/
def codeOperand (tx : Text) : OpSize → Word → Text
  | .B, v => ciCodeByte tx (v.setWidth 8)
  | .W, v => ciCodeWord tx v
  | .L, v => ciCodeLong tx v
  | .Q, v => ciCodeQuad tx v

/-- `oi_stack_effect` for an operation that leaves one operand of two. -/
def numEffect : NumKind → Int
  | .FLOAT => -4
  | _ => -8

/-- `oi_stack_effect` for an operation that leaves a word in place of two operands. -/
def compareEffect : NumKind → Int
  | .FLOAT => -(2 * 4 - 8)
  | _ => -8

def loadNbytes : LoadKind → Int
  | .FLOAT => 4
  | _ => 8

/-- `oi_stack_effect` -/
def stackEffect : Opcode → Int
  | .OC_PROC_MEMCPY _ | .OC_MEMCPY _ => -16
  | .OC_PROC_ASSIGN t | .OC_ASSIGN t => if t = .FLOAT then -12 else -16
  | .OC_PROC_ASSIGN_AND_PUSH _ | .OC_ASSIGN_AND_PUSH _ => -8
  | .OC_PROC_DEREF t | .OC_DEREF t => loadNbytes t - 8
  | .OC_NEG_CONSTPUSH _ | .OC_CONSTPUSH _ => 8
  | .OC_PUSH_FLOAT_CONST => 4
  | .OC_PUSH_DOUBLE_CONST => 8
  | .OC_PROC_PUSH_ADDR _ _ | .OC_PUSH_STACKADDR _ => 8
  | .OC_PUSH_AT_STACKADDR t _ | .OC_PUSH_AT_ADDR t _ => loadNbytes t
  | .OC_INSERT_SIGNED_BITFIELD | .OC_INSERT_UNSIGNED_BITFIELD => -8
  | .OC_RET_WORD | .OC_RET_LONG_LONG | .OC_RET_DOUBLE => -8
  | .OC_RET_FLOAT => -4
  | .OC_PUSH_STRUCTRET_ADDR => 8
  | .OC_MULTI_ARROW => -16
  | .OC_JUMP_IF_NON_ZERO | .OC_JUMP_IF_ZERO => -8
  | .OC_SWITCH_ON_TABLE | .OC_SWITCH_ON_CHAIN _ => -8
  | .OC_PUSH_WORD_RETVAL | .OC_PUSH_LONG_LONG_RETVAL | .OC_PUSH_DOUBLE_RETVAL => 8
  | .OC_PUSH_FLOAT_RETVAL => 4
  | .OC_CALL_INDIRECT => -8
  | .OC_DUP | .OC_RESERVE_SLOT => 8
  | .OC_POP => -8
  | .OC_BITWISE_AND _ | .OC_BITWISE_XOR _ | .OC_BITWISE_OR _ => -8
  | .OC_LSHIFT _ | .OC_RSHIFT _ | .OC_MOD _ => -8
  | .OC_MUL_SIGNED t | .OC_DIV_SIGNED t | .OC_CHKDIV_SIGNED t | .OC_ADD t | .OC_SUB t =>
    numEffect t
  | .OC_IS_EQUAL t | .OC_NOT_EQUAL t | .OC_LESS_SIGNED t | .OC_GREATER_SIGNED t
  | .OC_LESS_OR_EQUAL_SIGNED t | .OC_GREATER_OR_EQUAL_SIGNED t => compareEffect t
  | .OC_MUL_UNSIGNED _ | .OC_DIV_UNSIGNED _ | .OC_CHKDIV_UNSIGNED _ => -8
  | .OC_LESS_UNSIGNED _ | .OC_GREATER_UNSIGNED _ | .OC_LESS_OR_EQUAL_UNSIGNED _
  | .OC_GREATER_OR_EQUAL_UNSIGNED _ => -8
  | .OC_CVT_FLOAT_TO_LONG_LONG | .OC_CVT_FLOAT_TO_DOUBLE | .OC_CVT_FLOAT_TO_LONG
  | .OC_CVT_FLOAT_TO_BOOL => 4
  | .OC_CVT_UNSIGNED_LONG_LONG_TO_FLOAT | .OC_CVT_SIGNED_LONG_LONG_TO_FLOAT
  | .OC_CVT_UNSIGNED_LONG_TO_FLOAT | .OC_CVT_SIGNED_LONG_TO_FLOAT
  | .OC_CVT_DOUBLE_TO_FLOAT => -4
  | _ => 0

/-- `tmpspace` in `ci_code_opcode` -/
def tmpspace : Opcode → Word
  | .OC_CALL _ => 8#64
  | _ => 0#64

/-- `ci_code_opcode` from the second switch on. -/
def codeOpcode (tx : Text) (opcode : Opcode) : Text :=
  let tx_sp := tx.tx_sp + BitVec.ofInt 64 (stackEffect opcode)
  let high := tx_sp + tmpspace opcode
  ciCodeWord { tx with
    tx_sp := tx_sp
    tx_max_sp := if tx.tx_max_sp < high then high else tx.tx_max_sp
    emitted := tx.emitted ++ [(tx.tx_text.length, opcode)] } (BitVec.ofNat 64 opcode.num)

/-- The form of a generic opcode that holds the operand. -/
def formFor (arg : Word) : OpSize :=
  if arg ≤ 0xff#64 then .B
  else if arg ≤ 0xffff#64 then .W
  else if arg ≤ 0xffffffff#64 then .L
  else .Q

/-- The opcodes that no check of the stack pointer comes before. -/
def uncheckedSp : Opcode → Bool
  | .OC_CHECK_SP _ | .OC_TRAP | .OC_NOP | .OC_LINK _ => true
  | _ => false

/-- The call of `ci_code_generic_opcode` in `ci_code_opcode`. A check is not checked itself. -/
def codeCheckSp (tx : Text) : Text :=
  codeOperand (codeOpcode tx (.OC_CHECK_SP (formFor tx.tx_sp))) (formFor tx.tx_sp) tx.tx_sp

def ciCodeOpcode (tx : Text) (opcode : Opcode) : Text :=
  codeOpcode (if tx.tx_checksp && !uncheckedSp opcode then codeCheckSp tx else tx) opcode

def ciCodeGenericOpcode (tx : Text) (opcode : OpSize → Opcode) (arg : Word) : Text :=
  codeOperand (ciCodeOpcode tx (opcode (formFor arg))) (formFor arg) arg

/-! ## The calls of the emitters -/

/-- The opcodes that are coded with an operand of any size and nothing else. -/
inductive Generic where
  | POPMANY | PROC_MEMCPY | MEMCPY | NEG_CONSTPUSH | CONSTPUSH | CHECK_SP | PUSH_STACKADDR
  | PROC_PUSH_ADDR (r : ProcReg)
  | PUSH_AT_STACKADDR (t : LoadKind)
  | PUSH_AT_ADDR (t : LoadKind)

def Generic.form : Generic → OpSize → Opcode
  | .POPMANY => .OC_POPMANY
  | .PROC_MEMCPY => .OC_PROC_MEMCPY
  | .MEMCPY => .OC_MEMCPY
  | .NEG_CONSTPUSH => .OC_NEG_CONSTPUSH
  | .CONSTPUSH => .OC_CONSTPUSH
  | .CHECK_SP => .OC_CHECK_SP
  | .PUSH_STACKADDR => .OC_PUSH_STACKADDR
  | .PROC_PUSH_ADDR r => .OC_PROC_PUSH_ADDR r
  | .PUSH_AT_STACKADDR t => .OC_PUSH_AT_STACKADDR t
  | .PUSH_AT_ADDR t => .OC_PUSH_AT_ADDR t

/-- The opcodes that are coded with a long. -/
inductive WithLong where
  | PUSH_BYTES | PROC_PUSH_BYTES | RESERVE_BYTES | RET_STRUCT
  /-- `LONG_FORM`, for a constant that the loader relocates. -/
  | relocated (g : Generic)

def WithLong.opcode : WithLong → Opcode
  | .PUSH_BYTES => .OC_PUSH_BYTES
  | .PROC_PUSH_BYTES => .OC_PROC_PUSH_BYTES
  | .RESERVE_BYTES => .OC_RESERVE_BYTES
  | .RET_STRUCT => .OC_RET_STRUCT
  | .relocated g => g.form .L

inductive Jump where
  | JUMP | JUMP_IF_NON_ZERO | JUMP_IF_ZERO

def Jump.opcode : Jump → Opcode
  | .JUMP => .OC_JUMP
  | .JUMP_IF_NON_ZERO => .OC_JUMP_IF_NON_ZERO
  | .JUMP_IF_ZERO => .OC_JUMP_IF_ZERO

inductive Bitfield where
  | INSERT_SIGNED | INSERT_UNSIGNED | EXTRACT_SIGNED | EXTRACT_UNSIGNED

def Bitfield.opcode : Bitfield → Opcode
  | .INSERT_SIGNED => .OC_INSERT_SIGNED_BITFIELD
  | .INSERT_UNSIGNED => .OC_INSERT_UNSIGNED_BITFIELD
  | .EXTRACT_SIGNED => .OC_EXTRACT_SIGNED_BITFIELD
  | .EXTRACT_UNSIGNED => .OC_EXTRACT_UNSIGNED_BITFIELD

/-- One call of the compiler for one instruction. The offsets of jumps are those that are left
when the labels are resolved. -/
inductive Emission where
  | opcode (op : Opcode) (h : ciOperandSize op 0 = some 0)
  | generic (g : Generic) (arg : Word)
  | long (o : WithLong) (l : Word)
  | call (func_index : Word) (nargs typecode : BitVec 8)
  | callIndirect (nargs typecode : BitVec 8)
  /-- With `tx_max_sp - savesp` as it is in the end. -/
  | link (used : Word)
  | jump (j : Jump) (offset : Word)
  | switchOnTable (minval : Word) (offsets : List Word) (dflt : Word)
  /-- A case is its value less `minval` and an offset. -/
  | switchOnChain (s : OpSize) (minval : Word) (cases : List (Word × Word)) (dflt : Word)
  | floatConst (f : BitVec 32)
  | doubleConst (d : BitVec 64)
  | bitfield (b : Bitfield) (offset width : BitVec 8)

def codeCase (s : OpSize) (tx : Text) (c : Word × Word) : Text :=
  ciCodeWord (codeOperand tx s c.1) c.2

def emit (tx : Text) : Emission → Text
  | .opcode op _ => ciCodeOpcode tx op
  | .generic g arg => ciCodeGenericOpcode tx g.form arg
  | .long o l => ciCodeLong (ciCodeOpcode tx o.opcode) l
  | .call func_index nargs typecode =>
    ciCodeByte (ciCodeByte (ciCodeGenericOpcode tx .OC_CALL func_index) nargs) typecode
  | .callIndirect nargs typecode =>
    ciCodeByte (ciCodeByte (ciCodeOpcode tx .OC_CALL_INDIRECT) nargs) typecode
  | .link used => ciCodeLong (ciCodeGenericOpcode tx .OC_LINK tx.tx_sp) used
  | .jump j offset => ciCodeWord (ciCodeOpcode tx j.opcode) offset
  | .switchOnTable minval offsets dflt =>
    let tx := ciCodeWord (ciCodeOpcode tx .OC_SWITCH_ON_TABLE) (BitVec.ofNat 64 offsets.length)
    ciCodeWord (offsets.foldl ciCodeWord (ciCodeLong tx minval)) dflt
  | .switchOnChain s minval cases dflt =>
    let tx := ciCodeWord (ciCodeOpcode tx (.OC_SWITCH_ON_CHAIN s)) (BitVec.ofNat 64 cases.length)
    ciCodeWord (cases.foldl (codeCase s) (ciCodeLong tx minval)) dflt
  | .floatConst f => (leBytes 4 f.toNat).foldl ciCodeByte (ciCodeOpcode tx .OC_PUSH_FLOAT_CONST)
  | .doubleConst d =>
    (leBytes 8 d.toNat).foldl ciCodeByte (ciCodeOpcode tx .OC_PUSH_DOUBLE_CONST)
  | .bitfield b offset width => ciCodeByte (ciCodeByte (ciCodeOpcode tx b.opcode) offset) width

/-- `tx->tx_sp += n`, as the compiler does by hand. -/
def adjustSp (tx : Text) (n : Word) : Text := { tx with tx_sp := tx.tx_sp + n }

/-- A sequence of calls, each with what the compiler adds to `tx_sp` before it. -/
def emitAll (tx : Text) (es : List (Word × Emission)) : Text :=
  es.foldl (fun tx e => emit (adjustSp tx e.1) e.2) tx

/-! ## Instructions -/

/-- A switch counts its cases in the first word of its operand. -/
def isSwitch : Opcode → Bool
  | .OC_SWITCH_ON_TABLE | .OC_SWITCH_ON_CHAIN _ => true
  | _ => false

/-- An opcode with the bytes of its operand; `ncase` is the number of cases of a switch. -/
structure Instr where
  opcode : Opcode
  operands : List (BitVec 8)
  ncase : Nat
  size : ciOperandSize opcode ncase = some operands.length
  count : isSwitch opcode = true → operands.take 2 = leBytes 2 ncase

def Instr.bytes (i : Instr) : List (BitVec 8) := leBytes 2 i.opcode.num ++ i.operands

def textOf (is : List Instr) : List (BitVec 8) := is.flatMap Instr.bytes

/-- The addresses of the instructions of a text that begins at `a`. -/
def startsOf (a : Nat) : List Instr → List (Nat × Opcode)
  | [] => []
  | i :: is => (a, i.opcode) :: startsOf (a + i.bytes.length) is

/-- The text consists of the instructions, and an opcode was emitted at the start of each. -/
structure Spells (tx : Text) (is : List Instr) : Prop where
  text : tx.tx_text = textOf is
  starts : tx.emitted = startsOf 0 is

/-! ## Bytes -/

/-- The text and the emitted opcodes grow by bytes that are no opcode. -/
structure Adds (tx tx' : Text) (bs : List (BitVec 8)) : Prop where
  text : tx'.tx_text = tx.tx_text ++ bs
  emitted : tx'.emitted = tx.emitted

section
variable {tx tx' tx'' : Text} {bs bs' : List (BitVec 8)}

theorem Adds.refl (tx : Text) : Adds tx tx [] := ⟨by simp, rfl⟩

theorem Adds.trans (h : Adds tx tx' bs) (h' : Adds tx' tx'' bs') : Adds tx tx'' (bs ++ bs') :=
  ⟨by rw [h'.text, h.text, List.append_assoc], h'.emitted.trans h.emitted⟩

theorem adds_byte (tx : Text) (b : BitVec 8) : Adds tx (ciCodeByte tx b) [b] := ⟨rfl, rfl⟩

theorem adds_word (tx : Text) (v : Word) : Adds tx (ciCodeWord tx v) (leBytes 2 v.toNat) := by
  have hbytes : leBytes 2 v.toNat = [v.setWidth 8] ++ [(v >>> 8).setWidth 8] := by
    have hhigh : v.toNat / 256 = (v >>> 8).toNat := by simp [Nat.shiftRight_eq_div_pow]
    rw [leBytes, leBytes, leBytes, hhigh, BitVec.ofNat_toNat, BitVec.ofNat_toNat]
    rfl
  rw [hbytes]
  exact (adds_byte tx _).trans (adds_byte _ _)

/-- Little-endian bytes only depend on the part of the number that they hold. -/
theorem leBytes_mod (n v : Nat) : leBytes n (v % 256 ^ n) = leBytes n v := by
  have h := leBytes_ofLeBytes (leBytes n v)
  rwa [length_leBytes, ofLeBytes_leBytes] at h

theorem leBytes_add (n k v : Nat) : leBytes (n + k) v = leBytes n v ++ leBytes k (v / 256 ^ n) := by
  induction n generalizing v with
  | zero => simp [leBytes]
  | succ n ih =>
    have hdiv : v / 256 / 256 ^ n = v / 256 ^ (n + 1) := by
      rw [Nat.div_div_eq_div_mul, Nat.pow_succ, Nat.mul_comm 256]
    rw [Nat.add_right_comm, leBytes, ih, hdiv]
    rfl

theorem adds_long (tx : Text) (v : Word) : Adds tx (ciCodeLong tx v) (leBytes 4 v.toNat) := by
  have hlow : (v &&& 0xffff#64).toNat = v.toNat % 256 ^ 2 := by
    rw [BitVec.toNat_and]
    exact Nat.and_two_pow_sub_one_eq_mod v.toNat 16
  have hhigh : ((v >>> 16) &&& 0xffff#64).toNat = v.toNat / 256 ^ 2 % 256 ^ 2 := by
    rw [BitVec.toNat_and, BitVec.toNat_ushiftRight, Nat.shiftRight_eq_div_pow]
    exact Nat.and_two_pow_sub_one_eq_mod _ 16
  have h := (adds_word tx (v &&& 0xffff#64)).trans (adds_word _ ((v >>> 16) &&& 0xffff#64))
  rwa [hlow, hhigh, leBytes_mod, leBytes_mod, ← leBytes_add] at h

theorem adds_quad (tx : Text) (v : Word) : Adds tx (ciCodeQuad tx v) (leBytes 8 v.toNat) := by
  have hlow : (v &&& 0xffffffff#64).toNat = v.toNat % 256 ^ 4 := by
    rw [BitVec.toNat_and]
    exact Nat.and_two_pow_sub_one_eq_mod v.toNat 32
  have hhigh : ((v >>> 32) &&& 0xffffffff#64).toNat = v.toNat / 256 ^ 4 % 256 ^ 4 := by
    rw [BitVec.toNat_and, BitVec.toNat_ushiftRight, Nat.shiftRight_eq_div_pow]
    exact Nat.and_two_pow_sub_one_eq_mod _ 32
  have h := (adds_long tx (v &&& 0xffffffff#64)).trans (adds_long _ ((v >>> 32) &&& 0xffffffff#64))
  rwa [hlow, hhigh, leBytes_mod, leBytes_mod, ← leBytes_add] at h

theorem adds_operand (tx : Text) (s : OpSize) (v : Word) :
    Adds tx (codeOperand tx s v) (leBytes s.nbytes v.toNat) := by
  cases s with
  | B =>
    have hbyte : leBytes 1 v.toNat = [v.setWidth 8] := by simp [leBytes]
    rw [OpSize.nbytes, hbyte]
    exact adds_byte tx _
  | W => exact adds_word tx v
  | L => exact adds_long tx v
  | Q => exact adds_quad tx v

theorem adds_foldl {α : Type} {f : Text → α → Text} {g : α → List (BitVec 8)}
    (hf : ∀ tx x, Adds tx (f tx x) (g x)) (xs : List α) (tx : Text) :
    Adds tx (xs.foldl f tx) (xs.flatMap g) := by
  induction xs generalizing tx with
  | nil => exact Adds.refl tx
  | cons x xs ih => simpa using (hf tx x).trans (ih (f tx x))

theorem adds_bytes (tx : Text) (bs : List (BitVec 8)) : Adds tx (bs.foldl ciCodeByte tx) bs := by
  simpa using adds_foldl adds_byte bs tx

/-! ## Emitted instructions -/

/-- The text grows by an opcode. -/
structure Begins (tx tx' : Text) (op : Opcode) : Prop where
  text : tx'.tx_text = tx.tx_text ++ leBytes 2 op.num
  emitted : tx'.emitted = tx.emitted ++ [(tx.tx_text.length, op)]

set_option maxRecDepth 8000 in
theorem num_le (op : Opcode) : op.num ≤ 400 := by
  have hlen : opcodeTable.length ≤ 400 := by decide
  exact le_trans List.idxOf_le_length hlen

theorem begins_codeOpcode (tx : Text) (op : Opcode) : Begins tx (codeOpcode tx op) op := by
  have hle := num_le op
  have hnum : (BitVec.ofNat 64 op.num).toNat = op.num := by
    rw [BitVec.toNat_ofNat]
    exact Nat.mod_eq_of_lt (by omega)
  unfold codeOpcode
  dsimp only
  refine ⟨?_, ?_⟩
  · rw [(adds_word _ _).text, hnum]
  · rw [(adds_word _ _).emitted]

theorem startsOf_append (a : Nat) (is js : List Instr) :
    startsOf a (is ++ js) = startsOf a is ++ startsOf (a + (textOf is).length) js := by
  induction is generalizing a with
  | nil => simp [startsOf, textOf]
  | cons i is ih => simp [startsOf, textOf, ih, Nat.add_assoc]

/-- An instruction is an opcode and then the bytes of its operand. -/
theorem Spells.append {is : List Instr} (h : Spells tx is) (i : Instr)
    (hop : Begins tx tx' i.opcode) (hadd : Adds tx' tx'' i.operands) :
    Spells tx'' (is ++ [i]) := by
  refine ⟨?_, ?_⟩
  · rw [hadd.text, hop.text, h.text]
    simp [textOf, Instr.bytes]
  · rw [hadd.emitted, hop.emitted, h.starts, startsOf_append, h.text]
    simp [startsOf]

theorem spells_emptyText (checksp : Bool) : Spells (emptyText checksp) [] := ⟨rfl, rfl⟩

theorem Spells.adjustSp {is : List Instr} (h : Spells tx is) (n : Word) :
    Spells (adjustSp tx n) is := ⟨h.text, h.starts⟩

end

/-! ## What a call emits -/

namespace Emission

def opcodeOf (tx : Text) : Emission → Opcode
  | .opcode op _ => op
  | .generic g arg => g.form (formFor arg)
  | .long o _ => o.opcode
  | .call func_index _ _ => .OC_CALL (formFor func_index)
  | .callIndirect _ _ => .OC_CALL_INDIRECT
  | .link _ => .OC_LINK (formFor tx.tx_sp)
  | .jump j _ => j.opcode
  | .switchOnTable _ _ _ => .OC_SWITCH_ON_TABLE
  | .switchOnChain s _ _ _ => .OC_SWITCH_ON_CHAIN s
  | .floatConst _ => .OC_PUSH_FLOAT_CONST
  | .doubleConst _ => .OC_PUSH_DOUBLE_CONST
  | .bitfield b _ _ => b.opcode

def caseBytes (s : OpSize) (c : Word × Word) : List (BitVec 8) :=
  leBytes s.nbytes c.1.toNat ++ leBytes 2 c.2.toNat

def operands (tx : Text) : Emission → List (BitVec 8)
  | .opcode _ _ => []
  | .generic _ arg => leBytes (formFor arg).nbytes arg.toNat
  | .long _ l => leBytes 4 l.toNat
  | .call func_index nargs typecode =>
    leBytes (formFor func_index).nbytes func_index.toNat ++ [nargs] ++ [typecode]
  | .callIndirect nargs typecode => [nargs] ++ [typecode]
  | .link used => leBytes (formFor tx.tx_sp).nbytes tx.tx_sp.toNat ++ leBytes 4 used.toNat
  | .jump _ offset => leBytes 2 offset.toNat
  | .switchOnTable minval offsets dflt =>
    leBytes 2 (BitVec.ofNat 64 offsets.length).toNat ++ leBytes 4 minval.toNat ++
      offsets.flatMap (fun o => leBytes 2 o.toNat) ++ leBytes 2 dflt.toNat
  | .switchOnChain s minval cases dflt =>
    leBytes 2 (BitVec.ofNat 64 cases.length).toNat ++ leBytes 4 minval.toNat ++
      cases.flatMap (caseBytes s) ++ leBytes 2 dflt.toNat
  | .floatConst f => leBytes 4 f.toNat
  | .doubleConst d => leBytes 8 d.toNat
  | .bitfield _ offset width => [offset] ++ [width]

/-- The number of cases, of a switch. -/
def cases : Emission → Option Nat
  | .switchOnTable _ offsets _ => some offsets.length
  | .switchOnChain _ _ cases _ => some cases.length
  | _ => none

/-- An emitter codes its opcode and then the operand. -/
theorem adds_operands (tx : Text) (e : Emission) :
    Adds (ciCodeOpcode tx (e.opcodeOf tx)) (emit tx e) (e.operands tx) := by
  cases e with
  | opcode op h => exact Adds.refl _
  | generic g arg => exact adds_operand _ _ _
  | long o l => exact adds_long _ _
  | call func_index nargs typecode =>
    exact ((adds_operand _ _ _).trans (adds_byte _ _)).trans (adds_byte _ _)
  | callIndirect nargs typecode => exact (adds_byte _ _).trans (adds_byte _ _)
  | link used => exact (adds_operand _ _ _).trans (adds_long _ _)
  | jump j offset => exact adds_word _ _
  | switchOnTable minval offsets dflt =>
    exact (((adds_word _ _).trans (adds_long _ _)).trans (adds_foldl adds_word _ _)).trans
      (adds_word _ _)
  | switchOnChain s minval cases dflt =>
    have hcase : ∀ tx c, Adds tx (codeCase s tx c) (caseBytes s c) := fun tx c =>
      (adds_operand _ _ _).trans (adds_word _ _)
    exact (((adds_word _ _).trans (adds_long _ _)).trans (adds_foldl hcase _ _)).trans
      (adds_word _ _)
  | floatConst f => exact adds_bytes _ _
  | doubleConst d => exact adds_bytes _ _
  | bitfield b offset width => exact (adds_byte _ _).trans (adds_byte _ _)

theorem length_flatMap_const {α : Type} (f : α → List (BitVec 8)) (k : Nat)
    (hf : ∀ x, (f x).length = k) (xs : List α) : (xs.flatMap f).length = xs.length * k := by
  induction xs with
  | nil => simp
  | cons x xs ih => simp [hf, ih, Nat.add_mul, Nat.add_comm]

theorem isSwitch_iff (tx : Text) (e : Emission) :
    isSwitch (e.opcodeOf tx) = e.cases.isSome := by
  cases e with
  | opcode op h =>
    cases op with
    | OC_SWITCH_ON_TABLE | OC_SWITCH_ON_CHAIN s => simp [ciOperandSize] at h
    | _ => rfl
  | generic g arg => cases g <;> rfl
  | long o l =>
    cases o with
    | relocated g => cases g <;> rfl
    | _ => rfl
  | jump j offset => cases j <;> rfl
  | bitfield b offset width => cases b <;> rfl
  | _ => rfl

/-- The operand has the size that the disassembler counts on. -/
theorem operand_size (tx : Text) (e : Emission) :
    ciOperandSize (e.opcodeOf tx) (e.cases.getD 0) = some (e.operands tx).length := by
  cases e with
  | opcode op h => exact h
  | generic g arg => cases g <;> simp [opcodeOf, operands, Generic.form, ciOperandSize]
  | long o l =>
    cases o with
    | relocated g =>
      cases g <;> simp [opcodeOf, operands, WithLong.opcode, Generic.form, ciOperandSize,
        OpSize.nbytes]
    | _ => simp [opcodeOf, operands, WithLong.opcode, ciOperandSize]
  | jump j offset => cases j <;> simp [opcodeOf, operands, Jump.opcode, ciOperandSize]
  | bitfield b offset width =>
    cases b <;> simp [opcodeOf, operands, Bitfield.opcode, ciOperandSize]
  | switchOnTable minval offsets dflt =>
    have hlen := length_flatMap_const (fun o : Word => leBytes 2 o.toNat) 2 (by simp) offsets
    simp [opcodeOf, operands, ciOperandSize, cases, hlen]
    omega
  | switchOnChain s minval cases dflt =>
    have hlen := length_flatMap_const (caseBytes s) (s.nbytes + 2) (by simp [caseBytes]) cases
    simp [opcodeOf, operands, ciOperandSize, Emission.cases, hlen]
    omega
  | _ => simp [opcodeOf, operands, ciOperandSize, OpSize.nbytes]

theorem operand_count (tx : Text) (e : Emission) (h : isSwitch (e.opcodeOf tx) = true) :
    (e.operands tx).take 2 = leBytes 2 (e.cases.getD 0) := by
  have hcount : ∀ n : Nat, leBytes 2 (n % 2 ^ 64) = leBytes 2 n := fun n => by
    rw [← leBytes_mod 2 (n % 2 ^ 64), ← leBytes_mod 2 n]
    congr 1
    omega
  cases e with
  | switchOnTable minval offsets dflt => simpa [operands, cases] using hcount offsets.length
  | switchOnChain s minval cases dflt =>
    simpa [operands, Emission.cases] using hcount cases.length
  | _ => simp [isSwitch_iff, cases] at h

def instr (tx : Text) (e : Emission) : Instr where
  opcode := e.opcodeOf tx
  operands := e.operands tx
  ncase := e.cases.getD 0
  size := e.operand_size tx
  count := e.operand_count tx

end Emission

/-! ## What a sequence of calls emits -/

/-- `ci_code_opcode` codes nothing but the opcode, and a check of the stack pointer before it. -/
theorem ciCodeOpcode_begins {tx : Text} {is : List Instr} (h : Spells tx is) (op : Opcode) :
    ∃ checks tx', Spells tx' (is ++ checks) ∧ Begins tx' (ciCodeOpcode tx op) op ∧
      (checks = [] ↔ tx.tx_checksp = false ∨ uncheckedSp op = true) := by
  unfold ciCodeOpcode
  by_cases hc : (tx.tx_checksp && !uncheckedSp op) = true
  · let check : Instr := {
      opcode := .OC_CHECK_SP (formFor tx.tx_sp)
      operands := leBytes (formFor tx.tx_sp).nbytes tx.tx_sp.toNat
      ncase := 0
      size := by simp [ciOperandSize]
      count := by simp [isSwitch] }
    have hcheck := h.append check (begins_codeOpcode tx _) (adds_operand _ _ _)
    rw [if_pos hc]
    refine ⟨[check], codeCheckSp tx, hcheck, begins_codeOpcode _ _, ?_⟩
    simp_all
  · rw [if_neg hc]
    refine ⟨[], tx, by simpa using h, begins_codeOpcode _ _, ?_⟩
    simp_all [imp_iff_not_or]

/-- Each call adds one instruction, and a check of the stack pointer before it. -/
theorem emit_spells {tx : Text} {is : List Instr} (h : Spells tx is) (e : Emission) :
    ∃ checks, Spells (emit tx e) (is ++ checks ++ [e.instr tx]) ∧
      (checks = [] ↔ tx.tx_checksp = false ∨ uncheckedSp (e.opcodeOf tx) = true) := by
  obtain ⟨checks, tx', hspells, hbegins, hchecks⟩ := ciCodeOpcode_begins h (e.opcodeOf tx)
  exact ⟨checks, hspells.append (e.instr tx) hbegins (e.adds_operands tx), hchecks⟩

end ups_rules.code_text
