-- The state of the virtual machine (xc_machine.h) and what its instructions do to the stack,
-- the memory and the text pointer. The text is kept apart from the memory: an instruction only
-- reads it, and only loading a file changes it.
import Mathlib.Data.List.Basic
import Ups.LeBytes
import Ups.LinkInfo

open le_bytes

namespace ups_rules.machine

/-! ## The pure model -/

/-- A stackword_t, and also an address. -/
abbrev Word := BitVec 64

inductive ExecResult where
  | CI_ER_CONTINUE | CI_ER_EXITED | CI_ER_TRAP | CI_ER_LOADFAULT | CI_ER_READDATA_FAILED
  | CI_ER_WRITEDATA_FAILED | CI_ER_INDIRECT_CALL_FAILED | CI_ER_STACK_OVERFLOW
  | CI_ER_DIVISION_BY_ZERO | CI_ER_ARITHMETIC_EXCEPTION | CI_ER_BAD_MA_COUNT | CI_ER_MEM_BAD
  | CI_ER_MEM_OVERRUN | CI_ER_MEM_FREED | CI_ER_USER1 | CI_ER_USER2 | CI_ER_USER3
deriving DecidableEq

/-- A reference to a function of another file. The null file is 0. -/
structure ExtRef where
  er_file : Word
  er_indirect : Bool
  er_addr : Word

/-- A file of the program. Its two tables are indexed by the operand of a call. -/
structure Codefile where
  cf_funcrefs : Int → ExtRef
  cf_varaddrs : Int → Word
  cf_loaded : Bool
  cf_text_and_data : Word
  cf_text_size : Word
  cf_data_size : Word
  cf_bss_size : Word
  cf_funcaddrs : Int → Word

/-- `sizeof(codefile_t)` -/
def codefileSize : Nat := 120

/-- What the files of the program have in memory. -/
structure Image where
  text : Mem 64
  mem : Mem 64
  files : Word → Codefile

/-- The machine between two instructions: the registers that `ci_execute_machine` copies from
`ma`, the memory, and what it has written to the debugged process. -/
structure Machine extends Image where
  pc : Word
  sp : Word
  fp : Word
  cf : Word
  retval : Word
  written : List (Word × List (BitVec 8))

/-- What a call that leaves the machine gives back. -/
structure CallEffect where
  res : ExecResult
  retval : Word
  mem : Mem 64
  written : List (Word × List (BitVec 8))

inductive Arith where
  | add | sub | mul | div
deriving DecidableEq

inductive Compare where
  | eq | ne | lt | gt | le | ge
deriving DecidableEq

/-- The floating point arithmetic of the host, on the bytes of a float or a double. -/
structure FloatArith (w : Nat) where
  neg : BitVec w → BitVec w
  arith : Arith → BitVec w → BitVec w → BitVec w
  isZero : BitVec w → Bool
  compare : Compare → BitVec w → BitVec w → Bool
  ofSigned : Word → BitVec w
  ofUnsigned : Word → BitVec w
  /-- To a long long. -/
  toSigned : BitVec w → Word
  /-- To an unsigned long. -/
  toUnsigned : BitVec w → Word

/-- What one call of `ci_execute_machine` does not change. -/
structure Env where
  procfp : Word
  procap : Word
  procsp : Word
  proccfa : Word
  mindata : Word
  maxdata : Word
  minsp : Word
  maxsp : Word
  cftab : Word
  /-- What the debugged process has at an address, after what was written to it. -/
  readproc : List (Word × List (BitVec 8)) → Word → (n : Nat) → Option (Vector (BitVec 8) n)
  writeproc : List (Word × List (BitVec 8)) → Word → List (BitVec 8) → Bool
  loadfunc : Word → Image → Option Image
  /-- A function of the interpreter's library, by its place in `libfuncs`. -/
  libfunc : Word → List Word → BitVec 8 → Machine → CallEffect
  indirect_call_proc : Word → Nat → BitVec 8 → Machine → CallEffect
  float : FloatArith 32
  double : FloatArith 64
  floatToDouble : BitVec 32 → BitVec 64
  doubleToFloat : BitVec 64 → BitVec 32
  /-- The upper half of a union that only had a float stored in it. -/
  stale : Machine → BitVec 32

inductive Outcome where
  | next (m : Machine)
  | quit (res : ExecResult) (m : Machine)
  | panic

/-! ## Memory -/

/-- The `n` bytes at `a` as a number. -/
@[irreducible] def load (mem : Mem 64) (a : Word) (n : Nat) : Nat := ofLeBytes (readBytes mem a n)

def loadWord (mem : Mem 64) (a : Word) : Word := BitVec.ofNat 64 (load mem a 8)

/-- Stores the low `n` bytes of `v` at `a`. -/
@[irreducible] def store (mem : Mem 64) (a : Word) (n : Nat) (v : Word) : Mem 64 :=
  writeBytes mem a (leBytes n v.toNat)

/-- `memcpy`, of ranges that are the same or apart. -/
@[irreducible] def copyBytes (mem : Mem 64) (dst src : Word) (n : Nat) : Mem 64 :=
  writeBytes mem dst (readBytes mem src n)

/-- The value of a signed variable of `n` bytes once `v` is assigned to it. -/
def signedOf (n : Nat) (v : Word) : Word := (v.setWidth (8 * n)).signExtend 64

/-- The value of an unsigned variable of `n` bytes once `v` is assigned to it. -/
def unsignedOf (n : Nat) (v : Word) : Word := (v.setWidth (8 * n)).setWidth 64

/-- The byte `i` of a word. -/
def byteOf (v : Word) (i : Nat) : BitVec 8 := BitVec.ofNat 8 (v.toNat / 256 ^ i)

/-! ## The machine -/

/-- `n` stack words, in bytes. -/
def words (n : Nat) : Word := BitVec.ofNat 64 (8 * n)

/-- `sp[i]` -/
def Machine.slot (m : Machine) (i : Nat) : Word := loadWord m.mem (m.sp + words i)

/-- `sp[i] = v` -/
def Machine.setSlot (m : Machine) (i : Nat) (v : Word) : Machine :=
  { m with mem := store m.mem (m.sp + words i) 8 v }

/-- `sp += n` -/
def Machine.addSp (m : Machine) (n : Nat) : Machine := { m with sp := m.sp + words n }

/-- `sp -= n` -/
def Machine.subSp (m : Machine) (n : Nat) : Machine := { m with sp := m.sp - words n }

def Machine.push (m : Machine) (v : Word) : Machine := (m.subSp 1).setSlot 0 v

/-- `POP(sp)` is `m.slot 0` in the machine `m`, and this one goes on from there. -/
def Machine.pop (m : Machine) : Machine := m.addSp 1

/-- `pc += n` -/
def Machine.skip (m : Machine) (n : Nat) : Machine := { m with pc := m.pc + BitVec.ofNat 64 n }

/-- The number in the `n` bytes at `pc`, as `*pc`, `GETWORD`, `GETLONG` and `GETQUAD` read it. -/
def Machine.get (m : Machine) (n : Nat) : Nat := load m.text m.pc n

/-- `pc += (short)GETWORD(pc)` -/
def Machine.jump (m : Machine) : Machine :=
  { m with pc := m.pc + BitVec.ofInt 64 (BitVec.ofNat 16 (m.get 2)).toInt }

/-- A number as a C int. -/
def toCInt (v : Word) : Int := (v.setWidth 32).toInt

/-- `IS_CI_ADDR` -/
def Env.isCiAddr (env : Env) (a : Word) : Bool :=
  (decide (env.mindata ≤ a) && decide (a < env.maxdata)) ||
  (decide (env.minsp ≤ a) && decide (a < env.maxsp))

/-- Replaces the words of the two top slots by one. -/
def Machine.binop (m : Machine) (f : Word → Word → Word) : Machine :=
  (m.setSlot 1 (f (m.slot 1) (m.slot 0))).addSp 1

def Machine.unop (m : Machine) (f : Word → Word) : Machine := m.setSlot 0 (f (m.slot 0))

/-! ## Loads and stores -/

theorem store_apply (mem : Mem 64) (a x v : Word) (n : Nat) (hn : n ≤ 8) :
    store mem a n v x = if (x - a).toNat < n then byteOf v (x - a).toNat else mem x := by
  unfold store
  rw [writeBytes_apply _ _ _ _ (by rw [length_leBytes]; omega)]
  split
  case isTrue h =>
    rw [List.getElem?_eq_getElem (by rw [length_leBytes]; exact h), Option.getD_some,
      getElem_leBytes]
    rfl
  case isFalse h =>
    rw [List.getElem?_eq_none (by rw [length_leBytes]; omega), Option.getD_none]

theorem add_ofNat_sub_toNat (a : Word) (i : Nat) (hi : i < 2 ^ 64) :
    (a + BitVec.ofNat 64 i - a).toNat = i := by
  rw [BitVec.add_comm, BitVec.add_sub_cancel, BitVec.toNat_ofNat, Nat.mod_eq_of_lt hi]

theorem load_store (mem : Mem 64) (a v : Word) (n : Nat) (hn : n ≤ 8) :
    load (store mem a n v) a n = v.toNat % 256 ^ n := by
  unfold load store
  have h := readBytes_writeBytes mem a (leBytes n v.toNat) (by rw [length_leBytes]; omega)
  rw [length_leBytes] at h
  rw [h, ofLeBytes_leBytes]

@[simp] theorem loadWord_store (mem : Mem 64) (a v : Word) :
    loadWord (store mem a 8 v) a = v := by
  unfold loadWord
  rw [load_store _ _ _ _ (Nat.le_refl 8)]
  apply BitVec.eq_of_toNat_eq
  rw [BitVec.toNat_ofNat]
  have := v.isLt
  omega

theorem loadWord_store_of_apart (mem : Mem 64) (a b v : Word) (h : Apart a 8 b 8) :
    loadWord (store mem a 8 v) b = loadWord mem b := by
  unfold loadWord load store
  rw [readBytes_writeBytes_of_apart _ _ _ _ _ (by simpa using h)]

/-- Two slots of a stack that is not larger than the memory. -/
theorem apart_slots (sp : Word) {i j : Nat} (h : i ≠ j) (hi : i < 2 ^ 60) (hj : j < 2 ^ 60) :
    Apart (sp + words i) 8 (sp + words j) 8 := by
  have hsub : (sp + words j - (sp + words i)).toNat = (words j - words i).toNat := by
    congr 1
    bv_omega
  have hwi : (words i).toNat = 8 * i := by
    unfold words
    rw [BitVec.toNat_ofNat]
    omega
  have hwj : (words j).toNat = 8 * j := by
    unfold words
    rw [BitVec.toNat_ofNat]
    omega
  apply apart_of_le
  · rw [hsub, BitVec.toNat_sub, hwi, hwj]
    omega
  · rw [hsub, BitVec.toNat_sub, hwi, hwj]
    omega

theorem load_lt (mem : Mem 64) (a : Word) (n : Nat) : load mem a n < 256 ^ n := by
  unfold load
  have h := ofLeBytes_lt (readBytes mem a n)
  rwa [length_readBytes] at h

/-- Two words are the same when their bytes are. -/
theorem eq_of_byteOf {v w : Word} (h : ∀ i < 8, byteOf v i = byteOf w i) : v = w := by
  apply BitVec.eq_of_toNat_eq
  have key : leBytes 8 v.toNat = leBytes 8 w.toNat := by
    apply List.ext_getElem
    · simp
    · intro i hi _
      rw [getElem_leBytes, getElem_leBytes]
      rw [length_leBytes] at hi
      exact h i hi
  have hv := ofLeBytes_leBytes 8 v.toNat
  rw [key, ofLeBytes_leBytes] at hv
  have := v.isLt
  have := w.isLt
  omega

theorem byteOf_loadWord (mem : Mem 64) (a : Word) (i : Nat) (hi : i < 8) :
    byteOf (loadWord mem a) i = mem (a + BitVec.ofNat 64 i) := by
  have hlen : (readBytes mem a 8).length = 8 := length_readBytes mem a 8
  have hle := leBytes_ofLeBytes (readBytes mem a 8)
  rw [hlen] at hle
  have hget : (leBytes 8 (ofLeBytes (readBytes mem a 8)))[i]?
      = some (mem (a + BitVec.ofNat 64 i)) := by
    rw [hle]
    simp [readBytes, hi]
  rw [List.getElem?_eq_getElem (by rw [length_leBytes]; exact hi), getElem_leBytes] at hget
  unfold byteOf loadWord load
  have hlt := ofLeBytes_lt (readBytes mem a 8)
  rw [hlen] at hlt
  rw [BitVec.toNat_ofNat, Nat.mod_eq_of_lt (by omega)]
  exact Option.some.inj hget

/-! ## What the moves leave alone -/

section
variable (m : Machine) (i j : Nat) (v : Word) (f : Word → Word) (g : Word → Word → Word)

@[simp] theorem setSlot_pc : (m.setSlot i v).pc = m.pc := rfl
@[simp] theorem setSlot_sp : (m.setSlot i v).sp = m.sp := rfl
@[simp] theorem setSlot_fp : (m.setSlot i v).fp = m.fp := rfl
@[simp] theorem setSlot_cf : (m.setSlot i v).cf = m.cf := rfl
@[simp] theorem setSlot_mem : (m.setSlot i v).mem = store m.mem (m.sp + words i) 8 v := rfl
@[simp] theorem setSlot_text : (m.setSlot i v).text = m.text := rfl
@[simp] theorem setSlot_files : (m.setSlot i v).files = m.files := rfl
@[simp] theorem addSp_pc : (m.addSp i).pc = m.pc := rfl
@[simp] theorem addSp_sp : (m.addSp i).sp = m.sp + words i := rfl
@[simp] theorem addSp_fp : (m.addSp i).fp = m.fp := rfl
@[simp] theorem addSp_cf : (m.addSp i).cf = m.cf := rfl
@[simp] theorem addSp_mem : (m.addSp i).mem = m.mem := rfl
@[simp] theorem addSp_text : (m.addSp i).text = m.text := rfl
@[simp] theorem addSp_files : (m.addSp i).files = m.files := rfl
@[simp] theorem subSp_pc : (m.subSp i).pc = m.pc := rfl
@[simp] theorem subSp_sp : (m.subSp i).sp = m.sp - words i := rfl
@[simp] theorem subSp_fp : (m.subSp i).fp = m.fp := rfl
@[simp] theorem subSp_cf : (m.subSp i).cf = m.cf := rfl
@[simp] theorem subSp_mem : (m.subSp i).mem = m.mem := rfl
@[simp] theorem subSp_text : (m.subSp i).text = m.text := rfl
@[simp] theorem subSp_files : (m.subSp i).files = m.files := rfl
@[simp] theorem push_pc : (m.push v).pc = m.pc := rfl
@[simp] theorem push_sp : (m.push v).sp = m.sp - words 1 := rfl
@[simp] theorem push_fp : (m.push v).fp = m.fp := rfl
@[simp] theorem push_cf : (m.push v).cf = m.cf := rfl
@[simp] theorem push_text : (m.push v).text = m.text := rfl
@[simp] theorem push_files : (m.push v).files = m.files := rfl
@[simp] theorem pop_pc : m.pop.pc = m.pc := rfl
@[simp] theorem pop_sp : m.pop.sp = m.sp + words 1 := rfl
@[simp] theorem pop_fp : m.pop.fp = m.fp := rfl
@[simp] theorem pop_cf : m.pop.cf = m.cf := rfl
@[simp] theorem pop_mem : m.pop.mem = m.mem := rfl
@[simp] theorem pop_text : m.pop.text = m.text := rfl
@[simp] theorem pop_files : m.pop.files = m.files := rfl
@[simp] theorem skip_pc : (m.skip i).pc = m.pc + BitVec.ofNat 64 i := rfl
@[simp] theorem skip_sp : (m.skip i).sp = m.sp := rfl
@[simp] theorem skip_fp : (m.skip i).fp = m.fp := rfl
@[simp] theorem skip_cf : (m.skip i).cf = m.cf := rfl
@[simp] theorem skip_mem : (m.skip i).mem = m.mem := rfl
@[simp] theorem skip_text : (m.skip i).text = m.text := rfl
@[simp] theorem skip_files : (m.skip i).files = m.files := rfl
@[simp] theorem jump_sp : m.jump.sp = m.sp := rfl
@[simp] theorem jump_fp : m.jump.fp = m.fp := rfl
@[simp] theorem jump_cf : m.jump.cf = m.cf := rfl
@[simp] theorem binop_pc : (m.binop g).pc = m.pc := rfl
@[simp] theorem binop_sp : (m.binop g).sp = m.sp + words 1 := rfl
@[simp] theorem binop_fp : (m.binop g).fp = m.fp := rfl
@[simp] theorem binop_cf : (m.binop g).cf = m.cf := rfl
@[simp] theorem unop_pc : (m.unop f).pc = m.pc := rfl
@[simp] theorem unop_sp : (m.unop f).sp = m.sp := rfl
@[simp] theorem unop_fp : (m.unop f).fp = m.fp := rfl
@[simp] theorem unop_cf : (m.unop f).cf = m.cf := rfl

theorem slot_zero : m.slot 0 = loadWord m.mem m.sp := by
  unfold Machine.slot words
  rw [Nat.mul_zero, BitVec.add_zero]

@[simp] theorem skip_slot : (m.skip i).slot j = m.slot j := by
  unfold Machine.slot
  simp only [skip_mem, skip_sp]
end

end ups_rules.machine
