-- setjmp and longjmp of interpreted code: the start-up text that their calls are linked to
-- (ci_make_crt0 in xc_machine.c, setup_entry_cf in xc_load.c) and the two opcodes. The text
-- has opcodes of one byte, and the machine reads opcodes of two.
import Mathlib.Logic.Relation
import Ups.StackWords

open le_bytes
open ups_rules.machine
open ups_rules.opcodes
open ups_rules.execute
open ups_rules.stack_words

namespace ups_rules.longjmp

/-! ## The pure model -/

structure StartupInfo where
  su_text : Nat → BitVec 8
  su_text_size : Nat
  su_start_addr : Nat
  su_argv_pos : Nat
  su_argc_pos : Nat
  su_envp_pos : Nat
  su_setjmp_addr : Nat
  su_longjmp_addr : Nat

/-- `text[pc] = val` -/
def putByte (text : Nat → BitVec 8) (pc val : Nat) : Nat → BitVec 8 :=
  fun i => if i = pc then BitVec.ofNat 8 val else text i

def ciWriteTextLong (text : Nat → BitVec 8) (pc val : Nat) : Nat → BitVec 8 :=
  putByte (putByte (putByte (putByte text pc val) (pc + 1) (val / 256)) (pc + 2) (val / 256 ^ 2))
    (pc + 3) (val / 256 ^ 3)

/-- `TY_INT` -/
def tyInt : Nat := 23

/-- The text comes with some contents from the allocator; `none` is the panic at the end. -/
def ciMakeCrt0 (sizeof_long : Nat) (text : Nat → BitVec 8) (main_index exit_index : Int) :
    Option StartupInfo :=
  let text_size := 5 + 5 + 5 + 6 + 1 + 1 + 6 + 1 + 1 + 2
  let start_addr := 0
  let text := putByte text start_addr (Opcode.OC_CONSTPUSH .L).num
  let envp_pos := start_addr + 1
  let pc := envp_pos + sizeof_long
  let text := putByte text pc (Opcode.OC_CONSTPUSH .L).num
  let argv_pos := pc + 1
  let pc := argv_pos + sizeof_long
  let text := putByte text pc (Opcode.OC_CONSTPUSH .L).num
  let argc_pos := pc + 1
  let pc := argc_pos + sizeof_long
  let text := putByte text pc (Opcode.OC_CALL .L).num
  let text := ciWriteTextLong text (pc + 1) (BitVec.ofInt 64 main_index).toNat
  let pc := pc + 1 + sizeof_long
  let text := putByte text pc 3
  let text := putByte text (pc + 1) tyInt
  let text := putByte text (pc + 2) Opcode.OC_PUSH_WORD_RETVAL.num
  let text := putByte text (pc + 3) (Opcode.OC_CALL .L).num
  let text := ciWriteTextLong text (pc + 4) (BitVec.ofInt 64 exit_index).toNat
  let pc := pc + 4 + sizeof_long
  let text := putByte text pc 1
  let text := putByte text (pc + 1) tyInt
  let text := putByte text (pc + 2) Opcode.OC_TRAP.num
  let setjmp_addr := pc + 3
  let text := putByte text setjmp_addr Opcode.OC_SETJMP.num
  let longjmp_addr := setjmp_addr + 1
  let text := putByte text longjmp_addr Opcode.OC_LONGJMP.num
  if longjmp_addr + 1 ≠ text_size then none
  else some {
    su_text := text
    su_text_size := text_size
    su_start_addr := start_addr
    su_argv_pos := argv_pos
    su_argc_pos := argc_pos
    su_envp_pos := envp_pos
    su_setjmp_addr := setjmp_addr
    su_longjmp_addr := longjmp_addr }

/-- `ertab[xh->xh_setjmp_sym]` after `setup_entry_cf`. -/
def setjmpRef (cf : Word) (su : StartupInfo) : ExtRef :=
  ⟨cf, false, BitVec.ofNat 64 su.su_setjmp_addr⟩

/-- `ertab[xh->xh_longjmp_sym]` after `setup_entry_cf`. -/
def longjmpRef (cf : Word) (su : StartupInfo) : ExtRef :=
  ⟨cf, false, BitVec.ofNat 64 su.su_longjmp_addr⟩

/-! ## What setjmp and longjmp are for -/

/-- A call instruction at `m`: the machine behind its operand, the file whose table has the
function, and the index there. -/
inductive CallSite (env : Env) (m : Machine) : Machine → Word → Int → Prop where
  | direct {s : OpSize} (hop : opcodeOf (m.get 2) = some (.OC_CALL s)) :
    CallSite env m (past (m.skip 2) s) m.cf (toCInt (operand (m.skip 2) s))
  | indirect {call : Machine} (hop : opcodeOf (m.get 2) = some .OC_CALL_INDIRECT)
    (hload : ensureLoaded env
      (env.cftab + ((m.skip 2).slot 0 >>> 16) * BitVec.ofNat 64 codefileSize)
      (m.skip 2).pop = some call) :
    CallSite env m call (env.cftab + ((m.skip 2).slot 0 >>> 16) * BitVec.ofNat 64 codefileSize)
      ((m.skip 2).slot 0 |>.setWidth 16).toInt

/-- Interpreted code calls the function of `er`: from `m`, with the arguments on the stack of
`call`, the machine gets to `m'`, where the function begins. -/
structure Calls (env : Env) (er : ExtRef) (m call m' : Machine) : Prop where
  site : ∃ fcf func_index, CallSite env m call fcf func_index ∧ func_index ≤ 0 ∧
    (call.files fcf).cf_funcrefs func_index = er
  step : step env m = .next m'

/-- A run that leaves the `n` bytes at `a` as they are. -/
def RunsKeeping (env : Env) (a : Word) (n : Nat) : Machine → Machine → Prop :=
  Relation.ReflTransGen fun m m' =>
    step env m = .next m' ∧ readBytes m'.mem a n = readBytes m.mem a n

/-- The machine goes on in `m₃` behind the call of setjmp that was made from `call` and first
returned in `m₁`; `v` is the returned word, and `ml` was the machine at the longjmp. -/
structure Resumes (call m₁ ml m₃ : Machine) (v : Word) : Prop where
  pc : m₃.pc = (call.skip 2).pc
  cf : m₃.cf = call.cf
  fp : m₃.fp = m₁.fp
  sp : m₃.sp = m₁.sp
  saved : ∀ i, 1 ≤ i → i ≤ 4 → m₃.slot i = m₁.slot i
  others : ∀ x : Word, 32 ≤ (x - (m₁.sp + words 1)).toNat → m₃.mem x = ml.mem x
  retval : m₃.retval = v

/-- The file of the start-up code is in memory, with the two opcodes where the two functions
are linked to. -/
structure HasJumpCode (m : Machine) (cf : Word) (su : StartupInfo) : Prop where
  cf_ne : cf ≠ 0
  loaded : (m.files cf).cf_loaded = true
  setjmps : opcodeOf (load m.text ((m.files cf).cf_text_and_data +
    BitVec.ofNat 64 su.su_setjmp_addr) 2) = some .OC_SETJMP
  longjmps : opcodeOf (load m.text ((m.files cf).cf_text_and_data +
    BitVec.ofNat 64 su.su_longjmp_addr) 2) = some .OC_LONGJMP

/-- `ms_stackwords` is apart from the stack words that are saved in it, or the same words. -/
def SavesApart (ms sp : Word) : Prop :=
  ms + words 4 = sp + words 1 ∨ Apart (ms + words 4) 32 (sp + words 1) 32

/-! ## The start-up text -/

/-- The text is only finished where a long has the four bytes that its size was counted with. -/
theorem ciMakeCrt0_isSome_iff (sizeof_long : Nat) (text : Nat → BitVec 8) (main exit : Int) :
    (ciMakeCrt0 sizeof_long text main exit).isSome ↔ sizeof_long = 4 := by
  unfold ciMakeCrt0
  dsimp only
  split
  case isTrue h =>
    simp only [Option.isSome_none, Bool.false_eq_true, false_iff]
    omega
  case isFalse h =>
    simp only [Option.isSome_some, true_iff]
    omega

/-- The two bytes at `su_setjmp_addr` are one byte of each opcode. -/
theorem ciMakeCrt0_setjmp {sizeof_long : Nat} {text : Nat → BitVec 8} {main exit : Int}
    {su : StartupInfo} (h : ciMakeCrt0 sizeof_long text main exit = some su) :
    su.su_text su.su_setjmp_addr = BitVec.ofNat 8 Opcode.OC_SETJMP.num ∧
      su.su_text (su.su_setjmp_addr + 1) = BitVec.ofNat 8 Opcode.OC_LONGJMP.num := by
  unfold ciMakeCrt0 at h
  dsimp only at h
  split at h
  case isTrue => cases h
  case isFalse =>
    obtain rfl := Option.some.inj h
    constructor
    · simp [putByte]
    · simp [putByte]

theorem ciMakeCrt0_size {sizeof_long : Nat} {text : Nat → BitVec 8} {main exit : Int}
    {su : StartupInfo} (h : ciMakeCrt0 sizeof_long text main exit = some su) :
    su.su_text_size = 33 ∧ su.su_setjmp_addr = 31 := by
  unfold ciMakeCrt0 at h
  dsimp only at h
  split at h
  case isTrue => cases h
  case isFalse hsize =>
    obtain rfl := Option.some.inj h
    exact ⟨rfl, by dsimp only; omega⟩

/-- So the machine finds no opcode where setjmp is linked to. -/
theorem crt0_has_no_setjmp {sizeof_long : Nat} {text : Nat → BitVec 8} {main exit : Int}
    {su : StartupInfo} (h : ciMakeCrt0 sizeof_long text main exit = some su) :
    opcodeOf (ofLeBytes [su.su_text su.su_setjmp_addr, su.su_text (su.su_setjmp_addr + 1)]) =
      none := by
  obtain ⟨hfirst, hsecond⟩ := ciMakeCrt0_setjmp h
  rw [hfirst, hsecond]
  decide +kernel

/-! ## Blocks of words -/

theorem readBytes_sub {mem mem' : Mem 64} {a : Word} {n i k : Nat}
    (h : readBytes mem a n = readBytes mem' a n) (hk : i + k ≤ n) :
    readBytes mem (a + BitVec.ofNat 64 i) k = readBytes mem' (a + BitVec.ofNat 64 i) k := by
  unfold readBytes at h ⊢
  apply List.map_congr_left
  intro j hj
  have hij := List.map_inj_left.mp h (i + j) (List.mem_range.mpr (by
    have := List.mem_range.mp hj
    omega))
  simpa [BitVec.ofNat_add, BitVec.add_assoc] using hij

theorem loadWord_sub {mem mem' : Mem 64} {a : Word} {n i : Nat}
    (h : readBytes mem a n = readBytes mem' a n) (hi : 8 * i + 8 ≤ n) :
    loadWord mem (a + words i) = loadWord mem' (a + words i) := by
  unfold loadWord load words
  rw [readBytes_sub h hi]

/-- The words of a jmp_buf are apart. -/
theorem apart_words (a : Word) {i n j k : Nat} (h : i + n ≤ j ∨ j + k ≤ i) (hi : i + n ≤ 8)
    (hj : j + k ≤ 8) (hk : 0 < k) : Apart (a + words i) (8 * n) (a + words j) (8 * k) := by
  have hsub : (a + words j - (a + words i)).toNat = (words j - words i).toNat := by
    congr 1
    bv_omega
  have hwi : (words i).toNat = 8 * i := by
    simp only [words, BitVec.toNat_ofNat]
    omega
  have hwj : (words j).toNat = 8 * j := by
    simp only [words, BitVec.toNat_ofNat]
    omega
  apply apart_of_le
  · rw [hsub, BitVec.toNat_sub, hwi, hwj]
    omega
  · rw [hsub, BitVec.toNat_sub, hwi, hwj]
    omega

theorem readBytes_copyBytes (mem : Mem 64) (dst src : Word) :
    readBytes (copyBytes mem dst src 32) dst 32 = readBytes mem src 32 := by
  have h := readBytes_writeBytes mem dst (readBytes mem src 32) (by simp)
  rw [length_readBytes] at h
  unfold copyBytes
  exact h

theorem loadWord_copyBytes_of_apart (mem : Mem 64) (dst src b : Word) (h : Apart dst 32 b 8) :
    loadWord (copyBytes mem dst src 32) b = loadWord mem b := by
  unfold loadWord load copyBytes
  rw [readBytes_writeBytes_of_apart _ _ _ _ _ (by simpa using h)]

/-! ## The call -/

section
variable {env : Env} {m call m' : Machine} {er : ExtRef}

theorem CallSite.step {fcf : Word} {func_index : Int} (h : CallSite env m call fcf func_index) :
    step env m = funcCall env call fcf func_index := by
  unfold execute.step
  cases h with
  | direct hop =>
    rw [hop]
    rfl
  | indirect hop hload =>
    rw [hop]
    simp only [execOp, callIndirect, hload]

/-- Where a function of another file begins: the calling file and the text pointer behind the
call are on the stack. -/
def entry (call : Machine) (er : ExtRef) : Machine :=
  { ({ (call.skip 2).push call.cf with cf := er.er_file }.push (call.skip 2).pc) with
    pc := (call.files er.er_file).cf_text_and_data + er.er_addr }

theorem Calls.entered (h : Calls env er m call m') (hfile : er.er_file ≠ 0)
    (hloaded : (call.files er.er_file).cf_loaded = true) : m' = entry call er := by
  obtain ⟨fcf, func_index, hsite, hindex, rfl⟩ := h.site
  have hstep := h.step
  rw [hsite.step] at hstep
  simp only [funcCall, if_neg (show ¬ 0 < func_index by omega), skip_files, if_pos hfile,
    ensureLoaded, push_files, hloaded, if_true] at hstep
  exact (Outcome.next.inj hstep).symm

theorem CallSite.calls {fcf : Word} {func_index : Int} (h : CallSite env m call fcf func_index)
    (hindex : func_index ≤ 0) (her : (call.files fcf).cf_funcrefs func_index = er)
    (hfile : er.er_file ≠ 0) (hloaded : (call.files er.er_file).cf_loaded = true) :
    Calls env er m call (entry call er) where
  site := ⟨fcf, func_index, h, hindex, her⟩
  step := by
    subst her
    rw [h.step]
    simp only [funcCall, if_neg (show ¬ 0 < func_index by omega), skip_files, if_pos hfile,
      ensureLoaded, push_files, hloaded, if_true]
    rfl

theorem entry_sp (call : Machine) (er : ExtRef) : (entry call er).sp + words 2 = call.sp := by
  have h : (entry call er).sp = call.sp - words 1 - words 1 := rfl
  rw [h, words_add 1 1]
  bv_omega

theorem step_entry {op : Opcode} (h : opcodeOf (load call.text
    ((call.files er.er_file).cf_text_and_data + er.er_addr) 2) = some op) :
    step env (entry call er) = execOp env op ((entry call er).skip 2) := by
  have hop : opcodeOf ((entry call er).get 2) = some op := h
  unfold execute.step
  rw [hop]

theorem entry_return (call : Machine) (er : ExtRef) :
    (entry call er).slot 0 = (call.skip 2).pc ∧ (entry call er).slot 1 = call.cf ∧
      ∀ i, i + 2 < 2 ^ 60 → (entry call er).slot (i + 2) = call.slot i := by
  refine ⟨push_slot_zero _ _, ?_, ?_⟩
  · exact (push_slot_succ _ _ (by decide)).trans (push_slot_zero _ _)
  · intro i hi
    exact (push_slot_succ _ _ hi).trans ((push_slot_succ _ _ (by omega)).trans (skip_slot _ _ _))

end

/-! ## The two opcodes -/

/-- What setjmp leaves: the registers of the caller in the jmp_buf, with the words above the
arguments. -/
structure Saved (m m₁ : Machine) : Prop where
  pc : m₁.pc = m.slot 0
  cf : m₁.cf = m.slot 1
  fp : m₁.fp = m.fp
  sp : m₁.sp = m.sp + words 2
  retval : m₁.retval = 0#64
  ms_cf : loadWord m₁.mem (m.slot 2) = m₁.cf
  ms_pc : loadWord m₁.mem (m.slot 2 + words 1) = m₁.pc
  ms_fp : loadWord m₁.mem (m.slot 2 + words 2) = m₁.fp
  ms_sp : loadWord m₁.mem (m.slot 2 + words 3) = m₁.sp
  ms_stackwords : readBytes m₁.mem (m.slot 2 + words 4) 32 =
    readBytes m₁.mem (m₁.sp + words 1) 32

/-- The memory once the four registers are stored at `ms`. -/
def storeState (mem : Mem 64) (ms cf pc fp sp : Word) : Mem 64 :=
  store (store (store (store mem ms 8 cf) (ms + words 1) 8 pc) (ms + words 2) 8 fp)
    (ms + words 3) 8 sp

section
variable (mem : Mem 64) (ms cf pc fp sp : Word)

theorem loadWord_store_word {i j : Nat} (hi : i < 4) (hj : j < 4) (hne : i ≠ j) (v : Word) :
    loadWord (store mem (ms + words i) 8 v) (ms + words j) = loadWord mem (ms + words j) :=
  loadWord_store_of_apart _ _ _ _ (apart_slots ms hne (by omega) (by omega))

theorem storeState_cf : loadWord (storeState mem ms cf pc fp sp) ms = cf := by
  have h0 : ms = ms + words 0 := by simp [words]
  unfold storeState
  conv_lhs => arg 2; rw [h0]
  rw [loadWord_store_word _ _ (by decide) (by decide) (by decide),
    loadWord_store_word _ _ (by decide) (by decide) (by decide),
    loadWord_store_word _ _ (by decide) (by decide) (by decide), ← h0, loadWord_store]

theorem storeState_pc : loadWord (storeState mem ms cf pc fp sp) (ms + words 1) = pc := by
  unfold storeState
  rw [loadWord_store_word _ _ (by decide) (by decide) (by decide),
    loadWord_store_word _ _ (by decide) (by decide) (by decide), loadWord_store]

theorem storeState_fp : loadWord (storeState mem ms cf pc fp sp) (ms + words 2) = fp := by
  unfold storeState
  rw [loadWord_store_word _ _ (by decide) (by decide) (by decide), loadWord_store]

theorem storeState_sp : loadWord (storeState mem ms cf pc fp sp) (ms + words 3) = sp := by
  unfold storeState
  rw [loadWord_store]

end

/-- The copy of the stack words does not reach the registers before it. -/
theorem loadWord_copied (mem : Mem 64) (ms src : Word) {i : Nat} (hi : i < 4) :
    loadWord (copyBytes mem (ms + words 4) src 32) (ms + words i) = loadWord mem (ms + words i) := by
  apply loadWord_copyBytes_of_apart
  exact apart_words _ (n := 4) (k := 1) (by omega) (by omega) (by omega) (by decide)

theorem setjmp_mem (m : Machine) : (setjmp m).mem =
    copyBytes (storeState m.mem (m.slot 2) (m.slot 1) (m.slot 0) m.fp (m.sp + words 2))
      (m.slot 2 + words 4) (m.sp + words 2 + words 1) 32 := by
  have hms : m.pop.pop.slot 0 = m.slot 2 := by simp [Machine.pop]
  have hcf : m.pop.slot 0 = m.slot 1 := by simp [Machine.pop]
  have hsp : m.pop.pop.sp = m.sp + words 2 := by
    rw [words_add 1 1, ← BitVec.add_assoc]
    rfl
  rw [← hms, ← hcf, ← hsp]
  rfl

theorem setjmp_saved (m : Machine) (hapart : SavesApart (m.slot 2) (m.sp + words 2)) :
    Saved m (setjmp m) := by
  have hsp : (setjmp m).sp = m.sp + words 2 := by
    rw [words_add 1 1, ← BitVec.add_assoc]
    rfl
  have hcf : (setjmp m).cf = m.slot 1 := by
    have h : m.pop.slot 0 = m.slot 1 := by simp [Machine.pop]
    exact h
  refine ⟨rfl, hcf, rfl, hsp, rfl, ?_, ?_, ?_, ?_, ?_⟩
  · have h0 : m.slot 2 = m.slot 2 + words 0 := by simp [words]
    have hcopied := loadWord_copied (storeState m.mem (m.slot 2) (m.slot 1) (m.slot 0) m.fp
      (m.sp + words 2)) (m.slot 2) (m.sp + words 2 + words 1) (i := 0) (by decide)
    rw [← h0] at hcopied
    rw [setjmp_mem, hcopied, storeState_cf, hcf]
  · rw [setjmp_mem, loadWord_copied _ _ _ (by decide), storeState_pc]
    rfl
  · rw [setjmp_mem, loadWord_copied _ _ _ (by decide), storeState_fp]
    rfl
  · rw [setjmp_mem, loadWord_copied _ _ _ (by decide), storeState_sp, hsp]
  · rw [hsp, setjmp_mem, readBytes_copyBytes]
    rcases hapart with hsame | hapart
    · rw [← hsame, readBytes_copyBytes]
    · unfold copyBytes
      rw [readBytes_writeBytes_of_apart _ _ _ _ _ (by simpa using hapart)]

/-- longjmp with a jmp_buf that is as setjmp left it. -/
theorem longjmp_restores {m m₁ ml : Machine} (hsaved : Saved m m₁) (henv : ml.slot 2 = m.slot 2)
    (hkept : readBytes ml.mem (m.slot 2) 64 = readBytes m₁.mem (m.slot 2) 64) :
    (longjmp ml).pc = m₁.pc ∧ (longjmp ml).cf = m₁.cf ∧ (longjmp ml).fp = m₁.fp ∧
      (longjmp ml).sp = m₁.sp ∧
      readBytes (longjmp ml).mem (m₁.sp + words 1) 32 = readBytes m₁.mem (m₁.sp + words 1) 32 ∧
      ∀ x : Word, 32 ≤ (x - (m₁.sp + words 1)).toNat → (longjmp ml).mem x = ml.mem x := by
  have h0 : m.slot 2 = m.slot 2 + words 0 := by simp [words]
  have hcf : loadWord ml.mem (m.slot 2) = m₁.cf := by
    have h := loadWord_sub hkept (i := 0) (by decide)
    rw [← h0] at h
    rw [h, hsaved.ms_cf]
  have hpc : loadWord ml.mem (m.slot 2 + words 1) = m₁.pc := by
    rw [loadWord_sub hkept (by decide), hsaved.ms_pc]
  have hfp : loadWord ml.mem (m.slot 2 + words 2) = m₁.fp := by
    rw [loadWord_sub hkept (by decide), hsaved.ms_fp]
  have hsp : loadWord ml.mem (m.slot 2 + words 3) = m₁.sp := by
    rw [loadWord_sub hkept (by decide), hsaved.ms_sp]
  have hwords : readBytes ml.mem (m.slot 2 + words 4) 32 =
      readBytes m₁.mem (m₁.sp + words 1) 32 := by
    rw [← hsaved.ms_stackwords]
    exact readBytes_sub hkept (by decide)
  have hmem : (longjmp ml).mem =
      copyBytes ml.mem (m₁.sp + words 1) (m.slot 2 + words 4) 32 := by
    rw [← hsp, ← henv]
    rfl
  rw [← henv] at hcf hpc hfp hsp
  refine ⟨hpc, hcf, hfp, hsp, ?_, ?_⟩
  · rw [hmem, readBytes_copyBytes, hwords]
  · intro x hx
    rw [hmem]
    unfold copyBytes
    exact writeBytes_of_outside _ _ _ _ (by simpa using hx)

/-- A run that keeps a range has the same bytes there at its end. -/
theorem RunsKeeping.kept {env : Env} {a : Word} {n : Nat} {m m' : Machine}
    (h : RunsKeeping env a n m m') : readBytes m'.mem a n = readBytes m.mem a n := by
  induction h with
  | refl => rfl
  | tail _ hstep ih => rw [hstep.2, ih]

/-- `CALL_L` with its operand, the number of arguments and the type. -/
def callBytes (index : Int) (nargs : Nat) : List (BitVec 8) :=
  leBytes 2 (Opcode.OC_CALL .L).num ++ leBytes 4 (BitVec.ofInt 32 index).toNat ++
    [BitVec.ofNat 8 nargs, BitVec.ofNat 8 tyInt]

/-- A call of setjmp with a jmp_buf at 512, and behind it a call of longjmp with the same words;
the start-up text is at 4096. -/
def jumper (su : StartupInfo) : Machine where
  text := fun a =>
    if a.toNat < 4096 then ((callBytes (-1) 1 ++ callBytes (-2) 2)[a.toNat]?).getD 0
    else su.su_text (a.toNat - 4096)
  mem := fun x => if x = 1025#64 then 2#8 else if x = 1032#64 then 7#8 else 0#8
  files := fun _ => {
    cf_funcrefs := fun i => if i = -1 then setjmpRef 8 su else longjmpRef 8 su
    cf_varaddrs := fun _ => 0
    cf_loaded := true
    cf_text_and_data := 4096
    cf_text_size := 0
    cf_data_size := 0
    cf_bss_size := 0
    cf_funcaddrs := fun _ => 0 }
  pc := 0
  sp := 1024
  fp := 2048
  cf := 16
  retval := 0
  written := []

/-- A start-up text with opcodes of two bytes. -/
def wideStartup : StartupInfo where
  su_text := fun i =>
    ((leBytes 2 Opcode.OC_SETJMP.num ++ leBytes 2 Opcode.OC_LONGJMP.num)[i]?).getD 0
  su_text_size := 4
  su_start_addr := 0
  su_argv_pos := 0
  su_argc_pos := 0
  su_envp_pos := 0
  su_setjmp_addr := 0
  su_longjmp_addr := 2

/-- The machine behind a call of the program. -/
abbrev behindCall (m : Machine) : Machine := past (m.skip 2) .L

/-- The jumper when setjmp returns for the first time. -/
def jumperBack : Machine :=
  setjmp ((entry (behindCall (jumper wideStartup)) (setjmpRef 8 wideStartup)).skip 2)

theorem jumper_code (m : Machine) (htext : m.text = (jumper wideStartup).text)
    (hfiles : m.files = (jumper wideStartup).files) : HasJumpCode m 8 wideStartup where
  cf_ne := by decide
  loaded := by rw [hfiles]; rfl
  setjmps := by rw [hfiles, htext]; decide +kernel
  longjmps := by rw [hfiles, htext]; decide +kernel

theorem eight_ne : (8 : Word) ≠ 0 := by decide

theorem jumper_pc (su : StartupInfo) : (jumper su).pc = 0#64 := rfl

/-- The start-up text is where its file says. -/
theorem jumper_startup (su : StartupInfo) {i : Nat} (hi : i < 4096) :
    (jumper su).text (4096#64 + BitVec.ofNat 64 i) = su.su_text i := by
  have ha : (4096#64 + BitVec.ofNat 64 i).toNat = 4096 + i := by
    rw [BitVec.toNat_add, BitVec.toNat_ofNat, BitVec.toNat_ofNat]
    omega
  simp [jumper, ha]

/-- The text of the calls is the same for every start-up text. -/
theorem jumper_get (su : StartupInfo) (m m' : Machine) (n : Nat)
    (htext : m.text = (jumper su).text) (htext' : m'.text = (jumper wideStartup).text)
    (hpc : m.pc = m'.pc) (hn : m'.pc.toNat + n ≤ 4096) : m.get n = m'.get n := by
  unfold Machine.get load readBytes
  congr 1
  apply List.map_congr_left
  intro i hi
  have hlt := List.mem_range.mp hi
  have ha : (m'.pc + BitVec.ofNat 64 i).toNat < 4096 := by
    rw [BitVec.toNat_add, BitVec.toNat_ofNat]
    omega
  rw [htext, htext', hpc]
  simp only [jumper, if_pos ha]

theorem jumper_calls_setjmp (su : StartupInfo) :
    Calls proc_opcodes.quietEnv (setjmpRef 8 su) (jumper su) (behindCall (jumper su))
      (entry (behindCall (jumper su)) (setjmpRef 8 su)) := by
  have hopcode := jumper_get su (jumper su) (jumper wideStartup) 2 rfl rfl rfl
    (by decide)
  have hoperand := jumper_get su ((jumper su).skip 2) ((jumper wideStartup).skip 2) 4
    rfl rfl (by rw [skip_pc, skip_pc, jumper_pc, jumper_pc]) (by decide)
  have hop : opcodeOf ((jumper su).get 2) = some (.OC_CALL .L) := by
    rw [hopcode]
    decide +kernel
  have hindex : toCInt (operand ((jumper su).skip 2) .L) = -1 := by
    have h : operand ((jumper su).skip 2) .L = operand ((jumper wideStartup).skip 2) .L :=
      congrArg (BitVec.ofNat 64) hoperand
    rw [h]
    decide +kernel
  apply (CallSite.direct hop).calls
  · omega
  · rw [hindex]
    rfl
  · exact eight_ne
  · rfl

end ups_rules.longjmp
