-- The place where a program continues after one instruction, as the debugger predicts it
-- (ci_get_next_pc_and_cf in ci_opcodes.c), and when the machine continues there. The debugger
-- takes an opcode for one byte; the machine and the compiler take it for two.
import Ups.ProcOpcodes

open ups_rules.machine
open ups_rules.opcodes
open ups_rules.execute
open ups_rules.proc_opcodes

namespace ups_rules.next_pc

/-! ## The pure model -/

/-- The bytes behind an opcode. `ncase` is the word at the text pointer, for the switches; `none`
is a panic. -/
def ciOperandSize (op : Opcode) (ncase : Nat) : Option Nat :=
  match op with
  | .OC_POPMANY s | .OC_PROC_MEMCPY s | .OC_MEMCPY s | .OC_NEG_CONSTPUSH s | .OC_CONSTPUSH s
  | .OC_CHECK_SP s | .OC_PROC_PUSH_ADDR _ s | .OC_PUSH_STACKADDR s | .OC_PUSH_AT_STACKADDR _ s
  | .OC_PUSH_AT_ADDR _ s => some s.nbytes
  | .OC_PUSH_BYTES | .OC_PROC_PUSH_BYTES | .OC_RESERVE_BYTES | .OC_RET_STRUCT => some 4
  | .OC_CALL s => some (s.nbytes + 1 + 1)
  | .OC_CALL_INDIRECT => some (1 + 1)
  | .OC_LINK s => some (s.nbytes + 4)
  | .OC_PUSH_FLOAT_CONST => some 4
  | .OC_PUSH_DOUBLE_CONST => some 8
  | .OC_INSERT_SIGNED_BITFIELD | .OC_EXTRACT_SIGNED_BITFIELD | .OC_INSERT_UNSIGNED_BITFIELD
  | .OC_EXTRACT_UNSIGNED_BITFIELD => some 2
  | .OC_JUMP | .OC_JUMP_IF_ZERO | .OC_JUMP_IF_NON_ZERO => some 2
  | .OC_SWITCH_ON_TABLE => some (2 + 4 + ncase * 2 + 2)
  | .OC_SWITCH_ON_CHAIN s => some (2 + 4 + ncase * (s.nbytes + 2) + 2)
  | .OC_UNRESOLVED_JUMP => none
  | _ => some 0

/-- The case for `OC_SWITCH_ON_TABLE`, with the text pointer behind the opcode. -/
def pcAfterSwitchOnTable (m : Machine) : Word :=
  let ncase := m.get 2
  let m := m.skip 2
  let v := (m.slot 0 - BitVec.ofNat 64 (m.get 4)).setWidth 32
  let n := if ncase ≤ v.toNat then ncase else v.toNat
  (m.skip (4 + n * 2)).jump.pc

/-- The loop of `get_pc_after_switch_on_chain`. -/
def chainLoop (s : OpSize) (switchval : Int) : Nat → Machine → Word
  | 0, m => m.jump.pc
  | ncase + 1, m =>
    let val := toCInt (operand m s)
    if val = switchval then (past m s).jump.pc
    else chainLoop s switchval ncase ((past m s).skip 2)

def getPcAfterSwitchOnChain (s : OpSize) (m : Machine) : Word :=
  let switchval := toCInt (m.slot 0 - BitVec.ofNat 64 ((m.skip 2).get 4))
  chainLoop s switchval (m.get 2) ((m.skip 2).skip 4)

/-- Where a call of the function `func_index` of `fcf` continues, as a file and a text pointer;
`none` is a file that cannot be loaded. -/
def getPcAfterCall (env : Env) (m : Machine) (fcf : Word) (func_index : Int)
    (operand_size : Nat) : Option (Word × Word) :=
  if 0 < func_index then
    some (fcf, (m.files fcf).cf_text_and_data + (m.files fcf).cf_funcaddrs func_index)
  else
    let er := (m.files fcf).cf_funcrefs func_index
    if er.er_file ≠ 0 then
      match ensureLoaded env er.er_file m with
      | none => none
      | some m => some (er.er_file, (m.files er.er_file).cf_text_and_data + er.er_addr)
    else some (m.cf, m.pc + BitVec.ofNat 64 (operand_size + 1 + 1))

/-- The file and the text pointer that are predicted. -/
def ciGetNextPcAndCf (env : Env) (m : Machine) : Option (Word × Word) :=
  match opcodeOf (m.get 1) with
  | none => none
  | some op =>
    let m := m.skip 1
    match op with
    | .OC_SWITCH_ON_TABLE => some (m.cf, pcAfterSwitchOnTable m)
    | .OC_SWITCH_ON_CHAIN s => some (m.cf, getPcAfterSwitchOnChain s m)
    | .OC_PUSH_FLOAT_CONST => some (m.cf, m.pc + 4#64)
    | .OC_PUSH_DOUBLE_CONST => some (m.cf, m.pc + 8#64)
    | .OC_CALL s => getPcAfterCall env m m.cf (toCInt (operand m s)) s.nbytes
    | .OC_CALL_INDIRECT =>
      let addr := (m.slot 0).setWidth 32
      let fcf := env.cftab + (addr >>> 16).setWidth 64 * BitVec.ofNat 64 codefileSize
      match ensureLoaded env fcf m with
      | none => none
      | some m => getPcAfterCall env m fcf (addr.setWidth 16).toInt 0
    | .OC_RET_FLOAT | .OC_RET_DOUBLE | .OC_RET_WORD | .OC_RET =>
      some (loadWord m.mem (m.fp + words 2), loadWord m.mem (m.fp + words 1))
    | .OC_SETJMP => some (m.slot 1, m.slot 0)
    | .OC_LONGJMP => some (loadWord m.mem (m.slot 2), loadWord m.mem (m.slot 2 + words 1))
    | .OC_JUMP => some (m.cf, m.jump.pc)
    | .OC_JUMP_IF_ZERO => some (m.cf, if m.slot 0 = 0#64 then m.jump.pc else m.pc + 2#64)
    | .OC_JUMP_IF_NON_ZERO => some (m.cf, if m.slot 0 ≠ 0#64 then m.jump.pc else m.pc + 2#64)
    | op => (ciOperandSize op (m.get 2)).map fun n => (m.cf, m.pc + BitVec.ofNat 64 n)

/-! ## Instructions that fall through -/

/-- Whether the machine takes its next text pointer from elsewhere than behind the operands. -/
def controls : Opcode → Bool
  | .OC_CALL _ | .OC_CALL_INDIRECT | .OC_RET | .OC_RET_WORD | .OC_RET_LONG_LONG | .OC_RET_FLOAT
  | .OC_RET_DOUBLE | .OC_RET_STRUCT | .OC_SETJMP | .OC_LONGJMP | .OC_JUMP | .OC_JUMP_IF_ZERO
  | .OC_JUMP_IF_NON_ZERO | .OC_SWITCH_ON_TABLE | .OC_SWITCH_ON_CHAIN _ => true
  | _ => false

/-- If the outcome goes on, then in the same file, `n` bytes further. -/
def FallsThrough (m : Machine) (n : Nat) (o : Outcome) : Prop :=
  ∀ m', o = .next m' → m'.cf = m.cf ∧ m'.pc = m.pc + BitVec.ofNat 64 n

section
variable {env : Env} {m m' : Machine} {n : Nat}

theorem FallsThrough.next (hcf : m'.cf = m.cf) (hpc : m'.pc = m.pc + BitVec.ofNat 64 n) :
    FallsThrough m n (.next m') := by
  intro m'' h
  cases h
  exact ⟨hcf, hpc⟩

/-- An instruction without operands that only moves the stack. -/
theorem FallsThrough.stay (hcf : m'.cf = m.cf) (hpc : m'.pc = m.pc) :
    FallsThrough m 0 (.next m') := by
  apply FallsThrough.next hcf
  rw [hpc, BitVec.add_zero]

theorem FallsThrough.quit (res : ExecResult) : FallsThrough m n (.quit res m') := by
  intro m'' h
  cases h

theorem FallsThrough.panic : FallsThrough m n .panic := by
  intro m'' h
  cases h

theorem FallsThrough.of_past {o : Outcome} (s : OpSize) (h : FallsThrough (past m s) 0 o) :
    FallsThrough m s.nbytes o := by
  intro m'' ho
  obtain ⟨hcf, hpc⟩ := h m'' ho
  refine ⟨hcf, ?_⟩
  rw [hpc, BitVec.add_zero]
  rfl

theorem fallsThrough_readData (a : Word) (nbytes : Nat) (k : List (BitVec 8) → Outcome)
    (h : ∀ bs, FallsThrough m n (k bs)) : FallsThrough m n (readData env m' a nbytes k) := by
  unfold readData
  cases env.readproc m'.written a nbytes with
  | none => exact .quit _
  | some bs => exact h bs.toList

theorem fallsThrough_writeData (a : Word) (bs : List (BitVec 8)) (k : Machine → Outcome)
    (h : ∀ written, FallsThrough m n (k { m' with written := written })) :
    FallsThrough m n (writeData env m' a bs k) := by
  unfold writeData
  split
  · exact h _
  · exact .quit _

theorem fallsThrough_procStore (t : CellKind) (k : Machine → Outcome)
    (h : ∀ m', m'.cf = m.cf → m'.pc = m.pc → FallsThrough m 0 (k m')) :
    FallsThrough m 0 (procStore env t m k) := by
  unfold procStore
  dsimp only
  split
  · apply h
    · rw [storeAt_cf]
      split <;> rfl
    · rw [storeAt_pc]
      split <;> rfl
  · apply fallsThrough_writeData
    intro written
    apply h
    · dsimp only
      split <;> rfl
    · dsimp only
      split <;> rfl

theorem fallsThrough_procAssign (t : CellKind) : FallsThrough m 0 (procAssign env t m) := by
  unfold procAssign
  apply fallsThrough_procStore
  intro m' hcf hpc
  apply FallsThrough.stay
  · split
    · exact hcf
    · rw [addSp_cf, hcf]
  · split
    · exact hpc
    · rw [addSp_pc, hpc]

theorem fallsThrough_procAssignAndPush (t : CellKind) :
    FallsThrough m 0 (procAssignAndPush env t m) := by
  unfold procAssignAndPush
  apply fallsThrough_procStore
  intro m' hcf hpc
  apply FallsThrough.stay
  · split
    · rw [push_cf, hcf]
    · rw [addSp_cf, setSlot_cf, hcf]
  · split
    · rw [push_pc, hpc]
    · rw [addSp_pc, setSlot_pc, hpc]

theorem fallsThrough_assignAndPush (t : CellKind) :
    FallsThrough m 0 (.next (assignAndPush t m)) := by
  unfold assignAndPush
  apply FallsThrough.stay
  · dsimp only
    split <;> rfl
  · dsimp only
    split <;> rfl

theorem fallsThrough_procDeref (t : LoadKind) : FallsThrough m 0 (procDeref env t m) := by
  unfold procDeref
  dsimp only
  split
  · exact .stay rfl rfl
  · split
    · exact .quit _
    · exact .stay rfl rfl

theorem fallsThrough_procMemcpy (nbytes : Nat) :
    FallsThrough m 0 (procMemcpy env m nbytes) := by
  unfold procMemcpy
  dsimp only
  split
  · split
    · exact .stay rfl rfl
    · apply fallsThrough_readData
      intro bs
      exact .stay rfl rfl
  · split
    · apply fallsThrough_writeData
      intro written
      exact .stay rfl rfl
    · apply fallsThrough_readData
      intro bs
      apply fallsThrough_writeData
      intro written
      exact .stay rfl rfl

theorem fallsThrough_procPushBytes : FallsThrough m 4 (procPushBytes env m) := by
  unfold procPushBytes
  dsimp only
  split
  · exact .next rfl rfl
  · apply fallsThrough_readData
    intro bs
    exact .next rfl rfl

theorem fallsThrough_link (s : OpSize) : FallsThrough m (s.nbytes + 4) (link env s m) := by
  unfold link
  dsimp only
  split
  · apply FallsThrough.next
    · rfl
    · rw [skip_pc, BitVec.ofNat_add, ← BitVec.add_assoc]
      rfl
  · exact .quit _

theorem fallsThrough_divSigned (t : NumKind) : FallsThrough m 0 (divSigned env t m) := by
  unfold divSigned
  cases t with
  | FLOAT | DOUBLE => exact .stay rfl rfl
  | LONG | LONG_LONG =>
    dsimp only
    split
    · exact .quit _
    · exact .stay rfl rfl

theorem fallsThrough_chkdivSigned (t : NumKind) : FallsThrough m 0 (chkdivSigned env t m) := by
  unfold chkdivSigned
  split
  · exact .quit _
  · exact fallsThrough_divSigned t

theorem fallsThrough_divUnsigned (f : Word → Word → Word) :
    FallsThrough m 0 (divUnsigned f m) := by
  unfold divUnsigned
  split
  · exact .quit _
  · exact .stay rfl rfl

theorem fallsThrough_chkdivUnsigned (t : IntKind) :
    FallsThrough m 0 (chkdivUnsigned t m) := by
  unfold chkdivUnsigned
  split
  · exact .quit _
  · exact .stay rfl rfl

end

/-- All other instructions go on behind their operands. -/
theorem execOp_fallsThrough (env : Env) (op : Opcode) (m : Machine) (ncase : Nat)
    (h : controls op = false) :
    ∀ n ∈ ciOperandSize op ncase, FallsThrough m n (execOp env op m) := by
  intro n hn
  cases op with
  | OC_CALL | OC_CALL_INDIRECT | OC_RET | OC_RET_WORD | OC_RET_LONG_LONG | OC_RET_FLOAT
  | OC_RET_DOUBLE | OC_RET_STRUCT | OC_SETJMP | OC_LONGJMP | OC_JUMP | OC_JUMP_IF_ZERO
  | OC_JUMP_IF_NON_ZERO | OC_SWITCH_ON_TABLE | OC_SWITCH_ON_CHAIN => cases h
  | OC_UNRESOLVED_JUMP => cases hn
  | OC_PROC_ASSIGN t =>
    cases hn
    exact fallsThrough_procAssign t
  | OC_PROC_ASSIGN_AND_PUSH t =>
    cases hn
    exact fallsThrough_procAssignAndPush t
  | OC_ASSIGN_AND_PUSH t =>
    cases hn
    exact fallsThrough_assignAndPush t
  | OC_PROC_DEREF t =>
    cases hn
    exact fallsThrough_procDeref t
  | OC_PROC_MEMCPY s =>
    cases hn
    exact FallsThrough.of_past s (fallsThrough_procMemcpy _)
  | OC_PROC_PUSH_BYTES =>
    cases hn
    exact fallsThrough_procPushBytes
  | OC_LINK s =>
    cases hn
    exact fallsThrough_link s
  | OC_CHECK_SP s =>
    cases hn
    unfold execOp
    dsimp only
    split
    · exact .panic
    · exact .next rfl rfl
  | OC_MULTI_ARROW =>
    cases hn
    unfold execOp
    dsimp only
    split
    · exact .quit _
    · split
      · exact .quit _
      · exact .stay rfl rfl
  | OC_DIV_SIGNED t =>
    cases hn
    exact fallsThrough_divSigned t
  | OC_CHKDIV_SIGNED t =>
    cases hn
    exact fallsThrough_chkdivSigned t
  | OC_MOD | OC_DIV_UNSIGNED =>
    cases hn
    exact fallsThrough_divUnsigned _
  | OC_CHKDIV_UNSIGNED t =>
    cases hn
    exact fallsThrough_chkdivUnsigned t
  | OC_TRAP =>
    cases hn
    exact .quit _
  | OC_POPMANY | OC_MEMCPY | OC_NEG_CONSTPUSH | OC_CONSTPUSH | OC_PROC_PUSH_ADDR
  | OC_PUSH_STACKADDR | OC_PUSH_AT_STACKADDR | OC_PUSH_AT_ADDR | OC_PUSH_BYTES
  | OC_RESERVE_BYTES | OC_PUSH_FLOAT_CONST | OC_PUSH_DOUBLE_CONST | OC_INSERT_SIGNED_BITFIELD
  | OC_INSERT_UNSIGNED_BITFIELD | OC_EXTRACT_SIGNED_BITFIELD | OC_EXTRACT_UNSIGNED_BITFIELD =>
    cases hn
    exact .next rfl rfl
  | _ =>
    -- no operands, and only the stack is changed
    cases hn
    exact .stay rfl rfl

/-! ## Calls -/

/-- What a function index of a file denotes: a place in the text of a file, or a function of the
interpreter. -/
inductive Callee where
  | place (cf pc : Word)
  | library
  | fault

/-- What the files have in memory once `f` is loaded. -/
def loadedImage (env : Env) (f : Word) (im : Image) : Option Image :=
  if (im.files f).cf_loaded then some im else env.loadfunc f im

def callee (env : Env) (im : Image) (fcf : Word) (func_index : Int) : Callee :=
  if 0 < func_index then
    .place fcf ((im.files fcf).cf_text_and_data + (im.files fcf).cf_funcaddrs func_index)
  else
    let er := (im.files fcf).cf_funcrefs func_index
    if er.er_file = 0 then .library
    else
      match loadedImage env er.er_file im with
      | none => .fault
      | some im => .place er.er_file ((im.files er.er_file).cf_text_and_data + er.er_addr)

/-- The same where the file itself may have to be loaded. -/
def calleeIndirect (env : Env) (im : Image) (fcf : Word) (func_index : Int) : Callee :=
  match loadedImage env fcf im with
  | none => .fault
  | some im => callee env im fcf func_index

/-- A file is loaded to the same place whatever lies in the free word below the stack. -/
def LoadsAlike (env : Env) : Prop :=
  ∀ f (m : Machine) (v : Word),
    (env.loadfunc f (m.push v).toImage).map Image.files =
      (env.loadfunc f m.toImage).map Image.files

section
variable {env : Env} {m m' : Machine} {fcf : Word} {func_index : Int}

theorem ensureLoaded_eq (env : Env) (f : Word) (m : Machine) :
    ensureLoaded env f m =
      (loadedImage env f m.toImage).map fun im => { m with toImage := im } := by
  unfold ensureLoaded loadedImage
  split <;> rfl

theorem loadedImage_push (hload : LoadsAlike env) (f v : Word) (m : Machine) :
    (loadedImage env f (m.push v).toImage).map Image.files =
      (loadedImage env f m.toImage).map Image.files := by
  unfold loadedImage
  rw [push_files]
  split
  · rfl
  · exact hload f m v

theorem getPcAfterCall_eq (operand_size : Nat) :
    getPcAfterCall env m fcf func_index operand_size =
      match callee env m.toImage fcf func_index with
      | .place f p => some (f, p)
      | .library => some (m.cf, m.pc + BitVec.ofNat 64 (operand_size + 1 + 1))
      | .fault => none := by
  unfold getPcAfterCall callee
  by_cases hpos : 0 < func_index
  · rw [if_pos hpos, if_pos hpos]
  · rw [if_neg hpos, if_neg hpos]
    by_cases hfile : ((m.files fcf).cf_funcrefs func_index).er_file = 0
    · simp only [hfile, ne_eq, not_true_eq_false, if_false, if_true]
    · simp only [hfile, ne_eq, not_false_eq_true, if_true, if_false, ensureLoaded_eq]
      cases loadedImage env ((m.files fcf).cf_funcrefs func_index).er_file m.toImage <;> rfl

theorem fallsThrough_leaveCall (e : CallEffect) : FallsThrough m 0 (leaveCall m e) := by
  unfold leaveCall
  dsimp only
  split
  · exact .stay rfl rfl
  · exact .quit _

theorem fallsThrough_libcall (er : ExtRef) (nargs : Nat) (typecode : BitVec 8) :
    FallsThrough m 0 (if er.er_indirect then
        leaveCall m (env.indirect_call_proc er.er_addr nargs typecode m)
      else if 20 < nargs then .panic
      else leaveCall m (env.libfunc er.er_addr (libArgs m nargs) typecode m)) := by
  split
  · exact fallsThrough_leaveCall _
  · split
    · exact .panic
    · exact fallsThrough_leaveCall _

/-- The place where a call that does not fail continues. -/
theorem funcCall_next (hload : LoadsAlike env) (h : funcCall env m fcf func_index = .next m') :
    callee env m.toImage fcf func_index = .place m'.cf m'.pc ∨
      callee env m.toImage fcf func_index = .library ∧ m'.cf = m.cf ∧ m'.pc = m.pc + 2#64 := by
  unfold funcCall at h
  unfold callee
  dsimp only at h
  by_cases hpos : 0 < func_index
  · rw [if_pos hpos] at h
    rw [if_pos hpos]
    cases h
    exact Or.inl rfl
  · rw [if_neg hpos] at h
    rw [if_neg hpos]
    by_cases hfile : ((m.files fcf).cf_funcrefs func_index).er_file = 0
    · right
      have hskip : ¬(((m.skip 2).files fcf).cf_funcrefs func_index).er_file ≠ 0 := not_not.mpr hfile
      rw [if_neg hskip] at h
      refine ⟨if_pos hfile, ?_⟩
      have hleft : FallsThrough (m.skip 2) 0 (.next m') := by
        rw [← h]
        exact fallsThrough_libcall _ _ _
      obtain ⟨hcf, hpc⟩ := hleft m' rfl
      rw [BitVec.add_zero] at hpc
      exact ⟨hcf, hpc⟩
    · left
      simp only [skip_files, hfile, ne_eq, not_false_eq_true, if_true, ensureLoaded_eq] at h
      have himage := loadedImage_push hload ((m.files fcf).cf_funcrefs func_index).er_file m.cf
        (m.skip 2)
      simp only [hfile, if_false]
      -- the machine loads the file once the word is pushed, the callee is of the image before
      cases hpushed : loadedImage env ((m.files fcf).cf_funcrefs func_index).er_file
          ((m.skip 2).push m.cf).toImage with
      | none =>
        rw [skip_cf, hpushed] at h
        cases h
      | some im =>
        rw [skip_cf, hpushed] at h
        rw [hpushed] at himage
        obtain ⟨im', him', hfiles⟩ := Option.map_eq_some_iff.mp himage.symm
        have him : loadedImage env ((m.files fcf).cf_funcrefs func_index).er_file m.toImage =
            some im' := him'
        rw [him]
        dsimp only
        rw [hfiles]
        cases h
        rfl

end

/-! ## One byte early -/

/-- The displacement of a jump whose operand is at the text pointer. -/
def displacement (m : Machine) : Int := (BitVec.ofNat 16 (m.get 2)).toInt

theorem load_succ (mem : le_bytes.Mem 64) (a : Word) (n : Nat) :
    load mem a (n + 1) = (mem a).toNat + 256 * load mem (a + 1#64) n := by
  unfold load le_bytes.readBytes
  rw [List.range_succ_eq_map, List.map_cons, le_bytes.ofLeBytes, BitVec.add_zero, List.map_map]
  congr 3
  apply List.map_congr_left
  intro i _
  rw [Function.comp_apply, Nat.succ_eq_add_one, Nat.add_comm i 1, BitVec.ofNat_add,
    BitVec.add_assoc]

theorem get_two (m : Machine) : m.get 2 = m.get 1 + 256 * (m.skip 1).get 1 := by
  have hzero : ∀ a, load m.text a 0 = 0 := by
    intro a
    unfold load
    rfl
  unfold Machine.get
  rw [load_succ, load_succ m.text m.pc 0, hzero]
  rfl

theorem get_one_lt (m : Machine) : m.get 1 < 256 := load_lt m.text m.pc 1

theorem skip_one_one (m : Machine) : (m.skip 1).skip 1 = m.skip 2 := by
  unfold Machine.skip
  rw [BitVec.add_assoc]
  rfl

theorem toInt_short {z : Nat} (h : z < 65536) :
    (BitVec.ofNat 16 z).toInt = if z < 32768 then (z : Int) else z - 65536 := by
  rw [BitVec.toInt_eq_toNat_cond, BitVec.toNat_ofNat, Nat.mod_eq_of_lt h]
  split <;> split <;> omega

theorem add_early_iff (pc : Word) {a b : Int} (ha : -65536 ≤ a ∧ a < 65536)
    (hb : -65536 ≤ b ∧ b < 65536) :
    pc + 1#64 + BitVec.ofInt 64 a = pc + 2#64 + BitVec.ofInt 64 b ↔ a = b + 1 := by
  have htwo : pc + 2#64 + BitVec.ofInt 64 b = pc + 1#64 + BitVec.ofInt 64 (b + 1) := by
    rw [Int.add_comm b 1, BitVec.ofInt_add, ← BitVec.add_assoc, BitVec.add_assoc pc 1#64]
    rfl
  rw [htwo, BitVec.add_right_inj]
  constructor
  · intro h
    have hint := congrArg BitVec.toInt h
    rwa [BitVec.toInt_ofInt, BitVec.toInt_ofInt,
      Int.bmod_eq_of_le (by omega) (by omega), Int.bmod_eq_of_le (by omega) (by omega)] at hint
  · rintro rfl
    rfl

/-- With a zero in front of its operand, a jump one byte early leads to the same place for
exactly one displacement. -/
theorem jump_early_iff (m : Machine) (h : (m.skip 1).get 1 = 0) :
    (m.skip 1).jump.pc = (m.skip 2).jump.pc ↔ displacement (m.skip 2) = -257 := by
  have h1 := get_two (m.skip 1)
  have h2 := get_two (m.skip 2)
  have hlt2 := get_one_lt (m.skip 2)
  have hlt3 := get_one_lt ((m.skip 2).skip 1)
  rw [skip_one_one, h] at h1
  unfold Machine.jump displacement
  dsimp only
  rw [h1, h2]
  generalize (m.skip 2).get 1 = x at *
  generalize ((m.skip 2).skip 1).get 1 = y at *
  have hearly := toInt_short (show 0 + 256 * x < 65536 by omega)
  have hdue := toInt_short (show x + 256 * y < 65536 by omega)
  have hiff := add_early_iff m.pc (a := (BitVec.ofNat 16 (0 + 256 * x)).toInt)
    (b := (BitVec.ofNat 16 (x + 256 * y)).toInt)
    (by rw [hearly]; split <;> omega) (by rw [hdue]; split <;> omega)
  refine hiff.trans ?_
  rw [hearly, hdue]
  split <;> split <;> omega

/-! ## Switches -/

theorem setWidth_sub_signedOf (a b : Word) :
    (a - signedOf 4 b).setWidth 32 = (a - b).setWidth 32 := by
  have h : (signedOf 4 b).setWidth 32 = b.setWidth 32 := by
    unfold signedOf
    apply BitVec.eq_of_getLsbD_eq
    intro i hi
    simp only [BitVec.getLsbD_setWidth, BitVec.getLsbD_signExtend]
    have : i < 64 := by omega
    simp [hi, this]
  rw [BitVec.sub_eq_add_neg, BitVec.sub_eq_add_neg, BitVec.setWidth_add _ _ (by decide),
    BitVec.setWidth_add _ _ (by decide), BitVec.setWidth_neg_of_le (by decide),
    BitVec.setWidth_neg_of_le (by decide), h]

/-- The debugger and the machine find the same place when they start at the same byte. -/
theorem pcAfterSwitchOnTable_eq (m : Machine) :
    pcAfterSwitchOnTable m = (switchOnTable m).pc := by
  unfold pcAfterSwitchOnTable switchOnTable
  dsimp only
  rw [setWidth_sub_signedOf]
  rfl

theorem chainLoop_eq (s : OpSize) (v : Int) (ncase : Nat) (m m' : Machine)
    (htext : m.text = m'.text) (hpc : m.pc = m'.pc) :
    chainLoop s v ncase m = (switchOnChain s v ncase m').pc := by
  have hget : ∀ (a b : Machine) n, a.text = b.text → a.pc = b.pc → a.get n = b.get n := by
    intro a b n h h'
    unfold Machine.get
    rw [h, h']
  have hjump : ∀ a b : Machine, a.text = b.text → a.pc = b.pc → a.jump.pc = b.jump.pc := by
    intro a b h h'
    unfold Machine.jump
    dsimp only
    rw [h', hget a b 2 h h']
  induction ncase generalizing m m' with
  | zero => exact hjump m m' htext hpc
  | succ ncase ih =>
    unfold chainLoop switchOnChain operand past
    dsimp only
    rw [hget m m' _ htext hpc]
    split
    · exact hjump _ _ htext (by rw [skip_pc, skip_pc, hpc])
    · exact ih _ _ htext (by rw [skip_pc, skip_pc, skip_pc, skip_pc, hpc])

theorem getPcAfterSwitchOnChain_eq (s : OpSize) (m : Machine) :
    getPcAfterSwitchOnChain s m =
      (switchOnChain s (switchval m ((m.skip 2).get 4)) (m.get 2) (m.pop.skip 6)).pc := by
  unfold getPcAfterSwitchOnChain switchval toCInt
  dsimp only
  rw [setWidth_sub_signedOf]
  apply chainLoop_eq
  · rfl
  · rw [skip_pc, skip_pc, skip_pc, BitVec.add_assoc]
    rfl

/-! ## When the prediction is right -/

/-- Whether the call of `due`, with the text pointer `after` behind it, leads to the place that
`early` gives, which is what the debugger takes for the function. -/
def CallAgrees (due early : Callee) (cf after : Word) : Prop :=
  match due, early with
  | .place f p, .place f' p' => f = f' ∧ p = p'
  | .place f p, .library => f = cf ∧ p = after - 1#64
  | .library, .place f' p' => f' = cf ∧ p' = after
  | _, _ => False

/-- The opcodes whose low byte is the number of one with an operand of one byte. -/
def shortTwins : List Opcode :=
  [.OC_NOT_EQUAL .LONG, .OC_GREATER_SIGNED .LONG, .OC_LESS_OR_EQUAL_SIGNED .LONG]

/-- The opcodes whose low byte is the number of a call. -/
def callTwin : Opcode → Option OpSize
  | .OC_IS_EQUAL .LONG => some .B
  | .OC_IS_EQUAL .FLOAT => some .W
  | .OC_IS_EQUAL .DOUBLE => some .L
  | .OC_NOT_EQUAL .LONG_LONG => some .Q
  | _ => none

/-- The file of a function pointer, of which the debugger keeps the low 32 bits. -/
def pointerFile (env : Env) (addr : Word) : Word :=
  env.cftab + (addr >>> 16) * BitVec.ofNat 64 codefileSize

/-- What the instruction at the text pointer finds when its operands are read where they are,
against one byte early. -/
def Predictable (env : Env) (m : Machine) (op : Opcode) : Prop :=
  let early := m.skip 1
  let due := m.skip 2
  match op with
  | .OC_RET | .OC_RET_WORD | .OC_RET_FLOAT | .OC_RET_DOUBLE | .OC_SETJMP | .OC_LONGJMP => True
  | .OC_RET_LONG_LONG =>
    loadWord m.mem (m.fp + words 2) = m.cf ∧ loadWord m.mem (m.fp + words 1) = early.pc
  | .OC_RET_STRUCT =>
    loadWord m.mem (m.fp + words 2) = m.cf ∧ loadWord m.mem (m.fp + words 1) = early.pc + 4#64
  | .OC_JUMP => displacement due = -257
  | .OC_JUMP_IF_ZERO => m.slot 0 = 0#64 ∧ displacement due = -257
  | .OC_JUMP_IF_NON_ZERO => m.slot 0 ≠ 0#64 ∧ displacement due = -257
  | .OC_SWITCH_ON_TABLE => (switchOnTable early).pc = (switchOnTable due).pc
  | .OC_SWITCH_ON_CHAIN s =>
    getPcAfterSwitchOnChain s early = getPcAfterSwitchOnChain s due
  | .OC_CALL s =>
    CallAgrees (callee env m.toImage m.cf (toCInt (operand due s)))
      (callee env m.toImage m.cf (toCInt (operand early s))) m.cf
      (due.pc + BitVec.ofNat 64 (s.nbytes + 2))
  | .OC_CALL_INDIRECT =>
    let func_index := ((m.slot 0).setWidth 16).toInt
    CallAgrees (calleeIndirect env m.toImage (pointerFile env (m.slot 0)) func_index)
      (calleeIndirect env m.toImage (pointerFile env (unsignedOf 4 (m.slot 0))) func_index)
      m.cf (due.pc + 2#64)
  | op =>
    op ∈ shortTwins ∨ ∃ s, callTwin op = some s ∧
      callee env m.toImage m.cf (toCInt (operand early s)) = .place m.cf due.pc

/-! ### The low byte of an opcode -/

theorem low_opcodes : ∀ op ∈ opcodeTable.take 256, op ∉ shortTwins ∧ callTwin op = none := by
  decide +kernel

def callSize : Opcode → Option OpSize
  | .OC_CALL s => some s
  | _ => none

/-- What is checked of an opcode with a high byte and of the one of its low byte. -/
def highOk (op low : Opcode) : Bool :=
  !controls op && ciOperandSize op 0 == some 0 && callTwin op == callSize low &&
  match callSize low with
  | some s => decide (low = .OC_CALL s ∧ op ∉ shortTwins)
  | none => !controls low &&
      match ciOperandSize low 0 with
      | some n => decide ((n = 1 ↔ op ∈ shortTwins) ∧ n < 256)
      | none => false

theorem high_opcodes : ∀ p ∈ (opcodeTable.drop 256).zip opcodeTable, highOk p.1 p.2 = true := by
  decide

section
variable {env : Env} {m m' : Machine} {op low : Opcode}

theorem low_byte (h : m.get 2 < 256) : m.get 1 = m.get 2 ∧ (m.skip 1).get 1 = 0 := by
  have htwo := get_two m
  constructor <;> omega

set_option maxRecDepth 8000 in
theorem high_byte (hop : opcodeOf (m.get 2) = some op) (h : 256 ≤ m.get 2) :
    ∃ low, opcodeOf (m.get 1) = some low ∧ highOk op low = true := by
  have htwo := get_two m
  have hlt := get_one_lt m
  have hlen : opcodeTable.length = 314 := by decide
  obtain ⟨hn, -⟩ := List.getElem?_eq_some_iff.mp hop
  have hget : (opcodeTable.drop 256)[m.get 1]? = some op := by
    rw [List.getElem?_drop, show 256 + m.get 1 = m.get 2 by omega]
    exact hop
  have hlow : m.get 1 < opcodeTable.length := by omega
  obtain ⟨low, hlow⟩ : ∃ low, opcodeTable[m.get 1]? = some low :=
    ⟨_, List.getElem?_eq_getElem hlow⟩
  refine ⟨low, hlow, high_opcodes (op, low) ?_⟩
  apply List.mem_of_getElem?
  rw [List.getElem?_zip_eq_some]
  exact ⟨hget, hlow⟩

/-- Of an opcode that does not control, what is predicted is the place behind its operands, which
are taken to begin behind the first byte. -/
theorem ciGetNextPcAndCf_plain (hlow : opcodeOf (m.get 1) = some low)
    (h : controls low = false) :
    ciGetNextPcAndCf env m =
      (ciOperandSize low 0).map fun n => (m.cf, m.pc + 1#64 + BitVec.ofNat 64 n) := by
  unfold ciGetNextPcAndCf
  rw [hlow]
  cases low with
  | OC_CALL | OC_CALL_INDIRECT | OC_RET | OC_RET_WORD | OC_RET_LONG_LONG | OC_RET_FLOAT
  | OC_RET_DOUBLE | OC_RET_STRUCT | OC_SETJMP | OC_LONGJMP | OC_JUMP | OC_JUMP_IF_ZERO
  | OC_JUMP_IF_NON_ZERO | OC_SWITCH_ON_TABLE | OC_SWITCH_ON_CHAIN => cases h
  | _ => rfl

theorem predictable_plain (h : controls op = false) :
    Predictable env m op ↔ op ∈ shortTwins ∨ ∃ s, callTwin op = some s ∧
      callee env m.toImage m.cf (toCInt (operand (m.skip 1) s)) = .place m.cf (m.skip 2).pc := by
  cases op with
  | OC_CALL | OC_CALL_INDIRECT | OC_RET | OC_RET_WORD | OC_RET_LONG_LONG | OC_RET_FLOAT
  | OC_RET_DOUBLE | OC_RET_STRUCT | OC_SETJMP | OC_LONGJMP | OC_JUMP | OC_JUMP_IF_ZERO
  | OC_JUMP_IF_NON_ZERO | OC_SWITCH_ON_TABLE | OC_SWITCH_ON_CHAIN => cases h
  | _ => exact Iff.rfl

theorem ciGetNextPcAndCf_call {s : OpSize} (hlow : opcodeOf (m.get 1) = some (.OC_CALL s)) :
    ciGetNextPcAndCf env m =
      match callee env m.toImage m.cf (toCInt (operand (m.skip 1) s)) with
      | .place f p => some (f, p)
      | .library => some (m.cf, m.pc + 1#64 + BitVec.ofNat 64 (s.nbytes + 1 + 1))
      | .fault => none := by
  unfold ciGetNextPcAndCf
  rw [hlow]
  exact getPcAfterCall_eq s.nbytes

theorem add_one_add_iff (pc : Word) {n : Nat} (h : n < 256) :
    pc + 1#64 + BitVec.ofNat 64 n = pc + 2#64 ↔ n = 1 := by
  rw [BitVec.add_assoc, BitVec.add_right_inj]
  constructor
  · intro heq
    have hnat := congrArg BitVec.toNat heq
    simp at hnat
    omega
  · rintro rfl
    rfl

/-- An opcode with a high byte. -/
theorem predicted_high (hop : opcodeOf (m.get 2) = some op) (h : 256 ≤ m.get 2)
    (hstep : execOp env op (m.skip 2) = .next m') :
    ciGetNextPcAndCf env m = some (m'.cf, m'.pc) ↔ Predictable env m op := by
  obtain ⟨low, hlow, hok⟩ := high_byte hop h
  unfold highOk at hok
  simp only [Bool.and_eq_true, Bool.not_eq_true', beq_iff_eq] at hok
  obtain ⟨⟨⟨hcontrols, hsize⟩, htwin⟩, hlast⟩ := hok
  obtain ⟨hcf, hpc⟩ := execOp_fallsThrough env op (m.skip 2) 0 hcontrols 0 hsize m' hstep
  have hpc : m'.pc = m.pc + 2#64 := by
    rw [hpc, BitVec.add_zero]
    rfl
  have hcf : m'.cf = m.cf := hcf
  rw [predictable_plain hcontrols, hcf, hpc, htwin]
  cases hcall : callSize low with
  | some s =>
    simp only [hcall, decide_eq_true_eq] at hlast
    obtain ⟨rfl, hshort⟩ := hlast
    rw [ciGetNextPcAndCf_call hlow]
    have hbehind : m.pc + 1#64 + BitVec.ofNat 64 (s.nbytes + 1 + 1) ≠ m.pc + 2#64 := by
      have hs : s.nbytes + 1 + 1 < 256 := by cases s <;> decide
      rw [Ne, add_one_add_iff m.pc hs]
      omega
    cases hcallee : callee env m.toImage m.cf (toCInt (operand (m.skip 1) s)) with
    | place f p => simp [hshort, hcallee]
    | library => simp [hshort, hcallee, hbehind]
    | fault => simp [hshort, hcallee]
  | none =>
    simp only [hcall, Bool.and_eq_true, Bool.not_eq_true'] at hlast
    obtain ⟨hlowc, hlast⟩ := hlast
    rw [ciGetNextPcAndCf_plain hlow hlowc]
    cases hn : ciOperandSize low 0 with
    | none => simp [hn] at hlast
    | some n =>
      simp only [hn, decide_eq_true_eq] at hlast
      obtain ⟨hone, hlt⟩ := hlast
      have hiff := add_one_add_iff m.pc hlt
      simp only [Option.map_some, Option.some.injEq, Prod.mk.injEq, true_and, hiff, hone,
        reduceCtorEq, false_and, exists_false, or_false]

/-- The other opcodes without control of the text pointer: never. -/
theorem predicted_low_plain (hop : opcodeOf (m.get 2) = some op) (h : m.get 2 < 256)
    (hcontrols : controls op = false) (hstep : execOp env op (m.skip 2) = .next m') :
    ciGetNextPcAndCf env m = some (m'.cf, m'.pc) ↔ Predictable env m op := by
  have hlow : opcodeOf (m.get 1) = some op := by
    rw [(low_byte h).1]
    exact hop
  have hmem : op ∈ opcodeTable.take 256 := by
    apply List.mem_of_getElem?
    rw [List.getElem?_take_of_lt h]
    exact hop
  obtain ⟨hshort, htwin⟩ := low_opcodes op hmem
  have hnot : ¬Predictable env m op := by
    rw [predictable_plain hcontrols, htwin]
    rintro (h | ⟨s, h, -⟩)
    · exact hshort h
    · cases h
  rw [iff_false_right hnot, ciGetNextPcAndCf_plain hlow hcontrols]
  cases hn : ciOperandSize op 0 with
  | none =>
    intro h
    cases h
  | some n =>
    obtain ⟨hcf, hpc⟩ := execOp_fallsThrough env op (m.skip 2) 0 hcontrols n hn m' hstep
    have hne : m.pc + 1#64 + BitVec.ofNat 64 n ≠ m.pc + 2#64 + BitVec.ofNat 64 n := by
      rw [Ne, BitVec.add_left_inj, BitVec.add_right_inj]
      decide
    intro h
    apply hne
    have hsecond := congrArg Prod.snd (Option.some.inj h)
    exact hsecond.trans hpc

/-! ### The opcodes that control the text pointer -/

theorem some_pairs_iff {f f' p p' : Word} :
    some (f, p) = some (f', p') ↔ f' = f ∧ p' = p := by
  rw [Option.some_inj, Prod.mk.injEq, eq_comm, @eq_comm Word p]

theorem callAgrees_iff {due early : Callee} {cf after : Word}
    (hdue : due = .place m'.cf m'.pc ∨ due = .library ∧ m'.cf = cf ∧ m'.pc = after) :
    (match early with
      | .place f p => some (f, p)
      | .library => some (cf, after - 1#64)
      | .fault => none) = some (m'.cf, m'.pc) ↔ CallAgrees due early cf after := by
  have hne : after - 1#64 ≠ after := by
    intro h
    have h0 : after - 1#64 = after - 0#64 := by rw [h, BitVec.sub_zero]
    rw [BitVec.sub_eq_add_neg, BitVec.sub_eq_add_neg, BitVec.add_right_inj] at h0
    exact absurd h0 (by decide)
  unfold CallAgrees
  rcases hdue with rfl | ⟨rfl, hcf, hpc⟩
  · cases early with
    | place f p => simp only [Option.some.injEq, Prod.mk.injEq, eq_comm]
    | library => simp only [Option.some.injEq, Prod.mk.injEq, eq_comm]
    | fault => simp only [reduceCtorEq]
  · cases early with
    | place f p => simp only [Option.some.injEq, Prod.mk.injEq, hcf, hpc]
    | library => simp only [Option.some.injEq, Prod.mk.injEq, hcf, hpc, hne, and_false]
    | fault => simp only [reduceCtorEq]

theorem predicted_call (hload : LoadsAlike env) {s : OpSize}
    (hlow : opcodeOf (m.get 1) = some (.OC_CALL s))
    (hstep : execOp env (.OC_CALL s) (m.skip 2) = .next m') :
    ciGetNextPcAndCf env m = some (m'.cf, m'.pc) ↔ Predictable env m (.OC_CALL s) := by
  have hnext := funcCall_next hload hstep
  have hafter : (past (m.skip 2) s).pc + 2#64 =
      (m.skip 2).pc + BitVec.ofNat 64 (s.nbytes + 2) := by
    rw [BitVec.ofNat_add, ← BitVec.add_assoc]
    rfl
  have hbefore : m.pc + 1#64 + BitVec.ofNat 64 (s.nbytes + 1 + 1) =
      (m.skip 2).pc + BitVec.ofNat 64 (s.nbytes + 2) - 1#64 := by
    rw [skip_pc]
    generalize BitVec.ofNat 64 (s.nbytes + 1 + 1) = n
    bv_omega
  rw [hafter] at hnext
  rw [ciGetNextPcAndCf_call hlow, hbefore]
  exact callAgrees_iff hnext

theorem predictedFile_eq (env : Env) (addr : Word) :
    env.cftab + ((addr.setWidth 32 >>> 16).setWidth 64) * BitVec.ofNat 64 codefileSize =
      pointerFile env (unsignedOf 4 addr) := by
  unfold pointerFile unsignedOf
  congr 2

theorem ciGetNextPcAndCf_call_indirect (hlow : opcodeOf (m.get 1) = some .OC_CALL_INDIRECT) :
    ciGetNextPcAndCf env m =
      match calleeIndirect env m.toImage (pointerFile env (unsignedOf 4 (m.slot 0)))
        ((m.slot 0).setWidth 16).toInt with
      | .place f p => some (f, p)
      | .library => some (m.cf, m.pc + 3#64)
      | .fault => none := by
  have hindex : ((m.slot 0).setWidth 32).setWidth 16 = (m.slot 0).setWidth 16 :=
    BitVec.setWidth_setWidth_of_le _ (by decide)
  have hthree : m.pc + 1#64 + 2#64 = m.pc + 3#64 := by
    rw [BitVec.add_assoc]
    rfl
  unfold ciGetNextPcAndCf calleeIndirect
  rw [hlow]
  dsimp only
  rw [skip_slot, predictedFile_eq, hindex, ensureLoaded_eq]
  cases him : loadedImage env (pointerFile env (unsignedOf 4 (m.slot 0))) m.toImage with
  | none =>
    have him' : loadedImage env (pointerFile env (unsignedOf 4 (m.slot 0)))
      (m.skip 1).toImage = none := him
    rw [him']
    rfl
  | some im =>
    have him' : loadedImage env (pointerFile env (unsignedOf 4 (m.slot 0)))
      (m.skip 1).toImage = some im := him
    rw [him', Option.map_some]
    dsimp only
    rw [getPcAfterCall_eq]
    dsimp only
    rw [← hthree]
    rfl

theorem predicted_call_indirect (hload : LoadsAlike env)
    (hlow : opcodeOf (m.get 1) = some .OC_CALL_INDIRECT)
    (hstep : execOp env .OC_CALL_INDIRECT (m.skip 2) = .next m') :
    ciGetNextPcAndCf env m = some (m'.cf, m'.pc) ↔ Predictable env m .OC_CALL_INDIRECT := by
  have hnext : calleeIndirect env m.toImage (pointerFile env (m.slot 0))
        ((m.slot 0).setWidth 16).toInt = .place m'.cf m'.pc ∨
      calleeIndirect env m.toImage (pointerFile env (m.slot 0))
        ((m.slot 0).setWidth 16).toInt = .library ∧
        m'.cf = m.cf ∧ m'.pc = (m.skip 2).pc + 2#64 := by
    unfold calleeIndirect
    unfold execOp callIndirect at hstep
    dsimp only at hstep
    rw [skip_slot, ensureLoaded_eq] at hstep
    cases him : loadedImage env (pointerFile env (m.slot 0)) m.toImage with
    | none =>
      have him' : loadedImage env (env.cftab + m.slot 0 >>> 16 * BitVec.ofNat 64 codefileSize)
        (m.skip 2).pop.toImage = none := him
      rw [him'] at hstep
      cases hstep
    | some im =>
      have him' : loadedImage env (env.cftab + m.slot 0 >>> 16 * BitVec.ofNat 64 codefileSize)
        (m.skip 2).pop.toImage = some im := him
      rw [him'] at hstep
      exact funcCall_next hload hstep
  have hbefore : m.pc + 3#64 = (m.skip 2).pc + 2#64 - 1#64 := by
    rw [skip_pc]
    bv_omega
  rw [ciGetNextPcAndCf_call_indirect hlow, hbefore]
  exact callAgrees_iff hnext

theorem pop_slot (m : Machine) (i : Nat) : m.pop.slot i = m.slot (i + 1) := by
  have h : m.pop.sp + words i = m.sp + words (i + 1) := by
    unfold words
    rw [Nat.mul_succ, Nat.add_comm, BitVec.ofNat_add, ← BitVec.add_assoc]
    rfl
  unfold Machine.slot
  rw [h]
  rfl

theorem retStruct_returns (m : Machine) :
    (retStruct m).cf = loadWord m.mem (m.fp + words 2) ∧
      (retStruct m).pc = loadWord m.mem (m.fp + words 1) := by
  unfold retStruct
  dsimp only
  split
  · exact ⟨rfl, rfl⟩
  · exact ⟨rfl, rfl⟩

theorem switchOnChain_cf (s : OpSize) (v : Int) (ncase : Nat) (m : Machine) :
    (switchOnChain s v ncase m).cf = m.cf := by
  induction ncase generalizing m with
  | zero => rfl
  | succ ncase ih =>
    unfold switchOnChain
    split
    · rfl
    · exact ih _

theorem predicted_jump_if (hzero : (m.skip 1).get 1 = 0) (c : Prop) [Decidable c]
    (hm' : m' = if c then (m.skip 2).pop.jump else (m.skip 2).pop.skip 2) :
    some (m.cf, if c then (m.skip 1).jump.pc else (m.skip 1).pc + 2#64) = some (m'.cf, m'.pc) ↔
      c ∧ displacement (m.skip 2) = -257 := by
  rw [some_pairs_iff, hm']
  by_cases hc : c
  · rw [if_pos hc, if_pos hc, ← jump_early_iff m hzero, and_iff_right hc]
    exact (and_iff_right rfl).trans eq_comm
  · rw [if_neg hc, if_neg hc]
    refine iff_of_false ?_ fun h => hc h.1
    rintro ⟨-, h⟩
    have h : m.pc + 2#64 + 2#64 = m.pc + 1#64 + 2#64 := h
    rw [BitVec.add_left_inj, BitVec.add_right_inj] at h
    exact absurd h (by decide)

/-- The opcodes that control the text pointer and are not calls. -/
theorem predicted_low (hlow : opcodeOf (m.get 1) = some op) (hzero : (m.skip 1).get 1 = 0)
    (hcontrols : controls op = true) (hcall : ∀ s, op ≠ .OC_CALL s) (hind : op ≠ .OC_CALL_INDIRECT)
    (hstep : execOp env op (m.skip 2) = .next m') :
    ciGetNextPcAndCf env m = some (m'.cf, m'.pc) ↔ Predictable env m op := by
  have hjump := jump_early_iff m hzero
  unfold ciGetNextPcAndCf Predictable
  rw [hlow]
  cases op with
  | OC_CALL s => exact absurd rfl (hcall s)
  | OC_CALL_INDIRECT => exact absurd rfl hind
  | OC_RET | OC_RET_WORD | OC_RET_FLOAT | OC_RET_DOUBLE | OC_LONGJMP =>
    cases hstep
    exact iff_true_intro rfl
  | OC_SETJMP =>
    cases hstep
    have hsecond : (m.skip 2).pop.slot 0 = m.slot 1 := by rw [pop_slot, skip_slot]
    have hcf : (setjmp (m.skip 2)).cf = m.slot 1 := hsecond
    rw [hcf]
    exact iff_true_intro rfl
  | OC_RET_LONG_LONG =>
    cases hstep
    refine (some_pairs_iff (p := (m.skip 1).pc + 0#64)).trans ?_
    rw [BitVec.add_zero]
    rfl
  | OC_RET_STRUCT =>
    cases hstep
    obtain ⟨hcf, hpc⟩ := retStruct_returns (m.skip 2)
    rw [hcf, hpc]
    exact some_pairs_iff
  | OC_JUMP =>
    cases hstep
    exact (some_pairs_iff.trans (and_iff_right rfl)).trans (eq_comm.trans hjump)
  | OC_JUMP_IF_ZERO =>
    have hm' : m' = if m.slot 0 = 0#64 then (m.skip 2).pop.jump else (m.skip 2).pop.skip 2 := by
      rw [← skip_slot m 2 0]
      exact (Outcome.next.inj hstep).symm
    dsimp only
    rw [skip_slot]
    exact predicted_jump_if hzero _ hm'
  | OC_JUMP_IF_NON_ZERO =>
    have hm' : m' = if m.slot 0 ≠ 0#64 then (m.skip 2).pop.jump else (m.skip 2).pop.skip 2 := by
      rw [← skip_slot m 2 0]
      exact (Outcome.next.inj hstep).symm
    dsimp only
    rw [skip_slot]
    exact predicted_jump_if hzero _ hm'
  | OC_SWITCH_ON_TABLE =>
    cases hstep
    dsimp only
    rw [pcAfterSwitchOnTable_eq]
    exact (some_pairs_iff.trans (and_iff_right rfl)).trans eq_comm
  | OC_SWITCH_ON_CHAIN s =>
    have hdue := getPcAfterSwitchOnChain_eq s (m.skip 2)
    have hcf := switchOnChain_cf s (switchval (m.skip 2) (((m.skip 2).skip 2).get 4))
      ((m.skip 2).get 2) ((m.skip 2).pop.skip 6)
    cases hstep
    dsimp only
    rw [hcf, hdue]
    exact (some_pairs_iff.trans (and_iff_right rfl)).trans eq_comm
  | _ => cases hcontrols

end

/-! ## The law -/

/-- The long machine at an instruction without operands. -/
def atOpcode (op : Opcode) : Machine :=
  { longMachine with
    text := fun a => if a = 0#64 then BitVec.ofNat 8 op.num else BitVec.ofNat 8 (op.num / 256) }

end ups_rules.next_pc
