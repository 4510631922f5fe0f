-- The operand that ci_code_generic_opcode codes is the operand that the machine reads, in every form
-- of the opcode.
import Ups.StackWords

open le_bytes
open ups_rules.machine
open ups_rules.opcodes
open ups_rules.execute
open ups_rules.code_text
open ups_rules.compile_expr
open ups_rules.code_layout

namespace ups_rules.operand_forms

/-! ## The pure model -/

/-- The opcodes that `ci_code_generic_opcode` is called with. -/
inductive Operation where
  | LINK | CALL
  | generic (g : Generic)

def Operation.form : Operation → OpSize → Opcode
  | .LINK => .OC_LINK
  | .CALL => .OC_CALL
  | .generic g => g.form

/-- What the operation does with the argument. The machine is behind the operand. -/
def Operation.perform (env : Env) (o : Operation) (arg : Word) (m : Machine) : Outcome :=
  match o with
  | .LINK =>
    let m := m.push m.fp
    let m := { m with fp := m.sp, sp := m.sp - arg }
    if env.minsp ≤ m.sp - BitVec.ofNat 64 (m.get 4) then .next (m.skip 4)
    else .quit .CI_ER_STACK_OVERFLOW m
  | .CALL => funcCall env m m.cf (toCInt arg)
  | .generic .POPMANY => .next { m with sp := m.sp + arg }
  | .generic .PROC_MEMCPY => procMemcpy env m arg.toNat
  | .generic .MEMCPY => .next (memcpy m arg.toNat)
  | .generic .NEG_CONSTPUSH => .next (m.push (-arg))
  | .generic .CONSTPUSH => .next (m.push arg)
  | .generic .CHECK_SP => if (m.fp - m.sp).toInt ≠ toCInt arg then .panic else .next m
  | .generic .PUSH_STACKADDR => .next (m.push (m.fp + arg))
  | .generic (.PROC_PUSH_ADDR r) => .next (m.push (regaddr env r + arg))
  | .generic (.PUSH_AT_STACKADDR t) => .next (m.push (fetch t m.mem (m.fp + arg)))
  | .generic (.PUSH_AT_ADDR t) => .next (m.push (fetch t m.mem arg))

/-- Where `ci_code_opcode` puts the opcode, behind a check of the stack pointer if there is one. -/
def opcodeAt (tx : Text) (op : Opcode) : Nat :=
  (if tx.tx_checksp && !uncheckedSp op then codeCheckSp tx else tx).tx_text.length

/-! ## Reading what was coded -/

/-- The text behind a call of `ci_code_generic_opcode`: what was there, the opcode and the operand. -/
theorem ciCodeGenericOpcode_text (tx : Text) (op : OpSize → Opcode) (arg : Word) :
    ∃ before, before.length = opcodeAt tx (op (formFor arg)) ∧
      (ciCodeGenericOpcode tx op arg).tx_text =
        before ++ (leBytes 2 (op (formFor arg)).num ++ leBytes (formFor arg).nbytes arg.toNat) := by
  refine ⟨_, rfl, ?_⟩
  unfold ciCodeGenericOpcode ciCodeOpcode
  rw [(adds_operand _ _ _).text, (begins_codeOpcode _ _).text, List.append_assoc]

section
variable {env : Env} {m : Machine}

/-- The form holds the argument, so that nothing of it is cut off. -/
theorem get_formFor {arg : Word} (h : Holds m.text m.pc (leBytes (formFor arg).nbytes arg.toNat)) :
    m.get (formFor arg).nbytes = arg.toNat := by
  have hop := congrArg BitVec.toNat (stack_words.operand_of_holds h)
  have hget := stack_words.get_of_holds h
  have hlt := arg.isLt
  have hle : arg.toNat % 256 ^ (formFor arg).nbytes ≤ arg.toNat := Nat.mod_le _ _
  rw [operand, BitVec.toNat_ofNat, hget] at hop
  rw [hget]
  omega

/-- The machine at a coded operation does it with the argument that was coded. -/
theorem step_operation (o : Operation) {arg : Word}
    (h : Holds m.text m.pc
      (leBytes 2 (o.form (formFor arg)).num ++ leBytes (formFor arg).nbytes arg.toNat)) :
    step env m = o.perform env arg (m.skip (2 + (formFor arg).nbytes)) := by
  obtain ⟨hopcode, hoperand⟩ := holds_append.1 h
  rw [length_leBytes] at hoperand
  have hnum : m.get 2 = (o.form (formFor arg)).num := by
    rw [stack_words.get_of_holds hopcode]
    have := num_le (o.form (formFor arg))
    exact Nat.mod_eq_of_lt (by omega)
  have hop : operand (m.skip 2) (formFor arg) = arg := stack_words.operand_of_holds hoperand
  have hget : (m.skip 2).get (formFor arg).nbytes = arg.toNat := get_formFor hoperand
  have hpast := stack_words.past_skip (m := m) (formFor arg)
  rw [step, hnum, stack_words.opcodeOf_num, ← hpast]
  cases o with
  | LINK =>
    -- the push leaves the text and the text pointer as they are
    have hpush : operand ((m.skip 2).push (m.skip 2).fp) (formFor arg) = arg := hop
    simp only [Operation.form, execOp, Operation.perform, link, hpush]
    rfl
  | CALL =>
    simp only [Operation.form, execOp, Operation.perform, hop]
    rfl
  | generic g =>
    cases g with
    | POPMANY | PUSH_STACKADDR | PUSH_AT_STACKADDR _ | PUSH_AT_ADDR _ | CHECK_SP =>
      simp only [Operation.form, Generic.form, execOp, Operation.perform, hop]
      rfl
    | NEG_CONSTPUSH | CONSTPUSH | PROC_PUSH_ADDR _ =>
      simp only [Operation.form, Generic.form, execOp, Operation.perform, hop]
    | PROC_MEMCPY | MEMCPY =>
      simp only [Operation.form, Generic.form, execOp, Operation.perform, hget]

end

/-- Wherever the text is in the memory, a machine at its byte `start` does this once it is behind the
text. -/
def Executes (env : Env) (text : List (BitVec 8)) (start : Nat) (f : Machine → Outcome) : Prop :=
  ∀ (m : Machine) (a : Word), Holds m.text a text → m.pc = a + BitVec.ofNat 64 start →
    step env m = f { m with pc := a + BitVec.ofNat 64 text.length }

theorem Executes.congr {env : Env} {text : List (BitVec 8)} {start : Nat} {f g : Machine → Outcome}
    (h : Executes env text start f) (hfg : ∀ m, f m = g m) : Executes env text start g := by
  intro m a hm hpc
  rw [h m a hm hpc, hfg]

/-- An operation does with the argument what it is for. -/
theorem executes_operation (env : Env) (tx : Text) (o : Operation) (arg : Word) :
    Executes env (ciCodeGenericOpcode tx o.form arg).tx_text
      (opcodeAt tx (o.form (formFor arg))) (o.perform env arg) := by
  intro m a h hpc
  obtain ⟨before, hlen, htext⟩ := ciCodeGenericOpcode_text tx o.form arg
  rw [htext, holds_append, hlen, ← hpc] at h
  have hbehind : a + BitVec.ofNat 64 (ciCodeGenericOpcode tx o.form arg).tx_text.length =
      m.pc + BitVec.ofNat 64 (2 + (formFor arg).nbytes) := by
    rw [htext, List.length_append, List.length_append, length_leBytes, length_leBytes, hlen, hpc,
      BitVec.ofNat_add, BitVec.add_assoc]
  rw [hbehind]
  exact step_operation o h.2

/-- What `ci_code_constpush` codes pushes the value, negated or not. -/
theorem executes_constpush (env : Env) (tx : Text) (val : Word) :
    Executes env (emit tx (ciCodeConstpush val)).tx_text
      (opcodeAt tx ((ciCodeConstpush val).opcodeOf tx)) fun m => .next (m.push val) := by
  by_cases hneg : val.toInt < 0
  · rw [show ciCodeConstpush val = .generic .NEG_CONSTPUSH (-val) from if_pos hneg]
    refine (executes_operation env tx (.generic .NEG_CONSTPUSH) (-val)).congr fun m => ?_
    rw [Operation.perform, BitVec.neg_neg]
  · rw [show ciCodeConstpush val = .generic .CONSTPUSH val from if_neg hneg]
    exact executes_operation env tx (.generic .CONSTPUSH) val

theorem toNat_signExtend_mod (x : BitVec 32) : (x.signExtend 64).toNat % 2 ^ 32 = x.toNat := by
  have hlt := x.isLt
  rw [BitVec.toNat_signExtend, BitVec.toNat_setWidth_of_le (by omega)]
  split <;> omega

/-- The function index of a call is an int. -/
theorem toCInt_signExtend (func_index : BitVec 32) :
    toCInt (func_index.signExtend 64) = func_index.toInt := by
  unfold toCInt
  congr 1
  apply BitVec.eq_of_toNat_eq
  rw [BitVec.toNat_setWidth]
  exact toNat_signExtend_mod func_index

/-! ## Main results -/

/-- Every constant is pushed and every argument is read as they were coded, in all the forms. The
machine is at the next instruction, or in a call. -/
theorem operands_round_trip (env : Env) (tx : Text) :
    (∀ val, Executes env (emit tx (ciCodeConstpush val)).tx_text
      (opcodeAt tx ((ciCodeConstpush val).opcodeOf tx)) fun m => .next (m.push val)) ∧
    (∀ (o : Operation) (arg : Word), Executes env (ciCodeGenericOpcode tx o.form arg).tx_text
      (opcodeAt tx (o.form (formFor arg))) (o.perform env arg)) ∧
    ∀ func_index : BitVec 32,
      Executes env (ciCodeGenericOpcode tx .OC_CALL (func_index.signExtend 64)).tx_text
        (opcodeAt tx (.OC_CALL (formFor (func_index.signExtend 64)))) fun m =>
          funcCall env m m.cf func_index.toInt := by
  refine ⟨executes_constpush env tx, executes_operation env tx, fun func_index => ?_⟩
  refine (executes_operation env tx .CALL (func_index.signExtend 64)).congr fun m => ?_
  rw [Operation.perform, toCInt_signExtend]

end ups_rules.operand_forms
