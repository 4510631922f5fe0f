-- Division by zero in a program that is compiled with CI_CP_CHECK_DIV: the opcodes that
-- operator_to_opcode chooses (ci_compile_expr.c), and where a run of them stops.
import Ups.ArithConversions
import Ups.StackWords

open le_bytes
open ups_rules.machine
open ups_rules.opcodes
open ups_rules.execute
open ups_rules.code_layout
open ups_rules.code_text
open ups_rules.arith_conversions (TypeCode ciIsIntegral ciIsSignedType)

namespace ups_rules.checked_division

/-! ## The pure model -/

inductive OpType where
  | OP_BITWISE_AND | OP_BITWISE_AND_ASSIGN | OP_BITWISE_XOR | OP_BITWISE_XOR_ASSIGN
  | OP_BITWISE_OR | OP_BITWISE_OR_ASSIGN | OP_MOD | OP_MOD_ASSIGN | OP_PLUS | OP_PLUS_ASSIGN
  | OP_MUL | OP_MUL_ASSIGN | OP_DIV | OP_DIV_ASSIGN | OP_MINUS | OP_MINUS_ASSIGN
  | OP_LSHIFT | OP_LSHIFT_ASSIGN | OP_RSHIFT | OP_RSHIFT_ASSIGN
  | OP_IS_EQUAL | OP_NOT_EQUAL | OP_LESS | OP_GREATER | OP_LESS_OR_EQUAL | OP_GREATER_OR_EQUAL
deriving DecidableEq

/-- The operators whose operands must agree in their sign. -/
def OpType.checksSigns : OpType → Bool
  | .OP_MUL | .OP_DIV | .OP_LESS | .OP_GREATER | .OP_LESS_OR_EQUAL | .OP_GREATER_OR_EQUAL => true
  | _ => false

/-- The opcode for the operator on words. -/
def genericOpcode (check_div is_signed : Bool) : OpType → Opcode
  | .OP_BITWISE_AND | .OP_BITWISE_AND_ASSIGN => .OC_BITWISE_AND .LONG
  | .OP_BITWISE_XOR | .OP_BITWISE_XOR_ASSIGN => .OC_BITWISE_XOR .LONG
  | .OP_BITWISE_OR | .OP_BITWISE_OR_ASSIGN => .OC_BITWISE_OR .LONG
  | .OP_MOD | .OP_MOD_ASSIGN => .OC_MOD .LONG
  | .OP_PLUS | .OP_PLUS_ASSIGN => .OC_ADD .LONG
  | .OP_MUL | .OP_MUL_ASSIGN => if is_signed then .OC_MUL_SIGNED .LONG else .OC_MUL_UNSIGNED .LONG
  | .OP_DIV | .OP_DIV_ASSIGN =>
    if check_div then
      if is_signed then .OC_CHKDIV_SIGNED .LONG else .OC_CHKDIV_UNSIGNED .LONG
    else if is_signed then .OC_DIV_SIGNED .LONG else .OC_DIV_UNSIGNED .LONG
  | .OP_MINUS | .OP_MINUS_ASSIGN => .OC_SUB .LONG
  | .OP_LSHIFT | .OP_LSHIFT_ASSIGN => .OC_LSHIFT .LONG
  | .OP_RSHIFT | .OP_RSHIFT_ASSIGN => .OC_RSHIFT .LONG
  | .OP_IS_EQUAL => .OC_IS_EQUAL .LONG
  | .OP_NOT_EQUAL => .OC_NOT_EQUAL .LONG
  | .OP_LESS => if is_signed then .OC_LESS_SIGNED .LONG else .OC_LESS_UNSIGNED .LONG
  | .OP_GREATER => if is_signed then .OC_GREATER_SIGNED .LONG else .OC_GREATER_UNSIGNED .LONG
  | .OP_LESS_OR_EQUAL =>
    if is_signed then .OC_LESS_OR_EQUAL_SIGNED .LONG else .OC_LESS_OR_EQUAL_UNSIGNED .LONG
  | .OP_GREATER_OR_EQUAL =>
    if is_signed then .OC_GREATER_OR_EQUAL_SIGNED .LONG else .OC_GREATER_OR_EQUAL_UNSIGNED .LONG

/-- The opcodes that have forms for floating point behind them. -/
def floatingOpcodes : List Opcode :=
  [.OC_MUL_SIGNED .LONG, .OC_DIV_SIGNED .LONG, .OC_CHKDIV_SIGNED .LONG, .OC_ADD .LONG, .OC_SUB .LONG,
    .OC_IS_EQUAL .LONG, .OC_NOT_EQUAL .LONG, .OC_LESS_SIGNED .LONG, .OC_GREATER_SIGNED .LONG,
    .OC_LESS_OR_EQUAL_SIGNED .LONG, .OC_GREATER_OR_EQUAL_SIGNED .LONG]

/-- Whether the left operand is signed. The signs of the operands must agree where the opcode depends
on them; `none` is a panic. -/
def checkedSign (op : OpType) (ltype rtype : TypeCode) : Option Bool :=
  match ciIsSignedType ltype, ciIsSignedType rtype with
  | some is_signed, some right_is_signed =>
    if op.checksSigns ∧ is_signed ≠ right_is_signed then none else some is_signed
  | some is_signed, none => if op.checksSigns then none else some is_signed
  | none, _ => none

/-- The form of the opcode for the types of the operands; `none` is a panic. -/
def typedOpcode (opcode : Opcode) (ltype rtype : TypeCode) : Option Opcode :=
  match ltype with
  | .LONGLONG | .ULONGLONG => if rtype ≠ ltype then none else opcodeOf (opcode.num - 1)
  | .FLOAT =>
    if rtype ≠ ltype ∨ opcode ∉ floatingOpcodes then none else opcodeOf (opcode.num + 1)
  | .DOUBLE =>
    if rtype ≠ ltype ∨ opcode ∉ floatingOpcodes then none else opcodeOf (opcode.num + 2)
  | _ => some opcode

/-- `operator_to_opcode`, with `tx_flags & CI_CP_CHECK_DIV`. -/
def operatorToOpcode (check_div : Bool) (op : OpType) (ltype rtype : TypeCode) : Option Opcode :=
  (checkedSign op ltype rtype).bind fun is_signed =>
    typedOpcode (genericOpcode check_div is_signed op) ltype rtype

/-- The opcodes that the code generator codes by their names, or as forms of these. -/
def codedByName : Opcode → Bool
  | .OC_CALL _ | .OC_POPMANY _ | .OC_LINK _ | .OC_PROC_MEMCPY _ | .OC_MEMCPY _ | .OC_PUSH_BYTES
  | .OC_PROC_PUSH_BYTES | .OC_RESERVE_BYTES | .OC_PROC_ASSIGN _ | .OC_ASSIGN _
  | .OC_PROC_ASSIGN_AND_PUSH _ | .OC_ASSIGN_AND_PUSH _ | .OC_PROC_DEREF _ | .OC_DEREF _
  | .OC_NEG_CONSTPUSH _ | .OC_CONSTPUSH _ | .OC_PUSH_FLOAT_CONST | .OC_PUSH_DOUBLE_CONST
  | .OC_CHECK_SP _ | .OC_PROC_PUSH_ADDR _ _ | .OC_PUSH_STACKADDR _ | .OC_PUSH_AT_STACKADDR _ _
  | .OC_PUSH_AT_ADDR _ _ | .OC_INSERT_SIGNED_BITFIELD | .OC_INSERT_UNSIGNED_BITFIELD
  | .OC_EXTRACT_SIGNED_BITFIELD | .OC_EXTRACT_UNSIGNED_BITFIELD | .OC_RET | .OC_RET_WORD
  | .OC_RET_LONG_LONG | .OC_RET_FLOAT | .OC_RET_DOUBLE | .OC_RET_STRUCT | .OC_PUSH_STRUCTRET_ADDR
  | .OC_MULTI_ARROW | .OC_JUMP | .OC_JUMP_IF_NON_ZERO | .OC_JUMP_IF_ZERO | .OC_SWITCH_ON_TABLE
  | .OC_SWITCH_ON_CHAIN _ | .OC_PUSH_WORD_RETVAL | .OC_PUSH_LONG_LONG_RETVAL
  | .OC_PUSH_FLOAT_RETVAL | .OC_PUSH_DOUBLE_RETVAL | .OC_CALL_INDIRECT | .OC_TRAP | .OC_NOP
  | .OC_DUP | .OC_DUP_BACK_ONE | .OC_RESERVE_SLOT | .OC_POP | .OC_CVT_TO_BOOL | .OC_BITWISE_NOT _
  | .OC_LOGICAL_NOT | .OC_UNARY_MINUS _ | .OC_ADD .LONG | .OC_SUB .LONG
  | .OC_CVT_UNSIGNED_LONG_TO_LONG_LONG | .OC_CVT_SIGNED_LONG_TO_LONG_LONG
  | .OC_CVT_DOUBLE_TO_LONG_LONG | .OC_CVT_FLOAT_TO_LONG_LONG
  | .OC_CVT_UNSIGNED_LONG_LONG_TO_DOUBLE | .OC_CVT_SIGNED_LONG_LONG_TO_DOUBLE
  | .OC_CVT_UNSIGNED_LONG_LONG_TO_FLOAT | .OC_CVT_SIGNED_LONG_LONG_TO_FLOAT
  | .OC_CVT_UNSIGNED_LONG_LONG_TO_LONG | .OC_CVT_SIGNED_LONG_LONG_TO_LONG
  | .OC_CVT_LONG_LONG_TO_BOOL | .OC_CVT_UNSIGNED_LONG_TO_DOUBLE | .OC_CVT_SIGNED_LONG_TO_DOUBLE
  | .OC_CVT_FLOAT_TO_DOUBLE | .OC_CVT_UNSIGNED_LONG_TO_FLOAT | .OC_CVT_SIGNED_LONG_TO_FLOAT
  | .OC_CVT_DOUBLE_TO_FLOAT | .OC_CVT_FLOAT_TO_LONG | .OC_CVT_DOUBLE_TO_LONG
  | .OC_CVT_FLOAT_TO_BOOL | .OC_CVT_DOUBLE_TO_BOOL => true
  | _ => false

/-- What an instruction was coded for: an operator with the types of its operands, or something
else. -/
inductive Site where
  | operator (op : OpType) (ltype rtype : TypeCode)
  | named (opcode : Opcode)

/-- The opcode that is coded there, where the program is compiled with CI_CP_CHECK_DIV. -/
def Site.opcode : Site → Option Opcode
  | .operator op ltype rtype => operatorToOpcode true op ltype rtype
  | .named opcode => if codedByName opcode then some opcode else none

/-- A program, as the instructions at the addresses of its text. -/
abbrev Program := Word → Option Site

/-- The machine is at an instruction of the program. -/
def AtSite (p : Program) (m : Machine) : Prop :=
  ∃ s opcode, p m.pc = some s ∧ s.opcode = some opcode ∧ Holds m.text m.pc (leBytes 2 opcode.num)

/-- A run of the program: the machine goes from one of its instructions to the next. -/
structure Run (env : Env) (p : Program) (states : List Machine) : Prop where
  sites : ∀ m ∈ states, AtSite p m
  steps : states.IsChain fun m m' => step env m = .next m'

/-! ## Divisions -/

def OpType.isRemainder : OpType → Bool
  | .OP_MOD | .OP_MOD_ASSIGN => true
  | _ => false

/-- An operator that divides by its right operand. -/
def OpType.divides : OpType → Bool
  | .OP_DIV | .OP_DIV_ASSIGN => true
  | op => op.isRemainder

/-- The opcodes that divide integers without a look at the divisor. -/
def unguarded : Opcode → Bool
  | .OC_MOD _ | .OC_DIV_UNSIGNED _ | .OC_DIV_SIGNED .LONG | .OC_DIV_SIGNED .LONG_LONG => true
  | _ => false

/-- The opcodes that stop at a divisor of zero. -/
def guarded : Opcode → Bool
  | .OC_CHKDIV_UNSIGNED _ | .OC_CHKDIV_SIGNED .LONG | .OC_CHKDIV_SIGNED .LONG_LONG => true
  | _ => false

/-- A division of integers stops if the right operand, on top of the stack, is zero, and no divide
without a check has a zero there. -/
def DivisionChecked (env : Env) (p : Program) (m : Machine) : Prop :=
  (∀ op ltype rtype, p m.pc = some (.operator op ltype rtype) → op.divides = true →
    ciIsIntegral ltype = true → m.slot 0 = 0#64 →
    ∃ m', step env m = .quit .CI_ER_DIVISION_BY_ZERO m') ∧
  ∀ s opcode, p m.pc = some s → s.opcode = some opcode → unguarded opcode = true →
    m.slot 0 ≠ 0#64

/-- The machine is to take the remainder of integers by zero. -/
def RemainderByZero (p : Program) (m : Machine) : Prop :=
  ∃ op ltype rtype, p m.pc = some (.operator op ltype rtype) ∧ op.isRemainder = true ∧
    m.slot 0 = 0#64

/-! ## The opcodes of the operators -/

/-- The form for long long, for floats and for doubles of an opcode on words. -/
def formFor (int : IntKind) (num : NumKind) : Opcode → Opcode
  | .OC_BITWISE_AND _ => .OC_BITWISE_AND int
  | .OC_BITWISE_XOR _ => .OC_BITWISE_XOR int
  | .OC_BITWISE_OR _ => .OC_BITWISE_OR int
  | .OC_MOD _ => .OC_MOD int
  | .OC_LSHIFT _ => .OC_LSHIFT int
  | .OC_RSHIFT _ => .OC_RSHIFT int
  | .OC_MUL_UNSIGNED _ => .OC_MUL_UNSIGNED int
  | .OC_DIV_UNSIGNED _ => .OC_DIV_UNSIGNED int
  | .OC_CHKDIV_UNSIGNED _ => .OC_CHKDIV_UNSIGNED int
  | .OC_LESS_UNSIGNED _ => .OC_LESS_UNSIGNED int
  | .OC_GREATER_UNSIGNED _ => .OC_GREATER_UNSIGNED int
  | .OC_LESS_OR_EQUAL_UNSIGNED _ => .OC_LESS_OR_EQUAL_UNSIGNED int
  | .OC_GREATER_OR_EQUAL_UNSIGNED _ => .OC_GREATER_OR_EQUAL_UNSIGNED int
  | .OC_ADD _ => .OC_ADD num
  | .OC_SUB _ => .OC_SUB num
  | .OC_MUL_SIGNED _ => .OC_MUL_SIGNED num
  | .OC_DIV_SIGNED _ => .OC_DIV_SIGNED num
  | .OC_CHKDIV_SIGNED _ => .OC_CHKDIV_SIGNED num
  | .OC_IS_EQUAL _ => .OC_IS_EQUAL num
  | .OC_NOT_EQUAL _ => .OC_NOT_EQUAL num
  | .OC_LESS_SIGNED _ => .OC_LESS_SIGNED num
  | .OC_GREATER_SIGNED _ => .OC_GREATER_SIGNED num
  | .OC_LESS_OR_EQUAL_SIGNED _ => .OC_LESS_OR_EQUAL_SIGNED num
  | .OC_GREATER_OR_EQUAL_SIGNED _ => .OC_GREATER_OR_EQUAL_SIGNED num
  | opcode => opcode

/-- The long long form of an opcode is the one before it. -/
theorem opcodeOf_longLong (is_signed : Bool) (op : OpType) :
    opcodeOf ((genericOpcode true is_signed op).num - 1) =
      some (formFor .LONG_LONG .LONG_LONG (genericOpcode true is_signed op)) := by
  cases op <;> cases is_signed <;> decide +kernel

/-- The forms for floating point are the two behind it. -/
theorem opcodeOf_floating {opcode : Opcode} (h : opcode ∈ floatingOpcodes) :
    opcodeOf (opcode.num + 1) = some (formFor .LONG .FLOAT opcode) ∧
      opcodeOf (opcode.num + 2) = some (formFor .LONG .DOUBLE opcode) := by
  simp only [floatingOpcodes, List.mem_cons, List.not_mem_nil, or_false] at h
  rcases h with rfl | rfl | rfl | rfl | rfl | rfl | rfl | rfl | rfl | rfl | rfl <;>
    exact ⟨by decide +kernel, by decide +kernel⟩

/-- In a checked program only a remainder divides without a check. -/
theorem isRemainder_of_unguarded {int : IntKind} {num : NumKind} {is_signed : Bool} {op : OpType}
    (h : unguarded (formFor int num (genericOpcode true is_signed op)) = true) :
    op.isRemainder = true := by
  cases op <;> cases is_signed <;> first | rfl | cases h

theorem guarded_of_divides {int : IntKind} {num : NumKind} (hnum : num = .LONG ∨ num = .LONG_LONG)
    (is_signed : Bool) {op : OpType} (h : op.divides = true) (hno : op.isRemainder = false) :
    guarded (formFor int num (genericOpcode true is_signed op)) = true := by
  have hop : op = .OP_DIV ∨ op = .OP_DIV_ASSIGN := by
    cases op <;> simp [OpType.divides, OpType.isRemainder] at h hno ⊢
  rcases hnum with rfl | rfl <;> rcases hop with rfl | rfl <;> cases is_signed <;> rfl

/-- The opcode of an operator is a form of the generic one, of integers if they are integers. -/
theorem operatorToOpcode_form {op : OpType} {ltype rtype : TypeCode} {opcode : Opcode}
    (h : operatorToOpcode true op ltype rtype = some opcode) :
    ∃ is_signed int num, opcode = formFor int num (genericOpcode true is_signed op) ∧
      (ciIsIntegral ltype = true → num = .LONG ∨ num = .LONG_LONG) := by
  obtain ⟨is_signed, -, h⟩ := Option.bind_eq_some_iff.1 h
  have hgeneric : genericOpcode true is_signed op =
      formFor .LONG .LONG (genericOpcode true is_signed op) := by
    cases op <;> cases is_signed <;> rfl
  refine ⟨is_signed, ?_⟩
  unfold typedOpcode at h
  split at h
  · split_ifs at h
    rw [opcodeOf_longLong] at h
    exact ⟨_, _, (Option.some.inj h).symm, fun _ => .inr rfl⟩
  · split_ifs at h
    rw [opcodeOf_longLong] at h
    exact ⟨_, _, (Option.some.inj h).symm, fun _ => .inr rfl⟩
  · split_ifs at h with hno
    rw [(opcodeOf_floating (not_not.1 (not_or.1 hno).2)).1] at h
    exact ⟨_, _, (Option.some.inj h).symm, nofun⟩
  · split_ifs at h with hno
    rw [(opcodeOf_floating (not_not.1 (not_or.1 hno).2)).2] at h
    exact ⟨_, _, (Option.some.inj h).symm, nofun⟩
  · exact ⟨_, _, (Option.some.inj h).symm.trans hgeneric, fun _ => .inl rfl⟩

/-- The remainder of integers is taken without a check. -/
theorem unguarded_of_isRemainder {op : OpType} (hop : op.isRemainder = true)
    {ltype rtype : TypeCode} {opcode : Opcode}
    (h : operatorToOpcode true op ltype rtype = some opcode) : unguarded opcode = true := by
  obtain ⟨is_signed, int, num, rfl, -⟩ := operatorToOpcode_form h
  cases op <;> first | rfl | cases hop

/-- What the compiler codes by name never divides. -/
theorem not_unguarded_of_codedByName {opcode : Opcode} (h : codedByName opcode = true) :
    unguarded opcode = false := by
  cases opcode <;> first | rfl | cases h

/-! ## Runs -/

section
variable {env : Env} {p : Program} {m : Machine}

/-- A guarded division by zero stops. -/
theorem execOp_guarded {opcode : Opcode} (h : guarded opcode = true) (hzero : m.slot 0 = 0#64) :
    ∃ m', execOp env opcode m = .quit .CI_ER_DIVISION_BY_ZERO m' := by
  cases opcode with
  | OC_CHKDIV_UNSIGNED t => exact ⟨_, if_pos hzero⟩
  | OC_CHKDIV_SIGNED t =>
    have hdivisor : divisorIsZero env t m = true := by
      cases t with
      | LONG | LONG_LONG => simpa [divisorIsZero] using hzero
      | FLOAT | DOUBLE => cases h
    exact ⟨_, if_pos hdivisor⟩
  | _ => cases h

theorem AtSite.step (env : Env) (h : AtSite p m) :
    ∃ s opcode, p m.pc = some s ∧ s.opcode = some opcode ∧
      step env m = execOp env opcode (m.skip 2) := by
  obtain ⟨s, opcode, hs, hopcode, hholds⟩ := h
  refine ⟨s, opcode, hs, hopcode, ?_⟩
  have hnum := num_le opcode
  unfold Holds at hholds
  rw [length_leBytes] at hholds
  exact callbacks.opcode_at hholds (by omega) (stack_words.opcodeOf_num opcode)

theorem divisionChecked_iff (h : AtSite p m) :
    DivisionChecked env p m ↔ ¬ RemainderByZero p m := by
  obtain ⟨s, opcode, hs, hopcode, hstep⟩ := AtSite.step env h
  constructor
  · rintro ⟨-, hguard⟩ ⟨op, ltype, rtype, hsite, hrem, hzero⟩
    obtain rfl : s = .operator op ltype rtype := Option.some.inj (hs.symm.trans hsite)
    exact hguard _ _ hs hopcode (unguarded_of_isRemainder hrem hopcode) hzero
  · intro hno
    constructor
    · intro op ltype rtype hsite hdivides hint hzero
      obtain rfl : s = .operator op ltype rtype := Option.some.inj (hs.symm.trans hsite)
      have hrem : op.isRemainder = false := by
        rw [← Bool.not_eq_true]
        exact fun hrem => hno ⟨op, ltype, rtype, hs, hrem, hzero⟩
      obtain ⟨is_signed, int, num, rfl, hnum⟩ := operatorToOpcode_form hopcode
      rw [hstep]
      exact execOp_guarded (guarded_of_divides (hnum hint) is_signed hdivides hrem) hzero
    · intro s' opcode' hs' hopcode' hguard hzero
      obtain rfl : s = s' := Option.some.inj (hs.symm.trans hs')
      obtain rfl : opcode = opcode' := Option.some.inj (hopcode.symm.trans hopcode')
      cases s with
      | operator op ltype rtype =>
        obtain ⟨is_signed, int, num, rfl, -⟩ := operatorToOpcode_form hopcode
        exact hno ⟨op, ltype, rtype, hs, isRemainder_of_unguarded hguard, hzero⟩
      | named opcode =>
        simp only [Site.opcode, Option.ite_none_right_eq_some] at hopcode
        obtain ⟨hnamed, heq⟩ := hopcode
        rw [← Option.some.inj heq, not_unguarded_of_codedByName hnamed] at hguard
        cases hguard

end

/-- In a run of a program that is compiled with CI_CP_CHECK_DIV, every division by zero is checked if
and only if the machine never comes to take a remainder by zero. -/
theorem every_division_is_checked_iff {env : Env} {p : Program} {states : List Machine}
    (h : Run env p states) :
    (∀ m ∈ states, DivisionChecked env p m) ↔ ∀ m ∈ states, ¬ RemainderByZero p m :=
  forall₂_congr fun m hm => divisionChecked_iff (h.sites m hm)

/-- A program of one operator on ints, at the start of the text. -/
def oneOperator (op : OpType) : Program :=
  fun a => if a = 0#64 then some (.operator op .INT .INT) else none

/-- The machine is at that operator, with a zero on top of the stack. -/
theorem run_oneOperator (op : OpType) (opcode : Opcode)
    (h : operatorToOpcode true op .INT .INT = some opcode)
    (hholds : Holds (next_pc.atOpcode opcode).text 0#64 (leBytes 2 opcode.num)) :
    Run proc_opcodes.quietEnv (oneOperator op) [next_pc.atOpcode opcode] where
  sites := by
    intro m hm
    rw [List.mem_singleton.1 hm]
    exact ⟨_, opcode, rfl, h, hholds⟩
  steps := .singleton _

set_option maxRecDepth 8000 in
theorem a_division_by_zero_is_checked :
    Run proc_opcodes.quietEnv (oneOperator .OP_DIV) [next_pc.atOpcode (.OC_CHKDIV_SIGNED .LONG)] ∧
    ∃ m', step proc_opcodes.quietEnv (next_pc.atOpcode (.OC_CHKDIV_SIGNED .LONG)) =
      .quit .CI_ER_DIVISION_BY_ZERO m' := by
  have hrun := run_oneOperator .OP_DIV (.OC_CHKDIV_SIGNED .LONG) rfl
    (by unfold Holds; decide)
  have hchecked := (every_division_is_checked_iff hrun).2 (by
    rintro m - ⟨op, ltype, rtype, hsite, hrem, -⟩
    simp only [oneOperator, Option.ite_none_right_eq_some, Option.some.injEq,
      Site.operator.injEq] at hsite
    rw [← hsite.2.1] at hrem
    cases hrem)
  obtain ⟨hstops, -⟩ := hchecked _ List.mem_cons_self
  exact ⟨hrun, hstops .OP_DIV .INT .INT rfl rfl rfl proc_opcodes.longMachine_slot⟩

set_option maxRecDepth 8000 in
theorem a_remainder_by_zero_is_not_checked :
    Run proc_opcodes.quietEnv (oneOperator .OP_MOD) [next_pc.atOpcode (.OC_MOD .LONG)] ∧
    ¬ DivisionChecked proc_opcodes.quietEnv (oneOperator .OP_MOD)
      (next_pc.atOpcode (.OC_MOD .LONG)) := by
  have hrun := run_oneOperator .OP_MOD (.OC_MOD .LONG) rfl
    (by unfold Holds; decide)
  refine ⟨hrun, fun h => ?_⟩
  exact h.2 _ _ rfl rfl rfl proc_opcodes.longMachine_slot

end ups_rules.checked_division
