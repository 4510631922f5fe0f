-- The code that the compiler emits for an expression (ci_compile_expr.c). The calls of the
-- emitters are put together first, with the jumps around them as blocks, and emitted then.
import Ups.CodeText
import Ups.Exprs

open le_bytes
open ups_rules.machine
open ups_rules.opcodes
open ups_rules.next_pc
open ups_rules.code_text
open ups_rules.locals
open ups_rules.local_stores
open ups_rules.exprs

namespace ups_rules.compile_expr

/-! ## Opcodes of types and operators -/

/-- The cell that `opcode_offset` chooses. -/
def cellOf : Ty → CellKind
  | .TY_CHAR | .TY_UCHAR => .BYTE
  | .TY_SHORT | .TY_USHORT => .WORD
  | .TY_INT | .TY_UINT => .LONG
  | .DT_PTR_TO _ => .LONG_LONG

/-- The load at an offset from `OC_DEREF_SIGNED_BYTE` or `OC_DEREF_UNSIGNED_BYTE`. -/
def loadForm (is_signed : Bool) (t : CellKind) : LoadKind :=
  match t, is_signed with
  | .BYTE, true => .SIGNED_BYTE
  | .BYTE, false => .UNSIGNED_BYTE
  | .WORD, true => .SIGNED_WORD
  | .WORD, false => .UNSIGNED_WORD
  | .LONG, true => .SIGNED_LONG
  | .LONG, false => .UNSIGNED_LONG
  | .LONG_LONG, true => .SIGNED_LONG_LONG
  | .LONG_LONG, false => .UNSIGNED_LONG_LONG
  | .FLOAT, _ => .FLOAT
  | .DOUBLE, _ => .DOUBLE

def loadOf (t : Ty) : LoadKind := loadForm (ciIsSignedType t) (cellOf t)

/-- `code_deref` -/
def derefOpcode (t : Ty) : AddrType → Opcode
  | .AT_PROC_ADDR => .OC_PROC_DEREF (loadOf t)
  | .AT_CI_ADDR => .OC_DEREF (loadOf t)

def assignOpcode (t : Ty) (want_value : Bool) (addrtype : AddrType) : Opcode :=
  match addrtype, want_value with
  | .AT_PROC_ADDR, true => .OC_PROC_ASSIGN_AND_PUSH (cellOf t)
  | .AT_PROC_ADDR, false => .OC_PROC_ASSIGN (cellOf t)
  | .AT_CI_ADDR, true => .OC_ASSIGN_AND_PUSH (cellOf t)
  | .AT_CI_ADDR, false => .OC_ASSIGN (cellOf t)

/-- `ci_code_assign` does not panic for a type of an expression. -/
theorem ciCodeAssign_scalar (t : Ty) (want_value : Bool) (addrtype : AddrType) :
    ciCodeAssign t.scalar want_value addrtype = some (assignOpcode t want_value addrtype) := by
  cases t <;> cases want_value <;> cases addrtype <;> rfl

/-- `operator_to_opcode` for operands of one type. -/
def operatorToOpcode (check_div : Bool) (op : ArithOp) (t : Ty) : Opcode :=
  match op with
  | .OP_BITWISE_AND => .OC_BITWISE_AND .LONG
  | .OP_BITWISE_XOR => .OC_BITWISE_XOR .LONG
  | .OP_BITWISE_OR => .OC_BITWISE_OR .LONG
  | .OP_MOD => .OC_MOD .LONG
  | .OP_PLUS => .OC_ADD .LONG
  | .OP_MINUS => .OC_SUB .LONG
  | .OP_MUL => if ciIsSignedType t then .OC_MUL_SIGNED .LONG else .OC_MUL_UNSIGNED .LONG
  | .OP_DIV =>
    if check_div then
      if ciIsSignedType t then .OC_CHKDIV_SIGNED .LONG else .OC_CHKDIV_UNSIGNED .LONG
    else if ciIsSignedType t then .OC_DIV_SIGNED .LONG else .OC_DIV_UNSIGNED .LONG

def shiftOpcode : ShiftOp → Opcode
  | .OP_LSHIFT => .OC_LSHIFT .LONG
  | .OP_RSHIFT => .OC_RSHIFT .LONG

def relOpcode (op : RelOp) (t : Ty) : Opcode :=
  match op with
  | .OP_IS_EQUAL => .OC_IS_EQUAL .LONG
  | .OP_NOT_EQUAL => .OC_NOT_EQUAL .LONG
  | .OP_LESS => if ciIsSignedType t then .OC_LESS_SIGNED .LONG else .OC_LESS_UNSIGNED .LONG
  | .OP_GREATER =>
    if ciIsSignedType t then .OC_GREATER_SIGNED .LONG else .OC_GREATER_UNSIGNED .LONG
  | .OP_LESS_OR_EQUAL =>
    if ciIsSignedType t then .OC_LESS_OR_EQUAL_SIGNED .LONG else .OC_LESS_OR_EQUAL_UNSIGNED .LONG
  | .OP_GREATER_OR_EQUAL =>
    if ciIsSignedType t then .OC_GREATER_OR_EQUAL_SIGNED .LONG
    else .OC_GREATER_OR_EQUAL_UNSIGNED .LONG

def ptrOpcode : PtrOp → Opcode
  | .OP_PLUS => .OC_ADD .LONG
  | .OP_MINUS => .OC_SUB .LONG

/-- The opcode of an operator that is no `+`, which emits nothing. -/
def unaryOpcode : UnaryOp → Opcode
  | .OP_BITWISE_NOT => .OC_BITWISE_NOT .LONG
  | _ => .OC_UNARY_MINUS .LONG

/-! ## Items -/

/-- What a word on the stack is for: the value of an expression, or something else. -/
inductive Slot where
  | value (t : Ty)
  | other
deriving DecidableEq

/-- A call of an emitter, with what it is given and what the words that it leaves are for. -/
inductive Item where
  | constpush (val : Word) (s : Slot)
  | address (addr : Word) (n : Nat)
  | varAddress (v : VarRef)
  | localValue (t : Ty) (va_addr : Word)
  | staticValue (t : Ty) (addr : Word)
  | deref (t : Ty) (addrtype : AddrType)
  | assign (t : Ty) (want_value : Bool) (addrtype : AddrType)
  | arith (check_div : Bool) (op : ArithOp) (t : Ty) (is_value : Bool)
  | shift (op : ShiftOp) (t u : Ty) (is_value : Bool)
  | relation (op : RelOp) (t : Ty)
  | scale (t : Ty)
  /-- A pointer and an offset, or the other way around. -/
  | ptrOp (op : PtrOp) (n : Nat)
  /-- The addition or subtraction of `++` and `--`. -/
  | step (op : PtrOp) (t : Ty) (size : Nat) (is_value : Bool)
  | unary (op : UnaryOp) (s t : Ty)
  | logicalNot
  | toBool
  | dup
  | dupBackOne
  | reserveSlot
  | pop
  | popmany (nargs : Nat)
  | call (t : Ty) (is_void : Bool) (func_index : Word) (nargs : Nat)
  | callIndirect (t : Ty) (is_void : Bool) (nargs : Nat)
  | pushRetval (t : Ty)
  /-- A conversion, which emits nothing. -/
  | conversion (s s' : Slot)

/-- `ci_code_constpush` -/
def ciCodeConstpush (val : Word) : Emission :=
  if val.toInt < 0 then .generic .NEG_CONSTPUSH (-val) else .generic .CONSTPUSH val

theorem operandSize_deref (t : Ty) (a : AddrType) : ciOperandSize (derefOpcode t a) 0 = some 0 := by
  cases a <;> rfl

theorem operandSize_assign (t : Ty) (w : Bool) (a : AddrType) :
    ciOperandSize (assignOpcode t w a) 0 = some 0 := by
  cases a <;> cases w <;> rfl

theorem operandSize_arith (c : Bool) (op : ArithOp) (t : Ty) :
    ciOperandSize (operatorToOpcode c op t) 0 = some 0 := by
  cases op <;> cases c <;> cases t <;> rfl

theorem operandSize_shift (op : ShiftOp) : ciOperandSize (shiftOpcode op) 0 = some 0 := by
  cases op <;> rfl

theorem operandSize_rel (op : RelOp) (t : Ty) : ciOperandSize (relOpcode op t) 0 = some 0 := by
  cases op <;> cases t <;> rfl

theorem operandSize_ptr (op : PtrOp) : ciOperandSize (ptrOpcode op) 0 = some 0 := by
  cases op <;> rfl

theorem operandSize_unary (op : UnaryOp) : ciOperandSize (unaryOpcode op) 0 = some 0 := by
  cases op <;> rfl

def varAddressEmission : VarRef → Emission
  | .ciLocal va_addr => .generic .PUSH_STACKADDR va_addr
  | .procLocal r va_addr => .generic (.PROC_PUSH_ADDR r) va_addr
  | .procStatic va_addr => .generic .CONSTPUSH va_addr
  | .ciStatic addr | .procReg addr => .long (.relocated .CONSTPUSH) addr

def rettype (t : Ty) (is_void : Bool) : BitVec 8 := if is_void then tyVoid else t.typecode

def Item.emission : Item → Option Emission
  | .constpush val _ => some (ciCodeConstpush val)
  | .address addr _ => some (.long (.relocated .CONSTPUSH) addr)
  | .varAddress v => some (varAddressEmission v)
  | .localValue t va_addr => some (.generic (.PUSH_AT_STACKADDR (loadOf t)) va_addr)
  | .staticValue t addr => some (.long (.relocated (.PUSH_AT_ADDR (loadOf t))) addr)
  | .deref t a => some (.opcode _ (operandSize_deref t a))
  | .assign t w a => some (.opcode _ (operandSize_assign t w a))
  | .arith c op t _ => some (.opcode _ (operandSize_arith c op t))
  | .shift op _ _ _ => some (.opcode _ (operandSize_shift op))
  | .relation op t => some (.opcode _ (operandSize_rel op t))
  | .scale t => some (.opcode _ (operandSize_arith false .OP_MUL t))
  | .ptrOp op _ => some (.opcode _ (operandSize_ptr op))
  | .step op _ _ _ => some (.opcode _ (operandSize_ptr op))
  | .unary op _ _ => some (.opcode _ (operandSize_unary op))
  | .logicalNot => some (.opcode .OC_LOGICAL_NOT rfl)
  | .toBool => some (.opcode .OC_CVT_TO_BOOL rfl)
  | .dup => some (.opcode .OC_DUP rfl)
  | .dupBackOne => some (.opcode .OC_DUP_BACK_ONE rfl)
  | .reserveSlot => some (.opcode .OC_RESERVE_SLOT rfl)
  | .pop => some (.opcode .OC_POP rfl)
  | .popmany nargs => some (.generic .POPMANY (BitVec.ofNat 64 (8 * nargs)))
  | .call t v func_index nargs => some (.call func_index (BitVec.ofNat 8 nargs) (rettype t v))
  | .callIndirect t v nargs => some (.callIndirect (BitVec.ofNat 8 nargs) (rettype t v))
  | .pushRetval _ => some (.opcode .OC_PUSH_WORD_RETVAL rfl)
  | .conversion _ _ => none

/-- What the compiler adds to `tx_sp` by hand behind the emitter. -/
def Item.adjustment : Item → Word
  | .popmany nargs => -BitVec.ofNat 64 (8 * nargs)
  | _ => 0#64

/-! ## Code with its jumps -/

inductive Asm where
  | nil
  | item (i : Item)
  | seq (a b : Asm)
  /-- A jump to the second block if zero; the first ends in a jump behind the second. -/
  | cond (if_true if_false : Asm)
  /-- A conditional jump over the block. -/
  | shortcut (j : Jump) (a : Asm)

/-- `ci_code_jump_to_label`. The offset of the jump is the last word of the text. -/
def ciCodeJumpToLabel (tx : Text) (j : Jump) : Text × Nat :=
  let tx := emit tx (.jump j 0#64)
  (tx, tx.tx_text.length - 2)

/-- `ci_code_word` at a location behind which the text goes on. -/
def patchWord (text : List (BitVec 8)) (location : Nat) (word : BitVec 16) : List (BitVec 8) :=
  text.take location ++ leBytes 2 word.toNat ++ text.drop (location + 2)

/-- `ci_resolve_and_free_label` for the only reference to a label; `none` is a panic. -/
def ciResolveAndFreeLabel (tx : Text) (location : Nat) : Option Text :=
  let offset : Int := tx.tx_text.length - location
  if (BitVec.ofInt 16 offset).toInt ≠ offset then none
  else some { tx with tx_text := patchWord tx.tx_text location (BitVec.ofInt 16 offset) }

def Asm.emit : Asm → Text → Option Text
  | .nil, tx => some tx
  | .item i, tx =>
    match i.emission with
    | none => some tx
    | some e => some (adjustSp (code_text.emit tx e) i.adjustment)
  | .seq a b, tx => do
    let tx ← a.emit tx
    b.emit tx
  | .cond a b, tx => do
    let false_jump := ciCodeJumpToLabel tx .JUMP_IF_ZERO
    let tx ← a.emit false_jump.1
    let end_jump := ciCodeJumpToLabel tx .JUMP
    -- The code of the first block is not executed before that of the second.
    let tx ← ciResolveAndFreeLabel { end_jump.1 with tx_sp := false_jump.1.tx_sp } false_jump.2
    let tx ← b.emit tx
    ciResolveAndFreeLabel tx end_jump.2
  | .shortcut j a, tx => do
    let jump := ciCodeJumpToLabel tx j
    let tx ← a.emit jump.1
    ciResolveAndFreeLabel tx jump.2

/-- Blocks one behind the other. -/
def code (as : List Asm) : Asm := as.foldr .seq .nil

/-! ## Expressions -/

inductive Context where
  | EC_VALUE | EC_ADDRESS | EC_EFFECT
deriving DecidableEq

/-- What the compiler is told about the program. -/
structure Flags where
  tx_have_proc_vars : Bool
  /-- `tx_flags & CI_CP_CHECK_DIV` -/
  check_div : Bool

def unknownAddrtype (fl : Flags) : AddrType :=
  if fl.tx_have_proc_vars then .AT_PROC_ADDR else .AT_CI_ADDR

/-- `left_at == AT_CI_ADDR && right_at == AT_CI_ADDR` -/
def joinAddrtype (fl : Flags) : AddrType → AddrType → AddrType
  | .AT_CI_ADDR, .AT_CI_ADDR => .AT_CI_ADDR
  | _, _ => unknownAddrtype fl

abbrev Compiled : Type := Option (Asm × AddrType)

/-- An integral constant expression is evaluated instead. -/
def orConst {t : Ty} (e : Expr t) (context : Context) (rest : Compiled) : Compiled :=
  if e.isConstant && ciIsIntegral t then
    match context with
    | .EC_VALUE =>
      e.evalConst.map fun v =>
        (.item (.constpush (v.signExtend 64) (.value t)), .AT_CI_ADDR)
    | .EC_ADDRESS => none
    | .EC_EFFECT => some (.nil, .AT_CI_ADDR)
  else rest

/-- `ci_compile_var_reference` -/
def ciCompileVarReference (fl : Flags) (t : Ty) (v : VarRef) : Context → Asm × AddrType
  | .EC_EFFECT => (.nil, .AT_CI_ADDR)
  | .EC_ADDRESS =>
    match v with
    | .ciLocal _ | .ciStatic _ => (.item (.varAddress v), .AT_CI_ADDR)
    | _ => (.item (.varAddress v), unknownAddrtype fl)
  | .EC_VALUE =>
    match v with
    | .ciLocal va_addr => (.item (.localValue t va_addr), unknownAddrtype fl)
    | .ciStatic addr => (.item (.staticValue t addr), unknownAddrtype fl)
    | _ =>
      (code [.item (.varAddress v), .item (.deref t .AT_PROC_ADDR)], unknownAddrtype fl)

/-- Only in a value context. -/
def ifValue (context : Context) (a : Asm) : Asm :=
  if context = .EC_VALUE then a else .nil

/-- `compile_scale_expr`, or the constant that it is. -/
def compileScaleExpr {t : Ty} (e : Expr t) (n : Nat) (context : Context) (a : Compiled) :
    Option Asm :=
  if e.isConstant then
    match context with
    | .EC_VALUE =>
      e.evalConst.map fun v => .item (.constpush ((evalScale v n).signExtend 64) .other)
    | .EC_ADDRESS => none
    | .EC_EFFECT => some .nil
  else
    a.map fun a => code [a.1, ifValue context
      (code [.item (.constpush (BitVec.ofNat 64 n) .other), .item (.scale t)])]

/-- A conversion where the types differ. -/
def convertIf (s t : Ty) : Asm :=
  if s = t then .nil else .item (.conversion (.value s) (.value t))

/-- The code of `++` and `--`, with the code of the address. -/
def incDecCode (op : IncDec) (t : Ty) (context : Context) (a : Asm) (at_ : AddrType) : Asm :=
  let is_preop := op = .OP_PREINC ∨ op = .OP_PREDEC
  let saves := context = .EC_VALUE ∧ ¬ is_preop
  let size := match t with
    | .DT_PTR_TO n => n
    | _ => 1
  let opcode : PtrOp := if op = .OP_PREDEC ∨ op = .OP_POSTDEC then .OP_MINUS else .OP_PLUS
  let want_value := decide (is_preop ∧ context = .EC_VALUE)
  code [if saves then .item .reserveSlot else .nil, a, .item .dup, .item (.deref t at_),
    if saves then .item .dupBackOne else .nil,
    .item (.constpush (BitVec.ofNat 64 size) .other), .item (.step opcode t size want_value),
    .item (.assign t want_value at_)]

/-- The code of a compound assignment to a place of type `s`, with the codes of the place and of
the operation of type `t`. -/
def assignCode (s t : Ty) (context : Context) (a : Asm) (at_ : AddrType) (op : Asm) : Asm :=
  code [a, .item .dup, .item (.deref s at_), convertIf s t, op,
    ifValue context (convertIf t s), .item (.assign s (decide (context = .EC_VALUE)) at_)]

/-- The code behind a call. -/
def afterCall (t : Ty) (context : Context) (nargs : Nat) : Asm :=
  code [match nargs with
    | 0 => .nil
    | 1 => .item .pop
    | nargs => .item (.popmany nargs),
    ifValue context (.item (.pushRetval t))]

/-- The operators that have no address. -/
def notAddress (context : Context) : Option Unit :=
  if context = .EC_ADDRESS then none else some ()

/-- `ci_compile_expression`; `none` is an error or a panic. -/
def ciCompileExpression (fl : Flags) : {k : Kind} → Tree k → Context → Compiled
  | _, .intConst h ival, context => orConst (.intConst h ival) context none
  | _, .address n addr, .EC_VALUE => some (.item (.address addr n), .AT_CI_ADDR)
  | _, .address _ _, .EC_EFFECT => some (.nil, .AT_CI_ADDR)
  | _, .address _ _, .EC_ADDRESS => none
  | _, .var t v, context => some (ciCompileVarReference fl t v context)
  | _, .deref t e, .EC_VALUE => do
    let (a, at_) ← ciCompileExpression fl e .EC_VALUE
    pure (code [a, .item (.deref t at_)], unknownAddrtype fl)
  | _, .deref (n := n) _ e, .EC_ADDRESS => do
    let (a, at_) ← ciCompileExpression fl e .EC_VALUE
    pure (code [a, .item (.conversion (.value (.DT_PTR_TO n)) .other)], at_)
  | _, .deref _ e, .EC_EFFECT => ciCompileExpression fl e .EC_EFFECT
  | _, .addressOf n e, .EC_VALUE => do
    let (a, at_) ← ciCompileExpression fl e .EC_ADDRESS
    pure (code [a, .item (.conversion .other (.value (.DT_PTR_TO n)))], at_)
  | _, .addressOf _ e, .EC_EFFECT => ciCompileExpression fl e .EC_EFFECT
  | _, .addressOf _ _, .EC_ADDRESS => none
  | _, .incDec (t := t) op e, context => do
    notAddress context
    let (a, at_) ← ciCompileExpression fl e .EC_ADDRESS
    pure (incDecCode op t context a at_, unknownAddrtype fl)
  | _, .logicalNot e, context => orConst (.logicalNot e) context do
    notAddress context
    let (a, _) ← ciCompileExpression fl e context
    pure (code [a, ifValue context (.item .logicalNot)], .AT_CI_ADDR)
  | _, .unary op (s := s) (t := t) hs ht e, context => orConst (.unary op hs ht e) context do
    notAddress context
    let (a, at_) ← ciCompileExpression fl e context
    match op with
    | .OP_UNARY_PLUS => pure (code [a, ifValue context (convertIf s t)], at_)
    | .OP_UNARY_MINUS => pure (code [a, ifValue context (.item (.unary op s t))], at_)
    | .OP_BITWISE_NOT => pure (code [a, ifValue context (.item (.unary op s t))], .AT_CI_ADDR)
  | _, .convert (s := s) t e, context => orConst (.convert t e) context do
    notAddress context
    let (a, at_) ← ciCompileExpression fl e context
    pure (code [a, ifValue context (.item (.conversion (.value s) (.value t)))],
      if context = .EC_VALUE ∧ ciIsIntegral t = false ∧ ciIsIntegral s = true then
        unknownAddrtype fl
      else at_)
  | _, .asPointer (s := s) n e, context => do
    notAddress context
    let (a, at_) ← ciCompileExpression fl e context
    pure (code [a, ifValue context (.item (.conversion (.value s) (.value (.DT_PTR_TO n))))], at_)
  | _, .binary op (t := t) h l r, context => orConst (.binary op h l r) context do
    notAddress context
    let (a, left_at) ← ciCompileExpression fl l context
    let (b, right_at) ← ciCompileExpression fl r context
    pure (code [a, b, ifValue context (.item (.arith fl.check_div op t true))],
      joinAddrtype fl left_at right_at)
  | _, .shift op (t := t) (u := u) ht hu l r, context => orConst (.shift op ht hu l r) context do
    notAddress context
    let (a, left_at) ← ciCompileExpression fl l context
    let (b, right_at) ← ciCompileExpression fl r context
    pure (code [a, b, ifValue context (.item (.shift op t u true))],
      joinAddrtype fl left_at right_at)
  | _, .compare op (t := t) h l r, context => orConst (.compare op h l r) context do
    notAddress context
    let (a, left_at) ← ciCompileExpression fl l context
    let (b, right_at) ← ciCompileExpression fl r context
    pure (code [a, b, ifValue context (.item (.relation op t))],
      if op = .OP_IS_EQUAL ∨ op = .OP_NOT_EQUAL then joinAddrtype fl left_at right_at
      else .AT_CI_ADDR)
  | _, .logical op l r, context => orConst (.logical op l r) context do
    notAddress context
    let (a, _) ← ciCompileExpression fl l .EC_VALUE
    let (b, _) ← ciCompileExpression fl r context
    let j : Jump := match op with
      | .OP_LOGICAL_AND => .JUMP_IF_ZERO
      | .OP_LOGICAL_OR => .JUMP_IF_NON_ZERO
    pure (if context = .EC_VALUE then
        code [a, .item .dup, .shortcut j (code [.item .pop, b]), .item .toBool]
      else code [a, .shortcut j b], .AT_CI_ADDR)
  | _, .ptrPlus op (n := n) _ l r, context => do
    notAddress context
    let (a, left_at) ← ciCompileExpression fl l context
    let b ← compileScaleExpr r n context (ciCompileExpression fl r context)
    pure (code [a, b, ifValue context (.item (.ptrOp op n))],
      joinAddrtype fl left_at .AT_CI_ADDR)
  | _, .plusPtr (n := n) _ l r, context => do
    notAddress context
    let a ← compileScaleExpr l n context (ciCompileExpression fl l context)
    let (b, right_at) ← ciCompileExpression fl r context
    pure (code [a, b, ifValue context (.item (.ptrOp .OP_PLUS n))],
      joinAddrtype fl .AT_CI_ADDR right_at)
  | _, .assign (t := t) l r, context => do
    notAddress context
    let (a, left_at) ← ciCompileExpression fl l .EC_ADDRESS
    let (b, right_at) ← ciCompileExpression fl r .EC_VALUE
    pure (code [a, b, .item (.assign t (decide (context = .EC_VALUE)) left_at)], right_at)
  | _, .assignOp op (s := s) (t := t) _ _ l r, context => do
    notAddress context
    let (a, left_at) ← ciCompileExpression fl l .EC_ADDRESS
    let (b, _) ← ciCompileExpression fl r .EC_VALUE
    let is_value := decide (context = .EC_VALUE)
    pure (assignCode s t context a left_at
      (code [b, .item (.arith fl.check_div op t is_value)]), left_at)
  | _, .assignShift op (s := s) (t := t) (u := u) _ _ _ l r, context => do
    notAddress context
    let (a, left_at) ← ciCompileExpression fl l .EC_ADDRESS
    let (b, _) ← ciCompileExpression fl r .EC_VALUE
    let is_value := decide (context = .EC_VALUE)
    pure (assignCode s t context a left_at (code [b, .item (.shift op t u is_value)]), left_at)
  | _, .assignPtr op (n := n) _ l r, context => do
    notAddress context
    let (a, left_at) ← ciCompileExpression fl l .EC_ADDRESS
    let b ← compileScaleExpr r n .EC_VALUE (ciCompileExpression fl r .EC_VALUE)
    pure (assignCode (.DT_PTR_TO n) (.DT_PTR_TO n) context a left_at
      (code [b, .item (.ptrOp op n)]), left_at)
  | _, .comma l r, context => orConst (.comma l r) context do
    notAddress context
    let (a, _) ← ciCompileExpression fl l .EC_EFFECT
    let (b, at_) ← ciCompileExpression fl r context
    pure (code [a, b], at_)
  | _, .cond c if_true if_false, context => orConst (.cond c if_true if_false) context do
    let (a, _) ← ciCompileExpression fl c .EC_VALUE
    let (b, left_at) ← ciCompileExpression fl if_true context
    let (b', right_at) ← ciCompileExpression fl if_false context
    pure (code [a, .cond b b'], joinAddrtype fl left_at right_at)
  | _, .call t is_void func_index args, context => do
    if context = .EC_ADDRESS ∨ (context = .EC_VALUE ∧ is_void = true) then none
    let (a, _) ← ciCompileExpression fl args .EC_VALUE
    pure (code [a, .item (.call t is_void func_index args.nargs), afterCall t context args.nargs],
      .AT_CI_ADDR)
  | _, .callIndirect t is_void func args, context => do
    if context = .EC_ADDRESS ∨ (context = .EC_VALUE ∧ is_void = true) then none
    let (a, _) ← ciCompileExpression fl args .EC_VALUE
    let (b, _) ← ciCompileExpression fl func .EC_VALUE
    pure (code [a, b, .item (.callIndirect t is_void args.nargs), afterCall t context args.nargs],
      .AT_CI_ADDR)
  | _, .noArgs, _ => some (.nil, .AT_CI_ADDR)
  | _, .arg e rest, _ => do
    let (a, _) ← ciCompileExpression fl rest .EC_VALUE
    let (b, _) ← ciCompileExpression fl e .EC_VALUE
    pure (code [a, b], .AT_CI_ADDR)

end ups_rules.compile_expr
