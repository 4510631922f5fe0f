-- Expressions of the integer types and of pointers, as the parser builds their trees (ci_expr.c),
-- and the value that the compiler finds for a constant one (ci_constexpr.c).
import Ups.LocalStores

open ups_rules.machine
open ups_rules.opcodes
open ups_rules.locals
open ups_rules.local_stores

namespace ups_rules.exprs

/-! ## Types -/

/-- The types of expressions. A pointer has the size of what it points to. -/
inductive Ty where
  | TY_CHAR | TY_UCHAR | TY_SHORT | TY_USHORT | TY_INT | TY_UINT
  | DT_PTR_TO (size : Nat)
deriving DecidableEq

def Ty.scalar : Ty → Scalar
  | .TY_CHAR => .TY_CHAR
  | .TY_UCHAR => .TY_UCHAR
  | .TY_SHORT => .TY_SHORT
  | .TY_USHORT => .TY_USHORT
  | .TY_INT => .TY_INT
  | .TY_UINT => .TY_UINT
  | .DT_PTR_TO _ => .DT_PTR_TO

def Ty.size (t : Ty) : Nat := t.scalar.size

/-- The number of the typecode. -/
def Ty.typecode : Ty → BitVec 8
  | .TY_CHAR => 19#8
  | .TY_UCHAR => 20#8
  | .TY_SHORT => 21#8
  | .TY_USHORT => 22#8
  | .TY_INT => 23#8
  | .TY_UINT => 24#8
  | .DT_PTR_TO _ => 0#8

/-- `TY_VOID` -/
def tyVoid : BitVec 8 := 18#8

def ciIsSignedType : Ty → Bool
  | .TY_CHAR | .TY_SHORT | .TY_INT => true
  | _ => false

def ciIsIntegral : Ty → Bool
  | .DT_PTR_TO _ => false
  | _ => true

/-- `ci_do_integral_promotions` -/
def promoted : Ty → Ty
  | .TY_CHAR | .TY_UCHAR | .TY_SHORT | .TY_USHORT => .TY_INT
  | t => t

/-- The types that the usual arithmetic conversions end at. -/
def Ty.isArith : Ty → Bool
  | .TY_INT | .TY_UINT => true
  | _ => false

/-! ## Trees -/

/-- Where a variable is. The address of a static one is the one that the loader leaves. -/
inductive VarRef where
  /-- An automatic variable or a parameter. -/
  | ciLocal (va_addr : Word)
  | ciStatic (addr : Word)
  /-- A local variable of the debugged process. -/
  | procLocal (r : ProcReg) (va_addr : Word)
  | procStatic (va_addr : Word)
  /-- A variable in a register, for which the loader leaves an address. -/
  | procReg (addr : Word)

inductive IncDec where
  | OP_PREINC | OP_PREDEC | OP_POSTINC | OP_POSTDEC
deriving DecidableEq

inductive UnaryOp where
  | OP_UNARY_PLUS | OP_UNARY_MINUS | OP_BITWISE_NOT
deriving DecidableEq

inductive ArithOp where
  | OP_PLUS | OP_MINUS | OP_MUL | OP_DIV | OP_MOD | OP_BITWISE_AND | OP_BITWISE_XOR | OP_BITWISE_OR
deriving DecidableEq

inductive ShiftOp where
  | OP_LSHIFT | OP_RSHIFT
deriving DecidableEq

inductive RelOp where
  | OP_IS_EQUAL | OP_NOT_EQUAL | OP_LESS | OP_GREATER | OP_LESS_OR_EQUAL | OP_GREATER_OR_EQUAL
deriving DecidableEq

inductive LogicalOp where
  | OP_LOGICAL_OR | OP_LOGICAL_AND
deriving DecidableEq

inductive PtrOp where
  | OP_PLUS | OP_MINUS
deriving DecidableEq

inductive Kind where
  | value (t : Ty)
  | args

/-- An expr_t of a type, or the list of the arguments of a call. The operands of an operator have
been converted as its constructor in ci_expr.c converts them. -/
inductive Tree : Kind → Type where
  | intConst {t : Ty} (h : t.isArith = true) (ival : Word) : Tree (.value t)
  /-- A string or a function: an address that the loader leaves in the text. -/
  | address (n : Nat) (addr : Word) : Tree (.value (.DT_PTR_TO n))
  | var (t : Ty) (v : VarRef) : Tree (.value t)
  | deref (t : Ty) {n : Nat} (e : Tree (.value (.DT_PTR_TO n))) : Tree (.value t)
  | addressOf (n : Nat) {t : Ty} (e : Tree (.value t)) : Tree (.value (.DT_PTR_TO n))
  | incDec (op : IncDec) {t : Ty} (e : Tree (.value t)) : Tree (.value t)
  | logicalNot {t : Ty} (e : Tree (.value t)) : Tree (.value .TY_INT)
  /-- The operand keeps its type, and the result is promoted. -/
  | unary (op : UnaryOp) {s t : Ty} (hs : ciIsIntegral s = true) (ht : promoted s = t)
    (e : Tree (.value s)) : Tree (.value t)
  /-- A cast, a promotion or an assignment conversion. -/
  | convert (t : Ty) {s : Ty} (e : Tree (.value s)) : Tree (.value t)
  /-- A null pointer constant or another pointer, where no conversion is pushed. -/
  | asPointer (n : Nat) {s : Ty} (e : Tree (.value s)) : Tree (.value (.DT_PTR_TO n))
  | binary (op : ArithOp) {t : Ty} (h : t.isArith = true) (left right : Tree (.value t)) :
    Tree (.value t)
  | shift (op : ShiftOp) {t u : Ty} (ht : t.isArith = true) (hu : u.isArith = true)
    (left : Tree (.value t)) (right : Tree (.value u)) : Tree (.value t)
  | compare (op : RelOp) {t : Ty} (h : t.isArith = true ∨ ciIsIntegral t = false)
    (left right : Tree (.value t)) : Tree (.value .TY_INT)
  | logical (op : LogicalOp) {s t : Ty} (left : Tree (.value s)) (right : Tree (.value t)) :
    Tree (.value .TY_INT)
  /-- The number is scaled. -/
  | ptrPlus (op : PtrOp) {n : Nat} {t : Ty} (h : t.isArith = true)
    (left : Tree (.value (.DT_PTR_TO n))) (right : Tree (.value t)) :
    Tree (.value (.DT_PTR_TO n))
  | plusPtr {n : Nat} {t : Ty} (h : t.isArith = true) (left : Tree (.value t))
    (right : Tree (.value (.DT_PTR_TO n))) : Tree (.value (.DT_PTR_TO n))
  | assign {t : Ty} (left right : Tree (.value t)) : Tree (.value t)
  /-- The left operand is of type `s`, the operation of type `t`. -/
  | assignOp (op : ArithOp) {s t : Ty} (hs : ciIsIntegral s = true) (ht : t.isArith = true)
    (left : Tree (.value s)) (right : Tree (.value t)) : Tree (.value s)
  | assignShift (op : ShiftOp) {s t u : Ty} (hs : ciIsIntegral s = true) (ht : promoted s = t)
    (hu : u.isArith = true) (left : Tree (.value s)) (right : Tree (.value u)) :
    Tree (.value s)
  | assignPtr (op : PtrOp) {n : Nat} {t : Ty} (h : t.isArith = true)
    (left : Tree (.value (.DT_PTR_TO n))) (right : Tree (.value t)) :
    Tree (.value (.DT_PTR_TO n))
  | comma {s t : Ty} (left : Tree (.value s)) (right : Tree (.value t)) : Tree (.value t)
  | cond {s t : Ty} (c : Tree (.value s)) (if_true if_false : Tree (.value t)) : Tree (.value t)
  /-- A call of a function by its index. -/
  | call (t : Ty) (is_void : Bool) (func_index : Word) (args : Tree .args) : Tree (.value t)
  | callIndirect (t : Ty) (is_void : Bool) {n : Nat} (func : Tree (.value (.DT_PTR_TO n)))
    (args : Tree .args) : Tree (.value t)
  | noArgs : Tree .args
  /-- An argument, and those behind it. -/
  | arg {t : Ty} (e : Tree (.value t)) (rest : Tree .args) : Tree .args

abbrev Expr (t : Ty) : Type := Tree (.value t)

namespace Tree

/-- `ex_is_constant` -/
def isConstant : {k : Kind} → Tree k → Bool
  | _, .intConst _ _ => true
  | _, .address _ _ | _, .var _ _ | _, .deref _ _ => false
  | _, .addressOf _ e | _, .incDec _ e | _, .logicalNot e | _, .unary _ _ _ e => e.isConstant
  | _, .convert _ e | _, .asPointer _ e => e.isConstant
  | _, .binary _ _ l r | _, .compare _ _ l r | _, .assign l r => l.isConstant && r.isConstant
  | _, .shift _ _ _ l r => l.isConstant && r.isConstant
  | _, .logical _ l r | _, .comma l r => l.isConstant && r.isConstant
  | _, .ptrPlus _ _ l r => l.isConstant && r.isConstant
  | _, .plusPtr _ l r => l.isConstant && r.isConstant
  | _, .assignOp _ _ _ l r => l.isConstant && r.isConstant
  | _, .assignShift _ _ _ _ l r => l.isConstant && r.isConstant
  | _, .assignPtr _ _ l r => l.isConstant && r.isConstant
  | _, .cond c a b => c.isConstant && a.isConstant && b.isConstant
  | _, .call _ _ _ _ | _, .callIndirect _ _ _ _ | _, .noArgs | _, .arg _ _ => false

/-- The number of arguments. -/
def nargs : {k : Kind} → Tree k → Nat
  | _, .arg _ rest => rest.nargs + 1
  | _, _ => 0

end Tree

/-! ## Constant expressions -/

/-- `operand_typecode` without short types; `none` is a panic. -/
def operandTypecode : Ty → Option Ty
  | .TY_INT => some .TY_INT
  | .TY_UINT | .DT_PTR_TO _ => some .TY_UINT
  | _ => none

def intOfBool (b : Bool) : BitVec 32 := if b then 1#32 else 0#32

/-- `do_unary_conversion` -/
def doUnaryConversion (t : Ty) (v : BitVec 32) : BitVec 32 :=
  match t with
  | .TY_CHAR => (v.setWidth 8).signExtend 32
  | .TY_SHORT => (v.setWidth 16).signExtend 32
  | .TY_UCHAR => (v.setWidth 8).setWidth 32
  | .TY_USHORT => (v.setWidth 16).setWidth 32
  | _ => v

def evalUnary (op : UnaryOp) (v : BitVec 32) : BitVec 32 :=
  match op with
  | .OP_UNARY_PLUS => v
  | .OP_UNARY_MINUS => -v
  | .OP_BITWISE_NOT => ~~~v

/-- `BINOP` and `INTOP` in the type `ot`. An int that overflows wraps; `none` is a division by
zero, or one that C leaves undefined. -/
def evalArith (op : ArithOp) (ot : Ty) (l r : BitVec 32) : Option (BitVec 32) :=
  match op with
  | .OP_PLUS => some (l + r)
  | .OP_MINUS => some (l - r)
  | .OP_MUL => some (l * r)
  | .OP_BITWISE_AND => some (l &&& r)
  | .OP_BITWISE_XOR => some (l ^^^ r)
  | .OP_BITWISE_OR => some (l ||| r)
  | .OP_DIV =>
    if r = 0#32 then none
    else if ot = .TY_UINT then some (l / r)
    else if l = BitVec.intMin 32 ∧ r = BitVec.allOnes 32 then none
    else some (l.sdiv r)
  | .OP_MOD =>
    if r = 0#32 then none
    else if ot = .TY_UINT then some (l % r)
    else if l = BitVec.intMin 32 ∧ r = BitVec.allOnes 32 then none
    else some (l.srem r)

/-- A count that is out of range is undefined. -/
def evalShift (op : ShiftOp) (ot : Ty) (l r : BitVec 32) : Option (BitVec 32) :=
  if 32 ≤ r.toNat then none
  else
    match op with
    | .OP_LSHIFT => some (l <<< r.toNat)
    | .OP_RSHIFT => some (if ot = .TY_UINT then l >>> r.toNat else l.sshiftRight r.toNat)

/-- `RELOP` in the type `ot`. -/
def evalRel (op : RelOp) (ot : Ty) (l r : BitVec 32) : BitVec 32 :=
  let lt (a b : BitVec 32) := if ot = .TY_UINT then a.ult b else a.slt b
  let le (a b : BitVec 32) := if ot = .TY_UINT then a.ule b else a.sle b
  intOfBool <|
    match op with
    | .OP_IS_EQUAL => l == r
    | .OP_NOT_EQUAL => l != r
    | .OP_LESS => lt l r
    | .OP_GREATER => lt r l
    | .OP_LESS_OR_EQUAL => le l r
    | .OP_GREATER_OR_EQUAL => le r l

def evalLogical (op : LogicalOp) (l r : BitVec 32) : BitVec 32 :=
  match op with
  | .OP_LOGICAL_OR => intOfBool (l != 0#32 || r != 0#32)
  | .OP_LOGICAL_AND => intOfBool (l != 0#32 && r != 0#32)

/-- `eval_scale_const_expr` -/
def evalScale (v : BitVec 32) (factor : Nat) : BitVec 32 := v * BitVec.ofNat 32 factor

def evalPtr (op : PtrOp) (l r : BitVec 32) : BitVec 32 :=
  match op with
  | .OP_PLUS => l + r
  | .OP_MINUS => l - r

namespace Tree

/-- `eval_const_expr`, the `cv_int` that it leaves; `none` is an error or a panic. -/
def evalConst : {k : Kind} → Tree k → Option (BitVec 32)
  | _, .intConst _ ival => some (ival.setWidth 32)
  | _, .logicalNot (t := t) e => do
    let v ← e.evalConst
    let _ ← operandTypecode t
    pure (intOfBool (v == 0#32))
  | _, .unary op (s := s) _ _ e => do
    let v ← e.evalConst
    let _ ← operandTypecode s
    pure (evalUnary op v)
  | _, .convert t e => e.evalConst.map (doUnaryConversion t)
  | _, .asPointer _ e => e.evalConst
  | _, .binary op (t := t) _ l r => do
    let ot ← operandTypecode t
    evalArith op ot (← l.evalConst) (← r.evalConst)
  | _, .shift op (t := t) _ _ l r => do
    let ot ← operandTypecode t
    evalShift op ot (← l.evalConst) (← r.evalConst)
  | _, .compare op (t := t) _ l r => do
    let ot ← operandTypecode t
    pure (evalRel op ot (← l.evalConst) (← r.evalConst))
  | _, .logical op (s := s) (t := t) l r => do
    let ot ← operandTypecode s
    let ot' ← operandTypecode t
    if ot' ≠ ot then none else pure (evalLogical op (← l.evalConst) (← r.evalConst))
  | _, .ptrPlus op (n := n) (t := t) _ l r =>
    do if t ≠ .TY_UINT then none else pure (evalPtr op (← l.evalConst) (evalScale (← r.evalConst) n))
  | _, .plusPtr (n := n) (t := t) _ l r =>
    do if t ≠ .TY_UINT then none else pure (evalScale (← l.evalConst) n + (← r.evalConst))
  | _, .cond c a b => do
    let v ← c.evalConst
    let v' ← a.evalConst
    let v'' ← b.evalConst
    pure (if v ≠ 0#32 then v' else v'')
  | _, _ => none

end Tree

end ups_rules.exprs
