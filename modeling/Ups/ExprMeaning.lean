-- What an expression of the interpreted program means, within the limits in which words of 64 bits
-- compute as C does with its ints of 32, and that a constant one is folded to its value.
import Ups.OperandForms

open le_bytes
open ups_rules.machine
open ups_rules.opcodes
open ups_rules.execute
open ups_rules.local_stores
open ups_rules.exprs
open ups_rules.code_text
open ups_rules.compile_expr
open ups_rules.operand_forms

namespace ups_rules.expr_meaning

/-! ## Words that stand for values -/

/-- The bits of an int or of an unsigned int, with the highest one in front of them. -/
def wordOf (v : BitVec 32) : Word := v.signExtend 64

def low (w : Word) : BitVec 32 := w.setWidth 32

/-- The word stands for a value of the type. Any word is a pointer. -/
def Canonical (t : Ty) (w : Word) : Prop :=
  ciIsIntegral t = true → w = wordOf (doUnaryConversion t (low w))

instance (t : Ty) (w : Word) : Decidable (Canonical t w) :=
  inferInstanceAs (Decidable (ciIsIntegral t = true → w = wordOf (doUnaryConversion t (low w))))

def InInt (z : Int) : Prop := -2 ^ 31 ≤ z ∧ z < 2 ^ 31

instance (z : Int) : Decidable (InInt z) := inferInstanceAs (Decidable (_ ∧ _))

/-! ## The operators -/

/-- A conversion to a type that has the value. No code is emitted for it. -/
def convertMeaning (t : Ty) (w : Word) : Option Word := if Canonical t w then some w else none

/-- The sum, difference or product is an int. A divisor and what is divided are not negative, nor
unsigned ints of 2^31 and more; the machine's remainder is an unsigned one for ints as well. -/
def ArithFits (op : ArithOp) (t : Ty) (l r : Word) : Prop :=
  match op with
  | .OP_PLUS => InInt (l.toInt + r.toInt)
  | .OP_MINUS => InInt (l.toInt - r.toInt)
  | .OP_MUL => InInt (l.toInt * r.toInt)
  | .OP_DIV => t = .TY_INT ∨ 0 ≤ l.toInt ∧ 0 ≤ r.toInt
  | .OP_MOD => 0 ≤ l.toInt ∧ 0 ≤ r.toInt
  | _ => True

instance (op : ArithOp) (t : Ty) (l r : Word) : Decidable (ArithFits op t l r) :=
  match op with
  | .OP_PLUS => inferInstanceAs (Decidable (InInt _))
  | .OP_MINUS => inferInstanceAs (Decidable (InInt _))
  | .OP_MUL => inferInstanceAs (Decidable (InInt _))
  | .OP_DIV => inferInstanceAs (Decidable (_ ∨ _))
  | .OP_MOD => inferInstanceAs (Decidable (_ ∧ _))
  | .OP_BITWISE_AND | .OP_BITWISE_XOR | .OP_BITWISE_OR => inferInstanceAs (Decidable True)

def arithMeaning (op : ArithOp) (t : Ty) (l r : Word) : Option Word :=
  if ArithFits op t l r then (evalArith op t (low l) (low r)).map wordOf else none

def ShiftFits (op : ShiftOp) (l r : Word) : Prop :=
  match op with
  | .OP_LSHIFT => InInt (l.toInt * 2 ^ r.toNat)
  | .OP_RSHIFT => 0 ≤ l.toInt

instance (op : ShiftOp) (l r : Word) : Decidable (ShiftFits op l r) :=
  match op with
  | .OP_LSHIFT => inferInstanceAs (Decidable (InInt _))
  | .OP_RSHIFT => inferInstanceAs (Decidable (0 ≤ _))

def shiftMeaning (op : ShiftOp) (t : Ty) (l r : Word) : Option Word :=
  if (low r).toNat < 32 ∧ ShiftFits op l r then (evalShift op t (low l) (low r)).map wordOf
  else none

def pointerRel (op : RelOp) (l r : Word) : Bool :=
  match op with
  | .OP_IS_EQUAL => l == r
  | .OP_NOT_EQUAL => l != r
  | .OP_LESS => l.ult r
  | .OP_GREATER => r.ult l
  | .OP_LESS_OR_EQUAL => l.ule r
  | .OP_GREATER_OR_EQUAL => r.ule l

def relMeaning (op : RelOp) (t : Ty) (l r : Word) : Word :=
  if ciIsIntegral t then wordOf (evalRel op t (low l) (low r))
  else wordOf (intOfBool (pointerRel op l r))

def unaryMeaning (op : UnaryOp) (w : Word) : Option Word :=
  match op with
  | .OP_UNARY_PLUS => some w
  | .OP_UNARY_MINUS => if InInt (-w.toInt) then some (wordOf (evalUnary op (low w))) else none
  | .OP_BITWISE_NOT => some (wordOf (evalUnary op (low w)))

/-- A number of elements, as bytes. -/
def scaleMeaning (n : Nat) (i : Word) : Option Word :=
  if InInt (i.toInt * n) then some (i * BitVec.ofNat 64 n) else none

def ptrMeaning (op : PtrOp) (l r : Word) : Word :=
  match op with
  | .OP_PLUS => l + r
  | .OP_MINUS => l - r

/-- What `++` or `--` adds or takes away. -/
def stepSize : Ty → Nat
  | .DT_PTR_TO n => n
  | _ => 1

def stepMeaning (op : IncDec) (w : Word) (size : Nat) : Word :=
  ptrMeaning (if op = .OP_PREDEC ∨ op = .OP_POSTDEC then .OP_MINUS else .OP_PLUS) w
    (BitVec.ofNat 64 size)

/-! ## Memory -/

/-- The frame of the function, and which bytes of the memory are the program's own. -/
structure Place where
  fp : Word
  data : Word → Nat → Bool

def width (t : Ty) : Nat := cellWidth (cellOf t)

/-- A variable holds a word of its type. -/
def loadMeaning (p : Place) (t : Ty) (mem : Mem 64) (a : Word) : Option Word :=
  if p.data a (width t) = true ∧ Canonical t (fetch (loadOf t) mem a) then
    some (fetch (loadOf t) mem a)
  else none

def storeMeaning (p : Place) (t : Ty) (mem : Mem 64) (a v : Word) : Option (Mem 64) :=
  if p.data a (width t) = true then some (store mem a (width t) v) else none

/-- The address of a variable of the program. -/
def placeOf (p : Place) : VarRef → Option Word
  | .ciLocal va_addr => some (p.fp + va_addr)
  | .ciStatic addr => some (unsignedOf 4 addr)
  | _ => none

/-! ## Expressions -/

/-- The value of an expression, or its address if that is wanted, and the memory behind it; `none`
is what has no meaning here: what is undefined in C or out of the limits, a call, and a variable of
the debugged process. -/
def eval (p : Place) : {k : Kind} → Tree k → Bool → Mem 64 → Option (Word × Mem 64)
  | _, .intConst _ ival, false, mem => some (wordOf (low ival), mem)
  | _, .address _ addr, false, mem => some (unsignedOf 4 addr, mem)
  | _, .var _ v, true, mem => (placeOf p v).map fun a => (a, mem)
  | _, .var t v, false, mem => do
    let a ← placeOf p v
    let w ← loadMeaning p t mem a
    pure (w, mem)
  | _, .deref _ e, true, mem => eval p e false mem
  | _, .deref t e, false, mem => do
    let (a, mem) ← eval p e false mem
    let w ← loadMeaning p t mem a
    pure (w, mem)
  | _, .addressOf _ e, false, mem => eval p e true mem
  | _, .incDec op (t := t) e, false, mem => do
    let (a, mem) ← eval p e true mem
    let old ← loadMeaning p t mem a
    let new ← convertMeaning t (stepMeaning op old (stepSize t))
    let mem ← storeMeaning p t mem a new
    pure (if op = .OP_PREINC ∨ op = .OP_PREDEC then new else old, mem)
  | _, .logicalNot e, false, mem => do
    let (w, mem) ← eval p e false mem
    pure (wordOf (intOfBool (w == 0#64)), mem)
  | _, .unary op _ _ e, false, mem => do
    let (w, mem) ← eval p e false mem
    let w ← unaryMeaning op w
    pure (w, mem)
  | _, .convert t e, false, mem => do
    let (w, mem) ← eval p e false mem
    let w ← convertMeaning t w
    pure (w, mem)
  | _, .asPointer _ e, false, mem => eval p e false mem
  | _, .binary op (t := t) _ l r, false, mem => do
    let (v, mem) ← eval p l false mem
    let (w, mem) ← eval p r false mem
    let w ← arithMeaning op t v w
    pure (w, mem)
  | _, .shift op (t := t) _ _ l r, false, mem => do
    let (v, mem) ← eval p l false mem
    let (w, mem) ← eval p r false mem
    let w ← shiftMeaning op t v w
    pure (w, mem)
  | _, .compare op (t := t) _ l r, false, mem => do
    let (v, mem) ← eval p l false mem
    let (w, mem) ← eval p r false mem
    pure (relMeaning op t v w, mem)
  | _, .logical op l r, false, mem => do
    let (v, mem) ← eval p l false mem
    -- the right operand is only evaluated if the left one leaves the result open
    if (v == 0#64) = (op == .OP_LOGICAL_AND) then
      pure (wordOf (intOfBool (v != 0#64)), mem)
    else do
      let (w, mem) ← eval p r false mem
      pure (wordOf (intOfBool (w != 0#64)), mem)
  | _, .ptrPlus op (n := n) h l r, false, mem => do
    let (v, mem) ← eval p l false mem
    let (w, mem) ← eval p r false mem
    let w ← scaleMeaning n w
    let w := ptrMeaning op v w
    if (Tree.ptrPlus op h l r).isConstant = true ∧ ¬Canonical .TY_INT w then none
    else pure (w, mem)
  | _, .plusPtr (n := n) h l r, false, mem => do
    let (v, mem) ← eval p l false mem
    let v ← scaleMeaning n v
    let (w, mem) ← eval p r false mem
    let w := v + w
    if (Tree.plusPtr h l r).isConstant = true ∧ ¬Canonical .TY_INT w then none
    else pure (w, mem)
  | _, .assign (t := t) l r, false, mem => do
    let (a, mem) ← eval p l true mem
    let (w, mem) ← eval p r false mem
    let mem ← storeMeaning p t mem a w
    pure (w, mem)
  | _, .assignOp op (s := s) (t := t) _ _ l r, false, mem => do
    let (a, mem) ← eval p l true mem
    let v ← loadMeaning p s mem a
    let v ← convertMeaning t v
    let (w, mem) ← eval p r false mem
    let w ← arithMeaning op t v w
    let w ← convertMeaning s w
    let mem ← storeMeaning p s mem a w
    pure (w, mem)
  | _, .assignShift op (s := s) (t := t) _ _ _ l r, false, mem => do
    let (a, mem) ← eval p l true mem
    let v ← loadMeaning p s mem a
    let (w, mem) ← eval p r false mem
    let w ← shiftMeaning op t v w
    let w ← convertMeaning s w
    let mem ← storeMeaning p s mem a w
    pure (w, mem)
  | _, .assignPtr op (n := n) _ l r, false, mem => do
    let (a, mem) ← eval p l true mem
    let v ← loadMeaning p (.DT_PTR_TO n) mem a
    let (w, mem) ← eval p r false mem
    let w ← scaleMeaning n w
    let w := ptrMeaning op v w
    let mem ← storeMeaning p (.DT_PTR_TO n) mem a w
    pure (w, mem)
  | _, .comma l r, false, mem => do
    let (_, mem) ← eval p l false mem
    eval p r false mem
  | _, .cond c if_true if_false, false, mem => do
    let (v, mem) ← eval p c false mem
    if v ≠ 0#64 then eval p if_true false mem else eval p if_false false mem
  | _, _, _, _ => none


/-! ## Words compute as C does -/

section
variable {t : Ty} {l r w : Word} {a b v : BitVec 32} {z : Int}

@[simp] theorem low_wordOf (v : BitVec 32) : low (wordOf v) = v := by
  apply BitVec.eq_of_toNat_eq
  rw [low, wordOf, BitVec.toNat_setWidth]
  exact toNat_signExtend_mod v

@[simp] theorem toInt_wordOf (v : BitVec 32) : (wordOf v).toInt = v.toInt :=
  BitVec.toInt_signExtend_of_le (by decide)

theorem wordOf_inj : wordOf a = wordOf b ↔ a = b := by
  refine ⟨fun h => ?_, fun h => h ▸ rfl⟩
  rw [← low_wordOf a, h, low_wordOf]

@[simp] theorem wordOf_eq_zero : wordOf v = 0#64 ↔ v = 0#32 := wordOf_inj (b := 0#32)

theorem inInt_toInt (v : BitVec 32) : InInt v.toInt := ⟨BitVec.le_toInt v, BitVec.toInt_lt⟩

/-- A 64-bit result that is an int is the word of the 32-bit result. -/
theorem eq_wordOf (hz : InInt z) (hw : w.toInt = z.bmod (2 ^ 64)) (hv : v.toInt = z.bmod (2 ^ 32)) :
    w = wordOf v := by
  obtain ⟨hlo, hhi⟩ := hz
  apply BitVec.eq_of_toInt_eq
  rw [toInt_wordOf, hw, hv, Int.bmod_eq_of_le (by omega) (by omega),
    Int.bmod_eq_of_le (by omega) (by omega)]

theorem wordOf_add (h : InInt (a.toInt + b.toInt)) : wordOf a + wordOf b = wordOf (a + b) := by
  refine eq_wordOf h ?_ (BitVec.toInt_add a b)
  rw [BitVec.toInt_add, toInt_wordOf, toInt_wordOf]

theorem wordOf_sub (h : InInt (a.toInt - b.toInt)) : wordOf a - wordOf b = wordOf (a - b) := by
  refine eq_wordOf h ?_ (BitVec.toInt_sub)
  rw [BitVec.toInt_sub, toInt_wordOf, toInt_wordOf]

theorem wordOf_mul (h : InInt (a.toInt * b.toInt)) : wordOf a * wordOf b = wordOf (a * b) := by
  refine eq_wordOf h ?_ (BitVec.toInt_mul a b)
  rw [BitVec.toInt_mul, toInt_wordOf, toInt_wordOf]

theorem wordOf_neg (h : InInt (-a.toInt)) : -wordOf a = wordOf (-a) := by
  refine eq_wordOf h ?_ BitVec.toInt_neg
  rw [BitVec.toInt_neg, toInt_wordOf]

theorem wordOf_not (a : BitVec 32) : ~~~wordOf a = wordOf (~~~a) :=
  (BitVec.signExtend_not (by decide)).symm

theorem wordOf_scale (n : Nat) (h : InInt (a.toInt * n)) :
    wordOf a * BitVec.ofNat 64 n = wordOf (a * BitVec.ofNat 32 n) := by
  refine eq_wordOf h ?_ ?_
  · rw [BitVec.toInt_mul, toInt_wordOf, BitVec.toInt_ofNat', Int.mul_bmod_bmod]
  · rw [BitVec.toInt_mul, BitVec.toInt_ofNat', Int.mul_bmod_bmod]

/-! ### Divisions -/

theorem msb_of_nonneg (h : 0 ≤ a.toInt) : a.msb = false := by
  by_contra hc
  have := BitVec.toInt_neg_of_msb_true (Bool.not_eq_false _ ▸ hc)
  omega

theorem toNat_wordOf (h : 0 ≤ a.toInt) : (wordOf a).toNat = a.toNat := by
  rw [wordOf, BitVec.toNat_signExtend, msb_of_nonneg h, BitVec.toNat_setWidth_of_le (by decide)]
  simp

theorem wordOf_umod (ha : 0 ≤ a.toInt) (hb : 0 ≤ b.toInt) :
    (wordOf a).umod (wordOf b) = wordOf (a % b) := by
  have hmod : 0 ≤ (a % b).toInt := by
    have hmsb : (a % b).msb = false := by
      rw [BitVec.msb_umod, msb_of_nonneg ha, Bool.false_and]
    exact BitVec.toInt_nonneg_of_msb_false hmsb
  apply BitVec.eq_of_toNat_eq
  rw [toNat_wordOf hmod, BitVec.toNat_umod]
  change (wordOf a).toNat % (wordOf b).toNat = _
  rw [toNat_wordOf ha, toNat_wordOf hb]

theorem wordOf_udiv (ha : 0 ≤ a.toInt) (hb : 0 ≤ b.toInt) :
    (wordOf a).udiv (wordOf b) = wordOf (a / b) := by
  have hdiv : 0 ≤ (a / b).toInt := by
    rw [BitVec.toInt_udiv_of_msb (msb_of_nonneg ha)]
    exact Int.natCast_nonneg _
  apply BitVec.eq_of_toNat_eq
  rw [toNat_wordOf hdiv, BitVec.toNat_udiv]
  change (wordOf a).toNat / (wordOf b).toNat = _
  rw [toNat_wordOf ha, toNat_wordOf hb]

theorem wordOf_sdiv (h : ¬(a = BitVec.intMin 32 ∧ b = BitVec.allOnes 32)) :
    (wordOf a).sdiv (wordOf b) = wordOf (a.sdiv b) := by
  have hquot : (a.sdiv b).toInt = a.toInt.tdiv b.toInt :=
    BitVec.toInt_sdiv_of_ne_or_ne a b (not_and_or.1 h)
  refine eq_wordOf (z := a.toInt.tdiv b.toInt) ?_ ?_ (BitVec.toInt_sdiv a b)
  · rw [← hquot]
    exact inInt_toInt _
  · rw [BitVec.toInt_sdiv, toInt_wordOf, toInt_wordOf]

end


/-! ## Values keep to their types -/

section
variable {s t : Ty} {w w' : Word}

theorem canonical_pointer (n : Nat) (w : Word) : Canonical (.DT_PTR_TO n) w := by
  intro h
  cases h

theorem canonical_iff (ht : t.isArith = true) : Canonical t w ↔ w = wordOf (low w) := by
  cases t with
  | TY_INT | TY_UINT => exact ⟨fun h => h rfl, fun h _ => h⟩
  | _ => cases ht

theorem canonical_wordOf (ht : t.isArith = true) (v : BitVec 32) : Canonical t (wordOf v) := by
  rw [canonical_iff ht, low_wordOf]

theorem isArith_promoted (hs : ciIsIntegral s = true) : (promoted s).isArith = true := by
  cases s with
  | DT_PTR_TO n => cases hs
  | _ => rfl

theorem Canonical.eq_wordOf (h : Canonical t w) (ht : ciIsIntegral t = true) :
    w = wordOf (low w) := by
  rw [h ht, low_wordOf]

theorem Canonical.promoted (h : Canonical s w) (hs : ciIsIntegral s = true)
    (ht : exprs.promoted s = t) : Canonical t w := by
  subst ht
  exact (canonical_iff (isArith_promoted hs)).2 (h.eq_wordOf hs)

theorem canonical_of_convert (h : convertMeaning t w = some w') : w = w' ∧ Canonical t w' := by
  unfold convertMeaning at h
  split at h
  case isTrue hc =>
    cases h
    exact ⟨rfl, hc⟩
  case isFalse => cases h

theorem canonical_of_load {p : Place} {mem : Mem 64} {a : Word}
    (h : loadMeaning p t mem a = some w) : Canonical t w := by
  unfold loadMeaning at h
  split at h
  case isTrue hc =>
    cases h
    exact hc.2
  case isFalse => cases h

end

/-! ## What it takes for an expression to have a value -/

section
variable {p : Place} {s t u : Ty} {n : Nat} {mem mem' : Mem 64} {w : Word}

theorem bind_pair {α β γ : Type} {x : Option (α × β)} {f : α × β → Option γ} {c : γ} :
    (x >>= f) = some c ↔ ∃ a b, x = some (a, b) ∧ f (a, b) = some c := by
  rw [Option.bind_eq_bind, Option.bind_eq_some_iff]
  exact Prod.exists

theorem bind_some {α γ : Type} {x : Option α} {f : α → Option γ} {c : γ} :
    (x >>= f) = some c ↔ ∃ a, x = some a ∧ f a = some c := by
  rw [Option.bind_eq_bind, Option.bind_eq_some_iff]

theorem pure_some {α : Type} {a b : α} : (pure a : Option α) = some b ↔ a = b := by
  rw [Option.pure_def, Option.some_inj]

theorem eval_var {v : VarRef} (h : eval p (.var t v) false mem = some (w, mem')) :
    ∃ a, placeOf p v = some a ∧ loadMeaning p t mem a = some w ∧ mem' = mem := by
  obtain ⟨a, ha, h⟩ := bind_some.1 h
  obtain ⟨x, hx, h⟩ := bind_some.1 h
  cases pure_some.1 h
  exact ⟨a, ha, hx, rfl⟩

theorem eval_varAddress {v : VarRef} (h : eval p (.var t v) true mem = some (w, mem')) :
    placeOf p v = some w ∧ mem' = mem := by
  obtain ⟨a, ha, h⟩ := Option.map_eq_some_iff.1 h
  cases h
  exact ⟨ha, rfl⟩

theorem eval_deref {e : Expr (.DT_PTR_TO n)} (h : eval p (.deref t e) false mem = some (w, mem')) :
    ∃ a, eval p e false mem = some (a, mem') ∧ loadMeaning p t mem' a = some w := by
  obtain ⟨a, mem₁, ha, h⟩ := bind_pair.1 h
  obtain ⟨x, hx, h⟩ := bind_some.1 h
  cases pure_some.1 h
  exact ⟨a, ha, hx⟩

theorem eval_incDec {op : IncDec} {e : Expr t}
    (h : eval p (.incDec op e) false mem = some (w, mem')) :
    ∃ a mem₁ old new, eval p e true mem = some (a, mem₁) ∧ loadMeaning p t mem₁ a = some old ∧
      convertMeaning t (stepMeaning op old (stepSize t)) = some new ∧
      storeMeaning p t mem₁ a new = some mem' ∧
      w = if op = .OP_PREINC ∨ op = .OP_PREDEC then new else old := by
  obtain ⟨a, mem₁, ha, h⟩ := bind_pair.1 h
  obtain ⟨old, hold, h⟩ := bind_some.1 h
  obtain ⟨new, hnew, h⟩ := bind_some.1 h
  obtain ⟨mem₂, hstore, h⟩ := bind_some.1 h
  cases pure_some.1 h
  exact ⟨a, mem₁, old, new, ha, hold, hnew, hstore, rfl⟩

theorem eval_logicalNot {e : Expr t} (h : eval p (.logicalNot e) false mem = some (w, mem')) :
    ∃ x, eval p e false mem = some (x, mem') ∧ w = wordOf (intOfBool (x == 0#64)) := by
  obtain ⟨x, mem₁, hx, h⟩ := bind_pair.1 h
  cases pure_some.1 h
  exact ⟨x, hx, rfl⟩

theorem eval_unary {op : UnaryOp} {hs : ciIsIntegral s = true} {ht : promoted s = t} {e : Expr s}
    (h : eval p (.unary op hs ht e) false mem = some (w, mem')) :
    ∃ x, eval p e false mem = some (x, mem') ∧ unaryMeaning op x = some w := by
  obtain ⟨x, mem₁, hx, h⟩ := bind_pair.1 h
  obtain ⟨y, hy, h⟩ := bind_some.1 h
  cases pure_some.1 h
  exact ⟨x, hx, hy⟩

theorem eval_convert {e : Expr s} (h : eval p (.convert t e) false mem = some (w, mem')) :
    eval p e false mem = some (w, mem') ∧ Canonical t w := by
  obtain ⟨x, mem₁, hx, h⟩ := bind_pair.1 h
  obtain ⟨y, hy, h⟩ := bind_some.1 h
  cases pure_some.1 h
  obtain ⟨rfl, hc⟩ := canonical_of_convert hy
  exact ⟨hx, hc⟩

theorem eval_binary {op : ArithOp} {ht : t.isArith = true} {l r : Expr t}
    (h : eval p (.binary op ht l r) false mem = some (w, mem')) :
    ∃ x mem₁ y, eval p l false mem = some (x, mem₁) ∧ eval p r false mem₁ = some (y, mem') ∧
      arithMeaning op t x y = some w := by
  obtain ⟨x, mem₁, hx, h⟩ := bind_pair.1 h
  obtain ⟨y, mem₂, hy, h⟩ := bind_pair.1 h
  obtain ⟨z, hz, h⟩ := bind_some.1 h
  cases pure_some.1 h
  exact ⟨x, mem₁, y, hx, hy, hz⟩

theorem eval_shift {op : ShiftOp} {ht : t.isArith = true} {hu : u.isArith = true} {l : Expr t}
    {r : Expr u} (h : eval p (.shift op ht hu l r) false mem = some (w, mem')) :
    ∃ x mem₁ y, eval p l false mem = some (x, mem₁) ∧ eval p r false mem₁ = some (y, mem') ∧
      shiftMeaning op t x y = some w := by
  obtain ⟨x, mem₁, hx, h⟩ := bind_pair.1 h
  obtain ⟨y, mem₂, hy, h⟩ := bind_pair.1 h
  obtain ⟨z, hz, h⟩ := bind_some.1 h
  cases pure_some.1 h
  exact ⟨x, mem₁, y, hx, hy, hz⟩

theorem eval_compare {op : RelOp} {ht : t.isArith = true ∨ ciIsIntegral t = false} {l r : Expr t}
    (h : eval p (.compare op ht l r) false mem = some (w, mem')) :
    ∃ x mem₁ y, eval p l false mem = some (x, mem₁) ∧ eval p r false mem₁ = some (y, mem') ∧
      w = relMeaning op t x y := by
  obtain ⟨x, mem₁, hx, h⟩ := bind_pair.1 h
  obtain ⟨y, mem₂, hy, h⟩ := bind_pair.1 h
  cases pure_some.1 h
  exact ⟨x, mem₁, y, hx, hy, rfl⟩

/-- The left operand leaves the result open, or it is the result. -/
theorem eval_logical {op : LogicalOp} {l : Expr s} {r : Expr t}
    (h : eval p (.logical op l r) false mem = some (w, mem')) :
    ∃ x mem₁, eval p l false mem = some (x, mem₁) ∧
      ((x == 0#64) = (op == .OP_LOGICAL_AND) ∧ mem' = mem₁ ∧ w = wordOf (intOfBool (x != 0#64)) ∨
        (x == 0#64) ≠ (op == .OP_LOGICAL_AND) ∧
          ∃ y, eval p r false mem₁ = some (y, mem') ∧ w = wordOf (intOfBool (y != 0#64))) := by
  obtain ⟨x, mem₁, hx, h⟩ := bind_pair.1 h
  refine ⟨x, mem₁, hx, ?_⟩
  by_cases hc : (x == 0#64) = (op == .OP_LOGICAL_AND)
  · dsimp only at h
    rw [if_pos hc] at h
    cases pure_some.1 h
    exact .inl ⟨hc, rfl, rfl⟩
  · dsimp only at h
    rw [if_neg hc] at h
    obtain ⟨y, mem₂, hy, h⟩ := bind_pair.1 h
    cases pure_some.1 h
    exact .inr ⟨hc, y, hy, rfl⟩

theorem eval_ptrPlus {op : PtrOp} {ht : t.isArith = true} {l : Expr (.DT_PTR_TO n)} {r : Expr t}
    (h : eval p (.ptrPlus op ht l r) false mem = some (w, mem')) :
    ∃ x mem₁ y z, eval p l false mem = some (x, mem₁) ∧ eval p r false mem₁ = some (y, mem') ∧
      scaleMeaning n y = some z ∧ w = ptrMeaning op x z ∧
      ((Tree.ptrPlus op ht l r).isConstant = true → Canonical .TY_INT w) := by
  obtain ⟨x, mem₁, hx, h⟩ := bind_pair.1 h
  obtain ⟨y, mem₂, hy, h⟩ := bind_pair.1 h
  obtain ⟨z, hz, h⟩ := bind_some.1 h
  dsimp only at h
  split at h
  case isTrue => cases h
  case isFalse hc =>
    cases pure_some.1 h
    exact ⟨x, mem₁, y, z, hx, hy, hz, rfl, fun hconst => not_not.1 fun hn => hc ⟨hconst, hn⟩⟩

theorem eval_plusPtr {ht : t.isArith = true} {l : Expr t} {r : Expr (.DT_PTR_TO n)}
    (h : eval p (.plusPtr ht l r) false mem = some (w, mem')) :
    ∃ x mem₁ y z, eval p l false mem = some (x, mem₁) ∧ scaleMeaning n x = some z ∧
      eval p r false mem₁ = some (y, mem') ∧ w = z + y ∧
      ((Tree.plusPtr ht l r).isConstant = true → Canonical .TY_INT w) := by
  obtain ⟨x, mem₁, hx, h⟩ := bind_pair.1 h
  obtain ⟨z, hz, h⟩ := bind_some.1 h
  obtain ⟨y, mem₂, hy, h⟩ := bind_pair.1 h
  dsimp only at h
  split at h
  case isTrue => cases h
  case isFalse hc =>
    cases pure_some.1 h
    exact ⟨x, mem₁, y, z, hx, hz, hy, rfl, fun hconst => not_not.1 fun hn => hc ⟨hconst, hn⟩⟩

theorem eval_assign {l r : Expr t} (h : eval p (.assign l r) false mem = some (w, mem')) :
    ∃ a mem₁ mem₂, eval p l true mem = some (a, mem₁) ∧ eval p r false mem₁ = some (w, mem₂) ∧
      storeMeaning p t mem₂ a w = some mem' := by
  obtain ⟨a, mem₁, ha, h⟩ := bind_pair.1 h
  obtain ⟨y, mem₂, hy, h⟩ := bind_pair.1 h
  obtain ⟨mem₃, hstore, h⟩ := bind_some.1 h
  cases pure_some.1 h
  exact ⟨a, mem₁, mem₂, ha, hy, hstore⟩

theorem eval_assignOp {op : ArithOp} {hs : ciIsIntegral s = true} {ht : t.isArith = true}
    {l : Expr s} {r : Expr t} (h : eval p (.assignOp op hs ht l r) false mem = some (w, mem')) :
    ∃ a mem₁ x y mem₂, eval p l true mem = some (a, mem₁) ∧ loadMeaning p s mem₁ a = some x ∧
      Canonical t x ∧ eval p r false mem₁ = some (y, mem₂) ∧ arithMeaning op t x y = some w ∧
      Canonical s w ∧ storeMeaning p s mem₂ a w = some mem' := by
  obtain ⟨a, mem₁, ha, h⟩ := bind_pair.1 h
  obtain ⟨x, hx, h⟩ := bind_some.1 h
  obtain ⟨x', hx', h⟩ := bind_some.1 h
  obtain ⟨y, mem₂, hy, h⟩ := bind_pair.1 h
  obtain ⟨z, hz, h⟩ := bind_some.1 h
  obtain ⟨z', hz', h⟩ := bind_some.1 h
  obtain ⟨mem₃, hstore, h⟩ := bind_some.1 h
  cases pure_some.1 h
  obtain ⟨rfl, hcx⟩ := canonical_of_convert hx'
  obtain ⟨rfl, hcz⟩ := canonical_of_convert hz'
  exact ⟨a, mem₁, x, y, mem₂, ha, hx, hcx, hy, hz, hcz, hstore⟩

theorem eval_assignShift {op : ShiftOp} {hs : ciIsIntegral s = true} {ht : promoted s = t}
    {hu : u.isArith = true} {l : Expr s} {r : Expr u}
    (h : eval p (.assignShift op hs ht hu l r) false mem = some (w, mem')) :
    ∃ a mem₁ x y mem₂, eval p l true mem = some (a, mem₁) ∧ loadMeaning p s mem₁ a = some x ∧
      eval p r false mem₁ = some (y, mem₂) ∧ shiftMeaning op t x y = some w ∧
      Canonical s w ∧ storeMeaning p s mem₂ a w = some mem' := by
  obtain ⟨a, mem₁, ha, h⟩ := bind_pair.1 h
  obtain ⟨x, hx, h⟩ := bind_some.1 h
  obtain ⟨y, mem₂, hy, h⟩ := bind_pair.1 h
  obtain ⟨z, hz, h⟩ := bind_some.1 h
  obtain ⟨z', hz', h⟩ := bind_some.1 h
  obtain ⟨mem₃, hstore, h⟩ := bind_some.1 h
  cases pure_some.1 h
  obtain ⟨rfl, hcz⟩ := canonical_of_convert hz'
  exact ⟨a, mem₁, x, y, mem₂, ha, hx, hy, hz, hcz, hstore⟩

theorem eval_assignPtr {op : PtrOp} {ht : t.isArith = true} {l : Expr (.DT_PTR_TO n)}
    {r : Expr t} (h : eval p (.assignPtr op ht l r) false mem = some (w, mem')) :
    ∃ a mem₁ x y z mem₂, eval p l true mem = some (a, mem₁) ∧
      loadMeaning p (.DT_PTR_TO n) mem₁ a = some x ∧ eval p r false mem₁ = some (y, mem₂) ∧
      scaleMeaning n y = some z ∧ w = ptrMeaning op x z ∧
      storeMeaning p (.DT_PTR_TO n) mem₂ a w = some mem' := by
  obtain ⟨a, mem₁, ha, h⟩ := bind_pair.1 h
  obtain ⟨x, hx, h⟩ := bind_some.1 h
  obtain ⟨y, mem₂, hy, h⟩ := bind_pair.1 h
  obtain ⟨z, hz, h⟩ := bind_some.1 h
  obtain ⟨mem₃, hstore, h⟩ := bind_some.1 h
  cases pure_some.1 h
  exact ⟨a, mem₁, x, y, z, mem₂, ha, hx, hy, hz, rfl, hstore⟩

theorem eval_comma {l : Expr s} {r : Expr t}
    (h : eval p (.comma l r) false mem = some (w, mem')) :
    ∃ x mem₁, eval p l false mem = some (x, mem₁) ∧ eval p r false mem₁ = some (w, mem') :=
  bind_pair.1 h

theorem eval_cond {c : Expr s} {if_true if_false : Expr t}
    (h : eval p (.cond c if_true if_false) false mem = some (w, mem')) :
    ∃ x mem₁, eval p c false mem = some (x, mem₁) ∧
      (x ≠ 0#64 ∧ eval p if_true false mem₁ = some (w, mem') ∨
        x = 0#64 ∧ eval p if_false false mem₁ = some (w, mem')) := by
  obtain ⟨x, mem₁, hx, h⟩ := bind_pair.1 h
  refine ⟨x, mem₁, hx, ?_⟩
  dsimp only at h
  split at h
  case isTrue hne => exact .inl ⟨hne, h⟩
  case isFalse heq => exact .inr ⟨not_not.1 heq, h⟩

end


/-! ## The value of an expression is of its type -/

/-- What a tree of the kind evaluates to. -/
def Fits : Kind → Word → Prop
  | .value t, w => Canonical t w
  | .args, _ => True

section
variable {p : Place} {t : Ty} {mem mem' : Mem 64} {v w x y : Word}

theorem wordOf_of_arith {op : ArithOp} (h : arithMeaning op t x y = some w) :
    ∃ v, evalArith op t (low x) (low y) = some v ∧ w = wordOf v ∧ ArithFits op t x y := by
  unfold arithMeaning at h
  split at h
  case isTrue hfits =>
    obtain ⟨v, hv, rfl⟩ := Option.map_eq_some_iff.1 h
    exact ⟨v, hv, rfl, hfits⟩
  case isFalse => cases h

theorem wordOf_of_shift {op : ShiftOp} (h : shiftMeaning op t x y = some w) :
    ∃ v, evalShift op t (low x) (low y) = some v ∧ w = wordOf v ∧ (low y).toNat < 32 ∧
      ShiftFits op x y := by
  unfold shiftMeaning at h
  split at h
  case isTrue hfits =>
    obtain ⟨v, hv, rfl⟩ := Option.map_eq_some_iff.1 h
    exact ⟨v, hv, rfl, hfits⟩
  case isFalse => cases h

theorem relMeaning_wordOf (op : RelOp) (t : Ty) (x y : Word) :
    ∃ v, relMeaning op t x y = wordOf v := by
  unfold relMeaning
  split <;> exact ⟨_, rfl⟩

theorem canonical_of_unary {op : UnaryOp} (ht : t.isArith = true) (hx : Canonical t x)
    (h : unaryMeaning op x = some w) : Canonical t w := by
  cases op with
  | OP_UNARY_PLUS =>
    cases h
    exact hx
  | OP_UNARY_MINUS =>
    unfold unaryMeaning at h
    dsimp only at h
    split at h
    case isTrue =>
      cases h
      exact canonical_wordOf ht _
    case isFalse => cases h
  | OP_BITWISE_NOT =>
    cases h
    exact canonical_wordOf ht _

theorem eval_fits {k : Kind} (e : Tree k) (he : eval p e false mem = some (w, mem')) :
    Fits k w := by
  induction e generalizing mem w mem' with
  | intConst h ival =>
    cases he
    exact canonical_wordOf h _
  | address n addr | addressOf n e | asPointer n e => exact canonical_pointer n w
  | ptrPlus op h l r | plusPtr h l r | assignPtr op h l r => exact canonical_pointer _ w
  | var t v =>
    obtain ⟨a, -, hload, -⟩ := eval_var he
    exact canonical_of_load hload
  | deref t e =>
    obtain ⟨a, -, hload⟩ := eval_deref he
    exact canonical_of_load hload
  | incDec op e =>
    obtain ⟨a, mem₁, old, new, -, hold, hnew, -, rfl⟩ := eval_incDec he
    split
    · exact (canonical_of_convert hnew).2
    · exact canonical_of_load hold
  | logicalNot e =>
    obtain ⟨x, -, rfl⟩ := eval_logicalNot he
    exact canonical_wordOf rfl _
  | unary op hs ht e ih =>
    obtain ⟨x, hx, hw⟩ := eval_unary he
    have harith := isArith_promoted hs
    rw [ht] at harith
    exact canonical_of_unary harith ((ih hx).promoted hs ht) hw
  | convert t e => exact (eval_convert he).2
  | binary op h l r =>
    obtain ⟨x, mem₁, y, -, -, hw⟩ := eval_binary he
    obtain ⟨v, -, rfl, -⟩ := wordOf_of_arith hw
    exact canonical_wordOf h v
  | shift op ht hu l r =>
    obtain ⟨x, mem₁, y, -, -, hw⟩ := eval_shift he
    obtain ⟨v, -, rfl, -⟩ := wordOf_of_shift hw
    exact canonical_wordOf ht v
  | compare op h l r =>
    obtain ⟨x, mem₁, y, -, -, rfl⟩ := eval_compare he
    obtain ⟨v, hv⟩ := relMeaning_wordOf op _ x y
    rw [hv]
    exact canonical_wordOf rfl v
  | logical op l r =>
    obtain ⟨x, mem₁, -, ⟨-, -, rfl⟩ | ⟨-, y, -, rfl⟩⟩ := eval_logical he
    · exact canonical_wordOf rfl _
    · exact canonical_wordOf rfl _
  | assign l r ihl ihr =>
    obtain ⟨a, mem₁, mem₂, -, hr, -⟩ := eval_assign he
    exact ihr hr
  | assignOp op hs ht l r =>
    obtain ⟨a, mem₁, x, y, mem₂, -, -, -, -, -, hc, -⟩ := eval_assignOp he
    exact hc
  | assignShift op hs ht hu l r =>
    obtain ⟨a, mem₁, x, y, mem₂, -, -, -, -, hc, -⟩ := eval_assignShift he
    exact hc
  | comma l r ihl ihr =>
    obtain ⟨x, mem₁, -, hr⟩ := eval_comma he
    exact ihr hr
  | cond c a b ihc iha ihb =>
    obtain ⟨x, mem₁, -, ⟨-, ha⟩ | ⟨-, hb⟩⟩ := eval_cond he
    · exact iha ha
    · exact ihb hb
  | call t is_void func_index args | callIndirect t is_void func args => cases he
  | noArgs | arg e rest => trivial

end

/-! ## Constant expressions -/

section
variable {p : Place} {mem mem' : Mem 64} {w : Word}

theorem eval_constant_address {k : Kind} (e : Tree k) (hc : e.isConstant = true) (mem : Mem 64) :
    eval p e true mem = none := by
  cases e with
  | var t v | deref t e => cases hc
  | _ => rfl

/-- A constant expression has no effects. -/
theorem eval_constant_mem {k : Kind} (e : Tree k) (hc : e.isConstant = true)
    (he : eval p e false mem = some (w, mem')) : mem' = mem := by
  induction e generalizing mem w mem' with
  | intConst h ival =>
    cases he
    rfl
  | address n addr | var t v | deref t e | call t is_void func_index args
  | callIndirect t is_void func args | noArgs | arg e rest => cases hc
  | addressOf n e ih =>
    have hnone := eval_constant_address (p := p) e hc mem
    exact absurd (he.symm.trans hnone) (by simp)
  | incDec op e ih =>
    obtain ⟨a, mem₁, old, new, ha, -⟩ := eval_incDec he
    rw [eval_constant_address e hc] at ha
    cases ha
  | logicalNot e ih =>
    obtain ⟨x, hx, -⟩ := eval_logicalNot he
    exact ih hc hx
  | unary op hs ht e ih =>
    obtain ⟨x, hx, -⟩ := eval_unary he
    exact ih hc hx
  | convert t e ih => exact ih hc (eval_convert he).1
  | asPointer n e ih => exact ih hc he
  | binary op h l r ihl ihr =>
    obtain ⟨x, mem₁, y, hx, hy, -⟩ := eval_binary he
    obtain ⟨hl, hr⟩ := Bool.and_eq_true_iff.1 hc
    rw [ihr hr hy, ihl hl hx]
  | shift op ht hu l r ihl ihr =>
    obtain ⟨x, mem₁, y, hx, hy, -⟩ := eval_shift he
    obtain ⟨hl, hr⟩ := Bool.and_eq_true_iff.1 hc
    rw [ihr hr hy, ihl hl hx]
  | compare op h l r ihl ihr =>
    obtain ⟨x, mem₁, y, hx, hy, -⟩ := eval_compare he
    obtain ⟨hl, hr⟩ := Bool.and_eq_true_iff.1 hc
    rw [ihr hr hy, ihl hl hx]
  | logical op l r ihl ihr =>
    obtain ⟨hl, hr⟩ := Bool.and_eq_true_iff.1 hc
    obtain ⟨x, mem₁, hx, ⟨-, rfl, -⟩ | ⟨-, y, hy, -⟩⟩ := eval_logical he
    · exact ihl hl hx
    · rw [ihr hr hy, ihl hl hx]
  | ptrPlus op h l r ihl ihr =>
    obtain ⟨x, mem₁, y, z, hx, hy, -⟩ := eval_ptrPlus he
    obtain ⟨hl, hr⟩ := Bool.and_eq_true_iff.1 hc
    rw [ihr hr hy, ihl hl hx]
  | plusPtr h l r ihl ihr =>
    obtain ⟨x, mem₁, y, z, hx, -, hy, -⟩ := eval_plusPtr he
    obtain ⟨hl, hr⟩ := Bool.and_eq_true_iff.1 hc
    rw [ihr hr hy, ihl hl hx]
  | assign l r ihl ihr =>
    obtain ⟨a, mem₁, mem₂, ha, -⟩ := eval_assign he
    rw [eval_constant_address l (Bool.and_eq_true_iff.1 hc).1] at ha
    cases ha
  | assignOp op hs ht l r ihl ihr =>
    obtain ⟨a, mem₁, x, y, mem₂, ha, -⟩ := eval_assignOp he
    rw [eval_constant_address l (Bool.and_eq_true_iff.1 hc).1] at ha
    cases ha
  | assignShift op hs ht hu l r ihl ihr =>
    obtain ⟨a, mem₁, x, y, mem₂, ha, -⟩ := eval_assignShift he
    rw [eval_constant_address l (Bool.and_eq_true_iff.1 hc).1] at ha
    cases ha
  | assignPtr op h l r ihl ihr =>
    obtain ⟨a, mem₁, x, y, z, mem₂, ha, -⟩ := eval_assignPtr he
    rw [eval_constant_address l (Bool.and_eq_true_iff.1 hc).1] at ha
    cases ha
  | comma l r ihl ihr =>
    obtain ⟨x, mem₁, hx, hy⟩ := eval_comma he
    obtain ⟨hl, hr⟩ := Bool.and_eq_true_iff.1 hc
    rw [ihr hr hy, ihl hl hx]
  | cond c a b ihc iha ihb =>
    obtain ⟨hca, hb⟩ := Bool.and_eq_true_iff.1 hc
    obtain ⟨hc, ha⟩ := Bool.and_eq_true_iff.1 hca
    obtain ⟨x, mem₁, hx, ⟨-, hy⟩ | ⟨-, hy⟩⟩ := eval_cond he
    · rw [iha ha hy, ihc hc hx]
    · rw [ihb hb hy, ihc hc hx]

end


/-! ## Constants are folded to their values -/

section
variable {t ot : Ty} {a b v : BitVec 32} {w : Word}

theorem eq_of_operandTypecode (ht : t.isArith = true) (h : operandTypecode t = some ot) :
    ot = t := by
  cases t with
  | TY_INT | TY_UINT => exact (Option.some.inj h).symm
  | _ => cases ht

theorem ult_wordOf (a b : BitVec 32) : (wordOf a).ult (wordOf b) = a.ult b := by
  have ha := a.isLt
  have hb := b.isLt
  rw [BitVec.ult_eq_decide, BitVec.ult_eq_decide, decide_eq_decide]
  unfold wordOf
  rw [BitVec.toNat_signExtend, BitVec.toNat_signExtend, BitVec.toNat_setWidth_of_le (by decide),
    BitVec.toNat_setWidth_of_le (by decide), BitVec.msb_eq_decide, BitVec.msb_eq_decide]
  simp only [decide_eq_true_eq]
  split <;> split <;> omega

theorem ule_wordOf (a b : BitVec 32) : (wordOf a).ule (wordOf b) = a.ule b := by
  rw [BitVec.ule_eq_not_ult, ult_wordOf, ← BitVec.ule_eq_not_ult]

theorem slt_wordOf (a b : BitVec 32) : (wordOf a).slt (wordOf b) = a.slt b := by
  rw [BitVec.slt_eq_decide, BitVec.slt_eq_decide, toInt_wordOf, toInt_wordOf]

theorem sle_wordOf (a b : BitVec 32) : (wordOf a).sle (wordOf b) = a.sle b := by
  rw [BitVec.sle_eq_decide, BitVec.sle_eq_decide, toInt_wordOf, toInt_wordOf]

theorem beq_wordOf (a b : BitVec 32) : (wordOf a == wordOf b) = (a == b) := by
  rw [Bool.eq_iff_iff, beq_iff_eq, beq_iff_eq, wordOf_inj]

theorem beq_wordOf_zero (a : BitVec 32) : (wordOf a == 0#64) = (a == 0#32) := beq_wordOf a 0#32

/-- The order of the addresses is that of unsigned ints. -/
theorem pointerRel_wordOf (op : RelOp) (a b : BitVec 32) :
    intOfBool (pointerRel op (wordOf a) (wordOf b)) = evalRel op .TY_UINT a b := by
  unfold pointerRel evalRel bne
  cases op <;> simp only [beq_wordOf, ult_wordOf, ule_wordOf, if_true]

theorem relMeaning_wordOf_wordOf (op : RelOp) (h : t.isArith = true ∨ ciIsIntegral t = false)
    (hot : operandTypecode t = some ot) :
    relMeaning op t (wordOf a) (wordOf b) = wordOf (evalRel op ot a b) := by
  unfold relMeaning
  cases t with
  | TY_INT | TY_UINT =>
    cases hot
    rw [if_pos (show ciIsIntegral _ = true from rfl), low_wordOf, low_wordOf]
  | DT_PTR_TO n =>
    cases hot
    rw [if_neg (show ¬ciIsIntegral (.DT_PTR_TO n) = true from Bool.false_ne_true),
      pointerRel_wordOf]
  | _ => cases hot

theorem unaryMeaning_wordOf {op : UnaryOp} (h : unaryMeaning op (wordOf a) = some w) :
    w = wordOf (evalUnary op a) := by
  cases op with
  | OP_UNARY_PLUS =>
    cases h
    rfl
  | OP_UNARY_MINUS =>
    unfold unaryMeaning at h
    dsimp only at h
    split at h
    case isTrue =>
      cases h
      rw [low_wordOf]
    case isFalse => cases h
  | OP_BITWISE_NOT =>
    cases h
    rw [low_wordOf]

theorem scaleMeaning_wordOf {n : Nat} (h : scaleMeaning n (wordOf a) = some w) :
    w = wordOf (evalScale a n) := by
  unfold scaleMeaning at h
  split at h
  case isTrue hfits =>
    cases h
    rw [toInt_wordOf] at hfits
    exact wordOf_scale n hfits
  case isFalse => cases h

theorem low_ptrMeaning (op : PtrOp) (a b : BitVec 32) :
    low (ptrMeaning op (wordOf a) (wordOf b)) = evalPtr op a b := by
  have hadd : low (wordOf a + wordOf b) = low (wordOf a) + low (wordOf b) :=
    BitVec.setWidth_add _ _ (by decide)
  have hsub : low (wordOf a - wordOf b) = low (wordOf a) - low (wordOf b) := by
    apply BitVec.eq_of_toNat_eq
    simp only [low, BitVec.toNat_setWidth, BitVec.toNat_sub]
    omega
  cases op with
  | OP_PLUS => rw [ptrMeaning, hadd, low_wordOf, low_wordOf, evalPtr]
  | OP_MINUS => rw [ptrMeaning, hsub, low_wordOf, low_wordOf, evalPtr]

theorem ptrMeaning_wordOf {op : PtrOp} (hw : w = ptrMeaning op (wordOf a) (wordOf b))
    (hc : Canonical .TY_INT w) : w = wordOf (evalPtr op a b) := by
  rw [(canonical_iff rfl).1 hc, hw, low_ptrMeaning]

theorem convert_wordOf (hc : Canonical t (wordOf a)) :
    wordOf a = wordOf (doUnaryConversion t a) := by
  cases t with
  | DT_PTR_TO n => rfl
  | _ => exact (hc rfl).trans (by rw [low_wordOf])

theorem bne_wordOf_zero (a : BitVec 32) : (wordOf a != 0#64) = (a != 0#32) := by
  rw [bne, bne, beq_wordOf_zero]

theorem evalLogical_left {op : LogicalOp} (h : (a == 0#32) = (op == .OP_LOGICAL_AND)) :
    evalLogical op a b = intOfBool (a != 0#32) := by
  unfold evalLogical bne
  rw [h]
  cases op <;> rfl

theorem evalLogical_right {op : LogicalOp} (h : (a == 0#32) ≠ (op == .OP_LOGICAL_AND)) :
    evalLogical op a b = intOfBool (b != 0#32) := by
  unfold evalLogical bne
  rw [Bool.eq_not.2 h]
  cases op <;> rfl

/-- The value that the compiler finds for a constant expression is what it means. -/
theorem eval_evalConst {p : Place} {k : Kind} (e : Tree k) {mem mem' : Mem 64}
    (hc : e.isConstant = true) (hv : e.evalConst = some v)
    (he : eval p e false mem = some (w, mem')) : w = wordOf v := by
  induction e generalizing v mem w mem' with
  | intConst h ival =>
    cases hv
    cases he
    rfl
  | address n addr | var t v | deref t e | call t is_void func_index args
  | callIndirect t is_void func args | noArgs | arg e rest => cases hc
  | addressOf n e | incDec op e | assign l r | assignOp op hs ht l r
  | assignShift op hs ht hu l r | assignPtr op h l r | comma l r => cases hv
  | logicalNot e ih =>
    obtain ⟨x, hx, rfl⟩ := eval_logicalNot he
    obtain ⟨a, ha, hv⟩ := bind_some.1 hv
    obtain ⟨ot, -, hv⟩ := bind_some.1 hv
    cases pure_some.1 hv
    rw [ih hc ha hx, beq_wordOf_zero]
  | unary op hs ht e ih =>
    obtain ⟨x, hx, hw⟩ := eval_unary he
    obtain ⟨a, ha, hv⟩ := bind_some.1 hv
    obtain ⟨ot, -, hv⟩ := bind_some.1 hv
    cases pure_some.1 hv
    rw [ih hc ha hx] at hw
    exact unaryMeaning_wordOf hw
  | convert t e ih =>
    obtain ⟨hx, hcanon⟩ := eval_convert he
    obtain ⟨a, ha, rfl⟩ := Option.map_eq_some_iff.1 hv
    rw [ih hc ha hx] at hcanon ⊢
    exact convert_wordOf hcanon
  | asPointer n e ih => exact ih hc hv he
  | binary op h l r ihl ihr =>
    obtain ⟨x, mem₁, y, hx, hy, hw⟩ := eval_binary he
    obtain ⟨hl, hr⟩ := Bool.and_eq_true_iff.1 hc
    obtain ⟨ot, hot, hv⟩ := bind_some.1 hv
    obtain ⟨a, ha, hv⟩ := bind_some.1 hv
    obtain ⟨b, hb, hv⟩ := bind_some.1 hv
    obtain ⟨z, hz, rfl, -⟩ := wordOf_of_arith hw
    rw [ihl hl ha hx, ihr hr hb hy, low_wordOf, low_wordOf, ← eq_of_operandTypecode h hot, hv] at hz
    rw [Option.some.inj hz]
  | shift op ht hu l r ihl ihr =>
    obtain ⟨x, mem₁, y, hx, hy, hw⟩ := eval_shift he
    obtain ⟨hl, hr⟩ := Bool.and_eq_true_iff.1 hc
    obtain ⟨ot, hot, hv⟩ := bind_some.1 hv
    obtain ⟨a, ha, hv⟩ := bind_some.1 hv
    obtain ⟨b, hb, hv⟩ := bind_some.1 hv
    obtain ⟨z, hz, rfl, -⟩ := wordOf_of_shift hw
    rw [ihl hl ha hx, ihr hr hb hy, low_wordOf, low_wordOf, ← eq_of_operandTypecode ht hot,
      hv] at hz
    rw [Option.some.inj hz]
  | compare op h l r ihl ihr =>
    obtain ⟨x, mem₁, y, hx, hy, rfl⟩ := eval_compare he
    obtain ⟨hl, hr⟩ := Bool.and_eq_true_iff.1 hc
    obtain ⟨ot, hot, hv⟩ := bind_some.1 hv
    obtain ⟨a, ha, hv⟩ := bind_some.1 hv
    obtain ⟨b, hb, hv⟩ := bind_some.1 hv
    cases pure_some.1 hv
    rw [ihl hl ha hx, ihr hr hb hy]
    exact relMeaning_wordOf_wordOf op h hot
  | logical op l r ihl ihr =>
    obtain ⟨hl, hr⟩ := Bool.and_eq_true_iff.1 hc
    obtain ⟨ot, -, hv⟩ := bind_some.1 hv
    obtain ⟨ot', -, hv⟩ := bind_some.1 hv
    split at hv
    case isTrue => cases hv
    case isFalse =>
      obtain ⟨a, ha, hv⟩ := bind_some.1 hv
      obtain ⟨b, hb, hv⟩ := bind_some.1 hv
      cases pure_some.1 hv
      obtain ⟨x, mem₁, hx, ⟨hopen, -, rfl⟩ | ⟨hopen, y, hy, rfl⟩⟩ := eval_logical he
      · rw [ihl hl ha hx, beq_wordOf_zero] at hopen
        rw [ihl hl ha hx, bne_wordOf_zero, evalLogical_left hopen]
      · rw [ihl hl ha hx, beq_wordOf_zero] at hopen
        rw [ihr hr hb hy, bne_wordOf_zero, evalLogical_right hopen]
  | ptrPlus op h l r ihl ihr =>
    obtain ⟨x, mem₁, y, z, hx, hy, hz, hw, hcanon⟩ := eval_ptrPlus he
    have hint := hcanon hc
    obtain ⟨hl, hr⟩ := Bool.and_eq_true_iff.1 hc
    change (if _ then none else _) = some v at hv
    split at hv
    case isTrue => cases hv
    case isFalse =>
      obtain ⟨a, ha, hv⟩ := bind_some.1 hv
      obtain ⟨b, hb, hv⟩ := bind_some.1 hv
      cases pure_some.1 hv
      rw [ihr hr hb hy] at hz
      rw [ihl hl ha hx, scaleMeaning_wordOf hz] at hw
      exact ptrMeaning_wordOf hw hint
  | plusPtr h l r ihl ihr =>
    obtain ⟨x, mem₁, y, z, hx, hz, hy, hw, hcanon⟩ := eval_plusPtr he
    have hint := hcanon hc
    obtain ⟨hl, hr⟩ := Bool.and_eq_true_iff.1 hc
    change (if _ then none else _) = some v at hv
    split at hv
    case isTrue => cases hv
    case isFalse =>
      obtain ⟨a, ha, hv⟩ := bind_some.1 hv
      obtain ⟨b, hb, hv⟩ := bind_some.1 hv
      cases pure_some.1 hv
      rw [ihl hl ha hx] at hz
      have hsum : w = ptrMeaning .OP_PLUS z y := hw
      rw [ihr hr hb hy, scaleMeaning_wordOf hz] at hsum
      have hfolded := ptrMeaning_wordOf hsum hint
      exact hfolded
  | cond c a b ihc iha ihb =>
    obtain ⟨hca, hb⟩ := Bool.and_eq_true_iff.1 hc
    obtain ⟨hc, ha⟩ := Bool.and_eq_true_iff.1 hca
    obtain ⟨vc, hvc, hv⟩ := bind_some.1 hv
    obtain ⟨va, hva, hv⟩ := bind_some.1 hv
    obtain ⟨vb, hvb, hv⟩ := bind_some.1 hv
    cases pure_some.1 hv
    obtain ⟨x, mem₁, hx, ⟨hne, hy⟩ | ⟨heq, hy⟩⟩ := eval_cond he
    · rw [ihc hc hvc hx, ne_eq, wordOf_eq_zero] at hne
      rw [if_pos hne]
      exact iha ha hva hy
    · rw [ihc hc hvc hx, wordOf_eq_zero] at heq
      rw [if_neg (not_not.2 heq)]
      exact ihb hb hvb hy

end


end ups_rules.expr_meaning
