-- The compiler's blocks on a stack of words, without a text, addresses of code or a stack pointer,
-- and that the block of an expression computes what the expression means.
import Ups.ExprMeaning

open le_bytes
open ups_rules.machine
open ups_rules.opcodes
open ups_rules.execute
open ups_rules.local_stores
open ups_rules.exprs
open ups_rules.code_text
open ups_rules.compile_expr
open ups_rules.expr_meaning

namespace ups_rules.expr_blocks

/-! ## Blocks -/

/-- The memory of the program and the words on the stack, the top one first. The content of a slot
that is only reserved is not known. -/
structure AState where
  mem : Mem 64
  stack : List (Option Word)

def AState.push (s : AState) (w : Word) : AState := { s with stack := some w :: s.stack }

def readAt (p : Place) (t : Ty) (mem : Mem 64) (a : Word) : Option Word :=
  if p.data a (width t) = true then some (fetch (loadOf t) mem a) else none

/-- What the opcode of `operator_to_opcode` does, unless it stops the machine. -/
def wordArith (op : ArithOp) (t : Ty) (l r : Word) : Option Word :=
  match op with
  | .OP_BITWISE_AND => some (l &&& r)
  | .OP_BITWISE_XOR => some (l ^^^ r)
  | .OP_BITWISE_OR => some (l ||| r)
  | .OP_PLUS => some (l + r)
  | .OP_MINUS => some (l - r)
  | .OP_MUL => some (l * r)
  | .OP_MOD => if r = 0#64 then none else some (l.umod r)
  | .OP_DIV =>
    if r = 0#64 then none
    else if ciIsSignedType t then
      if l = BitVec.intMin 64 ∧ r = BitVec.allOnes 64 then none else some (l.sdiv r)
    else some (l.udiv r)

def wordShift (op : ShiftOp) (l r : Word) : Word :=
  match op with
  | .OP_LSHIFT => l <<< r.toNat
  | .OP_RSHIFT => l >>> r.toNat

def wordRel (op : RelOp) (t : Ty) (l r : Word) : Word :=
  ofBool <|
    match op with
    | .OP_IS_EQUAL => l == r
    | .OP_NOT_EQUAL => l != r
    | .OP_LESS => if ciIsSignedType t then l.slt r else l.ult r
    | .OP_GREATER => if ciIsSignedType t then r.slt l else r.ult l
    | .OP_LESS_OR_EQUAL => if ciIsSignedType t then l.sle r else l.ule r
    | .OP_GREATER_OR_EQUAL => if ciIsSignedType t then r.sle l else r.ule l

def wordUnary (op : UnaryOp) (w : Word) : Word :=
  match op with
  | .OP_BITWISE_NOT => ~~~w
  | _ => -w

/-- The top word replaced. -/
def AState.unop (f : Word → Option Word) : AState → Option AState
  | ⟨mem, some w :: st⟩ => (f w).map fun v => ⟨mem, some v :: st⟩
  | _ => none

/-- The top two words replaced by one. -/
def AState.binop (f : Word → Word → Option Word) : AState → Option AState
  | ⟨mem, some r :: some l :: st⟩ => (f l r).map fun v => ⟨mem, some v :: st⟩
  | _ => none

def AState.assign (p : Place) (t : Ty) (want_value : Bool) : AState → Option AState
  | ⟨mem, some w :: some a :: st⟩ =>
    (storeMeaning p t mem a w).map fun mem => ⟨mem, if want_value then some w :: st else st⟩
  | _ => none

def AState.dup : AState → Option AState
  | ⟨mem, some w :: st⟩ => some ⟨mem, some w :: some w :: st⟩
  | _ => none

def AState.dupBackOne : AState → Option AState
  | ⟨mem, some w :: x :: _ :: st⟩ => some ⟨mem, some w :: x :: some w :: st⟩
  | _ => none

def AState.pop : AState → Option AState
  | ⟨mem, _ :: st⟩ => some ⟨mem, st⟩
  | _ => none

/-- What an item does to the words on the stack and to the memory. Not the calls, and not what is
for the debugged process. -/
def run (p : Place) (i : Item) (s : AState) : Option AState :=
  match i with
  | .constpush val _ => some (s.push val)
  | .address addr _ => some (s.push (unsignedOf 4 addr))
  | .varAddress v => (placeOf p v).map s.push
  | .localValue t va_addr => (readAt p t s.mem (p.fp + va_addr)).map s.push
  | .staticValue t addr => (readAt p t s.mem (unsignedOf 4 addr)).map s.push
  | .deref t .AT_CI_ADDR => s.unop (readAt p t s.mem)
  | .assign t want_value .AT_CI_ADDR => s.assign p t want_value
  | .deref _ .AT_PROC_ADDR | .assign _ _ .AT_PROC_ADDR => none
  | .arith _ op t _ => s.binop (wordArith op t)
  | .shift op _ _ _ => s.binop fun l r => some (wordShift op l r)
  | .relation op t => s.binop fun l r => some (wordRel op t l r)
  | .scale _ => s.binop fun l r => some (l * r)
  | .ptrOp op _ | .step op _ _ _ => s.binop fun l r => some (ptrMeaning op l r)
  | .unary op _ _ => s.unop fun w => some (wordUnary op w)
  | .logicalNot => s.unop fun w => some (ofBool (w == 0#64))
  | .toBool => s.unop fun w => some (ofBool (w != 0#64))
  | .dup => s.dup
  | .dupBackOne => s.dupBackOne
  | .reserveSlot => some { s with stack := none :: s.stack }
  | .pop => s.pop
  | .conversion _ _ => some s
  | .popmany _ | .call _ _ _ _ | .callIndirect _ _ _ | .pushRetval _ => none

def taken (j : Jump) (w : Word) : Option Bool :=
  match j with
  | .JUMP_IF_ZERO => some (w == 0#64)
  | .JUMP_IF_NON_ZERO => some (w != 0#64)
  | .JUMP => none

def runAsm (p : Place) : Asm → AState → Option AState
  | .nil, s => some s
  | .item i, s => run p i s
  | .seq a b, s => (runAsm p a s).bind (runAsm p b)
  | .cond a b, ⟨mem, some w :: st⟩ =>
    if w = 0#64 then runAsm p b ⟨mem, st⟩ else runAsm p a ⟨mem, st⟩
  | .shortcut j a, ⟨mem, some w :: st⟩ => do
    if ← taken j w then pure ⟨mem, st⟩ else runAsm p a ⟨mem, st⟩
  | .cond _ _, _ | .shortcut _ _, _ => none


/-! ## The machine's operations compute the meanings -/

section
variable {s t u : Ty} {p : Place} {mem mem' : Mem 64} {a w x y z : Word} {n : Nat}

theorem load_readAt (h : loadMeaning p t mem a = some w) : readAt p t mem a = some w := by
  unfold loadMeaning at h
  split at h
  case isTrue hc =>
    rw [readAt, if_pos hc.1]
    exact h
  case isFalse => cases h

theorem wordOf_ne_intMin (v : BitVec 32) : wordOf v ≠ BitVec.intMin 64 := by
  intro h
  have hint := congrArg BitVec.toInt h
  rw [toInt_wordOf] at hint
  have hlo := (inInt_toInt v).1
  rw [hint] at hlo
  exact absurd hlo (by decide)

theorem umod_wordOf {a b : BitVec 32} (ha : 0 ≤ a.toInt) (hb : 0 ≤ b.toInt) :
    a.srem b = a % b := by
  rw [BitVec.srem_eq, msb_of_nonneg ha, msb_of_nonneg hb]

theorem wordArith_wordOf {op : ArithOp} {a b v : BitVec 32} (ht : t.isArith = true)
    (hfits : ArithFits op t (wordOf a) (wordOf b)) (hv : evalArith op t a b = some v) :
    wordArith op t (wordOf a) (wordOf b) = some (wordOf v) := by
  have hsigned : t = .TY_UINT ∨ t = .TY_INT := by
    cases t with
    | TY_INT => exact .inr rfl
    | TY_UINT => exact .inl rfl
    | _ => cases ht
  unfold ArithFits at hfits
  simp only [toInt_wordOf] at hfits
  cases op with
  | OP_PLUS =>
    cases hv
    rw [wordArith, wordOf_add hfits]
  | OP_MINUS =>
    cases hv
    rw [wordArith, wordOf_sub hfits]
  | OP_MUL =>
    cases hv
    rw [wordArith, wordOf_mul hfits]
  | OP_BITWISE_AND =>
    cases hv
    rw [wordArith, wordOf, wordOf, wordOf, BitVec.signExtend_and]
  | OP_BITWISE_XOR =>
    cases hv
    rw [wordArith, wordOf, wordOf, wordOf, BitVec.signExtend_xor]
  | OP_BITWISE_OR =>
    cases hv
    rw [wordArith, wordOf, wordOf, wordOf, BitVec.signExtend_or]
  | OP_MOD =>
    obtain ⟨ha, hb⟩ := hfits
    unfold evalArith at hv
    dsimp only at hv
    split at hv
    case isTrue => cases hv
    case isFalse hne =>
      have hmod : a % b = v := by
        split at hv
        · exact Option.some.inj hv
        · split at hv
          · cases hv
          · rw [← umod_wordOf ha hb]
            exact Option.some.inj hv
      rw [wordArith, if_neg (mt wordOf_eq_zero.1 hne), wordOf_umod ha hb, hmod]
  | OP_DIV =>
    unfold evalArith at hv
    dsimp only at hv
    split at hv
    case isTrue => cases hv
    case isFalse hne =>
      obtain rfl | rfl := hsigned
      · obtain hint | ⟨ha, hb⟩ := hfits
        · cases hint
        · cases hv
          rw [wordArith, if_neg (mt wordOf_eq_zero.1 hne), if_neg (by decide), wordOf_udiv ha hb]
      · rw [if_neg (by decide)] at hv
        split at hv
        case isTrue => cases hv
        case isFalse hmin =>
          cases hv
          rw [wordArith, if_neg (mt wordOf_eq_zero.1 hne),
            if_pos (show ciIsSignedType .TY_INT = true from rfl),
            if_neg fun h => wordOf_ne_intMin a h.1, wordOf_sdiv hmin]

theorem wordArith_eq {op : ArithOp} (ht : t.isArith = true) (hx : Canonical t x)
    (hy : Canonical t y) (h : arithMeaning op t x y = some w) : wordArith op t x y = some w := by
  obtain ⟨v, hv, rfl, hfits⟩ := wordOf_of_arith h
  rw [canonical_iff ht] at hx hy
  rw [hx, hy] at hfits ⊢
  exact wordArith_wordOf ht hfits hv

theorem toNat_twoPow_ofNat (w n : Nat) : BitVec.ofNat w (2 ^ n) = BitVec.twoPow w n := by
  apply BitVec.eq_of_toNat_eq
  rw [BitVec.toNat_ofNat, BitVec.toNat_twoPow]

theorem wordShift_wordOf {op : ShiftOp} {a b v : BitVec 32} (hb : b.toNat < 32)
    (hfits : ShiftFits op (wordOf a) (wordOf b)) (hv : evalShift op t a b = some v) :
    wordShift op (wordOf a) (wordOf b) = wordOf v := by
  have hnat : (wordOf b).toNat = b.toNat := by
    apply toNat_wordOf
    rw [BitVec.toInt_eq_toNat_cond]
    omega
  unfold evalShift at hv
  rw [if_neg (by omega)] at hv
  unfold ShiftFits at hfits
  rw [toInt_wordOf] at hfits
  cases op with
  | OP_LSHIFT =>
    cases hv
    rw [hnat] at hfits
    rw [wordShift, hnat, BitVec.shiftLeft_eq_mul_twoPow, BitVec.shiftLeft_eq_mul_twoPow,
      ← toNat_twoPow_ofNat, ← toNat_twoPow_ofNat]
    exact wordOf_scale _ (by exact_mod_cast hfits)
  | OP_RSHIFT =>
    have hmsb := msb_of_nonneg hfits
    have hv' : v = a >>> b.toNat := by
      dsimp only at hv
      rw [BitVec.sshiftRight_eq_of_msb_false hmsb, ite_self] at hv
      exact (Option.some.inj hv).symm
    have hnonneg : 0 ≤ (a >>> b.toNat).toInt := by
      rw [← BitVec.sshiftRight_eq_of_msb_false hmsb, BitVec.toInt_sshiftRight]
      exact Int.le_shiftRight_of_nonneg hfits
    rw [wordShift, hnat, hv']
    apply BitVec.eq_of_toNat_eq
    rw [toNat_wordOf hnonneg, BitVec.toNat_ushiftRight, BitVec.toNat_ushiftRight,
      toNat_wordOf hfits]

theorem wordShift_eq {op : ShiftOp} (ht : t.isArith = true) (hu : u.isArith = true)
    (hx : Canonical t x) (hy : Canonical u y) (h : shiftMeaning op t x y = some w) :
    wordShift op x y = w := by
  obtain ⟨v, hv, rfl, hlt, hfits⟩ := wordOf_of_shift h
  rw [canonical_iff ht] at hx
  rw [canonical_iff hu] at hy
  rw [hx, hy] at hfits ⊢
  exact wordShift_wordOf hlt hfits hv

theorem ofBool_wordOf (b : Bool) : ofBool b = wordOf (intOfBool b) := by
  cases b <;> rfl

theorem wordRel_eq {op : RelOp} (ht : t.isArith = true ∨ ciIsIntegral t = false)
    (hx : Canonical t x) (hy : Canonical t y) : wordRel op t x y = relMeaning op t x y := by
  unfold wordRel relMeaning
  rw [ofBool_wordOf]
  cases t with
  | TY_INT | TY_UINT =>
    rw [if_pos (show ciIsIntegral _ = true from rfl), hx.eq_wordOf rfl, hy.eq_wordOf rfl,
      low_wordOf, low_wordOf]
    unfold evalRel bne
    simp only [beq_wordOf, ult_wordOf, ule_wordOf, slt_wordOf, sle_wordOf]
    cases op <;> rfl
  | DT_PTR_TO n =>
    rw [if_neg (show ¬ciIsIntegral (.DT_PTR_TO n) = true from Bool.false_ne_true)]
    cases op <;> rfl
  | _ => exact absurd ht (by decide)

theorem wordUnary_eq {op : UnaryOp} (ht : t.isArith = true) (hx : Canonical t x)
    (hop : op ≠ .OP_UNARY_PLUS) (h : unaryMeaning op x = some w) : wordUnary op x = w := by
  rw [(canonical_iff ht).1 hx] at h ⊢
  cases op with
  | OP_UNARY_PLUS => exact absurd rfl hop
  | OP_UNARY_MINUS =>
    unfold unaryMeaning at h
    dsimp only at h
    split at h
    case isTrue hfits =>
      cases h
      rw [toInt_wordOf] at hfits
      rw [low_wordOf, evalUnary, ← wordOf_neg hfits]
      rfl
    case isFalse => cases h
  | OP_BITWISE_NOT =>
    cases h
    rw [wordUnary, wordOf_not, low_wordOf, evalUnary]

theorem mul_of_scale (h : scaleMeaning n x = some z) : x * BitVec.ofNat 64 n = z := by
  unfold scaleMeaning at h
  split at h
  case isTrue => exact Option.some.inj h
  case isFalse => cases h

end

/-! ## What a block does to the number of words -/

/-- The words that an item pushes less those that it pops. -/
def itemEffect : Item → Int
  | .constpush _ _ | .address _ _ | .varAddress _ | .localValue _ _ | .staticValue _ _ => 1
  | .dup | .reserveSlot | .pushRetval _ => 1
  | .deref _ _ | .unary _ _ _ | .logicalNot | .toBool | .dupBackOne | .conversion _ _ => 0
  | .call _ _ _ _ => 0
  | .assign _ want_value _ => if want_value then -1 else -2
  | .arith _ _ _ _ | .shift _ _ _ _ | .relation _ _ | .scale _ | .ptrOp _ _ | .step _ _ _ _ => -1
  | .pop | .callIndirect _ _ _ => -1
  | .popmany nargs => -nargs

/-- A conditional jump pops the word that it tests. -/
def jumpEffect : Jump → Int
  | .JUMP => 0
  | .JUMP_IF_NON_ZERO | .JUMP_IF_ZERO => -1

def effect : Asm → Int
  | .nil => 0
  | .item i => itemEffect i
  | .seq a b => effect a + effect b
  | .cond _ b => -1 + effect b
  | .shortcut j a => jumpEffect j + effect a

/-- Whatever is jumped over, the number of words is the same behind it. -/
def Balanced : Asm → Prop
  | .nil | .item _ => True
  | .seq a b => Balanced a ∧ Balanced b
  | .cond a b => Balanced a ∧ Balanced b ∧ effect a = effect b
  | .shortcut _ a => Balanced a ∧ effect a = 0

/-- The words that the code of a tree is to push. -/
def pushes (context : Context) : {k : Kind} → Tree k → Int
  | .value _, _ => if context = .EC_EFFECT then 0 else 1
  | .args, e => e.nargs

section
variable {context : Context} {s t : Ty} {a b : Asm} {as : List Asm}

@[simp] theorem effect_code_nil : effect (code []) = 0 := rfl

@[simp] theorem effect_code_cons : effect (code (a :: as)) = effect a + effect (code as) := rfl

@[simp] theorem balanced_code_nil : Balanced (code []) := trivial

@[simp] theorem balanced_code_cons :
    Balanced (code (a :: as)) ↔ Balanced a ∧ Balanced (code as) := Iff.rfl

@[simp] theorem effect_item (i : Item) : effect (.item i) = itemEffect i := rfl

@[simp] theorem balanced_item (i : Item) : Balanced (.item i) := trivial

@[simp] theorem effect_nil : effect .nil = 0 := rfl

@[simp] theorem balanced_nil : Balanced .nil := trivial

@[simp] theorem effect_convertIf (s t : Ty) : effect (convertIf s t) = 0 := by
  unfold convertIf
  split <;> rfl

@[simp] theorem balanced_convertIf (s t : Ty) : Balanced (convertIf s t) := by
  unfold convertIf
  split <;> trivial

@[simp] theorem effect_ifValue (context : Context) (a : Asm) :
    effect (ifValue context a) = if context = .EC_VALUE then effect a else 0 := by
  unfold ifValue
  split <;> rfl

theorem balanced_ifValue (context : Context) (h : Balanced a) : Balanced (ifValue context a) := by
  unfold ifValue
  split
  · exact h
  · trivial

end

/-! ## Runs of blocks -/

section
variable {p : Place} {s : AState} {a : Asm} {as : List Asm} {mem : Mem 64}
  {st : List (Option Word)} {w : Word}

@[simp] theorem runAsm_nil : runAsm p .nil s = some s := rfl

@[simp] theorem runAsm_item (i : Item) : runAsm p (.item i) s = run p i s := rfl

@[simp] theorem runAsm_code_nil : runAsm p (code []) s = some s := rfl

theorem runAsm_code_cons : runAsm p (code (a :: as)) s = (runAsm p a s).bind (runAsm p (code as)) :=
  rfl

/-- The blocks one after the other. -/
theorem runAsm_cons {r s' : AState} (ha : runAsm p a s = some r)
    (has : runAsm p (code as) r = some s') : runAsm p (code (a :: as)) s = some s' := by
  rw [runAsm_code_cons, ha]
  exact has

/-! ### The items that compute -/

theorem runAsm_varAddress {v : VarRef} (h : placeOf p v = some w) :
    runAsm p (.item (.varAddress v)) s = some (s.push w) := by
  change (placeOf p v).map s.push = _
  rw [h]
  rfl

theorem runAsm_localValue {t : Ty} {va_addr : Word}
    (h : loadMeaning p t s.mem (p.fp + va_addr) = some w) :
    runAsm p (.item (.localValue t va_addr)) s = some (s.push w) := by
  change (readAt p t s.mem (p.fp + va_addr)).map s.push = _
  rw [load_readAt h]
  rfl

theorem runAsm_staticValue {t : Ty} {addr : Word}
    (h : loadMeaning p t s.mem (unsignedOf 4 addr) = some w) :
    runAsm p (.item (.staticValue t addr)) s = some (s.push w) := by
  change (readAt p t s.mem (unsignedOf 4 addr)).map s.push = _
  rw [load_readAt h]
  rfl

theorem runAsm_deref {t : Ty} {b : Word} (h : loadMeaning p t mem b = some w) :
    runAsm p (.item (.deref t .AT_CI_ADDR)) ⟨mem, some b :: st⟩ = some ⟨mem, some w :: st⟩ := by
  change (readAt p t mem b).map _ = _
  rw [load_readAt h]
  rfl

theorem runAsm_arith {op : ArithOp} {t : Ty} {x y : Word} (check_div is_value : Bool)
    (h : wordArith op t x y = some w) :
    runAsm p (.item (.arith check_div op t is_value)) ⟨mem, some y :: some x :: st⟩ =
      some ⟨mem, some w :: st⟩ := by
  change (wordArith op t x y).map _ = _
  rw [h]
  rfl

theorem runAsm_shift {op : ShiftOp} {x y : Word} (t u : Ty) (is_value : Bool)
    (h : wordShift op x y = w) :
    runAsm p (.item (.shift op t u is_value)) ⟨mem, some y :: some x :: st⟩ =
      some ⟨mem, some w :: st⟩ := by
  rw [← h]
  rfl

theorem runAsm_relation {op : RelOp} {t : Ty} {x y : Word} (h : wordRel op t x y = w) :
    runAsm p (.item (.relation op t)) ⟨mem, some y :: some x :: st⟩ =
      some ⟨mem, some w :: st⟩ := by
  rw [← h]
  rfl

theorem runAsm_unary {op : UnaryOp} {x : Word} (t u : Ty) (h : wordUnary op x = w) :
    runAsm p (.item (.unary op t u)) ⟨mem, some x :: st⟩ = some ⟨mem, some w :: st⟩ := by
  rw [← h]
  rfl

theorem runAsm_store {t : Ty} {b : Word} {mem' : Mem 64} (want_value : Bool)
    (h : storeMeaning p t mem b w = some mem') :
    runAsm p (.item (.assign t want_value .AT_CI_ADDR)) ⟨mem, some w :: some b :: st⟩ =
      some ⟨mem', if want_value then some w :: st else st⟩ := by
  change (storeMeaning p t mem b w).map _ = _
  rw [h]
  rfl

@[simp] theorem runAsm_convertIf (t u : Ty) : runAsm p (convertIf t u) s = some s := by
  unfold convertIf
  split <;> rfl

end

/-! ## What the code of an expression is to do -/

/-- What the code leaves on a stack. -/
def leave (context : Context) (w : Word) (st : List (Option Word)) : List (Option Word) :=
  if context = .EC_EFFECT then st else some w :: st

/-- The code finds the word that is related to the memory, if it is asked for, and leaves the memory
as it then is; and the compiler can tell how many words there are. -/
structure Block (p : Place) (context : Context) (a : Asm) (f : Mem 64 → Word → Mem 64 → Prop) :
    Prop where
  balanced : Balanced a
  effect : effect a = if context = .EC_EFFECT then 0 else 1
  runs : ∀ mem w mem' st, f mem w mem' → runAsm p a ⟨mem, st⟩ = some ⟨mem', leave context w st⟩

def Evals (p : Place) {k : Kind} (e : Tree k) (is_address : Bool) (mem : Mem 64) (w : Word)
    (mem' : Mem 64) : Prop :=
  eval p e is_address mem = some (w, mem')

/-- Whether the address is asked for. If only the effects are, either will do. -/
def Asks : Context → Bool → Prop
  | .EC_VALUE, is_address => is_address = false
  | .EC_ADDRESS, is_address => is_address = true
  | .EC_EFFECT, _ => True

/-- The code computes the value or the address, or does what the expression does to the memory, and
the address space is that of the interpreter. The code of arguments only has its number of words. -/
def Implements (p : Place) : {k : Kind} → Tree k → Context → Asm → AddrType → Prop
  | .value _, e, context, a, at_ =>
    at_ = .AT_CI_ADDR ∧ ∀ is_address, Asks context is_address →
      Block p context a (Evals p e is_address)
  | .args, e, _, a, at_ => at_ = .AT_CI_ADDR ∧ Balanced a ∧ effect a = e.nargs

/-- Whatever the expression is compiled to in a context implements it. -/
def Correct (p : Place) (fl : Flags) {k : Kind} (e : Tree k) : Prop :=
  ∀ context a at_, ciCompileExpression fl e context = some (a, at_) → Implements p e context a at_

/-! ## Blocks of operators -/

section
variable {p : Place} {context : Context} {a b : Asm} {i : Item}
  {f g h : Mem 64 → Word → Mem 64 → Prop}

theorem Block.of_imp (hb : Block p context a f) (himp : ∀ mem w mem', g mem w mem' → f mem w mem') :
    Block p context a g :=
  ⟨hb.balanced, hb.effect, fun mem w mem' st hg => hb.runs mem w mem' st (himp mem w mem' hg)⟩

/-- Only the memory counts if the word is not asked for. -/
theorem Block.of_effect (hb : Block p .EC_EFFECT a f)
    (himp : ∀ mem w mem', g mem w mem' → ∃ x, f mem x mem') : Block p .EC_EFFECT a g := by
  refine ⟨hb.balanced, hb.effect, fun mem w mem' st hg => ?_⟩
  obtain ⟨x, hx⟩ := himp mem w mem' hg
  exact hb.runs mem x mem' st hx

/-- An item for a value that is not asked for is left out. -/
theorem runAsm_ifValue {mem : Mem 64} {st : List (Option Word)} {w x : Word}
    (hcontext : context ≠ .EC_ADDRESS)
    (hi : runAsm p a ⟨mem, some x :: st⟩ = some ⟨mem, some w :: st⟩) :
    runAsm p (ifValue context a) ⟨mem, leave context x st⟩ = some ⟨mem, leave context w st⟩ := by
  cases context with
  | EC_ADDRESS => exact absurd rfl hcontext
  | EC_VALUE => exact hi
  | EC_EFFECT => rfl

theorem runAsm_ifValue_two {mem : Mem 64} {st : List (Option Word)} {w x y : Word}
    (hcontext : context ≠ .EC_ADDRESS)
    (hi : runAsm p a ⟨mem, some y :: some x :: st⟩ = some ⟨mem, some w :: st⟩) :
    runAsm p (ifValue context a) ⟨mem, leave context y (leave context x st)⟩ =
      some ⟨mem, leave context w st⟩ := by
  cases context with
  | EC_ADDRESS => exact absurd rfl hcontext
  | EC_VALUE => exact hi
  | EC_EFFECT => rfl

theorem effect_value_or (hcontext : context ≠ .EC_ADDRESS) (n : Int) :
    (if context = .EC_VALUE then n else 0) = if context = .EC_EFFECT then 0 else n := by
  cases context with
  | EC_ADDRESS => exact absurd rfl hcontext
  | EC_VALUE | EC_EFFECT => rfl

/-- An operator of one operand. -/
theorem block_one (ha : Block p context a f) (hcontext : context ≠ .EC_ADDRESS)
    (hb : Balanced b) (heffect : effect b = 0)
    (hh : ∀ mem w mem', h mem w mem' → ∃ x, f mem x mem' ∧
      ∀ st, runAsm p b ⟨mem', some x :: st⟩ = some ⟨mem', some w :: st⟩) :
    Block p context (code [a, ifValue context b]) h := by
  refine ⟨⟨ha.balanced, balanced_ifValue _ hb, trivial⟩, ?_, fun mem w mem' st hw => ?_⟩
  · simp [ha.effect, heffect]
  · obtain ⟨x, hx, hrun⟩ := hh mem w mem' hw
    exact runAsm_cons (ha.runs mem x mem' st hx)
      (runAsm_cons (runAsm_ifValue hcontext (hrun st)) rfl)

/-- An operator of two operands. -/
theorem block_two (ha : Block p context a f) (hb : Block p context b g)
    (hcontext : context ≠ .EC_ADDRESS) (hi : itemEffect i = -1)
    (hh : ∀ mem w mem', h mem w mem' → ∃ x mem₁ y, f mem x mem₁ ∧ g mem₁ y mem' ∧
      ∀ st, run p i ⟨mem', some y :: some x :: st⟩ = some ⟨mem', some w :: st⟩) :
    Block p context (code [a, b, ifValue context (.item i)]) h := by
  refine ⟨⟨ha.balanced, hb.balanced, balanced_ifValue _ trivial, trivial⟩, ?_,
    fun mem w mem' st hw => ?_⟩
  · simp only [effect_code_cons, effect_code_nil, effect_ifValue, effect_item, ha.effect, hb.effect,
      hi, effect_value_or hcontext]
    split <;> rfl
  · obtain ⟨x, mem₁, y, hx, hy, hrun⟩ := hh mem w mem' hw
    exact runAsm_cons (ha.runs mem x mem₁ st hx) (runAsm_cons (hb.runs mem₁ y mem' _ hy)
      (runAsm_cons (runAsm_ifValue_two hcontext (hrun st)) rfl))

end

section
variable {p : Place} {fl : Flags} {s t u : Ty} {context : Context} {a : Asm} {at_ : AddrType}

theorem asks_false (hcontext : context ≠ .EC_ADDRESS) : Asks context false := by
  cases context with
  | EC_ADDRESS => exact absurd rfl hcontext
  | EC_VALUE => rfl
  | EC_EFFECT => trivial

theorem of_notAddress {rest : Compiled}
    (h : (do notAddress context; rest) = some (a, at_)) :
    context ≠ .EC_ADDRESS ∧ rest = some (a, at_) := by
  obtain ⟨⟨⟩, hn, h⟩ := bind_some.1 h
  refine ⟨fun hc => ?_, h⟩
  rw [notAddress, if_pos hc] at hn
  cases hn

/-- For an operator it is enough to look at its value. -/
theorem implements_value {e : Expr t} (haddress : ∀ mem, eval p e true mem = none)
    (hat : at_ = .AT_CI_ADDR) (hblock : Block p context a (Evals p e false)) :
    Implements p e context a at_ := by
  refine ⟨hat, fun is_address _ => ?_⟩
  cases is_address with
  | false => exact hblock
  | true =>
    refine hblock.of_imp fun mem w mem' he => ?_
    rw [Evals, haddress] at he
    cases he

/-- A constant expression is replaced by its value. -/
theorem implements_orConst {e : Expr t} {rest : Compiled}
    (haddress : ∀ mem, eval p e true mem = none)
    (h : orConst e context rest = some (a, at_))
    (hrest : rest = some (a, at_) → Implements p e context a at_) :
    Implements p e context a at_ := by
  unfold orConst at h
  split at h
  case isFalse => exact hrest h
  case isTrue hc =>
    have hconst := (Bool.and_eq_true_iff.1 hc).1
    cases context with
    | EC_ADDRESS => cases h
    | EC_VALUE =>
      obtain ⟨v, hv, heq⟩ := Option.map_eq_some_iff.1 h
      cases heq
      refine implements_value haddress rfl ⟨trivial, rfl, ?_⟩
      intro mem w mem' st he
      rw [eval_evalConst e hconst hv he, eval_constant_mem e hconst he]
      rfl
    | EC_EFFECT =>
      cases h
      refine implements_value haddress rfl ⟨trivial, rfl, ?_⟩
      intro mem w mem' st he
      rw [eval_constant_mem e hconst he]
      rfl

end

/-! ## One lemma for each kind of expression -/

section
variable {p : Place} {fl : Flags} {s t u : Ty} {n : Nat}

theorem correct_intConst (h : t.isArith = true) (ival : Word) :
    Correct p fl (.intConst h ival) := by
  intro context a at_ hc
  refine implements_orConst (fun _ => rfl) hc fun hnone => ?_
  cases hnone

theorem correct_address (n : Nat) (addr : Word) : Correct p fl (.address n addr) := by
  intro context a at_ hc
  cases context with
  | EC_ADDRESS => cases hc
  | EC_VALUE | EC_EFFECT =>
    cases hc
    refine implements_value (fun _ => rfl) rfl ⟨trivial, rfl, fun mem w mem' st he => ?_⟩
    cases he
    rfl

theorem unknownAddrtype_eq (hfl : fl.tx_have_proc_vars = false) :
    unknownAddrtype fl = .AT_CI_ADDR := by
  rw [unknownAddrtype, hfl]
  rfl

theorem joinAddrtype_eq (hfl : fl.tx_have_proc_vars = false) (x y : AddrType) :
    joinAddrtype fl x y = .AT_CI_ADDR := by
  cases x <;> cases y <;> first | rfl | exact unknownAddrtype_eq hfl

theorem correct_var (hfl : fl.tx_have_proc_vars = false) (t : Ty) (v : VarRef) :
    Correct p fl (.var t v) := by
  intro context a at_ hc
  have hcompiled : ciCompileVarReference fl t v context = (a, at_) := Option.some.inj hc
  have hat : at_ = .AT_CI_ADDR := by
    have hunknown := unknownAddrtype_eq hfl
    have hsnd : (ciCompileVarReference fl t v context).2 = .AT_CI_ADDR := by
      cases context <;> cases v <;> first | rfl | exact hunknown
    rwa [hcompiled] at hsnd
  cases context with
  | EC_EFFECT =>
    cases hcompiled
    refine ⟨rfl, fun is_address _ => ⟨trivial, rfl, fun mem w mem' st he => ?_⟩⟩
    cases is_address with
    | false =>
      obtain ⟨x, -, -, rfl⟩ := eval_var he
      rfl
    | true =>
      obtain ⟨-, rfl⟩ := eval_varAddress he
      rfl
  | EC_ADDRESS =>
    have hfst : (ciCompileVarReference fl t v .EC_ADDRESS).1 = .item (.varAddress v) := by
      cases v <;> rfl
    rw [hcompiled] at hfst
    cases hfst
    refine ⟨hat, fun is_address hasks => ⟨trivial, rfl, fun mem w mem' st he => ?_⟩⟩
    cases hasks
    obtain ⟨hplace, rfl⟩ := eval_varAddress he
    exact runAsm_varAddress hplace
  | EC_VALUE =>
    refine ⟨hat, fun is_address hasks => ?_⟩
    cases hasks
    cases v with
    | ciLocal va_addr =>
      cases hcompiled
      refine ⟨trivial, rfl, fun mem w mem' st he => ?_⟩
      obtain ⟨x, hplace, hload, rfl⟩ := eval_var he
      cases hplace
      exact runAsm_localValue hload
    | ciStatic addr =>
      cases hcompiled
      refine ⟨trivial, rfl, fun mem w mem' st he => ?_⟩
      obtain ⟨x, hplace, hload, rfl⟩ := eval_var he
      cases hplace
      exact runAsm_staticValue hload
    | procLocal r va_addr | procStatic va_addr | procReg addr =>
      cases hcompiled
      refine ⟨⟨trivial, trivial, trivial⟩, rfl, fun mem w mem' st he => ?_⟩
      obtain ⟨x, hplace, -, -⟩ := eval_var he
      cases hplace

theorem correct_deref (hfl : fl.tx_have_proc_vars = false) {e : Expr (.DT_PTR_TO n)}
    (he : Correct p fl e) (t : Ty) : Correct p fl (.deref t e) := by
  intro context a at_ hc
  cases context with
  | EC_VALUE =>
    obtain ⟨b, b_at, hb, hc⟩ := bind_pair.1 hc
    cases pure_some.1 hc
    obtain ⟨rfl, hblock⟩ := he _ _ _ hb
    have hb := hblock false rfl
    refine ⟨unknownAddrtype_eq hfl, fun is_address hasks => ?_⟩
    cases hasks
    refine ⟨⟨hb.balanced, trivial, trivial⟩, ?_, fun mem w mem' st hw => ?_⟩
    · rw [effect_code_cons, hb.effect]
      rfl
    · obtain ⟨x, hx, hload⟩ := eval_deref hw
      exact runAsm_cons (hb.runs mem x mem' st hx) (runAsm_cons (runAsm_deref hload) rfl)
  | EC_ADDRESS =>
    obtain ⟨b, b_at, hb, hc⟩ := bind_pair.1 hc
    cases pure_some.1 hc
    obtain ⟨rfl, hblock⟩ := he _ _ _ hb
    have hb := hblock false rfl
    refine ⟨rfl, fun is_address hasks => ?_⟩
    cases hasks
    refine ⟨⟨hb.balanced, trivial, trivial⟩, ?_, fun mem w mem' st hw => ?_⟩
    · rw [effect_code_cons, hb.effect]
      rfl
    · exact runAsm_cons (hb.runs mem w mem' st hw) rfl
  | EC_EFFECT =>
    obtain ⟨rfl, hblock⟩ := he _ _ _ hc
    refine ⟨rfl, fun is_address _ => (hblock false trivial).of_effect fun mem w mem' hw => ?_⟩
    cases is_address with
    | false =>
      obtain ⟨x, hx, -⟩ := eval_deref hw
      exact ⟨x, hx⟩
    | true => exact ⟨w, hw⟩

theorem correct_addressOf (n : Nat) {e : Expr t} (he : Correct p fl e) :
    Correct p fl (.addressOf n e) := by
  intro context a at_ hc
  cases context with
  | EC_VALUE =>
    obtain ⟨b, b_at, hb, hc⟩ := bind_pair.1 hc
    cases pure_some.1 hc
    obtain ⟨rfl, hblock⟩ := he _ _ _ hb
    have hb := hblock true rfl
    refine implements_value (fun _ => rfl) rfl ⟨⟨hb.balanced, trivial, trivial⟩, ?_, ?_⟩
    · rw [effect_code_cons, hb.effect]
      rfl
    · intro mem w mem' st hw
      exact runAsm_cons (hb.runs mem w mem' st hw) rfl
  | EC_ADDRESS => cases hc
  | EC_EFFECT =>
    obtain ⟨rfl, hblock⟩ := he _ _ _ hc
    exact implements_value (fun _ => rfl) rfl (hblock true trivial)

theorem correct_logicalNot {e : Expr t} (he : Correct p fl e) :
    Correct p fl (.logicalNot e) := by
  intro context a at_ hc
  refine implements_orConst (fun _ => rfl) hc fun hc => ?_
  obtain ⟨hcontext, hc⟩ := of_notAddress hc
  obtain ⟨b, b_at, hb, hc⟩ := bind_pair.1 hc
  cases pure_some.1 hc
  obtain ⟨rfl, hblock⟩ := he _ _ _ hb
  refine implements_value (fun _ => rfl) rfl
    (block_one (hblock false (asks_false hcontext)) hcontext trivial rfl ?_)
  intro mem w mem' hw
  obtain ⟨x, hx, rfl⟩ := eval_logicalNot hw
  refine ⟨x, hx, fun st => ?_⟩
  rw [← ofBool_wordOf]
  rfl

theorem correct_unary (op : UnaryOp) (hs : ciIsIntegral s = true) (ht : promoted s = t) {e : Expr s}
    (he : Correct p fl e) : Correct p fl (.unary op hs ht e) := by
  intro context a at_ hc
  refine implements_orConst (fun _ => rfl) hc fun hc => ?_
  obtain ⟨hcontext, hc⟩ := of_notAddress hc
  obtain ⟨b, b_at, hb, hc⟩ := bind_pair.1 hc
  obtain ⟨rfl, hblock⟩ := he _ _ _ hb
  have hb := hblock false (asks_false hcontext)
  have harith := isArith_promoted hs
  rw [ht] at harith
  -- an operator that is coded is one on the promoted operand
  have hcoded : op ≠ .OP_UNARY_PLUS → ∀ mem w mem', Evals p (.unary op hs ht e) false mem w mem' →
      ∃ x, Evals p e false mem x mem' ∧
        ∀ st, runAsm p (.item (.unary op s t)) ⟨mem', some x :: st⟩ =
          some ⟨mem', some w :: st⟩ := by
    intro hop mem w mem' hw
    obtain ⟨x, hx, hw⟩ := eval_unary hw
    exact ⟨x, hx, fun st =>
      runAsm_unary s t (wordUnary_eq harith ((eval_fits e hx).promoted hs ht) hop hw)⟩
  cases op with
  | OP_UNARY_PLUS =>
    cases pure_some.1 hc
    refine implements_value (fun _ => rfl) rfl
      (block_one hb hcontext (balanced_convertIf s t) (effect_convertIf s t) ?_)
    intro mem w mem' hw
    obtain ⟨x, hx, hw⟩ := eval_unary hw
    cases hw
    exact ⟨w, hx, fun st => runAsm_convertIf s t⟩
  | OP_UNARY_MINUS | OP_BITWISE_NOT =>
    cases pure_some.1 hc
    exact implements_value (fun _ => rfl) rfl
      (block_one hb hcontext trivial rfl (hcoded UnaryOp.noConfusion))

theorem correct_convert (hfl : fl.tx_have_proc_vars = false) (t : Ty) {e : Expr s}
    (he : Correct p fl e) : Correct p fl (.convert t e) := by
  intro context a at_ hc
  refine implements_orConst (fun _ => rfl) hc fun hc => ?_
  obtain ⟨hcontext, hc⟩ := of_notAddress hc
  obtain ⟨b, b_at, hb, hc⟩ := bind_pair.1 hc
  cases pure_some.1 hc
  obtain ⟨rfl, hblock⟩ := he _ _ _ hb
  refine implements_value (fun _ => rfl) ?_
    (block_one (hblock false (asks_false hcontext)) hcontext trivial rfl ?_)
  · rw [unknownAddrtype_eq hfl, ite_self]
  · intro mem w mem' hw
    exact ⟨w, (eval_convert hw).1, fun st => rfl⟩

theorem correct_asPointer (n : Nat) {e : Expr s} (he : Correct p fl e) :
    Correct p fl (.asPointer n e) := by
  intro context a at_ hc
  obtain ⟨hcontext, hc⟩ := of_notAddress hc
  obtain ⟨b, b_at, hb, hc⟩ := bind_pair.1 hc
  cases pure_some.1 hc
  obtain ⟨rfl, hblock⟩ := he _ _ _ hb
  refine implements_value (fun _ => rfl) rfl
    (block_one (hblock false (asks_false hcontext)) hcontext trivial rfl ?_)
  intro mem w mem' hw
  exact ⟨w, hw, fun st => rfl⟩

theorem correct_binary (hfl : fl.tx_have_proc_vars = false) (op : ArithOp) (ht : t.isArith = true)
    {l r : Expr t} (hl : Correct p fl l) (hr : Correct p fl r) :
    Correct p fl (.binary op ht l r) := by
  intro context a at_ hc
  refine implements_orConst (fun _ => rfl) hc fun hc => ?_
  obtain ⟨hcontext, hc⟩ := of_notAddress hc
  obtain ⟨b, left_at, hb, hc⟩ := bind_pair.1 hc
  obtain ⟨b', right_at, hb', hc⟩ := bind_pair.1 hc
  cases pure_some.1 hc
  have hl := (hl _ _ _ hb).2 false (asks_false hcontext)
  have hr := (hr _ _ _ hb').2 false (asks_false hcontext)
  refine implements_value (fun _ => rfl) (joinAddrtype_eq hfl _ _)
    (block_two hl hr hcontext rfl fun mem w mem' hw => ?_)
  obtain ⟨x, mem₁, y, hx, hy, hw⟩ := eval_binary hw
  have hword := wordArith_eq ht (eval_fits l hx) (eval_fits r hy) hw
  exact ⟨x, mem₁, y, hx, hy, fun st => runAsm_arith fl.check_div true hword⟩

theorem correct_shift (hfl : fl.tx_have_proc_vars = false) (op : ShiftOp) (ht : t.isArith = true)
    (hu : u.isArith = true) {l : Expr t} {r : Expr u} (hl : Correct p fl l)
    (hr : Correct p fl r) : Correct p fl (.shift op ht hu l r) := by
  intro context a at_ hc
  refine implements_orConst (fun _ => rfl) hc fun hc => ?_
  obtain ⟨hcontext, hc⟩ := of_notAddress hc
  obtain ⟨b, left_at, hb, hc⟩ := bind_pair.1 hc
  obtain ⟨b', right_at, hb', hc⟩ := bind_pair.1 hc
  cases pure_some.1 hc
  have hl := (hl _ _ _ hb).2 false (asks_false hcontext)
  have hr := (hr _ _ _ hb').2 false (asks_false hcontext)
  refine implements_value (fun _ => rfl) (joinAddrtype_eq hfl _ _)
    (block_two hl hr hcontext rfl fun mem w mem' hw => ?_)
  obtain ⟨x, mem₁, y, hx, hy, hw⟩ := eval_shift hw
  have hword := wordShift_eq ht hu (eval_fits l hx) (eval_fits r hy) hw
  exact ⟨x, mem₁, y, hx, hy, fun st => runAsm_shift t u true hword⟩

theorem correct_compare (hfl : fl.tx_have_proc_vars = false) (op : RelOp)
    (ht : t.isArith = true ∨ ciIsIntegral t = false) {l r : Expr t} (hl : Correct p fl l)
    (hr : Correct p fl r) : Correct p fl (.compare op ht l r) := by
  intro context a at_ hc
  refine implements_orConst (fun _ => rfl) hc fun hc => ?_
  obtain ⟨hcontext, hc⟩ := of_notAddress hc
  obtain ⟨b, left_at, hb, hc⟩ := bind_pair.1 hc
  obtain ⟨b', right_at, hb', hc⟩ := bind_pair.1 hc
  cases pure_some.1 hc
  have hl := (hl _ _ _ hb).2 false (asks_false hcontext)
  have hr := (hr _ _ _ hb').2 false (asks_false hcontext)
  refine implements_value (fun _ => rfl) ?_ (block_two hl hr hcontext rfl fun mem w mem' hw => ?_)
  · rw [joinAddrtype_eq hfl, ite_self]
  · obtain ⟨x, mem₁, y, hx, hy, rfl⟩ := eval_compare hw
    exact ⟨x, mem₁, y, hx, hy, fun st =>
      runAsm_relation (wordRel_eq ht (eval_fits l hx) (eval_fits r hy))⟩

/-! ### Numbers of elements -/

/-- A number of elements, in bytes. -/
def Scales (p : Place) {k : Kind} (e : Tree k) (n : Nat) (mem : Mem 64) (w : Word)
    (mem' : Mem 64) : Prop :=
  ∃ x, eval p e false mem = some (x, mem') ∧ scaleMeaning n x = some w

theorem block_scale {context : Context} {a : Asm} {e : Expr t} (he : Correct p fl e)
    (hcontext : context ≠ .EC_ADDRESS)
    (h : compileScaleExpr e n context (ciCompileExpression fl e context) = some a) :
    Block p context a (Scales p e n) := by
  unfold compileScaleExpr at h
  split at h
  case isTrue hconst =>
    cases context with
    | EC_ADDRESS => cases h
    | EC_VALUE =>
      obtain ⟨v, hv, rfl⟩ := Option.map_eq_some_iff.1 h
      refine ⟨trivial, rfl, fun mem w mem' st hw => ?_⟩
      obtain ⟨x, hx, hscale⟩ := hw
      rw [eval_evalConst e hconst hv hx] at hscale
      rw [scaleMeaning_wordOf hscale, eval_constant_mem e hconst hx]
      rfl
    | EC_EFFECT =>
      cases h
      refine ⟨trivial, rfl, fun mem w mem' st hw => ?_⟩
      obtain ⟨x, hx, -⟩ := hw
      rw [eval_constant_mem e hconst hx]
      rfl
  case isFalse =>
    obtain ⟨⟨b, b_at⟩, hb, rfl⟩ := Option.map_eq_some_iff.1 h
    have hb := (he _ _ _ hb).2 false (asks_false hcontext)
    refine block_one hb hcontext ⟨trivial, trivial, trivial⟩ rfl fun mem w mem' hw => ?_
    obtain ⟨x, hx, hscale⟩ := hw
    refine ⟨x, hx, fun st => ?_⟩
    rw [← mul_of_scale hscale]
    rfl

theorem correct_ptrPlus (hfl : fl.tx_have_proc_vars = false) (op : PtrOp) (ht : t.isArith = true)
    {l : Expr (.DT_PTR_TO n)} {r : Expr t} (hl : Correct p fl l) (hr : Correct p fl r) :
    Correct p fl (.ptrPlus op ht l r) := by
  intro context a at_ hc
  obtain ⟨hcontext, hc⟩ := of_notAddress hc
  obtain ⟨b, left_at, hb, hc⟩ := bind_pair.1 hc
  obtain ⟨b', hb', hc⟩ := bind_some.1 hc
  cases pure_some.1 hc
  have hl := (hl _ _ _ hb).2 false (asks_false hcontext)
  refine implements_value (fun _ => rfl) (joinAddrtype_eq hfl _ _)
    (block_two hl (block_scale hr hcontext hb') hcontext rfl fun mem w mem' hw => ?_)
  obtain ⟨x, mem₁, y, z, hx, hy, hz, rfl, -⟩ := eval_ptrPlus hw
  exact ⟨x, mem₁, z, hx, ⟨y, hy, hz⟩, fun st => rfl⟩

theorem correct_plusPtr (hfl : fl.tx_have_proc_vars = false) (ht : t.isArith = true)
    {l : Expr t} {r : Expr (.DT_PTR_TO n)} (hl : Correct p fl l) (hr : Correct p fl r) :
    Correct p fl (.plusPtr ht l r) := by
  intro context a at_ hc
  obtain ⟨hcontext, hc⟩ := of_notAddress hc
  obtain ⟨b, hb, hc⟩ := bind_some.1 hc
  obtain ⟨b', right_at, hb', hc⟩ := bind_pair.1 hc
  cases pure_some.1 hc
  have hr := (hr _ _ _ hb').2 false (asks_false hcontext)
  refine implements_value (fun _ => rfl) (joinAddrtype_eq hfl _ _)
    (block_two (block_scale hl hcontext hb) hr hcontext rfl fun mem w mem' hw => ?_)
  obtain ⟨x, mem₁, y, z, hx, hz, hy, rfl, -⟩ := eval_plusPtr hw
  exact ⟨z, mem₁, y, ⟨x, hx, hz⟩, hy, fun st => rfl⟩

/-! ### Assignments -/

/-- The word that an assignment leaves. -/
theorem runAsm_assign {context : Context} {mem mem' : Mem 64} {a w : Word}
    (st : List (Option Word)) (hcontext : context ≠ .EC_ADDRESS)
    (hstore : storeMeaning p t mem a w = some mem') :
    runAsm p (.item (.assign t (decide (context = .EC_VALUE)) .AT_CI_ADDR))
      ⟨mem, some w :: some a :: st⟩ = some ⟨mem', leave context w st⟩ := by
  rw [runAsm_store _ hstore]
  cases context with
  | EC_ADDRESS => exact absurd rfl hcontext
  | EC_VALUE | EC_EFFECT => rfl

theorem correct_assign {l r : Expr t} (hl : Correct p fl l) (hr : Correct p fl r) :
    Correct p fl (.assign l r) := by
  intro context a at_ hc
  obtain ⟨hcontext, hc⟩ := of_notAddress hc
  obtain ⟨b, left_at, hb, hc⟩ := bind_pair.1 hc
  obtain ⟨b', right_at, hb', hc⟩ := bind_pair.1 hc
  cases pure_some.1 hc
  obtain ⟨rfl, hl⟩ := hl _ _ _ hb
  obtain ⟨rfl, hr⟩ := hr _ _ _ hb'
  have hl := hl true rfl
  have hr := hr false rfl
  refine implements_value (fun _ => rfl) rfl
    ⟨⟨hl.balanced, hr.balanced, trivial, trivial⟩, ?_, fun mem w mem' st hw => ?_⟩
  · rw [effect_code_cons, effect_code_cons, hl.effect, hr.effect]
    cases context with
    | EC_ADDRESS => exact absurd rfl hcontext
    | EC_VALUE | EC_EFFECT => rfl
  · obtain ⟨a, mem₁, mem₂, ha, hx, hstore⟩ := eval_assign hw
    exact runAsm_cons (hl.runs mem a mem₁ st ha) (runAsm_cons (hr.runs mem₁ w mem₂ _ hx)
      (runAsm_cons (runAsm_assign _ hcontext hstore) rfl))

/-- The code of a compound assignment, whatever the operation is. -/
theorem block_assignCode {context : Context} {a op : Asm}
    {f h : Mem 64 → Word → Mem 64 → Prop} {k : Mem 64 → Word → Word → Mem 64 → Prop}
    (ha : Block p .EC_ADDRESS a f) (hcontext : context ≠ .EC_ADDRESS) (hbalanced : Balanced op)
    (heffect : effect op = 0)
    (hop : ∀ mem x w mem' st, k mem x w mem' →
      runAsm p op ⟨mem, some x :: st⟩ = some ⟨mem', some w :: st⟩)
    (hh : ∀ mem w mem', h mem w mem' → ∃ a mem₁ x mem₂, f mem a mem₁ ∧
      loadMeaning p s mem₁ a = some x ∧ k mem₁ x w mem₂ ∧ storeMeaning p s mem₂ a w = some mem') :
    Block p context (assignCode s t context a .AT_CI_ADDR op) h := by
  refine ⟨⟨ha.balanced, trivial, trivial, balanced_convertIf s t, hbalanced,
    balanced_ifValue _ (balanced_convertIf t s), trivial, trivial⟩, ?_, fun mem w mem' st hw => ?_⟩
  · unfold assignCode
    simp only [effect_code_cons, effect_code_nil, effect_item, effect_convertIf, effect_ifValue,
      ite_self, ha.effect, heffect, itemEffect]
    cases context with
    | EC_ADDRESS => exact absurd rfl hcontext
    | EC_VALUE | EC_EFFECT => rfl
  · obtain ⟨b, mem₁, x, mem₂, hb, hload, hk, hstore⟩ := hh mem w mem' hw
    have hconvert : runAsm p (ifValue context (convertIf t s)) ⟨mem₂, some w :: some b :: st⟩ =
        some ⟨mem₂, some w :: some b :: st⟩ := by
      unfold ifValue
      split
      · exact runAsm_convertIf t s
      · rfl
    exact runAsm_cons (ha.runs mem b mem₁ st hb) (runAsm_cons rfl (runAsm_cons (runAsm_deref hload)
      (runAsm_cons (runAsm_convertIf s t) (runAsm_cons (hop _ _ _ _ _ hk) (runAsm_cons hconvert
        (runAsm_cons (runAsm_assign _ hcontext hstore) rfl))))))

theorem correct_assignOp (op : ArithOp) (hs : ciIsIntegral s = true) (ht : t.isArith = true)
    {l : Expr s} {r : Expr t} (hl : Correct p fl l) (hr : Correct p fl r) :
    Correct p fl (.assignOp op hs ht l r) := by
  intro context a at_ hc
  obtain ⟨hcontext, hc⟩ := of_notAddress hc
  obtain ⟨b, left_at, hb, hc⟩ := bind_pair.1 hc
  obtain ⟨b', right_at, hb', hc⟩ := bind_pair.1 hc
  cases pure_some.1 hc
  obtain ⟨rfl, hl⟩ := hl _ _ _ hb
  have hr := (hr _ _ _ hb').2 false rfl
  refine implements_value (fun _ => rfl) rfl (block_assignCode
    (k := fun mem x w mem' => ∃ y, Canonical t x ∧ eval p r false mem = some (y, mem') ∧
      arithMeaning op t x y = some w) (hl true rfl) hcontext ⟨hr.balanced, trivial, trivial⟩
    ?_ ?_ ?_)
  · rw [effect_code_cons, hr.effect]
    rfl
  · intro mem x w mem' st hk
    obtain ⟨y, hx, hy, hw⟩ := hk
    have hword := wordArith_eq ht hx (eval_fits r hy) hw
    exact runAsm_cons (hr.runs mem y mem' _ hy) (runAsm_cons (runAsm_arith _ _ hword) rfl)
  · intro mem w mem' hw
    obtain ⟨a, mem₁, x, y, mem₂, ha, hload, hx, hy, hw, -, hstore⟩ := eval_assignOp hw
    exact ⟨a, mem₁, x, mem₂, ha, hload, ⟨y, hx, hy, hw⟩, hstore⟩

theorem correct_assignShift (op : ShiftOp) (hs : ciIsIntegral s = true) (ht : promoted s = t)
    (hu : u.isArith = true) {l : Expr s} {r : Expr u} (hl : Correct p fl l)
    (hr : Correct p fl r) : Correct p fl (.assignShift op hs ht hu l r) := by
  intro context a at_ hc
  obtain ⟨hcontext, hc⟩ := of_notAddress hc
  obtain ⟨b, left_at, hb, hc⟩ := bind_pair.1 hc
  obtain ⟨b', right_at, hb', hc⟩ := bind_pair.1 hc
  cases pure_some.1 hc
  obtain ⟨rfl, hl⟩ := hl _ _ _ hb
  have hr := (hr _ _ _ hb').2 false rfl
  have harith := isArith_promoted hs
  rw [ht] at harith
  refine implements_value (fun _ => rfl) rfl (block_assignCode
    (k := fun mem x w mem' => ∃ y, Canonical t x ∧ eval p r false mem = some (y, mem') ∧
      shiftMeaning op t x y = some w) (hl true rfl) hcontext ⟨hr.balanced, trivial, trivial⟩
    ?_ ?_ ?_)
  · rw [effect_code_cons, hr.effect]
    rfl
  · intro mem x w mem' st hk
    obtain ⟨y, hx, hy, hw⟩ := hk
    have hword := wordShift_eq harith hu hx (eval_fits r hy) hw
    exact runAsm_cons (hr.runs mem y mem' _ hy) (runAsm_cons (runAsm_shift _ _ _ hword) rfl)
  · intro mem w mem' hw
    obtain ⟨a, mem₁, x, y, mem₂, ha, hload, hy, hw, -, hstore⟩ := eval_assignShift hw
    exact ⟨a, mem₁, x, mem₂, ha, hload,
      ⟨y, (canonical_of_load hload).promoted hs ht, hy, hw⟩, hstore⟩

theorem correct_assignPtr (op : PtrOp) (ht : t.isArith = true) {l : Expr (.DT_PTR_TO n)}
    {r : Expr t} (hl : Correct p fl l) (hr : Correct p fl r) :
    Correct p fl (.assignPtr op ht l r) := by
  intro context a at_ hc
  obtain ⟨hcontext, hc⟩ := of_notAddress hc
  obtain ⟨b, left_at, hb, hc⟩ := bind_pair.1 hc
  obtain ⟨b', hb', hc⟩ := bind_some.1 hc
  cases pure_some.1 hc
  obtain ⟨rfl, hl⟩ := hl _ _ _ hb
  have hr := block_scale hr Context.noConfusion hb'
  refine implements_value (fun _ => rfl) rfl (block_assignCode
    (k := fun mem x w mem' => ∃ z, Scales p r n mem z mem' ∧ w = ptrMeaning op x z)
    (hl true rfl) hcontext ⟨hr.balanced, trivial, trivial⟩ ?_ ?_ ?_)
  · rw [effect_code_cons, hr.effect]
    rfl
  · intro mem x w mem' st hk
    obtain ⟨z, hz, rfl⟩ := hk
    exact runAsm_cons (hr.runs mem z mem' _ hz) rfl
  · intro mem w mem' hw
    obtain ⟨a, mem₁, x, y, z, mem₂, ha, hload, hy, hz, hw, hstore⟩ := eval_assignPtr hw
    exact ⟨a, mem₁, x, mem₂, ha, hload, ⟨z, ⟨y, hy, hz⟩, hw⟩, hstore⟩

/-! ### `++` and `--` -/

section
variable {op : IncDec} {context : Context} {a : Asm} {at_ : AddrType}

/-- What `++` or `--` does to the old value. -/
def stepOp (op : IncDec) : PtrOp :=
  if op = .OP_PREDEC ∨ op = .OP_POSTDEC then .OP_MINUS else .OP_PLUS

/-- The old value is kept in a slot below. -/
theorem incDecCode_saves (t : Ty) (a : Asm) (at_ : AddrType)
    (hop : ¬(op = .OP_PREINC ∨ op = .OP_PREDEC)) :
    incDecCode op t .EC_VALUE a at_ =
      code [.item .reserveSlot, a, .item .dup, .item (.deref t at_), .item .dupBackOne,
        .item (.constpush (BitVec.ofNat 64 (stepSize t)) .other),
        .item (.step (stepOp op) t (stepSize t) false), .item (.assign t false at_)] := by
  cases op with
  | OP_PREINC => exact absurd (.inl rfl) hop
  | OP_PREDEC => exact absurd (.inr rfl) hop
  | OP_POSTINC | OP_POSTDEC => cases t <;> rfl

theorem incDecCode_plain (t : Ty) (a : Asm) (at_ : AddrType) (hcontext : context ≠ .EC_ADDRESS)
    (hop : context = .EC_VALUE → op = .OP_PREINC ∨ op = .OP_PREDEC) :
    incDecCode op t context a at_ =
      code [.nil, a, .item .dup, .item (.deref t at_), .nil,
        .item (.constpush (BitVec.ofNat 64 (stepSize t)) .other),
        .item (.step (stepOp op) t (stepSize t) (decide (context = .EC_VALUE))),
        .item (.assign t (decide (context = .EC_VALUE)) at_)] := by
  cases context with
  | EC_ADDRESS => exact absurd rfl hcontext
  | EC_EFFECT => cases op <;> cases t <;> rfl
  | EC_VALUE =>
    obtain rfl | rfl := hop rfl
    · cases t <;> rfl
    · cases t <;> rfl

/-- The address is there twice, then the value in place of the upper one, then the new value. -/
theorem runAsm_step {mem : Mem 64} {b old new : Word} {st : List (Option Word)} (want_value : Bool)
    (hnew : stepMeaning op old (stepSize t) = new) :
    runAsm p (code [.item (.constpush (BitVec.ofNat 64 (stepSize t)) .other),
      .item (.step (stepOp op) t (stepSize t) want_value)]) ⟨mem, some old :: some b :: st⟩ =
        some ⟨mem, some new :: some b :: st⟩ := by
  rw [← hnew]
  rfl

theorem correct_incDec (hfl : fl.tx_have_proc_vars = false) (op : IncDec) {e : Expr t}
    (he : Correct p fl e) : Correct p fl (.incDec op e) := by
  intro context a at_ hc
  obtain ⟨hcontext, hc⟩ := of_notAddress hc
  obtain ⟨b, b_at, hb, hc⟩ := bind_pair.1 hc
  cases pure_some.1 hc
  obtain ⟨rfl, hblock⟩ := he _ _ _ hb
  have hb := hblock true rfl
  refine implements_value (fun _ => rfl) (unknownAddrtype_eq hfl) ?_
  by_cases hop : context = .EC_VALUE ∧ ¬(op = .OP_PREINC ∨ op = .OP_PREDEC)
  · obtain ⟨rfl, hop⟩ := hop
    rw [incDecCode_saves t b _ hop]
    refine ⟨⟨trivial, hb.balanced, trivial, trivial, trivial, trivial, trivial, trivial, trivial⟩,
      ?_, fun mem w mem' st hw => ?_⟩
    · simp only [effect_code_cons, effect_item, hb.effect]
      rfl
    · obtain ⟨a, mem₁, old, new, ha, hold, hnew, hstore, rfl⟩ := eval_incDec hw
      have hstep := (canonical_of_convert hnew).1
      have heffect : Context.EC_EFFECT ≠ .EC_ADDRESS := Context.noConfusion
      have hassign := runAsm_assign (some old :: st) heffect hstore
      rw [if_neg hop]
      refine runAsm_cons rfl (runAsm_cons (hb.runs mem a mem₁ _ ha) (runAsm_cons rfl
        (runAsm_cons (runAsm_deref hold) (runAsm_cons rfl ?_))))
      rw [← hstep] at hassign
      exact runAsm_cons rfl (runAsm_cons rfl (runAsm_cons hassign rfl))
  · have hpre : context = .EC_VALUE → op = .OP_PREINC ∨ op = .OP_PREDEC := fun hv =>
      not_not.1 fun hn => hop ⟨hv, hn⟩
    rw [incDecCode_plain t b _ hcontext hpre]
    refine ⟨⟨trivial, hb.balanced, trivial, trivial, trivial, trivial, trivial, trivial, trivial⟩,
      ?_, fun mem w mem' st hw => ?_⟩
    · simp only [effect_code_cons, effect_item, hb.effect]
      cases context with
      | EC_ADDRESS => exact absurd rfl hcontext
      | EC_VALUE | EC_EFFECT => rfl
    · obtain ⟨a, mem₁, old, new, ha, hold, hnew, hstore, rfl⟩ := eval_incDec hw
      have hstep := (canonical_of_convert hnew).1
      have hassign := runAsm_assign st hcontext hstore
      have hleave : leave context new st =
          leave context (if op = .OP_PREINC ∨ op = .OP_PREDEC then new else old) st := by
        by_cases hv : context = .EC_VALUE
        · rw [if_pos (hpre hv)]
        · cases context with
          | EC_ADDRESS => exact absurd rfl hcontext
          | EC_VALUE => exact absurd rfl hv
          | EC_EFFECT => rfl
      rw [← hleave]
      refine runAsm_cons rfl (runAsm_cons (hb.runs mem a mem₁ _ ha) (runAsm_cons rfl
        (runAsm_cons (runAsm_deref hold) (runAsm_cons rfl ?_))))
      rw [← hstep] at hassign ⊢
      exact runAsm_cons rfl (runAsm_cons rfl (runAsm_cons hassign rfl))

end

/-! ### Jumps -/

/-- The jump of a logical operator. -/
def logicalJump : LogicalOp → Jump
  | .OP_LOGICAL_AND => .JUMP_IF_ZERO
  | .OP_LOGICAL_OR => .JUMP_IF_NON_ZERO

theorem jumpEffect_logicalJump (op : LogicalOp) : jumpEffect (logicalJump op) = -1 := by
  cases op <;> rfl

theorem runAsm_shortcut {j : Jump} {mem : Mem 64} {x : Word} {st : List (Option Word)} {b : Bool}
    (h : taken j x = some b) (a : Asm) :
    runAsm p (.shortcut j a) ⟨mem, some x :: st⟩ =
      if b then some ⟨mem, st⟩ else runAsm p a ⟨mem, st⟩ := by
  change (taken j x).bind _ = _
  rw [h]
  rfl

theorem runAsm_shortcut_taken {op : LogicalOp} {mem : Mem 64} {x : Word} {st : List (Option Word)}
    (h : (x == 0#64) = (op == .OP_LOGICAL_AND)) (a : Asm) :
    runAsm p (.shortcut (logicalJump op) a) ⟨mem, some x :: st⟩ = some ⟨mem, st⟩ := by
  have htaken : taken (logicalJump op) x = some true := by
    cases op with
    | OP_LOGICAL_AND => exact congrArg some h
    | OP_LOGICAL_OR => exact congrArg (fun b => some !b) h
  rw [runAsm_shortcut htaken, if_pos rfl]

theorem runAsm_shortcut_open {op : LogicalOp} {mem : Mem 64} {x : Word} {st : List (Option Word)}
    (h : (x == 0#64) ≠ (op == .OP_LOGICAL_AND)) (a : Asm) :
    runAsm p (.shortcut (logicalJump op) a) ⟨mem, some x :: st⟩ = runAsm p a ⟨mem, st⟩ := by
  have htaken : taken (logicalJump op) x = some false := by
    cases op with
    | OP_LOGICAL_AND => exact congrArg some (Bool.eq_not.2 h)
    | OP_LOGICAL_OR => exact congrArg (fun b => some !b) (Bool.eq_not.2 h)
  rw [runAsm_shortcut htaken, if_neg Bool.false_ne_true]

/-- The right operand is only evaluated if the left one leaves the result open. -/
theorem correct_logical (op : LogicalOp) {l : Expr s} {r : Expr t} (hl : Correct p fl l)
    (hr : Correct p fl r) : Correct p fl (.logical op l r) := by
  intro context a at_ hc
  refine implements_orConst (fun _ => rfl) hc fun hc => ?_
  obtain ⟨hcontext, hc⟩ := of_notAddress hc
  obtain ⟨b, left_at, hb, hc⟩ := bind_pair.1 hc
  obtain ⟨b', right_at, hb', hc⟩ := bind_pair.1 hc
  have hl := (hl _ _ _ hb).2 false rfl
  have hr := (hr _ _ _ hb').2 false (asks_false hcontext)
  have hcode : (if context = .EC_VALUE then
      code [b, .item .dup, .shortcut (logicalJump op) (code [.item .pop, b']), .item .toBool]
    else code [b, .shortcut (logicalJump op) b']) = a ∧ .AT_CI_ADDR = at_ :=
    Prod.mk.inj (pure_some.1 hc)
  obtain ⟨rfl, rfl⟩ := hcode
  refine implements_value (fun _ => rfl) rfl ?_
  cases context with
  | EC_ADDRESS => exact absurd rfl hcontext
  | EC_VALUE =>
    rw [if_pos rfl]
    refine ⟨⟨hl.balanced, trivial, ⟨⟨trivial, hr.balanced, trivial⟩, ?_⟩, trivial, trivial⟩, ?_,
      fun mem w mem' st hw => ?_⟩
    · rw [effect_code_cons, effect_code_cons, hr.effect]
      rfl
    · simp only [effect_code_cons, effect, hl.effect, hr.effect, jumpEffect_logicalJump]
      rfl
    · obtain ⟨x, mem₁, hx, ⟨hshort, rfl, rfl⟩ | ⟨hopen, y, hy, rfl⟩⟩ := eval_logical hw
      · refine runAsm_cons (hl.runs mem x mem' st hx) (runAsm_cons rfl
          (runAsm_cons (runAsm_shortcut_taken hshort _) ?_))
        rw [← ofBool_wordOf]
        rfl
      · have hright : runAsm p (code [.item .pop, b']) ⟨mem₁, some x :: st⟩ =
            some ⟨mem', some y :: st⟩ :=
          runAsm_cons rfl (runAsm_cons (hr.runs mem₁ y mem' st hy) rfl)
        refine runAsm_cons (hl.runs mem x mem₁ st hx) (runAsm_cons rfl
          (runAsm_cons ((runAsm_shortcut_open hopen _).trans hright) ?_))
        rw [← ofBool_wordOf]
        rfl
  | EC_EFFECT =>
    rw [if_neg Context.noConfusion]
    refine ⟨⟨hl.balanced, ⟨hr.balanced, hr.effect⟩, trivial⟩, ?_, fun mem w mem' st hw => ?_⟩
    · simp only [effect_code_cons, effect, hl.effect, hr.effect, jumpEffect_logicalJump]
      rfl
    · obtain ⟨x, mem₁, hx, ⟨hshort, rfl, rfl⟩ | ⟨hopen, y, hy, rfl⟩⟩ := eval_logical hw
      · exact runAsm_cons (hl.runs mem x mem' st hx)
          (runAsm_cons (runAsm_shortcut_taken hshort _) rfl)
      · exact runAsm_cons (hl.runs mem x mem₁ st hx) (runAsm_cons
          ((runAsm_shortcut_open hopen _).trans (hr.runs mem₁ y mem' st hy)) rfl)

theorem correct_comma {l : Expr s} {r : Expr t} (hl : Correct p fl l) (hr : Correct p fl r) :
    Correct p fl (.comma l r) := by
  intro context a at_ hc
  refine implements_orConst (fun _ => rfl) hc fun hc => ?_
  obtain ⟨hcontext, hc⟩ := of_notAddress hc
  obtain ⟨b, left_at, hb, hc⟩ := bind_pair.1 hc
  obtain ⟨b', right_at, hb', hc⟩ := bind_pair.1 hc
  cases pure_some.1 hc
  have hl := (hl _ _ _ hb).2 false trivial
  obtain ⟨rfl, hr⟩ := hr _ _ _ hb'
  have hr := hr false (asks_false hcontext)
  refine implements_value (fun _ => rfl) rfl ⟨⟨hl.balanced, hr.balanced, trivial⟩, ?_, ?_⟩
  · rw [effect_code_cons, effect_code_cons, hl.effect, hr.effect]
    simp
  · intro mem w mem' st hw
    obtain ⟨x, mem₁, hx, hy⟩ := eval_comma hw
    exact runAsm_cons (hl.runs mem x mem₁ st hx) (runAsm_cons (hr.runs mem₁ w mem' st hy) rfl)

theorem correct_cond (hfl : fl.tx_have_proc_vars = false) {c : Expr s} {if_true if_false : Expr t}
    (hc : Correct p fl c) (ht : Correct p fl if_true) (hf : Correct p fl if_false) :
    Correct p fl (.cond c if_true if_false) := by
  intro context a at_ h
  refine implements_orConst (fun _ => rfl) h fun h => ?_
  obtain ⟨b, b_at, hb, h⟩ := bind_pair.1 h
  obtain ⟨b₁, left_at, hb₁, h⟩ := bind_pair.1 h
  obtain ⟨b₂, right_at, hb₂, h⟩ := bind_pair.1 h
  cases pure_some.1 h
  have hc := (hc _ _ _ hb).2 false rfl
  refine ⟨joinAddrtype_eq hfl _ _, fun is_address hasks => ?_⟩
  have ht := (ht _ _ _ hb₁).2 is_address hasks
  have hf := (hf _ _ _ hb₂).2 is_address hasks
  refine ⟨⟨hc.balanced, ⟨ht.balanced, hf.balanced, ht.effect.trans hf.effect.symm⟩, trivial⟩, ?_,
    fun mem w mem' st hw => ?_⟩
  · have hone : effect b = 1 := hc.effect
    rw [effect_code_cons, hone, effect_code_cons, effect, hf.effect, effect_code_nil]
    omega
  · cases is_address with
    | true => cases hw
    | false =>
      obtain ⟨x, mem₁, hx, hbranch⟩ := eval_cond hw
      refine runAsm_cons (hc.runs mem x mem₁ st hx)
        (runAsm_cons (r := ⟨mem', leave context w st⟩) ?_ rfl)
      obtain ⟨hne, hy⟩ | ⟨rfl, hy⟩ := hbranch
      · exact (if_neg hne).trans (ht.runs mem₁ w mem' st hy)
      · exact (if_pos rfl).trans (hf.runs mem₁ w mem' st hy)

/-! ### Calls -/

/-- The arguments are popped, and the value is pushed if it is asked for. -/
theorem effect_afterCall (t : Ty) (context : Context) (nargs : Nat) :
    Balanced (afterCall t context nargs) ∧
      effect (afterCall t context nargs) = -nargs + if context = .EC_VALUE then 1 else 0 := by
  unfold afterCall
  refine ⟨⟨?_, balanced_ifValue _ trivial, trivial⟩, ?_⟩
  · split <;> trivial
  · rw [effect_code_cons, effect_code_cons, effect_ifValue]
    simp only [effect_code_nil, effect_item, itemEffect, add_zero]
    congr 1
    split <;> rfl

/-- The guard of a call, which has no address and no value if it is void. -/
theorem of_guard {context : Context} {is_void : Bool} {rest : Compiled} {a : Asm} {at_ : AddrType}
    (h : (do
      if context = .EC_ADDRESS ∨ (context = .EC_VALUE ∧ is_void = true) then none
      rest) = some (a, at_)) : context ≠ .EC_ADDRESS ∧ rest = some (a, at_) := by
  split at h
  case isTrue => cases h
  case isFalse hn => exact ⟨fun hc => hn (.inl hc), h⟩

theorem block_call {context : Context} {a : Asm} {e : Expr t}
    (hnone : ∀ b mem, eval p e b mem = none) (hcontext : context ≠ .EC_ADDRESS)
    (hbalanced : Balanced a) (heffect : effect a = if context = .EC_VALUE then 1 else 0)
    (is_address : Bool) (_ : Asks context is_address) : Block p context a (Evals p e is_address) := by
  refine ⟨hbalanced, heffect.trans (effect_value_or hcontext 1), fun mem w mem' st hw => ?_⟩
  rw [Evals, hnone] at hw
  cases hw

/-- A call has no meaning here, but the compiler can tell the number of words behind it. -/
theorem correct_call (t : Ty) (is_void : Bool) (func_index : Word) {args : Tree .args}
    (hargs : Correct p fl args) : Correct p fl (.call t is_void func_index args) := by
  intro context a at_ hc
  obtain ⟨hcontext, hc⟩ := of_guard hc
  obtain ⟨b, b_at, hb, hc⟩ := bind_pair.1 hc
  cases pure_some.1 hc
  obtain ⟨-, hbalanced, heffect⟩ := hargs _ _ _ hb
  obtain ⟨hafter, hpops⟩ := effect_afterCall t context args.nargs
  have hcode : Balanced (code [b, .item (.call t is_void func_index args.nargs),
      afterCall t context args.nargs]) := ⟨hbalanced, trivial, hafter, trivial⟩
  refine ⟨rfl, block_call (fun b mem => ?_) hcontext hcode ?_⟩
  · cases b <;> rfl
  · simp only [effect_code_cons, effect_code_nil, effect_item, itemEffect, heffect, hpops]
    omega

theorem correct_callIndirect (t : Ty) (is_void : Bool) {func : Expr (.DT_PTR_TO n)}
    {args : Tree .args} (hfunc : Correct p fl func) (hargs : Correct p fl args) :
    Correct p fl (.callIndirect t is_void func args) := by
  intro context a at_ hc
  obtain ⟨hcontext, hc⟩ := of_guard hc
  obtain ⟨b, b_at, hb, hc⟩ := bind_pair.1 hc
  obtain ⟨b', func_at, hb', hc⟩ := bind_pair.1 hc
  cases pure_some.1 hc
  obtain ⟨-, hbalanced, heffect⟩ := hargs _ _ _ hb
  have hfunc := (hfunc _ _ _ hb').2 false rfl
  have hone : effect b' = 1 := hfunc.effect
  obtain ⟨hafter, hpops⟩ := effect_afterCall t context args.nargs
  have hcode : Balanced (code [b, b', .item (.callIndirect t is_void args.nargs),
      afterCall t context args.nargs]) :=
    ⟨hbalanced, hfunc.balanced, trivial, hafter, trivial⟩
  refine ⟨rfl, block_call (fun b mem => ?_) hcontext hcode ?_⟩
  · cases b <;> rfl
  · simp only [effect_code_cons, effect_code_nil, effect_item, itemEffect, heffect, hpops, hone]
    omega

theorem correct_noArgs : Correct p fl .noArgs := by
  intro context a at_ hc
  cases hc
  exact ⟨rfl, trivial, rfl⟩

theorem correct_arg {e : Expr t} {rest : Tree .args} (he : Correct p fl e)
    (hrest : Correct p fl rest) : Correct p fl (.arg e rest) := by
  intro context a at_ hc
  obtain ⟨b, b_at, hb, hc⟩ := bind_pair.1 hc
  obtain ⟨b', e_at, hb', hc⟩ := bind_pair.1 hc
  cases pure_some.1 hc
  obtain ⟨-, hbalanced, heffect⟩ := hrest _ _ _ hb
  have he := (he _ _ _ hb').2 false rfl
  have hone : effect b' = 1 := he.effect
  refine ⟨rfl, ⟨hbalanced, he.balanced, trivial⟩, ?_⟩
  rw [effect_code_cons, effect_code_cons, heffect, hone, effect_code_nil, Tree.nargs]
  omega

end

/-! ## Every expression -/

/-- The code of an expression that has a meaning computes it on the stack of words, in every
context. There are no variables of the debugged process. -/
theorem compiled_correct (p : Place) {fl : Flags} (hfl : fl.tx_have_proc_vars = false) {k : Kind}
    (e : Tree k) : Correct p fl e := by
  induction e with
  | intConst h ival => exact correct_intConst h ival
  | address n addr => exact correct_address n addr
  | var t v => exact correct_var hfl t v
  | deref t e ih => exact correct_deref hfl ih t
  | addressOf n e ih => exact correct_addressOf n ih
  | incDec op e ih => exact correct_incDec hfl op ih
  | logicalNot e ih => exact correct_logicalNot ih
  | unary op hs ht e ih => exact correct_unary op hs ht ih
  | convert t e ih => exact correct_convert hfl t ih
  | asPointer n e ih => exact correct_asPointer n ih
  | binary op h l r ihl ihr => exact correct_binary hfl op h ihl ihr
  | shift op ht hu l r ihl ihr => exact correct_shift hfl op ht hu ihl ihr
  | compare op h l r ihl ihr => exact correct_compare hfl op h ihl ihr
  | logical op l r ihl ihr => exact correct_logical op ihl ihr
  | ptrPlus op h l r ihl ihr => exact correct_ptrPlus hfl op h ihl ihr
  | plusPtr h l r ihl ihr => exact correct_plusPtr hfl h ihl ihr
  | assign l r ihl ihr => exact correct_assign ihl ihr
  | assignOp op hs ht l r ihl ihr => exact correct_assignOp op hs ht ihl ihr
  | assignShift op hs ht hu l r ihl ihr => exact correct_assignShift op hs ht hu ihl ihr
  | assignPtr op h l r ihl ihr => exact correct_assignPtr op h ihl ihr
  | comma l r ihl ihr => exact correct_comma ihl ihr
  | cond c a b ihc iha ihb => exact correct_cond hfl ihc iha ihb
  | call t is_void func_index args ih => exact correct_call t is_void func_index ih
  | callIndirect t is_void func args ihf iha => exact correct_callIndirect t is_void ihf iha
  | noArgs => exact correct_noArgs
  | arg e rest ihe ihr => exact correct_arg ihe ihr

end ups_rules.expr_blocks
