-- The usual arithmetic conversions of the type checker (ci_expr.c) against those of the language.
import Mathlib.Tactic.SplitIfs
import Mathlib.Tactic.Tauto

namespace ups_rules.arith_conversions

/-! ## The pure model -/

/-- The type codes (typecode_t) of types that an operand can have. -/
inductive TypeCode where
  | CHAR | UCHAR | SHORT | USHORT | INT | UINT | LONG | ULONG | LONGLONG | ULONGLONG
  | FLOAT | DOUBLE | BOOLEAN | ENUM | BITFIELD
  | VOID | STRUCT | UNION | PTR_TO | ARRAY_OF | FUNC_RETURNING
deriving DecidableEq

/-- `bitfield_t` -/
structure BitfieldType where
  bf_type : TypeCode
  bf_width : Nat
deriving DecidableEq

structure Typ where
  ty_code : TypeCode
  ty_bitfield : Option BitfieldType
deriving DecidableEq

inductive CvtOp where
  | CHAR | UCHAR | SHORT | USHORT | INT | UINT | LONG | ULONG | LONG_LONG | ULONG_LONG
  | FLOAT | DOUBLE | VOID | PTR
deriving DecidableEq

/-- An expression, as its type and the conversions that are pushed onto it, the last one at the end. -/
structure Expr where
  ex_type : Option Typ
  conversions : List CvtOp

/-- Nothing if it panics. -/
def ciCodeToType : TypeCode → Option Typ
  | .ENUM | .BITFIELD | .STRUCT | .UNION | .PTR_TO | .ARRAY_OF | .FUNC_RETURNING => none
  | typecode => some { ty_code := typecode, ty_bitfield := none }

/-- Nothing if it panics. -/
def ciTypecodeToCvtOp : TypeCode → Option CvtOp
  | .CHAR => some .CHAR
  | .UCHAR => some .UCHAR
  | .SHORT => some .SHORT
  | .USHORT => some .USHORT
  | .INT | .ENUM | .BOOLEAN => some .INT
  | .UINT => some .UINT
  | .LONG => some .LONG
  | .ULONG => some .ULONG
  | .LONGLONG => some .LONG_LONG
  | .ULONGLONG => some .ULONG_LONG
  | .FLOAT => some .FLOAT
  | .DOUBLE => some .DOUBLE
  | .VOID => some .VOID
  | .PTR_TO => some .PTR
  | _ => none

/-- `ci_push_conversion`; nothing if it panics or there is no type. -/
def ciPushConversion (expr : Expr) (typecode : TypeCode) : Option Expr := do
  let type ← expr.ex_type
  if type.ty_code = typecode then some expr
  else
    let type ← ciCodeToType typecode
    let op ← ciTypecodeToCvtOp typecode
    some { ex_type := some type, conversions := expr.conversions ++ [op] }

def ciIsIntegral : TypeCode → Bool
  | .CHAR | .UCHAR | .SHORT | .USHORT | .INT | .UINT | .LONG | .ULONG | .LONGLONG | .ULONGLONG
  | .BITFIELD | .BOOLEAN | .ENUM => true
  | _ => false

/-- `IS_ARITHMETIC_TYPE` -/
def isArithmeticType (code : TypeCode) : Bool :=
  ciIsIntegral code || code = .FLOAT || code = .DOUBLE

/-- Nothing if it panics. -/
def ciIsSignedType : TypeCode → Option Bool
  | .CHAR | .SHORT | .INT | .LONG | .LONGLONG | .ENUM | .FLOAT | .DOUBLE | .BOOLEAN => some true
  | .UCHAR | .USHORT | .UINT | .ULONG | .ULONGLONG | .PTR_TO | .ARRAY_OF => some false
  | _ => none

/-- Nothing if it panics. -/
def integerRank : TypeCode → Option Nat
  | .LONGLONG | .ULONGLONG => some 5
  | .LONG | .ULONG => some 4
  | .INT | .UINT | .ENUM => some 3
  | .SHORT | .USHORT => some 2
  | .CHAR | .UCHAR => some 1
  | _ => none

/-- Nothing if it panics. -/
def integerSize : TypeCode → Option Nat
  | .LONGLONG | .ULONGLONG => some 8
  | .LONG | .ULONG => some 8
  | .INT | .UINT | .ENUM => some 4
  | .SHORT | .USHORT => some 2
  | .CHAR | .UCHAR => some 1
  | _ => none

def canAccomodate (target source : TypeCode) : Option Bool := do
  let targetSigned ← ciIsSignedType target
  let sourceSigned ← ciIsSignedType source
  if targetSigned && !sourceSigned then
    return decide ((← integerSize target) > (← integerSize source))
  else if targetSigned == sourceSigned then
    return decide ((← integerSize target) ≥ (← integerSize source))
  else return false

/-- Nothing if it panics. -/
def toUnsigned : TypeCode → Option TypeCode
  | .LONGLONG => some .ULONGLONG
  | .LONG => some .ULONG
  | .INT => some .UINT
  | .SHORT => some .USHORT
  | .CHAR => some .UCHAR
  | _ => none

def ciDoIntegralPromotions (expr : Expr) : Option Expr :=
  match expr.ex_type with
  | none => some expr
  | some type =>
    match type.ty_code with
    | .BITFIELD => do ciPushConversion expr (← type.ty_bitfield).bf_type
    | .CHAR | .UCHAR | .BOOLEAN | .SHORT | .USHORT => ciPushConversion expr .INT
    | _ => some expr

/-- What is left of the conversions: the type of the result and the operands, and the complaints. -/
structure Converted where
  type : Option Typ
  left : Expr
  right : Expr
  messages : List String

/-- Both operands are converted. -/
def pushBoth (left right : Expr) (typecode : TypeCode) : Option Converted := do
  let left ← ciPushConversion left typecode
  let right ← ciPushConversion right typecode
  some { type := right.ex_type, left, right, messages := [] }

/-- What `do_usual_arithmetic_conversions` does behind the integral promotions. -/
def convertIntegers (left right : Expr) : Option Converted := do
  let leftcode := (← left.ex_type).ty_code
  let rightcode := (← right.ex_type).ty_code
  let unchanged : Converted := { type := left.ex_type, left, right, messages := [] }
  if leftcode = rightcode then some unchanged
  else
    let leftSigned ← ciIsSignedType leftcode
    let rightSigned ← ciIsSignedType rightcode
    let leftRank ← integerRank leftcode
    let rightRank ← integerRank rightcode
    if leftSigned == rightSigned then
      if leftRank > rightRank then pushBoth left right leftcode
      else if leftRank < rightRank then pushBoth left right rightcode
      else some unchanged
    else if !leftSigned && decide (leftRank ≥ rightRank) then pushBoth left right leftcode
    else if !rightSigned && decide (rightRank ≥ leftRank) then pushBoth left right rightcode
    else if leftSigned && (← canAccomodate leftcode rightcode) then pushBoth left right leftcode
    else if rightSigned && (← canAccomodate rightcode leftcode) then pushBoth left right rightcode
    else if rightSigned then pushBoth left right (← toUnsigned rightcode)
    else pushBoth left right (← toUnsigned leftcode)

/-- Whether the operand is bad, and the complaint. -/
def complainIfNotArithmetic (expr : Expr) (whichOperand opname : String) : Bool × List String :=
  match expr.ex_type with
  | none => (true, [])
  | some type =>
    if isArithmeticType type.ty_code then (false, [])
    else (true, [whichOperand ++ "operand of " ++ opname ++ " is not of arithmetic type"])

/-- Nothing if it panics. -/
def doUsualArithmeticConversions (left right : Expr) (opname : String) : Option Converted :=
  let (leftbad, leftMessages) := complainIfNotArithmetic left "Left " opname
  let (rightbad, rightMessages) := complainIfNotArithmetic right "Right " opname
  if leftbad || rightbad then
    some { type := none, left, right, messages := leftMessages ++ rightMessages }
  else do
    let leftcode := (← left.ex_type).ty_code
    let rightcode := (← right.ex_type).ty_code
    if leftcode = .DOUBLE ∨ rightcode = .DOUBLE then pushBoth left right .DOUBLE
    else if leftcode = .FLOAT ∨ rightcode = .FLOAT then pushBoth left right .FLOAT
    else convertIntegers (← ciDoIntegralPromotions left) (← ciDoIntegralPromotions right)

/-! ## The language -/

/-- The types that `check_bitfield_type` takes for a bitfield. -/
def bitfieldTypes : List TypeCode := [.INT, .UINT, .LONG, .ULONG, .SHORT, .USHORT, .CHAR, .UCHAR]

/-- The type of an arithmetic operand. -/
structure ArithType where
  type : Typ
  arithmetic : isArithmeticType type.ty_code = true
  bitfield : type.ty_code = .BITFIELD →
    ∃ bf ∈ bitfieldTypes, ∃ width, type.ty_bitfield = some { bf_type := bf, bf_width := width }

def isFloating (code : TypeCode) : Bool := code = .FLOAT || code = .DOUBLE

/-- The type that a value of a narrow type is promoted to: int if an int holds all the values of the
type, of which a bitfield has only those of its width. -/
def promotedType (type : Typ) : TypeCode :=
  match type.ty_code, type.ty_bitfield with
  | .CHAR, _ | .UCHAR, _ | .SHORT, _ | .USHORT, _ | .BOOLEAN, _ | .ENUM, _ => .INT
  | .BITFIELD, some { bf_type := .UINT, bf_width := width } => if width < 32 then .INT else .UINT
  | .BITFIELD, some { bf_type := .LONG, .. } => .LONG
  | .BITFIELD, some { bf_type := .ULONG, .. } => .ULONG
  | .BITFIELD, _ => .INT
  | code, _ => code

/-- The rank, the signedness and the size of the types that nothing is promoted from. -/
def cRank : TypeCode → Nat
  | .LONGLONG | .ULONGLONG => 3
  | .LONG | .ULONG => 2
  | _ => 1

def cUnsigned : TypeCode → Bool
  | .UINT | .ULONG | .ULONGLONG => true
  | _ => false

def cBits : TypeCode → Nat
  | .INT | .UINT => 32
  | _ => 64

def cToUnsigned : TypeCode → TypeCode
  | .INT => .UINT
  | .LONG => .ULONG
  | .LONGLONG => .ULONGLONG
  | code => code

/-- The common type of an unsigned type and a signed one. -/
def mixedType (unsigned signed : TypeCode) : TypeCode :=
  if cRank signed ≤ cRank unsigned then unsigned
  else if cBits unsigned < cBits signed then signed
  else cToUnsigned signed

/-- The common type of two promoted types. -/
def commonInteger (a b : TypeCode) : TypeCode :=
  if cUnsigned a = cUnsigned b then if cRank a < cRank b then b else a
  else if cUnsigned a then mixedType a b else mixedType b a

/-- The common real type of two operands. -/
def commonType (l r : Typ) : TypeCode :=
  if l.ty_code = .DOUBLE ∨ r.ty_code = .DOUBLE then .DOUBLE
  else if l.ty_code = .FLOAT ∨ r.ty_code = .FLOAT then .FLOAT
  else commonInteger (promotedType l) (promotedType r)

/-- An operand that nothing has been done with. -/
def ArithType.operand (t : ArithType) : Expr := { ex_type := some t.type, conversions := [] }

/-- Both operands and the result have the type. -/
def HasType (c : Converted) (code : TypeCode) : Prop :=
  c.type.map Typ.ty_code = some code ∧ c.left.ex_type.map Typ.ty_code = some code ∧
    c.right.ex_type.map Typ.ty_code = some code

/-- Both operands get the common type, whichever of them is the left one. -/
def Converts (l r : ArithType) (opname : String) : Prop :=
  (∃ c, doUsualArithmeticConversions l.operand r.operand opname = some c ∧
    HasType c (commonType l.type r.type)) ∧
  ∃ c, doUsualArithmeticConversions r.operand l.operand opname = some c ∧
    HasType c (commonType l.type r.type)

/-- An enum, or an unsigned bitfield whose values an int holds. -/
def keepsType (t : Typ) : Bool :=
  match t.ty_code, t.ty_bitfield with
  | .ENUM, _ => true
  | .BITFIELD, some { bf_type := .UINT, bf_width := width } => decide (width < 32)
  | _, _ => false

/-- A bitfield of a type that is narrower than an int. -/
def narrowBitfield (t : Typ) : Bool :=
  match t.ty_code, t.ty_bitfield with
  | .BITFIELD, some bf => decide (bf.bf_type ∈ [.SHORT, .USHORT, .CHAR, .UCHAR])
  | _, _ => false

/-- The operands of a type that is not int, and those of which at most one is a narrow bitfield and
none keeps a type of its own. -/
def Regular (l r : Typ) : Prop :=
  isFloating l.ty_code = true ∨ isFloating r.ty_code = true ∨
    promotedType l ≠ .INT ∨ promotedType r ≠ .INT ∨
    (keepsType l = false ∧ keepsType r = false ∧ ¬ (narrowBitfield l = true ∧ narrowBitfield r = true))

/-! ## Codes -/

/-- The type codes of a result and of the operands. -/
def codes (c : Converted) : Option TypeCode × Option TypeCode × Option TypeCode :=
  (c.type.map Typ.ty_code, c.left.ex_type.map Typ.ty_code, c.right.ex_type.map Typ.ty_code)

def plain (code : TypeCode) : Expr :=
  { ex_type := some { ty_code := code, ty_bitfield := none }, conversions := [] }

theorem hasType_iff (c : Converted) (code : TypeCode) :
    HasType c code ↔ codes c = (some code, some code, some code) := by
  simp [HasType, codes]

/-- What a conversion comes to only depends on the code that is there. -/
theorem pushConversion_code {expr : Expr} {type : Typ} (h : expr.ex_type = some type)
    (code : TypeCode) : (ciPushConversion expr code).map (fun e => e.ex_type.map Typ.ty_code) =
      if type.ty_code = code ∨ (ciTypecodeToCvtOp code).isSome ∧ (ciCodeToType code).isSome then
        some (some code) else none := by
  unfold ciPushConversion
  rw [h]
  by_cases hc : type.ty_code = code
  · simp [hc, h]
  · simp only [Option.bind_eq_bind, Option.bind_some, hc, if_false, false_or]
    cases code <;> rfl

theorem pushBoth_codes {left right : Expr} {tl tr : Typ} (hl : left.ex_type = some tl)
    (hr : right.ex_type = some tr) (code : TypeCode) : (pushBoth left right code).map codes =
      (pushBoth (plain tl.ty_code) (plain tr.ty_code) code).map codes := by
  have hone {expr : Expr} {type : Typ} (h : expr.ex_type = some type) :
      (ciPushConversion expr code).map (fun e => e.ex_type.map Typ.ty_code) =
        (ciPushConversion (plain type.ty_code) code).map (fun e => e.ex_type.map Typ.ty_code) :=
    have hplain : (plain type.ty_code).ex_type = some ⟨type.ty_code, none⟩ := rfl
    (pushConversion_code h code).trans (pushConversion_code hplain code).symm
  have hleft := hone hl
  have hright := hone hr
  unfold pushBoth
  cases h1 : ciPushConversion left code <;> cases h2 : ciPushConversion (plain tl.ty_code) code <;>
    cases h3 : ciPushConversion right code <;> cases h4 : ciPushConversion (plain tr.ty_code) code <;>
    simp_all [codes]

theorem convertIntegers_codes {left right : Expr} {tl tr : Typ} (hl : left.ex_type = some tl)
    (hr : right.ex_type = some tr) : (convertIntegers left right).map codes =
      (convertIntegers (plain tl.ty_code) (plain tr.ty_code)).map codes := by
  have hpush := pushBoth_codes hl hr
  have hunchanged : codes { type := left.ex_type, left, right, messages := [] } =
      codes { type := (plain tl.ty_code).ex_type, left := plain tl.ty_code,
              right := plain tr.ty_code, messages := [] } := by
    simp [codes, hl, hr, plain]
  -- the branches are chosen by the codes alone
  unfold convertIntegers
  simp only [hl, hr, Option.bind_eq_bind, Option.bind_some, apply_ite (Option.map codes),
    Option.map_bind, Function.comp_def, hpush, Option.map_some] at hunchanged ⊢
  rw [hunchanged]
  rfl

/-! ## Promotions -/

/-- The codes that an operand can have behind the promotions, each with the one it should have. -/
def promotions : List (TypeCode × TypeCode) :=
  [(.INT, .INT), (.UINT, .UINT), (.LONG, .LONG), (.ULONG, .ULONG), (.LONGLONG, .LONGLONG),
    (.ULONGLONG, .ULONGLONG), (.ENUM, .INT), (.UINT, .INT), (.SHORT, .INT), (.USHORT, .INT),
    (.CHAR, .INT), (.UCHAR, .INT)]

def keeps (p : TypeCode × TypeCode) : Bool := p ∈ [(TypeCode.ENUM, TypeCode.INT), (.UINT, .INT)]

def narrow (p : TypeCode × TypeCode) : Bool := p.1 ∈ [TypeCode.SHORT, .USHORT, .CHAR, .UCHAR]

/-- What is known of an operand behind the promotions. -/
structure Promoted (t : ArithType) (e : Expr) (p : TypeCode × TypeCode) : Prop where
  promoted : ciDoIntegralPromotions t.operand = some e
  type : ∃ type, e.ex_type = some type ∧ type.ty_code = p.1
  expected : promotedType t.type = p.2
  mem : p ∈ promotions
  keeps : keepsType t.type = keeps p
  narrow : narrowBitfield t.type = narrow p

theorem promote (t : ArithType) (h : isFloating t.type.ty_code = false) : ∃ e p, Promoted t e p := by
  obtain ⟨⟨code, bf⟩, harith, hbf⟩ := t
  cases code with
  | FLOAT | DOUBLE => cases h
  | VOID | STRUCT | UNION | PTR_TO | ARRAY_OF | FUNC_RETURNING => cases harith
  | CHAR | UCHAR | SHORT | USHORT | BOOLEAN =>
    exact ⟨_, (.INT, .INT), rfl, ⟨_, rfl, rfl⟩, rfl, by decide, rfl, rfl⟩
  | INT => exact ⟨_, (.INT, .INT), rfl, ⟨_, rfl, rfl⟩, rfl, by decide, rfl, rfl⟩
  | UINT => exact ⟨_, (.UINT, .UINT), rfl, ⟨_, rfl, rfl⟩, rfl, by decide, rfl, rfl⟩
  | LONG => exact ⟨_, (.LONG, .LONG), rfl, ⟨_, rfl, rfl⟩, rfl, by decide, rfl, rfl⟩
  | ULONG => exact ⟨_, (.ULONG, .ULONG), rfl, ⟨_, rfl, rfl⟩, rfl, by decide, rfl, rfl⟩
  | LONGLONG => exact ⟨_, (.LONGLONG, .LONGLONG), rfl, ⟨_, rfl, rfl⟩, rfl, by decide, rfl, rfl⟩
  | ULONGLONG => exact ⟨_, (.ULONGLONG, .ULONGLONG), rfl, ⟨_, rfl, rfl⟩, rfl, by decide, rfl, rfl⟩
  | ENUM => exact ⟨_, (.ENUM, .INT), rfl, ⟨_, rfl, rfl⟩, rfl, by decide, rfl, rfl⟩
  | BITFIELD =>
    obtain ⟨base, hbase, width, hwidth⟩ := hbf rfl
    obtain rfl : bf = some ⟨base, width⟩ := hwidth
    simp only [bitfieldTypes, List.mem_cons, List.not_mem_nil, or_false] at hbase
    rcases hbase with rfl | rfl | rfl | rfl | rfl | rfl | rfl | rfl
    · exact ⟨_, (.INT, .INT), rfl, ⟨_, rfl, rfl⟩, rfl, by decide, rfl, rfl⟩
    · by_cases hw : width < 32
      · refine ⟨_, (.UINT, .INT), rfl, ⟨_, rfl, rfl⟩, if_pos hw, by decide, ?_, rfl⟩
        simp [keepsType, keeps, hw]
      · refine ⟨_, (.UINT, .UINT), rfl, ⟨_, rfl, rfl⟩, if_neg hw, by decide, ?_, rfl⟩
        simp [keepsType, keeps, hw]
    · exact ⟨_, (.LONG, .LONG), rfl, ⟨_, rfl, rfl⟩, rfl, by decide, rfl, rfl⟩
    · exact ⟨_, (.ULONG, .ULONG), rfl, ⟨_, rfl, rfl⟩, rfl, by decide, rfl, rfl⟩
    · exact ⟨_, (.SHORT, .INT), rfl, ⟨_, rfl, rfl⟩, rfl, by decide, rfl, rfl⟩
    · exact ⟨_, (.USHORT, .INT), rfl, ⟨_, rfl, rfl⟩, rfl, by decide, rfl, rfl⟩
    · exact ⟨_, (.CHAR, .INT), rfl, ⟨_, rfl, rfl⟩, rfl, by decide, rfl, rfl⟩
    · exact ⟨_, (.UCHAR, .INT), rfl, ⟨_, rfl, rfl⟩, rfl, by decide, rfl, rfl⟩

/-- The code that both have behind the conversions, for all that can be behind the promotions. -/
def Agree (p q : TypeCode × TypeCode) : Prop :=
  (convertIntegers (plain p.1) (plain q.1)).map codes =
    some (some (commonInteger p.2 q.2), some (commonInteger p.2 q.2), some (commonInteger p.2 q.2))

instance (p q : TypeCode × TypeCode) : Decidable (Agree p q) :=
  inferInstanceAs (Decidable (_ = _))

theorem agree_iff : ∀ p ∈ promotions, ∀ q ∈ promotions,
    (Agree p q ↔ p.2 ≠ .INT ∨ q.2 ≠ .INT ∨
      (keeps p = false ∧ keeps q = false ∧ ¬ (narrow p = true ∧ narrow q = true))) := by
  decide +kernel

theorem agree_comm : ∀ p ∈ promotions, ∀ q ∈ promotions, Agree p q → Agree q p := by
  decide +kernel

theorem commonInteger_comm : ∀ p ∈ promotions, ∀ q ∈ promotions,
    commonInteger p.2 q.2 = commonInteger q.2 p.2 := by
  decide

/-! ## Main results -/

theorem no_complaint (t : ArithType) (whichOperand opname : String) :
    complainIfNotArithmetic t.operand whichOperand opname = (false, []) := by
  unfold complainIfNotArithmetic ArithType.operand
  exact if_pos t.arithmetic

theorem convert_eq (l r : ArithType) (opname : String) :
    doUsualArithmeticConversions l.operand r.operand opname =
      if l.type.ty_code = .DOUBLE ∨ r.type.ty_code = .DOUBLE then pushBoth l.operand r.operand .DOUBLE
      else if l.type.ty_code = .FLOAT ∨ r.type.ty_code = .FLOAT then
        pushBoth l.operand r.operand .FLOAT
      else (ciDoIntegralPromotions l.operand).bind fun left =>
        (ciDoIntegralPromotions r.operand).bind fun right => convertIntegers left right := by
  unfold doUsualArithmeticConversions
  rw [no_complaint, no_complaint]
  rfl

/-- A conversion to a type that has one. -/
theorem pushBoth_hasType (l r : ArithType) {code : TypeCode}
    (h : (ciTypecodeToCvtOp code).isSome = true ∧ (ciCodeToType code).isSome = true) :
    ∃ c, pushBoth l.operand r.operand code = some c ∧ HasType c code := by
  have hone (t : ArithType) : ∃ e, ciPushConversion t.operand code = some e ∧
      e.ex_type.map Typ.ty_code = some code := by
    have htype : t.operand.ex_type = some _ := rfl
    have hcode := pushConversion_code htype code
    rw [if_pos (.inr h)] at hcode
    exact Option.map_eq_some_iff.1 hcode
  obtain ⟨el, hel, hlcode⟩ := hone l
  obtain ⟨er, her, hrcode⟩ := hone r
  refine ⟨{ type := er.ex_type, left := el, right := er, messages := [] }, ?_, hrcode, hlcode, hrcode⟩
  rw [pushBoth, hel, her]
  rfl

/-- Where an operand is floating, the other one is converted to its type, or both to double. -/
theorem convert_floating {l r : ArithType}
    (h : isFloating l.type.ty_code = true ∨ isFloating r.type.ty_code = true) (opname : String) :
    ∃ c, doUsualArithmeticConversions l.operand r.operand opname = some c ∧
      HasType c (commonType l.type r.type) := by
  rw [convert_eq, commonType]
  split_ifs with hdouble hfloat
  · exact pushBoth_hasType l r (by decide)
  · exact pushBoth_hasType l r (by decide)
  · simp only [isFloating, Bool.or_eq_true, decide_eq_true_eq] at h
    tauto

/-- Otherwise the operands are promoted and converted as integers. -/
theorem convert_integers {l r : ArithType} (hl : isFloating l.type.ty_code = false)
    (hr : isFloating r.type.ty_code = false) {p q : TypeCode × TypeCode} {el er : Expr}
    (hp : Promoted l el p) (hq : Promoted r er q) (opname : String) :
    (∃ c, doUsualArithmeticConversions l.operand r.operand opname = some c ∧
      HasType c (commonInteger p.2 q.2)) ↔ Agree p q := by
  have hno : ¬ (l.type.ty_code = .DOUBLE ∨ r.type.ty_code = .DOUBLE) ∧
      ¬ (l.type.ty_code = .FLOAT ∨ r.type.ty_code = .FLOAT) := by
    simp only [isFloating, Bool.or_eq_false_iff, decide_eq_false_iff_not] at hl hr
    tauto
  obtain ⟨tl, htl, hlcode⟩ := hp.type
  obtain ⟨tr, htr, hrcode⟩ := hq.type
  have hcodes := convertIntegers_codes htl htr
  rw [hlcode, hrcode] at hcodes
  rw [convert_eq, if_neg hno.1, if_neg hno.2, hp.promoted, hq.promoted, Agree, ← hcodes]
  simp only [Option.bind_some, Option.map_eq_some_iff, hasType_iff]

/-- Both operands get the common type, in either order and without a panic, if and only if they are
regular. -/
theorem converts_iff_regular (l r : ArithType) (opname : String) :
    Converts l r opname ↔ Regular l.type r.type := by
  by_cases hf : isFloating l.type.ty_code = true ∨ isFloating r.type.ty_code = true
  · have hcomm : commonType l.type r.type = commonType r.type l.type := by
      unfold commonType
      simp only [isFloating, Bool.or_eq_true, decide_eq_true_eq] at hf
      split_ifs <;> tauto
    refine iff_of_true ⟨convert_floating hf opname, ?_⟩ ?_
    · rw [hcomm]
      exact convert_floating hf.symm opname
    · rcases hf with hl | hr
      · exact .inl hl
      · exact .inr (.inl hr)
  · have hl : isFloating l.type.ty_code = false := by simpa using fun h => hf (.inl h)
    have hr : isFloating r.type.ty_code = false := by simpa using fun h => hf (.inr h)
    obtain ⟨el, p, hp⟩ := promote l hl
    obtain ⟨er, q, hq⟩ := promote r hr
    have hcommon : commonType l.type r.type = commonInteger p.2 q.2 := by
      simp only [isFloating, Bool.or_eq_false_iff, decide_eq_false_iff_not] at hl hr
      rw [commonType, if_neg (by tauto), if_neg (by tauto), hp.expected, hq.expected]
    have hregular : Regular l.type r.type ↔ Agree p q := by
      unfold Regular
      rw [agree_iff p hp.mem q hq.mem, hl, hr, hp.expected, hq.expected, hp.keeps, hq.keeps,
        hp.narrow, hq.narrow]
      simp only [Bool.false_eq_true, false_or]
    unfold Converts
    rw [hregular, hcommon, convert_integers hl hr hp hq, commonInteger_comm p hp.mem q hq.mem,
      convert_integers hr hl hq hp]
    exact and_iff_left_of_imp (agree_comm p hp.mem q hq.mem)

/-- An enum and an int, in whichever order. -/
def enumType : ArithType where
  type := { ty_code := .ENUM, ty_bitfield := none }
  arithmetic := rfl
  bitfield := nofun

def intType : ArithType where
  type := { ty_code := .INT, ty_bitfield := none }
  arithmetic := rfl
  bitfield := nofun

theorem enum_and_int_not_converted :
    (doUsualArithmeticConversions enumType.operand intType.operand "+").map codes =
      some (some .ENUM, some .ENUM, some .INT) ∧
    (doUsualArithmeticConversions intType.operand enumType.operand "+").map codes =
      some (some .INT, some .INT, some .ENUM) ∧
    ¬ Converts enumType intType "+" := by
  refine ⟨rfl, rfl, ?_⟩
  rintro ⟨⟨c, hc, htype⟩, -⟩
  have hcodes : codes c = (some .ENUM, some .ENUM, some .INT) :=
    (Option.some.inj (congrArg (Option.map codes) hc)).symm
  simp only [hasType_iff, hcodes, Prod.mk.injEq, Option.some.injEq] at htype
  exact absurd (htype.2.1.trans htype.2.2.symm) (by decide)

end ups_rules.arith_conversions
