-- The initialisers of variables (ci_init.c): an initialiser list is taken apart along the type.
-- A list that is written without its inner braces is used up by several levels of the type.
import Mathlib.Tactic.Common

namespace ups_rules.initialisers

/-! ## The pure model -/

/-- The types that one expression initialises. -/
inductive Scalar where
  | TY_CHAR | TY_UCHAR | TY_SHORT | TY_USHORT | TY_INT | TY_UINT | TY_LONG | TY_ULONG
  | TY_LONGLONG | TY_ULONGLONG | TY_FLOAT | TY_DOUBLE | TY_ENUM | TY_BITFIELD | DT_PTR_TO
deriving DecidableEq

mutual
inductive Ty where
  | scalar (t : Scalar)
  /-- A struct, union or enum that is not defined yet. -/
  | incomplete
  /-- `di_high + 1` elements. -/
  | array (bound : Nat) (ty_base : Ty)
  | struct (ae_aggr_members : Members)
  | union (ae_aggr_members : Members)

/-- The members, of which bitfields may have no name. -/
inductive Members where
  | nil
  | cons (va_name : Option String) (va_type : Ty) (va_next : Members)
end

/-- The type of a variable. The bound of an outermost array may not be known. -/
inductive VarType where
  | known (t : Ty)
  | unknown (ty_base : Ty)

/-- An `initexpr_t` with those behind it; `nil` is a null pointer. -/
inductive InitExpr (α : Type) where
  | nil
  | expr (ie_expr : α) (ie_next : InitExpr α)
  | list (ie_list : InitExpr α) (ie_next : InitExpr α)

/-- What the rest of the compiler says of expressions. -/
structure Exprs (α : Type) where
  /-- `sc_size` of a string constant, which counts its NUL. -/
  sc_size : α → Option Nat
  /-- `ex_type != NULL`: no error was found in it. -/
  typed : α → Bool
  /-- `ci_do_assignment_conversions(type, expr) == 0` -/
  converts : Scalar → α → Bool
  /-- The expression is a constant or an address. -/
  isStatic : Scalar → α → Bool

inductive Initialiser (α : Type) where
  /-- For a local variable; `none` where `ie_expr` is read of a list. -/
  | IT_EXPR (in_expr : Option α)
  /-- The value or the address that an expression is, for a variable of this type. -/
  | static (t : Scalar) (e : α)
  | IT_STRINGBYTES (in_stringval : α)
  | IT_LIST (in_list : List (Initialiser α))

inductive What where
  | variable | structure_member | union_member | element_of_array
deriving DecidableEq

abbrev Name := Option String

inductive Diag where
  | cantInitialise (name : Name)
  | aggregateForScalar (what : What) (name : Name)
  | typeClash (what : What) (name : Name)
  | notConstant (what : What) (name : Name)
  | tooManyCharacters (count bound : Nat) (name : Name)
  | scalarForAggregate (name : Name)
  | excess (what : What) (name : Name)
deriving DecidableEq

/-- All but excess initialisers are an `ET_ERROR`. -/
def Diag.isError : Diag → Bool
  | .excess _ _ => false
  | _ => true

/-- What `make_initialiser` gives back. -/
structure Made (α : Type) where
  /-- `none` is a null pointer. -/
  init : Option (Initialiser α)
  excess : InitExpr α
  messages : List Diag

section
variable {α : Type} (ex : Exprs α) (is_local : Bool)

def InitExpr.next : InitExpr α → InitExpr α
  | .nil => .nil
  | .expr _ next => next
  | .list _ next => next

/-- `ie == NULL` -/
def InitExpr.isNil : InitExpr α → Bool
  | .nil => true
  | _ => false

/-- `ie->ie_is_list ? ie->ie_list : ie` -/
def InitExpr.opened : InitExpr α → InitExpr α
  | .list l _ => l
  | ie => ie

/-- `make_scalar_initialiser` from the test of the type of the expression on. -/
def scalarFrom (t : Scalar) (what : What) (name : Name) (e : α) (braced : Bool) :
    Option (Initialiser α) × List Diag :=
  if !ex.typed e then (none, [])
  else if !ex.converts t e then (none, [.typeClash what name])
  -- The expression of a local variable is read of the list again.
  else if is_local then (some (.IT_EXPR (if braced then none else some e)), [])
  else if ex.isStatic t e then (some (.static t e), [])
  else (none, [.notConstant what name])

/-- `none` where a null pointer is followed. -/
def makeScalarInitialiser (t : Scalar) (what : What) (name : Name) :
    InitExpr α → Option (Option (Initialiser α) × List Diag)
  | .nil | .list .nil _ => none
  | .expr e _ => some (scalarFrom ex is_local t what name e false)
  | .list (.expr e .nil) _ => some (scalarFrom ex is_local t what name e true)
  | .list _ _ => some (none, [.aggregateForScalar what name])

/-- The list that an aggregate is initialised from, and what is left behind it. -/
def inBraces (what : What) (name : Name) (make : InitExpr α → Option (Made α)) :
    InitExpr α → Option (Made α)
  | .nil => none
  | .expr e next => make (.expr e next)
  | .list l next => do
    let made ← make l
    let excess := if made.excess.isNil then [] else [.excess what name]
    pure ⟨made.init, next, made.messages ++ excess⟩

/-- What a loop over elements or members gives: a list without the null pointers in it. -/
structure Loop (α : Type) where
  inits : List (Initialiser α)
  count : Nat
  excess : InitExpr α
  messages : List Diag

def Loop.cons (made : Made α) (loop : Loop α) : Loop α :=
  { loop with
    inits := made.init.toList ++ loop.inits
    messages := made.messages ++ loop.messages }

/-- The loop of `make_array_initialiser`; `none` where it goes on for more than `n` turns. -/
def elements (make : InitExpr α → Option (Made α)) (bound : Option Nat) :
    Nat → Nat → InitExpr α → Option (Loop α)
  | _, count, .nil => some ⟨[], count, .nil, []⟩
  | 0, count, ie => if bound = some count then some ⟨[], count, ie, []⟩ else none
  | n + 1, count, ie =>
    if bound = some count then some ⟨[], count, ie, []⟩
    else do
      let made ← make ie
      let loop ← elements make bound n (count + 1) made.excess
      pure (loop.cons made)

def Loop.made (loop : Loop α) : Made α := ⟨some (.IT_LIST loop.inits), loop.excess, loop.messages⟩

/-- `make_array_initialiser`, with the number of elements that it counts. -/
def makeArrayInitialiser (n : Nat) (bound : Option Nat) (ty_base : Ty) (name : Name)
    (make : InitExpr α → Option (Made α)) (ie : InitExpr α) : Option (Made α × Nat) :=
  let loop := (elements make bound n 0 ie).map fun loop => (loop.made, loop.count)
  match ie, ty_base with
  | .nil, _ => none
  | .expr e next, .scalar .TY_CHAR =>
    match ex.sc_size e with
    | none => loop
    | some count =>
      match bound with
      | none => some (⟨some (.IT_STRINGBYTES e), next, []⟩, count)
      | some bound =>
        if bound < count then some (⟨none, next, [.tooManyCharacters count bound name]⟩, count)
        else some (⟨some (.IT_STRINGBYTES e), next, []⟩, count)
  | _, _ => loop

mutual
/-- `make_initialiser`; `n` bounds the turns of each loop over elements. -/
def makeInitialiser (n : Nat) : Ty → What → Name → InitExpr α → Option (Made α)
  | .incomplete, _, name, ie =>
    -- `*p_excess` is not set, and the cursor of the caller stays.
    some ⟨none, ie, [.cantInitialise name]⟩
  | .scalar t, what, name, ie =>
    (makeScalarInitialiser ex is_local t what name ie).map fun (init, messages) =>
      ⟨init, ie.next, messages⟩
  | .array bound ty_base, what, name, ie =>
    inBraces what name (fun list => (makeArrayInitialiser ex n (some bound) ty_base name
      (fun ie => makeInitialiser n ty_base .element_of_array name ie) list).map Prod.fst) ie
  | .struct members, what, name, ie =>
    inBraces what name
      (fun list => (memberInitialisers n members .structure_member list).map Loop.made) ie
  | .union members, what, name, ie =>
    inBraces what name (fun list => (firstInitialiser n members list).map Loop.made) ie

/-- The loop of `make_struct_or_union_initialiser`. -/
def memberInitialisers (n : Nat) : Members → What → InitExpr α → Option (Loop α)
  | .nil, _, ie => some ⟨[], 0, ie, []⟩
  | .cons name t rest, what, ie => do
    let made ← makeInitialiser n t what name ie
    let loop ← if made.excess.isNil then some ⟨[], 0, .nil, []⟩
      else memberInitialisers n rest what made.excess
    pure (loop.cons made)

/-- The same for a union, which ends with the first turn. -/
def firstInitialiser (n : Nat) : Members → InitExpr α → Option (Loop α)
  | .nil, ie => some ⟨[], 0, ie, []⟩
  | .cons name t _, ie => do
    let made ← makeInitialiser n t .union_member name ie
    pure (Loop.cons made ⟨[], 0, made.excess, []⟩)
end

/-- The same for an array of unknown bound, which gets the number of elements for it. -/
def makeUnknownArray (n : Nat) (ty_base : Ty) (name : Name) (ie : InitExpr α) :
    Option (Made α × VarType) := do
  let array := makeArrayInitialiser ex n none ty_base name
    (fun ie => makeInitialiser ex is_local n ty_base .element_of_array name ie)
  let made ← inBraces .variable name (fun list => (array list).map Prod.fst) ie
  let (_, count) ← array ie.opened
  pure (made, .known (.array count ty_base))

/-- `ci_make_var_initialiser`, with the type that the variable has then. -/
def ciMakeVarInitialiser (n : Nat) (t : VarType) (name : Name) (ie : InitExpr α) :
    Option (Made α × VarType) :=
  let refused := some (⟨none, ie, [.scalarForAggregate name]⟩, t)
  let make := match t with
    | .known type => (makeInitialiser ex is_local n type .variable name ie).map fun made =>
        (made, t)
    | .unknown ty_base => makeUnknownArray ex is_local n ty_base name ie
  match t, ie with
  | .known (.struct _), .expr _ _ | .known (.union _), .expr _ _ => refused
  | .known (.array _ _), .expr e _ | .unknown _, .expr e _ =>
    if (ex.sc_size e).isNone then refused else make
  | _, _ => make
end

/-! ## Types and lists as they should be -/

mutual
/-- A type that has a size. -/
def Ty.Object : Ty → Prop
  | .scalar _ => True
  | .incomplete => False
  | .array bound ty_base => 0 < bound ∧ ty_base.Object
  | .struct members | .union members => members ≠ .nil ∧ members.Objects

def Members.Objects : Members → Prop
  | .nil => True
  | .cons _ t rest => t.Object ∧ rest.Objects
end

mutual
/-- There are no bitfields without a name. -/
def Ty.Named : Ty → Prop
  | .scalar _ | .incomplete => True
  | .array _ ty_base => ty_base.Named
  | .struct members | .union members => members.Named

def Members.Named : Members → Prop
  | .nil => True
  | .cons name t rest => name ≠ none ∧ t.Named ∧ rest.Named
end

def VarType.Object : VarType → Prop
  | .known t | .unknown t => t.Object

def VarType.Named : VarType → Prop
  | .known t | .unknown t => t.Named

/-- The number of nodes. -/
def InitExpr.size {α : Type} : InitExpr α → Nat
  | .nil => 0
  | .expr _ next => next.size + 1
  | .list l next => l.size + next.size + 1

/-- No list is empty, and no error was found in an expression. -/
def InitExpr.Parsed {α : Type} (ex : Exprs α) : InitExpr α → Prop
  | .nil => True
  | .expr e next => ex.typed e = true ∧ next.Parsed ex
  | .list l next => l ≠ .nil ∧ l.Parsed ex ∧ next.Parsed ex

/-! ## The rules of C -/

/-- The way from an object to one of its subobjects, by the numbers of elements and members. -/
abbrev Path := List Nat

/-- Subobjects with the expressions that initialise them. -/
abbrev Assigned (α : Type) := List (Path × α)

/-- From the list that is left: what is initialised, the list that is left then, and how many lists
in braces had too many initialisers. -/
abbrev Rule (α : Type) := InitExpr α → Assigned α → InitExpr α → Nat → Prop

section
variable {α : Type}

/-- The subobjects of the element or member `i`. -/
def under (i : Nat) (ps : Assigned α) : Assigned α := ps.map fun p => (i :: p.1, p.2)

/-- A list in braces is for the aggregate alone; without braces only enough is taken. -/
inductive Braces (R : Rule α) : Rule α
  | elided (e : α) {next rest ps k} : R (.expr e next) ps rest k →
    Braces R (.expr e next) ps rest k
  | all {l ps k} (next) : R l ps .nil k → Braces R (.list l next) ps next k
  | excess {l ps rest k} (next) : R l ps rest k → rest ≠ .nil →
    Braces R (.list l next) ps next (k + 1)

/-- The elements from `i` on. -/
inductive Elements (bound : Option Nat) (R : Rule α) : Nat → Rule α
  | done (i) : Elements bound R i .nil [] .nil 0
  | full {i} (l) : bound = some i → Elements bound R i l [] l 0
  | next {i l ps mid k ps' rest k'} : l ≠ .nil → bound ≠ some i → R l ps mid k →
    Elements bound R (i + 1) mid ps' rest k' →
    Elements bound R i l (under i ps ++ ps') rest (k + k')

/-- The member `i`, and those behind it unless the list is used up. -/
inductive Member (i : Nat) (R S : Rule α) : Rule α
  | last {l ps k} : R l ps .nil k → Member i R S l (under i ps) .nil k
  | next {l ps mid k ps' rest k'} : R l ps mid k → mid ≠ .nil → S mid ps' rest k' →
    Member i R S l (under i ps ++ ps') rest (k + k')

/-- Nothing is initialised. -/
inductive Nothing : Rule α
  | intro (l) : Nothing l [] l 0

variable (ex : Exprs α) (is_local : Bool)

/-- The string constant that a list begins with, if it is for an array of `ty_base`. -/
def stringFor (ty_base : Ty) : InitExpr α → Option Nat
  | .expr e _ =>
    match ty_base with
    | .scalar .TY_CHAR => ex.sc_size e
    | _ => none
  | _ => none

/-- A string of `count` characters is not longer than an array of a known bound. -/
def Fits (bound : Option Nat) (count : Nat) : Prop := ∀ b, bound = some b → count ≤ b

/-- An array of characters may be initialised by a string that fits. -/
inductive ArrayOf (bound : Option Nat) (ty_base : Ty) (R : Rule α) : Rule α
  | string {e next size} : stringFor ex ty_base (.expr e next) = some size →
    Fits bound size → ArrayOf bound ty_base R (.expr e next) [([], e)] next 0
  | elements {l ps rest k} : stringFor ex ty_base l = none → Elements bound R 0 l ps rest k →
    ArrayOf bound ty_base R l ps rest k

/-- An expression may initialise an object of this type. -/
def Accepts (t : Scalar) (e : α) : Prop :=
  ex.converts t e = true ∧ (is_local = true ∨ ex.isStatic t e = true)

/-- One expression; that in braces is left out for a local variable. -/
inductive One (t : Scalar) : Rule α
  | plain {e} (next) : Accepts ex is_local t e → One t (.expr e next) [([], e)] next 0
  | braced {e} (next) : is_local = false → Accepts ex is_local t e →
    One t (.list (.expr e .nil) next) [([], e)] next 0

mutual
def Initialises : Ty → Rule α
  | .scalar t => One ex is_local t
  | .incomplete => fun _ _ _ _ => False
  | .array bound ty_base => Braces (ArrayOf ex (some bound) ty_base (Initialises ty_base))
  | .struct members => Braces (InitialisesMembers members 0)
  | .union members => Braces (InitialisesFirst members 0)

/-- The members from `i` on; those without a name are passed over. -/
def InitialisesMembers : Members → Nat → Rule α
  | .nil, _ => Nothing
  | .cons none _ rest, i => InitialisesMembers rest (i + 1)
  | .cons (some _) t rest, i => Member i (Initialises t) (InitialisesMembers rest (i + 1))

def InitialisesFirst : Members → Nat → Rule α
  | .nil, _ => Nothing
  | .cons none _ rest, i => InitialisesFirst rest (i + 1)
  | .cons (some _) t _, i => Member i (Initialises t) Nothing
end

/-- An aggregate variable has a list in braces, or a string. -/
def InitialisesVar : VarType → Rule α
  | .unknown ty_base => Braces (ArrayOf ex none ty_base (Initialises ex is_local ty_base))
  | .known t => Initialises ex is_local t
end

/-! ## What the code records -/

mutual
def Initialiser.assigned {α : Type} : Initialiser α → Assigned α
  | .IT_EXPR none => []
  | .IT_EXPR (some e) | .static _ e | .IT_STRINGBYTES e => [([], e)]
  | .IT_LIST l => assignedFrom 0 l

/-- The initialisers of a list are for the elements or members from `i` on. -/
def assignedFrom {α : Type} : Nat → List (Initialiser α) → Assigned α
  | _, [] => []
  | i, init :: rest => under i init.assigned ++ assignedFrom (i + 1) rest
end

mutual
/-- No list was recorded for an expression. -/
def Initialiser.Sound {α : Type} : Initialiser α → Prop
  | .IT_EXPR none => False
  | .IT_EXPR (some _) | .static _ _ | .IT_STRINGBYTES _ => True
  | .IT_LIST l => AllSound l

def AllSound {α : Type} : List (Initialiser α) → Prop
  | [] => True
  | init :: rest => init.Sound ∧ AllSound rest
end

section
variable {α : Type}

def NoErrors (messages : List Diag) : Prop := ∀ d ∈ messages, d.isError = false

/-- There were no errors, and what was recorded is what a rule says. -/
def Made.Agrees (made : Made α) (ps : Assigned α) (rest : InitExpr α) (k : Nat) : Prop :=
  NoErrors made.messages ∧ (∃ init, made.init = some init ∧ init.Sound ∧ init.assigned = ps) ∧
    made.excess = rest ∧ made.messages.length = k

/-- The same of a loop that began with the element or member `i`. -/
def Loop.Agrees (loop : Loop α) (i : Nat) (ps : Assigned α) (rest : InitExpr α) (k : Nat) : Prop :=
  NoErrors loop.messages ∧ AllSound loop.inits ∧ assignedFrom i loop.inits = ps ∧
    loop.excess = rest ∧ loop.messages.length = k

/-- A null pointer comes with an error. -/
def Made.Explained (made : Made α) : Prop := made.init = none → ¬ NoErrors made.messages

theorem noErrors_append (xs ys : List Diag) :
    NoErrors (xs ++ ys) ↔ NoErrors xs ∧ NoErrors ys := by
  simp [NoErrors, or_imp, forall_and]

theorem made_agrees (loop : Loop α) (ps : Assigned α) (rest : InitExpr α) (k : Nat) :
    loop.made.Agrees ps rest k ↔ loop.Agrees 0 ps rest k := by
  simp [Made.Agrees, Loop.Agrees, Loop.made, Initialiser.Sound, Initialiser.assigned, and_assoc]

theorem made_explained (loop : Loop α) : loop.made.Explained := by
  simp [Made.Explained, Loop.made]

/-- A loop says what its first turn says and then what the others say. -/
theorem cons_agrees (made : Made α) (hmade : made.Explained) (loop : Loop α) (i : Nat)
    (ps : Assigned α) (rest : InitExpr α) (k : Nat) :
    (Loop.cons made loop).Agrees i ps rest k ↔
      ∃ ps₁ k₁ ps₂ k₂, made.Agrees ps₁ made.excess k₁ ∧ loop.Agrees (i + 1) ps₂ rest k₂ ∧
        ps = under i ps₁ ++ ps₂ ∧ k = k₁ + k₂ := by
  simp only [Loop.Agrees, Made.Agrees, Loop.cons, noErrors_append, List.length_append, true_and]
  constructor
  · rintro ⟨⟨hno, hno'⟩, hsound, hps, hrest, hk⟩
    cases hinit : made.init with
    | none => exact absurd hno (hmade hinit)
    | some init =>
      simp only [hinit, Option.toList_some, List.singleton_append, AllSound, assignedFrom]
        at hsound hps
      exact ⟨_, _, _, _, ⟨hno, ⟨init, rfl, hsound.1, rfl⟩, rfl⟩,
        ⟨hno', hsound.2, rfl, hrest, rfl⟩, hps.symm, hk.symm⟩
  · rintro ⟨ps₁, k₁, ps₂, k₂, ⟨hno, ⟨init, hinit, hsound, hps₁⟩, hk₁⟩,
      ⟨hno', hsound', hps₂, hrest, hk₂⟩, rfl, rfl⟩
    simp only [hinit, Option.toList_some, List.singleton_append, AllSound, assignedFrom, hps₁,
      hps₂, hk₁, hk₂]
    exact ⟨⟨hno, hno'⟩, ⟨hsound, hsound'⟩, trivial, hrest, trivial⟩

/-- The code comes to an end on all lists, uses up a part of them, and does what the rule says. -/
def Follows (ex : Exprs α) (n : Nat) (make : InitExpr α → Option (Made α)) (R : Rule α) : Prop :=
  ∀ ie : InitExpr α, ie ≠ .nil → ie.Parsed ex → ie.size ≤ n →
    ∃ made, make ie = some made ∧ made.excess.size < ie.size ∧ made.excess.Parsed ex ∧
      made.Explained ∧ ∀ ps rest k, R ie ps rest k ↔ made.Agrees ps rest k
end

/-! ## One level of a type -/

section
variable {α : Type} (ex : Exprs α) (is_local : Bool) (n : Nat)

theorem scalarFrom_agrees (t : Scalar) (what : What) (name : Name) (e : α) (braced : Bool)
    (htyped : ex.typed e = true) (next : InitExpr α) (ps : Assigned α) (rest : InitExpr α)
    (k : Nat) :
    (Made.mk (scalarFrom ex is_local t what name e braced).1 next
        (scalarFrom ex is_local t what name e braced).2).Agrees ps rest k ↔
      Accepts ex is_local t e ∧ ¬ (is_local = true ∧ braced = true) ∧ [([], e)] = ps ∧
        next = rest ∧ 0 = k := by
  cases hconverts : ex.converts t e with
  | false =>
    simp [scalarFrom, htyped, hconverts, Made.Agrees, Accepts]
  | true =>
    cases is_local with
    | true =>
      cases braced <;>
        simp [scalarFrom, htyped, hconverts, Made.Agrees, Accepts, NoErrors, Initialiser.Sound,
          Initialiser.assigned]
    | false =>
      cases hstatic : ex.isStatic t e <;>
        simp [scalarFrom, htyped, hconverts, hstatic, Made.Agrees, Accepts, NoErrors,
          Initialiser.Sound, Initialiser.assigned]

theorem scalarFrom_explained (t : Scalar) (what : What) (name : Name) (e : α) (braced : Bool)
    (htyped : ex.typed e = true) (next : InitExpr α) :
    (Made.mk (scalarFrom ex is_local t what name e braced).1 next
      (scalarFrom ex is_local t what name e braced).2).Explained := by
  cases hconverts : ex.converts t e <;> cases is_local <;> cases hstatic : ex.isStatic t e <;>
    simp [scalarFrom, htyped, hconverts, hstatic, Made.Explained, NoErrors, Diag.isError]

theorem follows_scalar (t : Scalar) (what : What) (name : Name) :
    Follows ex n (makeInitialiser ex is_local n (.scalar t) what name) (One ex is_local t) := by
  intro ie hne hparsed _
  cases ie with
  | nil => simp at hne
  | expr e next =>
    simp only [InitExpr.Parsed] at hparsed
    refine ⟨⟨_, next, _⟩, by rw [makeInitialiser]; rfl, by simp [InitExpr.size], hparsed.2,
      scalarFrom_explained ex is_local t what name e false hparsed.1 next, ?_⟩
    intro ps rest k
    rw [scalarFrom_agrees ex is_local t what name e false hparsed.1]
    constructor
    · rintro ⟨_, h⟩
      simp [h]
    · rintro ⟨h, -, rfl, rfl, rfl⟩
      exact .plain _ h
  | list l next =>
    simp only [InitExpr.Parsed] at hparsed
    by_cases hone : ∃ e, l = .expr e .nil
    · obtain ⟨e, rfl⟩ := hone
      simp only [InitExpr.Parsed, and_true] at hparsed
      refine ⟨⟨_, next, _⟩, by rw [makeInitialiser]; rfl, by simp only [InitExpr.size]; omega,
        hparsed.2.2, scalarFrom_explained ex is_local t what name e true hparsed.2.1 next, ?_⟩
      intro ps rest k
      rw [scalarFrom_agrees ex is_local t what name e true hparsed.2.1]
      constructor
      · rintro ⟨⟩
        simp_all
      · rintro ⟨h, hlocal, rfl, rfl, rfl⟩
        exact .braced _ (by simpa using hlocal) h
    · -- More than one initialiser, or one in more braces.
      refine ⟨⟨none, next, [.aggregateForScalar what name]⟩, ?_, by simp only [InitExpr.size]; omega,
        hparsed.2.2, by simp [Made.Explained, NoErrors, Diag.isError], ?_⟩
      · rw [makeInitialiser]
        cases l with
        | nil => simp at hparsed
        | expr e l' =>
          cases l' with
          | nil => exact absurd ⟨e, rfl⟩ hone
          | expr | list => rfl
        | list => rfl
      · intro ps rest k
        constructor
        · rintro ⟨⟩
          exact absurd ⟨_, rfl⟩ hone
        · simp [Made.Agrees]

/-- What is made of a list in braces is the list's, up to the message about the excess. -/
theorem inBraces_agrees {make : InitExpr α → Option (Made α)} {R : Rule α} (what : What)
    (name : Name) (ie : InitExpr α) (hne : ie ≠ .nil) (made : Made α)
    (hmake : make ie.opened = some made)
    (hagree : ∀ ps rest k, R ie.opened ps rest k ↔ made.Agrees ps rest k) :
    ∃ made', inBraces what name make ie = some made' ∧ made'.init = made.init ∧
      (NoErrors made'.messages → NoErrors made.messages) ∧
      (made'.excess = match ie with
        | .list _ next => next
        | _ => made.excess) ∧
      ∀ ps rest k, Braces R ie ps rest k ↔ made'.Agrees ps rest k := by
  cases ie with
  | nil => simp at hne
  | expr e next =>
    refine ⟨made, hmake, rfl, id, rfl, ?_⟩
    intro ps rest k
    rw [← hagree]
    constructor
    · intro hbraces
      cases hbraces with
      | elided _ h => exact h
    · exact .elided e
  | list l next =>
    simp only [InitExpr.opened] at hmake hagree
    simp only [inBraces, hmake, Option.bind_eq_bind, Option.bind_some, Option.pure_def,
      Option.some.injEq, exists_eq_left', true_and]
    refine ⟨fun hno => ((noErrors_append _ _).mp hno).1, ?_⟩
    intro ps rest k
    have hR : ∀ {ps rest k}, R l ps rest k → made.excess = rest := fun h =>
      ((hagree _ _ _).mp h).2.2.1
    by_cases hexcess : made.excess = .nil
    · have hnil : made.excess.isNil = true := by rw [hexcess]; rfl
      simp only [hnil, if_true, List.append_nil]
      constructor
      · intro hbraces
        cases hbraces with
        | all _ h =>
          obtain ⟨hno, hinit, -, hk⟩ := (hagree _ _ _).mp h
          exact ⟨hno, hinit, rfl, hk⟩
        | excess _ h hrest => exact absurd ((hR h).symm.trans hexcess) hrest
      · rintro ⟨hno, hinit, rfl, hk⟩
        exact .all next ((hagree _ _ _).mpr ⟨hno, hinit, hexcess, hk⟩)
    · have hnil : made.excess.isNil = false := by
        cases hmade : made.excess <;> simp_all [InitExpr.isNil]
      simp only [hnil, Bool.false_eq_true, if_false]
      constructor
      · intro hbraces
        cases hbraces with
        | all _ h => exact absurd (hR h) hexcess
        | excess _ h hrest =>
          obtain ⟨hno, hinit, -, hk⟩ := (hagree _ _ _).mp h
          refine ⟨?_, hinit, rfl, by simp [hk]⟩
          exact (noErrors_append _ _).mpr ⟨hno, by simp [NoErrors, Diag.isError]⟩
      · rintro ⟨hno, hinit, rfl, hk⟩
        simp only [List.length_append, List.length_singleton] at hk
        subst hk
        exact .excess next ((hagree _ _ _).mpr
          ⟨((noErrors_append _ _).mp hno).1, hinit, rfl, rfl⟩) hexcess

theorem opened_spec (ie : InitExpr α) (hne : ie ≠ .nil) (hparsed : ie.Parsed ex) :
    ie.opened ≠ .nil ∧ ie.opened.Parsed ex ∧ ie.opened.size ≤ ie.size := by
  cases ie with
  | nil => simp at hne
  | expr e next => exact ⟨hne, hparsed, Nat.le_refl _⟩
  | list l next =>
    simp only [InitExpr.Parsed] at hparsed
    exact ⟨hparsed.1, hparsed.2.1, by simp only [InitExpr.opened, InitExpr.size]; omega⟩

theorem inBraces_follows {make : InitExpr α → Option (Made α)} {R : Rule α}
    (h : Follows ex n make R) (what : What) (name : Name) :
    Follows ex n (inBraces what name make) (Braces R) := by
  intro ie hne hparsed hsize
  obtain ⟨hne', hparsed', hsize'⟩ := opened_spec ex ie hne hparsed
  obtain ⟨made, hmake, hless, hleft, hexplained, hagree⟩ :=
    h ie.opened hne' hparsed' (by omega)
  obtain ⟨made', hmake', hinit, hno, hexcess, hagree'⟩ :=
    inBraces_agrees what name ie hne made hmake hagree
  refine ⟨made', hmake', ?_, ?_, ?_, hagree'⟩
  · cases ie with
    | nil => simp at hne
    | expr e next => rwa [hexcess]
    | list l next =>
      simp only [hexcess, InitExpr.size]
      omega
  · cases ie with
    | nil => simp at hne
    | expr e next => rwa [hexcess]
    | list l next =>
      simp only [InitExpr.Parsed] at hparsed
      rw [hexcess]
      exact hparsed.2.2
  · intro hnone hno'
    exact hexplained (hinit.symm.trans hnone) (hno hno')
end

/-! ## Loops over elements and members -/

section
variable {α : Type} (ex : Exprs α) (is_local : Bool) (n : Nat)

/-- A loop over no elements. -/
theorem elements_stop (bound : Option Nat) (R : Rule α) (i : Nat) (ie : InitExpr α)
    (h : ie = .nil ∨ bound = some i) (ps : Assigned α) (rest : InitExpr α) (k : Nat) :
    Elements bound R i ie ps rest k ↔ (Loop.mk [] i ie []).Agrees i ps rest k := by
  constructor
  · intro he
    cases he with
    | done | full => simp [Loop.Agrees, NoErrors, AllSound, assignedFrom]
    | next hne hbound => exact absurd h (by simp [hne, hbound])
  · rintro ⟨-, -, rfl, rfl, rfl⟩
    rcases h with rfl | h
    · exact .done i
    · exact .full ie h

/-- The loop over the elements from `i` on: it ends, and does what the rule says. -/
theorem elements_follows {make : InitExpr α → Option (Made α)} {R : Rule α}
    (h : Follows ex n make R) (bound : Option Nat) (m i : Nat) (ie : InitExpr α)
    (hparsed : ie.Parsed ex) (hsize : ie.size ≤ m) (hm : m ≤ n) :
    ∃ loop, elements make bound m i ie = some loop ∧ loop.excess.size ≤ ie.size ∧
      (ie ≠ .nil → bound ≠ some i → loop.excess.size < ie.size) ∧ loop.excess.Parsed ex ∧
      (NoErrors loop.messages → loop.count = i + loop.inits.length) ∧
      ∀ ps rest k, Elements bound R i ie ps rest k ↔ loop.Agrees i ps rest k := by
  induction m generalizing i ie with
  | zero =>
    have hnil : ie = .nil := by cases ie <;> simp_all [InitExpr.size]
    subst hnil
    exact ⟨⟨[], i, .nil, []⟩, rfl, by simp, by simp, hparsed, by simp,
      elements_stop bound R i _ (Or.inl rfl)⟩
  | succ m ih =>
    by_cases hne : ie = .nil
    · subst hne
      exact ⟨⟨[], i, .nil, []⟩, rfl, by simp, by simp, hparsed, by simp,
        elements_stop bound R i _ (Or.inl rfl)⟩
    have hturn : elements make bound (m + 1) i ie =
        if bound = some i then some ⟨[], i, ie, []⟩
        else (make ie).bind fun made =>
          (elements make bound m (i + 1) made.excess).bind fun loop => some (loop.cons made) := by
      cases ie with
      | nil => simp at hne
      | expr | list => rfl
    by_cases hbound : bound = some i
    · refine ⟨⟨[], i, ie, []⟩, by rw [hturn, if_pos hbound], by simp, by simp [hbound], hparsed,
        by simp, elements_stop bound R i ie (Or.inr hbound)⟩
    obtain ⟨made, hmake, hless, hleft, hexplained, hagree⟩ := h ie hne hparsed (by omega)
    obtain ⟨loop, hloop, hle, -, hleft', hcount, hagree'⟩ :=
      ih (i + 1) made.excess hleft (by omega) (by omega)
    refine ⟨loop.cons made, ?_, ?_, ?_, hleft', ?_, ?_⟩
    · simp [hturn, hbound, hmake, hloop]
    · simp only [Loop.cons]
      omega
    · intro _ _
      simp only [Loop.cons]
      omega
    · intro hno
      simp only [Loop.cons, noErrors_append] at hno ⊢
      have := hcount hno.2
      cases hinit : made.init with
      | none => exact absurd hno.1 (hexplained hinit)
      | some init =>
        simp
        omega
    · intro ps rest k
      rw [cons_agrees made hexplained]
      constructor
      · intro he
        cases he with
        | done => simp at hne
        | full _ h => exact absurd h hbound
        | next _ _ hR hrest =>
          have hmade := (hagree _ _ _).mp hR
          have hmid := hmade.2.2.1
          subst hmid
          exact ⟨_, _, _, _, hmade, (hagree' _ _ _).mp hrest, rfl, rfl⟩
      · rintro ⟨ps₁, k₁, ps₂, k₂, hmade, hrest, rfl, rfl⟩
        exact .next hne hbound ((hagree _ _ _).mpr hmade) ((hagree' _ _ _).mpr hrest)
end

section
variable {α : Type} (ex : Exprs α) (is_local : Bool) (n : Nat)

/-- The number of elements that an initialiser of an array is for. -/
def Counts (count : Nat) : Initialiser α → Prop
  | .IT_LIST l => count = l.length
  | .IT_STRINGBYTES e => ex.sc_size e = some count
  | _ => False

theorem makeArray_elements (bound : Option Nat) (ty_base : Ty) (name : Name)
    (make : InitExpr α → Option (Made α)) (ie : InitExpr α) (hne : ie ≠ .nil)
    (h : stringFor ex ty_base ie = none) :
    makeArrayInitialiser ex n bound ty_base name make ie =
      (elements make bound n 0 ie).map fun loop => (loop.made, loop.count) := by
  unfold makeArrayInitialiser
  split
  · simp at hne
  · simp only [stringFor] at h
    simp only [h]
  · rfl

theorem makeArray_string (bound : Option Nat) (ty_base : Ty) (name : Name)
    (make : InitExpr α → Option (Made α)) (ie : InitExpr α) (count : Nat)
    (h : stringFor ex ty_base ie = some count) :
    ∃ e next, ie = .expr e next ∧ ex.sc_size e = some count ∧
      (Fits bound count → makeArrayInitialiser ex n bound ty_base name make ie =
        some (⟨some (.IT_STRINGBYTES e), next, []⟩, count)) ∧
      (¬ Fits bound count → ∃ d : Diag, d.isError = true ∧
        makeArrayInitialiser ex n bound ty_base name make ie =
          some (⟨none, next, [d]⟩, count)) := by
  cases ie with
  | nil | list => simp [stringFor] at h
  | expr e next =>
    refine ⟨e, next, rfl, ?_⟩
    simp only [stringFor] at h
    split at h
    · refine ⟨h, ?_⟩
      simp only [makeArrayInitialiser, h]
      cases bound with
      | none => simp [Fits]
      | some b =>
        by_cases hb : b < count
        · simp [Fits, hb, Diag.isError]
        · simp [Fits, hb, Nat.le_of_not_lt hb]
    · simp at h

theorem array_follows {make : InitExpr α → Option (Made α)} {R : Rule α}
    (h : Follows ex n make R) (bound : Option Nat) (ty_base : Ty) (name : Name) (ie : InitExpr α)
    (hne : ie ≠ .nil) (hparsed : ie.Parsed ex) (hsize : ie.size ≤ n) :
    ∃ made count, makeArrayInitialiser ex n bound ty_base name make ie = some (made, count) ∧
      (bound ≠ some 0 → made.excess.size < ie.size) ∧ made.excess.Parsed ex ∧ made.Explained ∧
      (NoErrors made.messages → ∀ init, made.init = some init → Counts ex count init) ∧
      ∀ ps rest k, ArrayOf ex bound ty_base R ie ps rest k ↔ made.Agrees ps rest k := by
  cases hstring : stringFor ex ty_base ie with
  | none =>
    obtain ⟨loop, hloop, -, hless, hleft, hcount, hagree⟩ :=
      elements_follows ex n h bound n 0 ie hparsed hsize (Nat.le_refl n)
    refine ⟨loop.made, loop.count, ?_, hless hne, hleft, made_explained loop, ?_, ?_⟩
    · rw [makeArray_elements ex n bound ty_base name make ie hne hstring, hloop]
      rfl
    · intro hno init hinit
      simp only [Loop.made, Option.some.injEq] at hinit hno
      subst hinit
      simpa [Counts] using hcount hno
    · intro ps rest k
      rw [made_agrees, ← hagree]
      constructor
      · intro ha
        cases ha with
        | string hs => simp [hstring] at hs
        | elements _ he => exact he
      · exact .elements hstring
  | some count =>
    obtain ⟨e, next, rfl, hsc, hmake, hmake'⟩ :=
      makeArray_string ex n bound ty_base name make ie count hstring
    have hrule : ∀ ps rest k, ArrayOf ex bound ty_base R (.expr e next) ps rest k ↔
        Fits bound count ∧ [([], e)] = ps ∧ next = rest ∧ 0 = k := by
      intro ps rest k
      constructor
      · intro ha
        cases ha with
        | string hs hfits =>
          rw [hstring, Option.some.injEq] at hs
          subst hs
          exact ⟨hfits, rfl, rfl, rfl⟩
        | elements hs => simp [hstring] at hs
      · rintro ⟨hfits, rfl, rfl, rfl⟩
        exact .string hstring hfits
    simp only [InitExpr.Parsed] at hparsed
    by_cases hfits : Fits bound count
    · refine ⟨_, count, hmake hfits, by simp [InitExpr.size], hparsed.2,
        by simp [Made.Explained], ?_, ?_⟩
      · rintro - init ⟨⟩
        exact hsc
      · intro ps rest k
        simp [hrule, hfits, Made.Agrees, NoErrors, Initialiser.Sound, Initialiser.assigned]
    · obtain ⟨d, hd, hmade⟩ := hmake' hfits
      refine ⟨_, count, hmade, by simp [InitExpr.size], hparsed.2,
        by simp [Made.Explained, NoErrors, hd], by simp, ?_⟩
      intro ps rest k
      simp [hrule, hfits, Made.Agrees]

/-- A loop over members, or over the first one. -/
theorem member_follows {make : InitExpr α → Option (Made α)} {R S : Rule α}
    (h : Follows ex n make R) {more : InitExpr α → Option (Loop α)} (i : Nat)
    (hmore : ∀ ie : InitExpr α, ie ≠ .nil → ie.Parsed ex → ie.size ≤ n →
      ∃ loop, more ie = some loop ∧ loop.excess.size ≤ ie.size ∧ loop.excess.Parsed ex ∧
        ∀ ps rest k, S ie ps rest k ↔ loop.Agrees (i + 1) ps rest k)
    (ie : InitExpr α) (hne : ie ≠ .nil) (hparsed : ie.Parsed ex) (hsize : ie.size ≤ n) :
    ∃ made loop, make ie = some made ∧
      (if made.excess.isNil then some ⟨[], 0, .nil, []⟩ else more made.excess) = some loop ∧
      (loop.cons made).excess.size < ie.size ∧ loop.excess.Parsed ex ∧
      ∀ ps rest k, Member i R S ie ps rest k ↔ (loop.cons made).Agrees i ps rest k := by
  obtain ⟨made, hmake, hless, hleft, hexplained, hagree⟩ := h ie hne hparsed hsize
  by_cases hmid : made.excess = .nil
  · have hnil : made.excess.isNil = true := by rw [hmid]; rfl
    refine ⟨made, ⟨[], 0, .nil, []⟩, hmake, by rw [hnil, if_pos rfl], ?_, trivial, ?_⟩
    · simp only [Loop.cons, InitExpr.size]
      omega
    · intro ps rest k
      have hempty : ∀ ps rest k, (Loop.mk ([] : List (Initialiser α)) 0 .nil []).Agrees (i + 1)
          ps rest k ↔ [] = ps ∧ .nil = rest ∧ 0 = k := by
        simp [Loop.Agrees, NoErrors, AllSound, assignedFrom]
      rw [cons_agrees made hexplained, hmid]
      constructor
      · intro hm
        cases hm with
        | last hR =>
          exact ⟨_, _, [], 0, (hagree _ _ _).mp hR, (hempty _ _ _).mpr ⟨rfl, rfl, rfl⟩,
            (List.append_nil _).symm, rfl⟩
        | next hR hne' => exact absurd (((hagree _ _ _).mp hR).2.2.1.symm.trans hmid) hne'
      · rintro ⟨ps₁, k₁, ps₂, k₂, hmade, hloop, rfl, rfl⟩
        obtain ⟨rfl, rfl, rfl⟩ := (hempty _ _ _).mp hloop
        rw [List.append_nil]
        exact .last ((hagree _ _ _).mpr hmade)
  · have hnil : made.excess.isNil = false := by
      cases hmade : made.excess <;> simp_all [InitExpr.isNil]
    obtain ⟨loop, hloop, hle, hleft', hagree'⟩ := hmore made.excess hmid hleft (by omega)
    refine ⟨made, loop, hmake, by rw [hnil, if_neg (by simp), hloop], ?_, hleft', ?_⟩
    · simp only [Loop.cons]
      omega
    · intro ps rest k
      rw [cons_agrees made hexplained]
      constructor
      · intro hm
        cases hm with
        | last hR => exact absurd ((hagree _ _ _).mp hR).2.2.1 hmid
        | next hR hne' hS =>
          have hmade := (hagree _ _ _).mp hR
          have hmid' := hmade.2.2.1
          subst hmid'
          exact ⟨_, _, _, _, hmade, (hagree' _ _ _).mp hS, rfl, rfl⟩
      · rintro ⟨ps₁, k₁, ps₂, k₂, hmade, hS, rfl, rfl⟩
        exact .next ((hagree _ _ _).mpr hmade) hmid ((hagree' _ _ _).mpr hS)
end

/-! ## All types -/

section
variable {α : Type} (ex : Exprs α) (is_local : Bool) (n : Nat)

/-- A loop over members makes what the rule for the members says. -/
theorem made_follows {make : InitExpr α → Option (Loop α)} {R : Rule α}
    (h : ∀ ie : InitExpr α, ie ≠ .nil → ie.Parsed ex → ie.size ≤ n →
      ∃ loop, make ie = some loop ∧ loop.excess.size < ie.size ∧ loop.excess.Parsed ex ∧
        ∀ ps rest k, R ie ps rest k ↔ loop.Agrees 0 ps rest k) :
    Follows ex n (fun ie => (make ie).map Loop.made) R := by
  intro ie hne hparsed hsize
  obtain ⟨loop, hloop, hless, hleft, hagree⟩ := h ie hne hparsed hsize
  refine ⟨loop.made, by simp [hloop], hless, hleft, made_explained loop, ?_⟩
  intro ps rest k
  rw [made_agrees, hagree]

theorem nothing_agrees (i : Nat) (ie : InitExpr α) (ps : Assigned α) (rest : InitExpr α) (k : Nat) :
    Nothing ie ps rest k ↔ (Loop.mk [] 0 ie []).Agrees i ps rest k := by
  constructor
  · intro h
    cases h
    simp [Loop.Agrees, NoErrors, AllSound, assignedFrom]
  · rintro ⟨-, -, rfl, rfl, rfl⟩
    exact .intro ie

mutual
theorem makeInitialiser_follows (t : Ty) (ho : t.Object) (hn : t.Named) (what : What)
    (name : Name) : Follows ex n (makeInitialiser ex is_local n t what name)
      (Initialises ex is_local t) := by
  cases t with
  | scalar t => simpa only [Initialises] using follows_scalar ex is_local n t what name
  | incomplete => simp [Ty.Object] at ho
  | array bound ty_base =>
    simp only [Ty.Object, Ty.Named] at ho hn
    have hbase := makeInitialiser_follows ty_base ho.2 hn .element_of_array name
    have hne : some bound ≠ some 0 := by
      simp
      omega
    simp only [Initialises]
    have harray : Follows ex n (fun list => (makeArrayInitialiser ex n (some bound) ty_base name
        (fun ie => makeInitialiser ex is_local n ty_base .element_of_array name ie) list).map
          Prod.fst) (ArrayOf ex (some bound) ty_base (Initialises ex is_local ty_base)) := by
      intro ie hie hparsed hsize
      obtain ⟨made, count, hmake, hless, hleft, hexplained, -, hagree⟩ :=
        array_follows ex n hbase (some bound) ty_base name ie hie hparsed hsize
      exact ⟨made, by simp [hmake], hless hne, hleft, hexplained, hagree⟩
    intro ie
    rw [makeInitialiser]
    exact inBraces_follows ex n harray what name ie
  | struct members =>
    simp only [Ty.Object, Ty.Named] at ho hn
    simp only [Initialises]
    intro ie
    rw [makeInitialiser]
    apply inBraces_follows ex n (made_follows ex n _) what name ie
    intro ie hie hparsed hsize
    obtain ⟨loop, hloop, -, hless, hleft, hagree⟩ :=
      members_follow members ho.2 hn .structure_member 0 ie hie hparsed hsize
    exact ⟨loop, hloop, hless ho.1, hleft, hagree⟩
  | union members =>
    simp only [Ty.Object, Ty.Named] at ho hn
    simp only [Initialises]
    intro ie
    rw [makeInitialiser]
    apply inBraces_follows ex n (made_follows ex n _) what name ie
    cases members with
    | nil => simp at ho
    | cons name' t rest =>
      simp only [Members.Objects, Members.Named] at ho hn
      obtain ⟨name', rfl⟩ := Option.ne_none_iff_exists'.mp hn.1
      intro ie hie hparsed hsize
      obtain ⟨made, loop, hmake, hloop, hless, hleft, hagree⟩ :=
        member_follows ex n (makeInitialiser_follows t ho.2.1 hn.2.1 .union_member (some name')) 0
          (fun ie _ hparsed _ => ⟨⟨[], 0, ie, []⟩, rfl, by simp, hparsed, nothing_agrees 1 ie⟩)
          ie hie hparsed hsize
      refine ⟨loop.cons made, ?_, hless, hleft, ?_⟩
      · simp only [firstInitialiser, hmake, Option.bind_eq_bind, Option.bind_some]
        split at hloop
        case isTrue hnil =>
          cases hloop
          cases hexcess : made.excess <;> simp_all [InitExpr.isNil]
        case isFalse hnil =>
          cases hloop
          rfl
      · intro ps rest k
        rw [InitialisesFirst]
        exact hagree ps rest k

theorem members_follow (members : Members) (ho : members.Objects) (hn : members.Named)
    (what : What) (i : Nat) (ie : InitExpr α) (hne : ie ≠ .nil) (hparsed : ie.Parsed ex)
    (hsize : ie.size ≤ n) :
    ∃ loop, memberInitialisers ex is_local n members what ie = some loop ∧
      loop.excess.size ≤ ie.size ∧ (members ≠ .nil → loop.excess.size < ie.size) ∧
      loop.excess.Parsed ex ∧
      ∀ ps rest k, InitialisesMembers ex is_local members i ie ps rest k ↔
        loop.Agrees i ps rest k := by
  cases members with
  | nil =>
    refine ⟨⟨[], 0, ie, []⟩, by rw [memberInitialisers], by simp, by simp, hparsed, ?_⟩
    intro ps rest k
    rw [InitialisesMembers]
    exact nothing_agrees i ie ps rest k
  | cons name t rest =>
    simp only [Members.Objects, Members.Named] at ho hn
    obtain ⟨name, rfl⟩ := Option.ne_none_iff_exists'.mp hn.1
    obtain ⟨made, loop, hmake, hloop, hless, hleft, hagree⟩ :=
      member_follows ex n (makeInitialiser_follows t ho.1 hn.2.1 what (some name)) i
        (fun ie hie hparsed hsize => by
          obtain ⟨loop, hloop, hle, -, hleft, hagree⟩ :=
            members_follow rest ho.2 hn.2.2 what (i + 1) ie hie hparsed hsize
          exact ⟨loop, hloop, hle, hleft, hagree⟩) ie hne hparsed hsize
    refine ⟨loop.cons made, ?_, by omega, fun _ => hless, hleft, ?_⟩
    · simp only [memberInitialisers, hmake, Option.bind_eq_bind, Option.bind_some]
      split at hloop
      case isTrue hnil =>
        cases hloop
        simp [hnil]
      case isFalse hnil => simp [hnil, hloop]
    · intro ps rest k
      rw [InitialisesMembers]
      exact hagree ps rest k
end
end

/-! ## Lists without inner braces -/

mutual
/-- The objects of scalar type in an object, in their order; of a union only the first member
counts. -/
def Ty.subobjects : Ty → List Path
  | .scalar _ => [[]]
  | .incomplete => []
  | .array bound ty_base =>
    (List.range' 0 bound).flatMap fun i => ty_base.subobjects.map (i :: ·)
  | .struct members => members.subobjects 0
  | .union members => members.firstSubobjects 0

def Members.subobjects : Members → Nat → List Path
  | .nil, _ => []
  | .cons none _ rest, i => rest.subobjects (i + 1)
  | .cons (some _) t rest, i => t.subobjects.map (i :: ·) ++ rest.subobjects (i + 1)

def Members.firstSubobjects : Members → Nat → List Path
  | .nil, _ => []
  | .cons none _ rest, i => rest.firstSubobjects (i + 1)
  | .cons (some _) t _, i => t.subobjects.map (i :: ·)
end

section
variable {α : Type} (ex : Exprs α) (is_local : Bool)

def InitExpr.ofList : List α → InitExpr α
  | [] => .nil
  | e :: es => .expr e (.ofList es)

theorem ofList_eq_nil (es : List α) : InitExpr.ofList es = .nil ↔ es = [] := by
  cases es <;> simp [InitExpr.ofList]

/-- From a list without braces a rule takes one expression for each path. -/
def InOrder (R : Rule α) (paths : List Path) : Prop :=
  ∀ es ps rest k, (∀ e ∈ es, ex.sc_size e = none) → R (.ofList es) ps rest k →
    ps = paths.zip es ∧ rest = .ofList (es.drop paths.length) ∧ k = 0

theorem append_zip (xs ys : List Path) (es : List α) :
    (xs ++ ys).zip es = xs.zip es ++ ys.zip (es.drop xs.length) := by
  induction xs generalizing es with
  | nil => simp
  | cons x xs ih => cases es <;> simp [ih]

theorem under_zip (i : Nat) (paths : List Path) (es : List α) :
    under i (paths.zip es) = (paths.map (i :: ·)).zip es := by
  induction paths generalizing es with
  | nil => simp [under]
  | cons p paths ih =>
    cases es with
    | nil => simp [under]
    | cons e es =>
      have := ih es
      simp_all [under]

theorem inOrder_braces {R : Rule α} {paths : List Path} (h : InOrder ex R paths) :
    InOrder ex (Braces R) paths := by
  intro es ps rest k hes hb
  cases es with
  | nil => cases hb
  | cons e es =>
    cases hb with
    | elided _ hR => exact h (e :: es) ps rest k hes hR

theorem inOrder_member {R S : Rule α} {paths paths' : List Path} (h : InOrder ex R paths)
    (h' : InOrder ex S paths') (i : Nat) :
    InOrder ex (Member i R S) (paths.map (i :: ·) ++ paths') := by
  intro es ps rest k hes hm
  cases hm with
  | last hR =>
    obtain ⟨rfl, hrest, rfl⟩ := h es _ _ _ hes hR
    have hdrop := (ofList_eq_nil _).mp hrest.symm
    have hdrop' : es.drop (paths.length + paths'.length) = [] := by
      rw [← List.drop_drop, hdrop, List.drop_nil]
    simp [append_zip, under_zip, hdrop, hdrop', InitExpr.ofList]
  | next hR _ hS =>
    obtain ⟨rfl, rfl, rfl⟩ := h es _ _ _ hes hR
    obtain ⟨rfl, rfl, rfl⟩ := h' _ _ _ _ (fun e he => hes e (List.mem_of_mem_drop he)) hS
    simp [append_zip, under_zip, List.drop_drop]

theorem inOrder_nothing : InOrder ex (Nothing (α := α)) [] := by
  intro es ps rest k _ h
  cases h
  simp

/-- The elements from `i` on of an array of known bound. -/
theorem inOrder_elements {R : Rule α} {paths : List Path} (h : InOrder ex R paths)
    (bound i : Nat) (hi : i ≤ bound) :
    InOrder ex (Elements (some bound) R i)
      ((List.range' i (bound - i)).flatMap fun i => paths.map (i :: ·)) := by
  intro es ps rest k hes he
  generalize hl : InitExpr.ofList es = l at he
  induction he generalizing es with
  | done =>
    have := (ofList_eq_nil es).mp hl
    simp [this, InitExpr.ofList]
  | full l hb =>
    simp at hb
    simp [hb, hl]
  | @next i l ps mid k ps' rest k' hne hb hR _ ih =>
    subst hl
    obtain ⟨rfl, rfl, rfl⟩ := h es _ _ _ hes hR
    have hlt : i < bound := by
      simp at hb
      omega
    obtain ⟨rfl, rfl, rfl⟩ := ih (by omega) _ (fun e he => hes e (List.mem_of_mem_drop he)) rfl
    have hrange : List.range' i (bound - i) = i :: List.range' (i + 1) (bound - (i + 1)) := by
      rw [show bound - i = bound - (i + 1) + 1 by omega, List.range'_succ]
    rw [hrange, List.flatMap_cons, append_zip, under_zip]
    simp [List.drop_drop]
end

section
variable {α : Type} (ex : Exprs α) (is_local : Bool)

theorem inOrder_one (t : Scalar) : InOrder ex (One ex is_local t) [[]] := by
  intro es ps rest k _ h
  cases es with
  | nil => cases h
  | cons e es =>
    cases h
    simp

theorem inOrder_array {R : Rule α} {paths : List Path} (h : InOrder ex R paths) (bound : Nat)
    (ty_base : Ty) : InOrder ex (ArrayOf ex (some bound) ty_base R)
      ((List.range' 0 bound).flatMap fun i => paths.map (i :: ·)) := by
  intro es ps rest k hes ha
  cases es with
  | nil =>
    cases ha with
    | elements _ he => exact inOrder_elements ex h bound 0 (Nat.zero_le _) [] ps rest k hes he
  | cons e es =>
    cases ha with
    | string hs =>
      have hnone : ex.sc_size e = none := hes e (by simp)
      simp only [stringFor] at hs
      split at hs <;> simp_all
    | elements _ he =>
      exact inOrder_elements ex h bound 0 (Nat.zero_le _) (e :: es) ps rest k hes he

mutual
/-- Where no inner braces are written, the k-th expression is for the k-th scalar subobject. -/
theorem initialises_inOrder (t : Ty) : InOrder ex (Initialises ex is_local t) t.subobjects := by
  cases t with
  | scalar t => exact inOrder_one ex is_local t
  | incomplete =>
    intro es ps rest k _ h
    simp [Initialises] at h
  | array bound ty_base =>
    rw [Initialises, Ty.subobjects]
    exact inOrder_braces ex (inOrder_array ex (initialises_inOrder ty_base) bound ty_base)
  | struct members =>
    rw [Initialises, Ty.subobjects]
    exact inOrder_braces ex (members_inOrder members 0)
  | union members =>
    rw [Initialises, Ty.subobjects]
    exact inOrder_braces ex (first_inOrder members 0)

theorem members_inOrder (members : Members) (i : Nat) :
    InOrder ex (InitialisesMembers ex is_local members i) (members.subobjects i) := by
  cases members with
  | nil => exact inOrder_nothing ex
  | cons name t rest =>
    cases name with
    | none => exact members_inOrder rest (i + 1)
    | some name =>
      exact inOrder_member ex (initialises_inOrder t) (members_inOrder rest (i + 1)) i

theorem first_inOrder (members : Members) (i : Nat) :
    InOrder ex (InitialisesFirst ex is_local members i) (members.firstSubobjects i) := by
  cases members with
  | nil => exact inOrder_nothing ex
  | cons name t rest =>
    cases name with
    | none => exact first_inOrder rest (i + 1)
    | some name =>
      have := inOrder_member ex (initialises_inOrder t) (inOrder_nothing ex) i
      rwa [List.append_nil] at this
end

/-- The aggregate that a list in braces is for, where there are no braces in it. -/
theorem braces_inOrder {R : Rule α} {paths : List Path} (h : InOrder ex R paths) (es : List α)
    (hes : ∀ e ∈ es, ex.sc_size e = none) (next : InitExpr α) (ps : Assigned α)
    (rest : InitExpr α) (k : Nat) (hb : Braces R (.list (.ofList es) next) ps rest k) :
    ps = paths.zip es := by
  cases hb with
  | all _ hR => exact (h es _ _ _ hes hR).1
  | excess _ hR _ => exact (h es _ _ _ hes hR).1

theorem list_inOrder (t : Ty) (es : List α) (hes : ∀ e ∈ es, ex.sc_size e = none)
    (next : InitExpr α) (ps : Assigned α) (rest : InitExpr α) (k : Nat)
    (h : Initialises ex is_local t (.list (.ofList es) next) ps rest k) :
    ps = t.subobjects.zip es := by
  cases t with
  | scalar t =>
    generalize hl : InitExpr.ofList es = l at h
    simp only [Initialises] at h
    cases h with
    | braced _ _ _ =>
      cases es with
      | nil => simp [InitExpr.ofList] at hl
      | cons e es =>
        simp only [InitExpr.ofList, InitExpr.expr.injEq, ofList_eq_nil] at hl
        simp [hl, Ty.subobjects]
  | incomplete => simp [Initialises] at h
  | array bound ty_base =>
    rw [Initialises] at h
    rw [Ty.subobjects]
    exact braces_inOrder ex
      (inOrder_array ex (initialises_inOrder ex is_local ty_base) bound ty_base) es hes next ps
      rest k h
  | struct members =>
    rw [Initialises] at h
    exact braces_inOrder ex (members_inOrder ex is_local members 0) es hes next ps rest k h
  | union members =>
    rw [Initialises] at h
    exact braces_inOrder ex (first_inOrder ex is_local members 0) es hes next ps rest k h
end

/-! ## Variables that are not local -/

section
variable {α : Type} (ex : Exprs α) (n : Nat)

/-- Whatever a function makes is sound. -/
def MakesSound (make : InitExpr α → Option (Made α)) : Prop :=
  ∀ ie made, make ie = some made → ∀ init, made.init = some init → init.Sound

theorem cons_sound (made : Made α) (loop : Loop α)
    (hmade : ∀ init, made.init = some init → init.Sound) (hloop : AllSound loop.inits) :
    AllSound (Loop.cons made loop).inits := by
  cases hinit : made.init with
  | none => simpa [Loop.cons, hinit] using hloop
  | some init => simpa [Loop.cons, hinit, AllSound] using ⟨hmade init hinit, hloop⟩

theorem elements_sound {make : InitExpr α → Option (Made α)} (h : MakesSound make)
    (bound : Option Nat) (m i : Nat) (ie : InitExpr α) (loop : Loop α)
    (hloop : elements make bound m i ie = some loop) : AllSound loop.inits := by
  induction m generalizing i ie loop with
  | zero =>
    cases ie <;> simp [elements] at hloop
    all_goals simp [← hloop, AllSound]
  | succ m ih =>
    cases ie with
    | nil =>
      simp only [elements, Option.some.injEq] at hloop
      simp [← hloop, AllSound]
    | expr | list =>
      simp only [elements] at hloop
      split at hloop
      · simp only [Option.some.injEq] at hloop
        simp [← hloop, AllSound]
      · obtain ⟨made, hmake, hloop⟩ := Option.bind_eq_some_iff.mp hloop
        obtain ⟨loop', hloop', hloop⟩ := Option.bind_eq_some_iff.mp hloop
        cases hloop
        exact cons_sound made loop' (h _ _ hmake) (ih _ _ _ hloop')

theorem makeArray_sound {make : InitExpr α → Option (Made α)} (h : MakesSound make)
    (bound : Option Nat) (ty_base : Ty) (name : Name) (ie : InitExpr α) (made : Made α)
    (count : Nat)
    (hmade : makeArrayInitialiser ex n bound ty_base name make ie = some (made, count))
    (init : Initialiser α) (hinit : made.init = some init) : init.Sound := by
  have hne : ie ≠ .nil := by
    rintro rfl
    simp [makeArrayInitialiser] at hmade
  cases hstring : stringFor ex ty_base ie with
  | none =>
    rw [makeArray_elements ex n bound ty_base name make ie hne hstring] at hmade
    obtain ⟨loop, hloop, he⟩ := Option.map_eq_some_iff.mp hmade
    cases he
    simp only [Loop.made, Option.some.injEq] at hinit
    rw [← hinit, Initialiser.Sound]
    exact elements_sound h bound n 0 ie loop hloop
  | some size =>
    obtain ⟨e, next, rfl, -, hfits, hlong⟩ :=
      makeArray_string ex n bound ty_base name make ie size hstring
    by_cases hf : Fits bound size
    · rw [hfits hf] at hmade
      cases hmade
      cases hinit
      trivial
    · obtain ⟨d, -, hmake⟩ := hlong hf
      rw [hmake] at hmade
      cases hmade
      simp at hinit

theorem inBraces_sound {make : InitExpr α → Option (Made α)} (h : MakesSound make) (what : What)
    (name : Name) : MakesSound (inBraces what name make) := by
  intro ie made hmade init hinit
  cases ie with
  | nil => simp [inBraces] at hmade
  | expr e next => exact h _ _ hmade init hinit
  | list l next =>
    obtain ⟨made', hmake, hmade⟩ := Option.bind_eq_some_iff.mp hmade
    cases hmade
    exact h _ _ hmake init hinit

theorem makeScalar_sound (t : Scalar) (what : What) (name : Name) :
    MakesSound (makeInitialiser ex false n (.scalar t) what name) := by
  have hscalar : ∀ e braced init,
      (scalarFrom ex false t what name e braced).1 = some init → init.Sound := by
    intro e braced init hinit
    simp only [scalarFrom] at hinit
    split_ifs at hinit <;> cases hinit <;> trivial
  intro ie made hmade init hinit
  rw [makeInitialiser] at hmade
  obtain ⟨r, hr, hmade⟩ := Option.map_eq_some_iff.mp hmade
  cases hmade
  simp only at hinit
  unfold makeScalarInitialiser at hr
  split at hr <;> cases hr
  · exact hscalar _ _ _ hinit
  · exact hscalar _ _ _ hinit
  · simp at hinit

mutual
theorem makeInitialiser_sound (t : Ty) (what : What) (name : Name) :
    MakesSound (makeInitialiser ex false n t what name) := by
  cases t with
  | scalar t => exact makeScalar_sound ex n t what name
  | incomplete =>
    intro ie made hmade init hinit
    rw [makeInitialiser] at hmade
    cases hmade
    simp at hinit
  | array bound ty_base =>
    intro ie
    rw [makeInitialiser]
    apply inBraces_sound
    intro ie made hmade init hinit
    obtain ⟨⟨made', count⟩, hmake, hmade⟩ := Option.map_eq_some_iff.mp hmade
    cases hmade
    exact makeArray_sound ex n (makeInitialiser_sound ty_base .element_of_array name) _ ty_base name
      ie made' count hmake init hinit
  | struct members =>
    intro ie
    rw [makeInitialiser]
    apply inBraces_sound
    intro ie made hmade init hinit
    obtain ⟨loop, hloop, hmade⟩ := Option.map_eq_some_iff.mp hmade
    cases hmade
    cases hinit
    exact members_sound members .structure_member ie loop hloop
  | union members =>
    intro ie
    rw [makeInitialiser]
    apply inBraces_sound
    intro ie made hmade init hinit
    obtain ⟨loop, hloop, hmade⟩ := Option.map_eq_some_iff.mp hmade
    cases hmade
    cases hinit
    cases members with
    | nil =>
      rw [firstInitialiser] at hloop
      cases hloop
      trivial
    | cons name t rest =>
      rw [firstInitialiser] at hloop
      obtain ⟨made', hmake, hloop⟩ := Option.bind_eq_some_iff.mp hloop
      cases hloop
      exact cons_sound made' _ (makeInitialiser_sound t .union_member name _ _ hmake) trivial

theorem members_sound (members : Members) (what : What) (ie : InitExpr α) (loop : Loop α)
    (hloop : memberInitialisers ex false n members what ie = some loop) :
    AllSound loop.inits := by
  cases members with
  | nil =>
    rw [memberInitialisers] at hloop
    cases hloop
    trivial
  | cons name t rest =>
    rw [memberInitialisers] at hloop
    obtain ⟨made, hmake, hloop⟩ := Option.bind_eq_some_iff.mp hloop
    have hmade := makeInitialiser_sound t what name ie made hmake
    split at hloop
    · cases hloop
      exact cons_sound made _ hmade trivial
    · obtain ⟨loop', hloop', hloop⟩ := Option.bind_eq_some_iff.mp hloop
      cases hloop
      exact cons_sound made loop' hmade (members_sound rest what _ loop' hloop')
end
end

/-! ## Variables -/

section
variable {α : Type} (ex : Exprs α) (is_local : Bool) (n : Nat)

/-- An array whose bound was not known is initialised as one with the bound that it gets. -/
theorem elements_counted (make : InitExpr α → Option (Made α)) (m i : Nat) (ie : InitExpr α)
    (loop : Loop α) (h : elements make none m i ie = some loop) :
    i ≤ loop.count ∧ elements make (some loop.count) m i ie = some loop := by
  induction m generalizing i ie loop with
  | zero =>
    cases ie <;> simp [elements] at h
    subst h
    simp [elements]
  | succ m ih =>
    by_cases hne : ie = .nil
    · subst hne
      simp only [elements, Option.some.injEq] at h
      subst h
      simp [elements]
    have hturn : ∀ bound, elements make bound (m + 1) i ie =
        if bound = some i then some ⟨[], i, ie, []⟩
        else (make ie).bind fun made =>
          (elements make bound m (i + 1) made.excess).bind fun loop => some (loop.cons made) := by
      intro bound
      cases ie with
      | nil => simp at hne
      | expr | list => rfl
    rw [hturn, if_neg (by simp)] at h
    obtain ⟨made, hmake, h⟩ := Option.bind_eq_some_iff.mp h
    obtain ⟨loop', hloop, h⟩ := Option.bind_eq_some_iff.mp h
    simp only [Option.some.injEq] at h
    obtain ⟨hle, hcounted⟩ := ih (i + 1) made.excess loop' hloop
    have hcount : loop.count = loop'.count := by rw [← h]; rfl
    have hne' : some loop'.count ≠ some i := by
      simp
      omega
    rw [hcount, hturn, if_neg hne', hmake]
    simp only [Option.bind_some, hcounted, h, and_true]
    omega

theorem makeArray_counted (ty_base : Ty) (name : Name) (make : InitExpr α → Option (Made α))
    (ie : InitExpr α) (made : Made α) (count : Nat)
    (h : makeArrayInitialiser ex n none ty_base name make ie = some (made, count)) :
    makeArrayInitialiser ex n (some count) ty_base name make ie = some (made, count) := by
  have hne : ie ≠ .nil := by
    rintro rfl
    simp [makeArrayInitialiser] at h
  cases hstring : stringFor ex ty_base ie with
  | none =>
    rw [makeArray_elements ex n _ ty_base name make ie hne hstring] at h ⊢
    obtain ⟨loop, hloop, he⟩ := Option.map_eq_some_iff.mp h
    simp only [Prod.mk.injEq] at he
    obtain ⟨rfl, rfl⟩ := he
    rw [(elements_counted make n 0 ie loop hloop).2]
    rfl
  | some size =>
    obtain ⟨e, next, rfl, -, hfits, -⟩ :=
      makeArray_string ex n none ty_base name make ie size hstring
    obtain ⟨e', next', he, -, hfits', -⟩ :=
      makeArray_string ex n (some count) ty_base name make (.expr e next) size hstring
    rw [hfits (by simp [Fits])] at h
    simp only [Option.some.injEq, Prod.mk.injEq] at h
    cases he
    rw [hfits' (by simp [Fits, h.2]), h.1, h.2]

/-- What the compiler refuses for an aggregate variable. -/
def Refused (t : VarType) (ie : InitExpr α) : Prop :=
  ∃ e next, ie = .expr e next ∧
    match t with
    | .known (.struct _) | .known (.union _) => True
    | .known (.array _ _) | .unknown _ => ex.sc_size e = none
    | _ => False
end

section
variable {α : Type} (ex : Exprs α) (is_local : Bool) (n : Nat)

/-- What is recorded for a variable: what C says of its type, where the bound of an array that was
not known is the number of its elements. -/
structure Records (t : VarType) (ie : InitExpr α) (made : Made α) (t' : VarType) : Prop where
  /-- Without an error the rules allow the initialiser. -/
  reports : is_local = false → NoErrors made.messages → ∃ ps rest k, made.Agrees ps rest k
  agrees : ∀ ps rest k, (¬ Refused ex t ie ∧ ∃ type, t' = .known type ∧
    Initialises ex is_local type ie ps rest k) ↔ made.Agrees ps rest k
  known : ∀ type, t = .known type → t' = t
  counted : ∀ ty_base init, t = .unknown ty_base → NoErrors made.messages →
    made.init = some init → ∃ count, t' = .known (.array count ty_base) ∧ Counts ex count init
  inOrder : ∀ es next ps rest k, ie = .list (.ofList es) next → (∀ e ∈ es, ex.sc_size e = none) →
    made.Agrees ps rest k → ∃ type, t' = .known type ∧ ps = type.subobjects.zip es

theorem records_refused (t : VarType) (ie : InitExpr α) (name : Name) (h : Refused ex t ie) :
    Records ex is_local t ie ⟨none, ie, [.scalarForAggregate name]⟩ t where
  reports := by simp [NoErrors, Diag.isError]
  agrees := by simp [h, Made.Agrees]
  known := fun _ _ => rfl
  counted := by simp
  inOrder := by simp [Made.Agrees]

/-- What is said of the list says what is in order in it. -/
theorem records_of_agrees (t : VarType) (ie : InitExpr α) (made : Made α) (type : Ty)
    (hrefused : ¬ Refused ex t ie) (hexplained : made.Explained)
    (hsound : is_local = false → ∀ init, made.init = some init → init.Sound)
    (hagree : ∀ ps rest k, Initialises ex is_local type ie ps rest k ↔ made.Agrees ps rest k)
    (hknown : ∀ type', t = .known type' → .known type = t)
    (hcounted : ∀ ty_base init, t = .unknown ty_base → NoErrors made.messages →
      made.init = some init → ∃ count, type = .array count ty_base ∧ Counts ex count init) :
    Records ex is_local t ie made (.known type) where
  reports := by
    intro hlocal hno
    cases hinit : made.init with
    | none => exact absurd hno (hexplained hinit)
    | some init =>
      exact ⟨init.assigned, made.excess, made.messages.length, hno,
        ⟨init, hinit, hsound hlocal init hinit, rfl⟩, rfl, rfl⟩
  agrees := by simp [hrefused, hagree]
  known := hknown
  counted := by simpa using hcounted
  inOrder := by
    rintro es next ps rest k rfl hes hmade
    exact ⟨type, rfl, list_inOrder ex is_local type es hes next ps rest k
      ((hagree ps rest k).mpr hmade)⟩
end

section
variable {α : Type} (ex : Exprs α) (is_local : Bool) (n : Nat)

/-- `ci_make_var_initialiser` where the initialiser is not refused. -/
theorem ciMakeVarInitialiser_known (type : Ty) (name : Name) (ie : InitExpr α)
    (h : ¬ Refused ex (.known type) ie) :
    ciMakeVarInitialiser ex is_local n (.known type) name ie =
      (makeInitialiser ex is_local n type .variable name ie).map fun made =>
        (made, .known type) := by
  unfold ciMakeVarInitialiser
  dsimp only
  split
  · rename_i heq
    exact absurd ⟨_, _, rfl, by simp_all⟩ h
  · rename_i heq
    exact absurd ⟨_, _, rfl, by simp_all⟩ h
  · rename_i heq
    rw [if_neg]
    intro hnone
    refine h ⟨_, _, rfl, ?_⟩
    simp only [VarType.known.injEq] at heq
    subst heq
    simpa using hnone
  · simp_all
  · rfl

theorem ciMakeVarInitialiser_unknown (ty_base : Ty) (name : Name) (ie : InitExpr α)
    (h : ¬ Refused ex (.unknown ty_base) ie) :
    ciMakeVarInitialiser ex is_local n (.unknown ty_base) name ie =
      makeUnknownArray ex is_local n ty_base name ie := by
  unfold ciMakeVarInitialiser
  dsimp only
  split
  · simp_all
  · simp_all
  · simp_all
  · rw [if_neg]
    intro hnone
    exact h ⟨_, _, rfl, by simpa using hnone⟩
  · rfl

theorem ciMakeVarInitialiser_refused (t : VarType) (name : Name) (ie : InitExpr α)
    (h : Refused ex t ie) :
    ciMakeVarInitialiser ex is_local n t name ie =
      some (⟨none, ie, [.scalarForAggregate name]⟩, t) := by
  obtain ⟨e, next, rfl, h⟩ := h
  cases t with
  | unknown ty_base => simp [ciMakeVarInitialiser, h]
  | known type =>
    cases type with
    | struct | union => rfl
    | array bound ty_base => simp [ciMakeVarInitialiser, h]
    | scalar | incomplete => simp at h

theorem unknownArray_records (ty_base : Ty) (ho : ty_base.Object) (hn : ty_base.Named)
    (name : Name) (ie : InitExpr α) (hne : ie ≠ .nil)
    (hparsed : ie.Parsed ex) (hsize : ie.size ≤ n)
    (hrefused : ¬ Refused ex (.unknown ty_base) ie) :
    ∃ made t', makeUnknownArray ex is_local n ty_base name ie = some (made, t') ∧
      Records ex is_local (.unknown ty_base) ie made t' := by
  have hbase := makeInitialiser_follows ex is_local n ty_base ho hn .element_of_array name
  obtain ⟨hne', hparsed', hsize'⟩ := opened_spec ex ie hne hparsed
  obtain ⟨made, count, hmake, -, -, hexplained, hcounts, -⟩ :=
    array_follows ex n hbase none ty_base name ie.opened hne' hparsed' (by omega)
  -- What is made with the bound that is counted is the same.
  have hcounted := makeArray_counted ex n ty_base name _ ie.opened made count hmake
  obtain ⟨made₁, count₁, hmake₁, -, -, -, -, hagree⟩ :=
    array_follows ex n hbase (some count) ty_base name ie.opened hne' hparsed' (by omega)
  rw [hcounted, Option.some.injEq, Prod.mk.injEq] at hmake₁
  obtain ⟨rfl, rfl⟩ := hmake₁
  obtain ⟨made', hmake', hinit, hno, -, hagree'⟩ :=
    @inBraces_agrees α (fun list => (makeArrayInitialiser ex n none ty_base name
      (fun ie => makeInitialiser ex is_local n ty_base .element_of_array name ie) list).map
        Prod.fst) _ .variable name ie hne made (by simp [hmake]) hagree
  refine ⟨made', _, by simp [makeUnknownArray, hmake', hmake],
    records_of_agrees ex is_local _ ie made' (.array count ty_base) hrefused ?_ ?_ ?_ (by simp) ?_⟩
  · intro hnone hno'
    exact hexplained (hinit.symm.trans hnone) (hno hno')
  · rintro rfl init hinit'
    exact makeArray_sound ex n (makeInitialiser_sound ex n ty_base .element_of_array name) none
      ty_base name ie.opened made count hmake init (hinit.symm.trans hinit')
  · intro ps rest k
    rw [Initialises]
    exact hagree' ps rest k
  · rintro base init ⟨⟩ hno' hinit'
    exact ⟨count, rfl, hcounts (hno hno') init (hinit.symm.trans hinit')⟩

end

section
variable {α : Type} (ex : Exprs α)

/-- An expression in braces for a local scalar: the list is recorded as if it were one. -/
theorem local_braced (t : Scalar) (name : Name) (e : α) (next : InitExpr α) (n : Nat)
    (htyped : ex.typed e = true) (hconverts : ex.converts t e = true) :
    makeInitialiser ex true n (.scalar t) .variable name (.list (.expr e .nil) next) =
      some ⟨some (.IT_EXPR none), next, []⟩ := by
  simp [makeInitialiser, makeScalarInitialiser, scalarFrom, htyped, hconverts, InitExpr.next]

/-- The elements of an array of unknown bound never end where an element takes nothing. -/
theorem elements_endless {make : InitExpr α → Option (Made α)} {made : Made α} {ie : InitExpr α}
    (hne : ie ≠ .nil) (hmake : make ie = some made) (hmade : made.excess = ie) (n i : Nat) :
    elements make none n i ie = none := by
  induction n generalizing i with
  | zero =>
    cases ie with
    | nil => simp at hne
    | expr | list => simp [elements]
  | succ n ih =>
    cases ie with
    | nil => simp at hne
    | expr | list => simp [elements, hmake, hmade, ih]

theorem incomplete_endless (is_local : Bool) (name : Name) (ie : InitExpr α) (hne : ie ≠ .nil)
    (n i : Nat) :
    elements (fun ie => makeInitialiser ex is_local n .incomplete .element_of_array name ie) none n
      i ie = none := by
  have hmake : makeInitialiser ex is_local n .incomplete .element_of_array name ie =
      some ⟨none, ie, [.cantInitialise name]⟩ := by
    simp [makeInitialiser]
  exact elements_endless hne hmake rfl n i
end

/-- Expressions that initialise any scalar. -/
def plainExprs : Exprs Nat := ⟨fun _ => none, fun _ => true, fun _ _ => true, fun _ _ => true⟩

end ups_rules.initialisers
