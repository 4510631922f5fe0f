-- The types that the parser builds for declarators and type names (ci_parse.y, ci_util.c,
-- ci_decl.c), and the types that C gives them.
import Mathlib.Data.List.Basic

namespace ups_rules.declarators

/-! ## The pure model -/

inductive Qualifier where
  | QU_CONST
  | QU_VOLATILE
deriving DecidableEq

/-- A qualifiers_t. -/
structure Qualifiers where
  const : Bool
  volatile : Bool
deriving DecidableEq

/-- The code of a base type; only these two are of interest. -/
inductive Base where
  | TY_VOID
  | TY_INT
  | other (code : Nat)
deriving DecidableEq

/-- A type_t without its `ty_base`. The code has no qualified base types; C has. -/
inductive Node where
  | base (b : Base)
  | qualified (q : Qualifiers)
  | ident (name : String)
  | ptr (q : Qualifiers)
  | array (dim : Option Nat)
  | funcIds (ids : List String)
  | func (params : List (Bool × List Node)) (variadic : Bool)

/-- The nodes that `ty_base` leads over, to NULL. -/
abbrev Chain := List Node

def isVoid : Chain → Bool
  | [.base .TY_VOID] => true
  | _ => false

def Qualifiers.none : Qualifiers := ⟨false, false⟩

def Qualifiers.add (q : Qualifiers) : Qualifier → Qualifiers
  | .QU_CONST => { q with const := true }
  | .QU_VOLATILE => { q with volatile := true }

/-- `type_qualifier_list`. -/
def qualifiersOf (list : List Qualifier) : Qualifiers := list.foldl Qualifiers.add .none

/-- Parameters of type array and function are made pointers. -/
def adjust : Chain → Chain
  | .array _ :: base => .ptr .none :: base
  | .func params variadic :: base => .ptr .none :: .func params variadic :: base
  | .funcIds ids :: base => .ptr .none :: .funcIds ids :: base
  | type => type

def adjustParam (param : Bool × Chain) : Bool × Chain := (param.1, adjust param.2)

/-- `ci_rewrite_func_params`, if the type is one of a function. -/
def rewriteFuncParams : Chain → Chain
  | .func params variadic :: base =>
    .func (params.map adjustParam) variadic :: base
  | type => type

/-- The type of the declaration specifiers: without a name, and with the parameters adjusted. -/
structure BaseType where
  nodes : Chain
  unnamed : ∀ name, nodes.head? ≠ some (.ident name)
  adjusted : rewriteFuncParams nodes = nodes

mutual

/-- A declarator, or an abstract one, with `omitted` in the place of the identifier. -/
inductive Decl where
  | omitted
  | identifier (name : String)
  | parens (d : Decl)
  | pointer (star : List Qualifier) (stars : List (List Qualifier)) (d : Decl)
  | array (d : Decl) (dim : Option Nat)
  | funcIds (d : Decl) (ids : List String)
  | func (d : Decl) (params : Params) (ellipsis : Bool)

/-- A parameter_list: qualifiers and type of each parameter, and its declarator. -/
inductive Params where
  | one (quals : List Qualifier) (base : BaseType) (d : Decl)
  | cons (quals : List Qualifier) (base : BaseType) (d : Decl) (rest : Params)

end

/-- The declarator has an identifier. -/
def Decl.named : Decl → Bool
  | omitted => false
  | identifier _ => true
  | parens d | pointer _ _ d | array d _ | funcIds d _ | func d _ _ => d.named

/-- An abstract declarator has something in every pair of parentheses around it, and no list of
identifiers. -/
def Decl.abstract : Decl → Bool
  | omitted => true
  | identifier _ => false
  | parens omitted => false
  | funcIds d ids => ids.isEmpty && d.abstract
  | parens d | pointer _ _ d | array d _ | func d _ _ => d.abstract

/-- A `direct_declarator` or `direct_abstract_declarator`, or nothing. -/
def Decl.direct : Decl → Bool
  | pointer _ _ _ => false
  | _ => true

mutual

/-- The grammar has the declarator, or the abstract declarator. -/
def Decl.wellFormed : Decl → Bool
  | .omitted | .identifier _ => true
  | .parens d => d.wellFormed
  | .pointer _ _ d | .array d _ | .funcIds d _ => d.direct && d.wellFormed
  | .func d params _ => d.direct && d.wellFormed && params.wellFormed

def Params.wellFormed : Params → Bool
  | .one _ _ d => (d.named || d.abstract) && d.wellFormed
  | .cons _ _ d rest => (d.named || d.abstract) && d.wellFormed && rest.wellFormed

end

def ciPushTypes (typelist : Chain) : Chain → Chain
  | [] => typelist
  | type :: base => ciPushTypes (type :: typelist) base

/-- `pointer`. -/
def pointerNodes (star : List Qualifier) (stars : List (List Qualifier)) : Chain :=
  (star :: stars).map fun list => .ptr (qualifiersOf list)

/-- `type->ty_base = base` for the first node. -/
def setBase (type base : Chain) : Chain := type.take 1 ++ base

/-- The type of a declarator with this base type: without its identifier, not void unless it is a
typedef's, and with the parameters of a function adjusted (`ci_declarations_to_varlist`). -/
def varType (is_typedef : Bool) (base : Chain) (dr_type : Chain) : Chain :=
  match ciPushTypes base dr_type with
  | .ident _ :: type =>
    if isVoid type && !is_typedef then [.base .TY_INT] else rewriteFuncParams type
  | type => rewriteFuncParams type

/-- `f(void)` has no parameters. -/
def voidParam : List (Bool × Chain) → List (Bool × Chain)
  | [(false, type)] => if isVoid type then [] else [(false, type)]
  | params => params

mutual

/-- The actions of `declarator` and `direct_declarator`. -/
def Decl.declarator : Decl → Chain
  | .omitted => []
  | .identifier name => [.ident name]
  | .parens d => d.declarator
  | .pointer star stars d => ciPushTypes d.declarator (pointerNodes star stars)
  | .array d dim => .array dim :: d.declarator
  | .funcIds d ids => .funcIds ids :: d.declarator
  | .func d params ellipsis => .func (voidParam params.varlist) ellipsis :: d.declarator

/-- The actions of `abstract_declarator` and `direct_abstract_declarator`. -/
def Decl.abstractDeclarator : Decl → Chain
  | .omitted => []
  | .identifier _ => []
  | .parens d => d.abstractDeclarator
  | .pointer star stars .omitted => pointerNodes star stars
  | .pointer star stars d => setBase (pointerNodes star stars) d.abstractDeclarator
  | .array d dim => .array dim :: d.abstractDeclarator
  | .funcIds d ids => .funcIds ids :: d.abstractDeclarator
  | .func d params ellipsis => .func (voidParam params.varlist) ellipsis :: d.abstractDeclarator

/-- The types of the parameters, and which of them have a name. -/
def Params.varlist : Params → List (Bool × Chain)
  | .one _ base d =>
    let dr_type := if d.named then d.declarator else d.abstractDeclarator
    [(d.named, varType false base.nodes dr_type)]
  | .cons _ base d rest =>
    let dr_type := if d.named then d.declarator else d.abstractDeclarator
    (d.named, varType false base.nodes dr_type) :: rest.varlist

end

/-- The type of a variable that is declared. -/
def declaredType (is_typedef : Bool) (base : BaseType) (d : Decl) : Chain :=
  varType is_typedef base.nodes d.declarator

/-- `type_name`. -/
def typeName (base : BaseType) (d : Decl) : Chain :=
  ciPushTypes base.nodes d.abstractDeclarator

/-- The abstract declarator without the identifier, as the grammar reads it: `()` is a function. -/
def Decl.delete : Decl → Decl
  | omitted => omitted
  | identifier _ => omitted
  | parens d =>
    match d.delete with
    | omitted => funcIds omitted []
    | d => parens d
  | pointer star stars d => pointer star stars d.delete
  | array d dim => array d.delete dim
  | funcIds d ids => funcIds d.delete ids
  | func d params ellipsis => func d.delete params ellipsis

/-! ## The types of C -/

/-- The qualifiers that are named. -/
def namedIn (list : List Qualifier) : Qualifiers :=
  ⟨list.contains .QU_CONST, list.contains .QU_VOLATILE⟩

/-- The type with these qualifiers as well; those of an array are its elements'. -/
def qualify (list : List Qualifier) : Chain → Chain
  | .ptr q :: type =>
    .ptr ⟨q.const || (namedIn list).const, q.volatile || (namedIn list).volatile⟩ :: type
  | .array dim :: type => .array dim :: qualify list type
  | .base b :: type =>
    if list = [] then .base b :: type else .qualified (namedIn list) :: .base b :: type
  | .qualified q :: type =>
    .qualified ⟨q.const || (namedIn list).const, q.volatile || (namedIn list).volatile⟩ :: type
  | type => type

mutual

/-- What the declarator declares when what it is part of has type `t`. -/
def Decl.ctype : Decl → Chain → Chain
  | .omitted, t => t
  | .identifier _, t => t
  | .parens d, t => d.ctype t
  | .pointer star stars d, t =>
    d.ctype ((star :: stars).foldl (fun t list => .ptr (namedIn list) :: t) t)
  | .array d dim, t => d.ctype (.array dim :: t)
  | .funcIds d ids, t => d.ctype (.funcIds ids :: t)
  | .func d params ellipsis, t => d.ctype (.func (voidParam (params.adjusted)) ellipsis :: t)

/-- The parameters' types, adjusted. -/
def Params.adjusted : Params → List (Bool × Chain)
  | .one quals base d => [(d.named, adjust (d.ctype (qualify quals base.nodes)))]
  | .cons quals base d rest =>
    (d.named, adjust (d.ctype (qualify quals base.nodes))) :: rest.adjusted

end

/-! ## Where the types are those of C -/

/-- The identifier, or the place where it would be, perhaps in parentheses. -/
def Decl.atCore : Decl → Bool
  | omitted | identifier _ => true
  | parens d => d.atCore
  | _ => false

/-- The identifier itself stands in parentheses. -/
def Decl.bareParens : Decl → Bool
  | omitted | identifier _ => false
  | parens (identifier _) => true
  | parens d | pointer _ _ d | array d _ | funcIds d _ | func d _ _ => d.bareParens

/-- No parameter is declared as an array or as a function. -/
def Params.plain : Params → Prop
  | one quals base d =>
    adjust (d.ctype (qualify quals base.nodes)) = d.ctype (qualify quals base.nodes)
  | cons quals base d rest =>
    adjust (d.ctype (qualify quals base.nodes)) = d.ctype (qualify quals base.nodes) ∧ rest.plain

def Decl.isOmitted : Decl → Bool
  | omitted => true
  | _ => false

mutual

/-- The stars of a pointer have the same qualifiers from the left and from the right; in an abstract
declarator there is one star only, if anything else is behind it; and no function has parameters that
are declared as arrays or functions, but for one that is rewritten. -/
def Decl.ok (rewritten : Bool) : Decl → Prop
  | .omitted | .identifier _ => True
  | .parens d | .array d _ | .funcIds d _ => d.ok rewritten
  | .pointer star stars d => d.ok rewritten ∧
    if d.named then ((star :: stars).map namedIn).reverse = (star :: stars).map namedIn
    else d.isOmitted = true ∨ stars = []
  | .func d params _ =>
    d.ok rewritten ∧ params.ok ∧ ((rewritten && d.atCore) = true ∨ params.plain)

/-- The base type has no qualifiers of its own, the declarator is as above, and no name is declared
void. -/
def Params.ok : Params → Prop
  | .one quals base d => qualify quals base.nodes = base.nodes ∧ d.ok true ∧
    (d.named = true → isVoid (d.ctype base.nodes) = false)
  | .cons quals base d rest => (qualify quals base.nodes = base.nodes ∧ d.ok true ∧
    (d.named = true → isVoid (d.ctype base.nodes) = false)) ∧ rest.ok

end

end ups_rules.declarators
