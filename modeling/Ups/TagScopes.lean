-- The tags of structs, unions and enums as the parser declares them (ci_decl.c, ci_parse.y), and
-- the scope rules of C.
import Mathlib.Data.List.Basic
import Mathlib.Logic.Function.Basic

namespace ups_rules.tag_scopes

/-! ## The pure model -/

inductive Kind where
  | struct
  | union
  | enum
deriving DecidableEq

/-- The typecode_t of a tag's type; the undefined ones are of incomplete types. -/
inductive Typecode where
  | TY_STRUCT
  | TY_UNION
  | TY_ENUM
  | TY_U_STRUCT
  | TY_U_UNION
  | TY_U_ENUM
deriving DecidableEq

def Kind.defined : Kind → Typecode
  | struct => .TY_STRUCT
  | union => .TY_UNION
  | enum => .TY_ENUM

def Kind.undefined : Kind → Typecode
  | struct => .TY_U_STRUCT
  | union => .TY_U_UNION
  | enum => .TY_U_ENUM

def Typecode.kind : Typecode → Kind
  | TY_STRUCT => .struct
  | TY_UNION => .union
  | TY_ENUM => .enum
  | TY_U_STRUCT => .struct
  | TY_U_UNION => .union
  | TY_U_ENUM => .enum

/-- An identifier_t; `id_lexinfo` says where it stands. -/
structure Identifier where
  id_name : String
  id_lexinfo : Nat
  id_semi_follows : Bool
deriving DecidableEq

/-- An aggr_or_enum_def_t with its type, which `ae_type` identifies. -/
structure AggrOrEnumDef where
  ae_tag : Option String
  ae_type : Nat
  ty_code : Typecode
  ae_is_complete : Bool
  ae_lexinfo : Option Nat
  ae_members : List String
deriving DecidableEq

/-- The arguments of `report_redecl`. -/
structure Redecl where
  tag : String
  lexinfo : Nat
  old_lexinfo : Option Nat
deriving DecidableEq

/-- The `bl_aggr_or_enum_defs` of `Current_block` and of its parents, and the number of types made. -/
structure State where
  blocks : List (List AggrOrEnumDef)
  ntypes : Nat
  errors : List Redecl
deriving DecidableEq

/-- `ci_apply_to_aelist` with `find_tag`. -/
def findTag (defs : List AggrOrEnumDef) (tag : String) : Option AggrOrEnumDef :=
  defs.find? fun ae => ae.ae_tag = some tag

/-- The loop over the blocks, with the number of blocks between `Current_block` and the one found. -/
def lookupTag : List (List AggrOrEnumDef) → String → Option (Nat × AggrOrEnumDef)
  | [], _ => none
  | defs :: blocks, tag =>
    match findTag defs tag with
    | some ae => some (0, ae)
    | none => (lookupTag blocks tag).map fun (depth, ae) => (depth + 1, ae)

/-- The fields that change when an incomplete type is completed. -/
def AggrOrEnumDef.assign (ae : AggrOrEnumDef) (typecode : Typecode) (id : Option Identifier)
    (new_is_complete : Bool) (members : List String) : AggrOrEnumDef :=
  { ae with
    ae_is_complete := new_is_complete
    ty_code := typecode
    ae_lexinfo := match id with
      | some id => some id.id_lexinfo
      | none => ae.ae_lexinfo
    ae_members := members }

/-- A definition is changed where it is. -/
def updateDef (blocks : List (List AggrOrEnumDef)) (ae_type : Nat)
    (f : AggrOrEnumDef → AggrOrEnumDef) : List (List AggrOrEnumDef) :=
  blocks.map fun defs => defs.map fun ae => if ae.ae_type = ae_type then f ae else ae

/-- `ci_make_aggr_or_enum_def`, in front of the others of `Current_block`. -/
def makeDef (st : State) (typecode : Typecode) (id : Option Identifier) (new_is_complete : Bool)
    (members : List String) : Option (State × Nat) :=
  match st.blocks with
  | [] => none
  | defs :: blocks =>
    let ae : AggrOrEnumDef := ⟨id.map Identifier.id_name, st.ntypes, typecode, false, none, []⟩
    let ae := ae.assign typecode id new_is_complete members
    some ({ st with blocks := (ae :: defs) :: blocks, ntypes := st.ntypes + 1 }, st.ntypes)

/-- The type that a tag denotes; `none` is a NULL `Current_block`. -/
def ciBuildAggrOrEnumDef (st : State) (typecode : Typecode) (id : Option Identifier)
    (new_is_complete : Bool) (members : List String) (is_definition : Bool) :
    Option (State × Nat) :=
  match id with
  | none => makeDef st typecode none new_is_complete members
  | some id =>
    match lookupTag st.blocks id.id_name with
    | none => makeDef st typecode (some id) new_is_complete members
    | some (depth, ae) =>
      if ae.ae_is_complete then
        if depth = 0 ∧ !new_is_complete then some (st, ae.ae_type)
        else if depth = 0 ∧ new_is_complete then
          let st := { st with errors := st.errors ++ [⟨id.id_name, id.id_lexinfo, ae.ae_lexinfo⟩] }
          makeDef st typecode (some id) new_is_complete members
        else if new_is_complete ∨ (!new_is_complete ∧ id.id_semi_follows) then
          makeDef st typecode (some id) new_is_complete members
        else if is_definition then makeDef st typecode (some id) new_is_complete members
        else some (st, ae.ae_type)
      else if depth = 0 ∧ !new_is_complete then some (st, ae.ae_type)
      else
        let f := fun ae : AggrOrEnumDef => ae.assign typecode (some id) new_is_complete members
        some ({ st with blocks := updateDef st.blocks ae.ae_type f }, ae.ae_type)

/-- What the parser comes to, outside parameter lists. -/
inductive Op where
  | start_block
  | end_block
  /-- `struct tag` without members, also in `struct tag;`. -/
  | reference (kind : Kind) (id : Identifier)
  /-- The `struct tag` in front of a list of members. -/
  | define_begin (kind : Kind) (id : Identifier)
  /-- The end of the list of members, or an enum with its members. -/
  | define_end (kind : Kind) (id : Identifier) (members : List String)
  | anonymous (kind : Kind) (members : List String)
deriving DecidableEq

/-- The state after the operation, and the type that an occurrence of a tag denotes. -/
def Op.exec (st : State) : Op → Option (State × Option Nat)
  | start_block => some ({ st with blocks := [] :: st.blocks }, none)
  | end_block =>
    match st.blocks with
    | [] => none
    | _ :: blocks => some ({ st with blocks := blocks }, none)
  | reference kind id =>
    (ciBuildAggrOrEnumDef st kind.undefined (some id) false [] false).map
      fun (st, type) => (st, some type)
  | define_begin kind id =>
    (ciBuildAggrOrEnumDef st kind.undefined (some id) false [] true).map fun (st, _) => (st, none)
  | define_end kind id members =>
    (ciBuildAggrOrEnumDef st kind.defined (some id) true members false).map
      fun (st, type) => (st, some type)
  | anonymous kind members =>
    (ciBuildAggrOrEnumDef st kind.defined none true members false).map
      fun (st, type) => (st, some type)

def exec (st : State) : List Op → Option (State × List (Option Nat))
  | [] => some (st, [])
  | op :: ops =>
    match op.exec st with
    | none => none
    | some (st, type) => (exec st ops).map fun (st, types) => (st, type :: types)

/-- The outermost block, without tags. -/
def State.start : State := ⟨[[]], 0, []⟩

/-! ## The rules of C -/

/-- A type, with its members once it is complete. -/
structure CType where
  kind : Kind
  members : Option (List String)
deriving DecidableEq

inductive CError where
  | redefinition (tag : String)
  | wrong_kind (tag : String)
deriving DecidableEq

/-- The tags of each scope, the innermost first, and the types. -/
structure CState where
  scopes : List (String → Option Nat)
  types : Nat → Option CType
  ntypes : Nat
  errors : List CError

def CState.start : CState := ⟨[fun _ => none], fun _ => none, 0, []⟩

/-- The tag of the innermost scope that has it. -/
def visible : List (String → Option Nat) → String → Option Nat
  | [], _ => none
  | scope :: scopes, tag => (scope tag).or (visible scopes tag)

/-- A new type for a tag of the current scope. -/
def CState.declare (c : CState) (tag : Option String) (type : CType) : Option (CState × Nat) :=
  match c.scopes with
  | [] => none
  | scope :: scopes =>
    let scope := match tag with
      | some tag => Function.update scope tag (some c.ntypes)
      | none => scope
    some ({ c with
      scopes := scope :: scopes
      types := Function.update c.types c.ntypes (some type)
      ntypes := c.ntypes + 1 }, c.ntypes)

def CState.error (c : CState) (e : CError) : CState := { c with errors := c.errors ++ [e] }

/-- The tag denotes type `t`, which has to be of the kind. -/
def CState.use (c : CState) (kind : Kind) (tag : String) (t : Nat) : CState × Nat :=
  if (c.types t).map CType.kind = some kind then (c, t) else (c.error (.wrong_kind tag), t)

/-- `struct tag` and `struct tag;`: the latter looks at the current scope only. -/
def CState.reference (c : CState) (kind : Kind) (id : Identifier) : Option (CState × Nat) :=
  let scopes := if id.id_semi_follows then c.scopes.take 1 else c.scopes
  match visible scopes id.id_name with
  | some t => some (c.use kind id.id_name t)
  | none => c.declare (some id.id_name) ⟨kind, none⟩

/-- A definition starts: from here on the tag is one of the current scope. -/
def CState.defineBegin (c : CState) (kind : Kind) (id : Identifier) : Option (CState × Nat) :=
  match visible (c.scopes.take 1) id.id_name with
  | some t =>
    match c.types t with
    | some ⟨_, some _⟩ => some (c, t)
    | _ => some (c.use kind id.id_name t)
  | none => c.declare (some id.id_name) ⟨kind, none⟩

/-- A definition completes an incomplete tag of the current scope, and else makes a new type. -/
def CState.defineEnd (c : CState) (kind : Kind) (id : Identifier) (members : List String) :
    Option (CState × Nat) :=
  match visible (c.scopes.take 1) id.id_name with
  | some t =>
    match c.types t with
    | some ⟨_, some _⟩ =>
      (c.error (.redefinition id.id_name)).declare (some id.id_name) ⟨kind, some members⟩
    | _ =>
      let (c, t) := c.use kind id.id_name t
      some ({ c with types := Function.update c.types t (some ⟨kind, some members⟩) }, t)
  | none => c.declare (some id.id_name) ⟨kind, some members⟩

def Op.cExec (c : CState) : Op → Option (CState × Option Nat)
  | start_block => some ({ c with scopes := (fun _ => none) :: c.scopes }, none)
  | end_block =>
    match c.scopes with
    | [] => none
    | _ :: scopes => some ({ c with scopes := scopes }, none)
  | reference kind id => (c.reference kind id).map fun (c, t) => (c, some t)
  | define_begin kind id => (c.defineBegin kind id).map fun (c, _) => (c, none)
  | define_end kind id members => (c.defineEnd kind id members).map fun (c, t) => (c, some t)
  | anonymous kind members =>
    (c.declare none ⟨kind, some members⟩).map fun (c, t) => (c, some t)

def cExec (c : CState) : List Op → Option (CState × List (Option Nat))
  | [] => some (c, [])
  | op :: ops =>
    match op.cExec c with
    | none => none
    | some (c, type) => (cExec c ops).map fun (c, types) => (c, type :: types)

/-! ## Where the code keeps the rules -/

/-- The operation does not find an incomplete tag of an outer block where it declares one, and uses
no tag with the wrong kind. -/
def Op.keeps (st : State) : Op → Prop
  | reference kind id =>
    match lookupTag st.blocks id.id_name with
    | none => True
    | some (depth, ae) =>
      if id.id_semi_follows ∧ depth ≠ 0 then ae.ae_is_complete = true
      else ae.ty_code.kind = kind
  | define_begin kind id | define_end kind id _ =>
    match lookupTag st.blocks id.id_name with
    | none => True
    | some (depth, ae) => ae.ae_is_complete = true ∨ (depth = 0 ∧ ae.ty_code.kind = kind)
  | _ => True

/-- Every operation of the run keeps the rules in the state it is done in. -/
def Keeps (st : State) : List Op → Prop
  | [] => True
  | op :: ops => op.keeps st ∧
    match op.exec st with
    | none => True
    | some (st, _) => Keeps st ops

end ups_rules.tag_scopes
