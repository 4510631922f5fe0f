-- The tree of the display objects and the index of their codes (o_mkobj.c, o_chds.c, and the flags
-- that o_lptrs.c sets in the tree).
import Ups.MergeSort
import Ups.SiblingLists
import Ups.Trees

open linked_path
open sibling_lists
open trees
open ups_rules.merge_sort

namespace ups_rules.obj_tree

/-! ## The pure model -/

/-- The address of an object, or of a node of the hash table. -/
abbrev Ptr := Nat

/-- `&Rootobj` -/
def Rootobj : Ptr := 0

def HTABSIZE : Nat := 497

/-- A code is a pointer. -/
def HASH (code : Nat) : Nat := code / 8 % HTABSIZE

/-- What the flags of an object take from its type. -/
structure OdFlags where
  nl_after : Bool
  nl_before : Bool
  fixed_size : Bool
  deriving DecidableEq

structure Odesc where
  od_width : Int
  od_depth : Int
  od_child_indent : Int
  od_flags : OdFlags

structure Obj where
  ob_parent : Option Ptr
  ob_child : Option Ptr
  ob_next : Option Ptr
  ob_prev : Option Ptr
  ob_code : Nat
  ob_type : Int
  od_flags : OdFlags
  update_lptrs : Bool
  no_indent : Bool

structure Hash where
  ha_obj : Ptr
  ha_next : Option Ptr

/-- `live` are the objects that `new_obj` has given out and `free_obj` has not got back, `used` the
nodes of the hash table likewise, `made` is how many objects have been made. -/
structure State where
  objs : Ptr → Obj
  live : Ptr → Bool
  Hashtab : Nat → Option Ptr
  hashes : Ptr → Hash
  used : Ptr → Bool
  made : Nat
  Likely1 : Ptr
  Likely2 : Ptr

/-- A fault is a use of a null pointer, or a loop that does not end. -/
inductive Stop where
  | panic (message : String)
  | fault
  deriving DecidableEq

inductive Rel where
  | OBJ_PARENT | OBJ_CHILD | OBJ_LAST_CHILD | OBJ_NEXT | OBJ_PREV
  deriving DecidableEq

inductive Where where
  | OBJ_CHILD | OBJ_LAST_CHILD | OBJ_AFTER | OBJ_BEFORE
  deriving DecidableEq

inductive Which where
  | OBJ_SELF | OBJ_CHILDREN | OBJ_DESCENDENTS
  deriving DecidableEq

namespace State

def parent (s : State) (o : Ptr) : Option Ptr := (s.objs o).ob_parent

def child (s : State) (o : Ptr) : Option Ptr := (s.objs o).ob_child

def next (s : State) (o : Ptr) : Option Ptr := (s.objs o).ob_next

def prev (s : State) (o : Ptr) : Option Ptr := (s.objs o).ob_prev

def code (s : State) (o : Ptr) : Nat := (s.objs o).ob_code

/-- Assignments to members of an object. -/
def set (s : State) (o : Ptr) (f : Obj → Obj) : State :=
  { s with objs := Function.update s.objs o (f (s.objs o)) }

/-- More turns than a loop over the objects takes. -/
def fuel (s : State) : Nat := s.made + 2

end State

/-! ### The index -/

def setLikely (s : State) (obj : Ptr) : State := { s with Likely2 := s.Likely1, Likely1 := obj }

/-- The allocator gives the address `hash` for the new node. -/
def enterObj (s : State) (hash obj : Ptr) (code : Nat) : State :=
  let i := HASH code
  setLikely { s with
    hashes := Function.update s.hashes hash ⟨obj, s.Hashtab i⟩
    used := Function.update s.used hash true
    Hashtab := Function.update s.Hashtab i (some hash) } obj

/-- The loop of `code_to_obj`. -/
def findCode (s : State) (code : Nat) : Nat → Option Ptr → Except Stop Ptr
  | 0, _ => .error .fault
  | _ + 1, none => .error (.panic "attempt to reference nonexistent object")
  | fuel + 1, some p_hash =>
    if s.code (s.hashes p_hash).ha_obj = code then .ok p_hash
    else findCode s code fuel (s.hashes p_hash).ha_next

def codeToObj (s : State) (code : Nat) : Except Stop (State × Ptr) :=
  if s.code s.Likely1 = code then .ok (s, s.Likely1)
  else if s.code s.Likely2 = code then .ok (s, s.Likely2)
  else do
    let p_hash ← findCode s code s.fuel (s.Hashtab (HASH code))
    .ok (setLikely s (s.hashes p_hash).ha_obj, (s.hashes p_hash).ha_obj)

/-- The loop of `unenter_obj`, with `prev_p_hash`. -/
def findObj (s : State) (obj : Ptr) : Nat → Option Ptr → Option Ptr →
    Except Stop (Option Ptr × Ptr)
  | 0, _, _ => .error .fault
  | _ + 1, _, none => .error (.panic "p_hash NULL in unenter_obj")
  | fuel + 1, prev_p_hash, some p_hash =>
    if (s.hashes p_hash).ha_obj = obj then .ok (prev_p_hash, p_hash)
    else findObj s obj fuel (some p_hash) (s.hashes p_hash).ha_next

/-- A node at the head of its list is not freed. -/
def dropHash (s : State) (i : Nat) (prev_p_hash : Option Ptr) (p_hash : Ptr) : State :=
  match prev_p_hash with
  | none => { s with Hashtab := Function.update s.Hashtab i (s.hashes p_hash).ha_next }
  | some prev => { s with
      hashes := Function.update s.hashes prev
        { s.hashes prev with ha_next := (s.hashes p_hash).ha_next }
      used := Function.update s.used p_hash false }

/-- The end of `unenter_obj`. -/
def forget (s : State) (obj : Ptr) : State :=
  if obj = s.Likely1 then { s with Likely1 := Rootobj }
  else if obj = s.Likely2 then { s with Likely2 := Rootobj }
  else s

def unenterObj (s : State) (obj : Ptr) : Except Stop State := do
  let i := HASH (s.code obj)
  let (prev_p_hash, p_hash) ← findObj s obj s.fuel none (s.Hashtab i)
  .ok (forget (dropHash s i prev_p_hash p_hash) obj)

/-! ### The flags -/

/-- The object and those above it. -/
def upwards (s : State) : Nat → Option Ptr → Except Stop (List Ptr)
  | 0, _ => .error .fault
  | _ + 1, none => .ok []
  | fuel + 1, some o => do
    let l ← upwards s fuel (s.parent o)
    .ok (o :: l)

/-- `OB_UPDATE_LPTRS` is set. -/
def flag (s : State) (o : Ptr) : State := s.set o fun obj => { obj with update_lptrs := true }

def setDescUpdateLptrs : Nat → State → Option Ptr → Except Stop State
  | 0, _, _ => .error .fault
  | _ + 1, s, none => .ok s
  | fuel + 1, s, some obj => do
    let s ← if s.child obj = none then .ok s else setDescUpdateLptrs fuel s (s.child obj)
    setDescUpdateLptrs fuel (flag s obj) (s.next obj)

/-- With updating off. The loop stops at the first object that has the flag. -/
def setUpdateLptrs (s : State) (obj : Option Ptr) (recurse : Bool) : Except Stop State := do
  let l ← upwards s s.fuel obj
  let s := (l.takeWhile fun o => !(s.objs o).update_lptrs).foldl flag s
  match recurse, obj with
  | false, _ => .ok s
  | true, none => .error .fault
  | true, some o => setDescUpdateLptrs (s.fuel * s.fuel) s (s.child o)

/-- The loop of `get_indent`. -/
def getIndent (od : Int → Odesc) (s : State) : List Ptr → Int
  | [] => 0
  | [_] => 0
  | obj :: par :: l =>
    (if (s.objs obj).no_indent then 0 else (od (s.objs par).ob_type).od_child_indent) +
      getIndent od s (par :: l)

/-! ### The tree -/

def linkObject (s : State) (obj : Ptr) (par next prev : Option Ptr) : Except Stop State := do
  let s := s.set obj fun o => { o with ob_parent := par, ob_next := next, ob_prev := prev }
  let s := match next with
    | some next => s.set next fun o => { o with ob_prev := some obj }
    | none => s
  let s ← match prev, par with
    | some prev, _ => .ok (s.set prev fun o => { o with ob_next := some obj })
    | none, some par => .ok (s.set par fun o => { o with ob_child := some obj })
    | none, none => .error .fault
  setUpdateLptrs s par false

def unlinkObject (s : State) (obj : Ptr) : Except Stop State := do
  let s ← match s.prev obj, s.parent obj with
    | some prev, _ => .ok (s.set prev fun o => { o with ob_next := s.next obj })
    | none, some par => .ok (s.set par fun o => { o with ob_child := s.next obj })
    | none, none => .error .fault
  let s := match s.next obj with
    | some next => s.set next fun o => { o with ob_prev := s.prev obj }
    | none => s
  setUpdateLptrs s (s.parent obj) false

/-- The objects of a list of children. -/
def children (s : State) : Nat → Option Ptr → Except Stop (List Ptr)
  | 0, _ => .error .fault
  | _ + 1, none => .ok []
  | fuel + 1, some obj => do
    let l ← children s fuel (s.next obj)
    .ok (obj :: l)

def lastChild (s : State) (par : Ptr) : Except Stop (Option Ptr) := do
  let l ← children s s.fuel (s.child par)
  .ok l.getLast?

/-- The allocators give the addresses `obj` and `hash`. -/
def makeObj (od : Int → Odesc) (s : State) (obj hash : Ptr) (par next prev : Option Ptr)
    (code : Nat) (type : Int) : Except Stop State :=
  let s := { s with live := Function.update s.live obj true, made := s.made + 1 }
  let s := enterObj s hash obj code
  let s := s.set obj fun o => { o with
    ob_child := none
    ob_code := code
    ob_type := type
    od_flags := (od type).od_flags
    update_lptrs := false
    no_indent := false }
  linkObject s obj par next prev

/-- The first list of objects is that of the children of an object; the flag says that they have to
go whether they have children or not. -/
def rmObjTrees : Nat → State → Option Ptr → Bool → Except Stop State
  | 0, _, _, _ => .error .fault
  | _ + 1, s, none, _ => .ok s
  | fuel + 1, s, some child, kill_descendents => do
    let next := s.next child
    let s ← if kill_descendents || s.child child == none then do
        -- `rm_obj_tree(child, TRUE, TRUE, TRUE)`
        let s ← rmObjTrees fuel s (s.child child) true
        let s ← unlinkObject s child
        let s ← unenterObj s child
        .ok { s with live := Function.update s.live child false }
      else .ok s
    rmObjTrees fuel s next kill_descendents

def rmObjTree (s : State) (obj : Ptr) (kill_children kill_parent kill_descendents : Bool) :
    Except Stop State := do
  let s ← if kill_children then
      rmObjTrees (s.fuel * s.fuel) s (s.child obj) kill_descendents
    else .ok s
  if kill_parent then do
    let s ← unlinkObject s obj
    let s ← unenterObj s obj
    .ok { s with live := Function.update s.live obj false }
  else .ok s

/-! ### The calls -/

def newObject (od : Int → Odesc) (s : State) (obj hash : Ptr) (code : Nat) (type : Int)
    (poscode : Nat) (wh : Where) : Except Stop State := do
  let (s, pos) ← codeToObj s poscode
  match wh with
  | .OBJ_LAST_CHILD => do
    let last ← lastChild s pos
    makeObj od s obj hash (some pos) none last code type
  | .OBJ_CHILD => makeObj od s obj hash (some pos) (s.child pos) none code type
  | .OBJ_AFTER => makeObj od s obj hash (s.parent pos) (s.next pos) (some pos) code type
  | .OBJ_BEFORE => makeObj od s obj hash (s.parent pos) (some pos) (s.prev pos) code type

def moveObject (od : Int → Odesc) (s : State) (code poscode : Nat) (wh : Where) :
    Except Stop State := do
  let (s, orig) ← codeToObj s code
  let (s, dest) ← codeToObj s poscode
  let above ← upwards s s.fuel (some dest)
  if orig ∈ above then .error (.panic "illegal destination in move_object")
  else do
    let old ← upwards s s.fuel (some orig)
    let old_indent := getIndent od s old
    let s ← unlinkObject s orig
    let s ← match wh with
      | .OBJ_CHILD => linkObject s orig (some dest) (s.child dest) none
      | .OBJ_AFTER => linkObject s orig (s.parent dest) (s.next dest) (some dest)
      | .OBJ_BEFORE => linkObject s orig (s.parent dest) (some dest) (s.prev dest)
      | .OBJ_LAST_CHILD => .error (.panic "unknown where in move_object")
    let new ← upwards s s.fuel (some orig)
    if getIndent od s new = old_indent then .ok s
    else setUpdateLptrs s (some orig) true

/-- With the state, -1 if an object has children that would have to go first, and else 0. -/
def removeObject (s : State) (code : Nat) (which : Which) : Except Stop (State × Int) := do
  let (s, obj) ← codeToObj s code
  match which with
  | .OBJ_SELF =>
    if s.child obj = none then do
      let s ← rmObjTree s obj false true false
      .ok (s, 0)
    else .ok (s, -1)
  | .OBJ_CHILDREN => do
    let s ← rmObjTree s obj true false false
    .ok (s, 0)
  | .OBJ_DESCENDENTS => do
    let s ← rmObjTree s obj true false true
    .ok (s, 0)

/-- The links of the sorted list, and the loop that sets the previous links. -/
def relink (s : State) : Option Ptr → List Ptr → State
  | _, [] => s
  | prev, obj :: l =>
    relink (s.set obj fun o => { o with ob_next := l.head?, ob_prev := prev }) (some obj) l

def sortChildren (s : State) (parcode : Nat) (cmp : Nat → Nat → Int) : Except Stop State := do
  let (s, par) ← codeToObj s parcode
  let l ← children s s.fuel (s.child par)
  let sorted := sortList (fun o1 o2 => cmp (s.code o1) (s.code o2)) l l.length
  let s := s.set par fun o => { o with ob_child := sorted.head? }
  setUpdateLptrs (relink s none sorted) (some par) false

/-- With the state, the code, or the null pointer. -/
def getCode (s : State) (code : Nat) (rel : Rel) : Except Stop (State × Option Nat) := do
  let (s, obj) ← codeToObj s code
  let res ← match rel with
    | .OBJ_PARENT => .ok (s.parent obj)
    | .OBJ_CHILD => .ok (s.child obj)
    | .OBJ_LAST_CHILD => lastChild s obj
    | .OBJ_NEXT => .ok (s.next obj)
    | .OBJ_PREV => .ok (s.prev obj)
  match res with
  | some res => .ok (setLikely s res, some (s.code res))
  | none => .ok (s, none)

/-! ## Runs -/

inductive Op where
  | newObject (obj hash : Ptr) (code : Nat) (type : Int) (poscode : Nat) (wh : Where)
  | moveObject (code poscode : Nat) (wh : Where)
  | removeObject (code : Nat) (which : Which)
  | sortChildren (parcode : Nat) (cmp : Nat → Nat → Int)
  | getCode (code : Nat) (rel : Rel)

def Op.exec (od : Int → Odesc) (s : State) : Op → Except Stop State
  | .newObject obj hash code type poscode wh => obj_tree.newObject od s obj hash code type poscode wh
  | .moveObject code poscode wh => obj_tree.moveObject od s code poscode wh
  | .removeObject code which => do
    let (s, _) ← obj_tree.removeObject s code which
    .ok s
  | .sortChildren parcode cmp => obj_tree.sortChildren s parcode cmp
  | .getCode code rel => do
    let (s, _) ← obj_tree.getCode s code rel
    .ok s

/-- `init_objects`. The other objects hold what is in the memory. -/
def initObjects (od : Int → Odesc) (memory : Ptr → Obj) (hash : Ptr) : State :=
  enterObj {
    objs := Function.update memory Rootobj
      ⟨none, none, none, none, 0, -1, (od (-1)).od_flags, false, false⟩
    live := fun o => o == Rootobj
    Hashtab := fun _ => none
    hashes := fun _ => ⟨Rootobj, none⟩
    used := fun _ => false
    made := 0
    Likely1 := Rootobj
    Likely2 := Rootobj } hash Rootobj 0

/-- The object is the live one with this code. -/
def Named (s : State) (code : Nat) (o : Ptr) : Prop := s.live o = true ∧ s.code o = code

def InUse (s : State) (code : Nat) : Prop := ∃ o, Named s code o

/-- A new object gets a code that is not in use, and free memory. An object goes next to one that
is not the root, and is not moved below itself. -/
def Legal (s : State) : Op → Prop
  | .newObject obj hash code _ poscode wh => s.live obj = false ∧ s.used hash = false ∧
      ¬InUse s code ∧ InUse s poscode ∧ (wh = .OBJ_AFTER ∨ wh = .OBJ_BEFORE → poscode ≠ 0)
  | .moveObject code poscode wh => InUse s code ∧ InUse s poscode ∧ wh ≠ .OBJ_LAST_CHILD ∧
      (wh = .OBJ_AFTER ∨ wh = .OBJ_BEFORE → poscode ≠ 0) ∧
      ∀ orig dest, Named s code orig → Named s poscode dest → ¬Anc s.parent dest orig
  | .removeObject code _ => InUse s code
  | .sortChildren parcode _ => InUse s parcode
  | .getCode code _ => InUse s code

/-- An object that is removed for itself is not in both places of the cache, and is not the root. -/
def Meets (s : State) : Op → Prop
  | .removeObject code .OBJ_SELF => ∀ o, Named s code o → s.child o = none →
      o ≠ Rootobj ∧ ¬(s.Likely1 = o ∧ s.Likely2 = o)
  | _ => True

/-- The states after any run of calls that meet the condition. -/
inductive Reaches (od : Int → Odesc) : State → Prop where
  | init (memory : Ptr → Obj) (hash : Ptr) : Reaches od (initObjects od memory hash)
  | call {s s' : State} (op : Op) (run : Reaches od s) (legal : Legal s op) (meets : Meets s op)
    (step : op.exec od s = .ok s') : Reaches od s'

/-- The live objects are a tree, and its links lead over the children of every object. -/
def TreeLinked (s : State) : Prop :=
  ∃ kids, IsTree Rootobj (fun o => s.live o = true) s.parent kids ∧
    ∀ p, s.live p = true → Linked s.next s.prev none (s.child p) (kids p) none

/-- A code leads to the live object that has it, and is reported if there is none. -/
def Finds (s : State) : Prop :=
  ∀ code, (∀ o, Named s code o → ∃ s', codeToObj s code = .ok (s', o)) ∧
    (¬InUse s code →
      codeToObj s code = .error (.panic "attempt to reference nonexistent object"))

end ups_rules.obj_tree
