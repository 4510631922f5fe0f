-- The selected objects (o_sel.c): the flags of the objects, the internal list of those whose state
-- has changed, and the calls of the user's functions, some of which wait until updating is on.
import Ups.ObjRuns

open trees
open ups_rules.obj_tree

namespace ups_rules.selection

/-! ## The pure model -/

inductive NewState where
  | SEL_OFF | SEL_ON | SEL_FLIP
  deriving DecidableEq

def NewState.of (old : Bool) : NewState → Bool
  | .SEL_OFF => false
  | .SEL_ON => true
  | .SEL_FLIP => !old

/-- Who calls an `od_select` function. -/
inductive Caller where
  | SEL_CLEARING | SEL_SELECTING | SEL_UPDATING | SEL_PUCKSELECT | SEL_DELETING
  deriving DecidableEq

/-- A call of an `od_select` function: the code of the object, and the flags. -/
structure Report where
  code : Nat
  on : Bool
  was_on : Bool
  visible : Bool
  changing : Bool
  caller : Caller
  deriving DecidableEq

structure Flags where
  highlighted : Bool
  in_sel_list : Bool
  usersel_pending : Bool
  selected : Bool
  deriving DecidableEq

/-- A new object has no flags but those of its type. -/
def noFlags : Flags := ⟨false, false, false, false⟩

structure Isel where
  is_obj : Ptr
  is_level : Nat

structure Selst where
  se_code : Nat
  se_user : Int
  deriving DecidableEq

/-- `head_sel` is that of `get_selection`, and `reports` are the calls of the user's functions. -/
structure Sel where
  flags : Ptr → Flags
  Head_isel : List Isel
  Obj_selection_changed : Bool
  Select_pending : Bool
  Updating_state : Bool
  Num_selected : Nat
  head_sel : List Selst
  reports : List Report

/-- The user's `od_can_select` functions, and whether an object is on the screen, which scrolling
and the layout change. -/
structure Env where
  od_can_select : Int → Nat → Bool
  on_screen : List Report → Ptr → Bool

def Sel.set (s : Sel) (obj : Ptr) (f : Flags → Flags) : Sel :=
  { s with flags := Function.update s.flags obj (f (s.flags obj)) }

def canSelect (env : Env) (t : State) (obj : Ptr) : Bool :=
  env.od_can_select (t.objs obj).ob_type (t.code obj)

/-- A call of an `od_select` function. -/
def Sel.report (s : Sel) (r : Report) : Sel := { s with reports := s.reports ++ [r] }

/-- The object is drawn as its new state wants it. -/
def uselect (env : Env) (t : State) (s : Sel) (obj : Ptr) (new_state : NewState) (changing : Bool)
    (caller : Caller) : Sel :=
  let old_state := (s.flags obj).highlighted
  let new_state := new_state.of old_state
  (s.set obj fun fl => { fl with highlighted := new_state }).report
    ⟨t.code obj, new_state, old_state, env.on_screen s.reports obj, changing, caller⟩

/-- The object gets on the list. -/
def enterIsel (s : Sel) (obj : Ptr) : Sel :=
  if (s.flags obj).in_sel_list then s
  else { s.set obj fun fl => { fl with in_sel_list := true } with
    Head_isel := ⟨obj, 0⟩ :: s.Head_isel }

/-- The end of `sel_obj`: the user is told of the change, and draws it at once or when updating is
turned on. A change that has waited for that is undone by this one. -/
def tell (env : Env) (t : State) (s : Sel) (obj : Ptr) (new_state old_state : Bool)
    (caller : Caller) : Sel :=
  if (s.flags obj).usersel_pending then
    (s.report ⟨t.code obj, new_state, old_state, false, true, caller⟩).set obj fun fl =>
      { fl with usersel_pending := false }
  else if s.Updating_state then
    uselect env t s obj (if new_state then .SEL_ON else .SEL_OFF) true caller
  else
    { (s.report ⟨t.code obj, new_state, old_state, false, true, caller⟩).set obj fun fl =>
        { fl with usersel_pending := true } with Select_pending := true }

def selObj (env : Env) (t : State) (s : Sel) (obj : Ptr) (new_state : NewState) (caller : Caller) :
    Sel :=
  let old_state := (s.flags obj).selected
  let new_state := new_state.of old_state
  if canSelect env t obj = false ∨ old_state = new_state then s
  else
    let s := enterIsel s obj
    let s := { s.set obj fun fl => { fl with selected := new_state } with
      Obj_selection_changed := true }
    tell env t s obj new_state old_state caller

/-- `sel_obj_tree` for the objects of a list of children, with what is below them. -/
def selObjTrees (env : Env) (t : State) (new_state : NewState) :
    Nat → Sel → Option Ptr → Bool → Except Stop Sel
  | 0, _, _, _ => .error .fault
  | _ + 1, s, none, _ => .ok s
  | fuel + 1, s, some obj, sel_descendents => do
    let s ← if sel_descendents then selObjTrees env t new_state fuel s (t.child obj) true else .ok s
    let s := selObj env t s obj new_state .SEL_SELECTING
    selObjTrees env t new_state fuel s (t.next obj) sel_descendents

def selObjTree (env : Env) (t : State) (s : Sel) (par : Ptr)
    (sel_self sel_children sel_descendents : Bool) (new_state : NewState) : Except Stop Sel := do
  let s ← if sel_children then
      selObjTrees env t new_state (t.fuel * t.fuel) s (t.child par) sel_descendents
    else .ok s
  .ok (if sel_self then selObj env t s par new_state .SEL_SELECTING else s)

/-- The switch of `select_object`. -/
def selectWhich (env : Env) (t : State) (s : Sel) (obj : Ptr) (val : NewState) :
    Which → Except Stop Sel
  | .OBJ_SELF => selObjTree env t s obj true false false val
  | .OBJ_CHILDREN => selObjTree env t s obj false true false val
  | .OBJ_DESCENDENTS => selObjTree env t s obj false true true val

def selectObject (env : Env) (t : State) (s : Sel) (code : Nat) (val : NewState) (which : Which) :
    Except Stop (State × Sel) := do
  let (t, obj) ← codeToObj t code
  let s ← selectWhich env t s obj val which
  .ok (t, s)

/-- The bits that `deselect` clears. -/
def Flags.cleared (fl : Flags) : Flags :=
  { fl with highlighted := false, usersel_pending := false, in_sel_list := false }

/-- The node of the object is searched to no end. -/
def deselect (env : Env) (t : State) (s : Sel) (obj : Ptr) : Except Stop Sel :=
  let s := { s with Obj_selection_changed := true }
  let front := s.Head_isel.takeWhile fun isel => isel.is_obj != obj
  match s.Head_isel.dropWhile fun isel => isel.is_obj != obj with
  | [] => .error .fault
  | _ :: after =>
    let s := if (s.flags obj).selected then selObj env t s obj .SEL_OFF .SEL_DELETING else s
    .ok { s.set obj Flags.cleared with Head_isel := front ++ after }

/-! ### Removing objects -/

/-- The end of `rm_obj_tree`. -/
def killParent (env : Env) (t : State) (s : Sel) (obj : Ptr) : Except Stop (State × Sel) := do
  let s ← if (s.flags obj).in_sel_list then deselect env t s obj else .ok s
  let t ← unlinkObject t obj
  let t ← unenterObj t obj
  .ok ({ t with live := Function.update t.live obj false }, s)

def rmObjTrees (env : Env) : Nat → State → Sel → Option Ptr → Bool → Except Stop (State × Sel)
  | 0, _, _, _, _ => .error .fault
  | _ + 1, t, s, none, _ => .ok (t, s)
  | fuel + 1, t, s, some child, kill_descendents => do
    let next := t.next child
    let (t, s) ← if kill_descendents || t.child child == none then do
        let (t, s) ← rmObjTrees env fuel t s (t.child child) true
        killParent env t s child
      else .ok (t, s)
    rmObjTrees env fuel t s next kill_descendents

def rmObjTree (env : Env) (t : State) (s : Sel) (obj : Ptr)
    (kill_children kill_parent kill_descendents : Bool) : Except Stop (State × Sel) := do
  let (t, s) ← if kill_children then
      rmObjTrees env (t.fuel * t.fuel) t s (t.child obj) kill_descendents
    else .ok (t, s)
  if kill_parent then killParent env t s obj else .ok (t, s)

def removeObject (env : Env) (t : State) (s : Sel) (code : Nat) (which : Which) :
    Except Stop (State × Sel) := do
  let (t, obj) ← codeToObj t code
  match which with
  | .OBJ_SELF =>
    if t.child obj = none then rmObjTree env t s obj false true false else .ok (t, s)
  | .OBJ_CHILDREN => rmObjTree env t s obj true false false
  | .OBJ_DESCENDENTS => rmObjTree env t s obj true false true

/-! ### Clearing the selection, and turning updating on -/

/-- The loop of `clear_selection`. A node that is taken off goes to the free list. -/
def clearLoop (env : Env) (t : State) (s : Sel) (newhead : List Isel) : List Isel → Sel
  | [] => { s with Head_isel := newhead }
  | isel :: l =>
    let s := if (s.flags isel.is_obj).selected then
        selObj env t s isel.is_obj .SEL_OFF .SEL_CLEARING
      else s
    if (s.flags isel.is_obj).usersel_pending then clearLoop env t s (isel :: newhead) l
    else clearLoop env t (s.set isel.is_obj fun fl => { fl with in_sel_list := false }) newhead l

def clearSelection (env : Env) (t : State) (s : Sel) : Sel := clearLoop env t s [] s.Head_isel

def doPendingSelection (env : Env) (t : State) (s : Sel) : Sel :=
  if s.Select_pending then
    let s := s.Head_isel.foldl (fun s isel =>
      if (s.flags isel.is_obj).usersel_pending then
        (uselect env t s isel.is_obj .SEL_FLIP false .SEL_UPDATING).set isel.is_obj fun fl =>
          { fl with usersel_pending := false }
      else s) s
    { s with Select_pending := false }
  else s

/-- `OBJ_UPDATING_QUERY` is none. With the old state. -/
def updating (env : Env) (t : State) (s : Sel) (new_state : Option Bool) : Sel × Bool :=
  match new_state with
  | none => (s, s.Updating_state)
  | some new_state =>
    if new_state = s.Updating_state then (s, s.Updating_state)
    else
      let old_state := s.Updating_state
      let s := { s with Updating_state := new_state }
      (if new_state then doPendingSelection env t s else s, old_state)

/-! ### Asking for the selection -/

def getNumSelected (s : Sel) : Sel × Nat :=
  let s := if s.Obj_selection_changed then
      { s with Num_selected := s.Head_isel.countP fun isel => (s.flags isel.is_obj).selected }
    else s
  (s, s.Num_selected)

/-- The loop of `get_unordered_selection`. -/
def unorderedLoop (t : State) (s : Sel) (newlist : List Isel) (head_sel : List Selst) :
    List Isel → Sel × List Selst
  | [] => ({ s with Head_isel := newlist, Num_selected := head_sel.length }, head_sel)
  | isel :: l =>
    let selected := (s.flags isel.is_obj).selected
    let head_sel := if selected then ⟨t.code isel.is_obj, -1⟩ :: head_sel else head_sel
    if selected || (s.flags isel.is_obj).usersel_pending then
      unorderedLoop t s (isel :: newlist) head_sel l
    else
      unorderedLoop t (s.set isel.is_obj fun fl => { fl with in_sel_list := false }) newlist
        head_sel l

def getUnorderedSelection (t : State) (s : Sel) : Sel × List Selst :=
  unorderedLoop t s [] [] s.Head_isel

def MAX_LEVEL : Nat := 30000

/-- The depth of a selected object. -/
def levelOf (t : State) (s : Sel) (obj : Ptr) : Except Stop Nat :=
  if (s.flags obj).selected then do
    let above ← upwards t t.fuel (some obj)
    .ok above.length
  else .ok MAX_LEVEL

/-- The nodes of the list get the depths of their objects. -/
def setLevels (t : State) (s : Sel) : List Isel → Except Stop (List Isel)
  | [] => .ok []
  | isel :: l => do
    let level ← levelOf t s isel.is_obj
    let l ← setLevels t s l
    .ok ({ isel with is_level := level } :: l)

/-- One turn of the loop over the depths: the objects of this one are put on the list. -/
def selectLevel (t : State) (level : Nat) (head_sel : List Selst) (next_level : Nat) :
    List Isel → List Isel × List Selst × Nat
  | [] => ([], head_sel, next_level)
  | isel :: l =>
    if isel.is_level = level then
      let (l, head_sel, next_level) :=
        selectLevel t level (⟨t.code isel.is_obj, isel.is_level⟩ :: head_sel) next_level l
      ({ isel with is_level := MAX_LEVEL } :: l, head_sel, next_level)
    else
      let next_level := if isel.is_level < next_level then isel.is_level else next_level
      let (l, head_sel, next_level) := selectLevel t level head_sel next_level l
      (isel :: l, head_sel, next_level)

def levelLoop (t : State) : Nat → Nat → List Isel → List Selst →
    Except Stop (List Isel × List Selst)
  | 0, _, _, _ => .error .fault
  | fuel + 1, level, l, head_sel =>
    if level < MAX_LEVEL then
      let (l, head_sel, next_level) := selectLevel t level head_sel MAX_LEVEL l
      levelLoop t fuel next_level l head_sel
    else .ok (l, head_sel)

def getSelection (t : State) (s : Sel) : Except Stop (Sel × List Selst) :=
  if s.Obj_selection_changed = false then .ok (s, s.head_sel)
  else do
    let l ← setLevels t s s.Head_isel
    let min_level := l.foldl (fun level isel => min level isel.is_level) MAX_LEVEL
    let (l, head_sel) ← levelLoop t (l.length + 1) min_level l []
    .ok ({ s with
      Head_isel := l
      Num_selected := head_sel.length
      head_sel := head_sel
      Obj_selection_changed := false }, head_sel)

/-- The list is turned round in place, and its first element is then the last one. -/
def getReverseSelection (t : State) (s : Sel) : Except Stop (Sel × List Selst) := do
  let (s, sel) ← getSelection t s
  .ok ({ s with head_sel := sel.take 1, Obj_selection_changed := true }, sel.reverse)

/-! ### Runs -/

inductive Call where
  | tree (op : Op)
  | select_object (code : Nat) (val : NewState) (which : Which)
  /-- With the object that `getobj` finds. -/
  | select_object_at (hit : Option Ptr)
  | clear_selection
  | updating (new_state : Option Bool)
  | get_num_selected
  | get_selection
  | get_unordered_selection
  | get_reverse_selection

inductive Answer where
  | nothing
  | state (old : Bool)
  | number (n : Nat)
  | list (l : List Selst)

def Call.exec (env : Env) (od : Int → Odesc) (t : State) (s : Sel) :
    Call → Except Stop (State × Sel × Answer)
  | .tree (.removeObject code which) => do
    let (t, s) ← selection.removeObject env t s code which
    .ok (t, s, .nothing)
  | .tree (.newObject obj hash code type poscode wh) => do
    let t ← newObject od t obj hash code type poscode wh
    .ok (t, s.set obj fun _ => noFlags, .nothing)
  | .tree op => do
    let t ← op.exec od t
    .ok (t, s, .nothing)
  | .select_object code val which => do
    let (t, s) ← selectObject env t s code val which
    .ok (t, s, .nothing)
  | .select_object_at none => .ok (t, s, .nothing)
  | .select_object_at (some obj) =>
    .ok (t, selObj env t s obj .SEL_FLIP .SEL_PUCKSELECT, .nothing)
  | .clear_selection => .ok (t, clearSelection env t s, .nothing)
  | .updating new_state =>
    let (s, old) := selection.updating env t s new_state
    .ok (t, s, .state old)
  | .get_num_selected =>
    let (s, n) := getNumSelected s
    .ok (t, s, .number n)
  | .get_selection => do
    let (s, sel) ← getSelection t s
    .ok (t, s, .list sel)
  | .get_unordered_selection =>
    let (s, sel) := getUnorderedSelection t s
    .ok (t, s, .list sel)
  | .get_reverse_selection => do
    let (s, sel) ← getReverseSelection t s
    .ok (t, s, .list sel)

def start (flags : Ptr → Flags) : Sel where
  flags := Function.update flags Rootobj noFlags
  Head_isel := []
  Obj_selection_changed := true
  Select_pending := false
  Updating_state := false
  Num_selected := 0
  head_sel := []
  reports := []

/-! ## The selection as a set -/

def NewState.Wants (old : Prop) : NewState → Prop
  | .SEL_OFF => False
  | .SEL_ON => True
  | .SEL_FLIP => ¬old

def Targets (t : State) (obj : Ptr) : Which → Set Ptr
  | .OBJ_SELF => {obj}
  | .OBJ_CHILDREN => {x | t.parent x = some obj}
  | .OBJ_DESCENDENTS => {x | x ≠ obj ∧ Anc t.parent x obj}

/-- Of the targets those change that can be selected. -/
def chosen (env : Env) (t : State) (S targets : Set Ptr) (new_state : NewState) : Set Ptr :=
  {x | x ∈ targets ∧ canSelect env t x = true ∧ new_state.Wants (x ∈ S) ∨
    ¬(x ∈ targets ∧ canSelect env t x = true) ∧ x ∈ S}

/-- The selected objects after a call. -/
def Call.onSelection (env : Env) (t : State) (S : Set Ptr) : Call → Set Ptr
  | .tree (.newObject obj ..) => S \ {obj}
  | .select_object code val which =>
    chosen env t S {x | ∃ obj, Named t code obj ∧ x ∈ Targets t obj which} val
  | .select_object_at (some obj) => chosen env t S {obj} .SEL_FLIP
  | .clear_selection => ∅
  | _ => S

/-- What a user knows who flips the state of an object whenever it is reported as changing. -/
def remembered (reports : List Report) (code : Nat) : Bool :=
  reports.foldl (fun known r => if r.changing && r.code == code then !known else known) false

def objects (s : Sel) : List Ptr := s.Head_isel.map Isel.is_obj

variable {env : Env} {od : Int → Odesc} {t t' : State} {s s' : Sel} {S S' : Set Ptr}
  {l l' : List Ptr} {obj o x : Ptr} {new_state : NewState} {caller : Caller} {code : Nat}
  {b : Bool} {p fresh fresh' : Prop}

/-- What holds of the flags, a list of objects and the reports while a call works on them. -/
structure Kept (env : Env) (t : State) (S : Set Ptr) (l : List Ptr) (s : Sel) : Prop where
  nodup : l.Nodup
  mem : ∀ o, o ∈ l ↔ t.live o = true ∧ (s.flags o).in_sel_list = true
  selected : ∀ o, t.live o = true → ((s.flags o).selected = true ↔ o ∈ S)
  listed : ∀ o, t.live o = true →
    (s.flags o).selected = true ∨ (s.flags o).usersel_pending = true →
      (s.flags o).in_sel_list = true
  can : ∀ o, t.live o = true → (s.flags o).in_sel_list = true → canSelect env t o = true
  drawn : ∀ o, t.live o = true →
    (s.flags o).highlighted = ((s.flags o).selected ^^ (s.flags o).usersel_pending)
  waits : ∀ o, t.live o = true → (s.flags o).usersel_pending = true → s.Select_pending = true
  told : ∀ code, remembered s.reports code = true ↔ ∃ o, Named t code o ∧ o ∈ S

/-- With updating on, nothing waits. -/
def Quiet (t : State) (s : Sel) : Prop :=
  s.Updating_state = true → ∀ o, t.live o = true → (s.flags o).usersel_pending = false

/-! ## One object -/

theorem remembered_append (reports : List Report) (r : Report) (code : Nat) :
    remembered (reports ++ [r]) code =
      if r.changing && r.code == code then !remembered reports code
      else remembered reports code := by
  rw [remembered, List.foldl_append]
  rfl

@[simp] theorem set_flags_self (s : Sel) (obj : Ptr) (f : Flags → Flags) :
    (s.set obj f).flags obj = f (s.flags obj) := Function.update_self ..

theorem set_flags_of_ne (s : Sel) (f : Flags → Flags) (h : x ≠ obj) :
    (s.set obj f).flags x = s.flags x := Function.update_of_ne h ..

/-- What `sel_obj` does to an object whose state changes. -/
structure Flips (t : State) (obj : Ptr) (s s' : Sel) : Prop where
  other : ∀ x, x ≠ obj → s'.flags x = s.flags x
  selected : (s'.flags obj).selected = !(s.flags obj).selected
  in_sel_list : (s'.flags obj).in_sel_list = true
  Head_isel : s'.Head_isel =
    if (s.flags obj).in_sel_list then s.Head_isel else ⟨obj, 0⟩ :: s.Head_isel
  drawn : (s.flags obj).highlighted = ((s.flags obj).selected ^^ (s.flags obj).usersel_pending) →
    (s'.flags obj).highlighted = ((s'.flags obj).selected ^^ (s'.flags obj).usersel_pending)
  pending : (s'.flags obj).usersel_pending = true → s'.Select_pending = true
  waits : s.Select_pending = true → s'.Select_pending = true
  Updating_state : s'.Updating_state = s.Updating_state
  quiet : s.Updating_state = true → (s'.flags obj).usersel_pending = false
  changed : s'.Obj_selection_changed = true
  reports : ∀ code, remembered s'.reports code =
    if t.code obj = code then !remembered s.reports code else remembered s.reports code

@[simp] theorem report_flags (s : Sel) (r : Report) : (s.report r).flags = s.flags := rfl

theorem enterIsel_facts (s : Sel) (obj : Ptr) :
    (∀ x, x ≠ obj → (enterIsel s obj).flags x = s.flags x) ∧
      (enterIsel s obj).flags obj = { s.flags obj with in_sel_list := true } ∧
      (enterIsel s obj).Head_isel =
        (if (s.flags obj).in_sel_list then s.Head_isel else ⟨obj, 0⟩ :: s.Head_isel) ∧
      (enterIsel s obj).Updating_state = s.Updating_state ∧
      (enterIsel s obj).Select_pending = s.Select_pending ∧
      (enterIsel s obj).reports = s.reports := by
  unfold enterIsel
  split
  · rename_i h
    refine ⟨fun _ _ => rfl, ?_, rfl, rfl, rfl, rfl⟩
    rw [← h]
  · exact ⟨fun x hx => Function.update_of_ne hx .., Function.update_self .., rfl, rfl, rfl, rfl⟩

theorem remembered_report (reports : List Report) (caller : Caller) (on was_on visible : Bool)
    (obj code : Nat) :
    remembered (reports ++ [⟨obj, on, was_on, visible, true, caller⟩]) code =
      if obj = code then !remembered reports code else remembered reports code := by
  rw [remembered_append]
  dsimp only
  simp only [Bool.true_and, beq_iff_eq]

/-- What `tell` leaves, if the selected flag has just changed. -/
structure Told (t : State) (obj : Ptr) (new_state : Bool) (s s' : Sel) : Prop where
  other : ∀ x, x ≠ obj → s'.flags x = s.flags x
  selected : (s'.flags obj).selected = (s.flags obj).selected
  in_sel_list : (s'.flags obj).in_sel_list = (s.flags obj).in_sel_list
  Head_isel : s'.Head_isel = s.Head_isel
  Updating_state : s'.Updating_state = s.Updating_state
  changed : s'.Obj_selection_changed = s.Obj_selection_changed
  waits : s.Select_pending = true → s'.Select_pending = true
  pending : (s'.flags obj).usersel_pending = true → s'.Select_pending = true
  quiet : s.Updating_state = true → (s'.flags obj).usersel_pending = false
  drawn : (s.flags obj).highlighted = (!new_state ^^ (s.flags obj).usersel_pending) →
    (s'.flags obj).highlighted = (new_state ^^ (s'.flags obj).usersel_pending)
  reports : ∀ code, remembered s'.reports code =
    if t.code obj = code then !remembered s.reports code else remembered s.reports code

theorem tell_told (env : Env) (t : State) (s : Sel) (obj : Ptr) (new_state old_state : Bool)
    (caller : Caller) : Told t obj new_state s (tell env t s obj new_state old_state caller) := by
  unfold tell
  split
  · rename_i hpending
    refine ⟨fun x hx => Function.update_of_ne hx .., by simp, by simp, rfl, rfl, rfl, id, ?_,
      fun _ => by simp, ?_, fun code => remembered_report ..⟩
    · intro h
      simp at h
    · intro h
      simpa [hpending] using h
  · rename_i hpending
    split
    · rename_i hupdating
      unfold uselect
      refine ⟨fun x hx => Function.update_of_ne hx .., by simp, by simp, rfl, rfl, rfl, id, ?_,
        fun _ => ?_, ?_, fun code => remembered_report ..⟩
      · intro h
        simp [hpending] at h
      · simpa using hpending
      · intro _
        cases new_state <;> simp [hpending, NewState.of]
    · rename_i hupdating
      refine ⟨fun x hx => Function.update_of_ne hx .., ?_, ?_, rfl, rfl, rfl, fun _ => rfl,
        fun _ => rfl, fun h => absurd h hupdating, ?_, fun code => remembered_report ..⟩
      · simp [Sel.set]
      · simp [Sel.set]
      · intro h
        simpa [hpending, Sel.set] using h

theorem selObj_same (h : canSelect env t obj = false ∨
    (s.flags obj).selected = new_state.of (s.flags obj).selected) :
    selObj env t s obj new_state caller = s := by
  unfold selObj
  rw [if_pos h]

theorem selObj_flips (hcan : canSelect env t obj = true)
    (hne : (s.flags obj).selected ≠ new_state.of (s.flags obj).selected) :
    Flips t obj s (selObj env t s obj new_state caller) := by
  have hnew : new_state.of (s.flags obj).selected = !(s.flags obj).selected := by
    revert hne
    cases (s.flags obj).selected <;> cases new_state.of _ <;> simp
  unfold selObj
  rw [if_neg (by simp [hcan, hne]), hnew]
  dsimp only
  obtain ⟨e1, e2, e3, e4, e5, e6⟩ := enterIsel_facts s obj
  set s1 := { (enterIsel s obj).set obj fun fl =>
    { fl with selected := !(s.flags obj).selected } with Obj_selection_changed := true } with hs1
  have hother : ∀ x, x ≠ obj → s1.flags x = s.flags x := fun x hx =>
    (Function.update_of_ne hx ..).trans (e1 x hx)
  have hself : s1.flags obj =
      { s.flags obj with in_sel_list := true, selected := !(s.flags obj).selected } := by
    refine (Function.update_self ..).trans ?_
    rw [e2]
  have h := tell_told env t s1 obj (!(s.flags obj).selected) (s.flags obj).selected caller
  have hselected := h.selected
  have hin := h.in_sel_list
  have hdrawn := h.drawn
  rw [hself] at hselected hin hdrawn
  refine ⟨fun x hx => (h.other x hx).trans (hother x hx), hselected, hin, h.Head_isel.trans e3, ?_,
    h.pending, ?_, h.Updating_state.trans e4, ?_, h.changed, ?_⟩
  · rw [hselected]
    intro hold
    exact hdrawn (by simpa using hold)
  · exact fun hold => h.waits (e5.trans hold)
  · exact fun hold => h.quiet (e4.trans hold)
  · intro code
    have hreports : s1.reports = s.reports := e6
    rw [h.reports, hreports]

/-- One live object changes its state. -/
theorem Kept.flips (h : Kept env t S l s) (hcodes : DistinctCodes t) (ho : t.live obj = true)
    (hcan : canSelect env t obj = true) (hself : obj ∈ S' ↔ obj ∉ S)
    (hother : ∀ x, x ≠ obj → (x ∈ S' ↔ x ∈ S)) (hflips : Flips t obj s s') :
    Kept env t S' (if (s.flags obj).in_sel_list then l else obj :: l) s' where
  nodup := by
    split
    · exact h.nodup
    · rename_i hnot
      exact List.nodup_cons.mpr ⟨fun hc => hnot ((h.mem obj).mp hc).2, h.nodup⟩
  mem := by
    intro o
    have hmem : o ∈ (if (s.flags obj).in_sel_list then l else obj :: l) ↔ o = obj ∨ o ∈ l := by
      split
      · rename_i hin
        refine ⟨Or.inr, ?_⟩
        rintro (rfl | hmem)
        · exact (h.mem o).mpr ⟨ho, hin⟩
        · exact hmem
      · exact List.mem_cons
    rw [hmem]
    by_cases hoo : o = obj
    · rw [hoo]
      exact iff_of_true (Or.inl rfl) ⟨ho, hflips.in_sel_list⟩
    · rw [hflips.other o hoo, ← h.mem o]
      exact or_iff_right hoo
  selected := by
    intro o hlive
    by_cases hoo : o = obj
    · rw [hoo, hflips.selected, hself, ← h.selected obj ho]
      simp
    · rw [hflips.other o hoo, hother o hoo]
      exact h.selected o hlive
  listed := by
    intro o hlive
    by_cases hoo : o = obj
    · rw [hoo]
      exact fun _ => hflips.in_sel_list
    · rw [hflips.other o hoo]
      exact h.listed o hlive
  can := by
    intro o hlive
    by_cases hoo : o = obj
    · rw [hoo]
      exact fun _ => hcan
    · rw [hflips.other o hoo]
      exact h.can o hlive
  drawn := by
    intro o hlive
    by_cases hoo : o = obj
    · rw [hoo]
      exact hflips.drawn (h.drawn obj ho)
    · rw [hflips.other o hoo]
      exact h.drawn o hlive
  waits := by
    intro o hlive
    by_cases hoo : o = obj
    · rw [hoo]
      exact hflips.pending
    · rw [hflips.other o hoo]
      exact fun hp => hflips.waits (h.waits o hlive hp)
  told := by
    intro code
    rw [hflips.reports]
    by_cases hcode : t.code obj = code
    · -- no other object has the code
      have honly : ∀ o, Named t code o → o = obj := fun o hn =>
        hcodes o obj hn.1 ho (hn.2.trans hcode.symm)
      have hS : remembered s.reports code = true ↔ obj ∈ S := by
        rw [h.told]
        constructor
        · rintro ⟨o, hn, hS⟩
          rwa [honly o hn] at hS
        · exact fun hS => ⟨obj, ⟨ho, hcode⟩, hS⟩
      rw [if_pos hcode, Bool.not_eq_true', ← Bool.not_eq_true, hS, ← hself]
      constructor
      · exact fun hS => ⟨obj, ⟨ho, hcode⟩, hS⟩
      · rintro ⟨o, hn, hS⟩
        rwa [honly o hn] at hS
    · rw [if_neg hcode, h.told]
      refine exists_congr fun o => and_congr_right fun hn => (hother o ?_).symm
      rintro rfl
      exact hcode hn.2

theorem wants_iff (h : b = true ↔ p) : new_state.of b = true ↔ new_state.Wants p := by
  cases new_state with
  | SEL_OFF => exact iff_of_false Bool.false_ne_true id
  | SEL_ON => exact iff_of_true rfl trivial
  | SEL_FLIP =>
    rw [NewState.of, NewState.Wants, ← h]
    simp

theorem mem_chosen {targets : Set Ptr} (hx : x ∈ targets) (hcan : canSelect env t x = true) :
    x ∈ chosen env t S targets new_state ↔ new_state.Wants (x ∈ S) := by
  simp [chosen, hx, hcan]

theorem mem_chosen_of_not {targets : Set Ptr} (hx : ¬(x ∈ targets ∧ canSelect env t x = true)) :
    x ∈ chosen env t S targets new_state ↔ x ∈ S := by
  have hnot : ¬(x ∈ targets ∧ canSelect env t x = true ∧ new_state.Wants (x ∈ S)) := fun h =>
    hx ⟨h.1, h.2.1⟩
  exact (or_iff_right hnot).trans (and_iff_right hx)

theorem mem_chosen_of_ne (hx : x ≠ obj) : x ∈ chosen env t S {obj} new_state ↔ x ∈ S := by
  refine mem_chosen_of_not ?_
  rintro ⟨hc, -⟩
  exact hx hc

theorem Kept.congr (h : Kept env t S l s) (hS : ∀ x, t.live x = true → (x ∈ S' ↔ x ∈ S)) :
    Kept env t S' l s :=
  { h with
    selected := fun o ho => (h.selected o ho).trans (hS o ho).symm
    told := fun code => (h.told code).trans
      (exists_congr fun o => and_congr_right fun hn => (hS o hn.1).symm) }

/-- What a call of `sel_obj` for a live object does. -/
theorem selObj_spec (new_state : NewState) (caller : Caller) (h : Kept env t S l s)
    (hcodes : DistinctCodes t) (ho : t.live obj = true)
    (hs' : s' = selObj env t s obj new_state caller) :
    (s' = s ∧ Kept env t (chosen env t S {obj} new_state) l s ∨
      Flips t obj s s' ∧ Kept env t (chosen env t S {obj} new_state)
        (if (s.flags obj).in_sel_list then l else obj :: l) s') := by
  have hother : ∀ x, x ≠ obj → (x ∈ chosen env t S {obj} new_state ↔ x ∈ S) := fun x hx =>
    mem_chosen_of_ne hx
  by_cases hsame : canSelect env t obj = false ∨
      (s.flags obj).selected = new_state.of (s.flags obj).selected
  · left
    refine ⟨hs'.trans (selObj_same hsame), h.congr fun x hx => ?_⟩
    by_cases hxo : x = obj
    · rw [hxo]
      by_cases hcan : canSelect env t obj = true
      · have heq := hsame.resolve_left (by simp [hcan])
        rw [mem_chosen (Set.mem_singleton obj) hcan, ← wants_iff (h.selected obj ho), ← heq,
          h.selected obj ho]
      · exact mem_chosen_of_not fun hc => hcan hc.2
    · exact hother x hxo
  · right
    have hcan : canSelect env t obj = true := by
      by_contra hc
      exact hsame (Or.inl (Bool.not_eq_true _ ▸ hc))
    have hne : (s.flags obj).selected ≠ new_state.of (s.flags obj).selected := fun hc =>
      hsame (Or.inr hc)
    have hflips := @selObj_flips env t s obj new_state caller hcan hne
    rw [← hs'] at hflips
    refine ⟨hflips, h.flips hcodes ho hcan ?_ hother hflips⟩
    rw [mem_chosen (Set.mem_singleton obj) hcan, ← wants_iff (h.selected obj ho),
      ← h.selected obj ho]
    revert hne
    cases (s.flags obj).selected <;> cases new_state.of _ <;> simp

/-! ## The books -/

/-- The live objects of the set, in some order. -/
def Selection (t : State) (S : Set Ptr) (os : List Ptr) : Prop :=
  os.Nodup ∧ ∀ o, o ∈ os ↔ t.live o = true ∧ o ∈ S

/-- An element for an object has its code, and its depth unless objects have been moved since. -/
def Stands (fresh : Prop) (t : State) (o : Ptr) (sel : Selst) : Prop :=
  sel.se_code = t.code o ∧
    (fresh → ∃ above, IsTree.Chain t.parent o above ∧ sel.se_user = above.length)

/-- The selected objects, the deepest ones first. -/
def Listing (fresh : Prop) (t : State) (S : Set Ptr) (l : List Selst) : Prop :=
  (∃ os, Selection t S os ∧ List.Forall₂ (Stands fresh t) os l) ∧
    l.Pairwise fun a b => b.se_user ≤ a.se_user

structure Books (env : Env) (fresh : Prop) (t : State) (S : Set Ptr) (s : Sel) : Prop where
  kept : Kept env t S (objects s) s
  quiet : Quiet t s
  cached : s.Obj_selection_changed = false →
    Listing fresh t S s.head_sel ∧ s.Num_selected = s.head_sel.length

theorem Selection.congr {os : List Ptr} (h : Selection t S os)
    (hS : ∀ x, t.live x = true → (x ∈ S' ↔ x ∈ S)) : Selection t S' os :=
  ⟨h.1, fun o => (h.2 o).trans (and_congr_right fun ho => (hS o ho).symm)⟩

theorem Listing.mono {l : List Selst} (h : Listing fresh t S l) (hfresh : fresh' → fresh) :
    Listing fresh' t S l := by
  obtain ⟨⟨os, hos, hstands⟩, horder⟩ := h
  exact ⟨⟨os, hos, hstands.imp fun o sel hsel => ⟨hsel.1, fun hf => hsel.2 (hfresh hf)⟩⟩, horder⟩

theorem Books.mono (h : Books env fresh t S s) (hfresh : s.Obj_selection_changed = false →
    fresh' → fresh) : Books env fresh' t S s where
  kept := h.kept
  quiet := h.quiet
  cached := fun hc => ⟨(h.cached hc).1.mono (hfresh hc), (h.cached hc).2⟩

theorem Listing.congr {l : List Selst} (h : Listing fresh t S l)
    (hS : ∀ x, t.live x = true → (x ∈ S' ↔ x ∈ S)) : Listing fresh t S' l := by
  obtain ⟨⟨os, hos, hstands⟩, horder⟩ := h
  exact ⟨⟨os, hos.congr hS, hstands⟩, horder⟩

/-- Two sets that the flags show have the same live objects. -/
theorem Kept.same (h : Kept env t S l s) (h' : Kept env t S' l' s) (hx : t.live x = true) :
    x ∈ S' ↔ x ∈ S :=
  (h'.selected x hx).symm.trans (h.selected x hx)

theorem Books.congr (h : Books env fresh t S s) (hS : ∀ x, t.live x = true → (x ∈ S' ↔ x ∈ S)) :
    Books env fresh t S' s where
  kept := h.kept.congr hS
  quiet := h.quiet
  cached := fun hc => ⟨(h.cached hc).1.congr hS, (h.cached hc).2⟩

theorem Flips.quiet_of (hflips : Flips t obj s s') (h : Quiet t s) : Quiet t s' := by
  intro hupdating o ho
  rw [hflips.Updating_state] at hupdating
  by_cases hoo : o = obj
  · rw [hoo]
    exact hflips.quiet hupdating
  · rw [hflips.other o hoo]
    exact h hupdating o ho

theorem selObj_books (new_state : NewState) (caller : Caller) (h : Books env fresh t S s)
    (hcodes : DistinctCodes t) (ho : t.live obj = true) :
    Books env fresh t (chosen env t S {obj} new_state) (selObj env t s obj new_state caller) := by
  rcases selObj_spec new_state caller h.kept hcodes ho rfl with ⟨hs', hkept⟩ | ⟨hflips, hkept⟩
  · rw [hs']
    exact h.congr fun x hx => h.kept.same hkept hx
  · refine ⟨?_, hflips.quiet_of h.quiet, ?_⟩
    · rw [objects, hflips.Head_isel]
      split
      · rename_i hin
        rwa [if_pos hin] at hkept
      · rename_i hin
        rwa [if_neg hin] at hkept
    · intro hc
      rw [hflips.changed] at hc
      cases hc

/-! ## Several objects -/

def selObjs (env : Env) (t : State) (new_state : NewState) (s : Sel) (os : List Ptr) : Sel :=
  os.foldl (fun s obj => selObj env t s obj new_state .SEL_SELECTING) s

theorem chosen_cons {os : List Ptr} (hx : obj ∉ os) :
    chosen env t S {x | x ∈ obj :: os} new_state =
      chosen env t (chosen env t S {obj} new_state) {x | x ∈ os} new_state := by
  ext x
  by_cases hcan : canSelect env t x = true
  · by_cases hxo : x = obj
    · rw [hxo] at hcan ⊢
      rw [mem_chosen (show obj ∈ {x | x ∈ obj :: os} from List.mem_cons_self) hcan,
        mem_chosen_of_not fun hc => hx hc.1, mem_chosen (Set.mem_singleton obj) hcan]
    · by_cases hmem : x ∈ os
      · have hlater : x ∈ {x | x ∈ os} := hmem
        have hin : x ∈ {x | x ∈ obj :: os} := List.mem_cons_of_mem _ hmem
        rw [mem_chosen hin hcan, mem_chosen hlater hcan, mem_chosen_of_ne hxo]
      · have hnot : ¬(x ∈ {x | x ∈ os} ∧ canSelect env t x = true) := fun hc => hmem hc.1
        rw [mem_chosen_of_not hnot, mem_chosen_of_ne hxo]
        refine mem_chosen_of_not ?_
        rintro ⟨hc, -⟩
        exact (List.mem_cons.mp hc).elim hxo hmem
  · rw [mem_chosen_of_not fun hc => hcan hc.2, mem_chosen_of_not fun hc => hcan hc.2,
      mem_chosen_of_not fun hc => hcan hc.2]

theorem selObjs_books {os : List Ptr} (h : Books env fresh t S s) (hcodes : DistinctCodes t)
    (hlive : ∀ o ∈ os, t.live o = true) (hnodup : os.Nodup) :
    Books env fresh t (chosen env t S {x | x ∈ os} new_state) (selObjs env t new_state s os) := by
  induction os generalizing s S with
  | nil => exact h.congr fun x _ => mem_chosen_of_not fun hc => List.not_mem_nil hc.1
  | cons obj os ih =>
    obtain ⟨hnot, hnodup⟩ := List.nodup_cons.mp hnodup
    rw [chosen_cons hnot]
    exact ih (selObj_books new_state .SEL_SELECTING h hcodes (hlive obj List.mem_cons_self))
      (fun o ho => hlive o (List.mem_cons_of_mem _ ho)) hnodup

variable {kids : Ptr → List Ptr} {chains : Nat → List Ptr} {fuel : Nat} {par : Ptr}

theorem anc_linear {a b c : Ptr} (h : Anc t.parent a b) (h' : Anc t.parent a c) :
    Anc t.parent b c ∨ Anc t.parent c b := by
  refine Relation.ReflTransGen.total_of_right_unique ?_ h h'
  intro x y z hy hz
  exact Option.some.inj (hy.symm.trans hz)

/-- What is below two children of one object is not the same. -/
theorem below_one (htree : Tree t kids) (hp : t.live par = true) {c c' : Ptr} (hc : c ∈ kids par)
    (hc' : c' ∈ kids par) (h : Anc t.parent x c) (h' : Anc t.parent x c') : c = c' := by
  have hpar := htree.parent_of_kid hp hc
  have hpar' := htree.parent_of_kid hp hc'
  rcases anc_linear h h' with hcc | hcc
  · rcases Relation.ReflTransGen.cases_head hcc with heq | ⟨q, hq, hanc⟩
    · exact heq
    · obtain rfl : q = par := Option.some.inj (hq.symm.trans hpar)
      exact absurd hanc (htree.not_anc_parent (htree.mem_of_kid hp hc') hpar')
  · rcases Relation.ReflTransGen.cases_head hcc with heq | ⟨q, hq, hanc⟩
    · exact heq.symm
    · obtain rfl : q = par := Option.some.inj (hq.symm.trans hpar')
      exact absurd hanc (htree.not_anc_parent (htree.mem_of_kid hp hc) hpar)

/-- The objects from those of `l` on, with what is below them if that is wanted. -/
def Reached (t : State) (l : List Ptr) (sel_descendents : Bool) (x : Ptr) : Prop :=
  ∃ c ∈ l, x = c ∨ sel_descendents = true ∧ Anc t.parent x c

theorem Reached.anc {all : Bool} (h : Reached t l all x) : ∃ c ∈ l, Anc t.parent x c := by
  obtain ⟨c, hc, rfl | ⟨-, hanc⟩⟩ := h
  · exact ⟨x, hc, Relation.ReflTransGen.refl⟩
  · exact ⟨c, hc, hanc⟩

theorem reached_true_iff : Reached t l true x ↔ ∃ c ∈ l, Anc t.parent x c := by
  refine ⟨Reached.anc, ?_⟩
  rintro ⟨c, hc, hanc⟩
  exact ⟨c, hc, Or.inr ⟨rfl, hanc⟩⟩

/-- What is below an object is one of its children, or below one. -/
theorem below_iff (htree : Tree t kids) (hx : t.live x = true) (hp : t.live par = true) :
    (∃ c ∈ kids par, Anc t.parent x c) ↔ x ≠ par ∧ Anc t.parent x par := by
  constructor
  · rintro ⟨c, hc, hanc⟩
    have hpar := htree.parent_of_kid hp hc
    refine ⟨?_, hanc.tail hpar⟩
    rintro rfl
    exact htree.not_anc_parent (htree.mem_of_kid hp hc) hpar hanc
  · rintro ⟨hne, hanc⟩
    rcases Relation.ReflTransGen.cases_tail hanc with heq | ⟨c, hxc, hc⟩
    · exact absurd heq.symm hne
    · exact ⟨c, (htree.mem_kids par hp c).mpr ⟨htree.anc_mem hx hxc, hc⟩, hxc⟩

theorem selObjTrees_some (all : Bool) (s : Sel) (c : Ptr) :
    selObjTrees env t new_state (fuel + 1) s (some c) all =
      (if all then selObjTrees env t new_state fuel s (t.child c) true else .ok s).bind fun s =>
        selObjTrees env t new_state fuel (selObj env t s c new_state .SEL_SELECTING) (t.next c)
          all := by
  rw [selObjTrees]
  split <;> rfl

theorem selObjTrees_spec (all : Bool) (hturns : IsTree.Turns kids fuel l) (h : Inv t kids chains)
    (hp : t.live par = true) {l0 : List Ptr} (hl : kids par = l0 ++ l) (s : Sel) :
    ∃ os, selObjTrees env t new_state fuel s l.head? all = .ok (selObjs env t new_state s os) ∧
      os.Nodup ∧ ∀ x, x ∈ os ↔ t.live x = true ∧ Reached t l all x := by
  induction fuel generalizing s par l0 l all with
  | zero => cases hturns
  | succ fuel ih =>
    cases hturns with
    | nil =>
      refine ⟨[], rfl, List.nodup_nil, fun x => iff_of_false List.not_mem_nil ?_⟩
      rintro ⟨-, c, hc, -⟩
      exact List.not_mem_nil hc
    | @cons _ c l hbelow hrest =>
      have hc : c ∈ kids par := by
        rw [hl]
        exact List.mem_append_right _ List.mem_cons_self
      have hmem := h.tree.mem_of_kid hp hc
      -- The objects below the first one come before it
      have hfirst : ∃ os, (if all then selObjTrees env t new_state fuel s (t.child c) true
          else .ok s) = .ok (selObjs env t new_state s os) ∧ os.Nodup ∧
          ∀ x, x ∈ os ↔ t.live x = true ∧ all = true ∧ x ≠ c ∧ Anc t.parent x c := by
        cases all with
        | false =>
          exact ⟨[], rfl, List.nodup_nil, fun x => iff_of_false List.not_mem_nil fun hc =>
            Bool.false_ne_true hc.2.1⟩
        | true =>
          obtain ⟨os, hos, hnodup, hmems⟩ := ih true hbelow hmem (List.nil_append _).symm s
          refine ⟨os, ?_, hnodup, fun x => (hmems x).trans (and_congr_right fun hx => ?_)⟩
          · rw [if_pos rfl, (h.lists c hmem).first, hos]
          · rw [reached_true_iff, below_iff h.tree hx hmem, and_iff_right rfl]
      obtain ⟨os1, hos1, hnodup1, hmem1⟩ := hfirst
      have hl' : kids par = (l0 ++ [c]) ++ l := by
        rw [hl, List.append_assoc]
        rfl
      obtain ⟨os2, hos2, hnodup2, hmem2⟩ := ih all hrest hp hl'
        (selObj env t (selObjs env t new_state s os1) c new_state .SEL_SELECTING)
      have hlater : ∀ x ∈ os2, ¬Anc t.parent x c := by
        intro x hx hanc
        obtain ⟨c', hc', hanc'⟩ := ((hmem2 x).mp hx).2.anc
        have hkid : c' ∈ kids par := by
          rw [hl]
          exact List.mem_append_right _ (List.mem_cons_of_mem c hc')
        obtain rfl := below_one h.tree hp hc hkid hanc hanc'
        have hnodup := h.tree.nodup par hp
        rw [hl, List.nodup_middle, List.nodup_cons] at hnodup
        exact hnodup.1 (List.mem_append_right _ hc')
      refine ⟨os1 ++ c :: os2, ?_, ?_, fun x => ?_⟩
      · rw [List.head?_cons, selObjTrees_some, hos1, (h.lined.links hp hl).2]
        refine hos2.trans ?_
        rw [selObjs, selObjs, selObjs, List.foldl_append]
        rfl
      · refine List.nodup_append.mpr ⟨hnodup1, List.nodup_cons.mpr ⟨?_, hnodup2⟩, ?_⟩
        · exact fun hc => hlater c hc Relation.ReflTransGen.refl
        · rintro x hx y hy rfl
          obtain ⟨-, -, hne, hanc⟩ := (hmem1 x).mp hx
          rcases List.mem_cons.mp hy with rfl | hy
          · exact hne rfl
          · exact hlater x hy hanc
      · rw [List.mem_append, List.mem_cons, hmem1, hmem2]
        simp only [Reached, List.mem_cons, exists_eq_or_imp]
        by_cases hxc : x = c
        · subst hxc
          simp [hmem]
        · simp only [hxc, ne_eq, not_false_eq_true, true_and, false_or, and_or_left]

/-! ## Another tree -/

/-- The objects are the same ones, as far as the user's functions see them. -/
structure SameObjs (t t' : State) : Prop where
  live : t'.live = t.live
  code : ∀ o, t'.code o = t.code o
  type : ∀ o, (t'.objs o).ob_type = (t.objs o).ob_type

theorem SameObjs.refl (t : State) : SameObjs t t := ⟨rfl, fun _ => rfl, fun _ => rfl⟩

theorem SameObjs.named (h : SameObjs t t') : Named t' code o ↔ Named t code o := by
  unfold Named
  rw [h.live, h.code]

theorem SameObjs.canSelect (h : SameObjs t t') (o : Ptr) :
    canSelect env t' o = canSelect env t o := by
  unfold selection.canSelect
  rw [h.code, h.type]

theorem Kept.retree (h : Kept env t S l s) (hsame : SameObjs t t') : Kept env t' S l s where
  nodup := h.nodup
  mem := fun o => by
    rw [hsame.live]
    exact h.mem o
  selected := fun o ho => h.selected o (hsame.live ▸ ho)
  listed := fun o ho => h.listed o (hsame.live ▸ ho)
  can := fun o ho => by
    rw [hsame.canSelect]
    exact h.can o (hsame.live ▸ ho)
  drawn := fun o ho => h.drawn o (hsame.live ▸ ho)
  waits := fun o ho => h.waits o (hsame.live ▸ ho)
  told := fun code => (h.told code).trans
    (exists_congr fun _ => and_congr_left fun _ => hsame.named.symm)

theorem Selection.retree {os : List Ptr} (h : Selection t S os) (hlive : t'.live = t.live) :
    Selection t' S os := by
  unfold Selection
  rw [hlive]
  exact h

theorem Listing.retree {l : List Selst} (h : Listing fresh t S l) (hsame : SameObjs t t')
    (hparent : fresh → t'.parent = t.parent) : Listing fresh t' S l := by
  obtain ⟨⟨os, hos, hstands⟩, horder⟩ := h
  refine ⟨⟨os, hos.retree hsame.live, hstands.imp fun o sel hsel => ?_⟩, horder⟩
  refine ⟨hsel.1.trans (hsame.code o).symm, fun hfresh => ?_⟩
  rw [hparent hfresh]
  exact hsel.2 hfresh

theorem Books.retree (h : Books env fresh t S s) (hsame : SameObjs t t')
    (hparent : s.Obj_selection_changed = false → fresh → t'.parent = t.parent) :
    Books env fresh t' S s where
  kept := h.kept.retree hsame
  quiet := fun hu o ho => h.quiet hu o (hsame.live ▸ ho)
  cached := fun hc => ⟨(h.cached hc).1.retree hsame (hparent hc), (h.cached hc).2⟩

theorem chosen_congr {T T' : Set Ptr} (hx : x ∈ T ↔ x ∈ T') :
    x ∈ chosen env t S T new_state ↔ x ∈ chosen env t S T' new_state := by
  change _ ∨ _ ↔ _ ∨ _
  rw [hx]

theorem reached_false_iff : Reached t l false x ↔ x ∈ l := by
  simp [Reached]

/-- The objects in the order in which `select_object` comes to them. -/
theorem selectWhich_eq {which : Which} (h : Inv t kids chains) (ho : t.live o = true) (s : Sel) :
    ∃ os, selectWhich env t s o new_state which = .ok (selObjs env t new_state s os) ∧ os.Nodup ∧
      ∀ x, x ∈ os ↔ t.live x = true ∧ x ∈ Targets t o which := by
  have hbelow : ∀ all, ∃ os, selObjTree env t s o false true all new_state =
      .ok (selObjs env t new_state s os) ∧ os.Nodup ∧
        ∀ x, x ∈ os ↔ t.live x = true ∧ Reached t (kids o) all x := by
    intro all
    obtain ⟨os, hos, hspec⟩ : ∃ os, selObjTrees env t new_state (t.fuel * t.fuel) s
        (kids o).head? all = .ok (selObjs env t new_state s os) ∧ _ :=
      selObjTrees_spec all (h.turns ho) h ho (List.nil_append _).symm s
    refine ⟨os, ?_, hspec⟩
    unfold selObjTree
    rw [if_pos rfl, (h.lists o ho).first, hos]
    rfl
  cases which with
  | OBJ_SELF =>
    refine ⟨[o], rfl, List.nodup_singleton o, fun x => List.mem_singleton.trans ?_⟩
    refine ⟨?_, fun hx => hx.2⟩
    rintro rfl
    exact ⟨ho, rfl⟩
  | OBJ_CHILDREN =>
    obtain ⟨os, hos, hnodup, hmem⟩ := hbelow false
    refine ⟨os, hos, hnodup, fun x => (hmem x).trans (and_congr_right fun hx => ?_)⟩
    rw [reached_false_iff, h.tree.mem_kids o ho, and_iff_right hx]
    exact Iff.rfl
  | OBJ_DESCENDENTS =>
    obtain ⟨os, hos, hnodup, hmem⟩ := hbelow true
    refine ⟨os, hos, hnodup, fun x => (hmem x).trans (and_congr_right fun hx => ?_)⟩
    rw [reached_true_iff, below_iff h.tree hx ho]
    exact Iff.rfl

theorem selectObject_spec {which : Which} (h : Inv t kids chains) (hbooks : Books env fresh t S s)
    (hin : InUse t code) :
    ∃ t' s', selectObject env t s code new_state which = .ok (t', s') ∧ Inv t' kids chains ∧
      Books env fresh t' (Call.onSelection env t S (.select_object code new_state which)) s' := by
  obtain ⟨o, ho⟩ := hin
  obtain ⟨t1, ht1, hcase, hinv1, -, -⟩ := h.lookup ho
  have hsame : SameObjs t t1 ∧ t1.parent = t.parent := by
    rcases hcase with rfl | rfl <;> exact ⟨⟨rfl, fun _ => rfl, fun _ => rfl⟩, rfl⟩
  have hbooks1 : Books env fresh t1 S s := hbooks.retree hsame.1 fun _ _ => hsame.2
  have hlive1 : t1.live o = true := by
    rw [hsame.1.live]
    exact ho.1
  obtain ⟨os, hos, hnodup, hmem⟩ :=
    @selectWhich_eq env t1 o new_state kids chains which hinv1 hlive1 s
  have hdone : Books env fresh t1 (chosen env t1 S {x | x ∈ os} new_state)
      (selObjs env t1 new_state s os) :=
    selObjs_books hbooks1 hinv1.codes (fun x hx => ((hmem x).mp hx).1) hnodup
  refine ⟨t1, _, ?_, hinv1, hdone.congr fun x hx => ?_⟩
  · unfold selectObject
    rw [ht1]
    change (selectWhich env t1 s o new_state which).bind _ = _
    rw [hos]
    rfl
  · have hone : (∃ obj, Named t code obj ∧ x ∈ Targets t obj which) ↔ x ∈ Targets t o which := by
      constructor
      · rintro ⟨obj, hobj, hx⟩
        rwa [h.codes obj o hobj.1 ho.1 (hobj.2.trans ho.2.symm)] at hx
      · exact fun hx => ⟨o, ho, hx⟩
    have htargets : Targets t1 o which = Targets t o which := by
      unfold Targets
      rw [hsame.2]
    have hcan : ∀ T, chosen env t1 S T new_state = chosen env t S T new_state := by
      intro T
      unfold chosen
      simp only [hsame.1.canSelect]
    rw [hcan]
    refine chosen_congr (hone.trans ?_)
    rw [← htargets]
    exact ((hmem x).trans (and_iff_right hx)).symm

/-! ## Clearing the selection -/

theorem Kept.perm (h : Kept env t S l s) (hl : l.Perm l') : Kept env t S l' s :=
  { h with
    nodup := hl.nodup_iff.mp h.nodup
    mem := fun o => hl.mem_iff.symm.trans (h.mem o) }

/-- An object of which all is off leaves the list. -/
theorem Kept.off {f : Flags → Flags} (h : Kept env t S (obj :: l) s)
    (hselected : (s.flags obj).selected = false) (hf : f (s.flags obj) = noFlags) :
    Kept env t S l (s.set obj f) := by
  obtain ⟨hnot, hnodup⟩ := List.nodup_cons.mp h.nodup
  have hlive := ((h.mem obj).mp List.mem_cons_self).1
  have hself : (s.set obj f).flags obj = noFlags := (set_flags_self s obj f).trans hf
  have hother : ∀ x, x ≠ obj → (s.set obj f).flags x = s.flags x := fun x hx =>
    set_flags_of_ne s f hx
  refine ⟨hnodup, fun o => ?_, fun o ho => ?_, fun o ho => ?_, fun o ho => ?_, fun o ho => ?_,
    fun o ho => ?_, h.told⟩
  all_goals by_cases hoo : o = obj
  · rw [hoo, hself]
    exact iff_of_false hnot fun hc => Bool.false_ne_true hc.2
  · rw [hother o hoo, ← h.mem o, List.mem_cons, or_iff_right hoo]
  · rw [hoo, hself, ← h.selected obj hlive, hselected]
    rfl
  · rw [hother o hoo]
    exact h.selected o ho
  · rw [hoo, hself]
    simp [noFlags]
  · rw [hother o hoo]
    exact h.listed o ho
  · rw [hoo, hself]
    exact fun hc => absurd hc Bool.false_ne_true
  · rw [hother o hoo]
    exact h.can o ho
  · rw [hoo, hself]
    rfl
  · rw [hother o hoo]
    exact h.drawn o ho
  · rw [hoo, hself]
    exact fun hc => absurd hc Bool.false_ne_true
  · rw [hother o hoo]
    exact h.waits o ho

/-- An object that is not selected, and of which nothing waits, leaves the list. -/
theorem Kept.leave (h : Kept env t S (obj :: l) s) (hselected : (s.flags obj).selected = false)
    (hpending : (s.flags obj).usersel_pending = false) :
    Kept env t S l (s.set obj fun fl => { fl with in_sel_list := false }) := by
  refine h.off hselected ?_
  have hdrawn := h.drawn obj ((h.mem obj).mp List.mem_cons_self).1
  rw [hselected, hpending] at hdrawn
  rw [hselected, hpending, hdrawn]
  rfl

/-- What `get_selection` remembers is as before. -/
def CacheKept (s s' : Sel) : Prop :=
  s'.head_sel = s.head_sel ∧ s'.Num_selected = s.Num_selected ∧
    s'.Obj_selection_changed = s.Obj_selection_changed

/-- A listed object is selected no more. -/
theorem turnOff_spec (h : Kept env t S l s) (hcodes : DistinctCodes t) (ho : obj ∈ l) :
    ∃ s' S', (if (s.flags obj).selected then selObj env t s obj .SEL_OFF caller else s) = s' ∧
      Kept env t S' l s' ∧ (Quiet t s → Quiet t s') ∧ (∀ x, x ∈ S' ↔ x ∈ S ∧ x ≠ obj) ∧
      s'.Head_isel = s.Head_isel ∧ (∀ x, x ≠ obj → s'.flags x = s.flags x) ∧
      (s'.Obj_selection_changed = true ∨ s' = s ∧ obj ∉ S) := by
  obtain ⟨hlive, hin⟩ := (h.mem obj).mp ho
  split
  · rename_i hselected
    have hoff : obj ∉ chosen env t S {obj} .SEL_OFF := by
      rw [mem_chosen (Set.mem_singleton obj) (h.can obj hlive hin)]
      exact id
    refine ⟨_, chosen env t S {obj} .SEL_OFF, rfl, ?_⟩
    have hmem : ∀ x, x ∈ chosen env t S {obj} .SEL_OFF ↔ x ∈ S ∧ x ≠ obj := by
      intro x
      by_cases hx : x = obj
      · rw [hx]
        exact iff_of_false hoff fun hc => hc.2 rfl
      · rw [mem_chosen_of_ne hx, and_iff_left hx]
    rcases selObj_spec .SEL_OFF caller h hcodes hlive rfl with ⟨hs', hkept⟩ | ⟨hflips, hkept⟩
    · exact absurd ((hkept.selected obj hlive).mp hselected) hoff
    · rw [if_pos hin] at hkept
      refine ⟨hkept, fun hquiet => hflips.quiet_of hquiet, hmem, ?_, hflips.other,
        Or.inl hflips.changed⟩
      rw [hflips.Head_isel, if_pos hin]
  · rename_i hselected
    have hnot : obj ∉ S := fun hc => hselected ((h.selected obj hlive).mpr hc)
    refine ⟨s, S, rfl, h, id, fun x => ?_, rfl, fun _ _ => rfl, Or.inr ⟨rfl, hnot⟩⟩
    refine (and_iff_left_of_imp ?_).symm
    rintro hx rfl
    exact hnot hx

theorem clearLoop_spec {rest newhead : List Isel} (hcodes : DistinctCodes t)
    (h : Kept env t S (newhead.map Isel.is_obj ++ rest.map Isel.is_obj) s) (hquiet : Quiet t s) :
    ∃ s' S', clearLoop env t s newhead rest = s' ∧ Kept env t S' (objects s') s' ∧ Quiet t s' ∧
      (∀ x, x ∈ S' ↔ x ∈ S ∧ x ∉ rest.map Isel.is_obj) ∧
      (s'.Obj_selection_changed = true ∨ CacheKept s s' ∧ ∀ x ∈ rest.map Isel.is_obj, x ∉ S) := by
  induction rest generalizing s S newhead with
  | nil =>
    rw [List.map_nil, List.append_nil] at h
    refine ⟨{ s with Head_isel := newhead }, S, rfl, ⟨h.nodup, h.mem, h.selected, h.listed, h.can,
      h.drawn, h.waits, h.told⟩, hquiet, fun x => ?_, Or.inr ⟨⟨rfl, rfl, rfl⟩, ?_⟩⟩
    · exact (and_iff_left List.not_mem_nil).symm
    · exact fun x hx => absurd hx List.not_mem_nil
  | cons isel rest ih =>
    have hmem : isel.is_obj ∈ newhead.map Isel.is_obj ++ (isel :: rest).map Isel.is_obj :=
      List.mem_append_right _ List.mem_cons_self
    obtain ⟨s1, S1, hs1, hkept1, hquiet1, hS1, -, -, hcache1⟩ :=
      @turnOff_spec env t s S _ isel.is_obj .SEL_CLEARING h hcodes hmem
    obtain ⟨hlive, hin⟩ := (hkept1.mem _).mp hmem
    have hselected : (s1.flags isel.is_obj).selected = false := by
      rw [← Bool.not_eq_true, hkept1.selected _ hlive, hS1]
      exact fun hc => hc.2 rfl
    rw [List.map_cons] at hkept1
    -- A node stays on the list or leaves it
    have hnext : ∃ s2 newhead2, clearLoop env t s newhead (isel :: rest) =
          clearLoop env t s2 newhead2 rest ∧
        Kept env t S1 (newhead2.map Isel.is_obj ++ rest.map Isel.is_obj) s2 ∧ Quiet t s2 ∧
        CacheKept s1 s2 := by
      rw [clearLoop, hs1]
      split
      · refine ⟨s1, isel :: newhead, rfl, ?_, hquiet1 hquiet, rfl, rfl, rfl⟩
        exact hkept1.perm List.perm_middle
      · rename_i hpending
        refine ⟨_, newhead, rfl, ?_, ?_, rfl, rfl, rfl⟩
        · exact (hkept1.perm List.perm_middle).leave hselected (Bool.not_eq_true _ ▸ hpending)
        · intro hu o ho
          by_cases hoo : o = isel.is_obj
          · rw [hoo, set_flags_self]
            exact Bool.not_eq_true _ ▸ hpending
          · rw [set_flags_of_ne _ _ hoo]
            exact hquiet1 hquiet hu o ho
    obtain ⟨s2, newhead2, heq, hkept2, hquiet2, hc1, hc2, hc3⟩ := hnext
    obtain ⟨s3, S3, hs3, hkept3, hquiet3, hS3, hcache3⟩ := ih hkept2 hquiet2
    refine ⟨s3, S3, heq.trans hs3, hkept3, hquiet3, fun x => ?_, ?_⟩
    · rw [hS3, hS1, List.map_cons, List.mem_cons, not_or, and_assoc]
    · rcases hcache3 with hcache3 | ⟨⟨hd1, hd2, hd3⟩, hnone3⟩
      · exact Or.inl hcache3
      · rcases hcache1 with hcache1 | ⟨hsame, hnot⟩
        · exact Or.inl (hd3.trans (hc3.trans hcache1))
        · right
          rw [hsame] at hc1 hc2 hc3
          refine ⟨⟨hd1.trans hc1, hd2.trans hc2, hd3.trans hc3⟩, ?_⟩
          intro x hx hxS
          rcases List.mem_cons.mp hx with rfl | hx
          · exact hnot hxS
          · refine hnone3 x hx ((hS1 x).mpr ⟨hxS, ?_⟩)
            rintro rfl
            exact hnot hxS

/-- What is selected is on the list. -/
theorem Kept.mem_of (h : Kept env t S l s) (hx : t.live x = true) (hS : x ∈ S) : x ∈ l :=
  (h.mem x).mpr ⟨hx, h.listed x hx (Or.inl ((h.selected x hx).mpr hS))⟩

theorem clearSelection_books (h : Books env fresh t S s) (hcodes : DistinctCodes t) :
    Books env fresh t ∅ (clearSelection env t s) := by
  obtain ⟨s', S', hs', hkept, hquiet, hS', hcache⟩ := @clearLoop_spec env t s S s.Head_isel []
    hcodes h.kept h.quiet
  have hnone : ∀ x, t.live x = true → (x ∈ (∅ : Set Ptr) ↔ x ∈ S') := by
    intro x hx
    refine iff_of_false (Set.notMem_empty x) fun hc => ?_
    obtain ⟨hxS, hnot⟩ := (hS' x).mp hc
    exact hnot (h.kept.mem_of hx hxS)
  rw [clearSelection, hs']
  refine ⟨hkept.congr hnone, hquiet, fun hc => ?_⟩
  rcases hcache with hcache | ⟨⟨hhead, hnum, hchanged⟩, hnot⟩
  · rw [hcache] at hc
    cases hc
  · obtain ⟨hlisting, hlen⟩ := h.cached (hchanged.symm.trans hc)
    rw [hhead, hnum]
    refine ⟨hlisting.congr fun x hx => ?_, hlen⟩
    exact iff_of_false (Set.notMem_empty x) fun hxS => hnot x (h.kept.mem_of hx hxS) hxS

/-! ## Turning updating on -/

/-- What has waited is drawn. -/
theorem drawPending_spec (h : Kept env t S l s) (ho : obj ∈ l)
    (hpending : (s.flags obj).usersel_pending = true)
    (hs' : s' = (uselect env t s obj .SEL_FLIP false .SEL_UPDATING).set obj fun fl =>
      { fl with usersel_pending := false }) :
    Kept env t S l s' ∧ s'.Head_isel = s.Head_isel ∧ CacheKept s s' ∧
      ∀ x, (s'.flags x).usersel_pending = true ↔
        (s.flags x).usersel_pending = true ∧ x ≠ obj := by
  have hself : s'.flags obj = { s.flags obj with
      highlighted := !(s.flags obj).highlighted, usersel_pending := false } := by
    rw [hs', set_flags_self, uselect, report_flags, set_flags_self]
    rfl
  have hother : ∀ x, x ≠ obj → s'.flags x = s.flags x := by
    intro x hx
    rw [hs', set_flags_of_ne _ _ hx, uselect, report_flags, set_flags_of_ne _ _ hx]
  have hfields : s'.Head_isel = s.Head_isel ∧ CacheKept s s' ∧
      s'.Select_pending = s.Select_pending := by
    rw [hs']
    exact ⟨rfl, ⟨rfl, rfl, rfl⟩, rfl⟩
  have hreports : ∀ code, remembered s'.reports code = remembered s.reports code := by
    intro code
    rw [hs']
    exact remembered_append ..
  have hpend : ∀ x, (s'.flags x).usersel_pending = true ↔
      (s.flags x).usersel_pending = true ∧ x ≠ obj := by
    intro x
    by_cases hx : x = obj
    · rw [hx, hself]
      exact iff_of_false Bool.false_ne_true fun hc => hc.2 rfl
    · rw [hother x hx, and_iff_left hx]
  refine ⟨⟨h.nodup, fun o => ?_, fun o hlive => ?_, fun o hlive => ?_, fun o hlive => ?_,
    fun o hlive => ?_, fun o hlive hp => ?_, fun code => ?_⟩, hfields.1, hfields.2.1, hpend⟩
  · rw [h.mem o]
    by_cases hoo : o = obj
    · rw [hoo, hself]
    · rw [hother o hoo]
  · rw [← h.selected o hlive]
    by_cases hoo : o = obj
    · rw [hoo, hself]
    · rw [hother o hoo]
  · by_cases hoo : o = obj
    · rw [hoo]
      intro _
      rw [hself]
      exact ((h.mem obj).mp ho).2
    · rw [hother o hoo]
      exact h.listed o hlive
  · by_cases hoo : o = obj
    · rw [hoo, hself]
      exact h.can obj (hoo ▸ hlive)
    · rw [hother o hoo]
      exact h.can o hlive
  · by_cases hoo : o = obj
    · have hdrawn := h.drawn obj (hoo ▸ hlive)
      rw [hoo, hself]
      dsimp only
      rw [hdrawn, hpending]
      simp
    · rw [hother o hoo]
      exact h.drawn o hlive
  · rw [hfields.2.2]
    exact h.waits o hlive ((hpend o).mp hp).1
  · rw [hreports]
    exact h.told code

theorem drawAll_spec {rest : List Isel} (h : Kept env t S l s)
    (hrest : ∀ isel ∈ rest, isel.is_obj ∈ l) :
    ∃ s', rest.foldl (fun s isel => if (s.flags isel.is_obj).usersel_pending then
        (uselect env t s isel.is_obj .SEL_FLIP false .SEL_UPDATING).set isel.is_obj fun fl =>
          { fl with usersel_pending := false }
      else s) s = s' ∧ Kept env t S l s' ∧ s'.Head_isel = s.Head_isel ∧ CacheKept s s' ∧
      ∀ x, (s'.flags x).usersel_pending = true →
        (s.flags x).usersel_pending = true ∧ x ∉ rest.map Isel.is_obj := by
  induction rest generalizing s with
  | nil => exact ⟨s, rfl, h, rfl, ⟨rfl, rfl, rfl⟩, fun x hx => ⟨hx, List.not_mem_nil⟩⟩
  | cons isel rest ih =>
    have hstep : ∃ s1, (if (s.flags isel.is_obj).usersel_pending then
          (uselect env t s isel.is_obj .SEL_FLIP false .SEL_UPDATING).set isel.is_obj fun fl =>
            { fl with usersel_pending := false }
        else s) = s1 ∧ Kept env t S l s1 ∧ s1.Head_isel = s.Head_isel ∧ CacheKept s s1 ∧
        ∀ x, (s1.flags x).usersel_pending = true →
          (s.flags x).usersel_pending = true ∧ x ≠ isel.is_obj := by
      split
      · rename_i hpending
        obtain ⟨hkept, hhead, hcache, hpend⟩ :=
          drawPending_spec h (hrest isel List.mem_cons_self) hpending rfl
        exact ⟨_, rfl, hkept, hhead, hcache, fun x hx => (hpend x).mp hx⟩
      · rename_i hpending
        refine ⟨s, rfl, h, rfl, ⟨rfl, rfl, rfl⟩, fun x hx => ⟨hx, ?_⟩⟩
        rintro rfl
        exact hpending hx
    obtain ⟨s1, hs1, hkept1, hhead1, hcache1, hpend1⟩ := hstep
    obtain ⟨s2, hs2, hkept2, hhead2, hcache2, hpend2⟩ :=
      ih hkept1 fun isel hi => hrest isel (List.mem_cons_of_mem _ hi)
    rw [List.foldl_cons, hs1]
    refine ⟨s2, hs2, hkept2, hhead2.trans hhead1, ⟨hcache2.1.trans hcache1.1,
      hcache2.2.1.trans hcache1.2.1, hcache2.2.2.trans hcache1.2.2⟩, fun x hx => ?_⟩
    obtain ⟨hx1, hnot⟩ := hpend2 x hx
    obtain ⟨hx, hne⟩ := hpend1 x hx1
    exact ⟨hx, fun hc => (List.mem_cons.mp hc).elim hne hnot⟩

theorem CacheKept.cached (h : CacheKept s s') (hcached : s.Obj_selection_changed = false →
      Listing fresh t S s.head_sel ∧ s.Num_selected = s.head_sel.length)
    (hc : s'.Obj_selection_changed = false) :
    Listing fresh t S s'.head_sel ∧ s'.Num_selected = s'.head_sel.length := by
  obtain ⟨hhead, hnum, hchanged⟩ := h
  rw [hhead, hnum]
  exact hcached (hchanged.symm.trans hc)

theorem doPendingSelection_spec (h : Kept env t S (objects s) s) :
    Kept env t S (objects (doPendingSelection env t s)) (doPendingSelection env t s) ∧
      (∀ o, t.live o = true →
        ((doPendingSelection env t s).flags o).usersel_pending = false) ∧
      CacheKept s (doPendingSelection env t s) := by
  unfold doPendingSelection
  split
  · have hlisted : ∀ isel ∈ s.Head_isel, isel.is_obj ∈ objects s := fun isel hi =>
      List.mem_map_of_mem hi
    obtain ⟨s1, hs1, hkept, hhead, hcache, hpend⟩ := drawAll_spec h hlisted
    rw [hs1]
    dsimp only
    have hnone : ∀ o, t.live o = true → (s1.flags o).usersel_pending = false := by
      intro o ho
      rw [← Bool.not_eq_true]
      intro hc
      exact (hpend o hc).2 ((hkept.mem o).mpr ⟨ho, hkept.listed o ho (Or.inr hc)⟩)
    rw [objects, ← hhead] at hkept
    refine ⟨{ hkept with waits := fun o ho hc => ?_ }, hnone, hcache⟩
    rw [hnone o ho] at hc
    cases hc
  · rename_i hnot
    refine ⟨h, fun o ho => ?_, rfl, rfl, rfl⟩
    rw [← Bool.not_eq_true]
    exact fun hc => hnot (h.waits o ho hc)

theorem updating_books (h : Books env fresh t S s) (new_state : Option Bool) :
    Books env fresh t S (updating env t s new_state).1 := by
  unfold updating
  cases new_state with
  | none => exact h
  | some new_state =>
    dsimp only
    split
    · exact h
    · cases new_state with
      | false => exact ⟨{ h.kept with }, fun hc => absurd hc Bool.false_ne_true, h.cached⟩
      | true =>
        have hkept : Kept env t S (objects { s with Updating_state := true })
            { s with Updating_state := true } := { h.kept with }
        obtain ⟨hkept', hnone, hcache⟩ := doPendingSelection_spec hkept
        exact ⟨hkept', fun _ => hnone, fun hc => hcache.cached h.cached hc⟩

/-! ## Counting, and the unordered list -/

theorem Selection.length_eq {os os' : List Ptr} (h : Selection t S os) (h' : Selection t S os') :
    os.length = os'.length :=
  ((List.perm_ext_iff_of_nodup h.1 h'.1).mpr fun o => (h.2 o).trans (h'.2 o).symm).length_eq

/-- The selected objects of the list. -/
theorem Kept.nodes (h : Kept env t S (objects s) s) :
    Selection t S ((s.Head_isel.filter fun isel => (s.flags isel.is_obj).selected).map
      Isel.is_obj) := by
  refine ⟨h.nodup.sublist (List.filter_sublist.map _), fun o => ?_⟩
  rw [List.mem_map]
  constructor
  · rintro ⟨isel, hi, rfl⟩
    obtain ⟨hi, hselected⟩ := List.mem_filter.mp hi
    obtain ⟨hlive, -⟩ := (h.mem _).mp (List.mem_map_of_mem hi)
    exact ⟨hlive, (h.selected _ hlive).mp hselected⟩
  · rintro ⟨hlive, hS⟩
    obtain ⟨isel, hi, rfl⟩ := List.mem_map.mp (h.mem_of hlive hS)
    exact ⟨isel, List.mem_filter.mpr ⟨hi, (h.selected _ hlive).mpr hS⟩, rfl⟩

theorem getNumSelected_books (h : Books env fresh t S s) :
    Books env fresh t S (getNumSelected s).1 ∧
      ∃ os, Selection t S os ∧ (getNumSelected s).2 = os.length := by
  unfold getNumSelected
  split
  · rename_i hchanged
    refine ⟨⟨{ h.kept with }, h.quiet, fun hc => ?_⟩, _, h.kept.nodes, ?_⟩
    · exact absurd (hchanged.symm.trans hc) Bool.noConfusion
    · dsimp only
      rw [List.length_map, List.countP_eq_length_filter]
  · rename_i hchanged
    obtain ⟨⟨⟨os, hos, hstands⟩, -⟩, hlen⟩ := h.cached (Bool.not_eq_true _ ▸ hchanged)
    exact ⟨h, os, hos, hlen.trans hstands.length_eq.symm⟩

theorem unorderedLoop_spec {rest newlist : List Isel} (head_sel : List Selst)
    (h : Kept env t S (newlist.map Isel.is_obj ++ rest.map Isel.is_obj) s) (hquiet : Quiet t s) :
    ∃ s' l', unorderedLoop t s newlist head_sel rest = (s', l') ∧
      Kept env t S (objects s') s' ∧ Quiet t s' ∧ s'.head_sel = s.head_sel ∧
      s'.Obj_selection_changed = s.Obj_selection_changed ∧ s'.Num_selected = l'.length ∧
      ∃ os : List Ptr, l'.map Selst.se_code = os.map t.code ++ head_sel.map Selst.se_code ∧
        os.Nodup ∧ ∀ x, x ∈ os ↔ x ∈ rest.map Isel.is_obj ∧ x ∈ S := by
  induction rest generalizing s newlist head_sel with
  | nil =>
    rw [List.map_nil, List.append_nil] at h
    refine ⟨_, head_sel, rfl, { h with }, hquiet, rfl, rfl, rfl, [], rfl, List.nodup_nil, ?_⟩
    exact fun x => iff_of_false List.not_mem_nil fun hc => List.not_mem_nil hc.1
  | cons isel rest ih =>
    have hmem : isel.is_obj ∈ newlist.map Isel.is_obj ++ (isel :: rest).map Isel.is_obj :=
      List.mem_append_right _ List.mem_cons_self
    obtain ⟨hlive, -⟩ := (h.mem _).mp hmem
    have hselected := h.selected _ hlive
    have hperm : Kept env t S
        (isel.is_obj :: (newlist.map Isel.is_obj ++ rest.map Isel.is_obj)) s :=
      h.perm List.perm_middle
    have hnot : isel.is_obj ∉ rest.map Isel.is_obj := fun hc =>
      (List.nodup_cons.mp hperm.nodup).1 (List.mem_append_right _ hc)
    rw [unorderedLoop]
    split
    · have hstays : Kept env t S ((isel :: newlist).map Isel.is_obj ++ rest.map Isel.is_obj) s :=
        hperm
      obtain ⟨s', l', hs', hkept, hquiet', hhead, hchanged, hnum, os, hl', hnodup, hos⟩ :=
        ih (if (s.flags isel.is_obj).selected then ⟨t.code isel.is_obj, -1⟩ :: head_sel
          else head_sel) hstays hquiet
      refine ⟨s', l', hs', hkept, hquiet', hhead, hchanged, hnum, ?_⟩
      by_cases hS : isel.is_obj ∈ S
      · rw [if_pos (hselected.mpr hS)] at hl'
        refine ⟨os ++ [isel.is_obj], ?_, ?_, fun x => ?_⟩
        · rw [hl', List.map_append, List.append_assoc]
          rfl
        · refine List.nodup_append.mpr ⟨hnodup, List.nodup_singleton _, ?_⟩
          rintro x hx y hy rfl
          rw [List.mem_singleton.mp hy, hos] at hx
          exact hnot hx.1
        · rw [List.mem_append, List.mem_singleton, hos, List.map_cons, List.mem_cons]
          by_cases hx : x = isel.is_obj
          · rw [hx]
            exact iff_of_true (Or.inr rfl) ⟨Or.inl rfl, hS⟩
          · rw [or_iff_left hx, or_iff_right hx]
      · rw [if_neg fun hc => hS (hselected.mp hc)] at hl'
        refine ⟨os, hl', hnodup, fun x => ?_⟩
        rw [hos, List.map_cons, List.mem_cons]
        refine ⟨fun hx => ⟨Or.inr hx.1, hx.2⟩, ?_⟩
        rintro ⟨rfl | hx, hxS⟩
        · exact absurd hxS hS
        · exact ⟨hx, hxS⟩
    · rename_i hoff
      rw [Bool.or_eq_true, not_or, Bool.not_eq_true, Bool.not_eq_true] at hoff
      obtain ⟨hoff, hpending⟩ := hoff
      have hS : isel.is_obj ∉ S := by
        rw [← hselected, hoff]
        exact Bool.false_ne_true
      have hquiet1 : Quiet t (s.set isel.is_obj fun fl => { fl with in_sel_list := false }) := by
        intro hu o ho
        by_cases hoo : o = isel.is_obj
        · rw [hoo, set_flags_self]
          exact hpending
        · rw [set_flags_of_ne _ _ hoo]
          exact hquiet hu o ho
      obtain ⟨s', l', hs', hkept, hquiet', hhead, hchanged, hnum, os, hl', hnodup, hos⟩ :=
        ih (if (s.flags isel.is_obj).selected then ⟨t.code isel.is_obj, -1⟩ :: head_sel
          else head_sel) (hperm.leave hoff hpending) hquiet1
      rw [if_neg (by rw [hoff]; exact Bool.false_ne_true)] at hl'
      refine ⟨s', l', hs', hkept, hquiet', hhead, hchanged, hnum, os, hl', hnodup, fun x => ?_⟩
      rw [hos, List.map_cons, List.mem_cons]
      refine ⟨fun hx => ⟨Or.inr hx.1, hx.2⟩, ?_⟩
      rintro ⟨rfl | hx, hxS⟩
      · exact absurd hxS hS
      · exact ⟨hx, hxS⟩

theorem getUnorderedSelection_books (h : Books env fresh t S s) :
    Books env fresh t S (getUnorderedSelection t s).1 ∧ ∃ os, Selection t S os ∧
      (getUnorderedSelection t s).2.map Selst.se_code = os.map t.code := by
  obtain ⟨s', l', hs', hkept, hquiet, hhead, hchanged, hnum, os, hl', hnodup, hos⟩ :=
    @unorderedLoop_spec env t s S s.Head_isel [] [] h.kept h.quiet
  have hsel : Selection t S os := by
    refine ⟨hnodup, fun o => (hos o).trans ?_⟩
    constructor
    · rintro ⟨hmem, hS⟩
      exact ⟨((h.kept.mem o).mp hmem).1, hS⟩
    · rintro ⟨hlive, hS⟩
      exact ⟨h.kept.mem_of hlive hS, hS⟩
  rw [getUnorderedSelection, hs']
  refine ⟨⟨hkept, hquiet, fun hc => ?_⟩, os, hsel, ?_⟩
  · obtain ⟨hlisting, -⟩ := h.cached (hchanged.symm.trans hc)
    rw [hhead, hnum]
    refine ⟨hlisting, ?_⟩
    obtain ⟨⟨os', hos', hstands⟩, -⟩ := hlisting
    have hlen := congrArg List.length hl'
    rw [List.length_map, List.map_nil, List.append_nil, List.length_map] at hlen
    exact hlen.trans ((hsel.length_eq hos').trans hstands.length_eq)
  · rw [hl', List.map_nil, List.append_nil]

/-! ## The list in order of depth -/

theorem levelOf_spec (h : Inv t kids chains) (ho : t.live obj = true) :
    ∃ level, levelOf t s obj = .ok level ∧
      ((s.flags obj).selected = true →
        ∃ above, IsTree.Chain t.parent obj above ∧ level = above.length) ∧
      ((s.flags obj).selected = false → level = MAX_LEVEL) := by
  obtain ⟨above, hchain, hup⟩ := (h.bounded ho).upwards
  unfold levelOf
  split
  · rename_i hselected
    refine ⟨above.length, ?_, fun _ => ⟨above, hchain, rfl⟩, fun hc => ?_⟩
    · rw [hup]
      rfl
    · exact absurd (hc.symm.trans hselected) Bool.noConfusion
  · rename_i hselected
    exact ⟨MAX_LEVEL, rfl, fun hc => absurd hc hselected, fun _ => rfl⟩

theorem setLevels_spec (h : Inv t kids chains) {nodes : List Isel}
    (hlive : ∀ isel ∈ nodes, t.live isel.is_obj = true) :
    ∃ nodes', setLevels t s nodes = .ok nodes' ∧
      nodes'.map Isel.is_obj = nodes.map Isel.is_obj ∧ ∀ isel ∈ nodes',
        ((s.flags isel.is_obj).selected = true →
          ∃ above, IsTree.Chain t.parent isel.is_obj above ∧ isel.is_level = above.length) ∧
        ((s.flags isel.is_obj).selected = false → isel.is_level = MAX_LEVEL) := by
  induction nodes with
  | nil => exact ⟨[], rfl, rfl, fun isel hi => absurd hi List.not_mem_nil⟩
  | cons isel nodes ih =>
    obtain ⟨nodes', hnodes', hobjs, hlevels⟩ :=
      ih fun isel hi => hlive isel (List.mem_cons_of_mem _ hi)
    obtain ⟨level, hlevel, hsel, hnot⟩ := @levelOf_spec t s isel.is_obj kids chains h
      (hlive isel List.mem_cons_self)
    refine ⟨⟨isel.is_obj, level⟩ :: nodes', ?_, ?_, ?_⟩
    · rw [setLevels, hlevel, hnodes']
      rfl
    · rw [List.map_cons, List.map_cons, hobjs]
    · intro isel' hi
      rcases List.mem_cons.mp hi with rfl | hi
      · exact ⟨hsel, hnot⟩
      · exact hlevels isel' hi

/-- The element for a node. -/
def selOf (t : State) (isel : Isel) : Selst := ⟨t.code isel.is_obj, isel.is_level⟩

def taken (level : Nat) (isel : Isel) : Isel :=
  if isel.is_level = level then { isel with is_level := MAX_LEVEL } else isel

theorem selectLevel_spec (level : Nat) (head_sel : List Selst) (next_level : Nat)
    (nodes : List Isel) :
    ∃ next_level', selectLevel t level head_sel next_level nodes = (nodes.map (taken level),
        ((nodes.filter fun isel => isel.is_level = level).map (selOf t)).reverse ++ head_sel,
        next_level') ∧
      next_level' ≤ next_level ∧
      (∀ isel ∈ nodes, isel.is_level ≠ level → next_level' ≤ isel.is_level) ∧
      (next_level' = next_level ∨
        ∃ isel ∈ nodes, isel.is_level ≠ level ∧ isel.is_level = next_level') := by
  induction nodes generalizing head_sel next_level with
  | nil => exact ⟨next_level, rfl, Nat.le_refl _, fun isel hi => absurd hi List.not_mem_nil,
      Or.inl rfl⟩
  | cons isel nodes ih =>
    rw [selectLevel]
    by_cases hlevel : isel.is_level = level
    · obtain ⟨next', heq, hle, hall, hsome⟩ :=
        ih (⟨t.code isel.is_obj, isel.is_level⟩ :: head_sel) next_level
      rw [if_pos hlevel, heq]
      refine ⟨next', ?_, hle, ?_, ?_⟩
      · rw [List.map_cons, taken, if_pos hlevel, List.filter_cons_of_pos (by simpa using hlevel),
          List.map_cons, List.reverse_cons, List.append_assoc]
        rfl
      · intro isel' hi hne
        rcases List.mem_cons.mp hi with rfl | hi
        · exact absurd hlevel hne
        · exact hall isel' hi hne
      · exact hsome.imp id fun ⟨isel', hi, hne⟩ => ⟨isel', List.mem_cons_of_mem _ hi, hne⟩
    · obtain ⟨next', heq, hle, hall, hsome⟩ :=
        ih head_sel (if isel.is_level < next_level then isel.is_level else next_level)
      rw [if_neg hlevel]
      dsimp only
      rw [heq]
      have hmin : (if isel.is_level < next_level then isel.is_level else next_level) ≤
          isel.is_level ∧
          (if isel.is_level < next_level then isel.is_level else next_level) ≤ next_level := by
        split <;> omega
      refine ⟨next', ?_, Nat.le_trans hle hmin.2, ?_, ?_⟩
      · rw [List.map_cons, taken, if_neg hlevel, List.filter_cons_of_neg (by simpa using hlevel)]
      · intro isel' hi hne
        rcases List.mem_cons.mp hi with rfl | hi
        · exact Nat.le_trans hle hmin.1
        · exact hall isel' hi hne
      · rcases hsome with hsome | ⟨isel', hi, hne⟩
        · rw [hsome]
          split
          · exact Or.inr ⟨isel, List.mem_cons_self, hlevel, rfl⟩
          · exact Or.inl rfl
        · exact Or.inr ⟨isel', List.mem_cons_of_mem _ hi, hne⟩

/-- The nodes that are still to be put on the list. -/
def waiting (nodes : List Isel) : List Isel := nodes.filter fun isel => isel.is_level < MAX_LEVEL

theorem waiting_taken (level : Nat) (nodes : List Isel) : waiting (nodes.map (taken level)) =
    (waiting nodes).filter fun isel => isel.is_level ≠ level := by
  induction nodes with
  | nil => rfl
  | cons isel nodes ih =>
    unfold waiting at ih ⊢
    rw [List.map_cons, taken]
    by_cases hlevel : isel.is_level = level
    · rw [if_pos hlevel, List.filter_cons_of_neg (by simp), ih]
      by_cases hlt : isel.is_level < MAX_LEVEL
      · rw [List.filter_cons_of_pos (by simpa using hlt),
          List.filter_cons_of_neg (by simpa using hlevel)]
      · rw [List.filter_cons_of_neg (by simpa using hlt)]
    · rw [if_neg hlevel]
      by_cases hlt : isel.is_level < MAX_LEVEL
      · rw [List.filter_cons_of_pos (by simpa using hlt), ih,
          List.filter_cons_of_pos (by simpa using hlt),
          List.filter_cons_of_pos (by simpa using hlevel)]
      · rw [List.filter_cons_of_neg (by simpa using hlt), ih,
          List.filter_cons_of_neg (by simpa using hlt)]

theorem waiting_level {level : Nat} (hlt : level < MAX_LEVEL) (nodes : List Isel) :
    ((waiting nodes).filter fun isel => isel.is_level = level) =
      nodes.filter fun isel => isel.is_level = level := by
  unfold waiting
  rw [List.filter_filter]
  refine List.filter_congr fun isel _ => ?_
  by_cases hlevel : isel.is_level = level
  · simp [hlevel, hlt]
  · simp [hlevel]

theorem waiting_perm {level : Nat} (hlt : level < MAX_LEVEL) (nodes : List Isel) :
    (waiting (nodes.map (taken level)) ++ nodes.filter fun isel => isel.is_level = level).Perm
      (waiting nodes) := by
  have h := List.filter_append_perm (fun isel : Isel => isel.is_level ≠ level) (waiting nodes)
  rw [← waiting_taken] at h
  rw [← waiting_level hlt]
  refine List.Perm.trans (List.Perm.of_eq ?_) h
  congr 1
  refine List.filter_congr fun isel _ => ?_
  by_cases hlevel : isel.is_level = level <;> simp [hlevel]

/-- The nodes of the list that are of one depth. -/
def ofLevel (level : Nat) (nodes : List Isel) : List Isel :=
  nodes.filter fun isel => isel.is_level = level

/-- The state in front of a turn of the loop: the least depth of the nodes, and the list so far. -/
structure AtLevel (level : Nat) (nodes : List Isel) (head_sel : List Selst) : Prop where
  least : ∀ isel ∈ nodes, level ≤ isel.is_level
  attained : level < MAX_LEVEL → ∃ isel ∈ nodes, isel.is_level = level
  order : head_sel.Pairwise fun a b => b.se_user ≤ a.se_user
  bound : ∀ sel ∈ head_sel, sel.se_user ≤ level

theorem se_user_of_level {level : Nat} {nodes : List Isel} {sel : Selst}
    (h : sel ∈ ((ofLevel level nodes).map (selOf t)).reverse) : sel.se_user = level := by
  obtain ⟨isel, hi, rfl⟩ := List.mem_map.mp (List.mem_reverse.mp h)
  have hlevel := (List.mem_filter.mp hi).2
  rw [decide_eq_true_eq] at hlevel
  rw [selOf, hlevel]

theorem mem_taken {level : Nat} {nodes : List Isel} {isel : Isel}
    (h : isel ∈ nodes.map (taken level)) :
    isel.is_level = MAX_LEVEL ∨ isel ∈ nodes ∧ isel.is_level ≠ level := by
  obtain ⟨isel', hi, rfl⟩ := List.mem_map.mp h
  unfold taken
  split
  · exact Or.inl rfl
  · rename_i hne
    exact Or.inr ⟨hi, hne⟩

theorem AtLevel.turn {level : Nat} {nodes : List Isel} {head_sel : List Selst}
    (h : AtLevel level nodes head_sel) (hlt : level < MAX_LEVEL) :
    ∃ next_level, selectLevel t level head_sel MAX_LEVEL nodes = (nodes.map (taken level),
        ((ofLevel level nodes).map (selOf t)).reverse ++ head_sel, next_level) ∧
      AtLevel next_level (nodes.map (taken level))
        (((ofLevel level nodes).map (selOf t)).reverse ++ head_sel) := by
  obtain ⟨next_level, hturn, hmax, hall, hnext⟩ :=
    @selectLevel_spec t level head_sel MAX_LEVEL nodes
  have hle : level ≤ next_level := by
    rcases hnext with hnext | ⟨isel, hi, -, hlevel⟩
    · omega
    · rw [← hlevel]
      exact h.least isel hi
  have hle' : (level : Int) ≤ next_level := Int.ofNat_le.mpr hle
  refine ⟨next_level, hturn, ?_, ?_, ?_, ?_⟩
  · intro isel hi
    rcases mem_taken hi with hi | ⟨hi, hne⟩
    · rw [hi]
      exact hmax
    · exact hall isel hi hne
  · intro hlt'
    rcases hnext with hnext | ⟨isel, hi, hne, hlevel⟩
    · omega
    · refine ⟨isel, List.mem_map.mpr ⟨isel, hi, ?_⟩, hlevel⟩
      rw [taken, if_neg hne]
  · refine List.pairwise_append.mpr ⟨?_, h.order, fun a ha b hb => ?_⟩
    · refine List.pairwise_of_forall_mem_list fun a ha b hb => ?_
      rw [se_user_of_level ha, se_user_of_level hb]
    · rw [se_user_of_level ha]
      exact h.bound b hb
  · intro sel hs
    rcases List.mem_append.mp hs with hs | hs
    · rw [se_user_of_level hs]
      exact hle'
    · exact le_trans (h.bound sel hs) hle'

/-- The loop puts the nodes on the list, those of less depth first. -/
theorem levelLoop_spec {fuel level : Nat} {nodes : List Isel} {head_sel : List Selst}
    (h : AtLevel level nodes head_sel) (hfuel : (waiting nodes).length < fuel) :
    ∃ (nodes' ns : List Isel), levelLoop t fuel level nodes head_sel =
        .ok (nodes', ns.map (selOf t) ++ head_sel) ∧
      nodes'.map Isel.is_obj = nodes.map Isel.is_obj ∧ ns.Perm (waiting nodes) ∧
      (ns.map (selOf t) ++ head_sel).Pairwise fun a b => b.se_user ≤ a.se_user := by
  induction fuel generalizing level nodes head_sel with
  | zero => exact absurd hfuel (Nat.not_lt_zero _)
  | succ fuel ih =>
    rw [levelLoop]
    by_cases hlt : level < MAX_LEVEL
    · obtain ⟨next_level, hturn, hnext⟩ := @AtLevel.turn t level nodes head_sel h hlt
      rw [if_pos hlt, hturn]
      dsimp only
      have hperm := waiting_perm hlt nodes
      obtain ⟨isel, hi, hlevel⟩ := h.attained hlt
      have hpos : 0 < (ofLevel level nodes).length :=
        List.length_pos_of_mem (List.mem_filter.mpr ⟨hi, decide_eq_true hlevel⟩)
      have hlen := hperm.length_eq
      rw [List.length_append] at hlen
      obtain ⟨nodes', ns, hloop, hobjs, hns, horder⟩ := ih hnext (by unfold ofLevel at hpos; omega)
      have heq : (ns ++ (ofLevel level nodes).reverse).map (selOf t) ++ head_sel =
          ns.map (selOf t) ++ (((ofLevel level nodes).map (selOf t)).reverse ++ head_sel) := by
        rw [List.map_append, List.map_reverse, List.append_assoc]
      refine ⟨nodes', ns ++ (ofLevel level nodes).reverse, ?_, hobjs.trans ?_, ?_, ?_⟩
      · rw [hloop, heq]
      · rw [List.map_map]
        refine List.map_congr_left fun isel _ => ?_
        dsimp only [Function.comp, taken]
        split <;> rfl
      · exact (hns.append (List.reverse_perm _)).trans hperm
      · rw [heq]
        exact horder
    · rw [if_neg hlt]
      refine ⟨nodes, [], rfl, rfl, ?_, h.order⟩
      have hnone : waiting nodes = [] := by
        rw [waiting, List.filter_eq_nil_iff]
        intro isel hi
        have := h.least isel hi
        simp only [decide_eq_true_eq]
        omega
      rw [hnone]

/-- The least depth of the nodes. -/
theorem min_level_spec (nodes : List Isel) (level : Nat) :
    nodes.foldl (fun level isel => min level isel.is_level) level ≤ level ∧
      (∀ isel ∈ nodes, nodes.foldl (fun level isel => min level isel.is_level) level ≤
        isel.is_level) ∧
      (nodes.foldl (fun level isel => min level isel.is_level) level = level ∨ ∃ isel ∈ nodes,
        isel.is_level = nodes.foldl (fun level isel => min level isel.is_level) level) := by
  induction nodes generalizing level with
  | nil => exact ⟨Nat.le_refl _, fun isel hi => absurd hi List.not_mem_nil, Or.inl rfl⟩
  | cons isel nodes ih =>
    obtain ⟨hle, hall, hsome⟩ := ih (min level isel.is_level)
    rw [List.foldl_cons]
    refine ⟨Nat.le_trans hle (Nat.min_le_left _ _), ?_, ?_⟩
    · intro isel' hi
      rcases List.mem_cons.mp hi with rfl | hi
      · exact Nat.le_trans hle (Nat.min_le_right _ _)
      · exact hall isel' hi
    · rcases hsome with hsome | ⟨isel', hi, hlevel⟩
      · rw [hsome]
        rcases Nat.le_total level isel.is_level with hmin | hmin
        · exact Or.inl (Nat.min_eq_left hmin)
        · exact Or.inr ⟨isel, List.mem_cons_self, (Nat.min_eq_right hmin).symm⟩
      · exact Or.inr ⟨isel', List.mem_cons_of_mem _ hi, hlevel⟩

/-- The depths of the selected objects are depths that the loop comes to. -/
def Shallow (t : State) (S : Set Ptr) : Prop :=
  ∀ o above, t.live o = true → o ∈ S → IsTree.Chain t.parent o above → above.length < MAX_LEVEL

theorem getSelection_books (h : Inv t kids chains) (hbooks : Books env fresh t S s)
    (hshallow : Shallow t S) :
    ∃ s' l, getSelection t s = .ok (s', l) ∧
      Books env (s.Obj_selection_changed = true ∨ fresh) t S s' ∧
      Listing (s.Obj_selection_changed = true ∨ fresh) t S l := by
  unfold getSelection
  split
  · rename_i hchanged
    have hfresh : s.Obj_selection_changed = true ∨ fresh → fresh := fun hf =>
      hf.resolve_left (Bool.eq_false_iff.mp hchanged)
    exact ⟨s, s.head_sel, rfl, hbooks.mono fun _ => hfresh,
      (hbooks.cached hchanged).1.mono hfresh⟩
  · have hlive : ∀ isel ∈ s.Head_isel, t.live isel.is_obj = true := fun isel hi =>
      ((hbooks.kept.mem _).mp (List.mem_map_of_mem hi)).1
    obtain ⟨nodes, hnodes, hobjs, hlevels⟩ := @setLevels_spec t s kids chains h s.Head_isel hlive
    obtain ⟨-, hleast, hattained⟩ := min_level_spec nodes MAX_LEVEL
    have hat : AtLevel (nodes.foldl (fun level isel => min level isel.is_level) MAX_LEVEL) nodes
        [] := by
      refine ⟨hleast, fun hlt => ?_, List.Pairwise.nil, fun sel hs => absurd hs List.not_mem_nil⟩
      refine hattained.resolve_left fun hc => ?_
      exact absurd hlt (Nat.not_lt.mpr (Nat.le_of_eq hc.symm))
    have hfuel : (waiting nodes).length < nodes.length + 1 :=
      Nat.lt_succ_of_le (List.length_filter_le _ _)
    obtain ⟨nodes', ns, hloop, hobjs', hperm, horder⟩ := @levelLoop_spec t _ _ _ _ hat hfuel
    rw [List.append_nil] at hloop horder
    have hlisting : Listing (s.Obj_selection_changed = true ∨ fresh) t S (ns.map (selOf t)) := by
      refine ⟨⟨ns.map Isel.is_obj, ⟨?_, fun o => ?_⟩, ?_⟩, horder⟩
      · rw [(hperm.map Isel.is_obj).nodup_iff]
        refine List.Nodup.sublist (List.filter_sublist.map _) ?_
        rw [hobjs]
        exact hbooks.kept.nodup
      · rw [(hperm.map Isel.is_obj).mem_iff, List.mem_map]
        constructor
        · rintro ⟨isel, hi, rfl⟩
          obtain ⟨hi, hlt⟩ := List.mem_filter.mp hi
          rw [decide_eq_true_eq] at hlt
          have hmem : isel.is_obj ∈ objects s := by
            rw [objects, ← hobjs]
            exact List.mem_map_of_mem hi
          have hlive := ((hbooks.kept.mem _).mp hmem).1
          refine ⟨hlive, (hbooks.kept.selected _ hlive).mp ?_⟩
          rw [← Bool.not_eq_false]
          intro hnot
          exact absurd ((hlevels isel hi).2 hnot) (Nat.ne_of_lt hlt)
        · rintro ⟨ho, hS⟩
          have hmem := hbooks.kept.mem_of ho hS
          rw [objects, ← hobjs] at hmem
          obtain ⟨isel, hi, rfl⟩ := List.mem_map.mp hmem
          obtain ⟨above, hchain, hlevel⟩ :=
            (hlevels isel hi).1 ((hbooks.kept.selected _ ho).mpr hS)
          refine ⟨isel, List.mem_filter.mpr ⟨hi, ?_⟩, rfl⟩
          rw [hlevel]
          exact decide_eq_true (hshallow _ above ho hS hchain)
      · rw [List.forall₂_map_left_iff, List.forall₂_map_right_iff, List.forall₂_same]
        intro isel hi
        obtain ⟨hi, hlt⟩ := List.mem_filter.mp (hperm.mem_iff.mp hi)
        rw [decide_eq_true_eq] at hlt
        obtain ⟨above, hchain, hlevel⟩ := (hlevels isel hi).1 (by
          rw [← Bool.not_eq_false]
          intro hnot
          exact absurd ((hlevels isel hi).2 hnot) (Nat.ne_of_lt hlt))
        exact ⟨rfl, fun _ => ⟨above, hchain, congrArg Int.ofNat hlevel⟩⟩
    refine ⟨{ s with
      Head_isel := nodes'
      Num_selected := (ns.map (selOf t)).length
      head_sel := ns.map (selOf t)
      Obj_selection_changed := false }, ns.map (selOf t), ?_, ⟨?_, hbooks.quiet, ?_⟩, hlisting⟩
    · rw [hnodes]
      change (levelLoop t (nodes.length + 1) _ nodes []).bind _ = _
      rw [hloop]
      rfl
    · have heq : nodes'.map Isel.is_obj = objects s := hobjs'.trans hobjs
      rw [objects, heq]
      exact { hbooks.kept with }
    · exact fun _ => ⟨hlisting, rfl⟩

theorem getReverseSelection_books (h : Inv t kids chains) (hbooks : Books env fresh t S s)
    (hshallow : Shallow t S) :
    ∃ s' l, getReverseSelection t s = .ok (s', l) ∧ Books env fresh t S s' ∧
      Listing (s.Obj_selection_changed = true ∨ fresh) t S l.reverse := by
  obtain ⟨s', l, hs', hbooks', hlisting⟩ := getSelection_books h hbooks hshallow
  refine ⟨{ s' with head_sel := l.take 1, Obj_selection_changed := true }, l.reverse, ?_,
    ⟨{ hbooks'.kept with }, hbooks'.quiet, fun hc => absurd hc (by simp)⟩, ?_⟩
  · unfold getReverseSelection
    rw [hs']
    rfl
  · rw [List.reverse_reverse]
    exact hlisting

/-! ## What the calls leave of the objects -/

theorem bind_ok {α β : Type} {x : Except Stop α} {f : α → Except Stop β} {b : β}
    (h : x.bind f = .ok b) : ∃ a, x = .ok a ∧ f a = .ok b := by
  cases x with
  | error _ => cases h
  | ok a => exact ⟨a, rfl, h⟩

/-- The objects have the parents that they had. -/
def SameUp (t t' : State) : Prop := SameRest t t' ∧ t'.parent = t.parent

theorem SameUp.refl (t : State) : SameUp t t := ⟨SameRest.refl t, rfl⟩

theorem SameUp.trans {t2 : State} (h : SameUp t t') (h' : SameUp t' t2) : SameUp t t2 :=
  ⟨h.1.trans h'.1, h'.2.trans h.2⟩

theorem flagged_sameUp (h : Flagged t t') : SameUp t t' := by
  refine ⟨h.sameRest, ?_⟩
  obtain ⟨f, rfl⟩ := h
  rfl

theorem set_sameUp (t : State) (o : Ptr) (f : Obj → Obj)
    (hcode : (f (t.objs o)).ob_code = (t.objs o).ob_code)
    (htype : (f (t.objs o)).ob_type = (t.objs o).ob_type)
    (hflags : (f (t.objs o)).od_flags = (t.objs o).od_flags)
    (hindent : (f (t.objs o)).no_indent = (t.objs o).no_indent)
    (hparent : (f (t.objs o)).ob_parent = (t.objs o).ob_parent) : SameUp t (t.set o f) := by
  refine ⟨(SameRest.refl t).set hcode htype hflags hindent, ?_⟩
  funext x
  change (Function.update t.objs o (f (t.objs o)) x).ob_parent = (t.objs x).ob_parent
  by_cases hx : x = o
  · rw [hx, Function.update_self, hparent]
  · rw [Function.update_of_ne hx]

theorem setDescUpdateLptrs_flagged {fuel : Nat} {first : Option Ptr}
    (h : setDescUpdateLptrs fuel t first = .ok t') : Flagged t t' := by
  induction fuel generalizing t t' first with
  | zero => cases h
  | succ fuel ih =>
    cases first with
    | none =>
      obtain rfl := Except.ok.inj h
      exact Flagged.refl t
    | some obj =>
      rw [setDescUpdateLptrs_some] at h
      obtain ⟨t1, ht1, h⟩ := bind_ok h
      have h1 : Flagged t t1 := by
        split at ht1
        · obtain rfl := Except.ok.inj ht1
          exact Flagged.refl t
        · exact ih ht1
      exact (h1.trans (flagged_flag t1 obj)).trans (ih h)

theorem setUpdateLptrs_sameUp {obj : Option Ptr} {recurse : Bool}
    (h : setUpdateLptrs t obj recurse = .ok t') : SameUp t t' := by
  obtain ⟨up, -, h⟩ := bind_ok h
  have hup := flagged_foldl t (up.takeWhile fun o => !(t.objs o).update_lptrs)
  refine flagged_sameUp ?_
  cases recurse with
  | false =>
    obtain rfl := Except.ok.inj h
    exact hup
  | true =>
    cases obj with
    | none => cases h
    | some o => exact hup.trans (setDescUpdateLptrs_flagged h)

theorem set_prev_sameUp (t : State) (o : Ptr) (prev : Option Ptr) :
    SameUp t (t.set o fun obj => { obj with ob_prev := prev }) :=
  set_sameUp t o _ rfl rfl rfl rfl rfl

theorem set_next_sameUp (t : State) (o : Ptr) (next : Option Ptr) :
    SameUp t (t.set o fun obj => { obj with ob_next := next }) :=
  set_sameUp t o _ rfl rfl rfl rfl rfl

theorem set_child_sameUp (t : State) (o : Ptr) (child : Option Ptr) :
    SameUp t (t.set o fun obj => { obj with ob_child := child }) :=
  set_sameUp t o _ rfl rfl rfl rfl rfl

theorem linkObject_same {par next prev : Option Ptr}
    (h : linkObject t obj par next prev = .ok t') :
    SameRest t t' ∧ ∀ x, x ≠ obj → t'.parent x = t.parent x := by
  have hneighbours : ∃ t2, SameUp (t.set obj fun o =>
      { o with ob_parent := par, ob_next := next, ob_prev := prev }) t2 ∧
      setUpdateLptrs t2 par false = .ok t' := by
    unfold linkObject at h
    cases next with
    | none =>
      cases prev with
      | some p => exact ⟨_, set_next_sameUp _ p (some obj), h⟩
      | none =>
        cases par with
        | none => cases h
        | some p => exact ⟨_, set_child_sameUp _ p (some obj), h⟩
    | some n =>
      cases prev with
      | some p =>
        exact ⟨_, (set_prev_sameUp _ n (some obj)).trans (set_next_sameUp _ p (some obj)), h⟩
      | none =>
        cases par with
        | none => cases h
        | some p =>
          exact ⟨_, (set_prev_sameUp _ n (some obj)).trans (set_child_sameUp _ p (some obj)), h⟩
  obtain ⟨t2, ⟨hsame2, hparent2⟩, h⟩ := hneighbours
  obtain ⟨hsame3, hparent3⟩ := setUpdateLptrs_sameUp h
  refine ⟨((SameRest.refl t).set rfl rfl rfl rfl).trans (hsame2.trans hsame3), fun x hx => ?_⟩
  rw [hparent3, hparent2]
  change (Function.update t.objs obj _ x).ob_parent = _
  rw [Function.update_of_ne hx]
  rfl

/-- The next object gets the previous one of an object that goes. -/
def bridged (t : State) (obj : Ptr) : State :=
  match t.next obj with
  | some next => t.set next fun o => { o with ob_prev := t.prev obj }
  | none => t

theorem bridged_sameUp (t : State) (obj : Ptr) : SameUp t (bridged t obj) := by
  unfold bridged
  split
  · exact set_prev_sameUp t _ _
  · exact SameUp.refl t

theorem unlinkObject_same (h : unlinkObject t obj = .ok t') : SameUp t t' := by
  have hskip : ∀ {t1 : State}, SameUp t t1 →
      setUpdateLptrs (bridged t1 obj) ((bridged t1 obj).parent obj) false = .ok t' →
        SameUp t t' :=
    fun h1 h => (h1.trans (bridged_sameUp _ obj)).trans (setUpdateLptrs_sameUp h)
  unfold unlinkObject at h
  split at h
  · exact hskip (set_next_sameUp t _ _) h
  · exact hskip (set_child_sameUp t _ _) h
  · cases h

/-- What taking an object out leaves of the objects. -/
structure Leaves (t t' : State) (obj : Ptr) : Prop where
  live : t'.live = Function.update t.live obj false
  code : ∀ o, t'.code o = t.code o
  type : ∀ o, (t'.objs o).ob_type = (t.objs o).ob_type
  parent : t'.parent = t.parent

theorem kill_leaves (h : kill t obj = .ok t') : Leaves t t' obj := by
  obtain ⟨t1, ht1, h⟩ := bind_ok h
  obtain ⟨t2, ht2, h⟩ := bind_ok h
  obtain rfl := Except.ok.inj h
  obtain ⟨⟨prev, node⟩, -, ht2⟩ := bind_ok ht2
  obtain rfl := Except.ok.inj ht2
  have hobjs : (forget (dropHash t1 (HASH (t1.code obj)) prev node) obj).objs = t1.objs :=
    (forget_same _ obj).1.trans (dropHash_same ..).1
  have hlive : (forget (dropHash t1 (HASH (t1.code obj)) prev node) obj).live = t1.live :=
    (forget_same _ obj).2.1.trans (dropHash_same ..).2.1
  obtain ⟨hsame, hparent⟩ := unlinkObject_same ht1
  refine ⟨?_, fun o => ?_, fun o => ?_, ?_⟩
  · rw [← hsame.live, ← hlive]
  · rw [← hsame.code o]
    exact congrArg (fun objs : Ptr → Obj => (objs o).ob_code) hobjs
  · rw [← hsame.type o]
    exact congrArg (fun objs : Ptr → Obj => (objs o).ob_type) hobjs
  · rw [← hparent]
    exact congrArg (fun (objs : Ptr → Obj) o => (objs o).ob_parent) hobjs

theorem codeToObj_same {t' : State} {o : Ptr} (h : codeToObj t code = .ok (t', o)) :
    SameObjs t t' ∧ t'.parent = t.parent := by
  unfold codeToObj at h
  split at h
  · obtain ⟨rfl, -⟩ := Prod.mk.inj (Except.ok.inj h)
    exact ⟨SameObjs.refl t, rfl⟩
  · split at h
    · obtain ⟨rfl, -⟩ := Prod.mk.inj (Except.ok.inj h)
      exact ⟨SameObjs.refl t, rfl⟩
    · obtain ⟨p_hash, -, h⟩ := bind_ok h
      obtain ⟨rfl, -⟩ := Prod.mk.inj (Except.ok.inj h)
      exact ⟨⟨rfl, fun _ => rfl, fun _ => rfl⟩, rfl⟩

theorem SameObjs.trans {t2 : State} (h : SameObjs t t') (h' : SameObjs t' t2) : SameObjs t t2 :=
  ⟨h'.live.trans h.live, fun o => (h'.code o).trans (h.code o),
    fun o => (h'.type o).trans (h.type o)⟩

theorem sameObjs_of_rest (h : SameRest t t') : SameObjs t t' := ⟨h.live, h.code, h.type⟩

theorem getCode_same {rel : Rel} {res : Option Nat} (h : getCode t code rel = .ok (t', res)) :
    SameObjs t t' ∧ t'.parent = t.parent := by
  rw [getCode_eq] at h
  obtain ⟨⟨t1, o⟩, ht1, h⟩ := bind_ok h
  obtain ⟨found, -, h⟩ := bind_ok h
  obtain ⟨hsame, hparent⟩ := codeToObj_same ht1
  cases found with
  | none =>
    obtain ⟨rfl, -⟩ := Prod.mk.inj (Except.ok.inj h)
    exact ⟨hsame, hparent⟩
  | some o =>
    obtain ⟨rfl, -⟩ := Prod.mk.inj (Except.ok.inj h)
    exact ⟨hsame.trans ⟨rfl, fun _ => rfl, fun _ => rfl⟩, hparent⟩

theorem relink_sameUp (t : State) (prev : Option Ptr) (l : List Ptr) :
    SameUp t (relink t prev l) := by
  induction l generalizing t prev with
  | nil => exact SameUp.refl t
  | cons o l ih => exact (set_sameUp t o _ rfl rfl rfl rfl rfl).trans (ih _ _)

theorem sortChildren_same {cmp : Nat → Nat → Int} (h : sortChildren t code cmp = .ok t') :
    SameObjs t t' ∧ t'.parent = t.parent := by
  obtain ⟨⟨t1, par⟩, ht1, h⟩ := bind_ok h
  obtain ⟨l, -, h⟩ := bind_ok h
  obtain ⟨hsame, hparent⟩ := codeToObj_same ht1
  have hup := ((set_child_sameUp t1 par _).trans (relink_sameUp _ none _)).trans
    (setUpdateLptrs_sameUp h)
  exact ⟨hsame.trans (sameObjs_of_rest hup.1), hup.2.trans hparent⟩

theorem moveObject_same {poscode : Nat} {wh : Where}
    (h : moveObject od t code poscode wh = .ok t') : SameObjs t t' := by
  rw [moveObject_eq] at h
  obtain ⟨⟨t1, orig⟩, ht1, h⟩ := bind_ok h
  obtain ⟨⟨t2, dest⟩, ht2, h⟩ := bind_ok h
  obtain ⟨above, -, h⟩ := bind_ok h
  have hsame := (codeToObj_same ht1).1.trans (codeToObj_same ht2).1
  split at h
  · cases h
  · obtain ⟨old, -, h⟩ := bind_ok h
    obtain ⟨t3, ht3, h⟩ := bind_ok h
    obtain ⟨t4, ht4, h⟩ := bind_ok h
    obtain ⟨new, -, h⟩ := bind_ok h
    have hlink : SameRest t3 t4 := by
      unfold relinkAt at ht4
      cases wh with
      | OBJ_CHILD => exact (linkObject_same ht4).1
      | OBJ_AFTER => exact (linkObject_same ht4).1
      | OBJ_BEFORE => exact (linkObject_same ht4).1
      | OBJ_LAST_CHILD => cases ht4
    have hmoved := hsame.trans (sameObjs_of_rest ((unlinkObject_same ht3).1.trans hlink))
    split at h
    · obtain rfl := Except.ok.inj h
      exact hmoved
    · exact hmoved.trans (sameObjs_of_rest (setUpdateLptrs_sameUp h).1)

/-- What a new object leaves of the others. -/
structure Joins (t t' : State) (obj : Ptr) (code : Nat) : Prop where
  live : t'.live = Function.update t.live obj true
  self : t'.code obj = code
  code : ∀ x, x ≠ obj → t'.code x = t.code x
  type : ∀ x, x ≠ obj → (t'.objs x).ob_type = (t.objs x).ob_type
  parent : ∀ x, x ≠ obj → t'.parent x = t.parent x

theorem makeObj_joins {hash : Ptr} {par next prev : Option Ptr} {type : Int}
    (h : makeObj od t obj hash par next prev code type = .ok t') : Joins t t' obj code := by
  rw [makeObj_eq] at h
  obtain ⟨hsame, hparent⟩ := linkObject_same h
  have hobjs : ∀ x, x ≠ obj → (fresh od t obj hash code type).objs x = t.objs x := fun x hx =>
    Function.update_of_ne hx ..
  have hself : (fresh od t obj hash code type).objs obj = freshObj od code type (t.objs obj) :=
    Function.update_self ..
  refine ⟨hsame.live, ?_, fun x hx => ?_, fun x hx => ?_, fun x hx => ?_⟩
  · rw [hsame.code, State.code, hself]
    rfl
  · rw [hsame.code, State.code, hobjs x hx]
    rfl
  · rw [hsame.type, hobjs x hx]
  · rw [hparent x hx, State.parent, hobjs x hx]
    rfl

theorem newObject_joins {hash : Ptr} {type : Int} {poscode : Nat} {wh : Where}
    (h : newObject od t obj hash code type poscode wh = .ok t') : Joins t t' obj code := by
  obtain ⟨⟨t1, pos⟩, ht1, h⟩ := bind_ok h
  obtain ⟨hsame, hparent⟩ := codeToObj_same ht1
  have hjoins : Joins t1 t' obj code := by
    cases wh with
    | OBJ_LAST_CHILD =>
      obtain ⟨last, -, h⟩ := bind_ok h
      exact makeObj_joins h
    | OBJ_CHILD => exact makeObj_joins h
    | OBJ_AFTER => exact makeObj_joins h
    | OBJ_BEFORE => exact makeObj_joins h
  refine ⟨?_, hjoins.self, fun x hx => ?_, fun x hx => ?_, fun x hx => ?_⟩
  · rw [hjoins.live, hsame.live]
  · rw [hjoins.code x hx, hsame.code]
  · rw [hjoins.type x hx, hsame.type]
  · rw [hjoins.parent x hx, hparent]

/-! ## New and removed objects -/

theorem forall₂_imp {α β : Type} {R R' : α → β → Prop} {l : List α} {l' : List β}
    (h : List.Forall₂ R l l') (himp : ∀ a ∈ l, ∀ b, R a b → R' a b) : List.Forall₂ R' l l' := by
  induction h with
  | nil => exact List.Forall₂.nil
  | cons hab _ ih =>
    exact List.Forall₂.cons (himp _ List.mem_cons_self _ hab)
      (ih fun a ha => himp a (List.mem_cons_of_mem _ ha))

/-- The selected objects are the same ones, at the same places of the tree. -/
theorem Listing.carry {l : List Selst} (h : Listing fresh t S l)
    (hmem : ∀ o, t'.live o = true ∧ o ∈ S' ↔ t.live o = true ∧ o ∈ S)
    (hcode : ∀ o, t.live o = true → o ∈ S → t'.code o = t.code o)
    (hchain : ∀ o above, t.live o = true → o ∈ S → IsTree.Chain t.parent o above →
      IsTree.Chain t'.parent o above) : Listing fresh t' S' l := by
  obtain ⟨⟨os, ⟨hnodup, hos⟩, hstands⟩, horder⟩ := h
  refine ⟨⟨os, ⟨hnodup, fun o => (hos o).trans (hmem o).symm⟩, ?_⟩, horder⟩
  refine forall₂_imp hstands fun o ho sel hsel => ?_
  obtain ⟨hlive, hS⟩ := (hos o).mp ho
  refine ⟨hsel.1.trans (hcode o hlive hS).symm, fun hfresh => ?_⟩
  obtain ⟨above, habove, huser⟩ := hsel.2 hfresh
  exact ⟨above, hchain o above hlive hS habove, huser⟩

theorem newObject_books (h : Inv t kids chains) (hbooks : Books env fresh t S s)
    (hjoins : Joins t t' obj code) (hdead : t.live obj = false) :
    Books env fresh t' (S \ {obj}) (s.set obj fun _ => noFlags) := by
  have hself := set_flags_self s obj fun _ => noFlags
  have hother : ∀ x, x ≠ obj → (s.set obj fun _ => noFlags).flags x = s.flags x := fun x hx =>
    set_flags_of_ne s _ hx
  have hne : ∀ x, t.live x = true → x ≠ obj := by
    rintro x hx rfl
    exact Bool.noConfusion (hdead.symm.trans hx)
  have hlive : ∀ x, x ≠ obj → t'.live x = t.live x := by
    intro x hx
    rw [hjoins.live, Function.update_of_ne hx]
  have hkept := hbooks.kept
  have hnot : obj ∉ objects s := fun hc => hne obj ((hkept.mem obj).mp hc).1 rfl
  refine ⟨⟨hkept.nodup, fun o => ?_, fun o ho => ?_, fun o ho => ?_, fun o ho => ?_,
    fun o ho => ?_, fun o ho => ?_, fun c => ?_⟩, fun hu o ho => ?_, fun hc => ?_⟩
  · by_cases hoo : o = obj
    · rw [hoo, hself]
      exact iff_of_false hnot fun hc => Bool.false_ne_true hc.2
    · rw [hother o hoo, hlive o hoo]
      exact hkept.mem o
  · by_cases hoo : o = obj
    · rw [hoo, hself]
      exact iff_of_false Bool.false_ne_true fun hc => hc.2 rfl
    · rw [hother o hoo, hkept.selected o (hlive o hoo ▸ ho)]
      exact (and_iff_left hoo).symm
  · by_cases hoo : o = obj
    · rw [hoo, hself]
      simp [noFlags]
    · rw [hother o hoo]
      exact hkept.listed o (hlive o hoo ▸ ho)
  · by_cases hoo : o = obj
    · rw [hoo, hself]
      exact fun hc => absurd hc Bool.false_ne_true
    · rw [hother o hoo]
      unfold canSelect
      rw [hjoins.type o hoo, hjoins.code o hoo]
      exact hkept.can o (hlive o hoo ▸ ho)
  · by_cases hoo : o = obj
    · rw [hoo, hself]
      rfl
    · rw [hother o hoo]
      exact hkept.drawn o (hlive o hoo ▸ ho)
  · by_cases hoo : o = obj
    · rw [hoo, hself]
      exact fun hc => absurd hc Bool.false_ne_true
    · rw [hother o hoo]
      exact hkept.waits o (hlive o hoo ▸ ho)
  · refine (hkept.told c).trans (exists_congr fun o => ?_)
    by_cases hoo : o = obj
    · rw [hoo]
      exact iff_of_false (fun hc => hne obj hc.1.1 rfl) fun hc => hc.2.2 rfl
    · unfold Named
      rw [hlive o hoo, hjoins.code o hoo]
      exact and_congr_right fun _ => (and_iff_left hoo).symm
  · by_cases hoo : o = obj
    · rw [hoo, hself]
      rfl
    · rw [hother o hoo]
      exact hbooks.quiet hu o (hlive o hoo ▸ ho)
  · obtain ⟨hlisting, hlen⟩ := hbooks.cached hc
    refine ⟨hlisting.carry (fun o => ?_) (fun o ho _ => hjoins.code o (hne o ho)) ?_, hlen⟩
    · by_cases hoo : o = obj
      · rw [hoo]
        exact iff_of_false (fun hc => hc.2.2 rfl) fun hc => hne obj hc.1 rfl
      · rw [hlive o hoo]
        exact and_congr_right fun _ => and_iff_left hoo
    · intro o above ho _ hchain
      refine hchain.congr fun x hx => hjoins.parent x (hne x ?_)
      exact h.tree.anc_mem ho ((IsTree.chain_mem_iff hchain).mp hx)

/-- The node of a listed object. -/
theorem exists_node {nodes : List Isel} (ho : obj ∈ nodes.map Isel.is_obj) :
    ∃ isel after, nodes.dropWhile (fun isel => isel.is_obj != obj) = isel :: after ∧
      isel.is_obj = obj := by
  induction nodes with
  | nil => cases ho
  | cons isel nodes ih =>
    by_cases heq : isel.is_obj = obj
    · exact ⟨isel, nodes, List.dropWhile_cons_of_neg (by simp [heq]), heq⟩
    · rw [List.dropWhile_cons_of_pos (by simpa using heq)]
      exact ih ((List.mem_cons.mp ho).resolve_left (Ne.symm heq))

theorem deselect_spec (h : Books env fresh t S s) (hcodes : DistinctCodes t)
    (ho : obj ∈ objects s) :
    ∃ s' S', deselect env t s obj = .ok s' ∧ Books env fresh t S' s' ∧
      (∀ x, x ∈ S' ↔ x ∈ S ∧ x ≠ obj) ∧ s'.flags obj = noFlags := by
  obtain ⟨isel, after, hdrop, hobj⟩ := exists_node ho
  have hkept : Kept env t S (objects s) { s with Obj_selection_changed := true } := { h.kept with }
  obtain ⟨s1, S1, hs1, hkept1, hquiet1, hS1, hhead1, -, hchanged1⟩ :=
    @turnOff_spec env t { s with Obj_selection_changed := true } S _ obj .SEL_DELETING hkept hcodes
      ho
  obtain ⟨hlive, -⟩ := (hkept1.mem obj).mp ho
  have hselected : (s1.flags obj).selected = false := by
    rw [← Bool.not_eq_true, hkept1.selected obj hlive, hS1]
    exact fun hc => hc.2 rfl
  have hchanged : s1.Obj_selection_changed = true := by
    rcases hchanged1 with hchanged1 | ⟨rfl, -⟩
    · exact hchanged1
    · rfl
  have hsplit : (s.Head_isel.takeWhile fun isel => isel.is_obj != obj) ++
      (s.Head_isel.dropWhile fun isel => isel.is_obj != obj) = s.Head_isel :=
    List.takeWhile_append_dropWhile
  rw [hdrop] at hsplit
  set front := s.Head_isel.takeWhile fun isel => isel.is_obj != obj with hfront
  have hlist : objects s = front.map Isel.is_obj ++ obj :: after.map Isel.is_obj := by
    rw [objects, ← hsplit, List.map_append, List.map_cons, hobj]
  rw [hlist] at hkept1
  have hcleared : Flags.cleared (s1.flags obj) = noFlags := by
    rw [Flags.cleared, hselected]
    rfl
  have hoff : Kept env t S1 (front.map Isel.is_obj ++ after.map Isel.is_obj)
      (s1.set obj Flags.cleared) :=
    (hkept1.perm List.perm_middle).off hselected hcleared
  refine ⟨{ s1.set obj Flags.cleared with Head_isel := front ++ after }, S1, ?_, ⟨?_, ?_, ?_⟩, hS1,
    (set_flags_self s1 obj Flags.cleared).trans hcleared⟩
  · unfold deselect
    dsimp only
    rw [hdrop]
    dsimp only
    rw [hs1]
  · rw [objects, List.map_append]
    exact { hoff with }
  · intro hu o hlive'
    change ((s1.set obj Flags.cleared).flags o).usersel_pending = false
    by_cases hoo : o = obj
    · rw [hoo, set_flags_self]
      rfl
    · rw [set_flags_of_ne _ _ hoo]
      exact hquiet1 (fun hu => h.quiet hu) hu o hlive'
  · intro hc
    exact absurd (hchanged.symm.trans hc) Bool.noConfusion

/-- An object of which all is off goes. -/
theorem Books.killed (h : Books env fresh t S s) (ho : t.live obj = true)
    (hflags : s.flags obj = noFlags) (hleaves : Leaves t t' obj) : Books env fresh t' S s := by
  have hmem : ∀ o, t'.live o = true ↔ t.live o = true ∧ o ≠ obj := by
    intro o
    rw [hleaves.live]
    by_cases hoo : o = obj
    · rw [hoo, Function.update_self]
      exact iff_of_false Bool.false_ne_true fun hc => hc.2 rfl
    · rw [Function.update_of_ne hoo, and_iff_left hoo]
  have hnot : obj ∉ S := by
    rw [← h.kept.selected obj ho, hflags]
    exact Bool.false_ne_true
  have hboth : ∀ o, t'.live o = true ∧ o ∈ S ↔ t.live o = true ∧ o ∈ S := by
    intro o
    rw [hmem, and_assoc]
    refine and_congr_right fun _ => and_iff_right_of_imp ?_
    rintro hS rfl
    exact hnot hS
  have hkept := h.kept
  refine ⟨⟨hkept.nodup, fun o => ?_, fun o hl => hkept.selected o ((hmem o).mp hl).1,
    fun o hl => hkept.listed o ((hmem o).mp hl).1, fun o hl => ?_,
    fun o hl => hkept.drawn o ((hmem o).mp hl).1, fun o hl => hkept.waits o ((hmem o).mp hl).1,
    fun c => ?_⟩, fun hu o hl => h.quiet hu o ((hmem o).mp hl).1, fun hc => ?_⟩
  · rw [hkept.mem, hmem, and_assoc]
    refine and_congr_right fun _ => (and_iff_right_of_imp ?_).symm
    rintro hin rfl
    rw [hflags] at hin
    exact Bool.false_ne_true hin
  · unfold canSelect
    rw [hleaves.type, hleaves.code]
    exact hkept.can o ((hmem o).mp hl).1
  · refine (hkept.told c).trans (exists_congr fun o => ?_)
    unfold Named
    rw [hleaves.code, and_right_comm, ← hboth o, and_right_comm]
  · obtain ⟨hlisting, hlen⟩ := h.cached hc
    refine ⟨hlisting.carry hboth (fun o _ _ => hleaves.code o) fun o above _ _ hchain => ?_, hlen⟩
    rwa [hleaves.parent]

theorem killParent_eq (env : Env) (t : State) (s : Sel) (obj : Ptr) : killParent env t s obj =
    (if (s.flags obj).in_sel_list then deselect env t s obj else .ok s).bind fun s =>
      (kill t obj).bind fun t => .ok (t, s) := by
  have hkill : ∀ s : Sel, (do
      let t ← unlinkObject t obj
      let t ← unenterObj t obj
      .ok ({ t with live := Function.update t.live obj false }, s)) =
        (kill t obj).bind fun t => .ok (t, s) := by
    intro s
    unfold kill
    cases unlinkObject t obj with
    | error _ => rfl
    | ok t1 =>
      dsimp only [bind, Except.bind]
      cases unenterObj t1 obj <;> rfl
  unfold killParent
  split
  · cases deselect env t s obj with
    | error _ => rfl
    | ok s1 => exact hkill s1
  · exact hkill s

theorem killParent_spec (h : Books env fresh t S s) (hcodes : DistinctCodes t)
    (ho : t.live obj = true) (hkill : kill t obj = .ok t') :
    ∃ s', killParent env t s obj = .ok (t', s') ∧ Books env fresh t' S s' := by
  have hdeselect : ∃ s1 S1, (if (s.flags obj).in_sel_list then deselect env t s obj else .ok s) =
      .ok s1 ∧ Books env fresh t S1 s1 ∧ (∀ x, x ∈ S1 ↔ x ∈ S ∧ x ≠ obj) ∧
      s1.flags obj = noFlags := by
    split
    · rename_i hin
      exact deselect_spec h hcodes ((h.kept.mem obj).mpr ⟨ho, hin⟩)
    · rename_i hin
      have hselected : (s.flags obj).selected = false := by
        rw [← Bool.not_eq_true]
        exact fun hc => hin (h.kept.listed obj ho (Or.inl hc))
      have hpending : (s.flags obj).usersel_pending = false := by
        rw [← Bool.not_eq_true]
        exact fun hc => hin (h.kept.listed obj ho (Or.inr hc))
      have hdrawn := h.kept.drawn obj ho
      rw [hselected, hpending] at hdrawn
      refine ⟨s, S, rfl, h, fun x => ?_, ?_⟩
      · refine (and_iff_left_of_imp ?_).symm
        rintro hx rfl
        rw [← h.kept.selected x ho, hselected] at hx
        exact Bool.false_ne_true hx
      · have hfl : s.flags obj = ⟨(s.flags obj).highlighted, (s.flags obj).in_sel_list,
          (s.flags obj).usersel_pending, (s.flags obj).selected⟩ := rfl
        rw [hfl, hselected, hpending, hdrawn, Bool.eq_false_iff.mpr hin]
        rfl
  obtain ⟨s1, S1, hs1, hbooks1, hS1, hflags1⟩ := hdeselect
  have hleaves := kill_leaves hkill
  have hbooks2 := hbooks1.killed ho hflags1 hleaves
  refine ⟨s1, ?_, hbooks2.congr fun x hx => ?_⟩
  · rw [killParent_eq, hs1]
    change (kill t obj).bind _ = _
    rw [hkill]
    rfl
  · rw [hS1]
    refine (and_iff_left ?_).symm
    rintro rfl
    rw [hleaves.live, Function.update_self] at hx
    exact Bool.false_ne_true hx

theorem rmObjTrees_some (env : Env) (fuel : Nat) (t : State) (s : Sel) (child : Ptr) (all : Bool) :
    rmObjTrees env (fuel + 1) t s (some child) all =
      (if all || t.child child == none then
        (rmObjTrees env fuel t s (t.child child) true).bind fun r => killParent env r.1 r.2 child
      else .ok (t, s)).bind fun r => rmObjTrees env fuel r.1 r.2 (t.next child) all := by
  rw [rmObjTrees]
  split
  · cases rmObjTrees env fuel t s (t.child child) true <;> rfl
  · rfl

/-- The objects go as they do without a selection, and the books are kept. -/
theorem rmObjTrees_books {keep : Ptr} {l0 : List Ptr} (all : Bool)
    (hturns : IsTree.Turns kids fuel l) (h : Inv t kids chains) (hp : t.live par = true)
    (hl : kids par = l0 ++ l) (hanc : Anc t.parent par keep)
    (hkeep : t.Likely1 = keep ∨ t.Likely2 = keep) (hbooks : Books env fresh t S s) :
    ∃ t' s', rmObjTrees env fuel t s l.head? all = .ok (t', s') ∧
      obj_tree.rmObjTrees fuel t l.head? all = .ok t' ∧ Books env fresh t' S s' := by
  induction fuel generalizing t s kids chains par l0 l all with
  | zero => cases hturns
  | succ fuel ih =>
    cases hturns with
    | nil => exact ⟨t, s, rfl, rfl, hbooks⟩
    | @cons _ c l hbelow hrest =>
      have hc : c ∈ kids par := by
        rw [hl]
        exact List.mem_append_right _ List.mem_cons_self
      have hcp := h.tree.parent_of_kid hp hc
      have hcmem := h.tree.mem_of_kid hp hc
      -- What becomes of the first child
      have hfirst : ∃ t1 s1 kids1 chains1 l1, (if all || t.child c == none then
          (rmObjTrees env fuel t s (t.child c) true).bind fun r => killParent env r.1 r.2 c
          else .ok (t, s)) = .ok (t1, s1) ∧ (if all || t.child c == none then
          (obj_tree.rmObjTrees fuel t (t.child c) true).bind fun t => kill t c else .ok t) =
            .ok t1 ∧ Books env fresh t1 S s1 ∧
          Inv t1 kids1 chains1 ∧ Removes t t1 kids kids1 par keep ∧ kids1 par = l1 ++ l := by
        split
        · obtain ⟨t1, kids1, chains1, ht1, hinv1, hremoves1, hnone⟩ :=
            rmObjTrees_spec true hbelow h hcmem (List.nil_append _).symm
              (Relation.ReflTransGen.head hcp hanc) hkeep
          obtain ⟨t1', s1, hs1, ht1', hbooks1⟩ := ih true hbelow h hcmem (List.nil_append _).symm
            (Relation.ReflTransGen.head hcp hanc) hkeep hbooks
          obtain rfl := Except.ok.inj (ht1'.symm.trans ht1)
          obtain ⟨t2, chains2, ht2, hinv2, hremoves2, hp2⟩ :=
            removes_kill h hp hc hanc hinv1 hremoves1 (hnone rfl)
          obtain ⟨s2, hs2, hbooks2⟩ := killParent_spec hbooks1 hinv1.codes hremoves1.live ht2
          refine ⟨t2, s2, _, chains2, l0, ?_, ?_, hbooks2, hinv2, hremoves2, ?_⟩
          · rw [(h.lists c hcmem).first, hs1]
            exact hs2
          · rw [(h.lists c hcmem).first, ht1]
            exact ht2
          · have hnodup := h.tree.nodup par hp
            rw [hl, List.nodup_middle, List.nodup_cons] at hnodup
            rw [hp2, hl, List.erase_append_right _ fun hc =>
              hnodup.1 (List.mem_append_left _ hc), List.erase_cons_head]
        · refine ⟨t, s, kids, chains, l0 ++ [c], rfl, rfl, hbooks, h, ⟨rfl, hkeep,
            fun x => List.Sublist.refl _, hp, fun x hx _ => ⟨rfl, hx⟩⟩, ?_⟩
          rw [hl, List.append_assoc]
          rfl
      obtain ⟨t1, s1, kids1, chains1, l1, hs1, ht1, hbooks1, hinv1, hremoves1, hl1⟩ := hfirst
      obtain ⟨t2, s2, hs2, ht2, hbooks2⟩ :=
        ih all (hrest.sublist hremoves1.sublist (List.Sublist.refl l)) hinv1 hremoves1.live hl1
          (hremoves1.parent ▸ hanc) hremoves1.likely hbooks1
      have hnext := (h.lined.links hp hl).2
      refine ⟨t2, s2, ?_, ?_, hbooks2⟩
      · rw [List.head?_cons, rmObjTrees_some, hs1, hnext]
        exact hs2
      · rw [List.head?_cons, obj_tree.rmObjTrees_some, ht1, hnext]
        exact ht2

theorem removeObject_books {which : Which} (h : Inv t kids chains) (hbooks : Books env fresh t S s)
    (hin : InUse t code) (hmeets : Meets t (.removeObject code which)) :
    ∃ t' s' kids' chains', removeObject env t s code which = .ok (t', s') ∧
      Inv t' kids' chains' ∧ Books env fresh t' S s' := by
  obtain ⟨t', kids', chains', res, ht', hinv'⟩ := removeObject_spec h hin hmeets
  obtain ⟨o, ho⟩ := hin
  obtain ⟨t1, ht1, hcase, hinv1, hkeep, -⟩ := h.lookup ho
  have hsame := codeToObj_same ht1
  have hbooks1 : Books env fresh t1 S s := hbooks.retree hsame.1 fun _ _ => hsame.2
  have hlive1 : t1.live o = true := by
    rw [hsame.1.live]
    exact ho.1
  have hbelow : ∀ all, ∃ t2 s2, rmObjTree env t1 s o true false all = .ok (t2, s2) ∧
      obj_tree.rmObjTree t1 o true false all = .ok t2 ∧ Books env fresh t2 S s2 := by
    intro all
    obtain ⟨t2, s2, hs2, ht2, hbooks2⟩ := rmObjTrees_books all (hinv1.turns hlive1) hinv1 hlive1
      (List.nil_append _).symm Relation.ReflTransGen.refl hkeep hbooks1
    refine ⟨t2, s2, ?_, ?_, hbooks2⟩
    · unfold rmObjTree
      rw [if_pos rfl, (hinv1.lists o hlive1).first, hs2]
      rfl
    · unfold obj_tree.rmObjTree
      rw [if_pos rfl, (hinv1.lists o hlive1).first, ht2]
      rfl
  unfold removeObject
  unfold obj_tree.removeObject at ht'
  rw [ht1] at ht' ⊢
  cases which with
  | OBJ_SELF =>
    by_cases hnone : t1.child o = none
    · change (if t1.child o = none then (kill t1 o).bind fun t => .ok (t, 0) else _) = _ at ht'
      rw [if_pos hnone] at ht'
      cases hkill : kill t1 o with
      | error stop =>
        rw [hkill] at ht'
        cases ht'
      | ok t2 =>
        obtain ⟨s2, hs2, hbooks2⟩ := killParent_spec hbooks1 hinv1.codes hlive1 hkill
        rw [hkill] at ht'
        obtain ⟨rfl, -⟩ := Prod.mk.inj (Except.ok.inj ht')
        refine ⟨t2, s2, kids', chains', ?_, hinv', hbooks2⟩
        change (if t1.child o = none then killParent env t1 s o else _) = _
        rw [if_pos hnone, hs2]
    · change (if t1.child o = none then _ else Except.ok (t1, (-1 : Int))) = _ at ht'
      rw [if_neg hnone] at ht'
      obtain ⟨rfl, -⟩ := Prod.mk.inj (Except.ok.inj ht')
      refine ⟨t1, s, kids', chains', ?_, hinv', hbooks1⟩
      change (if t1.child o = none then _ else Except.ok (t1, s)) = _
      rw [if_neg hnone]
  | OBJ_CHILDREN =>
    obtain ⟨t2, s2, hs2, ht2, hbooks2⟩ := hbelow false
    change (obj_tree.rmObjTree t1 o true false false).bind _ = _ at ht'
    rw [ht2] at ht'
    obtain ⟨rfl, -⟩ := Prod.mk.inj (Except.ok.inj ht')
    exact ⟨t2, s2, kids', chains', hs2, hinv', hbooks2⟩
  | OBJ_DESCENDENTS =>
    obtain ⟨t2, s2, hs2, ht2, hbooks2⟩ := hbelow true
    change (obj_tree.rmObjTree t1 o true false true).bind _ = _ at ht'
    rw [ht2] at ht'
    obtain ⟨rfl, -⟩ := Prod.mk.inj (Except.ok.inj ht')
    exact ⟨t2, s2, kids', chains', hs2, hinv', hbooks2⟩

/-! ## Runs -/

/-- The tree is worked on as it may be without a selection. An object that is clicked on is one of
it, and the depths of the selected objects are asked for while they are depths that the loop comes
to. -/
def Call.Legal (t : State) (S : Set Ptr) : Call → Prop
  | .tree op => obj_tree.Legal t op ∧ Meets t op
  | .select_object code _ _ => InUse t code
  | .select_object_at (some obj) => t.live obj = true
  | .get_selection => Shallow t S
  | .get_reverse_selection => Shallow t S
  | _ => True

/-- Whether a list that `get_selection` keeps has the depths of the tree. -/
def Call.onDepths (s : Sel) (fresh : Prop) : Call → Prop
  | .tree (.moveObject ..) => False
  | .get_selection => s.Obj_selection_changed = true ∨ fresh
  | _ => fresh

/-- What a call should answer. -/
def Right (fresh : Prop) (t : State) (S : Set Ptr) (s : Sel) (answer : Answer) : Call → Prop
  | .updating _ => answer = .state s.Updating_state
  | .get_num_selected => ∃ os, Selection t S os ∧ answer = .number os.length
  | .get_selection => ∃ l, answer = .list l ∧
      Listing (s.Obj_selection_changed = true ∨ fresh) t S l
  | .get_unordered_selection => ∃ l os, answer = .list l ∧ Selection t S os ∧
      l.map Selst.se_code = os.map t.code
  | .get_reverse_selection => ∃ l, answer = .list l ∧
      Listing (s.Obj_selection_changed = true ∨ fresh) t S l.reverse
  | _ => answer = .nothing

/-- The states after any legal calls, with the objects that the calls select. -/
inductive Runs (env : Env) (od : Int → Odesc) : State → Sel → Set Ptr → Prop → Prop where
  | init (memory : Ptr → Obj) (hash : Ptr) (flags : Ptr → Flags) :
    Runs env od (initObjects od memory hash) (start flags) ∅ False
  | call {t t' : State} {s s' : Sel} {S : Set Ptr} {fresh : Prop} {answer : Answer} (c : Call)
    (run : Runs env od t s S fresh) (legal : c.Legal t S)
    (step : c.exec env od t s = .ok (t', s', answer)) :
    Runs env od t' s' (c.onSelection env t S) (c.onDepths s fresh)

theorem updating_old (s : Sel) (new_state : Option Bool) :
    (updating env t s new_state).2 = s.Updating_state := by
  unfold updating
  cases new_state with
  | none => rfl
  | some new_state =>
    dsimp only
    split <;> rfl

theorem start_books (memory : Ptr → Obj) (hash : Ptr) (flags : Ptr → Flags) :
    Books env fresh (initObjects od memory hash) ∅ (start flags) := by
  have hlive : ∀ o, (initObjects od memory hash).live o = true →
      (start flags).flags o = noFlags := by
    intro o ho
    have hroot : o = Rootobj := beq_iff_eq.mp ho
    rw [hroot]
    exact @Function.update_self _ (fun _ => Flags) _ Rootobj noFlags flags
  refine ⟨⟨List.nodup_nil, fun o => ?_, fun o ho => ?_, fun o ho => ?_, fun o ho => ?_,
    fun o ho => ?_, fun o ho => ?_, fun code => ?_⟩, fun _ o ho => ?_, fun hc => ?_⟩
  · refine iff_of_false List.not_mem_nil ?_
    rintro ⟨ho, hin⟩
    rw [hlive o ho] at hin
    exact Bool.false_ne_true hin
  · rw [hlive o ho]
    exact iff_of_false Bool.false_ne_true (Set.notMem_empty o)
  · rw [hlive o ho]
    exact fun hc => hc.elim id id
  · rw [hlive o ho]
    exact fun hin => absurd hin Bool.false_ne_true
  · rw [hlive o ho]
    rfl
  · rw [hlive o ho]
    exact fun hp => absurd hp Bool.false_ne_true
  · refine iff_of_false Bool.false_ne_true ?_
    rintro ⟨o, -, hS⟩
    exact Set.notMem_empty o hS
  · rw [hlive o ho]
    rfl
  · cases hc

/-- A call that only works on the tree. -/
theorem tree_books {op : Op} (h : Inv t kids chains) (hbooks : Books env fresh t S s)
    (hlegal : obj_tree.Legal t op) (hmeets : Meets t op) :
    ∃ t' s' kids' chains', Call.exec env od t s (.tree op) = .ok (t', s', .nothing) ∧
      Inv t' kids' chains' ∧ Books env (Call.onDepths s fresh (.tree op)) t'
        (Call.onSelection env t S (.tree op)) s' := by
  obtain ⟨t', kids', chains', ht', hinv'⟩ := exec_spec od op h hlegal hmeets
  cases op with
  | newObject obj hash code type poscode wh =>
    refine ⟨t', s.set obj fun _ => noFlags, kids', chains', ?_, hinv', ?_⟩
    · change (newObject od t obj hash code type poscode wh).bind _ = _
      change newObject od t obj hash code type poscode wh = _ at ht'
      rw [ht']
      rfl
    · exact newObject_books h hbooks (newObject_joins ht') hlegal.1
  | moveObject code poscode wh =>
    refine ⟨t', s, kids', chains', ?_, hinv', ?_⟩
    · change (Op.exec od t _).bind _ = _
      rw [ht']
      rfl
    · have hfresh : Books env False t S s := hbooks.mono fun _ hf => hf.elim
      exact hfresh.retree (moveObject_same ht') fun _ hf => hf.elim
  | removeObject code which =>
    obtain ⟨t1, s1, kids1, chains1, h1, hinv1, hbooks1⟩ := removeObject_books h hbooks hlegal hmeets
    refine ⟨t1, s1, kids1, chains1, ?_, hinv1, hbooks1⟩
    change (removeObject env t s code which).bind _ = _
    rw [h1]
    rfl
  | sortChildren parcode cmp =>
    refine ⟨t', s, kids', chains', ?_, hinv', ?_⟩
    · change (Op.exec od t _).bind _ = _
      rw [ht']
      rfl
    · obtain ⟨hsame, hparent⟩ := sortChildren_same ht'
      exact hbooks.retree hsame fun _ _ => hparent
  | getCode code rel =>
    refine ⟨t', s, kids', chains', ?_, hinv', ?_⟩
    · change (Op.exec od t _).bind _ = _
      rw [ht']
      rfl
    · obtain ⟨⟨t1, res⟩, h1, heq⟩ := bind_ok ht'
      obtain rfl : t1 = t' := Except.ok.inj heq
      obtain ⟨hsame, hparent⟩ := getCode_same h1
      exact hbooks.retree hsame fun _ _ => hparent

theorem call_books (c : Call) (h : Inv t kids chains) (hbooks : Books env fresh t S s)
    (hlegal : c.Legal t S) :
    ∃ t' s' answer kids' chains', c.exec env od t s = .ok (t', s', answer) ∧
      Inv t' kids' chains' ∧ Books env (c.onDepths s fresh) t' (c.onSelection env t S) s' ∧
      Right fresh t S s answer c := by
  cases c with
  | tree op =>
    obtain ⟨t', s', kids', chains', h', hinv', hbooks'⟩ :=
      @tree_books env od t s S fresh kids chains op h hbooks hlegal.1 hlegal.2
    exact ⟨t', s', .nothing, kids', chains', h', hinv', hbooks', rfl⟩
  | select_object code val which =>
    obtain ⟨t', s', h', hinv', hbooks'⟩ :=
      selectObject_spec h hbooks hlegal
    refine ⟨t', s', .nothing, kids, chains, ?_, hinv', hbooks', rfl⟩
    change (selectObject env t s code val which).bind _ = _
    rw [h']
    rfl
  | select_object_at hit =>
    cases hit with
    | none => exact ⟨t, s, .nothing, kids, chains, rfl, h, hbooks, rfl⟩
    | some obj =>
      exact ⟨t, _, .nothing, kids, chains, rfl, h,
        selObj_books .SEL_FLIP .SEL_PUCKSELECT hbooks h.codes hlegal, rfl⟩
  | clear_selection =>
    exact ⟨t, _, .nothing, kids, chains, rfl, h, clearSelection_books hbooks h.codes, rfl⟩
  | updating new_state =>
    refine ⟨t, _, _, kids, chains, rfl, h, updating_books hbooks new_state, ?_⟩
    exact congrArg Answer.state (updating_old s new_state)
  | get_num_selected =>
    obtain ⟨hbooks', os, hos, hnum⟩ := getNumSelected_books hbooks
    exact ⟨t, _, _, kids, chains, rfl, h, hbooks', os, hos, congrArg Answer.number hnum⟩
  | get_selection =>
    obtain ⟨s', l, h', hbooks', hlisting⟩ := getSelection_books h hbooks hlegal
    refine ⟨t, s', .list l, kids, chains, ?_, h, hbooks', l, rfl, hlisting⟩
    change (getSelection t s).bind _ = _
    rw [h']
    rfl
  | get_unordered_selection =>
    obtain ⟨hbooks', os, hos, hcodes⟩ := getUnorderedSelection_books hbooks
    exact ⟨t, _, _, kids, chains, rfl, h, hbooks', _, os, rfl, hos, hcodes⟩
  | get_reverse_selection =>
    obtain ⟨s', l, h', hbooks', hlisting⟩ := getReverseSelection_books h hbooks hlegal
    refine ⟨t, s', .list l, kids, chains, ?_, h, hbooks', l, rfl, hlisting⟩
    change (getReverseSelection t s).bind _ = _
    rw [h']
    rfl

theorem Runs.books (h : Runs env od t s S fresh) :
    (∃ kids chains, Inv t kids chains) ∧ Books env fresh t S s := by
  induction h with
  | init memory hash flags =>
    obtain ⟨chains, hinv⟩ := initObjects_inv od memory hash
    exact ⟨⟨_, chains, hinv⟩, start_books memory hash flags⟩
  | @call t t' s s' S fresh answer c _ legal step ih =>
    obtain ⟨⟨kids, chains, hinv⟩, hbooks⟩ := ih
    obtain ⟨t1, s1, answer1, kids', chains', h1, hinv', hbooks', -⟩ :=
      @call_books env od t s S fresh kids chains c hinv hbooks legal
    obtain ⟨rfl, heq⟩ := Prod.mk.inj (Except.ok.inj (h1.symm.trans step))
    obtain ⟨rfl, -⟩ := Prod.mk.inj heq
    exact ⟨⟨kids', chains', hinv'⟩, hbooks'⟩

/-- Every object can be selected, and is on the screen. -/
def allObjects : Env := ⟨fun _ _ => true, fun _ _ => true⟩

end ups_rules.selection
