-- The property changes of an edit buffer (props.c), and what inserting and deleting text does to
-- their points (edit_insert and edit_delete in display.c).
import Mathlib.Algebra.Ring.Int.Defs
import Mathlib.Algebra.Ring.Nat
import Mathlib.Data.List.Pairwise
import Mathlib.Tactic.Common
import Ups.LinkedPath

open linked_path

namespace ups_rules.prop_changes

/-! ## The pure model -/

/-- A property change as far as its place in the list goes; `id` is its address. -/
structure Mark where
  id : Nat
  point : Nat
  backsliding : Bool
  deriving DecidableEq

structure Propchange extends Mark where
  user_data : Nat
  new_font : Bool
  fi : Nat
  flagmask : BitVec 32
  flags : BitVec 32
  deriving DecidableEq

/-- An edit buffer: the list of its property changes, the initial one first, and how many bytes the
text has. -/
structure EditBuffer where
  pclist : List Propchange
  updating : Bool
  num_pending_changes : Nat
  buflen : Nat
  deriving DecidableEq

inductive Pcrel where
  | EARLIER | SAME | LATER
  deriving DecidableEq

def EDIT_MAX_POINT : Nat := 2 ^ 63 - 1

def editCreateBuffer (id fi : Nat) (flags : BitVec 32) (buflen : Nat) : EditBuffer where
  pclist := [⟨⟨id, 0, true⟩, 0, true, fi, ~~~0, flags⟩]
  updating := true
  num_pending_changes := 0
  buflen := buflen

def relationToPc (point : Nat) (backsliding : Bool) (pc : Mark) : Pcrel :=
  if point < pc.point then .EARLIER
  else if pc.point < point then .LATER
  else if backsliding ∧ ¬pc.backsliding then .EARLIER
  else if ¬backsliding ∧ pc.backsliding then .LATER
  else .SAME

/-- The loop of `redo_fontinfo_and_flags`. -/
def redoFrom : Propchange → List Propchange → List Propchange
  | _, [] => []
  | prev, pc :: l =>
    let pc := { pc with
      fi := if pc.new_font then pc.fi else prev.fi
      flags := (prev.flags &&& ~~~pc.flagmask) ||| (pc.flags &&& pc.flagmask) }
    pc :: redoFrom pc l

def redoFontinfoAndFlags : List Propchange → List Propchange
  | [] => []
  | pc :: l => pc :: redoFrom pc l

/-- `handle_prop_change`, without the displays. -/
def handlePropChange (b : EditBuffer) : EditBuffer :=
  { b with pclist := redoFontinfoAndFlags b.pclist, num_pending_changes := 0 }

def notePropchange (b : EditBuffer) : EditBuffer :=
  let b := { b with num_pending_changes := b.num_pending_changes + 1 }
  if b.updating then handlePropChange b else b

def editSetPropchangeUpdates (b : EditBuffer) (on : Bool) : EditBuffer :=
  let b := if on ∧ ¬b.updating ∧ b.num_pending_changes ≠ 0 then handlePropChange b else b
  { b with updating := on }

/-- The loop of `edit_add_propchange` goes on behind this change. -/
def goesPast (point : Nat) (backsliding : Bool) (pc : Mark) : Bool :=
  pc.point < point || (point == pc.point && !(backsliding && !pc.backsliding))

/-- `none` is a write through the null pointer. `fi` 0 is the null pointer. -/
def editAddPropchange (b : EditBuffer) (id point user_data fi : Nat) (flagmask flags : BitVec 32)
    (backsliding : Bool) : Option EditBuffer :=
  let passed := b.pclist.takeWhile fun pc => goesPast point backsliding pc.toMark
  let rest := b.pclist.dropWhile fun pc => goesPast point backsliding pc.toMark
  match passed.getLast? with
  | none => none
  | some last =>
    let pc : Propchange := ⟨⟨id, point, backsliding⟩, user_data, fi != 0,
      if fi ≠ 0 then fi else last.fi, flagmask,
      (last.flags &&& ~~~flagmask) ||| (flags &&& flagmask)⟩
    some (notePropchange { b with pclist := passed ++ pc :: rest })

/-- `none` is the panic for the initial change, or a change that is not in the list. -/
def editDeletePropchange (b : EditBuffer) (id : Nat) : Option EditBuffer :=
  match b.pclist.takeWhile (·.id != id), b.pclist.dropWhile (·.id != id) with
  | [], _ => none
  | _ :: _, [] => none
  | before, _ :: next => some (notePropchange { b with pclist := before ++ next })

/-- The loop of `edit_move_propchange` over the changes, with `last`, `oldprev` and `newprev`.
Gives `oldprev`, `newprev` and `last`. -/
def moveLoop (pc : Mark) (newpoint : Nat) (moving_forwards : Bool) :
    List Propchange → Option Nat → Option Nat → Option Nat →
    Option Nat × Option Nat × Option Nat
  | [], last, oldprev, newprev => (oldprev, newprev, last)
  | pc2 :: l, last, oldprev, newprev =>
    let oldprev := if pc2.id = pc.id then last else oldprev
    if pc2.id = pc.id ∧ newprev ≠ none then (oldprev, newprev, last)
    else
      let rel := relationToPc newpoint pc.backsliding pc2.toMark
      if newprev = none ∧ (rel = .EARLIER ∨ rel = .SAME ∧ moving_forwards) then
        if oldprev ≠ none then (oldprev, last, last)
        else moveLoop pc newpoint moving_forwards l (some pc2.id) oldprev last
      else moveLoop pc newpoint moving_forwards l (some pc2.id) oldprev newprev

/-- A change is linked in behind another one. -/
def insertAfter (newprev : Nat) (pc : Propchange) : List Propchange → List Propchange
  | [] => []
  | pc2 :: l => if pc2.id = newprev then pc2 :: pc :: l else pc2 :: insertAfter newprev pc l

/-- `none` is a panic, or a change that is not in the list. -/
def editMovePropchange (b : EditBuffer) (id newpoint : Nat) : Option EditBuffer :=
  match b.pclist.find? (·.id == id) with
  | none => none
  | some pc =>
    if newpoint = pc.point then some b
    else
      let (oldprev, newprev, last) :=
        moveLoop pc.toMark newpoint (pc.point < newpoint) b.pclist none none none
      let newprev := if newprev = none then last else newprev
      let newprev := if newprev = some pc.id then oldprev else newprev
      match oldprev, newprev with
      | some oldprev, some newprev =>
        let pclist := if oldprev ≠ newprev then
            insertAfter newprev { pc with point := newpoint } (b.pclist.eraseP (·.id == id))
          else b.pclist.map fun pc2 => if pc2.id = id then { pc2 with point := newpoint } else pc2
        some (notePropchange { b with pclist := pclist })
      | _, _ => none

/-- One turn of the loop of `edit__update_proplist_points`. -/
def updatePoint (pos : Nat) (delta : Int) (pc : Propchange) : Propchange :=
  if pc.backsliding ∧ pos = pc.point ∧ 0 < delta then pc
  else if pos ≤ pc.point then
    if delta < 0 ∧ (pc.point : Int) < pos + -delta then { pc with point := pos }
    else { pc with point := (pc.point + delta).toNat }
  else pc

def updateProplistPoints (pos : Nat) (delta : Int) : List Propchange → List Propchange
  | [] => []
  | pc :: l => pc :: l.map (updatePoint pos delta)

/-- `edit_insert` with `update_proplist`. -/
def editInsert (b : EditBuffer) (pos len : Nat) : EditBuffer :=
  { b with pclist := updateProplistPoints pos len b.pclist, buflen := b.buflen + len }

def editDelete (b : EditBuffer) (pos len : Nat) : EditBuffer :=
  { b with pclist := updateProplistPoints pos (-len) b.pclist, buflen := b.buflen - len }

def nextLoop (point : Nat) : Propchange → List Propchange → Propchange × Nat
  | pc, [] => (pc, EDIT_MAX_POINT)
  | pc, nextpc :: l => if point < nextpc.point then (pc, nextpc.point) else nextLoop point nextpc l

/-- From a change on, or from the initial one. Gives the change, and the point of the one behind
it. -/
def editGetNextPropchange (b : EditBuffer) (pc : Option Nat) (point : Nat) :
    Option (Propchange × Nat) :=
  match (match pc with
    | none => b.pclist
    | some id => b.pclist.dropWhile (·.id != id)) with
  | [] => none
  | pc :: l => some (nextLoop point pc l)

/-- A call; `add` with the address of the new change. -/
inductive Op where
  | add (id point user_data fi : Nat) (flagmask flags : BitVec 32) (backsliding : Bool)
  | move (id newpoint : Nat)
  | delete_propchange (id : Nat)
  | set_updates (on : Bool)
  | insert (pos len : Nat)
  | delete (pos len : Nat)

def exec (b : EditBuffer) : Op → Option EditBuffer
  | .add id point user_data fi flagmask flags backsliding =>
    editAddPropchange b id point user_data fi flagmask flags backsliding
  | .move id newpoint => editMovePropchange b id newpoint
  | .delete_propchange id => editDeletePropchange b id
  | .set_updates on => some (editSetPropchangeUpdates b on)
  | .insert pos len => some (editInsert b pos len)
  | .delete pos len => some (editDelete b pos len)

/-! ## Lists of marks in order -/

variable {ms k1 k2 : List Mark} {m : Mark} {n p : Nat}

/-- The initial change is at 0, the points do not decrease and lie within the text. -/
structure Good (ms : List Mark) (buflen : Nat) : Prop where
  nodup : (ms.map (·.id)).Nodup
  initial : ∃ m l, ms = m :: l ∧ m.point = 0 ∧ m.backsliding = true
  sorted : ms.Pairwise fun x y => x.point ≤ y.point
  within : ∀ m ∈ ms, m.point ≤ buflen

/-- Every change of a buffer is in order. -/
def Ordered (b : EditBuffer) : Prop := b.pclist.Pairwise fun x y => x.point ≤ y.point

def Within (b : EditBuffer) : Prop := ∀ pc ∈ b.pclist, pc.point ≤ b.buflen

def marks (l : List Propchange) : List Mark := l.map (·.toMark)

theorem ordered_iff (b : EditBuffer) :
    Ordered b ↔ (marks b.pclist).Pairwise fun x y => x.point ≤ y.point := by
  unfold Ordered marks
  rw [List.pairwise_map]

theorem within_iff (b : EditBuffer) : Within b ↔ ∀ m ∈ marks b.pclist, m.point ≤ b.buflen := by
  unfold Within marks
  rw [List.forall_mem_map]

theorem Good.insert (h : Good (k1 ++ k2) n) (hk1 : k1 ≠ []) (hid : m.id ∉ (k1 ++ k2).map (·.id))
    (hbefore : ∀ x ∈ k1, x.point ≤ m.point) (hbehind : ∀ x ∈ k2, m.point ≤ x.point)
    (hm : m.point ≤ n) : Good (k1 ++ m :: k2) n := by
  have hsorted := List.pairwise_append.mp h.sorted
  refine ⟨?_, ?_, ?_, ?_⟩
  · rw [List.map_append, List.map_cons]
    apply List.nodup_middle.mpr
    rw [← List.map_append]
    exact List.nodup_cons.mpr ⟨hid, h.nodup⟩
  · obtain ⟨m0, l, hl, hpoint⟩ := h.initial
    cases k1 with
    | nil => exact absurd rfl hk1
    | cons a k1 =>
      cases hl
      exact ⟨_, _, rfl, hpoint⟩
  · refine List.pairwise_append.mpr ⟨hsorted.1, List.pairwise_cons.mpr ⟨hbehind, hsorted.2.1⟩, ?_⟩
    intro x hx y hy
    rcases List.mem_cons.mp hy with rfl | hy
    · exact hbefore x hx
    · exact hsorted.2.2 x hx y hy
  · intro x hx
    rcases List.mem_cons.mp (List.perm_middle.mem_iff.mp hx) with rfl | hx
    · exact hm
    · exact h.within x hx

theorem Good.remove (h : Good (k1 ++ m :: k2) n) (hk1 : k1 ≠ []) : Good (k1 ++ k2) n := by
  have hsub : List.Sublist (k1 ++ k2) (k1 ++ m :: k2) := (List.sublist_cons_self m k2).append_left k1
  refine ⟨h.nodup.sublist (hsub.map _), ?_, h.sorted.sublist hsub, fun x hx => h.within x
    (hsub.subset hx)⟩
  obtain ⟨m0, l, hl, hpoint⟩ := h.initial
  cases k1 with
  | nil => exact absurd rfl hk1
  | cons a k1 =>
    cases hl
    exact ⟨_, _, rfl, hpoint⟩

/-- The bounds on the two parts of a list in order, split where a test fails first. -/
theorem split_bounds {l : List Propchange} {f : Mark → Bool}
    (hl : l.Pairwise fun x y => x.point ≤ y.point)
    (hpast : ∀ x, f x = true → x.point ≤ p) (hstop : ∀ x, f x = false → p ≤ x.point) :
    (∀ x ∈ l.takeWhile (fun pc => f pc.toMark), x.point ≤ p) ∧
      ∀ x ∈ l.dropWhile (fun pc => f pc.toMark), p ≤ x.point := by
  induction l with
  | nil => exact ⟨fun x hx => absurd hx List.not_mem_nil, fun x hx => absurd hx List.not_mem_nil⟩
  | cons a l ih =>
    obtain ⟨hbehind, hl⟩ := List.pairwise_cons.mp hl
    by_cases ha : f a.toMark = true
    · obtain ⟨htake, hdrop⟩ := ih hl
      rw [List.takeWhile_cons_of_pos (p := fun pc : Propchange => f pc.toMark) ha,
        List.dropWhile_cons_of_pos (p := fun pc : Propchange => f pc.toMark) ha]
      refine ⟨?_, hdrop⟩
      intro x hx
      rcases List.mem_cons.mp hx with rfl | hx
      · exact hpast _ ha
      · exact htake x hx
    · rw [List.takeWhile_cons_of_neg (p := fun pc : Propchange => f pc.toMark) ha,
        List.dropWhile_cons_of_neg (p := fun pc : Propchange => f pc.toMark) ha]
      refine ⟨fun x hx => absurd hx List.not_mem_nil, ?_⟩
      have hpoint := hstop a.toMark (Bool.eq_false_iff.mpr ha)
      intro x hx
      rcases List.mem_cons.mp hx with rfl | hx
      · exact hpoint
      · exact Nat.le_trans hpoint (hbehind _ hx)

/-! ## The fonts and flags do not move a change -/

theorem marks_redoFrom (pc : Propchange) (l : List Propchange) :
    marks (redoFrom pc l) = marks l := by
  induction l generalizing pc with
  | nil => rfl
  | cons a l ih =>
    unfold redoFrom marks
    rw [List.map_cons, List.map_cons]
    congr 1
    exact ih _

theorem marks_redo (l : List Propchange) : marks (redoFontinfoAndFlags l) = marks l := by
  cases l with
  | nil => rfl
  | cons a l => exact congrArg (a.toMark :: ·) (marks_redoFrom a l)

theorem marks_handle (b : EditBuffer) : marks (handlePropChange b).pclist = marks b.pclist :=
  marks_redo b.pclist

@[simp] theorem marks_note (b : EditBuffer) : marks (notePropchange b).pclist = marks b.pclist := by
  unfold notePropchange
  by_cases hupdating : b.updating = true
  · dsimp only
    rw [if_pos hupdating]
    exact marks_redo b.pclist
  · dsimp only
    rw [if_neg hupdating]

@[simp] theorem buflen_note (b : EditBuffer) : (notePropchange b).buflen = b.buflen := by
  unfold notePropchange
  by_cases hupdating : b.updating = true
  · dsimp only
    rw [if_pos hupdating]
    rfl
  · dsimp only
    rw [if_neg hupdating]

/-- A buffer whose list is good. -/
def GoodBuffer (b : EditBuffer) : Prop := Good (marks b.pclist) b.buflen

theorem goodBuffer_note {b : EditBuffer} {l : List Propchange} (h : Good (marks l) b.buflen) :
    GoodBuffer (notePropchange { b with pclist := l }) := by
  unfold GoodBuffer
  rw [marks_note, buflen_note]
  exact h

theorem marks_append (l1 l2 : List Propchange) : marks (l1 ++ l2) = marks l1 ++ marks l2 :=
  List.map_append

theorem marks_cons (pc : Propchange) (l : List Propchange) :
    marks (pc :: l) = pc.toMark :: marks l := rfl

/-! ## Adding and deleting a change -/

variable {b : EditBuffer} {id : Nat} {pc : Propchange} {l l1 l2 : List Propchange}

theorem goesPast_le {point : Nat} {backsliding : Bool} (x : Mark)
    (h : goesPast point backsliding x = true) : x.point ≤ point := by
  unfold goesPast at h
  rcases Bool.or_eq_true_iff.mp h with hlt | heq
  · exact Nat.le_of_lt (of_decide_eq_true hlt)
  · exact Nat.le_of_eq (beq_iff_eq.mp (Bool.and_eq_true_iff.mp heq).1).symm

theorem le_of_not_goesPast {point : Nat} {backsliding : Bool} (x : Mark)
    (h : goesPast point backsliding x = false) : point ≤ x.point := by
  unfold goesPast at h
  exact Nat.not_lt.mp (of_decide_eq_false (Bool.or_eq_false_iff.mp h).1)

theorem goesPast_initial {point : Nat} {backsliding : Bool} (hpoint : m.point = 0)
    (hback : m.backsliding = true) : goesPast point backsliding m = true := by
  unfold goesPast
  rw [hpoint, hback]
  by_cases hzero : point = 0
  · subst hzero
    cases backsliding <;> rfl
  · have hlt : 0 < point := Nat.pos_of_ne_zero hzero
    simp [hlt]

theorem GoodBuffer.initial (h : GoodBuffer b) :
    ∃ pc l, b.pclist = pc :: l ∧ pc.point = 0 ∧ pc.backsliding = true := by
  obtain ⟨m, ms, hms, hpoint, hback⟩ := Good.initial h
  cases hl : b.pclist with
  | nil =>
    rw [hl] at hms
    cases hms
  | cons pc l =>
    rw [hl] at hms
    cases hms
    exact ⟨pc, l, rfl, hpoint, hback⟩

theorem editAddPropchange_spec (h : GoodBuffer b) {point : Nat} (user_data fi : Nat)
    (flagmask flags : BitVec 32) (backsliding : Bool) (hid : id ∉ (marks b.pclist).map (·.id))
    (hpoint : point ≤ b.buflen) :
    ∃ b', editAddPropchange b id point user_data fi flagmask flags backsliding = some b' ∧
      GoodBuffer b' := by
  obtain ⟨pc0, l, hl, hzero, hback⟩ := h.initial
  have hfirst : goesPast point backsliding pc0.toMark = true := goesPast_initial hzero hback
  obtain ⟨hpast, hbehind⟩ := split_bounds (f := goesPast point backsliding)
    ((ordered_iff b).mpr (Good.sorted h)) goesPast_le le_of_not_goesPast
  have hparts := List.takeWhile_append_dropWhile
    (p := fun pc : Propchange => goesPast point backsliding pc.toMark) (l := b.pclist)
  unfold editAddPropchange
  dsimp only
  cases hlast : (b.pclist.takeWhile fun pc => goesPast point backsliding pc.toMark).getLast? with
  | none =>
    rw [List.getLast?_eq_none_iff, hl,
      List.takeWhile_cons_of_pos (p := fun pc : Propchange => goesPast point backsliding pc.toMark)
        hfirst] at hlast
    cases hlast
  | some last =>
    refine ⟨_, rfl, goodBuffer_note ?_⟩
    rw [marks_append, marks_cons]
    apply Good.insert
    · rw [← marks_append, hparts]
      exact h
    · intro hnil
      rw [List.map_eq_nil_iff.mp hnil] at hlast
      cases hlast
    · rw [← marks_append, hparts]
      exact hid
    · intro x hx
      obtain ⟨pc, hpc, rfl⟩ := List.mem_map.mp hx
      exact hpast pc hpc
    · intro x hx
      obtain ⟨pc, hpc, rfl⟩ := List.mem_map.mp hx
      exact hbehind pc hpc
    · exact hpoint

/-- A change that is not the initial one stands behind some others. -/
theorem split_at_id (h : GoodBuffer b) (hid : ∃ pc ∈ b.pclist.tail, pc.id = id) :
    ∃ pc0 l1 pc l2, b.pclist = pc0 :: (l1 ++ pc :: l2) ∧ pc.id = id ∧ pc0.point = 0 ∧
      pc0.backsliding = true ∧ (∀ x ∈ pc0 :: l1, x.id ≠ id) ∧ ∀ x ∈ l2, x.id ≠ id := by
  obtain ⟨pc0, l, hl, hzero, hback⟩ := h.initial
  obtain ⟨pc, hpc, hpcid⟩ := hid
  rw [hl] at hpc
  obtain ⟨l1, l2, rfl⟩ := List.append_of_mem hpc
  have hnodup := Good.nodup h
  rw [hl] at hnodup
  have hsplit : marks (pc0 :: (l1 ++ pc :: l2)) = marks (pc0 :: l1) ++ pc.toMark :: marks l2 := by
    rw [← marks_cons, ← marks_append]
    rfl
  rw [hsplit, List.map_append, List.map_cons] at hnodup
  have hnotmem := (List.nodup_cons.mp (List.nodup_middle.mp hnodup)).1
  rw [List.mem_append, not_or, hpcid] at hnotmem
  refine ⟨pc0, l1, pc, l2, hl, hpcid, hzero, hback, ?_, ?_⟩
  · intro x hx hxid
    apply hnotmem.1
    rw [← hxid]
    exact List.mem_map_of_mem (List.mem_map_of_mem hx)
  · intro x hx hxid
    apply hnotmem.2
    rw [← hxid]
    exact List.mem_map_of_mem (List.mem_map_of_mem hx)

theorem takeWhile_id (l2 : List Propchange) (hl1 : ∀ x ∈ l1, x.id ≠ id) (hpc : pc.id = id) :
    (l1 ++ pc :: l2).takeWhile (·.id != id) = l1 ∧
      (l1 ++ pc :: l2).dropWhile (·.id != id) = pc :: l2 := by
  induction l1 with
  | nil => simp [hpc]
  | cons a l1 ih =>
    have ha : a.id ≠ id := hl1 a List.mem_cons_self
    obtain ⟨htake, hdrop⟩ := ih fun x hx => hl1 x (List.mem_cons_of_mem a hx)
    rw [List.cons_append, List.takeWhile_cons, List.dropWhile_cons]
    rw [if_pos (bne_iff_ne.mpr ha), if_pos (bne_iff_ne.mpr ha), htake, hdrop]
    exact ⟨rfl, rfl⟩

theorem editDeletePropchange_spec (h : GoodBuffer b) (hid : ∃ pc ∈ b.pclist.tail, pc.id = id) :
    ∃ b', editDeletePropchange b id = some b' ∧ GoodBuffer b' := by
  obtain ⟨pc0, l1, pc, l2, hl, hpcid, -, -, hbefore, -⟩ := split_at_id h hid
  obtain ⟨htake, hdrop⟩ := takeWhile_id l2 hbefore hpcid
  rw [List.cons_append, ← hl] at htake hdrop
  refine ⟨notePropchange { b with pclist := (pc0 :: l1) ++ l2 }, ?_, goodBuffer_note ?_⟩
  · unfold editDeletePropchange
    rw [htake, hdrop]
  · have hgood : Good (marks b.pclist) b.buflen := h
    have hsplit : marks b.pclist = marks (pc0 :: l1) ++ pc.toMark :: marks l2 := by
      rw [hl, ← marks_cons, ← marks_append]
      rfl
    rw [hsplit] at hgood
    rw [marks_append]
    apply hgood.remove
    intro hnil
    cases hnil

/-! ## Moving a change -/

/-- The moved change does not have to stand in front of this one. -/
def stays (pc : Mark) (newpoint : Nat) (moving_forwards : Bool) (x : Mark) : Bool :=
  decide ¬(relationToPc newpoint pc.backsliding x = .EARLIER ∨
    relationToPc newpoint pc.backsliding x = .SAME ∧ moving_forwards = true)

theorem relationToPc_lt {backsliding : Bool} {x : Mark} (h : x.point < p) :
    relationToPc p backsliding x = .LATER := by
  unfold relationToPc
  rw [if_neg (by omega), if_pos h]

theorem relationToPc_gt {backsliding : Bool} {x : Mark} (h : p < x.point) :
    relationToPc p backsliding x = .EARLIER := if_pos h

theorem stays_of_lt {moving_forwards : Bool} {x : Mark} (h : x.point < p) :
    stays m p moving_forwards x = true := by
  unfold stays
  rw [relationToPc_lt h]
  simp

theorem not_stays_of_gt {moving_forwards : Bool} {x : Mark} (h : p < x.point) :
    stays m p moving_forwards x = false := by
  unfold stays
  rw [relationToPc_gt h]
  simp

theorem stays_le {moving_forwards : Bool} (x : Mark) (h : stays m p moving_forwards x = true) :
    x.point ≤ p := by
  apply Nat.not_lt.mp
  intro hlt
  rw [not_stays_of_gt hlt] at h
  cases h

theorem le_of_not_stays {moving_forwards : Bool} (x : Mark)
    (h : stays m p moving_forwards x = false) : p ≤ x.point := by
  apply Nat.not_lt.mp
  intro hlt
  rw [stays_of_lt hlt] at h
  cases h

/-- The initial change is never passed by. -/
theorem stays_initial {moving_forwards : Bool} {x : Mark} (hpoint : x.point = 0)
    (hback : x.backsliding = true) (hforwards : moving_forwards = true → 0 < p) :
    stays m p moving_forwards x = true := by
  by_cases hzero : 0 < p
  · exact stays_of_lt (hpoint ▸ hzero)
  · have hp : p = 0 := by omega
    have hnot : moving_forwards ≠ true := fun hc => hzero (hforwards hc)
    unfold stays relationToPc
    rw [hp, hpoint, hback]
    cases m.backsliding <;> simp [hnot]

/-- Behind which change the loop finds the new place. -/
def placeOf (r : Option Nat × Option Nat × Option Nat) : Option Nat :=
  if r.2.1 = none then r.2.2 else r.2.1

def ids (l : List Propchange) : List Nat := l.map (·.id)

/-- The change that is moved has been met. -/
theorem moveLoop_met {fwd : Bool} {q o : Nat} (hl : ∀ x ∈ l, x.id ≠ m.id) :
    (moveLoop m p fwd l (some q) (some o) none).1 = some o ∧
      placeOf (moveLoop m p fwd l (some q) (some o) none) =
        lastOf (some q) (ids (l.takeWhile fun x => stays m p fwd x.toMark)) := by
  induction l generalizing q with
  | nil => exact ⟨rfl, rfl⟩
  | cons a l ih =>
    have ha : a.id ≠ m.id := hl a List.mem_cons_self
    unfold moveLoop
    dsimp only
    rw [if_neg ha, if_neg fun hc => ha hc.1, List.takeWhile_cons]
    by_cases hstays : stays m p fwd a.toMark = true
    · have hrel := of_decide_eq_true hstays
      rw [if_neg fun hc => hrel hc.2, if_pos hstays]
      exact ih fun x hx => hl x (List.mem_cons_of_mem a hx)
    · have hrel := Decidable.not_not.mp fun hc => hstays (decide_eq_true hc)
      rw [if_pos ⟨rfl, hrel⟩, if_pos (Option.some_ne_none o), if_neg hstays]
      exact ⟨rfl, rfl⟩

/-- The new place has been found. -/
theorem moveLoop_placed {fwd : Bool} {q n : Nat} (hl1 : ∀ x ∈ l1, x.id ≠ m.id)
    (hpc : pc.id = m.id) :
    moveLoop m p fwd (l1 ++ pc :: l2) (some q) none (some n) =
      (lastOf (some q) (ids l1), some n, lastOf (some q) (ids l1)) := by
  induction l1 generalizing q with
  | nil =>
    unfold moveLoop
    dsimp only [List.nil_append]
    rw [if_pos hpc, if_pos ⟨hpc, Option.some_ne_none n⟩]
    rfl
  | cons a l1 ih =>
    have ha : a.id ≠ m.id := hl1 a List.mem_cons_self
    unfold moveLoop
    dsimp only [List.cons_append]
    rw [if_neg ha, if_neg fun hc => ha hc.1, if_neg fun hc => Option.some_ne_none n hc.1]
    exact ih fun x hx => hl1 x (List.mem_cons_of_mem a hx)

theorem moveLoop_spec (fwd : Bool) {q : Nat} (hl1 : ∀ x ∈ l1, x.id ≠ m.id)
    (hpc : pc.id = m.id) (hl2 : ∀ x ∈ l2, x.id ≠ m.id) :
    (moveLoop m p fwd (l1 ++ pc :: l2) (some q) none none).1 = lastOf (some q) (ids l1) ∧
      placeOf (moveLoop m p fwd (l1 ++ pc :: l2) (some q) none none) =
        lastOf (some q) (ids ((l1 ++ pc :: l2).takeWhile fun x => stays m p fwd x.toMark)) := by
  induction l1 generalizing q with
  | nil =>
    unfold moveLoop
    dsimp only [List.nil_append]
    rw [if_pos hpc, if_neg fun hc => hc.2 rfl, List.takeWhile_cons]
    by_cases hstays : stays m p fwd pc.toMark = true
    · have hrel := of_decide_eq_true hstays
      rw [if_neg fun hc => hrel hc.2, if_pos hstays]
      exact moveLoop_met hl2
    · have hrel := Decidable.not_not.mp fun hc => hstays (decide_eq_true hc)
      rw [if_pos ⟨rfl, hrel⟩, if_pos (Option.some_ne_none q), if_neg hstays]
      exact ⟨rfl, rfl⟩
  | cons a l1 ih =>
    have ha : a.id ≠ m.id := hl1 a List.mem_cons_self
    have hl1' : ∀ x ∈ l1, x.id ≠ m.id := fun x hx => hl1 x (List.mem_cons_of_mem a hx)
    unfold moveLoop
    dsimp only [List.cons_append]
    rw [if_neg ha, if_neg fun hc => ha hc.1, List.takeWhile_cons]
    by_cases hstays : stays m p fwd a.toMark = true
    · have hrel := of_decide_eq_true hstays
      rw [if_neg fun hc => hrel hc.2, if_pos hstays]
      exact ih hl1'
    · have hrel := Decidable.not_not.mp fun hc => hstays (decide_eq_true hc)
      rw [if_pos ⟨rfl, hrel⟩, if_neg (not_not.mpr rfl), if_neg hstays, moveLoop_placed hl1' hpc]
      exact ⟨rfl, rfl⟩

theorem ids_append (l1 l2 : List Propchange) : ids (l1 ++ l2) = ids l1 ++ ids l2 :=
  List.map_append

theorem ids_marks (l : List Propchange) : (marks l).map (·.id) = ids l := by
  unfold marks ids
  rw [List.map_map]
  rfl

theorem mem_ids {a : Nat} (h : a ∈ ids l) : ∃ x ∈ l, x.id = a := List.mem_map.mp h

theorem insertAfter_spec (x : Propchange) {z : Propchange} (h : z.id ∉ ids l1) :
    insertAfter z.id x (l1 ++ z :: l2) = l1 ++ z :: x :: l2 := by
  induction l1 with
  | nil => exact if_pos rfl
  | cons a l1 ih =>
    unfold ids at h
    rw [List.map_cons, List.mem_cons, not_or] at h
    rw [List.cons_append, insertAfter, if_neg (Ne.symm h.1), ih h.2]
    rfl

/-- A change goes behind the last of the changes of a list that is not empty. -/
theorem insertAfter_last (x : Propchange) {pc0 : Propchange} {q : Nat}
    (hnodup : (ids (pc0 :: l1)).Nodup) (hq : lastOf (some pc0.id) (ids l1) = some q) :
    insertAfter q x ((pc0 :: l1) ++ l2) = (pc0 :: l1) ++ x :: l2 := by
  rcases List.eq_nil_or_concat l1 with rfl | ⟨l, z, rfl⟩
  · cases hq
    exact if_pos rfl
  · rw [List.concat_eq_append] at hnodup hq ⊢
    rw [ids_append, lastOf_append] at hq
    cases hq
    have hassoc : (pc0 :: (l ++ [z])) ++ l2 = (pc0 :: l) ++ z :: l2 := by simp
    have hassoc' : (pc0 :: (l ++ [z])) ++ x :: l2 = (pc0 :: l) ++ z :: x :: l2 := by simp
    rw [hassoc, hassoc']
    apply insertAfter_spec
    intro hmem
    rw [← List.cons_append, ids_append] at hnodup
    exact (List.nodup_append.mp hnodup).2.2 _ hmem _ (List.mem_singleton.mpr rfl) rfl

theorem eraseP_id (hl1 : ∀ x ∈ l1, x.id ≠ id) (hpc : pc.id = id) :
    (l1 ++ pc :: l2).eraseP (·.id == id) = l1 ++ l2 := by
  have hfound : (pc.id == id) = true := beq_iff_eq.mpr hpc
  rw [List.eraseP_append_right]
  · rw [List.eraseP_cons_of_pos (p := fun x : Propchange => x.id == id) hfound]
  · intro x hx
    exact fun hc => hl1 x hx (beq_iff_eq.mp hc)

theorem find_id (hl1 : ∀ x ∈ l1, x.id ≠ id) (hpc : pc.id = id) :
    (l1 ++ pc :: l2).find? (·.id == id) = some pc := by
  have hfound : (pc.id == id) = true := beq_iff_eq.mpr hpc
  rw [List.find?_append, List.find?_eq_none.mpr fun x hx => by simpa using hl1 x hx,
    List.find?_cons_of_pos (p := fun x : Propchange => x.id == id) hfound]
  rfl

/-- The point of the one change with this address is set. -/
theorem map_setPoint (hl1 : ∀ x ∈ l1, x.id ≠ id) (hpc : pc.id = id) (hl2 : ∀ x ∈ l2, x.id ≠ id) :
    ((l1 ++ pc :: l2).map fun x => if x.id = id then { x with point := p } else x) =
      l1 ++ { pc with point := p } :: l2 := by
  have hsame : ∀ l : List Propchange, (∀ x ∈ l, x.id ≠ id) →
      (l.map fun x => if x.id = id then { x with point := p } else x) = l := by
    intro l hl
    conv_rhs => rw [← List.map_id l]
    exact List.map_congr_left fun x hx => if_neg (hl x hx)
  rw [List.map_append, List.map_cons, hsame l1 hl1, hsame l2 hl2, if_pos hpc]

/-- The places where the change may be linked in again: behind `k1`, which has no change beyond the
new point, in front of `k2`, which has none before it. -/
theorem good_moved {pc0 : Propchange} {k1 k2 : List Propchange} (h : GoodBuffer b)
    (hl : b.pclist = pc0 :: (l1 ++ pc :: l2)) (hk : k1 ++ k2 = l1 ++ l2)
    (hfirst : pc0.point ≤ p) (hbefore : ∀ x ∈ k1, x.point ≤ p) (hbehind : ∀ x ∈ k2, p ≤ x.point)
    (hp : p ≤ b.buflen) :
    Good (marks ((pc0 :: k1) ++ { pc with point := p } :: k2)) b.buflen := by
  have hgood : Good (marks b.pclist) b.buflen := h
  have hsplit : marks b.pclist = marks (pc0 :: l1) ++ pc.toMark :: marks l2 := by
    rw [hl, ← marks_cons, ← marks_append]
    rfl
  have hnodup := hgood.nodup
  rw [hsplit] at hgood hnodup
  rw [List.map_append, List.map_cons] at hnodup
  have hnotmem := (List.nodup_cons.mp (List.nodup_middle.mp hnodup)).1
  have hrest : Good (marks (pc0 :: l1) ++ marks l2) b.buflen := by
    apply hgood.remove
    intro hnil
    cases hnil
  have hsame : marks (pc0 :: l1) ++ marks l2 = marks (pc0 :: k1) ++ marks k2 := by
    rw [← marks_append, ← marks_append, List.cons_append, List.cons_append, hk]
  rw [← List.map_append, hsame] at hnotmem
  rw [hsame] at hrest
  rw [marks_append, marks_cons]
  apply hrest.insert
  · intro hnil
    cases hnil
  · exact hnotmem
  · intro x hx
    obtain ⟨y, hy, rfl⟩ := List.mem_map.mp hx
    rcases List.mem_cons.mp hy with rfl | hy
    · exact hfirst
    · exact hbefore y hy
  · intro x hx
    obtain ⟨y, hy, rfl⟩ := List.mem_map.mp hx
    exact hbehind y hy
  · exact hp

theorem takeWhile_stop {f : Propchange → Bool} (h : f pc = false) :
    (l1 ++ pc :: l2).takeWhile f = l1.takeWhile f := by
  induction l1 with
  | nil =>
    rw [List.nil_append, List.takeWhile_cons_of_neg (by rw [h]; exact Bool.false_ne_true)]
    rfl
  | cons a l1 ih => rw [List.cons_append, List.takeWhile_cons, List.takeWhile_cons, ih]

/-- The two pointers that `edit_move_propchange` has in the end: the change in front of the old
place and the one in front of the new place. -/
theorem moveLoop_ends {pc0 : Propchange} (h : GoodBuffer b)
    (hl : b.pclist = pc0 :: (l1 ++ pc :: l2)) (hzero : pc0.point = 0)
    (hback : pc0.backsliding = true) (hl1 : ∀ x ∈ pc0 :: l1, x.id ≠ pc.id)
    (hl2 : ∀ x ∈ l2, x.id ≠ pc.id) (hne : p ≠ pc.point) :
    ∃ k1 k2 o n last, moveLoop pc.toMark p (pc.point < p) b.pclist none none none = (o, n, last) ∧
      o = lastOf (some pc0.id) (ids l1) ∧
      (if (if n = none then last else n) = some pc.id then o else if n = none then last else n) =
        lastOf (some pc0.id) (ids k1) ∧
      k1 ++ k2 = l1 ++ l2 ∧ (k1 <+: l1 ∨ l1 <+: k1) ∧ (∀ x ∈ k1, x.point ≤ p) ∧
      ∀ x ∈ k2, p ≤ x.point := by
  have hsorted := (ordered_iff b).mpr (Good.sorted h)
  unfold Ordered at hsorted
  rw [hl] at hsorted
  obtain ⟨-, hsorted⟩ := List.pairwise_cons.mp hsorted
  obtain ⟨hsorted1, hsorted2, hcross⟩ := List.pairwise_append.mp hsorted
  obtain ⟨hbehind, hsorted2⟩ := List.pairwise_cons.mp hsorted2
  have hstart : moveLoop pc.toMark p (pc.point < p) b.pclist none none none =
      moveLoop pc.toMark p (pc.point < p) (l1 ++ pc :: l2) (some pc0.id) none none := by
    have hstays : stays pc.toMark p (pc.point < p) pc0.toMark = true :=
      stays_initial hzero hback fun hlt => Nat.zero_lt_of_lt (of_decide_eq_true hlt)
    have hpc0 : pc0.id ≠ pc.id := hl1 pc0 List.mem_cons_self
    rw [hl]
    conv_lhs => unfold moveLoop
    dsimp only
    rw [if_neg hpc0, if_neg fun hc => hpc0 hc.1, if_neg fun hc => (of_decide_eq_true hstays) hc.2]
  have hl1' : ∀ x ∈ l1, x.id ≠ pc.id := fun x hx => hl1 x (List.mem_cons_of_mem pc0 hx)
  obtain ⟨hold, hplace⟩ := moveLoop_spec (p := p) (m := pc.toMark) (q := pc0.id)
    (pc.point < p) hl1' rfl hl2
  rw [hstart]
  generalize hr : moveLoop pc.toMark p (pc.point < p) (l1 ++ pc :: l2) (some pc0.id) none none = r
  rw [hr] at hold hplace
  obtain ⟨o, n, last⟩ := r
  change placeOf (o, n, last) = _ at hplace
  change ∃ k1 k2 o' n' last', (o, n, last) = (o', n', last') ∧ _
  by_cases hforwards : pc.point < p
  · -- Everything up to the change itself is passed by.
    have hpast : ∀ x ∈ l1 ++ [pc], stays pc.toMark p (pc.point < p) x.toMark = true := by
      intro x hx
      apply stays_of_lt
      rcases List.mem_append.mp hx with hx | hx
      · exact Nat.lt_of_le_of_lt (hcross x hx pc List.mem_cons_self) hforwards
      · rw [List.mem_singleton.mp hx]
        exact hforwards
    obtain ⟨m, hm⟩ : ∃ m, m = l2.takeWhile fun x => stays pc.toMark p (pc.point < p) x.toMark :=
      ⟨_, rfl⟩
    have hsub : ∀ x ∈ m, x ∈ l2 := by
      intro x hx
      rw [hm] at hx
      exact (List.takeWhile_sublist _).subset hx
    obtain ⟨hbefore, hafter⟩ := split_bounds (f := stays pc.toMark p (pc.point < p)) hsorted2
      stays_le le_of_not_stays
    rw [List.append_cons, List.takeWhile_append_of_pos hpast, ← hm, ids_append, ids_append,
      lastOf_append, lastOf_append] at hplace
    change placeOf (o, n, last) = lastOf (some pc.id) (ids m) at hplace
    refine ⟨l1 ++ m, l2.dropWhile fun x => stays pc.toMark p (pc.point < p) x.toMark, o, n, last, rfl, hold, ?_, ?_,
      Or.inr (List.prefix_append l1 m), ?_, hafter⟩
    · change (if placeOf (o, n, last) = some pc.id then o else placeOf (o, n, last)) = _
      rw [hplace, ids_append, lastOf_append]
      by_cases hnil : m = []
      · rw [hnil]
        exact (if_pos rfl).trans hold
      · have hnil' : ids m ≠ [] := fun hc => hnil (List.map_eq_nil_iff.mp hc)
        rw [if_neg]
        · exact lastOf_congr _ _ hnil'
        · intro hc
          have hmem := lastOf_mem none (ids m)
          rw [lastOf_congr none (some pc.id) hnil', hc] at hmem
          obtain ⟨x, hx, hxid⟩ := mem_ids (by simpa using hmem)
          exact hl2 x (hsub x hx) hxid
    · rw [List.append_assoc, hm, List.takeWhile_append_dropWhile]
    · intro x hx
      rcases List.mem_append.mp hx with hx | hx
      · exact Nat.le_of_lt (Nat.lt_of_le_of_lt (hcross x hx pc List.mem_cons_self) hforwards)
      · rw [hm] at hx
        exact hbefore x hx
  · -- The loop stops in front of the change at the latest.
    have hback : p < pc.point := by omega
    obtain ⟨hbefore, hafter⟩ := split_bounds (f := stays pc.toMark p (pc.point < p)) hsorted1
      stays_le le_of_not_stays
    rw [takeWhile_stop (not_stays_of_gt hback)] at hplace
    refine ⟨l1.takeWhile fun x => stays pc.toMark p (pc.point < p) x.toMark,
      (l1.dropWhile fun x => stays pc.toMark p (pc.point < p) x.toMark) ++ l2, o, n, last, rfl, hold, ?_, ?_,
      Or.inl (List.takeWhile_prefix _), hbefore, ?_⟩
    · change (if placeOf (o, n, last) = some pc.id then o else placeOf (o, n, last)) = _
      rw [if_neg, hplace]
      obtain ⟨a, ha, hlast⟩ := lastOf_some pc0.id
        (ids (l1.takeWhile fun x => stays pc.toMark p (pc.point < p) x.toMark))
      rw [hplace, hlast]
      intro hc
      cases hc
      rcases List.mem_cons.mp ha with ha | ha
      · exact hl1 pc0 List.mem_cons_self ha.symm
      · obtain ⟨x, hx, hxid⟩ := mem_ids ha
        exact hl1' x ((List.takeWhile_sublist _).subset hx) hxid
    · rw [← List.append_assoc, List.takeWhile_append_dropWhile]
    · intro x hx
      rcases List.mem_append.mp hx with hx | hx
      · exact hafter x hx
      · exact Nat.le_of_lt (Nat.lt_of_lt_of_le hback (hbehind x hx))

theorem Good.nodup_ids (h : Good (marks l) n) : (ids l).Nodup := by
  rw [← ids_marks]
  exact h.nodup

/-- Two pointers to the last changes of two lists, of which one is a part of the other, are equal
only when the lists are. -/
theorem eq_of_lastOf_eq {pc0 : Propchange} {k1 : List Propchange} (h1 : (ids (pc0 :: l1)).Nodup)
    (h2 : (ids (pc0 :: k1)).Nodup) (hsub : k1 <+: l1 ∨ l1 <+: k1)
    (hlast : lastOf (some pc0.id) (ids l1) = lastOf (some pc0.id) (ids k1)) : k1 = l1 := by
  have hpart : ∀ a c : List Propchange, (ids (pc0 :: c)).Nodup → a <+: c →
      lastOf (some pc0.id) (ids c) = lastOf (some pc0.id) (ids a) → a = c := by
    rintro a c hc ⟨t, rfl⟩ heq
    by_cases ht : t = []
    · rw [ht, List.append_nil]
    · rw [ids_append] at heq
      refine absurd heq.symm (lastOf_ne ?_ fun hnil => ht (List.map_eq_nil_iff.mp hnil))
      rw [← ids_append]
      exact hc
  rcases hsub with hsub | hsub
  · exact hpart k1 l1 h1 hsub hlast
  · exact (hpart l1 k1 h2 hsub hlast.symm).symm

theorem editMovePropchange_spec (h : GoodBuffer b) (hid : ∃ pc ∈ b.pclist.tail, pc.id = id)
    (hp : p ≤ b.buflen) : ∃ b', editMovePropchange b id p = some b' ∧ GoodBuffer b' := by
  obtain ⟨pc0, l1, pc, l2, hl, rfl, hzero, hback, hl1, hl2⟩ := split_at_id h hid
  have hlist : b.pclist = (pc0 :: l1) ++ pc :: l2 := hl
  unfold editMovePropchange
  rw [hlist, find_id hl1 rfl, ← hlist]
  dsimp only
  by_cases hne : p = pc.point
  · rw [if_pos hne]
    exact ⟨b, rfl, h⟩
  · rw [if_neg hne]
    obtain ⟨k1, k2, o, n, last, hloop, hold, hnew, hk, hsub, hbefore, hbehind⟩ :=
      moveLoop_ends h hl hzero hback hl1 hl2 hne
    have hmoved := good_moved h hl hk (hzero ▸ Nat.zero_le p) hbefore hbehind hp
    rw [hloop]
    dsimp only
    rw [hnew]
    obtain ⟨oldprev, -, hlast1⟩ := lastOf_some pc0.id (ids l1)
    obtain ⟨newprev, -, hlast2⟩ := lastOf_some pc0.id (ids k1)
    rw [hold, hlast1, hlast2]
    dsimp only
    refine ⟨_, rfl, goodBuffer_note ?_⟩
    have hnodup1 : (ids (pc0 :: l1)).Nodup := by
      have hall : (ids b.pclist).Nodup := Good.nodup_ids h
      rw [hlist, ids_append] at hall
      exact (List.nodup_append.mp hall).1
    have hnodup2 : (ids (pc0 :: k1)).Nodup := by
      have hall := hmoved.nodup_ids
      rw [ids_append] at hall
      exact (List.nodup_append.mp hall).1
    by_cases hsame : oldprev = newprev
    · obtain rfl : k1 = l1 := by
        apply eq_of_lastOf_eq hnodup1 hnodup2 hsub
        rw [hlast1, hlast2, hsame]
      obtain rfl : k2 = l2 := List.append_cancel_left hk
      rw [if_neg (not_not.mpr hsame), hlist, map_setPoint hl1 rfl hl2]
      exact hmoved
    · rw [if_pos hsame, hlist, eraseP_id hl1 rfl, List.cons_append, ← hk, ← List.cons_append,
        insertAfter_last _ hnodup2 hlast2]
      exact hmoved

/-! ## Inserting and deleting text -/

theorem updatePoint_id (pos : Nat) (delta : Int) : (updatePoint pos delta pc).id = pc.id := by
  unfold updatePoint
  split_ifs <;> rfl

/-- Where an insertion puts a point. -/
theorem updatePoint_insert {pos len : Nat} (hlen : 0 < len) :
    (updatePoint pos len pc).point =
      if pc.point < pos ∨ pc.backsliding = true ∧ pos = pc.point then pc.point
      else pc.point + len := by
  have hpositive : (0 : Int) < len := Int.natCast_pos.mpr hlen
  have hnot : ¬((len : Int) < 0 ∧ (pc.point : Int) < pos + -len) := by omega
  unfold updatePoint
  by_cases hstay : pc.backsliding = true ∧ pos = pc.point ∧ 0 < (len : Int)
  · rw [if_pos hstay, if_pos (Or.inr ⟨hstay.1, hstay.2.1⟩)]
  · rw [if_neg hstay]
    by_cases hpos : pos ≤ pc.point
    · rw [if_pos hpos, if_neg hnot, if_neg]
      · dsimp only
        omega
      · rintro (hlt | ⟨hback, heq⟩)
        · omega
        · exact hstay ⟨hback, heq, hpositive⟩
    · rw [if_neg hpos, if_pos (Or.inl (Nat.not_le.mp hpos))]

/-- Where a deletion puts a point. -/
theorem updatePoint_delete (pos len : Nat) :
    (updatePoint pos (-len) pc).point =
      if pc.point < pos then pc.point
      else if pc.point < pos + len then pos else pc.point - len := by
  have hnot : ¬(pc.backsliding = true ∧ pos = pc.point ∧ 0 < -(len : Int)) := by
    rintro ⟨-, -, hlt⟩
    omega
  unfold updatePoint
  rw [if_neg hnot]
  by_cases hpos : pos ≤ pc.point
  · rw [if_pos hpos, if_neg (Nat.not_lt.mpr hpos)]
    by_cases hin : pc.point < pos + len
    · rw [if_pos hin, if_pos ⟨by omega, by omega⟩]
    · rw [if_neg hin, if_neg fun hc => by omega]
      dsimp only
      omega
  · rw [if_neg hpos, if_pos (Nat.not_le.mp hpos)]

/-- At the position no backsliding change stands behind one that is not, the initial change
apart. -/
def BackslidingFirst (b : EditBuffer) (pos : Nat) : Prop :=
  b.pclist.tail.Pairwise fun x y =>
    x.point = pos → y.point = pos → y.backsliding = true → x.backsliding = true

theorem insert_keeps_iff {pos len : Nat} (hlen : 0 < len) {x y : Propchange}
    (hxy : x.point ≤ y.point) :
    (updatePoint pos len x).point ≤ (updatePoint pos len y).point ↔
      (x.point = pos → y.point = pos → y.backsliding = true → x.backsliding = true) := by
  rw [updatePoint_insert hlen, updatePoint_insert hlen]
  by_cases hx : x.point < pos ∨ x.backsliding = true ∧ pos = x.point
  · rw [if_pos hx]
    constructor
    · intro _ hxpos _ _
      rcases hx with hlt | ⟨hback, -⟩
      · omega
      · exact hback
    · intro _
      split_ifs <;> omega
  · rw [if_neg hx]
    rw [not_or, Nat.not_lt] at hx
    by_cases hy : y.point < pos ∨ y.backsliding = true ∧ pos = y.point
    · rw [if_pos hy]
      constructor
      · intro hle
        omega
      · intro hcond
        rcases hy with hlt | ⟨hback, hypos⟩
        · omega
        · have hxpos : x.point = pos := by omega
          exact absurd ⟨hcond hxpos hypos.symm hback, hxpos.symm⟩ hx.2
    · rw [if_neg hy]
      constructor
      · intro _ _ hypos hback
        exact absurd (Or.inr ⟨hback, hypos.symm⟩) hy
      · intro _
        omega

theorem good_update {delta : Int} {pos n' : Nat} {pc0 : Propchange} (h : GoodBuffer b)
    (hl : b.pclist = pc0 :: l)
    (hsorted : (l.map (updatePoint pos delta)).Pairwise fun x y => x.point ≤ y.point)
    (hwithin : ∀ x ∈ l, (updatePoint pos delta x).point ≤ n') :
    Good (marks (updateProplistPoints pos delta b.pclist)) n' := by
  have hids : ids (l.map (updatePoint pos delta)) = ids l := by
    unfold ids
    rw [List.map_map]
    exact List.map_congr_left fun x _ => updatePoint_id pos delta
  obtain ⟨pc1, l', hl', hzero, hback⟩ := h.initial
  have hnodup : (ids b.pclist).Nodup := Good.nodup_ids h
  rw [hl] at hl' hnodup ⊢
  cases hl'
  refine ⟨?_, ⟨pc0.toMark, _, rfl, hzero, hback⟩, ?_, ?_⟩
  · rw [ids_marks]
    change (pc0.id :: ids (l.map (updatePoint pos delta))).Nodup
    rw [hids]
    exact hnodup
  · change (pc0.toMark :: marks (l.map (updatePoint pos delta))).Pairwise _
    refine List.pairwise_cons.mpr ⟨?_, ?_⟩
    · intro x _
      rw [hzero]
      exact Nat.zero_le _
    · unfold marks
      rw [List.pairwise_map]
      exact hsorted
  · intro x hx
    rcases List.mem_cons.mp hx with rfl | hx
    · rw [hzero]
      exact Nat.zero_le _
    · obtain ⟨y, hy, rfl⟩ := List.mem_map.mp hx
      obtain ⟨z, hz, rfl⟩ := List.mem_map.mp hy
      exact hwithin z hz

theorem updatePoint_zero (pos : Nat) : (updatePoint pos 0 pc).point = pc.point := by
  unfold updatePoint
  split_ifs
  · rfl
  · omega
  · dsimp only
    omega
  · rfl

/-- The list without the initial change is in order too. -/
theorem GoodBuffer.tail (h : GoodBuffer b) : ∃ pc0 l, b.pclist = pc0 :: l ∧
    l.Pairwise (fun x y => x.point ≤ y.point) ∧ ∀ x ∈ l, x.point ≤ b.buflen := by
  obtain ⟨pc0, l, hl, -, -⟩ := h.initial
  have hsorted := (ordered_iff b).mpr (Good.sorted h)
  have hwithin := (within_iff b).mpr (Good.within h)
  unfold Ordered at hsorted
  unfold Within at hwithin
  rw [hl] at hsorted hwithin
  exact ⟨pc0, l, hl, (List.pairwise_cons.mp hsorted).2,
    fun x hx => hwithin x (List.mem_cons_of_mem pc0 hx)⟩

theorem editInsert_spec (h : GoodBuffer b) {pos len : Nat}
    (hfirst : 0 < len → BackslidingFirst b pos) : GoodBuffer (editInsert b pos len) := by
  obtain ⟨pc0, l, hl, hsorted, hwithin⟩ := h.tail
  apply good_update h hl
  · rw [List.pairwise_map]
    by_cases hlen : 0 < len
    · have hfirst := hfirst hlen
      unfold BackslidingFirst at hfirst
      rw [hl] at hfirst
      exact (hsorted.and hfirst).imp fun hxy => (insert_keeps_iff hlen hxy.1).mpr hxy.2
    · obtain rfl : len = 0 := by omega
      apply hsorted.imp
      intro x y hxy
      rw [show ((0 : Nat) : Int) = 0 from rfl, updatePoint_zero, updatePoint_zero]
      exact hxy
  · intro x hx
    have hx := hwithin x hx
    change _ ≤ b.buflen + len
    by_cases hlen : 0 < len
    · rw [updatePoint_insert hlen]
      split_ifs <;> omega
    · obtain rfl : len = 0 := by omega
      rw [show ((0 : Nat) : Int) = 0 from rfl, updatePoint_zero]
      exact hx

/-- An insertion in the wrong place leaves the list out of order. -/
theorem backslidingFirst_of_ordered (h : GoodBuffer b) {pos len : Nat} (hlen : 0 < len)
    (hordered : Ordered (editInsert b pos len)) : BackslidingFirst b pos := by
  obtain ⟨pc0, l, hl, hsorted, -⟩ := h.tail
  unfold Ordered editInsert at hordered
  unfold BackslidingFirst
  rw [hl] at hordered ⊢
  have hmap := (List.pairwise_cons.mp hordered).2
  rw [List.pairwise_map] at hmap
  exact (hsorted.and hmap).imp fun hxy => (insert_keeps_iff hlen hxy.1).mp hxy.2

theorem editDelete_spec (h : GoodBuffer b) {pos len : Nat} (hrange : pos + len ≤ b.buflen) :
    GoodBuffer (editDelete b pos len) := by
  obtain ⟨pc0, l, hl, hsorted, hwithin⟩ := h.tail
  apply good_update h hl
  · rw [List.pairwise_map]
    apply hsorted.imp
    intro x y hxy
    rw [updatePoint_delete, updatePoint_delete]
    split_ifs <;> omega
  · intro x hx
    have hx := hwithin x hx
    change _ ≤ b.buflen - len
    rw [updatePoint_delete]
    split_ifs <;> omega

/-! ## Looking a point up -/

/-- The change that is in force at a point: the greatest one not beyond it. -/
def InForce (b : EditBuffer) (point : Nat) (r : Propchange) : Prop :=
  r ∈ b.pclist ∧ r.point ≤ point ∧ ∀ x ∈ b.pclist, x.point ≤ point → x.point ≤ r.point

/-- From the initial change, or from any change that is not beyond the point, every look-up finds the
change in force. -/
def LooksUp (b : EditBuffer) : Prop :=
  ∀ start point, (∀ id ∈ start, ∃ pc ∈ b.pclist, pc.id = id ∧ pc.point ≤ point) →
    ∃ r next, editGetNextPropchange b start point = some (r, next) ∧ InForce b point r

theorem nextLoop_spec {point : Nat} (hsorted : (pc :: l).Pairwise fun x y => x.point ≤ y.point)
    (hpc : pc.point ≤ point) :
    (nextLoop point pc l).1 ∈ pc :: l ∧ (nextLoop point pc l).1.point ≤ point ∧
      ∀ x ∈ pc :: l, x.point ≤ point → x.point ≤ (nextLoop point pc l).1.point := by
  induction l generalizing pc with
  | nil =>
    refine ⟨List.mem_cons_self, hpc, ?_⟩
    intro x hx _
    rw [List.mem_singleton.mp hx]
    exact Nat.le_refl _
  | cons a l ih =>
    obtain ⟨hle, hsorted⟩ := List.pairwise_cons.mp hsorted
    unfold nextLoop
    by_cases hlt : point < a.point
    · rw [if_pos hlt]
      refine ⟨List.mem_cons_self, hpc, ?_⟩
      intro x hx hxpoint
      rcases List.mem_cons.mp hx with rfl | hx
      · exact Nat.le_refl _
      · have hax : a.point ≤ x.point := by
          rcases List.mem_cons.mp hx with rfl | hx
          · exact Nat.le_refl _
          · exact (List.pairwise_cons.mp hsorted).1 x hx
        omega
    · rw [if_neg hlt]
      obtain ⟨hmem, hpoint, hmax⟩ := ih hsorted (Nat.not_lt.mp hlt)
      refine ⟨List.mem_cons_of_mem pc hmem, hpoint, ?_⟩
      intro x hx hxpoint
      rcases List.mem_cons.mp hx with rfl | hx
      · exact Nat.le_trans (hle a List.mem_cons_self)
          (hmax a List.mem_cons_self (Nat.not_lt.mp hlt))
      · exact hmax x hx hxpoint

theorem looksUp_of_good (h : GoodBuffer b) : LooksUp b := by
  intro start point hstart
  have hsorted := (ordered_iff b).mpr (Good.sorted h)
  unfold Ordered at hsorted
  obtain ⟨pc0, l, hl, hzero, -⟩ := h.initial
  -- The search starts at a change behind others that are not beyond it.
  obtain ⟨l1, pc, l2, hsplit, hpc, hfrom⟩ : ∃ l1 pc l2, b.pclist = l1 ++ pc :: l2 ∧
      pc.point ≤ point ∧ (match start with
        | none => b.pclist
        | some id => b.pclist.dropWhile (·.id != id)) = pc :: l2 := by
    cases start with
    | none => exact ⟨[], pc0, l, hl, hzero ▸ Nat.zero_le point, hl⟩
    | some id =>
      obtain ⟨pc, hmem, hpcid, hpc⟩ := hstart id rfl
      obtain ⟨l1, l2, hsplit⟩ := List.append_of_mem hmem
      have hnodup : (ids b.pclist).Nodup := Good.nodup_ids h
      rw [hsplit, ids_append] at hnodup
      have hbefore : ∀ x ∈ l1, x.id ≠ id := by
        intro x hx hxid
        exact (List.nodup_append.mp hnodup).2.2 x.id (List.mem_map_of_mem hx) pc.id
          List.mem_cons_self (hxid.trans hpcid.symm)
      refine ⟨l1, pc, l2, hsplit, hpc, ?_⟩
      dsimp only
      rw [hsplit]
      exact (takeWhile_id l2 hbefore hpcid).2
  obtain ⟨-, hsorted2, hcross⟩ := List.pairwise_append.mp (hsplit ▸ hsorted)
  obtain ⟨hmem, hpoint, hmax⟩ := nextLoop_spec hsorted2 hpc
  refine ⟨(nextLoop point pc l2).1, (nextLoop point pc l2).2, ?_, ?_, hpoint, ?_⟩
  · unfold editGetNextPropchange
    rw [hfrom]
  · rw [hsplit]
    exact List.mem_append_right l1 hmem
  · intro x hx hxpoint
    rw [hsplit] at hx
    rcases List.mem_append.mp hx with hx | hx
    · exact Nat.le_trans (hcross x hx pc List.mem_cons_self) (hmax pc List.mem_cons_self hpc)
    · exact hmax x hx hxpoint

/-! ## Runs -/

/-- The points that are given lie within the text, a new change has a new address, and a change
that is moved or deleted is in the list and not the initial one. -/
def Allowed (b : EditBuffer) : Op → Prop
  | .add id point _ _ _ _ _ => point ≤ b.buflen ∧ ∀ pc ∈ b.pclist, pc.id ≠ id
  | .move id newpoint => newpoint ≤ b.buflen ∧ ∃ pc ∈ b.pclist.tail, pc.id = id
  | .delete_propchange id => ∃ pc ∈ b.pclist.tail, pc.id = id
  | .set_updates _ => True
  | .insert _ _ => True
  | .delete pos len => pos + len ≤ b.buflen

/-- Text is only inserted where no backsliding change stands behind one that is not. -/
def Safe (b : EditBuffer) : Op → Prop
  | .insert pos len => 0 < len → BackslidingFirst b pos
  | _ => True

/-- The changes are in order, lie within the text, and are found. -/
def Sound (b : EditBuffer) : Prop := Ordered b ∧ Within b ∧ LooksUp b

theorem sound_of_good (h : GoodBuffer b) : Sound b :=
  ⟨(ordered_iff b).mpr (Good.sorted h), (within_iff b).mpr (Good.within h), looksUp_of_good h⟩

theorem exec_spec (h : GoodBuffer b) (op : Op) (hallowed : Allowed b op) (hsafe : Safe b op) :
    ∃ b', exec b op = some b' ∧ GoodBuffer b' := by
  cases op with
  | add id point user_data fi flagmask flags backsliding =>
    apply editAddPropchange_spec h user_data fi flagmask flags backsliding _ hallowed.1
    rw [ids_marks]
    intro hmem
    obtain ⟨x, hx, hxid⟩ := mem_ids hmem
    exact hallowed.2 x hx hxid
  | move id newpoint => exact editMovePropchange_spec h hallowed.2 hallowed.1
  | delete_propchange id => exact editDeletePropchange_spec h hallowed
  | set_updates on =>
    refine ⟨_, rfl, ?_⟩
    unfold editSetPropchangeUpdates GoodBuffer
    dsimp only
    split_ifs
    · rw [marks_handle]
      exact h
    · exact h
  | insert pos len => exact ⟨_, rfl, editInsert_spec h hsafe⟩
  | delete pos len => exact ⟨_, rfl, editDelete_spec h hallowed⟩

/-- From a good buffer a call keeps the changes in order exactly when it is safe. -/
theorem sound_iff (h : GoodBuffer b) (op : Op) (hallowed : Allowed b op) :
    (∃ b', exec b op = some b' ∧ Sound b') ↔ Safe b op := by
  constructor
  · rintro ⟨b', hexec, hsound⟩
    cases op with
    | insert pos len =>
      cases hexec
      exact fun hlen => backslidingFirst_of_ordered h hlen hsound.1
    | _ => trivial
  · intro hsafe
    obtain ⟨b', hexec, hgood⟩ := exec_spec h op hallowed hsafe
    exact ⟨b', hexec, sound_of_good hgood⟩

/-- The buffers after any run of allowed calls, all of them safe. -/
inductive Reaches : EditBuffer → Prop where
  | create (id fi : Nat) (flags : BitVec 32) (buflen : Nat) :
    Reaches (editCreateBuffer id fi flags buflen)
  | call {b b' : EditBuffer} (op : Op) (run : Reaches b) (allowed : Allowed b op)
    (safe : Safe b op) (step : exec b op = some b') : Reaches b'

theorem good_of_reaches (h : Reaches b) : GoodBuffer b := by
  induction h with
  | create id fi flags buflen =>
    refine ⟨List.nodup_singleton id, ⟨_, [], rfl, rfl, rfl⟩, List.pairwise_singleton _ _, ?_⟩
    intro m hm
    rw [List.mem_singleton.mp hm]
    exact Nat.zero_le buflen
  | call op run allowed safe step ih =>
    obtain ⟨b', hexec, hgood⟩ := exec_spec ih op allowed safe
    rw [step] at hexec
    cases hexec
    exact hgood

/-! ## The law -/

/-- In every run in which text is only inserted in safe places, the changes are in order, within
the text and found; and a further call keeps them so exactly when it is safe. -/
theorem property_changes_stay_in_order_while_insertions_are_safe {b : EditBuffer}
    (h : Reaches b) :
    Sound b ∧ ∀ op, Allowed b op → ((∃ b', exec b op = some b' ∧ Sound b') ↔ Safe b op) :=
  ⟨sound_of_good (good_of_reaches h), fun op hallowed => sound_iff (good_of_reaches h) op hallowed⟩

theorem a_new_buffer_has_the_initial_change :
    Sound (editCreateBuffer 1 1 0 10) ∧ ∀ op, Allowed (editCreateBuffer 1 1 0 10) op →
      ((∃ b', exec (editCreateBuffer 1 1 0 10) op = some b' ∧ Sound b') ↔
        Safe (editCreateBuffer 1 1 0 10) op) :=
  property_changes_stay_in_order_while_insertions_are_safe (Reaches.create 1 1 0 10)

/-- A change that does not backslide at 3 and a backsliding one at 5, of a text of ten bytes. -/
def twoChanges : EditBuffer where
  pclist := [⟨⟨1, 0, true⟩, 0, true, 1, ~~~0, 0⟩, ⟨⟨2, 3, false⟩, 0, false, 1, 0, 0⟩,
    ⟨⟨3, 5, true⟩, 0, false, 1, 0, 0⟩]
  updating := true
  num_pending_changes := 0
  buflen := 10

theorem twoChanges_reached : Reaches twoChanges := by
  have hnew : Reaches (editCreateBuffer 1 1 0 10) := Reaches.create 1 1 0 10
  have hone : ∃ b', exec (editCreateBuffer 1 1 0 10) (.add 2 3 0 0 0 0 false) = some b' ∧
      Reaches b' ∧ exec b' (.add 3 5 0 0 0 0 true) = some twoChanges ∧
      Allowed b' (.add 3 5 0 0 0 0 true) := by
    refine ⟨_, rfl, Reaches.call (.add 2 3 0 0 0 0 false) hnew ?_ trivial rfl, by decide, ?_⟩
    · exact ⟨by decide, by decide⟩
    · exact ⟨by decide, by decide⟩
  obtain ⟨b', -, hreaches, hstep, hallowed⟩ := hone
  exact Reaches.call _ hreaches hallowed trivial hstep

/-- The two bytes between the changes are deleted, and a byte is inserted there. -/
theorem an_insertion_between_collapsed_changes_breaks_the_order :
    ¬ ∀ b op, Reaches b → Allowed b op → ∃ b', exec b op = some b' ∧ Sound b' := by
  intro h
  have hreaches : Reaches (editDelete twoChanges 3 2) :=
    Reaches.call (.delete 3 2) twoChanges_reached (by decide : 3 + 2 ≤ 10) trivial rfl
  obtain ⟨b', hexec, hordered, -⟩ := h _ (.insert 3 1) hreaches trivial
  cases hexec
  exact absurd hordered (by unfold Ordered; decide)

end ups_rules.prop_changes
