-- The source files on display (srcbuf.c): the table of the lines of a file, and the edit blocks
-- that are put in front of its lines, each between two property changes.
import Mathlib.Algebra.Ring.Int.Defs
import Mathlib.Algebra.Ring.Nat
import Mathlib.Data.List.TakeWhile
import Ups.FileLines
import Ups.LbufEdits
import Ups.PropChanges

open file_lines
open ups_rules.lbuf (Byte edit)
open ups_rules.prop_changes (EditBuffer Propchange Mark marks editCreateBuffer editAddPropchange
  editDeletePropchange editSetPropchangeUpdates editInsert editDelete)

namespace ups_rules.srcbuf

/-! ## The pure model -/

def newline : Byte := 10#8

/-- `startpc` and `limpc` are the addresses of property changes, `id` is that of the block. -/
structure Editblock where
  id : Nat
  startpc : Nat
  limpc : Nat
  text : List Byte

/-- `text` are the bytes of the buffer. -/
structure Srcbuf where
  buffer : EditBuffer
  text : List Byte
  linetab : List Nat
  num_file_lines : Nat
  eblist : List Editblock

/-- Whether a character of the pattern is found, and where the search ends. -/
def editFindCharForwards (text : List Byte) (pos lim : Nat) (pat : List Byte) : Bool × Nat :=
  let rest := (text.take lim).drop pos
  let run := rest.takeWhile fun c => !pat.contains c
  (decide (run.length < rest.length), pos + run.length)

/-- The loop of `make_linetab`, with the extra entry for the end of the file. -/
def linetabLoop (text : List Byte) : Nat → Nat → List Nat
  | 0, pos => [pos]
  | fuel + 1, pos =>
    if pos < text.length then
      match editFindCharForwards text pos text.length [newline] with
      | (true, nextpos) => pos :: linetabLoop text fuel (nextpos + 1)
      | (false, nextpos) => pos :: linetabLoop text fuel nextpos
    else [pos]

def makeLinetab (text : List Byte) : List Nat := linetabLoop text text.length 0

/-- The initial property change of the new buffer is at the address `pc`. -/
def srcbufVisitFile (file : List Byte) (pc fi : Nat) (flags : BitVec 32) : Srcbuf where
  buffer := editCreateBuffer pc fi flags file.length
  text := file
  linetab := makeLinetab file
  num_file_lines := (makeLinetab file).length - 1
  eblist := []

/-- `none` is a read of a freed change. -/
def editGetPropchangePoint (b : EditBuffer) (pc : Nat) : Option Nat :=
  (b.pclist.find? (·.id == pc)).map (·.point)

def editMovePropchangePoint (b : EditBuffer) (id : Nat) (delta : Int) : EditBuffer :=
  { b with pclist := b.pclist.map fun pc =>
      if pc.id = id then { pc with point := (pc.point + delta).toNat } else pc }

/-- The loop of `srcbuf_file_lnum_to_point_range`. -/
def rangeLoop (b : EditBuffer) (start : Nat) : List Editblock → Option Nat
  | [] => some start
  | eb :: ebs => do
    let ebstart ← editGetPropchangePoint b eb.startpc
    if start < ebstart then some start
    else
      let lim ← editGetPropchangePoint b eb.limpc
      rangeLoop b (start + (lim - ebstart + 1)) ebs

/-- `none` is a fault; the inner `none` is FALSE. -/
def srcbufFileLnumToPointRange (sb : Srcbuf) (lnum : Int) : Option (Option (Nat × Nat)) :=
  if lnum < 0 ∨ (sb.num_file_lines : Int) ≤ lnum then some none
  else do
    let orig_start ← sb.linetab[lnum.toNat]?
    let start ← rangeLoop sb.buffer orig_start sb.eblist
    let next ← sb.linetab[lnum.toNat + 1]?
    some (some (start, next + (start - orig_start)))

/-- The first loop of `srcbuf_point_to_file_lnum`. -/
def deltaLoop (b : EditBuffer) (point delta : Nat) : List Editblock → Option Nat
  | [] => some delta
  | eb :: ebs => do
    let lim ← editGetPropchangePoint b eb.limpc
    if point < lim then some delta
    else
      let ebstart ← editGetPropchangePoint b eb.startpc
      deltaLoop b point (delta + (lim - ebstart + 1)) ebs

/-- The second loop of `srcbuf_point_to_file_lnum`, from the entry behind that of the line on. -/
def lineLoop (point lnum : Nat) : List Nat → Option Nat
  | [] => none
  | entry :: entries => if point < entry then some lnum else lineLoop point (lnum + 1) entries

/-- The loop goes from the entry 1 to the one before the entry `num_file_lines`. -/
def srcbufPointToFileLnum (sb : Srcbuf) (point : Nat) : Option (Option Nat) := do
  let delta ← deltaLoop sb.buffer point 0 sb.eblist
  some (lineLoop (point - delta) 0 ((sb.linetab.take sb.num_file_lines).drop 1))

/-- The block is linked in behind what `get_editblock_before_point` finds. -/
def linkEditblock (b : EditBuffer) (point : Nat) (eb : Editblock) :
    List Editblock → Option (List Editblock)
  | [] => some [eb]
  | eb2 :: ebs => do
    let ebstart ← editGetPropchangePoint b eb2.startpc
    if point ≤ ebstart then some (eb :: eb2 :: ebs)
    else
      let ebs ← linkEditblock b point eb ebs
      some (eb2 :: ebs)

/-- The addresses of the block and of its two changes come with it. The outer `none` is a fault. -/
def srcbufAddEditblock (sb : Srcbuf) (fil_lnum : Int) (flagmask flags : BitVec 32)
    (start_fontinfo end_fontinfo : Nat) (eb : Editblock) : Option Srcbuf := do
  match ← srcbufFileLnumToPointRange sb fil_lnum with
  | none => some sb
  | some (start, _) =>
    let b := editSetPropchangeUpdates sb.buffer false
    let b ← editAddPropchange b eb.startpc start eb.id start_fontinfo flagmask flags true
    let b ← editAddPropchange b eb.limpc start 0 end_fontinfo flagmask 0 false
    let b := editSetPropchangeUpdates b sb.buffer.updating
    let b := editInsert b start eb.text.length
    -- Back up over the newline at the end of the text
    let b := editMovePropchangePoint b eb.limpc (-1)
    let eblist ← linkEditblock b start eb sb.eblist
    some { sb with buffer := b, text := edit sb.text (.insert start eb.text), eblist := eblist }

/-- `none` is a fault, or the panic for a block that is not in the list. -/
def srcbufRemoveEditblock (sb : Srcbuf) (eb : Editblock) : Option Srcbuf := do
  let start ← editGetPropchangePoint sb.buffer eb.startpc
  let lim ← editGetPropchangePoint sb.buffer eb.limpc
  let b := editSetPropchangeUpdates sb.buffer false
  let b ← editDeletePropchange b eb.startpc
  let b ← editDeletePropchange b eb.limpc
  let b := editSetPropchangeUpdates b sb.buffer.updating
  let b := editDelete b start (lim - start + 1)
  if sb.eblist.any (·.id == eb.id) then
    some { sb with
      buffer := b
      text := edit sb.text (.delete start (lim - start + 1))
      eblist := sb.eblist.eraseP (·.id == eb.id) }
  else none

/-! ## Runs -/

inductive Op where
  | add (fil_lnum : Int) (flagmask flags : BitVec 32) (start_fontinfo end_fontinfo : Nat)
    (eb : Editblock)
  | remove (eb : Editblock)

def Op.exec (sb : Srcbuf) : Op → Option Srcbuf
  | .add fil_lnum flagmask flags start_fontinfo end_fontinfo eb =>
    srcbufAddEditblock sb fil_lnum flagmask flags start_fontinfo end_fontinfo eb
  | .remove eb => srcbufRemoveEditblock sb eb

/-- A block is added on a line of the file, at new addresses and with a text that ends in a
newline; a block that is removed is in the list. -/
def Legal (sb : Srcbuf) : Op → Prop
  | .add fil_lnum _ _ _ _ eb =>
    0 ≤ fil_lnum ∧ fil_lnum < sb.num_file_lines ∧ eb.text.getLast? = some newline ∧
      (∀ eb2 ∈ sb.eblist, eb2.id ≠ eb.id) ∧ eb.startpc ≠ eb.limpc ∧
      ∀ pc ∈ sb.buffer.pclist, pc.id ≠ eb.startpc ∧ pc.id ≠ eb.limpc
  | .remove eb => eb ∈ sb.eblist

/-- The buffers after any run of calls on a file. -/
inductive Reaches (file : List Byte) : Srcbuf → Prop where
  | visit (pc fi : Nat) (flags : BitVec 32) : Reaches file (srcbufVisitFile file pc fi flags)
  | call {sb sb' : Srcbuf} (op : Op) (run : Reaches file sb) (legal : Legal sb op)
    (step : op.exec sb = some sb') : Reaches file sb'

/-- The range of a line holds its bytes. -/
def HasRange (file : List Byte) (sb : Srcbuf) (lnum : Nat) (start lim : Nat) : Prop :=
  srcbufFileLnumToPointRange sb lnum = some (some (start, lim)) ∧ lim ≤ sb.text.length ∧
    (lines newline file)[lnum]? = some ((sb.text.drop start).take (lim - start))

/-- The line and the points of its range map to each other. -/
def MapsBack (file : List Byte) (sb : Srcbuf) (lnum : Nat) : Prop :=
  ∃ start lim, HasRange file sb lnum start lim ∧
    ∀ point, start ≤ point → point < lim → srcbufPointToFileLnum sb point = some (some lnum)

/-! ## The points of property changes -/

variable {b b' : EditBuffer} {pc id : Nat} {m : Mark}

/-- The change that an address other than that of the initial one is of. -/
def markOf (b : EditBuffer) (id : Nat) : Option Mark := (marks b.pclist).tail.find? (·.id == id)

/-- The initial change is at the address `pc`, and no other one. -/
def Headed (b : EditBuffer) (pc : Nat) : Prop :=
  ∃ l, marks b.pclist = ⟨pc, 0, true⟩ :: l ∧ ∀ m ∈ l, m.id ≠ pc

theorem markOf_id (h : markOf b id = some m) : m.id = id := by
  have := List.find?_some h
  simpa using this

theorem markOf_mem (h : markOf b id = some m) : ∃ x ∈ b.pclist, x.id = id := by
  obtain ⟨x, hx, hxm⟩ := List.mem_map.mp (List.mem_of_mem_tail (List.mem_of_find?_eq_some h))
  refine ⟨x, hx, ?_⟩
  rw [← markOf_id h, ← hxm]

theorem find_marks (l : List Propchange) (id : Nat) :
    (marks l).find? (·.id == id) = (l.find? (·.id == id)).map (·.toMark) := by
  unfold marks
  rw [List.find?_map]
  rfl

theorem Headed.ne (h : Headed b pc) (hid : markOf b id = some m) : id ≠ pc := by
  obtain ⟨l, hl, hne⟩ := h
  unfold markOf at hid
  rw [hl, List.tail_cons] at hid
  have hmem := hne m (List.mem_of_find?_eq_some hid)
  have hm : m.id = id := by simpa using List.find?_some hid
  rwa [hm] at hmem

theorem Headed.point (h : Headed b pc) (hid : markOf b id = some m) :
    editGetPropchangePoint b id = some m.point := by
  have hne := h.ne hid
  obtain ⟨l, hl, -⟩ := h
  unfold markOf at hid
  rw [hl, List.tail_cons] at hid
  have hfind : (marks b.pclist).find? (·.id == id) = some m := by
    rw [hl, List.find?_cons_of_neg (by simpa using hne.symm), hid]
  rw [find_marks] at hfind
  obtain ⟨x, hx, hxm⟩ := Option.map_eq_some_iff.mp hfind
  unfold editGetPropchangePoint
  rw [hx, ← hxm]
  rfl

theorem find_insert {k1 k2 : List Mark} (hm : ∀ x ∈ k1, x.id ≠ m.id) (id : Nat) :
    (k1 ++ m :: k2).find? (·.id == id) =
      if id = m.id then some m else (k1 ++ k2).find? (·.id == id) := by
  rw [List.find?_append, List.find?_append]
  by_cases hid : id = m.id
  · have hnone : k1.find? (·.id == m.id) = none := by
      rw [List.find?_eq_none]
      exact fun x hx => by simpa using hm x hx
    rw [if_pos hid, hid, hnone, List.find?_cons_of_pos (by simp)]
    rfl
  · rw [if_neg hid, List.find?_cons_of_neg (by simpa using Ne.symm hid)]

theorem marks_set (b : EditBuffer) (on : Bool) :
    marks (editSetPropchangeUpdates b on).pclist = marks b.pclist := by
  unfold editSetPropchangeUpdates
  dsimp only
  split_ifs
  · exact prop_changes.marks_handle b
  · rfl

theorem marks_note (b : EditBuffer) :
    marks (prop_changes.notePropchange b).pclist = marks b.pclist := by
  unfold prop_changes.notePropchange
  dsimp only
  split_ifs
  · exact prop_changes.marks_handle _
  · rfl

theorem markOf_congr (h : marks b'.pclist = marks b.pclist) (id : Nat) :
    markOf b' id = markOf b id := by
  unfold markOf
  rw [h]

theorem Headed.congr (h : Headed b pc) (hmarks : marks b'.pclist = marks b.pclist) :
    Headed b' pc := by
  unfold Headed
  rw [hmarks]
  exact h

/-- No change is at the address. -/
def Fresh (b : EditBuffer) (id : Nat) : Prop := ∀ m ∈ marks b.pclist, m.id ≠ id

/-- The initial change, and the others. -/
theorem Headed.split (h : Headed b pc) : ∃ x0 l, b.pclist = x0 :: l ∧ x0.toMark = ⟨pc, 0, true⟩ ∧
    ∀ m ∈ marks l, m.id ≠ pc := by
  obtain ⟨k, hk, hne⟩ := h
  cases hl : b.pclist with
  | nil =>
    rw [hl] at hk
    cases hk
  | cons x0 l =>
    rw [hl] at hk
    injection hk with hx0 hk
    subst hk
    exact ⟨x0, l, rfl, hx0, hne⟩

variable {k1 k2 : List Mark}

theorem find_of_added (hb : marks b.pclist = ⟨pc, 0, true⟩ :: (k1 ++ k2)) (hne : m.id ≠ pc)
    (hfresh : ∀ x ∈ k1, x.id ≠ m.id) (hhead : Headed b pc)
    (hb' : marks b'.pclist = ⟨pc, 0, true⟩ :: (k1 ++ m :: k2)) :
    Headed b' pc ∧ markOf b' m.id = some m ∧
      (∀ id, id ≠ m.id → markOf b' id = markOf b id) ∧
        ∀ id, id ≠ m.id → Fresh b id → Fresh b' id := by
  have hfind : ∀ id, markOf b' id = if id = m.id then some m else markOf b id := by
    intro id
    unfold markOf
    rw [hb, hb', List.tail_cons, List.tail_cons, find_insert hfresh]
  refine ⟨⟨_, hb', ?_⟩, ?_, ?_, ?_⟩
  · obtain ⟨k, hk, hother⟩ := hhead
    rw [hb] at hk
    injection hk with _ hk
    subst hk
    intro x hx
    rcases List.mem_append.mp hx with hx | hx
    · exact hother x (List.mem_append_left k2 hx)
    · rcases List.mem_cons.mp hx with rfl | hx
      · exact hne
      · exact hother x (List.mem_append_right k1 hx)
  · rw [hfind, if_pos rfl]
  · intro id hid
    rw [hfind, if_neg hid]
  · intro id hid hold x hx
    unfold Fresh at hold
    rw [hb] at hold
    rw [hb'] at hx
    have hcases : x = m ∨ x ∈ (⟨pc, 0, true⟩ : Mark) :: (k1 ++ k2) := by
      simp only [List.mem_cons, List.mem_append] at hx ⊢
      grind
    rcases hcases with rfl | hx
    · exact hid.symm
    · exact hold x hx

/-- A new change is found, and the others as before. -/
theorem add_spec (h : Headed b pc) (hid : Fresh b id) (point user_data fi : Nat)
    (flagmask flags : BitVec 32) (backsliding : Bool) :
    ∃ b', editAddPropchange b id point user_data fi flagmask flags backsliding = some b' ∧
      Headed b' pc ∧ markOf b' id = some ⟨id, point, backsliding⟩ ∧
      (∀ id', id' ≠ id → markOf b' id' = markOf b id') ∧
      ∀ id', id' ≠ id → Fresh b id' → Fresh b' id' := by
  obtain ⟨x0, l, hl, hx0, hne⟩ := h.split
  -- The list is passed up to some place behind the initial change
  let f := fun x : Propchange => prop_changes.goesPast point backsliding x.toMark
  have hfirst : f x0 = true :=
    prop_changes.goesPast_initial (m := x0.toMark) (by rw [hx0]) (by rw [hx0])
  have hpassed : b.pclist.takeWhile f = x0 :: l.takeWhile f := by
    rw [hl]
    exact List.takeWhile_cons_of_pos hfirst
  have hrest : b.pclist.dropWhile f = l.dropWhile f := by
    rw [hl]
    exact List.dropWhile_cons_of_pos hfirst
  have hb : marks b.pclist =
      ⟨pc, 0, true⟩ :: (marks (l.takeWhile f) ++ marks (l.dropWhile f)) := by
    rw [← prop_changes.marks_append, List.takeWhile_append_dropWhile, hl, prop_changes.marks_cons,
      hx0]
  have hpcid : id ≠ pc := by
    have := hid ⟨pc, 0, true⟩ (by rw [hb]; exact List.mem_cons_self)
    exact this.symm
  have hnew : ∀ x ∈ marks (l.takeWhile f), x.id ≠ id := by
    intro x hx
    apply hid
    rw [hb]
    exact List.mem_cons_of_mem _ (List.mem_append_left _ hx)
  cases hlast : (x0 :: l.takeWhile f).getLast? with
  | none => simp at hlast
  | some last =>
    let x : Propchange := ⟨⟨id, point, backsliding⟩, user_data, fi != 0,
      if fi ≠ 0 then fi else last.fi, flagmask,
      (last.flags &&& ~~~flagmask) ||| (flags &&& flagmask)⟩
    have hadd : editAddPropchange b id point user_data fi flagmask flags backsliding =
        some (prop_changes.notePropchange { b with
          pclist := (x0 :: l.takeWhile f) ++ x :: l.dropWhile f }) := by
      have hlast' : (b.pclist.takeWhile fun x => prop_changes.goesPast point backsliding
          x.toMark).getLast? = some last := (congrArg List.getLast? hpassed).trans hlast
      rw [editAddPropchange, hlast']
      exact congrArg some (congrArg (fun pclist => prop_changes.notePropchange { b with pclist })
        (congrArg₂ (fun front rest => front ++ x :: rest) hpassed hrest))
    refine ⟨_, hadd, find_of_added (m := ⟨id, point, backsliding⟩) hb hpcid hnew h ?_⟩
    rw [marks_note, prop_changes.marks_append, prop_changes.marks_cons, prop_changes.marks_cons,
      hx0]
    rfl

/-- A change is taken out, and the others are found as before. -/
theorem delete_spec (h : Headed b pc) (hid : markOf b id = some m) :
    ∃ b', editDeletePropchange b id = some b' ∧ Headed b' pc ∧
      (∀ id', id' ≠ id → markOf b' id' = markOf b id') ∧
      ∀ id', Fresh b id' → Fresh b' id' := by
  have hpcid := h.ne hid
  obtain ⟨x0, l, hl, hx0, hne⟩ := h.split
  have hx0id : x0.id = pc := congrArg Mark.id hx0
  let f := fun x : Propchange => x.id != id
  have hfirst : f x0 = true := by
    change (x0.id != id) = true
    rw [hx0id]
    simpa using hpcid.symm
  have hpassed : b.pclist.takeWhile f = x0 :: l.takeWhile f := by
    rw [hl]
    exact List.takeWhile_cons_of_pos hfirst
  have hrest : b.pclist.dropWhile f = l.dropWhile f := by
    rw [hl]
    exact List.dropWhile_cons_of_pos hfirst
  have hparts : l.takeWhile f ++ l.dropWhile f = l := List.takeWhile_append_dropWhile
  cases hdrop : l.dropWhile f with
  | nil =>
    -- The change is in the list
    exfalso
    unfold markOf at hid
    rw [hl, prop_changes.marks_cons, List.tail_cons] at hid
    obtain ⟨y, hy, hym⟩ := List.mem_map.mp (List.mem_of_find?_eq_some hid)
    have hmid : m.id = id := by simpa using List.find?_some hid
    rw [← hparts, hdrop, List.append_nil] at hy
    have hyid : (y.id != id) = true := List.mem_takeWhile_imp (p := f) hy
    rw [← hmid, ← hym] at hyid
    simp at hyid
  | cons x l2 =>
    have hx : x.id = id := by
      have hhead := List.head?_dropWhile_not f l
      rw [hdrop] at hhead
      simpa [f] using hhead
    rw [hdrop] at hparts
    have hb : marks b.pclist =
        ⟨pc, 0, true⟩ :: (marks (l.takeWhile f) ++ x.toMark :: marks l2) := by
      rw [← prop_changes.marks_cons, ← prop_changes.marks_append, hparts, hl,
        prop_changes.marks_cons, hx0]
    have hbefore : ∀ y ∈ marks (l.takeWhile f), y.id ≠ x.toMark.id := by
      intro y hy
      obtain ⟨z, hz, rfl⟩ := List.mem_map.mp hy
      have hzf : (z.id != id) = true := List.mem_takeWhile_imp (p := f) hz
      rw [hx]
      simpa using hzf
    have hdelete : editDeletePropchange b id = some (prop_changes.notePropchange { b with
        pclist := (x0 :: l.takeWhile f) ++ l2 }) := by
      have hpassed' : b.pclist.takeWhile (·.id != id) = x0 :: l.takeWhile f := hpassed
      have hrest' : b.pclist.dropWhile (·.id != id) = x :: l2 := hrest.trans hdrop
      rw [editDeletePropchange, hpassed', hrest']
    have hb' : marks (prop_changes.notePropchange { b with
        pclist := (x0 :: l.takeWhile f) ++ l2 }).pclist =
          ⟨pc, 0, true⟩ :: (marks (l.takeWhile f) ++ marks l2) := by
      rw [marks_note, prop_changes.marks_append, prop_changes.marks_cons, hx0]
      rfl
    have hsub : ∀ y ∈ (⟨pc, 0, true⟩ : Mark) :: (marks (l.takeWhile f) ++ marks l2),
        y ∈ marks b.pclist := by
      intro y hy
      rw [hb]
      simp only [List.mem_cons, List.mem_append] at hy ⊢
      grind
    refine ⟨_, hdelete, ⟨_, hb', ?_⟩, ?_, ?_⟩
    · intro y hy
      obtain ⟨k, hk, hother⟩ := h
      rw [hk] at hb
      injection hb with _ hb
      apply hother
      rw [hb]
      simp only [List.mem_append, List.mem_cons] at hy ⊢
      grind
    · intro id' hne'
      unfold markOf
      rw [hb', List.tail_cons, hb, List.tail_cons, find_insert hbefore, if_neg (by rwa [hx])]
    · intro id' hfresh y hy
      rw [hb'] at hy
      exact hfresh y (hsub y hy)

theorem marks_map (f : Propchange → Propchange) (g : Mark → Mark)
    (hfg : ∀ x, (f x).toMark = g x.toMark) (l : List Propchange) :
    marks (l.map f) = (marks l).map g := by
  unfold marks
  rw [List.map_map, List.map_map]
  exact List.map_congr_left fun x _ => hfg x

theorem find_map {g : Mark → Mark} (hg : ∀ m, (g m).id = m.id) (k : List Mark) (id : Nat) :
    (k.map g).find? (·.id == id) = (k.find? (·.id == id)).map g := by
  have hsame : ((fun m : Mark => m.id == id) ∘ g) = fun m : Mark => m.id == id := by
    funext m
    exact congrArg (· == id) (hg m)
  rw [List.find?_map, hsame]

/-- What an insertion of text does to a change. -/
def insertMark (pos len : Nat) (m : Mark) : Mark :=
  { m with point :=
      if m.point < pos ∨ m.backsliding = true ∧ pos = m.point then m.point else m.point + len }

/-- What a deletion of text does to a change. -/
def deleteMark (pos len : Nat) (m : Mark) : Mark :=
  { m with point :=
      if m.point < pos then m.point else if m.point < pos + len then pos else m.point - len }

theorem toMark_updatePoint (pos : Nat) (delta : Int) (x : Propchange) :
    (prop_changes.updatePoint pos delta x).toMark =
      { x.toMark with point := (prop_changes.updatePoint pos delta x).point } := by
  unfold prop_changes.updatePoint
  split_ifs <;> rfl

/-- The points are updated behind the initial change. -/
theorem update_spec (h : Headed b pc) {pos : Nat} {delta : Int} {g : Mark → Mark}
    (hb : b'.pclist = prop_changes.updateProplistPoints pos delta b.pclist)
    (hg : ∀ x, (prop_changes.updatePoint pos delta x).toMark = g x.toMark)
    (hid : ∀ m, (g m).id = m.id) :
    Headed b' pc ∧ (∀ id, markOf b' id = (markOf b id).map g) ∧
      ∀ id, Fresh b id → Fresh b' id := by
  obtain ⟨x0, l, hl, hx0, hne⟩ := h.split
  rw [hl] at hb
  have hmarks : marks b'.pclist = ⟨pc, 0, true⟩ :: (marks l).map g := by
    rw [hb, ← hx0, prop_changes.updateProplistPoints, prop_changes.marks_cons, marks_map _ g hg]
  have hold : marks b.pclist = ⟨pc, 0, true⟩ :: marks l := by
    rw [hl, prop_changes.marks_cons, hx0]
  refine ⟨⟨_, hmarks, ?_⟩, ?_, ?_⟩
  · intro m hm
    obtain ⟨x, hx, rfl⟩ := List.mem_map.mp hm
    rw [hid]
    exact hne x hx
  · intro id
    unfold markOf
    rw [hmarks, hold, List.tail_cons, List.tail_cons, find_map hid]
  · intro id hfresh m hm
    unfold Fresh at hfresh
    rw [hold] at hfresh
    rw [hmarks] at hm
    rcases List.mem_cons.mp hm with rfl | hm
    · exact hfresh _ List.mem_cons_self
    · obtain ⟨x, hx, rfl⟩ := List.mem_map.mp hm
      rw [hid]
      exact hfresh x (List.mem_cons_of_mem _ hx)

theorem insert_spec (h : Headed b pc) (pos : Nat) {len : Nat} (hlen : 0 < len) :
    Headed (editInsert b pos len) pc ∧
      (∀ id, markOf (editInsert b pos len) id = (markOf b id).map (insertMark pos len)) ∧
      ∀ id, Fresh b id → Fresh (editInsert b pos len) id := by
  refine update_spec h rfl ?_ fun m => rfl
  intro x
  rw [toMark_updatePoint, prop_changes.updatePoint_insert hlen]
  rfl

theorem deleteText_spec (h : Headed b pc) (pos len : Nat) :
    Headed (editDelete b pos len) pc ∧
      (∀ id, markOf (editDelete b pos len) id = (markOf b id).map (deleteMark pos len)) ∧
      ∀ id, Fresh b id → Fresh (editDelete b pos len) id := by
  refine update_spec h rfl ?_ fun m => rfl
  intro x
  rw [toMark_updatePoint, prop_changes.updatePoint_delete]
  rfl

/-- A change other than the initial one is moved without looking at the others. -/
theorem movePoint_spec (h : Headed b pc) (hid : id ≠ pc) (delta : Int) :
    Headed (editMovePropchangePoint b id delta) pc ∧
      (∀ m, markOf b id = some m → markOf (editMovePropchangePoint b id delta) id =
        some { m with point := (m.point + delta).toNat }) ∧
      (∀ id', id' ≠ id → markOf (editMovePropchangePoint b id delta) id' = markOf b id') ∧
      ∀ id', Fresh b id' → Fresh (editMovePropchangePoint b id delta) id' := by
  let g : Mark → Mark := fun m =>
    if m.id = id then { m with point := (m.point + delta).toNat } else m
  have hgid : ∀ m, (g m).id = m.id := by
    intro m
    change (if m.id = id then _ else m).id = m.id
    split_ifs <;> rfl
  have hmarks : marks (editMovePropchangePoint b id delta).pclist = (marks b.pclist).map g := by
    apply marks_map
    intro x
    change (if x.id = id then _ else x).toMark = if x.id = id then _ else x.toMark
    split_ifs <;> rfl
  have hfind : ∀ id', markOf (editMovePropchangePoint b id delta) id' = (markOf b id').map g := by
    intro id'
    unfold markOf
    rw [hmarks, ← List.map_tail, find_map hgid]
  refine ⟨?_, ?_, ?_, ?_⟩
  · obtain ⟨l, hl, hne⟩ := h
    refine ⟨l.map g, ?_, ?_⟩
    · rw [hmarks, hl, List.map_cons]
      change (if pc = id then _ else _) :: _ = _
      rw [if_neg hid.symm]
    · intro m hm
      obtain ⟨x, hx, rfl⟩ := List.mem_map.mp hm
      rw [hgid]
      exact hne x hx
  · intro m hm
    rw [hfind, hm, Option.map_some]
    change some (if m.id = id then _ else m) = _
    rw [if_pos (markOf_id hm)]
  · intro id' hne
    rw [hfind]
    cases hm : markOf b id' with
    | none => rfl
    | some m =>
      rw [Option.map_some]
      change some (if m.id = id then _ else m) = _
      rw [if_neg (by rwa [markOf_id hm])]
  · intro id' hfresh m hm
    rw [hmarks] at hm
    obtain ⟨x, hx, rfl⟩ := List.mem_map.mp hm
    rw [hgid]
    exact hfresh x hx

/-! ## The blocks in front of the lines -/

variable {ls : List (List Byte)} {bl bl1 bl2 : List (Editblock × Nat)} {n off off' point : Nat}

/-- How many bytes the blocks have. -/
def total (bl : List (Editblock × Nat)) : Nat := (bl.map (·.1.text.length)).sum

/-- How many bytes the blocks have that stand in front of a line, or of one before it. -/
def shift (bl : List (Editblock × Nat)) (n : Nat) : Nat := total (bl.filter (·.2 ≤ n))

/-- The blocks stand between their changes, each in front of its line, when those before them have
`off` bytes. -/
def Placed (ls : List (List Byte)) (b : EditBuffer) : Nat → List (Editblock × Nat) → Prop
  | _, [] => True
  | off, (eb, n) :: bl =>
    0 < eb.text.length ∧
      markOf b eb.startpc = some ⟨eb.startpc, lineStart ls n + off, true⟩ ∧
      markOf b eb.limpc = some ⟨eb.limpc, lineStart ls n + off + eb.text.length - 1, false⟩ ∧
      Placed ls b (off + eb.text.length) bl

theorem total_nil : total [] = 0 := rfl

theorem total_cons (p : Editblock × Nat) (bl : List (Editblock × Nat)) :
    total (p :: bl) = p.1.text.length + total bl := by
  simp [total]

theorem total_append (bl1 bl2 : List (Editblock × Nat)) :
    total (bl1 ++ bl2) = total bl1 + total bl2 := by
  simp [total]

theorem shift_cons_le {p : Editblock × Nat} (h : p.2 ≤ n) (bl : List (Editblock × Nat)) :
    shift (p :: bl) n = p.1.text.length + shift bl n := by
  unfold shift
  rw [List.filter_cons_of_pos (by simpa using h), total_cons]

theorem shift_of_lt (h : ∀ p ∈ bl, n < p.2) : shift bl n = 0 := by
  unfold shift
  have hnone : bl.filter (·.2 ≤ n) = [] := by
    rw [List.filter_eq_nil_iff]
    intro p hp
    have := h p hp
    simpa using this
  rw [hnone, total_nil]

theorem shift_of_le (h : ∀ p ∈ bl, p.2 ≤ n) : shift bl n = total bl := by
  unfold shift
  rw [List.filter_eq_self.mpr]
  intro p hp
  simpa using h p hp

theorem shift_append (bl1 bl2 : List (Editblock × Nat)) (n : Nat) :
    shift (bl1 ++ bl2) n = shift bl1 n + shift bl2 n := by
  unfold shift
  rw [List.filter_append, total_append]

theorem placed_append : Placed ls b off (bl1 ++ bl2) ↔
    Placed ls b off bl1 ∧ Placed ls b (off + total bl1) bl2 := by
  induction bl1 generalizing off with
  | nil =>
    rw [List.nil_append, total_nil]
    exact ⟨fun h => ⟨trivial, h⟩, fun h => h.2⟩
  | cons p bl1 ih =>
    obtain ⟨eb, n⟩ := p
    rw [List.cons_append, Placed, Placed, ih, total_cons]
    simp only [and_assoc, Nat.add_assoc]

/-- The changes of the blocks have moved from `off` to `off'`. -/
theorem Placed.move (h : Placed ls b off bl)
    (hmove : ∀ p ∈ bl, ∀ id, id = p.1.startpc ∨ id = p.1.limpc → ∀ m, markOf b id = some m →
      lineStart ls p.2 + off ≤ m.point → m.point < lineStart ls p.2 + off + total bl →
        markOf b' id = some { m with point := m.point + off' - off }) : Placed ls b' off' bl := by
  induction bl generalizing off off' with
  | nil => trivial
  | cons p bl ih =>
    obtain ⟨eb, n⟩ := p
    obtain ⟨hlen, hstart, hlim, hrest⟩ := h
    rw [total_cons] at hmove
    refine ⟨hlen, ?_, ?_, ih hrest ?_⟩
    · rw [hmove _ List.mem_cons_self _ (Or.inl rfl) _ hstart (Nat.le_refl _) (by dsimp only; omega)]
      congr 2
      dsimp only
      omega
    · rw [hmove _ List.mem_cons_self _ (Or.inr rfl) _ hlim (by dsimp only; omega)
        (by dsimp only; omega)]
      congr 2
      dsimp only
      omega
    · intro q hq id hid m hm hle hlt
      rw [hmove q (List.mem_cons_of_mem _ hq) id hid m hm (by omega) (by dsimp only; omega)]
      congr 2
      omega

theorem rangeLoop_spec (hhead : Headed b pc) (h : Placed ls b off bl)
    (hsorted : bl.Pairwise fun p q => p.2 ≤ q.2) (hne : ∀ l ∈ ls, l ≠ []) (hn : n < ls.length) :
    rangeLoop b (lineStart ls n + off) (bl.map Prod.fst) =
      some (lineStart ls n + off + shift bl n) := by
  induction bl generalizing off with
  | nil => rfl
  | cons p bl ih =>
    obtain ⟨eb, k⟩ := p
    obtain ⟨hlen, hstart, hlim, hrest⟩ := h
    rw [List.pairwise_cons] at hsorted
    rw [List.map_cons, rangeLoop, hhead.point hstart]
    dsimp only [Option.bind_eq_bind, Option.bind_some]
    by_cases hk : k ≤ n
    · have hmono := lineStart_mono ls hk
      rw [if_neg (by omega), hhead.point hlim, shift_cons_le hk]
      dsimp only [Option.bind_some]
      rw [show lineStart ls n + off + (lineStart ls k + off + eb.text.length - 1 -
        (lineStart ls k + off) + 1) = lineStart ls n + (off + eb.text.length) by omega,
        ih hrest hsorted.2, Nat.add_assoc, Nat.add_assoc, Nat.add_assoc]
    · have hlt := lineStart_lt hne hn (Nat.not_le.mp hk)
      rw [if_pos (by omega), shift_of_lt, Nat.add_zero]
      intro q hq
      rcases List.mem_cons.mp hq with rfl | hq
      · exact Nat.not_le.mp hk
      · exact Nat.lt_of_lt_of_le (Nat.not_le.mp hk) (hsorted.1 q hq)

/-- For a point of a line the loop goes past the blocks in front of it. -/
theorem deltaLoop_spec (hhead : Headed b pc) (h : Placed ls b off bl)
    (hsorted : bl.Pairwise fun p q => p.2 ≤ q.2)
    (hfrom : lineStart ls n + off + shift bl n ≤ point)
    (hto : point < lineStart ls (n + 1) + off + shift bl n) :
    deltaLoop b point off (bl.map Prod.fst) = some (off + shift bl n) := by
  induction bl generalizing off with
  | nil => rfl
  | cons p bl ih =>
    obtain ⟨eb, k⟩ := p
    obtain ⟨hlen, hstart, hlim, hrest⟩ := h
    rw [List.pairwise_cons] at hsorted
    rw [List.map_cons, deltaLoop, hhead.point hlim]
    dsimp only [Option.bind_eq_bind, Option.bind_some]
    by_cases hk : k ≤ n
    · have hmono := lineStart_mono ls hk
      rw [shift_cons_le hk] at hfrom hto ⊢
      dsimp only at hfrom hto
      rw [if_neg (by omega), hhead.point hstart]
      dsimp only [Option.bind_some]
      rw [show off + (lineStart ls k + off + eb.text.length - 1 - (lineStart ls k + off) + 1) =
        off + eb.text.length by omega, ih hrest hsorted.2 (by omega) (by omega), Nat.add_assoc]
    · have hbehind : ∀ q ∈ (eb, k) :: bl, n < q.2 := by
        intro q hq
        rcases List.mem_cons.mp hq with rfl | hq
        · exact Nat.not_le.mp hk
        · exact Nat.lt_of_lt_of_le (Nat.not_le.mp hk) (hsorted.1 q hq)
      have hmono := lineStart_mono ls (show n + 1 ≤ k by omega)
      rw [shift_of_lt hbehind] at hfrom hto ⊢
      rw [if_pos (by omega), Nat.add_zero]

/-! ## The line table -/

/-- A search for the newline ends where the next line starts, or just before it. -/
theorem find_newline (text : List Byte) (pos : Nat) :
    editFindCharForwards text pos text.length [newline] =
      (decide (((text.drop pos).takeWhile (· != newline)).length < (text.drop pos).length),
        pos + ((text.drop pos).takeWhile (· != newline)).length) := by
  have hpat : (fun c : Byte => !List.contains [newline] c) = (· != newline) := by
    funext c
    by_cases hc : c = newline
    · simp [hc]
    · simp [hc]
  unfold editFindCharForwards
  dsimp only
  rw [List.take_length, hpat]

theorem linetab_end {text : List Byte} {pos : Nat} (h : text.length ≤ pos) : [pos] =
    (List.range ((lines newline (text.drop pos)).length + 1)).map fun i =>
      pos + lineStart (lines newline (text.drop pos)) i := by
  rw [List.drop_eq_nil_of_le h]
  rfl

theorem linetabLoop_spec (text : List Byte) (fuel pos : Nat) (hfuel : text.length ≤ pos + fuel) :
    linetabLoop text fuel pos =
      (List.range ((lines newline (text.drop pos)).length + 1)).map fun i =>
        pos + lineStart (lines newline (text.drop pos)) i := by
  induction fuel generalizing pos with
  | zero => exact linetab_end hfuel
  | succ fuel ih =>
    rw [linetabLoop]
    by_cases hpos : pos < text.length
    · have hne : text.drop pos ≠ [] := by
        intro hc
        rw [List.drop_eq_nil_iff] at hc
        omega
      have hlen : ((text.drop pos).take (firstLength newline (text.drop pos))).length =
          firstLength newline (text.drop pos) := by
        rw [List.length_take, Nat.min_eq_left (firstLength_le newline _)]
      have hfirst : 0 < firstLength newline (text.drop pos) := firstLength_pos hne
      -- What both branches go on with
      have hnext : ∀ nextpos, nextpos = pos + firstLength newline (text.drop pos) →
          pos :: linetabLoop text fuel nextpos =
            (List.range ((lines newline (text.drop pos)).length + 1)).map fun i =>
              pos + lineStart (lines newline (text.drop pos)) i := by
        rintro nextpos rfl
        rw [lines_of_ne_nil hne, List.drop_drop, List.length_cons, List.range_succ_eq_map,
          List.map_cons, List.map_map, lineStart_zero, Nat.add_zero, ih _ (by omega)]
        congr 1
        apply List.map_congr_left
        intro i _
        rw [Function.comp_apply, lineStart_cons, hlen, Nat.add_assoc]
      rw [if_pos hpos, find_newline]
      have hfirstEq : firstLength newline (text.drop pos) =
          if ((text.drop pos).takeWhile (· != newline)).length < (text.drop pos).length then
            ((text.drop pos).takeWhile (· != newline)).length + 1
          else (text.drop pos).length := rfl
      have hrun := (List.takeWhile_sublist (· != newline) (l := text.drop pos)).length_le
      by_cases hfound :
          ((text.drop pos).takeWhile (· != newline)).length < (text.drop pos).length
      · rw [decide_eq_true hfound]
        apply hnext
        rw [hfirstEq, if_pos hfound, Nat.add_assoc]
      · rw [decide_eq_false hfound]
        apply hnext
        rw [hfirstEq, if_neg hfound]
        omega
    · rw [if_neg hpos]
      exact linetab_end (Nat.not_lt.mp hpos)

theorem makeLinetab_spec (text : List Byte) : makeLinetab text =
    (List.range ((lines newline text).length + 1)).map (lineStart (lines newline text)) := by
  rw [makeLinetab, linetabLoop_spec text text.length 0 (by omega), List.drop_zero]
  exact List.map_congr_left fun i _ => Nat.zero_add _

/-- The search for a line finds the one that the point is in, if its end is in the table. -/
theorem lineLoop_spec {k count : Nat} (hk : k ≤ n) (hfrom : lineStart ls n ≤ point)
    (hto : point < lineStart ls (n + 1)) :
    lineLoop point k ((List.range' (k + 1) count).map (lineStart ls)) =
      if n < k + count then some n else none := by
  induction count generalizing k with
  | zero =>
    rw [if_neg (by omega)]
    rfl
  | succ count ih =>
    rw [List.range'_succ, List.map_cons, lineLoop]
    by_cases hkn : k = n
    · rw [hkn, if_pos hto, if_pos (by omega)]
    · have hmono := lineStart_mono ls (show k + 1 ≤ n by omega)
      rw [if_neg (by omega), ih (by omega), show k + 1 + count = k + (count + 1) by omega]

/-! ## The invariant -/

variable {file : List Byte} {sb sb' : Srcbuf} {eb : Editblock} {lnum : Nat}

/-- Two blocks have no address in common. -/
structure Apart (eb eb2 : Editblock) : Prop where
  id : eb.id ≠ eb2.id
  starts : eb.startpc ≠ eb2.startpc
  start_lim : eb.startpc ≠ eb2.limpc
  lim_start : eb.limpc ≠ eb2.startpc
  lims : eb.limpc ≠ eb2.limpc

theorem Apart.symm {eb eb2 : Editblock} (h : Apart eb eb2) : Apart eb2 eb :=
  ⟨h.id.symm, h.starts.symm, h.lim_start.symm, h.start_lim.symm, h.lims.symm⟩

/-- The blocks stand in front of their lines, and behind the blocks in front of it every line is as
in the file. -/
structure Inv (file : List Byte) (sb : Srcbuf) (pc : Nat) (bl : List (Editblock × Nat)) :
    Prop where
  eblist : sb.eblist = bl.map Prod.fst
  linetab : sb.linetab = makeLinetab file
  num : sb.num_file_lines = (lines newline file).length
  headed : Headed sb.buffer pc
  placed : Placed (lines newline file) sb.buffer 0 bl
  sorted : bl.Pairwise fun p q => p.2 ≤ q.2
  line : ∀ p ∈ bl, p.2 < (lines newline file).length
  apart : bl.Pairwise fun p q => Apart p.1 q.1
  own : ∀ p ∈ bl, p.1.startpc ≠ p.1.limpc
  length : sb.text.length = file.length + total bl
  piece : ∀ n l, (lines newline file)[n]? = some l →
    (sb.text.drop (lineStart (lines newline file) n + shift bl n)).take l.length = l

theorem lineStart_all (file : List Byte) :
    lineStart (lines newline file) (lines newline file).length = file.length := by
  rw [lineStart, List.take_length, lines_flatten]

theorem lineStart_le (file : List Byte) (h : n ≤ (lines newline file).length) :
    lineStart (lines newline file) n ≤ file.length := by
  rw [← lineStart_all]
  exact lineStart_mono _ h

theorem total_split (bl : List (Editblock × Nat)) (n : Nat) : shift bl n ≤ total bl := by
  induction bl with
  | nil => exact Nat.le_refl _
  | cons p bl ih =>
    rw [total_cons]
    by_cases hp : p.2 ≤ n
    · rw [shift_cons_le hp]
      omega
    · unfold shift at ih ⊢
      rw [List.filter_cons_of_neg (by simpa using hp)]
      omega

theorem Inv.linetab_get (h : Inv file sb pc bl) (hn : n ≤ (lines newline file).length) :
    sb.linetab[n]? = some (lineStart (lines newline file) n) := by
  rw [h.linetab, makeLinetab_spec, List.getElem?_map, List.getElem?_range (by omega)]
  rfl

theorem Inv.visit (file : List Byte) (pc fi : Nat) (flags : BitVec 32) :
    Inv file (srcbufVisitFile file pc fi flags) pc [] where
  eblist := rfl
  linetab := rfl
  num := by
    change (makeLinetab file).length - 1 = _
    rw [makeLinetab_spec, List.length_map, List.length_range, Nat.add_sub_cancel]
  headed := ⟨[], rfl, fun m hm => absurd hm (by simp)⟩
  placed := trivial
  sorted := List.Pairwise.nil
  line := fun p hp => absurd hp (by simp)
  apart := List.Pairwise.nil
  own := fun p hp => absurd hp (by simp)
  length := rfl
  piece := by
    intro n l hl
    change (file.drop _).take _ = l
    have hat := line_at hl
    rwa [lines_flatten] at hat

/-- The range of a line is where its bytes are. -/
theorem Inv.range (h : Inv file sb pc bl) (hn : n < (lines newline file).length) :
    srcbufFileLnumToPointRange sb n =
      some (some (lineStart (lines newline file) n + shift bl n,
        lineStart (lines newline file) (n + 1) + shift bl n)) := by
  have hloop := rangeLoop_spec h.headed h.placed h.sorted (lines_ne_nil newline file) hn
  rw [Nat.add_zero] at hloop
  unfold srcbufFileLnumToPointRange
  rw [if_neg (by rw [h.num]; omega), Int.toNat_natCast, h.linetab_get (Nat.le_of_lt hn),
    h.linetab_get hn, h.eblist]
  dsimp only [Option.bind_eq_bind, Option.bind_some]
  rw [hloop, Option.bind_some, Nat.add_sub_cancel_left]

theorem Inv.hasRange (h : Inv file sb pc bl) (hn : n < (lines newline file).length) :
    HasRange file sb n (lineStart (lines newline file) n + shift bl n)
      (lineStart (lines newline file) (n + 1) + shift bl n) := by
  have hl := List.getElem?_eq_getElem hn
  have hsucc := lineStart_succ hl
  refine ⟨h.range hn, ?_, ?_⟩
  · have hle := lineStart_le file (show n + 1 ≤ _ from hn)
    have hshift := total_split bl n
    rw [h.length]
    omega
  · have hpiece := h.piece n _ hl
    rw [hsucc, show lineStart (lines newline file) n + (lines newline file)[n].length + shift bl n -
      (lineStart (lines newline file) n + shift bl n) = (lines newline file)[n].length by omega,
      hpiece, hl]

/-- A point of a line leads back to it, unless it is the last one. -/
theorem Inv.pointToLnum (h : Inv file sb pc bl) (hn : n < (lines newline file).length)
    (hfrom : lineStart (lines newline file) n + shift bl n ≤ point)
    (hto : point < lineStart (lines newline file) (n + 1) + shift bl n) :
    srcbufPointToFileLnum sb point =
      some (if n + 1 < (lines newline file).length then some n else none) := by
  have hfrom0 : lineStart (lines newline file) n + 0 + shift bl n ≤ point := hfrom
  have hto0 : point < lineStart (lines newline file) (n + 1) + 0 + shift bl n := hto
  have hdelta := deltaLoop_spec h.headed h.placed h.sorted hfrom0 hto0
  have hentries : (sb.linetab.take sb.num_file_lines).drop 1 =
      (List.range' (0 + 1) ((lines newline file).length - 1)).map
        (lineStart (lines newline file)) := by
    rw [h.linetab, h.num, makeLinetab_spec, ← List.map_take, ← List.map_drop, List.take_range,
      Nat.min_eq_left (Nat.le_succ _), List.range_eq_range', List.drop_range']
  unfold srcbufPointToFileLnum
  rw [h.eblist, hdelta, hentries]
  dsimp only [Option.bind_eq_bind, Option.bind_some]
  rw [Nat.zero_add, lineLoop_spec (Nat.zero_le n) (by omega) (by omega)]
  simp only [show (n < 0 + ((lines newline file).length - 1)) =
    (n + 1 < (lines newline file).length) from propext (by omega)]

theorem Inv.mapsBack_iff (h : Inv file sb pc bl) (hn : n < (lines newline file).length) :
    MapsBack file sb n ↔ n + 1 < (lines newline file).length := by
  have hrange := h.hasRange hn
  have hlt : lineStart (lines newline file) n < lineStart (lines newline file) (n + 1) :=
    lineStart_lt (lines_ne_nil newline file) hn (Nat.lt_succ_self n)
  constructor
  · rintro ⟨start, lim, hhas, hall⟩
    have hsame := hhas.1.symm.trans hrange.1
    injection hsame with hsame
    injection hsame with hsame
    injection hsame with hstart hlim
    subst hstart hlim
    have hpoint := hall _ (Nat.le_refl _) (by omega)
    rw [h.pointToLnum hn (Nat.le_refl _) (by omega)] at hpoint
    by_contra hlast
    rw [if_neg hlast] at hpoint
    cases hpoint
  · intro hnext
    refine ⟨_, _, hrange, fun point hfrom hto => ?_⟩
    rw [h.pointToLnum hn hfrom hto, if_pos hnext]

/-! ## Adding a block -/

theorem shift_middle (bl1 bl2 : List (Editblock × Nat)) (eb : Editblock) (k n : Nat) :
    shift (bl1 ++ (eb, k) :: bl2) n =
      shift (bl1 ++ bl2) n + if k ≤ n then eb.text.length else 0 := by
  rw [shift_append, shift_append]
  unfold shift
  by_cases hk : k ≤ n
  · rw [List.filter_cons_of_pos (by simpa using hk), total_cons, if_pos hk]
    dsimp only
    omega
  · rw [List.filter_cons_of_neg (by simpa using hk), if_neg hk, Nat.add_zero]

/-- The blocks up to a line, and the others. -/
theorem split_at_line (hsorted : bl.Pairwise fun p q => p.2 ≤ q.2) (n : Nat) :
    ∃ bl1 bl2, bl = bl1 ++ bl2 ∧ (∀ p ∈ bl1, p.2 ≤ n) ∧ ∀ p ∈ bl2, n < p.2 := by
  induction bl with
  | nil => exact ⟨[], [], rfl, by simp, by simp⟩
  | cons p bl ih =>
    rw [List.pairwise_cons] at hsorted
    by_cases hp : p.2 ≤ n
    · obtain ⟨bl1, bl2, rfl, h1, h2⟩ := ih hsorted.2
      refine ⟨p :: bl1, bl2, rfl, ?_, h2⟩
      rw [List.forall_mem_cons]
      exact ⟨hp, h1⟩
    · refine ⟨[], p :: bl, rfl, by simp, ?_⟩
      rw [List.forall_mem_cons]
      exact ⟨Nat.not_le.mp hp, fun q hq => Nat.lt_of_lt_of_le (Nat.not_le.mp hp) (hsorted.1 q hq)⟩

theorem Fresh.ne (h : Fresh b id) {id' : Nat} (hm : markOf b id' = some m) : id' ≠ id := by
  obtain ⟨x, hx, hxid⟩ := markOf_mem hm
  have := h x.toMark (List.mem_map_of_mem hx)
  rwa [← hxid]

/-- The buffer once a block has been put between its changes. -/
theorem add_buffer (h : Headed b pc) {s l : Nat} (hs : Fresh b s) (hl : Fresh b l) (hne : s ≠ l)
    (start id sfi lfi : Nat) (flagmask flags : BitVec 32) {len : Nat} (hlen : 0 < len) :
    ∃ b1 b2, editAddPropchange (editSetPropchangeUpdates b false) s start id sfi flagmask flags
        true = some b1 ∧
      editAddPropchange b1 l start 0 lfi flagmask 0 false = some b2 ∧
      ∀ b3, b3 = editMovePropchangePoint
          (editInsert (editSetPropchangeUpdates b2 b.updating) start len) l (-1) →
        Headed b3 pc ∧ markOf b3 s = some ⟨s, start, true⟩ ∧
          markOf b3 l = some ⟨l, start + len - 1, false⟩ ∧
          ∀ id m, markOf b id = some m → markOf b3 id = some (insertMark start len m) := by
  have hset := marks_set b false
  obtain ⟨b1, hb1, h1, hs1, hother1, hfresh1⟩ := add_spec (h.congr hset)
    (by unfold Fresh; rw [hset]; exact hs) start id sfi flagmask flags true
  obtain ⟨b2, hb2, h2, hl2, hother2, -⟩ := add_spec h1
    (hfresh1 l hne.symm (by unfold Fresh; rw [hset]; exact hl)) start 0 lfi flagmask 0 false
  have hset2 := marks_set b2 b.updating
  obtain ⟨h3, hfind3, -⟩ := insert_spec (h2.congr hset2) start hlen
  have hlpc : l ≠ pc := h2.ne hl2
  obtain ⟨h4, hself4, hother4, -⟩ := movePoint_spec h3 hlpc (-1)
  have hl3 : markOf (editInsert (editSetPropchangeUpdates b2 b.updating) start len) l =
      some ⟨l, start + len, false⟩ := by
    rw [hfind3, markOf_congr hset2, hl2, Option.map_some]
    simp [insertMark]
  refine ⟨b1, b2, hb1, hb2, ?_⟩
  rintro b3 rfl
  refine ⟨h4, ?_, ?_, ?_⟩
  · rw [hother4 s hne, hfind3, markOf_congr hset2, hother2 s hne, hs1, Option.map_some]
    simp [insertMark]
  · rw [hself4 _ hl3]
    congr 2
    dsimp only
    omega
  · intro id' m hm
    have hids : id' ≠ s := hs.ne hm
    have hidl : id' ≠ l := hl.ne hm
    rw [hother4 id' hidl, hfind3, markOf_congr hset2, hother2 id' hidl, hother1 id' hids,
      markOf_congr hset, hm, Option.map_some]

/-- The new block is linked in behind those that start before it. -/
theorem link_spec (hhead : Headed b pc) (h1 : Placed ls b off bl1) (h2 : Placed ls b off' bl2)
    (hbefore : ∀ p ∈ bl1, lineStart ls p.2 + off + total bl1 ≤ point)
    (hbehind : ∀ p ∈ bl2, point ≤ lineStart ls p.2 + off') :
    linkEditblock b point eb ((bl1 ++ bl2).map Prod.fst) =
      some (bl1.map Prod.fst ++ eb :: bl2.map Prod.fst) := by
  induction bl1 generalizing off with
  | nil =>
    cases bl2 with
    | nil => rfl
    | cons p bl2 =>
      obtain ⟨eb2, n⟩ := p
      rw [List.nil_append, List.map_cons, linkEditblock, hhead.point h2.2.1]
      dsimp only [Option.bind_eq_bind, Option.bind_some]
      rw [if_pos (hbehind _ List.mem_cons_self)]
      rfl
  | cons p bl1 ih =>
    obtain ⟨eb2, n⟩ := p
    obtain ⟨hlen, hstart, -, hrest⟩ := h1
    have hfirst := hbefore _ List.mem_cons_self
    rw [total_cons] at hbefore hfirst
    rw [List.cons_append, List.map_cons, linkEditblock, hhead.point hstart]
    dsimp only [Option.bind_eq_bind, Option.bind_some] at hfirst ⊢
    rw [if_neg (by omega), ih hrest]
    · rfl
    · intro q hq
      have := hbefore q (List.mem_cons_of_mem _ hq)
      dsimp only at this
      omega

theorem apart_middle {bl1 bl2 : List (Editblock × Nat)} {p : Editblock × Nat} :
    (bl1 ++ p :: bl2).Pairwise (fun p q => Apart p.1 q.1) ↔
      (∀ q ∈ bl1 ++ bl2, Apart p.1 q.1) ∧
        (bl1 ++ bl2).Pairwise fun p q => Apart p.1 q.1 := by
  rw [List.pairwise_middle fun h => h.symm, List.pairwise_cons]

theorem mem_middle {α : Type} {l1 l2 : List α} {a x : α} (h : x ∈ l1 ++ l2) :
    x ∈ l1 ++ a :: l2 := by
  rw [List.mem_append] at h ⊢
  exact h.imp_right fun hx => List.mem_cons_of_mem a hx

theorem Placed.marks (h : Placed ls b off bl) {p : Editblock × Nat} (hp : p ∈ bl) :
    ∃ m1 m2, markOf b p.1.startpc = some m1 ∧ markOf b p.1.limpc = some m2 := by
  induction bl generalizing off with
  | nil => exact absurd hp (by simp)
  | cons q bl ih =>
    obtain ⟨eb2, n⟩ := q
    rcases List.mem_cons.mp hp with rfl | hp
    · exact ⟨_, _, h.2.1, h.2.2.1⟩
    · exact ih h.2.2.2 hp

theorem Inv.add (h : Inv file sb pc bl) (hn : n < (lines newline file).length)
    (hlen : 0 < eb.text.length) (hid : ∀ p ∈ bl, p.1.id ≠ eb.id) (hne : eb.startpc ≠ eb.limpc)
    (hs : Fresh sb.buffer eb.startpc) (hl : Fresh sb.buffer eb.limpc)
    (flagmask flags : BitVec 32) (sfi lfi : Nat) :
    ∃ sb' bl', srcbufAddEditblock sb n flagmask flags sfi lfi eb = some sb' ∧
      Inv file sb' pc bl' := by
  obtain ⟨bl1, bl2, rfl, hle, hgt⟩ := split_at_line h.sorted n
  obtain ⟨hp1, hp2⟩ := placed_append.mp h.placed
  rw [Nat.zero_add] at hp2
  set ls := lines newline file with hls
  have hshift : shift (bl1 ++ bl2) n = total bl1 := by
    rw [shift_append, shift_of_le hle, shift_of_lt hgt, Nat.add_zero]
  have hrange := h.range hn
  rw [hshift] at hrange
  set start := lineStart ls n + total bl1 with hstart
  obtain ⟨b1, b2, hb1, hb2, hb3⟩ := add_buffer h.headed hs hl hne start eb.id sfi lfi flagmask flags
    hlen
  obtain ⟨hhead, hs3, hl3, hother⟩ := hb3 _ rfl
  set b3 := editMovePropchangePoint
    (editInsert (editSetPropchangeUpdates b2 sb.buffer.updating) start eb.text.length) eb.limpc (-1)
  -- The blocks before the new one stay, and those behind it go up
  have hp1' : Placed ls b3 0 bl1 := by
    refine hp1.move fun p hp id _ m hm _ hto => ?_
    have hmono := lineStart_mono ls (hle p hp)
    rw [hother id m hm, insertMark, if_pos (Or.inl (by omega))]
    congr 2
  have hbehind : ∀ p ∈ bl2, lineStart ls n < lineStart ls p.2 := fun p hp =>
    lineStart_lt (lines_ne_nil newline file) hn (hgt p hp)
  have hp2' : Placed ls b3 (total bl1 + eb.text.length) bl2 := by
    refine hp2.move fun p hp id _ m hm hfrom _ => ?_
    have hlt := hbehind p hp
    rw [hother id m hm, insertMark, if_neg (by omega)]
    congr 2
    omega
  have hlink : linkEditblock b3 start eb sb.eblist =
      some (bl1.map Prod.fst ++ eb :: bl2.map Prod.fst) := by
    rw [h.eblist]
    refine link_spec hhead hp1' hp2' ?_ ?_
    · intro p hp
      have hmono := lineStart_mono ls (hle p hp)
      omega
    · intro p hp
      have hlt := hbehind p hp
      omega
  have hlength := h.length
  rw [total_append] at hlength
  have hstartle : start ≤ sb.text.length := by
    have hle := lineStart_le file (Nat.le_of_lt hn)
    rw [← hls] at hle
    omega
  refine ⟨{ sb with
    buffer := b3
    text := edit sb.text (.insert start eb.text)
    eblist := bl1.map Prod.fst ++ eb :: bl2.map Prod.fst }, bl1 ++ (eb, n) :: bl2, ?_, ?_⟩
  · unfold srcbufAddEditblock
    rw [hrange]
    dsimp only [Option.bind_eq_bind, Option.bind_some]
    rw [hb1, Option.bind_some, hb2, Option.bind_some]
    change (linkEditblock b3 start eb sb.eblist).bind _ = _
    rw [hlink]
    rfl
  · have htext : edit sb.text (.insert start eb.text) =
        sb.text.take start ++ eb.text ++ sb.text.drop start := by
      change sb.text.take (min start _) ++ _ ++ sb.text.drop (min start _) = _
      rw [Nat.min_eq_left hstartle]
    refine ⟨by simp, h.linetab, h.num, hhead, ?_, ?_, ?_, ?_, ?_, ?_, ?_⟩
    · rw [placed_append, Nat.zero_add]
      refine ⟨hp1', hlen, hs3, ?_, hp2'⟩
      rw [hl3]
    · have hsorted := List.pairwise_append.mp h.sorted
      rw [List.pairwise_append, List.pairwise_cons]
      refine ⟨hsorted.1, ⟨fun p hp => Nat.le_of_lt (hgt p hp), hsorted.2.1⟩, ?_⟩
      intro p hp q hq
      rcases List.mem_cons.mp hq with rfl | hq
      · exact hle p hp
      · exact hsorted.2.2 p hp q hq
    · intro p hp
      rw [List.mem_append, List.mem_cons] at hp
      rcases hp with hp | rfl | hp
      · exact h.line p (List.mem_append_left _ hp)
      · exact hn
      · exact h.line p (List.mem_append_right _ hp)
    · rw [apart_middle]
      refine ⟨fun q hq => ?_, h.apart⟩
      obtain ⟨m1, m2, hm1, hm2⟩ := h.placed.marks hq
      exact ⟨(hid q hq).symm, (hs.ne hm1).symm, (hs.ne hm2).symm, (hl.ne hm1).symm,
        (hl.ne hm2).symm⟩
    · intro p hp
      rw [List.mem_append, List.mem_cons] at hp
      rcases hp with hp | rfl | hp
      · exact h.own p (List.mem_append_left _ hp)
      · exact hne
      · exact h.own p (List.mem_append_right _ hp)
    · dsimp only
      rw [htext, total_append, total_cons, List.length_append, List.length_append,
        List.length_take, List.length_drop]
      dsimp only
      omega
    · intro k l hk
      dsimp only
      rw [htext, shift_middle, ← hls]
      have hold := h.piece k l hk
      rw [← hls] at hold hk
      by_cases hnk : n ≤ k
      · have hmono := lineStart_mono ls hnk
        have hall : total bl1 ≤ shift (bl1 ++ bl2) k := by
          rw [shift_append, shift_of_le fun p hp => Nat.le_trans (hle p hp) hnk]
          omega
        rw [if_pos hnk, ← Nat.add_assoc, piece_behind_insert (by omega) hstartle]
        exact hold
      · have hmono := lineStart_mono ls (show k + 1 ≤ n by omega)
        have hsucc := lineStart_succ hk
        have hnone : shift (bl1 ++ bl2) k ≤ total bl1 := by
          have hbehind : shift bl2 k = 0 := shift_of_lt fun p hp => by have := hgt p hp; omega
          rw [shift_append, hbehind]
          exact total_split bl1 k
        rw [if_neg hnk, Nat.add_zero, piece_before_insert (by omega) hstartle]
        exact hold

/-! ## Removing a block -/

theorem Inv.remove (h : Inv file sb pc bl) (heb : eb ∈ sb.eblist) :
    ∃ sb' bl', srcbufRemoveEditblock sb eb = some sb' ∧ Inv file sb' pc bl' := by
  rw [h.eblist] at heb
  obtain ⟨⟨_, n⟩, hp, rfl⟩ := List.mem_map.mp heb
  rename_i eb
  obtain ⟨bl1, bl2, rfl⟩ := List.append_of_mem hp
  set ls := lines newline file with hls
  obtain ⟨hp1, hlen, hs, hl, hp2⟩ := placed_append.mp h.placed
  rw [Nat.zero_add, ← hls] at hs hl hp2
  obtain ⟨hapart, hapart'⟩ := apart_middle.mp h.apart
  have hown : eb.startpc ≠ eb.limpc := h.own _ hp
  obtain ⟨hsorted1, hsorted2, hsorted12⟩ := List.pairwise_append.mp h.sorted
  have hle : ∀ p ∈ bl1, p.2 ≤ n := fun p hp => hsorted12 p hp _ List.mem_cons_self
  have hge : ∀ p ∈ bl2, n ≤ p.2 := (List.pairwise_cons.mp hsorted2).1
  have hn : n < ls.length := h.line _ hp
  set start := lineStart ls n + total bl1 with hstart
  have hcount : start + eb.text.length - 1 - start + 1 = eb.text.length := by omega
  -- The changes of the block are deleted
  have hset := marks_set sb.buffer false
  obtain ⟨b1, hb1, h1, hother1, -⟩ := delete_spec (h.headed.congr hset)
    ((markOf_congr hset _).trans hs)
  obtain ⟨b2, hb2, h2, hother2, -⟩ := delete_spec h1
    ((hother1 _ hown.symm).trans ((markOf_congr hset _).trans hl))
  have hset2 := marks_set b2 sb.buffer.updating
  obtain ⟨h3, hfind3, -⟩ := deleteText_spec (h2.congr hset2) start eb.text.length
  set b3 := editDelete (editSetPropchangeUpdates b2 sb.buffer.updating) start eb.text.length
  have hmark : ∀ p ∈ bl1 ++ bl2, ∀ id, id = p.1.startpc ∨ id = p.1.limpc → ∀ m,
      markOf sb.buffer id = some m → markOf b3 id = some (deleteMark start eb.text.length m) := by
    intro p hp id hid m hm
    have ha := hapart p hp
    have hids : id ≠ eb.startpc := by
      rcases hid with rfl | rfl
      · exact ha.starts.symm
      · exact ha.start_lim.symm
    have hidl : id ≠ eb.limpc := by
      rcases hid with rfl | rfl
      · exact ha.lim_start.symm
      · exact ha.lims.symm
    rw [hfind3, markOf_congr hset2, hother2 id hidl, hother1 id hids, markOf_congr hset, hm,
      Option.map_some]
  have hp1' : Placed ls b3 0 bl1 := by
    refine hp1.move fun p hp id hid m hm _ hto => ?_
    have hmono := lineStart_mono ls (hle p hp)
    rw [← hls] at hto
    rw [hmark p (List.mem_append_left _ hp) id hid m hm, deleteMark, if_pos (by omega)]
    congr 2
  have hp2' : Placed ls b3 (total bl1) bl2 := by
    refine hp2.move fun p hp id hid m hm hfrom _ => ?_
    have hmono := lineStart_mono ls (hge p hp)
    rw [hmark p (List.mem_append_right _ hp) id hid m hm, deleteMark, if_neg (by omega),
      if_neg (by omega)]
    congr 2
    omega
  have hlength := h.length
  rw [total_append, total_cons] at hlength
  dsimp only at hlength
  have hstartle : start + eb.text.length ≤ sb.text.length := by
    have hle := lineStart_le file (Nat.le_of_lt hn)
    rw [← hls] at hle
    omega
  have herase : (sb.eblist.eraseP (·.id == eb.id)) = (bl1 ++ bl2).map Prod.fst := by
    rw [h.eblist, List.map_append, List.map_cons, List.eraseP_append_right,
      List.eraseP_cons_of_pos (by simp), List.map_append]
    intro e he
    obtain ⟨p, hp, rfl⟩ := List.mem_map.mp he
    simpa using (hapart p (List.mem_append_left _ hp)).id.symm
  refine ⟨{ sb with
    buffer := b3
    text := edit sb.text (.delete start eb.text.length)
    eblist := sb.eblist.eraseP (·.id == eb.id) }, bl1 ++ bl2, ?_, ?_⟩
  · unfold srcbufRemoveEditblock
    rw [h.headed.point hs, h.headed.point hl]
    dsimp only [Option.bind_eq_bind, Option.bind_some]
    rw [hb1, Option.bind_some, hb2, Option.bind_some, hcount, if_pos]
    rw [h.eblist, List.any_eq_true]
    exact ⟨eb, by simp, by simp⟩
  · have htext : edit sb.text (.delete start eb.text.length) =
        sb.text.take start ++ sb.text.drop (start + eb.text.length) := rfl
    refine ⟨herase, h.linetab, h.num, h3, ?_, ?_, ?_, hapart', ?_, ?_, ?_⟩
    · rw [placed_append, Nat.zero_add]
      exact ⟨hp1', hp2'⟩
    · rw [List.pairwise_append]
      exact ⟨hsorted1, (List.pairwise_cons.mp hsorted2).2,
        fun p hp q hq => hsorted12 p hp q (List.mem_cons_of_mem _ hq)⟩
    · exact fun p hp => h.line p (mem_middle hp)
    · exact fun p hp => h.own p (mem_middle hp)
    · dsimp only
      rw [htext, total_append, List.length_append, List.length_take, List.length_drop]
      omega
    · intro k l hk
      dsimp only
      have hold := h.piece k l hk
      rw [shift_middle, ← hls] at hold
      rw [← hls] at hk
      rw [htext, ← hls]
      by_cases hnk : n ≤ k
      · have hmono := lineStart_mono ls hnk
        have hall : total bl1 ≤ shift (bl1 ++ bl2) k := by
          rw [shift_append, shift_of_le fun p hp => Nat.le_trans (hle p hp) hnk]
          omega
        rw [if_pos hnk, ← Nat.add_assoc] at hold
        have hfar : start + eb.text.length ≤
            lineStart ls k + shift (bl1 ++ bl2) k + eb.text.length := by omega
        have hbehind := piece_behind_delete (t := sb.text) hfar (by omega)
        rw [Nat.add_sub_cancel] at hbehind
        rw [hbehind]
        exact hold
      · have hmono := lineStart_mono ls (show k + 1 ≤ n by omega)
        have hsucc := lineStart_succ hk
        have hnone : shift (bl1 ++ bl2) k ≤ total bl1 := by
          have hbehind : shift bl2 k = 0 := shift_of_lt fun p hp => by have := hge p hp; omega
          rw [shift_append, hbehind]
          exact total_split bl1 k
        rw [if_neg hnk, Nat.add_zero] at hold
        rw [piece_before_delete (by omega) (by omega)]
        exact hold

/-! ## The law -/

theorem Inv.exec {op : Op} (h : Inv file sb pc bl) (hlegal : Legal sb op) :
    ∃ sb' bl', op.exec sb = some sb' ∧ Inv file sb' pc bl' := by
  cases op with
  | add fil_lnum flagmask flags sfi lfi eb =>
    obtain ⟨hfrom, hto, htext, hid, hne, hfresh⟩ := hlegal
    obtain ⟨n, rfl⟩ := Int.eq_ofNat_of_zero_le hfrom
    rw [h.num] at hto
    have hlen : 0 < eb.text.length := by
      apply List.length_pos_of_ne_nil
      rintro hc
      rw [hc] at htext
      cases htext
    refine h.add (by omega) hlen ?_ hne ?_ ?_ flagmask flags sfi lfi
    · intro p hp
      apply hid
      rw [h.eblist]
      exact List.mem_map_of_mem hp
    · intro m hm
      obtain ⟨x, hx, rfl⟩ := List.mem_map.mp hm
      exact (hfresh x hx).1
    · intro m hm
      obtain ⟨x, hx, rfl⟩ := List.mem_map.mp hm
      exact (hfresh x hx).2
  | remove eb => exact h.remove hlegal

theorem inv_of_reaches (h : Reaches file sb) : ∃ pc bl, Inv file sb pc bl := by
  induction h with
  | visit pc fi flags => exact ⟨pc, [], Inv.visit file pc fi flags⟩
  | call op run legal step ih =>
    obtain ⟨pc, bl, hinv⟩ := ih
    obtain ⟨sb', bl', hexec, hinv'⟩ := hinv.exec legal
    rw [step] at hexec
    cases hexec
    exact ⟨pc, bl', hinv'⟩

/-- After any run of calls, a line and the points of its range map to each other exactly when it is
not the last line of the file; and the next call comes back. -/
theorem lines_and_points_map_to_each_other_but_on_the_last_line {file : List Byte} {sb : Srcbuf}
    (h : Reaches file sb) :
    (∀ lnum, lnum < (lines newline file).length →
      (MapsBack file sb lnum ↔ lnum + 1 < (lines newline file).length)) ∧
      ∀ op, Legal sb op → ∃ sb', op.exec sb = some sb' := by
  obtain ⟨pc, bl, hinv⟩ := inv_of_reaches h
  refine ⟨fun lnum hlnum => hinv.mapsBack_iff hlnum, fun op hlegal => ?_⟩
  obtain ⟨sb', -, hexec, -⟩ := hinv.exec hlegal
  exact ⟨sb', hexec⟩

/-- `a`, a newline and `b`. -/
def twoLines : List Byte := [97#8, 10#8, 98#8]

theorem two_lines_on_display :
    (∀ lnum, lnum < (lines newline twoLines).length →
      (MapsBack twoLines (srcbufVisitFile twoLines 1 1 0) lnum ↔
        lnum + 1 < (lines newline twoLines).length)) ∧
      ∀ op, Legal (srcbufVisitFile twoLines 1 1 0) op →
        ∃ sb', op.exec (srcbufVisitFile twoLines 1 1 0) = some sb' :=
  lines_and_points_map_to_each_other_but_on_the_last_line (Reaches.visit 1 1 0)

/-- The only point of the second line is not found to be on any line. -/
theorem a_point_of_the_last_line_is_on_no_line :
    ¬∀ file sb, Reaches file sb → ∀ lnum, lnum < (lines newline file).length →
      MapsBack file sb lnum := by
  intro h
  obtain ⟨start, lim, hrange, hall⟩ :=
    h twoLines (srcbufVisitFile twoLines 1 1 0) (Reaches.visit 1 1 0) 1 (by decide)
  have hbounds : srcbufFileLnumToPointRange (srcbufVisitFile twoLines 1 1 0) 1 =
      some (some (2, 3)) := by decide
  have hsame := hrange.1.symm.trans hbounds
  injection hsame with hsame
  injection hsame with hsame
  injection hsame with hstart hlim
  subst hstart hlim
  exact absurd (hall 2 (by decide) (by decide)) (by decide)

end ups_rules.srcbuf
