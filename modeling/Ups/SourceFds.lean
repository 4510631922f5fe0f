-- The descriptors of the source files (so.c). There are more files than descriptors: the one that
-- was used least recently is closed for another file, and opened again when it is read.
import Mathlib.Algebra.Order.BigOperators.Group.List
import Mathlib.Algebra.Order.Group.Nat
import Mathlib.Algebra.Ring.Int.Defs
import Mathlib.Algebra.Ring.Nat
import Mathlib.Data.List.Nodup
import Mathlib.Data.List.ReduceOption
import Mathlib.Logic.Function.Basic

namespace ups_rules.source_fds

/-! ## The pure model -/

def MAXFDS : Nat := 10

/-- `mfd_t`; `none` stands for the descriptor -1. -/
structure Mfd where
  mf_fd : Option Nat
  mf_name : String
  mf_last_used : Int
deriving DecidableEq

/-- A system call on a descriptor for the file `name`, and the name that the descriptor was open on
then, if any. -/
structure Use where
  fd : Nat
  name : String
  target : Option String
deriving DecidableEq

/-- `Mfdtab`, the files that there are, `Use_time`, and what the system knows: the descriptors that
are open, how many were open at once at most, and the calls so far. -/
structure State where
  mfdtab : List (Option Nat)
  mfds : Nat → Option Mfd
  use_time : Nat
  opened : List (Nat × String)
  peak : Nat
  uses : List Use

/-- The descriptor that `open` gives is not open yet. -/
structure System where
  alloc : List Nat → Nat
  fresh : ∀ fds, alloc fds ∉ fds

def start : State := ⟨List.replicate MAXFDS none, fun _ => none, 0, [], 0, []⟩

def sysOpen (k : System) (s : State) (name : String) : Nat × State :=
  let fd := k.alloc (s.opened.map (·.1))
  (fd, { s with
    opened := (fd, name) :: s.opened
    peak := max s.peak (s.opened.length + 1) })

def State.use (s : State) (fd : Nat) (name : String) : State :=
  { s with uses := ⟨fd, name, (s.opened.find? (·.1 == fd)).map (·.2)⟩ :: s.uses }

def sysClose (s : State) (fd : Nat) (name : String) : State :=
  { s.use fd name with opened := s.opened.filter (·.1 != fd) }

def State.setMfd (s : State) (id : Nat) (mf : Mfd) : State :=
  { s with mfds := Function.update s.mfds id (some mf) }

inductive Slot where
  | free (i : Nat)
  | full (oldest : Nat)
deriving DecidableEq

/-- The loop of `get_fd_slot` -/
def slotLoop (mfds : Nat → Option Mfd) : List (Option Nat) → Nat → Nat → Int → Slot
  | [], _, oldest, _ => .full oldest
  | none :: _, i, _, _ => .free i
  | some id :: tab, i, oldest, oldest_time =>
    let last_used := ((mfds id).map (·.mf_last_used)).getD 0
    if last_used < oldest_time then slotLoop mfds tab (i + 1) i last_used
    else slotLoop mfds tab (i + 1) oldest oldest_time

/-- The descriptor of the file in a slot is taken away from it. -/
def takeAway (s : State) (id : Nat) : State :=
  match s.mfds id with
  | none => s
  | some mf =>
    let s := match mf.mf_fd with
      | none => s
      | some fd => sysClose s fd mf.mf_name
    s.setMfd id { mf with mf_fd := none }

def getFdSlot (s : State) (id : Nat) : State :=
  match slotLoop s.mfds s.mfdtab 0 0 s.use_time with
  | .free i => { s with mfdtab := s.mfdtab.set i (some id) }
  | .full oldest =>
    let s := match s.mfdtab.getD oldest none with
      | none => s
      | some old => takeAway s old
    { s with mfdtab := s.mfdtab.set oldest (some id) }

/-- `none` is a panic. -/
def freeFdSlot (s : State) (id : Nat) : Option State :=
  match s.mfdtab.findIdx? (· == some id) with
  | none => none
  | some i => some { s with mfdtab := s.mfdtab.set i none }

def closeMfd (s : State) (id : Nat) (mf : Mfd) : Option State := do
  let s ← match mf.mf_fd with
    | none => some s
    | some fd => freeFdSlot (sysClose s fd mf.mf_name) id
  return { s with mfds := Function.update s.mfds id none }

/-- The descriptor of a file, which is opened again if it has none. -/
def reopen (k : System) (s : State) (id : Nat) (mf : Mfd) : Nat × State :=
  match mf.mf_fd with
  | some fd => (fd, s)
  | none =>
    let r := sysOpen k (getFdSlot s id) mf.mf_name
    (r.1, r.2.setMfd id { mf with mf_fd := some r.1 })

/-- An `int` -/
def lastUsed (use_time : Nat) : Int := (use_time : Int).bmod (2 ^ 32)

def getInputFromMfd (k : System) (s : State) (id : Nat) (mf : Mfd) : State :=
  let r := reopen k s id mf
  let s := r.2.setMfd id { mf with mf_fd := some r.1, mf_last_used := lastUsed r.2.use_time }
  { s with use_time := s.use_time + 1 }.use r.1 mf.mf_name

def getMfdInfo (k : System) (s : State) (id : Nat) (mf : Mfd) : State :=
  let r := reopen k s id mf
  r.2.use r.1 mf.mf_name

/-- The names are the ones that are tried, each with whether it can be opened. -/
def soOpenFile (k : System) (s : State) (id : Nat) (names : List (String × Bool)) : State :=
  match names.find? (·.2) with
  | none => s
  | some (nbuf, _) =>
    let r := sysOpen k s nbuf
    let s := getFdSlot r.2 id
    { s.setMfd id ⟨some r.1, nbuf, lastUsed s.use_time⟩ with use_time := s.use_time + 1 }

inductive Call where
  | so_open_file (id : Nat) (names : List (String × Bool))
  | get_input_from_mfd (id : Nat)
  | get_mfd_info (id : Nat)
  | close_mfd (id : Nat)

def Call.exec (k : System) (s : State) : Call → Option State
  | .so_open_file id names => some (soOpenFile k s id names)
  | .get_input_from_mfd id => (s.mfds id).map (getInputFromMfd k s id)
  | .get_mfd_info id => (s.mfds id).map (getMfdInfo k s id)
  | .close_mfd id => (s.mfds id).bind (closeMfd s id)

def run (k : System) : State → List Call → Option State
  | s, [] => some s
  | s, c :: calls => (c.exec k s).bind fun s => run k s calls

/-- A new file is at a new place, and the other calls are for files that there are. -/
def Call.Legal (s : State) : Call → Prop
  | .so_open_file id _ => s.mfds id = none
  | .get_input_from_mfd id | .get_mfd_info id | .close_mfd id => ∃ mf, s.mfds id = some mf

def LegalRun (k : System) : State → List Call → Prop
  | _, [] => True
  | s, c :: calls => c.Legal s ∧ ∀ s', c.exec k s = some s' → LegalRun k s' calls

/-! ## What the table has to be -/

/-- `mf_fd` of a file. -/
def State.fdOf (s : State) (id : Nat) : Option Nat := (s.mfds id).bind (·.mf_fd)

/-- The table holds the files that have a descriptor, each of them once, and these descriptors are
the ones that are open, each on the name of its file. Every call so far was for a descriptor that
was open on the name of the file that it was for. -/
structure Exact (s : State) : Prop where
  slots : s.mfdtab.length = MAXFDS
  once : s.mfdtab.reduceOption.Nodup
  holds : ∀ i, some i ∈ s.mfdtab ↔ s.fdOf i ≠ none
  recorded : ∀ fd name, (fd, name) ∈ s.opened ↔
    ∃ i mf, s.mfds i = some mf ∧ mf.mf_fd = some fd ∧ mf.mf_name = name
  distinct : (s.opened.map (·.1)).Nodup
  own : ∀ i j, s.fdOf i = s.fdOf j → s.fdOf i ≠ none → i = j
  uses : ∀ u ∈ s.uses, u.target = some u.name

/-- A file is not opened while all slots are taken. -/
def Call.Room (s : State) : Call → Prop
  | .so_open_file _ names => (∃ n ∈ names, n.2 = true) → none ∈ s.mfdtab
  | _ => True

def RoomRun (k : System) : State → List Call → Prop
  | _, [] => True
  | s, c :: calls => c.Room s ∧ ∀ s', c.exec k s = some s' → RoomRun k s' calls

/-! ## The invariant -/

/-- In the middle of a call `p` is in the table without a descriptor, and `x` is open without a
file. -/
structure Inv (p : Option Nat) (x : Option (Nat × String)) (s : State) : Prop where
  slots : s.mfdtab.length = MAXFDS
  once : s.mfdtab.reduceOption.Nodup
  holds : ∀ i, some i ∈ s.mfdtab ↔ s.fdOf i ≠ none ∨ p = some i
  pending : ∀ i, p = some i → s.fdOf i = none
  recorded : ∀ fd name, (fd, name) ∈ s.opened ↔ x = some (fd, name) ∨
    ∃ i mf, s.mfds i = some mf ∧ mf.mf_fd = some fd ∧ mf.mf_name = name
  distinct : (s.opened.map (·.1)).Nodup
  own : ∀ i j, s.fdOf i = s.fdOf j → s.fdOf i ≠ none → i = j
  foreign : ∀ i fd, s.fdOf i = some fd → ∀ y ∈ x, y.1 ≠ fd
  uses : ∀ u ∈ s.uses, u.target = some u.name
  count : s.opened.length + p.toList.length = s.mfdtab.reduceOption.length + x.toList.length

section
variable {k : System} {s : State} {p p' : Option Nat} {x : Option (Nat × String)} {id : Nat}
  {mf : Mfd}

theorem Inv.exact (h : Inv none none s) : Exact s := by
  refine ⟨h.slots, h.once, fun i => ?_, fun fd name => ?_, h.distinct, h.own, h.uses⟩
  · simpa using h.holds i
  · simpa using h.recorded fd name

/-- What is open on a descriptor. -/
theorem Inv.target (h : Inv p x s) {fd : Nat} {name : String} (hopen : (fd, name) ∈ s.opened) :
    (s.opened.find? (·.1 == fd)).map (·.2) = some name := by
  cases hfind : s.opened.find? (·.1 == fd) with
  | none =>
    rw [List.find?_eq_none] at hfind
    exact absurd (hfind _ hopen) (by simp)
  | some y =>
    have hmem : y ∈ s.opened := List.mem_of_find?_eq_some hfind
    have hfd : y.1 = fd := by simpa using List.find?_some hfind
    rw [List.inj_on_of_nodup_map h.distinct hmem hopen hfd]
    rfl

theorem fdOf_eq (hmf : s.mfds id = some mf) : s.fdOf id = mf.mf_fd := by
  unfold State.fdOf
  rw [hmf]
  rfl

/-- A call on the descriptor of a file. -/
theorem Inv.use (h : Inv p x s) (hmf : s.mfds id = some mf) {fd : Nat}
    (hfd : mf.mf_fd = some fd) : Inv p x (s.use fd mf.mf_name) := by
  refine ⟨h.slots, h.once, h.holds, h.pending, h.recorded, h.distinct, h.own, h.foreign, ?_, h.count⟩
  intro u hu
  rcases List.mem_cons.mp hu with rfl | hu
  · exact h.target ((h.recorded fd mf.mf_name).mpr (.inr ⟨id, mf, hmf, hfd, rfl⟩))
  · exact h.uses u hu

theorem fdOf_setMfd (s : State) (id : Nat) (mf : Mfd) (i : Nat) :
    (s.setMfd id mf).fdOf i = if i = id then mf.mf_fd else s.fdOf i := by
  unfold State.fdOf State.setMfd
  dsimp only
  rw [Function.update_apply]
  split <;> rfl

/-- The file of the slot that is looked at is changed: the slot is filled, freed, or given away. -/
theorem Inv.slot (h : Inv p x s) {a b : List (Option Nat)} (htab : s.mfdtab = a ++ p :: b)
    (hp : ∀ i, p' = some i → s.fdOf i = none) :
    Inv p' x { s with mfdtab := a ++ p' :: b } := by
  have honce := h.once
  have hcount := h.count
  have hslots := h.slots
  have hsplit : ∀ o : Option Nat,
      (a ++ o :: b).reduceOption = a.reduceOption ++ (o.toList ++ b.reduceOption) := by
    intro o
    rw [List.reduceOption_append]
    cases o <;> rfl
  rw [htab, hsplit] at honce hcount
  rw [htab] at hslots
  have hmem : ∀ i, some i ∈ a ∨ some i ∈ b ↔ s.fdOf i ≠ none := by
    intro i
    have hholds := h.holds i
    rw [htab, List.mem_append, List.mem_cons] at hholds
    constructor
    · intro hi
      rcases hholds.mp (by tauto) with hfd | rfl
      · exact hfd
      · -- the file of the slot is nowhere else
        rw [Option.toList_some] at honce
        rcases hi with hi | hi
        · exact absurd rfl ((List.nodup_append.mp honce).2.2 i (List.reduceOption_mem_iff.mpr hi) i
            (by simp))
        · have hrest := (List.nodup_append.mp honce).2.1
          exact absurd (List.reduceOption_mem_iff.mpr hi) (List.nodup_cons.mp hrest).1
    · intro hfd
      rcases hholds.mpr (.inl hfd) with hi | hi | hi
      · exact .inl hi
      · exact absurd (h.pending i hi.symm) hfd
      · exact .inr hi
  have hholds' : ∀ i, some i ∈ a ++ p' :: b ↔ s.fdOf i ≠ none ∨ p' = some i := by
    intro i
    rw [List.mem_append, List.mem_cons, ← hmem i]
    constructor
    · rintro (hi | hi | hi)
      · exact .inl (.inl hi)
      · exact .inr hi.symm
      · exact .inl (.inr hi)
    · rintro ((hi | hi) | hi)
      · exact .inl hi
      · exact .inr (.inr hi)
      · exact .inr (.inl hi.symm)
  refine ⟨?_, ?_, hholds', hp, h.recorded, h.distinct, h.own, h.foreign, h.uses, ?_⟩
  · rw [← hslots]
    simp
  · rw [hsplit]
    have hrest : (a.reduceOption ++ b.reduceOption).Nodup :=
      honce.sublist ((List.sublist_append_right _ _).append_left _)
    cases p' with
    | none => simpa using hrest
    | some i =>
      rw [Option.toList_some, List.singleton_append]
      refine List.nodup_middle.mpr (List.nodup_cons.mpr ⟨?_, hrest⟩)
      intro hi
      rw [List.mem_append, List.reduceOption_mem_iff, List.reduceOption_mem_iff] at hi
      exact (hmem i).mp hi (hp i rfl)
  · rw [hsplit]
    rw [List.length_append, List.length_append] at hcount ⊢
    dsimp only
    omega

end

/-! ## The slots -/

/-- The loop finds a free slot, or the index of a slot if there is none. -/
theorem slotLoop_spec (mfds : Nat → Option Mfd) (tab : List (Option Nat)) (i oldest : Nat)
    (oldest_time : Int) :
    match slotLoop mfds tab i oldest oldest_time with
    | .free j => ∃ n, j = i + n ∧ tab[n]? = some none
    | .full o => none ∉ tab ∧ (o = oldest ∨ (i ≤ o ∧ o < i + tab.length)) := by
  induction tab generalizing i oldest oldest_time with
  | nil => exact ⟨List.not_mem_nil, .inl rfl⟩
  | cons o tab ih =>
    cases o with
    | none => exact ⟨0, rfl, rfl⟩
    | some id =>
      have hnext : ∀ oldest' time', (oldest' = oldest ∨ oldest' = i) →
          match slotLoop mfds tab (i + 1) oldest' time' with
          | .free j => ∃ n, j = i + n ∧ (some id :: tab)[n]? = some none
          | .full o => none ∉ some id :: tab ∧
              (o = oldest ∨ (i ≤ o ∧ o < i + (some id :: tab).length)) := by
        intro oldest' time' hold
        have hrest := ih (i + 1) oldest' time'
        cases hloop : slotLoop mfds tab (i + 1) oldest' time' with
        | free j =>
          rw [hloop] at hrest
          obtain ⟨n, hj, hn⟩ := hrest
          exact ⟨n + 1, by omega, hn⟩
        | full o =>
          rw [hloop] at hrest
          obtain ⟨hnone, ho⟩ := hrest
          refine ⟨by simpa using hnone, ?_⟩
          rw [List.length_cons]
          omega
      rw [slotLoop]
      by_cases hlt : ((mfds id).map (·.mf_last_used)).getD 0 < oldest_time
      · rw [if_pos hlt]
        exact hnext _ _ (.inr rfl)
      · rw [if_neg hlt]
        exact hnext _ _ (.inl rfl)

/-- A slot of a list, and the list with something else in it. -/
theorem set_slot {l : List (Option Nat)} {i : Nat} {o : Option Nat} (h : l[i]? = some o) :
    ∃ a b, l = a ++ o :: b ∧ ∀ o', l.set i o' = a ++ o' :: b := by
  obtain ⟨hi, rfl⟩ := List.getElem?_eq_some_iff.mp h
  refine ⟨l.take i, l.drop (i + 1), ?_, fun o' => ?_⟩
  · rw [← List.drop_eq_getElem_cons hi, List.take_append_drop]
  · rw [List.set_eq_take_append_cons_drop, if_pos hi]

section
variable {k : System} {s : State} {p p' : Option Nat} {x : Option (Nat × String)} {id : Nat}
  {mf : Mfd}

/-- A descriptor is closed. -/
theorem mem_sysClose (s : State) (fd : Nat) (name : String) {y : Nat × String} :
    y ∈ (sysClose s fd name).opened ↔ y ∈ s.opened ∧ y.1 ≠ fd := by
  unfold sysClose
  dsimp only
  rw [List.mem_filter]
  simp

theorem length_sysClose (hdistinct : (s.opened.map (·.1)).Nodup) {fd : Nat} (name : String)
    {name' : String} (hopen : (fd, name') ∈ s.opened) :
    (sysClose s fd name).opened.length + 1 = s.opened.length := by
  unfold sysClose
  dsimp only
  obtain ⟨a, b, hab⟩ := List.append_of_mem hopen
  rw [hab, List.map_append, List.map_cons] at hdistinct
  have hnot := (List.nodup_cons.mp (List.nodup_middle.mp hdistinct)).1
  rw [← List.map_append] at hnot
  have hall : ∀ l : List (Nat × String), (∀ y ∈ l, y ∈ a ++ b) →
      l.filter (·.1 != fd) = l := by
    intro l hl
    rw [List.filter_eq_self]
    intro y hy
    refine bne_iff_ne.mpr fun heq => hnot ?_
    exact List.mem_map.mpr ⟨y, hl y hy, heq⟩
  rw [hab, List.filter_append, List.filter_cons_of_neg (by simp),
    hall a fun y hy => List.mem_append_left b hy, hall b fun y hy => List.mem_append_right a hy]
  simp
  omega

/-- The file stays in its slot without a descriptor. -/
theorem Inv.takeAway (h : Inv none x s) (hid : some id ∈ s.mfdtab) :
    Inv (some id) x (takeAway s id) ∧ (takeAway s id).mfdtab = s.mfdtab ∧
      ∀ i, s.fdOf i = none → (source_fds.takeAway s id).fdOf i = none := by
  have hfd : s.fdOf id ≠ none := by simpa using (h.holds id).mp hid
  cases hmf : s.mfds id with
  | none =>
    unfold State.fdOf at hfd
    rw [hmf] at hfd
    exact absurd rfl hfd
  | some mf =>
    rw [fdOf_eq hmf] at hfd
    cases hmfd : mf.mf_fd with
    | none => exact absurd hmfd hfd
    | some fd =>
      have heq : source_fds.takeAway s id =
          (sysClose s fd mf.mf_name).setMfd id { mf with mf_fd := none } := by
        unfold source_fds.takeAway
        rw [hmf]
        dsimp only
        rw [hmfd]
      have hopen : (fd, mf.mf_name) ∈ s.opened :=
        (h.recorded fd mf.mf_name).mpr (.inr ⟨id, mf, hmf, hmfd, rfl⟩)
      have hof : ∀ i, (source_fds.takeAway s id).fdOf i = if i = id then none else s.fdOf i := by
        intro i
        rw [heq, fdOf_setMfd]
        rfl
      have hidfd : s.fdOf id = some fd := (fdOf_eq hmf).trans hmfd
      refine ⟨⟨?_, ?_, ?_, ?_, ?_, ?_, ?_, ?_, ?_, ?_⟩, by rw [heq]; rfl, ?_⟩
      · rw [heq]
        exact h.slots
      · rw [heq]
        exact h.once
      · intro i
        rw [hof, heq]
        refine (h.holds i).trans ?_
        by_cases hi : i = id
        · simp [hi, hidfd]
        · simp [hi, Ne.symm hi]
      · rintro i hi
        cases hi
        rw [hof, if_pos rfl]
      · intro fd' name
        rw [heq]
        refine (mem_sysClose s fd mf.mf_name).trans ?_
        rw [h.recorded]
        constructor
        · rintro ⟨hx | ⟨i, mf', hi, hfd', hname⟩, hne⟩
          · exact .inl hx
          · refine .inr ⟨i, mf', ?_, hfd', hname⟩
            have hii : i ≠ id := by
              rintro rfl
              cases hmf.symm.trans hi
              exact hne (Option.some.inj (hfd'.symm.trans hmfd))
            exact (Function.update_of_ne hii _ _).trans hi
        · rintro (hx | ⟨i, mf', hi, hfd', hname⟩)
          · exact ⟨.inl hx, h.foreign id fd hidfd _ hx⟩
          · by_cases hii : i = id
            · rw [hii] at hi
              cases (Function.update_self _ _ _).symm.trans hi
              cases hfd'
            · have hi' : s.mfds i = some mf' := (Function.update_of_ne hii _ _).symm.trans hi
              refine ⟨.inr ⟨i, mf', hi', hfd', hname⟩, fun hc => hii ?_⟩
              refine h.own i id ?_ ?_
              · rw [fdOf_eq hi', hidfd, hfd']
                exact congrArg some hc
              · rw [fdOf_eq hi', hfd']
                nofun
      · rw [heq]
        exact h.distinct.sublist (List.filter_sublist.map _)
      · intro i j hij hne
        rw [hof] at hij hne
        rw [hof] at hij
        by_cases hi : i = id
        · rw [if_pos hi] at hne
          exact absurd rfl hne
        · rw [if_neg hi] at hij hne
          by_cases hj : j = id
          · rw [if_pos hj] at hij
            exact absurd hij hne
          · rw [if_neg hj] at hij
            exact h.own i j hij hne
      · intro i fd' hi y hy
        rw [hof] at hi
        split at hi
        · cases hi
        · exact h.foreign i fd' hi y hy
      · rw [heq]
        exact (h.use hmf hmfd).uses
      · have hlength := length_sysClose h.distinct mf.mf_name hopen
        have hcount := h.count
        rw [heq]
        unfold State.setMfd
        dsimp only
        have htab : (sysClose s fd mf.mf_name).mfdtab = s.mfdtab := rfl
        rw [htab]
        simp only [Option.toList_none, List.length_nil, Option.toList_some, List.length_singleton]
          at hcount ⊢
        omega
      · intro i hi
        rw [hof]
        split
        · rfl
        · exact hi

theorem Inv.getFdSlot (h : Inv none x s) (hid : s.fdOf id = none) :
    Inv (some id) x (getFdSlot s id) := by
  have hloop := slotLoop_spec s.mfds s.mfdtab 0 0 s.use_time
  have hpending : ∀ i, some id = some i → s.fdOf i = none := by
    rintro i hi
    cases hi
    exact hid
  unfold source_fds.getFdSlot
  cases hslot : slotLoop s.mfds s.mfdtab 0 0 s.use_time with
  | free j =>
    rw [hslot] at hloop
    obtain ⟨n, rfl, hn⟩ := hloop
    rw [Nat.zero_add]
    obtain ⟨a, b, htab, hset⟩ := set_slot hn
    dsimp only
    rw [hset]
    exact h.slot htab hpending
  | full o =>
    rw [hslot] at hloop
    obtain ⟨hnone, ho⟩ := hloop
    have hlt : o < s.mfdtab.length := by
      have hslots := h.slots
      unfold MAXFDS at hslots
      omega
    dsimp only
    rw [List.getD_eq_getElem?_getD, List.getElem?_eq_getElem hlt, Option.getD_some]
    cases hold : s.mfdtab[o] with
    | none =>
      rw [← hold] at hnone
      exact absurd (List.getElem_mem hlt) hnone
    | some old =>
      dsimp only
      have hmem : some old ∈ s.mfdtab := by
        rw [← hold]
        exact List.getElem_mem hlt
      obtain ⟨haway, htab', hkeep⟩ := h.takeAway hmem
      have hat : (source_fds.takeAway s old).mfdtab[o]? = some (some old) := by
        rw [htab', List.getElem?_eq_getElem hlt, hold]
      obtain ⟨a, b, htab, hset⟩ := set_slot hat
      rw [hset]
      refine haway.slot htab fun i hi => ?_
      exact hkeep i (hpending i hi)

/-- A file is opened. -/
theorem Inv.sysOpen (h : Inv p none s) (name : String) :
    Inv p (some ((sysOpen k s name).1, name)) (sysOpen k s name).2 := by
  have hfresh := k.fresh (s.opened.map (·.1))
  have hne : ∀ fd name', (fd, name') ∈ s.opened → (source_fds.sysOpen k s name).1 ≠ fd := by
    rintro fd name' hmem rfl
    exact hfresh (List.mem_map.mpr ⟨_, hmem, rfl⟩)
  refine ⟨h.slots, h.once, h.holds, h.pending, ?_, ?_, h.own, ?_, h.uses, ?_⟩
  · intro fd name'
    have hrec := h.recorded fd name'
    unfold source_fds.sysOpen
    dsimp only
    rw [List.mem_cons, hrec]
    constructor
    · rintro (hhere | hx | hold)
      · exact .inl (congrArg some hhere.symm)
      · cases hx
      · exact .inr hold
    · rintro (hhere | hold)
      · exact .inl (Option.some.inj hhere).symm
      · exact .inr (.inr hold)
  · exact List.nodup_cons.mpr ⟨hfresh, h.distinct⟩
  · intro i fd hi y hy
    cases hy
    unfold State.fdOf at hi
    obtain ⟨mf, hmf, hfd⟩ := Option.bind_eq_some_iff.mp hi
    exact hne fd mf.mf_name ((h.recorded fd mf.mf_name).mpr (.inr ⟨i, mf, hmf, hfd, rfl⟩))
  · have hcount := h.count
    unfold source_fds.sysOpen
    dsimp only
    rw [List.length_cons]
    simp only [Option.toList_none, List.length_nil, Option.toList_some, List.length_singleton]
      at hcount ⊢
    omega

/-- The file gets the descriptor. -/
theorem Inv.adopt {fd : Nat} {name : String} (h : Inv (some id) (some (fd, name)) s) (mf : Mfd)
    (hfd : mf.mf_fd = some fd) (hname : mf.mf_name = name) : Inv none none (s.setMfd id mf) := by
  have hnone := h.pending id rfl
  refine ⟨h.slots, h.once, ?_, nofun, ?_, h.distinct, ?_, nofun, h.uses, ?_⟩
  · intro i
    rw [fdOf_setMfd]
    refine (h.holds i).trans ?_
    by_cases hi : i = id
    · simp [hi, hfd]
    · simp [hi, Ne.symm hi]
  · intro fd' name'
    refine (h.recorded fd' name').trans ?_
    constructor
    · rintro (hx | ⟨i, mf', hi, hfd', hname'⟩)
      · cases hx
        exact .inr ⟨id, mf, Function.update_self _ _ _, hfd, hname⟩
      · refine .inr ⟨i, mf', ?_, hfd', hname'⟩
        have hii : i ≠ id := by
          rintro rfl
          rw [fdOf_eq hi, hfd'] at hnone
          cases hnone
        exact (Function.update_of_ne hii _ _).trans hi
    · rintro (hx | ⟨i, mf', hi, hfd', hname'⟩)
      · cases hx
      · by_cases hii : i = id
        · rw [hii] at hi
          cases (Function.update_self _ _ _).symm.trans hi
          cases hfd.symm.trans hfd'
          rw [← hname', ← hname]
          exact .inl rfl
        · exact .inr ⟨i, mf', (Function.update_of_ne hii _ _).symm.trans hi, hfd', hname'⟩
  · intro i j hij hne
    rw [fdOf_setMfd] at hij hne
    rw [fdOf_setMfd] at hij
    by_cases hi : i = id
    · by_cases hj : j = id
      · rw [hi, hj]
      · rw [if_pos hi, if_neg hj, hfd] at hij
        exact absurd rfl (h.foreign j fd hij.symm _ rfl)
    · rw [if_neg hi] at hij hne
      by_cases hj : j = id
      · rw [if_pos hj, hfd] at hij
        exact absurd rfl (h.foreign i fd hij _ rfl)
      · rw [if_neg hj] at hij
        exact h.own i j hij hne
  · have hcount := h.count
    unfold State.setMfd
    dsimp only
    simp only [Option.toList_none, List.length_nil, Option.toList_some, List.length_singleton]
      at hcount ⊢
    omega

/-- The use time of a file changes. -/
theorem Inv.touch (h : Inv p x s) (hmf : s.mfds id = some mf) (mf' : Mfd)
    (hfd : mf'.mf_fd = mf.mf_fd) (hname : mf'.mf_name = mf.mf_name) :
    Inv p x (s.setMfd id mf') := by
  have hof : ∀ i, (s.setMfd id mf').fdOf i = s.fdOf i := by
    intro i
    rw [fdOf_setMfd]
    split
    · rename_i hi
      rw [hi, fdOf_eq hmf, hfd]
    · rfl
  refine ⟨h.slots, h.once, ?_, ?_, ?_, h.distinct, ?_, ?_, h.uses, h.count⟩
  · intro i
    rw [hof]
    exact h.holds i
  · intro i hi
    rw [hof]
    exact h.pending i hi
  · intro fd name
    refine (h.recorded fd name).trans (or_congr_right ?_)
    constructor
    · rintro ⟨i, m, hi, hm, hn⟩
      by_cases hii : i = id
      · rw [hii] at hi
        cases hmf.symm.trans hi
        exact ⟨id, mf', Function.update_self _ _ _, hfd.trans hm, hname.trans hn⟩
      · exact ⟨i, m, (Function.update_of_ne hii _ _).trans hi, hm, hn⟩
    · rintro ⟨i, m, hi, hm, hn⟩
      by_cases hii : i = id
      · rw [hii] at hi
        cases (Function.update_self _ _ _).symm.trans hi
        exact ⟨id, mf, hmf, hfd.symm.trans hm, hname.symm.trans hn⟩
      · exact ⟨i, m, (Function.update_of_ne hii _ _).symm.trans hi, hm, hn⟩
  · intro i j
    rw [hof, hof]
    exact h.own i j
  · intro i fd
    rw [hof]
    exact h.foreign i fd

end

/-! ## The calls -/

section
variable {k : System} {s : State} {id : Nat} {mf : Mfd}

theorem sysOpen_peak (k : System) (s : State) (name : String) :
    (sysOpen k s name).2.peak = max s.peak (s.opened.length + 1) := rfl

theorem takeAway_peak (s : State) (id : Nat) : (takeAway s id).peak = s.peak := by
  unfold takeAway
  split
  · rfl
  · dsimp only
    split <;> rfl

theorem getFdSlot_peak (s : State) (id : Nat) : (getFdSlot s id).peak = s.peak := by
  unfold getFdSlot
  split
  · rfl
  · dsimp only
    split
    · rfl
    · exact takeAway_peak s _

/-- Between two calls there are as many open descriptors as files in the table. -/
theorem Inv.length_opened (h : Inv none none s) :
    s.opened.length = s.mfdtab.reduceOption.length := h.count

theorem Inv.room (h : Inv none none s) : s.opened.length + 1 ≤ MAXFDS ↔ none ∈ s.mfdtab := by
  rw [h.length_opened, ← h.slots]
  exact List.reduceOption_length_lt_iff

/-- A file has a descriptor then, on its own name, and there are no more descriptors than slots. -/
theorem Inv.reopen (h : Inv none none s) (hmf : s.mfds id = some mf) :
    Inv none none (reopen k s id mf).2 ∧
      (source_fds.reopen k s id mf).2.mfds id =
        some { mf with mf_fd := some (source_fds.reopen k s id mf).1 } ∧
      ((source_fds.reopen k s id mf).2.peak ≤ MAXFDS ↔ s.peak ≤ MAXFDS) := by
  unfold source_fds.reopen
  cases hfd : mf.mf_fd with
  | some fd =>
    refine ⟨h, ?_, Iff.rfl⟩
    rw [hmf, ← hfd]
  | none =>
    have hslot := h.getFdSlot ((fdOf_eq hmf).trans hfd)
    have hopen := hslot.sysOpen (k := k) mf.mf_name
    refine ⟨hopen.adopt _ rfl rfl, Function.update_self _ _ _, ?_⟩
    have hcount := hslot.count
    have hle := List.reduceOption_length_le (source_fds.getFdSlot s id).mfdtab
    rw [hslot.slots] at hle
    have hpeak := (sysOpen_peak k (source_fds.getFdSlot s id) mf.mf_name).trans
      (congrArg (max · _) (getFdSlot_peak s id))
    unfold State.setMfd
    dsimp only
    rw [hpeak]
    simp only [Option.toList_none, List.length_nil, Option.toList_some, List.length_singleton]
      at hcount
    omega

theorem Inv.getInputFromMfd (h : Inv none none s) (hmf : s.mfds id = some mf) :
    Inv none none (getInputFromMfd k s id mf) ∧
      ((source_fds.getInputFromMfd k s id mf).peak ≤ MAXFDS ↔ s.peak ≤ MAXFDS) := by
  obtain ⟨hopen, hself, hpeak⟩ := h.reopen (k := k) hmf
  refine ⟨?_, hpeak⟩
  have htouch := hopen.touch hself ⟨some (source_fds.reopen k s id mf).1, mf.mf_name,
    lastUsed (source_fds.reopen k s id mf).2.use_time⟩ rfl rfl
  have htime : Inv none none { (source_fds.reopen k s id mf).2.setMfd id _ with
      use_time := (source_fds.reopen k s id mf).2.use_time + 1 } :=
    ⟨htouch.slots, htouch.once, htouch.holds, htouch.pending, htouch.recorded, htouch.distinct,
      htouch.own, htouch.foreign, htouch.uses, htouch.count⟩
  exact htime.use (Function.update_self _ _ _) rfl

theorem Inv.getMfdInfo (h : Inv none none s) (hmf : s.mfds id = some mf) :
    Inv none none (getMfdInfo k s id mf) ∧
      ((source_fds.getMfdInfo k s id mf).peak ≤ MAXFDS ↔ s.peak ≤ MAXFDS) := by
  obtain ⟨hopen, hself, hpeak⟩ := h.reopen (k := k) hmf
  exact ⟨hopen.use hself rfl, hpeak⟩

/-- A file without a descriptor goes. -/
theorem Inv.forget (h : Inv none none s) (hid : s.fdOf id = none) :
    Inv none none { s with mfds := Function.update s.mfds id none } := by
  have hof : ∀ i, State.fdOf { s with mfds := Function.update s.mfds id none } i = s.fdOf i := by
    intro i
    by_cases hi : i = id
    · rw [hi, hid]
      unfold State.fdOf
      dsimp only
      rw [Function.update_self]
      rfl
    · unfold State.fdOf
      dsimp only
      rw [Function.update_of_ne hi]
  refine ⟨h.slots, h.once, ?_, nofun, ?_, h.distinct, ?_, nofun, h.uses, h.count⟩
  · intro i
    rw [hof]
    exact h.holds i
  · intro fd name
    refine (h.recorded fd name).trans (or_congr_right ?_)
    constructor
    · rintro ⟨i, m, hi, hm, hn⟩
      refine ⟨i, m, ?_, hm, hn⟩
      have hii : i ≠ id := by
        rintro rfl
        rw [fdOf_eq hi, hm] at hid
        cases hid
      exact (Function.update_of_ne hii _ _).trans hi
    · rintro ⟨i, m, hi, hm, hn⟩
      refine ⟨i, m, ?_, hm, hn⟩
      by_cases hii : i = id
      · rw [hii] at hi
        cases (Function.update_self _ _ _).symm.trans hi
      · exact (Function.update_of_ne hii _ _).symm.trans hi
  · intro i j
    rw [hof, hof]
    exact h.own i j

theorem Inv.closeMfd (h : Inv none none s) (hmf : s.mfds id = some mf) :
    ∃ s', closeMfd s id mf = some s' ∧ Inv none none s' ∧ s'.peak = s.peak := by
  unfold source_fds.closeMfd
  cases hfd : mf.mf_fd with
  | none => exact ⟨_, rfl, h.forget ((fdOf_eq hmf).trans hfd), rfl⟩
  | some fd =>
    have hmem : some id ∈ s.mfdtab := by
      rw [h.holds, fdOf_eq hmf, hfd]
      exact .inl nofun
    obtain ⟨haway, -, -⟩ := h.takeAway hmem
    have heq : source_fds.takeAway s id =
        (sysClose s fd mf.mf_name).setMfd id { mf with mf_fd := none } := by
      unfold source_fds.takeAway
      rw [hmf]
      dsimp only
      rw [hfd]
    cases hfind : s.mfdtab.findIdx? (· == some id) with
    | none =>
      rw [List.findIdx?_eq_none_iff] at hfind
      exact absurd (hfind _ hmem) (by simp)
    | some i =>
      obtain ⟨hi, hat, -⟩ := List.findIdx?_eq_some_iff_getElem.mp hfind
      have hslot : s.mfdtab[i]? = some (some id) := by
        rw [List.getElem?_eq_getElem hi]
        exact congrArg some (by simpa using hat)
      obtain ⟨a, b, htab, hset⟩ := set_slot hslot
      have hfree : freeFdSlot (sysClose s fd mf.mf_name) id =
          some { sysClose s fd mf.mf_name with mfdtab := s.mfdtab.set i none } := by
        have htab : (sysClose s fd mf.mf_name).mfdtab = s.mfdtab := rfl
        unfold freeFdSlot
        rw [htab, hfind]
      dsimp only
      rw [hfree]
      refine ⟨_, rfl, ?_, rfl⟩
      rw [heq] at haway
      have hfreed := haway.slot htab (fun _ hc => nomatch (hc : none = some _))
      have hnone := hfreed.forget (?_ : State.fdOf _ id = none)
      · rw [← hset] at hnone
        have hidem : Function.update (Function.update s.mfds id (some { mf with mf_fd := none })) id
            none = Function.update s.mfds id none := Function.update_idem _ _ _
        unfold State.setMfd at hnone
        dsimp only at hnone
        have hmfds : (sysClose s fd mf.mf_name).mfds = s.mfds := rfl
        rw [hmfds, hidem] at hnone
        exact hnone
      · exact haway.pending id rfl

theorem Inv.soOpenFile (h : Inv none none s) (hid : s.mfds id = none)
    (names : List (String × Bool)) :
    Inv none none (soOpenFile k s id names) ∧
      ((source_fds.soOpenFile k s id names).peak ≤ MAXFDS ↔
        s.peak ≤ MAXFDS ∧ ((∃ n ∈ names, n.2 = true) → none ∈ s.mfdtab)) := by
  unfold source_fds.soOpenFile
  cases hfind : names.find? (·.2) with
  | none =>
    rw [List.find?_eq_none] at hfind
    refine ⟨h, (and_iff_left ?_).symm⟩
    rintro ⟨n, hn, hopen⟩
    exact absurd hopen (hfind n hn)
  | some n =>
    have hfd : (source_fds.sysOpen k s n.1).2.fdOf id = none := by
      unfold State.fdOf
      rw [show (source_fds.sysOpen k s n.1).2.mfds = s.mfds from rfl, hid]
      rfl
    have hopen := h.sysOpen (k := k) n.1
    have hslot := hopen.getFdSlot hfd
    have hadopt := hslot.adopt ⟨some (source_fds.sysOpen k s n.1).1, n.1,
      lastUsed (source_fds.getFdSlot (source_fds.sysOpen k s n.1).2 id).use_time⟩ rfl rfl
    refine ⟨⟨hadopt.slots, hadopt.once, hadopt.holds, hadopt.pending, hadopt.recorded,
      hadopt.distinct, hadopt.own, hadopt.foreign, hadopt.uses, hadopt.count⟩, ?_⟩
    have hpeak : (source_fds.getFdSlot (source_fds.sysOpen k s n.1).2 id).peak =
        max s.peak (s.opened.length + 1) := getFdSlot_peak _ id
    have hsome : ∃ n ∈ names, n.2 = true :=
      ⟨n, List.mem_of_find?_eq_some hfind, List.find?_some hfind⟩
    dsimp only
    unfold State.setMfd
    dsimp only
    rw [hpeak, Nat.max_le, h.room]
    exact and_congr_right fun _ => ⟨fun hn _ => hn, fun hn => hn hsome⟩

theorem call_spec (h : Inv none none s) {c : Call} (hlegal : c.Legal s) :
    ∃ s', c.exec k s = some s' ∧ Inv none none s' ∧
      (s'.peak ≤ MAXFDS ↔ s.peak ≤ MAXFDS ∧ c.Room s) := by
  cases c with
  | so_open_file id names =>
    obtain ⟨hinv, hpeak⟩ := h.soOpenFile (k := k) hlegal names
    exact ⟨_, rfl, hinv, hpeak⟩
  | get_input_from_mfd id =>
    obtain ⟨mf, hmf⟩ := hlegal
    obtain ⟨hinv, hpeak⟩ := h.getInputFromMfd (k := k) hmf
    refine ⟨_, congrArg (Option.map _) hmf, hinv, ?_⟩
    simpa [Call.Room] using hpeak
  | get_mfd_info id =>
    obtain ⟨mf, hmf⟩ := hlegal
    obtain ⟨hinv, hpeak⟩ := h.getMfdInfo (k := k) hmf
    refine ⟨_, congrArg (Option.map _) hmf, hinv, ?_⟩
    simpa [Call.Room] using hpeak
  | close_mfd id =>
    obtain ⟨mf, hmf⟩ := hlegal
    obtain ⟨s', hclose, hinv, hpeak⟩ := h.closeMfd hmf
    refine ⟨s', ?_, hinv, ?_⟩
    · unfold Call.exec
      dsimp only
      rw [hmf]
      exact hclose
    · rw [hpeak]
      exact (and_iff_left trivial).symm

theorem run_spec (h : Inv none none s) {calls : List Call} (hlegal : LegalRun k s calls) :
    ∃ s', run k s calls = some s' ∧ Inv none none s' ∧
      (s'.peak ≤ MAXFDS ↔ s.peak ≤ MAXFDS ∧ RoomRun k s calls) := by
  induction calls generalizing s with
  | nil => exact ⟨s, rfl, h, (and_iff_left trivial).symm⟩
  | cons c calls ih =>
    obtain ⟨hc, hrest⟩ := hlegal
    obtain ⟨s', hexec, hinv, hpeak⟩ := call_spec (k := k) h hc
    obtain ⟨s'', hrun, hinv', hpeak'⟩ := ih hinv (hrest s' hexec)
    refine ⟨s'', ?_, hinv', ?_⟩
    · rw [run, hexec]
      exact hrun
    · rw [hpeak', hpeak, and_assoc]
      refine and_congr_right fun _ => and_congr_right fun _ => ?_
      constructor
      · intro hroom t ht
        cases hexec.symm.trans ht
        exact hroom
      · exact fun hroom => hroom s' hexec

theorem inv_start : Inv none none start := by
  refine ⟨rfl, ?_, ?_, nofun, ?_, List.nodup_nil, ?_, nofun, nofun, ?_⟩
  · rw [start, List.reduceOption_replicate_none]
    exact List.nodup_nil
  · intro i
    refine iff_of_false ?_ ?_
    · intro hmem
      cases List.eq_of_mem_replicate hmem
    · rintro (hc | hc)
      · exact hc rfl
      · cases hc
  · intro fd name
    refine iff_of_false List.not_mem_nil ?_
    rintro (hc | ⟨i, mf, hi, -⟩)
    · cases hc
    · cases hi
  · exact fun i j _ hc => absurd rfl hc
  · rw [start, List.reduceOption_replicate_none]
    rfl

theorem takeAway_mfds_of_none {id i : Nat} (h : s.mfds i = none) :
    (source_fds.takeAway s id).mfds i = none := by
  unfold source_fds.takeAway
  cases hid : s.mfds id with
  | none => exact h
  | some mf =>
    have hne : i ≠ id := by
      rintro rfl
      rw [hid] at h
      cases h
    obtain ⟨_ | fd, name, time⟩ := mf
    · exact (Function.update_of_ne hne _ _).trans h
    · exact (Function.update_of_ne hne _ _).trans h

theorem getFdSlot_mfds_of_none {id i : Nat} (h : s.mfds i = none) :
    (source_fds.getFdSlot s id).mfds i = none := by
  unfold source_fds.getFdSlot
  cases slotLoop s.mfds s.mfdtab 0 0 s.use_time with
  | free j => exact h
  | full oldest =>
    dsimp only
    cases s.mfdtab.getD oldest none with
    | none => exact h
    | some old => exact takeAway_mfds_of_none h

theorem soOpenFile_mfds_of_ne {id i : Nat} {names : List (String × Bool)} (hne : i ≠ id)
    (h : s.mfds i = none) : (source_fds.soOpenFile k s id names).mfds i = none := by
  unfold source_fds.soOpenFile
  cases names.find? (·.2) with
  | none => exact h
  | some n =>
    have hopen : (source_fds.sysOpen k s n.1).2.mfds i = none := h
    exact (Function.update_of_ne hne _ _).trans (getFdSlot_mfds_of_none hopen)

end

theorem sum_succ_notMem (fds : List Nat) : fds.sum + 1 ∉ fds := by
  intro hmem
  have hle := List.single_le_sum (fun x _ => Nat.zero_le x) _ hmem
  omega

/-- A system that gives descriptors that are larger than the open ones. -/
def growing : System where
  alloc := fun fds => fds.sum + 1
  fresh := sum_succ_notMem

def aFile (id : Nat) : Call := .so_open_file id [("missing.c", false), ("a.c", true)]

/-- Opening new files one after the other is legal. -/
theorem legalRun_opens {k : System} {s : State} {ids : List Nat} (hnodup : ids.Nodup)
    (hnew : ∀ id ∈ ids, s.mfds id = none) : LegalRun k s (ids.map aFile) := by
  induction ids generalizing s with
  | nil => trivial
  | cons id ids ih =>
    rw [List.nodup_cons] at hnodup
    refine ⟨hnew id List.mem_cons_self, ?_⟩
    intro s' hexec
    cases hexec
    refine ih hnodup.2 fun i hi => ?_
    have hne : i ≠ id := fun hc => hnodup.1 (hc ▸ hi)
    exact soOpenFile_mfds_of_ne hne (hnew i (List.mem_cons_of_mem _ hi))

/-! ## The law -/

/-- In every run the table is exact and no call panics. There are no more descriptors at once than
the table has slots exactly when no file is opened while all slots are taken: `so_open_file` opens
it before the descriptor of another one is closed. -/
theorem the_table_is_exact_and_one_descriptor_too_many_is_open_for_a_full_one (k : System)
    (calls : List Call) (h : LegalRun k start calls) :
    ∃ s, run k start calls = some s ∧ Exact s ∧ (s.peak ≤ MAXFDS ↔ RoomRun k start calls) := by
  obtain ⟨s, hrun, hinv, hpeak⟩ := run_spec inv_start h
  refine ⟨s, hrun, hinv.exact, hpeak.trans (and_iff_right ?_)⟩
  exact Nat.zero_le _

theorem the_table_is_exact_after_a_reread :
    ∃ s, run growing start [aFile 0, .get_input_from_mfd 0] = some s ∧ Exact s ∧
      (s.peak ≤ MAXFDS ↔ RoomRun growing start [aFile 0, .get_input_from_mfd 0]) :=
  the_table_is_exact_and_one_descriptor_too_many_is_open_for_a_full_one growing _
    ⟨rfl, fun _ h => ⟨by cases h; exact ⟨_, rfl⟩, fun _ _ => trivial⟩⟩

theorem eleven_descriptors_can_be_open_at_once :
    ¬ ∀ (k : System) (calls : List Call), LegalRun k start calls →
      ∃ s, run k start calls = some s ∧ Exact s ∧ s.peak ≤ MAXFDS := by
  intro hall
  have hlegal : LegalRun growing start ((List.range 11).map aFile) :=
    legalRun_opens List.nodup_range fun _ _ => rfl
  obtain ⟨s, hrun, -, hpeak⟩ := hall growing _ hlegal
  have heleven : (run growing start ((List.range 11).map aFile)).map (·.peak) = some 11 := by rfl
  rw [hrun, Option.map_some, Option.some_inj] at heleven
  rw [heleven] at hpeak
  exact absurd hpeak (by decide)

end ups_rules.source_fds
