-- The watchpoints of a target (wp.c): a ring of records that starts at Wphead, the bytes that each
-- of them had when it was installed, and the pages that are made read-only to catch a write.
import Ups.Machine
import Ups.Ring

open le_bytes
open ring
open ups_rules.machine

namespace ups_rules.watchpoints

/-! ## The pure model -/

/-- The address of a watchpoint_t. -/
abbrev Ptr := Nat

structure Watchpoint where
  wp_next : Ptr
  wp_prev : Ptr
  wp_addr : Word
  wp_size : Nat
  wp_enabled : Bool
  wp_installed : Bool
  wp_activated : Bool
  wp_watchnum : Int
  wp_val : List (BitVec 8)

/-- `&Wphead` -/
def Wphead : Ptr := 0

/-- The records in memory. `count` is how many watchpoints have been added, `page` is the page of an
address of the target, and `readOnly` says whether that page has been made read-only. -/
structure State where
  wps : Ptr → Watchpoint
  live : Ptr → Bool
  count : Nat
  page : Word → Word
  readOnly : Word → Bool

def start (page : Word → Word) : State where
  wps := fun _ => ⟨Wphead, Wphead, 0, 0, false, false, false, 0, []⟩
  live := fun _ => false
  count := 0
  page := page
  readOnly := fun _ => false

/-- The target during a call. Each of its operations may fail, for some watchpoints and not for
others, and then changes nothing. -/
structure Target where
  mem : Mem 64
  canRead : Ptr → Bool
  /-- `xp_install_watchpoint`, without a number if it fails. -/
  install : Ptr → Option Nat
  canUninstall : Ptr → Bool
  canProtect : Ptr → Bool

namespace State

def next (s : State) (p : Ptr) : Ptr := (s.wps p).wp_next

def prev (s : State) (p : Ptr) : Ptr := (s.wps p).wp_prev

/-- Assignments to members of a watchpoint. -/
def set (s : State) (p : Ptr) (f : Watchpoint → Watchpoint) : State :=
  { s with wps := Function.update s.wps p (f (s.wps p)) }

end State

/-- `wp_val` is not set here; the allocator gives the address `p` and what is in the bytes. -/
def dxAddWatchpoint (s : State) (p : Ptr) (addr : Word) (size : Nat) (val : List (BitVec 8)) :
    State :=
  let s := s.set p fun wp => { wp with wp_next := s.next Wphead }
  let s := s.set p fun wp => { wp with wp_prev := Wphead }
  let s := s.set (s.next Wphead) fun wp => { wp with wp_prev := p }
  let s := s.set Wphead fun wp => { wp with wp_next := p }
  let s := s.set p fun wp => { wp with
    wp_addr := addr
    wp_size := size
    wp_enabled := true
    wp_installed := false
    wp_activated := false
    wp_watchnum := -1
    wp_val := val }
  { s with live := Function.update s.live p true, count := s.count + 1 }

def dxRemoveWatchpoint (s : State) (p : Ptr) : State :=
  let s := s.set (s.prev p) fun wp => { wp with wp_next := s.next p }
  let s := s.set (s.next p) fun wp => { wp with wp_prev := s.next p }
  { s with live := Function.update s.live p false }

def dxEnableWatchpoint (s : State) (p : Ptr) (enabled : Bool) : State :=
  s.set p fun wp => { wp with wp_enabled := enabled }

/-- The watchpoints that a loop goes over, which changes no link. `none` is a loop that reads a
freed record, or that does not end. -/
def walk (s : State) : Nat → Ptr → Option (List Ptr)
  | 0, _ => none
  | fuel + 1, p =>
    if p = Wphead then some []
    else if s.live p then (walk s fuel (s.next p)).map (p :: ·)
    else none

def nodes (s : State) : Option (List Ptr) := walk s (s.count + 1) (s.next Wphead)

/-- The bytes of a watchpoint in the target. -/
def current (x : Target) (wp : Watchpoint) : List (BitVec 8) := readBytes x.mem wp.wp_addr wp.wp_size

/-- The page of the address is one that the watchpoint is on. -/
def covers (s : State) (p : Ptr) (a : Word) : Bool :=
  (List.range (s.wps p).wp_size).any fun i =>
    s.page ((s.wps p).wp_addr + BitVec.ofNat 64 i) == s.page a

/-- `xp_set_protection` of the pages that a watchpoint is on. -/
def setProtection (s : State) (p : Ptr) (readOnly : Bool) : State :=
  { s with readOnly := fun a => if covers s p a then readOnly else s.readOnly a }

/-- The loop of `activate_all_watchpoints`, with the number of those that it has activated. -/
def activateLoop (x : Target) (s : State) (activated : Nat) : List Ptr → State × Int
  | [] => (s, activated)
  | p :: ps =>
    let wp := s.wps p
    if wp.wp_enabled && !wp.wp_installed && !wp.wp_activated then
      if x.canProtect p then
        activateLoop x ((setProtection s p true).set p fun wp => { wp with wp_activated := true })
          (activated + 1) ps
      else (s, -1)
    else activateLoop x s activated ps

/-- The loop of `install_all_watchpoints`, and whether it came to the end. -/
def installLoop (x : Target) (s : State) : List Ptr → State × Bool
  | [] => (s, true)
  | p :: ps =>
    if (s.wps p).wp_enabled then
      let s := match x.install p with
        | some n => s.set p fun wp => { wp with wp_installed := true, wp_watchnum := n }
        | none => s
      if x.canRead p then
        installLoop x (s.set p fun wp => { wp with wp_val := current x wp }) ps
      else (s, false)
    else installLoop x s ps

def installAll (x : Target) (s : State) (ps : List Ptr) : State × Int :=
  match installLoop x s ps with
  | (s, true) => activateLoop x s 0 ps
  | (s, false) => (s, -1)

def deactivateLoop (x : Target) (s : State) : List Ptr → State × Int
  | [] => (s, 0)
  | p :: ps =>
    if (s.wps p).wp_activated then
      if x.canProtect p then
        deactivateLoop x
          ((setProtection s p false).set p fun wp => { wp with wp_activated := false }) ps
      else (s, -1)
    else deactivateLoop x (s.set p fun wp => { wp with wp_activated := false }) ps

def uninstallLoop (x : Target) (s : State) : List Ptr → State
  | [] => s
  | p :: ps =>
    if (s.wps p).wp_installed && x.canUninstall p then
      uninstallLoop x (s.set p fun wp => { wp with wp_installed := false, wp_watchnum := -1 }) ps
    else uninstallLoop x s ps

def uninstallAll (x : Target) (s : State) (ps : List Ptr) : State × Int :=
  match deactivateLoop x s ps with
  | (s, r) => if r < 0 then (s, -1) else (uninstallLoop x s ps, 0)

/-- The watchpoint is enabled, and its bytes can be read and are not those that it has kept. -/
def hasChanged (x : Target) (s : State) (p : Ptr) : Bool :=
  (s.wps p).wp_enabled && x.canRead p && current x (s.wps p) != (s.wps p).wp_val

/-- The first watchpoint that the loop of `check_all_watchpoints` returns. -/
def checkAll (x : Target) (s : State) (ps : List Ptr) : Option Ptr := ps.find? (hasChanged x s)

/-! ## Runs -/

inductive Op where
  | add (p : Ptr) (addr : Word) (size : Nat) (val : List (BitVec 8))
  | remove (p : Ptr)
  | setEnabled (p : Ptr) (enabled : Bool)
  | installAll
  | activateAll
  | deactivateAll
  | uninstallAll
  | checkAll

inductive Result where
  | int (r : Int)
  | watchpoint (p : Option Ptr)

def Op.exec (x : Target) (s : State) : Op → Option (State × Result)
  | .add p addr size val => some (dxAddWatchpoint s p addr size val, .watchpoint (some p))
  | .remove p => some (dxRemoveWatchpoint s p, .int 0)
  | .setEnabled p enabled => some (dxEnableWatchpoint s p enabled, .int 0)
  | .installAll => (nodes s).map fun ps =>
    ((ups_rules.watchpoints.installAll x s ps).1, .int (ups_rules.watchpoints.installAll x s ps).2)
  | .activateAll => (nodes s).map fun ps =>
    ((activateLoop x s 0 ps).1, .int (activateLoop x s 0 ps).2)
  | .deactivateAll => (nodes s).map fun ps =>
    ((deactivateLoop x s ps).1, .int (deactivateLoop x s ps).2)
  | .uninstallAll => (nodes s).map fun ps =>
    ((ups_rules.watchpoints.uninstallAll x s ps).1,
      .int (ups_rules.watchpoints.uninstallAll x s ps).2)
  | .checkAll => (nodes s).map fun ps => (s, .watchpoint (ups_rules.watchpoints.checkAll x s ps))

/-- What the calls so far come to: the watchpoints added and not removed, the bytes that the last
successful installation recorded of those that were enabled, and whether no other installation has
been tried since. -/
structure Log where
  listed : List Ptr
  recorded : Ptr → Option (List (BitVec 8))
  fresh : Bool

def Log.start : Log := ⟨[], fun _ => none, false⟩

def Log.after (log : Log) (x : Target) (s : State) (op : Op) (r : Result) : Log :=
  match op, r with
  | .add p _ _ _, _ =>
    { log with listed := p :: log.listed, recorded := Function.update log.recorded p none }
  | .remove p, _ => { log with listed := log.listed.erase p }
  | .installAll, .int r =>
    if 0 ≤ r then
      { log with
        recorded := fun p => if (s.wps p).wp_enabled then some (current x (s.wps p)) else none
        fresh := true }
    else { log with fresh := false }
  | _, _ => log

/-- A call, with the state and the log before it. -/
structure Pass where
  s : State
  log : Log
  x : Target
  op : Op

/-- The calls of a run, up to one that does not come back. -/
def passes : State → Log → List (Target × Op) → List Pass
  | _, _, [] => []
  | s, log, (x, op) :: calls => ⟨s, log, x, op⟩ ::
    match op.exec x s with
    | none => []
    | some (s', r) => passes s' (log.after x s op r) calls

/-- A new watchpoint is at a new address, and one is only removed while none is installed or
activated. -/
def Pass.Legal (p : Pass) : Prop :=
  match p.op with
  | .add q _ _ _ => q ≠ Wphead ∧ p.s.live q = false
  | .remove q => q ∈ p.log.listed ∧
    ∀ r ∈ p.log.listed, (p.s.wps r).wp_installed = false ∧ (p.s.wps r).wp_activated = false
  | .setEnabled q _ => q ∈ p.log.listed
  | _ => True

instance : DecidablePred Pass.Legal := fun p =>
  match p with
  | ⟨s, _, _, .add q _ _ _⟩ => inferInstanceAs (Decidable (q ≠ Wphead ∧ s.live q = false))
  | ⟨s, log, _, .remove q⟩ => inferInstanceAs (Decidable (q ∈ log.listed ∧
    ∀ r ∈ log.listed, (s.wps r).wp_installed = false ∧ (s.wps r).wp_activated = false))
  | ⟨_, log, _, .setEnabled q _⟩ => inferInstanceAs (Decidable (q ∈ log.listed))
  | ⟨_, _, _, .installAll⟩ => isTrue trivial
  | ⟨_, _, _, .activateAll⟩ => isTrue trivial
  | ⟨_, _, _, .deactivateAll⟩ => isTrue trivial
  | ⟨_, _, _, .uninstallAll⟩ => isTrue trivial
  | ⟨_, _, _, .checkAll⟩ => isTrue trivial

/-- An enabled watchpoint whose bytes can be read and are not those recorded. -/
def Differs (x : Target) (s : State) (log : Log) (p : Ptr) : Prop :=
  (s.wps p).wp_enabled = true ∧ x.canRead p = true ∧
    ∃ bs, log.recorded p = some bs ∧ current x (s.wps p) ≠ bs

/-- The call comes back; the list is a ring of the watchpoints added and not removed; a check finds
out about a change; and an uninstallation that succeeds leaves nothing behind. -/
def Pass.Right (p : Pass) : Prop :=
  ∃ s' r, p.op.exec p.x p.s = some (s', r) ∧
    IsRing s'.next s'.prev Wphead (p.log.after p.x p.s p.op r).listed ∧
    (∀ q, p.op = .checkAll → r = .watchpoint q →
      (q ≠ none ↔ ∃ a ∈ p.log.listed, Differs p.x p.s p.log a)) ∧
    (p.op = .uninstallAll → r = .int 0 →
      (∀ a ∈ p.log.listed, (s'.wps a).wp_activated = false) ∧ ∀ a, s'.readOnly a = false)

/-- A watchpoint is only removed while it is the only one. At a check the last installation has
succeeded, and every watchpoint that is enabled was so then. -/
def Pass.Meets (p : Pass) : Prop :=
  match p.op with
  | .remove q => p.log.listed = [q]
  | .checkAll => ∀ a ∈ p.log.listed, (p.s.wps a).wp_enabled = true →
    p.log.fresh = true ∧ (p.log.recorded a).isSome = true
  | _ => True

instance : DecidablePred Pass.Meets := fun p =>
  match p with
  | ⟨s, log, _, .checkAll⟩ => inferInstanceAs (Decidable (∀ a ∈ log.listed,
    (s.wps a).wp_enabled = true → log.fresh = true ∧ (log.recorded a).isSome = true))
  | ⟨_, log, _, .remove q⟩ => inferInstanceAs (Decidable (log.listed = [q]))
  | ⟨_, _, _, .add ..⟩ => isTrue trivial
  | ⟨_, _, _, .setEnabled ..⟩ => isTrue trivial
  | ⟨_, _, _, .installAll⟩ => isTrue trivial
  | ⟨_, _, _, .activateAll⟩ => isTrue trivial
  | ⟨_, _, _, .deactivateAll⟩ => isTrue trivial
  | ⟨_, _, _, .uninstallAll⟩ => isTrue trivial

/-! ## Links -/

variable {x : Target} {s s' s'' : State} {p : Ptr} {ps l : List Ptr} {log : Log}

theorem set_next (s : State) (p : Ptr) (f : Watchpoint → Watchpoint) :
    (s.set p f).next = Function.update s.next p (f (s.wps p)).wp_next := by
  funext q
  unfold State.next State.set
  by_cases h : q = p
  · simp [h]
  · simp [h]

theorem set_prev (s : State) (p : Ptr) (f : Watchpoint → Watchpoint) :
    (s.set p f).prev = Function.update s.prev p (f (s.wps p)).wp_prev := by
  funext q
  unfold State.prev State.set
  by_cases h : q = p
  · simp [h]
  · simp [h]

theorem set_self (s : State) (p : Ptr) (f : Watchpoint → Watchpoint) :
    (s.set p f).wps p = f (s.wps p) := Function.update_self ..

theorem set_of_ne (s : State) {p q : Ptr} (h : q ≠ p) (f : Watchpoint → Watchpoint) :
    (s.set p f).wps q = s.wps q := Function.update_of_ne h ..

/-- What the loops leave alone: the list, and what the watchpoints are of. -/
structure Keeps (s s' : State) : Prop where
  next : s'.next = s.next
  prev : s'.prev = s.prev
  live : s'.live = s.live
  count : s'.count = s.count
  page : s'.page = s.page
  addr : ∀ p, (s'.wps p).wp_addr = (s.wps p).wp_addr
  size : ∀ p, (s'.wps p).wp_size = (s.wps p).wp_size
  enabled : ∀ p, (s'.wps p).wp_enabled = (s.wps p).wp_enabled

theorem Keeps.refl (s : State) : Keeps s s :=
  ⟨rfl, rfl, rfl, rfl, rfl, fun _ => rfl, fun _ => rfl, fun _ => rfl⟩

theorem Keeps.trans (h : Keeps s s') (h' : Keeps s' s'') : Keeps s s'' where
  next := h'.next.trans h.next
  prev := h'.prev.trans h.prev
  live := h'.live.trans h.live
  count := h'.count.trans h.count
  page := h'.page.trans h.page
  addr := fun p => (h'.addr p).trans (h.addr p)
  size := fun p => (h'.size p).trans (h.size p)
  enabled := fun p => (h'.enabled p).trans (h.enabled p)

/-- A flag, a number or the bytes of a watchpoint are set. -/
theorem keeps_set (s : State) (p : Ptr) (f : Watchpoint → Watchpoint)
    (hnext : (f (s.wps p)).wp_next = (s.wps p).wp_next)
    (hprev : (f (s.wps p)).wp_prev = (s.wps p).wp_prev)
    (haddr : (f (s.wps p)).wp_addr = (s.wps p).wp_addr)
    (hsize : (f (s.wps p)).wp_size = (s.wps p).wp_size)
    (henabled : (f (s.wps p)).wp_enabled = (s.wps p).wp_enabled) : Keeps s (s.set p f) where
  next := by
    rw [set_next, hnext]
    exact Function.update_eq_self p s.next
  prev := by
    rw [set_prev, hprev]
    exact Function.update_eq_self p s.prev
  live := rfl
  count := rfl
  page := rfl
  addr := fun q => by
    by_cases h : q = p
    · rw [h, set_self, haddr]
    · rw [set_of_ne s h]
  size := fun q => by
    by_cases h : q = p
    · rw [h, set_self, hsize]
    · rw [set_of_ne s h]
  enabled := fun q => by
    by_cases h : q = p
    · rw [h, set_self, henabled]
    · rw [set_of_ne s h]

theorem Keeps.current (h : Keeps s s') (p : Ptr) : current x (s'.wps p) = current x (s.wps p) := by
  unfold ups_rules.watchpoints.current
  rw [h.addr, h.size]

theorem Keeps.covers (h : Keeps s s') (p : Ptr) (a : Word) : covers s' p a = covers s p a := by
  unfold ups_rules.watchpoints.covers
  rw [h.addr, h.size, h.page]

theorem keeps_setProtection (s : State) (p : Ptr) (readOnly : Bool) :
    Keeps s (setProtection s p readOnly) :=
  ⟨rfl, rfl, rfl, rfl, rfl, fun _ => rfl, fun _ => rfl, fun _ => rfl⟩

/-! ## Going over the list -/

theorem walk_of_seg {a : Ptr} (hseg : Seg s.next s.prev a l Wphead) (hhead : Wphead ∉ l)
    (hlive : ∀ p ∈ l, s.live p = true) {fuel : Nat} (hfuel : l.length < fuel) :
    walk s fuel (s.next a) = some l := by
  induction l generalizing a fuel with
  | nil =>
    obtain ⟨fuel, rfl⟩ := Nat.exists_eq_succ_of_ne_zero (Nat.ne_of_gt (by omega : 0 < fuel))
    rw [hseg.1]
    simp [walk]
  | cons b l ih =>
    obtain ⟨fuel, rfl⟩ := Nat.exists_eq_succ_of_ne_zero (Nat.ne_of_gt (by omega : 0 < fuel))
    rw [List.mem_cons, not_or] at hhead
    rw [seg_cons.mp hseg |>.1, Nat.succ_eq_add_one, walk, if_neg (Ne.symm hhead.1),
      if_pos (hlive b (by simp)), ih hseg.2.2 hhead.2 (fun p hp => hlive p (by simp [hp]))]
    · rfl
    · simpa using hfuel

/-! ## What the loops do -/

/-- A page that is read-only is one that an activated watchpoint is on. -/
def PagesOk (s : State) (l : List Ptr) : Prop :=
  ∀ a, s.readOnly a = true → ∃ p ∈ l, (s.wps p).wp_activated = true ∧ covers s p a = true

theorem keeps_setActivated (s : State) (p : Ptr) (protect activated : Bool) :
    Keeps s ((setProtection s p protect).set p fun wp => { wp with wp_activated := activated }) :=
  (keeps_setProtection s p protect).trans (keeps_set _ p _ rfl rfl rfl rfl rfl)

theorem setActivated_val (s : State) (p q : Ptr) (activated : Bool) :
    ((s.set p fun wp => { wp with wp_activated := activated }).wps q).wp_val =
      (s.wps q).wp_val := by
  by_cases h : q = p
  · rw [h, set_self]
  · rw [set_of_ne s h]

theorem activateLoop_keeps (n : Nat) : Keeps s (activateLoop x s n ps).1 := by
  induction ps generalizing s n with
  | nil => exact Keeps.refl s
  | cons p ps ih =>
    unfold activateLoop
    dsimp only
    split
    · split
      · exact (keeps_setActivated s p true true).trans (ih (n + 1))
      · exact Keeps.refl s
    · exact ih n

theorem activateLoop_val (n : Nat) (q : Ptr) :
    ((activateLoop x s n ps).1.wps q).wp_val = (s.wps q).wp_val := by
  induction ps generalizing s n with
  | nil => rfl
  | cons p ps ih =>
    unfold activateLoop
    dsimp only
    split
    · split
      · rw [ih, setActivated_val]
        rfl
      · rfl
    · exact ih n

/-- A watchpoint is activated after its pages have been protected. -/
theorem PagesOk.activate (h : PagesOk s l) (hp : p ∈ l) :
    PagesOk ((setProtection s p true).set p fun wp => { wp with wp_activated := true }) l := by
  have hkeeps := keeps_setActivated s p true true
  intro a ha
  change (if covers s p a = true then true else s.readOnly a) = true at ha
  by_cases hc : covers s p a = true
  · refine ⟨p, hp, ?_, ?_⟩
    · rw [set_self]
    · rw [hkeeps.covers, hc]
  · rw [if_neg hc] at ha
    obtain ⟨q, hq, hact, hcov⟩ := h a ha
    refine ⟨q, hq, ?_, ?_⟩
    · by_cases hqp : q = p
      · rw [hqp, set_self]
      · rw [set_of_ne _ hqp]
        exact hact
    · rw [hkeeps.covers, hcov]

/-- A watchpoint is deactivated after its pages have been opened again. -/
theorem PagesOk.deactivate (h : PagesOk s l) :
    PagesOk ((setProtection s p false).set p fun wp => { wp with wp_activated := false }) l := by
  have hkeeps := keeps_setActivated s p false false
  intro a ha
  change (if covers s p a = true then false else s.readOnly a) = true at ha
  have hc : ¬covers s p a = true := by
    intro hc
    simp [hc] at ha
  rw [if_neg hc] at ha
  obtain ⟨q, hq, hact, hcov⟩ := h a ha
  have hqp : q ≠ p := by
    rintro rfl
    exact hc hcov
  refine ⟨q, hq, ?_, ?_⟩
  · rw [set_of_ne _ hqp]
    exact hact
  · rw [hkeeps.covers, hcov]

theorem PagesOk.of_keeps (h : PagesOk s l) (hkeeps : Keeps s s') (hread : s'.readOnly = s.readOnly)
    (hact : ∀ p, (s'.wps p).wp_activated = (s.wps p).wp_activated) : PagesOk s' l := by
  intro a ha
  rw [hread] at ha
  obtain ⟨q, hq, hq1, hq2⟩ := h a ha
  refine ⟨q, hq, ?_, ?_⟩
  · rw [hact, hq1]
  · rw [hkeeps.covers, hq2]

theorem activateLoop_pages (n : Nat) (hl : ps ⊆ l) (h : PagesOk s l) :
    PagesOk (activateLoop x s n ps).1 l := by
  induction ps generalizing s n with
  | nil => exact h
  | cons p ps ih =>
    rw [List.cons_subset] at hl
    unfold activateLoop
    dsimp only
    split
    · split
      · exact ih (n + 1) hl.2 (h.activate hl.1)
      · exact h
    · exact ih n hl.2 h

theorem clearActivated (hact : ¬(s.wps p).wp_activated = true) :
    (s.set p fun wp => { wp with wp_activated := false }) = s := by
  have hsame : (s.wps p).wp_activated = false := by simpa using hact
  unfold State.set
  rw [← hsame]
  change { s with wps := Function.update s.wps p (s.wps p) } = s
  rw [Function.update_eq_self]

theorem deactivateLoop_keeps : Keeps s (deactivateLoop x s ps).1 := by
  induction ps generalizing s with
  | nil => exact Keeps.refl s
  | cons p ps ih =>
    unfold deactivateLoop
    split
    · split
      · exact (keeps_setActivated s p false false).trans ih
      · exact Keeps.refl s
    · rename_i hact
      rw [clearActivated hact]
      exact ih

theorem deactivateLoop_val (q : Ptr) :
    ((deactivateLoop x s ps).1.wps q).wp_val = (s.wps q).wp_val := by
  induction ps generalizing s with
  | nil => rfl
  | cons p ps ih =>
    unfold deactivateLoop
    split
    · split
      · rw [ih, setActivated_val]
        rfl
      · rfl
    · rw [ih, setActivated_val]

theorem deactivateLoop_pages (h : PagesOk s l) : PagesOk (deactivateLoop x s ps).1 l := by
  induction ps generalizing s with
  | nil => exact h
  | cons p ps ih =>
    unfold deactivateLoop
    split
    · split
      · exact ih h.deactivate
      · exact h
    · rename_i hact
      rw [clearActivated hact]
      exact ih h

/-- No watchpoint that the loop has passed, and no other that was not, is activated. -/
theorem deactivateLoop_all (hdone : 0 ≤ (deactivateLoop x s ps).2) {q : Ptr}
    (hq : q ∈ ps ∨ (s.wps q).wp_activated = false) :
    ((deactivateLoop x s ps).1.wps q).wp_activated = false := by
  induction ps generalizing s with
  | nil => exact hq.resolve_left (by simp)
  | cons p ps ih =>
    have hstep : ∀ t : State, (q ≠ p → (t.wps q).wp_activated = (s.wps q).wp_activated) →
        q ∈ ps ∨ ((t.set p fun wp => { wp with wp_activated := false }).wps q).wp_activated =
          false := by
      intro t ht
      by_cases hqp : q = p
      · right
        rw [hqp, set_self]
      · refine hq.imp ?_ ?_
        · intro hmem
          exact (List.mem_cons.mp hmem).resolve_left hqp
        · intro hf
          rw [set_of_ne t hqp, ht hqp, hf]
    unfold deactivateLoop at hdone ⊢
    split at hdone
    · rename_i hact
      rw [if_pos hact]
      split at hdone
      · rename_i hprot
        rw [if_pos hprot]
        exact ih hdone (hstep (setProtection s p false) fun _ => rfl)
      · exact absurd hdone (by simp)
    · rename_i hact
      rw [if_neg hact]
      exact ih hdone (hstep s fun _ => rfl)

/-- A loop that only sets `wp_installed`, `wp_watchnum` and `wp_val`. -/
structure Spares (s s' : State) : Prop extends Keeps s s' where
  readOnly : s'.readOnly = s.readOnly
  activated : ∀ p, (s'.wps p).wp_activated = (s.wps p).wp_activated

theorem Spares.refl (s : State) : Spares s s := ⟨Keeps.refl s, rfl, fun _ => rfl⟩

theorem Spares.trans (h : Spares s s') (h' : Spares s' s'') : Spares s s'' :=
  ⟨h.toKeeps.trans h'.toKeeps, h'.readOnly.trans h.readOnly,
    fun p => (h'.activated p).trans (h.activated p)⟩

theorem Spares.pages (h : Spares s s') (hpages : PagesOk s l) : PagesOk s' l :=
  hpages.of_keeps h.toKeeps h.readOnly h.activated

theorem spares_set (s : State) (p : Ptr) (installed : Bool) (watchnum : Int)
    (val : List (BitVec 8)) : Spares s (s.set p fun wp =>
      { wp with wp_installed := installed, wp_watchnum := watchnum, wp_val := val }) where
  toKeeps := keeps_set s p _ rfl rfl rfl rfl rfl
  readOnly := rfl
  activated := fun q => by
    by_cases h : q = p
    · rw [h, set_self]
    · rw [set_of_ne s h]

theorem uninstallLoop_spares : Spares s (uninstallLoop x s ps) := by
  induction ps generalizing s with
  | nil => exact Spares.refl s
  | cons p ps ih =>
    unfold uninstallLoop
    split
    · exact (spares_set s p false (-1) (s.wps p).wp_val).trans ih
    · exact ih

theorem uninstallLoop_val (q : Ptr) :
    ((uninstallLoop x s ps).wps q).wp_val = (s.wps q).wp_val := by
  induction ps generalizing s with
  | nil => rfl
  | cons p ps ih =>
    unfold uninstallLoop
    split
    · rw [ih]
      by_cases h : q = p
      · rw [h, set_self]
      · rw [set_of_ne s h]
    · exact ih

/-- The number that a watchpoint is installed under is put down. -/
def noteInstalled (x : Target) (s : State) (p : Ptr) : State :=
  match x.install p with
  | some n => s.set p fun wp => { wp with wp_installed := true, wp_watchnum := n }
  | none => s

theorem noteInstalled_spares : Spares s (noteInstalled x s p) := by
  unfold noteInstalled
  split
  · rename_i n _
    exact spares_set s p true n (s.wps p).wp_val
  · exact Spares.refl s

theorem noteInstalled_val (q : Ptr) :
    ((noteInstalled x s p).wps q).wp_val = (s.wps q).wp_val := by
  unfold noteInstalled
  split
  · by_cases h : q = p
    · rw [h, set_self]
    · rw [set_of_ne s h]
  · rfl

theorem installLoop_cons : installLoop x s (p :: ps) =
    if (s.wps p).wp_enabled then
      if x.canRead p then
        installLoop x ((noteInstalled x s p).set p fun wp => { wp with wp_val := current x wp }) ps
      else (noteInstalled x s p, false)
    else installLoop x s ps := rfl

theorem spares_record (s : State) (p : Ptr) (x : Target) :
    Spares s (s.set p fun wp => { wp with wp_val := current x wp }) :=
  spares_set s p (s.wps p).wp_installed (s.wps p).wp_watchnum (current x (s.wps p))

theorem installLoop_spares : Spares s (installLoop x s ps).1 := by
  induction ps generalizing s with
  | nil => exact Spares.refl s
  | cons p ps ih =>
    rw [installLoop_cons]
    split
    · split
      · exact noteInstalled_spares.trans ((spares_record _ p x).trans ih)
      · exact noteInstalled_spares
    · exact ih

/-- The bytes of a watchpoint are those it had, or those of the target. -/
theorem installLoop_val (q : Ptr) :
    ((installLoop x s ps).1.wps q).wp_val = (s.wps q).wp_val ∨
      ((installLoop x s ps).1.wps q).wp_val = current x (s.wps q) := by
  induction ps generalizing s with
  | nil => exact Or.inl rfl
  | cons p ps ih =>
    rw [installLoop_cons]
    split
    · split
      · have hkeeps := (noteInstalled_spares (x := x) (s := s) (p := p)).toKeeps
        have hrec := (spares_record (noteInstalled x s p) p x).toKeeps
        have hval := ih (s := (noteInstalled x s p).set p fun wp =>
          { wp with wp_val := current x wp })
        rw [(hkeeps.trans hrec).current q] at hval
        by_cases h : q = p
        · rw [h, set_self] at hval
          rw [h]
          rw [hkeeps.current p] at hval
          exact Or.inr (hval.elim id id)
        · rwa [set_of_ne _ h, noteInstalled_val] at hval
      · exact Or.inl (noteInstalled_val q)
    · exact ih

/-- An installation that comes to the end has recorded the bytes of every enabled watchpoint. -/
theorem installLoop_all (hdone : (installLoop x s ps).2 = true) {q : Ptr} (hq : q ∈ ps)
    (henabled : (s.wps q).wp_enabled = true) :
    ((installLoop x s ps).1.wps q).wp_val = current x (s.wps q) := by
  induction ps generalizing s with
  | nil => exact absurd hq (by simp)
  | cons p ps ih =>
    rw [installLoop_cons] at hdone ⊢
    by_cases hp : (s.wps p).wp_enabled = true
    · rw [if_pos hp] at hdone ⊢
      by_cases hread : x.canRead p = true
      · rw [if_pos hread] at hdone ⊢
        have hkeeps := ((noteInstalled_spares (x := x) (s := s) (p := p)).trans
          (spares_record (noteInstalled x s p) p x)).toKeeps
        by_cases hqps : q ∈ ps
        · rw [ih hdone hqps ((hkeeps.enabled q).trans henabled), hkeeps.current]
        · obtain rfl := (List.mem_cons.mp hq).resolve_right hqps
          rcases installLoop_val (x := x) q with hval | hval
          · rw [hval, set_self, noteInstalled_spares.toKeeps.current]
          · rw [hval, hkeeps.current]
      · rw [if_neg hread] at hdone
        exact absurd hdone (by simp)
    · rw [if_neg hp] at hdone ⊢
      refine ih hdone ((List.mem_cons.mp hq).resolve_left ?_) henabled
      rintro rfl
      exact hp henabled

/-! ## Adding and removing -/

@[simp] theorem setNext_next (s : State) (p n : Ptr) :
    (s.set p fun wp => { wp with wp_next := n }).next = Function.update s.next p n :=
  set_next s p _

@[simp] theorem setNext_prev (s : State) (p n : Ptr) :
    (s.set p fun wp => { wp with wp_next := n }).prev = s.prev := by
  rw [set_prev]
  exact Function.update_eq_self p s.prev

@[simp] theorem setPrev_next (s : State) (p m : Ptr) :
    (s.set p fun wp => { wp with wp_prev := m }).next = s.next := by
  rw [set_next]
  exact Function.update_eq_self p s.next

@[simp] theorem setPrev_prev (s : State) (p m : Ptr) :
    (s.set p fun wp => { wp with wp_prev := m }).prev = Function.update s.prev p m :=
  set_prev s p _

/-- The state once a new watchpoint has been linked in. -/
def linkIn (s : State) (p : Ptr) : State :=
  let s := s.set p fun wp => { wp with wp_next := s.next Wphead }
  let s := s.set p fun wp => { wp with wp_prev := Wphead }
  let s := s.set (s.next Wphead) fun wp => { wp with wp_prev := p }
  s.set Wphead fun wp => { wp with wp_next := p }

/-- The state once a watchpoint has been taken out. -/
def linkOut (s : State) (p : Ptr) : State :=
  let s := s.set (s.prev p) fun wp => { wp with wp_next := s.next p }
  s.set (s.next p) fun wp => { wp with wp_prev := s.next p }

theorem linkIn_next : (linkIn s p).next =
    Function.update (Function.update s.next p (s.next Wphead)) Wphead p := by
  simp [linkIn]

theorem linkIn_prev (hp : p ≠ Wphead) : (linkIn s p).prev =
    Function.update (Function.update s.prev p Wphead) (s.next Wphead) p := by
  simp [linkIn, Function.update_of_ne hp.symm]

/-- The only watchpoint is taken out: both of its links are to the head, so that the head is what
the slip in `wp_prev` comes to. -/
theorem linkOut_only (hring : IsRing s.next s.prev Wphead [p]) :
    IsRing (linkOut s p).next (linkOut s p).prev Wphead [] := by
  obtain ⟨hnext, hprev, hnext', hprev'⟩ := hring.seg
  have hp : p ≠ Wphead := by
    rintro rfl
    exact absurd hring.nodup (by simp)
  apply isRing_nil
  · simp [linkOut, hprev, hnext']
  · simp [linkOut, hprev, hnext', Function.update_of_ne hp]

/-- A watchpoint that may have been linked to others. -/
structure Alike (w w' : Watchpoint) : Prop where
  addr : w'.wp_addr = w.wp_addr
  size : w'.wp_size = w.wp_size
  activated : w'.wp_activated = w.wp_activated
  val : w'.wp_val = w.wp_val

theorem Alike.refl (w : Watchpoint) : Alike w w := ⟨rfl, rfl, rfl, rfl⟩

theorem Alike.trans {w w' w'' : Watchpoint} (h : Alike w w') (h' : Alike w' w'') : Alike w w'' :=
  ⟨h'.addr.trans h.addr, h'.size.trans h.size, h'.activated.trans h.activated, h'.val.trans h.val⟩

theorem alike_set {f : Watchpoint → Watchpoint} (hf : ∀ w, Alike w (f w)) (q : Ptr) :
    Alike (s.wps q) ((s.set p f).wps q) := by
  by_cases h : q = p
  · rw [h, set_self]
    exact hf _
  · rw [set_of_ne s h]
    exact Alike.refl _

theorem alike_setNext (p n q : Ptr) :
    Alike (s.wps q) ((s.set p fun wp => { wp with wp_next := n }).wps q) := by
  apply alike_set
  exact fun _ => ⟨rfl, rfl, rfl, rfl⟩

theorem alike_setPrev (p m q : Ptr) :
    Alike (s.wps q) ((s.set p fun wp => { wp with wp_prev := m }).wps q) := by
  apply alike_set
  exact fun _ => ⟨rfl, rfl, rfl, rfl⟩

theorem linkIn_alike (q : Ptr) : Alike (s.wps q) ((linkIn s p).wps q) := by
  unfold linkIn
  refine (alike_setNext p (s.next Wphead) q).trans ((alike_setPrev p Wphead q).trans ?_)
  exact (alike_setPrev _ p q).trans (alike_setNext Wphead p q)

theorem covers_congr {a : Word} (hpage : s'.page = s.page) (h : Alike (s.wps p) (s'.wps p)) :
    covers s' p a = covers s p a := by
  unfold covers
  rw [h.addr, h.size, hpage]

theorem dxAddWatchpoint_alike {q : Ptr} (hq : q ≠ p) (addr : Word) (size : Nat)
    (val : List (BitVec 8)) : Alike (s.wps q) ((dxAddWatchpoint s p addr size val).wps q) := by
  have hsame : (dxAddWatchpoint s p addr size val).wps q = (linkIn s p).wps q :=
    Function.update_of_ne hq ..
  rw [hsame]
  exact linkIn_alike q

/-- Setting the members of a new watchpoint changes no link. -/
theorem dxAddWatchpoint_links (addr : Word) (size : Nat) (val : List (BitVec 8)) :
    (dxAddWatchpoint s p addr size val).next = (linkIn s p).next ∧
      (dxAddWatchpoint s p addr size val).prev = (linkIn s p).prev := by
  constructor
  · funext q
    by_cases hq : q = p
    · rw [hq]
      change (Function.update (linkIn s p).wps p _ p).wp_next = _
      rw [Function.update_self]
      rfl
    · exact congrArg Watchpoint.wp_next (Function.update_of_ne hq ..)
  · funext q
    by_cases hq : q = p
    · rw [hq]
      change (Function.update (linkIn s p).wps p _ p).wp_prev = _
      rw [Function.update_self]
      rfl
    · exact congrArg Watchpoint.wp_prev (Function.update_of_ne hq ..)

theorem dxAddWatchpoint_ring (addr : Word) (size : Nat) (val : List (BitVec 8))
    (hring : IsRing s.next s.prev Wphead l) (hp : p ∉ Wphead :: l) :
    IsRing (dxAddWatchpoint s p addr size val).next (dxAddWatchpoint s p addr size val).prev
      Wphead (p :: l) := by
  have hne : p ≠ Wphead := fun hc => hp (hc ▸ List.mem_cons_self)
  obtain ⟨hnext, hprev⟩ := dxAddWatchpoint_links (s := s) (p := p) addr size val
  rw [hnext, hprev]
  exact hring.link hp linkIn_next (linkIn_prev hne)

/-! ## The invariant -/

/-- The list is a ring of records that have not been freed, a page is only read-only for an
activated watchpoint, and the watchpoints keep what was recorded of them. -/
structure Inv (s : State) (log : Log) : Prop where
  ring : IsRing s.next s.prev Wphead log.listed
  live : ∀ p ∈ log.listed, s.live p = true
  count : log.listed.length ≤ s.count
  pages : PagesOk s log.listed
  vals : log.fresh = true → ∀ p ∈ log.listed, ∀ bs, log.recorded p = some bs →
    (s.wps p).wp_val = bs

theorem Inv.start (page : Word → Word) : Inv (start page) Log.start where
  ring := isRing_nil rfl rfl
  live := fun p hp => absurd hp (by simp [Log.start])
  count := Nat.zero_le _
  pages := fun a ha => absurd ha (by simp [ups_rules.watchpoints.start])
  vals := fun _ p hp => absurd hp (by simp [Log.start])

theorem Inv.nodes (h : Inv s log) : nodes s = some log.listed := by
  refine walk_of_seg h.ring.seg (List.nodup_cons.mp h.ring.nodup).1 h.live ?_
  exact Nat.lt_succ_of_le h.count

theorem Inv.of_keeps (h : Inv s log) (hkeeps : Keeps s s') (hpages : PagesOk s' log.listed)
    (hval : ∀ p, (s'.wps p).wp_val = (s.wps p).wp_val) : Inv s' log where
  ring := by
    rw [hkeeps.next, hkeeps.prev]
    exact h.ring
  live := by
    rw [hkeeps.live]
    exact h.live
  count := by
    rw [hkeeps.count]
    exact h.count
  pages := hpages
  vals := fun hfresh p hp bs hbs => (hval p).trans (h.vals hfresh p hp bs hbs)

/-- Another log of the same list. -/
theorem Inv.relog {log' : Log} (h : Inv s log) (hlisted : log'.listed = log.listed)
    (hvals : log'.fresh = true → ∀ p ∈ log.listed, ∀ bs, log'.recorded p = some bs →
      (s.wps p).wp_val = bs) : Inv s log' where
  ring := hlisted ▸ h.ring
  live := hlisted ▸ h.live
  count := hlisted ▸ h.count
  pages := hlisted ▸ h.pages
  vals := hlisted ▸ hvals

theorem Inv.add (h : Inv s log) (hp : p ≠ Wphead) (hlive : s.live p = false) (addr : Word)
    (size : Nat) (val : List (BitVec 8)) (r : Result) :
    Inv (dxAddWatchpoint s p addr size val) (log.after x s (.add p addr size val) r) := by
  have hnot : p ∉ log.listed := by
    intro hc
    rw [h.live p hc] at hlive
    exact Bool.noConfusion hlive
  have hother : ∀ q ∈ log.listed, q ≠ p := by
    rintro q hq rfl
    exact hnot hq
  have hlisted : (log.after x s (.add p addr size val) r).listed = p :: log.listed := rfl
  have hrecorded : (log.after x s (.add p addr size val) r).recorded =
      Function.update log.recorded p none := rfl
  refine ⟨?_, ?_, ?_, ?_, ?_⟩
  · rw [hlisted]
    refine dxAddWatchpoint_ring addr size val h.ring ?_
    rw [List.mem_cons, not_or]
    exact ⟨hp, hnot⟩
  · rw [hlisted]
    intro q hq
    change Function.update s.live p true q = true
    by_cases hqp : q = p
    · rw [hqp, Function.update_self]
    · rw [Function.update_of_ne hqp]
      exact h.live q ((List.mem_cons.mp hq).resolve_left hqp)
  · rw [hlisted, List.length_cons]
    exact Nat.succ_le_succ h.count
  · rw [hlisted]
    intro a ha
    obtain ⟨q, hq, hact, hcov⟩ := h.pages a ha
    have halike := dxAddWatchpoint_alike (s := s) (hother q hq) addr size val
    refine ⟨q, List.mem_cons_of_mem p hq, halike.activated.trans hact, ?_⟩
    have hpage : (dxAddWatchpoint s p addr size val).page = s.page := rfl
    rw [covers_congr hpage halike, hcov]
  · rw [hlisted, hrecorded]
    intro hfresh q hq bs hbs
    by_cases hqp : q = p
    · rw [hqp, Function.update_self] at hbs
      exact absurd hbs (by simp)
    · rw [Function.update_of_ne hqp] at hbs
      rw [(dxAddWatchpoint_alike hqp addr size val).val]
      exact h.vals hfresh q ((List.mem_cons.mp hq).resolve_left hqp) bs hbs

theorem Inv.remove (h : Inv s log) (hlisted : log.listed = [p])
    (hact : (s.wps p).wp_activated = false) (r : Result) :
    Inv (dxRemoveWatchpoint s p) (log.after x s (.remove p) r) := by
  have hempty : (log.after x s (.remove p) r).listed = [] := by
    change log.listed.erase p = []
    rw [hlisted, List.erase_cons_head]
  refine ⟨?_, ?_, ?_, ?_, ?_⟩
  · rw [hempty]
    exact linkOut_only (hlisted ▸ h.ring)
  · rw [hempty]
    exact fun q hq => absurd hq (by simp)
  · rw [hempty]
    exact Nat.zero_le _
  · intro a ha
    obtain ⟨q, hq, hq1, -⟩ := h.pages a ha
    rw [hlisted, List.mem_singleton] at hq
    rw [hq, hact] at hq1
    exact Bool.noConfusion hq1
  · rw [hempty]
    exact fun _ q hq => absurd hq (by simp)

/-! ## Runs -/

theorem dxEnableWatchpoint_of (s : State) (p : Ptr) (enabled : Bool) (q : Ptr) :
    Alike (s.wps q) ((dxEnableWatchpoint s p enabled).wps q) := by
  apply alike_set
  exact fun _ => ⟨rfl, rfl, rfl, rfl⟩

theorem Inv.setEnabled (h : Inv s log) (p : Ptr) (enabled : Bool) :
    Inv (dxEnableWatchpoint s p enabled) log := by
  have halike := dxEnableWatchpoint_of s p enabled
  have hnext : (dxEnableWatchpoint s p enabled).next = s.next := by
    rw [dxEnableWatchpoint, set_next]
    exact Function.update_eq_self p s.next
  have hprev : (dxEnableWatchpoint s p enabled).prev = s.prev := by
    rw [dxEnableWatchpoint, set_prev]
    exact Function.update_eq_self p s.prev
  refine ⟨?_, h.live, h.count, ?_, ?_⟩
  · rw [hnext, hprev]
    exact h.ring
  · intro a ha
    obtain ⟨q, hq, hact, hcov⟩ := h.pages a ha
    have hpage : (dxEnableWatchpoint s p enabled).page = s.page := rfl
    refine ⟨q, hq, (halike q).activated.trans hact, ?_⟩
    rw [covers_congr hpage (halike q), hcov]
  · intro hfresh q hq bs hbs
    rw [(halike q).val]
    exact h.vals hfresh q hq bs hbs

theorem Inv.activate (h : Inv s log) (n : Nat) : Inv (activateLoop x s n log.listed).1 log :=
  h.of_keeps (activateLoop_keeps n) (activateLoop_pages n (List.Subset.refl _) h.pages)
    (activateLoop_val n)

theorem Inv.deactivate (h : Inv s log) : Inv (deactivateLoop x s log.listed).1 log :=
  h.of_keeps deactivateLoop_keeps (deactivateLoop_pages h.pages) deactivateLoop_val

theorem Inv.uninstall (h : Inv s log) : Inv (uninstallAll x s log.listed).1 log := by
  have hde : Inv (deactivateLoop x s log.listed).1 log := h.deactivate
  unfold uninstallAll
  split
  rename_i t r ht
  rw [ht] at hde
  split
  · exact hde
  · exact hde.of_keeps uninstallLoop_spares.toKeeps (uninstallLoop_spares.pages hde.pages)
      uninstallLoop_val

/-- A successful uninstallation has deactivated every watchpoint. -/
theorem uninstallAll_done (hdone : (uninstallAll x s ps).2 = 0) {q : Ptr} (hq : q ∈ ps) :
    ((uninstallAll x s ps).1.wps q).wp_activated = false := by
  unfold uninstallAll at hdone ⊢
  split at hdone
  rename_i t r ht
  split at hdone
  · exact absurd hdone (by simp)
  · rename_i hr
    rw [if_neg hr, uninstallLoop_spares.activated]
    have ht' : (deactivateLoop x s ps).1 = t := by rw [ht]
    have hr' : (deactivateLoop x s ps).2 = r := by rw [ht]
    rw [← ht']
    exact deactivateLoop_all (by omega) (Or.inl hq)

theorem Inv.install (h : Inv s log) :
    Inv (installAll x s log.listed).1
      (log.after x s .installAll (.int (installAll x s log.listed).2)) := by
  have hspares : Spares s (installLoop x s log.listed).1 := installLoop_spares
  have hall : (installLoop x s log.listed).2 = true → ∀ q ∈ log.listed,
      (s.wps q).wp_enabled = true →
        ((installLoop x s log.listed).1.wps q).wp_val = current x (s.wps q) :=
    fun hdone q hq henabled => installLoop_all hdone hq henabled
  have hpages := hspares.pages h.pages
  unfold installAll
  rcases hloop : installLoop x s log.listed with ⟨t, done⟩
  rw [hloop] at hspares hall hpages
  -- Without the bytes of this installation, which come from its first loop
  have hbare : Inv t { log with fresh := false } := by
    refine ⟨?_, ?_, ?_, hpages, ?_⟩
    · rw [hspares.next, hspares.prev]
      exact h.ring
    · rw [hspares.live]
      exact h.live
    · rw [hspares.count]
      exact h.count
    · exact fun hc => absurd hc (by simp)
  cases done with
  | false => exact hbare
  | true =>
    dsimp only
    have hact := hbare.activate (x := x) 0
    refine hact.relog ?_ ?_
    · unfold Log.after
      dsimp only
      split <;> rfl
    · unfold Log.after
      dsimp only
      split
      · intro _ q hq bs hbs
        dsimp only at hbs
        split at hbs
        · rename_i henabled
          rw [activateLoop_val, hall rfl q hq henabled]
          exact Option.some.inj hbs
        · exact absurd hbs (by simp)
      · exact fun hc => absurd hc (by simp)

/-- A watchpoint that the check returns is one whose bytes are not those recorded. -/
theorem Inv.check (h : Inv s log) (hmeets : ∀ a ∈ log.listed, (s.wps a).wp_enabled = true →
    log.fresh = true ∧ (log.recorded a).isSome = true) :
    checkAll x s log.listed ≠ none ↔ ∃ a ∈ log.listed, Differs x s log a := by
  have hiff : ∀ a ∈ log.listed, (hasChanged x s a = true ↔ Differs x s log a) := by
    intro a ha
    unfold hasChanged Differs
    rw [Bool.and_eq_true, Bool.and_eq_true, bne_iff_ne, and_assoc]
    refine and_congr_right fun henabled => and_congr_right fun _ => ?_
    obtain ⟨hfresh, hsome⟩ := hmeets a ha henabled
    obtain ⟨bs, hbs⟩ := Option.isSome_iff_exists.mp hsome
    rw [h.vals hfresh a ha bs hbs]
    constructor
    · exact fun hne => ⟨bs, hbs, hne⟩
    · rintro ⟨bs', hbs', hne⟩
      rw [hbs] at hbs'
      rwa [Option.some.inj hbs']
  rw [checkAll, ne_eq, List.find?_eq_none, not_forall]
  constructor
  · rintro ⟨a, ha⟩
    rw [Classical.not_imp, not_not] at ha
    exact ⟨a, ha.1, (hiff a ha.1).mp ha.2⟩
  · rintro ⟨a, ha, hdiff⟩
    exact ⟨a, by simp [ha, (hiff a ha).mpr hdiff]⟩

theorem Inv.exec_installAll (h : Inv s log) : Op.installAll.exec x s =
    some ((installAll x s log.listed).1, .int (installAll x s log.listed).2) := by
  rw [Op.exec, h.nodes, Option.map_some]

theorem Inv.exec_uninstallAll (h : Inv s log) : Op.uninstallAll.exec x s =
    some ((uninstallAll x s log.listed).1, .int (uninstallAll x s log.listed).2) := by
  rw [Op.exec, h.nodes, Option.map_some]

theorem Inv.exec_checkAll (h : Inv s log) :
    Op.checkAll.exec x s = some (s, .watchpoint (checkAll x s log.listed)) := by
  rw [Op.exec, h.nodes, Option.map_some]

/-- A call comes back and keeps the invariant. -/
theorem Inv.exec {op : Op} (h : Inv s log) (hlegal : Pass.Legal ⟨s, log, x, op⟩)
    (hmeets : Pass.Meets ⟨s, log, x, op⟩) :
    ∃ s' r, op.exec x s = some (s', r) ∧ Inv s' (log.after x s op r) := by
  cases op with
  | add q addr size val => exact ⟨_, _, rfl, h.add hlegal.1 hlegal.2 addr size val _⟩
  | remove q => exact ⟨_, _, rfl, h.remove hmeets (hlegal.2 q hlegal.1).2 _⟩
  | setEnabled q enabled => exact ⟨_, _, rfl, h.setEnabled q enabled⟩
  | installAll => exact ⟨_, _, h.exec_installAll, h.install⟩
  | activateAll =>
    refine ⟨(activateLoop x s 0 log.listed).1, .int (activateLoop x s 0 log.listed).2, ?_,
      h.activate 0⟩
    rw [Op.exec, h.nodes, Option.map_some]
  | deactivateAll =>
    refine ⟨(deactivateLoop x s log.listed).1, .int (deactivateLoop x s log.listed).2, ?_,
      h.deactivate⟩
    rw [Op.exec, h.nodes, Option.map_some]
  | uninstallAll => exact ⟨_, _, h.exec_uninstallAll, h.uninstall⟩
  | checkAll => exact ⟨_, _, h.exec_checkAll, h⟩

/-- An uninstallation that succeeds leaves no watchpoint activated, and so no page read-only. -/
theorem Inv.uninstalled (h : Inv s log) (hdone : (uninstallAll x s log.listed).2 = 0) :
    (∀ a ∈ log.listed, ((uninstallAll x s log.listed).1.wps a).wp_activated = false) ∧
      ∀ a, (uninstallAll x s log.listed).1.readOnly a = false := by
  have hall : ∀ a ∈ log.listed, ((uninstallAll x s log.listed).1.wps a).wp_activated = false :=
    fun a ha => uninstallAll_done hdone ha
  refine ⟨hall, fun a => ?_⟩
  by_contra hc
  rw [Bool.not_eq_false] at hc
  obtain ⟨q, hq, hact, -⟩ := h.uninstall.pages a hc
  rw [hall q hq] at hact
  exact Bool.noConfusion hact

theorem Inv.right {p : Pass} (h : Inv p.s p.log) (hlegal : p.Legal) (hmeets : p.Meets) :
    p.Right := by
  obtain ⟨s, log, x, op⟩ := p
  obtain ⟨s', r, hexec, hinv⟩ := h.exec hlegal hmeets
  refine ⟨s', r, hexec, hinv.ring, ?_, ?_⟩
  · rintro q rfl rfl
    have hq := hexec.symm.trans h.exec_checkAll
    injection hq with hq
    injection hq with _ hq
    injection hq with hq
    rw [hq]
    exact h.check hmeets
  · rintro rfl rfl
    have hr := hexec.symm.trans h.exec_uninstallAll
    injection hr with hr
    injection hr with hs hr
    injection hr with hr
    rw [hs]
    exact h.uninstalled hr.symm

theorem passes_right (h : Inv s log) (calls : List (Target × Op))
    (hlegal : ∀ p ∈ passes s log calls, p.Legal) (hmeets : ∀ p ∈ passes s log calls, p.Meets) :
    ∀ p ∈ passes s log calls, p.Right := by
  induction calls generalizing s log with
  | nil => exact fun p hp => absurd hp (by simp [passes])
  | cons call calls ih =>
    obtain ⟨x, op⟩ := call
    unfold passes at hlegal hmeets ⊢
    rw [List.forall_mem_cons] at hlegal hmeets ⊢
    refine ⟨h.right hlegal.1 hmeets.1, ?_⟩
    obtain ⟨s', r, hexec, hinv⟩ := h.exec hlegal.1 hmeets.1
    rw [hexec] at hlegal hmeets ⊢
    exact ih hinv hlegal.2 hmeets.2

theorem watchpoints_are_kept_and_checked (page : Word → Word) (calls : List (Target × Op))
    (hlegal : ∀ p ∈ passes (start page) Log.start calls, p.Legal)
    (hmeets : ∀ p ∈ passes (start page) Log.start calls, p.Meets) :
    ∀ p ∈ passes (start page) Log.start calls, p.Right :=
  passes_right (Inv.start page) calls hlegal hmeets

/-- A target in which everything succeeds. -/
def willing : Target := ⟨fun _ => 0, fun _ => true, fun _ => none, fun _ => true, fun _ => true⟩

def installedAndRemoved : List (Target × Op) :=
  [(willing, .add 1 64 4 []), (willing, .installAll), (willing, .checkAll), (willing, .uninstallAll),
    (willing, .remove 1)]

theorem a_watchpoint_is_installed_checked_and_removed :
    (passes (start id) Log.start installedAndRemoved).length = 5 ∧
    ∀ p ∈ passes (start id) Log.start installedAndRemoved, p.Right :=
  ⟨by decide, watchpoints_are_kept_and_checked id _ (by decide) (by decide)⟩

/-- The record that is left leads back to itself. -/
theorem a_watchpoint_removed_from_two_breaks_the_ring :
    ¬∀ page calls, (∀ p ∈ passes (start page) Log.start calls, p.Legal) →
      ∀ p ∈ passes (start page) Log.start calls, p.Right := by
  intro h
  obtain ⟨s', r, hexec, hring, -⟩ := h id
    [(willing, .add 1 64 4 []), (willing, .add 2 72 4 []), (willing, .remove 2)] (by decide) _
    (List.mem_cons_of_mem _ (List.mem_cons_of_mem _ List.mem_cons_self))
  cases hexec
  have hback := hring.seg.2.1
  exact absurd hback (by decide)

end ups_rules.watchpoints
