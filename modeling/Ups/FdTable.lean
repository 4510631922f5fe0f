-- The file descriptors that an interpreted program has opened (ci_register_fd and its siblings in
-- xc_machine.c, and the builtins of xc_builtins.c that open and close). A builtin calls the C
-- library first and then brings the table up to date by hand.
import Mathlib.Data.Finset.Basic
import Mathlib.Data.List.GetD

namespace ups_rules.fd_table

/-! ## The pure model -/

/-- `ma_fdtab`, as long as `ma_fdtab_size`. -/
abbrev FdTab := List (BitVec 8)

/-- What `e_realloc` finds in the memory that it adds, by the index in the table. -/
abbrev Junk := Nat → BitVec 8

def grow (junk : Junk) (tab : FdTab) (fd : Nat) : FdTab :=
  if tab.length ≤ fd then
    tab ++ (List.range (fd + 32 - tab.length)).map fun i => junk (tab.length + i)
  else tab

/-- `none` is a panic. -/
def ciRegisterFd (junk : Junk) (tab : FdTab) (fd : Int) : Option FdTab :=
  if fd < 0 then none
  else
    let tab := grow junk tab fd.toNat
    if tab.getD fd.toNat 0 ≠ 0 then none else some (tab.set fd.toNat 1)

def ciUnregisterFd (tab : FdTab) (fd : Int) : Option FdTab :=
  if fd < 0 ∨ tab.length ≤ fd.toNat then none
  else if tab.getD fd.toNat 0 ≠ 1 then none
  else some (tab.set fd.toNat 0)

def ciFdIsRegistered (tab : FdTab) (fd : Int) : Bool :=
  0 ≤ fd && fd.toNat < tab.length && tab.getD fd.toNat 0 != 0

/-- The rest of the loop of `ci_reset_machine`, and the descriptors that it closes. -/
def resetLoop : Nat → Nat → FdTab → List Nat × FdTab
  | _, 0, tab => ([], tab)
  | fd, n + 1, tab =>
    if tab.getD fd 0 ≠ 0 then
      let r := resetLoop (fd + 1) n (tab.set fd 0)
      (fd :: r.1, r.2)
    else resetLoop (fd + 1) n tab

def ciResetMachine (tab : FdTab) : List Nat × FdTab := resetLoop 3 (tab.length - 3) tab

/-- `ci_make_machine` and the loop of `ci_initialise_machine`. -/
def ciInitialiseFds : FdTab := 1 :: 1 :: 1 :: List.replicate 61 0

example : ((ciRegisterFd (fun _ => 0) (List.replicate 64 0) 0).bind fun tab =>
    (ciRegisterFd (fun _ => 0) tab 1).bind fun tab => ciRegisterFd (fun _ => 0) tab 2) =
    some ciInitialiseFds := by rfl

def F_DUPFD : Int := 0

/-- A call, with what the C library gives back: a descriptor, whether it worked, or a stream that
has the name `fp`. -/
inductive Call where
  | builtin_open (res : Option Nat)
  | builtin_creat (res : Option Nat)
  | builtin_close (fd : Int) (ok : Bool)
  | builtin_fcntl (fd cmd : Int) (res : Option Nat)
  | builtin_pipe (res : Option (Nat × Nat))
  | builtin_dup (fd : Int) (res : Option Nat)
  | builtin_dup2 (fd newfd : Int) (ok : Bool)
  | builtin_fopen (fp : Nat) (res : Option Nat)
  | builtin_fclose (fp : Nat)
  | builtin_freopen (fp : Nat) (res : Option Nat)
  | builtin_popen (fp : Nat) (res : Option Nat)
  | builtin_pclose (fp : Nat)
  | ci_reset_machine

/-- Registers what the library gave back, if it gave anything. -/
def registerResult (junk : Junk) (tab : FdTab) : Option Nat → Option FdTab
  | none => some tab
  | some fd => ciRegisterFd junk tab fd

/-- A call, with the memory that is added to the table and what `fileno` says of a stream. -/
def Call.exec (junk : Junk) (fileno : Nat → Nat) (tab : FdTab) : Call → Option FdTab
  | .builtin_open res | .builtin_creat res => registerResult junk tab res
  | .builtin_close fd ok =>
    if ciFdIsRegistered tab fd && ok then ciUnregisterFd tab fd else some tab
  | .builtin_fcntl fd cmd res =>
    -- the descriptor that is registered is not the new one
    if ciFdIsRegistered tab fd && cmd == F_DUPFD && res.isSome then ciRegisterFd junk tab fd
    else some tab
  | .builtin_pipe none => some tab
  | .builtin_pipe (some (fd0, fd1)) =>
    match ciRegisterFd junk tab fd0 with
    | none => none
    | some tab => ciRegisterFd junk tab fd1
  | .builtin_dup _ res => registerResult junk tab res
  | .builtin_dup2 _ newfd ok =>
    if ok && !ciFdIsRegistered tab newfd then ciRegisterFd junk tab newfd else some tab
  | .builtin_fopen _ res | .builtin_popen _ res => registerResult junk tab res
  | .builtin_fclose fp | .builtin_pclose fp => ciUnregisterFd tab (fileno fp)
  | .builtin_freopen fp res =>
    match ciUnregisterFd tab (fileno fp) with
    | none => none
    | some tab => registerResult junk tab res
  | .ci_reset_machine => some (ciResetMachine tab).2

/-! ## What the table is for -/

/-- The descriptors that are open, those among them that the program opened and has not closed
since (and 0 to 2 while it has not closed them), and its streams with their descriptors. -/
structure World where
  opened : Finset Nat
  owned : Finset Nat
  streams : Nat → Option Nat

namespace World

def opens (w : World) (fd : Nat) : World :=
  { w with opened := insert fd w.opened, owned := insert fd w.owned }

/-- A stream of a closed descriptor is not used again. -/
def closes (w : World) (fd : Nat) : World where
  opened := w.opened.erase fd
  owned := w.owned.erase fd
  streams fp := if w.streams fp = some fd then none else w.streams fp

def opensStream (w : World) (fp fd : Nat) : World :=
  { w.opens fd with streams := fun x => if x = fp then some fd else w.streams x }

def fileno (w : World) (fp : Nat) : Nat := (w.streams fp).getD 0

end World

/-- What a call means for the descriptors of the program. -/
def Call.after (w : World) : Call → World
  | .builtin_open res | .builtin_creat res | .builtin_dup _ res => (res.map w.opens).getD w
  | .builtin_close fd ok => if ok ∧ 0 ≤ fd ∧ fd.toNat ∈ w.owned then w.closes fd.toNat else w
  | .builtin_fcntl fd _ res =>
    if 0 ≤ fd ∧ fd.toNat ∈ w.owned then (res.map w.opens).getD w else w
  | .builtin_pipe res => (res.map fun p => (w.opens p.1).opens p.2).getD w
  | .builtin_dup2 _ newfd ok => if ok then w.opens newfd.toNat else w
  | .builtin_fopen fp res | .builtin_popen fp res => (res.map (w.opensStream fp)).getD w
  | .builtin_fclose fp | .builtin_pclose fp => w.closes (w.fileno fp)
  | .builtin_freopen fp res =>
    (res.map ((w.closes (w.fileno fp)).opensStream fp)).getD (w.closes (w.fileno fp))
  | .ci_reset_machine =>
    { opened := w.opened.filter fun fd => fd ∉ w.owned ∨ fd < 3
      owned := w.owned.filter (· < 3)
      streams := fun fp => (w.streams fp).filter (· < 3) }

/-- The library gives back descriptors that are not open, and a stream call is of a stream whose
descriptor is not closed. -/
def Call.Legal (w : World) : Call → Prop
  | .builtin_open res | .builtin_creat res | .builtin_dup _ res => ∀ fd ∈ res, fd ∉ w.opened
  | .builtin_close _ _ => True
  | .builtin_fcntl _ cmd res => cmd = F_DUPFD ∧ ∀ fd ∈ res, fd ∉ w.opened
  | .builtin_pipe res => ∀ p ∈ res, p.1 ∉ w.opened ∧ p.2 ∉ w.opened ∧ p.1 ≠ p.2
  | .builtin_dup2 _ newfd ok => ok = true → 0 ≤ newfd
  | .builtin_fopen _ res | .builtin_popen _ res => ∀ fd ∈ res, fd ∉ w.opened
  | .builtin_fclose fp | .builtin_pclose fp => (w.streams fp).isSome
  | .builtin_freopen fp res =>
    (w.streams fp).isSome ∧ ∀ fd ∈ res, fd ∉ (w.closes (w.fileno fp)).opened
  | .ci_reset_machine => True

/-- A call and the memory that is added to the table in it. -/
structure Turn where
  call : Call
  junk : Junk

def Turn.exec (s : World × FdTab) (t : Turn) : Option (World × FdTab) :=
  (t.call.exec t.junk s.1.fileno s.2).map fun tab => (t.call.after s.1, tab)

/-- Before each turn, and at the end, the state is as `P` says; `none` is not reached. -/
def Throughout (P : World × FdTab → Prop) : World × FdTab → List Turn → Prop
  | s, [] => P s
  | s, t :: ts => P s ∧ ∃ s', t.exec s = some s' ∧ Throughout P s' ts

/-- The table has exactly the descriptors of the program, and resetting the machine closes those
from 3 up, each once. -/
structure Exact (s : World × FdTab) : Prop where
  registered : ∀ fd : Int, ciFdIsRegistered s.2 fd = true ↔ 0 ≤ fd ∧ fd.toNat ∈ s.1.owned
  closed : (ciResetMachine s.2).1.Nodup ∧
    ∀ fd, fd ∈ (ciResetMachine s.2).1 ↔ 3 ≤ fd ∧ fd ∈ s.1.owned

/-- The descriptors that a call registers when the library gives them back. -/
def Call.registers : Call → List Nat
  | .builtin_open res | .builtin_creat res | .builtin_dup _ res | .builtin_fopen _ res
  | .builtin_popen _ res | .builtin_freopen _ res => res.toList
  | .builtin_pipe res => (res.map fun p => [p.1, p.2]).getD []
  | .builtin_dup2 _ newfd ok => if ok then [newfd.toNat] else []
  | .builtin_close _ _ | .builtin_fcntl _ _ _ | .builtin_fclose _ | .builtin_pclose _
  | .ci_reset_machine => []

/-- A descriptor of the program is not duplicated by `fcntl`, and where the table grows there are
zeros in the memory that is added. -/
def Turn.Fits (s : World × FdTab) (t : Turn) : Prop :=
  (∀ fd cmd res, t.call = .builtin_fcntl fd cmd res → 0 ≤ fd → fd.toNat ∈ s.1.owned → res = none) ∧
    ∀ fd ∈ t.call.registers, s.2.length ≤ fd →
      ∀ i, s.2.length ≤ i → i < fd + 32 → t.junk i = 0

/-- Every turn is legal and fits. -/
def MeetsThroughout : World × FdTab → List Turn → Prop
  | _, [] => True
  | s, t :: ts => t.call.Legal s.1 ∧ t.Fits s ∧ ∀ s', t.exec s = some s' → MeetsThroughout s' ts

def LegalThroughout : World × FdTab → List Turn → Prop
  | _, [] => True
  | s, t :: ts => t.call.Legal s.1 ∧ ∀ s', t.exec s = some s' → LegalThroughout s' ts

/-! ## The table -/

/-- The table has a one for each of these descriptors and zeros elsewhere. -/
def Slots (owned : Finset Nat) (tab : FdTab) : Prop :=
  ∀ fd, tab.getD fd 0 = if fd ∈ owned then 1 else 0

section
variable {owned : Finset Nat} {tab : FdTab} {junk : Junk} {fd : Nat}

theorem Slots.lt (h : Slots owned tab) (hfd : fd ∈ owned) : fd < tab.length := by
  by_contra hge
  have hslot := h fd
  rw [if_pos hfd, List.getD_eq_default _ _ (by omega)] at hslot
  exact absurd hslot (by decide)

theorem getD_set (tab : FdTab) (fd i : Nat) (v : BitVec 8) :
    (tab.set fd v).getD i 0 = if fd = i ∧ i < tab.length then v else tab.getD i 0 := by
  rw [List.getD_eq_getElem?_getD, List.getD_eq_getElem?_getD, List.getElem?_set]
  by_cases hfd : fd = i
  · by_cases hi : i < tab.length
    · simp [hfd, hi]
    · simp [hfd, hi]
  · simp [hfd]

theorem registered_iff (h : Slots owned tab) (fd : Int) :
    ciFdIsRegistered tab fd = true ↔ 0 ≤ fd ∧ fd.toNat ∈ owned := by
  unfold ciFdIsRegistered
  rw [h]
  constructor
  · intro hreg
    by_cases hmem : fd.toNat ∈ owned
    · simp_all
    · simp_all
  · rintro ⟨hpos, hmem⟩
    simp [hpos, hmem, h.lt hmem]

/-- Zeros behind the table change none of its slots. -/
theorem slots_grow (h : Slots owned tab)
    (hjunk : tab.length ≤ fd → ∀ i, tab.length ≤ i → i < fd + 32 → junk i = 0) :
    Slots owned (grow junk tab fd) ∧ fd < (grow junk tab fd).length ∧
      (tab.length ≤ (grow junk tab fd).length) := by
  unfold grow
  split
  · rename_i hlen
    refine ⟨?_, by simp; omega, by simp⟩
    intro i
    rw [← h i]
    by_cases hi : i < tab.length
    · rw [List.getD_append _ _ _ _ hi]
    · rw [List.getD_append_right _ _ _ _ (by omega), List.getD_eq_default tab _ (by omega)]
      by_cases hj : i - tab.length < fd + 32 - tab.length
      · rw [List.getD_eq_getElem _ _ (by simpa using hj)]
        simp only [List.getElem_map, List.getElem_range]
        exact hjunk hlen _ (by omega) (by omega)
      · rw [List.getD_eq_default _ _ (by simpa using hj)]
  · exact ⟨h, by omega, le_refl _⟩

theorem ciRegisterFd_spec (h : Slots owned tab) (hfd : fd ∉ owned)
    (hjunk : tab.length ≤ fd → ∀ i, tab.length ≤ i → i < fd + 32 → junk i = 0) :
    ∃ tab', ciRegisterFd junk tab fd = some tab' ∧ Slots (insert fd owned) tab' ∧
      tab.length ≤ tab'.length := by
  obtain ⟨hslots, hlt, hle⟩ := slots_grow h hjunk
  have hzero : (grow junk tab fd).getD fd 0 = 0 := by rw [hslots, if_neg hfd]
  refine ⟨(grow junk tab fd).set fd 1, ?_, ?_, by simpa using hle⟩
  · unfold ciRegisterFd
    rw [if_neg (by omega)]
    simp only [Int.toNat_natCast, hzero, ne_eq, not_true_eq_false, if_false]
  · intro i
    rw [getD_set, hslots i]
    by_cases hi : fd = i
    · subst hi
      simp [hlt]
    · have hmem : i ∈ insert fd owned ↔ i ∈ owned := by simp [Ne.symm hi]
      simp only [hi, false_and, if_false, hmem]

theorem ciUnregisterFd_spec (h : Slots owned tab) (hfd : fd ∈ owned) :
    ∃ tab', ciUnregisterFd tab fd = some tab' ∧ Slots (owned.erase fd) tab' := by
  have hlt := h.lt hfd
  have hone : tab.getD fd 0 = 1 := by rw [h, if_pos hfd]
  refine ⟨tab.set fd 0, ?_, ?_⟩
  · unfold ciUnregisterFd
    rw [Int.toNat_natCast, if_neg (by omega), hone]
    rfl
  · intro i
    rw [getD_set, h i]
    by_cases hi : fd = i
    · subst hi
      simp [hlt]
    · have hmem : i ∈ owned.erase fd ↔ i ∈ owned := by simp [Ne.symm hi]
      simp only [hi, false_and, if_false, hmem]

/-- The loop closes the descriptors of the table that it comes to, each once. -/
theorem resetLoop_spec (fd n : Nat) (h : Slots owned tab) :
    (resetLoop fd n tab).1.Nodup ∧
      (∀ i, i ∈ (resetLoop fd n tab).1 ↔ fd ≤ i ∧ i < fd + n ∧ i ∈ owned) ∧
      Slots (owned.filter fun i => i < fd ∨ fd + n ≤ i) (resetLoop fd n tab).2 := by
  induction n generalizing fd owned tab with
  | zero =>
    refine ⟨List.nodup_nil, ?_, ?_⟩
    · simp [resetLoop]
      omega
    · have hall : (owned.filter fun i => i < fd ∨ fd + 0 ≤ i) = owned := by
        rw [Finset.filter_eq_self]
        intro i _
        omega
      rw [hall]
      exact h
  | succ n ih =>
    unfold resetLoop
    by_cases hmem : fd ∈ owned
    · have hone : tab.getD fd 0 = 1 := by rw [h, if_pos hmem]
      have hset : Slots (owned.erase fd) (tab.set fd 0) := by
        intro i
        rw [getD_set, h i]
        by_cases hi : fd = i
        · subst hi
          simp [h.lt hmem]
        · simp [hi, Ne.symm hi]
      obtain ⟨hnodup, hclosed, hslots⟩ := ih (fd + 1) hset
      rw [if_pos (by rw [hone]; decide)]
      refine ⟨List.nodup_cons.mpr ⟨?_, hnodup⟩, ?_, ?_⟩
      · rw [hclosed]
        omega
      · intro i
        rw [List.mem_cons, hclosed]
        by_cases hi : i = fd
        · subst hi
          simp [hmem]
        · grind
      · convert hslots using 1
        ext i
        simp only [Finset.mem_filter, Finset.mem_erase]
        grind
    · have hzero : tab.getD fd 0 = 0 := by rw [h, if_neg hmem]
      obtain ⟨hnodup, hclosed, hslots⟩ := ih (fd + 1) h
      rw [if_neg (by rw [hzero]; decide)]
      refine ⟨hnodup, ?_, ?_⟩
      · intro i
        rw [hclosed]
        by_cases hi : i = fd
        · subst hi
          simp [hmem]
        · grind
      · convert hslots using 1
        ext i
        simp only [Finset.mem_filter]
        by_cases hi : i = fd
        · subst hi
          simp [hmem]
        · grind

end

/-! ## The descriptors of the program -/

/-- Its descriptors are open, and so are those of its streams. -/
structure World.Sound (w : World) : Prop where
  opened : w.owned ⊆ w.opened
  streams : ∀ fp fd, w.streams fp = some fd → fd ∈ w.owned

namespace World.Sound

variable {w : World}

theorem opens (h : w.Sound) (fd : Nat) : (w.opens fd).Sound where
  opened := Finset.insert_subset_insert fd h.opened
  streams fp x hx := Finset.mem_insert_of_mem (h.streams fp x hx)

theorem closes (h : w.Sound) (fd : Nat) : (w.closes fd).Sound where
  opened := Finset.erase_subset_erase fd h.opened
  streams fp x hx := by
    unfold World.closes at hx ⊢
    dsimp only at hx ⊢
    split at hx
    · cases hx
    · rename_i hne
      rw [Finset.mem_erase]
      exact ⟨fun hc => hne (hc ▸ hx), h.streams fp x hx⟩

theorem opensStream (h : w.Sound) (fp fd : Nat) : (w.opensStream fp fd).Sound where
  opened := (h.opens fd).opened
  streams x y hy := by
    unfold World.opensStream at hy
    dsimp only at hy
    split at hy
    · cases hy
      exact Finset.mem_insert_self _ _
    · exact (h.opens fd).streams x y hy

end World.Sound

/-- The table is the one of the descriptors of the program. -/
structure Inv (s : World × FdTab) : Prop where
  slots : Slots s.1.owned s.2
  sound : s.1.Sound

theorem Inv.exact {s : World × FdTab} (h : Inv s) : Exact s where
  registered := registered_iff h.slots
  closed := by
    obtain ⟨hnodup, hclosed, -⟩ := resetLoop_spec 3 (s.2.length - 3) h.slots
    refine ⟨hnodup, fun fd => ?_⟩
    unfold ciResetMachine
    rw [hclosed]
    constructor
    · rintro ⟨hle, -, hmem⟩
      exact ⟨hle, hmem⟩
    · rintro ⟨hle, hmem⟩
      have := h.slots.lt hmem
      exact ⟨hle, by omega, hmem⟩

section
variable {junk : Junk} {w : World} {tab : FdTab}

theorem registerResult_spec {owned : Finset Nat} (h : Slots owned tab) (res : Option Nat)
    (hres : ∀ fd ∈ res, fd ∉ owned)
    (hjunk : ∀ fd ∈ res.toList, tab.length ≤ fd →
      ∀ i, tab.length ≤ i → i < fd + 32 → junk i = 0) :
    ∃ tab', registerResult junk tab res = some tab' ∧
      Slots ((res.map (insert · owned)).getD owned) tab' := by
  cases res with
  | none => exact ⟨tab, rfl, h⟩
  | some fd =>
    obtain ⟨tab', hreg, hslots, -⟩ := ciRegisterFd_spec h (hres fd rfl) (hjunk fd (by simp))
    exact ⟨tab', hreg, hslots⟩

theorem Inv.opens (h : Inv (w, tab)) (res : Option Nat) (hlegal : ∀ fd ∈ res, fd ∉ w.opened)
    (hjunk : ∀ fd ∈ res.toList, tab.length ≤ fd →
      ∀ i, tab.length ≤ i → i < fd + 32 → junk i = 0) :
    ∃ tab', registerResult junk tab res = some tab' ∧ Inv ((res.map w.opens).getD w, tab') := by
  obtain ⟨tab', hreg, hslots⟩ := registerResult_spec h.slots res
    (fun fd hfd hc => hlegal fd hfd (h.sound.opened hc)) hjunk
  refine ⟨tab', hreg, ?_⟩
  cases res with
  | none => exact ⟨hslots, h.sound⟩
  | some fd => exact ⟨hslots, h.sound.opens fd⟩

theorem Inv.opensStream (h : Inv (w, tab)) (fp : Nat) (res : Option Nat)
    (hlegal : ∀ fd ∈ res, fd ∉ w.opened)
    (hjunk : ∀ fd ∈ res.toList, tab.length ≤ fd →
      ∀ i, tab.length ≤ i → i < fd + 32 → junk i = 0) :
    ∃ tab', registerResult junk tab res = some tab' ∧
      Inv ((res.map (w.opensStream fp)).getD w, tab') := by
  obtain ⟨tab', hreg, hslots⟩ := registerResult_spec h.slots res
    (fun fd hfd hc => hlegal fd hfd (h.sound.opened hc)) hjunk
  refine ⟨tab', hreg, ?_⟩
  cases res with
  | none => exact ⟨hslots, h.sound⟩
  | some fd => exact ⟨hslots, h.sound.opensStream fp fd⟩

theorem Inv.closes (h : Inv (w, tab)) {fd : Nat} (hfd : fd ∈ w.owned) :
    ∃ tab', ciUnregisterFd tab fd = some tab' ∧ Inv (w.closes fd, tab') := by
  obtain ⟨tab', hreg, hslots⟩ := ciUnregisterFd_spec h.slots hfd
  exact ⟨tab', hreg, hslots, h.sound.closes fd⟩

theorem Inv.fileno (h : Inv (w, tab)) {fp : Nat} (hfp : (w.streams fp).isSome = true) :
    w.fileno fp ∈ w.owned := by
  obtain ⟨fd, hfd⟩ := Option.isSome_iff_exists.mp hfp
  unfold World.fileno
  rw [hfd]
  exact h.sound.streams fp fd hfd

/-- A turn that fits keeps the table. -/
theorem Turn.exec_spec {t : Turn} (h : Inv (w, tab)) (hlegal : t.call.Legal w)
    (hfits : t.Fits (w, tab)) : ∃ s', t.exec (w, tab) = some s' ∧ Inv s' := by
  suffices ∃ tab', t.call.exec t.junk w.fileno tab = some tab' ∧ Inv (t.call.after w, tab') by
    obtain ⟨tab', hexec, hinv⟩ := this
    exact ⟨_, by unfold Turn.exec; rw [hexec]; rfl, hinv⟩
  obtain ⟨call, junk⟩ := t
  obtain ⟨hdup, hjunk⟩ := hfits
  dsimp only at hlegal hdup hjunk ⊢
  have hslots0 : Slots w.owned tab := h.slots
  cases call with
  | builtin_open res | builtin_creat res | builtin_dup _ res => exact h.opens res hlegal hjunk
  | builtin_fopen fp res | builtin_popen fp res => exact h.opensStream fp res hlegal hjunk
  | builtin_fclose fp | builtin_pclose fp => exact h.closes (h.fileno hlegal)
  | builtin_close fd ok =>
    have hreg : ciFdIsRegistered tab fd = true ↔ 0 ≤ fd ∧ fd.toNat ∈ w.owned :=
      registered_iff h.slots fd
    unfold Call.exec Call.after
    dsimp only
    by_cases hclose : ok = true ∧ 0 ≤ fd ∧ fd.toNat ∈ w.owned
    · obtain ⟨hok, hpos, hmem⟩ := hclose
      rw [if_pos (by rw [hreg.mpr ⟨hpos, hmem⟩, hok]; rfl), if_pos ⟨hok, hpos, hmem⟩]
      lift fd to Nat using hpos
      exact h.closes hmem
    · rw [if_neg, if_neg hclose]
      · exact ⟨tab, rfl, h⟩
      · rw [Bool.and_eq_true]
        exact fun hc => hclose ⟨hc.2, hreg.mp hc.1⟩
  | builtin_fcntl fd cmd res =>
    have hreg : ciFdIsRegistered tab fd = true ↔ 0 ≤ fd ∧ fd.toNat ∈ w.owned :=
      registered_iff h.slots fd
    unfold Call.exec Call.after
    dsimp only
    by_cases hmem : 0 ≤ fd ∧ fd.toNat ∈ w.owned
    · obtain rfl : res = none := hdup fd cmd res rfl hmem.1 hmem.2
      rw [if_pos hmem, Option.isSome_none, Bool.and_false, if_neg Bool.false_ne_true]
      exact ⟨tab, rfl, h⟩
    · have hnot : ciFdIsRegistered tab fd = false := by
        rw [← Bool.not_eq_true]
        exact fun hc => hmem (hreg.mp hc)
      rw [if_neg hmem, hnot, Bool.false_and, Bool.false_and, if_neg Bool.false_ne_true]
      exact ⟨tab, rfl, h⟩
  | builtin_pipe res =>
    cases res with
    | none => exact ⟨tab, rfl, h⟩
    | some p =>
      obtain ⟨hfd0, hfd1, hne⟩ := hlegal p rfl
      obtain ⟨tab1, hreg1, hslots1, hlen⟩ := ciRegisterFd_spec hslots0
        (fun hc => hfd0 (h.sound.opened hc)) (hjunk p.1 (List.mem_cons_self))
      have hfd1' : p.2 ∉ insert p.1 w.owned := by
        rw [Finset.mem_insert, not_or]
        exact ⟨Ne.symm hne, fun hc => hfd1 (h.sound.opened hc)⟩
      -- the table may have grown before
      obtain ⟨tab2, hreg2, hslots2, -⟩ := ciRegisterFd_spec hslots1 hfd1'
        fun hge i hi hlt => hjunk p.2 (List.mem_cons_of_mem _ List.mem_cons_self)
          (by omega) i (by omega) hlt
      refine ⟨tab2, ?_, hslots2, (h.sound.opens p.1).opens p.2⟩
      unfold Call.exec
      dsimp only
      rw [hreg1]
      exact hreg2
  | builtin_dup2 fd newfd ok =>
    have hreg : ciFdIsRegistered tab newfd = true ↔ 0 ≤ newfd ∧ newfd.toNat ∈ w.owned :=
      registered_iff h.slots newfd
    unfold Call.exec Call.after
    dsimp only
    cases ok with
    | false => exact ⟨tab, rfl, h⟩
    | true =>
      have hpos : 0 ≤ newfd := hlegal rfl
      lift newfd to Nat using hpos
      rw [if_pos rfl, Int.toNat_natCast, Bool.true_and]
      rw [Int.toNat_natCast] at hreg
      by_cases hmem : newfd ∈ w.owned
      · have hins : insert newfd w.owned = w.owned := Finset.insert_eq_of_mem hmem
        rw [hreg.mpr ⟨Int.natCast_nonneg _, hmem⟩, Bool.not_true, if_neg Bool.false_ne_true]
        refine ⟨tab, rfl, ?_, h.sound.opens newfd⟩
        show Slots (insert newfd w.owned) tab
        rw [hins]
        exact h.slots
      · have hnot : ciFdIsRegistered tab newfd = false := by
          rw [← Bool.not_eq_true]
          exact fun hc => hmem (hreg.mp hc).2
        obtain ⟨tab', hexec, hslots, -⟩ := ciRegisterFd_spec hslots0 hmem
          (hjunk newfd (List.mem_singleton_self _))
        rw [hnot, Bool.not_false, if_pos rfl]
        exact ⟨tab', hexec, hslots, h.sound.opens newfd⟩
  | builtin_freopen fp res =>
    obtain ⟨hfp, hres⟩ := hlegal
    obtain ⟨tab1, hexec, hinv⟩ := h.closes (h.fileno hfp)
    have hlen : tab1.length = tab.length := by
      unfold ciUnregisterFd at hexec
      split at hexec
      · cases hexec
      · split at hexec
        · cases hexec
        · cases hexec
          exact List.length_set
    obtain ⟨tab2, hreg, hinv2⟩ := hinv.opensStream fp res hres
      (by rw [hlen]; exact hjunk)
    refine ⟨tab2, ?_, hinv2⟩
    unfold Call.exec
    dsimp only
    rw [hexec]
    exact hreg
  | ci_reset_machine =>
    obtain ⟨-, -, hslots⟩ := resetLoop_spec 3 (tab.length - 3) hslots0
    have howned : w.owned.filter (· < 3) =
        w.owned.filter fun i => i < 3 ∨ 3 + (tab.length - 3) ≤ i := by
      apply Finset.filter_congr
      intro fd hmem
      have := hslots0.lt hmem
      omega
    refine ⟨_, rfl, ?_, ?_, ?_⟩
    · show Slots (w.owned.filter (· < 3)) (ciResetMachine tab).2
      rw [howned]
      exact hslots
    · intro fd hfd
      obtain ⟨hmem, hlt⟩ := Finset.mem_filter.mp hfd
      exact Finset.mem_filter.mpr ⟨h.sound.opened hmem, .inr hlt⟩
    · intro fp fd hfd
      obtain ⟨hstream, hlt⟩ := Option.filter_eq_some_iff.mp hfd
      exact Finset.mem_filter.mpr ⟨h.sound.streams fp fd hstream, by simpa using hlt⟩

end

/-- What fits keeps the table. -/
theorem Inv.throughout {s : World × FdTab} {ts : List Turn} (h : Inv s)
    (hmeets : MeetsThroughout s ts) : Throughout Exact s ts := by
  induction ts generalizing s with
  | nil => exact h.exact
  | cons t ts ih =>
    obtain ⟨hlegal, hfits, hrest⟩ := hmeets
    obtain ⟨s', hexec, hinv⟩ := Turn.exec_spec h hlegal hfits
    exact ⟨h.exact, s', hexec, ih hinv (hrest s' hexec)⟩

/-! ## The main theorem -/

/-- The program when it starts: it has the descriptors 0 to 2, and no streams. -/
def World.start (opened : Finset Nat) : World := ⟨opened, {0, 1, 2}, fun _ => none⟩

theorem slots_initial : Slots {0, 1, 2} ciInitialiseFds := by
  intro fd
  match fd with
  | 0 | 1 | 2 => rfl
  | n + 3 =>
    have hmem : n + 3 ∉ ({0, 1, 2} : Finset Nat) := by simp
    rw [if_neg hmem]
    show (List.replicate 61 0).getD n (0 : BitVec 8) = 0
    rw [List.getD_eq_getElem?_getD, List.getElem?_replicate]
    split <;> rfl

/-- In every run whose turns fit the table has exactly the descriptors of the program. -/
theorem the_registry_is_exact_while_nothing_is_duplicated_by_fcntl (opened : Finset Nat)
    (hopened : {0, 1, 2} ⊆ opened) (ts : List Turn)
    (h : MeetsThroughout (.start opened, ciInitialiseFds) ts) :
    Throughout Exact (.start opened, ciInitialiseFds) ts :=
  Inv.throughout ⟨slots_initial, hopened, fun _ _ hfd => by cases hfd⟩ h

theorem a_pipe_beyond_the_table_is_registered :
    Throughout Exact (.start {0, 1, 2}, ciInitialiseFds)
      [⟨.builtin_pipe (some (4, 100)), fun _ => 0⟩, ⟨.builtin_close 100 true, fun _ => 0⟩] := by
  apply the_registry_is_exact_while_nothing_is_duplicated_by_fcntl _ (Finset.Subset.refl _)
  refine ⟨?_, ⟨?_, fun _ _ _ _ _ _ => rfl⟩, fun s' _ => ⟨trivial, ⟨?_, ?_⟩, fun _ _ => trivial⟩⟩
  · intro p hp
    obtain rfl := Option.mem_some_iff.mp hp
    decide
  · exact fun _ _ _ hc => nomatch hc
  · exact fun _ _ _ hc => nomatch hc
  · exact fun _ hfd => absurd hfd List.not_mem_nil

/-- Duplicating the descriptor 0 with `fcntl` is a panic. -/
theorem a_duplicate_by_fcntl_panics :
    ¬ ∀ opened ts, {0, 1, 2} ⊆ opened → LegalThroughout (.start opened, ciInitialiseFds) ts →
      Throughout Exact (.start opened, ciInitialiseFds) ts := by
  intro h
  obtain ⟨-, s', hexec, -⟩ := h {0, 1, 2} [⟨.builtin_fcntl 0 F_DUPFD (some 3), fun _ => 0⟩]
    (Finset.Subset.refl _) ⟨⟨rfl, fun fd hfd => Option.mem_some_iff.mp hfd ▸ by decide⟩,
      fun _ _ => trivial⟩
  exact nomatch hexec

end ups_rules.fd_table
