-- The breakpoints of a target (bp.c). Each of them remembers the opcode that it replaced, and all
-- of them share the text of the program.
import Ups.Machine
import Mathlib.Data.List.Nodup
import Mathlib.Logic.Function.Basic

open ups_rules.machine

namespace ups_rules.breakpoints

/-! ## The pure model -/

/-- An xp_opcode_t. -/
abbrev XpOpcode := Word

/-- A breakpoint; `id` is its address. There is one target, and `bp_xp` says whether it is set. -/
structure Breakpoint where
  id : Nat
  bp_xp : Bool
  bp_installed : Bool
  bp_enabled : Bool
  bp_addr : Word
  bp_code : XpOpcode
  bp_user_data : Word
deriving DecidableEq

/-- The list that starts at `Bphead`, and the text of the target. -/
structure State where
  bps : List Breakpoint
  text : Word → XpOpcode

/-- What the functions are given: the trap, what `xp_tswap` stores for an opcode when it is not
asked for the old one, and `breakpoint_is_disabled`. -/
structure Target where
  trap : XpOpcode
  put : XpOpcode → XpOpcode
  breakpointIsDisabled : Word → Bool

namespace State

def find (s : State) (id : Nat) : Option Breakpoint := s.bps.find? (·.id == id)

/-- An assignment to members of a breakpoint. -/
def modify (s : State) (id : Nat) (f : Breakpoint → Breakpoint) : State :=
  { s with bps := s.bps.map fun bp => if bp.id = id then f bp else bp }

def setText (s : State) (addr : Word) (opcode : XpOpcode) : State :=
  { s with text := Function.update s.text addr opcode }

end State

/-- `bp_code` is not set here; the allocator gives `id` and what is in it. -/
def dxAddBreakpoint (s : State) (id : Nat) (addr : Word) (bp_code : XpOpcode) : State :=
  { s with bps := {
      id := id
      bp_xp := false
      bp_installed := false
      bp_enabled := true
      bp_addr := addr
      bp_code := bp_code
      bp_user_data := 0 } :: s.bps }

def setBreakpointData (s : State) (id : Nat) (data : Word) : State :=
  s.modify id fun bp => { bp with bp_user_data := data }

def installBreakpoint (x : Target) (s : State) (bp : Breakpoint) (force : Bool) : State :=
  if !force && bp.bp_user_data != 0 && x.breakpointIsDisabled bp.bp_user_data then s
  else
    let s := if bp.bp_enabled then
        (s.modify bp.id fun b => { b with bp_code := s.text bp.bp_addr, bp_xp := true }).setText
          bp.bp_addr x.trap
      else s
    s.modify bp.id fun b => { b with bp_installed := true }

def uninstallBreakpoint (x : Target) (s : State) (bp : Breakpoint) : State :=
  let s := if bp.bp_enabled && bp.bp_xp then
      (s.setText bp.bp_addr (x.put bp.bp_code)).modify bp.id fun b => { b with bp_xp := false }
    else s
  s.modify bp.id fun b => { b with bp_installed := false }

def dxRemoveBreakpoint (x : Target) (s : State) (bp : Breakpoint) : State :=
  let s := if bp.bp_xp then uninstallBreakpoint x s bp else s
  { s with bps := s.bps.filter (·.id != bp.id) }

/-- `set_enabled` for a breakpoint. -/
def setEnabled (x : Target) (s : State) (bp : Breakpoint) (enabled : Bool) : State :=
  if enabled then
    let s := s.modify bp.id fun b => { b with bp_enabled := true }
    if !bp.bp_xp && bp.bp_installed then
      installBreakpoint x s { bp with bp_enabled := true } false
    else s
  else
    let s := if bp.bp_xp then uninstallBreakpoint x s bp else s
    s.modify bp.id fun b => { b with bp_enabled := false }

/-- The body of the loop of `can_install_all_breakpoints`. -/
def testInstall (x : Target) (s : State) (bp : Breakpoint) : State :=
  if bp.bp_xp then s
  else
    let code := s.text bp.bp_addr
    ((s.setText bp.bp_addr x.trap).modify bp.id fun b => { b with bp_code := code }).setText
      bp.bp_addr (x.put code)

/-- What is done to one breakpoint, by a call or by one turn of a loop. -/
inductive Action where
  | setData (data : Word)
  | install (force : Bool)
  | uninstall
  | setEnabled (enabled : Bool)
  | remove
  /-- `if (bp->bp_xp == xp) uninstall_breakpoint(bp)` -/
  | uninstallInstalled
  /-- `if (bp->bp_xp == 0) install_breakpoint(bp, xp, FALSE)` -/
  | installUninstalled
  | test
deriving DecidableEq

inductive Step where
  | add (id : Nat) (addr : Word) (bp_code : XpOpcode)
  | act (id : Nat) (a : Action)

def Action.apply (x : Target) (s : State) (bp : Breakpoint) : Action → State
  | .setData data => setBreakpointData s bp.id data
  | .install force => installBreakpoint x s bp force
  | .uninstall => uninstallBreakpoint x s bp
  | .setEnabled enabled => ups_rules.breakpoints.setEnabled x s bp enabled
  | .remove => dxRemoveBreakpoint x s bp
  | .uninstallInstalled => if bp.bp_xp then uninstallBreakpoint x s bp else s
  | .installUninstalled => if bp.bp_xp then s else installBreakpoint x s bp false
  | .test => testInstall x s bp

def Step.exec (x : Target) (s : State) : Step → State
  | .add id addr bp_code => dxAddBreakpoint s id addr bp_code
  | .act id a =>
    match s.find id with
    | none => s
    | some bp => a.apply x s bp

/-- A call. Enabling and disabling without a breakpoint is of all of them. -/
inductive Call where
  | add (id : Nat) (addr : Word) (bp_code : XpOpcode)
  | setData (id : Nat) (data : Word)
  | remove (id : Nat)
  | install (id : Nat) (force : Bool)
  | uninstall (id : Nat)
  | setEnabled (id : Option Nat) (enabled : Bool)
  | uninstallAll
  | installAll
  | canInstallAll

/-- A loop over the list. -/
def State.each (s : State) (a : Action) : List Step := s.bps.map fun bp => .act bp.id a

/-- A call as the steps that it takes. No loop changes the list that it goes over. -/
def Call.steps (s : State) : Call → List Step
  | .add id addr bp_code => [.add id addr bp_code]
  | .setData id data => [.act id (.setData data)]
  | .remove id => [.act id .remove]
  | .install id force => [.act id (.install force)]
  | .uninstall id => [.act id .uninstall]
  | .setEnabled (some id) enabled => [.act id (.setEnabled enabled)]
  | .setEnabled none enabled => s.each (.setEnabled enabled)
  | .uninstallAll => s.each .uninstallInstalled
  | .installAll => s.each .installUninstalled
  | .canInstallAll => s.each .test

def execAll (x : Target) (s : State) (steps : List Step) : State := steps.foldl (Step.exec x) s

def Call.exec (x : Target) (s : State) (c : Call) : State := execAll x s (c.steps s)

def run (x : Target) (s : State) (calls : List Call) : State := calls.foldl (Call.exec x) s

/-- The steps of a list, each with the state before it. -/
def passes (x : Target) : State → List Step → List (State × Step)
  | _, [] => []
  | s, st :: steps => (s, st) :: passes x (st.exec x s) steps

def runPasses (x : Target) : State → List Call → List (State × Step)
  | _, [] => []
  | s, c :: calls => passes x s (c.steps s) ++ runPasses x (c.exec x s) calls

/-- A new breakpoint is at a new address, the others are listed, and `install_breakpoint` is called
for one that is not installed. -/
def Call.Legal (s : State) : Call → Prop
  | .add id _ _ => s.find id = none
  | .install id _ => ∃ bp, s.find id = some bp ∧ bp.bp_xp = false
  | .setData id _ | .remove id | .uninstall id | .setEnabled (some id) _ =>
    ∃ bp, s.find id = some bp
  | .setEnabled none _ | .uninstallAll | .installAll | .canInstallAll => True

def LegalRun (x : Target) : State → List Call → Prop
  | _, [] => True
  | s, c :: calls => c.Legal s ∧ LegalRun x (c.exec x s) calls

/-! ## What the text has to be -/

/-- The opcode at an address while some of the breakpoints are installed. -/
def wanted (x : Target) (program : Word → XpOpcode) (bps : List Breakpoint) (a : Word) : XpOpcode :=
  if bps.any fun bp => bp.bp_xp && bp.bp_addr == a then x.trap else program a

/-- Each address holds the trap if a breakpoint is installed there, and its own opcode otherwise. -/
def Planted (x : Target) (program : Word → XpOpcode) (s : State) : Prop :=
  ∀ a, s.text a = wanted x program s.bps a

/-- The text is as it has to be after every step, and the program's own once all breakpoints were
uninstalled. -/
def NeverCorrupts (x : Target) (program : Word → XpOpcode) (calls : List Call) : Prop :=
  (∀ p ∈ runPasses x ⟨[], program⟩ calls, Planted x program (p.2.exec x p.1)) ∧
    ∀ before after, calls = before ++ .uninstallAll :: after →
      (run x ⟨[], program⟩ (before ++ [.uninstallAll])).text = program

/-- Whether the step takes a trap out of the text. -/
def Action.takesOut : Action → Bool
  | .uninstall | .setEnabled false | .remove | .uninstallInstalled => true
  | _ => false

/-- What a breakpoint has saved is what has to be in its place without it: the trap if another
breakpoint is installed there, and else the opcode of the program. A test puts back what it found. -/
def Restores (x : Target) (program : Word → XpOpcode) (s : State) : Step → Prop
  | .add _ _ _ => True
  | .act id a => ∀ bp ∈ s.find id,
    (a.takesOut = true → bp.bp_xp = true →
      x.put bp.bp_code = wanted x program (s.bps.filter (·.id != id)) bp.bp_addr) ∧
    (a = .test → bp.bp_xp = false → x.put (s.text bp.bp_addr) = s.text bp.bp_addr)

instance (x : Target) (program : Word → XpOpcode) (s : State) (st : Step) :
    Decidable (Restores x program s st) :=
  match st with
  | .add _ _ _ => .isTrue trivial
  | .act id _ => inferInstanceAs (Decidable (∀ bp ∈ s.find id, _))

/-! ## The list -/

variable {x : Target} {program : Word → XpOpcode} {s : State} {bp : Breakpoint} {a : Action}
  {l1 l2 : List Breakpoint}

/-- A breakpoint, what is before it in the list and what is behind it. -/
structure Listed (s : State) (l1 : List Breakpoint) (bp : Breakpoint) (l2 : List Breakpoint) :
    Prop where
  eq : s.bps = l1 ++ bp :: l2
  other : ∀ b ∈ l1 ++ l2, b.id ≠ bp.id

/-- The breakpoints are at different addresses, and one that is set is enabled. -/
structure Good (s : State) : Prop where
  nodup : (s.bps.map (·.id)).Nodup
  enabled : ∀ bp ∈ s.bps, bp.bp_xp = true → bp.bp_enabled = true

theorem find_spec (h : Good s) {id : Nat} (hfind : s.find id = some bp) :
    bp.id = id ∧ ∃ l1 l2, Listed s l1 bp l2 := by
  unfold State.find at hfind
  have hid : bp.id = id := by simpa using List.find?_some hfind
  obtain ⟨l1, l2, hbps⟩ := List.append_of_mem (List.mem_of_find?_eq_some hfind)
  refine ⟨hid, l1, l2, hbps, ?_⟩
  have hnodup := h.nodup
  rw [hbps, List.map_append, List.map_cons] at hnodup
  have hnot := (List.nodup_cons.mp (List.nodup_middle.mp hnodup)).1
  intro b hb hc
  rw [← List.map_append, ← hc] at hnot
  exact hnot (List.mem_map_of_mem hb)

theorem Listed.filter (h : Listed s l1 bp l2) :
    s.bps.filter (·.id != bp.id) = l1 ++ l2 := by
  have hother := h.other
  have hall : ∀ l : List Breakpoint, (∀ b ∈ l, b.id ≠ bp.id) → l.filter (·.id != bp.id) = l := by
    intro l hl
    rw [List.filter_eq_self]
    simpa using hl
  rw [h.eq, List.filter_append, List.filter_cons_of_neg (by simp),
    hall l1 fun b hb => hother b (by simp [hb]), hall l2 fun b hb => hother b (by simp [hb])]

theorem Listed.modify (h : Listed s l1 bp l2) {f : Breakpoint → Breakpoint}
    (hf : (f bp).id = bp.id) : Listed (s.modify bp.id f) l1 (f bp) l2 := by
  have hother := h.other
  have hall : ∀ l : List Breakpoint, (∀ b ∈ l, b.id ≠ bp.id) →
      (l.map fun b => if b.id = bp.id then f b else b) = l := by
    intro l hl
    refine (List.map_congr_left fun b hb => ?_).trans l.map_id
    exact if_neg (hl b hb)
  refine ⟨?_, by rwa [hf]⟩
  unfold State.modify
  dsimp only
  rw [h.eq, List.map_append, List.map_cons, if_pos rfl,
    hall l1 fun b hb => hother b (by simp [hb]), hall l2 fun b hb => hother b (by simp [hb])]

theorem Listed.setText (h : Listed s l1 bp l2) (addr : Word) (opcode : XpOpcode) :
    Listed (s.setText addr opcode) l1 bp l2 := ⟨h.eq, h.other⟩

theorem Listed.text_modify (s : State) (id : Nat) (f : Breakpoint → Breakpoint) :
    (s.modify id f).text = s.text := rfl

/-! ## What a step can do -/

/-- What an action does to the text, and whether the breakpoint is set behind it. -/
inductive Effect (x : Target) (s : State) (bp : Breakpoint) (a : Action) :
    (Word → XpOpcode) → Bool → Prop where
  | keeps (hout : a.takesOut = true → bp.bp_xp = false) (htest : a = .test → bp.bp_xp = true) :
    Effect x s bp a s.text bp.bp_xp
  | plants (hout : a.takesOut = false) (htest : a ≠ .test) :
    Effect x s bp a (Function.update s.text bp.bp_addr x.trap) true
  | takesOut (hout : a.takesOut = true) (hxp : bp.bp_xp = true) :
    Effect x s bp a (Function.update s.text bp.bp_addr (x.put bp.bp_code)) false
  | tests (htest : a = .test) (hxp : bp.bp_xp = false) :
    Effect x s bp a (Function.update s.text bp.bp_addr (x.put (s.text bp.bp_addr))) false

/-- The place of a breakpoint in the list behind a step: it is there, or it has been removed. -/
structure Becomes (s' : State) (l1 : List Breakpoint) (bp : Breakpoint) (l2 : List Breakpoint)
    (text : Word → XpOpcode) (bp_xp : Bool) : Prop where
  text : s'.text = text
  bps : (bp_xp = false ∧ s'.bps = l1 ++ l2) ∨ ∃ bp', s'.bps = l1 ++ bp' :: l2 ∧ bp'.id = bp.id ∧
    bp'.bp_addr = bp.bp_addr ∧ bp'.bp_xp = bp_xp ∧ (bp_xp = true → bp'.bp_enabled = true)

theorem Listed.becomes {s' : State} {bp' : Breakpoint} {bp_xp : Bool} (h : Listed s' l1 bp' l2)
    (hid : bp'.id = bp.id) (haddr : bp'.bp_addr = bp.bp_addr) (hxp : bp'.bp_xp = bp_xp)
    (henabled : bp_xp = true → bp'.bp_enabled = true) :
    Becomes s' l1 bp l2 s'.text bp_xp :=
  ⟨rfl, .inr ⟨bp', h.eq, hid, haddr, hxp, henabled⟩⟩

theorem installBreakpoint_spec (h : Listed s l1 bp l2)
    (henabled : bp.bp_xp = true → bp.bp_enabled = true) (force : Bool) (hout : a.takesOut = false) (htest : a ≠ .test) :
    ∃ text xp, Effect x s bp a text xp ∧
      Becomes (installBreakpoint x s bp force) l1 bp l2 text xp := by
  have hkeeps : Effect x s bp a s.text bp.bp_xp :=
    .keeps (by simp [hout]) fun hc => absurd hc htest
  unfold installBreakpoint
  split
  · exact ⟨_, _, hkeeps, h.becomes rfl rfl rfl henabled⟩
  · by_cases hen : bp.bp_enabled = true
    · rw [if_pos hen]
      have h' := ((h.modify (f := fun b => { b with bp_code := s.text bp.bp_addr, bp_xp := true })
        rfl).setText bp.bp_addr x.trap).modify (f := fun b => { b with bp_installed := true }) rfl
      exact ⟨_, _, .plants hout htest, h'.becomes rfl rfl rfl fun _ => hen⟩
    · rw [if_neg hen]
      have h' := h.modify (f := fun b => { b with bp_installed := true }) rfl
      exact ⟨_, _, hkeeps, h'.becomes rfl rfl rfl henabled⟩

theorem uninstallBreakpoint_spec (h : Listed s l1 bp l2)
    (henabled : bp.bp_xp = true → bp.bp_enabled = true) (hout : a.takesOut = true) :
    ∃ text xp, Effect x s bp a text xp ∧ ∃ bp', Listed (uninstallBreakpoint x s bp) l1 bp' l2 ∧
      (uninstallBreakpoint x s bp).text = text ∧ bp'.id = bp.id ∧ bp'.bp_addr = bp.bp_addr ∧
        bp'.bp_xp = xp ∧ xp = false := by
  have htest : a ≠ .test := by
    rintro rfl
    cases hout
  unfold uninstallBreakpoint
  cases hxp : bp.bp_xp with
  | true =>
    rw [henabled hxp]
    have h' := ((h.setText bp.bp_addr (x.put bp.bp_code)).modify
      (f := fun b => { b with bp_xp := false }) rfl).modify
      (f := fun b => { b with bp_installed := false }) rfl
    exact ⟨_, _, .takesOut hout hxp, _, h', rfl, rfl, rfl, rfl, rfl⟩
  | false =>
    rw [Bool.and_false]
    have h' := h.modify (f := fun b => { b with bp_installed := false }) rfl
    exact ⟨_, _, .keeps (fun _ => hxp) fun hc => absurd hc htest, _, h', rfl, rfl, rfl, rfl, hxp⟩

/-- What every action does. -/
theorem apply_spec (h : Listed s l1 bp l2) (henabled : bp.bp_xp = true → bp.bp_enabled = true)
    (a : Action) :
    ∃ text xp, Effect x s bp a text xp ∧ Becomes (a.apply x s bp) l1 bp l2 text xp := by
  cases a with
  | setData data =>
    have h' := h.modify (f := fun b => { b with bp_user_data := data }) rfl
    exact ⟨_, _, .keeps nofun nofun, h'.becomes rfl rfl rfl henabled⟩
  | install force => exact installBreakpoint_spec h henabled force rfl nofun
  | uninstall =>
    obtain ⟨text, xp, heffect, bp', h', rfl, hid, haddr, rfl, hxp⟩ :=
      uninstallBreakpoint_spec (x := x) (a := .uninstall) h henabled rfl
    exact ⟨_, _, heffect, h'.becomes hid haddr rfl fun hc => absurd (hxp.symm.trans hc) nofun⟩
  | uninstallInstalled =>
    unfold Action.apply
    cases hxp : bp.bp_xp with
    | true =>
      obtain ⟨text, xp, heffect, bp', h', rfl, hid, haddr, rfl, hxp⟩ :=
        uninstallBreakpoint_spec (x := x) (a := .uninstallInstalled) h henabled rfl
      exact ⟨_, _, heffect, h'.becomes hid haddr rfl fun hc => absurd (hxp.symm.trans hc) nofun⟩
    | false =>
      exact ⟨_, _, .keeps (fun _ => hxp) nofun, h.becomes rfl rfl rfl henabled⟩
  | installUninstalled =>
    unfold Action.apply
    cases hxp : bp.bp_xp with
    | true => exact ⟨_, _, .keeps nofun nofun, h.becomes rfl rfl rfl henabled⟩
    | false => exact installBreakpoint_spec h henabled false rfl nofun
  | remove =>
    unfold Action.apply dxRemoveBreakpoint
    cases hxp : bp.bp_xp with
    | true =>
      obtain ⟨text, xp, heffect, bp', h', rfl, hid, haddr, rfl, hxp⟩ :=
        uninstallBreakpoint_spec (x := x) (a := .remove) h henabled rfl
      refine ⟨_, _, heffect, rfl, .inl ⟨hxp, ?_⟩⟩
      rw [← hid]
      exact h'.filter
    | false =>
      exact ⟨_, _, .keeps (fun _ => hxp) nofun, rfl, .inl ⟨hxp, h.filter⟩⟩
  | setEnabled enabled =>
    unfold Action.apply setEnabled
    cases enabled with
    | true =>
      have h' := h.modify (f := fun b => { b with bp_enabled := true }) rfl
      cases hinst : !bp.bp_xp && bp.bp_installed with
      | true =>
        obtain ⟨text, xp, heffect, hbecomes⟩ :=
          installBreakpoint_spec (x := x) (a := .setEnabled true) h' (fun _ => rfl) false rfl nofun
        refine ⟨text, xp, ?_, hbecomes.text, hbecomes.bps⟩
        cases heffect with
        | keeps hout htest => exact .keeps hout htest
        | plants hout htest => exact .plants hout htest
        | takesOut hout _ => cases hout
        | tests htest _ => cases htest
      | false => exact ⟨_, _, .keeps nofun nofun, h'.becomes rfl rfl rfl fun _ => rfl⟩
    | false =>
      cases hxp : bp.bp_xp with
      | true =>
        obtain ⟨text, xp, heffect, bp', h', rfl, hid, haddr, rfl, hxp⟩ :=
          uninstallBreakpoint_spec (x := x) (a := .setEnabled false) h henabled rfl
        have heq : ((uninstallBreakpoint x s bp).modify bp.id
            fun b => { b with bp_enabled := false }).bps =
              l1 ++ { bp' with bp_enabled := false } :: l2 := by
          rw [← hid]
          exact (h'.modify (f := fun b => { b with bp_enabled := false }) rfl).eq
        exact ⟨_, _, heffect, rfl, .inr ⟨_, heq, hid, haddr, rfl,
          fun hc => absurd (hxp.symm.trans hc) nofun⟩⟩
      | false =>
        have h' := h.modify (f := fun b => { b with bp_enabled := false }) rfl
        exact ⟨_, _, .keeps (fun _ => hxp) nofun,
          h'.becomes rfl rfl rfl fun hc => absurd (hxp.symm.trans hc) nofun⟩
  | test =>
    unfold Action.apply testInstall
    cases hxp : bp.bp_xp with
    | true => exact ⟨_, _, .keeps nofun fun _ => hxp, h.becomes rfl rfl rfl henabled⟩
    | false =>
      have h' := ((h.setText bp.bp_addr x.trap).modify
        (f := fun b => { b with bp_code := s.text bp.bp_addr }) rfl).setText bp.bp_addr
          (x.put (s.text bp.bp_addr))
      refine ⟨_, _, .tests rfl hxp, ?_⟩
      have hb : Becomes _ l1 bp l2 _ false := h'.becomes rfl rfl hxp (fun hc => absurd hc nofun)
      simpa [State.setText, State.modify, Function.update_idem] using hb

/-! ## The text behind a step -/

theorem wanted_append (program : Word → XpOpcode) (l1 l2 : List Breakpoint) (bp : Breakpoint)
    (a : Word) :
    wanted x program (l1 ++ bp :: l2) a =
      if bp.bp_xp = true ∧ bp.bp_addr = a then x.trap else wanted x program (l1 ++ l2) a := by
  unfold wanted
  by_cases h : bp.bp_xp = true ∧ bp.bp_addr = a <;> simp [h]

theorem Becomes.wanted {s' : State} {text : Word → XpOpcode} {xp : Bool}
    (h : Becomes s' l1 bp l2 text xp) (a : Word) :
    wanted x program s'.bps a =
      if xp = true ∧ bp.bp_addr = a then x.trap else wanted x program (l1 ++ l2) a := by
  rcases h.bps with ⟨hxp, hbps⟩ | ⟨bp', hbps, -, haddr, hxp, -⟩
  · rw [hbps, hxp, if_neg (by simp)]
  · rw [hbps, wanted_append, haddr, hxp]

/-- A step leaves the text right exactly when it restores what has to be there. -/
theorem planted_iff (h : Listed s l1 bp l2) (hplanted : Planted x program s) {s' : State}
    {text : Word → XpOpcode} {xp : Bool} (heffect : Effect x s bp a text xp)
    (hbecomes : Becomes s' l1 bp l2 text xp) :
    Planted x program s' ↔
      (a.takesOut = true → bp.bp_xp = true →
        x.put bp.bp_code = wanted x program (l1 ++ l2) bp.bp_addr) ∧
      (a = .test → bp.bp_xp = false → x.put (s.text bp.bp_addr) = s.text bp.bp_addr) := by
  have hbefore : ∀ b, s.text b =
      if bp.bp_xp = true ∧ bp.bp_addr = b then x.trap else wanted x program (l1 ++ l2) b := by
    intro b
    rw [hplanted b, h.eq, wanted_append]
  unfold Planted
  simp only [hbecomes.text, hbecomes.wanted]
  cases heffect with
  | keeps hout htest =>
    refine iff_of_true hbefore ⟨?_, ?_⟩
    · intro ha hxp
      exact absurd ((hout ha).symm.trans hxp) nofun
    · intro ha hxp
      exact absurd ((htest ha).symm.trans hxp) nofun
  | plants hout htest =>
    refine iff_of_true ?_ ⟨fun ha => absurd (hout.symm.trans ha) nofun, fun ha => absurd ha htest⟩
    intro b
    by_cases hb : bp.bp_addr = b
    · rw [hb, Function.update_self, if_pos ⟨rfl, rfl⟩]
    · rw [Function.update_of_ne (Ne.symm hb), hbefore b, if_neg (by simp [hb]), if_neg (by simp [hb])]
  | takesOut hout hxp =>
    have htest : a ≠ .test := by
      rintro rfl
      cases hout
    constructor
    · intro hall
      refine ⟨fun _ _ => ?_, fun ha => absurd ha htest⟩
      simpa using hall bp.bp_addr
    · rintro ⟨hput, -⟩ b
      by_cases hb : bp.bp_addr = b
      · rw [← hb, Function.update_self, if_neg (by simp), hput hout hxp]
      · rw [Function.update_of_ne (Ne.symm hb), hbefore b, if_neg (by simp [hb]), if_neg (by simp)]
  | tests htest hxp =>
    subst htest
    have hbefore : ∀ b, s.text b = wanted x program (l1 ++ l2) b := by simpa [hxp] using hbefore
    constructor
    · intro hall
      refine ⟨nofun, fun _ _ => ?_⟩
      rw [hbefore]
      simpa [hbefore] using hall bp.bp_addr
    · rintro ⟨-, hput⟩ b
      by_cases hb : bp.bp_addr = b
      · rw [← hb, Function.update_self, if_neg (by simp), hput rfl hxp, hbefore]
      · rw [Function.update_of_ne (Ne.symm hb), hbefore b, if_neg (by simp)]

/-- The list behind a step is good again. -/
theorem Becomes.good {s' : State} {text : Word → XpOpcode} {xp : Bool} (hgood : Good s)
    (h : Listed s l1 bp l2) (hbecomes : Becomes s' l1 bp l2 text xp) : Good s' := by
  have hnodup := hgood.nodup
  have henabled := hgood.enabled
  rw [h.eq] at hnodup henabled
  rcases hbecomes.bps with ⟨-, hbps⟩ | ⟨bp', hbps, hid, -, hxp, hen⟩
  · have hsub : List.Sublist (l1 ++ l2) (l1 ++ bp :: l2) :=
      (List.sublist_cons_self bp l2).append_left l1
    refine ⟨?_, ?_⟩
    · rw [hbps]
      exact hnodup.sublist (hsub.map _)
    · rw [hbps]
      exact fun b hb => henabled b (hsub.subset hb)
  · refine ⟨?_, ?_⟩
    · rw [hbps]
      simpa [hid] using hnodup
    · rw [hbps]
      intro b hb hbxp
      rcases List.mem_append.mp hb with hb | hb
      · exact henabled b (by simp [hb]) hbxp
      · rcases List.mem_cons.mp hb with rfl | hb
        · exact hen (hxp.symm.trans hbxp)
        · exact henabled b (by simp [hb]) hbxp

/-- What a step comes to: the list stays good, and the text stays right as the step restores it. -/
theorem exec_spec (program : Word → XpOpcode) (hgood : Good s) (st : Step)
    (hnew : ∀ id addr code, st = .add id addr code → s.find id = none) :
    Good (st.exec x s) ∧ (Planted x program s →
      (Planted x program (st.exec x s) ↔ Restores x program s st)) := by
  cases st with
  | add id addr bp_code =>
    have hfind := hnew id addr bp_code rfl
    unfold State.find at hfind
    rw [List.find?_eq_none] at hfind
    refine ⟨⟨?_, ?_⟩, fun hplanted => iff_of_true ?_ trivial⟩
    · refine List.nodup_cons.mpr ⟨?_, hgood.nodup⟩
      intro hmem
      obtain ⟨b, hb, hid⟩ := List.mem_map.mp hmem
      exact hfind b hb (by simpa using hid)
    · intro b hb hxp
      rcases List.mem_cons.mp hb with rfl | hb
      · rfl
      · exact hgood.enabled b hb hxp
    · intro b
      have hadd := wanted_append (x := x) program [] s.bps
        ⟨id, false, false, true, addr, bp_code, 0⟩ b
      rw [if_neg (by simp), List.nil_append, List.nil_append] at hadd
      exact (hplanted b).trans hadd.symm
  | act id a =>
    cases hfind : s.find id with
    | none =>
      have hexec : Step.exec x s (.act id a) = s := by simp only [Step.exec, hfind]
      rw [hexec]
      refine ⟨hgood, fun hplanted => iff_of_true hplanted ?_⟩
      intro bp hbp
      exact absurd (hfind.symm.trans hbp) nofun
    | some bp =>
      obtain ⟨rfl, l1, l2, h⟩ := find_spec hgood hfind
      have hexec : Step.exec x s (.act bp.id a) = a.apply x s bp := by
        simp only [Step.exec, hfind]
      have hmem : bp ∈ s.bps := by
        rw [h.eq]
        simp
      obtain ⟨text, xp, heffect, hbecomes⟩ := apply_spec (x := x) h (hgood.enabled bp hmem) a
      rw [hexec]
      refine ⟨hbecomes.good hgood h, fun hplanted => ?_⟩
      refine (planted_iff h hplanted heffect hbecomes).trans ?_
      simp [Restores, h.filter, hfind]

/-! ## Runs -/

/-- A step of a call is of a listed breakpoint, or adds a new one. -/
theorem mem_steps {c : Call} (hlegal : c.Legal s) {st : Step} (hst : st ∈ c.steps s) :
    ∀ id addr code, st = .add id addr code → c.steps s = [st] ∧ s.find id = none := by
  rintro id addr code rfl
  cases c with
  | add id' addr' code' =>
    cases List.mem_singleton.mp hst
    exact ⟨rfl, hlegal⟩
  | setEnabled id' enabled => cases id' <;> simp [Call.steps, State.each] at hst
  | _ => simp [Call.steps, State.each] at hst

/-- A call makes the step that adds a breakpoint its only one. -/
def AddsAlone (s : State) (steps : List Step) : Prop :=
  ∀ st ∈ steps, ∀ id addr code, st = .add id addr code → steps = [st] ∧ s.find id = none

theorem passes_spec (program : Word → XpOpcode) (hgood : Good s) (steps : List Step)
    (hnew : AddsAlone s steps) :
    Good (execAll x s steps) ∧ (Planted x program s →
      ((∀ p ∈ passes x s steps, Planted x program (p.2.exec x p.1)) ↔
        ∀ p ∈ passes x s steps, Restores x program p.1 p.2) ∧
      ((∀ p ∈ passes x s steps, Planted x program (p.2.exec x p.1)) →
        Planted x program (execAll x s steps))) := by
  induction steps generalizing s with
  | nil => exact ⟨hgood, fun hplanted => ⟨iff_of_true nofun nofun, fun _ => hplanted⟩⟩
  | cons st steps ih =>
    obtain ⟨hgood', hiff⟩ := exec_spec (x := x) program hgood st
      fun id addr code hst => (hnew st List.mem_cons_self id addr code hst).2
    have hrest := ih hgood' <| by
      intro st' hst' id addr code hadd
      obtain ⟨hone, -⟩ := hnew st' (List.mem_cons_of_mem st hst') id addr code hadd
      cases hone
      cases hst'
    refine ⟨hrest.1, fun hplanted => ?_⟩
    simp only [passes, List.forall_mem_cons]
    constructor
    · constructor
      · rintro ⟨hfirst, hothers⟩
        exact ⟨(hiff hplanted).mp hfirst, (hrest.2 hfirst).1.mp hothers⟩
      · rintro ⟨hfirst, hothers⟩
        have hfirst := (hiff hplanted).mpr hfirst
        exact ⟨hfirst, (hrest.2 hfirst).1.mpr hothers⟩
    · rintro ⟨hfirst, hothers⟩
      exact (hrest.2 hfirst).2 hothers

theorem run_spec (program : Word → XpOpcode) (hgood : Good s) (calls : List Call)
    (hlegal : LegalRun x s calls) :
    Good (run x s calls) ∧ (Planted x program s →
      ((∀ p ∈ runPasses x s calls, Planted x program (p.2.exec x p.1)) ↔
        ∀ p ∈ runPasses x s calls, Restores x program p.1 p.2) ∧
      ((∀ p ∈ runPasses x s calls, Planted x program (p.2.exec x p.1)) →
        Planted x program (run x s calls))) := by
  induction calls generalizing s with
  | nil => exact ⟨hgood, fun hplanted => ⟨iff_of_true nofun nofun, fun _ => hplanted⟩⟩
  | cons c calls ih =>
    obtain ⟨hc, hcalls⟩ := hlegal
    obtain ⟨hgood', hcall⟩ := passes_spec (x := x) program hgood (c.steps s)
      fun _ hst => mem_steps hc hst
    obtain ⟨hgood'', hrest⟩ := ih hgood' hcalls
    refine ⟨hgood'', fun hplanted => ?_⟩
    obtain ⟨hiff, hafter⟩ := hcall hplanted
    simp only [runPasses, List.forall_mem_append]
    constructor
    · constructor
      · rintro ⟨hfirst, hothers⟩
        exact ⟨hiff.mp hfirst, (hrest (hafter hfirst)).1.mp hothers⟩
      · rintro ⟨hfirst, hothers⟩
        have hfirst := hiff.mpr hfirst
        exact ⟨hfirst, (hrest (hafter hfirst)).1.mpr hothers⟩
    · rintro ⟨hfirst, hothers⟩
      exact (hrest (hafter hfirst)).2 hothers

theorem run_append (x : Target) (s : State) (before after : List Call) :
    run x s (before ++ after) = run x (run x s before) after := List.foldl_append

theorem legalRun_append {before after : List Call} (h : LegalRun x s (before ++ after)) :
    LegalRun x s before ∧ LegalRun x (run x s before) after := by
  induction before generalizing s with
  | nil => exact ⟨trivial, h⟩
  | cons c before ih => exact ⟨⟨h.1, (ih h.2).1⟩, (ih h.2).2⟩

theorem runPasses_append (x : Target) (s : State) (before after : List Call) :
    runPasses x s (before ++ after) =
      runPasses x s before ++ runPasses x (run x s before) after := by
  induction before generalizing s with
  | nil => rfl
  | cons c before ih =>
    rw [List.cons_append, runPasses, runPasses, ih, List.append_assoc]
    rfl

/-- A breakpoint that is set behind the body of the loop was so before, and it is another one. -/
theorem uninstallInstalled_step (hgood : Good s) (id : Nat) {b : Breakpoint}
    (hb : b ∈ (Step.exec x s (.act id .uninstallInstalled)).bps) (hxp : b.bp_xp = true) :
    b.id ≠ id ∧ b ∈ s.bps := by
  cases hfind : s.find id with
  | none =>
    simp only [Step.exec, hfind] at hb
    unfold State.find at hfind
    rw [List.find?_eq_none] at hfind
    exact ⟨by simpa using hfind b hb, hb⟩
  | some bp =>
    simp only [Step.exec, hfind] at hb
    obtain ⟨rfl, l1, l2, h⟩ := find_spec hgood hfind
    have hmem : bp ∈ s.bps := by
      rw [h.eq]
      simp
    obtain ⟨text, xp, heffect, hbecomes⟩ :=
      apply_spec (x := x) h (hgood.enabled bp hmem) .uninstallInstalled
    have hxp' : xp = false := by
      cases heffect with
      | keeps hout _ => exact hout rfl
      | plants hout _ => cases hout
      | takesOut => rfl
      | tests => rfl
    have hother : b ∈ l1 ++ l2 := by
      rcases hbecomes.bps with ⟨-, hbps⟩ | ⟨bp', hbps, -, -, hbp', -⟩
      · rwa [hbps] at hb
      · rw [hbps, List.mem_append, List.mem_cons] at hb
        rcases hb with hb | rfl | hb
        · simp [hb]
        · exact absurd (hxp'.symm.trans (hbp'.symm.trans hxp)) nofun
        · simp [hb]
    refine ⟨h.other b hother, ?_⟩
    rw [h.eq]
    rcases List.mem_append.mp hother with hb | hb
    · simp [hb]
    · simp [hb]

theorem uninstallInstalled_loop (hgood : Good s) (ids : List Nat) :
    ∀ b ∈ (execAll x s (ids.map fun id => .act id .uninstallInstalled)).bps, b.bp_xp = true →
      b.id ∉ ids ∧ b ∈ s.bps := by
  induction ids generalizing s with
  | nil => exact fun b hb _ => ⟨List.not_mem_nil, hb⟩
  | cons id ids ih =>
    have hgood' := (exec_spec (x := x) s.text hgood (.act id .uninstallInstalled)
      nofun).1
    intro b hb hxp
    obtain ⟨hnot, hmem⟩ := ih hgood' b hb hxp
    obtain ⟨hne, hmem⟩ := uninstallInstalled_step hgood id hmem hxp
    exact ⟨by simp [hne, hnot], hmem⟩

/-- Once all breakpoints are uninstalled the text has to be the program's own. -/
theorem uninstallAll_text (hgood : Good s)
    (hplanted : Planted x program (Call.exec x s .uninstallAll)) :
    (Call.exec x s .uninstallAll).text = program := by
  have hnone : ∀ b ∈ (Call.exec x s .uninstallAll).bps, b.bp_xp = false := by
    intro b hb
    by_contra hxp
    have hsteps : Call.exec x s .uninstallAll =
        execAll x s ((s.bps.map (·.id)).map fun id => .act id .uninstallInstalled) := by
      simp [Call.exec, Call.steps, State.each, Function.comp_def]
    rw [hsteps] at hb
    obtain ⟨hnot, hmem⟩ := uninstallInstalled_loop hgood _ b hb (by simpa using hxp)
    exact hnot (List.mem_map_of_mem hmem)
  funext a
  rw [hplanted a]
  unfold wanted
  rw [if_neg]
  simp only [List.any_eq_true, not_exists, not_and]
  intro b hb
  simp [hnone b hb]

/-! ## The law -/

/-- The opcodes of a program are 5, its trap is 1, and an opcode 0 is taken for the trap. -/
def trapOne : Target where
  trap := 1#64
  put := fun opcode => if opcode = 0#64 then 1#64 else opcode
  breakpointIsDisabled := fun _ => false

end ups_rules.breakpoints
