-- The step of a target (bump_target in trun_j.c) and the breakpoints that it adds on its way: at
-- the next jump, at the only place outside the line, and at the entry of a function.
import Ups.BreakpointToggles
import Ups.StepJumps
import Mathlib.Algebra.Order.BigOperators.Group.List

open ups_rules.machine
open ups_rules.breakpoints
open ups_rules.breakpoint_toggles
open ups_rules.get_jumps
open ups_rules.step_jumps

namespace ups_rules.bump_target

/-! ## The pure model -/

/-- `stopres_t` -/
inductive StopRes where
  | SR_SIG | SR_BPT | SR_WPT | SR_DIED | SR_SSTEP | SR_USER | SR_FAILED
deriving DecidableEq

inductive RType where
  | RT_STEP | RT_NEXT
deriving DecidableEq

inductive ContType where
  | CT_CONT | CT_STEP
deriving DecidableEq

/-- How the target stops: why, with which registers and which signal, and whether it is gone. -/
structure Stop where
  stopres : StopRes
  pc : Nat
  fp : Nat
  sp : Nat
  lastsig : Nat
  exited : Bool

def textAddr (addr : Nat) : Word := BitVec.ofNat 64 addr

/-- The only place outside the line is handed out with an empty list, and it is not the next
line. -/
structure LineJumps where
  jumps : LnoJumps
  single : jumps.alt_addr ≠ 0 →
    jumps.list = [] ∧ textAddr jumps.alt_addr ≠ textAddr jumps.nextaddr

/-- What `get_lno_jumps` hands out is of this kind, as far as addresses go. -/
theorem getLnoJumps_single {x : Symtabs} {f : Func} {lno : Lno} {ln_next : Option Lno}
    {want_calls : Bool} {r : LnoJumps} (hrun : getLnoJumps x f lno ln_next want_calls = some r)
    (hline : r.addr ≤ r.nextaddr) (hnext : r.nextaddr < 2 ^ 64) (halt : r.alt_addr < 2 ^ 64)
    (hsome : r.alt_addr ≠ 0) :
    r.list = [] ∧ textAddr r.alt_addr ≠ textAddr r.nextaddr := by
  obtain ⟨text, htext⟩ : ∃ text, lineText x f lno ln_next = some text := by
    unfold getLnoJumps at hrun
    obtain ⟨text, htext, -⟩ := Option.bind_eq_some_iff.mp hrun
    exact ⟨text, htext⟩
  obtain ⟨r', hrun', -, -, hseveral, hsingle⟩ := getLnoJumps_spec want_calls htext
  cases hrun.symm.trans hrun'
  have hnot : ¬ Scattered r.addr r.nextaddr _ := fun hc => hsome (hseveral hc).2
  obtain ⟨hlist, hdest⟩ := hsingle hnot
  refine ⟨hlist, fun heq => ?_⟩
  cases hd : destinations r.addr r.nextaddr
      ((x.stGetJumps f lno.ln_addr text want_calls).filter (jumpNeeded x)) with
  | nil =>
    rw [hd] at hdest
    exact hsome hdest.1
  | cons d rest =>
    have hmem : d ∈ destinations r.addr r.nextaddr
        ((x.stGetJumps f lno.ln_addr text want_calls).filter (jumpNeeded x)) := by
      rw [hd]
      exact List.mem_cons_self
    rw [hd] at hdest
    obtain ⟨j, hj, rfl⟩ := List.mem_map.mp hmem
    have hout := (List.mem_filter.mp hj).2
    unfold leavesLine at hout
    simp only [Bool.and_eq_true, Bool.or_eq_true, decide_eq_true_eq] at hout
    have hsame : r.alt_addr = r.nextaddr := by
      unfold textAddr at heq
      have hnat := congrArg BitVec.toNat heq
      rwa [BitVec.toNat_ofNat, BitVec.toNat_ofNat, Nat.mod_eq_of_lt halt,
        Nat.mod_eq_of_lt hnext] at hnat
    have hdst : r.alt_addr = j.ju_dstaddr := hdest.1
    omega

/-- What the target does and what is known of it. `stop` is how it stops for the time that is
given; what is asked then is of that time too. `alloc` finds a free place for a breakpoint, with
`heap` in it, and `program` is the text of a new process. -/
structure Env where
  trap : XpOpcode
  breakpointIsDisabled : Word → Bool
  breakpointIsSolibEvent : Nat → Bool
  alloc : List Nat → Nat
  fresh : ∀ ids, alloc ids ∉ ids
  heap : Nat → XpOpcode
  program : Word → XpOpcode
  stop : Nat → Stop
  sigStopsTarget : Nat → Bool
  sigKillsTarget : Nat → Bool
  sigCaught : Nat → Bool
  newDynamicLibs : Nat → Bool
  userWantsStop : Nat → Bool
  executeBpCode : Nat → Bool × StopRes
  getLnoJumps : Func → Lno → Bool → Option LineJumps
  addrToLno : Func → Nat → Option Lno
  lnNext : Func → Lno → Option Lno
  addrToFunc : Nat → Option Func
  stGetAddrLim : Func → Nat
  getMinBptAddr : Func → Option Nat

/-- `xp_tswap` stores the opcode that it is given. -/
def Env.target (e : Env) : Target := ⟨e.trap, id, e.breakpointIsDisabled⟩

/-- The breakpoints and the text, how often the target has stopped, and how it did last. -/
structure World where
  state : State
  time : Nat
  stop : Stop
  hit_solib_event : Bool

/-- Something is done to a breakpoint. -/
def World.act (e : Env) (w : World) (id : Nat) (a : Action) : World :=
  { w with state := Step.exec e.target w.state (.act id a) }

def World.call (e : Env) (w : World) (c : Call) : World :=
  { w with state := c.exec e.target w.state }

def markBreakpointsAsUninstalled (s : State) : State :=
  { s with bps := s.bps.map fun bp =>
      if bp.bp_installed then { bp with bp_xp := false, bp_installed := false } else bp }

/-- The target runs until it stops. -/
def World.wait (e : Env) (w : World) : World :=
  let stop := e.stop w.time
  { w with
    state := if stop.exited then { markBreakpointsAsUninstalled w.state with text := e.program }
      else w.state
    time := w.time + 1
    stop := stop }

/-- `get_breakpoint_at_addr` for the pc -/
def World.breakpointAtPc (w : World) : Option Breakpoint :=
  w.state.bps.find? fun bp => bp.bp_xp && bp.bp_addr == textAddr w.stop.pc

/-- `ao_restart_child_internal`: a breakpoint at the pc is stepped over. -/
def restartChildInternal (e : Env) (ctype : ContType) (w : World) : World :=
  match w.breakpointAtPc with
  | none => w.wait e
  | some bp =>
    let w := ((w.act e bp.id .uninstall).wait e).act e bp.id (.install false)
    if w.stop.stopres ≠ .SR_SSTEP ∨ ctype = .CT_STEP then w else w.wait e

/-- `ao_restart_child`; signals that the user is not interested in are passed over. -/
def xpRestartChild (e : Env) (ctype : ContType) : Nat → World → Option World
  | 0, _ => none
  | fuel + 1, w =>
    let w := restartChildInternal e ctype w
    if w.stop.stopres = .SR_SIG ∧ !e.sigStopsTarget w.stop.lastsig ∧ !e.sigCaught w.stop.lastsig then
      xpRestartChild e ctype fuel w
    else if w.stop.stopres = .SR_BPT then
      some { w with
        hit_solib_event := w.breakpointAtPc.any fun bp => e.breakpointIsSolibEvent bp.id }
    else some w

/-- Whether `continue_target` stops too, and for which reason, if there are no watchpoints. -/
def continueStop (e : Env) (w : World) : Bool × StopRes :=
  let sig := w.stop.lastsig
  match w.stop.stopres with
  | .SR_SSTEP => (false, .SR_SSTEP)
  | .SR_SIG => (e.sigKillsTarget sig || e.sigStopsTarget sig, .SR_SIG)
  | .SR_BPT =>
    let r := e.executeBpCode w.time
    (r.1 || r.2 ≠ .SR_BPT, r.2)
  | .SR_WPT => (false, .SR_WPT)
  | stopres => (true, stopres)

/-- The loop of `continue_target` -/
def continueLoop (e : Env) : Nat → World → Option (StopRes × World)
  | 0, _ => none
  | fuel + 1, w => do
    let w ← xpRestartChild e .CT_CONT fuel w
    let r := continueStop e w
    if r.1 then return (r.2, w) else continueLoop e fuel w

def continueTarget (e : Env) (fuel : Nat) (w : World) : Option (StopRes × World) :=
  continueLoop e fuel ((w.call e .uninstallAll).call e .installAll)

/-- `check_for_dynamic_libs` for a target that stopped at a breakpoint. -/
def checkForDynamicLibs (e : Env) : Nat → World → Option (StopRes × World)
  | 0, _ => none
  | fuel + 1, w =>
    if w.hit_solib_event then do
      let w := w.call e .canInstallAll
      let w := if e.newDynamicLibs w.time then { w with hit_solib_event := false } else w
      let (stopres, w) ← continueTarget e fuel w
      if stopres ≠ .SR_BPT ∨ e.userWantsStop w.time then
        return (stopres, { w with hit_solib_event := false })
      else checkForDynamicLibs e fuel w
    else some (.SR_BPT, w)

/-- `cont_target_over_sigs`; `last` is where the last signal came. -/
def contTargetOverSigs (e : Env) : Nat → Nat × Nat × Nat → World → Option (StopRes × World)
  | 0, _, _ => none
  | fuel + 1, last, w => do
    let w ← xpRestartChild e .CT_CONT fuel w
    let sig := w.stop.lastsig
    match w.stop.stopres with
    | .SR_SIG =>
      if (w.stop.pc, w.stop.sp, sig) = last ∨ e.sigKillsTarget sig then return (.SR_SIG, w)
      else contTargetOverSigs e fuel (w.stop.pc, w.stop.sp, sig) w
    | .SR_BPT => checkForDynamicLibs e fuel w
    | stopres => return (stopres, w)

/-- A breakpoint of the step: `dx_add_breakpoint` and `install_breakpoint`. -/
def World.plant (e : Env) (w : World) (addr : Nat) : Nat × World :=
  let id := e.alloc (w.state.bps.map (·.id))
  let w := { w with state := dxAddBreakpoint w.state id (textAddr addr) (e.heap id) }
  (id, w.act e id (.install false))

/-- The target runs until it is at the breakpoint in this frame or an older one. -/
def runTo (e : Env) (orig_fp : Nat) : Nat → World → Option (StopRes × World)
  | 0, _ => none
  | fuel + 1, w => do
    let (stopres, w) ← contTargetOverSigs e fuel (0, 0, 0) w
    if stopres ≠ .SR_BPT ∨ orig_fp ≤ w.stop.fp then return (stopres, w)
    else runTo e orig_fp fuel w

/-- The variables of the loop of `bump_target`. -/
structure Vars where
  f : Func
  lno : Lno
  line : LineJumps
  orig_fp : Nat
  pc : Nat
  addrlim : Nat

/-- The target is at the next jump, at the next line or at the only place outside the line, or it
stopped somewhere else, with or without a breakpoint left at that place. -/
inductive Reach where
  | there (fp pc bpt_addr : Nat) (jumptype : Option JumpType) (at_alt_addr : Bool) (w : World)
  | lost (stopres : StopRes) (alternative : Bool) (w : World)

/-- The breakpoint at the only place outside the line, if there is one. -/
def World.plantAlt (e : Env) (w : World) (alt_addr : Nat) : Option Nat × World :=
  if alt_addr = 0 then (none, w)
  else
    let r := w.plant e alt_addr
    (some r.1, r.2)

/-- Where the target is once `bp` is removed; `none` if it panics. -/
def arrive (e : Env) (line : LnoJumps) (bpt_addr : Nat) (jumptype : Option JumpType)
    (alt_bp : Option Nat) (stopres : StopRes) (w : World) : Option Reach :=
  if stopres ≠ .SR_BPT then some (.lost stopres alt_bp.isSome w)
  else
    let pc := w.stop.pc
    let at_alt_addr := alt_bp.isSome && pc == line.alt_addr
    let bpt_addr := if at_alt_addr then line.alt_addr else bpt_addr
    let jumptype := if at_alt_addr then line.alt_jumptype else jumptype
    if pc ≠ bpt_addr then none
    else
      let w := match alt_bp with
        | none => w
        | some id => w.act e id .remove
      some (.there w.stop.fp pc bpt_addr jumptype at_alt_addr w)

/-- The first half of the loop; `none` if it panics. -/
def reach (e : Env) (fuel : Nat) (v : Vars) (w : World) : Option Reach :=
  let line := v.line.jumps
  let j := line.list.find? fun j => !decide (j.ju_addr < v.pc)
  let bpt_addr := (j.map (·.ju_addr)).getD line.nextaddr
  let jumptype := j.map (·.ju_type)
  if bpt_addr < v.pc then none
  else if bpt_addr = v.pc then some (.there w.stop.fp v.pc bpt_addr jumptype false w)
  else
    let bp := w.plant e bpt_addr
    let alt_bp := bp.2.plantAlt e line.alt_addr
    match runTo e v.orig_fp fuel alt_bp.2 with
    | none => none
    | some (stopres, w) =>
      arrive e line bpt_addr jumptype alt_bp.1 stopres (w.act e bp.1 .remove)

/-- How the loop is left. -/
inductive Exit where
  /-- Not at a breakpoint; `alternative` says whether there is one left at the only place outside
  the line. -/
  | notBreakpoint (alternative : Bool)
  | nextLine
  | notStepped
  | backwards
  | noFunction
  | unknownLine (off_end_of_main : Bool)
  | newLine
  | notAtEntry
  | entered
  | noJumps
deriving DecidableEq

inductive Turn where
  | again (v : Vars) (w : World)
  | leaves (exit : Exit) (stopres : StopRes) (w : World)

/-- `dx_addr_to_breakpoint` -/
def dxAddrToBreakpoint (s : State) (addr : Nat) : Option Breakpoint :=
  s.bps.find? fun bp => bp.bp_addr == textAddr addr

/-- The target runs to the breakpoint of the user that is at the entry of a function, or to one of
the step, unless it is there. -/
def runToEntry (e : Env) (fuel : Nat) (call_bpt_addr : Nat) (w : World) :
    Option (StopRes × World) :=
  if w.stop.pc = call_bpt_addr then some (.SR_BPT, w)
  else
    match dxAddrToBreakpoint w.state call_bpt_addr with
    | some bp => do
      let w ← xpRestartChild e .CT_CONT fuel (w.act e bp.id (.install false))
      return (w.stop.stopres, w)
    | none => do
      let (tmp_bp, w) := w.plant e call_bpt_addr
      let w ← xpRestartChild e .CT_CONT fuel w
      return (w.stop.stopres, w.act e tmp_bp .remove)

/-- The target has called a function: it goes on to where a breakpoint can be in it. -/
def enter (e : Env) (fuel : Nat) (f : Func) (w : World) : Option Turn := do
  let call_bpt_addr ← e.getMinBptAddr f
  let bp_at_start_of_func := dxAddrToBreakpoint w.state call_bpt_addr
  let (stopres, w) ← runToEntry e fuel call_bpt_addr w
  if stopres ≠ .SR_BPT then some (.leaves .notAtEntry stopres w)
  else if w.stop.pc ≠ call_bpt_addr then none
  else
    some (.leaves .entered
      (if bp_at_start_of_func.isSome then (e.executeBpCode w.time).2 else .SR_BPT) w)

/-- The function and the line that the target is in now, and where the function ends. -/
def lineOf (e : Env) (v : Vars) (pc : Nat) : Option (Func × Nat × Option Lno) :=
  match if pc = v.line.jumps.nextaddr then e.lnNext v.f v.lno else none with
  | some lno => some (v.f, v.addrlim, some lno)
  | none => do
    let f ← if pc < v.f.fu_addr ∨ v.addrlim ≤ pc then e.addrToFunc pc else some v.f
    let addrlim := if pc < v.f.fu_addr ∨ v.addrlim ≤ pc then e.stGetAddrLim f else v.addrlim
    return (f, addrlim, e.addrToLno f pc)

/-- The target is off the line. -/
def offLine (e : Env) (rtype : RType) (fuel : Nat) (v : Vars) (jumptype : Option JumpType)
    (stopres : StopRes) (w : World) : Option Turn :=
  let pc := w.stop.pc
  let fp := w.stop.fp
  match lineOf e v pc with
  | none => some (.leaves .noFunction stopres w)
  | some (f, addrlim, lno) =>
    match lno with
    | none =>
      if jumptype ≠ some .JT_CALL then some (.leaves (.unknownLine (fp == 0)) stopres w)
      else enter e fuel f w
    | some lno =>
      if pc = lno.ln_addr ∧ (f ≠ v.f ∨ lno.ln_num ≠ v.lno.ln_num ∨ fp ≠ v.orig_fp) then
        some (.leaves .newLine stopres w)
      else if jumptype = some .JT_CALL then enter e fuel f w
      else
        match e.getLnoJumps f lno (rtype = .RT_STEP) with
        | none => some (.leaves .noJumps stopres w)
        | some line => some (.again ⟨f, lno, line, fp, pc, addrlim⟩ w)

/-- What follows the jump. -/
def afterJump (e : Env) (rtype : RType) (fuel : Nat) (v : Vars) (last_pc : Nat)
    (jumptype : Option JumpType) (stopres : StopRes) (w : World) : Option Turn :=
  let pc := w.stop.pc
  if v.line.jumps.addr ≤ pc ∧ pc < v.line.jumps.nextaddr ∧ w.stop.fp ≤ v.orig_fp then
    if pc < last_pc then some (.leaves .backwards stopres w) else some (.again { v with pc := pc } w)
  else offLine e rtype fuel v jumptype stopres w

/-- The body of the loop. -/
def turn (e : Env) (rtype : RType) (fuel : Nat) (v : Vars) (w : World) : Option Turn := do
  match ← reach e fuel v w with
  | .lost stopres alternative w => return .leaves (.notBreakpoint alternative) stopres w
  | .there fp pc bpt_addr jumptype at_alt_addr w =>
    if bpt_addr = v.line.jumps.nextaddr ∧ (rtype = .RT_STEP ∨ v.orig_fp ≤ fp) then
      return .leaves .nextLine
        (if (dxAddrToBreakpoint w.state pc).isSome then (e.executeBpCode w.time).2 else .SR_BPT) w
    else if at_alt_addr then afterJump e rtype fuel v pc jumptype .SR_BPT w
    else
      let w ← xpRestartChild e .CT_STEP fuel w
      if w.stop.stopres ≠ .SR_SSTEP then return .leaves .notStepped w.stop.stopres w
      afterJump e rtype fuel v pc jumptype .SR_SSTEP w

def bumpLoop (e : Env) (rtype : RType) : Nat → Vars → World → Option (Exit × StopRes × World)
  | 0, _, _ => none
  | fuel + 1, v, w => do
    match ← turn e rtype fuel v w with
    | .again v w => bumpLoop e rtype fuel v w
    | .leaves exit stopres w => return (exit, stopres, w)

/-- `install_solib_event_breakpoint` -/
def installSolibEventBreakpoint (e : Env) (w : World) : World :=
  match w.state.bps.find? fun bp => e.breakpointIsSolibEvent bp.id && !bp.bp_installed with
  | none => w
  | some bp => w.act e bp.id (.install false)

/-- How `bump_target` returns; no exit if it does not come to its loop. -/
structure Result where
  exit : Option Exit
  stopres : Option StopRes
  world : World

/-- The function, the frame and the adjusted pc are what `get_current_func` finds. There is no `bp`
left behind the loop, since `install_breakpoint` and `xp_remove_breakpoint` always return 0. -/
def bumpTarget (e : Env) (rtype : RType) (fuel : Nat) (current : Option Func) (orig_fp pc : Nat)
    (w : World) : Option Result :=
  match current.bind fun f => (e.addrToLno f pc).map fun lno => (f, lno) with
  | none => some ⟨none, none, w⟩
  | some (f, lno) =>
    let w := installSolibEventBreakpoint e (w.call e .uninstallAll)
    match e.getLnoJumps f lno (rtype = .RT_STEP) with
    | none => some ⟨none, none, w⟩
    | some line => do
      let (exit, stopres, w) ← bumpLoop e rtype fuel ⟨f, lno, line, orig_fp, pc, e.stGetAddrLim f⟩ w
      if exit = .unknownLine true then
        let (stopres, w) ← continueTarget e fuel w
        return ⟨some exit, some stopres, w⟩
      return ⟨some exit, some stopres, w⟩

/-! ## What has to be left behind -/

/-- What a step never changes of a breakpoint: which one it is, where it is, and whether
`install_breakpoint` puts its trap into the text. -/
structure Key where
  id : Nat
  addr : Word
  plants : Bool
deriving DecidableEq

def keyOf (x : Target) (bp : Breakpoint) : Key :=
  ⟨bp.id, bp.bp_addr, bp.bp_enabled && !Blocked x bp⟩

def keys (x : Target) (s : State) : List Key := s.bps.map (keyOf x)

/-- The opcode is the one that was there without breakpoints when the step began, or the one of the
program if the target was started again. -/
def Own (e : Env) (s₀ : State) (a : Word) (c : XpOpcode) : Prop :=
  c = e.program a ∨ c = (Call.exec e.target s₀ .uninstallAll).text a

/-- The breakpoints of the user are listed and no others, and there is no trap in the text but
theirs: where none is installed the opcode is the own one of the address. -/
structure Tidy (e : Env) (s₀ s : State) : Prop where
  list : keys e.target s = keys e.target s₀
  text : ∀ a, (∀ bp ∈ s.bps, bp.bp_xp = true → bp.bp_addr ≠ a) → Own e s₀ a (s.text a)

/-! ## The invariant -/

/-- The breakpoints of the step and those of the user: all are different, and the former are at
different addresses. -/
structure Apart (T U : List Key) : Prop where
  ids : ((T ++ U).map (·.id)).Nodup
  addrs : (T.map (·.addr)).Nodup

/-- None of the given breakpoints is installed at the address. -/
def Free (x : Target) (U : List Key) (s : State) (a : Word) : Prop :=
  ∀ bp ∈ s.bps, keyOf x bp ∈ U → bp.bp_xp = true → bp.bp_addr ≠ a

/-- A breakpoint of the step that is installed at the address has saved its own opcode, and if there
is none the own opcode is in the text. -/
structure CleanAt (x : Target) (ok : Word → XpOpcode → Prop) (T : List Key) (s : State) (a : Word) :
    Prop where
  codes : ∀ bp ∈ s.bps, keyOf x bp ∈ T → bp.bp_xp = true → bp.bp_addr = a → ok a bp.bp_code
  text : ok a (s.text a) ∨ ∃ bp ∈ s.bps, keyOf x bp ∈ T ∧ bp.bp_xp = true ∧ bp.bp_addr = a

/-- The addresses are clean where no breakpoint of the user is installed, other than those of `D`. -/
structure Inv (x : Target) (ok : Word → XpOpcode → Prop) (T U : List Key) (D : Word → Prop)
    (s : State) : Prop where
  apart : Apart T U
  list : keys x s = T ++ U
  sane : ∀ bp ∈ s.bps, bp.bp_xp = true → (keyOf x bp).plants = true ∧ bp.bp_installed = true
  clean : ∀ a, ¬ D a → Free x U s a → CleanAt x ok T s a

section
variable {x : Target} {ok : Word → XpOpcode → Prop} {T U : List Key} {D D' : Word → Prop}
  {s s' : State} {bp bp' : Breakpoint} {l1 l2 : List Breakpoint}

theorem Inv.good (h : Inv x ok T U D s) : Good s := by
  have hids := h.apart.ids
  rw [← h.list, keys, List.map_map] at hids
  refine ⟨hids, fun bp hbp hxp => ?_⟩
  have hplants := (h.sane bp hbp hxp).1
  unfold keyOf at hplants
  exact (Bool.and_eq_true_iff.1 hplants).1

theorem Inv.mono (h : Inv x ok T U D s) (hD : ∀ a, D a → D' a ∨ ¬ Free x U s a) :
    Inv x ok T U D' s := by
  refine ⟨h.apart, h.list, h.sane, fun a ha hfree => h.clean a ?_ hfree⟩
  intro hd
  rcases hD a hd with hd' | hnot
  · exact ha hd'
  · exact hnot hfree

theorem Inv.mem_keys (h : Inv x ok T U D s) (hbp : bp ∈ s.bps) : keyOf x bp ∈ T ++ U := by
  rw [← h.list]
  exact List.mem_map_of_mem hbp

/-- A breakpoint of the step is none of the user's. -/
theorem Apart.not_mem (h : Apart T U) {k : Key} (hk : k ∈ T) : k ∉ U := by
  have hids := h.ids
  rw [List.map_append, List.nodup_append] at hids
  intro hu
  exact hids.2.2 _ (List.mem_map_of_mem hk) _ (List.mem_map_of_mem hu) rfl

theorem Listed.mem_iff (h : Listed s l1 bp l2) {b : Breakpoint} :
    b ∈ s.bps ↔ b = bp ∨ b ∈ l1 ++ l2 := by
  rw [h.eq]
  simp only [List.mem_append, List.mem_cons]
  tauto

/-- A breakpoint changes in its place. The addresses of others are as clean as they were. -/
theorem Inv.replace (h : Inv x ok T U D s) (hl : Listed s l1 bp l2)
    (hbps : s'.bps = l1 ++ bp' :: l2) (hkey : keyOf x bp' = keyOf x bp)
    (hsane : bp'.bp_xp = true → (keyOf x bp).plants = true ∧ bp'.bp_installed = true)
    (htext : ∀ a, a ≠ bp.bp_addr → s'.text a = s.text a)
    (hD : ∀ a, a ≠ bp.bp_addr → D a → D' a)
    (hhere : ¬ D' bp.bp_addr → Free x U s' bp.bp_addr → CleanAt x ok T s' bp.bp_addr) :
    Inv x ok T U D' s' := by
  have hl' : Listed s' l1 bp' l2 := ⟨hbps, by
    have hid : bp'.id = bp.id := congrArg Key.id hkey
    rw [hid]
    exact hl.other⟩
  have haddr : bp'.bp_addr = bp.bp_addr := congrArg Key.addr hkey
  refine ⟨h.apart, ?_, ?_, ?_⟩
  · rw [← h.list]
    unfold keys
    rw [hbps, hl.eq]
    simp [hkey]
  · intro b hb hxp
    rcases (Listed.mem_iff hl').mp hb with rfl | hb
    · rw [hkey]
      exact hsane hxp
    · exact h.sane b ((Listed.mem_iff hl).mpr (.inr hb)) hxp
  · intro a ha hfree
    by_cases heq : a = bp.bp_addr
    · rw [heq] at ha hfree ⊢
      exact hhere ha hfree
    have hfree' : Free x U s a := by
      intro b hb hk hxp
      rcases (Listed.mem_iff hl).mp hb with rfl | hb
      · exact fun hc => heq hc.symm
      · exact hfree b ((Listed.mem_iff hl').mpr (.inr hb)) hk hxp
    have hclean := h.clean a (fun hd => ha (hD a heq hd)) hfree'
    refine ⟨?_, ?_⟩
    · intro b hb hk hxp hat
      rcases (Listed.mem_iff hl').mp hb with rfl | hb
      · exact absurd (hat.symm.trans haddr) heq
      · exact hclean.codes b ((Listed.mem_iff hl).mpr (.inr hb)) hk hxp hat
    · rw [htext a heq]
      rcases hclean.text with hok | ⟨b, hb, hk, hxp, hat⟩
      · exact .inl hok
      · rcases (Listed.mem_iff hl).mp hb with rfl | hb
        · exact absurd hat.symm heq
        · exact .inr ⟨b, (Listed.mem_iff hl').mpr (.inr hb), hk, hxp, hat⟩

/-- A breakpoint changes, but not its trap. -/
theorem Inv.keep (h : Inv x ok T U D s) (hl : Listed s l1 bp l2)
    (hbps : s'.bps = l1 ++ bp' :: l2) (hkey : keyOf x bp' = keyOf x bp)
    (hxp : bp'.bp_xp = bp.bp_xp) (hinst : bp.bp_installed = true → bp'.bp_installed = true)
    (hcode : bp.bp_xp = true → bp'.bp_code = bp.bp_code) (htext : s'.text = s.text) :
    Inv x ok T U D s' := by
  have hl' : Listed s' l1 bp' l2 := ⟨hbps, by
    have hid : bp'.id = bp.id := congrArg Key.id hkey
    rw [hid]
    exact hl.other⟩
  have hbp : bp ∈ s.bps := (Listed.mem_iff hl).mpr (.inl rfl)
  have hbp' : bp' ∈ s'.bps := (Listed.mem_iff hl').mpr (.inl rfl)
  have haddr : bp'.bp_addr = bp.bp_addr := congrArg Key.addr hkey
  refine h.replace hl hbps hkey ?_ (fun a _ => by rw [htext]) (fun a _ hd => hd) ?_
  · intro hc
    have hsane := h.sane bp hbp (hxp ▸ hc)
    exact ⟨hsane.1, hinst hsane.2⟩
  · intro hd hfree
    have hfree' : Free x U s bp.bp_addr := by
      intro b hb hk hc
      rcases (Listed.mem_iff hl).mp hb with rfl | hb
      · have hnot := hfree bp' hbp' (by rwa [hkey]) (hxp.trans hc)
        rwa [haddr] at hnot
      · exact hfree b ((Listed.mem_iff hl').mpr (.inr hb)) hk hc
    have hclean := h.clean _ hd hfree'
    refine ⟨?_, ?_⟩
    · intro b hb hk hc hat
      rcases (Listed.mem_iff hl').mp hb with rfl | hb
      · have hc' : bp.bp_xp = true := hxp.symm.trans hc
        rw [hcode hc']
        exact hclean.codes bp hbp (by rwa [← hkey]) hc' rfl
      · exact hclean.codes b ((Listed.mem_iff hl).mpr (.inr hb)) hk hc hat
    · rw [htext]
      rcases hclean.text with hok | ⟨b, hb, hk, hc, hat⟩
      · exact .inl hok
      · rcases (Listed.mem_iff hl).mp hb with rfl | hb
        · exact .inr ⟨bp', hbp', by rwa [hkey], hxp.trans hc, haddr⟩
        · exact .inr ⟨b, (Listed.mem_iff hl').mpr (.inr hb), hk, hc, hat⟩

end

/-! ## What the operations do to it -/

section
variable {x : Target} {ok : Word → XpOpcode → Prop} {T U : List Key} {D : Word → Prop}
  {s : State} {bp : Breakpoint} {l1 l2 : List Breakpoint}

def takenOut (bp : Breakpoint) : Breakpoint := { bp with bp_xp := false, bp_installed := false }

/-- What uninstalling does to the breakpoint and to the text. -/
theorem uninstallBreakpoint_eq (hl : Listed s l1 bp l2)
    (henabled : bp.bp_xp = true → bp.bp_enabled = true) :
    uninstallBreakpoint x s bp =
      ⟨l1 ++ takenOut bp :: l2, takeOut x s.text bp⟩ := by
  unfold uninstallBreakpoint takeOut takenOut
  by_cases hxp : bp.bp_xp = true
  · have h' := ((hl.setText bp.bp_addr (x.put bp.bp_code)).modify
      (f := fun b => { b with bp_xp := false }) rfl).modify
      (f := fun b => { b with bp_installed := false }) rfl
    rw [if_pos (by simp [hxp, henabled hxp]), if_pos hxp]
    exact congrArg (State.mk · _) h'.eq
  · have h' := hl.modify (f := fun b => { b with bp_installed := false }) rfl
    rw [if_neg (by simp [hxp]), if_neg hxp]
    refine congrArg (State.mk · s.text) (h'.eq.trans ?_)
    simp [Bool.eq_false_iff.mpr hxp]

theorem takeOut_of_ne (x : Target) (text : Word → XpOpcode) {a : Word} (ha : a ≠ bp.bp_addr) :
    takeOut x text bp a = text a := by
  unfold takeOut
  split
  · exact Function.update_of_ne ha _ _
  · rfl

/-- The breakpoints of the step that are installed at the address of one of them. -/
theorem Inv.only (h : Inv x ok T U D s) (hbp : bp ∈ s.bps) (hk : keyOf x bp ∈ T) {b : Breakpoint}
    (hb : b ∈ s.bps) (hkb : keyOf x b ∈ T) (haddr : b.bp_addr = bp.bp_addr) : b = bp := by
  have hkey : keyOf x b = keyOf x bp := List.inj_on_of_nodup_map h.apart.addrs hkb hk haddr
  exact List.inj_on_of_nodup_map h.good.nodup hb hbp (congrArg Key.id hkey)

/-- The breakpoint is taken out of the text. If it is one of the user's nothing is known of its
address then. -/
theorem Inv.uninstall (hput : ∀ c, x.put c = c) (h : Inv x ok T U D s) (hbp : bp ∈ s.bps) :
    Inv x ok T U (fun a => D a ∨ (keyOf x bp ∈ U ∧ bp.bp_xp = true ∧ bp.bp_addr = a))
      (uninstallBreakpoint x s bp) := by
  obtain ⟨-, l1, l2, hl⟩ := find_spec h.good (find_eq h.good hbp)
  have hxp := h.good.enabled bp hbp
  rw [uninstallBreakpoint_eq hl hxp]
  refine h.replace hl rfl rfl nofun (fun a ha => takeOut_of_ne x s.text ha)
    (fun a _ hd => .inl hd) ?_
  intro hd hfree
  rw [not_or] at hd
  have hl' : Listed ⟨l1 ++ takenOut bp :: l2, takeOut x s.text bp⟩ l1 (takenOut bp) l2 :=
    ⟨rfl, hl.other⟩
  have hfree' : Free x U s bp.bp_addr := by
    intro b hb hk hc
    rcases (Listed.mem_iff hl).mp hb with rfl | hb
    · exact absurd ⟨hk, hc, rfl⟩ hd.2
    · exact hfree b ((Listed.mem_iff hl').mpr (.inr hb)) hk hc
  have hclean := h.clean _ hd.1 hfree'
  refine ⟨?_, ?_⟩
  · intro b hb hk hc hat
    rcases (Listed.mem_iff hl').mp hb with rfl | hb
    · cases hc
    · exact hclean.codes b ((Listed.mem_iff hl).mpr (.inr hb)) hk hc hat
  · cases hc : bp.bp_xp with
    | true =>
      rcases List.mem_append.mp (h.mem_keys hbp) with hT | hU
      · have hcode := hclean.codes bp hbp hT hc rfl
        refine .inl ?_
        unfold takeOut
        dsimp only
        rw [if_pos hc, Function.update_self, hput]
        exact hcode
      · exact absurd ⟨hU, hc, rfl⟩ hd.2
    | false =>
      have htext : takeOut x s.text bp = s.text := by
        unfold takeOut
        rw [hc, if_neg (by simp)]
      rcases hclean.text with hok | ⟨b, hb, hk, hcb, hat⟩
      · refine .inl ?_
        dsimp only
        rwa [htext]
      · rcases (Listed.mem_iff hl).mp hb with rfl | hb
        · exact absurd (hc.symm.trans hcb) nofun
        · exact .inr ⟨b, (Listed.mem_iff hl').mpr (.inr hb), hk, hcb, hat⟩

def plantedOf (s : State) (bp : Breakpoint) : Breakpoint :=
  { bp with bp_xp := true, bp_installed := true, bp_code := s.text bp.bp_addr }

/-- The trap is put into the text. The address of a breakpoint of the user is not asked for then,
and one of the step saves the own opcode if it is not installed yet. -/
theorem Inv.install (h : Inv x ok T U D s) (hbp : bp ∈ s.bps)
    (hxp : keyOf x bp ∈ T → bp.bp_xp = false) :
    Inv x ok T U (fun a => D a ∧ ¬ (keyOf x bp ∈ U ∧ (keyOf x bp).plants = true ∧ bp.bp_addr = a))
      (installBreakpoint x s bp false) := by
  obtain ⟨-, l1, l2, hl⟩ := find_spec h.good (find_eq h.good hbp)
  cases hplants : (keyOf x bp).plants with
  | true =>
    have hboth : bp.bp_enabled = true ∧ Blocked x bp = false := by
      unfold keyOf at hplants
      simpa using hplants
    have heq : installBreakpoint x s bp false = ⟨l1 ++ plantedOf s bp :: l2,
        Function.update s.text bp.bp_addr x.trap⟩ :=
      installBreakpoint_enabled hl hboth.1 hboth.2
    rw [heq]
    have hl' : Listed ⟨l1 ++ plantedOf s bp :: l2, Function.update s.text bp.bp_addr x.trap⟩ l1
        (plantedOf s bp) l2 := ⟨rfl, hl.other⟩
    have hbp' := (Listed.mem_iff hl').mpr (.inl rfl)
    refine h.replace hl rfl rfl (fun _ => ⟨hplants, rfl⟩)
      (fun a ha => Function.update_of_ne ha _ _) ?_ ?_
    · exact fun a ha hd => ⟨hd, fun hc => ha hc.2.2.symm⟩
    · intro hd hfree
      rcases List.mem_append.mp (h.mem_keys hbp) with hT | hU
      · have hnot := h.apart.not_mem hT
        have hfree' : Free x U s bp.bp_addr := by
          intro b hb hk hc
          rcases (Listed.mem_iff hl).mp hb with rfl | hb
          · exact absurd hk hnot
          · exact hfree b ((Listed.mem_iff hl').mpr (.inr hb)) hk hc
        have hclean := h.clean _ (fun hc => hd ⟨hc, fun hu => hnot hu.1⟩) hfree'
        have hok : ok bp.bp_addr (s.text bp.bp_addr) := by
          rcases hclean.text with hok | ⟨b, hb, hk, hcb, hat⟩
          · exact hok
          · rw [h.only hbp hT hb hk hat] at hcb
            exact absurd ((hxp hT).symm.trans hcb) nofun
        refine ⟨?_, .inr ⟨_, hbp', hT, rfl, rfl⟩⟩
        intro b hb hk hcb hat
        rcases (Listed.mem_iff hl').mp hb with rfl | hb
        · exact hok
        · exact hclean.codes b ((Listed.mem_iff hl).mpr (.inr hb)) hk hcb hat
      · exact absurd rfl (hfree (plantedOf s bp) hbp' hU rfl)
  | false =>
    have hall : Inv x ok T U D (installBreakpoint x s bp false) := by
      cases hblocked : Blocked x bp with
      | true =>
        rw [installBreakpoint_blocked hblocked]
        exact h
      | false =>
        have hen : bp.bp_enabled = false := by
          unfold keyOf at hplants
          simpa [hblocked] using hplants
        have h' := hl.modify (f := fun b => { b with bp_installed := true }) rfl
        have heq : installBreakpoint x s bp false =
            s.modify bp.id fun b => { b with bp_installed := true } := by
          unfold Blocked at hblocked
          unfold installBreakpoint
          rw [if_neg (by simpa using hblocked), hen]
          rfl
        rw [heq]
        exact h.keep hl h'.eq rfl rfl (fun _ => rfl) (fun _ => rfl) rfl
    exact hall.mono fun a hd => .inl ⟨hd, fun hc => by cases hc.2.1⟩

/-- The trap is put in and what it replaced comes back. -/
theorem Inv.test (hput : ∀ c, x.put c = c) (h : Inv x ok T U D s) (hbp : bp ∈ s.bps) :
    Inv x ok T U D (testInstall x s bp) := by
  obtain ⟨-, l1, l2, hl⟩ := find_spec h.good (find_eq h.good hbp)
  unfold testInstall
  cases hxp : bp.bp_xp with
  | true => exact h
  | false =>
    have h' := ((hl.setText bp.bp_addr x.trap).modify
      (f := fun b => { b with bp_code := s.text bp.bp_addr }) rfl).setText bp.bp_addr
        (x.put (s.text bp.bp_addr))
    refine h.keep hl h'.eq rfl rfl (fun hc => hc) (fun hc => absurd (hxp.symm.trans hc) nofun) ?_
    funext a
    by_cases ha : a = bp.bp_addr
    · rw [ha]
      exact (Function.update_self _ _ _).trans (hput _)
    · exact (Function.update_of_ne ha _ _).trans (Function.update_of_ne ha _ _)

/-- The process is gone, and with it the traps. -/
theorem Inv.exit (h : Inv x ok T U D s) {program : Word → XpOpcode} (hok : ∀ a, ok a (program a)) :
    Inv x ok T U D { markBreakpointsAsUninstalled s with text := program } := by
  have hout : ∀ bp ∈ (markBreakpointsAsUninstalled s).bps, bp.bp_xp = false := by
    intro bp hbp
    obtain ⟨b, hb, rfl⟩ := List.mem_map.mp hbp
    split
    · rfl
    · rename_i hinst
      by_contra hxp
      exact hinst (h.sane b hb (by simpa using hxp)).2
  refine ⟨h.apart, ?_, ?_, ?_⟩
  · rw [← h.list]
    unfold keys markBreakpointsAsUninstalled
    rw [List.map_map]
    refine List.map_congr_left fun b _ => ?_
    dsimp only [Function.comp_apply]
    split <;> rfl
  · intro bp hbp hxp
    exact absurd ((hout bp hbp).symm.trans hxp) nofun
  · intro a _ _
    refine ⟨fun bp hbp _ hxp => ?_, .inl (hok a)⟩
    exact absurd ((hout bp hbp).symm.trans hxp) nofun

end

/-! ## Breakpoints that come and go -/

section
variable {x : Target} {ok : Word → XpOpcode → Prop} {T U : List Key} {D : Word → Prop}
  {s : State} {bp : Breakpoint}

/-- A new breakpoint of the step, at an address where there is none of them. -/
theorem Inv.add (h : Inv x ok T U D s) {id : Nat} {addr : Word}
    (hid : ∀ bp ∈ s.bps, bp.id ≠ id) (haddr : ∀ k ∈ T, k.addr ≠ addr) (bp_code : XpOpcode) :
    Inv x ok (⟨id, addr, true⟩ :: T) U D (dxAddBreakpoint s id addr bp_code) := by
  have hids := h.apart.ids
  have hold : ∀ bp ∈ s.bps, keyOf x bp ∈ (⟨id, addr, true⟩ :: T) → keyOf x bp ∈ T := by
    intro bp hbp hk
    rcases List.mem_cons.mp hk with hk | hk
    · exact absurd (congrArg Key.id hk) (hid bp hbp)
    · exact hk
  have hnew : id ∉ (T ++ U).map (·.id) := by
    rw [← h.list, keys, List.map_map]
    intro hmem
    obtain ⟨bp, hbp, heq⟩ := List.mem_map.mp hmem
    exact hid bp hbp heq
  refine ⟨⟨List.nodup_cons.mpr ⟨hnew, hids⟩, ?_⟩, ?_, ?_, ?_⟩
  · refine List.nodup_cons.mpr ⟨?_, h.apart.addrs⟩
    intro hmem
    obtain ⟨k, hk, heq⟩ := List.mem_map.mp hmem
    exact haddr k hk heq
  · exact congrArg (⟨id, addr, true⟩ :: ·) h.list
  · intro bp hbp hxp
    rcases List.mem_cons.mp hbp with rfl | hbp
    · cases hxp
    · exact h.sane bp hbp hxp
  · intro a ha hfree
    have hclean := h.clean a ha fun bp hbp => hfree bp (List.mem_cons_of_mem _ hbp)
    refine ⟨?_, ?_⟩
    · intro bp hbp hk hxp hat
      rcases List.mem_cons.mp hbp with rfl | hbp
      · cases hxp
      · exact hclean.codes bp hbp (hold bp hbp hk) hxp hat
    · rcases hclean.text with hok | ⟨bp, hbp, hk, hxp, hat⟩
      · exact .inl hok
      · exact .inr ⟨bp, List.mem_cons_of_mem _ hbp, List.mem_cons_of_mem _ hk, hxp, hat⟩

/-- A breakpoint of the step that is not installed goes. -/
theorem Inv.drop (h : Inv x ok T U D s) (hbp : bp ∈ s.bps) (hk : keyOf x bp ∈ T)
    (hxp : bp.bp_xp = false) :
    Inv x ok (T.filter (·.id != bp.id)) U D { s with bps := s.bps.filter (·.id != bp.id) } := by
  have hids := h.apart.ids
  have hsub : List.Sublist (T.filter (·.id != bp.id)) T := List.filter_sublist
  have hu : U.filter (·.id != bp.id) = U := by
    rw [List.filter_eq_self]
    intro k hku
    rw [List.map_append, List.nodup_append] at hids
    have hne := hids.2.2 _ (List.mem_map_of_mem hk) _ (List.mem_map_of_mem hku)
    exact bne_iff_ne.mpr hne.symm
  have hmem : ∀ b, b ∈ s.bps.filter (·.id != bp.id) ↔ b ∈ s.bps ∧ b.id ≠ bp.id := by
    intro b
    rw [List.mem_filter]
    simp
  refine ⟨⟨hids.sublist ((hsub.append_right U).map _), h.apart.addrs.sublist (hsub.map _)⟩, ?_,
    ?_, ?_⟩
  · have hlist := congrArg (List.filter (·.id != bp.id)) h.list
    rw [List.filter_append, hu, keys, List.filter_map] at hlist
    exact hlist
  · exact fun b hb => h.sane b ((hmem b).mp hb).1
  · intro a ha hfree
    have hkept : ∀ b ∈ s.bps, b.bp_xp = true → b ∈ s.bps.filter (·.id != bp.id) := by
      intro b hb hc
      refine (hmem b).mpr ⟨hb, fun heq => ?_⟩
      rw [List.inj_on_of_nodup_map h.good.nodup hb hbp heq] at hc
      exact absurd (hxp.symm.trans hc) nofun
    have hclean := h.clean a ha fun b hb hku hc => hfree b (hkept b hb hc) hku hc
    refine ⟨?_, ?_⟩
    · exact fun b hb hkb => hclean.codes b ((hmem b).mp hb).1 (hsub.subset hkb)
    · rcases hclean.text with hok | ⟨b, hb, hkb, hc, hat⟩
      · exact .inl hok
      · have hb' := hkept b hb hc
        refine .inr ⟨b, hb', List.mem_filter.mpr ⟨hkb, ?_⟩, hc, hat⟩
        exact bne_iff_ne.mpr ((hmem b).mp hb').2

theorem Inv.remove (hput : ∀ c, x.put c = c) (h : Inv x ok T U D s) (hbp : bp ∈ s.bps)
    (hk : keyOf x bp ∈ T) :
    Inv x ok (T.filter (·.id != bp.id)) U D (dxRemoveBreakpoint x s bp) := by
  unfold dxRemoveBreakpoint
  cases hxp : bp.bp_xp with
  | true =>
    obtain ⟨-, l1, l2, hl⟩ := find_spec h.good (find_eq h.good hbp)
    have hout : Inv x ok T U D (uninstallBreakpoint x s bp) := by
      refine (h.uninstall hput hbp).mono fun a hd => ?_
      rcases hd with hd | hd
      · exact .inl hd
      · exact absurd hd.1 (h.apart.not_mem hk)
    have heq := uninstallBreakpoint_eq (x := x) hl (h.good.enabled bp hbp)
    rw [if_pos rfl]
    rw [heq] at hout ⊢
    have hmem : takenOut bp ∈ l1 ++ takenOut bp :: l2 := by simp
    have hdrop := hout.drop hmem hk rfl
    exact hdrop
  | false =>
    rw [if_neg (by simp)]
    exact h.drop hbp hk hxp

/-! ## The loops over the list -/

theorem Inv.find (h : Inv x ok T U D s) {k : Key} (hk : k ∈ T ++ U) :
    ∃ bp ∈ s.bps, keyOf x bp = k := by
  rw [← h.list] at hk
  exact List.mem_map.mp hk

/-- The addresses of the breakpoints of the user that can be in the text. -/
def Wanted (U : List Key) (ids : List Nat) (a : Word) : Prop :=
  ∃ k ∈ U, k.plants = true ∧ k.addr = a ∧ k.id ∈ ids

theorem Call.exec_loop (x : Target) (s : State) (a : Action) :
    execAll x s (s.each a) = execAll x s ((s.bps.map (·.id)).map fun id => .act id a) := by
  unfold State.each
  rw [List.map_map]
  rfl

theorem Inv.uninstall_loop (hput : ∀ c, x.put c = c) (ids all : List Nat)
    (h : Inv x ok T U (Wanted U all) s) (hall : ∀ bp ∈ s.bps, bp.id ∈ all) :
    Inv x ok T U (Wanted U all)
      (execAll x s (ids.map fun id => .act id .uninstallInstalled)) := by
  induction ids generalizing s with
  | nil => exact h
  | cons id ids ih =>
    have hturn : Inv x ok T U (Wanted U all) (Step.exec x s (.act id .uninstallInstalled)) := by
      cases hfind : s.find id with
      | none => simpa only [Step.exec, hfind] using h
      | some bp =>
        have hbp : bp ∈ s.bps := List.mem_of_find?_eq_some hfind
        simp only [Step.exec, hfind, Action.apply]
        split
        · refine (h.uninstall hput hbp).mono fun a hd => ?_
          rcases hd with hd | ⟨hu, hxp, hat⟩
          · exact .inl hd
          · exact .inl ⟨_, hu, (h.sane bp hbp hxp).1, hat, hall bp hbp⟩
        · exact h
    refine ih hturn fun bp hbp => ?_
    obtain ⟨b, hb, hkey⟩ := h.find (hturn.mem_keys hbp)
    have hid : b.id = bp.id := congrArg Key.id hkey
    rw [← hid]
    exact hall b hb

theorem Inv.install_loop (ids : List Nat) (h : Inv x ok T U (Wanted U ids) s) :
    Inv x ok T U (fun _ => False)
      (execAll x s (ids.map fun id => .act id .installUninstalled)) := by
  induction ids generalizing s with
  | nil =>
    refine h.mono fun a hd => ?_
    obtain ⟨k, -, -, -, hmem⟩ := hd
    cases hmem
  | cons id ids ih =>
    refine ih (s := Step.exec x s (.act id .installUninstalled)) ?_
    -- the addresses of the others are left to the rest of the loop
    have hother : ∀ k ∈ U, k.plants = true → k.id ∈ id :: ids → k.id ≠ id →
        Wanted U ids k.addr := by
      intro k hk hplants hmem hne
      rcases List.mem_cons.mp hmem with heq | hmem
      · exact absurd heq hne
      · exact ⟨k, hk, hplants, rfl, hmem⟩
    cases hfind : s.find id with
    | none =>
      simp only [Step.exec, hfind]
      refine h.mono fun a hd => .inl ?_
      obtain ⟨k, hk, hplants, rfl, hmem⟩ := hd
      refine hother k hk hplants hmem fun heq => ?_
      obtain ⟨bp, hbp, rfl⟩ := h.find (List.mem_append_right T hk)
      unfold State.find at hfind
      rw [List.find?_eq_none] at hfind
      exact hfind bp hbp (by simpa [keyOf] using heq)
    | some bp =>
      have hbp : bp ∈ s.bps := List.mem_of_find?_eq_some hfind
      have hid : bp.id = id := by simpa using List.find?_some hfind
      have hsame : ∀ k ∈ U, k.id = id → keyOf x bp = k := by
        intro k hk heq
        obtain ⟨b, hb, rfl⟩ := h.find (List.mem_append_right T hk)
        rw [List.inj_on_of_nodup_map h.good.nodup hb hbp (heq.trans hid.symm)]
      simp only [Step.exec, hfind, Action.apply]
      split
      · rename_i hxp
        refine h.mono fun a hd => ?_
        obtain ⟨k, hk, hplants, rfl, hmem⟩ := hd
        by_cases heq : k.id = id
        · have hkey := hsame k hk heq
          refine .inr fun hfree => ?_
          refine hfree bp hbp (by rwa [hkey]) hxp ?_
          exact congrArg Key.addr hkey
        · exact .inl (hother k hk hplants hmem heq)
      · rename_i hxp
        refine (h.install hbp fun _ => by simpa using hxp).mono fun a hd => .inl ?_
        obtain ⟨⟨k, hk, hplants, rfl, hmem⟩, hnot⟩ := hd
        refine hother k hk hplants hmem fun heq => hnot ?_
        have hkey := hsame k hk heq
        rw [hkey]
        exact ⟨hk, hplants, congrArg Key.addr hkey⟩

theorem Inv.test_loop (hput : ∀ c, x.put c = c) (ids : List Nat) (h : Inv x ok T U D s) :
    Inv x ok T U D (execAll x s (ids.map fun id => .act id .test)) := by
  induction ids generalizing s with
  | nil => exact h
  | cons id ids ih =>
    refine ih (s := Step.exec x s (.act id .test)) ?_
    cases hfind : s.find id with
    | none => simpa only [Step.exec, hfind] using h
    | some bp =>
      simp only [Step.exec, hfind, Action.apply]
      exact h.test hput (List.mem_of_find?_eq_some hfind)

end

/-! ## The step -/

/-- The invariant between two operations. -/
def Holds (e : Env) (s₀ : State) (T : List Key) (w : World) : Prop :=
  Inv e.target (Own e s₀) T (keys e.target s₀) (fun _ => False) w.state

section
variable {e : Env} {s₀ : State} {T : List Key} {w : World}

theorem put_eq (e : Env) (c : XpOpcode) : e.target.put c = c := rfl

theorem own_program (e : Env) (s₀ : State) (a : Word) : Own e s₀ a (e.program a) := .inl rfl

/-- The target may be gone when it stops. -/
theorem Inv.wait {U : List Key} {D : Word → Prop}
    (h : Inv e.target (Own e s₀) T U D w.state) :
    Inv e.target (Own e s₀) T U D (w.wait e).state := by
  unfold World.wait
  dsimp only
  split
  · exact h.exit (own_program e s₀)
  · exact h

/-- A breakpoint that is not installed stays so while the target runs. -/
theorem wait_out {id : Nat} (h : ∀ b ∈ w.state.bps, b.id = id → b.bp_xp = false) :
    ∀ b ∈ (w.wait e).state.bps, b.id = id → b.bp_xp = false := by
  unfold World.wait
  dsimp only
  split
  · intro b hb hid
    obtain ⟨b', hb', rfl⟩ := List.mem_map.mp hb
    split at hid
    · rename_i hinst
      rw [if_pos hinst]
    · rename_i hinst
      rw [if_neg hinst]
      exact h b' hb' hid
  · exact h

theorem act_eq (h : Good w.state) {bp : Breakpoint} (hbp : bp ∈ w.state.bps) (a : Action) :
    (w.act e bp.id a).state = a.apply e.target w.state bp := exec_act h hbp a

/-- A breakpoint is stepped over: it is taken out and put in again. -/
theorem Holds.restartChildInternal (h : Holds e s₀ T w) (ctype : ContType) :
    Holds e s₀ T (restartChildInternal e ctype w) := by
  unfold bump_target.restartChildInternal
  cases hat : w.breakpointAtPc with
  | none => exact Inv.wait h
  | some bp =>
    have hbp : bp ∈ w.state.bps := List.mem_of_find?_eq_some hat
    have hxp : bp.bp_xp = true := by
      have hfound := List.find?_some hat
      exact (Bool.and_eq_true_iff.1 hfound).1
    have hout := Inv.uninstall (put_eq e) h hbp
    have hstate : (w.act e bp.id .uninstall).state = uninstallBreakpoint e.target w.state bp :=
      act_eq (Inv.good h) hbp .uninstall
    have hnone : ∀ b ∈ (w.act e bp.id .uninstall).state.bps, b.id = bp.id → b.bp_xp = false := by
      obtain ⟨-, l1, l2, hl⟩ := find_spec (Inv.good h) (find_eq (Inv.good h) hbp)
      have heq := uninstallBreakpoint_eq (x := e.target) hl fun hc => (Inv.good h).enabled bp hbp hc
      rw [hstate, heq]
      intro b hb hid
      rcases List.mem_append.mp hb with hb | hb
      · exact absurd hid (hl.other b (List.mem_append_left l2 hb))
      · rcases List.mem_cons.mp hb with rfl | hb
        · rfl
        · exact absurd hid (hl.other b (List.mem_append_right l1 hb))
    rw [← hstate] at hout
    have hin : Holds e s₀ T (((w.act e bp.id .uninstall).wait e).act e bp.id (.install false)) := by
      have hwait := Inv.wait hout
      obtain ⟨b, hb, hkey⟩ := hwait.find (Inv.mem_keys h hbp)
      have hid : b.id = bp.id := congrArg Key.id hkey
      have hinstall := hwait.install hb fun _ => wait_out hnone b hb hid
      have hagain := act_eq (e := e) hwait.good hb (.install false)
      rw [hid] at hagain
      unfold Holds
      rw [hagain]
      refine hinstall.mono fun a hd => .inl ?_
      obtain ⟨hd, hnot⟩ := hd
      rcases hd with hd | ⟨hu, -, haddr⟩
      · exact hd
      · rw [hkey] at hnot
        have hat : b.bp_addr = bp.bp_addr := congrArg Key.addr hkey
        exact hnot ⟨hu, (Inv.sane h bp hbp hxp).1, hat.trans haddr⟩
    dsimp only
    split
    · exact hin
    · exact Inv.wait hin

theorem Holds.xpRestartChild (h : Holds e s₀ T w) {ctype : ContType} {fuel : Nat} {w' : World}
    (hrun : xpRestartChild e ctype fuel w = some w') : Holds e s₀ T w' := by
  induction fuel generalizing w with
  | zero => cases hrun
  | succ fuel ih =>
    have hnext := h.restartChildInternal ctype
    rw [bump_target.xpRestartChild] at hrun
    split at hrun
    · exact ih hnext hrun
    · split at hrun
      · cases hrun
        exact hnext
      · cases hrun
        exact hnext

/-- `uninstall_all_breakpoints` and `install_all_breakpoints` -/
theorem Holds.reinstall (h : Holds e s₀ T w) :
    Holds e s₀ T ((w.call e .uninstallAll).call e .installAll) := by
  have hall : ∀ bp ∈ w.state.bps, bp.id ∈ w.state.bps.map (·.id) :=
    fun bp hbp => List.mem_map_of_mem hbp
  have hout := Inv.uninstall_loop (put_eq e) (w.state.bps.map (·.id)) (w.state.bps.map (·.id))
    (Inv.mono h fun _ hd => hd.elim) hall
  have hids : (w.call e .uninstallAll).state.bps.map (·.id) = w.state.bps.map (·.id) := by
    have hkeys : keys e.target (w.call e .uninstallAll).state = keys e.target w.state := by
      unfold World.call Call.exec Call.steps
      rw [Call.exec_loop, hout.list, Inv.list h]
    have hmap := congrArg (List.map Key.id) hkeys
    unfold keys at hmap
    rwa [List.map_map, List.map_map] at hmap
  have hstate : (w.call e .uninstallAll).state = execAll e.target w.state
      ((w.state.bps.map (·.id)).map fun id => .act id .uninstallInstalled) :=
    Call.exec_loop e.target w.state .uninstallInstalled
  rw [← hstate, ← hids] at hout
  have hin := hout.install_loop
  rw [← Call.exec_loop] at hin
  exact hin

theorem Holds.canInstallAll (h : Holds e s₀ T w) : Holds e s₀ T (w.call e .canInstallAll) := by
  have htest := Inv.test_loop (put_eq e) (w.state.bps.map (·.id)) h
  rw [← Call.exec_loop] at htest
  exact htest

theorem Holds.continueLoop (h : Holds e s₀ T w) {fuel : Nat} {r : StopRes × World}
    (hrun : continueLoop e fuel w = some r) : Holds e s₀ T r.2 := by
  induction fuel generalizing w with
  | zero => cases hrun
  | succ fuel ih =>
    rw [bump_target.continueLoop] at hrun
    obtain ⟨w', hw', hrun⟩ := Option.bind_eq_some_iff.mp hrun
    have hnext := h.xpRestartChild hw'
    dsimp only at hrun
    split at hrun
    · cases hrun
      exact hnext
    · exact ih hnext hrun

theorem Holds.continueTarget (h : Holds e s₀ T w) {fuel : Nat} {r : StopRes × World}
    (hrun : continueTarget e fuel w = some r) : Holds e s₀ T r.2 :=
  h.reinstall.continueLoop hrun

theorem Holds.checkForDynamicLibs (h : Holds e s₀ T w) {fuel : Nat} {r : StopRes × World}
    (hrun : checkForDynamicLibs e fuel w = some r) : Holds e s₀ T r.2 := by
  induction fuel generalizing w with
  | zero => cases hrun
  | succ fuel ih =>
    rw [bump_target.checkForDynamicLibs] at hrun
    split at hrun
    · have htest : Holds e s₀ T
          (if e.newDynamicLibs (w.call e .canInstallAll).time then
            { w.call e .canInstallAll with hit_solib_event := false }
          else w.call e .canInstallAll) := by
        split
        · exact h.canInstallAll
        · exact h.canInstallAll
      obtain ⟨r', hr', hrun⟩ := Option.bind_eq_some_iff.mp hrun
      have hnext := htest.continueTarget hr'
      dsimp only at hrun
      split at hrun
      · cases hrun
        exact hnext
      · exact ih hnext hrun
    · cases hrun
      exact h

theorem Holds.contTargetOverSigs (h : Holds e s₀ T w) {fuel : Nat} {last : Nat × Nat × Nat}
    {r : StopRes × World} (hrun : contTargetOverSigs e fuel last w = some r) :
    Holds e s₀ T r.2 := by
  induction fuel generalizing w last with
  | zero => cases hrun
  | succ fuel ih =>
    rw [bump_target.contTargetOverSigs] at hrun
    obtain ⟨w', hw', hrun⟩ := Option.bind_eq_some_iff.mp hrun
    have hnext := h.xpRestartChild hw'
    dsimp only at hrun
    split at hrun
    · split at hrun
      · cases hrun
        exact hnext
      · exact ih hnext hrun
    · exact hnext.checkForDynamicLibs hrun
    · cases hrun
      exact hnext

theorem Holds.runTo (h : Holds e s₀ T w) {orig_fp fuel : Nat} {r : StopRes × World}
    (hrun : runTo e orig_fp fuel w = some r) : Holds e s₀ T r.2 := by
  induction fuel generalizing w with
  | zero => cases hrun
  | succ fuel ih =>
    rw [bump_target.runTo] at hrun
    obtain ⟨r', hr', hrun⟩ := Option.bind_eq_some_iff.mp hrun
    have hnext := h.contTargetOverSigs hr'
    dsimp only at hrun
    split at hrun
    · cases hrun
      exact hnext
    · exact ih hnext hrun

end

/-! ## The breakpoints of the step -/

section
variable {e : Env} {s₀ : State} {T : List Key} {w : World}

theorem Holds.plant (h : Holds e s₀ T w) (addr : Nat) (haddr : ∀ k ∈ T, k.addr ≠ textAddr addr) :
    Holds e s₀ (⟨(w.plant e addr).1, textAddr addr, true⟩ :: T) (w.plant e addr).2 := by
  obtain ⟨id, halloc⟩ : ∃ id, e.alloc (w.state.bps.map (·.id)) = id := ⟨_, rfl⟩
  have hid : ∀ bp ∈ w.state.bps, bp.id ≠ id := by
    intro bp hbp heq
    have hfresh := e.fresh (w.state.bps.map (·.id))
    rw [halloc] at hfresh
    exact hfresh (List.mem_map.mpr ⟨bp, hbp, heq⟩)
  have hadd := Inv.add h hid haddr (e.heap id)
  obtain ⟨w', hw'⟩ : ∃ w' : World, { w with
      state := dxAddBreakpoint w.state id (textAddr addr) (e.heap id) } = w' := ⟨_, rfl⟩
  have hplant : w.plant e addr = (id, w'.act e id (.install false)) := by
    unfold World.plant
    rw [halloc, ← hw']
  have hstate : w'.state = dxAddBreakpoint w.state id (textAddr addr) (e.heap id) := by rw [← hw']
  rw [← hstate] at hadd
  have hmem : ⟨id, false, false, true, textAddr addr, e.heap id, 0⟩ ∈ w'.state.bps := by
    rw [hstate]
    exact List.mem_cons_self
  have hinstall := hadd.install hmem fun _ => rfl
  rw [hplant]
  unfold Holds
  have hact := act_eq (e := e) hadd.good hmem (.install false)
  dsimp only at hact ⊢
  rw [hact]
  exact hinstall.mono fun a hd => hd.1.elim

theorem Holds.remove (h : Holds e s₀ T w) {k : Key} (hk : k ∈ T) :
    Holds e s₀ (T.filter (·.id != k.id)) (w.act e k.id .remove) := by
  obtain ⟨bp, hbp, rfl⟩ := Inv.find h (List.mem_append_left _ hk)
  have hstate := act_eq (e := e) (Inv.good h) hbp .remove
  have hremove := Inv.remove (put_eq e) h hbp hk
  have hid : (keyOf e.target bp).id = bp.id := rfl
  unfold Holds
  rw [hid, hstate]
  exact hremove

theorem Holds.removeLast (h : Holds e s₀ T w) {k : Key} (hT : T = [k]) :
    Holds e s₀ [] (w.act e k.id .remove) := by
  rw [hT] at h
  have hremove := h.remove List.mem_cons_self
  rwa [List.filter_cons_of_neg (by simp), List.filter_nil] at hremove

/-- What is left of the breakpoints of the step. -/
def Reach.Left (e : Env) (s₀ : State) : Reach → Prop
  | .there _ _ _ _ _ w => Holds e s₀ [] w
  | .lost _ true w => ∃ k, Holds e s₀ [k] w
  | .lost _ false w => Holds e s₀ [] w

theorem arrive_left {line : LnoJumps} {bpt_addr : Nat} {jumptype : Option JumpType}
    {alt_bp : Option Nat} {stopres : StopRes} {r : Reach}
    (h : match alt_bp with
      | none => Holds e s₀ [] w
      | some id => ∃ k, k.id = id ∧ Holds e s₀ [k] w)
    (hrun : arrive e line bpt_addr jumptype alt_bp stopres w = some r) : r.Left e s₀ := by
  unfold arrive at hrun
  split at hrun
  · cases hrun
    cases alt_bp with
    | none => exact h
    | some id =>
      obtain ⟨k, -, h⟩ := h
      exact ⟨k, h⟩
  · dsimp only at hrun
    obtain ⟨-, hrun⟩ := Option.ite_none_left_eq_some.mp hrun
    cases hrun
    cases alt_bp with
    | none => exact h
    | some id =>
      obtain ⟨k, rfl, h⟩ := h
      exact h.removeLast rfl

theorem Holds.reach (h : Holds e s₀ [] w) {fuel : Nat} {v : Vars} {r : Reach}
    (hrun : reach e fuel v w = some r) : r.Left e s₀ := by
  unfold bump_target.reach at hrun
  dsimp only at hrun
  split at hrun
  · cases hrun
  split at hrun
  · cases hrun
    exact h
  cases hjump : v.line.jumps.list.find? fun j => !decide (j.ju_addr < v.pc) with
  | some j =>
    have halt : v.line.jumps.alt_addr = 0 := by
      by_contra halt
      rw [(v.line.single halt).1] at hjump
      cases hjump
    rw [hjump] at hrun
    unfold World.plantAlt at hrun
    rw [if_pos halt] at hrun
    have hbp := h.plant j.ju_addr nofun
    split at hrun
    · cases hrun
    · rename_i hrunTo
      have hnext := (hbp.runTo hrunTo).removeLast rfl
      exact arrive_left hnext hrun
  | none =>
    rw [hjump] at hrun
    have hbp := h.plant v.line.jumps.nextaddr nofun
    by_cases halt : v.line.jumps.alt_addr = 0
    · unfold World.plantAlt at hrun
      rw [if_pos halt] at hrun
      split at hrun
      · cases hrun
      · rename_i hrunTo
        have hnext := (hbp.runTo hrunTo).removeLast rfl
        exact arrive_left hnext hrun
    · have hboth := hbp.plant v.line.jumps.alt_addr <| by
        intro k hk
        rw [List.mem_singleton.mp hk]
        exact (v.line.single halt).2.symm
      unfold World.plantAlt at hrun
      rw [if_neg halt] at hrun
      split at hrun
      · cases hrun
      · rename_i hrunTo
        have hnext := hboth.runTo hrunTo
        have hids := (Inv.apart hnext).ids
        have hone := hnext.remove (List.mem_cons_of_mem _ List.mem_cons_self)
        rw [List.filter_cons_of_pos, List.filter_cons_of_neg (by simp), List.filter_nil] at hone
        · refine arrive_left ?_ hrun
          exact ⟨_, rfl, hone⟩
        · rw [List.cons_append, List.map_cons, List.nodup_cons] at hids
          refine bne_iff_ne.mpr fun heq => hids.1 ?_
          rw [heq]
          simp

end

/-! ## The loop -/

section
variable {e : Env} {s₀ : State} {w : World} {fuel : Nat} {v : Vars}

/-- What is left of the breakpoints of the step behind a turn. -/
def Turn.Left (e : Env) (s₀ : State) : Turn → Prop
  | .again _ w => Holds e s₀ [] w
  | .leaves exit _ w =>
    if exit = .notBreakpoint true then ∃ k, Holds e s₀ [k] w else Holds e s₀ [] w

theorem Holds.leaves (h : Holds e s₀ [] w) {exit : Exit} (hexit : exit ≠ .notBreakpoint true)
    (stopres : StopRes) : (Turn.leaves exit stopres w).Left e s₀ := by
  unfold Turn.Left
  dsimp only
  rwa [if_neg hexit]

theorem Holds.runToEntry (h : Holds e s₀ [] w) {call_bpt_addr : Nat} {r : StopRes × World}
    (hrun : runToEntry e fuel call_bpt_addr w = some r) : Holds e s₀ [] r.2 := by
  unfold bump_target.runToEntry at hrun
  split at hrun
  · cases hrun
    exact h
  split at hrun
  · rename_i bp hfind
    obtain ⟨w', hw', hrun⟩ := Option.bind_eq_some_iff.mp hrun
    cases hrun
    have hbp : bp ∈ w.state.bps := List.mem_of_find?_eq_some hfind
    have hinstall := Inv.install h hbp nofun
    have hstate := act_eq (e := e) (Inv.good h) hbp (.install false)
    have hin : Holds e s₀ [] (w.act e bp.id (.install false)) := by
      unfold Holds
      rw [hstate]
      exact hinstall.mono fun a hd => hd.1.elim
    exact hin.xpRestartChild hw'
  · obtain ⟨w', hw', hrun⟩ := Option.bind_eq_some_iff.mp hrun
    cases hrun
    exact ((h.plant call_bpt_addr nofun).xpRestartChild hw').removeLast rfl

theorem Holds.enter (h : Holds e s₀ [] w) {f : Func} {t : Turn}
    (hrun : enter e fuel f w = some t) : t.Left e s₀ := by
  unfold bump_target.enter at hrun
  obtain ⟨call_bpt_addr, -, hrun⟩ := Option.bind_eq_some_iff.mp hrun
  obtain ⟨r, hr, hrun⟩ := Option.bind_eq_some_iff.mp hrun
  have hnext := h.runToEntry hr
  dsimp only at hrun
  split at hrun
  · cases hrun
    exact hnext.leaves (by simp) _
  · split at hrun
    · cases hrun
    · cases hrun
      exact hnext.leaves (by simp) _

theorem Holds.offLine (h : Holds e s₀ [] w) {rtype : RType} {jumptype : Option JumpType}
    {stopres : StopRes} {t : Turn} (hrun : offLine e rtype fuel v jumptype stopres w = some t) :
    t.Left e s₀ := by
  unfold bump_target.offLine at hrun
  dsimp only at hrun
  split at hrun
  · cases hrun
    exact h.leaves (by simp) _
  · split at hrun
    · split at hrun
      · cases hrun
        exact h.leaves (by simp) _
      · exact h.enter hrun
    · split at hrun
      · cases hrun
        exact h.leaves (by simp) _
      · split at hrun
        · exact h.enter hrun
        · split at hrun
          · cases hrun
            exact h.leaves (by simp) _
          · cases hrun
            exact h

theorem Holds.afterJump (h : Holds e s₀ [] w) {rtype : RType} {last_pc : Nat}
    {jumptype : Option JumpType} {stopres : StopRes} {t : Turn}
    (hrun : afterJump e rtype fuel v last_pc jumptype stopres w = some t) : t.Left e s₀ := by
  unfold bump_target.afterJump at hrun
  dsimp only at hrun
  split at hrun
  · split at hrun
    · cases hrun
      exact h.leaves (by simp) _
    · cases hrun
      exact h
  · exact h.offLine hrun

theorem Holds.turn (h : Holds e s₀ [] w) {rtype : RType} {t : Turn}
    (hrun : turn e rtype fuel v w = some t) : t.Left e s₀ := by
  unfold bump_target.turn at hrun
  obtain ⟨r, hr, hrun⟩ := Option.bind_eq_some_iff.mp hrun
  have hreach := h.reach hr
  cases r with
  | lost stopres alternative w' =>
    cases hrun
    cases alternative with
    | true => exact hreach
    | false => exact Holds.leaves hreach (by simp) _
  | there fp pc bpt_addr jumptype at_alt_addr w' =>
    have hthere : Holds e s₀ [] w' := hreach
    dsimp only at hrun
    split at hrun
    · cases hrun
      exact hthere.leaves (by simp) _
    · split at hrun
      · exact hthere.afterJump hrun
      · obtain ⟨w'', hw'', hrun⟩ := Option.bind_eq_some_iff.mp hrun
        have hnext := hthere.xpRestartChild hw''
        split at hrun
        · cases hrun
          exact hnext.leaves (by simp) _
        · exact hnext.afterJump hrun

theorem Holds.bumpLoop (h : Holds e s₀ [] w) {rtype : RType} {r : Exit × StopRes × World}
    (hrun : bumpLoop e rtype fuel v w = some r) : (Turn.leaves r.1 r.2.1 r.2.2).Left e s₀ := by
  induction fuel generalizing v w with
  | zero => cases hrun
  | succ fuel ih =>
    rw [bump_target.bumpLoop] at hrun
    obtain ⟨t, ht, hrun⟩ := Option.bind_eq_some_iff.mp hrun
    have hturn := h.turn ht
    cases t with
    | again v' w' => exact ih hturn hrun
    | leaves exit stopres w' =>
      cases hrun
      exact hturn

/-! ## The breakpoints of the user -/

/-- A turn of the loop of `uninstall_all_breakpoints` changes nothing but flags and the text where a
breakpoint is installed. -/
theorem uninstallInstalled_turn {x : Target} {s : State} (hgood : Good s) (id : Nat) :
    keys x (Step.exec x s (.act id .uninstallInstalled)) = keys x s ∧
      ∀ a, (∀ b ∈ s.bps, b.bp_xp = true → b.bp_addr ≠ a) →
        (Step.exec x s (.act id .uninstallInstalled)).text a = s.text a := by
  cases hfind : s.find id with
  | none =>
    have hexec : Step.exec x s (.act id .uninstallInstalled) = s := by
      simp only [Step.exec, hfind]
    rw [hexec]
    exact ⟨rfl, fun _ _ => rfl⟩
  | some bp =>
    have hbp : bp ∈ s.bps := List.mem_of_find?_eq_some hfind
    obtain ⟨-, l1, l2, hl⟩ := find_spec hgood hfind
    simp only [Step.exec, hfind, Action.apply]
    split
    · rename_i hxp
      rw [uninstallBreakpoint_eq hl (hgood.enabled bp hbp)]
      refine ⟨?_, fun a ha => takeOut_of_ne x s.text (ha bp hbp hxp).symm⟩
      unfold keys
      rw [hl.eq]
      simp [takenOut, keyOf, Blocked]
    · exact ⟨rfl, fun _ _ => rfl⟩

theorem uninstallAll_spec (x : Target) {s : State} (hgood : Good s) :
    keys x (Call.exec x s .uninstallAll) = keys x s ∧
      (∀ b ∈ (Call.exec x s .uninstallAll).bps, b.bp_xp = false) ∧
      ∀ a, (∀ b ∈ s.bps, b.bp_xp = true → b.bp_addr ≠ a) →
        (Call.exec x s .uninstallAll).text a = s.text a := by
  have hexec : Call.exec x s .uninstallAll =
      execAll x s ((s.bps.map (·.id)).map fun id => .act id .uninstallInstalled) :=
    Call.exec_loop x s .uninstallInstalled
  have hloop : ∀ (ids : List Nat) (t : State), Good t →
      keys x (execAll x t (ids.map fun id => .act id .uninstallInstalled)) = keys x t ∧
        ∀ a, (∀ b ∈ t.bps, b.bp_xp = true → b.bp_addr ≠ a) →
          (execAll x t (ids.map fun id => .act id .uninstallInstalled)).text a = t.text a := by
    intro ids
    induction ids with
    | nil => exact fun t _ => ⟨rfl, fun _ _ => rfl⟩
    | cons id ids ih =>
      intro t ht
      obtain ⟨hkeys, htext⟩ := uninstallInstalled_turn (x := x) ht id
      obtain ⟨hkeys', htext'⟩ := ih _ (good_act ht id .uninstallInstalled)
      refine ⟨hkeys'.trans hkeys, fun a ha => (htext' a fun b hb hxp => ?_).trans (htext a ha)⟩
      exact ha b (uninstallInstalled_step ht id hb hxp).2 hxp
  obtain ⟨hkeys, htext⟩ := hloop (s.bps.map (·.id)) s hgood
  rw [hexec]
  refine ⟨hkeys, fun b hb => ?_, htext⟩
  by_contra hxp
  rw [Bool.not_eq_false] at hxp
  obtain ⟨hnot, hmem⟩ := uninstallInstalled_loop hgood _ b hb hxp
  exact hnot (List.mem_map_of_mem hmem)

theorem holds_uninstallAll (hgood : Good w.state) :
    Holds e w.state [] (w.call e .uninstallAll) := by
  obtain ⟨hkeys, hnone, -⟩ := uninstallAll_spec e.target hgood
  refine ⟨⟨?_, List.nodup_nil⟩, hkeys, ?_, ?_⟩
  · have hnodup := hgood.nodup
    unfold keys
    rwa [List.nil_append, List.map_map]
  · intro b hb hxp
    exact absurd ((hnone b hb).symm.trans hxp) nofun
  · intro a _ _
    exact ⟨fun b hb _ hxp => absurd ((hnone b hb).symm.trans hxp) nofun, .inl (.inr rfl)⟩

theorem Holds.installSolibEventBreakpoint (h : Holds e s₀ [] w) :
    Holds e s₀ [] (installSolibEventBreakpoint e w) := by
  unfold bump_target.installSolibEventBreakpoint
  split
  · exact h
  · rename_i bp hfind
    have hbp : bp ∈ w.state.bps := List.mem_of_find?_eq_some hfind
    have hinstall := Inv.install h hbp nofun
    have hstate := act_eq (e := e) (Inv.good h) hbp (.install false)
    unfold Holds
    rw [hstate]
    exact hinstall.mono fun a hd => hd.1.elim

theorem Holds.tidy (h : Holds e s₀ [] w) : Tidy e s₀ w.state := by
  refine ⟨Inv.list h, fun a ha => ?_⟩
  have hclean := Inv.clean h a id fun b hb _ hxp => ha b hb hxp
  rcases hclean.text with hok | ⟨b, -, hk, -, -⟩
  · exact hok
  · cases hk

theorem tidy_refl (hgood : Good s₀) : Tidy e s₀ s₀ := by
  obtain ⟨-, -, htext⟩ := uninstallAll_spec e.target hgood
  exact ⟨rfl, fun a ha => .inr (htext a ha).symm⟩

/-- With a breakpoint of the step the list is too long. -/
theorem Holds.not_tidy {k : Key} (h : Holds e s₀ [k] w) : ¬ Tidy e s₀ w.state := by
  intro htidy
  have hlist := (Inv.list h).symm.trans htidy.list
  have hlength := congrArg List.length hlist
  rw [List.length_append, List.length_singleton] at hlength
  omega

end

/-! ## The law -/

/-- The number behind the sum of all others is new. -/
theorem sum_succ_notMem (ids : List Nat) : ids.sum + 1 ∉ ids := by
  intro hmem
  have hle := List.single_le_sum (fun _ _ => Nat.zero_le _) _ hmem
  omega

/-- The target stops in the same way over and over, in a function with the lines 7 at 100 and 8 at
110; the first one is left for 200 only. -/
def stopping (stop : Stop) : Env where
  trap := 204
  breakpointIsDisabled := fun _ => false
  breakpointIsSolibEvent := fun _ => false
  alloc := fun ids => ids.sum + 1
  fresh := sum_succ_notMem
  heap := fun _ => 0
  program := fun _ => 144
  stop := fun _ => stop
  sigStopsTarget := fun _ => true
  sigKillsTarget := fun _ => true
  sigCaught := fun _ => false
  newDynamicLibs := fun _ => false
  userWantsStop := fun _ => false
  executeBpCode := fun _ => (true, .SR_BPT)
  getLnoJumps := fun _ _ _ => some ⟨⟨[none], 0, 100, 110, 200, some .JT_BRANCH⟩, by decide⟩
  addrToLno := fun _ _ => some ⟨100, 7⟩
  lnNext := fun _ _ => some ⟨110, 8⟩
  addrToFunc := fun _ => none
  stGetAddrLim := fun _ => 300
  getMinBptAddr := fun _ => none

/-- A user without breakpoints; the target is at the start of the first line. -/
def fresh : World := ⟨⟨[], fun _ => 144⟩, 0, ⟨.SR_SSTEP, 100, 50, 40, 0, false⟩, false⟩

end ups_rules.bump_target
