-- Continuing an interpreted program from its breakpoints (xc_restart_child in xc_text.c), and when
-- the program and its debugger see nothing of the traps but the stops. A machine that stops at a
-- trap has its text pointer one byte behind the breakpoint, as if an opcode were one byte.
import Ups.Breakpoints
import Ups.Callbacks
import Ups.Traps

open le_bytes
open ups_rules.machine
open ups_rules.opcodes
open ups_rules.execute
open ups_rules.proc_opcodes (longMachine quietEnv)
open ups_rules.next_pc
open ups_rules.callbacks
open ups_rules.breakpoints (Breakpoint)
open ups_rules.traps

namespace ups_rules.restarts

/-! ## The pure model -/

inductive TState where
  | TS_STOPPED | TS_HALTED | TS_CORE | TS_NOTR | TS_RUNNING | TS_SEARCHING
deriving DecidableEq

inductive StopRes where
  | SR_SIG | SR_BPT | SR_WPT | SR_DIED | SR_SSTEP | SR_USER | SR_FAILED
deriving DecidableEq

/-- The machine's environment, and what the debugger asks of the user's code for a breakpoint. -/
structure Xc where
  env : Env
  ma_cftab_size : Word
  breakpointIsDisabled : Word → Bool

/-- A text pointer as an address for the debugger; `none` is a panic. -/
def packTextloc (x : Xc) (im : Image) (cf pc : Word) : Option Word :=
  let cf_index := ((cf - x.env.cftab).sdiv (BitVec.ofNat 64 codefileSize)).setWidth 32
  let pc_offset := (pc - (im.files cf).cf_text_and_data).setWidth 32
  if (cf_index ||| pc_offset) &&& ~~~0xffff#32 ≠ 0#32 then none
  else some (((cf_index <<< 16) ||| pc_offset).setWidth 64)

def unpackTextloc (x : Xc) (im : Image) (addr : Word) : Option (Word × Word) :=
  let cf_index := ((addr >>> 16).setWidth 32).setWidth 64
  let pc_offset := addr &&& 0xffff#64
  if x.ma_cftab_size < cf_index then none
  else
    let cf := x.env.cftab + cf_index * BitVec.ofNat 64 codefileSize
    if (im.files cf).cf_text_size < pc_offset then none
    else some (cf, (im.files cf).cf_text_and_data + pc_offset)

def setText (m : Machine) (pc : Word) (opcode : Nat) : Machine :=
  { m with text := putOpcode m.text pc opcode }

inductive Swap where
  | panic
  | fails
  | swapped (m : Machine) (old_opcode : Nat)

/-- Without an opcode the trap is stored, as for a caller that asks for the old one. -/
def xcTswap (x : Xc) (m : Machine) (addr : Word) (xp_opcode : Option Nat) : Swap :=
  match unpackTextloc x m.toImage addr with
  | none => .panic
  | some (cf, _) =>
    match ensureLoaded x.env cf m with
    | none => .fails
    | some m =>
      match unpackTextloc x m.toImage addr with
      | none => .panic
      | some (_, pc) =>
        let opcode := xp_opcode.getD Opcode.OC_TRAP.num
        let old_opcode := getOpcode m.text pc
        if opcode ≠ Opcode.OC_TRAP.num ∧ old_opcode ≠ Opcode.OC_TRAP.num then .panic
        else .swapped (setText m pc opcode) old_opcode

/-- Whether `install_breakpoint` stores a trap for it. -/
def isEnabled (x : Xc) (bp : Breakpoint) : Bool :=
  bp.bp_enabled && !(bp.bp_user_data != 0 && x.breakpointIsDisabled bp.bp_user_data)

/-- `install_breakpoint(bp, xp, FALSE)`. A trap that cannot be stored is reported and forgotten. -/
def installBreakpoint (x : Xc) (m : Machine) (bp : Breakpoint) : Option (Machine × Breakpoint) :=
  if bp.bp_user_data != 0 && x.breakpointIsDisabled bp.bp_user_data then some (m, bp)
  else if bp.bp_enabled then
    match xcTswap x m bp.bp_addr none with
    | .panic => none
    | .fails => some (m, { bp with bp_xp := true, bp_installed := true })
    | .swapped m old_opcode =>
      some (m, { bp with
        bp_code := BitVec.ofNat 64 old_opcode, bp_xp := true, bp_installed := true })
  else some (m, { bp with bp_installed := true })

def uninstallBreakpoint (x : Xc) (m : Machine) (bp : Breakpoint) : Option (Machine × Breakpoint) :=
  if bp.bp_enabled && bp.bp_xp then
    match xcTswap x m bp.bp_addr (some bp.bp_code.toNat) with
    | .panic => none
    | .fails => some (m, { bp with bp_xp := false, bp_installed := false })
    | .swapped m _ => some (m, { bp with bp_xp := false, bp_installed := false })
  else some (m, { bp with bp_installed := false })

/-- `install_all_breakpoints`, of breakpoints that are not installed. -/
def installAllBreakpoints (x : Xc) : Machine → List Breakpoint → Option (Machine × List Breakpoint)
  | m, [] => some (m, [])
  | m, bp :: bps =>
    match installBreakpoint x m bp with
    | none => none
    | some (m, bp) => (installAllBreakpoints x m bps).map fun r => (r.1, bp :: r.2)

def getBreakpointAtAddr (bps : List Breakpoint) (addr : Word) : Option Breakpoint :=
  bps.find? fun bp => bp.bp_xp && bp.bp_addr == addr

/-- An assignment to members of a breakpoint. -/
def replaceBreakpoint (bps : List Breakpoint) (bp : Breakpoint) : List Breakpoint :=
  bps.map fun b => if b.id = bp.id then bp else b

/-- The machine once the files are loaded that `get_pc_after_call` loads. -/
def afterCallPrediction (env : Env) (m : Machine) (fcf : Word) (func_index : Int) : Machine :=
  let er := (m.files fcf).cf_funcrefs func_index
  if 0 < func_index ∨ er.er_file = 0 then m else (ensureLoaded env er.er_file m).getD m

/-- The machine once the files are loaded that `ci_get_next_pc_and_cf` loads. -/
def afterPrediction (env : Env) (m : Machine) : Machine :=
  match opcodeOf (m.get 1) with
  | some (.OC_CALL s) => afterCallPrediction env m m.cf (toCInt (operand (m.skip 1) s))
  | some .OC_CALL_INDIRECT =>
    let addr := (m.slot 0).setWidth 32
    let fcf := env.cftab + (addr >>> 16).setWidth 64 * BitVec.ofNat 64 codefileSize
    match ensureLoaded env fcf m with
    | none => m
    | some m => afterCallPrediction env m fcf (addr.setWidth 16).toInt
  | _ => m

/-- `npc` in `single_step_machine`, that does not ask whether a file could be loaded. -/
def predictedPc (env : Env) (m : Machine) : Option Word :=
  match ciGetNextPcAndCf env m with
  | some (_, npc) => some npc
  | none =>
    match opcodeOf (m.get 1) with
    | some (.OC_CALL _) | some .OC_CALL_INDIRECT => some (m.pc + 1#64)
    | _ => none

/-- The machine as `ci_execute_machine` leaves it when it stops. -/
def stopped (m : Machine) : Machine := { m with pc := m.pc - 1#64 }

/-- What the program and the debugger see of the machine: all but the text. -/
structure View where
  mem : Mem 64
  files : Word → Codefile
  pc : Word
  sp : Word
  fp : Word
  cf : Word
  retval : Word
  written : List (Word × List (BitVec 8))

def view (m : Machine) : View :=
  ⟨m.mem, m.files, m.pc, m.sp, m.fp, m.cf, m.retval, m.written⟩

inductive Event where
  /-- An instruction other than a trap is executed. -/
  | ran (before : View)
  /-- `xc_restart_child` returns. -/
  | report (xp_stopres : StopRes) (xp_lastsig : Int) (at_stop : View)
  | panicked

/-- Where the debugger is in a call of `xc_restart_child`. -/
inductive Phase where
  /-- It is about to call it with `CT_CONT`. -/
  | restart
  /-- In `single_step_machine`, with a trap at `npc`. -/
  | stepping (bp : Breakpoint) (npc : Word) (saved_opcode : BitVec 8)
  /-- In the `ci_execute_machine` behind that. -/
  | running
  /-- The program cannot be continued. -/
  | ended

structure Session where
  ma : Machine
  xp_tstate : TState
  bps : List Breakpoint
  phase : Phase

def Session.panics (s : Session) : List Event × Session := ([.panicked], { s with phase := .ended })

/-- `xc_restart_child` up to the first `ci_execute_machine`. -/
def beginRestart (x : Xc) (s : Session) : List Event × Session :=
  match packTextloc x s.ma.toImage s.ma.cf s.ma.pc with
  | none => s.panics
  | some pcaddr =>
    match (if s.xp_tstate = .TS_STOPPED then getBreakpointAtAddr s.bps pcaddr else none) with
    | none => ([], { s with phase := .running })
    | some bp =>
      match uninstallBreakpoint x s.ma bp with
      | none => s.panics
      | some (ma, bp) =>
        match predictedPc x.env ma with
        | none => s.panics
        | some npc =>
          let ma := afterPrediction x.env ma
          ([], { s with
            ma := setText ma npc Opcode.OC_TRAP.num
            bps := replaceBreakpoint s.bps bp
            phase := .stepping bp npc (BitVec.ofNat 8 (getOpcode ma.text npc)) })

/-- `xc_restart_child` behind its last `ci_execute_machine`. -/
def endRestart (s : Session) (res : ExecResult) (ma : Machine) : List Event × Session :=
  let ma := stopped ma
  match res with
  | .CI_ER_TRAP =>
    ([.report .SR_BPT 0 (view ma)], { s with ma := ma, xp_tstate := .TS_STOPPED, phase := .restart })
  | .CI_ER_EXITED =>
    ([.ran (view s.ma), .report .SR_DIED (-1) (view ma)],
      { s with ma := ma, xp_tstate := .TS_NOTR, phase := .ended })
  | res =>
    ([.ran (view s.ma), .report .SR_SIG (-(res.ctorIdx + 1 : Int)) (view ma)],
      { s with ma := ma, xp_tstate := .TS_HALTED, phase := .ended })

/-- The end of `single_step_machine`, and the breakpoint is installed again. -/
def endStep (x : Xc) (s : Session) (bp : Breakpoint) (npc : Word) (saved_opcode : BitVec 8)
    (res : ExecResult) (ma : Machine) : List Event × Session :=
  if res ≠ .CI_ER_TRAP then ([.ran (view s.ma), .panicked], { s with phase := .ended })
  else
    match installBreakpoint x (setText (stopped ma) npc saved_opcode.toNat) bp with
    | none => s.panics
    | some (ma, bp) =>
      ([], { s with ma := ma, bps := replaceBreakpoint s.bps bp, phase := .running })

/-- What happens next: at most one instruction. -/
def turn (x : Xc) (s : Session) : List Event × Session :=
  match s.phase with
  | .restart => beginRestart x s
  | .ended => ([], s)
  | .running =>
    match step x.env s.ma with
    | .next ma => ([.ran (view s.ma)], { s with ma := ma })
    | .quit res ma => endRestart s res ma
    | .panic => ([.ran (view s.ma), .panicked], { s with phase := .ended })
  | .stepping bp npc saved_opcode =>
    match step x.env s.ma with
    | .next ma => ([.ran (view s.ma)], { s with ma := ma })
    | .quit res ma => endStep x s bp npc saved_opcode res ma
    | .panic => ([.ran (view s.ma), .panicked], { s with phase := .ended })

/-- The events of the next turns. -/
def trace (x : Xc) : Nat → Session → List Event
  | 0, _ => []
  | k + 1, s => (turn x s).1 ++ trace x k (turn x s).2

/-- A program that has not run yet. -/
def Session.start (ma : Machine) (bps : List Breakpoint) : Session := ⟨ma, .TS_NOTR, bps, .restart⟩

/-! ## What breakpoints are for -/

/-- The place of the trap of a breakpoint. -/
def trapAddr (x : Xc) (im : Image) (bp : Breakpoint) : Option Word :=
  (unpackTextloc x im bp.bp_addr).map (·.2)

/-- The places where there are enabled breakpoints. -/
def trapsOf (x : Xc) (im : Image) (bps : List Breakpoint) : List Word :=
  (bps.filter (isEnabled x)).filterMap (trapAddr x im)

/-- What breakpoints make of an event of the run without them: each arrival at one of them is
reported, and no other stop is reported as one. -/
def withReports (traps : List Word) : Event → List Event
  | .ran v => if v.pc ∈ traps then [.report .SR_BPT 0 v, .ran v] else [.ran v]
  | .report .SR_BPT _ _ => []
  | e => [e]

/-- The session is the run without breakpoints, with reports at the breakpoints: what happens in
either of them, in any number of turns, happens in the other one too. -/
structure Transparent (x : Xc) (traps : List Word) (s without : Session) : Prop where
  sound : ∀ k, ∃ j, trace x k s <+: (trace x j without).flatMap (withReports traps)
  complete : ∀ k, ∃ j, (trace x k without).flatMap (withReports traps) <+: trace x j s

/-- The breakpoint is in the text of a file that has been loaded. -/
def IsLoaded (x : Xc) (im : Image) (bp : Breakpoint) : Prop :=
  ∃ cf pc, unpackTextloc x im bp.bp_addr = some (cf, pc) ∧ (im.files cf).cf_loaded = true

/-- No breakpoint is inside an instruction that the program comes to, behind its first byte. -/
def AtInstructions (env : Env) (m : Machine) (traps : List Word) : Prop :=
  ∀ m', Steps env m m' → ∀ a ∈ traps, a ≠ m'.pc → Apart a 2 m'.pc (instructionSize m')

/-- The program, once it is started, comes neither to a breakpoint nor to a trap of its own. -/
def MeetsNoTrap (x : Xc) (m : Machine) (traps : List Word) : Prop :=
  packTextloc x m.toImage m.cf m.pc ≠ none → ∀ m', Steps x.env m m' →
    m'.pc ∉ traps ∧ opcodeOf (m'.get 2) ≠ some .OC_TRAP

/-! ## Installing the breakpoints -/

section
variable {x : Xc} {m m' : Machine} {bp : Breakpoint} {bps : List Breakpoint} {traps : List Word}

theorem xcTswap_trap {cf pc : Word} (haddr : unpackTextloc x m.toImage bp.bp_addr = some (cf, pc))
    (hloaded : (m.files cf).cf_loaded = true) :
    xcTswap x m bp.bp_addr none =
      .swapped (setText m pc Opcode.OC_TRAP.num) (getOpcode m.text pc) := by
  have hload : ensureLoaded x.env cf m = some m := by
    unfold ensureLoaded
    rw [if_pos hloaded]
  unfold xcTswap
  -- the number of the trap is not to be evaluated
  generalize Opcode.OC_TRAP.num = trap
  rw [haddr]
  dsimp only
  rw [hload]
  dsimp only
  rw [haddr]
  dsimp only
  rw [Option.getD_none]
  split
  · rename_i h
    exact absurd rfl h.1
  · rfl

theorem installBreakpoint_enabled {cf pc : Word} (henabled : isEnabled x bp = true)
    (haddr : unpackTextloc x m.toImage bp.bp_addr = some (cf, pc))
    (hloaded : (m.files cf).cf_loaded = true) :
    ∃ bp', installBreakpoint x m bp = some (setText m pc Opcode.OC_TRAP.num, bp') := by
  unfold isEnabled at henabled
  rw [Bool.and_eq_true, Bool.not_eq_true'] at henabled
  unfold installBreakpoint
  rw [if_neg (by rw [henabled.2]; decide), if_pos henabled.1, xcTswap_trap haddr hloaded]
  exact ⟨_, rfl⟩

theorem installBreakpoint_disabled (henabled : ¬ isEnabled x bp = true) :
    ∃ bp', installBreakpoint x m bp = some (m, bp') := by
  unfold isEnabled at henabled
  unfold installBreakpoint
  split
  · exact ⟨_, rfl⟩
  · rename_i huser
    rw [if_neg]
    · exact ⟨_, rfl⟩
    · intro hen
      rw [Bool.not_eq_true] at huser
      exact henabled (by rw [hen, huser]; rfl)

/-- All enabled breakpoints are planted. -/
theorem installAllBreakpoints_spec
    (h : ∀ bp ∈ bps, isEnabled x bp = true → IsLoaded x m.toImage bp) :
    ∃ bps', installAllBreakpoints x m bps = some (trapped (trapsOf x m.toImage bps) m, bps') := by
  induction bps generalizing m with
  | nil => exact ⟨[], rfl⟩
  | cons bp bps ih =>
    have hbps : ∀ b ∈ bps, isEnabled x b = true → IsLoaded x m.toImage b :=
      fun b hb => h b (List.mem_cons_of_mem _ hb)
    unfold installAllBreakpoints
    by_cases henabled : isEnabled x bp = true
    · obtain ⟨cf, pc, haddr, hloaded⟩ := h bp List.mem_cons_self henabled
      obtain ⟨bp', hinst⟩ := installBreakpoint_enabled henabled haddr hloaded
      obtain ⟨bps', hrest⟩ := ih (m := setText m pc Opcode.OC_TRAP.num) hbps
      have htraps : trapsOf x m.toImage (bp :: bps) = pc :: trapsOf x m.toImage bps := by
        unfold trapsOf
        rw [List.filter_cons_of_pos henabled, List.filterMap_cons_some]
        unfold trapAddr
        rw [haddr]
        rfl
      rw [hinst, htraps]
      exact ⟨bp' :: bps', by simp only [hrest]; rfl⟩
    · obtain ⟨bp', hinst⟩ := installBreakpoint_disabled (m := m) henabled
      obtain ⟨bps', hrest⟩ := ih hbps
      have htraps : trapsOf x m.toImage (bp :: bps) = trapsOf x m.toImage bps := by
        unfold trapsOf
        rw [List.filter_cons_of_neg henabled]
      rw [hinst, htraps]
      exact ⟨bp' :: bps', by simp only [hrest]; rfl⟩

end

/-! ## Turns that meet no trap -/

section
variable {x : Xc} {m m' : Machine} {traps : List Word} {ts ts' : TState}
  {bps : List Breakpoint} {s without : Session}

/-- The machine is neither at a breakpoint nor at a trap of its own. -/
def Fine (traps : List Word) (m : Machine) : Prop :=
  m.pc ∉ traps ∧ opcodeOf (m.get 2) ≠ some .OC_TRAP

/-- No breakpoint is inside of the instruction at the text pointer. -/
def Whole (traps : List Word) (m : Machine) : Prop :=
  ∀ a ∈ traps, a ≠ m.pc → Apart a 2 m.pc (instructionSize m)

theorem Fine.clear (h : Fine traps m) (hwhole : Whole traps m) :
    Clear traps m (instructionSize m) :=
  fun a ha => hwhole a ha fun hc => h.1 (hc ▸ ha)

/-- Two sessions that run the program, one with the traps and one without them, or that are both at
the end. -/
inductive Alike (traps : List Word) : Session → Session → Prop where
  | running (m : Machine) (ts ts' : TState) (bps : List Breakpoint) :
    Alike traps ⟨trapped traps m, ts, bps, .running⟩ ⟨m, ts', [], .running⟩
  | ended {s without : Session} (hs : s.phase = .ended) (hwithout : without.phase = .ended) :
    Alike traps s without

theorem endRestart_spec {res : ExecResult} (hres : res ≠ .CI_ER_TRAP) :
    ∃ r sig, r ≠ .SR_BPT ∧ ∀ s m, (endRestart s res m).2.phase = .ended ∧
      (endRestart s res m).1 = [.ran (view s.ma), .report r sig (view (stopped m))] := by
  cases res with
  | CI_ER_TRAP => contradiction
  | CI_ER_EXITED => exact ⟨.SR_DIED, _, by decide, fun s m => ⟨rfl, rfl⟩⟩
  | _ => exact ⟨.SR_SIG, _, by decide, fun s m => ⟨rfl, rfl⟩⟩

theorem withReports_ran (h : m.pc ∉ traps) :
    withReports traps (.ran (view m)) = [.ran (view m)] := if_neg h

theorem withReports_report {r : StopRes} (h : r ≠ .SR_BPT) (sig : Int) (v : View) :
    withReports traps (.report r sig v) = [.report r sig v] := by
  cases r with
  | SR_BPT => contradiction
  | _ => rfl

/-- A turn of the run without breakpoints that meets no trap is one of the session. -/
theorem turn_of_fine (ts' : TState) (hign : IgnoresTraps x.env traps) (hfine : Fine traps m)
    (hwhole : Whole traps m) :
    (turn x ⟨trapped traps m, ts, bps, .running⟩).1 =
        (turn x ⟨m, ts', [], .running⟩).1.flatMap (withReports traps) ∧
      Alike traps (turn x ⟨trapped traps m, ts, bps, .running⟩).2
        (turn x ⟨m, ts', [], .running⟩).2 := by
  have hsame := same_step hign (hfine.clear hwhole) hfine.2
  unfold turn
  dsimp only
  revert hsame
  generalize step x.env (trapped traps m) = o
  generalize step x.env m = o'
  intro hsame
  cases hsame with
  | next m' =>
    refine ⟨?_, .running m' _ _ _⟩
    rw [List.flatMap_singleton, withReports_ran hfine.1]
    rfl
  | panic =>
    refine ⟨?_, .ended rfl rfl⟩
    rw [List.flatMap_cons, withReports_ran hfine.1]
    rfl
  | quit res m' hres =>
    obtain ⟨r, sig, hr, hend⟩ := endRestart_spec hres
    refine ⟨?_, .ended (hend _ _).1 (hend _ _).1⟩
    dsimp only
    rw [(hend _ _).2, (hend _ _).2, List.flatMap_cons, withReports_ran hfine.1,
      List.flatMap_singleton, withReports_report hr]
    rfl

theorem trace_of_over (h : s.phase = .ended) (k : Nat) : trace x k s = [] := by
  induction k with
  | zero => rfl
  | succ k ih =>
    have hturn : turn x s = ([], s) := by
      unfold turn
      rw [h]
    rw [trace, hturn, ih]
    rfl

theorem endRestart_phase (s : Session) (res : ExecResult) (ma : Machine) :
    (endRestart s res ma).2.phase ≠ .running := by
  cases res <;> exact fun h => nomatch h

/-- A machine that runs on is the next one of the program. -/
theorem steps_of_turn (h : (turn x ⟨m, ts, bps, .running⟩).2.phase = .running) :
    Steps x.env m (turn x ⟨m, ts, bps, .running⟩).2.ma := by
  unfold turn at h ⊢
  dsimp only at h ⊢
  cases ho : step x.env m with
  | next m' => exact .single ho
  | quit res m' =>
    rw [ho] at h
    exact absurd h (endRestart_phase _ _ _)
  | panic =>
    rw [ho] at h
    cases h

/-- A run that meets no trap, turn by turn. -/
theorem trace_of_alike (hign : IgnoresTraps x.env traps) (halike : Alike traps s without)
    (hfine : without.phase = .running → ∀ m', Steps x.env without.ma m' →
      Fine traps m' ∧ Whole traps m') (k : Nat) :
    trace x k s = (trace x k without).flatMap (withReports traps) := by
  induction k generalizing s without with
  | zero => rfl
  | succ k ih =>
    cases halike with
    | ended hs hwithout =>
      rw [trace_of_over hs, trace_of_over hwithout]
      rfl
    | running m ts ts' bps =>
      have hm := hfine rfl
      obtain ⟨hevents, hnext⟩ := turn_of_fine ts' hign (hm m .refl).1 (hm m .refl).2
      rw [trace, trace, List.flatMap_append, hevents]
      congr 1
      apply ih hnext
      intro hphase m' hsteps
      exact hm m' ((steps_of_turn hphase).trans hsteps)

end

/-! ## Turns that meet a trap -/

section
variable {x : Xc} {m m' : Machine} {traps : List Word} {ts ts' : TState}
  {bps : List Breakpoint} {s without : Session}

theorem eq_of_opcodeOf_trap {n : Nat} (h : opcodeOf n = some .OC_TRAP) :
    n = Opcode.OC_TRAP.num := by
  have hval : Opcode.OC_TRAP.num = 207 := by decide +kernel
  have hall : ∀ p ∈ opcodeTable.zipIdx,
      (match p.1 with | .OC_TRAP => true | _ => false) = true → p.2 = 207 := by decide +kernel
  rw [hval]
  exact hall (.OC_TRAP, n) (List.mem_zipIdx_iff_getElem?.mpr h) rfl

/-- A machine that a trap stops has its text pointer one byte behind the start of the trap. -/
theorem turn_of_trap (h : opcodeOf (m.get 2) = some .OC_TRAP) :
    turn x ⟨m, ts, bps, .running⟩ =
      ([.report .SR_BPT 0 (view (stopped (m.skip 2)))],
        ⟨stopped (m.skip 2), .TS_STOPPED, bps, .restart⟩) := by
  unfold turn
  dsimp only
  rw [step_of_trap h]
  rfl

theorem stopped_skip_two_pc : (stopped (m.skip 2)).pc = m.pc + 1#64 := by
  unfold stopped
  rw [skip_pc]
  bv_omega

/-- Every other instruction is an event. -/
theorem turn_of_not_trap (hign : IgnoresTraps x.env traps)
    (h : opcodeOf (m.get 2) ≠ some .OC_TRAP) :
    ∃ es, (turn x ⟨m, ts, bps, .running⟩).1 = .ran (view m) :: es := by
  unfold turn
  dsimp only
  cases ho : step x.env m with
  | next m' => exact ⟨[], rfl⟩
  | panic => exact ⟨_, rfl⟩
  | quit res m' =>
    have hres : res ≠ .CI_ER_TRAP := by
      rintro rfl
      exact h (opcode_of_quit_trap hign ho)
    obtain ⟨r, sig, -, hend⟩ := endRestart_spec hres
    exact ⟨_, (hend _ _).2⟩

set_option maxRecDepth 8000 in
/-- Behind a trap of its own the program goes on in the middle of it, where there is neither a
breakpoint nor a trap. -/
theorem behind_trap (h : opcodeOf (m.get 2) = some .OC_TRAP) (hwhole : Whole traps m) :
    Fine traps (stopped (m.skip 2)) := by
  have hnum : m.get 2 = Opcode.OC_TRAP.num := eq_of_opcodeOf_trap h
  have hval : Opcode.OC_TRAP.num = 207 := by decide
  constructor
  · intro hmem
    rw [stopped_skip_two_pc] at hmem
    have hapart := hwhole _ hmem (by bv_omega) 1 (two_le_instructionSize m)
    rw [show m.pc + BitVec.ofNat 64 1 - (m.pc + 1#64) = 0#64 by bv_omega] at hapart
    exact absurd hapart (by decide)
  · intro hop
    have hbyte : (stopped (m.skip 2)).get 1 = (m.skip 1).get 1 := by
      show load m.text (stopped (m.skip 2)).pc 1 = load m.text (m.skip 1).pc 1
      rw [stopped_skip_two_pc]
      rfl
    have htwo := get_two (stopped (m.skip 2))
    rw [eq_of_opcodeOf_trap hop, hbyte, (low_byte (by omega)).2, hval] at htwo
    omega

/-- What happens first in a run that begins at a sound instruction is not a report. -/
theorem not_expected_when_fine (hign : IgnoresTraps x.env traps) (hfine : Fine traps m)
    (sig : Int) (v : View) (j : Nat) :
    ¬ [.report .SR_BPT sig v] <+:
      (trace x j ⟨m, ts, bps, .running⟩).flatMap (withReports traps) := by
  intro hpre
  cases j with
  | zero => simp [trace] at hpre
  | succ j =>
    obtain ⟨es, hes⟩ := turn_of_not_trap hign hfine.2
    rw [trace, hes, List.cons_append, List.flatMap_cons, withReports_ran hfine.1,
      List.singleton_append, List.cons_prefix_cons] at hpre
    exact Event.noConfusion hpre.1

/-- Behind a trap of its own the run is continued, and no report is expected. -/
theorem not_expected_at_trap (hign : IgnoresTraps x.env traps) (hwhole : Whole traps m)
    (h : opcodeOf (m.get 2) = some .OC_TRAP) (sig : Int) (v : View) (j : Nat) :
    ¬ [.report .SR_BPT sig v] <+:
      (trace x j ⟨m, ts, [], .running⟩).flatMap (withReports traps) := by
  intro hpre
  cases j with
  | zero => simp [trace] at hpre
  | succ j =>
  rw [trace, turn_of_trap h] at hpre
  cases j with
  | zero => simp [trace, withReports] at hpre
  | succ j =>
  change _ <+: List.flatMap _ (trace x (j + 1) _) at hpre
  rw [trace, List.flatMap_append] at hpre
  cases hpack : packTextloc x (stopped (m.skip 2)).toImage (stopped (m.skip 2)).cf
      (stopped (m.skip 2)).pc with
  | none =>
    have hturn : turn x ⟨stopped (m.skip 2), .TS_STOPPED, [], .restart⟩ =
        Session.panics ⟨stopped (m.skip 2), .TS_STOPPED, [], .restart⟩ := by
      simp only [turn, beginRestart, hpack]
    rw [hturn] at hpre
    exact Event.noConfusion (List.cons_prefix_cons.mp hpre).1
  | some pcaddr =>
    have hturn : turn x ⟨stopped (m.skip 2), .TS_STOPPED, [], .restart⟩ =
        ([], ⟨stopped (m.skip 2), .TS_STOPPED, [], .running⟩) := by
      simp only [turn, beginRestart, hpack]
      rfl
    rw [hturn] at hpre
    exact not_expected_when_fine hign (behind_trap h hwhole) sig v j hpre

/-- The first stop of the session is expected only where the run has met no trap. -/
theorem fine_of_sound (hign : IgnoresTraps x.env traps) (hwhole : Whole traps m)
    (hsound : ∃ j, trace x 1 ⟨trapped traps m, ts, bps, .running⟩ <+:
      (trace x j ⟨m, ts', [], .running⟩).flatMap (withReports traps)) : Fine traps m := by
  by_contra hnot
  obtain ⟨j, hj⟩ := hsound
  have htrap : opcodeOf ((trapped traps m).get 2) = some .OC_TRAP := by
    by_cases hmem : m.pc ∈ traps
    · have hplant := get_plant_of_mem hmem (fun b hb hne i hi =>
        hwhole b hb hne i (Nat.lt_of_lt_of_le hi (two_le_instructionSize m))) m.text
      show opcodeOf (getOpcode (plant traps m.text) m.pc) = _
      rw [hplant, opcodeOf_trap]
    · have hclear : Clear traps m (instructionSize m) :=
        fun a ha => hwhole a ha fun hc => hmem (hc ▸ ha)
      rw [hclear.get (two_le_instructionSize m)]
      by_contra hop
      exact hnot ⟨hmem, hop⟩
  rw [trace, turn_of_trap htrap, trace, List.append_nil] at hj
  by_cases hown : opcodeOf (m.get 2) = some .OC_TRAP
  · exact not_expected_at_trap hign hwhole hown _ _ j hj
  · have hmem : m.pc ∈ traps := by
      by_contra hmem
      exact hnot ⟨hmem, hown⟩
    cases j with
    | zero => simp [trace] at hj
    | succ j =>
      obtain ⟨es, hes⟩ := turn_of_not_trap hign hown
      rw [trace, hes, List.cons_append, List.flatMap_cons] at hj
      have hreport : withReports traps (.ran (view m)) =
        [.report .SR_BPT 0 (view m), .ran (view m)] := if_pos hmem
      rw [hreport, List.cons_append, List.cons_prefix_cons] at hj
      have hpc : m.pc + 2#64 - 1#64 = m.pc := congrArg View.pc (Event.report.inj hj.1).2.2
      bv_omega

/-- What is sound of a run is sound of what follows its first instruction. -/
theorem sound_of_next (hign : IgnoresTraps x.env traps) (hfine : Fine traps m)
    (hwhole : Whole traps m) (hstep : step x.env m = .next m')
    (hsound : ∀ k, ∃ j, trace x k ⟨trapped traps m, ts, bps, .running⟩ <+:
      (trace x j ⟨m, ts', [], .running⟩).flatMap (withReports traps)) :
    ∀ k, ∃ j, trace x k ⟨trapped traps m', ts, bps, .running⟩ <+:
      (trace x j ⟨m', ts', [], .running⟩).flatMap (withReports traps) := by
  intro k
  have hsame := same_step hign (hfine.clear hwhole) hfine.2
  have hstep' : step x.env (trapped traps m) = .next (trapped traps m') := by
    rw [hstep] at hsame
    generalize step x.env (trapped traps m) = o at hsame ⊢
    cases hsame
    rfl
  obtain ⟨j, hj⟩ := hsound (k + 1)
  have hturn : turn x ⟨trapped traps m, ts, bps, .running⟩ =
      ([.ran (view m)], ⟨trapped traps m', ts, bps, .running⟩) := by
    simp only [turn, hstep']
    rfl
  have hturn' : turn x ⟨m, ts', [], .running⟩ = ([.ran (view m)], ⟨m', ts', [], .running⟩) := by
    simp only [turn, hstep]
  rw [trace, hturn] at hj
  cases j with
  | zero => simp [trace] at hj
  | succ j =>
    rw [trace, hturn', List.flatMap_append, List.flatMap_singleton, withReports_ran hfine.1,
      List.prefix_append_right_inj] at hj
    exact ⟨j, hj⟩

/-- A run whose stops are all expected meets no trap. -/
theorem fine_of_steps (hign : IgnoresTraps x.env traps)
    (hwhole : ∀ m'', Steps x.env m m'' → Whole traps m'') (hsteps : Steps x.env m m')
    (hsound : ∀ k, ∃ j, trace x k ⟨trapped traps m, ts, bps, .running⟩ <+:
      (trace x j ⟨m, ts', [], .running⟩).flatMap (withReports traps)) : Fine traps m' := by
  induction hsteps using Relation.ReflTransGen.head_induction_on with
  | refl => exact fine_of_sound hign (hwhole m' .refl) (hsound 1)
  | head hstep hrest ih =>
    apply ih
    · intro m'' h
      exact hwhole m'' (.head hstep h)
    · exact sound_of_next hign (fine_of_sound hign (hwhole _ .refl) (hsound 1))
        (hwhole _ .refl) hstep hsound

/-! ## The first call -/

theorem turn_start_none (h : packTextloc x m.toImage m.cf m.pc = none) :
    turn x (.start m bps) = ([.panicked], ⟨m, .TS_NOTR, bps, .ended⟩) := by
  simp only [turn, Session.start, beginRestart, h]
  rfl

theorem turn_start_some {pcaddr : Word} (h : packTextloc x m.toImage m.cf m.pc = some pcaddr) :
    turn x (.start m bps) = ([], ⟨m, .TS_NOTR, bps, .running⟩) := by
  simp only [turn, Session.start, beginRestart, h]
  rfl

theorem transparent_of_eq
    (h : ∀ k, trace x k s = (trace x k without).flatMap (withReports traps)) :
    Transparent x traps s without where
  sound k := ⟨k, h k ▸ List.prefix_rfl⟩
  complete k := ⟨k, h k ▸ List.prefix_rfl⟩

/-- The session and the run without breakpoints begin in the same way. -/
theorem trace_start_of_eq
    (h : packTextloc x m.toImage m.cf m.pc ≠ none → ∀ k,
      trace x k ⟨trapped traps m, .TS_NOTR, bps, .running⟩ =
        (trace x k ⟨m, .TS_NOTR, [], .running⟩).flatMap (withReports traps)) (k : Nat) :
    trace x k (.start (trapped traps m) bps) =
      (trace x k (.start m [])).flatMap (withReports traps) := by
  cases k with
  | zero => rfl
  | succ k =>
    cases hpack : packTextloc x m.toImage m.cf m.pc with
    | none =>
      rw [trace, trace, turn_start_none hpack, turn_start_none (m := trapped traps m) hpack,
        trace_of_over rfl, trace_of_over rfl]
      rfl
    | some pcaddr =>
      rw [trace, trace, turn_start_some hpack, turn_start_some (m := trapped traps m) hpack]
      exact h (by rw [hpack]; exact Option.some_ne_none _) k

theorem sound_of_start {pcaddr : Word} (hpack : packTextloc x m.toImage m.cf m.pc = some pcaddr)
    (h : Transparent x traps (.start (trapped traps m) bps) (.start m [])) (k : Nat) :
    ∃ j, trace x k ⟨trapped traps m, .TS_NOTR, bps, .running⟩ <+:
      (trace x j ⟨m, .TS_NOTR, [], .running⟩).flatMap (withReports traps) := by
  obtain ⟨j, hj⟩ := h.sound (k + 1)
  rw [trace, turn_start_some (m := trapped traps m) hpack] at hj
  cases j with
  | zero => exact ⟨0, hj⟩
  | succ j =>
    rw [trace, turn_start_some hpack] at hj
    exact ⟨j, hj⟩

end

/-! ## The main theorem -/

/-- Enabled breakpoints at instructions of loaded files are installed, and then they are transparent
exactly if the program without them comes to none of them, nor to a trap of its own. -/
theorem breakpoints_are_transparent_when_none_is_reached (x : Xc) (m : Machine)
    (bps : List Breakpoint)
    (hloaded : ∀ bp ∈ bps, isEnabled x bp = true → IsLoaded x m.toImage bp)
    (hat : AtInstructions x.env m (trapsOf x m.toImage bps))
    (hign : IgnoresTraps x.env (trapsOf x m.toImage bps)) :
    ∃ ma bps', installAllBreakpoints x m bps = some (ma, bps') ∧
      (Transparent x (trapsOf x m.toImage bps) (.start ma bps') (.start m []) ↔
        MeetsNoTrap x m (trapsOf x m.toImage bps)) := by
  obtain ⟨bps', hinst⟩ := installAllBreakpoints_spec hloaded
  refine ⟨_, bps', hinst, ?_⟩
  generalize trapsOf x m.toImage bps = traps at hat hign ⊢
  constructor
  · intro h hpack m' hsteps
    obtain ⟨pcaddr, hpack⟩ := Option.ne_none_iff_exists'.mp hpack
    exact fine_of_steps hign hat hsteps (sound_of_start hpack h)
  · intro h
    apply transparent_of_eq
    apply trace_start_of_eq
    intro hpack k
    apply trace_of_alike hign (.running m _ _ bps')
    intro _ m' hsteps
    exact ⟨h hpack m' hsteps, hat m' hsteps⟩

/-- A no-operation at the address 0, and no opcode behind it. -/
def nopMachine : Machine :=
  { longMachine with
    text := fun a => if a = 0#64 then BitVec.ofNat 8 Opcode.OC_NOP.num
      else if a = 1#64 then BitVec.ofNat 8 (Opcode.OC_NOP.num / 256) else 255#8 }

def quietXc : Xc := ⟨quietEnv, 1#64, fun _ => false⟩

def firstBreakpoint : Breakpoint where
  id := 0
  bp_xp := false
  bp_installed := false
  bp_enabled := true
  bp_addr := 0
  bp_code := 0
  bp_user_data := 0

theorem trapsOf_first : trapsOf quietXc nopMachine.toImage [firstBreakpoint] = [0#64] := by
  decide

set_option maxRecDepth 8000 in
theorem nopMachine_steps {m : Machine} (h : Steps quietEnv nopMachine m) :
    m = nopMachine ∨ m = nopMachine.skip 2 := by
  have hop : opcodeOf (nopMachine.get 2) = some .OC_NOP := by with_unfolding_all decide
  have hnone : opcodeOf ((nopMachine.skip 2).get 2) = none := by with_unfolding_all decide
  induction h with
  | refl => exact .inl rfl
  | tail _ hstep ih =>
    cases ih with
    | inl h =>
      rw [h] at hstep
      unfold step at hstep
      rw [hop] at hstep
      exact .inr (Outcome.next.inj hstep).symm
    | inr h =>
      rw [h] at hstep
      unfold step at hstep
      rw [hnone] at hstep
      cases hstep

theorem nopMachine_atInstructions : AtInstructions quietEnv nopMachine [0#64] := by
  intro m hsteps a ha hne
  obtain rfl := List.mem_singleton.mp ha
  cases nopMachine_steps hsteps with
  | inl h => exact absurd (h ▸ rfl) hne
  | inr h =>
    have hnone : opcodeOf ((nopMachine.skip 2).get 2) = none := by with_unfolding_all decide
    rw [h]
    unfold instructionSize
    rw [hnone]
    intro i hi
    match i, hi with
    | 0, _ => decide
    | 1, _ => decide

theorem quietEnv_ignoresTraps (traps : List Word) : IgnoresTraps quietEnv traps where
  loadfunc _ _ := rfl
  libfunc _ _ _ _ := rfl
  indirect_call_proc _ _ _ _ := rfl
  stale _ := rfl
  libfunc_res _ _ _ _ := (by decide : ExecResult.CI_ER_CONTINUE ≠ .CI_ER_TRAP)
  indirect_call_res _ _ _ _ := (by decide : ExecResult.CI_ER_INDIRECT_CALL_FAILED ≠ .CI_ER_TRAP)

theorem firstBreakpoint_isLoaded :
    ∀ bp ∈ [firstBreakpoint], isEnabled quietXc bp = true → IsLoaded quietXc nopMachine.toImage bp := by
  intro bp hbp _
  rw [List.mem_singleton.mp hbp]
  exact ⟨0#64, 0#64, by decide, rfl⟩

theorem a_breakpoint_at_the_first_instruction :
    ∃ ma bps', installAllBreakpoints quietXc nopMachine [firstBreakpoint] = some (ma, bps') ∧
      (Transparent quietXc (trapsOf quietXc nopMachine.toImage [firstBreakpoint])
          (.start ma bps') (.start nopMachine []) ↔
        MeetsNoTrap quietXc nopMachine
          (trapsOf quietXc nopMachine.toImage [firstBreakpoint])) :=
  breakpoints_are_transparent_when_none_is_reached quietXc nopMachine [firstBreakpoint]
    firstBreakpoint_isLoaded (trapsOf_first ▸ nopMachine_atInstructions)
    (quietEnv_ignoresTraps _)

/-- A stop at a no-operation is reported at the second byte of it. -/
theorem a_stop_is_behind_the_breakpoint :
    ¬ ∀ x m bps, (∀ bp ∈ bps, isEnabled x bp = true → IsLoaded x m.toImage bp) →
      AtInstructions x.env m (trapsOf x m.toImage bps) →
      IgnoresTraps x.env (trapsOf x m.toImage bps) →
      ∃ ma bps', installAllBreakpoints x m bps = some (ma, bps') ∧
        Transparent x (trapsOf x m.toImage bps) (.start ma bps') (.start m []) := by
  intro h
  have hat : AtInstructions quietXc.env nopMachine
      (trapsOf quietXc nopMachine.toImage [firstBreakpoint]) :=
    trapsOf_first ▸ nopMachine_atInstructions
  obtain ⟨ma, bps', hinst, htransparent⟩ := h quietXc nopMachine [firstBreakpoint]
    firstBreakpoint_isLoaded hat (quietEnv_ignoresTraps _)
  obtain ⟨bps'', hspec⟩ := installAllBreakpoints_spec firstBreakpoint_isLoaded
  obtain ⟨rfl, rfl⟩ := Prod.mk.inj (Option.some.inj (hinst.symm.trans hspec))
  have hpack : packTextloc quietXc nopMachine.toImage nopMachine.cf nopMachine.pc = some 0#64 := by
    decide
  have hfine := fine_of_sound (quietEnv_ignoresTraps _) (hat _ .refl)
    (sound_of_start hpack htransparent 1)
  rw [trapsOf_first] at hfine
  exact hfine.1 List.mem_cons_self

end ups_rules.restarts
