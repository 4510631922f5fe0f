-- The breakpoints (bp.c) of a target whose text cannot always be written: what the flags say of
-- the text behind an xp_tswap that failed.
import Ups.Breakpoints

open ups_rules.machine
open ups_rules.breakpoints

namespace ups_rules.tswap_failures

/-! ## The pure model -/

/-- Where `xp_tswap` is called. The last two are the calls of `can_install_all_breakpoints`. -/
inductive Site where
  | install
  | uninstall
  | trial
  | untrial
deriving DecidableEq

/-- A call of `xp_tswap`, and whether it succeeded. -/
structure Tswap where
  site : Site
  addr : Word
  opcode : XpOpcode
  ok : Bool
deriving DecidableEq

/-- The trap, `breakpoint_is_disabled`, and whether a call of `xp_tswap` succeeds that comes behind
so many others. -/
structure Env where
  trap : XpOpcode
  breakpointIsDisabled : Word → Bool
  ok : Nat → Bool

/-- The breakpoints and the text, `bp_solib_event` of each breakpoint, and the calls of `xp_tswap`
so far, the last one first. -/
structure World where
  state : State
  solib : Nat → Bool
  log : List Tswap

def World.modify (w : World) (id : Nat) (f : Breakpoint → Breakpoint) : World :=
  { w with state := w.state.modify id f }

def xpTswap (e : Env) (w : World) (site : Site) (addr : Word) (opcode : XpOpcode) : Bool × World :=
  let ok := e.ok w.log.length
  (ok, { w with
    state := if ok then w.state.setText addr opcode else w.state
    log := ⟨site, addr, opcode, ok⟩ :: w.log })

/-- The error is reported and no more: `bp_xp` is set all the same. -/
def installBreakpoint (e : Env) (w : World) (bp : Breakpoint) (force : Bool) : World :=
  if !force && bp.bp_user_data != 0 && e.breakpointIsDisabled bp.bp_user_data then w
  else
    let w := if bp.bp_enabled then
        let old_opcode := w.state.text bp.bp_addr
        let r := xpTswap e w .install bp.bp_addr e.trap
        let w := if r.1 then r.2.modify bp.id fun b => { b with bp_code := old_opcode } else r.2
        w.modify bp.id fun b => { b with bp_xp := true }
      else w
    w.modify bp.id fun b => { b with bp_installed := true }

def uninstallBreakpoint (e : Env) (w : World) (bp : Breakpoint) : World :=
  let w := if bp.bp_enabled && bp.bp_xp then
      let r := xpTswap e w .uninstall bp.bp_addr bp.bp_code
      r.2.modify bp.id fun b => { b with bp_xp := false }
    else w
  w.modify bp.id fun b => { b with bp_installed := false }

def dxRemoveBreakpoint (e : Env) (w : World) (bp : Breakpoint) : World :=
  let w := if bp.bp_xp then uninstallBreakpoint e w bp else w
  { w with state.bps := w.state.bps.filter (·.id != bp.id) }

/-- It panics for a breakpoint that is installed. -/
def changeBreakpointAddress (w : World) (bp : Breakpoint) (addr : Word) : World :=
  w.modify bp.id fun b => { b with bp_addr := addr }

/-- `set_enabled` for a breakpoint. -/
def setEnabled (e : Env) (w : World) (bp : Breakpoint) (enabled : Bool) : World :=
  if enabled then
    let w := w.modify bp.id fun b => { b with bp_enabled := true }
    if !bp.bp_xp && bp.bp_installed then
      installBreakpoint e w { bp with bp_enabled := true } false
    else w
  else
    let w := if bp.bp_xp then uninstallBreakpoint e w bp else w
    w.modify bp.id fun b => { b with bp_enabled := false }

/-- The body of the loop of `can_install_all_breakpoints`; `false` ends the loop. -/
def testInstall (e : Env) (w : World) (bp : Breakpoint) : Bool × World :=
  if bp.bp_xp then (true, w)
  else
    let old_opcode := w.state.text bp.bp_addr
    let r := xpTswap e w .trial bp.bp_addr e.trap
    if r.1 then
      let w := r.2.modify bp.id fun b => { b with bp_code := old_opcode }
      (true, (xpTswap e w .untrial bp.bp_addr old_opcode).2)
    else (false, r.2)

def canInstallAll (e : Env) : List Nat → World → Bool × World
  | [], w => (true, w)
  | id :: ids, w =>
    match w.state.find id with
    | none => canInstallAll e ids w
    | some bp =>
      let r := testInstall e w bp
      if r.1 then canInstallAll e ids r.2 else r

/-- What is done to one breakpoint, by a call or by one turn of a loop. -/
inductive Act where
  | setData (data : Word)
  | setSolibEvent
  | changeAddress (addr : Word)
  | install (force : Bool)
  | uninstall
  | setEnabled (enabled : Bool)
  | remove
  /-- `if (bp->bp_xp == xp) uninstall_breakpoint(bp)` -/
  | uninstallInstalled
  /-- `if (bp->bp_xp == 0) install_breakpoint(bp, xp, FALSE)` -/
  | installUninstalled

def Act.apply (e : Env) (w : World) (bp : Breakpoint) : Act → World
  | .setData data => w.modify bp.id fun b => { b with bp_user_data := data }
  | .setSolibEvent => { w with solib := Function.update w.solib bp.id true }
  | .changeAddress addr => changeBreakpointAddress w bp addr
  | .install force => installBreakpoint e w bp force
  | .uninstall => uninstallBreakpoint e w bp
  | .setEnabled enabled => ups_rules.tswap_failures.setEnabled e w bp enabled
  | .remove => dxRemoveBreakpoint e w bp
  | .uninstallInstalled => if bp.bp_xp then uninstallBreakpoint e w bp else w
  | .installUninstalled => if bp.bp_xp then w else installBreakpoint e w bp false

def Act.exec (e : Env) (a : Act) (w : World) (id : Nat) : World :=
  match w.state.find id with
  | none => w
  | some bp => a.apply e w bp

inductive Call where
  | add (id : Nat) (addr : Word) (bp_code : XpOpcode)
  | one (id : Nat) (a : Act)
  /-- A loop over the list. -/
  | all (a : Act)
  | canInstallAll
  | installSolibEvent

def World.ids (w : World) : List Nat := w.state.bps.map (·.id)

def Call.exec (e : Env) (w : World) : Call → World
  | .add id addr bp_code =>
    { w with
      state := dxAddBreakpoint w.state id addr bp_code
      solib := Function.update w.solib id false }
  | .one id a => a.exec e w id
  | .all a => w.ids.foldl (a.exec e) w
  | .canInstallAll => (ups_rules.tswap_failures.canInstallAll e w.ids w).2
  | .installSolibEvent =>
    match w.state.bps.find? fun bp => w.solib bp.id && !bp.bp_installed with
    | none => w
    | some bp => installBreakpoint e w bp false

def run (e : Env) (w : World) (calls : List Call) : World := calls.foldl (Call.exec e) w

def start (program : Word → XpOpcode) : World := ⟨⟨[], program⟩, fun _ => false, []⟩

/-- The loops are those of `set_enabled`, `uninstall_all_breakpoints` and
`install_all_breakpoints`. -/
def Act.Loops : Act → Prop
  | .setEnabled _ | .uninstallInstalled | .installUninstalled => True
  | _ => False

/-- A new breakpoint is at a new place, the others are listed, and no two are at one address. -/
def Call.Legal (w : World) : Call → Prop
  | .add id addr _ => w.state.find id = none ∧ ∀ b ∈ w.state.bps, b.bp_addr ≠ addr
  | .one id (.changeAddress addr) =>
    ∃ bp, w.state.find id = some bp ∧ bp.bp_xp = false ∧
      ∀ b ∈ w.state.bps, b.id ≠ id → b.bp_addr ≠ addr
  | .one id _ => ∃ bp, w.state.find id = some bp
  | .all a => a.Loops
  | .canInstallAll | .installSolibEvent => True

def LegalRun (e : Env) : World → List Call → Prop
  | _, [] => True
  | w, c :: calls => c.Legal w ∧ LegalRun e (c.exec e w) calls

/-! ## What the bookkeeping has to be -/

/-- The target, as far as the text that is wanted depends on it. -/
def Env.target (e : Env) : Target := ⟨e.trap, id, e.breakpointIsDisabled⟩

/-- The traps in the text are those of the breakpoints that are recorded as installed, and no
`xp_tswap` was asked for anything but the trap or the opcode of the program. -/
structure Truthful (e : Env) (program : Word → XpOpcode) (w : World) : Prop where
  planted : Planted e.target program w.state
  writes : ∀ t ∈ w.log, t.opcode = e.trap ∨ t.opcode = program t.addr

/-- Only the trial of `can_install_all_breakpoints` has failed. -/
def Clean (w : World) : Prop := ∀ t ∈ w.log, t.ok = false → t.site = .trial

/-- `install_breakpoint` is not called for a breakpoint that is recorded as installed. -/
def Call.Once (w : World) : Call → Prop
  | .one id (.install _) => ∀ bp ∈ w.state.find id, bp.bp_xp = false
  | _ => True

def OnceRun (e : Env) : World → List Call → Prop
  | _, [] => True
  | w, c :: calls => c.Once w ∧ OnceRun e (c.exec e w) calls

/-! ## The invariant -/

/-- A breakpoint that is recorded as installed has saved the opcode of the program. -/
def Sane (program : Word → XpOpcode) (bp : Breakpoint) : Prop :=
  bp.bp_xp = true →
    bp.bp_enabled = true ∧ bp.bp_installed = true ∧ bp.bp_code = program bp.bp_addr

structure Kept (e : Env) (program : Word → XpOpcode) (s : State) : Prop where
  ids : (s.bps.map (·.id)).Nodup
  addrs : (s.bps.map (·.bp_addr)).Nodup
  sane : ∀ bp ∈ s.bps, Sane program bp
  planted : Planted e.target program s

structure Inv (e : Env) (program : Word → XpOpcode) (w : World) : Prop where
  kept : Kept e program w.state
  writes : ∀ t ∈ w.log, t.opcode = e.trap ∨ t.opcode = program t.addr

section
variable {e : Env} {program : Word → XpOpcode} {s s' : State} {bp bp' : Breakpoint}
  {l1 l2 : List Breakpoint}

theorem Kept.listed (h : Kept e program s) (hmem : bp ∈ s.bps) :
    ∃ l1 l2, Listed s l1 bp l2 := by
  have hgood : Good s := ⟨h.ids, fun b hb hxp => (h.sane b hb hxp).1⟩
  cases hfind : s.find bp.id with
  | none =>
    unfold State.find at hfind
    rw [List.find?_eq_none] at hfind
    exact absurd (hfind bp hmem) (by simp)
  | some b =>
    obtain ⟨hid, l1, l2, hl⟩ := find_spec hgood hfind
    have hb : b ∈ s.bps := List.mem_of_find?_eq_some hfind
    rw [← List.inj_on_of_nodup_map h.ids hb hmem hid]
    exact ⟨l1, l2, hl⟩

theorem wanted_none {l : List Breakpoint} {a : Word} (h : ∀ b ∈ l, b.bp_addr ≠ a) :
    wanted e.target program l a = program a := by
  unfold wanted
  rw [if_neg]
  simp only [List.any_eq_true, not_exists, not_and, Bool.and_eq_true, beq_iff_eq]
  exact fun b hb _ => h b hb

theorem Kept.other (h : Kept e program s) (hl : Listed s l1 bp l2) :
    ∀ b ∈ l1 ++ l2, b.bp_addr ≠ bp.bp_addr := by
  have hnodup := h.addrs
  rw [hl.eq, List.map_append, List.map_cons] at hnodup
  have hnot := (List.nodup_cons.mp (List.nodup_middle.mp hnodup)).1
  intro b hb hc
  rw [← List.map_append] at hnot
  exact hnot (List.mem_map.mpr ⟨b, hb, hc⟩)

/-- The text at the address of a breakpoint. -/
theorem Kept.text (h : Kept e program s) (hl : Listed s l1 bp l2) :
    s.text bp.bp_addr = if bp.bp_xp then e.trap else program bp.bp_addr := by
  rw [h.planted, hl.eq, wanted_append, wanted_none (h.other hl)]
  cases bp.bp_xp <;> simp [Env.target]

/-- A breakpoint changes in its place, and the text at its address with it. -/
theorem Kept.replace (h : Kept e program s) (hl : Listed s l1 bp l2)
    (hbps : s'.bps = l1 ++ bp' :: l2) (hid : bp'.id = bp.id) (haddr : bp'.bp_addr = bp.bp_addr)
    (hsane : Sane program bp')
    (htext : ∀ a, s'.text a = if a = bp.bp_addr then
      (if bp'.bp_xp then e.trap else program a) else s.text a) :
    Kept e program s' := by
  have hids := h.ids
  have haddrs := h.addrs
  have hall := h.sane
  rw [hl.eq] at hids haddrs hall
  refine ⟨?_, ?_, ?_, ?_⟩
  · rw [hbps]
    simpa [hid] using hids
  · rw [hbps]
    simpa [haddr] using haddrs
  · rw [hbps]
    intro b hb
    rcases List.mem_append.mp hb with hb | hb
    · exact hall b (by simp [hb])
    · rcases List.mem_cons.mp hb with rfl | hb
      · exact hsane
      · exact hall b (by simp [hb])
  · intro a
    rw [htext a, hbps, wanted_append, haddr]
    by_cases ha : a = bp.bp_addr
    · rw [if_pos ha, ha, wanted_none (h.other hl)]
      cases bp'.bp_xp <;> simp [Env.target]
    · rw [if_neg ha, if_neg fun hc => ha hc.2.symm, h.planted, hl.eq, wanted_append,
        if_neg fun hc => ha hc.2.symm]

/-- A breakpoint changes and its trap stays or stays away. -/
theorem Kept.keep (h : Kept e program s) (hl : Listed s l1 bp l2)
    (hbps : s'.bps = l1 ++ bp' :: l2) (hid : bp'.id = bp.id) (haddr : bp'.bp_addr = bp.bp_addr)
    (hsane : Sane program bp') (hxp : bp'.bp_xp = bp.bp_xp) (htext : s'.text = s.text) :
    Kept e program s' := by
  refine h.replace hl hbps hid haddr hsane fun a => ?_
  rw [htext, hxp]
  split
  · rename_i ha
    rw [ha]
    exact h.text hl
  · rfl

theorem Kept.remove (h : Kept e program s) (hl : Listed s l1 bp l2) (hxp : bp.bp_xp = false)
    (hbps : s'.bps = l1 ++ l2) (htext : s'.text = s.text) : Kept e program s' := by
  have hids := h.ids
  have haddrs := h.addrs
  have hall := h.sane
  have hsub : List.Sublist (l1 ++ l2) (l1 ++ bp :: l2) :=
    (List.sublist_cons_self bp l2).append_left l1
  rw [hl.eq] at hids haddrs hall
  refine ⟨?_, ?_, ?_, ?_⟩
  · rw [hbps]
    exact hids.sublist (hsub.map _)
  · rw [hbps]
    exact haddrs.sublist (hsub.map _)
  · rw [hbps]
    exact fun b hb => hall b (hsub.subset hb)
  · intro a
    rw [htext, hbps, h.planted, hl.eq, wanted_append, hxp, if_neg (by simp)]

/-- A breakpoint that is not installed goes to another address. -/
theorem Kept.move (h : Kept e program s) (hl : Listed s l1 bp l2) (hxp : bp.bp_xp = false)
    {addr : Word} (hfree : ∀ b ∈ s.bps, b.id ≠ bp.id → b.bp_addr ≠ addr)
    (hbps : s'.bps = l1 ++ { bp with bp_addr := addr } :: l2) (htext : s'.text = s.text) :
    Kept e program s' := by
  have hids := h.ids
  have haddrs := h.addrs
  have hall := h.sane
  have hmem : ∀ b ∈ l1 ++ l2, b ∈ s.bps := by
    intro b hb
    rw [hl.eq]
    rcases List.mem_append.mp hb with hb | hb
    · simp [hb]
    · simp [hb]
  have hnot : addr ∉ (l1 ++ l2).map (·.bp_addr) := by
    intro hc
    obtain ⟨b, hb, rfl⟩ := List.mem_map.mp hc
    exact hfree b (hmem b hb) (hl.other b hb) rfl
  rw [hl.eq] at hids haddrs
  refine ⟨?_, ?_, ?_, ?_⟩
  · rw [hbps]
    simpa using hids
  · rw [hbps, List.map_append, List.map_cons]
    rw [List.map_append, List.map_cons] at haddrs
    rw [List.map_append] at hnot
    have hrest := (List.nodup_cons.mp (List.nodup_middle.mp haddrs)).2
    exact List.nodup_middle.mpr (List.nodup_cons.mpr ⟨hnot, hrest⟩)
  · rw [hbps]
    intro b hb
    rcases List.mem_append.mp hb with hb | hb
    · exact hall b (hmem b (List.mem_append_left l2 hb))
    · rcases List.mem_cons.mp hb with rfl | hb
      · intro hc
        exact absurd (hxp.symm.trans hc) nofun
      · exact hall b (hmem b (List.mem_append_right l1 hb))
  · intro a
    have hout : ({ bp with bp_addr := addr } : Breakpoint).bp_xp = false := hxp
    rw [htext, hbps, h.planted, hl.eq, wanted_append, wanted_append, hxp, if_neg (by simp),
      if_neg (by simp)]

theorem Kept.add (h : Kept e program s) {id : Nat} {addr : Word} (hid : s.find id = none)
    (haddr : ∀ b ∈ s.bps, b.bp_addr ≠ addr) (bp_code : XpOpcode) :
    Kept e program (dxAddBreakpoint s id addr bp_code) := by
  unfold State.find at hid
  rw [List.find?_eq_none] at hid
  refine ⟨?_, ?_, ?_, ?_⟩
  · refine List.nodup_cons.mpr ⟨?_, h.ids⟩
    intro hmem
    obtain ⟨b, hb, heq⟩ := List.mem_map.mp hmem
    exact hid b hb (by simpa using heq)
  · refine List.nodup_cons.mpr ⟨?_, h.addrs⟩
    intro hmem
    obtain ⟨b, hb, heq⟩ := List.mem_map.mp hmem
    exact haddr b hb heq
  · intro b hb
    rcases List.mem_cons.mp hb with rfl | hb
    · exact nofun
    · exact h.sane b hb
  · intro a
    have hadd := wanted_append (x := e.target) program [] s.bps
      ⟨id, false, false, true, addr, bp_code, 0⟩ a
    rw [if_neg (by simp), List.nil_append, List.nil_append] at hadd
    exact (h.planted a).trans hadd.symm

end

/-! ## The calls of xp_tswap -/

section
variable {e : Env} {program : Word → XpOpcode} {w : World} {bp : Breakpoint}
  {l1 l2 : List Breakpoint}

@[simp] theorem modify_log (w : World) (id : Nat) (f : Breakpoint → Breakpoint) :
    (w.modify id f).log = w.log := rfl

theorem installBreakpoint_log (w : World) (bp : Breakpoint) (force : Bool) :
    w.log <:+ (installBreakpoint e w bp force).log := by
  unfold installBreakpoint
  split
  · exact List.suffix_rfl
  · rw [modify_log]
    split
    · dsimp only
      split
      · exact List.suffix_cons _ _
      · exact List.suffix_cons _ _
    · exact List.suffix_rfl

theorem uninstallBreakpoint_log (w : World) (bp : Breakpoint) :
    w.log <:+ (uninstallBreakpoint e w bp).log := by
  unfold uninstallBreakpoint
  rw [modify_log]
  split
  · exact List.suffix_cons _ _
  · exact List.suffix_rfl

theorem testInstall_log (w : World) (bp : Breakpoint) : w.log <:+ (testInstall e w bp).2.log := by
  unfold testInstall
  split
  · exact List.suffix_rfl
  · dsimp only
    split
    · exact (List.suffix_cons _ _).trans (List.suffix_cons _ _)
    · exact List.suffix_cons _ _

theorem canInstallAll_log (ids : List Nat) (w : World) :
    w.log <:+ (canInstallAll e ids w).2.log := by
  induction ids generalizing w with
  | nil => exact List.suffix_rfl
  | cons id ids ih =>
    rw [canInstallAll]
    split
    · exact ih w
    · dsimp only
      split
      · exact (testInstall_log w _).trans (ih _)
      · exact testInstall_log w _

theorem apply_log (a : Act) (w : World) (bp : Breakpoint) : w.log <:+ (a.apply e w bp).log := by
  cases a with
  | setData data => exact List.suffix_rfl
  | setSolibEvent => exact List.suffix_rfl
  | changeAddress addr => exact List.suffix_rfl
  | install force => exact installBreakpoint_log w bp force
  | uninstall => exact uninstallBreakpoint_log w bp
  | setEnabled enabled =>
    unfold Act.apply setEnabled
    cases enabled with
    | true =>
      dsimp only
      split
      · split
        · exact installBreakpoint_log (w.modify bp.id fun b => { b with bp_enabled := true })
            { bp with bp_enabled := true } false
        · exact List.suffix_rfl
      · contradiction
    | false =>
      dsimp only
      split
      · contradiction
      · rw [modify_log]
        split
        · exact uninstallBreakpoint_log w bp
        · exact List.suffix_rfl
  | remove =>
    unfold Act.apply dxRemoveBreakpoint
    dsimp only
    split
    · exact uninstallBreakpoint_log w bp
    · exact List.suffix_rfl
  | uninstallInstalled =>
    unfold Act.apply
    dsimp only
    split
    · exact uninstallBreakpoint_log w bp
    · exact List.suffix_rfl
  | installUninstalled =>
    unfold Act.apply
    dsimp only
    split
    · exact List.suffix_rfl
    · exact installBreakpoint_log w bp false

theorem act_log (a : Act) (w : World) (id : Nat) : w.log <:+ (a.exec e w id).log := by
  unfold Act.exec
  split
  · exact List.suffix_rfl
  · exact apply_log a w _

theorem loop_log (a : Act) (ids : List Nat) (w : World) :
    w.log <:+ (ids.foldl (a.exec e) w).log := by
  induction ids generalizing w with
  | nil => exact List.suffix_rfl
  | cons id ids ih => exact (act_log a w id).trans (ih _)

theorem call_log (c : Call) (w : World) : w.log <:+ (c.exec e w).log := by
  cases c with
  | add id addr bp_code => exact List.suffix_rfl
  | one id a => exact act_log a w id
  | all a => exact loop_log a w.ids w
  | canInstallAll => exact canInstallAll_log w.ids w
  | installSolibEvent =>
    unfold Call.exec
    dsimp only
    split
    · exact List.suffix_rfl
    · exact installBreakpoint_log w _ false

theorem run_log (calls : List Call) (w : World) : w.log <:+ (run e w calls).log := by
  induction calls generalizing w with
  | nil => exact List.suffix_rfl
  | cons c calls ih => exact (call_log c w).trans (ih _)

theorem Clean.before {w' : World} (h : Clean w') (hlog : w.log <:+ w'.log) : Clean w :=
  fun t ht => h t (hlog.subset ht)

theorem xpTswap_ok (hok : e.ok w.log.length = true) (site : Site) (addr : Word)
    (opcode : XpOpcode) :
    xpTswap e w site addr opcode =
      (true, ⟨w.state.setText addr opcode, w.solib, ⟨site, addr, opcode, true⟩ :: w.log⟩) := by
  unfold xpTswap
  rw [hok]
  rfl

theorem xpTswap_failed (hok : e.ok w.log.length = false) (site : Site) (addr : Word)
    (opcode : XpOpcode) :
    xpTswap e w site addr opcode =
      (false, ⟨w.state, w.solib, ⟨site, addr, opcode, false⟩ :: w.log⟩) := by
  unfold xpTswap
  rw [hok]
  rfl

/-- A call that was not the trial succeeded. -/
theorem ok_of_clean {w' : World} (site : Site) (addr : Word) (opcode : XpOpcode) (h : Clean w')
    (hlog : (xpTswap e w site addr opcode).2.log <:+ w'.log) (hsite : site ≠ .trial) :
    e.ok w.log.length = true := by
  by_contra hfailed
  exact hsite (h _ (hlog.subset List.mem_cons_self) (by simpa using hfailed))

/-! ## What the actions do -/

theorem installBreakpoint_enabled (hl : Listed w.state l1 bp l2) (hen : bp.bp_enabled = true)
    (hok : e.ok w.log.length = true) :
    ((if bp.bp_enabled then
        let old_opcode := w.state.text bp.bp_addr
        let r := xpTswap e w .install bp.bp_addr e.trap
        let w := if r.1 then r.2.modify bp.id fun b => { b with bp_code := old_opcode } else r.2
        w.modify bp.id fun b => { b with bp_xp := true }
      else w).modify bp.id fun b => { b with bp_installed := true }) =
      ⟨⟨l1 ++ { bp with bp_xp := true, bp_installed := true, bp_code := w.state.text bp.bp_addr } :: l2,
        Function.update w.state.text bp.bp_addr e.trap⟩, w.solib,
        ⟨.install, bp.bp_addr, e.trap, true⟩ :: w.log⟩ := by
  have h' := (((hl.setText bp.bp_addr e.trap).modify
    (f := fun b => { b with bp_code := w.state.text bp.bp_addr }) rfl).modify
    (f := fun b => { b with bp_xp := true }) rfl).modify
    (f := fun b => { b with bp_installed := true }) rfl
  rw [if_pos hen, xpTswap_ok hok]
  exact congrArg (fun bps => World.mk ⟨bps, _⟩ _ _) h'.eq

/-- It is not recorded as installed before, and the call of `xp_tswap` succeeds. -/
theorem installBreakpoint_inv (h : Inv e program w) (hl : Listed w.state l1 bp l2)
    (hxp : bp.bp_xp = false) (force : Bool) (hclean : Clean (installBreakpoint e w bp force)) :
    Inv e program (installBreakpoint e w bp force) := by
  by_cases hrefused :
      (!force && bp.bp_user_data != 0 && e.breakpointIsDisabled bp.bp_user_data) = true
  · unfold installBreakpoint
    rwa [if_pos hrefused]
  cases hen : bp.bp_enabled with
  | true =>
    have hok : e.ok w.log.length = true := by
      unfold installBreakpoint at hclean
      rw [if_neg hrefused, if_pos hen] at hclean
      refine ok_of_clean .install bp.bp_addr e.trap hclean ?_ nofun
      rw [modify_log]
      dsimp only
      split
      · exact List.suffix_rfl
      · exact List.suffix_rfl
    unfold installBreakpoint
    rw [if_neg hrefused, installBreakpoint_enabled hl hen hok]
    refine ⟨h.kept.replace hl rfl rfl rfl ?_ fun a => ?_, ?_⟩
    · refine fun _ => ⟨hen, rfl, ?_⟩
      have htext := h.kept.text hl
      rwa [hxp, if_neg (by simp)] at htext
    · exact Function.update_apply _ _ _ _
    · intro t ht
      rcases List.mem_cons.mp ht with rfl | ht
      · exact .inl rfl
      · exact h.writes t ht
  | false =>
    unfold installBreakpoint
    rw [if_neg hrefused, hen]
    have h' := hl.modify (f := fun b => { b with bp_installed := true }) rfl
    refine ⟨h.kept.keep hl h'.eq rfl rfl ?_ rfl rfl, h.writes⟩
    intro hc
    exact absurd (hxp.symm.trans hc) nofun

/-- What uninstalling does if it succeeds. -/
theorem uninstallBreakpoint_inv (h : Inv e program w) (hl : Listed w.state l1 bp l2)
    (hclean : Clean (uninstallBreakpoint e w bp)) :
    Inv e program (uninstallBreakpoint e w bp) ∧
      Listed (uninstallBreakpoint e w bp).state l1 { bp with bp_xp := false, bp_installed := false }
        l2 := by
  have hmem : bp ∈ w.state.bps := by
    rw [hl.eq]
    simp
  have hsane := h.kept.sane bp hmem
  cases hxp : bp.bp_xp with
  | true =>
    obtain ⟨hen, -, hcode⟩ := hsane hxp
    have hmust : (bp.bp_enabled && bp.bp_xp) = true := by rw [hen, hxp]; rfl
    have hok : e.ok w.log.length = true := by
      unfold uninstallBreakpoint at hclean
      rw [if_pos hmust] at hclean
      exact ok_of_clean .uninstall bp.bp_addr bp.bp_code hclean List.suffix_rfl nofun
    have h' := ((hl.setText bp.bp_addr bp.bp_code).modify
      (f := fun b => { b with bp_xp := false }) rfl).modify
      (f := fun b => { b with bp_installed := false }) rfl
    have heq : (uninstallBreakpoint e w bp).state =
        (((w.state.setText bp.bp_addr bp.bp_code).modify bp.id
          fun b => { b with bp_xp := false }).modify bp.id fun b => { b with bp_installed := false }) := by
      unfold uninstallBreakpoint
      rw [if_pos hmust, xpTswap_ok hok]
      rfl
    have hlog : (uninstallBreakpoint e w bp).log =
        ⟨.uninstall, bp.bp_addr, bp.bp_code, true⟩ :: w.log := by
      unfold uninstallBreakpoint
      rw [if_pos hmust, xpTswap_ok hok]
      rfl
    refine ⟨⟨?_, ?_⟩, ?_⟩
    · rw [heq]
      refine h.kept.replace hl h'.eq rfl rfl nofun fun a => ?_
      refine (Function.update_apply _ _ _ _).trans ?_
      split
      · rename_i ha
        rw [ha, hcode]
        rfl
      · rfl
    · rw [hlog]
      intro t ht
      rcases List.mem_cons.mp ht with rfl | ht
      · exact .inr hcode
      · exact h.writes t ht
    · rw [heq]
      exact h'
  | false =>
    have h' := hl.modify (f := fun b => { b with bp_installed := false }) rfl
    have heq : uninstallBreakpoint e w bp =
        w.modify bp.id fun b => { b with bp_installed := false } := by
      unfold uninstallBreakpoint
      rw [if_neg (by simp [hxp])]
    rw [heq]
    refine ⟨⟨h.kept.keep hl h'.eq rfl rfl ?_ rfl rfl, h.writes⟩, ?_⟩
    · intro hc
      exact absurd (hxp.symm.trans hc) nofun
    · have hsame : ({ bp with bp_installed := false } : Breakpoint) =
          { bp with bp_xp := false, bp_installed := false } :=
        congrArg (fun xp => ({ bp with bp_xp := xp, bp_installed := false } : Breakpoint)) hxp
      rw [← hsame]
      exact h'

theorem setEnabled_inv (h : Inv e program w) (hl : Listed w.state l1 bp l2) (enabled : Bool)
    (hclean : Clean (setEnabled e w bp enabled)) : Inv e program (setEnabled e w bp enabled) := by
  have hmem : bp ∈ w.state.bps := by
    rw [hl.eq]
    simp
  have hsane := h.kept.sane bp hmem
  unfold setEnabled at hclean ⊢
  cases enabled with
  | true =>
    have h' := hl.modify (f := fun b => { b with bp_enabled := true }) rfl
    have hon : Inv e program (w.modify bp.id fun b => { b with bp_enabled := true }) :=
      ⟨h.kept.keep hl h'.eq rfl rfl (fun hxp => ⟨rfl, (hsane hxp).2⟩) rfl rfl, h.writes⟩
    rw [if_pos rfl] at hclean ⊢
    by_cases hmust : (!bp.bp_xp && bp.bp_installed) = true
    · rw [if_pos hmust] at hclean ⊢
      have hxp : bp.bp_xp = false := by simpa using (Bool.and_eq_true_iff.1 hmust).1
      exact installBreakpoint_inv hon h' hxp false hclean
    · rwa [if_neg hmust]
  | false =>
    rw [if_neg (by simp)] at hclean ⊢
    by_cases hxp : bp.bp_xp = true
    · rw [if_pos hxp] at hclean ⊢
      obtain ⟨hout, hlisted⟩ := uninstallBreakpoint_inv h hl hclean
      have h' := hlisted.modify (f := fun b => { b with bp_enabled := false }) rfl
      exact ⟨hout.kept.keep hlisted h'.eq rfl rfl nofun rfl rfl, hout.writes⟩
    · rw [if_neg hxp]
      have h' := hl.modify (f := fun b => { b with bp_enabled := false }) rfl
      exact ⟨h.kept.keep hl h'.eq rfl rfl (fun hc => absurd hc hxp) rfl rfl, h.writes⟩

theorem dxRemoveBreakpoint_inv (h : Inv e program w) (hl : Listed w.state l1 bp l2)
    (hclean : Clean (dxRemoveBreakpoint e w bp)) : Inv e program (dxRemoveBreakpoint e w bp) := by
  unfold dxRemoveBreakpoint at hclean ⊢
  by_cases hxp : bp.bp_xp = true
  · rw [if_pos hxp] at hclean ⊢
    obtain ⟨hout, hlisted⟩ := uninstallBreakpoint_inv h hl hclean
    exact ⟨hout.kept.remove hlisted rfl hlisted.filter rfl, hout.writes⟩
  · rw [if_neg hxp]
    exact ⟨h.kept.remove hl (by simpa using hxp) hl.filter rfl, h.writes⟩

/-- The trap goes in and what it replaced comes back, or the text is as it was. -/
theorem testInstall_inv (h : Inv e program w) (hl : Listed w.state l1 bp l2)
    (hclean : Clean (testInstall e w bp).2) : Inv e program (testInstall e w bp).2 := by
  by_cases hxp : bp.bp_xp = true
  · unfold testInstall
    rwa [if_pos hxp]
  have hout : bp.bp_xp = false := by simpa using hxp
  have htext := h.kept.text hl
  rw [hout, if_neg (by simp)] at htext
  cases hok : e.ok w.log.length with
  | true =>
    have h' := ((hl.setText bp.bp_addr e.trap).modify
      (f := fun b => { b with bp_code := w.state.text bp.bp_addr }) rfl).setText bp.bp_addr
        (w.state.text bp.bp_addr)
    have heq : (testInstall e w bp).2 =
        (xpTswap e (World.modify ⟨w.state.setText bp.bp_addr e.trap, w.solib,
          ⟨.trial, bp.bp_addr, e.trap, true⟩ :: w.log⟩ bp.id
            fun b => { b with bp_code := w.state.text bp.bp_addr }) .untrial bp.bp_addr
              (w.state.text bp.bp_addr)).2 := by
      unfold testInstall
      rw [if_neg hxp, xpTswap_ok hok]
      rfl
    have hback : e.ok (w.log.length + 1) = true := by
      rw [heq] at hclean
      exact ok_of_clean .untrial bp.bp_addr (w.state.text bp.bp_addr) hclean List.suffix_rfl nofun
    rw [heq, xpTswap_ok hback]
    refine ⟨h.kept.keep hl h'.eq rfl rfl (fun hc => absurd hc hxp) rfl ?_, ?_⟩
    · funext a
      by_cases ha : a = bp.bp_addr
      · rw [ha]
        exact Function.update_self _ _ _
      · exact (Function.update_of_ne ha _ _).trans (Function.update_of_ne ha _ _)
    · intro t ht
      rcases List.mem_cons.mp ht with rfl | ht
      · exact .inr htext
      · rcases List.mem_cons.mp ht with rfl | ht
        · exact .inl rfl
        · exact h.writes t ht
  | false =>
    have heq : (testInstall e w bp).2 =
        ⟨w.state, w.solib, ⟨.trial, bp.bp_addr, e.trap, false⟩ :: w.log⟩ := by
      unfold testInstall
      rw [if_neg hxp, xpTswap_failed hok]
      rfl
    rw [heq]
    refine ⟨h.kept, ?_⟩
    intro t ht
    rcases List.mem_cons.mp ht with rfl | ht
    · exact .inl rfl
    · exact h.writes t ht

end

/-! ## The loops -/

section
variable {e : Env} {program : Word → XpOpcode} {w : World}

theorem find_listed (h : Kept e program s) {id : Nat} (hfind : s.find id = some bp) :
    bp.id = id ∧ bp ∈ s.bps ∧ ∃ l1 l2, Listed s l1 bp l2 := by
  have hmem : bp ∈ s.bps := List.mem_of_find?_eq_some hfind
  have hid : bp.id = id := by simpa using List.find?_some hfind
  exact ⟨hid, hmem, h.listed hmem⟩

theorem canInstallAll_inv (ids : List Nat) (h : Inv e program w)
    (hclean : Clean (canInstallAll e ids w).2) : Inv e program (canInstallAll e ids w).2 := by
  induction ids generalizing w with
  | nil => exact h
  | cons id ids ih =>
    rw [canInstallAll] at hclean ⊢
    cases hfind : w.state.find id with
    | none =>
      rw [hfind] at hclean
      exact ih h hclean
    | some bp =>
      obtain ⟨-, -, l1, l2, hl⟩ := find_listed h.kept hfind
      rw [hfind] at hclean
      dsimp only at hclean ⊢
      cases hgoes : (testInstall e w bp).1 with
      | true =>
        rw [hgoes, if_pos rfl] at hclean
        rw [if_pos rfl]
        have hturn := testInstall_inv h hl (hclean.before (canInstallAll_log ids _))
        exact ih hturn hclean
      | false =>
        rw [hgoes, if_neg (by simp)] at hclean
        rw [if_neg (by simp)]
        exact testInstall_inv h hl hclean

/-- An action is for a listed breakpoint; it is installed only if it is not, and moved only to a
free address. -/
theorem act_inv (a : Act) (id : Nat) (h : Inv e program w)
    (hinstall : ∀ force, a = .install force → ∀ bp ∈ w.state.find id, bp.bp_xp = false)
    (hmove : ∀ addr, a = .changeAddress addr → ∀ bp ∈ w.state.find id, bp.bp_xp = false ∧
      ∀ b ∈ w.state.bps, b.id ≠ id → b.bp_addr ≠ addr)
    (hclean : Clean (a.exec e w id)) : Inv e program (a.exec e w id) := by
  unfold Act.exec at hclean ⊢
  cases hfind : w.state.find id with
  | none => exact h
  | some bp =>
    obtain ⟨rfl, hmem, l1, l2, hl⟩ := find_listed h.kept hfind
    have hsane := h.kept.sane bp hmem
    rw [hfind] at hclean
    cases a with
    | setData data =>
      have h' := hl.modify (f := fun b => { b with bp_user_data := data }) rfl
      exact ⟨h.kept.keep hl h'.eq rfl rfl hsane rfl rfl, h.writes⟩
    | setSolibEvent => exact ⟨h.kept, h.writes⟩
    | changeAddress addr =>
      obtain ⟨hxp, hfree⟩ := hmove addr rfl bp hfind
      have h' := hl.modify (f := fun b => { b with bp_addr := addr }) rfl
      exact ⟨h.kept.move hl hxp hfree h'.eq rfl, h.writes⟩
    | install force =>
      exact installBreakpoint_inv h hl (hinstall force rfl bp hfind) force hclean
    | uninstall => exact (uninstallBreakpoint_inv h hl hclean).1
    | setEnabled enabled => exact setEnabled_inv h hl enabled hclean
    | remove => exact dxRemoveBreakpoint_inv h hl hclean
    | uninstallInstalled =>
      unfold Act.apply at hclean ⊢
      dsimp only at hclean ⊢
      split at hclean
      · rename_i hxp
        rw [if_pos hxp]
        exact (uninstallBreakpoint_inv h hl hclean).1
      · rename_i hxp
        rwa [if_neg hxp]
    | installUninstalled =>
      unfold Act.apply at hclean ⊢
      dsimp only at hclean ⊢
      split at hclean
      · rename_i hxp
        rwa [if_pos hxp]
      · rename_i hxp
        rw [if_neg hxp]
        exact installBreakpoint_inv h hl (by simpa using hxp) false hclean

theorem loop_inv (a : Act) (hloops : a.Loops) (ids : List Nat) (h : Inv e program w)
    (hclean : Clean (ids.foldl (a.exec e) w)) : Inv e program (ids.foldl (a.exec e) w) := by
  induction ids generalizing w with
  | nil => exact h
  | cons id ids ih =>
    have hturn : Inv e program (a.exec e w id) := by
      refine act_inv a id h ?_ ?_ (hclean.before (loop_log a ids _))
      · rintro force rfl
        exact absurd hloops nofun
      · rintro addr rfl
        exact absurd hloops nofun
    exact ih hturn hclean

theorem call_inv (c : Call) (h : Inv e program w) (hlegal : c.Legal w) (honce : c.Once w)
    (hclean : Clean (c.exec e w)) : Inv e program (c.exec e w) := by
  cases c with
  | add id addr bp_code => exact ⟨h.kept.add hlegal.1 hlegal.2 bp_code, h.writes⟩
  | one id a =>
    refine act_inv a id h ?_ ?_ hclean
    · rintro force rfl
      exact honce
    · rintro addr rfl bp hbp
      obtain ⟨bp', hfind, hxp, hfree⟩ := hlegal
      cases hfind.symm.trans hbp
      exact ⟨hxp, hfree⟩
  | all a => exact loop_inv a hlegal w.ids h hclean
  | canInstallAll => exact canInstallAll_inv w.ids h hclean
  | installSolibEvent =>
    unfold Call.exec at hclean ⊢
    dsimp only at hclean ⊢
    cases hfind : w.state.bps.find? fun bp => w.solib bp.id && !bp.bp_installed with
    | none => exact h
    | some bp =>
      rw [hfind] at hclean
      have hmem : bp ∈ w.state.bps := List.mem_of_find?_eq_some hfind
      have hnot : (w.solib bp.id && !bp.bp_installed) = true :=
        List.find?_some (p := fun bp : Breakpoint => w.solib bp.id && !bp.bp_installed) hfind
      have hxp : bp.bp_xp = false := by
        by_contra hxp
        have hinst := (h.kept.sane bp hmem (by simpa using hxp)).2.1
        rw [hinst, Bool.not_true, Bool.and_false] at hnot
        cases hnot
      obtain ⟨l1, l2, hl⟩ := h.kept.listed hmem
      exact installBreakpoint_inv h hl hxp false hclean

theorem run_inv (calls : List Call) (h : Inv e program w) (hlegal : LegalRun e w calls)
    (honce : OnceRun e w calls) (hclean : Clean (run e w calls)) :
    ∀ before, before <+: calls → Inv e program (run e w before) := by
  induction calls generalizing w with
  | nil =>
    intro before hbefore
    rw [List.prefix_nil.mp hbefore]
    exact h
  | cons c calls ih =>
    have hcall := call_inv c h hlegal.1 honce.1 (hclean.before (run_log calls _))
    rintro (_ | ⟨c', before⟩) hbefore
    · exact h
    · obtain ⟨rfl, hrest⟩ := List.cons_prefix_cons.mp hbefore
      exact ih hcall hlegal.2 honce.2 hclean before hrest

end

/-! ## A target that can always be written -/

section
variable {e : Env} {w : World} {bp : Breakpoint}

theorem modify_modify (s : State) (id : Nat) (f g : Breakpoint → Breakpoint)
    (hf : ∀ b, (f b).id = b.id) : (s.modify id f).modify id g = s.modify id fun b => g (f b) := by
  unfold State.modify
  rw [List.map_map]
  refine congrArg (State.mk · s.text) (List.map_congr_left fun b _ => ?_)
  by_cases hid : b.id = id
  · simp [hid, hf]
  · simp [hid]

theorem installBreakpoint_state (hok : ∀ n, e.ok n = true) (w : World) (bp : Breakpoint)
    (force : Bool) :
    (installBreakpoint e w bp force).state =
      breakpoints.installBreakpoint e.target w.state bp force := by
  unfold installBreakpoint breakpoints.installBreakpoint
  split
  · exact (if_pos ‹_›).symm
  · refine Eq.trans ?_ (if_neg ‹_›).symm
    cases bp.bp_enabled with
    | true =>
      rw [if_pos rfl, if_pos rfl, xpTswap_ok (hok _)]
      have hmodify := modify_modify (w.state.setText bp.bp_addr e.trap) bp.id
        (fun b => { b with bp_code := w.state.text bp.bp_addr }) (fun b => { b with bp_xp := true })
        fun _ => rfl
      exact congrArg (fun s => s.modify bp.id fun b => { b with bp_installed := true }) hmodify
    | false => rfl

theorem uninstallBreakpoint_state (hok : ∀ n, e.ok n = true) (w : World) (bp : Breakpoint) :
    (uninstallBreakpoint e w bp).state = breakpoints.uninstallBreakpoint e.target w.state bp := by
  unfold uninstallBreakpoint breakpoints.uninstallBreakpoint
  cases bp.bp_enabled && bp.bp_xp with
  | true =>
    rw [if_pos rfl, if_pos rfl, xpTswap_ok (hok _)]
    rfl
  | false => rfl

/-- The action of a target whose text can always be written. -/
def Act.action : Act → Option Action
  | .setData data => some (.setData data)
  | .install force => some (.install force)
  | .uninstall => some .uninstall
  | .setEnabled enabled => some (.setEnabled enabled)
  | .remove => some .remove
  | .uninstallInstalled => some .uninstallInstalled
  | .installUninstalled => some .installUninstalled
  | .setSolibEvent | .changeAddress _ => none

/-- If every `xp_tswap` succeeds the breakpoints and the text are as they are without failures. -/
theorem apply_state (hok : ∀ n, e.ok n = true) (w : World) (bp : Breakpoint) (a : Act) (b : Action)
    (hb : a.action = some b) : (a.apply e w bp).state = b.apply e.target w.state bp := by
  cases a <;> cases hb
  case setData => rfl
  case install force => exact installBreakpoint_state hok w bp force
  case uninstall => exact uninstallBreakpoint_state hok w bp
  case setEnabled enabled =>
    cases enabled with
    | true =>
      unfold Act.apply setEnabled Action.apply breakpoints.setEnabled
      dsimp only
      split
      · split
        · exact installBreakpoint_state hok
            (w.modify bp.id fun b => { b with bp_enabled := true }) { bp with bp_enabled := true } false
        · rfl
      · contradiction
    | false =>
      unfold Act.apply setEnabled Action.apply breakpoints.setEnabled
      cases hxp : bp.bp_xp with
      | true =>
        have hout := uninstallBreakpoint_state hok w bp
        exact congrArg (fun s => s.modify bp.id fun b => { b with bp_enabled := false }) hout
      | false => rfl
  case remove =>
    unfold Act.apply dxRemoveBreakpoint Action.apply breakpoints.dxRemoveBreakpoint
    cases bp.bp_xp with
    | true =>
      have hout := uninstallBreakpoint_state hok w bp
      exact congrArg (fun s => { s with bps := s.bps.filter (·.id != bp.id) }) hout
    | false => rfl
  case uninstallInstalled =>
    unfold Act.apply Action.apply
    cases bp.bp_xp with
    | true => exact uninstallBreakpoint_state hok w bp
    | false => rfl
  case installUninstalled =>
    unfold Act.apply Action.apply
    cases bp.bp_xp with
    | true => rfl
    | false => exact installBreakpoint_state hok w bp false

end

/-! ## The law -/

/-- The flags tell the truth about the text, and nothing else than the trap or an opcode of the
program is written, as long as only the trial of `can_install_all_breakpoints` fails and no
breakpoint is installed twice. -/
theorem bookkeeping_is_truthful_when_only_trials_fail (e : Env) (program : Word → XpOpcode)
    (calls : List Call) (hlegal : LegalRun e (start program) calls)
    (honce : OnceRun e (start program) calls) (hclean : Clean (run e (start program) calls)) :
    ∀ before, before <+: calls → Truthful e program (run e (start program) before) := by
  have hstart : Inv e program (start program) :=
    ⟨⟨List.nodup_nil, List.nodup_nil, nofun, fun _ => rfl⟩, nofun⟩
  intro before hbefore
  have h := run_inv calls hstart hlegal honce hclean before hbefore
  exact ⟨h.kept.planted, h.writes⟩

/-- The call of this number fails. -/
def failing (n : Nat) : Env := ⟨204, fun _ => false, fun i => i != n⟩

/-- The trial for the second breakpoint fails, and the first one is installed behind it. -/
theorem a_failing_trial_does_no_harm :
    Truthful (failing 2) (fun _ => 144) (run (failing 2) (start fun _ => 144)
      [.add 1 4096 77, .add 2 8192 77, .canInstallAll, .one 1 (.install false)]) :=
  bookkeeping_is_truthful_when_only_trials_fail (failing 2) (fun _ => 144)
    [.add 1 4096 77, .add 2 8192 77, .canInstallAll, .one 1 (.install false)]
    ⟨⟨rfl, nofun⟩, ⟨rfl, by decide⟩, trivial, ⟨_, rfl⟩, trivial⟩
    ⟨trivial, trivial, trivial, fun bp hbp => by cases hbp; rfl, trivial⟩ (by unfold Clean; decide)
    _ (List.prefix_refl _)

/-- The breakpoint is recorded as installed when its trap could not be written. Once it is
uninstalled the opcode is in the text that the allocator left in `bp_code`. -/
theorem a_failed_install_is_recorded :
    ¬ ∀ (e : Env) (program : Word → XpOpcode) (calls : List Call),
      LegalRun e (start program) calls → OnceRun e (start program) calls →
        Truthful e program (run e (start program) calls) := by
  intro hall
  have h := hall (failing 0) (fun _ => 144) [.add 1 4096 77, .one 1 (.install false),
    .one 1 .uninstall] ⟨⟨rfl, nofun⟩, ⟨_, rfl⟩, ⟨_, rfl⟩, trivial⟩
    ⟨trivial, fun bp hbp => by cases hbp; rfl, trivial, trivial⟩
  have hwrites := h.writes
  revert hwrites
  decide

end ups_rules.tswap_failures
