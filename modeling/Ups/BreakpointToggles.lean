-- Breakpoints that are disabled and enabled again (set_enabled in bp.c): what is left of those
-- that were in the text.
import Ups.Breakpoints

open ups_rules.machine
open ups_rules.breakpoints

namespace ups_rules.breakpoint_toggles

/-! ## The pure model -/

/-- `none` stands for all breakpoints. -/
def dxDisableBreakpoint (x : Target) (s : State) (who : Option Nat) : State :=
  Call.exec x s (.setEnabled who false)

def dxEnableBreakpoint (x : Target) (s : State) (who : Option Nat) : State :=
  Call.exec x s (.setEnabled who true)

def Concerns (who : Option Nat) (id : Nat) : Prop := ∀ i ∈ who, i = id

instance (who : Option Nat) (id : Nat) : Decidable (Concerns who id) := by
  unfold Concerns
  infer_instance

/-- What `breakpoint_is_installed` says of each breakpoint. -/
def statuses (s : State) : List (Nat × Bool) := s.bps.map fun bp => (bp.id, bp.bp_xp)

/-- Disabling and enabling again leaves every breakpoint installed or not, and the text as it is. -/
def Neutral (x : Target) (s : State) (who : Option Nat) : Prop :=
  statuses (dxEnableBreakpoint x (dxDisableBreakpoint x s who) who) = statuses s ∧
    (dxEnableBreakpoint x (dxDisableBreakpoint x s who) who).text = s.text

/-- Calls for breakpoints that are not concerned. -/
def OfOthers (who : Option Nat) (calls : List Call) : Prop :=
  ∀ c ∈ calls, ∃ id, ¬ Concerns who id ∧ ((∃ force, c = .install id force) ∨ c = .uninstall id)

/-- While they are disabled the breakpoints are not installed, and what each replaced is back. -/
def StaysOut (x : Target) (s : State) (who : Option Nat) : Prop :=
  ∀ calls, OfOthers who calls → ∀ bp ∈ s.bps, Concerns who bp.id →
    (∀ b ∈ (run x (dxDisableBreakpoint x s who) calls).bps, b.id = bp.id → b.bp_xp = false) ∧
      (run x (dxDisableBreakpoint x s who) calls).text bp.bp_addr =
        if bp.bp_xp then x.put bp.bp_code else s.text bp.bp_addr

/-- `install_breakpoint` does nothing for it. -/
def Blocked (x : Target) (bp : Breakpoint) : Bool :=
  bp.bp_user_data != 0 && x.breakpointIsDisabled bp.bp_user_data

/-- The breakpoint is neither in the text nor marked as one that would be if it were enabled. -/
def Idle (x : Target) (bp : Breakpoint) : Prop :=
  bp.bp_xp = false ∧ (bp.bp_installed = true → Blocked x bp = true)

/-! ## One breakpoint -/

def disabledOf (bp : Breakpoint) : Breakpoint :=
  { bp with bp_xp := false, bp_installed := !bp.bp_xp && bp.bp_installed, bp_enabled := false }

def takeOut (x : Target) (text : Word → XpOpcode) (bp : Breakpoint) : Word → XpOpcode :=
  if bp.bp_xp then Function.update text bp.bp_addr (x.put bp.bp_code) else text

/-- An enabled breakpoint goes into the text. -/
def Returns (x : Target) (bp : Breakpoint) : Bool := !bp.bp_xp && bp.bp_installed && !Blocked x bp

def enabledOf (x : Target) (text : Word → XpOpcode) (bp : Breakpoint) : Breakpoint :=
  if Returns x bp then { bp with bp_enabled := true, bp_xp := true, bp_code := text bp.bp_addr }
  else { bp with bp_enabled := true }

def putBack (x : Target) (text : Word → XpOpcode) (bp : Breakpoint) : Word → XpOpcode :=
  if Returns x bp then Function.update text bp.bp_addr x.trap else text

section
variable {x : Target} {s : State} {bp : Breakpoint} {l1 l2 : List Breakpoint}
  {text : Word → XpOpcode}

theorem setEnabled_false (h : Listed s l1 bp l2) (henabled : bp.bp_xp = true → bp.bp_enabled = true) :
    setEnabled x s bp false = ⟨l1 ++ disabledOf bp :: l2, takeOut x s.text bp⟩ := by
  unfold setEnabled takeOut disabledOf
  rw [if_neg (by simp)]
  cases hxp : bp.bp_xp with
  | true =>
    have h' := (((h.setText bp.bp_addr (x.put bp.bp_code)).modify
      (f := fun b => { b with bp_xp := false }) rfl).modify
      (f := fun b => { b with bp_installed := false }) rfl).modify
      (f := fun b => { b with bp_enabled := false }) rfl
    unfold uninstallBreakpoint
    rw [henabled hxp, hxp]
    exact congrArg (State.mk · _) h'.eq
  | false =>
    have h' := h.modify (f := fun b => { b with bp_enabled := false }) rfl
    refine congrArg (State.mk · s.text) (h'.eq.trans ?_)
    simp [hxp]

theorem installBreakpoint_blocked (h : Blocked x bp = true) : installBreakpoint x s bp false = s := by
  unfold Blocked at h
  unfold installBreakpoint
  exact if_pos (by simpa using h)

theorem installBreakpoint_enabled (h : Listed s l1 bp l2) (henabled : bp.bp_enabled = true)
    (hblocked : Blocked x bp = false) :
    installBreakpoint x s bp false =
      ⟨l1 ++ { bp with bp_xp := true, bp_installed := true, bp_code := s.text bp.bp_addr } :: l2,
        Function.update s.text bp.bp_addr x.trap⟩ := by
  have h' := ((h.modify (f := fun b => { b with bp_code := s.text bp.bp_addr, bp_xp := true })
    rfl).setText bp.bp_addr x.trap).modify (f := fun b => { b with bp_installed := true }) rfl
  unfold Blocked at hblocked
  unfold installBreakpoint
  rw [if_neg (by simpa using hblocked), if_pos henabled]
  exact congrArg (State.mk · _) h'.eq

theorem setEnabled_true (h : Listed s l1 bp l2) :
    setEnabled x s bp true = ⟨l1 ++ enabledOf x s.text bp :: l2, putBack x s.text bp⟩ := by
  have h' := h.modify (f := fun b => { b with bp_enabled := true }) rfl
  have hset : setEnabled x s bp true =
      if !bp.bp_xp && bp.bp_installed then
        installBreakpoint x (s.modify bp.id fun b => { b with bp_enabled := true })
          { bp with bp_enabled := true } false
      else s.modify bp.id fun b => { b with bp_enabled := true } := rfl
  have hkeeps : (s.modify bp.id fun b => { b with bp_enabled := true }) =
      ⟨l1 ++ { bp with bp_enabled := true } :: l2, s.text⟩ := congrArg (State.mk · s.text) h'.eq
  rw [hset]
  unfold enabledOf putBack Returns
  cases hmust : !bp.bp_xp && bp.bp_installed with
  | false =>
    rw [if_neg (by simp), Bool.false_and, if_neg (by simp), if_neg (by simp)]
    exact hkeeps
  | true =>
    rw [if_pos rfl, Bool.true_and]
    cases hblocked : Blocked x bp with
    | true =>
      have hnot : Blocked x { bp with bp_enabled := true } = true := hblocked
      rw [installBreakpoint_blocked hnot, Bool.not_true, if_neg (by simp), if_neg (by simp)]
      exact hkeeps
    | false =>
      have hnot : Blocked x { bp with bp_enabled := true } = false := hblocked
      have hinst : bp.bp_installed = true := (Bool.and_eq_true_iff.1 hmust).2
      rw [installBreakpoint_enabled h' rfl hnot, Bool.not_false, if_pos rfl, if_pos rfl, hinst]
      rfl

/-! ## The loops -/

/-- The concerned breakpoints of a list. -/
def concerned (who : Option Nat) (bps : List Breakpoint) : List Breakpoint :=
  bps.filter fun bp => Concerns who bp.id

theorem Concerns.none (id : Nat) : Concerns none id := nofun

theorem Concerns.some_iff {i id : Nat} : Concerns (some i) id ↔ i = id := by
  simp [Concerns]

theorem find_eq (h : Good s) (hmem : bp ∈ s.bps) : s.find bp.id = some bp := by
  cases hfind : s.find bp.id with
  | none =>
    unfold State.find at hfind
    rw [List.find?_eq_none] at hfind
    exact absurd (hfind bp hmem) (by simp)
  | some b =>
    obtain ⟨hid, -⟩ := find_spec h hfind
    have hb : b ∈ s.bps := List.mem_of_find?_eq_some hfind
    rw [List.inj_on_of_nodup_map h.nodup hb hmem hid]

/-- Enabling and disabling is a loop over the concerned breakpoints. -/
theorem exec_setEnabled (h : Good s) (who : Option Nat) (enabled : Bool) :
    Call.exec x s (.setEnabled who enabled) =
      execAll x s ((concerned who s.bps).map fun bp => .act bp.id (.setEnabled enabled)) := by
  cases who with
  | none =>
    have hall : concerned none s.bps = s.bps :=
      List.filter_eq_self.2 fun bp _ => decide_eq_true (Concerns.none bp.id)
    rw [hall]
    rfl
  | some i =>
    have hexec : Call.exec x s (.setEnabled (some i) enabled) =
        Step.exec x s (.act i (.setEnabled enabled)) := rfl
    rw [hexec]
    cases hfind : s.find i with
    | none =>
      have hnot : concerned (some i) s.bps = [] := by
        unfold State.find at hfind
        rw [List.find?_eq_none] at hfind
        refine List.filter_eq_nil_iff.2 fun bp hbp => ?_
        have hne := hfind bp hbp
        simp only [Concerns.some_iff, decide_eq_true_eq]
        rintro rfl
        simp at hne
      rw [hnot]
      simp only [Step.exec, hfind]
      rfl
    | some bp =>
      obtain ⟨rfl, l1, l2, hl⟩ := find_spec h hfind
      have hnone : ∀ l : List Breakpoint, (∀ b ∈ l, b.id ≠ bp.id) →
          l.filter (fun b => decide (Concerns (some bp.id) b.id)) = [] := by
        intro l hother
        refine List.filter_eq_nil_iff.2 fun b hb => ?_
        simpa only [Concerns.some_iff, decide_eq_true_eq] using (hother b hb).symm
      have hone : concerned (some bp.id) s.bps = [bp] := by
        unfold concerned
        rw [hl.eq, List.filter_append, List.filter_cons_of_pos (by simp [Concerns.some_iff]),
          hnone l1 fun b hb => hl.other b (List.mem_append_left l2 hb),
          hnone l2 fun b hb => hl.other b (List.mem_append_right l1 hb)]
        rfl
      rw [hone]
      rfl

theorem listed_of_good {l : List Breakpoint} {text : Word → XpOpcode}
    (h : Good ⟨l1 ++ bp :: l, text⟩) : Listed ⟨l1 ++ bp :: l, text⟩ l1 bp l := by
  refine ⟨rfl, ?_⟩
  have hnodup := h.nodup
  rw [List.map_append, List.map_cons] at hnodup
  have hnot := (List.nodup_cons.mp (List.nodup_middle.mp hnodup)).1
  intro b hb hc
  rw [← List.map_append, ← hc] at hnot
  exact hnot (List.mem_map_of_mem hb)

theorem exec_act (h : Good s) (hmem : bp ∈ s.bps) (a : Action) :
    Step.exec x s (.act bp.id a) = a.apply x s bp := by
  simp only [Step.exec, find_eq h hmem]

theorem good_act (h : Good s) (id : Nat) (a : Action) : Good (Step.exec x s (.act id a)) :=
  (exec_spec (x := x) s.text h (.act id a) nofun).1

/-- One turn of the loop. -/
theorem execAll_cons (h : Good ⟨l1 ++ bp :: l2, text⟩) (a : Action) (steps : List Step)
    {bp' : Breakpoint} {text' : Word → XpOpcode}
    (hturn : a.apply x ⟨l1 ++ bp :: l2, text⟩ bp = ⟨l1 ++ bp' :: l2, text'⟩) :
    execAll x ⟨l1 ++ bp :: l2, text⟩ (.act bp.id a :: steps) =
      execAll x ⟨(l1 ++ [bp']) ++ l2, text'⟩ steps ∧ Good ⟨(l1 ++ [bp']) ++ l2, text'⟩ := by
  have hmem : bp ∈ l1 ++ bp :: l2 := by simp
  have hexec : Step.exec x ⟨l1 ++ bp :: l2, text⟩ (.act bp.id a) = ⟨(l1 ++ [bp']) ++ l2, text'⟩ := by
    rw [exec_act h hmem, hturn, List.append_assoc]
    rfl
  refine ⟨?_, ?_⟩
  · rw [← hexec]
    rfl
  · rw [← hexec]
    exact good_act h bp.id a

/-- What the list is once the concerned breakpoints of its tail are disabled. -/
def disabledIn (who : Option Nat) (bp : Breakpoint) : Breakpoint :=
  if Concerns who bp.id then disabledOf bp else bp

theorem disable_loop (who : Option Nat) (l1 l : List Breakpoint) (text : Word → XpOpcode)
    (h : Good ⟨l1 ++ l, text⟩) :
    execAll x ⟨l1 ++ l, text⟩
        ((concerned who l).map fun bp => .act bp.id (.setEnabled false)) =
      ⟨l1 ++ l.map (disabledIn who), (concerned who l).foldl (takeOut x) text⟩ := by
  induction l generalizing l1 text with
  | nil => rfl
  | cons bp l ih =>
    by_cases hc : Concerns who bp.id
    · have hfilter : concerned who (bp :: l) = bp :: concerned who l :=
        List.filter_cons_of_pos (by simpa using hc)
      have hlisted := listed_of_good h
      have hturn := setEnabled_false (x := x) hlisted (h.enabled bp (by simp))
      obtain ⟨hrun, hgood⟩ := execAll_cons h (.setEnabled false)
        ((concerned who l).map fun bp => .act bp.id (.setEnabled false)) hturn
      rw [hfilter, List.map_cons, hrun, ih _ _ hgood, List.map_cons, disabledIn, if_pos hc]
      simp
    · have hfilter : concerned who (bp :: l) = concerned who l :=
        List.filter_cons_of_neg (by simpa using hc)
      have hrest : l1 ++ bp :: l = (l1 ++ [bp]) ++ l := by simp
      rw [hfilter, hrest, ih _ _ (by rwa [← hrest]), List.map_cons, disabledIn, if_neg hc]
      simp

/-- Whether a breakpoint is in the text once the concerned ones are enabled. -/
def xpIn (x : Target) (who : Option Nat) (bp : Breakpoint) : Bool :=
  bp.bp_xp || (decide (Concerns who bp.id) && Returns x bp)

theorem enable_loop (who : Option Nat) (l1 l : List Breakpoint) (text : Word → XpOpcode)
    (h : Good ⟨l1 ++ l, text⟩) :
    ∃ l', execAll x ⟨l1 ++ l, text⟩
        ((concerned who l).map fun bp => .act bp.id (.setEnabled true)) =
        ⟨l1 ++ l', (concerned who l).foldl (putBack x) text⟩ ∧
      l'.map (fun bp => (bp.id, bp.bp_xp)) = l.map fun bp => (bp.id, xpIn x who bp) := by
  induction l generalizing l1 text with
  | nil => exact ⟨[], rfl, rfl⟩
  | cons bp l ih =>
    by_cases hc : Concerns who bp.id
    · have hfilter : concerned who (bp :: l) = bp :: concerned who l :=
        List.filter_cons_of_pos (by simpa using hc)
      have hlisted := listed_of_good h
      obtain ⟨hrun, hgood⟩ := execAll_cons h (.setEnabled true)
        ((concerned who l).map fun bp => .act bp.id (.setEnabled true))
        (setEnabled_true (x := x) hlisted)
      obtain ⟨l', hloop, hstatus⟩ := ih _ _ hgood
      refine ⟨enabledOf x text bp :: l', ?_, ?_⟩
      · rw [hfilter, List.map_cons, hrun, hloop, List.append_assoc]
        rfl
      · rw [List.map_cons, List.map_cons, hstatus]
        unfold enabledOf xpIn
        cases hreturns : Returns x bp <;> simp [hc]
    · have hfilter : concerned who (bp :: l) = concerned who l :=
        List.filter_cons_of_neg (by simpa using hc)
      have hrest : l1 ++ bp :: l = (l1 ++ [bp]) ++ l := by simp
      obtain ⟨l', hloop, hstatus⟩ := ih (l1 ++ [bp]) text (by rwa [← hrest])
      refine ⟨bp :: l', ?_, ?_⟩
      · rw [hfilter, hrest, hloop, List.append_assoc]
        rfl
      · rw [List.map_cons, List.map_cons, hstatus]
        simp [xpIn, hc]

/-! ## Calls for other breakpoints -/

/-- What a call for one breakpoint leaves alone. -/
structure Frame (s s' : State) (bp : Breakpoint) : Prop where
  shape : s'.bps.map (fun b => (b.id, b.bp_addr)) = s.bps.map fun b => (b.id, b.bp_addr)
  others : ∀ b ∈ s'.bps, b.id ≠ bp.id → b ∈ s.bps
  text : ∀ a, a ≠ bp.bp_addr → s'.text a = s.text a

theorem Frame.refl (s : State) (bp : Breakpoint) : Frame s s bp :=
  ⟨rfl, fun _ hb _ => hb, fun _ _ => rfl⟩

theorem Frame.modify {s' : State} (h : Frame s s' bp) {f : Breakpoint → Breakpoint}
    (hf : ∀ b, (f b).id = b.id ∧ (f b).bp_addr = b.bp_addr) :
    Frame s (s'.modify bp.id f) bp := by
  refine ⟨?_, ?_, h.text⟩
  · rw [← h.shape]
    unfold State.modify
    rw [List.map_map]
    refine List.map_congr_left fun b _ => ?_
    by_cases hid : b.id = bp.id
    · simp [hid, hf]
    · simp [hid]
  · intro b hb hne
    obtain ⟨b', hb', rfl⟩ := List.mem_map.mp hb
    by_cases hid : b'.id = bp.id
    · rw [if_pos hid, (hf b').1] at hne
      exact absurd hid hne
    · rw [if_neg hid] at hne ⊢
      exact h.others b' hb' hne

theorem Frame.setText {s' : State} (h : Frame s s' bp) (opcode : XpOpcode) :
    Frame s (s'.setText bp.bp_addr opcode) bp := by
  refine ⟨h.shape, h.others, fun a ha => ?_⟩
  exact (Function.update_of_ne ha opcode s'.text).trans (h.text a ha)

theorem installBreakpoint_frame (x : Target) (s : State) (bp : Breakpoint) (force : Bool) :
    Frame s (installBreakpoint x s bp force) bp := by
  unfold installBreakpoint
  split
  · exact .refl s bp
  · refine Frame.modify ?_ fun _ => ⟨rfl, rfl⟩
    split
    · exact ((Frame.refl s bp).modify
        (f := fun b => { b with bp_code := s.text bp.bp_addr, bp_xp := true })
        fun _ => ⟨rfl, rfl⟩).setText x.trap
    · exact .refl s bp

theorem uninstallBreakpoint_frame (x : Target) (s : State) (bp : Breakpoint) :
    Frame s (uninstallBreakpoint x s bp) bp := by
  unfold uninstallBreakpoint
  refine Frame.modify ?_ fun _ => ⟨rfl, rfl⟩
  split
  · exact ((Frame.refl s bp).setText (x.put bp.bp_code)).modify fun _ => ⟨rfl, rfl⟩
  · exact .refl s bp

/-- The breakpoint is at its address, not installed, and the text there is as it was. -/
structure Out (s₀ : State) (bp : Breakpoint) (opcode : XpOpcode) (s : State) : Prop where
  shape : s.bps.map (fun b => (b.id, b.bp_addr)) = s₀.bps.map fun b => (b.id, b.bp_addr)
  status : ∀ b ∈ s.bps, b.id = bp.id → b.bp_xp = false
  text : s.text bp.bp_addr = opcode

theorem Out.frame {s₀ s' : State} {b : Breakpoint} {opcode : XpOpcode} (h : Out s₀ bp opcode s)
    (hnodup : (s₀.bps.map (·.bp_addr)).Nodup) (hbp : bp ∈ s₀.bps) (hb : b ∈ s.bps)
    (hne : b.id ≠ bp.id) (hframe : Frame s s' b) : Out s₀ bp opcode s' := by
  have haddr : bp.bp_addr ≠ b.bp_addr := by
    intro heq
    have hmem : (b.id, b.bp_addr) ∈ s₀.bps.map fun b => (b.id, b.bp_addr) := by
      rw [← h.shape]
      exact List.mem_map_of_mem hb
    obtain ⟨b₀, hb₀, hpair⟩ := List.mem_map.mp hmem
    obtain ⟨hid, haddr⟩ := Prod.mk.inj hpair
    have hsame : b₀ = bp := List.inj_on_of_nodup_map hnodup hb₀ hbp (haddr.trans heq.symm)
    exact hne (hid.symm.trans (congrArg Breakpoint.id hsame))
  refine ⟨hframe.shape.trans h.shape, ?_, (hframe.text _ haddr).trans h.text⟩
  intro b' hb' hid
  exact h.status b' (hframe.others b' hb' (by rw [hid]; exact hne.symm)) hid

/-- A call for a listed breakpoint is an action, and one for another address does nothing. -/
theorem Out.exec {s₀ : State} {opcode : XpOpcode} (h : Out s₀ bp opcode s)
    (hnodup : (s₀.bps.map (·.bp_addr)).Nodup) (hbp : bp ∈ s₀.bps) {id : Nat} (hne : id ≠ bp.id)
    {a : Action} (hframe : ∀ b, Frame s (a.apply x s b) b) :
    Out s₀ bp opcode (Step.exec x s (.act id a)) := by
  cases hfind : s.find id with
  | none => simpa only [Step.exec, hfind] using h
  | some b =>
    have hid : b.id = id := by simpa using List.find?_some hfind
    have hmem : b ∈ s.bps := List.mem_of_find?_eq_some hfind
    have hout := h.frame hnodup hbp hmem (by rwa [hid]) (hframe b)
    simpa only [Step.exec, hfind] using hout

theorem Out.run {who : Option Nat} {s₀ : State} {opcode : XpOpcode} {calls : List Call}
    (h : Out s₀ bp opcode s) (hnodup : (s₀.bps.map (·.bp_addr)).Nodup) (hbp : bp ∈ s₀.bps)
    (hconcerns : Concerns who bp.id) (hcalls : OfOthers who calls) :
    Out s₀ bp opcode (run x s calls) := by
  induction calls generalizing s with
  | nil => exact h
  | cons c calls ih =>
    refine ih ?_ fun c' hc' => hcalls c' (List.mem_cons_of_mem c hc')
    obtain ⟨id, hnot, hcall⟩ := hcalls c List.mem_cons_self
    have hne : id ≠ bp.id := by
      rintro rfl
      exact hnot hconcerns
    rcases hcall with ⟨force, rfl⟩ | rfl
    · exact h.exec (a := .install force) hnodup hbp hne
        fun b => installBreakpoint_frame x s b force
    · exact h.exec (a := .uninstall) hnodup hbp hne fun b => uninstallBreakpoint_frame x s b

/-! ## The text behind the loops -/

theorem takeOut_loop (x : Target) {l : List Breakpoint} (hnodup : (l.map (·.bp_addr)).Nodup)
    (text : Word → XpOpcode) :
    (∀ a, a ∉ l.map (·.bp_addr) → l.foldl (takeOut x) text a = text a) ∧
      ∀ bp ∈ l, l.foldl (takeOut x) text bp.bp_addr =
        if bp.bp_xp then x.put bp.bp_code else text bp.bp_addr := by
  induction l generalizing text with
  | nil => exact ⟨fun _ _ => rfl, nofun⟩
  | cons b l ih =>
    obtain ⟨hnot, hrest⟩ := List.nodup_cons.mp hnodup
    obtain ⟨hother, heach⟩ := ih hrest (takeOut x text b)
    have hkeeps : ∀ a, a ≠ b.bp_addr → takeOut x text b a = text a := by
      intro a ha
      unfold takeOut
      split
      · exact Function.update_of_ne ha _ _
      · rfl
    refine ⟨?_, ?_⟩
    · intro a ha
      rw [List.map_cons, List.mem_cons, not_or] at ha
      exact (hother a ha.2).trans (hkeeps a ha.1)
    · intro bp hbp
      rcases List.mem_cons.mp hbp with rfl | hbp
      · refine (hother _ hnot).trans ?_
        unfold takeOut
        split
        · exact Function.update_self _ _ _
        · rfl
      · have hne : bp.bp_addr ≠ b.bp_addr := by
          intro heq
          exact hnot (List.mem_map.mpr ⟨bp, hbp, heq⟩)
        refine (heach bp hbp).trans ?_
        rw [hkeeps _ hne]

theorem foldl_takeOut_idle {l : List Breakpoint} (h : ∀ bp ∈ l, bp.bp_xp = false) :
    l.foldl (takeOut x) text = text := by
  induction l with
  | nil => rfl
  | cons bp l ih =>
    rw [List.foldl_cons, takeOut, h bp List.mem_cons_self]
    exact ih fun b hb => h b (List.mem_cons_of_mem bp hb)

theorem foldl_putBack_idle {l : List Breakpoint} (h : ∀ bp ∈ l, Returns x bp = false) :
    l.foldl (putBack x) text = text := by
  induction l with
  | nil => rfl
  | cons bp l ih =>
    rw [List.foldl_cons, putBack, h bp List.mem_cons_self]
    exact ih fun b hb => h b (List.mem_cons_of_mem bp hb)

/-! ## The law -/

theorem dxDisableBreakpoint_eq (h : Good s) (who : Option Nat) :
    dxDisableBreakpoint x s who =
      ⟨s.bps.map (disabledIn who), (concerned who s.bps).foldl (takeOut x) s.text⟩ :=
  (exec_setEnabled h who false).trans (disable_loop who [] s.bps s.text h)

theorem good_disable (h : Good s) (who : Option Nat) : Good (dxDisableBreakpoint x s who) := by
  unfold dxDisableBreakpoint
  rw [exec_setEnabled h]
  refine (passes_spec (x := x) s.text h _ ?_).1
  intro st hst id addr code hadd
  obtain ⟨bp, -, rfl⟩ := List.mem_map.mp hst
  cases hadd

theorem disabledIn_id (who : Option Nat) (bp : Breakpoint) : (disabledIn who bp).id = bp.id := by
  unfold disabledIn
  split <;> rfl

theorem disabledIn_addr (who : Option Nat) (bp : Breakpoint) :
    (disabledIn who bp).bp_addr = bp.bp_addr := by
  unfold disabledIn
  split <;> rfl

theorem concerned_disabled (who : Option Nat) (l : List Breakpoint) :
    concerned who (l.map (disabledIn who)) = (concerned who l).map disabledOf := by
  unfold concerned
  rw [List.filter_map]
  have hsame : ((fun bp => decide (Concerns who bp.id)) ∘ disabledIn who) =
      fun bp => decide (Concerns who bp.id) := by
    funext bp
    exact congrArg (fun id => decide (Concerns who id)) (disabledIn_id who bp)
  rw [hsame]
  refine List.map_congr_left fun bp hbp => ?_
  exact if_pos (of_decide_eq_true (List.mem_filter.mp hbp).2)

theorem staysOut (h : Good s) (who : Option Nat) (hnodup : (s.bps.map (·.bp_addr)).Nodup) :
    StaysOut x s who := by
  intro calls hcalls bp hbp hconcerns
  have hshape : (dxDisableBreakpoint x s who).bps.map (fun b => (b.id, b.bp_addr)) =
      s.bps.map fun b => (b.id, b.bp_addr) := by
    rw [dxDisableBreakpoint_eq h, List.map_map]
    refine List.map_congr_left fun b _ => ?_
    simp only [Function.comp_apply, disabledIn_id, disabledIn_addr]
  have hstatus : ∀ b ∈ (dxDisableBreakpoint x s who).bps, b.id = bp.id → b.bp_xp = false := by
    rw [dxDisableBreakpoint_eq h]
    intro b hb hid
    obtain ⟨b', -, rfl⟩ := List.mem_map.mp hb
    rw [disabledIn_id] at hid
    unfold disabledIn
    rw [hid, if_pos hconcerns]
    rfl
  have htext : (dxDisableBreakpoint x s who).text bp.bp_addr =
      if bp.bp_xp then x.put bp.bp_code else s.text bp.bp_addr := by
    rw [dxDisableBreakpoint_eq h]
    have hsub : ((concerned who s.bps).map (·.bp_addr)).Nodup :=
      hnodup.sublist (List.filter_sublist.map _)
    exact (takeOut_loop x hsub s.text).2 bp
      (List.mem_filter.mpr ⟨hbp, decide_eq_true hconcerns⟩)
  have hout : Out s bp _ (run x (dxDisableBreakpoint x s who) calls) :=
    Out.run ⟨hshape, hstatus, htext⟩ hnodup hbp hconcerns hcalls
  exact ⟨hout.status, hout.text⟩

theorem returns_disabled (x : Target) (bp : Breakpoint) :
    Returns x (disabledOf bp) = bp.bp_xp ↔ Idle x bp := by
  have hblocked : Blocked x (disabledOf bp) = Blocked x bp := rfl
  unfold Returns Idle
  rw [hblocked]
  cases hxp : bp.bp_xp <;> cases hinst : bp.bp_installed <;> cases hb : Blocked x bp <;>
    simp [disabledOf, hxp, hinst]

theorem neutral_iff (h : Good s) (who : Option Nat) :
    Neutral x s who ↔ ∀ bp ∈ s.bps, Concerns who bp.id → Idle x bp := by
  have hgood := good_disable (x := x) h who
  have henable := exec_setEnabled (x := x) hgood who true
  rw [dxDisableBreakpoint_eq h] at hgood henable
  obtain ⟨l', hloop, hstatus⟩ := enable_loop (x := x) who [] _ _ hgood
  have heq : dxEnableBreakpoint x (dxDisableBreakpoint x s who) who =
      ⟨l', (concerned who (s.bps.map (disabledIn who))).foldl (putBack x)
        ((concerned who s.bps).foldl (takeOut x) s.text)⟩ := by
    rw [dxDisableBreakpoint_eq h]
    exact henable.trans hloop
  have hxp : ∀ bp, xpIn x who (disabledIn who bp) = bp.bp_xp ↔
      (Concerns who bp.id → Idle x bp) := by
    intro bp
    unfold xpIn
    rw [disabledIn_id]
    by_cases hc : Concerns who bp.id
    · have hout : (disabledOf bp).bp_xp = false := rfl
      rw [disabledIn, if_pos hc, hout, decide_eq_true hc, Bool.false_or, Bool.true_and,
        returns_disabled]
      exact ⟨fun hidle _ => hidle, fun hidle => hidle hc⟩
    · rw [disabledIn, if_neg hc, decide_eq_false hc, Bool.false_and, Bool.or_false]
      exact iff_of_true rfl fun hc' => absurd hc' hc
  unfold Neutral statuses
  rw [heq, hstatus, List.map_map, List.map_inj_left]
  simp only [Function.comp_apply, disabledIn_id, Prod.mk.injEq, true_and, hxp]
  refine and_iff_left_of_imp fun hidle => ?_
  have hout : ∀ bp ∈ concerned who s.bps, Idle x bp := by
    intro bp hbp
    obtain ⟨hmem, hc⟩ := List.mem_filter.mp hbp
    exact hidle bp hmem (of_decide_eq_true hc)
  rw [foldl_takeOut_idle fun bp hbp => (hout bp hbp).1, concerned_disabled]
  refine foldl_putBack_idle fun bp hbp => ?_
  obtain ⟨bp', hbp', rfl⟩ := List.mem_map.mp hbp
  exact ((returns_disabled x bp').mpr (hout bp' hbp')).trans (hout bp' hbp').1

end

/-- Disabling and enabling are neutral exactly when none of the breakpoints concerned is in the
text, or marked as one that would be: `uninstall_breakpoint` takes that mark away as well. -/
theorem disabling_and_enabling_are_neutral_for_idle_breakpoints (x : Target)
    (program : Word → XpOpcode) (calls : List Call) (who : Option Nat)
    (hlegal : LegalRun x ⟨[], program⟩ calls)
    (hnodup : ((run x ⟨[], program⟩ calls).bps.map (·.bp_addr)).Nodup) :
    (Neutral x (run x ⟨[], program⟩ calls) who ∧ StaysOut x (run x ⟨[], program⟩ calls) who) ↔
      ∀ bp ∈ (run x ⟨[], program⟩ calls).bps, Concerns who bp.id → Idle x bp := by
  have hempty : Good ⟨[], program⟩ := ⟨List.nodup_nil, nofun⟩
  have hgood := (run_spec (x := x) program hempty calls hlegal).1
  rw [← neutral_iff hgood]
  exact and_iff_left (staysOut hgood who hnodup)

/-- An opcode is stored as it is given, and no data means a disabled breakpoint. -/
def plain (trap : XpOpcode) : Target := ⟨trap, id, fun _ => false⟩

theorem an_uninstalled_breakpoint_stays_so :
    Neutral (plain 204) (run (plain 204) ⟨[], fun _ => 144⟩ [.add 1 4096 0]) (some 1) ∧
      StaysOut (plain 204) (run (plain 204) ⟨[], fun _ => 144⟩ [.add 1 4096 0]) (some 1) :=
  (disabling_and_enabling_are_neutral_for_idle_breakpoints (plain 204) (fun _ => 144)
    [.add 1 4096 0] (some 1) ⟨rfl, trivial⟩ (by decide)).mpr (by
      intro bp hbp _
      cases List.mem_singleton.mp hbp
      exact ⟨rfl, nofun⟩)

/-- The only breakpoint is installed, disabled and enabled: it is not in the text any more. -/
theorem an_installed_breakpoint_is_lost :
    ¬ ∀ (x : Target) (program : Word → XpOpcode) (calls : List Call) (who : Option Nat),
      LegalRun x ⟨[], program⟩ calls →
        ((run x ⟨[], program⟩ calls).bps.map (·.bp_addr)).Nodup →
          Neutral x (run x ⟨[], program⟩ calls) who ∧
            StaysOut x (run x ⟨[], program⟩ calls) who := by
  intro hall
  have hneutral := (hall (plain 204) (fun _ => 144) [.add 1 4096 0, .install 1 false] (some 1)
    ⟨rfl, ⟨_, rfl, rfl⟩, trivial⟩ (by decide)).1
  have hstatus : statuses (dxEnableBreakpoint (plain 204) (dxDisableBreakpoint (plain 204)
      (run (plain 204) ⟨[], fun _ => 144⟩ [.add 1 4096 0, .install 1 false]) (some 1)) (some 1)) =
        [(1, true)] := hneutral.1
  exact absurd hstatus (by decide)

end ups_rules.breakpoint_toggles
