-- Whole files of commands: which lines `read_config_file` dispatches, and what each command takes
-- from the stream.
import Ups.StateFile

namespace ups_rules.state_file

attribute [local instance] lawfulBEq_text

variable {σ Func Fil Obj : Type}

/-! ## Files -/

/-- A line without a command, or a command with the lines between its braces. -/
inductive Item where
  | blank (line : Text)
  | command (line : Text) (block : Option (List Text))

def Item.lines : Item → List Text
  | blank line => [line]
  | command line none => [line]
  | command line (some block) => line :: (block ++ [closeCurly])

/-- The fields of a line as `read_config_file` sees them. -/
def words (line : Text) : List Text := fields (configTrimLine line)

def endsInCurly (line : Text) : Bool := (words line).getLast? == some openCurly

/-- The commands for variables. -/
def velistCommands : List Text :=
  ["file".toList, "common".toList, "globals".toList, "function".toList]

/-- Every brace in the lines for variables is closed. -/
def nested : Nat → List Text → Bool
  | depth, [] => depth == 0
  | depth, line :: lines =>
    let text := configTrimLine line
    if text = closeCurly then
      match depth with
      | 0 => false
      | depth + 1 => nested depth lines
    else if text.getLast? = some '{' then nested (depth + 1) lines
    else nested depth lines

/-- A breakpoint command has a block if it ends in a brace, a code command always has, and the
commands for variables may; no other command has one. -/
def Item.wellFormed : Item → Bool
  | blank line => words line == []
  | command line block =>
    match words line with
    | [] => false
    | cmd :: _ =>
      if cmd = "breakpoint".toList then
        endsInCurly line == block.isSome && (block.getD []).all (· ≠ closeCurly)
      else if cmd = "code".toList then
        endsInCurly line && block.isSome && (block.getD []).all (· ≠ closeCurly)
      else if cmd ∈ velistCommands then endsInCurly line == block.isSome && nested 0 (block.getD [])
      else block.isNone

def fileLines (items : List Item) : List Text := items.flatMap Item.lines

/-- The commands of the file, when `n` lines have been read: each is dispatched with the number of its
line, and leaves the stream behind its block and `Errs_lnum` at the last line of it. -/
def expected : Nat → List Item → List Dispatch
  | _, [] => []
  | n, .blank _ :: items => expected (n + 1) items
  | n, .command line block :: items =>
    ⟨line, n + 1, fileLines items, n + (Item.command line block).lines.length⟩ ::
      expected (n + (Item.command line block).lines.length) items

/-- Exactly the commands of the file are dispatched, each leaves what it should, and the end of the
file is reached with the number of its last line. -/
def ReadsCommands (t : Target σ Func Fil Obj) (opts : Options) (fuel : Nat) (r : Reader σ)
    (items : List Item) : Prop :=
  (readConfigFile t opts fuel r).1 = expected r.lnum items ∧
  ∃ s, (readConfigFile t opts fuel r).2 = some s ∧ s.fp = [] ∧
    s.lnum = r.lnum + (fileLines items).length

/-! ## The condition -/

/-- The breakpoint command names a function of the target. -/
def bptKnown (t : Target σ Func Fil Obj) (line : Text) (args : List Text) : Bool :=
  (bptFunc t (stripQuotes (behindName (configTrimLine line)) ((bptArgs args).headD []))
    (bptArgs args)[1]?).isSome

def bptUsageOk (args : List Text) : Bool :=
  1 ≤ (bptArgs args).length && (bptArgs args).length ≤ 5

/-- The target takes a breakpoint for the command. -/
def bptTaken (t : Target σ Func Fil Obj) (opts : Options) (line : Text) (args : List Text) (st : σ) :
    Bool :=
  match bptFunc t (stripQuotes (behindName (configTrimLine line)) ((bptArgs args).headD []))
    (bptArgs args)[1]? with
  | none => false
  | some (f, fil) =>
    let lnum := (bptLnum t f (bptArgs args)).1
    (addBreakpoint t f fil lnum (replaceObject t opts (t.fu_fil f) lnum st)).1.isSome

/-- The code command has its three arguments, a file of the target and a decimal number. -/
def codeUsable (t : Target σ Func Fil Obj) : List Text → Bool
  | [filename, lnumstr, brace] => brace == openCurly && (t.name_to_fil filename).isSome &&
    ((strtol lnumstr).2 != lnumstr && (strtol lnumstr).2 == [])
  | _ => false

/-- The command for variables has the arguments that its usage asks for. -/
def velistUsable (cmd : Text) (args : List Text) : Bool :=
  args.getLast? == some openCurly &&
    if cmd = "function".toList then 2 ≤ args.length && args.length ≤ 4
    else (fileUsage cmd).1.contains args.length

/-- A breakpoint command without a block names a function that is known, or has a bad usage, or is
the last line; one with a block is one that the target takes, and is not ignored. -/
def bptFine (t : Target σ Func Fil Obj) (opts : Options) (line : Text) (args : List Text) (st : σ)
    (last : Bool) : Option (List Text) → Bool
  | none => !bptUsageOk args || (!haveCode args && bptKnown t line args) || last
  | some _ => haveCode args && bptUsageOk args && !opts.ignore_breakpoints &&
    bptTaken t opts line args st

/-- A command for variables is usable exactly if it has a block, or is the last line. -/
def velistFine (cmd : Text) (args : List Text) (last : Bool) : Option (List Text) → Bool
  | none => !velistUsable cmd args || last
  | some _ => velistUsable cmd args

/-- The command affects itself only. Besides the above, a code command is usable and not ignored; where
the commands for variables are skipped they have no blocks; `echo` has an argument; and a line with
double quotes has a field behind them. -/
def Item.fine (t : Target σ Func Fil Obj) (opts : Options) (st : σ) (last : Bool) : Item → Bool
  | blank _ => true
  | command line block =>
    match arguments (configTrimLine line) (words line) with
    | none => false
    | some args =>
      let cmd := (words line).headD []
      if cmd = "breakpoint".toList then bptFine t opts line args st last block
      else if cmd = "code".toList then codeUsable t args && !opts.ignore_breakpoints
      else if opts.breakpoints_only then block.isNone
      else if cmd ∈ velistCommands then velistFine cmd args last block
      else if cmd = "echo".toList then args ≠ []
      else true

/-- Every command of the file affects itself only, in the state it finds. -/
def AllFine (t : Target σ Func Fil Obj) (opts : Options) : Reader σ → List Item → Prop
  | _, [] => True
  | r, item :: items => item.fine t opts r.st (fileLines items).isEmpty = true ∧
    ∀ line fp dispatch s, fileLines (item :: items) = line :: fp →
      readLine t opts line { r with fp } = some (dispatch, s) → AllFine t opts s items

/-! ## The loops -/

theorem skipLines_block {block : List Text} (h : ∀ line ∈ block, line ≠ closeCurly)
    (rest : List Text) (n : Nat) :
    skipLines (block ++ closeCurly :: rest) n = (true, rest, n + block.length) := by
  induction block generalizing n with
  | nil => rfl
  | cons line block ih =>
    rw [List.cons_append, skipLines, if_neg (h line List.mem_cons_self),
      ih (fun l hl => h l (List.mem_cons_of_mem _ hl)), List.length_cons]
    congr 2
    omega

theorem codeLines_block {block : List Text} (h : ∀ line ∈ block, line ≠ closeCurly) (text : Text)
    (rest : List Text) (n : Nat) : ∃ code,
    codeLines text (block ++ closeCurly :: rest) n = (some code, rest, n + block.length + 1) := by
  induction block generalizing text n with
  | nil => exact ⟨text, rfl⟩
  | cons line block ih =>
    have hih := fun text => ih (fun l hl => h l (List.mem_cons_of_mem _ hl)) text (n + 1)
    have hlen : n + 1 + block.length + 1 = n + (line :: block).length + 1 := by
      rw [List.length_cons]
      omega
    rw [List.cons_append, codeLines.eq_def, ← hlen]
    simp only [if_neg (h line List.mem_cons_self)]
    split <;> exact hih _

theorem velistLines_block {block : List Text} {depth : Nat} (h : nested depth block = true)
    (rest : List Text) (n : Nat) :
    velistLines depth (block ++ closeCurly :: rest) n = some (rest, n + block.length + 1) := by
  induction block generalizing depth n with
  | nil =>
    obtain rfl : depth = 0 := by simpa [nested] using h
    have hclose : configTrimLine closeCurly = closeCurly := by decide
    rw [List.nil_append, velistLines.eq_def]
    simp only [hclose, if_true]
    rfl
  | cons line block ih =>
    have hlen : n + 1 + block.length + 1 = n + (line :: block).length + 1 := by
      rw [List.length_cons]
      omega
    rw [List.cons_append, velistLines.eq_def, ← hlen]
    simp only [nested] at h ⊢
    split at h
    · rename_i hclose
      rw [if_pos hclose]
      cases depth with
      | zero => cases h
      | succ depth => exact ih h (n + 1)
    · rename_i hclose
      rw [if_neg hclose]
      split at h
      · rename_i hopen
        rw [if_pos hopen]
        exact ih h (n + 1)
      · rename_i hopen
        rw [if_neg hopen]
        exact ih h (n + 1)

theorem skipLines_length (fp : List Text) (n : Nat) (h : fp ≠ []) :
    (skipLines fp n).2.1.length < fp.length := by
  induction fp generalizing n with
  | nil => exact absurd rfl h
  | cons line fp ih =>
    rw [skipLines]
    split
    · simp
    · cases fp with
      | nil => simp [skipLines]
      | cons l fp =>
        have hlt := ih (n + 1) (List.cons_ne_nil _ _)
        simp only [List.length_cons] at hlt ⊢
        omega

theorem codeLines_length (text : Text) (fp : List Text) (n : Nat) (h : fp ≠ []) :
    (codeLines text fp n).2.1.length < fp.length := by
  induction fp generalizing text n with
  | nil => exact absurd rfl h
  | cons line fp ih =>
    have hih : ∀ text, (codeLines text fp (n + 1)).2.1.length < (line :: fp).length := by
      intro text
      cases fp with
      | nil => simp [codeLines]
      | cons l fp =>
        have hlt := ih text (n + 1) (List.cons_ne_nil _ _)
        simp only [List.length_cons] at hlt ⊢
        omega
    rw [codeLines.eq_def]
    dsimp only
    split
    · simp
    · split <;> exact hih _

theorem velistLines_length (depth : Nat) (fp : List Text) (n : Nat) (p : List Text × Nat)
    (h : velistLines depth fp n = some p) : p.1.length < fp.length := by
  induction fp generalizing depth n with
  | nil => cases h
  | cons line fp ih =>
    rw [List.length_cons]
    simp only [velistLines] at h
    split at h
    · split at h
      · obtain rfl := Option.some.inj h
        exact Nat.lt_succ_self _
      · exact Nat.lt_succ_of_lt (ih _ _ h)
    · split at h
      · exact Nat.lt_succ_of_lt (ih _ _ h)
      · exact Nat.lt_succ_of_lt (ih _ _ h)

/-! ## What the handlers take -/

/-- What `get_code_text` leaves. -/
def behindCode (fp : List Text) (n : Nat) : List Text × Nat :=
  match codeLines [] fp n with
  | (some _, fp, lnum) => (fp, lnum)
  | (none, fp, _) => (fp, n)

theorem skipToCloseCurly_stream (r : Reader σ) :
    ((skipToCloseCurly r).2.fp, (skipToCloseCurly r).2.lnum) = (skipLines r.fp r.lnum).2 := by
  unfold skipToCloseCurly
  dsimp only
  split <;> rfl

theorem getCodeText_stream (r : Reader σ) :
    ((getCodeText r).2.fp, (getCodeText r).2.lnum) = behindCode r.fp r.lnum := by
  unfold getCodeText behindCode
  generalize codeLines [] r.fp r.lnum = p
  match p with
  | (some _, _, _) | (none, _, _) => rfl

theorem foldl_errf (mesgs : List Text) (r : Reader σ) :
    (mesgs.foldl (fun r mesg => errf mesg r) r).fp = r.fp ∧
    (mesgs.foldl (fun r mesg => errf mesg r) r).lnum = r.lnum ∧
    (mesgs.foldl (fun r mesg => errf mesg r) r).st = r.st := by
  induction mesgs generalizing r with
  | nil => exact ⟨rfl, rfl, rfl⟩
  | cons mesg mesgs ih => exact ih (errf mesg r)

theorem setBreakpoint_stream (t : Target σ Func Fil Obj) (opts : Options) (args : List Text)
    (f : Func) (fil : Option Fil) (lnum : Int) (r : Reader σ) :
    let s := (setBreakpoint t opts args f fil lnum r).2
    (s.fp, s.lnum) =
      if haveCode args = false then (r.fp, r.lnum)
      else if (addBreakpoint t f fil lnum (replaceObject t opts (t.fu_fil f) lnum r.st)).1.isNone then
        (skipLines r.fp r.lnum).2
      else behindCode r.fp r.lnum := by
  unfold setBreakpoint
  generalize addBreakpoint t f fil lnum _ = p
  cases haveCode args with
  | false =>
    match p with
    | (none, _) | (some _, _) => rfl
  | true =>
    match p with
    | (none, st) => exact skipToCloseCurly_stream { r with st }
    | (some obj, st) =>
      dsimp only
      rw [if_pos rfl, if_neg (nofun : ¬true = false), Option.isNone_some, if_neg Bool.false_ne_true]
      generalize t.set_want_save obj _ _ = st
      rw [← getCodeText_stream { r with st }]
      generalize getCodeText { r with st } = p
      match p with
      | (some _, _) | (none, _) => rfl

/-- One of three things: nothing, the rest of a block, or its code. -/
theorem handleAddBreakpointCommand_stream (t : Target σ Func Fil Obj) (opts : Options)
    (line : Text) (args : List Text) (r : Reader σ) :
    let s := (handleAddBreakpointCommand t opts (behindName (configTrimLine line)) args r).2
    (s.fp, s.lnum) =
      if bptUsageOk args = false then (r.fp, r.lnum)
      else if bptKnown t line args = false then (skipLines r.fp r.lnum).2
      else if haveCode args = false then (r.fp, r.lnum)
      else if opts.ignore_breakpoints = true ∨ bptTaken t opts line args r.st = false then
        (skipLines r.fp r.lnum).2
      else behindCode r.fp r.lnum := by
  unfold handleAddBreakpointCommand
  dsimp only
  by_cases husage : (bptArgs args).length < 1 ∨ (bptArgs args).length > 5
  · rw [if_pos husage, if_pos (by simp [bptUsageOk]; omega)]
    rfl
  rw [if_neg husage, if_neg (by simp [bptUsageOk]; omega)]
  cases hb : bptFunc t (stripQuotes (behindName (configTrimLine line)) ((bptArgs args).headD []))
    (bptArgs args)[1]? with
  | none =>
    rw [if_pos (by rw [bptKnown, hb]; rfl)]
    exact skipToCloseCurly_stream r
  | some found =>
    obtain ⟨f, fil⟩ := found
    have hknown : bptKnown t line args ≠ false := by
      rw [bptKnown, hb]
      nofun
    have htaken : bptTaken t opts line args r.st = (addBreakpoint t f fil (bptLnum t f (bptArgs args)).1
        (replaceObject t opts (t.fu_fil f) (bptLnum t f (bptArgs args)).1 r.st)).1.isSome := by
      rw [bptTaken, hb]
    obtain ⟨hfp, hlnum, hst⟩ := foldl_errf (bptLnum t f (bptArgs args)).2 r
    rw [if_neg hknown]
    dsimp only
    generalize (bptLnum t f (bptArgs args)).2.foldl _ r = q at hfp hlnum hst
    rw [← hfp, ← hlnum]
    by_cases hi : opts.ignore_breakpoints = true
    · rw [if_pos hi]
      cases haveCode args with
      | false => rfl
      | true =>
        refine (skipToCloseCurly_stream q).trans ?_
        rw [if_neg (nofun : ¬true = false), if_pos (.inl hi)]
    · rw [if_neg hi]
      refine (setBreakpoint_stream t opts args f fil _ q).trans ?_
      rw [hst]
      cases haveCode args with
      | false => rfl
      | true =>
        rw [if_neg (nofun : ¬true = false), if_neg (nofun : ¬true = false)]
        by_cases hadd : bptTaken t opts line args r.st = false
        · have hnone := hadd
          rw [htaken, Option.isSome_eq_false_iff] at hnone
          rw [if_pos hnone, if_pos (.inr hadd)]
        · have hsome := hadd
          rw [htaken, Option.isSome_eq_false_iff] at hsome
          rw [if_neg hsome, if_neg (not_or.2 ⟨hi, hadd⟩)]

theorem codeLines_none (text : Text) (fp : List Text) (n : Nat)
    (h : (codeLines text fp n).1 = none) : (codeLines text fp n).2.1 = [] := by
  induction fp generalizing text n with
  | nil => rfl
  | cons line fp ih =>
    rw [codeLines.eq_def] at h ⊢
    dsimp only at h ⊢
    split at h
    · cases h
    · rename_i hline
      rw [if_neg hline]
      split at h <;> exact ih _ _ h

theorem getCodeText_none {r s : Reader σ} (h : getCodeText r = (none, s)) : s.fp = [] := by
  have hnone := codeLines_none [] r.fp r.lnum
  unfold getCodeText at h
  generalize codeLines [] r.fp r.lnum = p at h hnone
  match p with
  | (some _, _, _) => cases h
  | (none, fp, _) =>
    obtain ⟨-, rfl⟩ := Prod.mk.inj h
    exact hnone rfl

/-- Nothing after a bad usage, else a block. -/
theorem handleAddCodeCommand_stream (t : Target σ Func Fil Obj) (opts : Options)
    (filename lnumstr brace : Text) (r : Reader σ) :
    let s := (handleAddCodeCommand t opts [filename, lnumstr, brace] r).2
    (s.fp, s.lnum) =
      if brace ≠ openCurly then (r.fp, r.lnum)
      else if codeUsable t [filename, lnumstr, brace] = false ∨ opts.ignore_breakpoints = true then
        (skipLines r.fp r.lnum).2
      else behindCode r.fp r.lnum := by
  unfold handleAddCodeCommand
  dsimp only
  by_cases hb : brace = openCurly
  swap
  · rw [if_pos hb, if_pos hb]
    rfl
  rw [if_neg (not_not.2 hb), if_neg (not_not.2 hb)]
  cases hfil : t.name_to_fil filename with
  | none =>
    have hu : codeUsable t [filename, lnumstr, brace] = false := by
      rw [codeUsable, hfil]
      simp
    rw [if_pos (.inl hu)]
    exact skipToCloseCurly_stream r
  | some fil =>
    dsimp only
    have hu : codeUsable t [filename, lnumstr, brace] =
        ((strtol lnumstr).2 != lnumstr && (strtol lnumstr).2 == []) := by
      rw [codeUsable, hfil, hb]
      rfl
    by_cases hends : (strtol lnumstr).2 = lnumstr ∨ (strtol lnumstr).2 ≠ []
    · have hbad : codeUsable t [filename, lnumstr, brace] = false := by
        rw [hu]
        rcases hends with h | h <;> simp [h]
      rw [if_pos hends, if_pos (.inl hbad)]
      exact skipToCloseCurly_stream (errf _ r)
    rw [if_neg hends]
    obtain ⟨hne, hnil⟩ := not_or.1 hends
    rw [not_not] at hnil
    have hu : codeUsable t [filename, lnumstr, brace] = true := by
      rw [hu, hnil]
      rw [hnil] at hne
      simpa using hne
    by_cases hi : opts.ignore_breakpoints = true
    · rw [if_pos hi, if_pos (.inr hi)]
      exact skipToCloseCurly_stream r
    · rw [if_neg hi, if_neg (not_or.2 ⟨by rw [hu]; nofun, hi⟩)]
      rw [← getCodeText_stream r]
      generalize hp : getCodeText r = p
      match p with
      | (none, s) =>
        -- there is nothing left to skip
        have hfp : s.fp = [] := getCodeText_none hp
        refine (skipToCloseCurly_stream s).trans ?_
        rw [hfp, skipLines]
      | (some text, s) =>
        dsimp only
        generalize t.add_interpreted_code fil _ text _ = q
        rcases q with ⟨_ | _, _⟩ <;> rfl

theorem loadVelist_stream (t : Target σ Func Fil Obj) (cmd : Text) (args : List Text)
    (r : Reader σ) :
    ((loadVelist t cmd args r).2.fp, (loadVelist t cmd args r).2.lnum) =
      (velistLines 0 r.fp r.lnum).getD ([], r.lnum) := by
  unfold loadVelist
  cases velistLines 0 r.fp r.lnum <;> rfl

/-! ## Own blocks only -/

/-- The lines of a block, with its closing brace. -/
def blockLines : Option (List Text) → List Text
  | none => []
  | some block => block ++ [closeCurly]

theorem Item.lines_command (line : Text) (block : Option (List Text)) :
    (Item.command line block).lines = line :: blockLines block := by
  cases block <;> rfl

theorem skipLines_iff (fp : List Text) (n : Nat) : (skipLines fp n).2 = (fp, n) ↔ fp = [] := by
  refine ⟨fun h => ?_, fun h => h ▸ rfl⟩
  by_contra hne
  have hlt := skipLines_length fp n hne
  rw [h] at hlt
  exact lt_irrefl _ hlt

theorem behindCode_fst (fp : List Text) (n : Nat) : (behindCode fp n).1 = (codeLines [] fp n).2.1 := by
  unfold behindCode
  generalize codeLines [] fp n = p
  rcases p with ⟨_ | _, _, _⟩ <;> rfl

theorem behindCode_iff (fp : List Text) (n : Nat) : behindCode fp n = (fp, n) ↔ fp = [] := by
  refine ⟨fun h => ?_, fun h => h ▸ rfl⟩
  by_contra hne
  have hlt := codeLines_length [] fp n hne
  rw [← behindCode_fst, h] at hlt
  exact lt_irrefl _ hlt

theorem velistLines_iff (fp : List Text) (n : Nat) :
    (velistLines 0 fp n).getD ([], n) = (fp, n) ↔ fp = [] := by
  refine ⟨fun h => ?_, fun h => by rw [h]; rfl⟩
  cases hv : velistLines 0 fp n with
  | none =>
    rw [hv] at h
    exact (Prod.mk.inj h).1.symm
  | some p =>
    rw [hv] at h
    have hlt := velistLines_length 0 fp n p hv
    rw [show p = (fp, n) from h] at hlt
    exact absurd hlt (lt_irrefl _)

theorem stays_ne (block rest : List Text) (n : Nat) :
    (block ++ closeCurly :: rest, n) ≠ (rest, n + (blockLines (some block)).length) := by
  intro h
  have hlen := (Prod.mk.inj h).2
  simp only [blockLines, List.length_append, List.length_singleton] at hlen
  omega

/-- A skipped brace is not counted. -/
theorem skipped_ne {block : List Text} (h : ∀ line ∈ block, line ≠ closeCurly) (rest : List Text)
    (n : Nat) :
    (skipLines (block ++ closeCurly :: rest) n).2 ≠ (rest, n + (blockLines (some block)).length) := by
  rw [skipLines_block h]
  intro he
  have hlen := (Prod.mk.inj he).2
  simp only [blockLines, List.length_append, List.length_singleton] at hlen
  omega

theorem behindCode_block {block : List Text} (h : ∀ line ∈ block, line ≠ closeCurly)
    (rest : List Text) (n : Nat) :
    behindCode (block ++ closeCurly :: rest) n = (rest, n + (blockLines (some block)).length) := by
  obtain ⟨code, hc⟩ := codeLines_block h [] rest n
  simp only [behindCode, hc, blockLines, List.length_append, List.length_singleton, Nat.add_assoc]

theorem breakpoint_iff (t : Target σ Func Fil Obj) (opts : Options) (line : Text)
    (args : List Text) {block : Option (List Text)} {rest : List Text} {r : Reader σ}
    (hblock : ∀ l ∈ block.getD [], l ≠ closeCurly) (hfp : r.fp = blockLines block ++ rest) :
    let s := (handleAddBreakpointCommand t opts (behindName (configTrimLine line)) args r).2
    (s.fp, s.lnum) = (rest, r.lnum + (blockLines block).length) ↔
      bptFine t opts line args r.st rest.isEmpty block = true := by
  dsimp only
  rw [handleAddBreakpointCommand_stream]
  unfold bptFine
  cases block with
  | none =>
    rw [show r.fp = rest from hfp]
    have hstay : (rest, r.lnum) = (rest, r.lnum + (blockLines none).length) := rfl
    rw [← hstay]
    cases bptUsageOk args with
    | false => simp
    | true =>
      cases bptKnown t line args with
      | false => simp [skipLines_iff]
      | true =>
        cases haveCode args with
        | false => simp
        | true =>
          simp only [Bool.true_eq_false, if_false]
          split <;> simp [skipLines_iff, behindCode_iff]
  | some block =>
    have hblock : ∀ l ∈ block, l ≠ closeCurly := hblock
    have hfp : r.fp = block ++ closeCurly :: rest := by simpa [blockLines] using hfp
    have hknown : bptTaken t opts line args r.st = true → bptKnown t line args = true := by
      unfold bptTaken bptKnown
      split <;> simp_all
    have hstay := stays_ne block rest r.lnum
    have hskip := skipped_ne hblock rest r.lnum
    have hcode := behindCode_block hblock rest r.lnum
    rw [hfp, hcode]
    generalize (block ++ closeCurly :: rest, r.lnum) = stay at hstay ⊢
    generalize (skipLines (block ++ closeCurly :: rest) r.lnum).2 = skip at hskip ⊢
    generalize (rest, r.lnum + (blockLines (some block)).length) = done at hstay hskip ⊢
    cases bptUsageOk args with
    | false => simp [hstay]
    | true =>
      cases hk : bptKnown t line args with
      | false =>
        have htaken : bptTaken t opts line args r.st = false := by
          rw [hk] at hknown
          simpa using hknown
        simp [hskip, htaken]
      | true =>
        cases haveCode args with
        | false => simp [hstay]
        | true =>
          cases opts.ignore_breakpoints with
          | true => simp [hskip]
          | false =>
            cases bptTaken t opts line args r.st with
            | false => simp [hskip]
            | true => simp

theorem code_iff (t : Target σ Func Fil Obj) (opts : Options) (args : List Text)
    {block rest : List Text} {r : Reader σ} (hblock : ∀ l ∈ block, l ≠ closeCurly)
    (hfp : r.fp = blockLines (some block) ++ rest) :
    let s := (handleAddCodeCommand t opts args r).2
    (s.fp, s.lnum) = (rest, r.lnum + (blockLines (some block)).length) ↔
      (codeUsable t args && !opts.ignore_breakpoints) = true := by
  have hfp : r.fp = block ++ closeCurly :: rest := by simpa [blockLines] using hfp
  have hstay := stays_ne block rest r.lnum
  have hskip := skipped_ne hblock rest r.lnum
  have hcode := behindCode_block hblock rest r.lnum
  dsimp only
  match args with
  | [filename, lnumstr, brace] =>
    rw [handleAddCodeCommand_stream, hfp, hcode]
    generalize (block ++ closeCurly :: rest, r.lnum) = stay at hstay ⊢
    generalize (skipLines (block ++ closeCurly :: rest) r.lnum).2 = skip at hskip ⊢
    generalize (rest, r.lnum + (blockLines (some block)).length) = done at hstay hskip ⊢
    by_cases hb : brace = openCurly
    · rw [if_neg (not_not.2 hb)]
      cases codeUsable t [filename, lnumstr, brace] with
      | false => simp [hskip]
      | true => cases opts.ignore_breakpoints <;> simp [hskip]
    · have hu : codeUsable t [filename, lnumstr, brace] = false := by
        simp [codeUsable, hb]
      rw [if_pos hb, hu]
      simp [hstay]
  | [] | [_] | [_, _] | _ :: _ :: _ :: _ :: _ =>
    rw [← hfp] at hstay
    exact ⟨fun h => absurd h hstay, nofun⟩

/-- The handler of a command for variables. -/
def handleVelistCommand (t : Target σ Func Fil Obj) (cmd : Text) (args : List Text) (r : Reader σ) :
    Bool × Reader σ :=
  if cmd = "function".toList then handleFunctionCommand t args r else handleFileCommand t cmd args r

theorem handleVelistCommand_stream (t : Target σ Func Fil Obj) (cmd : Text) (args : List Text)
    (r : Reader σ) :
    let s := (handleVelistCommand t cmd args r).2
    (s.fp, s.lnum) = if velistUsable cmd args = true then (velistLines 0 r.fp r.lnum).getD ([], r.lnum)
      else (r.fp, r.lnum) := by
  unfold handleVelistCommand velistUsable
  by_cases hf : cmd = "function".toList
  · simp only [if_pos hf]
    unfold handleFunctionCommand
    by_cases hlast : args.getLast? = some openCurly
    · rw [if_neg (not_not.2 hlast)]
      by_cases hlen : args.length < 2 ∨ args.length > 4
      · rw [if_pos hlen, if_neg (by simp; omega)]
        rfl
      · rw [if_neg hlen, if_pos (by simp [hlast]; omega)]
        exact loadVelist_stream t _ args r
    · rw [if_pos hlast, if_neg (by simp [hlast])]
      rfl
  · simp only [if_neg hf]
    unfold handleFileCommand
    by_cases hu : args.length ∈ (fileUsage cmd).1 ∧ args.getLast? = some openCurly
    · rw [if_pos hu, if_pos (by simp [hu])]
      exact loadVelist_stream t cmd args r
    · rw [if_neg hu, if_neg (by simpa [and_comm] using hu)]
      rfl

theorem velist_iff (t : Target σ Func Fil Obj) (cmd : Text) (args : List Text)
    {block : Option (List Text)} {rest : List Text} {r : Reader σ}
    (hblock : nested 0 (block.getD []) = true) (hfp : r.fp = blockLines block ++ rest) :
    let s := (handleVelistCommand t cmd args r).2
    (s.fp, s.lnum) = (rest, r.lnum + (blockLines block).length) ↔
      velistFine cmd args rest.isEmpty block = true := by
  dsimp only
  rw [handleVelistCommand_stream]
  cases block with
  | none =>
    rw [show r.fp = rest from hfp]
    have hstay : (rest, r.lnum) = (rest, r.lnum + (blockLines none).length) := rfl
    rw [← hstay]
    cases hu : velistUsable cmd args with
    | false => simp [velistFine, hu]
    | true => simp [velistFine, hu, velistLines_iff]
  | some block =>
    have hblock : nested 0 block = true := hblock
    have hfp : r.fp = block ++ closeCurly :: rest := by simpa [blockLines] using hfp
    have hstay := stays_ne block rest r.lnum
    have hread : (velistLines 0 (block ++ closeCurly :: rest) r.lnum).getD ([], r.lnum) =
        (rest, r.lnum + (blockLines (some block)).length) := by
      rw [velistLines_block hblock]
      simp only [blockLines, List.length_append, List.length_singleton, Nat.add_assoc]
      rfl
    rw [hfp, hread]
    generalize (block ++ closeCurly :: rest, r.lnum) = stay at hstay ⊢
    generalize (rest, r.lnum + (blockLines (some block)).length) = done at hstay ⊢
    cases hu : velistUsable cmd args <;> simp [velistFine, hu, hstay]

/-! ## One command -/

theorem stays_iff {block : Option (List Text)} {rest : List Text} {r : Reader σ}
    (hfp : r.fp = blockLines block ++ rest) :
    (r.fp, r.lnum) = (rest, r.lnum + (blockLines block).length) ↔ block.isNone = true := by
  rw [hfp]
  cases block with
  | none => exact ⟨fun _ => rfl, fun _ => rfl⟩
  | some block =>
    have hstay := stays_ne block rest r.lnum
    simp only [blockLines, List.append_assoc, List.singleton_append] at hstay ⊢
    exact ⟨fun h => absurd h hstay, nofun⟩

theorem runCommand_velist (t : Target σ Func Fil Obj) {opts : Options} (text : Text) {cmd : Text}
    (args : List Text) (r : Reader σ) (ho : opts.breakpoints_only = false)
    (hv : cmd ∈ velistCommands) :
    runCommand t opts text cmd args r = some (handleVelistCommand t cmd args r) := by
  simp only [velistCommands, List.mem_cons, List.not_mem_nil, or_false] at hv
  rcases hv with rfl | rfl | rfl | rfl <;> simp [runCommand, handleVelistCommand, ho]

/-- The other commands take nothing, and only `echo` without an argument goes wrong. -/
theorem runCommand_other (t : Target σ Func Fil Obj) {opts : Options} (text : Text) {cmd : Text}
    (args : List Text) (r : Reader σ) (ho : opts.breakpoints_only = false)
    (hb : cmd ≠ "breakpoint".toList) (hc : cmd ≠ "code".toList) (hv : cmd ∉ velistCommands) :
    (runCommand t opts text cmd args r).map (fun p => (p.2.fp, p.2.lnum)) =
      if cmd = "echo".toList ∧ args = [] then none else some (r.fp, r.lnum) := by
  have hfunction : cmd ≠ "function".toList := fun h => hv (h ▸ by decide)
  have hfiles : cmd ∉ ["file".toList, "common".toList, "globals".toList] :=
    fun h => hv (List.mem_append_left ["function".toList] h)
  by_cases hnull : cmd = "echo".toList ∧ args = []
  · rw [if_pos hnull]
    obtain ⟨rfl, rfl⟩ := hnull
    simp [runCommand, ho]
  rw [if_neg hnull]
  unfold runCommand
  rw [if_neg hb, if_neg hc, if_neg (by simp [ho])]
  split
  · rfl
  split
  · rfl
  split
  · split
    · rfl
    · split <;> rfl
  split
  · rename_i he
    split
    · rename_i ha
      exact absurd ⟨he, ha⟩ hnull
    · rfl
  · split <;> rfl

/-- The command leaves the stream behind its block, with the number of the last line, exactly if it is
one that affects itself only. -/
theorem runCommand_iff (t : Target σ Func Fil Obj) (opts : Options) {line cmd : Text}
    {ws args : List Text} {block : Option (List Text)} {rest : List Text} {r : Reader σ}
    (hw : (Item.command line block).wellFormed = true) (hwords : words line = cmd :: ws)
    (hargs : arguments (configTrimLine line) (words line) = some args)
    (hfp : r.fp = blockLines block ++ rest) :
    (runCommand t opts (configTrimLine line) cmd args r).map (fun p => (p.2.fp, p.2.lnum)) =
        some (rest, r.lnum + (blockLines block).length) ↔
      (Item.command line block).fine t opts r.st rest.isEmpty = true := by
  rw [Item.fine, hargs]
  rw [Item.wellFormed] at hw
  simp only [hwords, List.headD_cons] at hw ⊢
  by_cases hb : cmd = "breakpoint".toList
  · simp only [if_pos hb] at hw ⊢
    have hblock : ∀ l ∈ block.getD [], l ≠ closeCurly := by
      simpa using (Bool.and_eq_true_iff.1 hw).2
    refine Iff.trans ?_ (breakpoint_iff t opts line args hblock hfp)
    rw [runCommand, if_pos hb]
    exact Option.some_inj
  by_cases hc : cmd = "code".toList
  · simp only [if_neg hb, if_pos hc] at hw ⊢
    obtain ⟨hw, hblock⟩ := Bool.and_eq_true_iff.1 hw
    obtain ⟨block, rfl⟩ := Option.isSome_iff_exists.1 (Bool.and_eq_true_iff.1 hw).2
    have hblock : ∀ l ∈ block, l ≠ closeCurly := by simpa using hblock
    refine Iff.trans ?_ (code_iff t opts args hblock hfp)
    rw [runCommand, if_neg hb, if_pos hc]
    exact Option.some_inj
  simp only [if_neg hb, if_neg hc] at hw ⊢
  by_cases ho : opts.breakpoints_only = true
  · rw [if_pos ho, runCommand, if_neg hb, if_neg hc, if_pos ho]
    exact Option.some_inj.trans (stays_iff hfp)
  rw [if_neg ho]
  rw [Bool.not_eq_true] at ho
  by_cases hv : cmd ∈ velistCommands
  · rw [if_pos hv] at hw ⊢
    refine Iff.trans ?_ (velist_iff t cmd args (Bool.and_eq_true_iff.1 hw).2 hfp)
    rw [runCommand_velist t _ args r ho hv]
    exact Option.some_inj
  · rw [if_neg hv] at hw ⊢
    have hstays := (stays_iff hfp).2 hw
    rw [runCommand_other t _ args r ho hb hc hv, hstays]
    by_cases he : cmd = "echo".toList
    · by_cases ha : args = [] <;> simp [he, ha]
    · rw [if_neg (fun h => he h.1), if_neg he]
      simp

/-! ## Whole files -/

theorem readLine_blank (t : Target σ Func Fil Obj) (opts : Options) {line : Text}
    (h : words line = []) (r : Reader σ) :
    readLine t opts line r = some (none, { r with lnum := r.lnum + 1 }) := by
  rw [words] at h
  rw [readLine, h]

/-- A line that is read: what it dispatches is what it should be exactly if it affects itself only. -/
theorem readLine_command (t : Target σ Func Fil Obj) (opts : Options) {line : Text}
    {block : Option (List Text)} {rest : List Text} {r : Reader σ}
    (hw : (Item.command line block).wellFormed = true) (hfp : r.fp = blockLines block ++ rest) :
    (∃ s, readLine t opts line r = some (some ⟨line, r.lnum + 1, rest,
        r.lnum + (Item.command line block).lines.length⟩, s) ∧ s.fp = rest ∧
        s.lnum = r.lnum + (Item.command line block).lines.length) ↔
      (Item.command line block).fine t opts r.st rest.isEmpty = true := by
  cases hwords : words line with
  | nil =>
    rw [Item.wellFormed, hwords] at hw
    cases hw
  | cons cmd ws =>
    have hlen : r.lnum + (Item.command line block).lines.length =
        r.lnum + 1 + (blockLines block).length := by
      rw [Item.lines_command, List.length_cons]
      omega
    rw [hlen, readLine, ← words, hwords]
    dsimp only
    rw [← hwords]
    cases hargs : arguments (configTrimLine line) (words line) with
    | none =>
      rw [Item.fine, hargs]
      constructor
      · rintro ⟨s, h, -⟩
        cases h
      · intro h
        cases h
    | some args =>
      rw [← runCommand_iff t opts (r := { r with lnum := r.lnum + 1 }) hw hwords hargs hfp]
      dsimp only
      generalize runCommand t opts (configTrimLine line) cmd args { r with lnum := r.lnum + 1 } = p
      cases p with
      | none =>
        constructor
        · rintro ⟨s, h, -⟩
          cases h
        · rintro ⟨⟩
      | some q =>
        obtain ⟨ok, s⟩ := q
        simp only [Option.map_some, Option.some.injEq, Prod.mk.injEq, Dispatch.mk.injEq, true_and]
        constructor
        · rintro ⟨s', ⟨⟨hfp, hlnum⟩, -⟩, -⟩
          exact ⟨hfp, hlnum⟩
        · rintro ⟨hfp, hlnum⟩
          exact ⟨_, ⟨⟨hfp, hlnum⟩, rfl⟩, hfp, hlnum⟩

theorem fileLines_cons (item : Item) (items : List Item) :
    fileLines (item :: items) = item.lines ++ fileLines items := List.flatMap_cons

theorem readConfigFile_end (t : Target σ Func Fil Obj) (opts : Options) {r : Reader σ}
    (h : r.fp = []) (fuel : Nat) : readConfigFile t opts fuel r = ([], some r) := by
  cases fuel with
  | zero => rfl
  | succ fuel => rw [readConfigFile, h]

/-- A line with a command is dispatched, if the loop goes on from it. -/
theorem readLine_some {t : Target σ Func Fil Obj} {opts : Options} {line : Text} {r s : Reader σ}
    {dispatch : Option Dispatch} (hw : words line ≠ [])
    (h : readLine t opts line r = some (dispatch, s)) :
    dispatch = some ⟨line, r.lnum + 1, s.fp, s.lnum⟩ := by
  unfold readLine at h
  dsimp only at h
  split at h
  · rename_i hnil
    exact absurd hnil hw
  · split at h
    · cases h
    · split at h
      · cases h
      · obtain ⟨rfl, rfl⟩ := Prod.mk.inj (Option.some.inj h)
        rfl

theorem readConfigFile_succ (t : Target σ Func Fil Obj) (opts : Options) {r : Reader σ} {line : Text}
    {fp : List Text} (h : r.fp = line :: fp) (fuel : Nat) :
    readConfigFile t opts (fuel + 1) r =
      match readLine t opts line { r with fp } with
      | none => ([], none)
      | some (dispatch, s) => (dispatch.toList ++ (readConfigFile t opts fuel s).1,
          (readConfigFile t opts fuel s).2) := by
  rw [readConfigFile, h] <;> rfl

theorem reads_blank (t : Target σ Func Fil Obj) (opts : Options) {line : Text} {items : List Item}
    {r : Reader σ} (hwords : words line = []) (hfp : r.fp = line :: fileLines items) (fuel : Nat) :
    ReadsCommands t opts (fuel + 1) r (.blank line :: items) ↔
      ReadsCommands t opts fuel { r with fp := fileLines items, lnum := r.lnum + 1 } items := by
  have hlen : r.lnum + (fileLines (.blank line :: items)).length =
      r.lnum + 1 + (fileLines items).length := by
    rw [fileLines_cons, Item.lines, List.length_append, List.length_singleton, Nat.add_assoc]
  unfold ReadsCommands
  rw [readConfigFile_succ t opts hfp, readLine_blank t opts hwords, hlen]
  rfl

theorem reads_command (t : Target σ Func Fil Obj) (opts : Options) {line : Text}
    {block : Option (List Text)} {items : List Item} {r : Reader σ} {fp : List Text}
    (hwords : words line ≠ []) (hfp : r.fp = line :: fp) (fuel : Nat) :
    ReadsCommands t opts (fuel + 1) r (.command line block :: items) ↔
      ∃ s, readLine t opts line { r with fp } = some (some ⟨line, r.lnum + 1, fileLines items,
          r.lnum + (Item.command line block).lines.length⟩, s) ∧ s.fp = fileLines items ∧
        s.lnum = r.lnum + (Item.command line block).lines.length ∧
        ReadsCommands t opts fuel s items := by
  have hlen : r.lnum + (fileLines (.command line block :: items)).length =
      r.lnum + (Item.command line block).lines.length + (fileLines items).length := by
    rw [fileLines_cons, List.length_append, Nat.add_assoc]
  rw [ReadsCommands, readConfigFile_succ t opts hfp, expected, hlen]
  cases hread : readLine t opts line { r with fp } with
  | none => exact ⟨fun ⟨_, s, h, _⟩ => (nomatch h), fun ⟨s, h, _⟩ => (nomatch h)⟩
  | some p =>
    obtain ⟨dispatch, s⟩ := p
    obtain rfl := readLine_some hwords hread
    dsimp only [Option.toList_some, List.singleton_append]
    constructor
    · rintro ⟨hlist, hend⟩
      obtain ⟨hhead, htail⟩ := List.cons.inj hlist
      obtain ⟨-, -, hfp, hlnum⟩ := Dispatch.mk.inj hhead
      refine ⟨s, by rw [hhead], hfp, hlnum, ?_⟩
      rw [← hlnum] at htail hend
      exact ⟨htail, hend⟩
    · rintro ⟨s', hs', hfp, hlnum, htail, hend⟩
      obtain ⟨hhead, rfl⟩ := Prod.mk.inj (Option.some.inj hs')
      rw [hlnum] at htail hend
      exact ⟨by rw [Option.some.inj hhead, htail], hend⟩

/-- A target with one function `f` in one file `a.c`, which takes every breakpoint. -/
def small : Target Unit Unit Unit Unit where
  name_to_fil name := if name = "a.c".toList then some () else none
  name_and_fil_to_func name _ := if name = ['f'] then some () else none
  find_func_by_name name := if name = ['f'] then some () else none
  fu_fil _ := some ()
  fu_lnos _ := [3, 4]
  stale_count := 0
  fil_and_lnum_to_bdobj _ _ _ := none
  remove_object _ _ := ()
  add_breakpoint_object _ _ _ _ := (some (), ())
  set_bpt_state _ _ _ := ()
  set_want_save _ _ _ := ()
  change_bd_text _ _ _ := ()
  add_interpreted_code _ _ _ _ := (some (), ())
  keep_velist _ _ _ _ := (true, ())
  handle_format_command _ _ _ := (true, ())
  handle_signal_command _ _ := (true, ())

def loading : Options := ⟨false, false, false⟩

def opened (fp : List Text) : Reader Unit := ⟨fp, 0, [], [], false, true, ()⟩

/-- A breakpoint with a line of code. -/
def oneBreakpoint : List Item :=
  [.command "breakpoint f a.c 3 [+0] active \x7b".toList (some ["\tn = 1;".toList])]

/-- A breakpoint in an unknown function, and another command. -/
def unknownFunction : List Item :=
  [.command "breakpoint g".toList none, .command "echo hello".toList none]

end ups_rules.state_file
