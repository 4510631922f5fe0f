-- The macros of a source file, each with its values and the lines where they are in force
-- (ci_define_macro and ci_undef_macro in ci_util.c, macro_expand_word in st_lookup.c), against the
-- history of the definitions.
import Mathlib.Data.List.Basic
import Mathlib.Tactic.Common

namespace ups_rules.macro_table

/-! ## The pure model -/

/-- The bytes of a name, without its NUL. -/
abbrev Name := List Char

/-- A value and the lines where it is in force. An end line of 0 says that it is not closed. -/
structure MacroValue (V : Type) where
  mav_start_lnum : Nat
  mav_end_lnum : Nat
  mav_value : V

structure Macro (V : Type) where
  ma_name : Name
  ma_values : List (MacroValue V)

variable {V : Type}

/-- The last value of the list ends at the line, unless it has ended before. -/
def closeLast (lnum : Nat) : List (MacroValue V) → List (MacroValue V)
  | [] => []
  | [mav] => [if mav.mav_end_lnum = 0 then { mav with mav_end_lnum := lnum } else mav]
  | mav :: next :: rest => mav :: closeLast lnum (next :: rest)

def openValue (lnum : Nat) (value : V) : MacroValue V :=
  { mav_start_lnum := lnum, mav_end_lnum := 0, mav_value := value }

def pushValue (lnum : Nat) (value : V) (values : List (MacroValue V)) : List (MacroValue V) :=
  closeLast lnum values ++ [openValue lnum value]

/-- The first macro of the name is changed. -/
def updateMacro (name : Name) (f : List (MacroValue V) → List (MacroValue V)) :
    List (Macro V) → List (Macro V)
  | [] => []
  | ma :: rest =>
    if ma.ma_name = name then { ma with ma_values := f ma.ma_values } :: rest
    else ma :: updateMacro name f rest

def ciDefineMacro (macrolist : List (Macro V)) (lnum : Nat) (name : Name) (value : V) :
    List (Macro V) :=
  let macrolist :=
    if macrolist.any (fun ma => ma.ma_name = name) then macrolist
    else { ma_name := name, ma_values := [] } :: macrolist
  updateMacro name (pushValue lnum value) macrolist

def ciUndefMacro (macrolist : List (Macro V)) (lnum : Nat) (name : Name) : List (Macro V) :=
  updateMacro name (closeLast lnum) macrolist

/-- The test of `macro_expand_word` for one value; line 0 asks for any value. -/
def MacroValue.applies (lnum : Nat) (mav : MacroValue V) : Bool :=
  lnum = 0 || (mav.mav_start_lnum ≤ lnum && (mav.mav_end_lnum = 0 || lnum ≤ mav.mav_end_lnum))

/-- The first value of a list that is in force. -/
def selectValue (lnum : Nat) (values : List (MacroValue V)) : Option V :=
  (values.find? (MacroValue.applies lnum)).map MacroValue.mav_value

def macroExpandWord (macros : List (Macro V)) (lnum : Nat) (word : Name) : Option V :=
  macros.findSome? fun ma => if ma.ma_name = word then selectValue lnum ma.ma_values else none

/-- A call of `ci_define_macro` or `ci_undef_macro`. -/
inductive Call (V : Type)
  | define (lnum : Nat) (name : Name) (value : V)
  | undef (lnum : Nat) (name : Name)

def Call.lnum : Call V → Nat
  | .define lnum _ _ => lnum
  | .undef lnum _ => lnum

def Call.name : Call V → Name
  | .define _ name _ => name
  | .undef _ name => name

def step (macrolist : List (Macro V)) : Call V → List (Macro V)
  | .define lnum name value => ciDefineMacro macrolist lnum name value
  | .undef lnum name => ciUndefMacro macrolist lnum name

/-- The table that a sequence of calls leaves. -/
def run (calls : List (Call V)) : List (Macro V) := calls.foldl step []

/-! ## The history -/

/-- What a call leaves in force. -/
def Call.value : Call V → Option V
  | .define _ _ value => some value
  | .undef _ _ => none

/-- What the last of the calls leaves in force. -/
def latest (calls : List (Call V)) : Option V := calls.getLast?.bind Call.value

def callsOf (name : Name) (calls : List (Call V)) : List (Call V) :=
  calls.filter fun c => c.name = name

def callsBefore (line : Nat) (calls : List (Call V)) : List (Call V) :=
  calls.filter fun c => c.lnum < line

/-- The latest definition of the name before the line, if it has not been undefined since. -/
def inForce (calls : List (Call V)) (name : Name) (line : Nat) : Option V :=
  latest (callsBefore line (callsOf name calls))

/-- The values that the name is defined to at line 0. -/
def startValues (calls : List (Call V)) (name : Name) : List V :=
  (callsBefore 1 (callsOf name calls)).filterMap Call.value

/-- A definition at line 0 is not followed by another call at line 0 that would have to end it, or the
value that is kept instead is the right one. -/
def StartKept (calls : List (Call V)) (name : Name) (line : Nat) : Prop :=
  match startValues calls name with
  | [] => True
  | [value] => inForce calls name 1 = some value ∨
      ∃ c ∈ calls, c.name = name ∧ 1 ≤ c.lnum ∧ c.lnum < line
  | value :: _ :: _ => inForce calls name line = some value

/-! ## The table, name by name -/

/-- What a call does to the values of its name. -/
def Call.apply (values : List (MacroValue V)) : Call V → List (MacroValue V)
  | .define lnum _ value => pushValue lnum value values
  | .undef lnum _ => closeLast lnum values

def valuesOf (name : Name) (macros : List (Macro V)) : List (MacroValue V) :=
  ((macros.find? fun ma => ma.ma_name = name).map Macro.ma_values).getD []

def names (macros : List (Macro V)) : List Name := macros.map Macro.ma_name

@[simp] theorem valuesOf_nil (name : Name) : valuesOf name ([] : List (Macro V)) = [] := rfl

theorem valuesOf_cons (name : Name) (ma : Macro V) (macros : List (Macro V)) :
    valuesOf name (ma :: macros) =
      if ma.ma_name = name then ma.ma_values else valuesOf name macros := by
  by_cases h : ma.ma_name = name <;> simp [valuesOf, h]

theorem valuesOf_eq_nil {name : Name} {macros : List (Macro V)} (h : name ∉ names macros) :
    valuesOf name macros = [] := by
  induction macros with
  | nil => rfl
  | cons ma rest ih =>
    obtain ⟨hne, hrest⟩ := not_or.1 (mt List.mem_cons.2 h)
    rw [valuesOf_cons, if_neg (Ne.symm hne), ih hrest]

@[simp] theorem names_updateMacro (name : Name) (f : List (MacroValue V) → List (MacroValue V))
    (macros : List (Macro V)) : names (updateMacro name f macros) = names macros := by
  induction macros with
  | nil => rfl
  | cons ma rest ih =>
    rw [updateMacro]
    split
    · rfl
    · exact congrArg (ma.ma_name :: ·) ih

theorem valuesOf_updateMacro_of_ne {name word : Name} (h : word ≠ name)
    (f : List (MacroValue V) → List (MacroValue V)) (macros : List (Macro V)) :
    valuesOf word (updateMacro name f macros) = valuesOf word macros := by
  induction macros with
  | nil => rfl
  | cons ma rest ih =>
    rw [updateMacro]
    split
    next heq => simp [valuesOf_cons, heq, h.symm]
    next hne => rw [valuesOf_cons, valuesOf_cons, ih]

theorem valuesOf_updateMacro (name : Name) (f : List (MacroValue V) → List (MacroValue V))
    (macros : List (Macro V)) (h : name ∈ names macros ∨ f [] = []) :
    valuesOf name (updateMacro name f macros) = f (valuesOf name macros) := by
  induction macros with
  | nil => simpa [names, updateMacro] using h.symm
  | cons ma rest ih =>
    rw [updateMacro]
    split
    next heq => simp [valuesOf_cons, heq]
    next hne =>
      rw [valuesOf_cons, valuesOf_cons, if_neg hne, if_neg hne]
      apply ih
      rcases h with h | h
      · rcases List.mem_cons.1 h with h | h
        · exact absurd h.symm hne
        · exact .inl h
      · exact .inr h

theorem any_name_iff (name : Name) (macros : List (Macro V)) :
    macros.any (fun ma => ma.ma_name = name) = true ↔ name ∈ names macros := by
  simp [names]

/-- A macro is entered once. -/
theorem nodup_names_step {macros : List (Macro V)} (h : (names macros).Nodup) (c : Call V) :
    (names (step macros c)).Nodup := by
  cases c with
  | undef lnum name => simpa [step, ciUndefMacro] using h
  | define lnum name value =>
    simp only [step, ciDefineMacro, names_updateMacro]
    split
    next => exact h
    next hno => exact List.nodup_cons.2 ⟨fun hmem => hno ((any_name_iff name macros).2 hmem), h⟩

/-- A call changes the values of its own name. -/
theorem valuesOf_step (name : Name) (macros : List (Macro V)) (c : Call V) :
    valuesOf name (step macros c) =
      if c.name = name then c.apply (valuesOf name macros) else valuesOf name macros := by
  cases c with
  | undef lnum word =>
    by_cases h : word = name
    · subst h
      rw [if_pos (by rfl)]
      exact valuesOf_updateMacro word (closeLast lnum) macros (.inr rfl)
    · exact (valuesOf_updateMacro_of_ne (Ne.symm h) _ _).trans (if_neg h).symm
  | define lnum word value =>
    simp only [step, ciDefineMacro]
    split
    next hmem =>
      by_cases h : word = name
      · subst h
        rw [if_pos (by rfl)]
        exact valuesOf_updateMacro word _ macros (.inl ((any_name_iff word macros).1 hmem))
      · exact (valuesOf_updateMacro_of_ne (Ne.symm h) _ _).trans (if_neg h).symm
    next hno =>
      by_cases h : word = name
      · subst h
        have hempty := valuesOf_eq_nil fun hmem => hno ((any_name_iff word macros).2 hmem)
        rw [if_pos (by rfl), valuesOf_updateMacro _ _ _ (.inl List.mem_cons_self), valuesOf_cons,
          if_pos rfl, hempty]
        rfl
      · refine Eq.trans ?_ (if_neg h).symm
        rw [valuesOf_updateMacro_of_ne (Ne.symm h), valuesOf_cons, if_neg h]

/-- The search finds the values of the word. -/
theorem macroExpandWord_eq {macros : List (Macro V)} (h : (names macros).Nodup) (lnum : Nat)
    (word : Name) : macroExpandWord macros lnum word = selectValue lnum (valuesOf word macros) := by
  induction macros with
  | nil => rfl
  | cons ma rest ih =>
    obtain ⟨hnot, hrest⟩ := List.nodup_cons.1 h
    rw [macroExpandWord, List.findSome?_cons, valuesOf_cons]
    by_cases heq : ma.ma_name = word
    · simp only [if_pos heq]
      cases hsel : selectValue lnum ma.ma_values with
      | some value => rfl
      | none =>
        have hempty := valuesOf_eq_nil (heq ▸ hnot)
        exact (ih hrest).trans (by rw [hempty]; rfl)
    · simp only [if_neg heq]
      exact ih hrest

theorem run_spec (calls : List (Call V)) (name : Name) (macros : List (Macro V))
    (h : (names macros).Nodup) :
    (names (calls.foldl step macros)).Nodup ∧ valuesOf name (calls.foldl step macros) =
      (callsOf name calls).foldl Call.apply (valuesOf name macros) := by
  induction calls generalizing macros with
  | nil => exact ⟨h, rfl⟩
  | cons c rest ih =>
    obtain ⟨hnodup, hvalues⟩ := ih (step macros c) (nodup_names_step h c)
    refine ⟨hnodup, hvalues.trans ?_⟩
    rw [valuesOf_step, callsOf, callsOf, List.filter_cons]
    by_cases hc : c.name = name <;> simp [hc]

/-- What the table gives for a name depends on the calls for the name. -/
theorem macroExpandWord_run (calls : List (Call V)) (lnum : Nat) (name : Name) :
    macroExpandWord (run calls) lnum name =
      selectValue lnum ((callsOf name calls).foldl Call.apply []) := by
  obtain ⟨hnodup, hvalues⟩ := run_spec calls name [] List.nodup_nil
  rw [run, macroExpandWord_eq hnodup, hvalues, valuesOf_nil]

/-! ## Which value is found -/

/-- The value of the first entry that is not closed. -/
def firstOpen (values : List (MacroValue V)) : Option V :=
  (values.find? fun mav => mav.mav_end_lnum = 0).map MacroValue.mav_value

/-- Only the last entry may be open. -/
def Settled (values : List (MacroValue V)) : Prop := ∀ mav ∈ values.dropLast, mav.mav_end_lnum ≠ 0

def Bounded (line : Nat) (values : List (MacroValue V)) : Prop :=
  ∀ mav ∈ values, mav.mav_start_lnum < line ∧ mav.mav_end_lnum < line

/-- The lines of the calls do not decrease. -/
def Ordered (calls : List (Call V)) : Prop := calls.Pairwise fun c d => c.lnum ≤ d.lnum

/-- Closing with line 0 closes nothing. -/
theorem closeLast_zero (values : List (MacroValue V)) : closeLast 0 values = values := by
  induction values using closeLast.induct with
  | case1 => rfl
  | case2 mav =>
    simp only [closeLast, List.cons.injEq, and_true]
    split
    next h => rw [← h]
    next => rfl
  | case3 mav next rest ih => rw [closeLast, ih]

theorem length_closeLast (lnum : Nat) (values : List (MacroValue V)) :
    (closeLast lnum values).length = values.length := by
  induction values using closeLast.induct with
  | case1 => rfl
  | case2 mav => rfl
  | case3 mav next rest ih => simp [closeLast, ih]

theorem closed_closeLast {lnum : Nat} (hlnum : lnum ≠ 0) {values : List (MacroValue V)}
    (h : Settled values) : ∀ mav ∈ closeLast lnum values, mav.mav_end_lnum ≠ 0 := by
  induction values using closeLast.induct with
  | case1 => simp [closeLast]
  | case2 mav =>
    simp only [closeLast, List.mem_singleton, forall_eq]
    split
    next => exact hlnum
    next hend => exact hend
  | case3 mav next rest ih =>
    simp only [Settled, List.dropLast_cons_cons, List.forall_mem_cons] at h
    simp only [closeLast, List.forall_mem_cons]
    exact ⟨h.1, ih h.2⟩

theorem bounded_closeLast {line lnum : Nat} (hlnum : lnum < line) {values : List (MacroValue V)}
    (h : Bounded line values) : Bounded line (closeLast lnum values) := by
  induction values using closeLast.induct with
  | case1 => exact h
  | case2 mav =>
    simp only [Bounded, closeLast, List.mem_singleton, forall_eq] at h ⊢
    split
    next => exact ⟨h.1, hlnum⟩
    next => exact h
  | case3 mav next rest ih =>
    simp only [Bounded, List.forall_mem_cons] at h
    simp only [closeLast]
    exact List.forall_mem_cons.2 ⟨h.1, ih (List.forall_mem_cons.2 h.2)⟩

theorem bounded_apply {line : Nat} {c : Call V} (hc : c.lnum < line) {values : List (MacroValue V)}
    (h : Bounded line values) : Bounded line (c.apply values) := by
  cases c with
  | undef lnum name => exact bounded_closeLast hc h
  | define lnum name value =>
    have hopen : Bounded line [openValue lnum value] := by
      simpa [Bounded, openValue] using ⟨hc, Nat.zero_lt_of_lt hc⟩
    exact List.forall_mem_append.2 ⟨bounded_closeLast hc h, hopen⟩

/-- Behind the lines of all entries those are in force that are open. -/
theorem selectValue_of_bounded {line : Nat} {values : List (MacroValue V)}
    (h : Bounded line values) : selectValue line values = firstOpen values := by
  induction values with
  | nil => rfl
  | cons mav rest ih =>
    obtain ⟨⟨hstart, hend⟩, hrest⟩ := List.forall_mem_cons.1 h
    have hsame : mav.applies line = decide (mav.mav_end_lnum = 0) := by
      simp only [MacroValue.applies]
      grind
    have hfind := ih hrest
    simp only [selectValue, firstOpen] at hfind
    rw [selectValue, firstOpen, List.find?_cons, List.find?_cons, hsame]
    cases decide (mav.mav_end_lnum = 0)
    · exact hfind
    · rfl

theorem selectValue_closeLast {line lnum : Nat} (hline : 1 ≤ line) (h : line < lnum)
    (values : List (MacroValue V)) :
    selectValue line (closeLast lnum values) = selectValue line values := by
  induction values using closeLast.induct with
  | case1 => rfl
  | case2 mav =>
    rw [closeLast]
    split
    next hend =>
      have hsame : MacroValue.applies line { mav with mav_end_lnum := lnum } =
          MacroValue.applies line mav := by
        simp only [MacroValue.applies, hend]
        grind
      simp only [selectValue, List.find?_cons, List.find?_nil, hsame]
      cases MacroValue.applies line mav <;> rfl
    next => rfl
  | case3 mav next rest ih =>
    simp only [selectValue] at ih
    rw [closeLast, selectValue, selectValue, List.find?_cons, List.find?_cons]
    cases MacroValue.applies line mav
    · exact ih
    · rfl

/-- A call does not change what is in force on the lines before it. -/
theorem selectValue_apply {line : Nat} (hline : 1 ≤ line) {c : Call V} (h : line < c.lnum)
    (values : List (MacroValue V)) : selectValue line (c.apply values) = selectValue line values := by
  cases c with
  | undef lnum name => exact selectValue_closeLast hline h values
  | define lnum name value =>
    have hlt : line < lnum := h
    have hno : MacroValue.applies line (openValue lnum value) = false := by
      simp only [MacroValue.applies, openValue]
      grind
    rw [Call.apply, pushValue, ← selectValue_closeLast hline hlt values, selectValue, selectValue,
      List.find?_append, List.find?_cons, hno, List.find?_nil, Option.or_none]

theorem selectValue_foldl {line : Nat} (hline : 1 ≤ line) {calls : List (Call V)}
    (h : ∀ c ∈ calls, line < c.lnum) (values : List (MacroValue V)) :
    selectValue line (calls.foldl Call.apply values) = selectValue line values := by
  induction calls generalizing values with
  | nil => rfl
  | cons c rest ih =>
    rw [List.forall_mem_cons] at h
    rw [List.foldl_cons, ih h.2, selectValue_apply hline h.1]

/-- On a line of no call, the first entry is found that the calls before it leave open. -/
theorem selectValue_calls {line : Nat} (hline : 1 ≤ line) {calls : List (Call V)}
    (hordered : Ordered calls) (hfree : ∀ c ∈ calls, c.lnum ≠ line)
    {values : List (MacroValue V)} (hbounded : Bounded line values) :
    selectValue line (calls.foldl Call.apply values) =
      firstOpen ((callsBefore line calls).foldl Call.apply values) := by
  induction calls generalizing values with
  | nil => exact selectValue_of_bounded hbounded
  | cons c rest ih =>
    obtain ⟨hfirst, hrest⟩ := List.pairwise_cons.1 hordered
    rw [List.forall_mem_cons] at hfree
    by_cases hc : c.lnum < line
    · rw [List.foldl_cons, ih hrest hfree.2 (bounded_apply hc hbounded), callsBefore, callsBefore,
        List.filter_cons_of_pos (by simpa using hc), List.foldl_cons]
    · have hlater : ∀ d ∈ c :: rest, line < d.lnum := by
        rw [List.forall_mem_cons]
        refine ⟨by omega, fun d hd => ?_⟩
        have := hfirst d hd
        omega
      have hnone : callsBefore line (c :: rest) = [] := by
        rw [callsBefore, List.filter_eq_nil_iff]
        intro d hd
        have := hlater d hd
        simp only [decide_eq_true_eq]
        omega
      rw [selectValue_foldl hline hlater, hnone]
      exact selectValue_of_bounded hbounded

/-! ## What is left open -/

/-- The calls at line 0 leave every definition open. -/
theorem foldl_start {calls : List (Call V)} (h : ∀ c ∈ calls, c.lnum = 0) (values : List V) :
    calls.foldl Call.apply (values.map (openValue 0)) =
      (values ++ calls.filterMap Call.value).map (openValue 0) := by
  induction calls generalizing values with
  | nil => simp
  | cons c rest ih =>
    rw [List.forall_mem_cons] at h
    rw [List.foldl_cons]
    cases c with
    | undef lnum name =>
      obtain rfl : lnum = 0 := h.1
      rw [Call.apply, closeLast_zero, ih h.2, List.filterMap_cons_none (by rfl)]
    | define lnum name value =>
      obtain rfl : lnum = 0 := h.1
      have happly : Call.apply (values.map (openValue 0)) (.define 0 name value) =
          (values ++ [value]).map (openValue 0) := by
        simp [Call.apply, pushValue, closeLast_zero]
      rw [happly, ih h.2, List.filterMap_cons_some (by rfl), List.append_assoc, List.singleton_append]

/-- An open entry that is not the last one is never closed. -/
theorem foldl_stuck (calls : List (Call V)) (first second : MacroValue V)
    (rest : List (MacroValue V)) :
    ∃ second' rest', calls.foldl Call.apply (first :: second :: rest) =
      first :: second' :: rest' := by
  induction calls generalizing second rest with
  | nil => exact ⟨second, rest, rfl⟩
  | cons c calls ih =>
    have hclose : ∀ lnum, ∃ second' rest',
        closeLast lnum (second :: rest) = second' :: rest' := by
      intro lnum
      apply List.exists_cons_of_length_eq_add_one
      rw [length_closeLast, List.length_cons]
    rw [List.foldl_cons]
    cases c with
    | undef lnum name =>
      obtain ⟨second', rest', h⟩ := hclose lnum
      rw [Call.apply, closeLast, h]
      exact ih second' rest'
    | define lnum name value =>
      obtain ⟨second', rest', h⟩ := hclose lnum
      rw [Call.apply, pushValue, closeLast, h]
      exact ih second' (rest' ++ [openValue lnum value])

/-- From line 1 on a call closes the entry before it, and leaves its own value open. -/
theorem apply_settled {c : Call V} (hc : 1 ≤ c.lnum) {values : List (MacroValue V)}
    (h : Settled values) : Settled (c.apply values) ∧ firstOpen (c.apply values) = c.value := by
  cases c with
  | undef lnum name =>
    have hclosed : ∀ mav ∈ closeLast lnum values, mav.mav_end_lnum ≠ 0 :=
      closed_closeLast (Nat.one_le_iff_ne_zero.1 hc) h
    refine ⟨fun mav hmem => hclosed mav (List.dropLast_subset _ hmem), ?_⟩
    have hnone : (closeLast lnum values).find? (fun mav => mav.mav_end_lnum = 0) = none := by
      simpa using hclosed
    simp [Call.apply, Call.value, firstOpen, hnone]
  | define lnum name value =>
    have hclosed : ∀ mav ∈ closeLast lnum values, mav.mav_end_lnum ≠ 0 :=
      closed_closeLast (Nat.one_le_iff_ne_zero.1 hc) h
    constructor
    · simpa [Settled, Call.apply, pushValue] using hclosed
    · have hnone : (closeLast lnum values).find? (fun mav => mav.mav_end_lnum = 0) = none := by
        simpa using hclosed
      simp [Call.apply, Call.value, firstOpen, pushValue, hnone, openValue]

theorem latest_cons_cons (c d : Call V) (rest : List (Call V)) :
    latest (c :: d :: rest) = latest (d :: rest) := by
  rw [latest, latest, List.getLast?_cons_cons]

theorem firstOpen_foldl {calls : List (Call V)} (h : ∀ c ∈ calls, 1 ≤ c.lnum)
    {values : List (MacroValue V)} (hsettled : Settled values) :
    firstOpen (calls.foldl Call.apply values) =
      if calls = [] then firstOpen values else latest calls := by
  induction calls generalizing values with
  | nil => rfl
  | cons c rest ih =>
    rw [List.forall_mem_cons] at h
    obtain ⟨hnext, hopen⟩ := apply_settled h.1 hsettled
    rw [List.foldl_cons, ih h.2 hnext, if_neg (List.cons_ne_nil c rest)]
    cases rest with
    | nil => exact hopen
    | cons d rest => rw [if_neg (List.cons_ne_nil d rest), latest_cons_cons]

/-- Calls in order are those at line 0 and then the others. -/
theorem Ordered.split {calls : List (Call V)} (h : Ordered calls) :
    ∃ later, calls = callsBefore 1 calls ++ later ∧ ∀ c ∈ later, 1 ≤ c.lnum := by
  induction calls with
  | nil => exact ⟨[], rfl, nofun⟩
  | cons c rest ih =>
    obtain ⟨hfirst, hrest⟩ := List.pairwise_cons.1 h
    by_cases hc : c.lnum < 1
    · obtain ⟨later, heq, hlater⟩ := ih hrest
      refine ⟨later, ?_, hlater⟩
      rw [callsBefore, List.filter_cons_of_pos (by simpa using hc), List.cons_append]
      exact congrArg (c :: ·) heq
    · have hall : ∀ d ∈ c :: rest, 1 ≤ d.lnum := by
        rw [List.forall_mem_cons]
        refine ⟨by omega, fun d hd => ?_⟩
        have := hfirst d hd
        omega
      refine ⟨c :: rest, ?_, hall⟩
      have hnone : callsBefore 1 (c :: rest) = [] := by
        rw [callsBefore, List.filter_eq_nil_iff]
        intro d hd
        have := hall d hd
        simp only [decide_eq_true_eq]
        omega
      rw [hnone, List.nil_append]

theorem callsBefore_one_callsBefore {line : Nat} (hline : 1 ≤ line) (calls : List (Call V)) :
    callsBefore 1 (callsBefore line calls) = callsBefore 1 calls := by
  rw [callsBefore, callsBefore, callsBefore, List.filter_filter]
  apply List.filter_congr
  intro c _
  grind

/-- The table gives the definition in force if and only if line 0 has kept nothing open that it
should have ended. -/
theorem macroExpandWord_iff {calls : List (Call V)} (hordered : Ordered calls) (name : Name)
    {line : Nat} (hline : 1 ≤ line) (hfree : ∀ c ∈ calls, c.name = name → c.lnum ≠ line) :
    macroExpandWord (run calls) line name = inForce calls name line ↔
      StartKept calls name line := by
  have hname : ∀ c ∈ callsOf name calls, c.lnum ≠ line := by
    simpa [callsOf] using hfree
  obtain ⟨later, hsplit, hlater⟩ :=
    Ordered.split ((hordered.filter (fun c => c.name = name)).filter (fun c => c.lnum < line))
  have hstart := callsBefore_one_callsBefore hline (callsOf name calls)
  have hzero : ∀ c ∈ callsBefore 1 (callsOf name calls), c.lnum = 0 := by
    simp [callsBefore]
  have hbefore : callsBefore line (callsOf name calls) =
      callsBefore 1 (callsOf name calls) ++ later := by
    rw [← hstart]
    exact hsplit
  have hnolater : later ≠ [] ↔ ∃ c ∈ calls, c.name = name ∧ 1 ≤ c.lnum ∧ c.lnum < line := by
    constructor
    · intro hne
      obtain ⟨c, hc⟩ := List.exists_mem_of_ne_nil later hne
      have hmem : c ∈ callsBefore line (callsOf name calls) := by
        rw [hbefore]
        exact List.mem_append_right _ hc
      simp only [callsBefore, callsOf, List.mem_filter, decide_eq_true_eq] at hmem
      exact ⟨c, hmem.1.1, hmem.1.2, hlater c hc, hmem.2⟩
    · rintro ⟨c, hc, hcname, hpos, hlt⟩ rfl
      have hmem : c ∈ callsBefore line (callsOf name calls) := by
        simp [callsBefore, callsOf, hc, hcname, hlt]
      rw [hbefore, List.append_nil] at hmem
      have := hzero c hmem
      omega
  -- what is found is what line 0 has left, with the later calls applied to it
  have hfound : macroExpandWord (run calls) line name =
      firstOpen (later.foldl Call.apply ((startValues calls name).map (openValue 0))) := by
    have hbounded : Bounded line ([] : List (MacroValue V)) := by simp [Bounded]
    have hof : Ordered (callsOf name calls) := hordered.filter _
    rw [macroExpandWord_run, selectValue_calls hline hof hname hbounded, hbefore,
      List.foldl_append]
    have hfold := foldl_start hzero ([] : List V)
    rw [List.map_nil, List.nil_append] at hfold
    rw [hfold, startValues]
  rw [hfound, StartKept, inForce, inForce]
  match hvalues : startValues calls name with
  | [] =>
    have hnone : latest (callsBefore 1 (callsOf name calls)) = none := by
      rw [latest]
      cases hlast : (callsBefore 1 (callsOf name calls)).getLast? with
      | none => rfl
      | some c =>
        have hall := List.filterMap_eq_nil_iff.1 hvalues
        exact hall c (List.mem_of_getLast? hlast)
    have hsettled : Settled ([] : List (MacroValue V)) := by simp [Settled]
    refine iff_of_true ?_ trivial
    rw [List.map_nil, firstOpen_foldl hlater hsettled, hbefore]
    by_cases hempty : later = []
    · rw [if_pos hempty, hempty, List.append_nil, hnone]
      rfl
    · rw [if_neg hempty, latest, latest, List.getLast?_append_of_ne_nil _ hempty]
  | [value] =>
    have hsettled : Settled [openValue 0 value] := by simp [Settled]
    rw [List.map_singleton, firstOpen_foldl hlater hsettled, hbefore, ← hnolater]
    by_cases hempty : later = []
    · have hopen : firstOpen [openValue 0 value] = some value := by rfl
      rw [if_pos hempty, hempty, List.append_nil, hopen]
      simp [eq_comm]
    · rw [if_neg hempty]
      refine iff_of_true ?_ (.inr hempty)
      rw [latest, latest, List.getLast?_append_of_ne_nil _ hempty]
  | value :: second :: rest =>
    obtain ⟨second', rest', hstuck⟩ := foldl_stuck later (openValue 0 value) (openValue 0 second)
      (rest.map (openValue 0))
    have hopen : firstOpen (openValue 0 value :: second' :: rest') = some value := by rfl
    rw [List.map_cons, List.map_cons, hstuck, hopen]
    exact eq_comm

/-- A macro of the command line, with a new text from line 3 on. -/
def redefined : List (Call String) :=
  [.define 0 ['N'] "1", .undef 3 ['N'], .define 4 ['N'] "2"]

theorem redefined_macro_is_found :
    macroExpandWord (run redefined) 2 ['N'] = some "1" ∧
    (macroExpandWord (run redefined) 9 ['N'] = inForce redefined ['N'] 9) := by
  have hordered : Ordered redefined := by
    simp [Ordered, redefined, Call.lnum]
  refine ⟨rfl, (macroExpandWord_iff hordered ['N'] (by decide) ?_).2 ?_⟩
  · simp [redefined, Call.lnum]
  · exact .inl rfl

/-- What the options -DX=1 -UX leave. -/
def undefinedAgain : List (Call String) := [.define 0 ['X'] "1", .undef 0 ['X']]

theorem undefined_macro_is_found :
    Ordered undefinedAgain ∧ inForce undefinedAgain ['X'] 1 = none ∧
    macroExpandWord (run undefinedAgain) 1 ['X'] = some "1" :=
  ⟨by simp [Ordered, undefinedAgain, Call.lnum], rfl, rfl⟩

end ups_rules.macro_table
