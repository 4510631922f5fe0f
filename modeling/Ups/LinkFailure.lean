-- When name resolution marks a link as failed. Each file uses names as functions and as
-- variables, and the link fails exactly when some name is used both ways. Two definitions
-- of one kind pass unseen, since `resolve_names` tests the kinds and not the files.
import Ups.LinkNames

open ups_rules.link_info ups_rules.link_names

namespace ups_rules.link_failure

/-! ## The uses of names -/

/-- The names that a file uses, in the order of `link_file`, each with its kind. -/
def fileUses (li : Linkinfo) : List (CString × Bool) :=
  li.li_undef_funcs.map (fun lf => (lf.lf_name, true)) ++
    li.li_undef_vars.map (fun ln => (ln.ln_name, false)) ++
    li.li_vars.map (fun ln => (ln.ln_name, false)) ++
    li.li_funcs.map (fun ln => (ln.ln_name, true))

/-- The names that `ci_make_link_id` uses, all as functions. -/
def startUses : List (CString × Bool) :=
  [(mainName, true), (exitName, true), (setjmpName, true), (longjmpName, true)]

def allUses (files : List (CString × LinklistElt)) : List (CString × Bool) :=
  startUses ++ files.flatMap fun f => fileUses f.2.ll_linkinfo

/-- Some name is used as a function and as a variable. -/
def Conflict (uses : List (CString × Bool)) : Prop :=
  ∃ n, (n, true) ∈ uses ∧ (n, false) ∈ uses

/-- The file defines the name as a function, for `b` true, or as a variable. -/
def Defines (li : Linkinfo) (b : Bool) (n : CString) : Prop :=
  n ∈ (if b then li.li_funcs else li.li_vars).map Linkname.ln_name

instance (li : Linkinfo) (b : Bool) (n : CString) : Decidable (Defines li b n) :=
  inferInstanceAs (Decidable (_ ∈ _))

theorem defines_mem_fileUses {li : Linkinfo} {b : Bool} {n : CString} (h : Defines li b n) :
    (n, b) ∈ fileUses li := by
  obtain ⟨ln, hln, rfl⟩ := List.mem_map.mp h
  cases b with
  | true => exact List.mem_append_right _ (List.mem_map.mpr ⟨ln, hln, rfl⟩)
  | false =>
    refine List.mem_append_left _ (List.mem_append_right _ ?_)
    exact List.mem_map.mpr ⟨ln, hln, rfl⟩

/-! ## The invariant -/

/-- The table against the uses so far: a name is in the table once it is used, with the
kind of one of its uses, and the link has failed once some name has both kinds. -/
structure KindsOk (ol : Olinkinfo) (uses : List (CString × Bool)) : Prop where
  known : ∀ n b, (n, b) ∈ uses → Known ol n
  kind : ∀ n b, kindOf ol n = some b → (n, b) ∈ uses
  failed : ol.ol_failed = true ↔ Conflict uses

theorem conflict_append_left {uses : List (CString × Bool)} (us : List (CString × Bool))
    (h : Conflict uses) : Conflict (uses ++ us) := by
  obtain ⟨n, ht, hf⟩ := h
  exact ⟨n, List.mem_append_left _ ht, List.mem_append_left _ hf⟩

theorem conflict_of_mem {uses : List (CString × Bool)} {n : CString} {b : Bool}
    (h1 : (n, b) ∈ uses) (h2 : (n, !b) ∈ uses) : Conflict uses := by
  cases b with
  | true => exact ⟨n, h1, h2⟩
  | false => exact ⟨n, h2, h1⟩

/-- One more use makes a conflict only with a use of the other kind. -/
theorem conflict_snoc {uses : List (CString × Bool)} {name : CString} {b : Bool}
    (h : Conflict (uses ++ [(name, b)])) : Conflict uses ∨ (name, !b) ∈ uses := by
  obtain ⟨n, ht, hf⟩ := h
  simp only [List.mem_append, List.mem_singleton, Prod.mk.injEq] at ht hf
  rcases ht with ht | ⟨rfl, rfl⟩
  · rcases hf with hf | ⟨rfl, rfl⟩
    · exact Or.inl ⟨n, ht, hf⟩
    · exact Or.inr ht
  · rcases hf with hf | ⟨_, hb⟩
    · exact Or.inr hf
    · cases hb

theorem kindsOk_use {ol ol' : Olinkinfo} {uses : List (CString × Bool)} {name : CString}
    {b : Bool} (hu : UsesName ol ol' name b) (h : KindsOk ol uses) :
    KindsOk ol' (uses ++ [(name, b)]) := by
  have hknown := known_of_usesName hu
  refine ⟨fun n k hn => ?_, fun n k hk => ?_, ?_⟩
  · rw [hknown]
    rcases List.mem_append.mp hn with hn | hn
    · exact Or.inl (h.known n k hn)
    · exact Or.inr (by simpa using congrArg Prod.fst (List.mem_singleton.mp hn))
  · rw [hu.kind] at hk
    rcases hold : kindOf ol n with _ | k'
    · by_cases hn : n = name
      · subst hn
        simp only [hold, if_true, Option.none_or, Option.some.injEq] at hk
        simp [hk]
      · simp [hold, hn] at hk
    · simp only [hold, Option.some_or, Option.some.injEq] at hk
      exact List.mem_append_left _ (h.kind n k (by rw [hold, hk]))
  · rw [hu.failed, Bool.or_eq_true, decide_eq_true_eq, h.failed]
    constructor
    · rintro (hc | hk)
      · exact conflict_append_left _ hc
      · exact conflict_of_mem (b := b) (by simp) (List.mem_append_left _ (h.kind _ _ hk))
    · intro hc
      rcases conflict_snoc hc with hc | hother
      · exact Or.inl hc
      · -- the entry of the name has a kind, and that kind is one of its uses
        obtain ⟨k, hk⟩ := Option.isSome_iff_exists.mp (h.known _ _ hother)
        by_cases hkb : k = b
        · subst hkb
          exact Or.inl (conflict_of_mem (h.kind _ _ hk) hother)
        · refine Or.inr (hk.trans ?_)
          revert hkb; cases k <;> cases b <;> simp

theorem kindsOk_foldl {α : Type} {step : Olinkinfo → α → Olinkinfo} (use : α → CString × Bool)
    (hstep : ∀ ol a, UsesName ol (step ol a) (use a).1 (use a).2) (l : List α) {ol : Olinkinfo}
    {uses : List (CString × Bool)} (h : KindsOk ol uses) :
    KindsOk (l.foldl step ol) (uses ++ l.map use) := by
  induction l generalizing ol uses with
  | nil => simpa using h
  | cons a l ih =>
    have h1 := ih (kindsOk_use (hstep ol a) h)
    simpa [List.append_assoc] using h1

theorem kindsOk_linkFile {ol : Olinkinfo} {uses : List (CString × Bool)} (li : Linkinfo)
    (cx : CxHeader) (path : CString) (offset : Taddr) (h : KindsOk ol uses) :
    KindsOk (linkFile ol li cx path offset) (uses ++ fileUses li) := by
  have hrefer := fun b ol' name => (referName_spec path li.li_srcpath b ol' name).1
  have hresolve := fun fx b ol' ln => (resolveName_spec fx li.li_srcpath b ol' ln).1
  have h0 : KindsOk { ol with ol_files := newFileinfo li cx path offset :: ol.ol_files } uses :=
    ⟨h.known, h.kind, h.failed⟩
  have h1 := kindsOk_foldl (fun n => (n, true)) (hrefer true)
    (li.li_undef_funcs.map Libfunc.lf_name) h0
  have h2 := kindsOk_foldl (fun n => (n, false)) (hrefer false)
    (li.li_undef_vars.map Linkname.ln_name) h1
  have h3 := kindsOk_foldl (fun ln => (ln.ln_name, false))
    (hresolve (.file ol.ol_files.length) false) li.li_vars h2
  have h4 := kindsOk_foldl (fun ln => (ln.ln_name, true))
    (hresolve (.file ol.ol_files.length) true) li.li_funcs h3
  simpa [linkFile, resolveNames, fileUses, List.append_assoc, Function.comp_def] using h4

theorem kindsOk_makeLinkId (dir : CString) : KindsOk (makeLinkId dir) startUses := by
  have hknown : ∀ n b, (n, b) ∈ startUses → Known (makeLinkId dir) n := by
    intro n b h
    simp only [startUses, List.mem_cons, Prod.mk.injEq, List.not_mem_nil, or_false] at h
    rcases h with ⟨rfl, _⟩ | ⟨rfl, _⟩ | ⟨rfl, _⟩ | ⟨rfl, _⟩ <;> rfl
  have hkind : ∀ n, kindOf (makeLinkId dir) n =
      if n = longjmpName then some true else if n = setjmpName then some true
      else if n = exitName then some true else if n = mainName then some true else none := by
    intro n
    simp only [makeLinkId, pushBuiltin, kindOf_setDefinition, kindOf_push]
    rfl
  refine ⟨hknown, fun n b h => ?_, ?_⟩
  · rw [hkind] at h
    split at h
    · simp_all [startUses]
    · split at h
      · simp_all [startUses]
      · split at h
        · simp_all [startUses]
        · split at h
          · simp_all [startUses]
          · cases h
  · simp [makeLinkId, pushBuiltin, setDefinition, pushExtname, Conflict, startUses]

theorem kindsOk_linkFiles {ol : Olinkinfo} {uses : List (CString × Bool)}
    (files : List (CString × LinklistElt)) (h : KindsOk ol uses) :
    KindsOk (linkFiles ol files) (uses ++ files.flatMap fun f => fileUses f.2.ll_linkinfo) := by
  induction files generalizing ol uses with
  | nil => simpa [linkFiles] using h
  | cons f files ih =>
    have h1 := ih (kindsOk_linkFile f.2.ll_linkinfo f.2.ll_cx f.1 f.2.ll_offset h)
    simpa [linkFiles, linkElt, List.append_assoc] using h1

/-! ## The laws -/

/-- The flag, exactly: a link has failed when some name is used as a function and as a
variable, in files or in the start code. -/
theorem failed_iff_conflict (dir : CString) (files : List (CString × LinklistElt)) :
    (linkFiles (makeLinkId dir) files).ol_failed = true ↔ Conflict (allUses files) :=
  (kindsOk_linkFiles files (kindsOk_makeLinkId dir)).failed

/-- Two files define the name `n`, as a function where the flag is true. -/
def DefinedByTwo (files : List (CString × LinklistElt)) (b c : Bool) (n : CString) : Prop :=
  ∃ (i j : Fin files.length), i ≠ j ∧
    Defines files[i].2.ll_linkinfo b n ∧ Defines files[j].2.ll_linkinfo c n

/-- No name of the table is left without a file. -/
def NothingUndefined (ol : Olinkinfo) : Prop := ∀ en ∈ ol.ol_extnames, en.en_file ≠ none

instance (files : List (CString × LinklistElt)) (b c : Bool) (n : CString) :
    Decidable (DefinedByTwo files b c n) :=
  inferInstanceAs (Decidable (∃ _ : Fin _, ∃ _ : Fin _, _))

instance (ol : Olinkinfo) : Decidable (NothingUndefined ol) :=
  inferInstanceAs (Decidable (∀ en ∈ _, _))

theorem mem_allUses {files : List (CString × LinklistElt)} (i : Fin files.length) {n : CString}
    {b : Bool} (h : Defines files[i].2.ll_linkinfo b n) : (n, b) ∈ allUses files :=
  List.mem_append_right _
    (List.mem_flatMap.mpr ⟨_, List.getElem_mem i.isLt, defines_mem_fileUses h⟩)

/-- A name that one file defines as a function and another as a variable fails the link. If
no name is defined twice, none is left undefined and each name has one kind in all its
definitions and references, the link has not failed. -/
theorem a_name_of_two_kinds_fails_the_link (dir : CString) (files : List (CString × LinklistElt)) :
    ((∃ n, DefinedByTwo files true false n) →
      (linkFiles (makeLinkId dir) files).ol_failed = true) ∧
    ((∀ n b c, ¬ DefinedByTwo files b c n) →
      NothingUndefined (linkFiles (makeLinkId dir) files) →
      (∀ n, (n, true) ∈ allUses files → (n, false) ∉ allUses files) →
      (linkFiles (makeLinkId dir) files).ol_failed = false) := by
  constructor
  · rintro ⟨n, i, j, _, hi, hj⟩
    rw [failed_iff_conflict]
    exact ⟨n, mem_allUses i hi, mem_allUses j hj⟩
  · intro _ _ hone
    rw [← Bool.not_eq_true, failed_iff_conflict]
    rintro ⟨n, ht, hf⟩
    exact hone n ht hf

/-- A file of "a.c" that refers to some variables and defines some functions. -/
def sampleFile (undefVars funcs : List CString) : CString × LinklistElt :=
  ([97, 46, 99], ⟨0, { (default : Linkinfo) with
    li_undef_vars := undefVars.map fun n => ⟨n, 0⟩
    li_funcs := funcs.map fun n => ⟨n, 0⟩ }, default⟩)

/-- Two files that both define the function `f`. -/
def twoDefinitions : List (CString × LinklistElt) :=
  [sampleFile [] [[102]], sampleFile [] [[102]]]

/-- A program of two files. The first uses some variables and defines `main` and `exit`,
the second defines the function `f`. -/
def sampleProgram (undefVars : List CString) : List (CString × LinklistElt) :=
  [sampleFile undefVars [mainName, exitName], sampleFile [] [[102]]]

theorem defines_sampleFile {undefVars funcs : List CString} {b : Bool} {n : CString}
    (h : Defines (sampleFile undefVars funcs).2.ll_linkinfo b n) : n ∈ funcs := by
  cases b with
  | true => simpa [Defines, sampleFile] using h
  | false => exact absurd h (List.not_mem_nil)

theorem sampleProgram_defines_once (undefVars : List CString) (n : CString) (b c : Bool) :
    ¬ DefinedByTwo (sampleProgram undefVars) b c n := by
  rintro ⟨i, j, hij, hi, hj⟩
  have hne : ¬ (n ∈ [mainName, exitName] ∧ n ∈ [([102] : CString)]) := by
    rintro ⟨h1, h2⟩
    rw [List.mem_singleton] at h2
    subst h2
    exact absurd h1 (by decide)
  match i, j with
  | ⟨0, _⟩, ⟨0, _⟩ => exact hij rfl
  | ⟨0, _⟩, ⟨1, _⟩ => exact hne ⟨defines_sampleFile hi, defines_sampleFile hj⟩
  | ⟨1, _⟩, ⟨0, _⟩ => exact hne ⟨defines_sampleFile hj, defines_sampleFile hi⟩
  | ⟨1, _⟩, ⟨1, _⟩ => exact hij rfl

/-- Two definitions of one kind do not fail the link, and a reference of the wrong kind
fails a link in which each name is defined once. -/
theorem a_double_definition_passes_and_a_wrong_reference_fails :
    ¬ (∀ dir files n b c, DefinedByTwo files b c n →
      (linkFiles (makeLinkId dir) files).ol_failed = true) ∧
    ¬ (∀ dir files, (∀ n b c, ¬ DefinedByTwo files b c n) →
      NothingUndefined (linkFiles (makeLinkId dir) files) →
      (linkFiles (makeLinkId dir) files).ol_failed = false) := by
  constructor
  · intro h
    have h1 := h [] twoDefinitions [102] true true (by decide)
    exact absurd h1 (by decide)
  · intro h
    -- the first file uses the function `f` of the second as a variable
    have h1 := h [] (sampleProgram [[102]]) (sampleProgram_defines_once _) (by decide)
    exact absurd h1 (by decide)

theorem sampleProgram_does_not_fail :
    (linkFiles (makeLinkId []) (sampleProgram [])).ol_failed = false := by
  refine (a_name_of_two_kinds_fails_the_link [] (sampleProgram [])).2
    (sampleProgram_defines_once []) (by decide) fun n _ hf => ?_
  have hfuncs : ∀ u ∈ allUses (sampleProgram []), u.2 = true := by decide
  exact Bool.noConfusion (hfuncs _ hf)

end ups_rules.link_failure
