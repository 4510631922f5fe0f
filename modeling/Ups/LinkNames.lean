-- The table of external names of the linker (cx_link.c). Every file that is linked looks up
-- the names that it uses and defines. The first use of a name fixes its kind for good, and a
-- later use of the other kind marks the link as failed.
import Mathlib.Data.List.Nodup
import Ups.LinkInfo

open ups_rules.link_info

namespace ups_rules.link_names

/-! ## The pure model -/

/-- The file that an entry points to: a library function or variable (`libfxbuf`), the
start code (`crt0_fx`), or a linked file, by the number of files linked before it. -/
inductive FileRef where
  | lib
  | crt0
  | file (n : Nat)
deriving DecidableEq, Repr

/-- One entry of the table (`extname_t`). `en_file` is NULL until a file defines the name. -/
structure Extname where
  en_name : CString
  en_isfunc : Bool
  en_file : Option FileRef
  en_addr : Taddr
  en_refpath : Option CString
deriving DecidableEq, Repr

/-- What the linker keeps of one linked file. An entry of the name table never moves and
is the only one of its name, so a pointer to an entry is the name of the entry. -/
structure Fileinfo where
  fx_path : CString
  fx_offset : Taddr
  fx_text_size : Taddr
  fx_srcpath : CString
  fx_funcrefs : List CString
  fx_nfuncrefs : Taddr
  fx_varrefs : List CString
  fx_nvarrefs : Taddr
  fx_vardefs : List CString
  fx_nvardefs : Taddr
  fx_extdata : List (BitVec 8)
  fx_extdata_size : Taddr
  fx_extbss_size : Taddr
  fx_extdata_relocs : List ExtReloc
  fx_extdata_funcrelocs : List Taddr
  fx_symfuncs : List Symfunc
  fx_symvars : List CString
deriving DecidableEq, Repr

/-- The calls of `errf` while names are resolved. -/
inductive LinkError where
  /-- "`%s' is a variable in %s and a function in %s" -/
  | varThenFunc (name : CString) (otherpath : Option CString) (srcpath : CString)
  /-- "`%s' is a function in %s and a variable in %s" -/
  | funcThenVar (name : CString) (otherpath : Option CString) (srcpath : CString)
  /-- "%s defined in %s and %s" -/
  | definedTwice (name srcpath : CString) (otherpath : Option CString)
deriving DecidableEq, Repr

/-- The state of the linker. New entries and new files go to the front. -/
structure Olinkinfo where
  ol_dir : CString
  ol_files : List Fileinfo
  ol_extnames : List Extname
  ol_failed : Bool
  ol_errors : List LinkError
deriving DecidableEq, Repr

/-- The bytes of "crt0.o". -/
def crt0Path : CString := [99, 114, 116, 48, 46, 111]

/-- The bytes of "main". -/
def mainName : CString := [109, 97, 105, 110]

/-- The bytes of "exit". -/
def exitName : CString := [101, 120, 105, 116]

/-- The bytes of "__cx_setjmp". -/
def setjmpName : CString := [95, 95, 99, 120, 95, 115, 101, 116, 106, 109, 112]

/-- The bytes of "__cx_longjmp". -/
def longjmpName : CString := [95, 95, 99, 120, 95, 108, 111, 110, 103, 106, 109, 112]

def nameToExtname (ol : Olinkinfo) (name : CString) : Option Extname :=
  ol.ol_extnames.find? fun en => en.en_name == name

/-- The linked file that a file reference points to. -/
def fileOf (ol : Olinkinfo) : FileRef → Option Fileinfo
  | .file n => ol.ol_files.reverse[n]?
  | _ => none

/-- `en_file->fx_path`. -/
def pathOf (ol : Olinkinfo) : FileRef → Option CString
  | .crt0 => some crt0Path
  | f => (fileOf ol f).map Fileinfo.fx_path

def srcpathOf (ol : Olinkinfo) (f : FileRef) : Option CString :=
  (fileOf ol f).map Fileinfo.fx_srcpath

def fail (ol : Olinkinfo) (e : LinkError) : Olinkinfo :=
  { ol with ol_failed := true, ol_errors := ol.ol_errors ++ [e] }

def lookupExtname (ol : Olinkinfo) (srcpath name : CString) (isfunc : Bool) :
    Option Extname × Olinkinfo :=
  match nameToExtname ol name with
  | none => (none, ol)
  | some en =>
    if en.en_isfunc ≠ isfunc then
      let otherpath :=
        match en.en_file with
        | some f => pathOf ol f
        | none => en.en_refpath
      if isfunc then (some en, fail ol (.varThenFunc name otherpath srcpath))
      else (some en, fail ol (.funcThenVar name otherpath srcpath))
    else (some en, ol)

def pushExtname (ol : Olinkinfo) (refpath : Option CString) (name : CString) (isfunc : Bool) :
    Olinkinfo :=
  { ol with ol_extnames := ⟨name, isfunc, none, 0, refpath⟩ :: ol.ol_extnames }

/-- The writes `en->en_file = fx` and `en->en_addr = addr`, with `en` the entry of `name`. -/
def setEntry (name : CString) (fx : FileRef) (addr : Taddr) : List Extname → List Extname
  | [] => []
  | en :: ens =>
    if en.en_name = name then { en with en_file := some fx, en_addr := addr } :: ens
    else en :: setEntry name fx addr ens

def setDefinition (ol : Olinkinfo) (name : CString) (fx : FileRef) (addr : Taddr) : Olinkinfo :=
  { ol with ol_extnames := setEntry name fx addr ol.ol_extnames }

def pushBuiltin (ol : Olinkinfo) (fx : FileRef) (name : CString) : Olinkinfo :=
  setDefinition (pushExtname ol none name true) name fx 0

/-- `ci_make_link_id`. -/
def makeLinkId (dir : CString) : Olinkinfo :=
  let ol : Olinkinfo := ⟨dir, [], [], false, []⟩
  let ol := pushExtname ol (some crt0Path) mainName true
  let ol := pushExtname ol (some crt0Path) exitName true
  let ol := pushBuiltin ol .crt0 setjmpName
  pushBuiltin ol .crt0 longjmpName

/-- One turn of the loops of `link_file` over the undefined names. -/
def referName (path srcpath : CString) (isfunc : Bool) (ol : Olinkinfo) (name : CString) :
    Olinkinfo :=
  match lookupExtname ol path name isfunc with
  | (some _, ol) => ol
  | (none, ol) => pushExtname ol (some srcpath) name isfunc

/-- One turn of the loop of `resolve_names`. -/
def resolveName (fx : FileRef) (srcpath : CString) (isfunc : Bool) (ol : Olinkinfo)
    (ln : Linkname) : Olinkinfo :=
  let ol :=
    match lookupExtname ol srcpath ln.ln_name isfunc with
    | (some en, ol) =>
      match en.en_file with
      | some f =>
        if en.en_isfunc ≠ isfunc then fail ol (.definedTwice ln.ln_name srcpath (srcpathOf ol f))
        else ol
      | none => ol
    | (none, ol) => pushExtname ol none ln.ln_name isfunc
  setDefinition ol ln.ln_name fx ln.ln_addr

def resolveNames (ol : Olinkinfo) (lns : List Linkname) (fx : FileRef) (srcpath : CString)
    (isfunc : Bool) : Olinkinfo :=
  lns.foldl (resolveName fx srcpath isfunc) ol

/-- The new file that `link_file` puts at the front of the list of files. The two lists of
relocations of the external data are copied back to front. -/
def newFileinfo (li : Linkinfo) (cx : CxHeader) (path : CString) (offset : Taddr) : Fileinfo where
  fx_path := path
  fx_offset := offset
  fx_text_size := cx.cx_text_size
  fx_srcpath := li.li_srcpath
  fx_funcrefs := li.li_undef_funcs.map Libfunc.lf_name
  fx_nfuncrefs := cx.cx_nfuncrefs
  fx_varrefs := li.li_undef_vars.map Linkname.ln_name
  fx_nvarrefs := cx.cx_nvarrefs
  fx_vardefs := li.li_vars.map Linkname.ln_name
  fx_nvardefs := cx.cx_nvars
  fx_extdata := li.li_extdata
  fx_extdata_size := cx.cx_extdata_size
  fx_extbss_size := cx.cx_extbss_size
  fx_extdata_relocs := li.li_extdata_relocs.reverse
  fx_extdata_funcrelocs := li.li_extdata_funcrelocs.reverse
  fx_symfuncs := li.li_symfuncs
  fx_symvars := li.li_symvars

def linkFile (ol : Olinkinfo) (li : Linkinfo) (cx : CxHeader) (path : CString) (offset : Taddr) :
    Olinkinfo :=
  let fx : FileRef := .file ol.ol_files.length
  let ol := { ol with ol_files := newFileinfo li cx path offset :: ol.ol_files }
  let ol := (li.li_undef_funcs.map Libfunc.lf_name).foldl (referName path li.li_srcpath true) ol
  let ol := (li.li_undef_vars.map Linkname.ln_name).foldl (referName path li.li_srcpath false) ol
  let ol := resolveNames ol li.li_vars fx li.li_srcpath false
  resolveNames ol li.li_funcs fx li.li_srcpath true

/-- `link_file` for one element of a list of files, all of them from `path`. -/
def linkElt (path : CString) (ol : Olinkinfo) (ll : LinklistElt) : Olinkinfo :=
  linkFile ol ll.ll_linkinfo ll.ll_cx path ll.ll_offset

/-- The linker after the files of a list, each with the path it was read from. -/
def linkFiles (ol : Olinkinfo) (files : List (CString × LinklistElt)) : Olinkinfo :=
  files.foldl (fun ol f => linkElt f.1 ol f.2) ol

/-! ## What one operation does to the table -/

/-- The kind of a name in the table: true for a function. -/
def kindOf (ol : Olinkinfo) (name : CString) : Option Bool :=
  (nameToExtname ol name).map Extname.en_isfunc

/-- The file and the address that the table gives a name. -/
def defOf (ol : Olinkinfo) (name : CString) : Option (FileRef × Taddr) :=
  (nameToExtname ol name).bind fun en => en.en_file.map fun f => (f, en.en_addr)

/-- A name is known when it has an entry. -/
def Known (ol : Olinkinfo) (name : CString) : Prop := (kindOf ol name).isSome

/-- A name is defined when its entry points to a file. -/
def Defined (ol : Olinkinfo) (name : CString) : Prop := (defOf ol name).isSome

/-- A name is unresolved when it has an entry and no file. -/
def Unresolved (ol : Olinkinfo) (name : CString) : Prop := Known ol name ∧ ¬ Defined ol name

instance (ol : Olinkinfo) (name : CString) : Decidable (Known ol name) :=
  inferInstanceAs (Decidable (_ = true))

instance (ol : Olinkinfo) (name : CString) : Decidable (Defined ol name) :=
  inferInstanceAs (Decidable (_ = true))

instance (ol : Olinkinfo) (name : CString) : Decidable (Unresolved ol name) :=
  inferInstanceAs (Decidable (_ ∧ _))

theorem defOf_of_unknown {ol : Olinkinfo} {n : CString} (h : kindOf ol n = none) :
    defOf ol n = none := by
  simp only [kindOf, Option.map_eq_none_iff] at h
  simp [defOf, h]

@[simp] theorem kindOf_fail (ol : Olinkinfo) (e : LinkError) (n : CString) :
    kindOf (fail ol e) n = kindOf ol n := rfl

@[simp] theorem defOf_fail (ol : Olinkinfo) (e : LinkError) (n : CString) :
    defOf (fail ol e) n = defOf ol n := rfl

theorem kindOf_push (ol : Olinkinfo) (r : Option CString) (name : CString) (b : Bool)
    (n : CString) :
    kindOf (pushExtname ol r name b) n = if n = name then some b else kindOf ol n := by
  by_cases h : n = name
  · simp [kindOf, nameToExtname, pushExtname, h]
  · simp [kindOf, nameToExtname, pushExtname, h, Ne.symm h]

theorem defOf_push (ol : Olinkinfo) (r : Option CString) (name : CString) (b : Bool)
    (n : CString) :
    defOf (pushExtname ol r name b) n = if n = name then none else defOf ol n := by
  by_cases h : n = name
  · simp [defOf, nameToExtname, pushExtname, h]
  · simp [defOf, nameToExtname, pushExtname, h, Ne.symm h]

theorem find?_setEntry (name : CString) (fx : FileRef) (addr : Taddr) (ens : List Extname)
    (n : CString) :
    (setEntry name fx addr ens).find? (fun en => en.en_name == n) =
      (ens.find? fun en => en.en_name == n).map fun en =>
        if n = name then { en with en_file := some fx, en_addr := addr } else en := by
  induction ens with
  | nil => rfl
  | cons en ens ih =>
    by_cases h : en.en_name = name
    · by_cases hn : n = name
      · simp [setEntry, h, hn]
      · simp [setEntry, h, hn, Ne.symm hn]
    · by_cases hn : en.en_name = n
      · subst hn
        simp [setEntry, h]
      · simp [setEntry, h, hn, ih]

theorem nameToExtname_setDefinition (ol : Olinkinfo) (name : CString) (fx : FileRef)
    (addr : Taddr) (n : CString) :
    nameToExtname (setDefinition ol name fx addr) n =
      (nameToExtname ol n).map fun en =>
        if n = name then { en with en_file := some fx, en_addr := addr } else en :=
  find?_setEntry name fx addr ol.ol_extnames n

@[simp] theorem kindOf_setDefinition (ol : Olinkinfo) (name : CString) (fx : FileRef)
    (addr : Taddr) (n : CString) : kindOf (setDefinition ol name fx addr) n = kindOf ol n := by
  simp only [kindOf, nameToExtname_setDefinition]
  cases nameToExtname ol n with
  | none => rfl
  | some en => by_cases h : n = name <;> simp [h]

theorem defOf_setDefinition (ol : Olinkinfo) (name : CString) (fx : FileRef) (addr : Taddr)
    (n : CString) (hk : Known ol name) :
    defOf (setDefinition ol name fx addr) n = if n = name then some (fx, addr) else defOf ol n := by
  simp only [defOf, nameToExtname_setDefinition]
  by_cases h : n = name
  · subst h
    rcases he : nameToExtname ol n with _ | en
    · simp [Known, kindOf, he] at hk
    · simp
  · simp [h]

/-- `lookup_extname` finds the entry and leaves the table alone. It marks the link as
failed when the entry is of the other kind. -/
theorem lookupExtname_spec (ol : Olinkinfo) (srcpath name : CString) (b : Bool) :
    ∃ ol', lookupExtname ol srcpath name b = (nameToExtname ol name, ol') ∧
      ol'.ol_extnames = ol.ol_extnames ∧ ol'.ol_files = ol.ol_files ∧
      ol'.ol_failed = (ol.ol_failed || decide (kindOf ol name = some !b)) := by
  rcases he : nameToExtname ol name with _ | en
  · exact ⟨ol, by simp [lookupExtname, he], rfl, rfl, by simp [kindOf, he]⟩
  · by_cases hk : en.en_isfunc = b
    · exact ⟨ol, by simp [lookupExtname, he, hk], rfl, rfl, by simp [kindOf, he, hk]⟩
    · have hk' : en.en_isfunc = !b := by revert hk; cases en.en_isfunc <;> cases b <;> simp
      cases b with
      | true =>
        exact ⟨fail ol _, by simp [lookupExtname, he, hk]; rfl, rfl, rfl,
          by simp [fail, kindOf, he, hk']⟩
      | false =>
        exact ⟨fail ol _, by simp [lookupExtname, he, hk]; rfl, rfl, rfl,
          by simp [fail, kindOf, he, hk']⟩

/-- What every use of a name does, a reference or a definition: a name that is new takes
the kind of the use, and the link fails when the name has the other kind. -/
structure UsesName (ol ol' : Olinkinfo) (name : CString) (b : Bool) : Prop where
  kind : ∀ n, kindOf ol' n = (kindOf ol n).or (if n = name then some b else none)
  failed : ol'.ol_failed = (ol.ol_failed || decide (kindOf ol name = some !b))
  files : ol'.ol_files = ol.ol_files

theorem or_kindOf_of_known {ol : Olinkinfo} {name : CString} {k : Bool} (b : Bool)
    (h : kindOf ol name = some k) (n : CString) :
    kindOf ol n = (kindOf ol n).or (if n = name then some b else none) := by
  by_cases hn : n = name
  · subst hn; simp [h]
  · simp [hn]

theorem or_kindOf_of_unknown {ol : Olinkinfo} {name : CString} {b : Bool} (r : Option CString)
    (h : kindOf ol name = none) (n : CString) :
    kindOf (pushExtname ol r name b) n =
      (kindOf ol n).or (if n = name then some b else none) := by
  rw [kindOf_push]
  by_cases hn : n = name
  · subst hn; simp [h]
  · simp [hn]

/-- A table with the same entries gives each name the same kind. -/
theorem kindOf_congr {ol ol' : Olinkinfo} (h : ol'.ol_extnames = ol.ol_extnames) (n : CString) :
    kindOf ol' n = kindOf ol n := by
  simp only [kindOf, nameToExtname, h]

theorem defOf_congr {ol ol' : Olinkinfo} (h : ol'.ol_extnames = ol.ol_extnames) (n : CString) :
    defOf ol' n = defOf ol n := by
  simp only [defOf, nameToExtname, h]

theorem referName_spec (path srcpath : CString) (b : Bool) (ol : Olinkinfo) (name : CString) :
    UsesName ol (referName path srcpath b ol name) name b ∧
      ∀ n, defOf (referName path srcpath b ol name) n = defOf ol n := by
  obtain ⟨ol', hl, hens, hfs, hf⟩ := lookupExtname_spec ol path name b
  rcases he : nameToExtname ol name with _ | en
  · have hk : kindOf ol name = none := by simp [kindOf, he]
    have hk' : kindOf ol' name = none := by rw [kindOf_congr hens, hk]
    have hr : referName path srcpath b ol name = pushExtname ol' (some srcpath) name b := by
      simp [referName, hl, he]
    rw [hr]
    refine ⟨⟨fun n => ?_, hf, hfs⟩, fun n => ?_⟩
    · rw [or_kindOf_of_unknown _ hk', kindOf_congr hens]
    · rw [defOf_push, defOf_congr hens]
      by_cases hn : n = name
      · subst hn; simp [defOf_of_unknown hk]
      · simp [hn]
  · have hr : referName path srcpath b ol name = ol' := by simp [referName, hl, he]
    rw [hr]
    refine ⟨⟨fun n => ?_, hf, hfs⟩, fun n => defOf_congr hens n⟩
    rw [kindOf_congr hens]
    exact or_kindOf_of_known b (k := en.en_isfunc) (by simp [kindOf, he]) n

/-- The extra test of `resolve_names` only fires when `lookup_extname` has already marked
the link as failed. -/
theorem resolveName_spec (fx : FileRef) (srcpath : CString) (b : Bool) (ol : Olinkinfo)
    (ln : Linkname) :
    UsesName ol (resolveName fx srcpath b ol ln) ln.ln_name b ∧
      ∀ n, defOf (resolveName fx srcpath b ol ln) n =
        if n = ln.ln_name then some (fx, ln.ln_addr) else defOf ol n := by
  obtain ⟨ol', hl, hens, hfs, hf⟩ := lookupExtname_spec ol srcpath ln.ln_name b
  -- the state before the definition is stored
  suffices h : ∃ om, resolveName fx srcpath b ol ln = setDefinition om ln.ln_name fx ln.ln_addr ∧
      UsesName ol om ln.ln_name b ∧ Known om ln.ln_name ∧
      ∀ n, n ≠ ln.ln_name → defOf om n = defOf ol n by
    obtain ⟨om, hr, hu, hknown, hd⟩ := h
    rw [hr]
    refine ⟨⟨fun n => ?_, hu.failed, hu.files⟩, fun n => ?_⟩
    · rw [kindOf_setDefinition, hu.kind]
    · rw [defOf_setDefinition _ _ _ _ _ hknown]
      by_cases hn : n = ln.ln_name
      · simp [hn]
      · simp [hn, hd n hn]
  rcases he : nameToExtname ol ln.ln_name with _ | en
  · have hk' : kindOf ol' ln.ln_name = none := by rw [kindOf_congr hens]; simp [kindOf, he]
    refine ⟨pushExtname ol' none ln.ln_name b, by simp [resolveName, hl, he], ⟨fun n => ?_, hf, hfs⟩,
      ?_, fun n hn => ?_⟩
    · rw [or_kindOf_of_unknown _ hk', kindOf_congr hens]
    · simp [Known, kindOf_push]
    · rw [defOf_push, defOf_congr hens]; simp [hn]
  · have hk : kindOf ol ln.ln_name = some en.en_isfunc := by simp [kindOf, he]
    have hu : UsesName ol ol' ln.ln_name b :=
      ⟨fun n => by rw [kindOf_congr hens]; exact or_kindOf_of_known b hk n, hf, hfs⟩
    have hknown : Known ol' ln.ln_name := by simp [Known, kindOf_congr hens, hk]
    rcases hfile : en.en_file with _ | f
    · exact ⟨ol', by simp [resolveName, hl, he, hfile], hu, hknown,
        fun n _ => defOf_congr hens n⟩
    · by_cases hb : en.en_isfunc = b
      · exact ⟨ol', by simp [resolveName, hl, he, hfile, hb], hu, hknown,
          fun n _ => defOf_congr hens n⟩
      · have hfail : ol'.ol_failed = true := by
          rw [hf, hk]; revert hb; cases en.en_isfunc <;> cases b <;> simp
        refine ⟨fail ol' (.definedTwice ln.ln_name srcpath (srcpathOf ol' f)),
          by simp [resolveName, hl, he, hfile, hb], ⟨hu.kind, ?_, hu.files⟩, hknown,
          fun n _ => defOf_congr hens n⟩
        rw [← hf, hfail]; rfl

/-! ## What a whole file does to the table -/

theorem known_of_usesName {ol ol' : Olinkinfo} {name : CString} {b : Bool}
    (h : UsesName ol ol' name b) (n : CString) : Known ol' n ↔ Known ol n ∨ n = name := by
  simp only [Known, h.kind]
  by_cases hn : n = name <;> simp [hn]

section fold

variable {α : Type} {step : Olinkinfo → α → Olinkinfo} (use : α → CString × Bool)

theorem known_foldl (hstep : ∀ ol a, UsesName ol (step ol a) (use a).1 (use a).2) (l : List α)
    (ol : Olinkinfo) (n : CString) :
    Known (l.foldl step ol) n ↔ Known ol n ∨ n ∈ l.map fun a => (use a).1 := by
  induction l generalizing ol with
  | nil => simp
  | cons a l ih =>
    rw [List.foldl_cons, ih, known_of_usesName (hstep ol a)]
    simp [or_assoc]

theorem files_foldl (hstep : ∀ ol a, UsesName ol (step ol a) (use a).1 (use a).2) (l : List α)
    (ol : Olinkinfo) : (l.foldl step ol).ol_files = ol.ol_files := by
  induction l generalizing ol with
  | nil => rfl
  | cons a l ih => rw [List.foldl_cons, ih, (hstep ol a).files]

end fold

theorem defOf_foldl_referName (path srcpath : CString) (b : Bool) (names : List CString)
    (ol : Olinkinfo) (n : CString) :
    defOf (names.foldl (referName path srcpath b) ol) n = defOf ol n := by
  induction names generalizing ol with
  | nil => rfl
  | cons name names ih => rw [List.foldl_cons, ih, (referName_spec path srcpath b ol name).2]

/-- The address that the last element of that name gives. -/
def addrIn (lns : List Linkname) (name : CString) : Option Taddr :=
  (lns.reverse.find? fun ln => ln.ln_name == name).map Linkname.ln_addr

theorem addrIn_isSome (lns : List Linkname) (name : CString) :
    (addrIn lns name).isSome ↔ name ∈ lns.map Linkname.ln_name := by
  simp [addrIn, List.find?_isSome]

theorem defOf_resolveNames (fx : FileRef) (srcpath : CString) (b : Bool) (lns : List Linkname)
    (ol : Olinkinfo) (n : CString) :
    defOf (resolveNames ol lns fx srcpath b) n =
      ((addrIn lns n).map fun a => (fx, a)).or (defOf ol n) := by
  induction lns generalizing ol with
  | nil => simp [resolveNames, addrIn]
  | cons ln lns ih =>
    have hih := ih (resolveName fx srcpath b ol ln)
    unfold resolveNames at hih ⊢
    rw [List.foldl_cons, hih, (resolveName_spec fx srcpath b ol ln).2]
    by_cases hn : n = ln.ln_name
    · subst hn
      simp only [addrIn, List.reverse_cons, List.find?_append, if_true]
      cases lns.reverse.find? fun l => l.ln_name == ln.ln_name with
      | none => simp
      | some l => simp
    · simp [addrIn, List.reverse_cons, List.find?_append, hn, Ne.symm hn]

/-- All that a file does to the definitions: a function of the file wins over a variable of
the file, and both win over the files before. -/
theorem defOf_linkFile (ol : Olinkinfo) (li : Linkinfo) (cx : CxHeader) (path : CString)
    (offset : Taddr) (n : CString) :
    defOf (linkFile ol li cx path offset) n =
      (((addrIn li.li_funcs n).or (addrIn li.li_vars n)).map
        fun a => (FileRef.file ol.ol_files.length, a)).or (defOf ol n) := by
  simp only [linkFile, defOf_resolveNames, defOf_foldl_referName]
  cases addrIn li.li_funcs n with
  | none => cases addrIn li.li_vars n <;> rfl
  | some a => rfl

theorem defined_linkFile (ol : Olinkinfo) (li : Linkinfo) (cx : CxHeader) (path : CString)
    (offset : Taddr) (n : CString) :
    Defined (linkFile ol li cx path offset) n ↔ Defined ol n ∨ n ∈ li.defs := by
  have hf := addrIn_isSome li.li_funcs n
  have hv := addrIn_isSome li.li_vars n
  simp only [Defined, defOf_linkFile, Linkinfo.defs, List.mem_append, ← hf, ← hv]
  cases addrIn li.li_funcs n <;> cases addrIn li.li_vars n <;> simp

theorem known_linkFile (ol : Olinkinfo) (li : Linkinfo) (cx : CxHeader) (path : CString)
    (offset : Taddr) (n : CString) :
    Known (linkFile ol li cx path offset) n ↔ Known ol n ∨ n ∈ li.refs ∨ n ∈ li.defs := by
  have hrefer := fun b ol' name => (referName_spec path li.li_srcpath b ol' name).1
  have hresolve := fun fx b ol' ln => (resolveName_spec fx li.li_srcpath b ol' ln).1
  simp only [linkFile, resolveNames]
  rw [known_foldl (fun ln => (ln.ln_name, true)) (hresolve _ true),
    known_foldl (fun ln => (ln.ln_name, false)) (hresolve _ false),
    known_foldl (fun n => (n, false)) (hrefer false),
    known_foldl (fun n => (n, true)) (hrefer true)]
  have hk : Known { ol with ol_files := newFileinfo li cx path offset :: ol.ol_files } n ↔
      Known ol n := Iff.rfl
  rw [hk]
  simp only [Linkinfo.refs, Linkinfo.defs, List.mem_append, List.map_id']
  tauto

theorem files_linkFile (ol : Olinkinfo) (li : Linkinfo) (cx : CxHeader) (path : CString)
    (offset : Taddr) :
    (linkFile ol li cx path offset).ol_files = newFileinfo li cx path offset :: ol.ol_files := by
  have hrefer := fun b ol' name => (referName_spec path li.li_srcpath b ol' name).1
  have hresolve := fun fx b ol' ln => (resolveName_spec fx li.li_srcpath b ol' ln).1
  simp only [linkFile, resolveNames]
  rw [files_foldl (fun ln => (ln.ln_name, true)) (hresolve _ true),
    files_foldl (fun ln => (ln.ln_name, false)) (hresolve _ false),
    files_foldl (fun n => (n, false)) (hrefer false),
    files_foldl (fun n => (n, true)) (hrefer true)]

end ups_rules.link_names
