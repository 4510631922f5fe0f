-- The law of the object files: a file that is written, alone or in a library, is read back with
-- its sizes, sections, names and relocations, and the members of a library are visited in their
-- order, each at the offset where it was written.
import Ups.CxSymtab

open le_bytes
open byte_parsing
open ups_rules.link_info
open ups_rules.cx_file
open ups_rules.cx_round_trip
open ups_rules.cx_symtab

namespace ups_rules.cx_library

/-! ## The pure model -/

/-- A compiled file and the symbol information that is written with it, if any. -/
structure Member where
  li : Linkinfo
  syminfo : Option Symdata

/-- What `ci_compile` promises of both. -/
structure Member.Ok (m : Member) : Prop where
  link : WellFormed m.li
  sym : ∀ sd ∈ m.syminfo, SymWellFormed m.li sd

/-- The bytes of the file, `none` for a panic. -/
def Member.file (m : Member) : Option (List (BitVec 8)) :=
  (ciWriteCxFile m.li m.syminfo).map Prod.snd

/-- The name of a variable by its index in the file: first those that are used, then those that
are defined. -/
def varName (li : Linkinfo) (er_index : BitVec 32) : Option CString :=
  (li.li_undef_vars.map Linkname.ln_name ++ li.li_vars.map Linkname.ln_name)[er_index.toNat]?

/-- Where a relocation is and the name it is attached to. -/
def attached (li : Linkinfo) (er : ExtReloc) : Taddr × BitVec 32 × Option CString :=
  (er.er_location, er.er_index, varName li er.er_index)

/-- The element of the list of files is the file written at `offset`. With `full` the text was
read too. -/
structure ReadsAs (full : Bool) (m : Member) (offset : Nat) (ll : LinklistElt) : Prop where
  offset : ll.ll_offset.toNat = offset
  bss_size : ll.ll_linkinfo.li_bss_size = m.li.li_bss_size
  extbss_size : ll.ll_linkinfo.li_extbss_size = m.li.li_extbss_size
  text_size : ll.ll_cx.cx_text_size.toNat = m.li.li_text.length
  data_size : ll.ll_cx.cx_data_size.toNat = m.li.li_data.length
  nfuncaddrs : ll.ll_cx.cx_nfuncaddrs.toNat = m.li.li_funcaddrs.length
  srcpath : ll.ll_linkinfo.li_srcpath = m.li.li_srcpath
  undef_funcs : ll.ll_linkinfo.li_undef_funcs.map (fun lf => (lf.lf_name, lf.lf_index)) =
    m.li.li_undef_funcs.map fun lf => (lf.lf_name, lf.lf_index)
  undef_vars : ll.ll_linkinfo.li_undef_vars.map Linkname.ln_name =
    m.li.li_undef_vars.map Linkname.ln_name
  funcs : ll.ll_linkinfo.li_funcs = m.li.li_funcs
  vars : ll.ll_linkinfo.li_vars = m.li.li_vars
  extdata : ll.ll_linkinfo.li_extdata = m.li.li_extdata
  extdata_relocs : (ll.ll_linkinfo.li_extdata_relocs.map (attached ll.ll_linkinfo)).Perm
    (m.li.li_extdata_relocs.map (attached m.li))
  extdata_funcrelocs : ll.ll_linkinfo.li_extdata_funcrelocs.Perm m.li.li_extdata_funcrelocs
  text : full = true → ll.ll_linkinfo.li_text = m.li.li_text
  data : full = true → ll.ll_linkinfo.li_data = m.li.li_data
  static_rps : full = true → ll.ll_linkinfo.li_static_rps.Perm m.li.li_static_rps
  static_funcrps : full = true → ll.ll_linkinfo.li_static_funcrps.Perm m.li.li_static_funcrps
  ext_relocs : full = true → (ll.ll_linkinfo.li_ext_relocs.map (attached ll.ll_linkinfo)).Perm
    (m.li.li_ext_relocs.map (attached m.li))
  funcaddrs : full = true → ll.ll_linkinfo.li_funcaddrs = m.li.li_funcaddrs
  symfuncs : m.syminfo.isSome = true → ll.ll_linkinfo.li_symfuncs.map
      (fun sf => (sf.sf_name, sf.sf_addr, sf.sf_letab.length)) =
    m.li.li_symfuncs.map fun sf => (sf.sf_name, sf.sf_addr, sf.sf_letab.length)
  symvars : m.syminfo.isSome = true → ll.ll_linkinfo.li_symvars = m.li.li_symvars

/-! ## One file -/

/-- The parts of a file that is written: its header, and what is behind it. -/
structure Written (m : Member) (cx : CxHeader) (body : List (BitVec 8)) : Prop where
  file : m.file = some ((headerFields cx).flatMap wordBytes ++ body)
  magic : cx.cx_magic = OCX_MAGIC
  version : cx.cx_version = OCX_VERSION
  size : (headerSize cx).toNat = 160 + body.length
  reads : ∀ full, ∃ ll, ReadsAs full m 0 ll ∧ Parses (readCx cx full) ll body

theorem length_linkSection (li : Linkinfo) :
    (linkSection li).length = 8 * li.li_undef_funcs.length + 8 * li.li_undef_vars.length +
      16 * li.li_funcs.length + 16 * li.li_vars.length + (table (names li)).length +
      li.li_extdata.length + 16 * li.li_extdata_relocs.length +
      8 * li.li_extdata_funcrelocs.length := by
  have hfuncs := length_records (fun ln : Linkname => wordBytes ln.ln_addr) 8 (funcPlaces li)
    li.li_funcs (by simp [funcPlaces]) (by intro ln _; simp [wordBytes])
  have hvars := length_records (fun ln : Linkname => wordBytes ln.ln_addr) 8 (varPlaces li)
    li.li_vars (by simp [varPlaces]) (by intro ln _; simp [wordBytes])
  have h1 : (funcrefPlaces li).length = li.li_undef_funcs.length := by simp [funcrefPlaces]
  have h2 : (varrefPlaces li).length = li.li_undef_vars.length := by simp [varrefPlaces]
  unfold linkSection
  simp only [List.length_append, length_words, length_relocs, hfuncs, hvars, h1, h2]
  omega

theorem length_textSection (li : Linkinfo) :
    (textSection li).length = li.li_text.length + li.li_data.length +
      8 * li.li_static_rps.length + 8 * li.li_static_funcrps.length +
      16 * li.li_ext_relocs.length + 8 * li.li_funcaddrs.length := by
  unfold textSection
  simp only [List.length_append, length_words, length_relocs]
  omega

/-- The size formula of the header gives the size of the file. -/
theorem headerSize_toNat {li : Linkinfo} (h : WellFormed li) (symtab_size : Taddr)
    (hsym : symtab_size.toNat < 2 ^ 31) :
    (headerSize (header li symtab_size)).toNat =
      160 + (linkSection li ++ textSection li).length + symtab_size.toNat := by
  have hc := h.counts_fit
  simp only [List.mem_cons, List.not_mem_nil, or_false, forall_eq_or_imp, forall_eq] at hc
  have hs := h.sections_fit
  have ht := h.table_fits
  have hstrings := ofCInt_toNat _ ht
  rw [List.length_append, length_linkSection, length_textSection]
  -- the whole size is computed without overflow, so it is reduced once only
  have hsize : headerSize (header li symtab_size) = BitVec.ofNat 64 (160 +
      (li.li_undef_funcs.length + li.li_undef_vars.length + li.li_funcaddrs.length +
        li.li_static_rps.length + li.li_static_funcrps.length + li.li_extdata_funcrelocs.length +
        2 * (li.li_funcs.length + li.li_vars.length + li.li_extdata_relocs.length +
          li.li_ext_relocs.length)) * 8 +
      (ofCInt (table (names li)).length).toNat + li.li_extdata.length + li.li_text.length +
      li.li_data.length + symtab_size.toNat) := by
    simp only [BitVec.ofNat_add, BitVec.ofNat_mul, BitVec.ofNat_toNat, BitVec.setWidth_eq]
    rfl
  rw [hsize, hstrings, BitVec.toNat_ofNat, Nat.mod_eq_of_lt (by omega)]
  omega

/-- The relocations of the file that is read are attached to the names of the file written. -/
theorem attached_linkBack (li : Linkinfo) (te : TextEtc) (syms : List Symfunc × List CString) :
    attached (linkBack li te syms) = attached li := by
  funext er
  unfold attached varName linkBack
  rw [List.map_map]
  congr 4
  exact List.map_id _

theorem undef_funcs_linkBack {li : Linkinfo} (h : WellFormed li) (te : TextEtc)
    (syms : List Symfunc × List CString) :
    (linkBack li te syms).li_undef_funcs.map (fun lf => (lf.lf_name, lf.lf_index)) =
      li.li_undef_funcs.map fun lf => (lf.lf_name, lf.lf_index) := by
  unfold linkBack
  apply List.ext_getElem?
  intro i
  simp only [List.getElem?_map, List.getElem?_mapIdx, Option.map_map]
  cases hi : li.li_undef_funcs[i]? with
  | none => rfl
  | some lf =>
    have hindex := h.func_index i lf hi
    simp [hindex]

theorem readsAs_linkBack {m : Member} (h : WellFormed m.li) (full : Bool) (symtab_size : Taddr)
    (syms : List Symfunc × List CString)
    (hfuncs : m.syminfo.isSome = true →
      syms.1.map (fun sf => (sf.sf_name, sf.sf_addr, sf.sf_letab.length)) =
        m.li.li_symfuncs.map fun sf => (sf.sf_name, sf.sf_addr, sf.sf_letab.length))
    (hvars : m.syminfo.isSome = true → syms.2 = m.li.li_symvars) :
    ReadsAs full m 0 ⟨0#64, linkBack m.li (if full then textBack m.li else {}) syms,
      header m.li symtab_size⟩ where
  offset := rfl
  bss_size := rfl
  extbss_size := rfl
  text_size := section_toNat h (by omega)
  data_size := section_toNat h (by omega)
  nfuncaddrs := ofNat_toNat_of_fits (h.counts_fit _ (by simp))
  srcpath := rfl
  undef_funcs := undef_funcs_linkBack h _ _
  undef_vars := by
    unfold linkBack
    rw [List.map_map]
    exact List.map_id _
  funcs := rfl
  vars := rfl
  extdata := rfl
  extdata_relocs := by
    rw [attached_linkBack]
    exact (List.reverse_perm _).map _
  extdata_funcrelocs := List.reverse_perm _
  text := by
    rintro rfl
    rfl
  data := by
    rintro rfl
    rfl
  static_rps := by
    rintro rfl
    exact List.reverse_perm _
  static_funcrps := by
    rintro rfl
    exact List.reverse_perm _
  ext_relocs := by
    rintro rfl
    rw [attached_linkBack]
    exact (List.reverse_perm _).map _
  funcaddrs := by
    rintro rfl
    rfl
  symfuncs := hfuncs
  symvars := hvars

/-- The symbol table of a member: its bytes, its size and what is read back of it. -/
theorem symtab_of_ok {m : Member} (h : m.Ok) : ∃ symtab symtab_size syms,
    symtabOf m.li m.syminfo = some (symtab, symtab_size) ∧
    symtab_size.toNat = symtab.length ∧ symtab.length < 2 ^ 31 ∧
    Parses (readSymtabIfAny symtab_size) syms symtab ∧
    (m.syminfo.isSome = true →
      syms.1.map (fun sf => (sf.sf_name, sf.sf_addr, sf.sf_letab.length)) =
        m.li.li_symfuncs.map fun sf => (sf.sf_name, sf.sf_addr, sf.sf_letab.length)) ∧
    (m.syminfo.isSome = true → syms.2 = m.li.li_symvars) := by
  cases hsym : m.syminfo with
  | none =>
    refine ⟨[], 0#64, ([], []), rfl, rfl, by decide, ?_, ?_, ?_⟩
    · unfold readSymtabIfAny
      rw [if_neg (by simp)]
      exact Parses.pure _
    · exact fun h => absurd h (by simp)
    · exact fun h => absurd h (by simp)
  | some sd =>
    have hok := h.sym sd (by rw [hsym]; rfl)
    obtain ⟨letabs, hletabs⟩ := writeLetabs_isSome m.li.li_symfuncs hok.lines_sorted
    obtain ⟨syms, hfuncs, hvars, hparses⟩ := parses_symtab hok hletabs
    have hfits := hok.fits letabs hletabs
    have hsize := @getSymtabSize_eq m.li sd letabs
    have hnat : (getSymtabSize (symHeader m.li sd letabs)).toNat =
        64 + (symSection m.li sd letabs).length + (symStrings m.li sd).length := by
      rw [hsize, ofCInt_toNat _ hfits]
    have hfields : ((symHeader m.li sd letabs).fields.flatMap wordBytes).length = 64 := by
      rw [length_words]
      rfl
    have hwrite := writeSymtab_eq m.li sd
    rw [hletabs, Option.map_some] at hwrite
    refine ⟨_, _, syms, hwrite, ?_, ?_, ?_, fun _ => hfuncs, fun _ => hvars⟩
    · rw [hnat, List.length_append, List.length_append, hfields]
      omega
    · rw [List.length_append, List.length_append, hfields]
      omega
    · have hne : getSymtabSize (symHeader m.li sd letabs) ≠ 0#64 := by
        intro h0
        rw [h0] at hnat
        simp at hnat
        omega
      unfold readSymtabIfAny
      rw [if_pos hne]
      exact hparses

theorem written_of_ok {m : Member} (h : m.Ok) : ∃ cx body, Written m cx body := by
  obtain ⟨symtab, symtab_size, syms, hsym, hsize, hlt, hparses, hfuncs, hvars⟩ := symtab_of_ok h
  refine ⟨header m.li symtab_size, linkSection m.li ++ textSection m.li ++ symtab, ?_, rfl, rfl,
    ?_, ?_⟩
  · unfold Member.file
    rw [ciWriteCxFile_eq m.li m.syminfo h.link, hsym, Option.map_some, Option.map_some]
    simp only [List.append_assoc]
  · rw [headerSize_toNat h.link symtab_size (by omega), hsize]
    simp only [List.length_append]
    omega
  · intro full
    exact ⟨_, readsAs_linkBack h.link full symtab_size syms hfuncs hvars,
      parses_cx h.link symtab_size full symtab syms hparses⟩

/-! ## A library -/

theorem getHeader_written {m : Member} {cx : CxHeader} {body : List (BitVec 8)}
    (h : Written m cx body) (rest : List (BitVec 8)) :
    getHeader ((headerFields cx).flatMap wordBytes ++ body ++ rest) =
      some ((cx, headerSize cx), body ++ rest) := by
  have hread := parses_header cx (body ++ rest)
  have hlen : ((headerFields cx).flatMap wordBytes).length = 160 := by
    rw [length_words]
    rfl
  have hne : (headerFields cx).flatMap wordBytes ++ (body ++ rest) ≠ [] := by
    intro h0
    have := congrArg List.length h0
    rw [List.length_append, hlen] at this
    simp at this
  rw [List.append_assoc]
  unfold getHeader
  rw [if_neg hne, hread]
  simp only [h.magic, h.version, ne_eq, not_true_eq_false, if_false]

theorem headerSize_ne_zero {m : Member} {cx : CxHeader} {body : List (BitVec 8)}
    (h : Written m cx body) : headerSize cx ≠ 0#64 := by
  intro h0
  have hsize := h.size
  rw [h0] at hsize
  simp at hsize
  omega

/-- Files that are written one after the other. -/
def AllWritten : List Member → List (List (BitVec 8)) → Prop :=
  List.Forall₂ fun m f => ∃ cx body, Written m cx body ∧
    f = (headerFields cx).flatMap wordBytes ++ body

/-- The elements of the list are the members from the offset `offset` on. -/
inductive Visits (full : Bool) : Nat → List Member → List (List (BitVec 8)) →
    List LinklistElt → Prop where
  | nil (offset : Nat) : Visits full offset [] [] []
  | cons {offset : Nat} {m : Member} {f : List (BitVec 8)} {ll : LinklistElt} {ms fs lls}
    (head : ReadsAs full m offset ll) (tail : Visits full (offset + f.length) ms fs lls) :
    Visits full offset (m :: ms) (f :: fs) (ll :: lls)

theorem ReadsAs.at {full : Bool} {m : Member} {ll : LinklistElt} (h : ReadsAs full m 0 ll)
    (offset : Nat) (hlt : offset < 2 ^ 63) :
    ReadsAs full m offset { ll with ll_offset := BitVec.ofNat 64 offset } :=
  { h with
    offset := by
      rw [BitVec.toNat_ofNat]
      exact Nat.mod_eq_of_lt (by omega) }

/-- One round of the loop, behind a header. -/
theorem readLibrary_succ {full : Bool} {size fuel : Nat} {cx cx' : CxHeader} {offset : Nat}
    {ll : LinklistElt} {nbytes : Taddr} {bs tail rest : List (BitVec 8)}
    (hcx : readCx cx full bs = some (ll, tail))
    (hheader : getHeader tail = some ((cx', nbytes), rest)) :
    readLibrary full size (fuel + 1) cx offset bs =
      if nbytes = 0#64 then some ([{ ll with ll_offset := BitVec.ofNat 64 offset }], rest)
      else (readLibrary full size fuel cx' (size - tail.length) rest).map
        fun r => ({ ll with ll_offset := BitVec.ofNat 64 offset } :: r.1, r.2) := by
  have hget : (get : Parser (List (BitVec 8))) tail = some (tail, tail) := rfl
  conv_lhs => unfold readLibrary
  simp only [bind, StateT.bind, hcx, Option.bind_some, hget, hheader]
  split
  · rfl
  · unfold StateT.bind
    cases readLibrary full size fuel cx' (size - tail.length) rest <;> rfl

/-- The loop over a library visits each member that is left, and then it ends. -/
theorem readLibrary_visits (full : Bool) (size fuel offset : Nat) (hsize : size < 2 ^ 63)
    {ms : List Member} {fs : List (List (BitVec 8))} (hms : AllWritten ms fs) {m : Member}
    {cx : CxHeader} {body : List (BitVec 8)} (hm : Written m cx body) (hfuel : ms.length < fuel)
    (hoffset : offset + (160 + body.length) + fs.flatten.length = size) :
    ∃ lls, readLibrary full size fuel cx offset (body ++ fs.flatten) = some (lls, []) ∧
      Visits full offset (m :: ms)
        (((headerFields cx).flatMap wordBytes ++ body) :: fs) lls := by
  induction hms generalizing m cx body fuel offset with
  | nil =>
    obtain ⟨ll, hll, hparses⟩ := hm.reads full
    obtain ⟨fuel, rfl⟩ : ∃ k, fuel = k + 1 := ⟨fuel - 1, by omega⟩
    have hat := hll.at offset (by omega)
    refine ⟨_, ?_, .cons hat (.nil _)⟩
    have hend : getHeader [] = some ((default, 0#64), []) := rfl
    rw [List.flatten_nil, readLibrary_succ (hparses _) hend]
    exact if_pos rfl
  | cons hm' hms ih =>
    rename_i m' f ms fs
    obtain ⟨ll, hll, hparses⟩ := hm.reads full
    obtain ⟨cx', body', hm', rfl⟩ := hm'
    obtain ⟨fuel, rfl⟩ : ∃ k, fuel = k + 1 := ⟨fuel - 1, by simp at hfuel; omega⟩
    have hat := hll.at offset (by omega)
    have hlen : ((headerFields cx).flatMap wordBytes ++ body).length = 160 + body.length := by
      rw [List.length_append, length_words]
      rfl
    have hlen' : ((headerFields cx').flatMap wordBytes ++ body').length =
        160 + body'.length := by
      rw [List.length_append, length_words]
      rfl
    rw [List.flatten_cons, List.length_append, hlen'] at hoffset
    -- the next member starts where this one ends
    have hnext : size - (((headerFields cx').flatMap wordBytes ++ body') ++ fs.flatten).length =
        offset + (160 + body.length) := by
      rw [List.length_append, hlen']
      omega
    obtain ⟨lls, hlls, hvisits⟩ := ih fuel (offset + (160 + body.length)) hm'
      (by simp at hfuel; omega) (by omega)
    refine ⟨_, ?_, .cons hat (hlen ▸ hvisits)⟩
    rw [List.flatten_cons, readLibrary_succ (hparses _) (getHeader_written hm' fs.flatten),
      if_neg (headerSize_ne_zero hm'), hnext, hlls]
    rfl

theorem allWritten_of_ok {ms : List Member} (h : ∀ m ∈ ms, m.Ok) : ∃ fs,
    ms.mapM Member.file = some fs ∧ AllWritten ms fs := by
  induction ms with
  | nil => exact ⟨[], rfl, .nil⟩
  | cons m ms ih =>
    obtain ⟨cx, body, hm⟩ := written_of_ok (h m List.mem_cons_self)
    obtain ⟨fs, hfs, hall⟩ := ih fun m' hm' => h m' (List.mem_cons_of_mem m hm')
    refine ⟨_, ?_, .cons ⟨cx, body, hm, rfl⟩ hall⟩
    rw [List.mapM_cons, hm.file, hfs]
    rfl

/-- Each member has at least its header, so that the bytes of the file are fuel enough. -/
theorem length_le_of_allWritten {ms : List Member} {fs : List (List (BitVec 8))}
    (h : AllWritten ms fs) : ms.length ≤ fs.flatten.length := by
  induction h with
  | nil => exact Nat.le_refl 0
  | cons hm hms ih =>
    obtain ⟨cx, body, hm, rfl⟩ := hm
    rw [List.length_cons, List.flatten_cons, List.length_append, List.length_append,
      length_words]
    have : (headerFields cx).length = 20 := rfl
    omega

/-! ## The law -/

/-- A library of any members, a single file among them, is written without a panic, and reading
it gives each member at its offset. -/
theorem an_object_file_is_read_back_as_it_was_written (ms : List Member) (hne : ms ≠ [])
    (hok : ∀ m ∈ ms, m.Ok) : ∃ fs, ms.mapM Member.file = some fs ∧
      (fs.flatten.length < 2 ^ 63 → ∀ full, ∃ lls,
        ciReadCxFile fs.flatten full = some lls ∧ Visits full 0 ms fs lls) := by
  obtain ⟨fs, hfs, hall⟩ := allWritten_of_ok hok
  refine ⟨fs, hfs, fun hsize full => ?_⟩
  cases hall with
  | nil => exact absurd rfl hne
  | cons hm hms =>
    rename_i m f ms fs
    obtain ⟨cx, body, hm, rfl⟩ := hm
    have hlen : ((headerFields cx).flatMap wordBytes).length = 160 := by
      rw [length_words]
      rfl
    have htotal : (((headerFields cx).flatMap wordBytes ++ body) :: fs).flatten.length =
        160 + body.length + fs.flatten.length := by
      rw [List.flatten_cons, List.length_append, List.length_append, hlen]
    have hcount := length_le_of_allWritten hms
    obtain ⟨lls, hlls, hvisits⟩ := readLibrary_visits full _ _ 0 hsize hms hm
      (show ms.length < 160 + body.length + fs.flatten.length by omega) (by omega)
    unfold ciReadCxFile
    rw [List.flatten_cons, getHeader_written hm fs.flatten]
    simp only [if_neg (headerSize_ne_zero hm)]
    rw [← List.flatten_cons, htotal, hm.size]
    by_cases halone : 160 + body.length + fs.flatten.length = 160 + body.length
    · -- a file of this size is no library
      have hempty : fs.flatten.length = 0 := by omega
      cases hms with
      | nil =>
        obtain ⟨ll, hll, hparses⟩ := hm.reads full
        rw [if_pos halone, hparses]
        exact ⟨_, rfl, .cons hll (.nil _)⟩
      | cons hm' hms =>
        have hlt := length_le_of_allWritten (.cons hm' hms)
        rw [hempty] at hlt
        exact absurd hlt (by simp)
    · rw [if_neg halone, if_pos (by omega), ← htotal]
      exact ⟨lls, by rw [← htotal] at hlls; rw [hlls]; rfl, hvisits⟩

/-- A file that defines `f`, uses `g` and `v`, and has a line number for `f`. -/
def smallMember : Member where
  li := { (default : Linkinfo) with
    li_srcpath := [0x61#8, 0x2e#8, 0x63#8]
    li_undef_funcs := [⟨[0x67#8], 0#64, -1⟩]
    li_undef_vars := [⟨[0x76#8], 0#64⟩]
    li_funcs := [⟨[0x66#8], 0#64⟩]
    li_text := [171#8, 0#8]
    li_ext_relocs := [⟨0#32, 0#64⟩]
    li_funcaddrs := [0#64]
    li_symfuncs := [⟨[0x66#8], 0#64, [⟨0#64, 1#32⟩]⟩] }
  syminfo := some ⟨[], [], 0#64, []⟩

theorem smallMember_ok : smallMember.Ok where
  link := {
    func_index := by
      intro i lf h
      match i with
      | 0 =>
        cases h
        rfl
      | i + 1 => simp [smallMember] at h
    no_nul := by decide
    table_fits := by decide
    counts_fit := by decide
    sections_fit := by decide }
  sym := by
    intro sd hsd
    cases hsd
    exact {
      no_nul := by decide
      lines_sorted := by
        intro sf hsf
        cases hsf with
        | head =>
          unfold LinesSorted
          decide
        | tail _ h => cases h
      fits := by
        intro letabs h
        cases h
        decide }

theorem a_library_of_two_small_files_is_read_back : ∃ fs,
    [smallMember, smallMember].mapM Member.file = some fs ∧
      (fs.flatten.length < 2 ^ 63 → ∀ full, ∃ lls,
        ciReadCxFile fs.flatten full = some lls ∧
          Visits full 0 [smallMember, smallMember] fs lls) :=
  an_object_file_is_read_back_as_it_was_written [smallMember, smallMember] (by simp) fun m hm => by
    have : m = smallMember := by simpa using hm
    exact this ▸ smallMember_ok

end ups_rules.cx_library
