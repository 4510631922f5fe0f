-- The laws of the `.ocx` files: what is written is read back, alone and as the members of a
-- library.
import Ups.CxFile

open le_bytes
open byte_parsing
open ups_rules.link_info
open ups_rules.cx_file

namespace ups_rules.cx_round_trip

/-! ## The string table -/

/-- The strings with their NUL bytes. -/
def table (ss : List CString) : List (BitVec 8) := ss.flatMap fun s => s ++ [0#8]

/-- The places of strings that are added one after the other. -/
def places (start : Nat) : List CString → List Taddr
  | [] => []
  | s :: ss => ofCInt start :: places (start + s.length + 1) ss

@[simp] theorem length_places (start : Nat) (ss : List CString) :
    (places start ss).length = ss.length := by
  induction ss generalizing start with
  | nil => rfl
  | cons s ss ih => simp [places, ih]

theorem table_append (ss ts : List CString) : table (ss ++ ts) = table ss ++ table ts := by
  unfold table
  exact List.flatMap_append

theorem table_cons (s : CString) (ss : List CString) :
    table (s :: ss) = s ++ [0#8] ++ table ss := List.flatMap_cons

theorem ofCInt_toNat (n : Nat) (h : n < 2 ^ 31) : (ofCInt n).toNat = n := by
  have hmod : n % 2 ^ 32 = n := Nat.mod_eq_of_lt (by omega)
  have hmsb : (BitVec.ofNat 32 n).msb = false := by
    rw [BitVec.msb_eq_false_iff_two_mul_lt, BitVec.toNat_ofNat, hmod]
    omega
  unfold ofCInt
  rw [BitVec.signExtend_eq_setWidth_of_msb_false hmsb, BitVec.toNat_setWidth, BitVec.toNat_ofNat,
    hmod]
  exact Nat.mod_eq_of_lt (by omega)

/-- A string is found again at its place, whatever stands before and behind it. -/
theorem cstrAt_place (before after : List (BitVec 8)) (s : CString) (h : 0#8 ∉ s)
    (hlen : before.length < 2 ^ 31) :
    cstrAt (before ++ (s ++ [0#8] ++ after)) (ofCInt before.length) = s := by
  unfold cstrAt
  rw [ofCInt_toNat _ hlen, List.drop_left, List.append_assoc, List.takeWhile_append_of_pos]
  · simp
  · intro c hc
    have hne : c ≠ 0#8 := fun h0 => h (h0 ▸ hc)
    simpa using hne

theorem cstrAt_places (before after : List (BitVec 8)) (ss : List CString)
    (h : ∀ s ∈ ss, 0#8 ∉ s) (hlen : (before ++ table ss).length < 2 ^ 31) :
    (places before.length ss).map (cstrAt (before ++ table ss ++ after)) = ss := by
  induction ss generalizing before with
  | nil => rfl
  | cons s ss ih =>
    have hs := h s List.mem_cons_self
    have hss := fun t ht => h t (List.mem_cons_of_mem s ht)
    rw [table_cons] at hlen ⊢
    simp only [List.length_append, List.length_cons, List.length_nil] at hlen
    have hnext := ih (before ++ (s ++ [0#8])) hss (by simp; omega)
    have hstart : (before ++ (s ++ [0#8])).length = before.length + s.length + 1 := by
      simp
      omega
    rw [hstart] at hnext
    have hassoc : before ++ (s ++ [0#8] ++ table ss) ++ after =
        before ++ (s ++ [0#8]) ++ table ss ++ after := by
      simp only [List.append_assoc]
    have hassoc2 : before ++ (s ++ [0#8] ++ table ss) ++ after =
        before ++ (s ++ [0#8] ++ (table ss ++ after)) := by
      simp only [List.append_assoc]
    unfold places
    rw [List.map_cons]
    congr 1
    · rw [hassoc2]
      exact cstrAt_place before _ s hs (by omega)
    · rw [hassoc]
      exact hnext

/-! ## What the writer writes -/

/-- The records of a list of names: the place of each and what is written behind it. -/
def records {β : Type} (tail : β → List (BitVec 8)) (ps : List Taddr) (l : List β) :
    List (BitVec 8) :=
  (List.zip ps l).flatMap fun pb => wordBytes pb.1 ++ tail pb.2

theorem saveString_eq (s : CString) (o : CxOut) :
    saveString s o = ⟨o.fp ++ wordBytes (ofCInt o.str_eb.length), o.str_eb ++ (s ++ [0#8])⟩ := rfl

/-- A loop that saves a name and writes more behind its place. -/
theorem save_loop {β : Type} (name : β → CString) (tail : β → List (BitVec 8)) (l : List β)
    (o : CxOut) :
    l.foldl (fun o b => fpWrite (tail b) (saveString (name b) o)) o =
      ⟨o.fp ++ records tail (places o.str_eb.length (l.map name)) l,
        o.str_eb ++ table (l.map name)⟩ := by
  induction l generalizing o with
  | nil => simp [records, table]
  | cons b l ih =>
    rw [List.foldl_cons, ih]
    simp [fpWrite, saveString_eq, records, places, table_cons, Nat.add_assoc]

/-- A loop that only writes. -/
theorem write_loop {β : Type} (tail : β → List (BitVec 8)) (l : List β) (o : CxOut) :
    l.foldl (fun o b => fpWrite (tail b) o) o = ⟨o.fp ++ l.flatMap tail, o.str_eb⟩ := by
  induction l generalizing o with
  | nil => simp
  | cons b l ih =>
    rw [List.foldl_cons, ih]
    simp [fpWrite]

def relocBytes (er : ExtReloc) : List (BitVec 8) :=
  wordBytes er.er_location ++ wordBytes (er.er_index.signExtend 64)

theorem writeLinknames_eq (lns : List Linkname) (o : CxOut) :
    writeLinknames lns o =
      ⟨o.fp ++ records (fun ln => wordBytes ln.ln_addr)
          (places o.str_eb.length (lns.map Linkname.ln_name)) lns,
        o.str_eb ++ table (lns.map Linkname.ln_name)⟩ :=
  save_loop Linkname.ln_name (fun ln => wordBytes ln.ln_addr) lns o

theorem writeStaticRelocs_eq (rps : List Taddr) (o : CxOut) :
    writeStaticRelocs rps o = ⟨o.fp ++ rps.flatMap wordBytes, o.str_eb⟩ :=
  write_loop wordBytes rps o

theorem writeExtRelocs_eq (ers : List ExtReloc) (o : CxOut) :
    writeExtRelocs ers o = ⟨o.fp ++ ers.flatMap relocBytes, o.str_eb⟩ := by
  have h := write_loop relocBytes ers o
  rw [← h]
  unfold writeExtRelocs
  congr 1
  funext o er
  simp [fpWriteVal, fpWrite, relocBytes]

theorem saveNames_eq {β : Type} (name : β → CString) (l : List β) (o : CxOut) :
    l.foldl (fun o b => saveString (name b) o) o =
      ⟨o.fp ++ (places o.str_eb.length (l.map name)).flatMap wordBytes,
        o.str_eb ++ table (l.map name)⟩ := by
  induction l generalizing o with
  | nil => simp [places, table]
  | cons b l ih =>
    rw [List.foldl_cons, ih]
    simp [saveString_eq, places, table_cons, Nat.add_assoc]

theorem writeFuncrefs_eq (lfs : List Libfunc) (n : Nat) (o : CxOut)
    (h : ∀ i lf, lfs[i]? = some lf → lf.lf_index = -((n + i : Nat) + 1 : Int)) :
    writeFuncrefs lfs n o = some (lfs.foldl (fun o lf => saveString lf.lf_name o) o) := by
  induction lfs generalizing n o with
  | nil => rfl
  | cons lf lfs ih =>
    have h0 := h 0 lf rfl
    unfold writeFuncrefs
    rw [if_neg (by rw [h0]; simp), List.foldl_cons]
    apply ih
    intro i lf' hi
    have := h (i + 1) lf' (by simpa using hi)
    rw [this]
    congr 2
    omega

/-- The names of a file in the order in which the writer notes them. -/
def names (li : Linkinfo) : List CString :=
  [li.li_srcpath] ++ li.li_undef_funcs.map Libfunc.lf_name ++
    li.li_undef_vars.map Linkname.ln_name ++ li.li_funcs.map Linkname.ln_name ++
    li.li_vars.map Linkname.ln_name

/-- The places of the four lists of names. -/
def funcrefPlaces (li : Linkinfo) : List Taddr :=
  places (table [li.li_srcpath]).length (li.li_undef_funcs.map Libfunc.lf_name)

def varrefPlaces (li : Linkinfo) : List Taddr :=
  places (table ([li.li_srcpath] ++ li.li_undef_funcs.map Libfunc.lf_name)).length
    (li.li_undef_vars.map Linkname.ln_name)

def funcPlaces (li : Linkinfo) : List Taddr :=
  places (table ([li.li_srcpath] ++ li.li_undef_funcs.map Libfunc.lf_name ++
    li.li_undef_vars.map Linkname.ln_name)).length (li.li_funcs.map Linkname.ln_name)

def varPlaces (li : Linkinfo) : List Taddr :=
  places (table ([li.li_srcpath] ++ li.li_undef_funcs.map Libfunc.lf_name ++
    li.li_undef_vars.map Linkname.ln_name ++ li.li_funcs.map Linkname.ln_name)).length
    (li.li_vars.map Linkname.ln_name)

/-- What the linker reads. -/
def linkSection (li : Linkinfo) : List (BitVec 8) :=
  (funcrefPlaces li).flatMap wordBytes ++
  ((varrefPlaces li).flatMap wordBytes ++
  (records (fun ln => wordBytes ln.ln_addr) (funcPlaces li) li.li_funcs ++
  (records (fun ln => wordBytes ln.ln_addr) (varPlaces li) li.li_vars ++
  (table (names li) ++
  (li.li_extdata ++
  (li.li_extdata_relocs.flatMap relocBytes ++
  li.li_extdata_funcrelocs.flatMap wordBytes))))))

/-- What is read when the text is loaded. -/
def textSection (li : Linkinfo) : List (BitVec 8) :=
  li.li_text ++
  (li.li_data ++
  (li.li_static_rps.flatMap wordBytes ++
  (li.li_static_funcrps.flatMap wordBytes ++
  (li.li_ext_relocs.flatMap relocBytes ++
  li.li_funcaddrs.flatMap wordBytes))))

def header (li : Linkinfo) (symtab_size : Taddr) : CxHeader where
  cx_magic := OCX_MAGIC
  cx_version := OCX_VERSION
  cx_bss_size := li.li_bss_size
  cx_extbss_size := li.li_extbss_size
  cx_srcpath := ofCInt 0
  cx_nfuncrefs := BitVec.ofNat 64 li.li_undef_funcs.length
  cx_nvarrefs := BitVec.ofNat 64 li.li_undef_vars.length
  cx_nfuncs := BitVec.ofNat 64 li.li_funcs.length
  cx_nvars := BitVec.ofNat 64 li.li_vars.length
  cx_strings_size := ofCInt (table (names li)).length
  cx_extdata_size := BitVec.ofNat 64 li.li_extdata.length
  cx_n_extdata_relocs := BitVec.ofNat 64 li.li_extdata_relocs.length
  cx_n_extdata_funcrelocs := BitVec.ofNat 64 li.li_extdata_funcrelocs.length
  cx_text_size := BitVec.ofNat 64 li.li_text.length
  cx_data_size := BitVec.ofNat 64 li.li_data.length
  cx_n_static_relocs := BitVec.ofNat 64 li.li_static_rps.length
  cx_n_static_funcrelocs := BitVec.ofNat 64 li.li_static_funcrps.length
  cx_n_ext_relocs := BitVec.ofNat 64 li.li_ext_relocs.length
  cx_nfuncaddrs := BitVec.ofNat 64 li.li_funcaddrs.length
  cx_symtab_size := symtab_size

/-- The symbol table and its size, without symbol information both nothing. -/
def symtabOf (li : Linkinfo) : Option Symdata → Option (List (BitVec 8) × Taddr)
  | none => some ([], 0#64)
  | some sd => writeSymtab li sd

/-- What `ci_compile` promises of a file: undefined functions numbered downwards from -1, names
that are C strings, and sizes that its ints can hold. -/
structure WellFormed (li : Linkinfo) : Prop where
  func_index : ∀ i lf, li.li_undef_funcs[i]? = some lf → lf.lf_index = -(((i : Nat) : Int) + 1)
  no_nul : ∀ s ∈ names li, 0#8 ∉ s
  table_fits : (table (names li)).length < 2 ^ 31
  counts_fit : ∀ n ∈ [li.li_undef_funcs.length, li.li_undef_vars.length, li.li_funcs.length,
    li.li_vars.length, li.li_extdata_relocs.length, li.li_extdata_funcrelocs.length,
    li.li_static_rps.length, li.li_static_funcrps.length, li.li_ext_relocs.length,
    li.li_funcaddrs.length], n < 2 ^ 31
  sections_fit : li.li_text.length + li.li_data.length + li.li_extdata.length < 2 ^ 62

/-- The file in closed form. -/
theorem ciWriteCxFile_eq (li : Linkinfo) (syminfo : Option Symdata) (h : WellFormed li) :
    ciWriteCxFile li syminfo = (symtabOf li syminfo).map fun sym =>
      (header li sym.2, (headerFields (header li sym.2)).flatMap wordBytes ++
        (linkSection li ++ textSection li) ++ sym.1) := by
  have hfuncs := fun o => writeFuncrefs_eq li.li_undef_funcs 0 o fun i lf hi => by
    rw [h.func_index i lf hi]
    simp
  have hsaved := fun o => saveNames_eq Libfunc.lf_name li.li_undef_funcs o
  have hvars := fun o => saveNames_eq Linkname.ln_name li.li_undef_vars o
  unfold ciWriteCxFile
  simp only [noteString, hfuncs, hsaved, hvars, writeLinknames_eq, writeStaticRelocs_eq,
    writeExtRelocs_eq, fpWrite, Option.bind_eq_bind, Option.bind_some]
  cases syminfo with
  | none =>
    simp [symtabOf, header, linkSection, funcrefPlaces, varrefPlaces, funcPlaces, varPlaces,
      textSection, names, table]
  | some sd =>
    simp only [symtabOf]
    cases writeSymtab li sd with
    | none => rfl
    | some sym =>
      simp [header, linkSection, funcrefPlaces, varrefPlaces, funcPlaces, varPlaces, textSection,
        names, table]

/-! ## What the reader reads -/

theorem parses_header (cx : CxHeader) :
    Parses readHeader cx ((headerFields cx).flatMap wordBytes) := by
  unfold readHeader headerFields
  simp only [List.flatMap_cons, List.flatMap_nil]
  iterate 20 refine (parses_word _).bind ?_
  exact Parses.pure _

theorem parses_oSyminfo (os : OSyminfo) :
    Parses readOSyminfo os (os.fields.flatMap wordBytes) := by
  unfold readOSyminfo OSyminfo.fields
  simp only [List.flatMap_cons, List.flatMap_nil]
  iterate 8 refine (parses_word _).bind ?_
  exact Parses.pure _

theorem ofNat_toNat_of_fits {n : Nat} (h : n < 2 ^ 31) : (BitVec.ofNat 64 n).toNat = n := by
  rw [BitVec.toNat_ofNat]
  exact Nat.mod_eq_of_lt (by omega)

theorem parses_words (vs : List Taddr) :
    Parses (many vs.length word) vs (vs.flatMap wordBytes) := by
  have h := parses_many wordBytes id vs fun v _ => parses_word v
  rwa [List.map_id] at h

theorem parses_staticRelocs (rps : List Taddr) (h : rps.length < 2 ^ 31) :
    Parses (readStaticRelocs (BitVec.ofNat 64 rps.length)) rps.reverse
      (rps.flatMap wordBytes) := by
  unfold readStaticRelocs
  rw [ofNat_toNat_of_fits h]
  exact (parses_words rps).map List.reverse

theorem parses_extReloc (er : ExtReloc) : Parses readExtReloc er (relocBytes er) := by
  unfold readExtReloc relocBytes
  have hindex : (er.er_index.signExtend 64).setWidth 32 = er.er_index := by
    apply BitVec.eq_of_getLsbD_eq
    intro i hi
    simp [BitVec.getLsbD_signExtend, hi]
    omega
  have hmap := (parses_word (er.er_index.signExtend 64)).map fun index =>
    ({ er_index := index.setWidth 32, er_location := er.er_location } : ExtReloc)
  rw [hindex] at hmap
  exact (parses_word er.er_location).bind hmap

theorem parses_extRelocs (ers : List ExtReloc) (h : ers.length < 2 ^ 31) :
    Parses (readExtRelocs (BitVec.ofNat 64 ers.length)) ers.reverse (ers.flatMap relocBytes) := by
  have hmany := parses_many relocBytes id ers fun er _ => parses_extReloc er
  rw [List.map_id] at hmany
  unfold readExtRelocs
  rw [ofNat_toNat_of_fits h]
  exact hmany.map List.reverse

/-- The pairs that are read for a list of names. -/
def pairs (ps : List Taddr) (lns : List Linkname) : List (Taddr × Taddr) :=
  (List.zip ps lns).map fun pb => (pb.1, pb.2.ln_addr)

theorem parses_linknames (ps : List Taddr) (lns : List Linkname) (hps : ps.length = lns.length)
    (h : lns.length < 2 ^ 31) :
    Parses (readLinknames (BitVec.ofNat 64 lns.length)) (pairs ps lns)
      (records (fun ln => wordBytes ln.ln_addr) ps lns) := by
  have hone : ∀ pb ∈ List.zip ps lns,
      Parses (do let name ← word; let addr ← word; return (name, addr))
        (pb.1, pb.2.ln_addr) (wordBytes pb.1 ++ wordBytes pb.2.ln_addr) := by
    intro pb _
    exact (parses_word pb.1).bind ((parses_word pb.2.ln_addr).map fun addr => (pb.1, addr))
  have hmany := parses_many _ _ _ hone
  rw [List.length_zip, hps, Nat.min_self] at hmany
  unfold readLinknames
  rw [ofNat_toNat_of_fits h]
  exact hmany

/-- The names that the places point at are the ones written. -/
theorem pairs_named (strings : List (BitVec 8)) (ps : List Taddr) (lns : List Linkname)
    (hps : ps.length = lns.length) (h : ps.map (cstrAt strings) = lns.map Linkname.ln_name) :
    (pairs ps lns).map (fun w => (⟨cstrAt strings w.1, w.2⟩ : Linkname)) = lns := by
  unfold pairs
  apply List.ext_getElem
  · simp [hps]
  · intro i h1 h2
    have hi : i < ps.length := by omega
    have hname := congrArg (fun l => l[i]?) h
    simp only [List.getElem?_map, List.getElem?_eq_getElem hi, List.getElem?_eq_getElem h2,
      Option.map_some, Option.some.injEq] at hname
    simp [hname]

theorem length_words (vs : List Taddr) : (vs.flatMap wordBytes).length = 8 * vs.length := by
  induction vs with
  | nil => rfl
  | cons v vs ih =>
    rw [List.flatMap_cons, List.length_append, ih, List.length_cons]
    unfold wordBytes
    rw [length_leBytes]
    omega

theorem length_relocs (ers : List ExtReloc) :
    (ers.flatMap relocBytes).length = 16 * ers.length := by
  induction ers with
  | nil => rfl
  | cons er ers ih =>
    rw [List.flatMap_cons, List.length_append, ih, List.length_cons]
    unfold relocBytes wordBytes
    rw [List.length_append, length_leBytes, length_leBytes]
    omega

/-- What is read of the text section; the relocations come out in the opposite order. -/
def textBack (li : Linkinfo) : TextEtc where
  te_text := li.li_text
  te_data := li.li_data
  te_static_rps := li.li_static_rps.reverse
  te_static_funcrps := li.li_static_funcrps.reverse
  te_ext_relocs := li.li_ext_relocs.reverse
  te_funcaddrs := li.li_funcaddrs

section
variable {li : Linkinfo} (h : WellFormed li) (symtab_size : Taddr)
include h

theorem section_toNat {n : Nat} (hn : n ≤ li.li_text.length + li.li_data.length +
    li.li_extdata.length) : (BitVec.ofNat 64 n).toNat = n := by
  have := h.sections_fit
  rw [BitVec.toNat_ofNat]
  exact Nat.mod_eq_of_lt (by omega)

theorem parses_textEtc :
    Parses (readTextEtc (header li symtab_size)) (textBack li) (textSection li) := by
  have htext := section_toNat h (show li.li_text.length ≤ _ by omega)
  have hdata := section_toNat h (show li.li_data.length ≤ _ by omega)
  have hfuncaddrs := ofNat_toNat_of_fits (h.counts_fit li.li_funcaddrs.length (by simp))
  unfold readTextEtc textSection header
  simp only [htext, hdata, hfuncaddrs]
  refine (parses_bytes li.li_text).bind ?_
  refine (parses_bytes li.li_data).bind ?_
  refine (parses_staticRelocs _ (h.counts_fit _ (by simp))).bind ?_
  refine (parses_staticRelocs _ (h.counts_fit _ (by simp))).bind ?_
  refine (parses_extRelocs _ (h.counts_fit _ (by simp))).bind ?_
  exact (parses_words li.li_funcaddrs).map fun te_funcaddrs =>
    { textBack li with te_funcaddrs := te_funcaddrs }

theorem parses_skipText :
    Parses (do skip (textEtcNbytes (header li symtab_size)).toNat; pure ({} : TextEtc)) {}
      (textSection li) := by
  have hlen : (textEtcNbytes (header li symtab_size)).toNat = (textSection li).length := by
    have h1 := h.counts_fit li.li_static_rps.length (by simp)
    have h2 := h.counts_fit li.li_static_funcrps.length (by simp)
    have h3 := h.counts_fit li.li_ext_relocs.length (by simp)
    have h4 := h.counts_fit li.li_funcaddrs.length (by simp)
    have h5 := h.sections_fit
    -- the whole size is computed without overflow, so it is reduced once only
    have hsize : textEtcNbytes (header li symtab_size) = BitVec.ofNat 64 (li.li_text.length +
        li.li_data.length + li.li_static_rps.length * 8 + li.li_static_funcrps.length * 8 +
        li.li_ext_relocs.length * 2 * 8 + li.li_funcaddrs.length * 8) := by
      simp only [BitVec.ofNat_add, BitVec.ofNat_mul]
      rfl
    unfold textSection
    simp only [List.length_append, length_words, length_relocs]
    rw [hsize, BitVec.toNat_ofNat, Nat.mod_eq_of_lt (by omega)]
    omega
  rw [hlen]
  have hskip := (parses_skip (textSection li)).map fun _ => ({} : TextEtc)
  exact hskip

theorem parses_text (full : Bool) :
    Parses (readOrSkipText (header li symtab_size) full) (if full then textBack li else {})
      (textSection li) := by
  cases full with
  | true => exact parses_textEtc h symtab_size
  | false => exact parses_skipText h symtab_size

/-- The names in the middle of the list are found at their places. -/
theorem cstrAt_names (before ss after : List CString) (hnames : names li = before ++ ss ++ after) :
    (places (table before).length ss).map (cstrAt (table (names li))) = ss := by
  have hnul := h.no_nul
  have hfits := h.table_fits
  rw [hnames] at hnul hfits
  rw [hnames, table_append, table_append]
  rw [table_append, table_append, List.length_append] at hfits
  apply cstrAt_places
  · intro s hs
    exact hnul s (by simp [hs])
  · omega

/-- What is read back of a file. -/
def linkBack (li : Linkinfo) (te : TextEtc) (syms : List Symfunc × List CString) : Linkinfo where
  li_bss_size := li.li_bss_size
  li_extbss_size := li.li_extbss_size
  li_srcpath := li.li_srcpath
  li_undef_funcs := (li.li_undef_funcs.map Libfunc.lf_name).mapIdx fun i s =>
    ⟨s, 0#64, -((i : Int) + 1)⟩
  li_undef_vars := (li.li_undef_vars.map Linkname.ln_name).map fun s => ⟨s, 0#64⟩
  li_funcs := li.li_funcs
  li_vars := li.li_vars
  li_extdata := li.li_extdata
  li_extdata_relocs := li.li_extdata_relocs.reverse
  li_extdata_funcrelocs := li.li_extdata_funcrelocs.reverse
  li_static_rps := te.te_static_rps
  li_static_funcrps := te.te_static_funcrps
  li_ext_relocs := te.te_ext_relocs
  li_funcaddrs := te.te_funcaddrs
  li_text := te.te_text
  li_data := te.te_data
  li_symfuncs := syms.1
  li_symvars := syms.2

theorem makeLinkinfo_eq (te : TextEtc) (syms : List Symfunc × List CString) :
    makeLinkinfo (header li symtab_size) (funcrefPlaces li) (varrefPlaces li)
      (pairs (funcPlaces li) li.li_funcs) (pairs (varPlaces li) li.li_vars) (table (names li))
      li.li_extdata li.li_extdata_relocs.reverse li.li_extdata_funcrelocs.reverse te syms =
      linkBack li te syms := by
  have hsrc : cstrAt (table (names li)) (ofCInt 0) = li.li_srcpath := by
    have hplace := cstrAt_names h [] [li.li_srcpath] _
      (by unfold names; simp only [List.append_assoc, List.nil_append]; rfl)
    simpa [places, table] using hplace
  have hfuncrefs : (funcrefPlaces li).map (cstrAt (table (names li))) = _ :=
    cstrAt_names h [li.li_srcpath] (li.li_undef_funcs.map Libfunc.lf_name) _
      (by unfold names; simp only [List.append_assoc]; rfl)
  have hvarrefs : (varrefPlaces li).map (cstrAt (table (names li))) = _ :=
    cstrAt_names h _ (li.li_undef_vars.map Linkname.ln_name) _
      (by unfold names; simp only [List.append_assoc]; rfl)
  have hfuncs := pairs_named (table (names li)) (funcPlaces li) li.li_funcs
    (by simp [funcPlaces]) (cstrAt_names h _ _ (li.li_vars.map Linkname.ln_name) rfl)
  have hvars := pairs_named (table (names li)) (varPlaces li) li.li_vars
    (by simp [varPlaces]) (cstrAt_names h _ _ [] (by rw [List.append_nil]; rfl))
  have hindexed : (funcrefPlaces li).mapIdx
      (fun i w => (⟨cstrAt (table (names li)) w, 0#64, -((i : Int) + 1)⟩ : Libfunc)) =
      (li.li_undef_funcs.map Libfunc.lf_name).mapIdx fun i s => ⟨s, 0#64, -((i : Int) + 1)⟩ := by
    rw [← hfuncrefs]
    apply List.ext_getElem?
    intro i
    simp only [List.getElem?_mapIdx, List.getElem?_map, Option.map_map]
    rfl
  have hnamed : (varrefPlaces li).map
      (fun w => (⟨cstrAt (table (names li)) w, 0#64⟩ : Linkname)) =
      (li.li_undef_vars.map Linkname.ln_name).map fun s => ⟨s, 0#64⟩ := by
    rw [← hvarrefs, List.map_map]
    rfl
  unfold makeLinkinfo linkBack header
  simp only [hsrc, hindexed, hnamed, hfuncs, hvars]

/-- `read_cx` reads a file back. -/
theorem parses_cx (full : Bool) (symtab : List (BitVec 8)) (syms : List Symfunc × List CString)
    (hsym : Parses (readSymtabIfAny symtab_size) syms symtab) :
    Parses (readCx (header li symtab_size) full)
      ⟨0#64, linkBack li (if full then textBack li else {}) syms, header li symtab_size⟩
      (linkSection li ++ textSection li ++ symtab) := by
  have hfuncrefs := ofNat_toNat_of_fits (h.counts_fit li.li_undef_funcs.length (by simp))
  have hvarrefs := ofNat_toNat_of_fits (h.counts_fit li.li_undef_vars.length (by simp))
  have hextdata := section_toNat h (show li.li_extdata.length ≤ _ by omega)
  have hstrings := ofCInt_toNat _ h.table_fits
  have hwords1 := parses_words (funcrefPlaces li)
  have hwords2 := parses_words (varrefPlaces li)
  rw [show (funcrefPlaces li).length = li.li_undef_funcs.length by simp [funcrefPlaces],
    ← hfuncrefs] at hwords1
  rw [show (varrefPlaces li).length = li.li_undef_vars.length by simp [varrefPlaces],
    ← hvarrefs] at hwords2
  have hbytes1 := parses_bytes (table (names li))
  rw [← hstrings] at hbytes1
  have hbytes2 := parses_bytes li.li_extdata
  rw [← hextdata] at hbytes2
  rw [← makeLinkinfo_eq h symtab_size]
  unfold readCx linkSection
  simp only [List.append_assoc]
  refine hwords1.bind ?_
  refine hwords2.bind ?_
  refine (parses_linknames _ _ (by simp [funcPlaces]) (h.counts_fit _ (by simp))).bind ?_
  refine (parses_linknames _ _ (by simp [varPlaces]) (h.counts_fit _ (by simp))).bind ?_
  refine hbytes1.bind ?_
  refine hbytes2.bind ?_
  refine (parses_extRelocs _ (h.counts_fit _ (by simp))).bind ?_
  refine (parses_staticRelocs _ (h.counts_fit _ (by simp))).bind ?_
  refine (parses_text h symtab_size full).bind ?_
  exact hsym.map _

end

end ups_rules.cx_round_trip
