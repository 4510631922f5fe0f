-- The symbol table of a `.ocx` file is read back as far as it is read: the functions with their
-- addresses, the number of their lines, and the names of the variables. The line numbers are
-- only shown to fill their bytes.
import Ups.CxRoundTrip

open le_bytes
open byte_parsing
open ups_rules.link_info
open ups_rules.cx_file
open ups_rules.cx_round_trip

namespace ups_rules.cx_symtab

/-! ## The line numbers -/

theorem unpackEntries_succ_absolute (n : Nat) (lnum addr : BitVec 32) (w0 w1 : Taddr)
    (out : List LnumEntry) (bs : List (BitVec 8))
    (h : Parses (unpackEntries n (w0.setWidth 32) (w1.setWidth 32)) out bs) :
    Parses (unpackEntries (n + 1) lnum addr)
      (⟨(w1.setWidth 32).signExtend 64, w0.setWidth 32⟩ :: out)
      (leBytes 2 256 ++ wordBytes w0 ++ wordBytes w1 ++ bs) := by
  have hbytes := parses_bytes (leBytes 2 256)
  rw [length_leBytes] at hbytes
  have hval : ofLeBytes (leBytes 2 256) = 256 := by decide
  unfold unpackEntries
  simp only [List.append_assoc]
  refine hbytes.bind ?_
  rw [hval]
  simp only [show BitVec.ofNat 32 (256 % 256) = 0#32 by decide, and_self, if_true]
  refine (parses_word w0).bind ?_
  refine (parses_word w1).bind ?_
  exact h.map fun les => ⟨(w1.setWidth 32).signExtend 64, w0.setWidth 32⟩ :: les

/-- An entry of two bytes whose sign is not that of a zero. -/
theorem unpackEntries_succ_relative (n sval : Nat) (bs : List (BitVec 8)) (hs : sval < 65536) (lnum addr : BitVec 32)
    (hzero : ¬(sval / 256 % 2 = 1 ∧ sval % 256 = 0)) (h : ∀ lnum addr, ∃ out,
      out.length = n ∧ Parses (unpackEntries n lnum addr) out bs) :
    ∃ out, out.length = n + 1 ∧ Parses (unpackEntries (n + 1) lnum addr) out
      (leBytes 2 sval ++ bs) := by
  have hbytes := parses_bytes (leBytes 2 sval)
  rw [length_leBytes] at hbytes
  have hval : ofLeBytes (leBytes 2 sval) = sval := by
    rw [ofLeBytes_leBytes]
    exact Nat.mod_eq_of_lt (by omega)
  have hne : ¬(sval / 256 % 2 = 1 ∧ BitVec.ofNat 32 (sval % 256) = 0#32) := by
    rintro ⟨h1, h2⟩
    have h3 := congrArg BitVec.toNat h2
    rw [BitVec.toNat_ofNat, Nat.mod_eq_of_lt (by omega)] at h3
    exact hzero ⟨h1, by simpa using h3⟩
  let lnum' := lnum + BitVec.ofNat 32 (sval / 512)
  let addr' := addr + if sval / 256 % 2 = 1 then -BitVec.ofNat 32 (sval % 256)
    else BitVec.ofNat 32 (sval % 256)
  obtain ⟨out, hlen, hout⟩ := h lnum' addr'
  refine ⟨⟨addr'.signExtend 64, lnum'⟩ :: out, by rw [List.length_cons, hlen], ?_⟩
  unfold unpackEntries
  refine hbytes.bind ?_
  rw [hval]
  simp only [hne, if_false]
  exact hout.map fun les => ⟨addr'.signExtend 64, lnum'⟩ :: les

/-- The bytes of the entries of a function are read as so many entries. -/
theorem parses_letab (les : List LnumEntry) (lnum addr : BitVec 32) (bs : List (BitVec 8))
    (h : writeLetab les lnum addr = some bs) (lnum' addr' : BitVec 32) :
    ∃ out, out.length = les.length ∧ Parses (unpackEntries les.length lnum' addr') out bs := by
  induction les generalizing lnum addr bs lnum' addr' with
  | nil =>
    cases h
    exact ⟨[], rfl, Parses.pure []⟩
  | cons le les ih =>
    unfold writeLetab at h
    simp only at h
    split at h
    case isTrue => cases h
    case isFalse hpos =>
      cases hrest : writeLetab les le.le_lnum (le.le_addr.setWidth 32) with
      | none => rw [hrest] at h; cases h
      | some rest =>
        rw [hrest, Option.map_some, Option.some.injEq] at h
        subst h
        split
        case isTrue hsmall =>
          apply unpackEntries_succ_relative
          · split <;> omega
          · split <;> omega
          · exact ih _ _ rest hrest
        case isFalse =>
          obtain ⟨out, hlen, hout⟩ := ih _ _ rest hrest
            ((le.le_lnum.signExtend 64).setWidth 32) (le.le_addr.setWidth 32)
          have habs := unpackEntries_succ_absolute les.length lnum' addr'
            (le.le_lnum.signExtend 64) le.le_addr out rest hout
          exact ⟨_, by rw [List.length_cons, List.length_cons, hlen], habs⟩

/-- Lines that a C source has, in the order in which `make_symfuncs` leaves them. -/
def LinesSorted (les : List LnumEntry) : Prop :=
  (∀ le ∈ les, 0 ≤ le.le_lnum.toInt ∧ le.le_lnum.toInt < 2 ^ 31 - 1000) ∧
  les.Pairwise fun a b => a.le_lnum.toInt ≤ b.le_lnum.toInt

theorem delta_nonneg (a b : BitVec 32) (h : b.toInt ≤ a.toInt) (ha : a.toInt < 2 ^ 31 - 1000)
    (hb : -1000 ≤ b.toInt) : ¬(a - b).toInt < 0 := by
  have hbmod : (a.toInt - b.toInt).bmod (2 ^ 32) = a.toInt - b.toInt := by
    apply Int.bmod_eq_of_le_mul_two
    · push_cast
      omega
    · push_cast
      omega
  rw [BitVec.toInt_sub, hbmod]
  omega

theorem writeLetab_isSome (les : List LnumEntry) (lnum addr : BitVec 32) (h : LinesSorted les)
    (hlo : -1000 ≤ lnum.toInt) (hfirst : ∀ le ∈ les, lnum.toInt ≤ le.le_lnum.toInt) :
    ∃ bs, writeLetab les lnum addr = some bs := by
  induction les generalizing lnum addr with
  | nil => exact ⟨[], rfl⟩
  | cons le les ih =>
    obtain ⟨hlines, hsorted⟩ := h
    rw [List.pairwise_cons] at hsorted
    have hle := hlines le List.mem_cons_self
    obtain ⟨bs, hbs⟩ := ih le.le_lnum (le.le_addr.setWidth 32)
      ⟨fun x hx => hlines x (List.mem_cons_of_mem le hx), hsorted.2⟩ (by omega) hsorted.1
    have hpos := delta_nonneg le.le_lnum lnum (hfirst le List.mem_cons_self) hle.2 hlo
    unfold writeLetab
    simp only [hpos, if_false, hbs, Option.map_some]
    exact ⟨_, rfl⟩

theorem writeLetabs_isSome (sfs : List Symfunc) (h : ∀ sf ∈ sfs, LinesSorted sf.sf_letab) :
    ∃ bs, writeLetabs sfs = some bs := by
  induction sfs with
  | nil => exact ⟨[], rfl⟩
  | cons sf sfs ih =>
    have hsf := h sf List.mem_cons_self
    obtain ⟨cs, hcs⟩ := ih fun x hx => h x (List.mem_cons_of_mem sf hx)
    obtain ⟨bs, hbs⟩ := writeLetab_isSome sf.sf_letab (-1000) 0 hsf (by decide) fun le hle => by
      have hline := (hsf.1 le hle).1
      exact Int.le_trans (by decide) hline
    unfold writeLetabs
    rw [hbs, hcs]
    exact ⟨bs ++ cs, rfl⟩

/-- The tables of all functions are read to their end. -/
theorem parses_letabs (sfs : List Symfunc) (bs : List (BitVec 8)) (h : writeLetabs sfs = some bs) :
    ∃ outs, outs.map List.length = sfs.map (fun sf => sf.sf_letab.length) ∧
      Parses (unpackLetab (sfs.map fun sf => sf.sf_letab.length)) outs bs := by
  induction sfs generalizing bs with
  | nil =>
    cases h
    exact ⟨[], rfl, Parses.pure []⟩
  | cons sf sfs ih =>
    unfold writeLetabs at h
    cases hbs : writeLetab sf.sf_letab (-1000) 0 with
    | none =>
      rw [hbs] at h
      cases h
    | some bs1 =>
      cases hcs : writeLetabs sfs with
      | none =>
        rw [hbs, hcs] at h
        cases h
      | some bs2 =>
        simp only [hbs, hcs, Option.some.injEq] at h
        subst h
        obtain ⟨out, hlen, hout⟩ := parses_letab _ _ _ _ hbs 0 0
        obtain ⟨outs, hlens, houts⟩ := ih bs2 hcs
        refine ⟨out :: outs, by rw [List.map_cons, List.map_cons, hlen, hlens], ?_⟩
        exact hout.bind (houts.map fun rest => out :: rest)

theorem unpackAll_eq (sfs : List Symfunc) (bs : List (BitVec 8)) (h : writeLetabs sfs = some bs) :
    ∃ outs, outs.map List.length = sfs.map (fun sf => sf.sf_letab.length) ∧
      unpackAll (sfs.map fun sf => sf.sf_letab.length) bs = some outs := by
  obtain ⟨outs, hlens, hparses⟩ := parses_letabs sfs bs h
  have hend := hparses []
  rw [List.append_nil] at hend
  refine ⟨outs, hlens, ?_⟩
  unfold unpackAll
  rw [hend]

theorem length_writeLetab (les : List LnumEntry) (lnum addr : BitVec 32) (bs : List (BitVec 8))
    (h : writeLetab les lnum addr = some bs) : les.length ≤ bs.length := by
  induction les generalizing lnum addr bs with
  | nil => exact Nat.zero_le _
  | cons le les ih =>
    unfold writeLetab at h
    simp only at h
    split at h
    case isTrue => cases h
    case isFalse =>
      cases hrest : writeLetab les le.le_lnum (le.le_addr.setWidth 32) with
      | none => rw [hrest] at h; cases h
      | some rest =>
        have hlen := ih _ _ _ hrest
        rw [hrest, Option.map_some, Option.some.injEq] at h
        subst h
        rw [List.length_append, List.length_cons]
        split
        · rw [length_leBytes]
          omega
        · rw [List.length_append, List.length_append, length_leBytes]
          omega

theorem length_writeLetabs (sfs : List Symfunc) (bs : List (BitVec 8))
    (h : writeLetabs sfs = some bs) : ∀ sf ∈ sfs, sf.sf_letab.length ≤ bs.length := by
  induction sfs generalizing bs with
  | nil => exact fun sf hsf => absurd hsf List.not_mem_nil
  | cons sf sfs ih =>
    unfold writeLetabs at h
    cases hbs : writeLetab sf.sf_letab (-1000) 0 with
    | none =>
      rw [hbs] at h
      cases h
    | some bs1 =>
      cases hcs : writeLetabs sfs with
      | none =>
        rw [hbs, hcs] at h
        cases h
      | some bs2 =>
        rw [hbs, hcs] at h
        cases h
        intro x hx
        rw [List.length_append]
        rcases List.mem_cons.mp hx with rfl | hx
        · have := length_writeLetab _ _ _ _ hbs
          omega
        · have := ih bs2 hcs x hx
          omega

/-! ## The table -/

/-- The names in a symbol table. -/
def symNames (li : Linkinfo) : List CString :=
  li.li_symfuncs.map Symfunc.sf_name ++ li.li_symvars

def symfuncTail (sf : Symfunc) : List (BitVec 8) :=
  wordBytes sf.sf_addr ++ wordBytes (BitVec.ofNat 64 sf.sf_letab.length)

theorem writeSymfuncs_eq (sfs : List Symfunc) (o : CxOut) :
    writeSymfuncs sfs o =
      ⟨o.fp ++ records symfuncTail (places o.str_eb.length (sfs.map Symfunc.sf_name)) sfs,
        o.str_eb ++ table (sfs.map Symfunc.sf_name)⟩ := by
  have h := save_loop Symfunc.sf_name symfuncTail sfs o
  rw [← h]
  unfold writeSymfuncs
  congr 1
  funext o sf
  simp [fpWriteVal, fpWrite, symfuncTail]

theorem writeSymvars_eq (svs : List CString) (o : CxOut) :
    writeSymvars svs o =
      ⟨o.fp ++ (places o.str_eb.length svs).flatMap wordBytes, o.str_eb ++ table svs⟩ := by
  have h := saveNames_eq id svs o
  rw [List.map_id] at h
  exact h

/-- The parts of a symbol table. -/
def symPlaces (li : Linkinfo) : List Taddr := places 0 (li.li_symfuncs.map Symfunc.sf_name)

def symvarPlaces (li : Linkinfo) : List Taddr :=
  places (table (li.li_symfuncs.map Symfunc.sf_name)).length li.li_symvars

def symStrings (li : Linkinfo) (sd : Symdata) : List (BitVec 8) :=
  table (symNames li) ++ sd.sd_strings

def symSection (li : Linkinfo) (sd : Symdata) (letabs : List (BitVec 8)) : List (BitVec 8) :=
  records symfuncTail (symPlaces li) li.li_symfuncs ++
  (letabs ++
  ((symvarPlaces li).flatMap wordBytes ++
  (sd.sd_blocks ++ sd.sd_types)))

def symHeader (li : Linkinfo) (sd : Symdata) (letabs : List (BitVec 8)) : OSyminfo where
  os_nfuncs := BitVec.ofNat 64 li.li_symfuncs.length
  os_nvars := BitVec.ofNat 64 li.li_symvars.length
  os_letab_count := BitVec.ofNat 64 ((li.li_symfuncs.map (·.sf_letab.length)).sum)
  os_letab_nbytes := BitVec.ofNat 64 letabs.length
  os_types_offset := BitVec.ofNat 64 (64 + (records symfuncTail (symPlaces li) li.li_symfuncs ++
    letabs ++ (symvarPlaces li).flatMap wordBytes).length + sd.sd_blocks.length)
  os_ntypes := sd.sd_ntypes
  os_symdata_nbytes := BitVec.ofNat 64 (sd.sd_blocks ++ sd.sd_types).length
  os_strings_size := BitVec.ofNat 64 (symStrings li sd).length

theorem writeSymtab_eq (li : Linkinfo) (sd : Symdata) :
    writeSymtab li sd = (writeLetabs li.li_symfuncs).map fun letabs =>
      ((symHeader li sd letabs).fields.flatMap wordBytes ++ (symSection li sd letabs ++
        symStrings li sd), getSymtabSize (symHeader li sd letabs)) := by
  unfold writeSymtab
  simp only [writeSymfuncs_eq, writeSymvars_eq, fpWrite]
  congr 1
  funext letabs
  simp [symHeader, symSection, symStrings, symNames, symPlaces, symvarPlaces, table_append]

theorem length_records {β : Type} (tail : β → List (BitVec 8)) (k : Nat) (ps : List Taddr)
    (l : List β) (hps : ps.length = l.length) (hk : ∀ b ∈ l, (tail b).length = k) :
    (records tail ps l).length = (8 + k) * l.length := by
  unfold records
  induction l generalizing ps with
  | nil => simp
  | cons b l ih =>
    cases ps with
    | nil => simp at hps
    | cons p ps =>
      have hb := hk b List.mem_cons_self
      have hl := ih ps (by simpa using hps) fun c hc => hk c (List.mem_cons_of_mem b hc)
      rw [List.zip_cons_cons, List.flatMap_cons, List.length_append, hl, List.length_append, hb,
        List.length_cons, Nat.mul_succ]
      unfold wordBytes
      rw [length_leBytes]
      omega

/-- What `ci_compile` promises of the symbol information: C strings, sorted lines, and a size
that an int can hold. -/
structure SymWellFormed (li : Linkinfo) (sd : Symdata) : Prop where
  no_nul : ∀ s ∈ symNames li, 0#8 ∉ s
  lines_sorted : ∀ sf ∈ li.li_symfuncs, LinesSorted sf.sf_letab
  fits : ∀ letabs, writeLetabs li.li_symfuncs = some letabs →
    64 + (symSection li sd letabs).length + (symStrings li sd).length < 2 ^ 31

section
variable {li : Linkinfo} {sd : Symdata} {letabs : List (BitVec 8)}

theorem length_symSection :
    (symSection li sd letabs).length = 24 * li.li_symfuncs.length + letabs.length +
      8 * li.li_symvars.length + (sd.sd_blocks ++ sd.sd_types).length := by
  have hrec := length_records symfuncTail 16 (symPlaces li) li.li_symfuncs
    (by simp [symPlaces]) (by intro sf _; simp [symfuncTail, wordBytes])
  have hvars : (symvarPlaces li).length = li.li_symvars.length := by simp [symvarPlaces]
  unfold symSection
  rw [List.length_append, List.length_append, List.length_append, hrec, length_words, hvars]
  omega

theorem getSymtabSize_eq :
    getSymtabSize (symHeader li sd letabs) =
      ofCInt (64 + (symSection li sd letabs).length + (symStrings li sd).length) := by
  rw [length_symSection]
  have hsum : 64#64 + BitVec.ofNat 64 li.li_symfuncs.length * 8#64 * 3#64 +
      BitVec.ofNat 64 li.li_symvars.length * 8#64 +
      BitVec.ofNat 64 (sd.sd_blocks ++ sd.sd_types).length + BitVec.ofNat 64 letabs.length +
      BitVec.ofNat 64 (symStrings li sd).length =
      BitVec.ofNat 64 (64 + (24 * li.li_symfuncs.length + letabs.length +
        8 * li.li_symvars.length + (sd.sd_blocks ++ sd.sd_types).length) +
        (symStrings li sd).length) := by
    apply BitVec.eq_of_toNat_eq
    simp only [BitVec.toNat_add, BitVec.toNat_mul, BitVec.toNat_ofNat]
    omega
  unfold getSymtabSize symHeader ofCInt
  simp only [hsum]
  congr 1
  apply BitVec.eq_of_toNat_eq
  rw [BitVec.toNat_setWidth, BitVec.toNat_ofNat, BitVec.toNat_ofNat]
  omega

/-- The functions as they are read before the strings. -/
def symTriples (li : Linkinfo) : List (Taddr × Taddr × Taddr) :=
  (List.zip (symPlaces li) li.li_symfuncs).map fun pb =>
    (pb.1, pb.2.sf_addr, BitVec.ofNat 64 pb.2.sf_letab.length)

theorem parses_symfuncs (h : li.li_symfuncs.length < 2 ^ 31) :
    Parses (many (BitVec.ofNat 64 li.li_symfuncs.length).toNat readSymfunc) (symTriples li)
      (records symfuncTail (symPlaces li) li.li_symfuncs) := by
  have hone : ∀ pb ∈ List.zip (symPlaces li) li.li_symfuncs,
      Parses readSymfunc (pb.1, pb.2.sf_addr, BitVec.ofNat 64 pb.2.sf_letab.length)
        (wordBytes pb.1 ++ symfuncTail pb.2) := by
    intro pb _
    exact (parses_word pb.1).bind ((parses_word pb.2.sf_addr).bind
      ((parses_word (BitVec.ofNat 64 pb.2.sf_letab.length)).map fun size =>
        (pb.1, pb.2.sf_addr, size)))
  have hmany := parses_many _ _ _ hone
  have hlen : (List.zip (symPlaces li) li.li_symfuncs).length = li.li_symfuncs.length := by
    simp [symPlaces]
  rw [hlen] at hmany
  rw [ofNat_toNat_of_fits h]
  exact hmany

theorem symfuncs_named (strings : List (BitVec 8)) (ps : List Taddr) (sfs : List Symfunc)
    (outs : List (List LnumEntry)) (hps : ps.length = sfs.length)
    (hnames : ps.map (cstrAt strings) = sfs.map Symfunc.sf_name)
    (hlens : outs.map List.length = sfs.map fun sf => sf.sf_letab.length) :
    (List.zipWith (fun (sf : Taddr × Taddr × Taddr) letab =>
      (⟨cstrAt strings sf.1, sf.2.1, letab⟩ : Symfunc))
      ((List.zip ps sfs).map fun pb =>
        (pb.1, pb.2.sf_addr, BitVec.ofNat 64 pb.2.sf_letab.length)) outs).map
        (fun sf => (sf.sf_name, sf.sf_addr, sf.sf_letab.length)) =
      sfs.map (fun sf => (sf.sf_name, sf.sf_addr, sf.sf_letab.length)) := by
  induction sfs generalizing ps outs with
  | nil => simp
  | cons sf sfs ih =>
    cases ps with
    | nil => simp at hps
    | cons p ps =>
      cases outs with
      | nil => simp at hlens
      | cons out outs =>
        simp only [List.map_cons, List.cons.injEq] at hnames hlens
        have hrest := ih ps outs (by simpa using hps) hnames.2 hlens.2
        simp only [List.zip_cons_cons, List.map_cons, List.zipWith_cons_cons, hrest, hnames.1,
          hlens.1]

/-- The symbol table is read back: the functions with their addresses and numbers of lines,
and the names of the variables. -/
theorem parses_symtab (h : SymWellFormed li sd) (hletabs : writeLetabs li.li_symfuncs = some letabs) :
    ∃ syms : List Symfunc × List CString,
      syms.1.map (fun sf => (sf.sf_name, sf.sf_addr, sf.sf_letab.length)) =
        li.li_symfuncs.map (fun sf => (sf.sf_name, sf.sf_addr, sf.sf_letab.length)) ∧
      syms.2 = li.li_symvars ∧
      Parses (readSymtab (getSymtabSize (symHeader li sd letabs))) syms
        ((symHeader li sd letabs).fields.flatMap wordBytes ++ (symSection li sd letabs ++
          symStrings li sd)) := by
  have hfits := h.fits letabs hletabs
  rw [length_symSection] at hfits
  obtain ⟨outs, hlens, hunpack⟩ := unpackAll_eq li.li_symfuncs letabs hletabs
  let syms : List Symfunc × List CString :=
    (List.zipWith (fun sf letab => ⟨cstrAt (symStrings li sd) sf.1, sf.2.1, letab⟩)
      (symTriples li) outs, (symvarPlaces li).map (cstrAt (symStrings li sd)))
  have hstr : symStrings li sd = [] ++ table (li.li_symfuncs.map Symfunc.sf_name) ++
      (table li.li_symvars ++ sd.sd_strings) := by
    unfold symStrings symNames
    rw [table_append, List.nil_append, List.append_assoc]
  have hstr2 : symStrings li sd = table (li.li_symfuncs.map Symfunc.sf_name) ++
      table li.li_symvars ++ sd.sd_strings := by
    unfold symStrings symNames
    rw [table_append]
  have hlen := congrArg List.length hstr2
  rw [List.length_append, List.length_append] at hlen
  have hnames : (symPlaces li).map (cstrAt (symStrings li sd)) =
      li.li_symfuncs.map Symfunc.sf_name := by
    rw [hstr]
    apply cstrAt_places []
    · exact fun s hs => h.no_nul s (List.mem_append_left _ hs)
    · rw [List.nil_append]
      omega
  have hvarnames : (symvarPlaces li).map (cstrAt (symStrings li sd)) = li.li_symvars := by
    rw [hstr2]
    apply cstrAt_places
    · exact fun s hs => h.no_nul s (List.mem_append_right _ hs)
    · rw [List.length_append]
      omega
  refine ⟨syms, ?_, hvarnames, ?_⟩
  · exact symfuncs_named _ _ _ _ (by simp [symPlaces]) hnames hlens
  · have hsizes : (symTriples li).map (fun sf => sf.2.2.toNat) =
        li.li_symfuncs.map fun sf => sf.sf_letab.length := by
      have hletab := length_writeLetabs _ _ hletabs
      have hsnd : (List.zip (symPlaces li) li.li_symfuncs).map Prod.snd = li.li_symfuncs :=
        List.map_snd_zip (by simp [symPlaces])
      unfold symTriples
      rw [List.map_map]
      conv_rhs => rw [← hsnd, List.map_map]
      apply List.map_congr_left
      intro pb hpb
      have := hletab pb.2 (List.of_mem_zip hpb).2
      exact ofNat_toNat_of_fits (by omega)
    have hcheck : Parses (checkSymtabSize (symHeader li sd letabs)
        (getSymtabSize (symHeader li sd letabs))) () [] := by
      unfold checkSymtabSize
      rw [if_neg (by simp)]
      exact Parses.pure ()
    have hletab : Parses (readLetabs (symHeader li sd letabs)
        (li.li_symfuncs.map fun sf => sf.sf_letab.length)) outs letabs := by
      unfold readLetabs
      split
      case isTrue hzero =>
        have hnone : li.li_symfuncs.length = 0 := by
          have h0 := congrArg BitVec.toNat hzero
          rwa [show (symHeader li sd letabs).os_nfuncs =
            BitVec.ofNat 64 li.li_symfuncs.length from rfl, ofNat_toNat_of_fits (by omega)] at h0
        have hnil := List.eq_nil_of_length_eq_zero hnone
        rw [hnil] at hletabs hlens
        cases hletabs
        rw [List.map_eq_nil_iff.mp hlens]
        exact Parses.pure []
      case isFalse =>
        have hbytes := parses_bytes letabs
        rw [← ofNat_toNat_of_fits (n := letabs.length) (by omega)] at hbytes
        have hall := hbytes.bind (f := fun buf => ofOption (unpackAll
          (li.li_symfuncs.map fun sf => sf.sf_letab.length) buf)) (parses_ofOption hunpack)
        rwa [List.append_nil] at hall
    have hvars : Parses (many (BitVec.ofNat 64 li.li_symvars.length).toNat word) (symvarPlaces li)
        ((symvarPlaces li).flatMap wordBytes) := by
      have hwords := parses_words (symvarPlaces li)
      rwa [show (symvarPlaces li).length = li.li_symvars.length by simp [symvarPlaces],
        ← ofNat_toNat_of_fits (n := li.li_symvars.length) (by omega)] at hwords
    have hskip := parses_skip (sd.sd_blocks ++ sd.sd_types)
    rw [← ofNat_toNat_of_fits (n := (sd.sd_blocks ++ sd.sd_types).length) (by omega)] at hskip
    have hstrings := parses_bytes (symStrings li sd)
    rw [← ofNat_toNat_of_fits (n := (symStrings li sd).length) (by omega)] at hstrings
    unfold readSymtab symSection
    refine (parses_oSyminfo _).bind ?_
    simp only [List.append_assoc]
    refine hcheck.bind ?_
    refine (parses_symfuncs (by omega)).bind ?_
    rw [hsizes]
    refine hletab.bind ?_
    refine hvars.bind ?_
    rw [← List.append_assoc]
    refine hskip.bind ?_
    exact hstrings.map _

end

end ups_rules.cx_symtab
