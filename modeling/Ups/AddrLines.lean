-- Addresses and source lines of interpreted functions: how the line entries of a function are stored
-- (make_symfuncs in ci_compile.c) and come back (xc_get_fu_lnos in xc_text.c), and what the lookups of
-- st_util.c find in them.
import Ups.GetJumps
import Ups.LineEntries
import Ups.SortedScan

open sorted_scan
open ups_rules.code_text
open ups_rules.get_jumps (packTextloc)
open ups_rules.line_entries

namespace ups_rules.addr_lines

/-! ## The pure model -/

def lecmp (le1 le2 : LnumEntry) : Int :=
  if le1.le_lnum = le2.le_lnum then 0 else if le1.le_lnum < le2.le_lnum then -1 else 1

/-- A table that `qsort` may leave. Entries that compare equal may be in any order. -/
def Qsorts (cmp : LnumEntry → LnumEntry → Int) (buf table : List LnumEntry) : Prop :=
  table.Perm buf ∧ table.Pairwise fun a b => cmp a b ≤ 0

structure Fil where
  fi_name : String
  fi_renamed_other : Bool
  fi_data : Nat
  deriving DecidableEq

/-- `lno_t`; an `ln_fil` that has not been set is `none`. -/
structure Lno where
  ln_addr : Nat
  ln_num : Int
  ln_fil : Option Fil
  deriving DecidableEq

/-- `func_t`, with what `FU_LNOS` and `st_get_min_bpt_addr` return for it. -/
structure StFunc where
  fu_bad : Bool
  fu_nosym : Bool
  fu_is_cc : Bool
  fu_fil : Fil
  fu_lnos : List Lno
  min_bpt_addr : Option Nat

/-- The list from the table of a function; `none` is the panic of `pack_textloc`. -/
def xcGetFuLnos (cf_index : Nat) (fu_fil : Fil) (table : List LnumEntry) : Option (List Lno) :=
  table.mapM fun xl => do
    let ln_addr ← packTextloc cf_index xl.le_addr
    return ⟨ln_addr, xl.le_lnum, some fu_fil⟩

/-- The list that `compile_func` leaves; `add_lno_entry` does not set `ln_fil`. -/
def compilerLnos (lnos : List LnumEntry) : List Lno :=
  lnos.map fun le => ⟨le.le_addr, le.le_lnum, none⟩

/-- `same_file == TRUE && ln->ln_fil != f->fu_fil`; `none` reads an `ln_fil` that is not set. -/
def skips (f : StFunc) (same_file : Bool) (ln : Lno) : Option Bool :=
  if same_file then ln.ln_fil.map (· ≠ f.fu_fil) else some false

/-- The loop of `get_min_bpt_addr`. -/
def minBptAddr (f : StFunc) (same_file : Bool) : List Lno → Option (Option Nat)
  | [] => some f.min_bpt_addr
  | ln :: lnos => do
    if ← skips f same_file ln then minBptAddr f same_file lnos else return some ln.ln_addr

def getMinBptAddr (f : StFunc) (same_file : Bool) : Option (Option Nat) :=
  minBptAddr f same_file f.fu_lnos

/-- The loop of `addr_to_lno`. -/
def lastLno (f : StFunc) (text_addr : Nat) (same_file : Bool) :
    List Lno → Option Lno → Option (Option Lno)
  | [], last => some last
  | ln :: lnos, last => do
    if ← skips f same_file ln then lastLno f text_addr same_file lnos last
    else if ln.ln_addr > text_addr then return last
    else lastLno f text_addr same_file lnos (some ln)

/-- The inner `none` is FALSE. -/
def addrToLno (f : StFunc) (text_addr : Nat) (same_file : Bool) : Option (Option Lno) :=
  if f.fu_bad then some none
  else do
    match ← getMinBptAddr f same_file with
    | none => return none
    | some min_addr =>
      if text_addr < min_addr then return none else lastLno f text_addr same_file f.fu_lnos none

/-- The loop of `lnum_and_fil_to_addr`. -/
def findLnum (f : StFunc) (fil : Fil) (lnum : Int) : List Lno → Option Nat
  | [] => some 1
  | ln :: lnos =>
    if f.fu_is_cc then if ln.ln_num = lnum then some ln.ln_addr else findLnum f fil lnum lnos
    else do
      let ln_fil ← ln.ln_fil
      if ln_fil.fi_renamed_other ∧ ln.ln_num = lnum then return ln.ln_addr
      else if ln.ln_num = lnum ∧ (ln_fil = fil ∨ ln_fil.fi_data = fil.fi_data) then return ln.ln_addr
      else findLnum f fil lnum lnos

def lnumAndFilToAddr (f : StFunc) (fil : Fil) (lnum : Int) : Option Nat :=
  if f.fu_nosym ∨ f.fu_lnos = [] then some 0 else findLnum f fil lnum f.fu_lnos

/-- The inner `none` is -1. -/
def mapLnumToAddr (f : StFunc) (fil : Fil) (lnum : Int) : Option (Option Nat) := do
  let addr ← lnumAndFilToAddr f fil lnum
  if addr = 1 then return none
  else if addr = 0 then return none
  else
    match ← getMinBptAddr f false with
    | none => return none
    | some min_addr => return some (if addr > min_addr then addr else min_addr)

/-! ## What the lookups are to find -/

/-- An entry of the function with the greatest address not exceeding `addr`. -/
structure IsLast (f : StFunc) (addr : Nat) (ln : Lno) : Prop where
  mem : ln ∈ f.fu_lnos
  le : ln.ln_addr ≤ addr
  greatest : ∀ ln' ∈ f.fu_lnos, ln'.ln_addr ≤ addr → ln'.ln_addr ≤ ln.ln_addr

/-- Addresses map to the line whose code they are in, and the address of a line to an entry at that
address. -/
structure FindsLines (f : StFunc) (inside : Nat → Prop) : Prop where
  lno : ∀ addr same_file, inside addr → (∃ ln ∈ f.fu_lnos, ln.ln_addr ≤ addr) →
    ∃ ln, addrToLno f addr same_file = some (some ln) ∧ IsLast f addr ln
  lnum : ∀ lnum same_file, (∃ ln ∈ f.fu_lnos, ln.ln_num = lnum) →
    ∃ addr ln, mapLnumToAddr f f.fu_fil lnum = some (some addr) ∧
      addrToLno f addr same_file = some (some ln) ∧ ln ∈ f.fu_lnos ∧ ln.ln_addr = addr

/-- An interpreted function with symbols. -/
def interpreted (fu_fil : Fil) (fu_is_cc : Bool) (min_bpt_addr : Option Nat) (fu_lnos : List Lno) :
    StFunc where
  fu_bad := false
  fu_nosym := false
  fu_is_cc := fu_is_cc
  fu_fil := fu_fil
  fu_lnos := fu_lnos
  min_bpt_addr := min_bpt_addr

/-- The lookups are right whatever table of the entries `qsort` leaves. -/
def StoredFindsLines (cf_index : Nat) (fil : Fil) (is_cc : Bool) (min_bpt_addr : Option Nat)
    (lnos : List LnumEntry) (start lim : Nat) : Prop :=
  ∀ table, Qsorts lecmp lnos table → ∃ fu_lnos, xcGetFuLnos cf_index fil table = some fu_lnos ∧
    FindsLines (interpreted fil is_cc min_bpt_addr fu_lnos) fun addr =>
      ∃ pc, start ≤ pc ∧ pc < lim ∧ packTextloc cf_index pc = some addr

/-! ## The lookups -/

variable {f : StFunc} {lnos : List Lno} {ln : Lno} {same_file : Bool} {addr : Nat}
  {table : List LnumEntry} {cf_index : Nat} {fil : Fil}

theorem lastLno_eq (hskips : ∀ ln ∈ lnos, skips f same_file ln = some false) (last : Option Lno) :
    lastLno f addr same_file lnos last = some ((lastUpTo Lno.ln_addr addr lnos).or last) := by
  unfold lastUpTo
  induction lnos generalizing last with
  | nil => rfl
  | cons ln lnos ih =>
    rw [List.forall_mem_cons] at hskips
    unfold lastLno
    rw [hskips.1, List.takeWhile_cons]
    dsimp only [bind, Option.bind]
    rw [if_neg Bool.false_ne_true]
    by_cases hle : ln.ln_addr ≤ addr
    · rw [if_neg (Nat.not_lt.mpr hle), ih hskips.2, if_pos (decide_eq_true hle), List.getLast?_cons]
      cases (lnos.takeWhile fun e => decide (e.ln_addr ≤ addr)).getLast? with
      | none => rfl
      | some e => rfl
    · rw [if_pos (Nat.not_le.mp hle), if_neg (by simpa using hle)]
      rfl

theorem getMinBptAddr_eq (f : StFunc) (same_file : Bool)
    (hskips : ∀ ln ∈ f.fu_lnos, skips f same_file ln = some false) :
    getMinBptAddr f same_file = some ((f.fu_lnos.head?.map Lno.ln_addr).or f.min_bpt_addr) := by
  unfold getMinBptAddr
  cases hlnos : f.fu_lnos with
  | nil => rfl
  | cons ln lnos =>
    rw [hlnos, List.forall_mem_cons] at hskips
    unfold minBptAddr
    rw [hskips.1]
    rfl

/-- The lookup is the scan of the list when no entry is of another file. -/
theorem addrToLno_eq (hbad : f.fu_bad = false)
    (hskips : ∀ ln ∈ f.fu_lnos, skips f same_file ln = some false) :
    addrToLno f addr same_file = some (lastUpTo Lno.ln_addr addr f.fu_lnos) := by
  unfold addrToLno
  rw [hbad, if_neg Bool.false_ne_true, getMinBptAddr_eq f same_file hskips]
  dsimp only [bind, Option.bind]
  cases hlnos : f.fu_lnos with
  | nil =>
    dsimp only [List.head?_nil, Option.map_none, Option.none_or]
    cases f.min_bpt_addr with
    | none => rfl
    | some min_addr =>
      dsimp only
      split
      · rfl
      · rfl
  | cons ln lnos =>
    dsimp only [List.head?_cons, Option.map_some, Option.some_or]
    split
    · rename_i hlt
      unfold lastUpTo
      rw [List.takeWhile_cons, if_neg (by simpa using hlt)]
      rfl
    · rw [lastLno_eq (hlnos ▸ hskips), Option.or_none]

theorem findLnum_eq {lnum : Int} (hfil : ∀ ln ∈ lnos, ln.ln_fil = some f.fu_fil) :
    findLnum f f.fu_fil lnum lnos =
      some (((lnos.find? fun ln => ln.ln_num = lnum).map Lno.ln_addr).getD 1) := by
  induction lnos with
  | nil => rfl
  | cons ln lnos ih =>
    rw [List.forall_mem_cons] at hfil
    unfold findLnum
    rw [hfil.1, List.find?_cons]
    dsimp only [bind, Option.bind]
    by_cases hnum : ln.ln_num = lnum
    · simp [hnum]
    · simp [hnum, ih hfil.2]

/-- The address for a line of the list is that of an entry. -/
theorem mapLnumToAddr_spec {lnum : Int} (hnosym : f.fu_nosym = false)
    (hfil : ∀ ln ∈ f.fu_lnos, ln.ln_fil = some f.fu_fil) (haddr : ∀ ln ∈ f.fu_lnos, 1 < ln.ln_addr)
    (h : ∃ ln ∈ f.fu_lnos, ln.ln_num = lnum) :
    ∃ ln ∈ f.fu_lnos, mapLnumToAddr f f.fu_fil lnum = some (some ln.ln_addr) := by
  obtain ⟨ln0, hln0, hnum⟩ := h
  obtain ⟨ln, hfind⟩ := Option.isSome_iff_exists.mp
    (List.find?_isSome (p := fun ln : Lno => decide (ln.ln_num = lnum)).mpr
      ⟨ln0, hln0, decide_eq_true hnum⟩)
  have hln := List.mem_of_find?_eq_some hfind
  have h1 := haddr ln hln
  have hlookup : lnumAndFilToAddr f f.fu_fil lnum = some ln.ln_addr := by
    unfold lnumAndFilToAddr
    rw [hnosym, if_neg (by
      rintro (h | h)
      · exact Bool.false_ne_true h
      · rw [h] at hln
        cases hln), findLnum_eq hfil, hfind]
    rfl
  have hmin := getMinBptAddr_eq f false fun ln _ => rfl
  unfold mapLnumToAddr
  rw [hlookup]
  dsimp only [bind, Option.bind]
  rw [if_neg (by omega), if_neg (by omega), hmin]
  cases hlnos : f.fu_lnos with
  | nil =>
    rw [hlnos] at hln
    cases hln
  | cons first lnos =>
    dsimp only [List.head?_cons, Option.map_some, Option.some_or]
    split
    · exact ⟨ln, hlnos ▸ hln, rfl⟩
    · exact ⟨first, List.mem_cons_self, rfl⟩

/-- The scan for the address of each entry ends at that address. -/
def Scans (lnos : List Lno) : Prop :=
  ∀ v ∈ lnos.map Lno.ln_addr, ∃ ln, lastUpTo Lno.ln_addr v lnos = some ln ∧ ln.ln_addr = v

theorem isLast_of_scans (hbad : f.fu_bad = false)
    (hskips : ∀ ln ∈ f.fu_lnos, skips f same_file ln = some false) (h : Scans f.fu_lnos)
    (haddr : ∃ ln ∈ f.fu_lnos, ln.ln_addr ≤ addr) :
    ∃ ln, addrToLno f addr same_file = some (some ln) ∧ IsLast f addr ln := by
  obtain ⟨ln, hlast, hmem, hle, hmax⟩ := greatest_of_scans h haddr
  exact ⟨ln, by rw [addrToLno_eq hbad hskips, hlast], hmem, hle, hmax⟩

/-- A list with the file of the function is right if and only if its scans are. -/
theorem findsLines_iff {inside : Nat → Prop} (hbad : f.fu_bad = false) (hnosym : f.fu_nosym = false)
    (hfil : ∀ ln ∈ f.fu_lnos, ln.ln_fil = some f.fu_fil) (haddr : ∀ ln ∈ f.fu_lnos, 1 < ln.ln_addr)
    (hinside : ∀ ln ∈ f.fu_lnos, inside ln.ln_addr) :
    FindsLines f inside ↔ Scans f.fu_lnos := by
  have hskips : ∀ same_file, ∀ ln ∈ f.fu_lnos, skips f same_file ln = some false := by
    intro same_file ln hln
    unfold skips
    split
    · rw [hfil ln hln]
      simp
    · rfl
  constructor
  · intro h v hv
    obtain ⟨ln, hln, rfl⟩ := List.mem_map.mp hv
    obtain ⟨last, heq, hlast⟩ := h.lno ln.ln_addr false (hinside ln hln) ⟨ln, hln, Nat.le_refl _⟩
    rw [addrToLno_eq hbad (hskips false), Option.some_inj] at heq
    exact ⟨last, heq, Nat.le_antisymm hlast.le (hlast.greatest ln hln (Nat.le_refl _))⟩
  · intro h
    refine ⟨fun addr same_file _ => isLast_of_scans hbad (hskips same_file) h, ?_⟩
    intro lnum same_file hlnum
    obtain ⟨ln, hln, hmap⟩ := mapLnumToAddr_spec hnosym hfil haddr hlnum
    obtain ⟨last, hlast, heq⟩ := h ln.ln_addr (List.mem_map_of_mem hln)
    exact ⟨_, last, hmap, by rw [addrToLno_eq hbad (hskips same_file), hlast],
      (lastUpTo_mem hlast).1, heq⟩

/-! ## The stored table -/

theorem qsorts_iff {buf : List LnumEntry} :
    Qsorts lecmp buf table ↔ Sorts LnumEntry.le_lnum buf table := by
  have hcmp : ∀ a b, lecmp a b ≤ 0 ↔ a.le_lnum ≤ b.le_lnum := by
    intro a b
    unfold lecmp
    split_ifs <;> omega
  unfold Qsorts Sorts
  simp only [hcmp]

/-- An entry as it comes back. -/
def loaded (cf_index : Nat) (fil : Fil) (xl : LnumEntry) : Lno :=
  ⟨cf_index * 65536 + xl.le_addr, xl.le_lnum, some fil⟩

theorem packTextloc_eq {pc : Nat} (h : packTextloc cf_index pc = some addr) :
    (cf_index < 65536 ∧ pc < 65536) ∧ addr = cf_index * 65536 + pc := by
  unfold packTextloc at h
  split at h
  · rename_i hfits
    exact ⟨hfits, (Option.some_inj.mp h).symm⟩
  · cases h

theorem xcGetFuLnos_fits (h : ∀ le ∈ table, cf_index < 65536 ∧ le.le_addr < 65536) :
    xcGetFuLnos cf_index fil table = some (table.map (loaded cf_index fil)) := by
  unfold xcGetFuLnos
  induction table with
  | nil => rfl
  | cons xl table ih =>
    rw [List.forall_mem_cons] at h
    rw [List.mapM_cons, ih h.2]
    unfold packTextloc
    rw [if_pos h.1]
    rfl

theorem fits_of_xcGetFuLnos (h : xcGetFuLnos cf_index fil table = some lnos) :
    ∀ le ∈ table, cf_index < 65536 ∧ le.le_addr < 65536 := by
  unfold xcGetFuLnos at h
  induction table generalizing lnos with
  | nil => exact fun _ hle => (nomatch hle)
  | cons xl table ih =>
    rw [List.mapM_cons] at h
    cases hpack : packTextloc cf_index xl.le_addr with
    | none =>
      rw [hpack] at h
      cases h
    | some addr =>
      rw [hpack] at h
      cases hrest : table.mapM fun xl => do
          let ln_addr ← packTextloc cf_index xl.le_addr
          return (⟨ln_addr, xl.le_lnum, some fil⟩ : Lno) with
      | none =>
        rw [hrest] at h
        cases h
      | some rest => exact List.forall_mem_cons.mpr ⟨(packTextloc_eq hpack).1, ih hrest⟩

theorem scans_loaded_iff : Scans (table.map (loaded cf_index fil)) ↔
    ∀ v ∈ table.map LnumEntry.le_addr,
      ∃ le, lastUpTo LnumEntry.le_addr v table = some le ∧ le.le_addr = v := by
  have hlast : ∀ v, lastUpTo Lno.ln_addr (cf_index * 65536 + v) (table.map (loaded cf_index fil)) =
      (lastUpTo LnumEntry.le_addr v table).map (loaded cf_index fil) := fun v =>
    lastUpTo_map _ fun le _ => Nat.add_le_add_iff_left
  unfold Scans
  rw [List.map_map, List.forall_mem_map, List.forall_mem_map]
  refine forall_congr' fun le => imp_congr_right fun _ => ?_
  show (∃ ln, lastUpTo Lno.ln_addr (cf_index * 65536 + le.le_addr) _ = some ln ∧
    ln.ln_addr = cf_index * 65536 + le.le_addr) ↔ _
  rw [hlast]
  constructor
  · rintro ⟨ln, heq, haddr⟩
    obtain ⟨le', hle', rfl⟩ := Option.map_eq_some_iff.mp heq
    exact ⟨le', hle', Nat.add_left_cancel haddr⟩
  · rintro ⟨le', hle', haddr⟩
    exact ⟨loaded cf_index fil le', by rw [hle']; rfl, by rw [← haddr]; rfl⟩

/-- With the stored tables, the lookups are right if and only if the addresses can be packed and the
lines climb with the addresses. -/
theorem storedFindsLines_iff {lnos : List LnumEntry} {start lim : Nat}
    (hwithin : Within (start + 2) lim lnos) (is_cc : Bool) (min_bpt_addr : Option Nat) :
    StoredFindsLines cf_index fil is_cc min_bpt_addr lnos start lim ↔
      (∀ le ∈ lnos, cf_index < 65536 ∧ le.le_addr < 65536) ∧
        Climbs LnumEntry.le_lnum LnumEntry.le_addr lnos := by
  have hiff : ∀ table, Qsorts lecmp lnos table →
      (∀ le ∈ lnos, cf_index < 65536 ∧ le.le_addr < 65536) →
      (FindsLines (interpreted fil is_cc min_bpt_addr (table.map (loaded cf_index fil)))
        (fun addr => ∃ pc, start ≤ pc ∧ pc < lim ∧ packTextloc cf_index pc = some addr) ↔
      ∀ v ∈ lnos.map LnumEntry.le_addr,
        ∃ le, lastUpTo LnumEntry.le_addr v table = some le ∧ le.le_addr = v) := by
    intro table htable hfits
    have hmem : ∀ le, le ∈ table ↔ le ∈ lnos := fun le => htable.1.mem_iff
    rw [findsLines_iff rfl rfl, interpreted, scans_loaded_iff]
    · simp only [List.forall_mem_map, hmem]
    · exact List.forall_mem_map.mpr fun le _ => rfl
    · refine List.forall_mem_map.mpr fun le hle => ?_
      have hbounds := hwithin.bounds le ((hmem le).mp hle)
      show 1 < cf_index * 65536 + le.le_addr
      omega
    · refine List.forall_mem_map.mpr fun le hle => ⟨le.le_addr, ?_⟩
      obtain ⟨hge, hlt⟩ := hwithin.bounds le ((hmem le).mp hle)
      exact ⟨by omega, hlt, if_pos (hfits le ((hmem le).mp hle))⟩
  rw [← scans_iff]
  constructor
  · intro h
    have hfits : ∀ le ∈ lnos, cf_index < 65536 ∧ le.le_addr < 65536 := by
      obtain ⟨table, hsorts⟩ := exists_sorted LnumEntry.le_lnum lnos
      obtain ⟨fu_lnos, hload, -⟩ := h table (qsorts_iff.mpr hsorts)
      exact fun le hle => fits_of_xcGetFuLnos hload le (hsorts.1.mem_iff.mpr hle)
    refine ⟨hfits, fun table hsorts => ?_⟩
    have htable := qsorts_iff.mpr hsorts
    obtain ⟨fu_lnos, hload, hfinds⟩ := h table htable
    rw [xcGetFuLnos_fits fun le hle => hfits le (hsorts.1.mem_iff.mp hle), Option.some_inj] at hload
    rw [← hload] at hfinds
    exact (hiff table htable hfits).mp hfinds
  · rintro ⟨hfits, h⟩ table htable
    exact ⟨_, xcGetFuLnos_fits fun le hle => hfits le (htable.1.mem_iff.mp hle),
      (hiff table htable hfits).mpr (h table (qsorts_iff.mp htable))⟩

/-! ## The list of the compiler -/

/-- A lookup of a line reads the file of an entry, which is not set. -/
theorem compilerLnos_iff {lnos : List LnumEntry} {inside : Nat → Prop} (min_bpt_addr : Option Nat) :
    FindsLines (interpreted fil false min_bpt_addr (compilerLnos lnos)) inside ↔ lnos = [] := by
  constructor
  · intro h
    cases lnos with
    | nil => rfl
    | cons le lnos =>
      obtain ⟨addr, -, hmap, -⟩ := h.lnum le.le_lnum false ⟨_, List.mem_cons_self, rfl⟩
      cases hmap
  · rintro rfl
    refine ⟨fun addr same_file _ h => ?_, fun lnum same_file h => ?_⟩
    · obtain ⟨ln, hln, -⟩ := h
      cases hln
    · obtain ⟨ln, hln, -⟩ := h
      cases hln

/-- With this list, each address is right as long as no file is asked for. -/
theorem compilerLnos_lno {lnos : List LnumEntry} (is_cc : Bool) (min_bpt_addr : Option Nat)
    (hsorted : lnos.Pairwise fun a b => a.le_addr ≤ b.le_addr)
    (haddr : ∃ ln ∈ compilerLnos lnos, ln.ln_addr ≤ addr) :
    ∃ ln, addrToLno (interpreted fil is_cc min_bpt_addr (compilerLnos lnos)) addr false =
        some (some ln) ∧ IsLast (interpreted fil is_cc min_bpt_addr (compilerLnos lnos)) addr ln := by
  have hsorted' : (compilerLnos lnos).Pairwise fun a b => a.ln_addr ≤ b.ln_addr :=
    List.pairwise_map.mpr hsorted
  exact isLast_of_scans rfl (fun ln _ => rfl) (fun v hv => scan_of_sorted hsorted' hv) haddr

/-- A loop over lines 2 to 5 with its condition on the last of them. -/
def doLoop : Func where
  locals := 0#64
  used := 0#64
  bl_initlist := []
  co_statements := .cons (.doStm ⟨some 5, [(0#64, .generic .CONSTPUSH 1#64)]⟩ (.compound []
    (.cons (.exprStm (some ⟨some 3, [(0#64, .generic .CONSTPUSH 1#64)]⟩))
      (.cons (.exprStm (some ⟨some 4, [(0#64, .generic .CONSTPUSH 2#64)]⟩)) .nil)))) .nil

/-- The text before the first function of a file. -/
def firstText : Text := emitAll (emptyText false) [(0#64, .opcode .OC_TRAP rfl)]

end ups_rules.addr_lines
