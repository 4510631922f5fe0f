-- The line numbers in the symbol table of a `.ocx` file: what write_letab (cx_symio.c) writes, and
-- when the two readers, unpack_letab and load_symtab (xc_text.c), read the same entries back.
import Mathlib.Data.List.SplitLengths
import Ups.CxSymtab

open le_bytes
open byte_parsing
open ups_rules.link_info
open ups_rules.cx_file
open ups_rules.cx_round_trip

namespace ups_rules.line_tables

/-! ## The pure model -/

/-- `le_addr` as an int. -/
def addrOf (le : LnumEntry) : BitVec 32 := le.le_addr.setWidth 32

/-- The entry is written as a difference. -/
def IsShort (lnum addr : BitVec 32) (le : LnumEntry) : Prop :=
  (le.le_lnum - lnum).toInt < 128 ∧ -256 < (addrOf le - addr).toInt ∧
    (addrOf le - addr).toInt ≤ 255

instance (lnum addr : BitVec 32) (le : LnumEntry) : Decidable (IsShort lnum addr le) :=
  inferInstanceAs (Decidable (_ ∧ _ ∧ _))

/-- What `write_letab` counts for the entries behind `lnum` and `addr`. -/
def nbytesFrom : BitVec 32 → BitVec 32 → List LnumEntry → Nat
  | _, _, [] => 0
  | lnum, addr, le :: les =>
    (if IsShort lnum addr le then 0 else 2 * 8) + 2 + nbytesFrom le.le_lnum (addrOf le) les

/-- `*p_nbytes` -/
def letabNbytes (letab : List LnumEntry) : Nat := nbytesFrom (-1000) 0 letab

/-- The line and the address after the next entry, as both readers take it. -/
def nextEntry (lnum addr : BitVec 32) : Parser (BitVec 32 × BitVec 32) := do
  let bs ← bytes 2
  let sval := ofLeBytes bs
  let negative := sval / 256 % 2 = 1
  let addr_delta := BitVec.ofNat 32 (sval % 256)
  if negative ∧ addr_delta = 0#32 then
    let w0 ← word
    let w1 ← word
    return (w0.setWidth 32, w1.setWidth 32)
  else
    return (lnum + BitVec.ofNat 32 (sval / 512), addr + if negative then -addr_delta else addr_delta)

/-- Where `unpack_letab` is: the sizes of the functions from `sf` on, and what it has stored for
the functions before `sf` and for `sf`. -/
structure Unpacking where
  sizes : List Nat
  lnum : BitVec 32
  addr : BitVec 32
  done : List (List LnumEntry)
  sf_letab : List LnumEntry

/-- The loop of `unpack_letab`; `none` is the panic behind it. -/
def unpackLoop : Nat → Unpacking → List (BitVec 8) → Option (List (List LnumEntry))
  | 0, _, _ => none
  | fuel + 1, u, iptr =>
    match u.sizes with
    | [] => none
    | size :: sizes =>
      -- The functions without entries behind `sf` are passed over.
      let ended := u.sf_letab.length = size
      let u := if ended then { u with
          sizes := sizes.dropWhile (· == 0)
          lnum := 0#32
          addr := 0#32
          done := u.done ++ [u.sf_letab] ++ (sizes.takeWhile (· == 0)).map fun _ => []
          sf_letab := [] }
        else u
      if ended ∧ (u.sizes = [] ∨ iptr = []) then
        if u.sizes = [] ∧ iptr = [] then some u.done else none
      else
        match nextEntry u.lnum u.addr iptr with
        | none => none
        | some ((lnum, addr), iptr) =>
          unpackLoop fuel { u with
            lnum := lnum
            addr := addr
            sf_letab := u.sf_letab ++ [⟨addr.signExtend 64, lnum⟩] } iptr

/-- The tables that `read_symtab` leaves in the functions, of which there may be none. -/
def readTables (sizes : List Nat) (buf : List (BitVec 8)) : Option (List (List LnumEntry)) :=
  if sizes = [] then some []
  else unpackLoop (sizes.sum + 1) ⟨sizes, 0#32, 0#32, [], []⟩ buf

/-- `xc_lnum_t` -/
structure XcLnum where
  xl_addr : Taddr
  xl_lnum : BitVec 32
  deriving DecidableEq

/-- The loop of `load_symtab` over the table. -/
def loadEntries : Nat → BitVec 32 → BitVec 32 → Parser (List XcLnum)
  | 0, _, _ => return []
  | n + 1, lnum, addr => do
    let (lnum, addr) ← nextEntry lnum addr
    let xls ← loadEntries n lnum addr
    return ⟨addr.signExtend 64, lnum⟩ :: xls

/-- The entries from `xfu_firstxl` up to `xfu_xllim` of each function; `none` is a panic. -/
def loadTables (sizes : List Nat) (letab_count : Nat) (letab : List (BitVec 8)) :
    Option (List (List XcLnum)) :=
  if sizes.sum ≠ letab_count then none
  else match loadEntries letab_count 0#32 0#32 letab with
    | some (xltab, []) => some (sizes.splitLengths xltab)
    | _ => none

def loaded (le : LnumEntry) : XcLnum := ⟨le.le_addr, le.le_lnum⟩

/-- Both readers get the tables of the functions out of what is written for them, and take as many
bytes as `write_letab` has counted. -/
def RoundTrips (sfs : List Symfunc) : Prop :=
  let sizes := sfs.map (·.sf_letab.length)
  ∃ letabs, writeLetabs sfs = some letabs ∧ ∀ rest,
    let buf := (letabs ++ rest).take (sfs.map fun sf => letabNbytes sf.sf_letab).sum
    readTables sizes buf = some (sfs.map (·.sf_letab)) ∧
      loadTables sizes sizes.sum buf = some (sfs.map (·.sf_letab.map loaded))

/-- A table as `make_symfuncs` leaves it, with addresses that fit an int. -/
structure AsMade (letab : List LnumEntry) : Prop where
  nonneg : ∀ le ∈ letab, 0 ≤ le.le_lnum.toInt
  sorted : letab.Pairwise fun a b => a.le_lnum.toInt ≤ b.le_lnum.toInt
  fits : ∀ le ∈ letab, (addrOf le).signExtend 64 = le.le_addr

/-- A step back of the address by less than 256 while the line goes on by less than 128 is one
by 128. -/
def KeepsStep (a b : LnumEntry) : Prop :=
  (b.le_lnum - a.le_lnum).toInt < 128 → -256 < (addrOf b - addrOf a).toInt →
    (addrOf b - addrOf a).toInt < 0 → (addrOf b - addrOf a).toInt = -128

instance (a b : LnumEntry) : Decidable (KeepsStep a b) :=
  inferInstanceAs (Decidable (_ → _ → _ → _))

/-- The first line is far enough from the largest int, and all steps are kept. -/
structure Regular (letab : List LnumEntry) : Prop where
  first : ∀ le ∈ letab.head?, le.le_lnum.toInt < 2 ^ 31 - 1000
  steps : letab.IsChain KeepsStep

/-! ## One entry -/

section
variable {lnum addr addr' : BitVec 32} {le : LnumEntry}

/-- The difference of two addresses as the readers take it from nine bits. -/
def asRead (addr_delta : Int) : Int := if addr_delta < 0 then -(addr_delta % 256) else addr_delta

/-- The address that the readers get for an entry. -/
def addrRead (lnum addr addr' : BitVec 32) (le : LnumEntry) : BitVec 32 :=
  if IsShort lnum addr le then addr' + BitVec.ofInt 32 (asRead (addrOf le - addr).toInt)
  else addrOf le

/-- The bytes of an entry. -/
def entryBytes (lnum addr : BitVec 32) (le : LnumEntry) : List (BitVec 8) :=
  if IsShort lnum addr le then
    leBytes 2 ((le.le_lnum - lnum).toInt.toNat * 512 +
      (if (addrOf le - addr).toInt < 0 then 256 else 0) + ((addrOf le - addr).toInt % 256).toNat)
  else leBytes 2 256 ++ wordBytes (le.le_lnum.signExtend 64) ++ wordBytes le.le_addr

theorem writeLetab_cons (lnum addr : BitVec 32) (le : LnumEntry) (les : List LnumEntry) :
    writeLetab (le :: les) lnum addr =
      if (le.le_lnum - lnum).toInt < 0 then none
      else (writeLetab les le.le_lnum (addrOf le)).map (entryBytes lnum addr le ++ ·) := rfl

theorem length_entryBytes (lnum addr : BitVec 32) (le : LnumEntry) :
    (entryBytes lnum addr le).length = (if IsShort lnum addr le then 0 else 2 * 8) + 2 := by
  unfold entryBytes
  split
  · simp
  · simp [wordBytes]

theorem parses_sval {sval : Nat} (h : sval < 65536) :
    Parses (do let bs ← bytes 2; return ofLeBytes bs) sval (leBytes 2 sval) := by
  have hbytes := (parses_bytes (leBytes 2 sval)).map ofLeBytes
  rwa [length_leBytes, ofLeBytes_leBytes, show 256 ^ 2 = 65536 by rfl, Nat.mod_eq_of_lt h] at hbytes

theorem nextEntry_eq (lnum addr : BitVec 32) :
    nextEntry lnum addr = (do let bs ← bytes 2; return ofLeBytes bs) >>= fun sval =>
      if sval / 256 % 2 = 1 ∧ BitVec.ofNat 32 (sval % 256) = 0#32 then do
        let w0 ← word
        let w1 ← word
        return (w0.setWidth 32, w1.setWidth 32)
      else return (lnum + BitVec.ofNat 32 (sval / 512),
        addr + if sval / 256 % 2 = 1 then -BitVec.ofNat 32 (sval % 256)
          else BitVec.ofNat 32 (sval % 256)) := by
  simp [nextEntry]

/-- The lines of a difference are read back, whatever the addresses are. -/
theorem add_lnum_delta (h : ¬(le.le_lnum - lnum).toInt < 0) :
    lnum + BitVec.ofNat 32 (le.le_lnum - lnum).toInt.toNat = le.le_lnum := by
  have hcast : ((le.le_lnum - lnum).toInt.toNat : Int) = (le.le_lnum - lnum).toInt :=
    Int.toNat_of_nonneg (by omega)
  rw [← BitVec.ofInt_natCast, hcast, BitVec.ofInt_toInt, BitVec.add_comm,
    BitVec.sub_add_cancel]

theorem setWidth_signExtend (v : BitVec 32) : (v.signExtend 64).setWidth 32 = v := by
  ext i hi
  simp [BitVec.getLsbD_signExtend, hi]
  omega

theorem ofNat_toNat_emod {d : Int} : BitVec.ofNat 32 (d % 256).toNat = BitVec.ofInt 32 (d % 256) := by
  rw [← BitVec.ofInt_natCast, Int.toNat_of_nonneg (by omega)]

/-- A difference of two bytes: seven bits for the line, the sign, and eight bits for the address. -/
theorem parses_difference {l b : Nat} (negative : Bool) (hl : l < 128) (hb : b < 256)
    (hzero : negative = true → b ≠ 0) :
    Parses (nextEntry lnum addr')
      (lnum + BitVec.ofNat 32 l, addr' + if negative then -BitVec.ofNat 32 b else BitVec.ofNat 32 b)
      (leBytes 2 (l * 512 + (if negative then 256 else 0) + b)) := by
  have hlt : l * 512 + (if negative then 256 else 0) + b < 65536 := by split <;> omega
  have hline : (l * 512 + (if negative then 256 else 0) + b) / 512 = l := by split <;> omega
  have hlow : (l * 512 + (if negative then 256 else 0) + b) % 256 = b := by split <;> omega
  have hsign : (l * 512 + (if negative then 256 else 0) + b) / 256 % 2 = 1 ↔ negative = true := by
    cases negative with
    | false => simp; omega
    | true => simp; omega
  have hnot : ¬(negative = true ∧ BitVec.ofNat 32 b = 0#32) := by
    rintro ⟨hneg, h⟩
    have := congrArg BitVec.toNat h
    rw [BitVec.toNat_ofNat, BitVec.toNat_ofNat] at this
    have := hzero hneg
    omega
  rw [nextEntry_eq, ← List.append_nil (leBytes 2 _)]
  refine (parses_sval hlt).bind ?_
  simp only [hline, hlow, hsign, if_neg hnot]
  exact Parses.pure _

/-- A short entry is read with the difference of the lines, and with the sign and the low byte of
the difference of the addresses. -/
theorem parses_short (hshort : IsShort lnum addr le) (hpos : ¬(le.le_lnum - lnum).toInt < 0) :
    Parses (nextEntry lnum addr') (le.le_lnum, addrRead lnum addr addr' le)
      (entryBytes lnum addr le) := by
  obtain ⟨hlnum, hlow, hhigh⟩ := id hshort
  have hread := @parses_difference lnum addr' (le.le_lnum - lnum).toInt.toNat
    ((addrOf le - addr).toInt % 256).toNat (decide ((addrOf le - addr).toInt < 0)) (by omega)
    (by omega) (by rw [decide_eq_true_eq]; omega)
  rw [add_lnum_delta hpos, ofNat_toNat_emod] at hread
  simp only [decide_eq_true_eq] at hread
  unfold addrRead entryBytes asRead
  rw [if_pos hshort, if_pos hshort]
  by_cases hneg : (addrOf le - addr).toInt < 0
  · rwa [if_pos hneg, if_pos hneg, ← BitVec.ofInt_neg] at *
  · have hmod : (addrOf le - addr).toInt % 256 = (addrOf le - addr).toInt := by omega
    rw [if_neg hneg, if_neg hneg, hmod]
    rwa [if_neg hneg, if_neg hneg, hmod] at hread

/-- An absolute entry is read back whatever was before it. -/
theorem parses_absolute (hlong : ¬IsShort lnum addr le) (lnum' : BitVec 32) :
    Parses (nextEntry lnum' addr') (le.le_lnum, addrRead lnum addr addr' le)
      (entryBytes lnum addr le) := by
  have hval : Parses _ 256 (leBytes 2 256) := parses_sval (by decide)
  unfold addrRead entryBytes
  rw [if_neg hlong, if_neg hlong, nextEntry_eq, List.append_assoc]
  refine hval.bind ?_
  rw [if_pos (by decide)]
  refine (parses_word (le.le_lnum.signExtend 64)).bind ?_
  rw [setWidth_signExtend]
  exact (parses_word le.le_addr).map fun w1 => (le.le_lnum, w1.setWidth 32)

end

/-! ## One table -/

section
variable {lnum addr : BitVec 32} {le a : LnumEntry} {les : List LnumEntry} {bs : List (BitVec 8)}

/-- What the readers make of the entries that are written behind `lnum` and `addr`, when their own
address is `addr'`. -/
def readBack : BitVec 32 → BitVec 32 → BitVec 32 → List LnumEntry → List LnumEntry
  | _, _, _, [] => []
  | lnum, addr, addr', le :: les =>
    ⟨(addrRead lnum addr addr' le).signExtend 64, le.le_lnum⟩ ::
      readBack le.le_lnum (addrOf le) (addrRead lnum addr addr' le) les

theorem length_readBack (lnum addr addr' : BitVec 32) (les : List LnumEntry) :
    (readBack lnum addr addr' les).length = les.length := by
  induction les generalizing lnum addr addr' with
  | nil => rfl
  | cons le les ih => rw [readBack, List.length_cons, List.length_cons, ih]

theorem unpackEntries_succ (n : Nat) (lnum addr : BitVec 32) :
    unpackEntries (n + 1) lnum addr = nextEntry lnum addr >>= fun e =>
      unpackEntries n e.1 e.2 >>= fun les => pure (⟨e.2.signExtend 64, e.1⟩ :: les) := by
  simp only [unpackEntries, nextEntry, bind_assoc]
  congr 1
  funext bs
  split
  · simp
  · simp

theorem loadEntries_eq (n : Nat) (lnum addr : BitVec 32) :
    loadEntries n lnum addr = unpackEntries n lnum addr >>= fun les => pure (les.map loaded) := by
  induction n generalizing lnum addr with
  | zero => simp [loadEntries, unpackEntries]
  | succ n ih => simp [loadEntries, unpackEntries_succ, ih, loaded]

/-- The entries of a table are read, whatever is read behind them. -/
theorem parses_table {n : Nat} {out : List LnumEntry} {cs : List (BitVec 8)}
    (hnext : ∀ l a, Parses (unpackEntries n l a) out cs) (lnum' addr' : BitVec 32)
    (h : writeLetab les lnum addr = some bs)
    (hfirst : ∀ le ∈ les.head?, IsShort lnum addr le → lnum' = lnum) :
    Parses (unpackEntries (les.length + n) lnum' addr') (readBack lnum addr addr' les ++ out)
      (bs ++ cs) := by
  induction les generalizing lnum addr lnum' addr' bs with
  | nil =>
    cases h
    simpa [readBack] using hnext lnum' addr'
  | cons le les ih =>
    rw [writeLetab_cons] at h
    split at h
    · cases h
    · rename_i hpos
      obtain ⟨rest, hrest, rfl⟩ := Option.map_eq_some_iff.mp h
      have hentry : Parses (nextEntry lnum' addr') (le.le_lnum, addrRead lnum addr addr' le)
          (entryBytes lnum addr le) := by
        by_cases hshort : IsShort lnum addr le
        · rw [hfirst le rfl hshort]
          exact parses_short hshort hpos
        · exact parses_absolute hshort lnum'
      rw [List.length_cons, Nat.add_right_comm, unpackEntries_succ, List.append_assoc]
      refine hentry.bind ?_
      exact (ih le.le_lnum (addrRead lnum addr addr' le) hrest fun _ _ _ => rfl).map fun les =>
        ⟨(addrRead lnum addr addr' le).signExtend 64, le.le_lnum⟩ :: les

theorem length_writeLetab (h : writeLetab les lnum addr = some bs) :
    bs.length = nbytesFrom lnum addr les := by
  induction les generalizing lnum addr bs with
  | nil =>
    cases h
    rfl
  | cons le les ih =>
    rw [writeLetab_cons] at h
    split at h
    · cases h
    · obtain ⟨rest, hrest, rfl⟩ := Option.map_eq_some_iff.mp h
      rw [List.length_append, length_entryBytes, ih hrest]
      rfl

/-- The difference of two lines does not overflow. -/
theorem lnum_delta_nonneg {l l' : BitVec 32} (h0 : 0 ≤ l.toInt) (h : l.toInt ≤ l'.toInt) :
    ¬(l' - l).toInt < 0 := by
  have hlt := BitVec.toInt_lt (x := l')
  rw [BitVec.toInt_sub, Int.bmod_eq_of_le_mul_two] <;> omega

theorem writeLetab_sorted (h0 : 0 ≤ lnum.toInt) (hfirst : ∀ le ∈ les, lnum.toInt ≤ le.le_lnum.toInt)
    (hsorted : les.Pairwise fun a b => a.le_lnum.toInt ≤ b.le_lnum.toInt) :
    ∃ bs, writeLetab les lnum addr = some bs := by
  induction les generalizing lnum addr with
  | nil => exact ⟨[], rfl⟩
  | cons le les ih =>
    obtain ⟨hle, hrest⟩ := List.pairwise_cons.mp hsorted
    have hlnum := hfirst le List.mem_cons_self
    obtain ⟨bs, hbs⟩ := @ih le.le_lnum (addrOf le) (by omega) hle hrest
    rw [writeLetab_cons, if_neg (lnum_delta_nonneg h0 hlnum), hbs]
    exact ⟨_, rfl⟩

/-- The difference to a line of -1000 is large, as long as it does not overflow. -/
theorem first_delta {l : BitVec 32} (h0 : 0 ≤ l.toInt) :
    (l - (-1000 : BitVec 32)).toInt =
      if l.toInt < 2 ^ 31 - 1000 then l.toInt + 1000 else l.toInt + 1000 - 2 ^ 32 := by
  have hlt := BitVec.toInt_lt (x := l)
  have hminus : (-1000 : BitVec 32).toInt = -1000 := by decide
  rw [BitVec.toInt_sub, hminus, Int.bmod_def]
  split <;> split <;> omega

theorem not_isShort_first (h0 : 0 ≤ le.le_lnum.toInt) (hfirst : le.le_lnum.toInt < 2 ^ 31 - 1000) :
    ¬IsShort (-1000) addr le := by
  rintro ⟨hlnum, -⟩
  rw [first_delta h0, if_pos hfirst] at hlnum
  omega

/-- A table is written unless its first line is too large. -/
theorem writeLetab_iff (h : AsMade les) :
    (∃ bs, writeLetab les (-1000) 0 = some bs) ↔
      ∀ le ∈ les.head?, le.le_lnum.toInt < 2 ^ 31 - 1000 := by
  cases les with
  | nil => simp [writeLetab]
  | cons le les =>
    have h0 := h.nonneg le List.mem_cons_self
    have hdelta := first_delta h0
    obtain ⟨hle, hrest⟩ := List.pairwise_cons.mp h.sorted
    rw [writeLetab_cons, hdelta]
    by_cases hfirst : le.le_lnum.toInt < 2 ^ 31 - 1000
    · obtain ⟨bs, hbs⟩ := @writeLetab_sorted le.le_lnum (addrOf le) les h0 hle hrest
      rw [if_pos hfirst, if_neg (by omega), hbs]
      simpa using hfirst
    · have hlt := BitVec.toInt_lt (x := le.le_lnum)
      rw [if_neg hfirst, if_pos (by omega)]
      simpa using hfirst

/-- Behind an entry that is read right, the next one is read right just when the step is kept. -/
theorem addrRead_iff : addrRead a.le_lnum (addrOf a) (addrOf a) le = addrOf le ↔ KeepsStep a le := by
  unfold addrRead KeepsStep
  by_cases hshort : IsShort a.le_lnum (addrOf a) le
  · obtain ⟨hlnum, hlow, hhigh⟩ := id hshort
    have hread : asRead (addrOf le - addrOf a).toInt = (addrOf le - addrOf a).toInt ↔
        ((addrOf le - addrOf a).toInt < 0 → (addrOf le - addrOf a).toInt = -128) := by
      unfold asRead
      split <;> omega
    have hsmall : (BitVec.ofInt 32 (asRead (addrOf le - addrOf a).toInt)).toInt =
        asRead (addrOf le - addrOf a).toInt := by
      unfold asRead
      rw [BitVec.toInt_ofInt, Int.bmod_eq_of_le_mul_two] <;> split <;> omega
    rw [if_pos hshort]
    constructor
    · intro h _ _
      have hdelta : BitVec.ofInt 32 (asRead (addrOf le - addrOf a).toInt) = addrOf le - addrOf a := by
        generalize BitVec.ofInt 32 (asRead (addrOf le - addrOf a).toInt) = delta at h
        rw [← h, BitVec.add_comm, BitVec.add_sub_cancel]
      exact hread.mp (hsmall.symm.trans (congrArg BitVec.toInt hdelta))
    · intro h
      rw [hread.mpr (h hlnum hlow), BitVec.ofInt_toInt, BitVec.add_comm, BitVec.sub_add_cancel]
  · rw [if_neg hshort]
    unfold IsShort at hshort
    simp only [true_iff]
    intro hlnum hlow hneg
    omega

/-- The entries behind one that is read right. -/
theorem readBack_iff (hfits : ∀ le ∈ les, (addrOf le).signExtend 64 = le.le_addr) :
    readBack a.le_lnum (addrOf a) (addrOf a) les = les ↔ (a :: les).IsChain KeepsStep := by
  induction les generalizing a with
  | nil => simp [readBack]
  | cons le les ih =>
    have hle := hfits le List.mem_cons_self
    have hrest := ih (a := le) fun x hx => hfits x (List.mem_cons_of_mem le hx)
    rw [readBack, List.cons_eq_cons, List.isChain_cons_cons, ← addrRead_iff]
    constructor
    · rintro ⟨hentry, hles⟩
      have haddr : addrRead a.le_lnum (addrOf a) (addrOf a) le = addrOf le := by
        have haddr := congrArg addrOf hentry
        rwa [addrOf, setWidth_signExtend] at haddr
      rw [haddr] at hles
      exact ⟨haddr, hrest.mp hles⟩
    · rintro ⟨haddr, hchain⟩
      rw [haddr, hle]
      exact ⟨rfl, hrest.mpr hchain⟩

end

/-! ## All tables -/

section
variable {lnum addr : BitVec 32} {sizes : List Nat} {iptr : List (BitVec 8)}

theorem unpackAll_nil (iptr : List (BitVec 8)) :
    unpackAll [] iptr = if iptr = [] then some [] else none := by
  cases iptr with
  | nil => rfl
  | cons b bs => rfl

theorem unpackAll_cons (n : Nat) (sizes : List Nat) (iptr : List (BitVec 8)) :
    unpackAll (n :: sizes) iptr = (unpackEntries n 0 0 iptr).bind fun r =>
      (unpackAll sizes r.2).map (r.1 :: ·) := by
  have hletab : unpackLetab (n :: sizes) iptr = (unpackEntries n 0 0 iptr).bind fun r =>
      (unpackLetab sizes r.2).bind fun q => some (r.1 :: q.1, q.2) := rfl
  unfold unpackAll
  rw [hletab]
  cases unpackEntries n 0 0 iptr with
  | none => rfl
  | some r =>
    simp only [Option.bind_some]
    cases unpackLetab sizes r.2 with
    | none => rfl
    | some q =>
      obtain ⟨letabs, rest⟩ := q
      cases rest with
      | nil => rfl
      | cons b bs => rfl

/-- The functions without entries take no bytes. -/
theorem unpackAll_skip (sizes : List Nat) (iptr : List (BitVec 8)) :
    unpackAll sizes iptr = (unpackAll (sizes.dropWhile (· == 0)) iptr).map
      ((sizes.takeWhile (· == 0)).map (fun _ => []) ++ ·) := by
  induction sizes with
  | nil => cases iptr <;> rfl
  | cons n sizes ih =>
    by_cases hn : n = 0
    · subst hn
      rw [unpackAll_cons, List.dropWhile_cons_of_pos (by simp), List.takeWhile_cons_of_pos (by simp)]
      change (unpackAll sizes iptr).map _ = _
      rw [ih, Option.map_map]
      rfl
    · rw [List.dropWhile_cons_of_neg (by simpa using hn), List.takeWhile_cons_of_neg (by simpa using hn)]
      cases unpackAll (n :: sizes) iptr <;> rfl

/-- One turn of the loop takes an entry. -/
theorem unpackEntries_turn (n : Nat) (sf : List LnumEntry) (done : List (List LnumEntry)) :
    ((nextEntry lnum addr iptr).bind fun e => (unpackEntries n e.1.1 e.1.2 e.2).bind fun r =>
      (unpackAll sizes r.2).map fun rest =>
        done ++ (sf ++ [⟨e.1.2.signExtend 64, e.1.1⟩] ++ r.1) :: rest) =
      (unpackEntries (n + 1) lnum addr iptr).bind fun r =>
        (unpackAll sizes r.2).map fun rest => done ++ (sf ++ r.1) :: rest := by
  rw [unpackEntries_succ]
  change _ = (((nextEntry lnum addr iptr).bind fun e => (unpackEntries n e.1.1 e.1.2 e.2).bind
    fun r => some (⟨e.1.2.signExtend 64, e.1.1⟩ :: r.1, r.2))).bind _
  cases nextEntry lnum addr iptr with
  | none => rfl
  | some e =>
    simp only [Option.bind_some]
    cases unpackEntries n e.1.1 e.1.2 e.2 with
    | none => rfl
    | some r => simp

/-- The loop stores the entries of one function after the other. -/
theorem unpackLoop_eq (fuel size : Nat) (sf : List LnumEntry) (done : List (List LnumEntry))
    (hlen : sf.length ≤ size) (hfuel : size - sf.length + sizes.sum < fuel) :
    unpackLoop fuel ⟨size :: sizes, lnum, addr, done, sf⟩ iptr =
      (unpackEntries (size - sf.length) lnum addr iptr).bind fun r =>
        (unpackAll sizes r.2).map fun rest => done ++ (sf ++ r.1) :: rest := by
  induction fuel generalizing size sizes sf done lnum addr iptr with
  | zero => omega
  | succ fuel ih =>
    have hturn : ∀ (n : Nat) (sizes : List Nat) (sf : List LnumEntry)
        (done : List (List LnumEntry)) (lnum addr : BitVec 32), n + sizes.sum < fuel →
        (match nextEntry lnum addr iptr with
          | none => none
          | some ((lnum, addr), iptr) => unpackLoop fuel ⟨(sf.length + (n + 1)) :: sizes, lnum, addr,
              done, sf ++ [⟨addr.signExtend 64, lnum⟩]⟩ iptr) =
          (unpackEntries (n + 1) lnum addr iptr).bind fun r =>
            (unpackAll sizes r.2).map fun rest => done ++ (sf ++ r.1) :: rest := by
      intro n sizes sf done lnum addr hfuel
      rw [← unpackEntries_turn]
      cases nextEntry lnum addr iptr with
      | none => rfl
      | some e =>
        let sf' : List LnumEntry := sf ++ [⟨e.1.2.signExtend 64, e.1.1⟩]
        have hlen : sf'.length = sf.length + 1 := List.length_append
        have hnext := @ih e.1.1 e.1.2 sizes e.2 (sf.length + (n + 1)) sf' done (by omega) (by omega)
        rw [show sf.length + (n + 1) - sf'.length = n by omega] at hnext
        exact hnext
    by_cases hended : sf.length = size
    · have hzero : unpackEntries (size - sf.length) lnum addr iptr = some ([], iptr) := by
        rw [hended, Nat.sub_self]
        rfl
      have hsum := congrArg List.sum (List.takeWhile_append_dropWhile (p := (· == 0)) (l := sizes))
      rw [List.sum_append] at hsum
      rw [hzero, Option.bind_some, unpackAll_skip, Option.map_map]
      cases hleft : sizes.dropWhile (· == 0) with
      | nil =>
        simp only [unpackLoop, hended, hleft, if_true, true_or, true_and, unpackAll_nil]
        split <;> simp
      | cons next left =>
        have hnext : next ≠ 0 := by
          have := List.head?_dropWhile_not (· == 0) sizes
          rw [hleft] at this
          simpa using this
        obtain ⟨n, rfl⟩ := Nat.exists_eq_succ_of_ne_zero hnext
        rw [hleft, List.sum_cons] at hsum
        have hread := hturn n left [] (done ++ [sf] ++ (sizes.takeWhile (· == 0)).map fun _ => [])
          0#32 0#32 (by omega)
        have hskipped : ((unpackAll ((n + 1) :: left) iptr).map
            ((fun rest => done ++ (sf ++ []) :: rest) ∘
              ((sizes.takeWhile (· == 0)).map (fun _ => []) ++ ·))) =
            (unpackEntries (n + 1) 0#32 0#32 iptr).bind fun r => (unpackAll left r.2).map fun rest =>
              done ++ [sf] ++ (sizes.takeWhile (· == 0)).map (fun _ => []) ++ ([] ++ r.1) :: rest := by
          rw [unpackAll_cons]
          cases unpackEntries (n + 1) 0#32 0#32 iptr with
          | none => rfl
          | some r =>
            simp only [Option.bind_some]
            cases unpackAll left r.2 with
            | none => rfl
            | some rest => simp
        refine Eq.trans ?_ hskipped.symm
        rw [← hread]
        by_cases hempty : iptr = []
        · subst hempty
          have hnone : nextEntry 0#32 0#32 [] = none := rfl
          simp [unpackLoop, hended, hleft, hnone]
        · simp [unpackLoop, hended, hleft, hempty]
    · obtain ⟨n, rfl⟩ : ∃ n, size = sf.length + (n + 1) := ⟨size - sf.length - 1, by omega⟩
      have hread := hturn n sizes sf done lnum addr (by omega)
      rw [Nat.add_sub_cancel_left, ← hread]
      simp only [unpackLoop, hended, false_and, if_false]

end

/-! ## The tables of the functions -/

section
variable {sf : Symfunc} {sfs : List Symfunc} {les : List LnumEntry} {bs : List (BitVec 8)}

/-- The first entry of a table is absolute, so it does not matter what was before the table. -/
theorem readBack_table (h : AsMade les) (hfirst : ∀ le ∈ les.head?, le.le_lnum.toInt < 2 ^ 31 - 1000)
    (addr' : BitVec 32) : readBack (-1000) 0 addr' les = readBack (-1000) 0 0 les := by
  cases les with
  | nil => rfl
  | cons le les =>
    have hlong := @not_isShort_first 0 le (h.nonneg le List.mem_cons_self) (hfirst le rfl)
    simp only [readBack, addrRead, if_neg hlong]

/-- A table is read back just when its steps are kept. -/
theorem readBack_table_iff (h : AsMade les)
    (hfirst : ∀ le ∈ les.head?, le.le_lnum.toInt < 2 ^ 31 - 1000) :
    readBack (-1000) 0 0 les = les ↔ les.IsChain KeepsStep := by
  cases les with
  | nil => simp [readBack]
  | cons le les =>
    have hlong := @not_isShort_first 0 le (h.nonneg le List.mem_cons_self) (hfirst le rfl)
    have hle := h.fits le List.mem_cons_self
    rw [← readBack_iff fun x hx => h.fits x (List.mem_cons_of_mem le hx)]
    simp only [readBack, addrRead, if_neg hlong, hle, List.cons_eq_cons, true_and]

theorem writeLetabs_cons :
    writeLetabs (sf :: sfs) = some bs ↔ ∃ cs ds, writeLetab sf.sf_letab (-1000) 0 = some cs ∧
      writeLetabs sfs = some ds ∧ cs ++ ds = bs := by
  rw [writeLetabs]
  cases writeLetab sf.sf_letab (-1000) 0 with
  | none => simp
  | some cs => cases writeLetabs sfs <;> simp

/-- All tables are written unless a first line is too large. -/
theorem writeLetabs_iff (h : ∀ sf ∈ sfs, AsMade sf.sf_letab) :
    (∃ bs, writeLetabs sfs = some bs) ↔
      ∀ sf ∈ sfs, ∀ le ∈ sf.sf_letab.head?, le.le_lnum.toInt < 2 ^ 31 - 1000 := by
  induction sfs with
  | nil => simp [writeLetabs]
  | cons sf sfs ih =>
    rw [List.forall_mem_cons] at h ⊢
    rw [← ih h.2, ← writeLetab_iff h.1]
    constructor
    · rintro ⟨bs, hbs⟩
      obtain ⟨cs, ds, hcs, hds, -⟩ := writeLetabs_cons.mp hbs
      exact ⟨⟨cs, hcs⟩, ds, hds⟩
    · rintro ⟨⟨cs, hcs⟩, ds, hds⟩
      exact ⟨cs ++ ds, writeLetabs_cons.mpr ⟨cs, ds, hcs, hds, rfl⟩⟩

/-- The bytes are as many as counted, and both readers take all of them. -/
theorem writeLetabs_spec (h : ∀ sf ∈ sfs, AsMade sf.sf_letab) (hwrite : writeLetabs sfs = some bs) :
    bs.length = (sfs.map fun sf => letabNbytes sf.sf_letab).sum ∧
      Parses (unpackLetab (sfs.map (·.sf_letab.length)))
        (sfs.map fun sf => readBack (-1000) 0 0 sf.sf_letab) bs ∧
      ∀ l a, Parses (unpackEntries (sfs.map (·.sf_letab.length)).sum l a)
        (sfs.flatMap fun sf => readBack (-1000) 0 0 sf.sf_letab) bs := by
  induction sfs generalizing bs with
  | nil =>
    cases hwrite
    exact ⟨rfl, Parses.pure [], fun _ _ => Parses.pure []⟩
  | cons sf sfs ih =>
    have hfirst := (writeLetabs_iff h).mp ⟨bs, hwrite⟩
    rw [List.forall_mem_cons] at h hfirst
    obtain ⟨cs, ds, hcs, hds, rfl⟩ := writeLetabs_cons.mp hwrite
    obtain ⟨hlen, hunpack, hload⟩ := ih h.2 hds
    have hlong : ∀ lnum' : BitVec 32, ∀ le ∈ sf.sf_letab.head?, IsShort (-1000) 0 le → lnum' = -1000 :=
      fun _ le hle hshort => absurd hshort
        (not_isShort_first (h.1.nonneg le (List.mem_of_mem_head? hle)) (hfirst.1 le hle))
    refine ⟨?_, ?_, fun l a => ?_⟩
    · rw [List.length_append, length_writeLetab hcs, hlen]
      rfl
    · have hnil : ∀ l a, Parses (unpackEntries 0 l a) [] [] := fun _ _ => Parses.pure []
      have htable := parses_table hnil 0 0 hcs (hlong 0)
      rw [Nat.add_zero, List.append_nil, List.append_nil] at htable
      exact htable.bind (hunpack.map fun rest => readBack (-1000) 0 0 sf.sf_letab :: rest)
    · have htable := parses_table hload l a hcs (hlong l)
      rwa [readBack_table h.1 hfirst.1] at htable

theorem parses_whole {α : Type} {p : Parser α} {v : α} (h : Parses p v bs) : p bs = some (v, []) := by
  have := h []
  rwa [List.append_nil] at this

/-- The tables that `read_symtab` stores. -/
theorem readTables_eq (h : ∀ sf ∈ sfs, AsMade sf.sf_letab) (hwrite : writeLetabs sfs = some bs) :
    readTables (sfs.map (·.sf_letab.length)) bs =
      some (sfs.map fun sf => readBack (-1000) 0 0 sf.sf_letab) := by
  have hall : unpackAll (sfs.map (·.sf_letab.length)) bs =
      some (sfs.map fun sf => readBack (-1000) 0 0 sf.sf_letab) := by
    unfold unpackAll
    rw [parses_whole (writeLetabs_spec h hwrite).2.1]
  unfold readTables
  cases hsizes : sfs.map (·.sf_letab.length) with
  | nil =>
    rw [List.map_eq_nil_iff] at hsizes
    simp [hsizes]
  | cons size sizes =>
    rw [hsizes, unpackAll_cons] at hall
    rw [if_neg (List.cons_ne_nil _ _), unpackLoop_eq _ _ _ _ (Nat.zero_le _)
      (by rw [List.sum_cons, List.length_nil]; omega)]
    simpa using hall

/-- The tables that `load_symtab` makes. -/
theorem loadTables_eq (h : ∀ sf ∈ sfs, AsMade sf.sf_letab) (hwrite : writeLetabs sfs = some bs) :
    loadTables (sfs.map (·.sf_letab.length)) (sfs.map (·.sf_letab.length)).sum bs =
      some (sfs.map fun sf => (readBack (-1000) 0 0 sf.sf_letab).map loaded) := by
  have hload := ((writeLetabs_spec h hwrite).2.2 0#32 0#32).map fun les => les.map loaded
  have hsplit : (sfs.map (·.sf_letab.length)).splitLengths
      ((sfs.flatMap fun sf => readBack (-1000) 0 0 sf.sf_letab).map loaded) =
      sfs.map fun sf => (readBack (-1000) 0 0 sf.sf_letab).map loaded := by
    clear h hwrite hload
    induction sfs with
    | nil => rfl
    | cons sf sfs ih =>
      have hlen : ((readBack (-1000) 0 0 sf.sf_letab).map loaded).length = sf.sf_letab.length := by
        rw [List.length_map, length_readBack]
      rw [List.map_cons, List.splitLengths_cons, List.flatMap_cons, List.map_append,
        List.take_left' hlen, List.drop_left' hlen, ih, List.map_cons]
  unfold loadTables
  rw [if_neg (fun hne => hne rfl), loadEntries_eq, parses_whole hload]
  exact congrArg some hsplit

end

/-! ## The law -/

/-- What is written for the line numbers is read back just when no first line is within 1000 of
the largest int, and no address goes back by less than 256, but for 128, while the line goes on by
less than 128. -/
theorem line_tables_round_trip_iff (sfs : List Symfunc) (h : ∀ sf ∈ sfs, AsMade sf.sf_letab) :
    RoundTrips sfs ↔ ∀ sf ∈ sfs, Regular sf.sf_letab := by
  have hbuf : ∀ {letabs}, writeLetabs sfs = some letabs → ∀ rest, (letabs ++ rest).take
      (sfs.map fun sf => letabNbytes sf.sf_letab).sum = letabs := fun hwrite rest =>
    List.take_left' (writeLetabs_spec h hwrite).1
  constructor
  · rintro ⟨letabs, hwrite, hread⟩ sf hsf
    have hfirst := (writeLetabs_iff h).mp ⟨letabs, hwrite⟩ sf hsf
    have htables := (hread []).1
    rw [hbuf hwrite, readTables_eq h hwrite, Option.some_inj, List.map_inj_left] at htables
    exact ⟨hfirst, (readBack_table_iff (h sf hsf) hfirst).mp (htables sf hsf)⟩
  · intro hregular
    obtain ⟨letabs, hwrite⟩ := (writeLetabs_iff h).mpr fun sf hsf => (hregular sf hsf).first
    have htable : ∀ sf ∈ sfs, readBack (-1000) 0 0 sf.sf_letab = sf.sf_letab := fun sf hsf =>
      (readBack_table_iff (h sf hsf) (hregular sf hsf).first).mpr (hregular sf hsf).steps
    refine ⟨letabs, hwrite, fun rest => ?_⟩
    dsimp only
    rw [hbuf hwrite, readTables_eq h hwrite, loadTables_eq h hwrite]
    refine ⟨?_, ?_⟩
    · rw [List.map_congr_left htable]
    · rw [List.map_congr_left fun sf hsf => congrArg _ (htable sf hsf)]

/-- A function without lines, and one whose address goes back by 128 and then by 300. -/
def twoFunctions : List Symfunc :=
  [⟨[102#8], 1#64, []⟩,
    ⟨[103#8], 40#64, [⟨428#64, 7#32⟩, ⟨300#64, 8#32⟩, ⟨0#64, 8#32⟩, ⟨200#64, 300#32⟩]⟩]

theorem twoFunctions_asMade : ∀ sf ∈ twoFunctions, AsMade sf.sf_letab := by
  unfold twoFunctions
  rw [List.forall_mem_cons, List.forall_mem_singleton]
  exact ⟨⟨by decide, by decide, by decide⟩, by decide, by decide, by decide⟩

theorem twoFunctions_regular : ∀ sf ∈ twoFunctions, Regular sf.sf_letab := by
  unfold twoFunctions
  rw [List.forall_mem_cons, List.forall_mem_singleton]
  exact ⟨⟨by decide, by decide⟩, by decide, by decide⟩

theorem twoFunctions_round_trip : RoundTrips twoFunctions :=
  (line_tables_round_trip_iff twoFunctions twoFunctions_asMade).mpr twoFunctions_regular

/-- An address one less than the one before comes back as 255 less. -/
theorem a_step_back_by_one_is_read_as_255 :
    ¬ ∀ sfs : List Symfunc, (∀ sf ∈ sfs, AsMade sf.sf_letab) → RoundTrips sfs := by
  intro h
  have hround := h [⟨[102#8], 1#64, [⟨400#64, 1#32⟩, ⟨399#64, 2#32⟩]⟩] fun sf hsf => by
    obtain rfl := List.mem_singleton.mp hsf
    exact ⟨by decide, by decide, by decide⟩
  obtain ⟨letabs, hwrite, hread⟩ := hround
  have htables : (writeLetabs [⟨[102#8], 1#64, [⟨400#64, 1#32⟩, ⟨399#64, 2#32⟩]⟩]).bind
      (readTables [2]) = some [[⟨400#64, 1#32⟩, ⟨145#64, 2#32⟩]] := by decide
  rw [hwrite, Option.bind_some] at htables
  have hlen : letabs.length = 20 := by
    have : (writeLetabs [⟨[102#8], 1#64, [⟨400#64, 1#32⟩, ⟨399#64, 2#32⟩]⟩]).map List.length =
        some 20 := by decide
    rw [hwrite] at this
    simpa using this
  have hwrong := (hread []).1
  have htake : (letabs ++ []).take 20 = letabs := List.take_left' hlen
  change readTables [2] ((letabs ++ []).take 20) = _ at hwrong
  rw [htake, htables] at hwrong
  revert hwrong
  decide

end ups_rules.line_tables
