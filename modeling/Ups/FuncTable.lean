-- The table of the functions of a text segment, sorted by address (st_fmap.c), and the search for
-- the function that an address is in. The functions are records in memory that the list and the
-- table both point to.
import Mathlib.Data.List.Nodup
import Mathlib.Logic.Function.Basic
import Ups.Machine
import Ups.MergeSort

open ups_rules.machine
open ups_rules.merge_sort

namespace ups_rules.func_table

/-! ## The pure model -/

/-- A func_t as far as its place in the table goes. -/
structure Func where
  fu_addr : Word
  fu_flags : BitVec 32

def FU_NOSYM : BitVec 32 := 0x1
def FU_STATIC : BitVec 32 := 0x10
def FU_WEAK : BitVec 32 := 0x20
def FU_DUPLICATE : BitVec 32 := 0x80

/-- The address of a func_t. -/
abbrev Ptr := Nat

/-- The functions in memory. -/
abbrev Funcs := Ptr → Func

/-- A functab_t. The function that marks the end is on no list: only its address is of interest. -/
structure Functab where
  addr_base : Word
  addr_lim : Word
  tab : List Ptr
  high_func_addr : Word

def flag (f : Func) (mask : BitVec 32) : BitVec 32 := f.fu_flags &&& mask

def addrcmp (f1 f2 : Func) : Int :=
  if f1.fu_addr ≠ f2.fu_addr then if f1.fu_addr < f2.fu_addr then -1 else 1
  else if flag f1 FU_NOSYM ≠ flag f2 FU_NOSYM then if flag f1 FU_NOSYM = 0#32 then -1 else 1
  else if flag f1 FU_WEAK ≠ flag f2 FU_WEAK then if flag f1 FU_WEAK ≠ 0#32 then -1 else 1
  else if flag f1 FU_STATIC ≠ flag f2 FU_STATIC then if flag f1 FU_STATIC = 0#32 then -1 else 1
  else 0

def setFlags (fu : Funcs) (f : Ptr) (flags : BitVec 32) : Funcs :=
  Function.update fu f { fu f with fu_flags := flags }

/-- The two loops of `sort_functab` over the sorted list, from `f` on: what is behind it either has
its address and is taken out of the list, or is the next function of the outer loop. -/
def dropDuplicates (fu : Funcs) (f : Ptr) : List Ptr → Funcs × List Ptr
  | [] => (fu, [f])
  | next :: rest =>
    if (fu f).fu_addr = (fu next).fu_addr then
      let fu := if flag (fu next) FU_STATIC = 0#32 then setFlags fu f ((fu f).fu_flags &&& ~~~FU_STATIC)
        else fu
      let fu := setFlags fu next ((fu next).fu_flags ||| FU_DUPLICATE)
      dropDuplicates fu f rest
    else
      let (fu, kept) := dropDuplicates fu next rest
      (fu, f :: kept)

/-- The functions behind it, the list that it returns and the table that it fills, which have the
same functions. -/
def sortFunctab (fu : Funcs) (flist : List Ptr) (flist_len : Nat) : Funcs × List Ptr :=
  match sortList (fun f g => addrcmp (fu f) (fu g)) flist flist_len with
  | [] => (fu, [])
  | f :: rest => dropDuplicates fu f rest

/-- The loop that adds to the addresses of the functions of a list. -/
def addOffset (fu : Funcs) (flist : List Ptr) (offset : Word) : Funcs :=
  flist.foldl (fun fu f => Function.update fu f { fu f with fu_addr := (fu f).fu_addr + offset }) fu

def makeFuncinfo (fu : Funcs) (flist : List Ptr) (flist_len : Nat)
    (addr_base addr_lim addr_offset : Word) : Funcs × List Ptr × Functab :=
  let fu := addOffset fu flist addr_offset
  let (fu, funclist) := sortFunctab fu flist flist_len
  (fu, funclist, ⟨addr_base, addr_lim, funclist, addr_lim⟩)

/-- The line numbers and the variables of a function are left out. -/
def adjustFunctabTextAddrBase (fu : Funcs) (functab : Functab) (funclist : List Ptr)
    (delta : Word) : Funcs × Functab :=
  (addOffset fu funclist delta,
    { functab with
      addr_base := functab.addr_base + delta
      addr_lim := functab.addr_lim + delta
      high_func_addr := functab.high_func_addr + delta })

/-- The address of the function in an entry of the table; `none` is not in the table. -/
def entryAddr (fu : Funcs) (functab : Functab) (i : Int) : Option Word :=
  if i < 0 then none
  else if i.toNat < functab.tab.length then functab.tab[i.toNat]?.map fun f => (fu f).fu_addr
  else if i.toNat = functab.tab.length then some functab.high_func_addr
  else none

/-- The loop of `addr_and_functab_to_func`, with indices for the pointers into the table, which may
come to lie before it. `none` is a read outside of the table. -/
def searchLoop (fu : Funcs) (functab : Functab) (addr : Word) (low high : Int) :
    Option (Option Ptr) :=
  if low ≤ high then
    let mid := low + (high - low) / 2
    match entryAddr fu functab mid with
    | none => none
    | some maddr =>
      if maddr ≤ addr ∧ mid = functab.tab.length then some none
      else if maddr ≤ addr then
        match entryAddr fu functab (mid + 1) with
        | none => none
        | some above =>
          if addr < above then some functab.tab[mid.toNat]?
          else searchLoop fu functab addr (mid + 1) high
      else searchLoop fu functab addr low (mid - 1)
  else some none
termination_by (high - low + 1).toNat
decreasing_by all_goals omega

/-- `some none` is FALSE. -/
def addrAndFunctabToFunc (fu : Funcs) (functab : Functab) (addr : Word) : Option (Option Ptr) :=
  if addr < functab.addr_base ∨ functab.addr_lim ≤ addr then some none
  else searchLoop fu functab addr 0 functab.tab.length

/-! ## Comparing -/

variable {fu : Funcs} {functab : Functab} {flist rest : List Ptr} {f g : Ptr}

/-- A flag of one bit is off or on. -/
theorem flag_eq_iff (f g : Func) (i : Nat) :
    flag f (BitVec.twoPow 32 i) = flag g (BitVec.twoPow 32 i) ↔
      (flag f (BitVec.twoPow 32 i) = 0#32 ↔ flag g (BitVec.twoPow 32 i) = 0#32) := by
  unfold flag
  rw [BitVec.and_twoPow, BitVec.and_twoPow]
  split_ifs <;> simp [eq_comm]

/-- The part of the order that only functions of one address need. -/
def flagKey (f : Func) : Nat :=
  (if flag f FU_NOSYM = 0#32 then 0 else 4) + (if flag f FU_WEAK = 0#32 then 2 else 0) +
    if flag f FU_STATIC = 0#32 then 0 else 1

/-- The order that `addrcmp` sorts into. -/
def addrKey (f : Func) : Nat := 8 * f.fu_addr.toNat + flagKey f

theorem flagKey_lt (f : Func) : flagKey f < 8 := by
  unfold flagKey
  split_ifs <;> omega

/-- The sign of a difference. -/
def sign (a b : Nat) : Int := if a < b then -1 else if b < a then 1 else 0

theorem addrcmp_flags {f1 f2 : Func} (h : f1.fu_addr = f2.fu_addr) :
    addrcmp f1 f2 = sign (flagKey f1) (flagKey f2) := by
  have hnosym : flag f1 FU_NOSYM = flag f2 FU_NOSYM ↔
      (flag f1 FU_NOSYM = 0#32 ↔ flag f2 FU_NOSYM = 0#32) := flag_eq_iff f1 f2 0
  have hweak : flag f1 FU_WEAK = flag f2 FU_WEAK ↔
      (flag f1 FU_WEAK = 0#32 ↔ flag f2 FU_WEAK = 0#32) := flag_eq_iff f1 f2 5
  have hstatic : flag f1 FU_STATIC = flag f2 FU_STATIC ↔
      (flag f1 FU_STATIC = 0#32 ↔ flag f2 FU_STATIC = 0#32) := flag_eq_iff f1 f2 4
  unfold addrcmp sign flagKey
  rw [if_neg (by simp [h])]
  simp only [ne_eq, hnosym, hweak, hstatic]
  by_cases hn1 : flag f1 FU_NOSYM = 0#32 <;> by_cases hn2 : flag f2 FU_NOSYM = 0#32 <;>
    by_cases hw1 : flag f1 FU_WEAK = 0#32 <;> by_cases hw2 : flag f2 FU_WEAK = 0#32 <;>
    by_cases hs1 : flag f1 FU_STATIC = 0#32 <;> by_cases hs2 : flag f2 FU_STATIC = 0#32 <;>
    simp [hn1, hn2, hw1, hw2, hs1, hs2]

theorem addrcmp_eq (f1 f2 : Func) : addrcmp f1 f2 = sign (addrKey f1) (addrKey f2) := by
  have hlt1 := flagKey_lt f1
  have hlt2 := flagKey_lt f2
  unfold addrKey
  by_cases h : f1.fu_addr = f2.fu_addr
  · rw [addrcmp_flags h, h]
    unfold sign
    split_ifs <;> omega
  · have hne : f1.fu_addr.toNat ≠ f2.fu_addr.toNat := fun hc => h (BitVec.eq_of_toNat_eq hc)
    unfold addrcmp sign
    rw [if_pos h]
    simp only [BitVec.lt_def]
    split_ifs <;> omega

/-- The list is sorted. -/
theorem sortList_addrcmp (fu : Funcs) (flist : List Ptr) :
    (sortList (fun f g => addrcmp (fu f) (fu g)) flist flist.length).Pairwise
      fun f g => addrKey (fu f) ≤ addrKey (fu g) := by
  apply sortList_sorted (v := fun f => addrKey (fu f))
  · intro f g heq
    rw [addrcmp_eq, heq]
    simp [sign]
  · rfl
  · apply sortSafe_of_forall
    intro f g
    unfold Right
    dsimp only
    rw [addrcmp_eq]
    unfold sign
    split_ifs <;> omega

/-! ## Duplicates -/

theorem setFlags_of_ne (h : g ≠ f) (flags : BitVec 32) : setFlags fu f flags g = fu g :=
  Function.update_of_ne h _ _

theorem setFlags_addr (fu : Funcs) (f g : Ptr) (flags : BitVec 32) :
    (setFlags fu f flags g).fu_addr = (fu g).fu_addr := by
  unfold setFlags
  by_cases h : g = f
  · rw [h, Function.update_self]
  · rw [Function.update_of_ne h]

theorem flag_clear_static (flags : BitVec 32) :
    (flags &&& ~~~FU_STATIC) &&& FU_DUPLICATE = flags &&& FU_DUPLICATE := by
  rw [BitVec.and_assoc]
  rfl

theorem flag_set_duplicate (flags : BitVec 32) : (flags ||| FU_DUPLICATE) &&& FU_DUPLICATE ≠ 0 := by
  intro h
  have hbit := congrArg (fun x : BitVec 32 => x.getLsbD 7) h
  simp [FU_DUPLICATE] at hbit

/-- The functions after the head of a run of one address was compared with the next one. -/
def flagNext (fu : Funcs) (f next : Ptr) : Funcs :=
  let fu := if flag (fu next) FU_STATIC = 0#32 then setFlags fu f ((fu f).fu_flags &&& ~~~FU_STATIC)
    else fu
  setFlags fu next ((fu next).fu_flags ||| FU_DUPLICATE)

theorem dropDuplicates_cons (fu : Funcs) (f next : Ptr) (rest : List Ptr) :
    dropDuplicates fu f (next :: rest) =
      if (fu f).fu_addr = (fu next).fu_addr then dropDuplicates (flagNext fu f next) f rest
      else ((dropDuplicates fu next rest).1, f :: (dropDuplicates fu next rest).2) := rfl

/-- What flagging a function changes. -/
structure Flags (fu fu' : Funcs) (f next : Ptr) : Prop where
  addr : ∀ g, (fu' g).fu_addr = (fu g).fu_addr
  other : ∀ g, g ≠ f → g ≠ next → fu' g = fu g
  kept : flag (fu' f) FU_DUPLICATE = flag (fu f) FU_DUPLICATE
  dropped : flag (fu' next) FU_DUPLICATE ≠ 0

theorem flagNext_spec (fu : Funcs) {f next : Ptr} (hne : f ≠ next) :
    Flags fu (flagNext fu f next) f next := by
  unfold flagNext
  refine ⟨?_, ?_, ?_, ?_⟩
  · intro g
    split_ifs <;> simp only [setFlags_addr]
  · intro g hf hnext
    split_ifs <;> simp only [setFlags_of_ne hf, setFlags_of_ne hnext]
  · rw [setFlags_of_ne hne]
    split_ifs
    · unfold setFlags flag
      rw [Function.update_self]
      exact flag_clear_static _
    · rfl
  · unfold flag
    rw [setFlags, Function.update_self]
    exact flag_set_duplicate _

/-- What the loops keep of a run of the sorted list, in which `R` holds of the pairs in order. -/
structure Drops (R : Ptr → Ptr → Prop) (fu : Funcs) (list : List Ptr) (fu' : Funcs)
    (kept : List Ptr) : Prop where
  addr : ∀ g, (fu' g).fu_addr = (fu g).fu_addr
  other : ∀ g, g ∉ list → fu' g = fu g
  sublist : kept.Sublist list
  increasing : kept.Pairwise fun g h => (fu g).fu_addr < (fu h).fu_addr
  first : ∀ p ∈ list, ∃ g ∈ kept, (fu g).fu_addr = (fu p).fu_addr ∧ (g = p ∨ R g p)
  duplicate : ∀ p ∈ list, p ∉ kept → flag (fu' p) FU_DUPLICATE ≠ 0
  single : ∀ p ∈ kept, flag (fu' p) FU_DUPLICATE = flag (fu p) FU_DUPLICATE

theorem dropDuplicates_spec (R : Ptr → Ptr → Prop) (fu : Funcs) (f : Ptr) (rest : List Ptr)
    (hnodup : (f :: rest).Nodup) (hR : (f :: rest).Pairwise R)
    (hsorted : (f :: rest).Pairwise fun g h => (fu g).fu_addr ≤ (fu h).fu_addr) :
    f ∈ (dropDuplicates fu f rest).2 ∧
      Drops R fu (f :: rest) (dropDuplicates fu f rest).1 (dropDuplicates fu f rest).2 := by
  induction rest generalizing fu f with
  | nil =>
    refine ⟨List.mem_singleton_self f, fun _ => rfl, fun _ _ => rfl, List.Sublist.refl _,
      List.pairwise_singleton _ _, ?_, ?_, fun _ _ => rfl⟩
    · intro p hp
      exact ⟨p, hp, rfl, .inl rfl⟩
    · intro p hp hnot
      exact absurd hp hnot
  | cons next rest ih =>
    obtain ⟨hf, hrest⟩ := List.nodup_cons.mp hnodup
    obtain ⟨hnext, hnodup'⟩ := List.nodup_cons.mp hrest
    obtain ⟨hRf, hRrest⟩ := List.pairwise_cons.mp hR
    obtain ⟨hlef, hlerest⟩ := List.pairwise_cons.mp hsorted
    have hne : f ≠ next := fun hc => hf (by simp [hc])
    rw [dropDuplicates_cons]
    by_cases heq : (fu f).fu_addr = (fu next).fu_addr
    · rw [if_pos heq]
      have hflags := flagNext_spec fu hne
      have hskip : (f :: rest).Sublist (f :: next :: rest) :=
        (List.sublist_cons_self next rest).cons_cons f
      obtain ⟨hmem, h⟩ := ih (flagNext fu f next) f (hnodup.sublist hskip) (hR.sublist hskip) <| by
        simp only [hflags.addr]
        exact hsorted.sublist hskip
      have hnotin : next ∉ f :: rest := by
        rw [List.mem_cons, not_or]
        exact ⟨hne.symm, hnext⟩
      refine ⟨hmem, ?_, ?_, h.sublist.trans hskip, ?_, ?_, ?_, ?_⟩
      · intro g
        rw [h.addr, hflags.addr]
      · intro g hg
        have hgf : g ≠ f := fun hc => hg (by simp [hc])
        have hgn : g ≠ next := fun hc => hg (by simp [hc])
        rw [h.other g fun hc => hg (hskip.subset hc), hflags.other g hgf hgn]
      · simpa only [hflags.addr] using h.increasing
      · intro p hp
        by_cases hpn : p = next
        · refine ⟨f, hmem, ?_, .inr (hRf p (by simp [hpn]))⟩
          rw [hpn, heq]
        · obtain ⟨g, hg, haddr, hgp⟩ := h.first p (by simpa [hpn] using hp)
          exact ⟨g, hg, by simpa only [hflags.addr] using haddr, hgp⟩
      · intro p hp hnot
        by_cases hpn : p = next
        · rw [hpn, h.other next hnotin]
          exact hflags.dropped
        · exact h.duplicate p (by simpa [hpn] using hp) hnot
      · intro p hp
        rw [h.single p hp]
        by_cases hpf : p = f
        · rw [hpf, hflags.kept]
        · have hpn : p ≠ next := fun hc => hnotin (hc ▸ h.sublist.subset hp)
          rw [hflags.other p hpf hpn]
    · rw [if_neg heq]
      obtain ⟨hmem, h⟩ := ih fu next hrest hRrest hlerest
      have hlt : (fu f).fu_addr < (fu next).fu_addr := by
        have hle := hlef next (by simp)
        have hne : (fu f).fu_addr.toNat ≠ (fu next).fu_addr.toNat :=
          fun hc => heq (BitVec.eq_of_toNat_eq hc)
        rw [BitVec.le_def] at hle
        rw [BitVec.lt_def]
        omega
      refine ⟨by simp, h.addr, ?_, h.sublist.cons_cons f, ?_, ?_, ?_, ?_⟩
      · intro g hg
        exact h.other g fun hc => hg (List.mem_cons_of_mem f hc)
      · refine List.pairwise_cons.mpr ⟨?_, h.increasing⟩
        intro g hg
        have hle : (fu next).fu_addr ≤ (fu g).fu_addr := by
          rcases List.mem_cons.mp (h.sublist.subset hg) with rfl | hg
          · exact BitVec.le_refl _
          · exact (List.pairwise_cons.mp hlerest).1 g hg
        rw [BitVec.lt_def] at hlt ⊢
        rw [BitVec.le_def] at hle
        omega
      · intro p hp
        rcases List.mem_cons.mp hp with rfl | hp
        · exact ⟨p, by simp, rfl, .inl rfl⟩
        · obtain ⟨g, hg, haddr, hgp⟩ := h.first p hp
          exact ⟨g, List.mem_cons_of_mem f hg, haddr, hgp⟩
      · intro p hp hnot
        rw [List.mem_cons, not_or] at hnot
        exact h.duplicate p (by simpa [hnot.1] using hp) hnot.2
      · intro p hp
        rcases List.mem_cons.mp hp with rfl | hp
        · dsimp only
          rw [h.other p hf]
        · exact h.single p hp

theorem sortFunctab_spec (fu : Funcs) (hnodup : flist.Nodup) :
    ∃ list, list.Perm flist ∧
      Drops (fun g p => addrcmp (fu g) (fu p) ≤ 0) fu list (sortFunctab fu flist flist.length).1
        (sortFunctab fu flist flist.length).2 := by
  have hperm := sortList_perm (fun f g => addrcmp (fu f) (fu g)) flist flist.length
  have hsorted := sortList_addrcmp fu flist
  refine ⟨_, hperm, ?_⟩
  unfold sortFunctab
  generalize sortList (fun f g => addrcmp (fu f) (fu g)) flist flist.length = list at *
  cases list with
  | nil => exact ⟨fun _ => rfl, fun _ _ => rfl, List.Sublist.refl _, List.Pairwise.nil, nofun, nofun,
      nofun⟩
  | cons f rest =>
    refine (dropDuplicates_spec _ fu f rest (hperm.nodup_iff.mpr hnodup) ?_ ?_).2
    · refine hsorted.imp fun {g p} hle => ?_
      rw [addrcmp_eq]
      unfold sign
      split_ifs <;> omega
    · refine hsorted.imp fun {g p} hle => ?_
      have hlt1 := flagKey_lt (fu g)
      have hlt2 := flagKey_lt (fu p)
      unfold addrKey at hle
      rw [BitVec.le_def]
      omega

/-! ## Searching -/

/-- What is found: the function of the greatest address that is not above, or none if they all are
above. -/
def Greatest (fu : Funcs) (tab : List Ptr) (addr : Word) : Option Ptr → Prop
  | some f => f ∈ tab ∧ (fu f).fu_addr ≤ addr ∧
    ∀ g ∈ tab, (fu g).fu_addr ≤ addr → (fu g).fu_addr ≤ (fu f).fu_addr
  | none => ∀ g ∈ tab, addr < (fu g).fu_addr

/-- The functions of the table are in order. -/
def Increasing (fu : Funcs) (tab : List Ptr) : Prop :=
  tab.Pairwise fun f g => (fu f).fu_addr < (fu g).fu_addr

theorem entryAddr_tab {i : Nat} (hi : i < functab.tab.length) :
    entryAddr fu functab i = some (fu functab.tab[i]).fu_addr := by
  unfold entryAddr
  rw [if_neg (by omega), if_pos (by omega)]
  simp [hi]

theorem entryAddr_high : entryAddr fu functab functab.tab.length = some functab.high_func_addr := by
  unfold entryAddr
  rw [if_neg (by omega), if_neg (by simp), if_pos (by simp)]

theorem Increasing.le {tab : List Ptr} (h : Increasing fu tab) {i j : Nat} (hi : i < tab.length)
    (hj : j < tab.length) (hij : i ≤ j) : (fu tab[i]).fu_addr.toNat ≤ (fu tab[j]).fu_addr.toNat := by
  rcases Nat.lt_or_eq_of_le hij with hlt | rfl
  · exact Nat.le_of_lt (List.pairwise_iff_getElem.mp h i j hi hj hlt)
  · exact Nat.le_refl _

/-- What the search knows: the entry at the lower index is not above the address, unless it is the
first one, and those behind the upper index are above. -/
structure Narrowed (fu : Funcs) (functab : Functab) (addr : Word) (low high : Int) : Prop where
  low_nonneg : 0 ≤ low
  high_le : high ≤ functab.tab.length
  below : low = 0 ∨ ∃ (i : Nat) (hi : i < functab.tab.length),
    low = i ∧ (fu functab.tab[i]).fu_addr ≤ addr
  above : ∀ (i : Nat) (hi : i < functab.tab.length), high < i → addr < (fu functab.tab[i]).fu_addr

theorem greatest_of_next (hinc : Increasing fu functab.tab) {addr : Word} {k : Nat}
    (hk : k < functab.tab.length) (hle : (fu functab.tab[k]).fu_addr ≤ addr)
    (hnext : ∀ hk' : k + 1 < functab.tab.length, addr < (fu functab.tab[k + 1]).fu_addr) :
    Greatest fu functab.tab addr (some functab.tab[k]) := by
  refine ⟨List.getElem_mem hk, hle, ?_⟩
  intro g hg hgle
  obtain ⟨j, hj, rfl⟩ := List.mem_iff_getElem.mp hg
  rw [BitVec.le_def] at hgle ⊢
  by_cases hjk : j ≤ k
  · exact hinc.le hj hk hjk
  · have hlt := hnext (by omega)
    have hle' := hinc.le (by omega : k + 1 < functab.tab.length) hj (by omega)
    rw [BitVec.lt_def] at hlt
    omega

theorem searchLoop_spec (hinc : Increasing fu functab.tab) {addr : Word}
    (hend : addr < functab.high_func_addr) {low high : Int}
    (h : Narrowed fu functab addr low high) :
    ∃ r, searchLoop fu functab addr low high = some r ∧ Greatest fu functab.tab addr r := by
  have hendNat : addr.toNat < functab.high_func_addr.toNat := hend
  induction hn : (high - low + 1).toNat using Nat.strong_induction_on generalizing low high with
  | h n ih =>
    obtain ⟨hlow, hhigh, hbelow, habove⟩ := h
    rw [searchLoop]
    by_cases hle : low ≤ high
    case neg =>
      rw [if_neg hle]
      refine ⟨none, rfl, ?_⟩
      intro g hg
      obtain ⟨i, hi, rfl⟩ := List.mem_iff_getElem.mp hg
      rcases hbelow with hzero | ⟨j, hj, hlj, hjle⟩
      · exact habove i hi (by omega)
      · have hlt := habove j hj (by omega)
        rw [BitVec.lt_def] at hlt
        rw [BitVec.le_def] at hjle
        omega
    case pos =>
      rw [if_pos hle]
      obtain ⟨k, hk⟩ := Int.eq_ofNat_of_zero_le (by omega : 0 ≤ low + (high - low) / 2)
      have hlk : low ≤ k := by omega
      have hkh : (k : Int) ≤ high := by omega
      dsimp only
      rw [hk]
      -- The upper half is left for the entries behind the middle, and the middle one.
      have hleft : (∀ hi : k < functab.tab.length, addr < (fu functab.tab[k]).fu_addr) →
          ∃ r, searchLoop fu functab addr low (k - 1) = some r ∧
            Greatest fu functab.tab addr r := by
        intro hkabove
        refine ih _ ?_ ⟨hlow, by omega, hbelow, ?_⟩ rfl
        · clear hbelow
          omega
        · intro i hi hki
          have hle := hinc.le (by omega : k < functab.tab.length) hi (by omega)
          have hlt := hkabove (by omega)
          rw [BitVec.lt_def] at hlt ⊢
          omega
      by_cases hlast : k = functab.tab.length
      · have hnot : ¬ functab.high_func_addr ≤ addr := by
          rw [BitVec.le_def]
          omega
        rw [hlast, entryAddr_high]
        dsimp only
        rw [if_neg (by simp [hnot]), if_neg hnot]
        rw [hlast] at hleft
        exact hleft fun hi => absurd hi (by omega)
      · have hkn : k < functab.tab.length := by omega
        rw [entryAddr_tab hkn]
        dsimp only
        rw [if_neg (by simp [hlast])]
        by_cases hkle : (fu functab.tab[k]).fu_addr ≤ addr
        case neg =>
          rw [if_neg hkle]
          refine hleft fun _ => ?_
          rw [BitVec.le_def] at hkle
          rw [BitVec.lt_def]
          omega
        case pos =>
          rw [if_pos hkle]
          rw [show (k : Int) + 1 = ((k + 1 : Nat) : Int) by omega]
          by_cases hnext : k + 1 < functab.tab.length
          · rw [entryAddr_tab hnext]
            dsimp only
            by_cases hlt : addr < (fu functab.tab[k + 1]).fu_addr
            · rw [if_pos hlt]
              refine ⟨some functab.tab[k], by simp [hkn], ?_⟩
              exact greatest_of_next hinc hkn hkle fun _ => hlt
            · rw [if_neg hlt]
              refine ih _ ?_ ⟨by omega, hhigh, .inr ⟨k + 1, hnext, rfl, ?_⟩, habove⟩ rfl
              · clear hbelow
                omega
              · rw [BitVec.lt_def] at hlt
                rw [BitVec.le_def]
                omega
          · rw [show k + 1 = functab.tab.length by omega, entryAddr_high]
            dsimp only
            rw [if_pos hend]
            refine ⟨some functab.tab[k], by simp [hkn], ?_⟩
            exact greatest_of_next hinc hkn hkle fun hc => absurd hc hnext

/-! ## The law -/

theorem addOffset_spec (fu : Funcs) (hnodup : flist.Nodup) (offset : Word) (f : Ptr) :
    addOffset fu flist offset f =
      if f ∈ flist then { fu f with fu_addr := (fu f).fu_addr + offset } else fu f := by
  unfold addOffset
  induction flist generalizing fu with
  | nil => rfl
  | cons g flist ih =>
    obtain ⟨hg, hnodup⟩ := List.nodup_cons.mp hnodup
    rw [List.foldl_cons, ih _ hnodup]
    by_cases hfg : f = g
    · rw [hfg, if_neg hg, if_pos (by simp), Function.update_self]
    · simp [hfg]

/-- The list and the table have one function for each address, in order: the first one of that
address, and the others are flagged. -/
structure OnePerAddress (fu fu' : Funcs) (flist funclist tab : List Ptr) : Prop where
  same : tab = funclist
  addr : ∀ f, (fu' f).fu_addr = (fu f).fu_addr
  mem : ∀ f ∈ funclist, f ∈ flist
  increasing : Increasing fu' funclist
  one : ∀ f ∈ flist, ∃ g ∈ funclist, (fu g).fu_addr = (fu f).fu_addr ∧ addrcmp (fu g) (fu f) ≤ 0
  duplicate : ∀ f ∈ flist, f ∉ funclist → flag (fu' f) FU_DUPLICATE ≠ 0#32
  single : ∀ f ∈ funclist, flag (fu' f) FU_DUPLICATE = flag (fu f) FU_DUPLICATE

/-- No address wraps around when `delta` is added to it. -/
structure NoWrap (fu : Funcs) (functab : Functab) (addr delta : Word) : Prop where
  addr : (addr + delta).toNat = addr.toNat + delta.toInt
  base : (functab.addr_base + delta).toNat = functab.addr_base.toNat + delta.toInt
  lim : (functab.addr_lim + delta).toNat = functab.addr_lim.toNat + delta.toInt
  high : (functab.high_func_addr + delta).toNat = functab.high_func_addr.toNat + delta.toInt
  tab : ∀ f ∈ functab.tab, ((fu f).fu_addr + delta).toNat = (fu f).fu_addr.toNat + delta.toInt

theorem entryAddr_adjust {delta : Word} (hnodup : functab.tab.Nodup) (i : Int) :
    entryAddr (adjustFunctabTextAddrBase fu functab functab.tab delta).1
        (adjustFunctabTextAddrBase fu functab functab.tab delta).2 i =
      (entryAddr fu functab i).map (· + delta) := by
  unfold adjustFunctabTextAddrBase entryAddr
  dsimp only
  split_ifs with hneg htab hend
  · rfl
  · rw [List.getElem?_eq_getElem htab, Option.map_some, Option.map_some, Option.map_some,
      addOffset_spec fu hnodup, if_pos (List.getElem_mem htab)]
  · rfl
  · rfl

theorem entryAddr_noWrap {addr delta maddr : Word} (h : NoWrap fu functab addr delta) {i : Int}
    (hi : entryAddr fu functab i = some maddr) :
    (maddr + delta).toNat = maddr.toNat + delta.toInt := by
  unfold entryAddr at hi
  split_ifs at hi with hneg htab hend
  · rw [List.getElem?_eq_getElem htab] at hi
    cases hi
    exact h.tab _ (List.getElem_mem htab)
  · cases hi
    exact h.high

/-- The search compares as before. -/
theorem searchLoop_adjust {addr delta : Word} (hnodup : functab.tab.Nodup)
    (h : NoWrap fu functab addr delta) (low high : Int) :
    searchLoop (adjustFunctabTextAddrBase fu functab functab.tab delta).1
        (adjustFunctabTextAddrBase fu functab functab.tab delta).2 (addr + delta) low high =
      searchLoop fu functab addr low high := by
  have haddr := h.addr
  induction hn : (high - low + 1).toNat using Nat.strong_induction_on generalizing low high with
  | h n ih =>
    rw [searchLoop, searchLoop]
    by_cases hle : low ≤ high
    case neg => rw [if_neg hle, if_neg hle]
    case pos =>
      rw [if_pos hle, if_pos hle]
      dsimp only
      rw [entryAddr_adjust hnodup, entryAddr_adjust hnodup]
      cases hmid : entryAddr fu functab (low + (high - low) / 2) with
      | none => rfl
      | some maddr =>
        have hmaddr := entryAddr_noWrap h hmid
        have hiff : maddr + delta ≤ addr + delta ↔ maddr ≤ addr := by
          rw [BitVec.le_def, BitVec.le_def]
          omega
        simp only [Option.map_some, hiff]
        rw [ih _ (by omega) low (low + (high - low) / 2 - 1) rfl,
          ih _ (by omega) (low + (high - low) / 2 + 1) high rfl]
        cases habove : entryAddr fu functab (low + (high - low) / 2 + 1) with
        | none => rfl
        | some above =>
          have hab := entryAddr_noWrap h habove
          have hlt : addr + delta < above + delta ↔ addr < above := by
            rw [BitVec.lt_def, BitVec.lt_def]
            omega
          simp only [Option.map_some, hlt]
          rfl

/-- What is looked up: the greatest function in the range of the table, and nothing outside of it. -/
def LooksUp (fu : Funcs) (functab : Functab) (addr : Word) : Prop :=
  if functab.addr_base ≤ addr ∧ addr < functab.addr_lim then
    ∃ r, addrAndFunctabToFunc fu functab addr = some r ∧ Greatest fu functab.tab addr r
  else addrAndFunctabToFunc fu functab addr = some none

theorem looksUp_of_increasing (hinc : Increasing fu functab.tab)
    (hhigh : functab.high_func_addr = functab.addr_lim) (addr : Word) :
    LooksUp fu functab addr := by
  unfold LooksUp addrAndFunctabToFunc
  have hbase : ¬ addr < functab.addr_base ↔ functab.addr_base ≤ addr := BitVec.not_lt
  have hlim : ¬ functab.addr_lim ≤ addr ↔ addr < functab.addr_lim := BitVec.not_le
  split_ifs with hin hout
  · rw [← hbase, ← hlim] at hin
    exact absurd hout (not_or.mpr hin)
  · apply searchLoop_spec hinc (hhigh ▸ hin.2)
    exact ⟨le_refl _, le_refl _, .inl rfl, fun i hi hc => absurd hc (by omega)⟩
  · rfl
  · rw [not_or, hbase, hlim] at *
    contradiction

/-- The table has the first function of each address, a look-up finds the one that an address is
in, and moving the segment moves what is found along. -/
theorem functions_are_found_by_their_addresses (fu : Funcs) (flist : List Ptr)
    (addr_base addr_lim addr_offset : Word) (hnodup : flist.Nodup) :
    ∃ fu' funclist functab,
      makeFuncinfo fu flist flist.length addr_base addr_lim addr_offset =
        (fu', funclist, functab) ∧
      OnePerAddress (addOffset fu flist addr_offset) fu' flist funclist functab.tab ∧
      functab.addr_base = addr_base ∧ functab.addr_lim = addr_lim ∧
      (∀ addr, LooksUp fu' functab addr) ∧
      ∀ addr delta, NoWrap fu' functab addr delta →
        addrAndFunctabToFunc (adjustFunctabTextAddrBase fu' functab funclist delta).1
            (adjustFunctabTextAddrBase fu' functab funclist delta).2 (addr + delta) =
          addrAndFunctabToFunc fu' functab addr := by
  obtain ⟨list, hperm, h⟩ := sortFunctab_spec (addOffset fu flist addr_offset) hnodup
  have hinc : Increasing (sortFunctab (addOffset fu flist addr_offset) flist flist.length).1
      (sortFunctab (addOffset fu flist addr_offset) flist flist.length).2 := by
    unfold Increasing
    simpa only [h.addr] using h.increasing
  refine ⟨_, _, _, rfl, ⟨rfl, h.addr, ?_, hinc, ?_, ?_, h.single⟩, rfl, rfl,
    looksUp_of_increasing hinc rfl, ?_⟩
  · exact fun f hf => hperm.subset (h.sublist.subset hf)
  · intro f hf
    obtain ⟨g, hg, haddr, hgf⟩ := h.first f (hperm.mem_iff.mpr hf)
    refine ⟨g, hg, haddr, ?_⟩
    rcases hgf with rfl | hle
    · rw [addrcmp_eq]
      simp [sign]
    · exact hle
  · exact fun f hf hnot => h.duplicate f (hperm.mem_iff.mpr hf) hnot
  · intro addr delta hwrap
    have hnodup' := (hperm.nodup_iff.mpr hnodup).sublist h.sublist
    unfold addrAndFunctabToFunc
    rw [searchLoop_adjust hnodup' hwrap]
    have haddr := hwrap.addr
    have hbase := hwrap.base
    have hlim := hwrap.lim
    have hiff : addr + delta < addr_base + delta ∨ addr_lim + delta ≤ addr + delta ↔
        addr < addr_base ∨ addr_lim ≤ addr := by
      rw [BitVec.lt_def, BitVec.lt_def, BitVec.le_def, BitVec.le_def]
      dsimp only at hbase hlim
      omega
    unfold adjustFunctabTextAddrBase
    simp only [hiff]

/-- Three functions, two of them at one address. -/
theorem three_functions_are_found :
    ∃ fu' funclist functab,
      makeFuncinfo (fun f => ⟨if f = 2 then 8 else 4, if f = 1 then FU_NOSYM else 0⟩) [1, 2, 3] 3
        0 16 0 = (fu', funclist, functab) ∧
      OnePerAddress (addOffset (fun f => ⟨if f = 2 then 8 else 4, if f = 1 then FU_NOSYM else 0⟩)
        [1, 2, 3] 0) fu' [1, 2, 3] funclist functab.tab ∧
      functab.addr_base = 0 ∧ functab.addr_lim = 16 ∧
      (∀ addr, LooksUp fu' functab addr) ∧
      ∀ addr delta, NoWrap fu' functab addr delta →
        addrAndFunctabToFunc (adjustFunctabTextAddrBase fu' functab funclist delta).1
            (adjustFunctabTextAddrBase fu' functab funclist delta).2 (addr + delta) =
          addrAndFunctabToFunc fu' functab addr :=
  functions_are_found_by_their_addresses _ [1, 2, 3] 0 16 0 (by decide)

end ups_rules.func_table
