-- Where the code of a switch statement leads: the machine goes on at the case with the value on the
-- stack, or else at the default label.
import Ups.SwitchCode
import Ups.OperandForms

open le_bytes
open ups_rules.machine
open ups_rules.opcodes
open ups_rules.execute
open ups_rules.code_text
open ups_rules.compile_expr
open ups_rules.code_layout

namespace ups_rules.switch_code

/-- The label that a value of the expression leads to. -/
def target (cases : List (BitVec 32 × Nat)) (v : BitVec 32) : Label :=
  (cases.find? fun case => case.1 = v).map Prod.snd

/-! ## Reading the text -/

section
variable {m : Machine} {rest : List (BitVec 8)}

theorem get_of_holds {n v : Nat} (h : Holds m.text m.pc (leBytes n v ++ rest)) :
    m.get n = v % 256 ^ n := by
  have hn := (holds_append.1 h).1
  rw [Holds, length_leBytes] at hn
  unfold Machine.get load
  rw [hn, ofLeBytes_leBytes]

theorem holds_skip {bs : List (BitVec 8)} (h : Holds m.text m.pc (bs ++ rest)) :
    Holds (m.skip bs.length).text (m.skip bs.length).pc rest := (holds_append.1 h).2

/-- A jump over a resolved reference. -/
theorem jump_of_holds {addr : Label → Nat} {label : Label} {location : Nat} {a : Word}
    (hpc : m.pc = a + BitVec.ofNat 64 location)
    (h : Holds m.text m.pc (offsetBytes addr label location ++ rest))
    (hfits : Fits addr (label, location)) :
    m.jump = { m with pc := a + BitVec.ofNat 64 (addr label) } := by
  have hget := get_of_holds h
  have hoffset : (BitVec.ofNat 16 (m.get 2)).toInt = addr label - location := by
    have hmod : BitVec.ofNat 16 ((BitVec.ofInt 16 (addr label - location)).toNat % 256 ^ 2) =
        BitVec.ofInt 16 (addr label - location) := by
      apply BitVec.eq_of_toNat_eq
      simp [Int.emod_lt_of_pos]
    rw [hget, hmod, toInt_ofInt16]
    exact hfits
  have hsum : a + BitVec.ofNat 64 location + BitVec.ofInt 64 (addr label - location) =
      a + BitVec.ofNat 64 (addr label) := by
    rw [Int.sub_eq_add_neg, BitVec.ofInt_add, BitVec.ofInt_neg, BitVec.ofInt_natCast,
      BitVec.ofInt_natCast]
    rw [BitVec.add_comm (BitVec.ofNat 64 (addr label)), ← BitVec.add_assoc,
      BitVec.add_assoc a, BitVec.add_right_neg, BitVec.add_zero]
  unfold Machine.jump
  rw [hoffset, hpc, hsum]

end

/-! ## A chain -/

def chainEntries (s : OpSize) (minval : BitVec 32) (cases : List (BitVec 32 × Nat)) : List Entry :=
  cases.map fun case => (leBytes s.nbytes ((case.1 - minval).signExtend 64).toNat, some case.2)

/-- The machine reads the operand as the number that was coded. -/
def ReadsBack (s : OpSize) (x : BitVec 32) : Prop :=
  toCInt (BitVec.ofNat 64 ((x.signExtend 64).toNat % 256 ^ s.nbytes)) = x.toInt

theorem readsBack_of_small {s : OpSize} {x : BitVec 32} (h : x.toNat < 256 ^ s.nbytes)
    (hpos : x.toNat < 2 ^ 31) : ReadsBack s x := by
  have hext : (x.signExtend 64).toNat = x.toNat := by
    rw [BitVec.toNat_signExtend]
    have hmsb : x.msb = false := by
      rw [BitVec.msb_eq_decide]
      simpa using hpos
    simp [hmsb]
    omega
  unfold ReadsBack toCInt
  rw [hext, Nat.mod_eq_of_lt h]
  congr 1
  apply BitVec.eq_of_toNat_eq
  simp

theorem target_cons (case : BitVec 32 × Nat) (cases : List (BitVec 32 × Nat)) (v : BitVec 32) :
    target (case :: cases) v = if case.1 = v then some case.2 else target cases v := by
  unfold target
  rw [List.find?_cons]
  by_cases h : case.1 = v <;> simp [h]

/-- The loop over a chain finds the first case with the value. By induction on the cases, with the
machine at the entry of the first one. -/
theorem switchOnChain_eq {s : OpSize} {minval v : BitVec 32} {addr : Label → Nat} {a : Word}
    {rest : List (BitVec 8)} {cases : List (BitVec 32 × Nat)}
    (hreads : ∀ case ∈ cases, ReadsBack s (case.1 - minval)) {m : Machine} {p : Nat}
    (hpc : m.pc = a + BitVec.ofNat 64 p)
    (h : Holds m.text m.pc (resolved addr p (chainEntries s minval cases ++ [([], none)]) ++ rest))
    (hfits : ∀ ref ∈ entryRefs p (chainEntries s minval cases ++ [([], none)]), Fits addr ref) :
    switchOnChain s (v - minval).toInt cases.length m =
      { m with pc := a + BitVec.ofNat 64 (addr (target cases v)) } := by
  induction cases generalizing m p with
  | nil =>
    have hfit := hfits (none, p) List.mem_cons_self
    have hjump : Holds m.text m.pc (offsetBytes addr none p ++ rest) := by
      simpa [resolved, chainEntries] using h
    exact jump_of_holds hpc hjump hfit
  | cons case cases ih =>
    have hlen : (leBytes s.nbytes ((case.1 - minval).signExtend 64).toNat).length = s.nbytes :=
      length_leBytes _ _
    have hbytes : resolved addr p (chainEntries s minval (case :: cases) ++ [([], none)]) ++ rest =
        leBytes s.nbytes ((case.1 - minval).signExtend 64).toNat ++
          (offsetBytes addr (some case.2) (p + s.nbytes) ++
            (resolved addr (p + s.nbytes + 2) (chainEntries s minval cases ++ [([], none)]) ++
              rest)) := by
      simp only [chainEntries, List.map_cons, List.cons_append, resolved, hlen, List.append_assoc]
    have hrefs : entryRefs p (chainEntries s minval (case :: cases) ++ [([], none)]) =
        (some case.2, p + s.nbytes) ::
          entryRefs (p + s.nbytes + 2) (chainEntries s minval cases ++ [([], none)]) := by
      simp only [chainEntries, List.map_cons, List.cons_append, entryRefs, hlen]
    rw [hbytes] at h
    rw [hrefs] at hfits
    obtain ⟨hfit, hfits⟩ := List.forall_mem_cons.1 hfits
    have hvalue : toCInt (operand m s) = (case.1 - minval).toInt := by
      rw [operand, get_of_holds h]
      exact hreads case List.mem_cons_self
    have hbehind : Holds (past m s).text (past m s).pc _ := hlen ▸ holds_skip h
    have hpast : (past m s).pc = a + BitVec.ofNat 64 (p + s.nbytes) := by
      show m.pc + _ = _
      rw [hpc, BitVec.add_assoc, ← BitVec.ofNat_add]
    rw [List.length_cons, switchOnChain, hvalue, target_cons]
    by_cases hv : case.1 = v
    · rw [if_pos (by rw [hv]), if_pos hv, jump_of_holds hpast hbehind hfit]
      rfl
    · have hne : (case.1 - minval).toInt ≠ (v - minval).toInt := by
        intro he
        have := BitVec.eq_of_toInt_eq he
        exact hv (by bv_omega)
      rw [if_neg hne, if_neg hv]
      have hnext := holds_skip (m := past m s) hbehind
      rw [show (offsetBytes addr (some case.2) (p + s.nbytes)).length = 2 from length_leBytes _ _]
        at hnext
      refine ih (fun c hc => hreads c (List.mem_cons_of_mem _ hc)) ?_ hnext hfits
      show (past m s).pc + _ = _
      rw [hpast, BitVec.add_assoc, ← BitVec.ofNat_add]

/-! ## A table -/

def tableEntries (labels : List Label) : List Entry := labels.map fun label => ([], label)

/-- The slots of a table are two bytes each. -/
theorem slot_of_table {addr : Label → Nat} {a : Word} {text : Mem 64} {rest : List (BitVec 8)}
    {labels : List Label} {p : Nat}
    (h : Holds text (a + BitVec.ofNat 64 p) (resolved addr p (tableEntries labels) ++ rest))
    (hfits : ∀ ref ∈ entryRefs p (tableEntries labels), Fits addr ref) {k : Nat} {label : Label}
    (hk : labels[k]? = some label) :
    ∃ behind, Holds text (a + BitVec.ofNat 64 (p + 2 * k))
      (offsetBytes addr label (p + 2 * k) ++ behind) ∧ Fits addr (label, p + 2 * k) := by
  induction labels generalizing p k with
  | nil => cases hk
  | cons first labels ih =>
    have hbytes : resolved addr p (tableEntries (first :: labels)) ++ rest =
        offsetBytes addr first p ++ (resolved addr (p + 2) (tableEntries labels) ++ rest) := by
      simp [tableEntries, resolved]
    rw [hbytes] at h
    obtain ⟨hfit, hfits⟩ := List.forall_mem_cons.1 hfits
    cases k with
    | zero =>
      obtain rfl : first = label := by simpa using hk
      exact ⟨_, h, hfit⟩
    | succ k =>
      have hnext := (holds_append.1 h).2
      rw [show (offsetBytes addr first p).length = 2 from length_leBytes _ _, BitVec.add_assoc,
        ← BitVec.ofNat_add] at hnext
      have hp : p + 2 * (k + 1) = p + 2 + 2 * k := by omega
      rw [hp]
      exact ih hnext hfits (by simpa using hk)

theorem eq_add_iff {c minval : BitVec 32} {j : Nat} (hj : j < 2 ^ 32) :
    minval + BitVec.ofNat 32 j = c ↔ (c - minval).toNat = j := by
  constructor
  · rintro rfl
    rw [BitVec.add_comm, BitVec.add_sub_cancel]
    exact Nat.mod_eq_of_lt hj
  · intro h
    rw [← h, BitVec.ofNat_toNat, BitVec.setWidth_eq, BitVec.add_comm, BitVec.sub_add_cancel]

theorem target_of_not_mem {cases : List (BitVec 32 × Nat)} {v : BitVec 32}
    (h : ∀ case ∈ cases, case.1 ≠ v) : target cases v = none := by
  unfold target
  rw [List.find?_eq_none.2 (by simpa using fun a b hab => h (a, b) hab)]
  rfl

/-- The labels of `n` values, for cases whose distances from `minval` ascend from `j` at least to the
last one, `j + n - 1`. By induction on `n`; a case is left behind when its value is reached. -/
theorem tableLabels_eq {minval : BitVec 32} (n : Nat) {j : Nat} (hj : j + n ≤ 2 ^ 32)
    {cases : List (BitVec 32 × Nat)}
    (hsorted : cases.Pairwise fun a b => (a.1 - minval).toNat < (b.1 - minval).toNat)
    (hbounds : ∀ case ∈ cases, j ≤ (case.1 - minval).toNat ∧ (case.1 - minval).toNat < j + n)
    (hlast : 0 < n → ∃ case ∈ cases, (case.1 - minval).toNat + 1 = j + n) :
    tableLabels n (minval + BitVec.ofNat 32 j) cases =
      some ((List.range n).map fun k => target cases (minval + BitVec.ofNat 32 (j + k))) := by
  induction n generalizing j cases with
  | zero =>
    cases cases with
    | nil => rfl
    | cons case cases =>
      have hb := hbounds case List.mem_cons_self
      omega
  | succ n ih =>
    obtain ⟨top, htop, hlast⟩ := hlast (Nat.succ_pos n)
    cases cases with
    | nil => cases htop
    | cons case cases =>
      obtain ⟨hfirst, hsorted'⟩ := List.pairwise_cons.1 hsorted
      obtain ⟨hb, hbounds'⟩ := List.forall_mem_cons.1 hbounds
      have hnext : minval + BitVec.ofNat 32 j + 1 = minval + BitVec.ofNat 32 (j + 1) := by
        rw [BitVec.ofNat_add, BitVec.add_assoc]
        rfl
      have hrange : (List.range (n + 1)).map
            (fun k => target (case :: cases) (minval + BitVec.ofNat 32 (j + k))) =
          target (case :: cases) (minval + BitVec.ofNat 32 j) :: (List.range n).map
            (fun k => target (case :: cases) (minval + BitVec.ofNat 32 (j + 1 + k))) := by
        rw [List.range_succ_eq_map, List.map_cons, List.map_map]
        simp only [Function.comp_def, Nat.succ_eq_add_one, Nat.add_zero]
        congr 2
        funext k
        rw [Nat.add_assoc, Nat.add_comm 1 k]
      obtain ⟨value, i⟩ := case
      rw [tableLabels, hnext, hrange, target_cons]
      by_cases hv : minval + BitVec.ofNat 32 j = value
      · -- the case is behind all the later values
        have hvj := (eq_add_iff (by omega)).1 hv
        have htail : ∀ k ∈ List.range n, target cases (minval + BitVec.ofNat 32 (j + 1 + k)) =
            target ((value, i) :: cases) (minval + BitVec.ofNat 32 (j + 1 + k)) := by
          intro k hk
          have hk := List.mem_range.1 hk
          rw [target_cons, if_neg]
          intro he
          have hvk : (value - minval).toNat = j + 1 + k := (eq_add_iff (by omega)).1 he.symm
          omega
        rw [if_pos hv, if_pos hv.symm, ih (by omega) hsorted' (fun c hc => ?_) (fun hn => ?_),
          List.map_congr_left htail]
        · rfl
        · have hlt := hfirst c hc
          have hle := (hbounds' c hc).2
          omega
        · rcases List.mem_cons.1 htop with rfl | htop
          · have hlast : (value - minval).toNat + 1 = j + (n + 1) := hlast
            omega
          · exact ⟨top, htop, by omega⟩
      · have hne : (value - minval).toNat ≠ j := fun he => hv ((eq_add_iff (by omega)).2 he)
        have hnone : target cases (minval + BitVec.ofNat 32 j) = none := by
          refine target_of_not_mem fun c hc he => ?_
          have hlt := hfirst c hc
          have := (eq_add_iff (by omega)).1 he.symm
          omega
        rw [if_neg hv, if_neg (fun h => hv h.symm), hnone,
          ih (by omega) hsorted (fun c hc => ?_) (fun hn => ⟨top, htop, by omega⟩)]
        · rfl
        · have hb' := hbounds c hc
          have hj : (c.1 - minval).toNat ≠ j := by
            rcases List.mem_cons.1 hc with rfl | hc
            · exact hne
            · have hlt := hfirst c hc
              omega
          omega

/-! ## The statement -/

/-- The values of the table ascend. -/
def Ascending (cstab : List (BitVec 32)) : Prop := cstab.Pairwise fun a b => a.toInt < b.toInt

/-- What the table spans. -/
def spread (cstab : List (BitVec 32)) : Int := (cstab.getLastD 0).toInt - (cstab.headD 0).toInt

def switchForm (cstab : List (BitVec 32)) : Form := formOf cstab.length (distOf cstab)

def switchOp (cstab : List (BitVec 32)) : Opcode :=
  match switchForm cstab with
  | .table => .OC_SWITCH_ON_TABLE
  | .chain s => .OC_SWITCH_ON_CHAIN s

/-- The cases of a chain, or the values of a table from the first to the last, and then the default. -/
def switchEntries (cstab : List (BitVec 32)) : List Entry :=
  (match switchForm cstab with
  | .table => tableEntries ((List.range ((distOf cstab).toNat + 1)).map fun k =>
      target cstab.zipIdx (cstab.headD 0 + BitVec.ofNat 32 k))
  | .chain s => chainEntries s (cstab.headD 0) cstab.zipIdx) ++ [([], none)]

/-- The size of the table, or how many cases the chain has. -/
def switchCount (cstab : List (BitVec 32)) : Int :=
  match switchForm cstab with
  | .table => distOf cstab + 1
  | .chain _ => cstab.length

/-- The text with the check of the stack pointer, if there is one. -/
def checkedText (tx : Text) : List (BitVec 8) :=
  if tx.tx_checksp then (codeCheckSp tx).tx_text else tx.tx_text

/-- The opcode, the count and the smallest value. -/
def headBytes (cstab : List (BitVec 32)) : List (BitVec 8) :=
  leBytes 2 (switchOp cstab).num ++ leBytes 2 (BitVec.ofInt 64 (switchCount cstab)).toNat ++
    leBytes 4 (cstab.headD 0).toNat

/-- Where the opcode is. -/
def switchAt (tx : Text) : Nat := (checkedText tx).length

/-- Where the references begin, and where the statement does. -/
def entriesAt (tx : Text) : Nat := switchAt tx + 8

def statementAt (tx : Text) (ss : SwitchStm) : Nat :=
  entriesAt tx + (unresolved (switchEntries ss.cstab)).length

/-- No label is more than 32767 bytes from a place that refers to it. -/
def InRange (tx : Text) (ss : SwitchStm) : Prop :=
  ∀ ref ∈ entryRefs (entriesAt tx) (switchEntries ss.cstab),
    ss.addr (statementAt tx ss) ref.1 ≤ ref.2 + 32767

/-- The switch is compiled, and wherever its text is, a machine with a value on the stack goes on at the
case for the value, or else at the default label. -/
def Dispatches (tx : Text) (ss : SwitchStm) : Prop :=
  ∃ text, compileSwitchStatement tx ss = some text ∧
    ∀ (env : Env) (m : Machine) (a : Word), Holds m.text a text →
      m.pc = a + BitVec.ofNat 64 (switchAt tx) →
      step env m = .next { m with
        sp := m.sp + words 1
        pc := a + BitVec.ofNat 64
          (ss.addr (statementAt tx ss) (target ss.cstab.zipIdx ((m.slot 0).setWidth 32))) }

section
variable {cstab : List (BitVec 32)} {tx : Text} {ss : SwitchStm}

theorem toNat_sub_of_le {x y : BitVec 32} (h : y.toInt ≤ x.toInt) :
    ((x - y).toNat : Int) = x.toInt - y.toInt := by
  have hx := x.isLt
  have hy := y.isLt
  rw [BitVec.toNat_sub]
  rw [BitVec.toInt_eq_toNat_cond, BitVec.toInt_eq_toNat_cond] at *
  split at h
  · split at h
    · omega
    · omega
  · split at h
    · omega
    · omega

/-- The first value is the smallest one and the last value the largest one. -/
theorem Ascending.bounds (h : Ascending cstab) {c : BitVec 32} (hc : c ∈ cstab) :
    (cstab.headD 0).toInt ≤ c.toInt ∧ c.toInt ≤ (cstab.getLastD 0).toInt := by
  induction cstab with
  | nil => cases hc
  | cons first rest ih =>
    obtain ⟨hfirst, hrest⟩ := List.pairwise_cons.1 h
    rcases List.mem_cons.1 hc with rfl | hc
    · refine ⟨le_refl _, ?_⟩
      cases rest with
      | nil => exact le_refl _
      | cons second rest =>
        rw [List.getLastD_cons, List.getLastD_cons]
        exact le_of_lt (hfirst _ List.getLastD_mem_cons)
    · refine ⟨le_of_lt (hfirst c hc), ?_⟩
      cases rest with
      | nil => cases hc
      | cons second rest => exact (ih hrest hc).2

/-- The distance of a value from the first one, as the code computes it. -/
theorem Ascending.distance (h : Ascending cstab) {c : BitVec 32} (hc : c ∈ cstab) :
    ((c - cstab.headD 0).toNat : Int) = c.toInt - (cstab.headD 0).toInt :=
  toNat_sub_of_le (h.bounds hc).1

theorem getLastD_mem (hne : cstab ≠ []) : cstab.getLastD 0 ∈ cstab := by
  rw [List.getLastD_eq_getLast?, List.getLast?_eq_some_getLast hne]
  exact List.getLast_mem hne

/-- The subtraction of the largest and the smallest value is right if a C int holds the result, and
gives a negative number if it does not. -/
theorem Ascending.distOf_nonneg (h : Ascending cstab) (hne : cstab ≠ []) :
    0 ≤ distOf cstab ↔ spread cstab < 2 ^ 31 := by
  have hd := h.distance (getLastD_mem hne)
  have hlt := (cstab.getLastD 0 - cstab.headD 0).isLt
  unfold distOf spread
  rw [BitVec.toInt_eq_toNat_cond]
  split <;> omega

theorem Ascending.distOf_eq (h : Ascending cstab) (hne : cstab ≠ []) (hs : spread cstab < 2 ^ 31) :
    distOf cstab = spread cstab := by
  have hd := h.distance (getLastD_mem hne)
  unfold distOf spread at *
  rw [BitVec.toInt_eq_toNat_cond]
  split <;> omega

theorem mem_zipIdx_fst {case : BitVec 32 × Nat} (hc : case ∈ cstab.zipIdx) : case.1 ∈ cstab := by
  have hmem := List.mem_map_of_mem (f := Prod.fst) hc
  rwa [List.zipIdx_map_fst] at hmem

/-- The distances of a sorted table ascend from the first value. -/
theorem Ascending.distances (h : Ascending cstab) : cstab.zipIdx.Pairwise fun a b =>
    (a.1 - cstab.headD 0).toNat < (b.1 - cstab.headD 0).toNat := by
  have hvalues : (cstab.zipIdx.map Prod.fst).Pairwise fun a b => a.toInt < b.toInt := by
    rwa [List.zipIdx_map_fst]
  refine (List.pairwise_map.1 hvalues).imp_of_mem fun {a b} ha hb hab => ?_
  have hda := h.distance (mem_zipIdx_fst ha)
  have hdb := h.distance (mem_zipIdx_fst hb)
  omega

/-! ## What is compiled -/

/-- The labels of a table. -/
theorem Ascending.tableLabels (h : Ascending cstab) (hne : cstab ≠ [])
    (hs : spread cstab < 2 ^ 31) :
    tableLabels ((distOf cstab).toNat + 1) (cstab.headD 0) cstab.zipIdx =
      some ((List.range ((distOf cstab).toNat + 1)).map fun k =>
        target cstab.zipIdx (cstab.headD 0 + BitVec.ofNat 32 k)) := by
  have hdist := h.distOf_eq hne hs
  have hlast := getLastD_mem hne
  have hdistance := h.distance hlast
  have hnonneg := (h.bounds hlast).1
  have hstart : cstab.headD 0 + BitVec.ofNat 32 0 = cstab.headD 0 := BitVec.add_zero _
  have hlabels := tableLabels_eq ((distOf cstab).toNat + 1) (j := 0) (by rw [hdist]; omega)
    h.distances (fun case hc => ?_) (fun _ => ?_)
  · rw [hstart] at hlabels
    simpa using hlabels
  · have hmem := mem_zipIdx_fst hc
    have hd := h.distance hmem
    have hb := (h.bounds hmem).2
    rw [hdist]
    unfold spread
    omega
  · have hfst : cstab.getLastD 0 ∈ cstab.zipIdx.map Prod.fst := by rwa [List.zipIdx_map_fst]
    obtain ⟨case, hcase, heq⟩ := List.mem_map.1 hfst
    refine ⟨case, hcase, ?_⟩
    rw [heq, hdist]
    unfold spread
    omega

/-- The entries and the default label behind them, after a text without references. -/
theorem codes_default {α : Type} {f : Coded → α → Coded} {g : α → Entry} (h : CodesEntry f g)
    (xs : List α) (tx : Text) :
    (codeLabel (xs.foldl f (tx, [])) none).1.tx_text =
      tx.tx_text ++ unresolved (xs.map g ++ [([], none)]) ∧
    (codeLabel (xs.foldl f (tx, [])) none).2 =
      entryRefs tx.tx_text.length (xs.map g ++ [([], none)]) := by
  obtain ⟨htext, hrefs⟩ := foldl_codes h xs (tx, [])
  obtain ⟨hlast, hlastRef⟩ := codeLabel_codes (xs.foldl f (tx, [])) none
  constructor
  · rw [hlast, htext, unresolved_append]
    simp [unresolved]
  · rw [hlastRef, hrefs, htext, entryRefs_append]
    simp [entryRefs]

/-- What the cases are coded to, with the default label behind them. -/
theorem Ascending.codeCases (h : Ascending cstab) (hne : cstab ≠ []) (hs : spread cstab < 2 ^ 31)
    (tx : Text) : ∃ coded, codeCases tx cstab (cstab.headD 0) (distOf cstab) = some coded ∧
      (codeLabel coded none).1.tx_text =
        (codeHead tx (switchOp cstab) (switchCount cstab) (cstab.headD 0)).tx_text ++
          unresolved (switchEntries cstab) ∧
      (codeLabel coded none).2 =
        entryRefs (codeHead tx (switchOp cstab) (switchCount cstab) (cstab.headD 0)).tx_text.length
          (switchEntries cstab) := by
  unfold switch_code.codeCases switchOp switchEntries switchCount
  cases hform : switchForm cstab with
  | table =>
    rw [show formOf cstab.length (distOf cstab) = .table from hform]
    dsimp only
    rw [h.tableLabels hne hs]
    exact ⟨_, rfl, codes_default codeLabel_codes _ _⟩
  | chain s =>
    rw [show formOf cstab.length (distOf cstab) = .chain s from hform]
    exact ⟨_, rfl, codes_default (codeCase_codes s _) _ _⟩

theorem codeHead_text (tx : Text) (cstab : List (BitVec 32)) :
    (codeHead tx (switchOp cstab) (switchCount cstab) (cstab.headD 0)).tx_text =
      checkedText tx ++ headBytes cstab := by
  have hlow : leBytes 4 ((cstab.headD 0).signExtend 64).toNat = leBytes 4 (cstab.headD 0).toNat := by
    rw [← leBytes_mod]
    exact congrArg (leBytes 4) (operand_forms.toNat_signExtend_mod _)
  have hunchecked : uncheckedSp (switchOp cstab) = false := by
    unfold switchOp
    split <;> rfl
  have hopcode : (ciCodeOpcode tx (switchOp cstab)).tx_text =
      checkedText tx ++ leBytes 2 (switchOp cstab).num := by
    unfold ciCodeOpcode checkedText
    rw [(begins_codeOpcode _ _).text, hunchecked, Bool.not_false, Bool.and_true]
    split <;> rfl
  unfold codeHead headBytes
  rw [(adds_long _ _).text, (adds_word _ _).text, hopcode, hlow]
  simp

theorem length_headBytes (cstab : List (BitVec 32)) : (headBytes cstab).length = 8 := by
  simp [headBytes]

/-- Every reference is to a label of the statement. -/
theorem mem_labels {start : Nat} {ref : Label × Nat}
    (href : ref ∈ entryRefs start (switchEntries cstab)) :
    ref.1 ∈ none :: cstab.zipIdx.map fun case => some case.2 := by
  have hlabel : ∀ es : List Entry, ∀ start, ref ∈ entryRefs start es → ∃ e ∈ es, e.2 = ref.1 := by
    intro es
    induction es with
    | nil => intro _ h; cases h
    | cons e es ih =>
      intro start h
      rcases List.mem_cons.1 h with rfl | h
      · exact ⟨e, List.mem_cons_self, rfl⟩
      · obtain ⟨e', he, heq⟩ := ih _ h
        exact ⟨e', List.mem_cons_of_mem _ he, heq⟩
  obtain ⟨e, he, heq⟩ := hlabel _ _ href
  rw [← heq]
  unfold switchEntries at he
  rcases List.mem_append.1 he with he | he
  · split at he
    · obtain ⟨label, hl, rfl⟩ := List.mem_map.1 he
      obtain ⟨k, -, rfl⟩ := List.mem_map.1 hl
      rw [target, List.mem_cons]
      cases hfind : cstab.zipIdx.find? fun case => case.1 = cstab.headD 0 + BitVec.ofNat 32 k with
      | none => exact .inl rfl
      | some case => exact .inr (List.mem_map.2 ⟨case, List.mem_of_find?_eq_some hfind, rfl⟩)
    · obtain ⟨case, hcase, rfl⟩ := List.mem_map.1 he
      exact List.mem_cons_of_mem _ (List.mem_map.2 ⟨case, hcase, rfl⟩)
  · obtain rfl := List.mem_singleton.1 he
    exact List.mem_cons_self

theorem labels_nodup (cstab : List (BitVec 32)) :
    (none :: cstab.zipIdx.map fun case => some case.2 : List Label).Nodup := by
  rw [List.nodup_cons]
  refine ⟨by simp, ?_⟩
  have hmap : cstab.zipIdx.map (fun case => some case.2) = (cstab.zipIdx.map Prod.snd).map some := by
    rw [List.map_map]
    rfl
  rw [hmap, List.zipIdx_map_snd]
  exact List.pairwise_map.2
    (List.Pairwise.imp (fun hne he => hne (Option.some.inj he)) List.nodup_range')

/-- The text that is compiled, if all the references fit. -/
theorem Ascending.compile_eq (h : Ascending ss.cstab) (hne : ss.cstab ≠ [])
    (hs : spread ss.cstab < 2 ^ 31) (text : List (BitVec 8)) :
    compileSwitchStatement tx ss = some text ↔
      (∀ ref ∈ entryRefs (entriesAt tx) (switchEntries ss.cstab),
        Fits (ss.addr (statementAt tx ss)) ref) ∧
      text = checkedText tx ++ headBytes ss.cstab ++
        resolved (ss.addr (statementAt tx ss)) (entriesAt tx) (switchEntries ss.cstab) ++ ss.code := by
  obtain ⟨coded, hcoded, htext, hrefs⟩ := h.codeCases hne hs tx
  have hdist : ¬ distOf ss.cstab < 0 := not_lt.2 ((h.distOf_nonneg hne).2 hs)
  rw [codeHead_text] at htext hrefs
  have hat : (checkedText tx ++ headBytes ss.cstab).length = entriesAt tx := by
    rw [List.length_append, length_headBytes]
    rfl
  have hstart : (codeLabel coded none).1.tx_text.length = statementAt tx ss := by
    rw [htext, List.length_append, hat]
    rfl
  unfold compileSwitchStatement
  rw [if_neg hne, if_neg hdist, hcoded]
  dsimp only [Option.bind_eq_bind, Option.bind_some]
  rw [hstart, htext, hrefs, ← hat]
  exact resolve_eq _ _ (labels_nodup _) (fun ref href => mem_labels href) text

/-! ## What is executed -/

/-- The labels are behind the references, so that only the largest offset of a short is a limit. -/
theorem fits_iff {addr : Label → Nat} {ref : Label × Nat} (h : ref.2 + 2 ≤ addr ref.1) :
    Fits addr ref ↔ addr ref.1 ≤ ref.2 + 32767 := by
  unfold Fits
  rw [Int.bmod_def]
  split <;> omega

theorem statement_le_addr (ss : SwitchStm) (start : Nat) (label : Label) :
    start ≤ ss.addr start label := by
  cases label <;> exact Nat.le_add_right _ _

theorem refs_before_statement {ref : Label × Nat}
    (href : ref ∈ entryRefs (entriesAt tx) (switchEntries ss.cstab)) :
    ref.2 + 2 ≤ ss.addr (statementAt tx ss) ref.1 :=
  (entryRefs_bounds href).2.trans (statement_le_addr ss _ _)

theorem two_mul_length_le (es : List Entry) : 2 * es.length ≤ (unresolved es).length := by
  induction es with
  | nil => exact Nat.zero_le _
  | cons e es ih =>
    rw [show e :: es = [e] ++ es from rfl, unresolved_append, List.length_append, List.length_append]
    have hone : 2 ≤ (unresolved [e]).length := by simp [unresolved]
    have hlen : [e].length = 1 := rfl
    omega

/-- The first reference reaches over all the others, so there are not many. -/
theorem few_entries {addr : Label → Nat} {start : Nat} {es : List Entry}
    (hbehind : ∀ label, start + (unresolved es).length ≤ addr label)
    (hfits : ∀ ref ∈ entryRefs start es, addr ref.1 ≤ ref.2 + 32767) : es.length < 2 ^ 15 := by
  cases es with
  | nil => exact Nat.two_pow_pos 15
  | cons e es =>
    have hfit := hfits (e.2, start + e.1.length) List.mem_cons_self
    have hlow := hbehind e.2
    have hlen := two_mul_length_le es
    have hfirst : (unresolved (e :: es)).length = e.1.length + 2 + (unresolved es).length := by
      simp [unresolved, Nat.add_assoc]
    dsimp only at hfit
    rw [List.length_cons]
    omega

/-- What is behind the opcode: the count, the smallest value and the references. -/
theorem execute_head (env : Env) {m : Machine} {rest : List (BitVec 8)}
    (h : Holds m.text m.pc (headBytes cstab ++ rest))
    (hcount : 0 ≤ switchCount cstab ∧ switchCount cstab < 2 ^ 16) :
    step env m = execOp env (switchOp cstab) (m.skip 2) ∧
      ((m.skip 2).get 2 : Int) = switchCount cstab ∧
      signedOf 4 (BitVec.ofNat 64 ((m.skip 4).get 4)) = (cstab.headD 0).signExtend 64 ∧
      Holds m.text (m.pc + 8#64) rest := by
  unfold headBytes at h
  rw [List.append_assoc, List.append_assoc] at h
  have hop := get_of_holds h
  have hcounts := holds_skip h
  rw [length_leBytes] at hcounts
  have hget := get_of_holds hcounts
  have hmin := holds_skip hcounts
  rw [length_leBytes, stack_words.skip_skip] at hmin
  have hminval := get_of_holds hmin
  have hrest := holds_skip hmin
  rw [length_leBytes, stack_words.skip_skip] at hrest
  refine ⟨?_, ?_, ?_, hrest⟩
  · have hnum := num_le (switchOp cstab)
    rw [step, hop, Nat.mod_eq_of_lt (by omega), stack_words.opcodeOf_num]
  · rw [hget, BitVec.toNat_ofInt]
    omega
  · rw [hminval, signedOf]
    congr 1
    apply BitVec.eq_of_toNat_eq
    have hlt := (cstab.headD 0).isLt
    rw [BitVec.toNat_setWidth, BitVec.toNat_ofNat]
    omega

/-- A value is read back from the bytes that its chain has for it. -/
theorem Ascending.readsBack (h : Ascending cstab) (hne : cstab ≠ []) (hs : spread cstab < 2 ^ 31)
    {s : OpSize} (hform : switchForm cstab = .chain s) {case : BitVec 32 × Nat}
    (hc : case ∈ cstab.zipIdx) : ReadsBack s (case.1 - cstab.headD 0) := by
  have hmem := mem_zipIdx_fst hc
  have hd := h.distance hmem
  have hb := (h.bounds hmem).2
  have hdist := h.distOf_eq hne hs
  unfold spread at hs hdist
  unfold switchForm formOf at hform
  refine readsBack_of_small ?_ (by omega)
  split at hform
  · cases hform
  · split at hform
    · obtain rfl := Form.chain.inj hform
      change _ < 256 ^ 1
      omega
    · split at hform
      · obtain rfl := Form.chain.inj hform
        change _ < 256 ^ 2
        omega
      · obtain rfl := Form.chain.inj hform
        change _ < 256 ^ 4
        omega

/-- The difference that the machine takes, in 64 bits and then as a C int. -/
theorem setWidth_sub_signExtend (v : Word) (minval : BitVec 32) :
    (v - minval.signExtend 64).setWidth 32 = v.setWidth 32 - minval := by
  have hmod := operand_forms.toNat_signExtend_mod minval
  apply BitVec.eq_of_toNat_eq
  rw [BitVec.toNat_setWidth, BitVec.toNat_sub, BitVec.toNat_sub, BitVec.toNat_setWidth]
  omega

/-- The slot of the table that is looked at, the one behind the values if there is none for the value. -/
def slotOf (ncase : Nat) (x : BitVec 32) : Nat := if ncase ≤ x.toNat then ncase else x.toNat

theorem Ascending.label_of_slot (h : Ascending cstab) (hne : cstab ≠ [])
    (hs : spread cstab < 2 ^ 31) (v : BitVec 32) {ncase : Nat} (hn : ncase = distOf cstab + 1) :
    ((List.range ((distOf cstab).toNat + 1)).map
      (fun k => target cstab.zipIdx (cstab.headD 0 + BitVec.ofNat 32 k)) ++
        [none])[slotOf ncase (v - cstab.headD 0)]? = some (target cstab.zipIdx v) := by
  have hdist := h.distOf_eq hne hs
  have hdist0 := (h.distOf_nonneg hne).2 hs
  unfold slotOf
  split
  · rename_i hx
    have hnone : target cstab.zipIdx v = none := by
      refine target_of_not_mem fun case hc he => ?_
      have hmem := mem_zipIdx_fst hc
      have hd := h.distance hmem
      have hb := (h.bounds hmem).2
      rw [he] at hd hb
      unfold spread at hdist
      omega
    have hlen : ((List.range ((distOf cstab).toNat + 1)).map
        (fun k => target cstab.zipIdx (cstab.headD 0 + BitVec.ofNat 32 k))).length = ncase := by
      rw [List.length_map, List.length_range]
      omega
    rw [hnone, List.getElem?_append_right hlen.le, hlen, Nat.sub_self]
    rfl
  · rename_i hx
    rw [List.getElem?_append_left (by rw [List.length_map, List.length_range]; omega),
      List.getElem?_map, List.getElem?_range (by omega), Option.map_some, BitVec.ofNat_toNat,
      BitVec.setWidth_eq, BitVec.add_comm, BitVec.sub_add_cancel]

/-- The machine at the opcode, with all that is behind it in the memory. -/
theorem Ascending.execute (h : Ascending cstab) (hne : cstab ≠ []) (hs : spread cstab < 2 ^ 31)
    {env : Env} {m : Machine} {a : Word} {p : Nat} {addr : Label → Nat} {code : List (BitVec 8)}
    (hpc : m.pc = a + BitVec.ofNat 64 p)
    (hholds : Holds m.text m.pc
      (headBytes cstab ++ (resolved addr (p + 8) (switchEntries cstab) ++ code)))
    (hfits : ∀ ref ∈ entryRefs (p + 8) (switchEntries cstab), Fits addr ref)
    (hfew : (switchEntries cstab).length < 2 ^ 15) :
    step env m = .next { m with
      sp := m.sp + words 1
      pc := a + BitVec.ofNat 64 (addr (target cstab.zipIdx ((m.slot 0).setWidth 32))) } := by
  have hdist := h.distOf_eq hne hs
  have hdist0 := (h.distOf_nonneg hne).2 hs
  have hbehind : m.pc + 8#64 = a + BitVec.ofNat 64 (p + 8) := by
    rw [hpc, BitVec.add_assoc, ← BitVec.ofNat_add]
  have hpast : ((m.skip 2).pop.skip 6).pc = m.pc + 8#64 := by
    show m.pc + 2#64 + 6#64 = _
    rw [BitVec.add_assoc]
    rfl
  cases hform : switchForm cstab with
  | table =>
    have hop : switchOp cstab = .OC_SWITCH_ON_TABLE := by rw [switchOp, hform]
    have hcount : switchCount cstab = distOf cstab + 1 := by rw [switchCount, hform]
    have hentries : switchEntries cstab = tableEntries ((List.range ((distOf cstab).toNat + 1)).map
        (fun k => target cstab.zipIdx (cstab.headD 0 + BitVec.ofNat 32 k)) ++ [none]) := by
      rw [switchEntries, hform]
      simp [tableEntries]
    have hlen : (switchEntries cstab).length = (distOf cstab).toNat + 2 := by
      simp [hentries, tableEntries]
    obtain ⟨hstep, hget, hminval, hrest⟩ := execute_head env hholds
      (by rw [hcount]; omega)
    rw [hbehind, hentries] at hrest
    rw [hentries] at hfits
    obtain ⟨behind, hslot, hfit⟩ := slot_of_table hrest hfits
      (h.label_of_slot hne hs ((m.slot 0).setWidth 32) (hget.trans hcount))
    obtain ⟨n, hn⟩ : ∃ n, slotOf ((m.skip 2).get 2) ((m.slot 0).setWidth 32 - cstab.headD 0) = n :=
      ⟨_, rfl⟩
    rw [hn] at hslot hfit
    have htable : switchOnTable (m.skip 2) = ((m.skip 2).pop.skip (6 + n * 2)).jump := by
      have hx : (m.slot 0 - signedOf 4 (BitVec.ofNat 64 ((m.skip 4).get 4))).setWidth 32 =
          (m.slot 0).setWidth 32 - cstab.headD 0 := by
        rw [hminval]
        exact setWidth_sub_signExtend _ _
      have hskip (k : Nat) : ((m.skip 2).skip 2).pop.skip (4 + k) = (m.skip 2).pop.skip (6 + k) := by
        have hsum : 2 + (4 + k) = 6 + k := by omega
        show ((m.skip 2).pop.skip 2).skip (4 + k) = _
        rw [stack_words.skip_skip, hsum]
      rw [← hn, ← hx, ← hskip]
      unfold switchOnTable
      dsimp only
      rw [stack_words.skip_skip m 2 2]
      rfl
    have hpc' : ((m.skip 2).pop.skip (6 + n * 2)).pc = a + BitVec.ofNat 64 (p + 8 + 2 * n) := by
      show m.pc + BitVec.ofNat 64 2 + BitVec.ofNat 64 (6 + n * 2) = _
      have hsum : p + (2 + (6 + n * 2)) = p + 8 + 2 * n := by omega
      rw [hpc, BitVec.add_assoc, BitVec.add_assoc, ← BitVec.ofNat_add, ← BitVec.ofNat_add, hsum]
    rw [hstep, hop, execOp, htable, jump_of_holds hpc' (hpc' ▸ hslot) hfit]
    rfl
  | chain s =>
    have hop : switchOp cstab = .OC_SWITCH_ON_CHAIN s := by rw [switchOp, hform]
    have hcount : switchCount cstab = cstab.length := by rw [switchCount, hform]
    have hentries : switchEntries cstab =
        chainEntries s (cstab.headD 0) cstab.zipIdx ++ [([], none)] := by
      rw [switchEntries, hform]
    have hlen : (switchEntries cstab).length = cstab.length + 1 := by
      simp [hentries, chainEntries]
    obtain ⟨hstep, hget, hminval, hrest⟩ := execute_head env hholds
      (by rw [hcount]; omega)
    rw [hentries] at hrest hfits
    rw [hbehind] at hrest
    rw [hstep, hop]
    have hval : switchval (m.skip 2) (((m.skip 2).skip 2).get 4) =
        ((m.slot 0).setWidth 32 - cstab.headD 0).toInt := by
      rw [switchval, stack_words.skip_skip, hminval, toCInt]
      exact congrArg BitVec.toInt (setWidth_sub_signExtend _ _)
    have hncase : (m.skip 2).get 2 = cstab.zipIdx.length := by
      rw [List.length_zipIdx]
      omega
    unfold execOp
    dsimp only
    have hchain : switchOnChain s ((m.slot 0).setWidth 32 - cstab.headD 0).toInt
        cstab.zipIdx.length ((m.skip 2).pop.skip 6) =
        { (m.skip 2).pop.skip 6 with
          pc := a + BitVec.ofNat 64 (addr (target cstab.zipIdx ((m.slot 0).setWidth 32))) } :=
      switchOnChain_eq (fun case hc => h.readsBack hne hs hform hc)
        (hpast.trans hbehind) (hpast ▸ hbehind ▸ hrest) hfits
    rw [hval, hncase, hchain]
    rfl

/-! ## Main results -/

theorem ref_fits_iff (tx : Text) (ss : SwitchStm) (ref : Label × Nat)
    (href : ref ∈ entryRefs (entriesAt tx) (switchEntries ss.cstab)) :
    Fits (ss.addr (statementAt tx ss)) ref ↔
      ss.addr (statementAt tx ss) ref.1 ≤ ref.2 + 32767 :=
  fits_iff (refs_before_statement href)

/-- Three cases of one byte each and no default. -/
def smallSwitch : SwitchStm where
  cstab := [1, 2, 5]
  code := [0, 0, 0]
  caseAddr := id
  defaultAddr := none

/-- The smallest int and the largest one. -/
def wideSwitch : SwitchStm := { smallSwitch with cstab := [.intMin 32, .intMax 32] }

end

end ups_rules.switch_code
