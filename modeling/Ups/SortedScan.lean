-- Scans of a table that is sorted by a key, for the last entry before the first one with a value
-- beyond a bound. The entries of one key may be in any order.
import Mathlib.Data.Prod.Lex
import Mathlib.Data.List.TakeWhile
import Mathlib.Tactic.Common

namespace sorted_scan

variable {α K V : Type} [LinearOrder K] [LinearOrder V] {key : α → K} {val : α → V}
  {E T : List α} {R : α → α → Prop} {a e : α} {x : V}

/-- The table holds the entries in the order of their keys. -/
def Sorts (key : α → K) (E T : List α) : Prop := T.Perm E ∧ T.Pairwise fun a b => key a ≤ key b

/-- The last entry before the first one beyond `x`. -/
def lastUpTo (val : α → V) (x : V) (T : List α) : Option α :=
  (T.takeWhile fun e => val e ≤ x).getLast?

/-- Each value has a key with this value only, before the keys of all entries beyond it. Between
the two, and at the first of those keys, there is no entry below it. -/
def Climbs (key : α → K) (val : α → V) (E : List α) : Prop :=
  ∀ v ∈ E.map val, ∃ k ∈ E.map key, (∀ e ∈ E, key e = k → val e = v) ∧
    (∀ e ∈ E, v < val e → k < key e) ∧
    ∀ e ∈ E, k < key e → val e < v → ∃ e' ∈ E, v < val e' ∧ key e' < key e

/-! ## The last entry -/

theorem beyond_of_head?_dropWhile {h : α} (hh : h ∈ (T.dropWhile fun e => val e ≤ x).head?) :
    x < val h := by
  have hnot := List.head?_dropWhile_not (fun e => decide (val e ≤ x)) T
  rw [Option.mem_def.mp hh] at hnot
  simpa using hnot

/-- What is not behind the scan comes before the last entry; the rest begins beyond `x`. -/
theorem around_last (hrefl : ∀ a, R a a) (hT : T.Pairwise R) (h : lastUpTo val x T = some e)
    (ha : a ∈ T) : val a ≤ x ∧ R a e ∨ ∃ b ∈ T, x < val b ∧ R e b ∧ R b a := by
  obtain ⟨before, hbefore⟩ := List.getLast?_eq_some_iff.mp h
  have hsplit := List.takeWhile_append_dropWhile (p := fun e => decide (val e ≤ x)) (l := T)
  rw [← hsplit] at ha hT
  rw [List.pairwise_append] at hT
  rcases List.mem_append.mp ha with ha | ha
  · refine Or.inl ⟨by simpa using List.mem_takeWhile_imp ha, ?_⟩
    rw [hbefore] at ha hT
    rcases List.mem_append.mp ha with ha | ha
    · exact (List.pairwise_append.mp hT.1).2.2 a ha e (List.mem_singleton_self e)
    · rw [List.mem_singleton.mp ha]
      exact hrefl e
  · have hlast : e ∈ T.takeWhile fun e => decide (val e ≤ x) := by
      rw [hbefore]
      exact List.mem_append_right _ (List.mem_singleton_self e)
    cases hrest : T.dropWhile fun e => decide (val e ≤ x) with
    | nil =>
      rw [hrest] at ha
      cases ha
    | cons b rest =>
      have hb : b ∈ T.dropWhile fun e => decide (val e ≤ x) := hrest ▸ List.mem_cons_self
      refine Or.inr ⟨b, (List.dropWhile_sublist _).subset hb, ?_, hT.2.2 e hlast b hb, ?_⟩
      · exact beyond_of_head?_dropWhile (by rw [hrest]; rfl)
      · rw [hrest] at ha hT
        rcases List.mem_cons.mp ha with rfl | ha
        · exact hrefl a
        · exact (List.pairwise_cons.mp hT.2.1).1 a ha

theorem lastUpTo_mem (h : lastUpTo val x T = some e) : e ∈ T ∧ val e ≤ x := by
  have hmem := List.mem_of_getLast? h
  exact ⟨(List.takeWhile_sublist _).subset hmem, by simpa using List.mem_takeWhile_imp hmem⟩

/-- Without a last entry the table begins beyond `x`. -/
theorem first_of_none (hrefl : ∀ a, R a a) (hT : T.Pairwise R) (h : lastUpTo val x T = none)
    (ha : a ∈ T) : ∃ b ∈ T, x < val b ∧ R b a := by
  have hsplit := List.takeWhile_append_dropWhile (p := fun e => decide (val e ≤ x)) (l := T)
  rw [List.getLast?_eq_none_iff.mp h, List.nil_append] at hsplit
  cases T with
  | nil => cases ha
  | cons b rest =>
    refine ⟨b, List.mem_cons_self, beyond_of_head?_dropWhile (T := b :: rest) (by rw [hsplit]; rfl), ?_⟩
    rcases List.mem_cons.mp ha with rfl | ha
    · exact hrefl a
    · exact (List.pairwise_cons.mp hT).1 a ha

/-! ## Scans that end at the value -/

theorem lastUpTo_congr {y : V} (h : ∀ a ∈ T, val a ≤ x ↔ val a ≤ y) :
    lastUpTo val x T = lastUpTo val y T := by
  unfold lastUpTo
  induction T with
  | nil => rfl
  | cons a T ih =>
    rw [List.forall_mem_cons] at h
    have heq : decide (val a ≤ x) = decide (val a ≤ y) := decide_eq_decide.mpr h.1
    rw [List.takeWhile_cons, List.takeWhile_cons, heq]
    split
    · rw [List.getLast?_cons, List.getLast?_cons, ih h.2]
    · rfl

theorem exists_greatest (h : ∃ a ∈ T, val a ≤ x) :
    ∃ a ∈ T, val a ≤ x ∧ ∀ b ∈ T, val b ≤ x → val b ≤ val a := by
  induction T with
  | nil =>
    obtain ⟨a, ha, -⟩ := h
    cases ha
  | cons c T ih =>
    by_cases hT : ∃ a ∈ T, val a ≤ x
    · obtain ⟨a, ha, hax, hmax⟩ := ih hT
      by_cases hc : val c ≤ x ∧ val a ≤ val c
      · refine ⟨c, List.mem_cons_self, hc.1, List.forall_mem_cons.mpr ⟨fun _ => le_refl _, ?_⟩⟩
        exact fun b hb hbx => (hmax b hb hbx).trans hc.2
      · refine ⟨a, List.mem_cons_of_mem c ha, hax, List.forall_mem_cons.mpr ⟨fun hcx => ?_, hmax⟩⟩
        exact (le_total (val c) (val a)).resolve_right fun hle => hc ⟨hcx, hle⟩
    · obtain ⟨a, ha, hax⟩ := h
      rcases List.mem_cons.mp ha with rfl | ha
      · refine ⟨a, List.mem_cons_self, hax, List.forall_mem_cons.mpr ⟨fun _ => le_refl _, ?_⟩⟩
        exact fun b hb hbx => absurd ⟨b, hb, hbx⟩ hT
      · exact absurd ⟨a, ha, hax⟩ hT

/-- Where the scan of each value ends at it, every scan ends at the greatest value. -/
theorem greatest_of_scans (h : ∀ v ∈ T.map val, ∃ e, lastUpTo val v T = some e ∧ val e = v)
    (hx : ∃ a ∈ T, val a ≤ x) :
    ∃ e, lastUpTo val x T = some e ∧ e ∈ T ∧ val e ≤ x ∧ ∀ a ∈ T, val a ≤ x → val a ≤ val e := by
  obtain ⟨a, ha, hax, hmax⟩ := exists_greatest hx
  obtain ⟨e, hlast, hea⟩ := h (val a) (List.mem_map_of_mem ha)
  have hcongr : lastUpTo val x T = lastUpTo val (val a) T :=
    lastUpTo_congr fun b hb => ⟨hmax b hb, fun hb => hb.trans hax⟩
  refine ⟨e, hcongr.trans hlast, (lastUpTo_mem hlast).1, hea ▸ hax, ?_⟩
  rw [hea]
  exact hmax

/-- A table in the order of its values. -/
theorem scan_of_sorted (hT : T.Pairwise fun a b => val a ≤ val b) {v : V} (hv : v ∈ T.map val) :
    ∃ e, lastUpTo val v T = some e ∧ val e = v := by
  obtain ⟨a, ha, rfl⟩ := List.mem_map.mp hv
  have hrefl : ∀ a, val a ≤ val a := fun a => le_refl _
  cases hlast : lastUpTo val (val a) T with
  | none =>
    obtain ⟨b, -, hlt, hle⟩ := first_of_none hrefl hT hlast ha
    exact absurd hle (not_le.mpr hlt)
  | some e =>
    refine ⟨e, rfl, le_antisymm (lastUpTo_mem hlast).2 ?_⟩
    rcases around_last hrefl hT hlast ha with ⟨-, hle⟩ | ⟨b, -, hlt, -, hle⟩
    · exact hle
    · exact absurd hle (not_le.mpr hlt)

/-- The scan of a table whose values are mapped in their order. -/
theorem lastUpTo_map {β W : Type} [LinearOrder W] {val' : β → W} {y : W} (g : α → β)
    (h : ∀ a ∈ T, val' (g a) ≤ y ↔ val a ≤ x) :
    lastUpTo val' y (T.map g) = (lastUpTo val x T).map g := by
  unfold lastUpTo
  rw [← List.getLast?_map]
  congr 1
  induction T with
  | nil => rfl
  | cons a T ih =>
    rw [List.forall_mem_cons] at h
    have heq : decide (val' (g a) ≤ y) = decide (val a ≤ x) := decide_eq_decide.mpr h.1
    rw [List.map_cons, List.takeWhile_cons, List.takeWhile_cons, heq]
    split
    · rw [List.map_cons, ih h.2]
    · rfl

/-! ## All orders of the entries -/

/-- Where the keys climb with the values, every scan ends at the value. -/
theorem scan_of_climbs (h : Climbs key val E) (hT : Sorts key E T) {v : V} (hv : v ∈ E.map val) :
    ∃ e, lastUpTo val v T = some e ∧ val e = v := by
  obtain ⟨k, hk, honly, hbeyond, hbelow⟩ := h v hv
  obtain ⟨e0, he0, rfl⟩ := List.mem_map.mp hk
  obtain ⟨hperm, hsorted⟩ := hT
  have hval0 := honly e0 he0 rfl
  have hrefl : ∀ a, key a ≤ key a := fun a => le_refl _
  cases hlast : lastUpTo val v T with
  | none =>
    obtain ⟨b, hb, hbv, hle⟩ := first_of_none hrefl hsorted hlast (hperm.mem_iff.mpr he0)
    exact absurd hle (not_le.mpr (hbeyond b (hperm.mem_iff.mp hb) hbv))
  | some e =>
    obtain ⟨he, hev⟩ := lastUpTo_mem hlast
    rw [hperm.mem_iff] at he
    refine ⟨e, rfl, eq_of_le_of_not_lt hev fun hlt => ?_⟩
    have hk : key e0 ≤ key e := by
      rcases around_last hrefl hsorted hlast (hperm.mem_iff.mpr he0) with ⟨-, hle⟩ | ⟨b, hb, hbv, -, hle⟩
      · exact hle
      · exact absurd hle (not_le.mpr (hbeyond b (hperm.mem_iff.mp hb) hbv))
    rcases eq_or_lt_of_le hk with hk | hk
    · exact absurd (honly e he hk.symm) (ne_of_lt hlt)
    · obtain ⟨e', he', hev', hlt'⟩ := hbelow e he hk hlt
      rcases around_last hrefl hsorted hlast (hperm.mem_iff.mpr he') with
        ⟨hle, -⟩ | ⟨b, hb, hbv, hle, hle'⟩
      · exact absurd hle (not_le.mpr hev')
      · exact absurd (hle.trans hle') (not_le.mpr hlt')

theorem exists_sorted {L : Type} [LinearOrder L] (f : α → L) (E : List α) :
    ∃ T : List α, T.Perm E ∧ T.Pairwise fun a b => f a ≤ f b := by
  refine ⟨E.mergeSort fun a b => decide (f a ≤ f b), List.mergeSort_perm _ _, ?_⟩
  have hsorted : (E.mergeSort fun a b => decide (f a ≤ f b)).Pairwise fun a b =>
      decide (f a ≤ f b) = true := List.pairwise_mergeSort
    (fun a b c hab hbc => by
      simp only [decide_eq_true_eq] at *
      exact le_trans hab hbc)
    (fun a b => by simpa using le_total (f a) (f b)) E
  simpa using hsorted

/-- A table in which the entries of one key are in the order of a rank. -/
theorem exists_ranked (key : α → K) (rank : α → Nat) (E : List α) :
    ∃ T : List α, Sorts key E T ∧
      T.Pairwise fun a b => key a < key b ∨ key a = key b ∧ rank a ≤ rank b := by
  obtain ⟨T, hperm, hsorted⟩ := exists_sorted (fun a => toLex (key a, rank a)) E
  simp only [Prod.Lex.toLex_le_toLex] at hsorted
  refine ⟨T, ⟨hperm, hsorted.imp fun h => ?_⟩, hsorted⟩
  rcases h with h | ⟨h, -⟩
  · exact le_of_lt h
  · exact le_of_eq h

/-- In one key those beyond `v` come first, then those at `v`, then those below it. -/
def beyondFirst (val : α → V) (v : V) (a : α) : Nat :=
  if v < val a then 0 else if val a = v then 1 else 2

/-- In one key those at `v` come first, then those below it, then those beyond it. -/
def beyondLast (val : α → V) (v : V) (a : α) : Nat :=
  if val a = v then 0 else if val a < v then 1 else 2

/-- Where the scans of all tables end at the value, the keys climb with the values. -/
theorem climbs_of_scans
    (h : ∀ T, Sorts key E T → ∀ v ∈ E.map val, ∃ e, lastUpTo val v T = some e ∧ val e = v) :
    Climbs key val E := by
  intro v hv
  obtain ⟨T, hT, hranked⟩ := exists_ranked key (beyondFirst val v) E
  obtain ⟨T', hT', hranked'⟩ := exists_ranked key (beyondLast val v) E
  obtain ⟨e, hlast, hev⟩ := h T hT v hv
  obtain ⟨e', hlast', hev'⟩ := h T' hT' v hv
  have hmem := fun a => (hT.1.mem_iff (a := a))
  have hmem' := fun a => (hT'.1.mem_iff (a := a))
  have hrank : beyondFirst val v e = 1 := by
    unfold beyondFirst
    rw [if_neg (by rw [hev]; exact lt_irrefl v), if_pos hev]
  have hrank' : beyondLast val v e' = 0 := if_pos hev'
  have hrefl : ∀ rank : α → Nat, ∀ a, key a < key a ∨ key a = key a ∧ rank a ≤ rank a :=
    fun rank a => Or.inr ⟨rfl, le_refl _⟩
  have hfirst : ∀ a, v < val a → beyondFirst val v a = 0 := fun a ha => if_pos ha
  -- What is beyond has a later key than the last entry
  have hbeyond : ∀ a ∈ E, v < val a → key e < key a := by
    intro a ha hav
    rcases around_last (hrefl _) hranked hlast ((hmem a).mpr ha) with
      ⟨hle, -⟩ | ⟨b, hb, hbv, heb, hba⟩
    · exact absurd hle (not_le.mpr hav)
    · rw [hrank, hfirst b hbv] at heb
      have heb := heb.resolve_right fun h => absurd h.2 (by decide)
      rcases hba with hba | ⟨hba, -⟩
      · exact heb.trans hba
      · exact hba ▸ heb
  refine ⟨key e, List.mem_map_of_mem ((hmem e).mp (lastUpTo_mem hlast).1), fun a ha hka => ?_, hbeyond,
    fun a ha hka hav => ?_⟩
  · rcases around_last (hrefl _) hranked hlast ((hmem a).mpr ha) with
      ⟨hle, hae⟩ | ⟨b, hb, hbv, heb, hba⟩
    · refine eq_of_le_of_not_lt hle fun hlt => ?_
      have hae := (hae.resolve_left (by rw [hka]; exact lt_irrefl _)).2
      rw [hrank, beyondFirst, if_neg (not_lt_of_gt hlt), if_neg (ne_of_lt hlt)] at hae
      exact absurd hae (by decide)
    · have hkb := hbeyond b ((hmem b).mp hb) hbv
      rcases hba with hba | ⟨hba, -⟩
      · exact absurd hka (ne_of_gt (hkb.trans hba))
      · exact absurd hka (ne_of_gt (hba ▸ hkb))
  · -- Otherwise the entry comes behind the last one of the other table
    by_contra hnone
    have hle : ∀ b ∈ E, v < val b → key a ≤ key b := fun b hb hbv =>
      not_lt.mp fun hlt => hnone ⟨b, hb, hbv, hlt⟩
    obtain ⟨b, hb, hbv, hba⟩ : ∃ b ∈ E, v < val b ∧ key b ≤ key a := by
      rcases around_last (hrefl _) hranked hlast ((hmem a).mpr ha) with
        ⟨-, hae⟩ | ⟨b, hb, hbv, -, hba⟩
      · rcases hae with hae | ⟨hae, -⟩
        · exact absurd hka (not_lt_of_gt hae)
        · exact absurd hka (by rw [hae]; exact lt_irrefl _)
      · refine ⟨b, (hmem b).mp hb, hbv, ?_⟩
        rcases hba with hba | ⟨hba, -⟩
        · exact le_of_lt hba
        · exact le_of_eq hba
    have hranka : beyondLast val v a = 1 := by
      unfold beyondLast
      rw [if_neg (ne_of_lt hav), if_pos hav]
    have hrankb : ∀ b, v < val b → beyondLast val v b = 2 := fun b hbv => by
      unfold beyondLast
      rw [if_neg (ne_of_gt hbv), if_neg (not_lt_of_gt hbv)]
    rcases around_last (hrefl _) hranked' hlast' ((hmem' a).mpr ha) with
      ⟨-, hae⟩ | ⟨c, hc, hcv, -, hca⟩
    · -- The last entry has a later key than what is beyond
      have hae : key a < key e' := by
        rw [hranka, hrank'] at hae
        exact hae.resolve_right fun h => absurd h.2 (by decide)
      rcases around_last (hrefl _) hranked' hlast' ((hmem' b).mpr hb) with
        ⟨hbv', -⟩ | ⟨c, hc, hcv, hec, hcb⟩
      · exact absurd hbv' (not_le.mpr hbv)
      · have hec : key e' ≤ key c := hec.elim le_of_lt fun h => le_of_eq h.1
        have hcb : key c ≤ key b := hcb.elim le_of_lt fun h => le_of_eq h.1
        exact absurd (hec.trans (hcb.trans hba)) (not_le.mpr hae)
    · rw [hranka, hrankb c hcv] at hca
      have hca := hca.resolve_right fun h => absurd h.2 (by decide)
      exact absurd (hle c ((hmem' c).mp hc) hcv) (not_le.mpr hca)

/-- All tables are scanned right if and only if the keys climb with the values. -/
theorem scans_iff :
    (∀ T, Sorts key E T → ∀ v ∈ E.map val, ∃ e, lastUpTo val v T = some e ∧ val e = v) ↔
      Climbs key val E :=
  ⟨climbs_of_scans, fun h _ hT _ hv => scan_of_climbs h hT hv⟩

end sorted_scan
