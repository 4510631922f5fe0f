-- Lists of symbols, some of which stand for other lists. As long as there is such a symbol, the first
-- one is replaced. This comes to an end exactly when no symbol that can come up leads back to itself.
import Mathlib.Data.Fintype.Card
import Mathlib.Data.Set.Finite.Basic
import Mathlib.Data.Set.Finite.List
import Mathlib.Logic.Relation
import Mathlib.Tactic.Common

namespace first_rewrite

variable {α : Type*} {body : α → Option (List α)} {a b : α} {l l' l1 l2 : List α}

/-! ## Replacing -/

/-- The list after its first symbol with a body is replaced, if there is one. -/
def replaceFirst (body : α → Option (List α)) : List α → Option (List α)
  | [] => none
  | a :: l =>
    match body a with
    | some b => some (b ++ l)
    | none => (replaceFirst body l).map (a :: ·)

/-- Replacing comes to an end. -/
inductive Stops (body : α → Option (List α)) : List α → Prop
  | done {l : List α} (h : replaceFirst body l = none) : Stops body l
  | step {l l' : List α} (h : replaceFirst body l = some l') (hl' : Stops body l') : Stops body l

/-- The body of `a` has `b` in it. -/
def Mentions (body : α → Option (List α)) (a b : α) : Prop := ∃ l, body a = some l ∧ b ∈ l

theorem replaceFirst_of_some (h : body a = some l1) : replaceFirst body (a :: l) = some (l1 ++ l) := by
  rw [replaceFirst, h]

theorem replaceFirst_of_none (h : body a = none) :
    replaceFirst body (a :: l) = (replaceFirst body l).map (a :: ·) := by
  rw [replaceFirst, h]

theorem replaceFirst_eq_none_iff : replaceFirst body l = none ↔ ∀ a ∈ l, body a = none := by
  induction l with
  | nil => exact iff_of_true rfl fun _ h => absurd h List.not_mem_nil
  | cons a l ih =>
    rw [List.forall_mem_cons]
    cases h : body a with
    | some b =>
      rw [replaceFirst_of_some h]
      exact iff_of_false (fun hc => by cases hc) fun hc => by cases hc.1
    | none =>
      rw [replaceFirst_of_none h, Option.map_eq_none_iff, ih]
      exact (and_iff_right rfl).symm

/-- Behind symbols without a body, the rest is replaced. -/
theorem replaceFirst_append_of_none (h : ∀ a ∈ l1, body a = none) :
    replaceFirst body (l1 ++ l2) = (replaceFirst body l2).map (l1 ++ ·) := by
  induction l1 with
  | nil => exact Option.map_id'.symm
  | cons a l1 ih =>
    rw [List.forall_mem_cons] at h
    rw [List.cons_append, replaceFirst_of_none h.1, ih h.2, Option.map_map]
    rfl

theorem replaceFirst_append_of_some (h : replaceFirst body l1 = some l') :
    replaceFirst body (l1 ++ l2) = some (l' ++ l2) := by
  induction l1 generalizing l' with
  | nil => cases h
  | cons a l1 ih =>
    rw [List.cons_append]
    cases hbody : body a with
    | some b =>
      rw [replaceFirst_of_some hbody] at h ⊢
      rw [← Option.some.inj h, List.append_assoc]
    | none =>
      rw [replaceFirst_of_none hbody, Option.map_eq_some_iff] at h
      obtain ⟨l'', hl'', rfl⟩ := h
      rw [replaceFirst_of_none hbody, ih hl'']
      rfl

/-- What is replaced, and by what. -/
theorem replaceFirst_eq_some (h : replaceFirst body l = some l') :
    ∃ l1 a b l2, l = l1 ++ a :: l2 ∧ body a = some b ∧ l' = l1 ++ (b ++ l2) := by
  induction l generalizing l' with
  | nil => cases h
  | cons a l ih =>
    cases hbody : body a with
    | some b =>
      rw [replaceFirst_of_some hbody] at h
      exact ⟨[], a, b, l, rfl, hbody, (Option.some.inj h).symm⟩
    | none =>
      rw [replaceFirst_of_none hbody, Option.map_eq_some_iff] at h
      obtain ⟨l'', hl'', rfl⟩ := h
      obtain ⟨l1, c, b, l2, rfl, hc, rfl⟩ := ih hl''
      exact ⟨a :: l1, c, b, l2, rfl, hc, rfl⟩

/-! ## Coming to an end -/

theorem Stops.append (h1 : Stops body l1) (h2 : Stops body l2) : Stops body (l1 ++ l2) := by
  induction h1 with
  | done hdone =>
    have hnone := replaceFirst_eq_none_iff.mp hdone
    induction h2 with
    | done hdone2 =>
      refine .done ?_
      rw [replaceFirst_append_of_none hnone, hdone2]
      rfl
    | step hstep _ ih =>
      refine .step ?_ ih
      rw [replaceFirst_append_of_none hnone, hstep]
      rfl
  | step hstep _ ih => exact .step (replaceFirst_append_of_some hstep) ih

theorem stops_of_forall (h : ∀ a ∈ l, Stops body [a]) : Stops body l := by
  induction l with
  | nil => exact .done rfl
  | cons a l ih =>
    rw [List.forall_mem_cons] at h
    exact h.1.append (ih h.2)

theorem stops_of_acc (h : Acc (fun b a => Mentions body a b) a) : Stops body [a] := by
  induction h with
  | intro a _ ih =>
    cases hbody : body a with
    | none => exact .done (replaceFirst_eq_none_iff.mpr (List.forall_mem_singleton.mpr hbody))
    | some b =>
      refine .step (replaceFirst_of_some hbody) ?_
      rw [List.append_nil]
      exact stops_of_forall fun c hc => ih c ⟨b, hbody, hc⟩

theorem Stops.acc (h : Stops body l) : ∀ a ∈ l, Acc (fun b a => Mentions body a b) a := by
  induction h with
  | done hdone =>
    intro a ha
    refine ⟨a, ?_⟩
    rintro b ⟨l, hbody, -⟩
    rw [replaceFirst_eq_none_iff.mp hdone a ha] at hbody
    cases hbody
  | step hstep _ ih =>
    obtain ⟨l1, c, b, l2, rfl, hc, rfl⟩ := replaceFirst_eq_some hstep
    have hbody : ∀ d ∈ b, Acc (fun b a => Mentions body a b) d := fun d hd =>
      ih d (List.mem_append_right l1 (List.mem_append_left l2 hd))
    intro a ha
    rcases List.mem_append.mp ha with ha | ha
    · exact ih a (List.mem_append_left _ ha)
    rcases List.mem_cons.mp ha with rfl | ha
    · refine ⟨a, ?_⟩
      rintro d ⟨b', hb', hd⟩
      rw [hc] at hb'
      exact hbody d (Option.some.inj hb' ▸ hd)
    · exact ih a (List.mem_append_right l1 (List.mem_append_right b ha))

/-- Replacing comes to an end exactly when it does for each symbol. -/
theorem stops_iff : Stops body l ↔ ∀ a ∈ l, Acc (fun b a => Mentions body a b) a :=
  ⟨Stops.acc, fun h => stops_of_forall fun a ha => stops_of_acc (h a ha)⟩

/-! ## Cycles -/

/-- From `a` one comes to a symbol that leads back to itself. -/
def ReachesCycle (body : α → Option (List α)) (a : α) : Prop :=
  ∃ b, Relation.ReflTransGen (Mentions body) a b ∧ Relation.TransGen (Mentions body) b b

theorem not_transGen_self (h : Acc (fun b a => Mentions body a b) a) :
    ¬Relation.TransGen (Mentions body) a a := by
  induction h with
  | intro a _ ih =>
    intro hcycle
    obtain ⟨b, hab, hba⟩ := Relation.TransGen.head'_iff.mp hcycle
    exact ih b hab (Relation.TransGen.tail'_iff.mpr ⟨a, hba, hab⟩)

theorem not_reachesCycle_of_acc (h : Acc (fun b a => Mentions body a b) a) : ¬ReachesCycle body a := by
  rintro ⟨b, hab, hbb⟩
  refine not_transGen_self ?_ hbb
  clear hbb
  induction hab with
  | refl => exact h
  | tail _ hstep ih => exact ih.inv hstep

/-- Where only so many symbols can come up, there is nothing else that keeps it from ending. -/
theorem acc_of_not_reachesCycle (hfinite : {b | Relation.ReflTransGen (Mentions body) a b}.Finite)
    (h : ¬ReachesCycle body a) : Acc (fun b a => Mentions body a b) a := by
  have hwf : WellFounded fun (d c : {b // Relation.ReflTransGen (Mentions body) a b}) =>
      Relation.TransGen (Mentions body) c.1 d.1 := by
    have : Finite {b // Relation.ReflTransGen (Mentions body) a b} := hfinite
    have : IsTrans {b // Relation.ReflTransGen (Mentions body) a b} fun d c =>
        Relation.TransGen (Mentions body) c.1 d.1 := ⟨fun _ _ _ hdc hce => hce.trans hdc⟩
    have : Std.Irrefl fun (d c : {b // Relation.ReflTransGen (Mentions body) a b}) =>
        Relation.TransGen (Mentions body) c.1 d.1 := ⟨fun c hc => h ⟨c.1, c.2, hc⟩⟩
    exact Finite.wellFounded_of_trans_of_irrefl _
  have hall : ∀ c : {b // Relation.ReflTransGen (Mentions body) a b},
      Acc (fun b a => Mentions body a b) c.1 := by
    intro c
    induction c using hwf.induction with
    | h c ih =>
      refine ⟨c.1, fun d hd => ?_⟩
      exact ih ⟨d, c.2.tail hd⟩ (.single hd)
  exact hall ⟨a, .refl⟩

end first_rewrite
