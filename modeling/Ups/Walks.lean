-- Walks of a function that may fail, up to the first state where they stop. Where a state either
-- goes on towards the end or stays what it is, a walk ends when it goes on from each of its states.
import Mathlib.Logic.Relation
import Mathlib.Tactic.Common

namespace ups_rules.walks

variable {α : Type} (f : α → Option α) (stop : α → Prop)

/-- The walk comes to a state where it stops. -/
inductive Ends : α → Prop where
  | stop {a : α} (h : stop a) : Ends a
  | step {a b : α} (h : f a = some b) (ends : Ends b) : Ends a

/-- The walk from `a` goes through a state and does not stop there. -/
inductive Passes (a : α) : α → Prop where
  | first (h : ¬stop a) : Passes a a
  | next {b c : α} (passes : Passes a b) (h : f b = some c) (go : ¬stop c) : Passes a c

variable {f stop} {a b c : α}

theorem Passes.not_stop (h : Passes f stop a b) : ¬stop b := by
  cases h with
  | first h => exact h
  | next _ _ go => exact go

theorem Passes.cons (ha : ¬stop a) (hf : f a = some b) (h : Passes f stop b c) :
    Passes f stop a c := by
  induction h with
  | first hb => exact .next (.first ha) hf hb
  | next _ hc go ih => exact .next ih hc go

theorem Ends.of_passes (h : Ends f stop a) (hb : Passes f stop a b) : Ends f stop b := by
  induction hb with
  | first => exact h
  | next hpass hc go ih =>
    cases ih with
    | stop hstop => exact absurd hstop hpass.not_stop
    | step hf ends =>
      rw [hf] at hc
      cases hc
      exact ends

theorem ends_of_reaches (h : Relation.ReflTransGen (fun a b => f a = some b) a b) (hb : stop b) :
    Ends f stop a := by
  induction h using Relation.ReflTransGen.head_induction_on with
  | refl => exact .stop hb
  | head hf _ ih => exact .step hf ih

/-- A walk that stays where it does not stop does not end. -/
theorem not_ends_of_stays (hf : f a = some a) (ha : ¬stop a) : ¬Ends f stop a := by
  intro h
  generalize hb : a = b at h
  induction h with
  | stop hstop => exact ha (hb ▸ hstop)
  | step hstep _ ih =>
    subst hb
    rw [hf] at hstep
    cases hstep
    exact ih rfl

/-! ## Walks that go on or stay -/

variable {P : α → Prop} (Inv : α → Prop) (measure : α → Nat)

theorem Ends.goes_on (hstuck : ∀ b, Inv b → ¬stop b → ¬P b → f b = none ∨ f b = some b)
    (h : Ends f stop a) (hinv : Inv a) (ha : ¬stop a) : P a := by
  induction h with
  | stop hstop => exact absurd hstop ha
  | @step a b hf _ ih =>
    by_contra hP
    rcases hstuck a hinv ha hP with h | h
    · rw [h] at hf
      cases hf
    · rw [h] at hf
      cases hf
      exact hP (ih hinv ha)

/-- A walk whose states go on, each nearer to the end, ends. -/
theorem ends_of_goes_on (hstep : ∀ b, Inv b → ¬stop b → P b →
      ∃ c, f b = some c ∧ (stop c ∨ Inv c ∧ measure c < measure b))
    (ha : Inv a) (h : ∀ b, Passes f stop a b → P b) : Ends f stop a := by
  induction hm : measure a using Nat.strongRecOn generalizing a with
  | _ m ih =>
    by_cases hstop : stop a
    · exact .stop hstop
    · obtain ⟨c, hf, hc⟩ := hstep a ha hstop (h a (.first hstop))
      refine .step hf ?_
      rcases hc with hc | ⟨hinv, hlt⟩
      · exact .stop hc
      · exact ih (measure c) (hm ▸ hlt) hinv (fun b hb => h b (hb.cons hstop hf)) rfl

theorem ends_iff (hstuck : ∀ b, Inv b → ¬stop b → ¬P b → f b = none ∨ f b = some b)
    (hstep : ∀ b, Inv b → ¬stop b → P b →
      ∃ c, f b = some c ∧ (stop c ∨ Inv c ∧ measure c < measure b))
    (ha : Inv a) : Ends f stop a ↔ ∀ b, Passes f stop a b → P b := by
  refine ⟨fun h b hb => ?_, ends_of_goes_on Inv measure hstep ha⟩
  have hinv : Inv b := by
    induction hb with
    | first => exact ha
    | @next b c hpass hf go ih =>
      have hP := (h.of_passes hpass).goes_on Inv hstuck ih hpass.not_stop
      obtain ⟨c', hf', hc⟩ := hstep b ih hpass.not_stop hP
      rw [hf] at hf'
      cases hf'
      rcases hc with hc | hc
      · exact absurd hc go
      · exact hc.1
  exact (h.of_passes hb).goes_on Inv hstuck hinv hb.not_stop

end ups_rules.walks
