-- Least closed sets of demanded items. An item is demanded by the items taken so far, and a
-- demand stays until the item is taken. So a run that takes demanded items one at a time, and
-- that stops when no item left is demanded, always ends with the least closed set.
import Mathlib.Order.FixedPoints
import Mathlib.Data.Set.Insert

namespace demand

variable {M : Type*}

/-- An item that is not taken stays demanded while more items are taken. -/
def Persistent (lib : Set M) (demanded : Set M → M → Prop) : Prop :=
  ∀ A B m, A ⊆ B → B ⊆ lib → m ∈ lib → m ∉ B → demanded A m → demanded B m

/-- A set of items of the library that holds every item it demands. -/
def Closed (lib : Set M) (demanded : Set M → M → Prop) (A : Set M) : Prop :=
  A ⊆ lib ∧ ∀ m ∈ lib, demanded A m → m ∈ A

/-- The lists that a run can take, the last item first: each item was demanded by the
items before it. -/
inductive Taken (lib : Set M) (demanded : Set M → M → Prop) : List M → Prop
  | nil : Taken lib demanded []
  | cons {l : List M} {m : M} : Taken lib demanded l → m ∈ lib → demanded {a | a ∈ l} m →
      Taken lib demanded (m :: l)

variable {lib : Set M} {demanded : Set M → M → Prop}

theorem Taken.subset {l : List M} (h : Taken lib demanded l) : ∀ m ∈ l, m ∈ lib := by
  induction h with
  | nil => simp
  | cons _ hm _ ih =>
    intro a ha
    rcases List.mem_cons.mp ha with rfl | ha
    · exact hm
    · exact ih a ha

/-- A run never leaves a closed set. -/
theorem Taken.subset_closed (hp : Persistent lib demanded) {l : List M}
    (h : Taken lib demanded l) {A : Set M} (hA : Closed lib demanded A) : ∀ m ∈ l, m ∈ A := by
  induction h with
  | nil => simp
  | @cons l m _ hm hd ih =>
    intro a ha
    rcases List.mem_cons.mp ha with rfl | ha
    · by_contra hna
      exact hna (hA.2 a hm (hp {b | b ∈ l} A a ih hA.1 hm hna hd))
    · exact ih a ha

/-- A run that ends closed ends with the least closed set. -/
theorem Taken.isLeast (hp : Persistent lib demanded) {l : List M} (h : Taken lib demanded l)
    (hend : ∀ m ∈ lib, m ∉ l → ¬ demanded {a | a ∈ l} m) :
    IsLeast {A | Closed lib demanded A} {a | a ∈ l} := by
  refine ⟨⟨h.subset, fun m hm hd => ?_⟩, fun A hA => h.subset_closed hp hA⟩
  by_contra hml
  exact hend m hm hml hd

/-- Two runs that end closed take the same items. -/
theorem Taken.unique (hp : Persistent lib demanded) {l₁ l₂ : List M}
    (h₁ : Taken lib demanded l₁) (h₂ : Taken lib demanded l₂)
    (hend₁ : ∀ m ∈ lib, m ∉ l₁ → ¬ demanded {a | a ∈ l₁} m)
    (hend₂ : ∀ m ∈ lib, m ∉ l₂ → ¬ demanded {a | a ∈ l₂} m) (m : M) : m ∈ l₁ ↔ m ∈ l₂ := by
  have heq := (h₁.isLeast hp hend₁).unique (h₂.isLeast hp hend₂)
  exact Set.ext_iff.mp heq m

end demand
