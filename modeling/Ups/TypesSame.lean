-- The comparison of two types (ci_types.c), as far as it is an equivalence, and the sizes of types
-- that it takes for the same.
import Mathlib.Tactic.Common

namespace ups_rules.types_same

/-! ## The pure model -/

inductive BasicCode where
  | TY_VOID | TY_BOOLEAN
  | TY_CHAR | TY_UCHAR | TY_SHORT | TY_USHORT | TY_INT | TY_UINT | TY_LONG | TY_ULONG
  | TY_LONGLONG | TY_ULONGLONG | TY_FLOAT | TY_DOUBLE
deriving DecidableEq

/-- The codes of the types with a tag. Those with a U are declared only. -/
inductive TagCode where
  | TY_STRUCT | TY_U_STRUCT | TY_UNION | TY_U_UNION | TY_ENUM | TY_U_ENUM
deriving DecidableEq

inductive Dimtype where
  | DT_CONSTANT | DT_FPREL | DT_APREL | DT__UNKNOWN
deriving DecidableEq

/-- A bound of a dim_t: its Dimtype, and the bound if that is `DT_CONSTANT`. -/
structure Bound where
  type : Dimtype
  val : Int
deriving DecidableEq

/-- A type_t. The tag of a type is the address of its definition, and an array has the type of its
indices. -/
inductive CType where
  | basic (code : BasicCode)
  | tagged (code : TagCode) (ty_aggr_or_enum : Nat)
  | ptr (ty_qualifiers : Nat) (ty_base : CType)
  | array (di_type : CType) (di_low di_high : Bound) (ty_base : CType)
  | func (fr_is_old_style : Bool) (fr_params : List CType) (ty_base : CType)

/-- Two bounds differ only if both are known. -/
def boundsSame (b c : Bound) : Bool :=
  !(b.type = .DT_CONSTANT && c.type = .DT_CONSTANT && b.val ≠ c.val)

mutual

/-- `ci_types_same`. For an array it returns before the types of the elements are compared. -/
def ciTypesSame : CType → CType → Bool
  | .basic code, .basic code' => code = code'
  | .tagged code ae, .tagged code' ae' => code = code' && ae = ae'
  | .ptr quals base, .ptr quals' base' => quals = quals' && ciTypesSame base base'
  | .array di_type low high _, .array di_type' low' high' _ =>
    ciTypesSame di_type di_type' && boundsSame low low' && boundsSame high high'
  | .func old params base, .func old' params' base' =>
    (old || old' || (params.length = params'.length && paramsSame params params')) &&
      ciTypesSame base base'
  | _, _ => false

/-- The loop of `params_same`. -/
def paramsSame : List CType → List CType → Bool
  | t :: ts, u :: us => ciTypesSame t u && paramsSame ts us
  | _, _ => true

end

def basicSize : BasicCode → Int
  | .TY_VOID => -1
  | .TY_CHAR | .TY_UCHAR => 1
  | .TY_SHORT | .TY_USHORT => 2
  | .TY_INT | .TY_UINT | .TY_BOOLEAN | .TY_FLOAT => 4
  | .TY_LONG | .TY_ULONG | .TY_LONGLONG | .TY_ULONGLONG | .TY_DOUBLE => 8

/-- `ci_typesize`, for the sizes that the definitions of structs and unions have. -/
def ciTypesize (ae_size : Nat → Int) : CType → Int
  | .basic code => basicSize code
  | .tagged .TY_STRUCT ae | .tagged .TY_UNION ae => ae_size ae
  | .tagged .TY_U_STRUCT _ | .tagged .TY_U_UNION _ => 0
  | .tagged .TY_ENUM _ | .tagged .TY_U_ENUM _ => 4
  | .ptr _ _ => 8
  | .array _ _ high base => (high.val + 1) * ciTypesize ae_size base
  | .func _ _ _ => 0

/-! ## Kinds of types -/

/-- The type of an object whose size is known. -/
def CType.complete : CType → Bool
  | .basic code => code ≠ .TY_VOID
  | .tagged code _ => code ∉ [.TY_U_STRUCT, .TY_U_UNION, .TY_U_ENUM]
  | .ptr _ _ => true
  | .array _ _ high base => high.type = .DT_CONSTANT && base.complete
  | .func _ _ _ => false

def Bound.known (b : Bound) : Bool := b.type = .DT_CONSTANT

mutual

/-- No bound in the type is unknown, and no function is without a prototype. -/
def CType.definite : CType → Bool
  | .basic _ | .tagged _ _ => true
  | .ptr _ base => base.definite
  | .array di_type low high base =>
    di_type.definite && low.known && high.known && base.definite
  | .func old params base => !old && allDefinite params && base.definite

def allDefinite : List CType → Bool
  | [] => true
  | t :: ts => t.definite && allDefinite ts

end

/-- The types of the elements are the same as well, down to elements that are no arrays. -/
def elementsSame : CType → CType → Bool
  | .array _ _ _ base, .array _ _ _ base' => ciTypesSame base base' && elementsSame base base'
  | _, _ => true

/-! ## An equivalence -/

theorem boundsSame_self (b : Bound) : boundsSame b b = true := by
  simp [boundsSame]

theorem boundsSame_comm (b c : Bound) : boundsSame b c = boundsSame c b := by
  simp only [boundsSame, ne_comm (a := b.val), Bool.and_comm (decide (b.type = .DT_CONSTANT))]

theorem boundsSame_trans {b c d : Bound} (hc : c.known = true) (h : boundsSame b c = true)
    (h' : boundsSame c d = true) : boundsSame b d = true := by
  simp only [Bound.known, boundsSame, decide_eq_true_eq] at hc h h' ⊢
  grind

mutual

theorem ciTypesSame_self (t : CType) : ciTypesSame t t = true := by
  cases t with
  | basic code => simp [ciTypesSame]
  | tagged code ae => simp [ciTypesSame]
  | ptr quals base => simp [ciTypesSame, ciTypesSame_self base]
  | array di_type low high base => simp [ciTypesSame, ciTypesSame_self di_type, boundsSame_self]
  | func old params base => simp [ciTypesSame, ciTypesSame_self base, paramsSame_self params]

theorem paramsSame_self (ts : List CType) : paramsSame ts ts = true := by
  cases ts with
  | nil => rfl
  | cons t ts => simp [paramsSame, ciTypesSame_self t, paramsSame_self ts]

end

mutual

theorem ciTypesSame_comm (t u : CType) : ciTypesSame t u = ciTypesSame u t := by
  cases t with
  | basic code =>
    cases u with
    | basic code' => simp [ciTypesSame, eq_comm]
    | _ => rfl
  | tagged code ae =>
    cases u with
    | tagged code' ae' => simp [ciTypesSame, eq_comm]
    | _ => rfl
  | ptr quals base =>
    cases u with
    | ptr quals' base' => simp [ciTypesSame, eq_comm, ciTypesSame_comm base base']
    | _ => rfl
  | array di_type low high base =>
    cases u with
    | array di_type' low' high' base' =>
      simp only [ciTypesSame]
      rw [ciTypesSame_comm di_type di_type', boundsSame_comm low, boundsSame_comm high]
    | _ => rfl
  | func old params base =>
    cases u with
    | func old' params' base' =>
      have hlength : decide (params.length = params'.length) =
          decide (params'.length = params.length) := decide_eq_decide.2 eq_comm
      simp only [ciTypesSame]
      rw [ciTypesSame_comm base base', paramsSame_comm params params', Bool.or_comm old, hlength]
    | _ => rfl

theorem paramsSame_comm (ts us : List CType) : paramsSame ts us = paramsSame us ts := by
  cases ts with
  | nil => cases us <;> rfl
  | cons t ts =>
    cases us with
    | nil => rfl
    | cons u us => rw [paramsSame, paramsSame, ciTypesSame_comm t u, paramsSame_comm ts us]

end

mutual

/-- What is the same as a definite type is the same as the types that are the same as it. -/
theorem ciTypesSame_trans {t u v : CType} (hu : u.definite = true) (h : ciTypesSame t u = true)
    (h' : ciTypesSame u v = true) : ciTypesSame t v = true := by
  cases u with
  | basic code =>
    cases t with
    | basic code₁ =>
      obtain rfl : code₁ = code := by simpa [ciTypesSame] using h
      exact h'
    | _ => cases h
  | tagged code ae =>
    cases t with
    | tagged code₁ ae₁ =>
      obtain ⟨rfl, rfl⟩ : code₁ = code ∧ ae₁ = ae := by simpa [ciTypesSame] using h
      exact h'
    | _ => cases h
  | ptr quals base =>
    cases t with
    | ptr quals₁ base₁ =>
      cases v with
      | ptr quals₂ base₂ =>
        simp only [ciTypesSame, Bool.and_eq_true, decide_eq_true_eq] at h h' ⊢
        exact ⟨h.1.trans h'.1, ciTypesSame_trans (by simpa [CType.definite] using hu) h.2 h'.2⟩
      | _ => cases h'
    | _ => cases h
  | array di_type low high base =>
    cases t with
    | array di_type₁ low₁ high₁ base₁ =>
      cases v with
      | array di_type₂ low₂ high₂ base₂ =>
        simp only [ciTypesSame, CType.definite, Bool.and_eq_true] at h h' hu ⊢
        obtain ⟨⟨⟨hdi, hlow⟩, hhigh⟩, -⟩ := hu
        exact ⟨⟨ciTypesSame_trans hdi h.1.1 h'.1.1, boundsSame_trans hlow h.1.2 h'.1.2⟩,
          boundsSame_trans hhigh h.2 h'.2⟩
      | _ => cases h'
    | _ => cases h
  | func old params base =>
    cases t with
    | func old₁ params₁ base₁ =>
      cases v with
      | func old₂ params₂ base₂ =>
        simp only [ciTypesSame, CType.definite, Bool.and_eq_true, Bool.or_eq_true, decide_eq_true_eq,
          Bool.not_eq_eq_eq_not, Bool.not_true] at h h' hu ⊢
        obtain ⟨⟨rfl, hparams⟩, hbase⟩ := hu
        refine ⟨?_, ciTypesSame_trans hbase h.2 h'.2⟩
        rcases h.1 with (hold | hold) | ⟨hlength, hsame⟩
        · exact .inl (.inl hold)
        · cases hold
        rcases h'.1 with (hold | hold) | ⟨hlength', hsame'⟩
        · cases hold
        · exact .inl (.inr hold)
        · exact .inr ⟨hlength.trans hlength',
            paramsSame_trans hparams hlength hlength' hsame hsame'⟩
      | _ => cases h'
    | _ => cases h

theorem paramsSame_trans {ts us vs : List CType} (hus : allDefinite us = true)
    (hlength : ts.length = us.length) (hlength' : us.length = vs.length)
    (h : paramsSame ts us = true) (h' : paramsSame us vs = true) : paramsSame ts vs = true := by
  cases us with
  | nil =>
    obtain rfl := List.length_eq_zero_iff.1 hlength
    rfl
  | cons u us =>
    obtain ⟨t, ts, rfl⟩ := List.exists_cons_of_length_eq_add_one hlength
    obtain ⟨v, vs, rfl⟩ := List.exists_cons_of_length_eq_add_one hlength'.symm
    simp only [paramsSame, allDefinite, Bool.and_eq_true] at h h' hus ⊢
    exact ⟨ciTypesSame_trans hus.1 h.1 h'.1, paramsSame_trans hus.2 (Nat.succ.inj hlength)
      (Nat.succ.inj hlength') h.2 h'.2⟩

end

/-! ## Sizes -/

/-- Complete types that are the same down to their elements have one size. -/
theorem ciTypesize_eq (ae_size : Nat → Int) {t u : CType} (ht : t.complete = true)
    (hu : u.complete = true) (h : ciTypesSame t u = true) (helements : elementsSame t u = true) :
    ciTypesize ae_size t = ciTypesize ae_size u := by
  cases t with
  | basic code =>
    cases u with
    | basic code' =>
      obtain rfl : code = code' := by simpa [ciTypesSame] using h
      rfl
    | _ => cases h
  | tagged code ae =>
    cases u with
    | tagged code' ae' =>
      obtain ⟨rfl, rfl⟩ : code = code' ∧ ae = ae' := by simpa [ciTypesSame] using h
      rfl
    | _ => cases h
  | ptr quals base =>
    cases u with
    | ptr quals' base' => rfl
    | _ => cases h
  | array di_type low high base =>
    cases u with
    | array di_type' low' high' base' =>
      simp only [CType.complete, Bool.and_eq_true, decide_eq_true_eq] at ht hu
      simp only [elementsSame, Bool.and_eq_true] at helements
      simp only [ciTypesSame, Bool.and_eq_true] at h
      have hval : high.val = high'.val := by simpa [boundsSame, ht.1, hu.1] using h.2
      rw [ciTypesize, ciTypesize, hval, ciTypesize_eq ae_size ht.2 hu.2 helements.1 helements.2]
    | _ => cases h
  | func old params base => cases ht

/-- An array of a basic type, as the parser builds it: without a bound, its size is not known. -/
def arrayOf (code : BasicCode) (n : Option Nat) : CType :=
  .array (.basic .TY_INT) ⟨.DT_CONSTANT, 0⟩
    (n.elim ⟨.DT__UNKNOWN, 0⟩ fun n => ⟨.DT_CONSTANT, n - 1⟩) (.basic code)

end ups_rules.types_same
