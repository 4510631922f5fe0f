-- Integers of few bits that are kept in wide words: a word is canonical when it is the sign or
-- zero extension of its low bits. What arithmetic on whole words does to canonical ones.
import Mathlib.Algebra.Order.Ring.Int
import Mathlib.Tactic.Positivity
import Mathlib.Tactic.Ring

namespace narrow_ints

/-- An integer type of a language. -/
structure IntType where
  signed : Bool
  bits : Nat
  bits_pos : 0 < bits

variable {w : Nat}

namespace IntType

/-- The values of the type. -/
def InRange (t : IntType) (a : Int) : Prop :=
  if t.signed then -2 ^ (t.bits - 1) ≤ a ∧ a < 2 ^ (t.bits - 1) else 0 ≤ a ∧ a < 2 ^ t.bits

instance (t : IntType) (a : Int) : Decidable (t.InRange a) := by
  unfold InRange
  infer_instance

/-- The value of a variable of the type that the word was stored to. -/
def value (t : IntType) (v : BitVec w) : Int :=
  if t.signed then (v.setWidth t.bits).toInt else ((v.setWidth t.bits).toNat : Int)

/-- The low bits of a word, extended to a word again. -/
def cut (t : IntType) (v : BitVec w) : BitVec w :=
  if t.signed then (v.setWidth t.bits).signExtend w else (v.setWidth t.bits).setWidth w

/-- The word is the extension of its low bits. -/
def Canonical (t : IntType) (v : BitVec w) : Prop := t.cut v = v

instance (t : IntType) (v : BitVec w) : Decidable (t.Canonical v) := by
  unfold Canonical
  infer_instance

section
variable {t : IntType} {a b : Int} {x y : BitVec w}

theorem cut_eq_ofInt (t : IntType) (x : BitVec w) : t.cut x = BitVec.ofInt w (t.value x) := by
  unfold cut value
  split
  · rfl
  · rw [BitVec.ofInt_natCast, BitVec.ofNat_toNat]

theorem inRange_value (t : IntType) (x : BitVec w) : t.InRange (t.value x) := by
  unfold InRange value
  split
  · exact ⟨BitVec.le_toInt _, BitVec.toInt_lt⟩
  · have hlt := (x.setWidth t.bits).isLt
    exact ⟨Int.natCast_nonneg _, by exact_mod_cast hlt⟩

/-- The values that a signed type has are less than half of the words. -/
theorem InRange.bmod (h : t.InRange a) (hs : t.signed = true) {n : Nat} (hn : t.bits ≤ n) :
    a.bmod (2 ^ n) = a := by
  unfold InRange at h
  rw [if_pos hs] at h
  have hpos := t.bits_pos
  have hpow : (2 : Int) ^ n = 2 * 2 ^ (n - 1) := by
    rw [← Int.pow_succ']
    congr 1
    omega
  have hle : (2 : Int) ^ (t.bits - 1) ≤ 2 ^ (n - 1) := pow_le_pow_right₀ (by norm_num) (by omega)
  apply Int.bmod_eq_of_le_mul_two
  · push_cast
    omega
  · push_cast
    omega

theorem InRange.emod (h : t.InRange a) (hs : t.signed = false) {n : Nat} (hn : t.bits ≤ n) :
    a % 2 ^ n = a := by
  unfold InRange at h
  rw [if_neg (by simp [hs])] at h
  have hle : (2 : Int) ^ t.bits ≤ 2 ^ n := pow_le_pow_right₀ (by norm_num) hn
  exact Int.emod_eq_of_lt h.1 (by omega)

theorem value_ofInt (hw : t.bits ≤ w) (h : t.InRange a) : t.value (BitVec.ofInt w a) = a := by
  have hdvd : (2 : Nat) ^ t.bits ∣ 2 ^ w := Nat.pow_dvd_pow 2 hw
  have hnonneg : 0 ≤ a % (2 ^ w : Nat) := Int.emod_nonneg _ (by positivity)
  unfold value
  split
  case isTrue hs =>
    rw [BitVec.toInt_setWidth, BitVec.toNat_ofInt, Int.toNat_of_nonneg hnonneg, Int.bmod_def,
      Int.emod_emod_of_dvd _ (by exact_mod_cast hdvd), ← Int.bmod_def, h.bmod hs (le_refl _)]
  case isFalse hs =>
    rw [BitVec.toNat_setWidth, BitVec.toNat_ofInt, Int.natCast_emod, Int.toNat_of_nonneg hnonneg,
      Int.emod_emod_of_dvd _ (by exact_mod_cast hdvd)]
    exact_mod_cast h.emod (by simpa using hs) (le_refl _)

theorem Canonical.eq_ofInt (h : t.Canonical x) : x = BitVec.ofInt w (t.value x) := by
  rw [← cut_eq_ofInt]
  exact h.symm

theorem canonical_ofInt (hw : t.bits ≤ w) (h : t.InRange a) : t.Canonical (BitVec.ofInt w a) := by
  unfold Canonical
  rw [cut_eq_ofInt, value_ofInt hw h]

/-- A word is canonical when it is the word of a value of the type. -/
theorem canonical_iff (hw : t.bits ≤ w) :
    t.Canonical x ↔ ∃ a, t.InRange a ∧ x = BitVec.ofInt w a := by
  constructor
  · intro h
    exact ⟨_, t.inRange_value x, h.eq_ofInt⟩
  · rintro ⟨a, ha, rfl⟩
    exact canonical_ofInt hw ha

theorem Canonical.toInt (hw : t.bits ≤ w) (h : t.Canonical x) (hs : t.signed = true) :
    x.toInt = t.value x := by
  conv_lhs => rw [h.eq_ofInt]
  rw [BitVec.toInt_ofInt]
  exact (t.inRange_value x).bmod hs hw

theorem Canonical.toNat (hw : t.bits ≤ w) (h : t.Canonical x) (hs : t.signed = false) :
    (x.toNat : Int) = t.value x := by
  have hmod := (t.inRange_value x).emod hs hw
  have hnonneg : 0 ≤ t.value x := by
    rw [← hmod]
    exact Int.emod_nonneg _ (by positivity)
  conv_lhs => rw [h.eq_ofInt]
  rw [BitVec.toNat_ofInt]
  push_cast
  rw [hmod, Int.toNat_of_nonneg hnonneg]

/-- A type of nonnegative values is the numbers of its words. -/
theorem Canonical.toNat_of_nonneg (hw : t.bits ≤ w) (h : t.Canonical x) (h0 : 0 ≤ t.value x) :
    (x.toNat : Int) = t.value x := by
  by_cases hs : t.signed = true
  · have htoInt := h.toInt hw hs
    rw [← htoInt] at h0 ⊢
    rw [BitVec.toInt_eq_toNat_of_msb (by rwa [BitVec.msb_eq_toInt, decide_eq_false_iff_not, not_lt])]
  · exact h.toNat hw (by simpa using hs)

theorem Canonical.eq_iff (hx : t.Canonical x) (hy : t.Canonical y) :
    x = y ↔ t.value x = t.value y := by
  constructor
  · intro h
    rw [h]
  · intro h
    rw [hx.eq_ofInt, hy.eq_ofInt, h]

/-! ## Arithmetic on whole words -/

/-- The word of a value of the type. -/
structure IsWordOf (t : IntType) (x : BitVec w) (a : Int) : Prop where
  canonical : t.Canonical x
  value : t.value x = a

theorem isWordOf_ofInt (hw : t.bits ≤ w) (h : t.InRange a) : t.IsWordOf (BitVec.ofInt w a) a :=
  ⟨canonical_ofInt hw h, value_ofInt hw h⟩

theorem Canonical.isWordOf (h : t.Canonical x) : t.IsWordOf x (t.value x) := ⟨h, rfl⟩

theorem IsWordOf.eq (h : t.IsWordOf x a) : x = BitVec.ofInt w a := by
  rw [← h.value]
  exact h.canonical.eq_ofInt

theorem IsWordOf.inRange (h : t.IsWordOf x a) : t.InRange a := by
  rw [← h.value]
  exact t.inRange_value x

theorem IsWordOf.add (hw : t.bits ≤ w) (hx : t.IsWordOf x a) (hy : t.IsWordOf y b)
    (h : t.InRange (a + b)) : t.IsWordOf (x + y) (a + b) := by
  rw [hx.eq, hy.eq, ← BitVec.ofInt_add]
  exact isWordOf_ofInt hw h

theorem IsWordOf.sub (hw : t.bits ≤ w) (hx : t.IsWordOf x a) (hy : t.IsWordOf y b)
    (h : t.InRange (a - b)) : t.IsWordOf (x - y) (a - b) := by
  rw [hx.eq, hy.eq, BitVec.sub_eq_add_neg, ← BitVec.ofInt_neg, ← BitVec.ofInt_add,
    ← Int.sub_eq_add_neg]
  exact isWordOf_ofInt hw h

theorem IsWordOf.mul (hw : t.bits ≤ w) (hx : t.IsWordOf x a) (hy : t.IsWordOf y b)
    (h : t.InRange (a * b)) : t.IsWordOf (x * y) (a * b) := by
  rw [hx.eq, hy.eq, ← BitVec.ofInt_mul]
  exact isWordOf_ofInt hw h

theorem IsWordOf.neg {s : IntType} (hw : t.bits ≤ w) (hx : s.IsWordOf x a)
    (h : t.InRange (-a)) : t.IsWordOf (-x) (-a) := by
  rw [hx.eq, ← BitVec.ofInt_neg]
  exact isWordOf_ofInt hw h

theorem IsWordOf.not {s : IntType} (hw : t.bits ≤ w) (hx : s.IsWordOf x a)
    (h : t.InRange (-a - 1)) : t.IsWordOf (~~~x) (-a - 1) := by
  have hnot : ~~~x = -x - 1#w := by
    rw [BitVec.neg_eq_not_add, BitVec.add_sub_cancel]
  have hone : BitVec.ofInt w (-1) = -1#w := by
    rw [BitVec.ofInt_neg]
    rfl
  rw [hnot, hx.eq, BitVec.sub_eq_add_neg, ← BitVec.ofInt_neg, ← hone, ← BitVec.ofInt_add,
    ← Int.sub_eq_add_neg]
  exact isWordOf_ofInt hw h

/-- A conversion that leaves the word as it is. -/
theorem IsWordOf.convert {s : IntType} (hw : t.bits ≤ w) (hx : s.IsWordOf x a) (h : t.InRange a) :
    t.IsWordOf x a := by
  rw [hx.eq]
  exact isWordOf_ofInt hw h

theorem Canonical.and (hx : t.Canonical x) (hy : t.Canonical y) : t.Canonical (x &&& y) := by
  unfold Canonical cut at *
  by_cases hs : t.signed = true
  · rw [if_pos hs] at hx hy ⊢
    rw [BitVec.setWidth_and, BitVec.signExtend_and, hx, hy]
  · rw [if_neg hs] at hx hy ⊢
    rw [BitVec.setWidth_and, BitVec.setWidth_and, hx, hy]

theorem Canonical.or (hx : t.Canonical x) (hy : t.Canonical y) : t.Canonical (x ||| y) := by
  unfold Canonical cut at *
  by_cases hs : t.signed = true
  · rw [if_pos hs] at hx hy ⊢
    rw [BitVec.setWidth_or, BitVec.signExtend_or, hx, hy]
  · rw [if_neg hs] at hx hy ⊢
    rw [BitVec.setWidth_or, BitVec.setWidth_or, hx, hy]

theorem Canonical.xor (hx : t.Canonical x) (hy : t.Canonical y) : t.Canonical (x ^^^ y) := by
  unfold Canonical cut at *
  by_cases hs : t.signed = true
  · rw [if_pos hs] at hx hy ⊢
    rw [BitVec.setWidth_xor, BitVec.signExtend_xor, hx, hy]
  · rw [if_neg hs] at hx hy ⊢
    rw [BitVec.setWidth_xor, BitVec.setWidth_xor, hx, hy]

theorem IsWordOf.shiftLeft (hw : t.bits ≤ w) (hx : t.IsWordOf x a) {n : Nat}
    (h : t.InRange (a * 2 ^ n)) : t.IsWordOf (x <<< n) (a * 2 ^ n) := by
  have htwo : BitVec.twoPow w n = BitVec.ofInt w (2 ^ n) := by
    apply BitVec.eq_of_toNat_eq
    rw [BitVec.toNat_twoPow, BitVec.toNat_ofInt]
    have hcast : (2 : Int) ^ n % (2 ^ w : Nat) = ((2 ^ n % 2 ^ w : Nat) : Int) := by push_cast; rfl
    rw [hcast, Int.toNat_natCast]
  rw [BitVec.shiftLeft_eq_mul_twoPow, htwo, hx.eq, ← BitVec.ofInt_mul]
  exact isWordOf_ofInt hw h

/-- A shift of zeros into the top is a division of a number that is not negative. -/
theorem IsWordOf.ushiftRight (hw : t.bits ≤ w) (hx : t.IsWordOf x a) (h0 : 0 ≤ a) (n : Nat) :
    t.IsWordOf (x >>> n) (a / 2 ^ n) := by
  have hnat : (x.toNat : Int) = a := by
    rw [← hx.value] at h0 ⊢
    exact hx.canonical.toNat_of_nonneg hw h0
  have hword : x >>> n = BitVec.ofInt w (a / 2 ^ n) := by
    have hcast : a / 2 ^ n = ((x.toNat / 2 ^ n : Nat) : Int) := by
      rw [← hnat]
      push_cast
      rfl
    rw [hcast, BitVec.ofInt_natCast]
    apply BitVec.eq_of_toNat_eq
    have hle : x.toNat / 2 ^ n ≤ x.toNat := Nat.div_le_self _ _
    rw [BitVec.toNat_ushiftRight, Nat.shiftRight_eq_div_pow, BitVec.toNat_ofNat,
      Nat.mod_eq_of_lt (by omega)]
  have hrange := hx.inRange
  have hle : a / 2 ^ n ≤ a := Int.ediv_le_self _ h0
  have hnonneg : 0 ≤ a / 2 ^ n := Int.ediv_nonneg h0 (by positivity)
  have hrange' : t.InRange (a / 2 ^ n) := by
    unfold InRange at hrange ⊢
    split
    case isTrue hs =>
      rw [if_pos hs] at hrange
      omega
    case isFalse hs =>
      rw [if_neg hs] at hrange
      omega
  rw [hword]
  exact isWordOf_ofInt hw hrange'

theorem IsWordOf.sdiv (hw : t.bits ≤ w) (hs : t.signed = true) (hx : t.IsWordOf x a)
    (hy : t.IsWordOf y b) (h : t.InRange (a.tdiv b)) : t.IsWordOf (x.sdiv y) (a.tdiv b) := by
  have hint : (x.sdiv y).toInt = a.tdiv b := by
    rw [BitVec.toInt_sdiv, hx.canonical.toInt hw hs, hy.canonical.toInt hw hs, hx.value, hy.value,
      h.bmod hs hw]
  rw [← BitVec.ofInt_toInt (x := x.sdiv y), hint]
  exact isWordOf_ofInt hw h

/-- The quotient of unsigned numbers is in range. -/
theorem IsWordOf.udiv (hw : t.bits ≤ w) (hs : t.signed = false) (hx : t.IsWordOf x a)
    (hy : t.IsWordOf y b) : t.IsWordOf (x / y) (a.tdiv b) := by
  have ha : (x.toNat : Int) = a := by rw [hx.canonical.toNat hw hs, hx.value]
  have hb : (y.toNat : Int) = b := by rw [hy.canonical.toNat hw hs, hy.value]
  have hle : x.toNat / y.toNat ≤ x.toNat := Nat.div_le_self _ _
  have hdiv : a.tdiv b = ((x.toNat / y.toNat : Nat) : Int) := by
    rw [← ha, ← hb, Int.ofNat_tdiv]
  have hword : x / y = BitVec.ofInt w (a.tdiv b) := by
    rw [hdiv, BitVec.ofInt_natCast]
    apply BitVec.eq_of_toNat_eq
    rw [BitVec.toNat_udiv, BitVec.toNat_ofNat, Nat.mod_eq_of_lt (by omega)]
  have hrange := hx.inRange
  unfold InRange at hrange
  rw [if_neg (by simp [hs]), ← ha] at hrange
  rw [hword]
  apply isWordOf_ofInt hw
  unfold InRange
  rw [if_neg (by simp [hs]), hdiv]
  exact ⟨Int.natCast_nonneg _, lt_of_le_of_lt (by exact_mod_cast hle) hrange.2⟩

theorem IsWordOf.umod (hw : t.bits ≤ w) (hs : t.signed = false) (hx : t.IsWordOf x a)
    (hy : t.IsWordOf y b) : t.IsWordOf (x % y) (a.tmod b) := by
  have ha : (x.toNat : Int) = a := by rw [hx.canonical.toNat hw hs, hx.value]
  have hb : (y.toNat : Int) = b := by rw [hy.canonical.toNat hw hs, hy.value]
  have hle : x.toNat % y.toNat ≤ x.toNat := Nat.mod_le _ _
  have hlt := x.isLt
  have hmod : a.tmod b = ((x.toNat % y.toNat : Nat) : Int) := by
    rw [← ha, ← hb, Int.ofNat_tmod]
  have hword : x % y = BitVec.ofInt w (a.tmod b) := by
    rw [hmod, BitVec.ofInt_natCast]
    apply BitVec.eq_of_toNat_eq
    rw [BitVec.toNat_umod, BitVec.toNat_ofNat, Nat.mod_eq_of_lt (lt_of_le_of_lt hle hlt)]
  have hrange := hx.inRange
  unfold InRange at hrange
  rw [if_neg (by simp [hs]), ← ha] at hrange
  rw [hword]
  apply isWordOf_ofInt hw
  unfold InRange
  rw [if_neg (by simp [hs]), hmod]
  exact ⟨Int.natCast_nonneg _, lt_of_le_of_lt (by exact_mod_cast hle) hrange.2⟩

theorem IsWordOf.slt_iff (hw : t.bits ≤ w) (hs : t.signed = true) (hx : t.IsWordOf x a)
    (hy : t.IsWordOf y b) : x.slt y = decide (a < b) := by
  rw [BitVec.slt_eq_decide, hx.canonical.toInt hw hs, hy.canonical.toInt hw hs, hx.value, hy.value]

theorem IsWordOf.sle_iff (hw : t.bits ≤ w) (hs : t.signed = true) (hx : t.IsWordOf x a)
    (hy : t.IsWordOf y b) : x.sle y = decide (a ≤ b) := by
  rw [BitVec.sle_eq_decide, hx.canonical.toInt hw hs, hy.canonical.toInt hw hs, hx.value, hy.value]

theorem IsWordOf.ult_iff (hw : t.bits ≤ w) (hs : t.signed = false) (hx : t.IsWordOf x a)
    (hy : t.IsWordOf y b) : x.ult y = decide (a < b) := by
  rw [BitVec.ult_eq_decide, ← hx.value, ← hy.value, ← hx.canonical.toNat hw hs,
    ← hy.canonical.toNat hw hs]
  simp

theorem IsWordOf.ule_iff (hw : t.bits ≤ w) (hs : t.signed = false) (hx : t.IsWordOf x a)
    (hy : t.IsWordOf y b) : x.ule y = decide (a ≤ b) := by
  rw [BitVec.ule_eq_decide, ← hx.value, ← hy.value, ← hx.canonical.toNat hw hs,
    ← hy.canonical.toNat hw hs]
  simp

theorem IsWordOf.beq_iff (hx : t.IsWordOf x a) (hy : t.IsWordOf y b) :
    (x == y) = decide (a = b) := by
  rw [beq_eq_decide]
  congr 1
  rw [hx.canonical.eq_iff hy.canonical, hx.value, hy.value]

end

end IntType

end narrow_ints
