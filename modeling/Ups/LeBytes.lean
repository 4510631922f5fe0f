-- Numbers as little-endian bytes, and a memory of bytes whose addresses wrap around.
import Mathlib.Data.List.Basic
import Mathlib.Tactic.Ring

namespace le_bytes

/-! ## Numbers -/

/-- The low `n` bytes of a number, least significant first. -/
def leBytes : Nat → Nat → List (BitVec 8)
  | 0, _ => []
  | n + 1, v => BitVec.ofNat 8 v :: leBytes n (v / 256)

/-- The number that a list of bytes spells. -/
def ofLeBytes : List (BitVec 8) → Nat
  | [] => 0
  | b :: bs => b.toNat + 256 * ofLeBytes bs

@[simp] theorem length_leBytes (n v : Nat) : (leBytes n v).length = n := by
  induction n generalizing v with
  | zero => rfl
  | succ n ih => simp [leBytes, ih]

theorem ofLeBytes_lt (bs : List (BitVec 8)) : ofLeBytes bs < 256 ^ bs.length := by
  induction bs with
  | nil => simp [ofLeBytes]
  | cons b bs ih =>
    have hb : b.toNat < 256 := b.isLt
    simp only [ofLeBytes, List.length_cons, Nat.pow_succ]
    omega

theorem ofLeBytes_leBytes (n v : Nat) : ofLeBytes (leBytes n v) = v % 256 ^ n := by
  induction n generalizing v with
  | zero => simp [leBytes, ofLeBytes, Nat.mod_one]
  | succ n ih =>
    have hpow : 256 ^ (n + 1) = 256 * 256 ^ n := by ring
    have hbyte : (BitVec.ofNat 8 v).toNat = v % 256 := by simp
    rw [leBytes, ofLeBytes, ih, hbyte, hpow, Nat.mod_mul]

theorem leBytes_ofLeBytes (bs : List (BitVec 8)) : leBytes bs.length (ofLeBytes bs) = bs := by
  induction bs with
  | nil => rfl
  | cons b bs ih =>
    have hb : b.toNat < 256 := b.isLt
    have hhead : BitVec.ofNat 8 (b.toNat + 256 * ofLeBytes bs) = b := by
      apply BitVec.eq_of_toNat_eq
      rw [BitVec.toNat_ofNat]
      omega
    have htail : (b.toNat + 256 * ofLeBytes bs) / 256 = ofLeBytes bs := by omega
    simp only [ofLeBytes, List.length_cons, leBytes, hhead, htail, ih]

theorem getElem_leBytes (n v i : Nat) (hi : i < (leBytes n v).length) :
    (leBytes n v)[i] = BitVec.ofNat 8 (v / 256 ^ i) := by
  induction n generalizing v i with
  | zero => simp at hi
  | succ n ih =>
    rw [length_leBytes] at hi
    cases i with
    | zero => simp [leBytes]
    | succ i =>
      simp only [leBytes, List.getElem_cons_succ]
      rw [ih (v / 256) i (by rw [length_leBytes]; omega), Nat.div_div_eq_div_mul,
        show 256 ^ (i + 1) = 256 * 256 ^ i by ring]

/-! ## Memory -/

/-- A byte at each address. -/
abbrev Mem (w : Nat) := BitVec w → BitVec 8

variable {w : Nat}

def readBytes (m : Mem w) (a : BitVec w) (n : Nat) : List (BitVec 8) :=
  (List.range n).map fun i => m (a + BitVec.ofNat w i)

/-- Of bytes that wrap around onto others, the first one written stays. -/
def writeBytes (m : Mem w) (a : BitVec w) : List (BitVec 8) → Mem w
  | [] => m
  | b :: bs => fun x => if x = a then b else writeBytes m (a + 1#w) bs x

@[simp] theorem length_readBytes (m : Mem w) (a : BitVec w) (n : Nat) :
    (readBytes m a n).length = n := by simp [readBytes]

theorem readBytes_add (m : Mem w) (a : BitVec w) (n k : Nat) :
    readBytes m a (n + k) = readBytes m a n ++ readBytes m (a + BitVec.ofNat w n) k := by
  simp [readBytes, List.range_add, BitVec.ofNat_add, BitVec.add_assoc, Function.comp_def]

theorem add_ofNat_succ (a : BitVec w) (i : Nat) :
    a + BitVec.ofNat w (i + 1) = a + 1#w + BitVec.ofNat w i := by
  rw [BitVec.add_assoc, BitVec.ofNat_add, BitVec.add_comm (BitVec.ofNat w i)]

theorem sub_add_one (a x : BitVec w) (h : x ≠ a) :
    (x - (a + 1#w)).toNat + 1 = (x - a).toNat := by
  have hx : x - a ≠ 0#w := fun h0 => h (BitVec.sub_eq_iff_eq_add.mp h0 |>.trans (BitVec.zero_add a))
  have hpos : 0 < (x - a).toNat := by
    apply Nat.pos_of_ne_zero
    intro h0
    exact hx (BitVec.eq_of_toNat_eq (by simpa using h0))
  have hsub : x - (a + 1#w) = (x - a) - 1#w := by
    rw [BitVec.sub_eq_add_neg, BitVec.sub_eq_add_neg (x - a), BitVec.sub_eq_add_neg x a,
      BitVec.neg_add, BitVec.sub_eq_add_neg, BitVec.add_assoc]
  have hlt := (x - a).isLt
  have hone : (1#w).toNat = 1 := by
    rw [BitVec.toNat_ofNat]
    exact Nat.mod_eq_of_lt (by omega)
  rw [hsub, BitVec.toNat_sub_of_le (by rw [BitVec.le_def]; omega), hone]
  omega

theorem writeBytes_of_outside (m : Mem w) (a x : BitVec w) (bs : List (BitVec 8))
    (h : bs.length ≤ (x - a).toNat) : writeBytes m a bs x = m x := by
  induction bs generalizing a with
  | nil => rfl
  | cons b bs ih =>
    have hx : x ≠ a := by
      rintro rfl
      simp at h
    simp only [writeBytes, if_neg hx]
    apply ih
    have := sub_add_one a x hx
    rw [List.length_cons] at h
    omega

theorem writeBytes_inside (m : Mem w) (a : BitVec w) (bs : List (BitVec 8)) (i : Nat)
    (hi : i < bs.length) (hw : bs.length ≤ 2 ^ w) :
    writeBytes m a bs (a + BitVec.ofNat w i) = bs[i] := by
  induction bs generalizing a i with
  | nil => simp at hi
  | cons b bs ih =>
    rw [List.length_cons] at hi hw
    cases i with
    | zero => simp [writeBytes]
    | succ i =>
      have hne : a + BitVec.ofNat w (i + 1) ≠ a := by
        intro h
        have h0 := congrArg (fun x => (x - a).toNat) h
        simp only [BitVec.add_comm a, BitVec.add_sub_cancel, BitVec.sub_self, BitVec.toNat_ofNat,
          Nat.mod_eq_of_lt (show i + 1 < 2 ^ w by omega), Nat.zero_mod] at h0
        omega
      simp only [writeBytes, if_neg hne, List.getElem_cons_succ]
      rw [add_ofNat_succ a i]
      exact ih (a + 1#w) i (by omega) (by omega)

theorem writeBytes_apply (m : Mem w) (a x : BitVec w) (bs : List (BitVec 8))
    (hw : bs.length ≤ 2 ^ w) : writeBytes m a bs x = (bs[(x - a).toNat]?).getD (m x) := by
  by_cases h : (x - a).toNat < bs.length
  · have hx : a + BitVec.ofNat w (x - a).toNat = x := by
      rw [BitVec.ofNat_toNat, BitVec.setWidth_eq, BitVec.add_comm, BitVec.sub_add_cancel]
    have hin := writeBytes_inside m a bs (x - a).toNat h hw
    rw [hx] at hin
    rw [hin, List.getElem?_eq_getElem h, Option.getD_some]
  · rw [writeBytes_of_outside m a x bs (by omega), List.getElem?_eq_none (by omega),
      Option.getD_none]

/-- What was written is what is read back. -/
theorem readBytes_writeBytes (m : Mem w) (a : BitVec w) (bs : List (BitVec 8))
    (hw : bs.length ≤ 2 ^ w) : readBytes (writeBytes m a bs) a bs.length = bs := by
  apply List.ext_getElem
  · simp
  · intro i _ hi
    simp [readBytes, writeBytes_inside m a bs i hi hw]

/-- The `n` bytes from `a` and the `k` bytes from `b` have no byte in common. -/
def Apart (a : BitVec w) (n : Nat) (b : BitVec w) (k : Nat) : Prop :=
  ∀ i < k, n ≤ (b + BitVec.ofNat w i - a).toNat

theorem readBytes_writeBytes_of_apart (m : Mem w) (a b : BitVec w) (bs : List (BitVec 8)) (k : Nat)
    (h : Apart a bs.length b k) : readBytes (writeBytes m a bs) b k = readBytes m b k := by
  unfold readBytes
  apply List.map_congr_left
  intro i hi
  exact writeBytes_of_outside m a _ bs (h i (List.mem_range.mp hi))

/-- Two ranges are apart when neither begins inside the other. -/
theorem apart_of_le {a b : BitVec w} {n k : Nat} (h1 : n ≤ (b - a).toNat)
    (h2 : (b - a).toNat + k ≤ 2 ^ w) : Apart a n b k := by
  intro i hi
  have hb : b + BitVec.ofNat w i - a = (b - a) + BitVec.ofNat w i := by
    rw [BitVec.sub_eq_add_neg, BitVec.sub_eq_add_neg, BitVec.add_assoc, BitVec.add_assoc,
      BitVec.add_comm (BitVec.ofNat w i)]
  rw [hb, BitVec.toNat_add, BitVec.toNat_ofNat, Nat.mod_eq_of_lt (a := i) (by omega),
    Nat.mod_eq_of_lt (by omega)]
  omega

end le_bytes
