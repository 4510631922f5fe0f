-- Packing objects and bit fields one behind the other.
import Mathlib.Algebra.Order.Floor.Div
import Mathlib.Tactic.Common

namespace packing

/-- The first multiple of `a` from `n` on. -/
def roundUp (a n : Nat) : Nat := a * (n ⌈/⌉ a)

theorem dvd_roundUp (a n : Nat) : a ∣ roundUp a n := Nat.dvd_mul_right a _

theorem le_roundUp {a : Nat} (ha : 0 < a) (n : Nat) : n ≤ roundUp a n := le_smul_ceilDiv ha

theorem roundUp_le {a n q : Nat} (ha : 0 < a) (hq : a ∣ q) (h : n ≤ q) : roundUp a n ≤ q := by
  obtain ⟨k, rfl⟩ := hq
  exact Nat.mul_le_mul_left a ((ceilDiv_le_iff_le_smul ha).2 h)

theorem roundUp_lt {a : Nat} (ha : 0 < a) (n : Nat) : roundUp a n < n + a := by
  unfold roundUp
  rw [Nat.ceilDiv_eq_add_pred_div]
  have := Nat.mul_div_le (n + a - 1) a
  omega

theorem roundUp_eq {a : Nat} (ha : 0 < a) (n : Nat) :
    roundUp a n = if n % a = 0 then n else n + (a - n % a) := by
  have hmod := Nat.mod_lt n ha
  split
  · rename_i h
    exact Nat.le_antisymm (roundUp_le ha (Nat.dvd_of_mod_eq_zero h) (Nat.le_refl n)) (le_roundUp ha n)
  · rename_i h
    have hdvd : a ∣ n + (a - n % a) := by
      rw [show n + (a - n % a) = a * (n / a + 1) by have := Nat.div_add_mod n a; rw [Nat.mul_add]; omega]
      exact Nat.dvd_mul_right a _
    apply Nat.le_antisymm
    · exact roundUp_le ha hdvd (by omega)
    · -- the two multiples are less than `a` apart
      obtain ⟨j, hj⟩ := dvd_roundUp a n
      obtain ⟨k, hk⟩ := hdvd
      have hle := le_roundUp ha n
      rw [hj] at hle ⊢
      rw [hk]
      apply Nat.mul_le_mul_left
      by_contra hlt
      have : a * (j + 1) ≤ a * k := Nat.mul_le_mul_left a (by omega)
      rw [Nat.mul_add] at this
      have : n ≠ a * j := fun h' => h (by rw [h', Nat.mul_mod_right])
      omega

/-! ## Slots -/

/-- What is put somewhere: an object of some bytes, or a field of some bits in a word. -/
inductive Need where
  | object (size align : Nat)
  | field (width : Nat)

def Need.bits : Need → Nat
  | .object size _ => 8 * size
  | .field width => width

/-- A byte address, and a number of bits from there. -/
structure Slot where
  addr : Nat
  offset : Nat

def Slot.start (s : Slot) : Nat := 8 * s.addr + s.offset

def Slot.stop (s : Slot) (n : Need) : Nat := s.start + n.bits

/-- The bytes that are taken, and the place behind the last field if there is nothing behind it. -/
structure Cursor where
  top : Nat
  word : Option Slot

/-- The first free bit. -/
def Cursor.free (c : Cursor) : Nat := (c.word.map Slot.start).getD (8 * c.top)

def Cursor.put (c : Cursor) (s : Slot) (n : Need) : Cursor :=
  { top := max c.top ((s.stop n + 7) / 8)
    word := match n with
      | .object .. => none
      | .field width => some ⟨s.addr, s.offset + width⟩ }

theorem Cursor.top_le_put (c : Cursor) (s : Slot) (n : Need) : c.top ≤ (c.put s n).top :=
  Nat.le_max_left ..

theorem Cursor.stop_le_put (c : Cursor) (s : Slot) (n : Need) : s.stop n ≤ 8 * (c.put s n).top := by
  have : (s.stop n + 7) / 8 ≤ (c.put s n).top := Nat.le_max_right ..
  omega

/-! ## Runs, for any choice of the slots -/

section
variable (choose : Cursor → Need → Slot)

def slots (c : Cursor) : List Need → List Slot
  | [] => []
  | n :: ns => choose c n :: slots (c.put (choose c n) n) ns

def final (c : Cursor) : List Need → Cursor
  | [] => c
  | n :: ns => final (c.put (choose c n) n) ns

theorem top_le_final (c : Cursor) (ns : List Need) : c.top ≤ (final choose c ns).top := by
  induction ns generalizing c with
  | nil => exact Nat.le_refl _
  | cons n ns ih => exact (c.top_le_put _ n).trans (ih _)

theorem stop_le_final (c : Cursor) (ns : List Need) :
    ∀ x ∈ ns.zip (slots choose c ns), x.2.stop x.1 ≤ 8 * (final choose c ns).top := by
  induction ns generalizing c with
  | nil => nofun
  | cons n ns ih =>
    intro x hx
    rcases List.mem_cons.1 hx with rfl | hx
    · have hstop := c.stop_le_put (choose c n) n
      have htop := top_le_final choose (c.put (choose c n) n) ns
      exact hstop.trans (Nat.mul_le_mul_left 8 htop)
    · exact ih _ x hx

end

/-! ## One behind the other -/

/-- The next slot, where fields share words of `w` bytes and an empty field ends a word. -/
def Cursor.next (w : Nat) (c : Cursor) : Need → Slot
  | .object _ align => ⟨roundUp align c.top, 0⟩
  | .field width =>
    match c.word with
    | some s => if width = 0 ∨ 8 * w < s.offset + width then ⟨roundUp w c.top, 0⟩ else s
    | none => ⟨roundUp w c.top, 0⟩

/-- An object has an alignment, and a field fits into a word. -/
def Need.Sound (w : Nat) : Need → Prop
  | .object _ align => 0 < align
  | .field width => width ≤ 8 * w

/-- An object is aligned, and a field lies in one aligned word. -/
def Slot.Fits (w : Nat) (s : Slot) : Need → Prop
  | .object _ align => align ∣ s.addr ∧ s.offset = 0
  | .field width => w ∣ s.addr ∧ s.offset + width ≤ 8 * w

structure Cursor.Sound (w : Nat) (c : Cursor) : Prop where
  free_le : c.free ≤ 8 * c.top
  word : ∀ s, c.word = some s → w ∣ s.addr

variable {w : Nat} {c : Cursor} {n : Need}

theorem Cursor.put_sound {s : Slot} (h : s.Fits w n) : (c.put s n).Sound w := by
  have hstop := c.stop_le_put s n
  cases n with
  | object size align => exact ⟨Nat.le_refl _, nofun⟩
  | field width =>
    constructor
    · show 8 * s.addr + (s.offset + width) ≤ _
      rwa [← Nat.add_assoc]
    · intro t ht
      obtain rfl := Option.some.inj ht
      exact h.1

theorem Cursor.stop_le_free (s : Slot) : s.stop n ≤ (c.put s n).free := by
  cases n with
  | object size align => exact c.stop_le_put s _
  | field width => exact Nat.le_of_eq (Nat.add_assoc ..)

theorem Cursor.next_fits (hw : 0 < w) (hc : c.Sound w) (hn : n.Sound w) :
    (c.next w n).Fits w n ∧ c.free ≤ (c.next w n).start := by
  have hround {a : Nat} (ha : 0 < a) : c.free ≤ (Slot.mk (roundUp a c.top) 0).start :=
    hc.free_le.trans (Nat.mul_le_mul_left 8 (le_roundUp ha c.top))
  cases n with
  | object size align => exact ⟨⟨dvd_roundUp .., rfl⟩, hround hn⟩
  | field width =>
    have hfresh : (Slot.mk (roundUp w c.top) 0).Fits w (.field width) :=
      ⟨dvd_roundUp .., by simpa [Need.Sound] using hn⟩
    unfold Cursor.next
    rcases hword : c.word with _ | s
    · exact ⟨hfresh, hround hw⟩
    · simp only
      split
      · exact ⟨hfresh, hround hw⟩
      · refine ⟨⟨hc.word s hword, by omega⟩, ?_⟩
        rw [Cursor.free, hword]
        rfl

/-- The slots go upwards without an overlap. -/
theorem slots_apart (hw : 0 < w) (ns : List Need) (hc : c.Sound w) (hns : ∀ n ∈ ns, n.Sound w) :
    (∀ x ∈ ns.zip (slots (Cursor.next w) c ns), c.free ≤ x.2.start ∧ x.2.Fits w x.1) ∧
      (ns.zip (slots (Cursor.next w) c ns)).Pairwise fun x y => x.2.stop x.1 ≤ y.2.start := by
  induction ns generalizing c with
  | nil => exact ⟨nofun, .nil⟩
  | cons n ns ih =>
    obtain ⟨hn, hns⟩ := List.forall_mem_cons.1 hns
    obtain ⟨hfits, hfree⟩ := c.next_fits hw hc hn
    obtain ⟨hlater, hpair⟩ := ih (Cursor.put_sound hfits) hns
    have hstop := Cursor.stop_le_free (c := c) (n := n) (c.next w n)
    constructor
    · refine List.forall_mem_cons.2 ⟨⟨hfree, hfits⟩, fun x hx => ?_⟩
      refine ⟨?_, (hlater x hx).2⟩
      calc c.free ≤ (c.next w n).start := hfree
        _ ≤ (c.next w n).stop n := Nat.le_add_right ..
        _ ≤ (c.put (c.next w n) n).free := hstop
        _ ≤ x.2.start := (hlater x hx).1
    · exact List.pairwise_cons.2 ⟨fun x hx => hstop.trans (hlater x hx).1, hpair⟩

end packing
