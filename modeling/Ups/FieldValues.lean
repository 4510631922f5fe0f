-- Bitfields as the debugger reads and writes them (va_val.c, va_edit.c), and as the interpreter reads
-- them.
import Ups.Bitfields

open le_bytes
open ups_rules.execute

namespace ups_rules.field_values

/-! ## The pure model -/

/-- The sizes that `addr_to_number` and `write_value` know. -/
inductive BaseSize where
  | CHAR | SHORT | INT | LONG
deriving DecidableEq

def BaseSize.nbytes : BaseSize → Nat
  | CHAR => 1
  | SHORT => 2
  | INT => 4
  | LONG => 8

def BaseSize.nbits (size : BaseSize) : Nat := 8 * size.nbytes

/-- `bitfield_t`; of the base type only `ty_size` counts. -/
structure Field where
  ty_size : BaseSize
  bf_offset : Nat
  bf_width : Nat

def Field.shift (bf : Field) (bits_big_endian : Bool) : Nat :=
  if bits_big_endian then bf.ty_size.nbits - (bf.bf_offset + bf.bf_width) else bf.bf_offset

/-- `~mask >> (nbits - bf->bf_width)` -/
def Field.mask (bf : Field) : BitVec 64 := BitVec.allOnes 64 >>> (64 - bf.bf_width)

/-- `1 << (bf->bf_width - 1)`, an `int` -/
def Field.signBit (bf : Field) : BitVec 64 := (1#32 <<< ((bf.bf_width - 1) % 32)).signExtend 64

def getFieldval (bits_big_endian : Bool) (word : BitVec 64) (bf : Field) (is_signed : Bool) :
    BitVec 64 :=
  let mask := bf.mask
  let val := word.sshiftRight (bf.shift bits_big_endian) &&& mask
  if is_signed ∧ 0 < bf.bf_width ∧ val &&& bf.signBit ≠ 0#64 then val ||| ~~~mask else val

def setFieldval (bits_big_endian : Bool) (word value : BitVec 64) (bf : Field) : BitVec 64 :=
  let shift := bf.shift bits_big_endian
  let mask := bf.mask <<< shift
  let value := value <<< shift
  (word &&& ~~~mask) ||| (value &&& mask)

/-- The bytes that `dread` reads, as a number. -/
def stored (mem : Mem 64) (addr : BitVec 64) (size : BaseSize) : BitVec size.nbits :=
  BitVec.ofNat _ (ofLeBytes (readBytes mem addr size.nbytes))

/-- Each of `vl_char`, `vl_short`, `vl_int` and `vl_long` is signed. -/
def addrToNumber (mem : Mem 64) (addr : BitVec 64) (size : BaseSize) : BitVec 64 :=
  (stored mem addr size).signExtend 64

def writeValue (mem : Mem 64) (val addr : BitVec 64) (size : BaseSize) : Mem 64 :=
  writeBytes mem addr (leBytes size.nbytes (val.setWidth size.nbits).toNat)

/-- What `mkval` does for a bitfield. -/
def readField (bits_big_endian : Bool) (mem : Mem 64) (addr : BitVec 64) (bf : Field)
    (is_signed : Bool) : BitVec 64 :=
  getFieldval bits_big_endian (addrToNumber mem addr bf.ty_size) bf is_signed

/-- What `write_new_value` does for a bitfield. -/
def writeField (bits_big_endian : Bool) (mem : Mem 64) (addr value : BitVec 64) (bf : Field) :
    Mem 64 :=
  let val := addrToNumber mem addr bf.ty_size
  writeValue mem (setFieldval bits_big_endian val value bf) addr bf.ty_size

/-- What the extracting instruction makes of the stored word. -/
def Field.extracted (bf : Field) (is_signed : Bool) (word : BitVec bf.ty_size.nbits) : BitVec 64 :=
  if is_signed then extractSigned bf.bf_offset bf.bf_width (word.setWidth 64)
  else extractUnsigned bf.bf_offset bf.bf_width (word.setWidth 64)

/-! ## What a field has to be -/

/-- A field lies inside its base type. -/
structure Field.Sound (bf : Field) : Prop where
  width : 1 ≤ bf.bf_width
  inside : bf.bf_offset + bf.bf_width ≤ bf.ty_size.nbits

/-- The value that a field of so many bits holds after an assignment. -/
def reduced (is_signed : Bool) (width : Nat) (value : BitVec 64) : BitVec 64 :=
  if is_signed then (value.setWidth width).signExtend 64 else (value.setWidth width).setWidth 64

/-- The field is read back as it was written, nothing else is written, and the interpreter reads the
same from the word. -/
structure Field.Faithful (bf : Field) (bits_big_endian is_signed : Bool) (mem : Mem 64)
    (addr value : BitVec 64) : Prop where
  readBack : readField bits_big_endian (writeField bits_big_endian mem addr value bf) addr bf
    is_signed = reduced is_signed bf.bf_width value
  others : ∀ i < bf.ty_size.nbits,
    ¬ (bf.shift bits_big_endian ≤ i ∧ i < bf.shift bits_big_endian + bf.bf_width) →
    (stored (writeField bits_big_endian mem addr value bf) addr bf.ty_size).getLsbD i =
      (stored mem addr bf.ty_size).getLsbD i
  outside : ∀ a, bf.ty_size.nbytes ≤ (a - addr).toNat →
    writeField bits_big_endian mem addr value bf a = mem a
  interpreted : readField bits_big_endian (writeField bits_big_endian mem addr value bf) addr bf
    is_signed = bf.extracted is_signed
      (stored (writeField bits_big_endian mem addr value bf) addr bf.ty_size)

/-- The instructions have `width % 32` bits in their mask. The value has no others, not the sign of
the field either, and its bits are found at the offset, which is counted from the low end. -/
structure Field.Fits (bf : Field) (bits_big_endian is_signed : Bool)
    (word : BitVec bf.ty_size.nbits) (value : BitVec 64) : Prop where
  short : ∀ i, bf.bf_width % 32 ≤ i → i < bf.bf_width → value.getLsbD i = false
  positive : is_signed → 0 < bf.bf_width % 32 → value.getLsbD (bf.bf_width % 32 - 1) = false
  own : ∀ i < bf.bf_width % 32, bf.shift bits_big_endian ≤ bf.bf_offset + i →
    bf.bf_offset + i < bf.shift bits_big_endian + bf.bf_width →
    value.getLsbD (bf.bf_offset + i - bf.shift bits_big_endian) = value.getLsbD i
  foreign : ∀ i < bf.bf_width % 32,
    ¬ (bf.shift bits_big_endian ≤ bf.bf_offset + i ∧
      bf.bf_offset + i < bf.shift bits_big_endian + bf.bf_width) →
    word.getLsbD (bf.bf_offset + i) = value.getLsbD i

/-! ## Bits -/

theorem BaseSize.nbits_le (size : BaseSize) : size.nbits ≤ 64 := by
  cases size <;> decide

section
variable {bf : Field} {be s : Bool}

theorem Field.Sound.shift (hbf : bf.Sound) (be : Bool) :
    bf.shift be + bf.bf_width ≤ bf.ty_size.nbits := by
  have := hbf.inside
  unfold Field.shift
  split <;> omega

theorem Field.Sound.width_le (hbf : bf.Sound) : bf.bf_width ≤ 64 := by
  have := hbf.inside
  have := bf.ty_size.nbits_le
  omega

theorem getLsbD_mask (hbf : bf.Sound) (i : Nat) : bf.mask.getLsbD i = decide (i < bf.bf_width) := by
  have hle := hbf.width_le
  rw [Field.mask, BitVec.getLsbD_ushiftRight, BitVec.getLsbD_allOnes]
  exact decide_eq_decide.2 (by omega)

/-- The `int` with its own sign bit set has all bits from there on, when it becomes a longer one. -/
theorem getLsbD_signBit {i : Nat} (hi : i < 64) : bf.signBit.getLsbD i =
    decide (i = (bf.bf_width - 1) % 32 ∨ (bf.bf_width - 1) % 32 = 31 ∧ 31 ≤ i) := by
  have hbit : ∀ j < 32, (1#32 <<< ((bf.bf_width - 1) % 32)).getLsbD j =
      decide (j = (bf.bf_width - 1) % 32) := by
    intro j hj
    rw [← BitVec.twoPow_eq, BitVec.getLsbD_twoPow, decide_eq_true (by omega), Bool.true_and]
    exact decide_eq_decide.2 eq_comm
  rw [Field.signBit, BitVec.getLsbD_signExtend, decide_eq_true hi, Bool.true_and]
  split
  · rw [hbit i (by assumption)]
    exact decide_eq_decide.2 (by omega)
  · rw [BitVec.msb_eq_getLsbD_last, hbit _ (by decide)]
    exact decide_eq_decide.2 (by omega)

/-- Below 64 bits the bit that is tested is that of the sign only up to 32 bits. -/
theorem and_signBit_eq_zero (hbf : bf.Sound) (hlt : bf.bf_width < 64) {x : BitVec 64}
    (hx : ∀ i, bf.bf_width ≤ i → x.getLsbD i = false) :
    x &&& bf.signBit = 0#64 ↔ x.getLsbD ((bf.bf_width - 1) % 32) = false := by
  have hpos := hbf.width
  constructor
  · intro h
    have hbit := congrArg (BitVec.getLsbD · ((bf.bf_width - 1) % 32)) h
    rw [BitVec.getLsbD_and, getLsbD_signBit (by omega), decide_eq_true (.inl rfl), Bool.and_true,
      BitVec.getLsbD_zero] at hbit
    exact hbit
  · intro h
    apply BitVec.eq_of_getLsbD_eq
    intro i hi
    rw [BitVec.getLsbD_and, getLsbD_signBit hi, BitVec.getLsbD_zero, Bool.and_eq_false_imp]
    intro hbit
    refine decide_eq_false ?_
    rintro (heq | ⟨h31, hle⟩)
    · rw [heq, h] at hbit
      cases hbit
    · -- the field has 32 bits, so that bit 31 is its last one
      rcases Nat.eq_or_lt_of_le hle with heq | hgt
      · rw [← heq, ← h31, h] at hbit
        cases hbit
      · rw [hx i (by omega)] at hbit
        cases hbit

theorem getLsbD_getFieldval (hbf : bf.Sound) (hlt : bf.bf_width < 64) (word : BitVec 64) {i : Nat}
    (hi : i < 64) : (getFieldval be word bf s).getLsbD i =
      if i < bf.bf_width then word.getLsbD (bf.shift be + i)
      else s && word.getLsbD (bf.shift be + (bf.bf_width - 1) % 32) := by
  have hpos := hbf.width
  have hshift := hbf.shift be
  have hbits := bf.ty_size.nbits_le
  have hval (j : Nat) : (word.sshiftRight (bf.shift be) &&& bf.mask).getLsbD j =
      (decide (j < bf.bf_width) && word.getLsbD (bf.shift be + j)) := by
    rw [BitVec.getLsbD_and, getLsbD_mask hbf, BitVec.getLsbD_sshiftRight, Bool.and_comm]
    by_cases hj : j < bf.bf_width
    · rw [if_pos (by omega), decide_eq_false (show ¬ 64 ≤ j by omega), Bool.not_false, Bool.true_and]
    · rw [decide_eq_false hj, Bool.false_and, Bool.false_and]
  have hsign := and_signBit_eq_zero hbf hlt (x := word.sshiftRight (bf.shift be) &&& bf.mask)
    fun j hj => by rw [hval, decide_eq_false (by omega), Bool.false_and]
  rw [hval, decide_eq_true (by omega), Bool.true_and] at hsign
  unfold getFieldval
  dsimp only
  cases hbit : word.getLsbD (bf.shift be + (bf.bf_width - 1) % 32) with
  | false =>
    rw [if_neg (fun h => h.2.2 (hsign.2 hbit)), hval, Bool.and_false]
    by_cases hin : i < bf.bf_width
    · rw [if_pos hin, decide_eq_true hin, Bool.true_and]
    · rw [if_neg hin, decide_eq_false hin, Bool.false_and]
  | true =>
    have hne : word.sshiftRight (bf.shift be) &&& bf.mask &&& bf.signBit ≠ 0#64 := fun h => by
      rw [hsign.1 h] at hbit
      cases hbit
    cases s with
    | false =>
      rw [if_neg (fun h => nomatch h.1), hval, Bool.false_and]
      by_cases hin : i < bf.bf_width
      · rw [if_pos hin, decide_eq_true hin, Bool.true_and]
      · rw [if_neg hin, decide_eq_false hin, Bool.false_and]
    | true =>
      rw [if_pos ⟨rfl, hpos, hne⟩, BitVec.getLsbD_or, hval, BitVec.getLsbD_not, getLsbD_mask hbf,
        decide_eq_true hi, Bool.true_and]
      by_cases hin : i < bf.bf_width
      · rw [if_pos hin, decide_eq_true hin, Bool.true_and, Bool.not_true, Bool.or_false]
      · rw [if_neg hin, decide_eq_false hin, Bool.not_false, Bool.or_true, Bool.and_true]

/-- No bits are left to extend a sign to. -/
theorem getFieldval_whole (hbf : bf.Sound) (hwhole : bf.bf_width = 64) (word : BitVec 64) :
    getFieldval be word bf s = word := by
  have hshift := hbf.shift be
  have hbits := bf.ty_size.nbits_le
  have hmask : bf.mask = BitVec.allOnes 64 := by
    rw [Field.mask, hwhole]
    rfl
  unfold getFieldval
  dsimp only
  rw [show bf.shift be = 0 by omega, hmask, BitVec.sshiftRight_zero, BitVec.and_allOnes,
    BitVec.not_allOnes, BitVec.or_zero]
  exact ite_self _

theorem getLsbD_setFieldval (hbf : bf.Sound) (word value : BitVec 64) {i : Nat} (hi : i < 64) :
    (setFieldval be word value bf).getLsbD i =
      if bf.shift be ≤ i ∧ i < bf.shift be + bf.bf_width then value.getLsbD (i - bf.shift be)
      else word.getLsbD i := by
  have hmask : (bf.mask <<< bf.shift be).getLsbD i =
      decide (bf.shift be ≤ i ∧ i < bf.shift be + bf.bf_width) := by
    rw [BitVec.getLsbD_shiftLeft, getLsbD_mask hbf, decide_eq_true hi, Bool.true_and,
      ← decide_not, ← Bool.decide_and]
    exact decide_eq_decide.2 (by omega)
  rw [setFieldval, BitVec.getLsbD_or, BitVec.getLsbD_and, BitVec.getLsbD_and, BitVec.getLsbD_not,
    hmask, BitVec.getLsbD_shiftLeft, decide_eq_true hi, Bool.true_and, Bool.true_and]
  split
  · rename_i hin
    rw [decide_eq_true hin, Bool.not_true, Bool.and_false, Bool.false_or, Bool.and_true,
      decide_eq_false (Nat.not_lt.2 hin.1), Bool.not_false, Bool.true_and]
  · rename_i hout
    rw [decide_eq_false hout, Bool.not_false, Bool.and_true, Bool.and_false, Bool.or_false]

end

/-! ## The stored word -/

section
variable {bf : Field} {be s : Bool} {mem : Mem 64} {addr value : BitVec 64}

theorem stored_writeValue (val : BitVec 64) (size : BaseSize) :
    stored (writeValue mem val addr size) addr size = val.setWidth size.nbits := by
  have hlen := length_leBytes size.nbytes (val.setWidth size.nbits).toNat
  have hread := readBytes_writeBytes mem addr (leBytes size.nbytes (val.setWidth size.nbits).toNat)
    (by rw [hlen]; cases size <;> decide)
  rw [hlen] at hread
  have hpow : 256 ^ size.nbytes = 2 ^ size.nbits := by
    rw [BaseSize.nbits, Nat.pow_mul]
  rw [stored, writeValue, hread, ofLeBytes_leBytes, hpow, Nat.mod_eq_of_lt (BitVec.isLt _),
    BitVec.ofNat_toNat, BitVec.setWidth_eq]

theorem getLsbD_addrToNumber {i : Nat} (hi : i < bf.ty_size.nbits) :
    (addrToNumber mem addr bf.ty_size).getLsbD i = (stored mem addr bf.ty_size).getLsbD i := by
  have hbits := bf.ty_size.nbits_le
  rw [addrToNumber, BitVec.getLsbD_signExtend, if_pos hi, decide_eq_true (by omega), Bool.true_and]

/-- The word has the value's bits in the field, and its own ones elsewhere. -/
theorem getLsbD_stored_writeField (hbf : bf.Sound) {i : Nat} (hi : i < bf.ty_size.nbits) :
    (stored (writeField be mem addr value bf) addr bf.ty_size).getLsbD i =
      if bf.shift be ≤ i ∧ i < bf.shift be + bf.bf_width then value.getLsbD (i - bf.shift be)
      else (stored mem addr bf.ty_size).getLsbD i := by
  have hbits := bf.ty_size.nbits_le
  rw [writeField, stored_writeValue, BitVec.getLsbD_setWidth, decide_eq_true hi, Bool.true_and,
    getLsbD_setFieldval hbf _ _ (by omega), getLsbD_addrToNumber hi]

/-- The bits of the field itself. -/
theorem getLsbD_stored_field (hbf : bf.Sound) {i : Nat} (hi : i < bf.bf_width) :
    (stored (writeField be mem addr value bf) addr bf.ty_size).getLsbD (bf.shift be + i) =
      value.getLsbD i := by
  have hshift := hbf.shift be
  rw [getLsbD_stored_writeField hbf (by omega), if_pos (by omega), Nat.add_sub_cancel_left]

theorem writeField_outside {a : BitVec 64} (h : bf.ty_size.nbytes ≤ (a - addr).toNat) :
    writeField be mem addr value bf a = mem a := by
  rw [writeField, writeValue]
  refine writeBytes_of_outside mem addr a _ ?_
  rw [length_leBytes]
  exact h

end

/-! ## Reading back -/

section
variable {bf : Field} {be s : Bool} {mem : Mem 64} {addr value : BitVec 64}

theorem getLsbD_reduced {width i : Nat} (hpos : 1 ≤ width) (hi : i < 64) :
    (reduced s width value).getLsbD i =
      if i < width then value.getLsbD i else s && value.getLsbD (width - 1) := by
  unfold reduced
  cases s with
  | false =>
    rw [if_neg Bool.false_ne_true, BitVec.getLsbD_setWidth, BitVec.getLsbD_setWidth,
      decide_eq_true hi, Bool.true_and, Bool.false_and]
    by_cases hin : i < width
    · rw [if_pos hin, decide_eq_true hin, Bool.true_and]
    · rw [if_neg hin, decide_eq_false hin, Bool.false_and]
  | true =>
    rw [if_pos rfl, BitVec.getLsbD_signExtend, decide_eq_true hi, Bool.true_and, Bool.true_and,
      BitVec.msb_eq_getLsbD_last, BitVec.getLsbD_setWidth, BitVec.getLsbD_setWidth,
      decide_eq_true (show width - 1 < width by omega), Bool.true_and]
    by_cases hin : i < width
    · rw [if_pos hin, if_pos hin, decide_eq_true hin, Bool.true_and]
    · rw [if_neg hin, if_neg hin]

theorem getLsbD_readField (hbf : bf.Sound) (hlt : bf.bf_width < 64) {i : Nat} (hi : i < 64) :
    (readField be (writeField be mem addr value bf) addr bf s).getLsbD i =
      if i < bf.bf_width then value.getLsbD i
      else s && value.getLsbD ((bf.bf_width - 1) % 32) := by
  have hpos := hbf.width
  have hshift := hbf.shift be
  have hbit {j : Nat} (hj : j < bf.bf_width) :
      (addrToNumber (writeField be mem addr value bf) addr bf.ty_size).getLsbD (bf.shift be + j) =
        value.getLsbD j := by
    rw [getLsbD_addrToNumber (by omega), getLsbD_stored_field hbf hj]
  rw [readField, getLsbD_getFieldval hbf hlt _ hi, hbit (show (bf.bf_width - 1) % 32 < _ by omega)]
  split
  · rename_i hin
    exact hbit hin
  · rfl

theorem readField_whole (hbf : bf.Sound) (hwhole : bf.bf_width = 64) :
    readField be (writeField be mem addr value bf) addr bf s = value := by
  have hshift := hbf.shift be
  have hbits := bf.ty_size.nbits_le
  rw [readField, getFieldval_whole hbf hwhole]
  apply BitVec.eq_of_getLsbD_eq
  intro i hi
  have hfield : (stored (writeField be mem addr value bf) addr bf.ty_size).getLsbD
      (bf.shift be + i) = value.getLsbD i := getLsbD_stored_field hbf (by omega)
  rw [show bf.shift be + i = i by omega] at hfield
  rw [getLsbD_addrToNumber (by omega), hfield]

/-- From 33 bits to 63 the sign that is extended is another bit of the field. -/
theorem readBack_iff (hbf : bf.Sound) :
    readField be (writeField be mem addr value bf) addr bf s = reduced s bf.bf_width value ↔
      (s → bf.bf_width = 64 ∨
        value.getLsbD ((bf.bf_width - 1) % 32) = value.getLsbD (bf.bf_width - 1)) := by
  have hpos := hbf.width
  rcases Nat.lt_or_ge bf.bf_width 64 with hlt | hge
  · constructor
    · rintro h rfl
      have hbit := congrArg (BitVec.getLsbD · bf.bf_width) h
      rw [getLsbD_readField hbf hlt hlt, getLsbD_reduced hpos hlt, if_neg (Nat.lt_irrefl _),
        if_neg (Nat.lt_irrefl _)] at hbit
      exact .inr hbit
    · intro h
      apply BitVec.eq_of_getLsbD_eq
      intro i hi
      rw [getLsbD_readField hbf hlt hi, getLsbD_reduced hpos hi]
      split
      · rfl
      · cases s with
        | false => rfl
        | true => rw [(h rfl).resolve_left (by omega)]
  · have hwhole : bf.bf_width = 64 := Nat.le_antisymm hbf.width_le hge
    refine iff_of_true ?_ fun _ => .inl hwhole
    rw [readField_whole hbf hwhole]
    apply BitVec.eq_of_getLsbD_eq
    intro i hi
    rw [getLsbD_reduced hpos hi, if_pos (by omega)]

end

/-! ## The instructions -/

section
variable {bf : Field} {be s : Bool} {word : BitVec bf.ty_size.nbits}

theorem getLsbD_extracted_unsigned (hbf : bf.Sound) (i : Nat) :
    (bf.extracted false word).getLsbD i =
      (decide (i < bf.bf_width % 32) && word.getLsbD (bf.bf_offset + i)) := by
  have hinside := hbf.inside
  have hbits := bf.ty_size.nbits_le
  have hmask : intMask bf.bf_width = intMask (bf.bf_width % 32) := by
    rw [intMask, intMask, Nat.mod_mod]
  have hmod : bf.extracted false word =
      extractUnsigned bf.bf_offset (bf.bf_width % 32) (word.setWidth 64) := by
    rw [Field.extracted, if_neg Bool.false_ne_true, extractUnsigned, extractUnsigned, hmask]
  rw [hmod, bitfields.getLsbD_extractUnsigned (Nat.mod_lt _ (by decide)), BitVec.getLsbD_setWidth]
  by_cases hi : i < bf.bf_width % 32
  · have hle := Nat.mod_le bf.bf_width 32
    rw [decide_eq_true (show bf.bf_offset + i < 64 by omega), Bool.true_and]
  · rw [decide_eq_false hi, Bool.false_and, Bool.false_and]

theorem extracted_signed : bf.extracted true word =
    if bf.extracted false word &&& bf.signBit ≠ 0#64 then
      bf.extracted false word ||| (BitVec.allOnes 32 <<< (bf.bf_width % 32)).setWidth 64
    else bf.extracted false word := rfl

/-- No sign is carried to the top of the 64 bits. -/
theorem getLsbD_extracted_last (hbf : bf.Sound) : (bf.extracted s word).getLsbD 63 = false := by
  have hmod : bf.bf_width % 32 < 32 := Nat.mod_lt _ (by decide)
  have hlast : (bf.extracted false word).getLsbD 63 = false := by
    rw [getLsbD_extracted_unsigned hbf, decide_eq_false (by omega), Bool.false_and]
  cases s with
  | false => exact hlast
  | true =>
    rw [extracted_signed]
    split
    · rw [BitVec.getLsbD_or, hlast, BitVec.getLsbD_setWidth,
        BitVec.getLsbD_of_ge _ 63 (by decide), Bool.and_false, Bool.false_or]
    · exact hlast

/-- There is no sign to extend when the field's last bit that the instruction has is clear. -/
theorem extracted_of_clear (hbf : bf.Sound)
    (h : (bf.extracted false word).getLsbD ((bf.bf_width - 1) % 32) = false) :
    bf.extracted s word = bf.extracted false word := by
  have hpos := hbf.width
  have hle := Nat.mod_le bf.bf_width 32
  have hclear : bf.extracted false word &&& bf.signBit = 0#64 := by
    rcases Nat.lt_or_ge bf.bf_width 64 with hlt | hge
    · refine (and_signBit_eq_zero hbf hlt fun i hi => ?_).2 h
      rw [getLsbD_extracted_unsigned hbf, decide_eq_false (by omega), Bool.false_and]
    · have hwhole : bf.bf_width = 64 := Nat.le_antisymm hbf.width_le hge
      apply BitVec.eq_of_getLsbD_eq
      intro i _
      rw [BitVec.getLsbD_and, getLsbD_extracted_unsigned hbf, decide_eq_false (by omega),
        Bool.false_and, Bool.false_and, BitVec.getLsbD_zero]
  cases s with
  | false => rfl
  | true => rw [extracted_signed, if_neg (not_not.2 hclear)]

theorem extracted_set {i : Nat} (h : (bf.extracted false word).getLsbD i = true) :
    (bf.extracted s word).getLsbD i = true := by
  cases s with
  | false => exact h
  | true =>
    rw [extracted_signed]
    split
    · rw [BitVec.getLsbD_or, h, Bool.true_or]
    · exact h

end

/-! ## The law -/

section
variable {bf : Field} {be s : Bool} {mem : Mem 64} {addr value : BitVec 64}

/-- What the instructions read at the offset is the value, as far as their mask goes. -/
theorem own_foreign_iff (hbf : bf.Sound) :
    (∀ i < bf.bf_width % 32,
      (stored (writeField be mem addr value bf) addr bf.ty_size).getLsbD (bf.bf_offset + i) =
        value.getLsbD i) ↔
      (∀ i < bf.bf_width % 32, bf.shift be ≤ bf.bf_offset + i →
        bf.bf_offset + i < bf.shift be + bf.bf_width →
        value.getLsbD (bf.bf_offset + i - bf.shift be) = value.getLsbD i) ∧
      ∀ i < bf.bf_width % 32,
        ¬ (bf.shift be ≤ bf.bf_offset + i ∧ bf.bf_offset + i < bf.shift be + bf.bf_width) →
        (stored mem addr bf.ty_size).getLsbD (bf.bf_offset + i) = value.getLsbD i := by
  have hinside := hbf.inside
  have hmod := Nat.mod_le bf.bf_width 32
  have hbit (i : Nat) (hi : i < bf.bf_width % 32) :
      (stored (writeField be mem addr value bf) addr bf.ty_size).getLsbD (bf.bf_offset + i) =
        if bf.shift be ≤ bf.bf_offset + i ∧ bf.bf_offset + i < bf.shift be + bf.bf_width then
          value.getLsbD (bf.bf_offset + i - bf.shift be)
        else (stored mem addr bf.ty_size).getLsbD (bf.bf_offset + i) :=
    getLsbD_stored_writeField hbf (by omega)
  constructor
  · intro h
    refine ⟨fun i hi hlow hhigh => ?_, fun i hi hout => ?_⟩
    · rw [← h i hi, hbit i hi, if_pos ⟨hlow, hhigh⟩]
    · rw [← h i hi, hbit i hi, if_neg hout]
  · rintro ⟨hown, hforeign⟩ i hi
    rw [hbit i hi]
    split
    · rename_i hin
      exact hown i hi hin.1 hin.2
    · rename_i hout
      exact hforeign i hi hout

/-- The sign bit of the field is clear, and so is the bit that is taken for it. -/
theorem Field.Fits.clear (hbf : bf.Sound) (h : bf.Fits be s (stored mem addr bf.ty_size) value)
    (hs : s = true) (hlt : bf.bf_width < 64) :
    value.getLsbD ((bf.bf_width - 1) % 32) = false ∧ value.getLsbD (bf.bf_width - 1) = false := by
  have hpos := hbf.width
  rcases Nat.eq_zero_or_pos (bf.bf_width % 32) with hzero | hk
  · exact ⟨h.short _ (by omega) (by omega), h.short _ (by omega) (by omega)⟩
  · have hfirst := h.positive hs hk
    refine ⟨by rwa [show (bf.bf_width - 1) % 32 = bf.bf_width % 32 - 1 by omega], ?_⟩
    rcases Nat.lt_or_ge bf.bf_width 32 with hsmall | hlarge
    · rwa [show bf.bf_width - 1 = bf.bf_width % 32 - 1 by omega]
    · exact h.short _ (by omega) (by omega)

/-- What is read is the value, without bits above the ones that the instructions have. -/
theorem getLsbD_readField_of_fits (hbf : bf.Sound)
    (h : bf.Fits be s (stored mem addr bf.ty_size) value) {i : Nat} (hi : i < 64) :
    (readField be (writeField be mem addr value bf) addr bf s).getLsbD i =
      (decide (i < bf.bf_width % 32) && value.getLsbD i) := by
  have hmod := Nat.mod_le bf.bf_width 32
  have hlow (hin : i < bf.bf_width) :
      value.getLsbD i = (decide (i < bf.bf_width % 32) && value.getLsbD i) := by
    by_cases hk : i < bf.bf_width % 32
    · rw [decide_eq_true hk, Bool.true_and]
    · rw [decide_eq_false hk, Bool.false_and]
      exact h.short i (by omega) hin
  rcases Nat.lt_or_ge bf.bf_width 64 with hlt | hge
  · rw [getLsbD_readField hbf hlt hi]
    split
    · rename_i hin
      exact hlow hin
    · rw [decide_eq_false (by omega), Bool.false_and]
      cases hs : s with
      | false => rfl
      | true => rw [(h.clear hbf hs hlt).1, Bool.and_false]
  · rw [readField_whole hbf (Nat.le_antisymm hbf.width_le hge)]
    exact hlow (by omega)

theorem faithful_of_fits (hbf : bf.Sound) (h : bf.Fits be s (stored mem addr bf.ty_size) value) :
    bf.Faithful be s mem addr value := by
  have hpos := hbf.width
  refine ⟨(readBack_iff hbf).2 fun hs => ?_, fun i hi hout => ?_, fun a => writeField_outside, ?_⟩
  · rcases Nat.lt_or_ge bf.bf_width 64 with hlt | hge
    · obtain ⟨hfirst, hlast⟩ := h.clear hbf hs hlt
      exact .inr (hfirst.trans hlast.symm)
    · exact .inl (Nat.le_antisymm hbf.width_le hge)
  · rw [getLsbD_stored_writeField hbf hi, if_neg hout]
  · have hunsigned : readField be (writeField be mem addr value bf) addr bf s =
        bf.extracted false (stored (writeField be mem addr value bf) addr bf.ty_size) := by
      apply BitVec.eq_of_getLsbD_eq
      intro i hi
      rw [getLsbD_readField_of_fits hbf h hi, getLsbD_extracted_unsigned hbf]
      by_cases hk : i < bf.bf_width % 32
      · rw [(own_foreign_iff hbf).2 ⟨h.own, h.foreign⟩ i hk]
      · rw [decide_eq_false hk, Bool.false_and, Bool.false_and]
    cases hs : s with
    | false => rw [← hunsigned, hs]
    | true =>
      rw [extracted_of_clear hbf, ← hunsigned, hs]
      rw [← hunsigned, getLsbD_readField_of_fits hbf h (by omega)]
      rcases Nat.lt_or_ge bf.bf_width 64 with hlt | hge
      · rw [(h.clear hbf hs hlt).1, Bool.and_false]
      · have hle := hbf.width_le
        rw [decide_eq_false (by omega), Bool.false_and]

theorem fits_of_faithful (hbf : bf.Sound) (h : bf.Faithful be s mem addr value) :
    bf.Fits be s (stored mem addr bf.ty_size) value := by
  have hpos := hbf.width
  have hmod := Nat.mod_le bf.bf_width 32
  -- the bits of what is read that are in the field
  have hvalue {i : Nat} (hi : i < bf.bf_width) :
      (readField be (writeField be mem addr value bf) addr bf s).getLsbD i = value.getLsbD i := by
    have hle := hbf.width_le
    rw [h.readBack, getLsbD_reduced hpos (by omega), if_pos hi]
  -- the sign would be carried to bit 63 by the debugger, and not by the instructions
  have hpositive : s = true → bf.bf_width < 64 → value.getLsbD ((bf.bf_width - 1) % 32) = false := by
    rintro rfl hlt
    have hlast := congrArg (BitVec.getLsbD · 63) h.interpreted
    rw [getLsbD_extracted_last hbf, getLsbD_readField hbf hlt (by decide)] at hlast
    split at hlast
    · omega
    · exact hlast
  have hunsigned : bf.extracted s (stored (writeField be mem addr value bf) addr bf.ty_size) =
      bf.extracted false (stored (writeField be mem addr value bf) addr bf.ty_size) := by
    cases hs : s with
    | false => rfl
    | true =>
      refine extracted_of_clear hbf ?_
      rcases Nat.lt_or_ge bf.bf_width 64 with hlt | hge
      · rw [← Bool.not_eq_true]
        intro hset
        have hset' := extracted_set (s := s) hset
        rw [← h.interpreted, hvalue (by omega), hpositive hs hlt] at hset'
        cases hset'
      · have hle := hbf.width_le
        rw [getLsbD_extracted_unsigned hbf, decide_eq_false (by omega), Bool.false_and]
  have hread {i : Nat} (hi : i < bf.bf_width) : value.getLsbD i = (decide (i < bf.bf_width % 32) &&
      (stored (writeField be mem addr value bf) addr bf.ty_size).getLsbD (bf.bf_offset + i)) := by
    rw [← hvalue hi, h.interpreted, hunsigned, getLsbD_extracted_unsigned hbf]
  have hplaced : ∀ i < bf.bf_width % 32,
      (stored (writeField be mem addr value bf) addr bf.ty_size).getLsbD (bf.bf_offset + i) =
        value.getLsbD i := by
    intro i hi
    rw [hread (i := i) (by omega), decide_eq_true hi, Bool.true_and]
  obtain ⟨hown, hforeign⟩ := (own_foreign_iff hbf).1 hplaced
  refine ⟨fun i hi hin => ?_, fun hs hk => ?_, hown, hforeign⟩
  · rw [hread hin, decide_eq_false (by omega), Bool.false_and]
  · have hle := hbf.width_le
    have hclear := hpositive hs (by omega)
    rwa [show (bf.bf_width - 1) % 32 = bf.bf_width % 32 - 1 by omega] at hclear

end

/-- A field is read back as it was written, and the interpreter agrees, exactly for a value that
needs no sign and no more bits than `1 << width` has, and that stands where the interpreter looks for
it. Nothing else is written in any case. -/
theorem fields_are_those_of_the_interpreter_iff (bf : Field) (hbf : bf.Sound)
    (bits_big_endian is_signed : Bool) (mem : Mem 64) (addr value : BitVec 64) :
    bf.Faithful bits_big_endian is_signed mem addr value ↔
      bf.Fits bits_big_endian is_signed (stored mem addr bf.ty_size) value :=
  ⟨fits_of_faithful hbf, faithful_of_fits hbf⟩

theorem five_fits_a_signed_field_of_four_bits :
    (⟨.INT, 3, 4⟩ : Field).Faithful false true (fun _ => 0xff#8) 0x1000#64 5#64 ↔
      (⟨.INT, 3, 4⟩ : Field).Fits false true (stored (fun _ => 0xff#8) 0x1000#64 .INT) 5#64 :=
  fields_are_those_of_the_interpreter_iff ⟨.INT, 3, 4⟩ ⟨by decide, by decide⟩ false true _ _ _

/-- The interpreter reads 4294967295 from a signed field that holds -1. -/
theorem minus_one_is_not_read_by_the_interpreter :
    ¬ ∀ (bf : Field) (bits_big_endian is_signed : Bool) (mem : Mem 64) (addr value : BitVec 64),
      bf.Sound → bf.Faithful bits_big_endian is_signed mem addr value := by
  intro hall
  have h := hall ⟨.INT, 0, 3⟩ false true (fun _ => 0#8) 0x1000#64 (-1#64) ⟨by decide, by decide⟩
  exact absurd h.interpreted (by decide)

end ups_rules.field_values
