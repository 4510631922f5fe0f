-- Bitfields: the word that each is packed into, and the instructions that insert and extract it.
import Ups.AggrLayout
import Ups.OperandForms
import Mathlib.Tactic.Tauto

open le_bytes
open packing
open ups_rules.machine
open ups_rules.opcodes
open ups_rules.execute
open ups_rules.code_text
open ups_rules.code_layout
open ups_rules.aggr_layout
open ups_rules.operand_forms

namespace ups_rules.bitfields

/-! ## The pure model -/

/-- `bitfield_t` -/
structure Field where
  bf_type : BasicCode
  bf_offset : Nat
  bf_width : Nat

/-- The base types that `check_bitfield_type` lets pass, most of them with a warning. -/
def checkBitfieldType : BasicCode → Bool
  | .INT | .UINT | .ULONG | .USHORT | .UCHAR | .LONG | .SHORT | .CHAR => true
  | _ => false

/-- The two operations that come in a signed and an unsigned form. -/
inductive FieldOp where
  | INSERT | EXTRACT

def FieldOp.signed : FieldOp → Bitfield
  | INSERT => .INSERT_SIGNED
  | EXTRACT => .EXTRACT_SIGNED

def FieldOp.unsigned : FieldOp → Bitfield
  | INSERT => .INSERT_UNSIGNED
  | EXTRACT => .EXTRACT_UNSIGNED

def codeBitfieldOp (bf : Field) (op : FieldOp) : Emission :=
  .bitfield (if bf.bf_type = .UINT then op.unsigned else op.signed)
    (BitVec.ofNat 8 bf.bf_offset) (BitVec.ofNat 8 bf.bf_width)

/-- What the coded insertion computes. -/
def Field.insert (bf : Field) : Word → Word → Word := insertField bf.bf_offset bf.bf_width

/-- What the coded extraction computes. -/
def Field.extract (bf : Field) : Word → Word :=
  if bf.bf_type = .UINT then extractUnsigned bf.bf_offset bf.bf_width
  else extractSigned bf.bf_offset bf.bf_width

def isSigned : BasicCode → Bool
  | .CHAR | .SHORT | .INT | .LONG | .LONGLONG => true
  | _ => false

/-- The value that a field of so many bits holds after an assignment. -/
def reduced (bf_type : BasicCode) (width : Nat) (v : Word) : Word :=
  if isSigned bf_type then (v.setWidth width).signExtend 64 else (v.setWidth width).setWidth 64

/-- An insertion into a stored word, and what is extracted from it afterwards. -/
structure Field.Holds (bf : Field) (w : BitVec 32) (v : Word) : Prop where
  value : bf.extract (bf.insert (w.setWidth 64) v) = reduced bf.bf_type bf.bf_width v
  others : ∀ i < 32, ¬ (bf.bf_offset ≤ i ∧ i < bf.bf_offset + bf.bf_width) →
    (bf.insert (w.setWidth 64) v).getLsbD i = w.getLsbD i

/-- A field of bits that its type has. -/
structure Field.Sound (bf : Field) : Prop where
  type : checkBitfieldType bf.bf_type
  width : 1 ≤ bf.bf_width
  word : bf.bf_offset + bf.bf_width ≤ 32
  bits : bf.bf_offset + bf.bf_width ≤ 8 * bf.bf_type.size

/-! ## Bits -/

theorem getLsbD_intMask {width : Nat} (h : width < 32) (i : Nat) :
    (intMask width).getLsbD i = decide (i < width) := by
  have hmask : intMask width = BitVec.ofNat 32 (2 ^ width - 1) := by
    apply BitVec.eq_of_toNat_eq
    have hpow : 2 ^ width < 2 ^ 32 := Nat.pow_lt_pow_right (by decide) h
    have hone : 1 ≤ 2 ^ width := Nat.one_le_two_pow
    rw [intMask, Nat.mod_eq_of_lt h, BitVec.toNat_sub, BitVec.toNat_shiftLeft, Nat.shiftLeft_eq]
    simp only [BitVec.toNat_ofNat]
    omega
  rw [hmask, BitVec.getLsbD_ofNat, Nat.testBit_two_pow_sub_one]
  simp only [Bool.and_eq_right_iff_imp, decide_eq_true_eq]
  omega

section
variable {offset width i : Nat}

/-- The mask of an insertion, without the bits above the stored word. -/
theorem getLsbD_mask (h : offset + width ≤ 32) (hpos : 1 ≤ width) (hwidth : width < 32) (hi : i < 32) :
    ((intMask width <<< (offset % 32)).signExtend 64).getLsbD i =
      decide (offset ≤ i ∧ i < offset + width) := by
  rw [BitVec.getLsbD_signExtend, if_pos hi, BitVec.getLsbD_shiftLeft, getLsbD_intMask hwidth,
    Nat.mod_eq_of_lt (by omega)]
  by_cases hlow : i < offset
  · simp [hlow, Nat.not_le_of_lt hlow]
  · rw [decide_eq_true hi, decide_eq_false hlow, Bool.true_and, Bool.not_false, Bool.true_and]
    rw [decide_eq_true (show i < 64 by omega), Bool.true_and]
    exact decide_eq_decide.2 (by omega)

theorem getLsbD_insertField (h : offset + width ≤ 32) (hpos : 1 ≤ width) (hwidth : width < 32)
    (hi : i < 32) (old v : Word) : (insertField offset width old v).getLsbD i =
      if offset ≤ i ∧ i < offset + width then v.getLsbD (i - offset) else old.getLsbD i := by
  simp only [insertField, BitVec.getLsbD_or, BitVec.getLsbD_and, BitVec.getLsbD_not,
    BitVec.getLsbD_shiftLeft, getLsbD_mask h hpos hwidth hi]
  split
  · rename_i hin
    simp [hin, Nat.not_lt.2 hin.1]
    omega
  · rename_i hout
    simp [hout]
    omega

/-- The mask of an extraction has no bits from 31 on, so that its sign is not extended. -/
theorem getLsbD_extractUnsigned (hwidth : width < 32) (v : Word) :
    (extractUnsigned offset width v).getLsbD i = (decide (i < width) && v.getLsbD (offset + i)) := by
  have hmask : ((intMask width).signExtend 64).getLsbD i = decide (i < width) := by
    have hmsb : (intMask width).msb = false := by
      rw [BitVec.msb_eq_getLsbD_last, getLsbD_intMask hwidth]
      simp only [decide_eq_false_iff_not]
      omega
    rw [BitVec.signExtend_eq_setWidth_of_msb_false hmsb, BitVec.getLsbD_setWidth,
      getLsbD_intMask hwidth]
    simp only [Bool.and_eq_right_iff_imp, decide_eq_true_eq]
    omega
  rw [extractUnsigned, BitVec.getLsbD_and, BitVec.getLsbD_ushiftRight, hmask, Bool.and_comm]

/-- What is extracted without a sign is the value's lower part. -/
theorem extractUnsigned_insertField (h : offset + width ≤ 32) (hpos : 1 ≤ width) (hwidth : width < 32)
    (old v : Word) : extractUnsigned offset width (insertField offset width old v) =
      (v.setWidth width).setWidth 64 := by
  apply BitVec.eq_of_getLsbD_eq
  intro i hi
  rw [getLsbD_extractUnsigned hwidth, BitVec.getLsbD_setWidth, BitVec.getLsbD_setWidth]
  by_cases hin : i < width
  · rw [getLsbD_insertField h hpos hwidth (by omega), if_pos (by omega)]
    simp [hin, hi]
  · simp [hin]

/-- The sign is carried on to the 32nd bit only. -/
theorem extractSigned_insertField (h : offset + width ≤ 32) (hpos : 1 ≤ width) (hwidth : width < 32)
    (old v : Word) : extractSigned offset width (insertField offset width old v) =
      if v.getLsbD (width - 1) then
        (v.setWidth width).setWidth 64 ||| (BitVec.allOnes 32 <<< width).setWidth 64
      else (v.setWidth width).setWidth 64 := by
  have hbit : (1#32 <<< ((width - 1) % 32)).signExtend 64 = BitVec.twoPow 64 (width - 1) := by
    have hpow : 2 ^ (width - 1) < 2 ^ 31 := Nat.pow_lt_pow_right (by decide) (by omega)
    have hnat : (1#32 <<< (width - 1)).toNat = 2 ^ (width - 1) := by
      rw [BitVec.toNat_shiftLeft, Nat.shiftLeft_eq]
      simp only [BitVec.toNat_ofNat]
      omega
    have hmsb : (1#32 <<< (width - 1)).msb = false := by
      rw [BitVec.msb_eq_decide, hnat]
      exact decide_eq_false (by omega)
    rw [Nat.mod_eq_of_lt (by omega), BitVec.signExtend_eq_setWidth_of_msb_false hmsb]
    apply BitVec.eq_of_toNat_eq
    rw [BitVec.toNat_setWidth, hnat, BitVec.toNat_twoPow]
  have hlow : (v.setWidth width).getLsbD (width - 1) = v.getLsbD (width - 1) := by
    rw [BitVec.getLsbD_setWidth, decide_eq_true (by omega), Bool.true_and]
  have hand : (v.setWidth width).setWidth 64 &&& BitVec.twoPow 64 (width - 1) =
      if v.getLsbD (width - 1) then BitVec.twoPow 64 (width - 1) else 0#64 := by
    rw [BitVec.and_twoPow, BitVec.getLsbD_setWidth, decide_eq_true (by omega), Bool.true_and, hlow]
  unfold extractSigned
  rw [extractUnsigned_insertField h hpos hwidth]
  simp only [hbit, hand, Nat.mod_eq_of_lt hwidth]
  cases v.getLsbD (width - 1) with
  | false => simp
  | true =>
    have hne : BitVec.twoPow 64 (width - 1) ≠ 0#64 := by
      intro hzero
      have := congrArg (BitVec.getLsbD · (width - 1)) hzero
      rw [BitVec.getLsbD_twoPow] at this
      simp at this
      omega
    simp [hne]

end

section
variable {bf : Field} {w : BitVec 32} {v : Word}

/-- When the sign of a field is what its instructions take it for, and they have the mask. -/
def Field.Fits (bf : Field) (v : Word) : Prop :=
  (bf.bf_width < 32 ∨ v.setWidth 32 = 0#32) ∧
    (bf.bf_type = .UINT ∨ v.getLsbD (bf.bf_width - 1) = false)

theorem insertField_whole (old v : Word) : insertField 0 32 old v = old := by
  have hmask : (intMask 32 <<< (0 % 32)).signExtend 64 = 0#64 := by decide
  simp only [insertField, hmask, BitVec.and_zero, BitVec.or_zero, BitVec.not_zero, BitVec.and_allOnes]

theorem extractUnsigned_whole (v : Word) : extractUnsigned 0 32 v = 0#64 := by
  have hmask : (intMask 32).signExtend 64 = 0#64 := by decide
  rw [extractUnsigned, hmask, BitVec.and_zero]

theorem extractSigned_whole (v : Word) : extractSigned 0 32 v = 0#64 := by
  simp [extractSigned, extractUnsigned_whole]

theorem reduced_whole (bf_type : BasicCode) : reduced bf_type 32 v = 0#64 ↔ v.setWidth 32 = 0#32 := by
  unfold reduced
  constructor
  · intro h
    have hlow : ((if isSigned bf_type then (v.setWidth 32).signExtend 64
        else (v.setWidth 32).setWidth 64 : Word).setWidth 32) = v.setWidth 32 := by
      apply BitVec.eq_of_getLsbD_eq
      intro i hi
      cases isSigned bf_type with
      | true => simp only [if_true, BitVec.getLsbD_setWidth, BitVec.getLsbD_signExtend, hi, decide_true,
          show i < 64 by omega, Bool.true_and]
      | false => simp [hi, show i < 64 by omega]
    rw [← hlow, h]
    rfl
  · intro h
    rw [h]
    split <;> rfl

/-- A whole word has an empty mask: nothing is inserted, and nothing is extracted. -/
theorem holds_whole (hwidth : bf.bf_width = 32) (hoffset : bf.bf_offset = 0) :
    bf.Holds w v ↔ v.setWidth 32 = 0#32 := by
  have hinsert (old : Word) : bf.insert old v = old := by
    rw [Field.insert, hwidth, hoffset, insertField_whole]
  have hextract (x : Word) : bf.extract x = 0#64 := by
    rw [Field.extract, hwidth, hoffset]
    split
    · exact extractUnsigned_whole x
    · exact extractSigned_whole x
  have hreduced : reduced bf.bf_type bf.bf_width v = 0#64 ↔ v.setWidth 32 = 0#32 := by
    rw [hwidth]
    exact reduced_whole bf.bf_type
  constructor
  · rintro ⟨hvalue, -⟩
    exact hreduced.1 (hvalue.symm.trans (hextract _))
  · intro hzero
    refine ⟨(hextract _).trans (hreduced.2 hzero).symm, fun i hi _ => ?_⟩
    rw [hinsert, BitVec.getLsbD_setWidth, decide_eq_true (by omega), Bool.true_and]

theorem reduced_clear (bf_type : BasicCode) {width : Nat}
    (h : v.getLsbD (width - 1) = false) : reduced bf_type width v = (v.setWidth width).setWidth 64 := by
  have hmsb : (v.setWidth width).msb = false := by
    rw [BitVec.msb_eq_getLsbD_last, BitVec.getLsbD_setWidth, h, Bool.and_false]
  unfold reduced
  split
  · rw [BitVec.signExtend_eq_setWidth_of_msb_false hmsb]
  · rfl

/-- The bit 31 of the reduced value is the sign of the field, if it has one, and so is the bit 63. -/
theorem getLsbD_reduced (bf_type : BasicCode) {width i : Nat} (hpos : 1 ≤ width) (hi : width ≤ i)
    (hlt : i < 64) (h : v.getLsbD (width - 1) = true) :
    (reduced bf_type width v).getLsbD i = isSigned bf_type := by
  have hmsb : (v.setWidth width).msb = true := by
    rw [BitVec.msb_eq_getLsbD_last, BitVec.getLsbD_setWidth, h, Bool.and_true]
    exact decide_eq_true (by omega)
  unfold reduced
  cases isSigned bf_type with
  | true => simp [BitVec.getLsbD_signExtend, hmsb, hlt, Nat.not_lt.2 hi]
  | false => simp [Nat.not_lt.2 hi]

theorem holds_part (hbf : bf.Sound) (hwidth : bf.bf_width < 32) :
    bf.Holds w v ↔ bf.bf_type = .UINT ∨ v.getLsbD (bf.bf_width - 1) = false := by
  have hothers : ∀ i < 32, ¬ (bf.bf_offset ≤ i ∧ i < bf.bf_offset + bf.bf_width) →
      (bf.insert (w.setWidth 64) v).getLsbD i = w.getLsbD i := by
    intro i hi hout
    rw [Field.insert, getLsbD_insertField hbf.word hbf.width hwidth hi, if_neg hout,
      BitVec.getLsbD_setWidth, decide_eq_true (by omega), Bool.true_and]
  have hvalue : bf.Holds w v ↔ bf.extract (bf.insert (w.setWidth 64) v) =
      reduced bf.bf_type bf.bf_width v := ⟨fun h => h.value, fun h => ⟨h, hothers⟩⟩
  rw [hvalue, Field.extract, Field.insert]
  by_cases htype : bf.bf_type = .UINT
  · rw [if_pos htype, extractUnsigned_insertField hbf.word hbf.width hwidth, htype]
    exact iff_of_true rfl (.inl rfl)
  · rw [if_neg htype, extractSigned_insertField hbf.word hbf.width hwidth]
    cases hbit : v.getLsbD (bf.bf_width - 1) with
    | false => exact iff_of_true (reduced_clear _ hbit).symm (.inr rfl)
    | true =>
      -- the bits 31 and 63 of what is extracted differ
      refine iff_of_false (fun heq => ?_) (by simp [htype])
      rw [if_pos rfl] at heq
      have hsign {i : Nat} (hi : bf.bf_width ≤ i) (hlt : i < 64) :=
        (congrArg (BitVec.getLsbD · i) heq).trans (getLsbD_reduced bf.bf_type hbf.width hi hlt hbit)
      have h31 : ((BitVec.allOnes 32 <<< bf.bf_width).setWidth 64).getLsbD 31 = true := by
        rw [BitVec.getLsbD_setWidth, BitVec.getLsbD_shiftLeft, BitVec.getLsbD_allOnes]
        simp only [Bool.and_eq_true, Bool.not_eq_true', decide_eq_false_iff_not, decide_eq_true_eq]
        omega
      have h63 : ((v.setWidth bf.bf_width).setWidth 64 |||
          (BitVec.allOnes 32 <<< bf.bf_width).setWidth 64).getLsbD 63 = false := by
        rw [BitVec.getLsbD_or, BitVec.getLsbD_setWidth, BitVec.getLsbD_setWidth, BitVec.getLsbD_setWidth,
          BitVec.getLsbD_shiftLeft, decide_eq_false (show ¬ 63 < bf.bf_width by omega)]
        rfl
      have := hsign (show bf.bf_width ≤ 31 by omega) (by decide)
      rw [← hsign (show bf.bf_width ≤ 63 by omega) (by decide), h63, BitVec.getLsbD_or, h31] at this
      simp at this

theorem holds_iff (hbf : bf.Sound) : bf.Holds w v ↔ bf.Fits v := by
  rcases Nat.lt_or_ge bf.bf_width 32 with hwidth | hwidth
  · rw [holds_part hbf hwidth, Field.Fits]
    exact ⟨fun h => ⟨.inl hwidth, h⟩, fun h => h.2⟩
  · have hword := hbf.word
    rw [holds_whole (by omega) (by omega), Field.Fits]
    refine ⟨fun h => ⟨.inr h, .inr ?_⟩, fun h => h.1.resolve_left (by omega)⟩
    have hbit := congrArg (BitVec.getLsbD · (bf.bf_width - 1)) h
    rw [BitVec.getLsbD_setWidth, decide_eq_true (by omega)] at hbit
    simpa using hbit

end

/-! ## The instructions -/

def FieldOp.perform (bf : Field) (m : Machine) : FieldOp → Machine
  | INSERT => m.binop bf.insert
  | EXTRACT => m.unop bf.extract

def FieldOp.opcode (bf : Field) (op : FieldOp) : Opcode :=
  (if bf.bf_type = .UINT then op.unsigned else op.signed).opcode

theorem get_byte {m : Machine} {b : BitVec 8} {rest : List (BitVec 8)} (h : Holds m.text m.pc (b :: rest)) :
    m.get 1 = b.toNat ∧ Holds m.text (m.skip 1).pc rest := by
  obtain ⟨hbyte, hrest⟩ := holds_append.1 (show Holds m.text m.pc ([b] ++ rest) from h)
  have hle : leBytes 1 b.toNat = [b] := by simp [leBytes]
  rw [← hle] at hbyte
  refine ⟨?_, hrest⟩
  rw [stack_words.get_of_holds hbyte]
  exact Nat.mod_eq_of_lt b.isLt

theorem step_bitfield {env : Env} {m : Machine} (bf : Field) (op : FieldOp) (hbf : bf.Sound)
    (h : Holds m.text m.pc (leBytes 2 (op.opcode bf).num ++
      [BitVec.ofNat 8 bf.bf_offset, BitVec.ofNat 8 bf.bf_width])) :
    step env m = .next (op.perform bf (m.skip 4)) := by
  obtain ⟨hopcode, hoperand⟩ := holds_append.1 h
  rw [length_leBytes] at hoperand
  have hnum : m.get 2 = (op.opcode bf).num := by
    rw [stack_words.get_of_holds hopcode]
    have := num_le (op.opcode bf)
    exact Nat.mod_eq_of_lt (by omega)
  obtain ⟨hoffset, hrest⟩ := get_byte (m := m.skip 2) hoperand
  obtain ⟨hwidth, -⟩ := get_byte (m := (m.skip 2).skip 1) hrest
  have hword := hbf.word
  rw [BitVec.toNat_ofNat, Nat.mod_eq_of_lt (by omega)] at hoffset hwidth
  have hskip : ((m.skip 2).skip 2) = m.skip 4 := stack_words.skip_skip m 2 2
  rw [step, hnum, stack_words.opcodeOf_num]
  simp only [FieldOp.opcode]
  cases op with
  | INSERT =>
    split <;> simp only [FieldOp.unsigned, FieldOp.signed, Bitfield.opcode, execOp, hoffset, hwidth, hskip] <;> rfl
  | EXTRACT =>
    simp only [FieldOp.perform, Field.extract]
    split <;> simp only [FieldOp.unsigned, FieldOp.signed, Bitfield.opcode, execOp, hoffset, hwidth, hskip]

theorem executes_bitfield (env : Env) (tx : Text) (bf : Field) (op : FieldOp) (hbf : bf.Sound) :
    Executes env (emit tx (codeBitfieldOp bf op)).tx_text (opcodeAt tx (op.opcode bf))
      fun m => .next (op.perform bf m) := by
  intro m a h hpc
  obtain ⟨before, hlen, htext⟩ : ∃ before, before.length = opcodeAt tx (op.opcode bf) ∧
      (emit tx (codeBitfieldOp bf op)).tx_text = before ++ (leBytes 2 (op.opcode bf).num ++
        [BitVec.ofNat 8 bf.bf_offset, BitVec.ofNat 8 bf.bf_width]) := by
    refine ⟨_, rfl, ?_⟩
    have hbytes := (adds_byte (ciCodeOpcode tx (op.opcode bf)) (BitVec.ofNat 8 bf.bf_offset)).trans
      (adds_byte _ (BitVec.ofNat 8 bf.bf_width))
    refine hbytes.text.trans ?_
    rw [ciCodeOpcode, (begins_codeOpcode _ _).text, List.append_assoc]
    rfl
  rw [htext, holds_append, hlen, ← hpc] at h
  have hbehind : a + BitVec.ofNat 64 (emit tx (codeBitfieldOp bf op)).tx_text.length =
      m.pc + BitVec.ofNat 64 4 := by
    rw [htext, List.length_append, List.length_append, length_leBytes, hlen, hpc,
      BitVec.ofNat_add, BitVec.add_assoc]
    rfl
  rw [hbehind]
  exact step_bitfield bf op hbf h.2

/-! ## Main results -/

/-- Every member lies in one aligned word. -/
def InWords (members : List Member) (d : AggrDef) : Prop :=
  ∀ x ∈ members.zip d.ae_aggr_members, ∃ bf, x.2.ty_bitfield = some bf ∧ 4 ∣ x.2.va_addr ∧
    0 ≤ bf.bf_offset ∧ bf.bf_offset + bf.bf_width ≤ 32

theorem inWords_of_lt {members : List Member}
    (hfields : ∀ m ∈ members, ∃ bf_type bf_width, m = .bitfield bf_type bf_width)
    (hms : ∀ m ∈ members, m.shape.Legal .STRUCT) (h : (CType.aggr .STRUCT members).need < 2 ^ 31) :
    InWords members (ciBuildAggrDef .STRUCT members) := by
  have hexact : ∀ m ∈ members, m.Exact := by
    intro m hm
    obtain ⟨bf_type, bf_width, rfl⟩ := hfields m hm
    trivial
  have hpos : 0 < (ciBuildAggrDef .STRUCT members).ae_alignment :=
    Nat.pos_of_dvd_of_pos (build_alignment_dvd ..) (by decide)
  unfold InWords
  rw [build_zip hms hexact ((le_roundUp hpos _).trans_lt h), List.forall_mem_map]
  rintro ⟨m, s⟩ hx
  have hmem := (List.of_mem_zip hx).1
  obtain ⟨hdvd, hbits⟩ : s.Fits 4 (m.need) ∧ m.shape.Legal .STRUCT :=
    ⟨slots_fit hms start_sound _ hx, hms m hmem⟩
  obtain ⟨bf_type, bf_width, rfl⟩ := hfields m hmem
  obtain ⟨-, h0, -⟩ := hbits
  refine ⟨_, rfl, hdvd.1, Int.natCast_nonneg _, ?_⟩
  have hword : s.offset + bf_width.toNat ≤ 32 := hdvd.2
  show (s.offset : Int) + (bf_width.toNat : Int) ≤ 32
  omega

end ups_rules.bitfields
