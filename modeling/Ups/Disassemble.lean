-- The walk of disassemble_text (ci_opcodes.c) over the text that the compiler emitted, and when
-- it comes to the instructions that were emitted. The walk takes an opcode for one byte, and the
-- emitters code two.
import Ups.CodeText

open le_bytes
open ups_rules.machine
open ups_rules.opcodes
open ups_rules.next_pc
open ups_rules.code_text

namespace ups_rules.disassemble

/-! ## The pure model -/

/-- `GETWORD` -/
def getword (text : Nat → BitVec 8) (pc : Nat) : Nat :=
  (text pc).toNat + 256 * (text (pc + 1)).toNat

/-- The loop of `disassemble_text`: the addresses where it starts an instruction, and the opcodes
that it decodes there. `none` is a panic. -/
def disassembleFrom (text : Nat → BitVec 8) (textsize : Nat) :
    Nat → Nat → Option (List (Nat × Opcode))
  | 0, _ => some []
  | fuel + 1, pc =>
    if pc < textsize then do
      let opcode ← opcodeOf (text pc).toNat
      let size ← ciOperandSize opcode (getword text (pc + 1))
      let rest ← disassembleFrom text textsize fuel (pc + 1 + size)
      return (pc, opcode) :: rest
    else some []

def disassembleText (text : Nat → BitVec 8) (textsize : Nat) : Option (List (Nat × Opcode)) :=
  disassembleFrom text textsize textsize 0

/-- The text segment; the walk may read behind its end. -/
def segment (tx : Text) (beyond : Nat → BitVec 8) (a : Nat) : BitVec 8 :=
  (tx.tx_text[a]?).getD (beyond a)

/-- The walk starts an instruction exactly where an opcode was emitted, and decodes that one. -/
def InStep (tx : Text) (beyond : Nat → BitVec 8) : Prop :=
  disassembleText (segment tx beyond) tx.tx_text.length = some tx.emitted

/-- A switch whose number of cases, read one byte early, takes the walk past its end. -/
def PastTheEnd (e : Emission) : Prop := ∃ n, e.cases = some n ∧ n < 256 * (n % 256)

/-- Nothing is emitted, or one switch and nothing else. -/
def AtMostASwitch (checksp : Bool) (es : List (Word × Emission)) : Prop :=
  es = [] ∨ checksp = false ∧ ∃ n e, es = [(n, e)] ∧ PastTheEnd e

/-! ## The walk -/

section
variable {text : Nat → BitVec 8} {textsize fuel pc : Nat}

/-- More turns than the text has bytes change nothing. -/
theorem disassembleFrom_fuel {fuel' : Nat} (h : textsize ≤ pc + fuel)
    (h' : textsize ≤ pc + fuel') :
    disassembleFrom text textsize fuel pc = disassembleFrom text textsize fuel' pc := by
  induction fuel generalizing pc fuel' with
  | zero =>
    cases fuel' with
    | zero => rfl
    | succ fuel' => simp [disassembleFrom, show ¬ pc < textsize by omega]
  | succ fuel ih =>
    cases fuel' with
    | zero => simp [disassembleFrom, show ¬ pc < textsize by omega]
    | succ fuel' =>
      simp only [disassembleFrom]
      split
      · congr 1
        funext opcode
        congr 1
        funext size
        have hrest : disassembleFrom text textsize fuel (pc + 1 + size) =
            disassembleFrom text textsize fuel' (pc + 1 + size) := ih (by omega) (by omega)
        rw [hrest]
      · rfl

theorem disassembleFrom_end (h : textsize ≤ pc) :
    disassembleFrom text textsize fuel pc = some [] := by
  cases fuel with
  | zero => rfl
  | succ fuel => simp [disassembleFrom, show ¬ pc < textsize by omega]

/-- Before the end an instruction starts. -/
theorem disassembleFrom_starts {l : List (Nat × Opcode)} (hpc : pc < textsize) (hfuel : 0 < fuel)
    (h : disassembleFrom text textsize fuel pc = some l) : ∃ op, l.head? = some (pc, op) := by
  obtain ⟨fuel, rfl⟩ : ∃ k, fuel = k + 1 := ⟨fuel - 1, by omega⟩
  simp only [disassembleFrom, if_pos hpc, Option.bind_eq_bind, Option.bind_eq_some_iff] at h
  obtain ⟨op, -, size, -, rest, -, hl⟩ := h
  cases hl
  exact ⟨op, rfl⟩

end

/-! ## The first instruction -/

/-- A number that reads as an opcode is not less than the number of that opcode. -/
theorem num_le_of_opcodeOf {n : Nat} {op : Opcode} (h : opcodeOf n = some op) : op.num ≤ n := by
  by_contra hlt
  have hlt : n < List.findIdx (· == op) opcodeTable := by
    unfold Opcode.num List.idxOf at hlt
    omega
  obtain ⟨hn, hop⟩ := List.getElem?_eq_some_iff.mp h
  have hne := List.not_of_lt_findIdx hlt
  simp [hop] at hne

theorem ciOperandSize_of_not_switch {op : Opcode} (h : isSwitch op = false) (n k : Nat) :
    ciOperandSize op n = ciOperandSize op k := by
  cases op with
  | OC_SWITCH_ON_TABLE | OC_SWITCH_ON_CHAIN s => cases h
  | _ => rfl

/-- The bytes that a switch has for each case. -/
def caseSize : Opcode → Nat
  | .OC_SWITCH_ON_CHAIN s => s.nbytes + 2
  | _ => 2

theorem two_le_caseSize (op : Opcode) : 2 ≤ caseSize op := by
  cases op with
  | OC_SWITCH_ON_CHAIN s => simp [caseSize]
  | _ => simp [caseSize]

theorem ciOperandSize_switch {op : Opcode} (h : isSwitch op = true) (n : Nat) :
    ciOperandSize op n = some (8 + n * caseSize op) := by
  cases op with
  | OC_SWITCH_ON_TABLE | OC_SWITCH_ON_CHAIN s =>
    simp only [ciOperandSize, caseSize]
    congr 1
    omega
  | _ => cases h

set_option maxRecDepth 8000 in
theorem switch_num_lt {op : Opcode} (h : isSwitch op = true) :
    op.num < 256 ∧ opcodeOf op.num = some op := by
  cases op with
  | OC_SWITCH_ON_TABLE => decide
  | OC_SWITCH_ON_CHAIN s => cases s <;> decide
  | _ => cases h

section
variable {i : Instr} {is : List Instr} {text : Nat → BitVec 8}

/-- The low byte of the opcode. -/
theorem text_zero (htext : ∀ a < (textOf (i :: is)).length, some (text a) = (textOf (i :: is))[a]?) :
    (text 0).toNat = i.opcode.num % 256 := by
  have h := htext 0 (by simp [textOf, Instr.bytes])
  simp [textOf, Instr.bytes, leBytes] at h
  simp [h]

/-- The walk reads the number of cases one byte early: between the high byte of the opcode, which
is zero, and the low byte of the number. -/
theorem getword_one (htext : ∀ a < (textOf (i :: is)).length, some (text a) = (textOf (i :: is))[a]?)
    (hsw : isSwitch i.opcode = true) : getword text 1 = 256 * (i.ncase % 256) := by
  have hsize := i.size
  rw [ciOperandSize_switch hsw, Option.some_inj] at hsize
  have hcount := i.count hsw
  have hnum := (switch_num_lt hsw).1
  have hone := htext 1 (by simp [textOf, Instr.bytes]; omega)
  have htwo := htext 2 (by simp [textOf, Instr.bytes]; omega)
  have hhead : i.operands[0]? = some (BitVec.ofNat 8 i.ncase) := by
    rw [← List.getElem?_take_of_lt (show 0 < 2 by omega), hcount]
    simp [leBytes]
  simp [textOf, Instr.bytes, leBytes] at hone
  simp only [textOf, List.flatMap_cons, Instr.bytes] at htwo
  rw [List.append_assoc, List.getElem?_append_right (by simp), length_leBytes,
    List.getElem?_append_left (by omega), Nat.sub_self, hhead, Option.some_inj] at htwo
  unfold getword
  rw [hone, htwo]
  simp
  omega

/-- The switch that the walk leaves past its end. -/
def EndsTheWalk (is : List Instr) : Prop :=
  is = [] ∨ ∃ i, is = [i] ∧ isSwitch i.opcode = true ∧ i.ncase < 256 * (i.ncase % 256)

/-- The walk begins with an opcode of one byte, and goes on behind its operand. -/
theorem disassembleText_cons {l : List (Nat × Opcode)}
    (htext : ∀ a < (textOf (i :: is)).length, some (text a) = (textOf (i :: is))[a]?)
    (h : disassembleText text (textOf (i :: is)).length = some ((0, i.opcode) :: l)) :
    opcodeOf (i.opcode.num % 256) = some i.opcode ∧
      ∃ size, ciOperandSize i.opcode (getword text 1) = some size ∧
        disassembleFrom text (textOf (i :: is)).length ((textOf (i :: is)).length - 1)
          (1 + size) = some l := by
  have hpos : 0 < (textOf (i :: is)).length := by simp [textOf, Instr.bytes]
  unfold disassembleText at h
  rw [show (textOf (i :: is)).length = (textOf (i :: is)).length - 1 + 1 by omega] at h
  simp only [disassembleFrom, Nat.sub_add_cancel hpos, if_pos hpos, Option.bind_eq_bind,
    Option.bind_eq_some_iff, text_zero htext] at h
  obtain ⟨op, hop, size, hsize, rest, hrest, hl⟩ := h
  cases hl
  rw [Nat.zero_add] at hsize hrest
  exact ⟨hop, size, hsize, hrest⟩

/-- An instruction that is no switch leaves the walk one byte before the end of it. -/
theorem not_inStep_of_not_switch
    (htext : ∀ a < (textOf (i :: is)).length, some (text a) = (textOf (i :: is))[a]?)
    (hsw : isSwitch i.opcode = false) :
    disassembleText text (textOf (i :: is)).length ≠ some (startsOf 0 (i :: is)) := by
  intro h
  obtain ⟨-, size, hsize, hrest⟩ := disassembleText_cons htext h
  rw [ciOperandSize_of_not_switch hsw _ i.ncase, i.size, Option.some_inj] at hsize
  have hlen : (textOf (i :: is)).length = 2 + size + (textOf is).length := by
    simp [textOf, Instr.bytes, hsize, Nat.add_assoc]
  obtain ⟨op, hhead⟩ := disassembleFrom_starts (by omega) (by omega) hrest
  cases is with
  | nil => simp [startsOf] at hhead
  | cons j js =>
    simp [startsOf, Instr.bytes, hsize] at hhead

/-- A switch is in step only when the walk ends with it. -/
theorem switch_inStep_iff
    (htext : ∀ a < (textOf (i :: is)).length, some (text a) = (textOf (i :: is))[a]?)
    (hsw : isSwitch i.opcode = true) :
    disassembleText text (textOf (i :: is)).length = some (startsOf 0 (i :: is)) ↔
      is = [] ∧ i.ncase < 256 * (i.ncase % 256) := by
  have hk := two_le_caseSize i.opcode
  have hword := getword_one htext hsw
  have hsize := i.size
  rw [ciOperandSize_switch hsw, Option.some_inj] at hsize
  have hlen : (textOf (i :: is)).length = 2 + i.operands.length + (textOf is).length := by
    simp [textOf, Instr.bytes, Nat.add_assoc]
  constructor
  · intro h
    obtain ⟨-, size, hgot, hrest⟩ := disassembleText_cons htext h
    rw [ciOperandSize_switch hsw, hword, Option.some_inj] at hgot
    by_cases hend : (textOf (i :: is)).length ≤ 1 + size
    · rw [disassembleFrom_end hend, Option.some_inj] at hrest
      cases is with
      | nil =>
        refine ⟨rfl, ?_⟩
        have hlt : i.ncase * caseSize i.opcode <
            256 * (i.ncase % 256) * caseSize i.opcode := by omega
        exact Nat.lt_of_mul_lt_mul_right hlt
      | cons j js => simp [startsOf] at hrest
    · obtain ⟨op, hhead⟩ := disassembleFrom_starts (by omega) (by omega) hrest
      cases is with
      | nil => simp [startsOf] at hhead
      | cons j js =>
        -- the walk and the code differ by a multiple of the size of a case, and by one byte
        simp only [startsOf, Nat.zero_add, Instr.bytes, List.length_append, length_leBytes,
          List.head?_cons, Option.some_inj, Prod.mk.injEq] at hhead
        have hmul : 256 * (i.ncase % 256) * caseSize i.opcode =
            i.ncase * caseSize i.opcode + 1 := by omega
        have hdvd : caseSize i.opcode ∣ 1 :=
          (Nat.dvd_add_right (Nat.dvd_mul_left _ _)).mp (hmul ▸ Nat.dvd_mul_left _ _)
        have := Nat.le_of_dvd (by omega) hdvd
        omega
  · rintro ⟨rfl, hlt⟩
    obtain ⟨hnum, hop⟩ := switch_num_lt hsw
    have hpos : 0 < (textOf [i]).length := by omega
    have hmul : i.ncase * caseSize i.opcode < 256 * (i.ncase % 256) * caseSize i.opcode :=
      Nat.mul_lt_mul_of_pos_right hlt (by omega)
    have hend : (textOf [i]).length ≤ 0 + 1 + (8 + 256 * (i.ncase % 256) * caseSize i.opcode) := by
      rw [hlen]
      simp [textOf]
      omega
    unfold disassembleText
    rw [show (textOf [i]).length = (textOf [i]).length - 1 + 1 by omega]
    simp only [disassembleFrom, Nat.sub_add_cancel hpos, if_pos hpos, text_zero htext,
      Nat.mod_eq_of_lt hnum, hop, Option.bind_eq_bind, Option.bind_some, Nat.zero_add, hword,
      ciOperandSize_switch hsw]
    rw [Nat.zero_add] at hend
    simp [disassembleFrom_end hend, startsOf]

end

/-- The walk over a text that consists of instructions. -/
theorem walk_inStep_iff (is : List Instr) (text : Nat → BitVec 8)
    (htext : ∀ a < (textOf is).length, some (text a) = (textOf is)[a]?) :
    disassembleText text (textOf is).length = some (startsOf 0 is) ↔ EndsTheWalk is := by
  cases is with
  | nil => simp [disassembleText, disassembleFrom, textOf, startsOf, EndsTheWalk]
  | cons i is =>
    by_cases hsw : isSwitch i.opcode = true
    · rw [switch_inStep_iff htext hsw]
      simp [EndsTheWalk, hsw, and_comm]
    · rw [Bool.not_eq_true] at hsw
      simp [not_inStep_of_not_switch htext hsw, EndsTheWalk, hsw]

/-! ## The law -/

section
variable {tx : Text} {is : List Instr}

theorem segment_eq (h : Spells tx is) (beyond : Nat → BitVec 8) :
    ∀ a < (textOf is).length, some (segment tx beyond a) = (textOf is)[a]? := by
  intro a ha
  simp [segment, h.text, ha]

theorem inStep_iff (h : Spells tx is) (beyond : Nat → BitVec 8) :
    InStep tx beyond ↔ EndsTheWalk is := by
  rw [← walk_inStep_iff is (segment tx beyond) (segment_eq h beyond)]
  unfold InStep
  rw [h.starts, ← h.text]

/-- Each call of an emitter adds an instruction at least. -/
theorem emitAll_spells (h : Spells tx is) (es : List (Word × Emission)) :
    ∃ js, Spells (emitAll tx es) (is ++ js) ∧ es.length ≤ js.length := by
  induction es generalizing tx is with
  | nil => exact ⟨[], by simpa [emitAll] using h, le_refl 0⟩
  | cons e es ih =>
    obtain ⟨checks, he, -⟩ := emit_spells (h.adjustSp e.1) e.2
    obtain ⟨js, hjs, hlen⟩ := ih he
    refine ⟨checks ++ [e.2.instr (adjustSp tx e.1)] ++ js, ?_, ?_⟩
    · simpa [emitAll] using hjs
    · simp
      omega

theorem not_endsTheWalk_of_length (h : 2 ≤ is.length) : ¬ EndsTheWalk is := by
  rintro (rfl | ⟨i, rfl, -⟩)
  · simp at h
  · simp at h

/-- One call keeps the walk in step when it emits a switch that the walk does not come back
from, and no check before it. -/
theorem endsTheWalk_emit (checks : List Instr) (e : Emission) :
    EndsTheWalk (checks ++ [e.instr tx]) ↔ checks = [] ∧ PastTheEnd e := by
  have hsw := e.isSwitch_iff tx
  constructor
  · rintro (h | ⟨i, hi, hswitch, hlt⟩)
    · simp at h
    · cases checks with
      | nil =>
        obtain rfl : e.instr tx = i := by simpa using hi
        refine ⟨rfl, e.cases.getD 0, ?_, hlt⟩
        change isSwitch (e.opcodeOf tx) = true at hswitch
        rw [hsw, Option.isSome_iff_exists] at hswitch
        obtain ⟨n, hn⟩ := hswitch
        simp [hn]
      | cons check checks => simp at hi
  · rintro ⟨rfl, n, hn, hlt⟩
    refine .inr ⟨e.instr tx, rfl, ?_, ?_⟩
    · change isSwitch (e.opcodeOf tx) = true
      simp [hsw, hn]
    · simpa [Emission.instr, hn] using hlt

theorem uncheckedSp_of_pastTheEnd {e : Emission} (h : PastTheEnd e) :
    uncheckedSp (e.opcodeOf tx) = false := by
  obtain ⟨n, hn, -⟩ := h
  cases e with
  | switchOnTable | switchOnChain => rfl
  | _ => cases hn

end

/-- The disassembler loses its step at the second instruction, and at the end of the first: it
keeps it only over a text that is empty, or that is one switch with a number of cases that takes
the walk past its end. -/
theorem the_disassembler_keeps_step_with_one_switch_at_most (checksp : Bool)
    (es : List (Word × Emission)) (beyond : Nat → BitVec 8) :
    InStep (emitAll (emptyText checksp) es) beyond ↔ AtMostASwitch checksp es := by
  match es with
  | [] =>
    refine (inStep_iff (spells_emptyText checksp) beyond).trans ?_
    simp [EndsTheWalk, AtMostASwitch]
  | [(n, e)] =>
    obtain ⟨checks, hspells, hchecks⟩ := emit_spells ((spells_emptyText checksp).adjustSp n) e
    refine (inStep_iff hspells beyond).trans ?_
    rw [List.nil_append, endsTheWalk_emit, hchecks]
    constructor
    · rintro ⟨hc, he⟩
      rw [uncheckedSp_of_pastTheEnd he] at hc
      exact .inr ⟨by simpa [adjustSp, emptyText] using hc, n, e, rfl, he⟩
    · rintro (h | ⟨hc, n', e', h, he⟩)
      · cases h
      · cases h
        exact ⟨.inl hc, he⟩
  | e :: e' :: es =>
    obtain ⟨js, hspells, hlen⟩ := emitAll_spells (spells_emptyText checksp) (e :: e' :: es)
    rw [inStep_iff hspells]
    refine iff_of_false (not_endsTheWalk_of_length ?_) ?_
    · simp at hlen ⊢
      omega
    · rintro (h | ⟨-, n, e'', h, -⟩)
      · cases h
      · cases h

set_option maxRecDepth 8000 in
/-- Behind the trap that every text begins with, the walk takes the high byte of the opcode for a
call. -/
theorem a_trap_and_a_return_are_not_in_step :
    ¬ ∀ checksp es beyond, InStep (emitAll (emptyText checksp) es) beyond := by
  intro h
  have hstep := h false [(0#64, .opcode .OC_TRAP rfl), (0#64, .opcode .OC_RET rfl)] fun _ => 0#8
  unfold InStep at hstep
  exact absurd hstep (by decide)

end ups_rules.disassemble
