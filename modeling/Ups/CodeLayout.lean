-- The text that an expression is compiled to, seen from an address in the memory: what is executed
-- there, and where the jumps in it lead.
import Ups.CompileExpr

open le_bytes
open ups_rules.machine
open ups_rules.opcodes
open ups_rules.code_text
open ups_rules.compile_expr

namespace ups_rules.code_layout

/-! ## The pure model -/

/-- What is still to be executed. -/
inductive Code where
  | done
  | item (i : Item) (next : Code)
  | jumpIf (j : Jump) (taken fall : Code)
  | jump (target : Code)

/-- The code of a block and what comes behind it. -/
def followedBy : Asm → Code → Code
  | .nil, k => k
  | .item i, k => .item i k
  | .seq a b, k => followedBy a (followedBy b k)
  | .cond a b, k => .jumpIf .JUMP_IF_ZERO (followedBy b k) (followedBy a (.jump k))
  | .shortcut j a, k => .jumpIf j k (followedBy a k)

/-- The bytes are in the memory. -/
def Holds (text : Mem 64) (a : Word) (bs : List (BitVec 8)) : Prop :=
  readBytes text a bs.length = bs

/-- A check of the stack pointer, which the compiler may put before any instruction. -/
def IsCheck (i : Instr) : Prop := ∃ s, i.opcode = .OC_CHECK_SP s

def jumpBytes (j : Jump) (offset : BitVec 16) : List (BitVec 8) :=
  leBytes 2 j.opcode.num ++ leBytes 2 offset.toNat

/-- Where a jump at the address leads. -/
def jumpTarget (a : Word) (offset : BitVec 16) : Word := a + 2#64 + BitVec.ofInt 64 offset.toInt

/-- The text has the code at the address. -/
inductive At (text : Mem 64) : Word → Code → Prop where
  | done (a : Word) : At text a .done
  | check {a : Word} {c : Code} (i : Instr) (hi : IsCheck i) (h : Holds text a i.bytes)
    (hnext : At text (a + BitVec.ofNat 64 i.bytes.length) c) : At text a c
  | item {a : Word} {i : Item} {e : Emission} {k : Code} (tx : Text) (hi : i.emission = some e)
    (h : Holds text a (e.instr tx).bytes)
    (hnext : At text (a + BitVec.ofNat 64 (e.instr tx).bytes.length) k) : At text a (.item i k)
  | conversion {a : Word} {i : Item} {k : Code} (hi : i.emission = none) (hnext : At text a k) :
    At text a (.item i k)
  | jumpIf {a : Word} {j : Jump} {taken fall : Code} (offset : BitVec 16)
    (h : Holds text a (jumpBytes j offset)) (htaken : At text (jumpTarget a offset) taken)
    (hfall : At text (a + 4#64) fall) : At text a (.jumpIf j taken fall)
  | jump {a : Word} {target : Code} (offset : BitVec 16)
    (h : Holds text a (jumpBytes .JUMP offset)) (hnext : At text (jumpTarget a offset) target) :
    At text a (.jump target)

/-! ## Bytes in the memory -/

section
variable {text : Mem 64} {a : Word}

theorem holds_append {xs ys : List (BitVec 8)} :
    Holds text a (xs ++ ys) ↔ Holds text a xs ∧ Holds text (a + BitVec.ofNat 64 xs.length) ys := by
  unfold Holds
  rw [List.length_append, readBytes_add]
  constructor
  · intro h
    exact List.append_inj h (by simp)
  · rintro ⟨hx, hy⟩
    rw [hx, hy]

theorem add_length (xs ys : List (BitVec 8)) :
    a + BitVec.ofNat 64 xs.length + BitVec.ofNat 64 ys.length =
      a + BitVec.ofNat 64 (xs ++ ys).length := by
  rw [List.length_append, BitVec.ofNat_add, BitVec.add_assoc]

/-- Checks before the code. -/
theorem at_checks {checks : List Instr} (hchecks : ∀ i ∈ checks, IsCheck i) {c : Code}
    (h : Holds text a (textOf checks))
    (hnext : At text (a + BitVec.ofNat 64 (textOf checks).length) c) : At text a c := by
  induction checks generalizing a with
  | nil => simpa [textOf] using hnext
  | cons i is ih =>
    have hsplit : textOf (i :: is) = i.bytes ++ textOf is := by simp [textOf]
    rw [hsplit] at h hnext
    obtain ⟨hi, his⟩ := holds_append.mp h
    refine .check i (hchecks i (by simp)) hi (ih (fun j hj => hchecks j (by simp [hj])) his ?_)
    rwa [add_length]

end

/-! ## What is emitted -/

section
variable {tx tx' : Text}

theorem length_jumpBytes (j : Jump) (offset : BitVec 16) : (jumpBytes j offset).length = 4 := by
  simp [jumpBytes]

theorem ciCodeOpcode_text (tx : Text) (op : Opcode) :
    ∃ checks, (∀ i ∈ checks, IsCheck i) ∧
      (ciCodeOpcode tx op).tx_text = tx.tx_text ++ textOf checks ++ leBytes 2 op.num := by
  unfold ciCodeOpcode
  split
  · let check : Instr := {
      opcode := .OC_CHECK_SP (formFor tx.tx_sp)
      operands := leBytes (formFor tx.tx_sp).nbytes tx.tx_sp.toNat
      ncase := 0
      size := by simp [next_pc.ciOperandSize]
      count := by simp [isSwitch] }
    refine ⟨[check], by simp [IsCheck, check], ?_⟩
    rw [(begins_codeOpcode _ op).text]
    unfold codeCheckSp
    rw [(adds_operand _ _ _).text, (begins_codeOpcode tx _).text]
    simp [textOf, Instr.bytes, check]
  · exact ⟨[], by simp, by simp [textOf, (begins_codeOpcode tx op).text]⟩

theorem emit_text (tx : Text) (e : Emission) :
    ∃ checks, (∀ i ∈ checks, IsCheck i) ∧
      (emit tx e).tx_text = tx.tx_text ++ textOf checks ++ (e.instr tx).bytes := by
  obtain ⟨checks, hchecks, htext⟩ := ciCodeOpcode_text tx (e.opcodeOf tx)
  refine ⟨checks, hchecks, ?_⟩
  rw [(e.adds_operands tx).text, htext]
  simp [Instr.bytes, Emission.instr]

/-- A jump is coded with a placeholder for its offset at the end. -/
theorem ciCodeJumpToLabel_text (tx : Text) (j : Jump) :
    ∃ checks, (∀ i ∈ checks, IsCheck i) ∧
      (ciCodeJumpToLabel tx j).1.tx_text =
        tx.tx_text ++ textOf checks ++ leBytes 2 j.opcode.num ++ leBytes 2 0 ∧
      (ciCodeJumpToLabel tx j).2 =
        (tx.tx_text ++ textOf checks ++ leBytes 2 j.opcode.num).length := by
  obtain ⟨checks, hchecks, htext⟩ := emit_text tx (.jump j 0#64)
  have hbytes : ((Emission.jump j 0#64).instr tx).bytes =
      leBytes 2 j.opcode.num ++ leBytes 2 0 := rfl
  rw [hbytes, ← List.append_assoc] at htext
  refine ⟨checks, hchecks, htext, ?_⟩
  unfold ciCodeJumpToLabel
  dsimp only
  rw [htext]
  simp
  omega

theorem patchWord_append (xs ys : List (BitVec 8)) (v : Nat) (word : BitVec 16) :
    patchWord (xs ++ leBytes 2 v ++ ys) xs.length word = xs ++ leBytes 2 word.toNat ++ ys := by
  unfold patchWord
  have hdrop : (xs ++ leBytes 2 v ++ ys).drop (xs.length + 2) = ys := by
    rw [List.drop_append_of_le_length (by simp), List.drop_eq_nil_of_le (by simp), List.nil_append]
  rw [hdrop, List.append_assoc xs, List.take_left']
  rfl

/-- A label is resolved to the end of the text. -/
theorem ciResolveAndFreeLabel_text {xs ys : List (BitVec 8)} {v : Nat}
    (htext : tx.tx_text = xs ++ leBytes 2 v ++ ys)
    (h : ciResolveAndFreeLabel tx xs.length = some tx') :
    ∃ offset : BitVec 16, offset.toInt = 2 + ys.length ∧
      tx'.tx_text = xs ++ leBytes 2 offset.toNat ++ ys := by
  unfold ciResolveAndFreeLabel at h
  dsimp only at h
  split at h
  case isTrue => cases h
  case isFalse hfits =>
    cases h
    rw [not_not] at hfits
    refine ⟨_, hfits.trans ?_, ?_⟩
    · rw [htext]
      simp
    · dsimp only
      rw [htext, patchWord_append]

end

/-! ## The layout of a block -/

/-- A block is at every address that has its bytes, if what follows it is behind them. -/
def LaidOut (asm : Asm) (bs : List (BitVec 8)) : Prop :=
  ∀ text a k, Holds text a bs → At text (a + BitVec.ofNat 64 bs.length) k →
    At text a (followedBy asm k)

section
variable {text : Mem 64} {a : Word}

theorem jumpTarget_eq {offset : BitVec 16} {n : Nat} (h : offset.toInt = 2 + n) :
    jumpTarget a offset = a + 4#64 + BitVec.ofNat 64 n := by
  have hofInt : BitVec.ofInt 64 (2 + n) = 2#64 + BitVec.ofNat 64 n := by
    rw [BitVec.ofInt_add, BitVec.ofInt_natCast]
    rfl
  unfold jumpTarget
  rw [h, hofInt]
  bv_omega

theorem laidOut_item {i : Item} {e : Emission} (hi : i.emission = some e) (tx : Text)
    {checks : List Instr} (hchecks : ∀ c ∈ checks, IsCheck c) :
    LaidOut (.item i) (textOf checks ++ (e.instr tx).bytes) := by
  intro text a k hholds hnext
  obtain ⟨hc, he⟩ := holds_append.mp hholds
  refine at_checks hchecks hc (.item tx hi he ?_)
  rwa [add_length]

theorem laidOut_shortcut {asm : Asm} {bs : List (BitVec 8)} (h : LaidOut asm bs) (j : Jump)
    {offset : BitVec 16} (hoffset : offset.toInt = 2 + bs.length)
    {checks : List Instr} (hchecks : ∀ c ∈ checks, IsCheck c) :
    LaidOut (.shortcut j asm) (textOf checks ++ jumpBytes j offset ++ bs) := by
  intro text a k hholds hnext
  rw [List.append_assoc] at hholds hnext
  obtain ⟨hc, hrest⟩ := holds_append.mp hholds
  obtain ⟨hj, hbs⟩ := holds_append.mp hrest
  rw [length_jumpBytes] at hbs
  rw [← add_length, ← add_length, length_jumpBytes] at hnext
  refine at_checks hchecks hc (.jumpIf offset hj ?_ (h text _ k hbs hnext))
  rwa [jumpTarget_eq hoffset]

theorem laidOut_cond {asm asm' : Asm} {bs bs' : List (BitVec 8)} (h : LaidOut asm bs)
    (h' : LaidOut asm' bs') (offset offset' : BitVec 16) {checks checks' : List Instr}
    (hchecks : ∀ c ∈ checks, IsCheck c) (hchecks' : ∀ c ∈ checks', IsCheck c)
    (hoffset : offset.toInt =
      2 + ((bs ++ textOf checks' ++ jumpBytes .JUMP offset').length : Nat))
    (hoffset' : offset'.toInt = 2 + bs'.length) :
    LaidOut (.cond asm asm') (textOf checks ++ (jumpBytes .JUMP_IF_ZERO offset ++
      (bs ++ (textOf checks' ++ (jumpBytes .JUMP offset' ++ bs'))))) := by
  intro text a k hholds hnext
  obtain ⟨hc, hrest⟩ := holds_append.mp hholds
  obtain ⟨hj, hrest⟩ := holds_append.mp hrest
  obtain ⟨hbs, hrest⟩ := holds_append.mp hrest
  obtain ⟨hc', hrest⟩ := holds_append.mp hrest
  obtain ⟨hj', hbs'⟩ := holds_append.mp hrest
  simp only [← add_length, length_jumpBytes] at hnext
  rw [length_jumpBytes] at hbs hc' hj' hbs'
  rw [length_jumpBytes] at hbs'
  have hend := h' text _ k hbs' hnext
  have htarget : jumpTarget (a + BitVec.ofNat 64 (textOf checks).length) offset =
      a + BitVec.ofNat 64 (textOf checks).length + BitVec.ofNat 64 4 +
        BitVec.ofNat 64 bs.length + BitVec.ofNat 64 (textOf checks').length +
        BitVec.ofNat 64 4 := by
    rw [jumpTarget_eq hoffset, ← add_length, ← add_length, length_jumpBytes]
  refine at_checks hchecks hc (.jumpIf offset hj ?_ (h text _ _ hbs ?_))
  · rwa [htarget]
  · refine at_checks hchecks' hc' (.jump offset' hj' ?_)
    rwa [jumpTarget_eq hoffset']

/-- The text that a block is emitted to is laid out as the block. -/
theorem emit_laidOut {asm : Asm} {tx tx' : Text} (h : asm.emit tx = some tx') :
    ∃ bs, tx'.tx_text = tx.tx_text ++ bs ∧ LaidOut asm bs := by
  induction asm generalizing tx tx' with
  | nil =>
    cases h
    refine ⟨[], by simp, ?_⟩
    intro text a k _ hnext
    simpa [followedBy] using hnext
  | item i =>
    unfold Asm.emit at h
    split at h
    case h_1 hi =>
      cases h
      refine ⟨[], by simp, ?_⟩
      intro text a k _ hnext
      exact .conversion hi (by simpa using hnext)
    case h_2 e hi =>
      cases h
      obtain ⟨checks, hchecks, htext⟩ := emit_text tx e
      refine ⟨_, ?_, laidOut_item hi tx hchecks⟩
      rw [← List.append_assoc, ← htext]
      rfl
  | seq a b iha ihb =>
    obtain ⟨tx₁, ha, hb⟩ := Option.bind_eq_some_iff.mp h
    obtain ⟨bs, htext, hlaid⟩ := iha ha
    obtain ⟨bs', htext', hlaid'⟩ := ihb hb
    refine ⟨bs ++ bs', by rw [htext', htext, List.append_assoc], ?_⟩
    intro text a k hholds hnext
    obtain ⟨hbs, hbs'⟩ := holds_append.mp hholds
    rw [← add_length] at hnext
    exact hlaid text a _ hbs (hlaid' text _ k hbs' hnext)
  | shortcut j a ih =>
    simp only [Asm.emit, Option.bind_eq_bind, Option.bind_eq_some_iff] at h
    obtain ⟨tx₁, ha, hres⟩ := h
    obtain ⟨checks, hchecks, htext, hloc⟩ := ciCodeJumpToLabel_text tx j
    obtain ⟨bs, htext₁, hlaid⟩ := ih ha
    rw [htext] at htext₁
    rw [hloc] at hres
    obtain ⟨offset, hoffset, htext'⟩ := ciResolveAndFreeLabel_text htext₁ hres
    refine ⟨_, ?_, laidOut_shortcut hlaid j hoffset hchecks⟩
    rw [htext']
    simp [jumpBytes]
  | cond a b iha ihb =>
    simp only [Asm.emit, Option.bind_eq_bind, Option.bind_eq_some_iff] at h
    obtain ⟨tx₁, ha, tx₂, hres, tx₃, hb, hres'⟩ := h
    obtain ⟨checks, hchecks, htext, hloc⟩ := ciCodeJumpToLabel_text tx .JUMP_IF_ZERO
    obtain ⟨bs, htext₁, hlaid⟩ := iha ha
    obtain ⟨checks', hchecks', htext₂, hloc'⟩ := ciCodeJumpToLabel_text tx₁ .JUMP
    obtain ⟨bs', htext₃, hlaid'⟩ := ihb hb
    rw [htext] at htext₁
    rw [hloc] at hres
    have hbefore : (ciCodeJumpToLabel tx₁ .JUMP).1.tx_text =
        tx.tx_text ++ textOf checks ++ leBytes 2 Jump.JUMP_IF_ZERO.opcode.num ++ leBytes 2 0 ++
          (bs ++ textOf checks' ++ leBytes 2 Jump.JUMP.opcode.num ++ leBytes 2 0) := by
      rw [htext₂, htext₁]
      simp
    obtain ⟨offset, hoffset, htext'⟩ := ciResolveAndFreeLabel_text (by exact hbefore) hres
    -- The second label is referred to behind the first offset, which is resolved by now.
    have hafter : tx₃.tx_text =
        tx.tx_text ++ textOf checks ++ jumpBytes .JUMP_IF_ZERO offset ++ bs ++ textOf checks' ++
          leBytes 2 Jump.JUMP.opcode.num ++ leBytes 2 0 ++ bs' := by
      rw [htext₃, htext']
      simp [jumpBytes]
    have hlen : (ciCodeJumpToLabel tx₁ .JUMP).2 =
        (tx.tx_text ++ textOf checks ++ jumpBytes .JUMP_IF_ZERO offset ++ bs ++ textOf checks' ++
          leBytes 2 Jump.JUMP.opcode.num).length := by
      rw [hloc', htext₁]
      simp [jumpBytes]
    rw [hlen] at hres'
    obtain ⟨offset', hoffset', htext''⟩ := ciResolveAndFreeLabel_text hafter hres'
    refine ⟨_, ?_, laidOut_cond hlaid hlaid' offset offset' hchecks hchecks' ?_ hoffset'⟩
    · rw [htext'']
      simp [jumpBytes]
    · rw [hoffset]
      simp [jumpBytes]

end

end ups_rules.code_layout
