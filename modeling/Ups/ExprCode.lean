-- The machine executes the text that the block of an expression is emitted to as the block runs on
-- a stack of words: below the frame, in the space that the compiler counts in tx_max_sp.
import Ups.ExprBlocks
import Ups.StackWords

open le_bytes
open ups_rules.machine
open ups_rules.opcodes
open ups_rules.execute
open ups_rules.next_pc
open ups_rules.proc_opcodes
open ups_rules.code_text
open ups_rules.local_stores
open ups_rules.exprs
open ups_rules.compile_expr
open ups_rules.code_layout
open ups_rules.callbacks
open ups_rules.stack_words
open ups_rules.operand_forms
open ups_rules.expr_meaning
open ups_rules.expr_blocks

namespace ups_rules.expr_code

/-! ## What the emitters count -/

/-- Nothing but bytes is added to the text. -/
structure SameSp (tx tx' : Text) : Prop where
  sp : tx'.tx_sp = tx.tx_sp
  max : tx'.tx_max_sp = tx.tx_max_sp
  checksp : tx'.tx_checksp = tx.tx_checksp

theorem SameSp.refl (tx : Text) : SameSp tx tx := ⟨rfl, rfl, rfl⟩

theorem SameSp.trans {tx tx' tx'' : Text} (h : SameSp tx tx') (h' : SameSp tx' tx'') :
    SameSp tx tx'' :=
  ⟨h'.sp.trans h.sp, h'.max.trans h.max, h'.checksp.trans h.checksp⟩

theorem sameSp_byte (tx : Text) (b : BitVec 8) : SameSp tx (ciCodeByte tx b) := ⟨rfl, rfl, rfl⟩

theorem sameSp_word (tx : Text) (v : Word) : SameSp tx (ciCodeWord tx v) := ⟨rfl, rfl, rfl⟩

theorem sameSp_long (tx : Text) (v : Word) : SameSp tx (ciCodeLong tx v) := ⟨rfl, rfl, rfl⟩

theorem sameSp_operand (tx : Text) (s : OpSize) (v : Word) : SameSp tx (codeOperand tx s v) := by
  cases s <;> exact ⟨rfl, rfl, rfl⟩

theorem sameSp_foldl {α : Type} {f : Text → α → Text} (hf : ∀ tx x, SameSp tx (f tx x))
    (xs : List α) (tx : Text) : SameSp tx (xs.foldl f tx) := by
  induction xs generalizing tx with
  | nil => exact SameSp.refl tx
  | cons x xs ih => exact (hf tx x).trans (ih (f tx x))

/-- The stack pointer is counted with the opcode. -/
theorem sameSp_emit (tx : Text) (e : Emission) :
    SameSp (ciCodeOpcode tx (e.opcodeOf tx)) (emit tx e) := by
  cases e with
  | opcode op h => exact SameSp.refl _
  | generic g arg => exact sameSp_operand _ _ _
  | long o l => exact sameSp_long _ _
  | call func_index nargs typecode =>
    exact ((sameSp_operand _ _ _).trans (sameSp_byte _ _)).trans (sameSp_byte _ _)
  | callIndirect nargs typecode => exact (sameSp_byte _ _).trans (sameSp_byte _ _)
  | link used => exact (sameSp_operand _ _ _).trans (sameSp_long _ _)
  | jump j offset => exact sameSp_word _ _
  | switchOnTable minval offsets dflt =>
    exact (((sameSp_word _ _).trans (sameSp_long _ _)).trans (sameSp_foldl sameSp_word _ _)).trans
      (sameSp_word _ _)
  | switchOnChain s minval cases dflt =>
    have hcase : ∀ tx c, SameSp tx (codeCase s tx c) := fun tx c =>
      (sameSp_operand _ _ _).trans (sameSp_word _ _)
    exact (((sameSp_word _ _).trans (sameSp_long _ _)).trans (sameSp_foldl hcase _ _)).trans
      (sameSp_word _ _)
  | floatConst f => exact sameSp_foldl sameSp_byte _ _
  | doubleConst d => exact sameSp_foldl sameSp_byte _ _
  | bitfield b offset width => exact (sameSp_byte _ _).trans (sameSp_byte _ _)

/-- A check of the stack pointer, if there is to be one. -/
def checkBytes (tx : Text) : List (BitVec 8) :=
  if tx.tx_checksp then
    leBytes 2 (Opcode.OC_CHECK_SP (formFor tx.tx_sp)).num ++
      leBytes (formFor tx.tx_sp).nbytes tx.tx_sp.toNat
  else []

/-- The text grows, and the compiler counts the words that are pushed and the space they need. -/
structure Emits (tx tx' : Text) (bs : List (BitVec 8)) (n : Int) : Prop where
  text : tx'.tx_text = tx.tx_text ++ bs
  checksp : tx'.tx_checksp = tx.tx_checksp
  sp : tx'.tx_sp = tx.tx_sp + BitVec.ofInt 64 (8 * n)
  max : tx.tx_max_sp ≤ tx'.tx_max_sp

section
variable {tx tx' tx'' : Text} {bs bs' : List (BitVec 8)} {n n' : Int}

theorem Emits.refl (tx : Text) : Emits tx tx [] 0 := by
  refine ⟨by simp, rfl, ?_, BitVec.le_refl _⟩
  exact (BitVec.add_zero _).symm

theorem Emits.trans (h : Emits tx tx' bs n) (h' : Emits tx' tx'' bs' n') :
    Emits tx tx'' (bs ++ bs') (n + n') := by
  refine ⟨?_, h'.checksp.trans h.checksp, ?_, BitVec.le_trans h.max h'.max⟩
  · rw [h'.text, h.text, List.append_assoc]
  · rw [h'.sp, h.sp, Int.mul_add, BitVec.ofInt_add, BitVec.add_assoc]

theorem emits_codeOpcode {op : Opcode} (hn : stackEffect op = 8 * n) :
    Emits tx (codeOpcode tx op) (leBytes 2 op.num) n := by
  refine ⟨(begins_codeOpcode tx op).text, rfl, ?_, ?_⟩
  · rw [← hn]
    rfl
  · change tx.tx_max_sp ≤ if _ then _ else _
    split
    case isTrue hlt => exact BitVec.le_of_lt hlt
    case isFalse => exact BitVec.le_refl _

theorem codeOpcode_le_max {op : Opcode} (hop : tmpspace op = 0#64) :
    (codeOpcode tx op).tx_sp ≤ (codeOpcode tx op).tx_max_sp := by
  have hhigh : tx.tx_sp + BitVec.ofInt 64 (stackEffect op) + tmpspace op =
      tx.tx_sp + BitVec.ofInt 64 (stackEffect op) := by rw [hop, BitVec.add_zero]
  change tx.tx_sp + BitVec.ofInt 64 (stackEffect op) ≤ if _ then _ else _
  rw [hhigh]
  split
  case isTrue => exact BitVec.le_refl _
  case isFalse hle => exact BitVec.not_lt.1 hle

theorem Emits.sameSp (h : Emits tx tx' bs n) (hsame : SameSp tx' tx'')
    (htext : tx''.tx_text = tx'.tx_text ++ bs') : Emits tx tx'' (bs ++ bs') n := by
  refine ⟨?_, hsame.checksp.trans h.checksp, hsame.sp.trans h.sp, ?_⟩
  · rw [htext, h.text, List.append_assoc]
  · rw [hsame.max]
    exact h.max

/-- What comes before the opcode. -/
theorem emits_check (tx : Text) {op : Opcode} (hop : uncheckedSp op = false) :
    Emits tx (if tx.tx_checksp && !uncheckedSp op then codeCheckSp tx else tx)
      (checkBytes tx) 0 := by
  unfold checkBytes
  rw [hop, Bool.not_false, Bool.and_true]
  split
  · exact (emits_codeOpcode rfl).sameSp (sameSp_operand _ _ _) (adds_operand _ _ _).text
  · exact Emits.refl tx

theorem emits_opcode {op : Opcode} (hop : uncheckedSp op = false) (hn : stackEffect op = 8 * n) :
    Emits tx (ciCodeOpcode tx op) (checkBytes tx ++ leBytes 2 op.num) n := by
  have h := (emits_check tx hop).trans (emits_codeOpcode hn)
  rwa [Int.zero_add] at h

/-- One call of an emitter. -/
theorem emits_emission (e : Emission) (hop : uncheckedSp (e.opcodeOf tx) = false)
    (hn : stackEffect (e.opcodeOf tx) = 8 * n) :
    Emits tx (emit tx e) (checkBytes tx ++ (e.instr tx).bytes) n := by
  have h := (emits_opcode hop hn).sameSp (sameSp_emit tx e) (e.adds_operands tx).text
  rwa [List.append_assoc] at h

theorem emission_le_max (e : Emission) (hop : tmpspace (e.opcodeOf tx) = 0#64) :
    (emit tx e).tx_sp ≤ (emit tx e).tx_max_sp := by
  rw [(sameSp_emit tx e).sp, (sameSp_emit tx e).max]
  exact codeOpcode_le_max hop

end

/-! ## What the compiler counts for an item -/

theorem loadNbytes_loadOf (t : Ty) : loadNbytes (loadOf t) = 8 := by
  cases t <;> rfl

theorem stackEffect_assign (t : Ty) : stackEffect (.OC_ASSIGN (cellOf t)) = 8 * (-2) := by
  cases t <;> rfl

theorem operatorToOpcode_counted (check_div : Bool) (op : ArithOp) (t : Ty) :
    uncheckedSp (operatorToOpcode check_div op t) = false ∧
      stackEffect (operatorToOpcode check_div op t) = 8 * (-1) ∧
      tmpspace (operatorToOpcode check_div op t) = 0#64 := by
  unfold operatorToOpcode
  cases op with
  | OP_MUL =>
    dsimp only
    split <;> exact ⟨rfl, rfl, rfl⟩
  | OP_DIV =>
    dsimp only
    split <;> split <;> exact ⟨rfl, rfl, rfl⟩
  | _ => exact ⟨rfl, rfl, rfl⟩

theorem relOpcode_counted (op : RelOp) (t : Ty) :
    uncheckedSp (relOpcode op t) = false ∧ stackEffect (relOpcode op t) = 8 * (-1) ∧
      tmpspace (relOpcode op t) = 0#64 := by
  unfold relOpcode
  cases op with
  | OP_IS_EQUAL | OP_NOT_EQUAL => exact ⟨rfl, rfl, rfl⟩
  | _ =>
    dsimp only
    split <;> exact ⟨rfl, rfl, rfl⟩

theorem item_opcode {i : Item} {e : Emission} (tx : Text) (hi : i.emission = some e) :
    uncheckedSp (e.opcodeOf tx) = false ∧
      ∃ n, stackEffect (e.opcodeOf tx) = 8 * n ∧
        BitVec.ofInt 64 (8 * n) + i.adjustment = BitVec.ofInt 64 (8 * itemEffect i) := by
  cases i with
  | constpush val s =>
    cases hi
    unfold ciCodeConstpush
    split <;> exact ⟨rfl, 1, rfl, rfl⟩
  | address addr n =>
    cases hi
    exact ⟨rfl, 1, rfl, rfl⟩
  | varAddress v =>
    cases hi
    cases v <;> exact ⟨rfl, 1, rfl, rfl⟩
  | localValue t va_addr | staticValue t va_addr =>
    cases hi
    exact ⟨rfl, 1, loadNbytes_loadOf t, rfl⟩
  | deref t at_ =>
    cases hi
    have heffect : loadNbytes (loadOf t) - 8 = 8 * 0 := by
      rw [loadNbytes_loadOf]
      rfl
    cases at_ <;> exact ⟨rfl, 0, heffect, rfl⟩
  | assign t want_value at_ =>
    cases hi
    cases want_value with
    | true => cases at_ <;> exact ⟨rfl, -1, rfl, rfl⟩
    | false => cases at_ <;> exact ⟨rfl, -2, stackEffect_assign t, rfl⟩
  | arith check_div op t is_value =>
    cases hi
    obtain ⟨hop, heffect, -⟩ := operatorToOpcode_counted check_div op t
    exact ⟨hop, -1, heffect, rfl⟩
  | shift op t u is_value =>
    cases hi
    cases op <;> exact ⟨rfl, -1, rfl, rfl⟩
  | relation op t =>
    cases hi
    obtain ⟨hop, heffect, -⟩ := relOpcode_counted op t
    exact ⟨hop, -1, heffect, rfl⟩
  | scale t =>
    cases hi
    obtain ⟨hop, heffect, -⟩ := operatorToOpcode_counted false .OP_MUL t
    exact ⟨hop, -1, heffect, rfl⟩
  | ptrOp op n | step op t size is_value =>
    cases hi
    cases op <;> exact ⟨rfl, -1, rfl, rfl⟩
  | unary op s t =>
    cases hi
    cases op <;> exact ⟨rfl, 0, rfl, rfl⟩
  | logicalNot | toBool | dupBackOne | call t is_void func_index nargs =>
    cases hi
    exact ⟨rfl, 0, rfl, rfl⟩
  | dup | reserveSlot | pushRetval t =>
    cases hi
    exact ⟨rfl, 1, rfl, rfl⟩
  | pop | callIndirect t is_void nargs =>
    cases hi
    exact ⟨rfl, -1, rfl, rfl⟩
  | popmany nargs =>
    cases hi
    refine ⟨rfl, 0, rfl, ?_⟩
    rw [Item.adjustment, itemEffect, ← BitVec.ofInt_natCast, ← BitVec.ofInt_neg, Int.mul_neg,
      Nat.cast_mul]
    exact BitVec.zero_add _
  | conversion s s' => cases hi

theorem emits_item {i : Item} {e : Emission} (tx : Text) (hi : i.emission = some e) :
    Emits tx (adjustSp (emit tx e) i.adjustment) (checkBytes tx ++ (e.instr tx).bytes)
      (itemEffect i) := by
  obtain ⟨hop, n, hn, hadjust⟩ := item_opcode tx hi
  have h := emits_emission e hop hn
  refine ⟨h.text, h.checksp, ?_, h.max⟩
  rw [← hadjust, ← BitVec.add_assoc, ← h.sp]
  rfl

theorem emits_jump (tx : Text) (j : Jump) {n : Int} (hn : stackEffect j.opcode = 8 * n) :
    Emits tx (ciCodeJumpToLabel tx j).1
      (checkBytes tx ++ (leBytes 2 j.opcode.num ++ leBytes 2 0)) n := by
  cases j <;> exact emits_emission (.jump _ 0#64) rfl hn

/-! ## The words on the stack of the machine -/

/-- The bytes below the words of the frame, down to the lowest that the code needs. The sizes are
those of the compiler, downwards from the frame pointer. -/
def Free (p : Place) (R S : Nat) (x : Word) : Prop :=
  p.fp.toNat ≤ x.toNat + R ∧ x.toNat + S < p.fp.toNat

/-- There is space for the code, and no variable of the program is in it. -/
structure Room (p : Place) (R S : Nat) : Prop where
  fits : R ≤ p.fp.toNat
  small : R < 2 ^ 31
  data : ∀ a n, p.data a n = true → ∀ j < n, ¬Free p R S (a + BitVec.ofNat 64 j)

/-- The words are the top ones on the stack of the machine, and the rest of the memory is what it is
to be. -/
structure Stands (p : Place) (R S : Nat) (s : AState) (m : Machine) : Prop where
  fp : m.fp = p.fp
  sp : m.sp.toNat + 8 * s.stack.length + S = p.fp.toNat
  space : S + 8 * s.stack.length ≤ R
  mem : ∀ x, ¬Free p R S x → m.mem x = s.mem x
  slots : ∀ i w, s.stack[i]? = some (some w) → m.slot i = w

/-- Nothing of the machine is changed but the memory, the stack pointer and the text pointer. -/
def Frame (m m' : Machine) : Prop := m' = { m with mem := m'.mem, sp := m'.sp, pc := m'.pc }

section
variable {p : Place} {R S i : Nat} {s : AState} {m : Machine} {mem : Mem 64}
  {st : List (Option Word)} {w : Word}

theorem toNat_slot (hs : Stands p R S s m) (hi : i ≤ s.stack.length) :
    (m.sp + words i).toNat = m.sp.toNat + 8 * i := by
  have hsp := hs.sp
  have hfp := p.fp.isLt
  unfold words
  rw [BitVec.toNat_add, BitVec.toNat_ofNat]
  omega

theorem Stands.length_lt (hroom : Room p R S) (hs : Stands p R S s m) :
    s.stack.length < 2 ^ 60 := by
  have hsp := hs.sp
  have hspace := hs.space
  have hsmall := hroom.small
  omega

theorem Stands.setSlot (hroom : Room p R S) (hs : Stands p R S s m) (hi : i < s.stack.length)
    (w : Word) : Stands p R S { s with stack := s.stack.set i (some w) } (m.setSlot i w) := by
  have hslot := toNat_slot hs hi.le
  have hsp := hs.sp
  have hspace := hs.space
  have hlen := hs.length_lt hroom
  refine ⟨hs.fp, ?_, ?_, fun x hx => ?_, fun j v hj => ?_⟩
  · rw [List.length_set]
    exact hsp
  · rw [List.length_set]
    exact hspace
  · rw [setSlot_mem, store_apply _ _ _ _ _ (Nat.le_refl 8), if_neg, hs.mem x hx]
    intro hlt
    rw [BitVec.toNat_sub, hslot] at hlt
    exact hx ⟨by omega, by omega⟩
  · rw [List.getElem?_set] at hj
    split at hj
    case isTrue hij =>
      subst hij
      cases hj
      exact setSlot_slot m w i
    case isFalse hij =>
      have hj' : j < s.stack.length := (List.getElem?_eq_some_iff.1 hj).1
      rw [setSlot_slot_of_ne m w hij (by omega) (by omega)]
      exact hs.slots j v hj

theorem Stands.reserve (hroom : Room p R S) (hs : Stands p R S s m)
    (hspace : S + 8 * (s.stack.length + 1) ≤ R) :
    Stands p R S { s with stack := none :: s.stack } (m.subSp 1) := by
  have hsp := hs.sp
  have hfits := hroom.fits
  have hlt := m.sp.isLt
  have hsub : (m.sp - words 1).toNat = m.sp.toNat - 8 := by
    unfold words
    rw [BitVec.toNat_sub, BitVec.toNat_ofNat]
    omega
  refine ⟨hs.fp, ?_, hspace, hs.mem, fun j v hj => ?_⟩
  · rw [subSp_sp, hsub, List.length_cons]
    omega
  · cases j with
    | zero => cases hj
    | succ j =>
      rw [Nat.add_comm, subSp_slot]
      exact hs.slots j v hj

theorem Stands.push (hroom : Room p R S) (hs : Stands p R S s m)
    (hspace : S + 8 * (s.stack.length + 1) ≤ R) (w : Word) :
    Stands p R S (s.push w) (m.push w) :=
  (hs.reserve hroom hspace).setSlot hroom (Nat.zero_lt_succ _) w

theorem Stands.pop {x : Option Word} (hs : Stands p R S ⟨mem, x :: st⟩ m) :
    Stands p R S ⟨mem, st⟩ (m.addSp 1) := by
  have hsp := hs.sp
  have hspace := hs.space
  rw [List.length_cons] at hsp hspace
  have hadd : (m.sp + words 1).toNat = m.sp.toNat + 8 := toNat_slot hs (by simp)
  refine ⟨hs.fp, ?_, ?_, hs.mem, fun j v hj => ?_⟩
  · rw [addSp_sp, hadd, ← hsp]
    dsimp only
    omega
  · dsimp only
    omega
  · rw [addSp_slot, Nat.add_comm]
    exact hs.slots (j + 1) v hj

theorem Stands.skip (hs : Stands p R S s m) (n : Nat) : Stands p R S s (m.skip n) :=
  ⟨hs.fp, hs.sp, hs.space, hs.mem, fun i w h => (skip_slot m n i).trans (hs.slots i w h)⟩

/-! ### Variables of the program -/

theorem Stands.store (hroom : Room p R S) (hs : Stands p R S s m) {a : Word} {n : Nat}
    (hdata : p.data a n = true) (hn : n ≤ 8) (v : Word) :
    Stands p R S { s with mem := machine.store s.mem a n v } (storeAt m a n v) := by
  have hsp := hs.sp
  have hspace := hs.space
  refine ⟨hs.fp, hsp, hspace, fun x hx => ?_, fun j w hj => ?_⟩
  · rw [storeAt_mem, store_apply _ _ _ _ _ hn, hs.mem x hx]
    exact (store_apply _ _ _ _ _ hn).symm
  · have hlen : j < s.stack.length := (List.getElem?_eq_some_iff.1 hj).1
    have hslot := toNat_slot hs hlen.le
    rw [storeAt_slot m a v fun i hi => ?_]
    · exact hs.slots j w hj
    · by_contra hlt
      refine hroom.data a n hdata _ (not_le.1 hlt) ?_
      have hfp := p.fp.isLt
      have hadd : (m.sp + words j + BitVec.ofNat 64 i).toNat = m.sp.toNat + 8 * j + i := by
        rw [BitVec.toNat_add, hslot, BitVec.toNat_ofNat]
        omega
      rw [BitVec.ofNat_toNat, BitVec.setWidth_eq, BitVec.add_comm, BitVec.sub_add_cancel, Free,
        hadd]
      exact ⟨by omega, by omega⟩

theorem load_eq {mem mem' : Mem 64} {a : Word} {n : Nat}
    (h : ∀ j < n, mem (a + BitVec.ofNat 64 j) = mem' (a + BitVec.ofNat 64 j)) :
    load mem a n = load mem' a n := by
  unfold load readBytes
  congr 1
  apply List.map_congr_left
  intro j hj
  exact h j (List.mem_range.1 hj)

theorem Stands.fetch (hroom : Room p R S) (hs : Stands p R S s m) {t : Ty} {a : Word}
    (hdata : p.data a (width t) = true) :
    execute.fetch (loadOf t) m.mem a = execute.fetch (loadOf t) s.mem a := by
  have hload : load m.mem a (width t) = load s.mem a (width t) :=
    load_eq fun j hj => hs.mem _ (hroom.data a _ hdata j hj)
  cases t with
  | TY_CHAR => exact congrArg (fun n => signedOf 1 (BitVec.ofNat 64 n)) hload
  | TY_SHORT => exact congrArg (fun n => signedOf 2 (BitVec.ofNat 64 n)) hload
  | TY_UCHAR | TY_USHORT | TY_INT | TY_UINT | DT_PTR_TO n => exact congrArg (BitVec.ofNat 64) hload

theorem width_le (t : Ty) : width t ≤ 8 := by
  cases t <;> exact Nat.le_of_ble_eq_true rfl

end

/-! ## What the machine does for an item -/

/-- The machine is behind the instruction and does what the item does to the words. -/
def Does (p : Place) (R S : Nat) (s' : AState) (m : Machine) (o : Outcome) : Prop :=
  ∃ m', o = .next m' ∧ Stands p R S s' m' ∧ m'.pc = m.pc ∧ Frame m m'

section
variable {env : Env} {p : Place} {R S : Nat} {s : AState} {m : Machine} {mem : Mem 64}
  {st : List (Option Word)} {w x y : Word}

theorem slot_zero_of (hs : Stands p R S ⟨mem, some w :: st⟩ m) : m.slot 0 = w := hs.slots 0 w rfl

theorem slot_one_of {z : Option Word} (hs : Stands p R S ⟨mem, z :: some w :: st⟩ m) :
    m.slot 1 = w := hs.slots 1 w rfl

theorem does_push (hroom : Room p R S) (hs : Stands p R S s m)
    (hspace : S + 8 * (s.stack.length + 1) ≤ R) (w : Word) :
    Does p R S (s.push w) m (.next (m.push w)) :=
  ⟨m.push w, rfl, hs.push hroom hspace w, rfl, rfl⟩

theorem does_unop (hroom : Room p R S) (hs : Stands p R S ⟨mem, some x :: st⟩ m)
    (f : Word → Word) : Does p R S ⟨mem, some (f x) :: st⟩ m (.next (m.unop f)) := by
  refine ⟨m.unop f, rfl, ?_, rfl, rfl⟩
  rw [Machine.unop, slot_zero_of hs]
  exact hs.setSlot hroom (Nat.zero_lt_succ _) (f x)

theorem does_binop (hroom : Room p R S) (hs : Stands p R S ⟨mem, some y :: some x :: st⟩ m)
    (f : Word → Word → Word) : Does p R S ⟨mem, some (f x y) :: st⟩ m (.next (m.binop f)) := by
  refine ⟨m.binop f, rfl, ?_, rfl, rfl⟩
  rw [Machine.binop, slot_zero_of hs, slot_one_of hs]
  exact (hs.setSlot hroom (Nat.succ_lt_succ (Nat.zero_lt_succ _)) (f x y)).pop

theorem does_arith (hroom : Room p R S) (hs : Stands p R S ⟨mem, some y :: some x :: st⟩ m)
    {op : ArithOp} {t : Ty} (check_div : Bool) (h : wordArith op t x y = some w) :
    Does p R S ⟨mem, some w :: st⟩ m (execOp env (operatorToOpcode check_div op t) m) := by
  cases op with
  | OP_PLUS | OP_MINUS | OP_BITWISE_AND | OP_BITWISE_XOR | OP_BITWISE_OR =>
    cases h
    exact does_binop hroom hs _
  | OP_MUL =>
    cases h
    unfold operatorToOpcode
    dsimp only
    split
    · exact does_binop hroom hs _
    · exact does_binop hroom hs _
  | OP_MOD =>
    unfold wordArith at h
    dsimp only at h
    split at h
    case isTrue => cases h
    case isFalse hne =>
      cases h
      unfold operatorToOpcode
      change Does p R S _ m (divUnsigned BitVec.umod m)
      rw [divUnsigned, slot_zero_of hs, if_neg hne]
      exact does_binop hroom hs _
  | OP_DIV =>
    unfold wordArith at h
    dsimp only at h
    split at h
    case isTrue => cases h
    case isFalse hne =>
      split at h
      case isTrue hsigned =>
        split at h
        case isTrue => cases h
        case isFalse hmin =>
          cases h
          have hdiv : Does p R S ⟨mem, some (x.sdiv y) :: st⟩ m (divSigned env .LONG m) := by
            unfold divSigned
            dsimp only
            rw [slot_zero_of hs, slot_one_of hs, if_neg (not_or.2 ⟨hne, hmin⟩)]
            exact does_binop hroom hs _
          cases check_div with
          | true =>
            rw [operatorToOpcode, if_pos rfl, if_pos hsigned]
            change Does p R S _ m (chkdivSigned env .LONG m)
            unfold chkdivSigned divisorIsZero
            dsimp only
            rw [slot_zero_of hs, if_neg (mt beq_iff_eq.1 hne)]
            exact hdiv
          | false =>
            rw [operatorToOpcode, if_neg Bool.false_ne_true, if_pos hsigned]
            exact hdiv
      case isFalse hunsigned =>
        cases h
        have hdiv : Does p R S ⟨mem, some (x.udiv y) :: st⟩ m (.next (m.binop BitVec.udiv)) :=
          does_binop hroom hs _
        cases check_div with
        | true =>
          rw [operatorToOpcode, if_pos rfl, if_neg hunsigned]
          change Does p R S _ m (chkdivUnsigned .LONG m)
          rw [chkdivUnsigned, slot_zero_of hs, if_neg hne]
          exact hdiv
        | false =>
          rw [operatorToOpcode, if_neg Bool.false_ne_true, if_neg hunsigned]
          change Does p R S _ m (divUnsigned BitVec.udiv m)
          rw [divUnsigned, slot_zero_of hs, if_neg hne]
          exact hdiv

theorem does_relation (hroom : Room p R S) (hs : Stands p R S ⟨mem, some y :: some x :: st⟩ m)
    (op : RelOp) (t : Ty) :
    Does p R S ⟨mem, some (wordRel op t x y) :: st⟩ m (execOp env (relOpcode op t) m) := by
  unfold wordRel
  cases op with
  | OP_IS_EQUAL | OP_NOT_EQUAL => exact does_binop hroom hs _
  | OP_LESS | OP_GREATER | OP_LESS_OR_EQUAL | OP_GREATER_OR_EQUAL =>
    unfold relOpcode
    dsimp only
    split
    · exact does_binop hroom hs _
    · exact does_binop hroom hs _

theorem addSp_addSp (m : Machine) (i j : Nat) : (m.addSp i).addSp j = m.addSp (i + j) := by
  unfold Machine.addSp
  rw [BitVec.add_assoc, ← words_add]

theorem does_assign (hroom : Room p R S) {a : Word} {t : Ty} {want_value : Bool} {mem' : Mem 64}
    (hs : Stands p R S ⟨mem, some w :: some a :: st⟩ m)
    (hstore : storeMeaning p t mem a w = some mem') :
    Does p R S ⟨mem', if want_value then some w :: st else st⟩ m
      (itemOutcome env m (.assign t want_value .AT_CI_ADDR)) := by
  unfold storeMeaning at hstore
  split at hstore
  case isFalse => cases hstore
  case isTrue hdata =>
    cases hstore
    have hstored := hs.store hroom hdata (width_le t) w
    cases want_value with
    | false =>
      refine ⟨assign (cellOf t) m, rfl, ?_, rfl, rfl⟩
      rw [assign, slot_zero_of hs, slot_one_of hs]
      have hpop := hstored.pop.pop
      rwa [addSp_addSp] at hpop
    | true =>
      -- the value is pushed again, or put in the slot of the address
      have hslots : assignAndPush (cellOf t) m =
          if cellPopsFirst (cellOf t) then ((storeAt m a (width t) w).addSp 2).push w
          else ((storeAt m a (width t) w).setSlot 1 w).addSp 1 := by
        have hvalue : (storeAt m a (cellWidth (cellOf t)) w).slot 0 = w := slot_zero_of hstored
        unfold assignAndPush
        dsimp only
        rw [slot_zero_of hs, slot_one_of hs, hvalue]
        rfl
      change Does p R S _ m (.next (assignAndPush (cellOf t) m))
      rw [hslots]
      by_cases hpop : cellPopsFirst (cellOf t) = true
      · have hspace : S + 8 * (st.length + 1) ≤ R :=
          le_trans (by simp only [List.length_cons]; omega) hs.space
        rw [if_pos hpop, ← addSp_addSp _ 1 1]
        exact ⟨_, rfl, hstored.pop.pop.push hroom hspace w, rfl, rfl⟩
      · rw [if_neg hpop]
        refine ⟨_, rfl, ?_, rfl, rfl⟩
        exact (hstored.setSlot hroom (Nat.succ_lt_succ (Nat.zero_lt_succ _)) w).pop

theorem readAt_eq {t : Ty} {a : Word} (h : readAt p t mem a = some w) :
    p.data a (width t) = true ∧ execute.fetch (loadOf t) mem a = w := by
  unfold readAt at h
  split at h
  case isTrue hdata => exact ⟨hdata, Option.some.inj h⟩
  case isFalse => cases h

theorem unop_some {f : Word → Option Word} {s' : AState} (h : s.unop f = some s') :
    ∃ mem x st w, s = ⟨mem, some x :: st⟩ ∧ f x = some w ∧ s' = ⟨mem, some w :: st⟩ := by
  unfold AState.unop at h
  split at h
  case h_1 mem x st =>
    obtain ⟨w, hw, rfl⟩ := Option.map_eq_some_iff.1 h
    exact ⟨mem, x, st, w, rfl, hw, rfl⟩
  case h_2 => cases h

theorem binop_some {f : Word → Word → Option Word} {s' : AState} (h : s.binop f = some s') :
    ∃ mem y x st w, s = ⟨mem, some y :: some x :: st⟩ ∧ f x y = some w ∧
      s' = ⟨mem, some w :: st⟩ := by
  unfold AState.binop at h
  split at h
  case h_1 mem y x st =>
    obtain ⟨w, hw, rfl⟩ := Option.map_eq_some_iff.1 h
    exact ⟨mem, y, x, st, w, rfl, hw, rfl⟩
  case h_2 => cases h

theorem assign_some {t : Ty} {want_value : Bool} {s' : AState}
    (h : s.assign p t want_value = some s') :
    ∃ mem w a st mem', s = ⟨mem, some w :: some a :: st⟩ ∧ storeMeaning p t mem a w = some mem' ∧
      s' = ⟨mem', if want_value then some w :: st else st⟩ := by
  unfold AState.assign at h
  split at h
  case h_1 mem w a st =>
    obtain ⟨mem', hmem, rfl⟩ := Option.map_eq_some_iff.1 h
    exact ⟨mem, w, a, st, mem', rfl, hmem, rfl⟩
  case h_2 => cases h

theorem dup_some {s' : AState} (h : s.dup = some s') :
    ∃ mem x st, s = ⟨mem, some x :: st⟩ ∧ s' = ⟨mem, some x :: some x :: st⟩ := by
  unfold AState.dup at h
  split at h
  case h_1 mem x st => exact ⟨mem, x, st, rfl, (Option.some.inj h).symm⟩
  case h_2 => cases h

theorem dupBackOne_some {s' : AState} (h : s.dupBackOne = some s') :
    ∃ mem w x z st, s = ⟨mem, some w :: x :: z :: st⟩ ∧ s' = ⟨mem, some w :: x :: some w :: st⟩ := by
  unfold AState.dupBackOne at h
  split at h
  case h_1 mem w x z st => exact ⟨mem, w, x, z, st, rfl, (Option.some.inj h).symm⟩
  case h_2 => cases h

theorem pop_some {s' : AState} (h : s.pop = some s') :
    ∃ mem x st, s = ⟨mem, x :: st⟩ ∧ s' = ⟨mem, st⟩ := by
  unfold AState.pop at h
  split at h
  case h_1 mem x st => exact ⟨mem, x, st, rfl, (Option.some.inj h).symm⟩
  case h_2 => cases h

theorem item_does (env : Env) (hroom : Room p R S) {i : Item} {s' : AState} (hs : Stands p R S s m)
    (h : run p i s = some s') (hspace : S + 8 * s'.stack.length ≤ R) {e : Emission}
    (he : i.emission = some e) : Does p R S s' m (itemOutcome env m i) := by
  cases i with
  | constpush val sl =>
    cases h
    exact does_push hroom hs hspace val
  | address addr n =>
    cases h
    exact does_push hroom hs hspace _
  | varAddress v =>
    obtain ⟨a, ha, rfl⟩ := Option.map_eq_some_iff.1 h
    cases v with
    | ciLocal va_addr =>
      cases ha
      rw [← hs.fp]
      exact does_push hroom hs hspace _
    | ciStatic addr =>
      cases ha
      exact does_push hroom hs hspace _
    | procLocal r va_addr | procStatic va_addr | procReg addr => cases ha
  | localValue t va_addr =>
    obtain ⟨w, hw, rfl⟩ := Option.map_eq_some_iff.1 h
    obtain ⟨hdata, hfetch⟩ := readAt_eq hw
    rw [← hs.fetch hroom hdata, ← hs.fp] at hfetch
    rw [← hfetch]
    exact does_push hroom hs hspace _
  | staticValue t addr =>
    obtain ⟨w, hw, rfl⟩ := Option.map_eq_some_iff.1 h
    obtain ⟨hdata, hfetch⟩ := readAt_eq hw
    rw [← hs.fetch hroom hdata] at hfetch
    rw [← hfetch]
    exact does_push hroom hs hspace _
  | deref t at_ =>
    cases at_ with
    | AT_PROC_ADDR => cases h
    | AT_CI_ADDR =>
      obtain ⟨mem, a, st, w, rfl, hw, rfl⟩ := unop_some h
      obtain ⟨hdata, hfetch⟩ := readAt_eq hw
      rw [← hs.fetch hroom hdata] at hfetch
      rw [← hfetch]
      refine ⟨deref (loadOf t) m, rfl, ?_, rfl, rfl⟩
      rw [deref, slot_zero_of hs]
      exact hs.setSlot hroom (Nat.zero_lt_succ _) _
  | assign t want_value at_ =>
    cases at_ with
    | AT_PROC_ADDR => cases h
    | AT_CI_ADDR =>
      obtain ⟨mem, w, a, st, mem', rfl, hstore, rfl⟩ := assign_some h
      exact does_assign hroom hs hstore
  | arith check_div op t is_value =>
    obtain ⟨mem, y, x, st, w, rfl, hw, rfl⟩ := binop_some h
    exact does_arith hroom hs check_div hw
  | shift op t u is_value =>
    obtain ⟨mem, y, x, st, w, rfl, hw, rfl⟩ := binop_some h
    cases hw
    cases op with
    | OP_LSHIFT | OP_RSHIFT => exact does_binop hroom hs _
  | relation op t =>
    obtain ⟨mem, y, x, st, w, rfl, hw, rfl⟩ := binop_some h
    cases hw
    exact does_relation hroom hs op t
  | scale t =>
    obtain ⟨mem, y, x, st, w, rfl, hw, rfl⟩ := binop_some h
    cases hw
    exact does_binop hroom hs _
  | ptrOp op n | step op t size is_value =>
    obtain ⟨mem, y, x, st, w, rfl, hw, rfl⟩ := binop_some h
    cases hw
    cases op with
    | OP_PLUS | OP_MINUS => exact does_binop hroom hs _
  | unary op t u =>
    obtain ⟨mem, x, st, w, rfl, hw, rfl⟩ := unop_some h
    cases hw
    cases op with
    | OP_UNARY_PLUS | OP_UNARY_MINUS | OP_BITWISE_NOT => exact does_unop hroom hs _
  | logicalNot | toBool =>
    obtain ⟨mem, x, st, w, rfl, hw, rfl⟩ := unop_some h
    cases hw
    exact does_unop hroom hs _
  | dup =>
    obtain ⟨mem, x, st, rfl, rfl⟩ := dup_some h
    rw [itemOutcome, slot_zero_of hs]
    exact does_push hroom hs hspace x
  | dupBackOne =>
    obtain ⟨mem, w, x, z, st, rfl, rfl⟩ := dupBackOne_some h
    refine ⟨m.setSlot 2 (m.slot 0), rfl, ?_, rfl, rfl⟩
    rw [slot_zero_of hs]
    exact hs.setSlot (i := 2) hroom (by simp) w
  | reserveSlot =>
    cases h
    exact ⟨m.subSp 1, rfl, hs.reserve hroom hspace, rfl, rfl⟩
  | pop =>
    obtain ⟨mem, x, st, rfl, rfl⟩ := pop_some h
    exact ⟨m.pop, rfl, hs.pop, rfl, rfl⟩
  | conversion sl sl' => cases he
  | popmany nargs | call t is_void func_index nargs | callIndirect t is_void nargs | pushRetval t =>
    cases h

/-! ## Instructions in the text -/

theorem step_opcode {tx : Text} {op : Opcode} {hop : ciOperandSize op 0 = some 0}
    (h : Holds m.text m.pc ((Emission.opcode op hop).instr tx).bytes) :
    step env m = execOp env op (m.skip ((Emission.opcode op hop).instr tx).bytes.length) :=
  (holds_instr h).1

theorem step_generic {tx : Text} {g : Generic} {arg : Word}
    (h : Holds m.text m.pc ((Emission.generic g arg).instr tx).bytes) :
    step env m = (Operation.generic g).perform env arg
      (m.skip ((Emission.generic g arg).instr tx).bytes.length) := by
  have hlen : ((Emission.generic g arg).instr tx).bytes.length = 2 + (formFor arg).nbytes := by
    rw [Instr.bytes, List.length_append, length_leBytes]
    exact congrArg (2 + ·) (length_leBytes _ _)
  rw [hlen]
  exact step_operation (.generic g) h

theorem step_long {tx : Text} {g : Generic} {l : Word}
    (h : Holds m.text m.pc ((Emission.long (.relocated g) l).instr tx).bytes) :
    step env m = execOp env (g.form .L) (m.skip 2) ∧ operand (m.skip 2) .L = unsignedOf 4 l ∧
      past (m.skip 2) .L = m.skip ((Emission.long (.relocated g) l).instr tx).bytes.length := by
  obtain ⟨hstep, hoperands⟩ := holds_instr h
  refine ⟨hstep, operand_long hoperands, ?_⟩
  rw [past_skip, Instr.bytes, List.length_append, length_leBytes]
  exact congrArg (fun n => m.skip (2 + n)) (length_leBytes _ _).symm

/-- The machine at the instruction of an item does what the item is for. -/
theorem step_item (env : Env) {i : Item} {e : Emission} {tx : Text} (he : i.emission = some e)
    (hcall : isCall i = false) (h : Holds m.text m.pc (e.instr tx).bytes) :
    step env m = itemOutcome env (m.skip (e.instr tx).bytes.length) i := by
  cases i with
  | constpush val s =>
    cases he
    exact step_constpush h
  | address addr n =>
    cases he
    obtain ⟨hstep, hop, hpast⟩ := step_long (g := .CONSTPUSH) h
    rw [hstep, ← hpast]
    change Outcome.next ((past (m.skip 2) .L).push (operand (m.skip 2) .L)) = _
    rw [hop]
    rfl
  | varAddress v =>
    cases he
    cases v with
    | ciLocal va_addr | procLocal r va_addr | procStatic va_addr => exact step_generic h
    | ciStatic addr | procReg addr =>
      obtain ⟨hstep, hop, hpast⟩ := step_long (g := .CONSTPUSH) h
      change step env m = Outcome.next (Machine.push (m.skip _) (unsignedOf 4 addr))
      rw [hstep, ← hop]
      exact congrArg (fun m' : Machine => Outcome.next (m'.push (operand (m.skip 2) .L))) hpast
  | localValue t va_addr =>
    cases he
    exact step_generic h
  | staticValue t addr =>
    cases he
    obtain ⟨hstep, hop, hpast⟩ := step_long (g := .PUSH_AT_ADDR (loadOf t)) h
    rw [hstep, ← hpast]
    change Outcome.next ((past (m.skip 2) .L).push
      (execute.fetch (loadOf t) (m.skip 2).mem (operand (m.skip 2) .L))) = _
    rw [hop]
    rfl
  | deref t at_ =>
    cases he
    rw [step_opcode h]
    cases at_ <;> rfl
  | assign t want_value at_ =>
    cases he
    rw [step_opcode h]
    cases at_ <;> cases want_value <;> rfl
  | arith check_div op t is_value | relation op t | logicalNot | toBool | dup | dupBackOne
  | reserveSlot | pop | pushRetval t =>
    cases he
    exact step_opcode h
  | shift op t u is_value | ptrOp op n | step op t size is_value =>
    cases he
    rw [step_opcode h]
    cases op <;> rfl
  | scale t =>
    cases he
    rw [step_opcode h]
    unfold operatorToOpcode
    dsimp only
    split <;> rfl
  | unary op s t =>
    cases he
    rw [step_opcode h]
    cases op <;> rfl
  | popmany nargs =>
    cases he
    exact step_generic h
  | call t is_void func_index nargs | callIndirect t is_void nargs => cases hcall
  | conversion s s' => cases he

/-- The check of the stack pointer succeeds if the compiler has counted the words. -/
theorem steps_check (env : Env) {tx : Text} (hroom : Room p R S) (hs : Stands p R S s m)
    (hcount : tx.tx_sp.toNat = S + 8 * s.stack.length) (h : Holds m.text m.pc (checkBytes tx)) :
    Steps env m (m.skip (checkBytes tx).length) := by
  unfold checkBytes at h ⊢
  split at h
  case isFalse =>
    have hskip : m.skip 0 = m := by
      unfold Machine.skip
      rw [BitVec.add_zero]
    rw [if_neg (by assumption), List.length_nil, hskip]
    exact .refl
  case isTrue hchecksp =>
    have hsp := hs.sp
    have hspace := hs.space
    have hsmall := hroom.small
    have hlt := tx.tx_sp.isLt
    have hdiff : m.fp - m.sp = tx.tx_sp := by
      apply BitVec.eq_of_toNat_eq
      rw [BitVec.toNat_sub, hs.fp]
      omega
    have hint : tx.tx_sp.toInt = toCInt tx.tx_sp := by
      unfold toCInt
      rw [BitVec.toInt_eq_toNat_cond, BitVec.toInt_eq_toNat_cond, BitVec.toNat_setWidth]
      rw [if_pos (by omega), if_pos (by omega), Nat.mod_eq_of_lt (by omega)]
    rw [if_pos hchecksp, List.length_append, length_leBytes, length_leBytes]
    refine .single ((step_operation (.generic .CHECK_SP) h).trans ?_)
    unfold Operation.perform
    dsimp only
    rw [skip_fp, skip_sp, hdiff, if_neg (not_not.2 hint)]

/-! ## The text of a block -/

/-- The compiler has counted the words. -/
def Counts (S : Nat) (tx : Text) (s : AState) : Prop :=
  tx.tx_sp.toNat = S + 8 * s.stack.length

/-- Such an item is no call, and the compiler does not count by hand for it. -/
theorem run_item {i : Item} {s' : AState} (h : run p i s = some s') :
    (s'.stack.length : Int) = s.stack.length + itemEffect i ∧ isCall i = false ∧
      i.adjustment = 0#64 := by
  cases i with
  | constpush val sl | address addr n | reserveSlot =>
    cases h
    exact ⟨rfl, rfl, rfl⟩
  | varAddress v | localValue t va_addr | staticValue t addr =>
    obtain ⟨a, -, rfl⟩ := Option.map_eq_some_iff.1 h
    exact ⟨rfl, rfl, rfl⟩
  | deref t at_ =>
    cases at_ with
    | AT_PROC_ADDR => cases h
    | AT_CI_ADDR =>
      obtain ⟨mem, a, st, w, rfl, -, rfl⟩ := unop_some h
      exact ⟨(add_zero _).symm, rfl, rfl⟩
  | assign t want_value at_ =>
    cases at_ with
    | AT_PROC_ADDR => cases h
    | AT_CI_ADDR =>
      obtain ⟨mem, w, a, st, mem', rfl, -, rfl⟩ := assign_some h
      refine ⟨?_, rfl, rfl⟩
      cases want_value with
      | true => simp [itemEffect]
      | false =>
        simp [itemEffect]
        omega
  | arith check_div op t is_value | shift op t u is_value | relation op t | scale t | ptrOp op n
  | step op t size is_value =>
    obtain ⟨mem, y, x, st, w, rfl, -, rfl⟩ := binop_some h
    exact ⟨by simp [itemEffect], rfl, rfl⟩
  | unary op t u | logicalNot | toBool =>
    obtain ⟨mem, x, st, w, rfl, -, rfl⟩ := unop_some h
    exact ⟨(add_zero _).symm, rfl, rfl⟩
  | dup =>
    obtain ⟨mem, x, st, rfl, rfl⟩ := dup_some h
    exact ⟨rfl, rfl, rfl⟩
  | dupBackOne =>
    obtain ⟨mem, w, x, z, st, rfl, rfl⟩ := dupBackOne_some h
    exact ⟨(add_zero _).symm, rfl, rfl⟩
  | pop =>
    obtain ⟨mem, x, st, rfl, rfl⟩ := pop_some h
    exact ⟨by simp [itemEffect], rfl, rfl⟩
  | conversion sl sl' =>
    cases h
    exact ⟨(add_zero _).symm, rfl, rfl⟩
  | popmany nargs | call t is_void func_index nargs | callIndirect t is_void nargs | pushRetval t =>
    cases h

theorem tmpspace_item {i : Item} {e : Emission} (tx : Text) (he : i.emission = some e)
    (hcall : isCall i = false) : tmpspace (e.opcodeOf tx) = 0#64 := by
  cases i with
  | constpush val s =>
    cases he
    unfold ciCodeConstpush
    split <;> rfl
  | varAddress v =>
    cases he
    cases v <;> rfl
  | deref t at_ =>
    cases he
    cases at_ <;> rfl
  | assign t want_value at_ =>
    cases he
    cases at_ <;> cases want_value <;> rfl
  | arith check_div op t is_value =>
    cases he
    exact (operatorToOpcode_counted check_div op t).2.2
  | relation op t =>
    cases he
    exact (relOpcode_counted op t).2.2
  | scale t =>
    cases he
    exact (operatorToOpcode_counted false .OP_MUL t).2.2
  | shift op t u is_value | ptrOp op n | step op t size is_value | unary op s t =>
    cases he
    cases op <;> rfl
  | call t is_void func_index nargs | callIndirect t is_void nargs => cases hcall
  | conversion s s' => cases he
  | _ =>
    cases he
    rfl

/-- The bytes do what the block does, wherever they are, if there is enough space for the words that
the compiler has counted until it was behind them. -/
def Performs (env : Env) (p : Place) (R S : Nat) (a : Asm) (tx tx' : Text) (bs : List (BitVec 8)) :
    Prop :=
  ∀ s s' m, tx'.tx_max_sp.toNat ≤ R → Counts S tx s → runAsm p a s = some s' →
    Stands p R S s m → Holds m.text m.pc bs →
    ∃ m', Steps env m m' ∧ Stands p R S s' m' ∧ Counts S tx' s' ∧
      m'.pc = m.pc + BitVec.ofNat 64 bs.length ∧ Frame m m'

theorem Frame.trans {m₁ m₂ m₃ : Machine} (h : Frame m₁ m₂) (h' : Frame m₂ m₃) : Frame m₁ m₃ := by
  unfold Frame at *
  rw [h', h]

theorem Frame.text {m m' : Machine} (h : Frame m m') : m'.text = m.text := by
  rw [h]

theorem counts_of_effect {tx tx' : Text} {bs : List (BitVec 8)} {n : Int} {s' : AState}
    (hroom : Room p R S) (hemits : Emits tx tx' bs n) (hs : S + 8 * s.stack.length ≤ R)
    (hcount : Counts S tx s) (hlen : (s'.stack.length : Int) = s.stack.length + n) (hn : n ≤ 1) :
    Counts S tx' s' := by
  unfold Counts at *
  have hsmall := hroom.small
  rw [hemits.sp, BitVec.toNat_add, BitVec.toNat_ofInt]
  omega

theorem itemEffect_le (i : Item) : itemEffect i ≤ 1 := by
  cases i with
  | assign t want_value at_ => cases want_value <;> simp [itemEffect]
  | popmany nargs =>
    rw [itemEffect]
    omega
  | _ => simp [itemEffect]

theorem performs_item (hroom : Room p R S) {i : Item} {e : Emission} (tx : Text)
    (he : i.emission = some e) :
    Performs env p R S (.item i) tx (adjustSp (emit tx e) i.adjustment)
      (checkBytes tx ++ (e.instr tx).bytes) := by
  intro s s' m hmax hcount hrun hs hholds
  obtain ⟨hlen, hcall, hadjust⟩ := run_item hrun
  obtain ⟨hcheck, hinstr⟩ := holds_append.1 hholds
  have hcount' := counts_of_effect hroom (emits_item tx he) hs.space hcount hlen (itemEffect_le i)
  have hspace : S + 8 * s'.stack.length ≤ R := by
    have hle := emission_le_max e (tmpspace_item tx he hcall)
    have hsp : (adjustSp (emit tx e) i.adjustment).tx_sp = (emit tx e).tx_sp := by
      rw [hadjust]
      exact BitVec.add_zero _
    unfold Counts at hcount'
    rw [hsp] at hcount'
    rw [← hcount']
    exact le_trans (BitVec.le_def.1 hle) hmax
  have hchecked := steps_check env hroom hs hcount hcheck
  have hstep := step_item env (m := m.skip (checkBytes tx).length) he hcall hinstr
  obtain ⟨m', ho, hs', hpc, hframe⟩ :=
    item_does env hroom ((hs.skip (checkBytes tx).length).skip (e.instr tx).bytes.length)
      hrun hspace he
  refine ⟨m', hchecked.tail (hstep.trans ho), hs', hcount', ?_, ?_⟩
  · rw [hpc, skip_skip, skip_pc, List.length_append]
  · have hskip : Frame m ((m.skip (checkBytes tx).length).skip (e.instr tx).bytes.length) := rfl
    exact hskip.trans hframe

theorem performs_conversion {i : Item} (hi : i.emission = none) (tx : Text) :
    Performs env p R S (.item i) tx tx [] := by
  cases i with
  | conversion sl sl' =>
    intro s s' m _ hcount hrun hs _
    cases hrun
    exact ⟨m, .refl, hs, hcount, (BitVec.add_zero _).symm, rfl⟩
  | _ => cases hi

theorem performs_nil (tx : Text) : Performs env p R S .nil tx tx [] := by
  intro s s' m _ hcount hrun hs _
  cases hrun
  exact ⟨m, .refl, hs, hcount, (BitVec.add_zero _).symm, rfl⟩

theorem performs_seq {a b : Asm} {tx tx₁ tx' : Text} {bs bs' : List (BitVec 8)} {n : Int}
    (ha : Performs env p R S a tx tx₁ bs) (hb : Performs env p R S b tx₁ tx' bs')
    (hemits : Emits tx₁ tx' bs' n) : Performs env p R S (.seq a b) tx tx' (bs ++ bs') := by
  intro s s' m hmax hcount hrun hs hholds
  obtain ⟨s₁, hrun₁, hrun₂⟩ := Option.bind_eq_some_iff.1 hrun
  obtain ⟨hbs, hbs'⟩ := holds_append.1 hholds
  have hmax₁ : tx₁.tx_max_sp.toNat ≤ R := le_trans (BitVec.le_def.1 hemits.max) hmax
  obtain ⟨m₁, hsteps₁, hs₁, hcount₁, hpc₁, hframe₁⟩ := ha s s₁ m hmax₁ hcount hrun₁ hs hbs
  rw [← hpc₁, ← hframe₁.text] at hbs'
  obtain ⟨m₂, hsteps₂, hs₂, hcount₂, hpc₂, hframe₂⟩ := hb s₁ s' m₁ hmax hcount₁ hrun₂ hs₁ hbs'
  refine ⟨m₂, hsteps₁.trans hsteps₂, hs₂, hcount₂, ?_, hframe₁.trans hframe₂⟩
  rw [hpc₂, hpc₁, add_length]

/-! ### Jumps -/

theorem Stands.setPc (hs : Stands p R S s m) (a : Word) : Stands p R S s { m with pc := a } :=
  ⟨hs.fp, hs.sp, hs.space, hs.mem, hs.slots⟩

theorem jump_at {j : Jump} {offset : BitVec 16} (h : Holds m.text m.pc (jumpBytes j offset)) :
    step env m = execOp env j.opcode (m.skip 2) ∧
      (m.skip 2).jump = { m with pc := jumpTarget m.pc offset } := by
  obtain ⟨hop, hoffset⟩ := holds_append.1 h
  have hnum := num_le j.opcode
  have hget : (m.skip 2).get 2 = offset.toNat := by
    rw [length_leBytes] at hoffset
    rw [get_of_holds hoffset]
    exact Nat.mod_eq_of_lt offset.isLt
  unfold Holds at hop
  rw [length_leBytes] at hop
  refine ⟨opcode_at hop (by omega) (opcodeOf_num _), ?_⟩
  unfold Machine.jump
  rw [hget, BitVec.ofNat_toNat, BitVec.setWidth_eq]
  rfl

theorem step_jump (env : Env) {offset : BitVec 16}
    (h : Holds m.text m.pc (jumpBytes .JUMP offset)) :
    step env m = .next { m with pc := jumpTarget m.pc offset } := by
  obtain ⟨hstep, hjump⟩ := jump_at h
  rw [hstep, ← hjump]
  rfl

/-- A conditional jump pops the word that it tests. -/
theorem step_jumpIf (env : Env) {j : Jump} {offset : BitVec 16} {b : Bool}
    (hb : taken j (m.slot 0) = some b) (h : Holds m.text m.pc (jumpBytes j offset)) :
    step env m =
      .next (if b then { m.pop with pc := jumpTarget m.pc offset } else m.pop.skip 4) := by
  obtain ⟨hstep, hjump⟩ := jump_at h
  have hpop : (m.skip 2).pop.jump = { m.pop with pc := jumpTarget m.pc offset } :=
    congrArg Machine.pop hjump
  have hskip : (m.skip 2).pop.skip 2 = m.pop.skip 4 := skip_skip m.pop 2 2
  rw [hstep, ← hpop, ← hskip]
  cases j with
  | JUMP => cases hb
  | JUMP_IF_ZERO =>
    cases hb
    change Outcome.next (if (m.skip 2).slot 0 = 0#64 then _ else _) = _
    rw [skip_slot]
    by_cases hz : m.slot 0 = 0#64
    · rw [if_pos hz, if_pos (beq_iff_eq.2 hz)]
    · rw [if_neg hz, if_neg (mt beq_iff_eq.1 hz)]
  | JUMP_IF_NON_ZERO =>
    cases hb
    change Outcome.next (if (m.skip 2).slot 0 ≠ 0#64 then _ else _) = _
    rw [skip_slot]
    by_cases hz : m.slot 0 = 0#64
    · rw [if_neg (not_not.2 hz), if_neg (by rw [hz]; decide)]
    · rw [if_pos hz, if_pos (bne_iff_ne.2 hz)]

/-- A check, and a conditional jump behind it. -/
theorem steps_jumpIf (env : Env) {tx : Text} {j : Jump} {offset : BitVec 16} {b : Bool}
    (hroom : Room p R S) (hs : Stands p R S ⟨mem, some w :: st⟩ m)
    (hcount : Counts S tx ⟨mem, some w :: st⟩) (hb : taken j w = some b) (h : Holds m.text m.pc (checkBytes tx ++ jumpBytes j offset)) :
    ∃ m', Steps env m m' ∧ Stands p R S ⟨mem, st⟩ m' ∧ Frame m m' ∧
      m'.pc = if b then jumpTarget (m.pc + BitVec.ofNat 64 (checkBytes tx).length) offset
        else m.pc + BitVec.ofNat 64 (checkBytes tx).length + 4#64 := by
  obtain ⟨hcheck, hjump⟩ := holds_append.1 h
  have hchecked := steps_check env hroom hs hcount hcheck
  have hs₁ := hs.skip (checkBytes tx).length
  rw [← slot_zero_of hs₁] at hb
  have hstep := step_jumpIf env (m := m.skip (checkBytes tx).length) hb hjump
  refine ⟨_, hchecked.tail hstep, ?_, ?_, ?_⟩
  · cases b with
    | true => exact hs₁.pop.setPc _
    | false => exact hs₁.pop.skip 4
  · cases b <;> rfl
  · cases b <;> rfl

theorem performs_shortcut (hroom : Room p R S) {j : Jump} {a : Asm} {tx tx₁ tx' : Text}
    {bs : List (BitVec 8)} {offset : BitVec 16}
    (ha : Performs env p R S a (ciCodeJumpToLabel tx j).1 tx₁ bs)
    (hemits : Emits (ciCodeJumpToLabel tx j).1 tx₁ bs 0) (hsp : tx'.tx_sp = tx₁.tx_sp)
    (hmaxsp : tx'.tx_max_sp = tx₁.tx_max_sp) (hoffset : offset.toInt = 2 + bs.length) :
    Performs env p R S (.shortcut j a) tx tx' (checkBytes tx ++ jumpBytes j offset ++ bs) := by
  intro s s' m hmax hcount hrun hs hholds
  rcases s with ⟨mem, _ | ⟨_ | w, st⟩⟩
  · cases hrun
  · cases hrun
  obtain ⟨b, hb, hrun⟩ := bind_some.1 hrun
  obtain ⟨hjump, hbs⟩ := holds_append.1 hholds
  obtain ⟨m₁, hsteps, hs₁, hframe, hpc⟩ := steps_jumpIf env hroom hs hcount hb hjump
  have heffect : stackEffect j.opcode = 8 * -1 := by
    cases j with
    | JUMP => cases hb
    | JUMP_IF_ZERO | JUMP_IF_NON_ZERO => rfl
  have hcount₁ : Counts S (ciCodeJumpToLabel tx j).1 ⟨mem, st⟩ :=
    counts_of_effect hroom (emits_jump tx j heffect) hs.space hcount (by simp) (by decide)
  have hlen : m.pc + BitVec.ofNat 64 (checkBytes tx).length + 4#64 =
      m.pc + BitVec.ofNat 64 (checkBytes tx ++ jumpBytes j offset).length := by
    rw [← add_length, length_jumpBytes]
  cases b with
  | true =>
    cases hrun
    refine ⟨m₁, hsteps, hs₁, ?_, ?_, hframe⟩
    · unfold Counts at *
      rw [hsp, hemits.sp, ← hcount₁]
      exact congrArg BitVec.toNat (BitVec.add_zero _)
    · rw [hpc, if_pos rfl, jumpTarget_eq hoffset, hlen, add_length]
  | false =>
    rw [if_neg Bool.false_ne_true, hlen] at hpc
    rw [← hpc, ← hframe.text] at hbs
    rw [hmaxsp] at hmax
    obtain ⟨m₂, hsteps₂, hs₂, hcount₂, hpc₂, hframe₂⟩ := ha _ s' m₁ hmax hcount₁ hrun hs₁ hbs
    refine ⟨m₂, hsteps.trans hsteps₂, hs₂, ?_, ?_, hframe.trans hframe₂⟩
    · unfold Counts at *
      rw [hsp, hcount₂]
    · rw [hpc₂, hpc, add_length]

/-- The two blocks are counted from the same number of words, and end at the same. -/
theorem performs_cond (hroom : Room p R S) {a b : Asm} {tx tx₁ tx₂ tx₃ tx' : Text}
    {bs bs' : List (BitVec 8)} {offset offset' : BitVec 16} {n : Int}
    (ha : Performs env p R S a (ciCodeJumpToLabel tx .JUMP_IF_ZERO).1 tx₁ bs)
    (hb : Performs env p R S b tx₂ tx₃ bs')
    (hemits : Emits (ciCodeJumpToLabel tx .JUMP_IF_ZERO).1 tx₁ bs n) (hemits' : Emits tx₂ tx₃ bs' n)
    (hsp₂ : tx₂.tx_sp = (ciCodeJumpToLabel tx .JUMP_IF_ZERO).1.tx_sp)
    (hmax₂ : tx₁.tx_max_sp ≤ tx₂.tx_max_sp) (hsp : tx'.tx_sp = tx₃.tx_sp)
    (hmaxsp : tx'.tx_max_sp = tx₃.tx_max_sp)
    (hoffset : offset.toInt =
      2 + ((bs ++ checkBytes tx₁ ++ jumpBytes .JUMP offset').length : Nat))
    (hoffset' : offset'.toInt = 2 + bs'.length) :
    Performs env p R S (.cond a b) tx tx' (checkBytes tx ++ jumpBytes .JUMP_IF_ZERO offset ++
      (bs ++ checkBytes tx₁ ++ jumpBytes .JUMP offset' ++ bs')) := by
  intro s s' m hmax hcount hrun hs hholds
  rcases s with ⟨mem, _ | ⟨_ | w, st⟩⟩
  · cases hrun
  · cases hrun
  have hb' : taken .JUMP_IF_ZERO w = some (w == 0#64) := rfl
  obtain ⟨hjump, hrest⟩ := holds_append.1 hholds
  obtain ⟨hfirst, hsecond⟩ := holds_append.1 hrest
  obtain ⟨m₁, hsteps, hs₁, hframe, hpc⟩ := steps_jumpIf env hroom hs hcount hb' hjump
  have hcount₁ : Counts S (ciCodeJumpToLabel tx .JUMP_IF_ZERO).1 ⟨mem, st⟩ :=
    counts_of_effect (n := -1) hroom (emits_jump tx .JUMP_IF_ZERO rfl) hs.space hcount (by simp)
      (by decide)
  have hlen : m.pc + BitVec.ofNat 64 (checkBytes tx).length + 4#64 =
      m.pc + BitVec.ofNat 64 (checkBytes tx ++ jumpBytes .JUMP_IF_ZERO offset).length := by
    rw [← add_length, length_jumpBytes]
  rw [hmaxsp] at hmax
  by_cases hz : w = 0#64
  · -- the jump leads to the second block
    rw [if_pos (beq_iff_eq.2 hz), jumpTarget_eq hoffset, hlen] at hpc
    rw [← hpc, ← hframe.text] at hsecond
    have hrun₂ : runAsm p b ⟨mem, st⟩ = some s' := (if_pos hz).symm.trans hrun
    have hcount₂ : Counts S tx₂ ⟨mem, st⟩ := by
      unfold Counts at *
      rw [hsp₂, hcount₁]
    obtain ⟨m₂, hsteps₂, hs₂, hcount₃, hpc₂, hframe₂⟩ :=
      hb _ s' m₁ hmax hcount₂ hrun₂ hs₁ hsecond
    refine ⟨m₂, hsteps.trans hsteps₂, hs₂, ?_, ?_, hframe.trans hframe₂⟩
    · unfold Counts at *
      rw [hsp, hcount₃]
    · rw [hpc₂, hpc, add_length, add_length, List.append_assoc]
  · -- the first block is jumped out of at its end
    rw [if_neg (mt beq_iff_eq.1 hz), hlen] at hpc
    rw [← hpc, ← hframe.text] at hfirst
    obtain ⟨hcode, hend⟩ := holds_append.1 hfirst
    obtain ⟨hbs, hcheck⟩ := holds_append.1 hcode
    have hrun₁ : runAsm p a ⟨mem, st⟩ = some s' := (if_neg hz).symm.trans hrun
    have hmax₁ : tx₁.tx_max_sp.toNat ≤ R :=
      le_trans (BitVec.le_def.1 (BitVec.le_trans hmax₂ hemits'.max)) hmax
    obtain ⟨m₂, hsteps₂, hs₂, hcount₂, hpc₂, hframe₂⟩ := ha _ s' m₁ hmax₁ hcount₁ hrun₁ hs₁ hbs
    rw [← hpc₂, ← hframe₂.text] at hcheck
    rw [← add_length, ← hpc₂, ← hframe₂.text] at hend
    have hchecked := steps_check env hroom hs₂ hcount₂ hcheck
    have hstep := step_jump env (m := m₂.skip (checkBytes tx₁).length) hend
    refine ⟨_, (hsteps.trans hsteps₂).trans (hchecked.tail hstep), (hs₂.skip _).setPc _, ?_, ?_,
      (hframe.trans hframe₂).trans rfl⟩
    · unfold Counts at *
      rw [hsp, hemits'.sp, hsp₂, ← hemits.sp, hcount₂]
    · dsimp only
      rw [jumpTarget_eq hoffset', skip_pc, hpc₂, hpc]
      have hfour : (4#64 : Word) = BitVec.ofNat 64 (jumpBytes .JUMP offset').length := by
        rw [length_jumpBytes]
      rw [hfour, add_length, add_length, add_length, add_length]
      simp only [List.append_assoc]

/-! ### Blocks -/

theorem sameSp_resolve {tx tx' : Text} {location : Nat}
    (h : ciResolveAndFreeLabel tx location = some tx') : SameSp tx tx' := by
  unfold ciResolveAndFreeLabel at h
  dsimp only at h
  split at h
  case isTrue => cases h
  case isFalse =>
    cases h
    exact ⟨rfl, rfl, rfl⟩

theorem jumpEffect_eq (j : Jump) : stackEffect j.opcode = 8 * jumpEffect j := by
  cases j <;> rfl

/-- The label is referred to at the end of the jump. -/
theorem jump_location (tx : Text) (j : Jump) :
    (ciCodeJumpToLabel tx j).2 =
      (tx.tx_text ++ checkBytes tx ++ leBytes 2 j.opcode.num).length := by
  unfold ciCodeJumpToLabel
  have htext := (emits_jump tx j (jumpEffect_eq j)).text
  unfold ciCodeJumpToLabel at htext
  dsimp only at htext ⊢
  rw [htext]
  simp only [List.length_append, length_leBytes]
  omega

/-- The text of a block does what the block does. -/
def Emitted (env : Env) (p : Place) (R S : Nat) (a : Asm) (tx tx' : Text) : Prop :=
  ∃ bs, Emits tx tx' bs (effect a) ∧ Performs env p R S a tx tx' bs

theorem emitted_shortcut (hroom : Room p R S) {j : Jump} {a : Asm} (hzero : effect a = 0)
    (ih : ∀ {tx tx'}, a.emit tx = some tx' → Emitted env p R S a tx tx') {tx tx' : Text}
    (h : (Asm.shortcut j a).emit tx = some tx') : Emitted env p R S (.shortcut j a) tx tx' := by
  obtain ⟨tx₁, ha, hres⟩ := Option.bind_eq_some_iff.1 h
  obtain ⟨bs, hemits, hperforms⟩ := ih ha
  rw [hzero] at hemits
  have hjump := emits_jump tx j (jumpEffect_eq j)
  have htext : tx₁.tx_text =
      tx.tx_text ++ checkBytes tx ++ leBytes 2 j.opcode.num ++ leBytes 2 0 ++ bs := by
    rw [hemits.text, hjump.text]
    simp only [List.append_assoc]
  rw [jump_location] at hres
  obtain ⟨offset, hoffset, htext'⟩ := ciResolveAndFreeLabel_text htext hres
  have hsame := sameSp_resolve hres
  refine ⟨_, ?_, performs_shortcut hroom hperforms hemits hsame.sp hsame.max hoffset⟩
  have hcounted := hjump.trans hemits
  refine ⟨?_, hsame.checksp.trans hcounted.checksp, ?_, ?_⟩
  · rw [htext']
    simp only [jumpBytes, List.append_assoc]
  · rw [hsame.sp, hcounted.sp, effect, hzero]
  · rw [hsame.max]
    exact hcounted.max

theorem emitted_cond (hroom : Room p R S) {a b : Asm} (heq : effect a = effect b)
    (iha : ∀ {tx tx'}, a.emit tx = some tx' → Emitted env p R S a tx tx')
    (ihb : ∀ {tx tx'}, b.emit tx = some tx' → Emitted env p R S b tx tx') {tx tx' : Text}
    (h : (Asm.cond a b).emit tx = some tx') : Emitted env p R S (.cond a b) tx tx' := by
  simp only [Asm.emit, Option.bind_eq_bind, Option.bind_eq_some_iff] at h
  obtain ⟨tx₁, ha, tx₂, hres, tx₃, hb, hres'⟩ := h
  obtain ⟨bs, hemits, hperforms⟩ := iha ha
  obtain ⟨bs', hemits', hperforms'⟩ := ihb hb
  rw [heq] at hemits
  have hjump := emits_jump tx .JUMP_IF_ZERO (jumpEffect_eq .JUMP_IF_ZERO)
  have hend := emits_jump tx₁ .JUMP (jumpEffect_eq .JUMP)
  have hsame := sameSp_resolve hres
  have hsame' := sameSp_resolve hres'
  have hbefore : (ciCodeJumpToLabel tx₁ .JUMP).1.tx_text =
      tx.tx_text ++ checkBytes tx ++ leBytes 2 Jump.JUMP_IF_ZERO.opcode.num ++ leBytes 2 0 ++
        (bs ++ checkBytes tx₁ ++ (leBytes 2 Jump.JUMP.opcode.num ++ leBytes 2 0)) := by
    rw [hend.text, hemits.text, hjump.text]
    simp only [List.append_assoc]
  rw [jump_location] at hres
  obtain ⟨offset, hoffset, htext₂⟩ := ciResolveAndFreeLabel_text (by exact hbefore) hres
  -- the second label is referred to behind the first offset, which is resolved by now
  have hafter : tx₃.tx_text =
      tx.tx_text ++ checkBytes tx ++ jumpBytes .JUMP_IF_ZERO offset ++ bs ++ checkBytes tx₁ ++
        leBytes 2 Jump.JUMP.opcode.num ++ leBytes 2 0 ++ bs' := by
    rw [hemits'.text, htext₂]
    simp only [jumpBytes, List.append_assoc]
  have hlocation : (ciCodeJumpToLabel tx₁ .JUMP).2 =
      (tx.tx_text ++ checkBytes tx ++ jumpBytes .JUMP_IF_ZERO offset ++ bs ++ checkBytes tx₁ ++
        leBytes 2 Jump.JUMP.opcode.num).length := by
    rw [jump_location, hemits.text, hjump.text]
    simp only [jumpBytes, List.length_append, length_leBytes]
    omega
  rw [hlocation] at hres'
  obtain ⟨offset', hoffset', htext'⟩ := ciResolveAndFreeLabel_text hafter hres'
  have hmax : tx₁.tx_max_sp ≤ tx₂.tx_max_sp := by
    rw [hsame.max]
    exact hend.max
  have hfirst : offset.toInt =
      2 + ((bs ++ checkBytes tx₁ ++ jumpBytes .JUMP offset').length : Nat) := by
    rw [hoffset]
    simp only [jumpBytes, List.length_append, length_leBytes]
  refine ⟨_, ⟨?_, ?_, ?_, ?_⟩, performs_cond hroom hperforms hperforms' hemits hemits' hsame.sp
    hmax hsame'.sp hsame'.max hfirst hoffset'⟩
  · rw [htext']
    simp only [jumpBytes, List.append_assoc]
  · rw [hsame'.checksp, hemits'.checksp, hsame.checksp]
    exact hend.checksp.trans (hemits.checksp.trans hjump.checksp)
  · rw [hsame'.sp, hemits'.sp, hsame.sp, effect, Int.mul_add, BitVec.ofInt_add,
      ← BitVec.add_assoc]
    exact congrArg (· + _) hjump.sp
  · rw [hsame'.max]
    exact BitVec.le_trans hjump.max (BitVec.le_trans hemits.max
      (BitVec.le_trans hmax hemits'.max))

theorem emit_performs (env : Env) (hroom : Room p R S) {a : Asm} (hbalanced : Balanced a)
    {tx tx' : Text} (h : a.emit tx = some tx') : Emitted env p R S a tx tx' := by
  induction a generalizing tx tx' with
  | nil =>
    cases h
    exact ⟨[], Emits.refl tx, performs_nil tx⟩
  | item i =>
    unfold Asm.emit at h
    split at h
    case h_1 hi =>
      cases h
      have hzero : itemEffect i = 0 := by
        cases i with
        | conversion sl sl' => rfl
        | _ => cases hi
      refine ⟨[], ?_, performs_conversion hi tx⟩
      rw [effect_item, hzero]
      exact Emits.refl tx
    case h_2 e hi =>
      cases h
      exact ⟨_, emits_item tx hi, performs_item hroom tx hi⟩
  | seq a b iha ihb =>
    obtain ⟨tx₁, ha, hb⟩ := Option.bind_eq_some_iff.1 h
    obtain ⟨bs, hemits, hperforms⟩ := iha hbalanced.1 ha
    obtain ⟨bs', hemits', hperforms'⟩ := ihb hbalanced.2 hb
    exact ⟨bs ++ bs', hemits.trans hemits', performs_seq hperforms hperforms' hemits'⟩
  | shortcut j a ih => exact emitted_shortcut hroom hbalanced.2 (ih hbalanced.1) h
  | cond a b iha ihb =>
    obtain ⟨ha, hb, heq⟩ := hbalanced
    exact emitted_cond hroom heq (iha ha) (ihb hb) h

end

/-! ## Main results -/

/-- The bytes of the text that were emitted since. -/
def newText (tx tx' : Text) : List (BitVec 8) := tx'.tx_text.drop tx.tx_text.length

/-- The machine is at the code of an expression. It is in the frame that the compiler counts in, the
space that the compiler has counted until it was behind the code is there, as `OC_LINK` sees to, and
the program has no variable in it. -/
structure AtCode (p : Place) (tx tx' : Text) (m : Machine) : Prop where
  text : Holds m.text m.pc (newText tx tx')
  fp : m.fp = p.fp
  sp : m.sp.toNat + tx.tx_sp.toNat = m.fp.toNat
  counted : tx.tx_sp ≤ tx.tx_max_sp
  room : Room p tx'.tx_max_sp.toNat tx.tx_sp.toNat

/-- The machine has gone through the code. One word is on the stack if a value or an address is
asked for, the memory outside the free stack is as it is to be, and the rest of the machine is
unchanged. -/
structure Computed (p : Place) (tx tx' : Text) (context : Context) (w : Word) (mem : Mem 64)
    (m m' : Machine) : Prop where
  pc : m'.pc = m.pc + BitVec.ofNat 64 (newText tx tx').length
  counts : m'.sp.toNat + tx'.tx_sp.toNat = m'.fp.toNat
  sp : m'.sp = if context = .EC_EFFECT then m.sp else m.sp - words 1
  value : context ≠ .EC_EFFECT → m'.slot 0 = w
  mem : ∀ x, ¬Free p tx'.tx_max_sp.toNat tx.tx_sp.toNat x → m'.mem x = mem x
  frame : Frame m m'

section
variable {p : Place} {tx tx' : Text} {m m' : Machine} {bs : List (BitVec 8)}

theorem newText_eq {n : Int} (h : Emits tx tx' bs n) : newText tx tx' = bs := by
  rw [newText, h.text, List.drop_left]

/-- No word of the expression is on the stack yet. -/
theorem AtCode.stands (h : AtCode p tx tx' m) (hmax : tx.tx_max_sp ≤ tx'.tx_max_sp) :
    Stands p tx'.tx_max_sp.toNat tx.tx_sp.toNat ⟨m.mem, []⟩ m := by
  refine ⟨h.fp, ?_, ?_, fun _ _ => rfl, fun i w hi => ?_⟩
  · rw [← h.fp]
    exact h.sp
  · exact BitVec.le_def.1 (BitVec.le_trans h.counted hmax)
  · cases hi

theorem computed_of_stands {context : Context} {w : Word} {mem : Mem 64}
    (hsp : m.sp.toNat + tx.tx_sp.toNat = m.fp.toNat)
    (hs : Stands p tx'.tx_max_sp.toNat tx.tx_sp.toNat ⟨mem, leave context w []⟩ m')
    (hcount : Counts tx.tx_sp.toNat tx' ⟨mem, leave context w []⟩)
    (hpc : m'.pc = m.pc + BitVec.ofNat 64 (newText tx tx').length) (hframe : Frame m m') :
    Computed p tx tx' context w mem m m' := by
  have hlow := hs.sp
  have hfp : m'.fp = m.fp := by
    rw [hframe]
  rw [← hs.fp, hfp] at hlow
  unfold Counts at hcount
  refine ⟨hpc, ?_, ?_, fun hne => ?_, hs.mem, hframe⟩
  · rw [hfp, hcount]
    omega
  · apply BitVec.eq_of_toNat_eq
    unfold leave at hlow
    split
    case isTrue heffect =>
      rw [if_pos heffect, List.length_nil] at hlow
      omega
    case isFalse hvalue =>
      rw [if_neg hvalue, List.length_singleton] at hlow
      have hone : (words 1).toNat = 8 := rfl
      have hlt := m.sp.isLt
      rw [BitVec.toNat_sub, hone]
      omega
  · refine hs.slots 0 w ?_
    rw [leave, if_neg hne]
    rfl

end

/-- `x = 3 && (y = 5)` -/
def andTree : Expr .TY_INT :=
  .logical .OP_LOGICAL_AND
    (.assign (.var .TY_INT (.ciLocal 24)) (.intConst rfl 3))
    (.assign (.var .TY_INT (.ciLocal 32)) (.intConst rfl 5))

/-- The text of the tree, with checks. -/
def andText : Option Text :=
  (ciCompileExpression ⟨false, true⟩ andTree .EC_VALUE).bind fun c => c.1.emit (emptyText true)

/-- The two variables are above the frame pointer. -/
def andPlace : Place := ⟨4096, fun a n => decide (4096 ≤ a.toNat ∧ a.toNat + n ≤ 8192)⟩

/-- The text is at the address 0. -/
def andMachine (tx : Text) : Machine :=
  { longMachine with text := fun a => tx.tx_text.getD a.toNat 0, sp := 4096, fp := 4096 }

theorem andText_counts :
    andText.map (fun tx => (tx.tx_text.length, tx.tx_max_sp)) = some (56, 16#64) := by
  decide +kernel

theorem holds_getD (bs : List (BitVec 8)) (h : bs.length < 2 ^ 64) :
    Holds (fun a => bs.getD a.toNat 0) 0#64 bs := by
  apply List.ext_getElem
  · simp
  · intro i hi hi'
    have hmod : i % 2 ^ 64 = i := Nat.mod_eq_of_lt (by omega)
    simp only [readBytes, List.getElem_map, List.getElem_range, BitVec.zero_add,
      BitVec.toNat_ofNat, hmod, List.getD_eq_getElem?_getD, List.getElem?_eq_getElem hi',
      Option.getD_some]

theorem newText_emptyText (checksp : Bool) (tx : Text) :
    newText (emptyText checksp) tx = tx.tx_text := rfl

theorem andMachine_atCode {tx : Text} (hlen : tx.tx_text.length = 56)
    (hmax : tx.tx_max_sp = 16#64) : AtCode andPlace (emptyText true) tx (andMachine tx) := by
  have htext : Holds (andMachine tx).text 0#64 (newText (emptyText true) tx) := by
    rw [newText_emptyText]
    exact holds_getD _ (by omega)
  refine ⟨htext, rfl, rfl, BitVec.le_refl _, ⟨?_, ?_, fun a n hdata j hj => ?_⟩⟩
  · rw [hmax]
    decide
  · rw [hmax]
    decide
  · obtain ⟨hlo, hhi⟩ := of_decide_eq_true hdata
    rintro ⟨-, hbelow⟩
    have hadd : (a + BitVec.ofNat 64 j).toNat = a.toNat + j := by
      rw [BitVec.toNat_add, BitVec.toNat_ofNat]
      omega
    have hfp : andPlace.fp.toNat = 4096 := rfl
    rw [hadd, hfp] at hbelow
    omega

end ups_rules.expr_code
