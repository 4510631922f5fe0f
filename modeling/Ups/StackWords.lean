-- The words on the stack of the machine while an expression is evaluated: what each call of an
-- emitter does to them when the machine executes what was emitted.
import Ups.Callbacks
import Ups.CodeLayout
import Ups.FuncPointers

open le_bytes
open ups_rules.machine
open ups_rules.opcodes
open ups_rules.execute
open ups_rules.code_text
open ups_rules.next_pc
open ups_rules.callbacks
open ups_rules.func_pointers
open ups_rules.local_stores
open ups_rules.exprs
open ups_rules.compile_expr
open ups_rules.code_layout

namespace ups_rules.stack_words

/-! ## Slots -/

section
variable (m : Machine) {i j n : Nat} (a v : Word)

theorem words_add (i j : Nat) : words (i + j) = words i + words j := by
  unfold words
  rw [Nat.mul_add, BitVec.ofNat_add]

@[simp] theorem setSlot_slot (i : Nat) : (m.setSlot i v).slot i = v := by
  unfold Machine.slot
  simp

theorem setSlot_slot_of_ne (h : i ≠ j) (hi : i < 2 ^ 60) (hj : j < 2 ^ 60) :
    (m.setSlot i v).slot j = m.slot j := by
  unfold Machine.slot
  rw [setSlot_mem, setSlot_sp, loadWord_store_of_apart _ _ _ _ (apart_slots m.sp h hi hj)]

@[simp] theorem addSp_slot (n i : Nat) : (m.addSp n).slot i = m.slot (n + i) := by
  unfold Machine.slot
  rw [addSp_mem, addSp_sp, BitVec.add_assoc, words_add]

theorem subSp_slot (n i : Nat) : (m.subSp n).slot (n + i) = m.slot i := by
  unfold Machine.slot
  rw [subSp_mem, subSp_sp, words_add, ← BitVec.add_assoc, BitVec.sub_add_cancel]

@[simp] theorem push_slot_zero : (m.push v).slot 0 = v := setSlot_slot _ _ _

theorem push_slot_succ (hi : i + 1 < 2 ^ 60) : (m.push v).slot (i + 1) = m.slot i := by
  unfold Machine.push
  rw [setSlot_slot_of_ne _ _ (Nat.succ_ne_zero i).symm (by decide) hi, Nat.succ_eq_add_one,
    Nat.add_comm, subSp_slot]

@[simp] theorem unop_slot_zero (f : Word → Word) : (m.unop f).slot 0 = f (m.slot 0) :=
  setSlot_slot _ _ _

theorem unop_slot_succ (f : Word → Word) (hi : i + 1 < 2 ^ 60) :
    (m.unop f).slot (i + 1) = m.slot (i + 1) :=
  setSlot_slot_of_ne _ _ (Nat.succ_ne_zero i).symm (by decide) hi

@[simp] theorem binop_slot_zero (f : Word → Word → Word) :
    (m.binop f).slot 0 = f (m.slot 1) (m.slot 0) := by
  unfold Machine.binop
  simp

theorem binop_slot_succ (f : Word → Word → Word) (hi : i + 2 < 2 ^ 60) :
    (m.binop f).slot (i + 1) = m.slot (i + 2) := by
  unfold Machine.binop
  rw [addSp_slot, setSlot_slot_of_ne _ _ (by omega) (by decide) (by omega), Nat.add_comm,
    Nat.add_assoc]

theorem loadWord_store_of_apart_bytes (mem : Mem 64) {a b : Word}
    (h : Apart a n b 8) : loadWord (store mem a n v) b = loadWord mem b := by
  unfold loadWord load store
  rw [readBytes_writeBytes_of_apart _ _ _ _ _ (by rwa [length_leBytes])]

theorem storeAt_slot (h : Apart a n (m.sp + words i) 8) :
    (storeAt m a n v).slot i = m.slot i := by
  unfold Machine.slot
  rw [storeAt_mem, storeAt_sp, loadWord_store_of_apart_bytes _ _ h]

theorem skip_skip (n k : Nat) : (m.skip n).skip k = m.skip (n + k) := by
  unfold Machine.skip
  rw [BitVec.add_assoc, BitVec.ofNat_add]

@[simp] theorem skip_retval (n : Nat) : (m.skip n).retval = m.retval := rfl
end

/-! ## Opcodes in the text -/

theorem mem_sizes (f : OpSize → Opcode) (s : OpSize) : f s ∈ sizes f := by
  cases s <;> simp [sizes]

theorem mem_cells (f : CellKind → Opcode) (t : CellKind) : f t ∈ cells f := by
  cases t <;> simp [cells]

theorem mem_ints (f : IntKind → Opcode) (t : IntKind) : f t ∈ ints f := by
  cases t <;> simp [ints]

theorem mem_nums (f : NumKind → Opcode) (t : NumKind) : f t ∈ nums f := by
  cases t <;> simp [nums]

theorem mem_loads (t : LoadKind) :
    t ∈ signedLoads ++ floatLoads ++ unsignedLoads ∧ t ∈ unsignedLoads ++ signedLoads ++ floatLoads := by
  cases t <;> simp [signedLoads, floatLoads, unsignedLoads]

theorem mem_derefOpcodes (t : LoadKind) :
    .OC_PROC_DEREF t ∈ derefOpcodes ∧ .OC_DEREF t ∈ derefOpcodes := by
  have hloads := (mem_loads t).1
  exact ⟨List.mem_flatten_of_mem (by simp) (List.mem_map_of_mem hloads),
    List.mem_flatten_of_mem (by simp) (List.mem_map_of_mem hloads)⟩

theorem mem_pushOpcodes (t : LoadKind) (s : OpSize) :
    .OC_PUSH_AT_STACKADDR t s ∈ pushOpcodes ∧ .OC_PUSH_AT_ADDR t s ∈ pushOpcodes := by
  obtain ⟨hloads, hloads'⟩ := mem_loads t
  have hstack : .OC_PUSH_AT_STACKADDR t s ∈
      (signedLoads ++ floatLoads ++ unsignedLoads).flatMap fun t => sizes (.OC_PUSH_AT_STACKADDR t) :=
    List.mem_flatMap.2 ⟨t, hloads, mem_sizes _ s⟩
  have hat : .OC_PUSH_AT_ADDR t s ∈
      (unsignedLoads ++ signedLoads ++ floatLoads).flatMap fun t => sizes (.OC_PUSH_AT_ADDR t) :=
    List.mem_flatMap.2 ⟨t, hloads', mem_sizes _ s⟩
  exact ⟨List.mem_flatten_of_mem (by simp) hstack, List.mem_flatten_of_mem (by simp) hat⟩

theorem mem_opcodeTable_iff {op : Opcode} :
    op ∈ opcodeTable ↔ op ∈ callOpcodes ∨ op ∈ derefOpcodes ∨ op ∈ pushOpcodes ∨
      op ∈ controlOpcodes ∨ op ∈ arithOpcodes ∨ op ∈ cvtOpcodes := by
  simp [opcodeTable]

theorem mem_opcodeTable (op : Opcode) : op ∈ opcodeTable := by
  rw [mem_opcodeTable_iff]
  cases op with
  | OC_CALL s | OC_POPMANY s | OC_LINK s | OC_PROC_MEMCPY s | OC_MEMCPY s =>
    exact .inl (by simp [callOpcodes, mem_sizes])
  | OC_PUSH_BYTES | OC_PROC_PUSH_BYTES | OC_RESERVE_BYTES => exact .inl (by simp [callOpcodes])
  | OC_PROC_ASSIGN t | OC_ASSIGN t | OC_PROC_ASSIGN_AND_PUSH t | OC_ASSIGN_AND_PUSH t =>
    exact .inr (.inl (by simp [derefOpcodes, mem_cells]))
  | OC_PROC_DEREF t => exact .inr (.inl (mem_derefOpcodes t).1)
  | OC_DEREF t => exact .inr (.inl (mem_derefOpcodes t).2)
  | OC_NEG_CONSTPUSH s | OC_CONSTPUSH s | OC_CHECK_SP s | OC_PUSH_STACKADDR s =>
    exact .inr (.inr (.inl (by simp [pushOpcodes, mem_sizes])))
  | OC_PUSH_FLOAT_CONST | OC_PUSH_DOUBLE_CONST | OC_INSERT_SIGNED_BITFIELD
  | OC_INSERT_UNSIGNED_BITFIELD | OC_EXTRACT_SIGNED_BITFIELD | OC_EXTRACT_UNSIGNED_BITFIELD =>
    exact .inr (.inr (.inl (by simp [pushOpcodes])))
  | OC_PROC_PUSH_ADDR r s =>
    exact .inr (.inr (.inl (by cases r <;> simp [pushOpcodes, mem_sizes])))
  | OC_PUSH_AT_STACKADDR t s => exact .inr (.inr (.inl (mem_pushOpcodes t s).1))
  | OC_PUSH_AT_ADDR t s => exact .inr (.inr (.inl (mem_pushOpcodes t s).2))
  | OC_SWITCH_ON_CHAIN s =>
    exact .inr (.inr (.inr (.inl (by simp [controlOpcodes, mem_sizes]))))
  | OC_BITWISE_AND t | OC_BITWISE_XOR t | OC_BITWISE_OR t | OC_BITWISE_NOT t | OC_LSHIFT t
  | OC_RSHIFT t | OC_MOD t | OC_MUL_UNSIGNED t | OC_DIV_UNSIGNED t | OC_CHKDIV_UNSIGNED t
  | OC_LESS_UNSIGNED t | OC_GREATER_UNSIGNED t | OC_LESS_OR_EQUAL_UNSIGNED t
  | OC_GREATER_OR_EQUAL_UNSIGNED t =>
    exact .inr (.inr (.inr (.inr (.inl (by simp [arithOpcodes, mem_ints])))))
  | OC_UNARY_MINUS t | OC_MUL_SIGNED t | OC_DIV_SIGNED t | OC_CHKDIV_SIGNED t | OC_ADD t | OC_SUB t
  | OC_IS_EQUAL t | OC_NOT_EQUAL t | OC_LESS_SIGNED t | OC_GREATER_SIGNED t
  | OC_LESS_OR_EQUAL_SIGNED t | OC_GREATER_OR_EQUAL_SIGNED t =>
    exact .inr (.inr (.inr (.inr (.inl (by simp [arithOpcodes, mem_nums])))))
  | OC_LOGICAL_NOT => exact .inr (.inr (.inr (.inr (.inl (by simp [arithOpcodes])))))
  | OC_RET | OC_RET_WORD | OC_RET_LONG_LONG | OC_RET_FLOAT | OC_RET_DOUBLE | OC_RET_STRUCT
  | OC_PUSH_STRUCTRET_ADDR | OC_MULTI_ARROW | OC_UNRESOLVED_JUMP | OC_JUMP | OC_JUMP_IF_NON_ZERO
  | OC_JUMP_IF_ZERO | OC_SWITCH_ON_TABLE | OC_PUSH_WORD_RETVAL | OC_PUSH_LONG_LONG_RETVAL
  | OC_PUSH_FLOAT_RETVAL | OC_PUSH_DOUBLE_RETVAL | OC_CALL_INDIRECT | OC_TRAP | OC_NOP | OC_SETJMP
  | OC_LONGJMP | OC_DUP | OC_DUP_BACK_ONE | OC_RESERVE_SLOT | OC_POP | OC_CVT_TO_BOOL =>
    exact .inr (.inr (.inr (.inl (by simp [controlOpcodes]))))
  | _ => exact .inr (.inr (.inr (.inr (.inr (by simp [cvtOpcodes])))))

theorem opcodeOf_num (op : Opcode) : opcodeOf op.num = some op :=
  List.getElem?_idxOf (mem_opcodeTable op)

section
variable {env : Env} {m : Machine}

/-- The bytes of an instruction at the text pointer are its opcode and its operand. -/
theorem holds_instr {i : Instr} (h : Holds m.text m.pc i.bytes) :
    step env m = execOp env i.opcode (m.skip 2) ∧
      Holds (m.skip 2).text (m.skip 2).pc i.operands := by
  obtain ⟨hop, hoperands⟩ := holds_append.mp h
  unfold Holds at hop
  rw [length_leBytes] at hop hoperands
  refine ⟨opcode_at hop ?_ (opcodeOf_num i.opcode), hoperands⟩
  have := num_le i.opcode
  omega

theorem get_of_holds {n v : Nat} (h : Holds m.text m.pc (leBytes n v)) :
    m.get n = v % 256 ^ n := by
  unfold Holds at h
  unfold Machine.get load
  rw [length_leBytes] at h
  rw [h, ofLeBytes_leBytes]

theorem operand_of_holds {v : Word}
    (h : Holds m.text m.pc (leBytes (formFor v).nbytes v.toNat)) : operand m (formFor v) = v :=
  operand_of_emitted (by simpa [Holds] using h)

/-- A long keeps the low half of a word. -/
theorem operand_long {v : Word} (h : Holds m.text m.pc (leBytes 4 v.toNat)) :
    operand m .L = unsignedOf 4 v := by
  have hget : m.get 4 = v.toNat % 256 ^ 4 := get_of_holds h
  unfold operand unsignedOf OpSize.nbytes
  dsimp only
  rw [hget]
  apply BitVec.eq_of_toNat_eq
  rw [BitVec.toNat_ofNat, BitVec.toNat_setWidth, BitVec.toNat_setWidth]
  omega

end

/-! ## What the items do -/

/-- The address that is pushed for a variable. -/
def varAddr (env : Env) (m : Machine) : VarRef → Word
  | .ciLocal va_addr => m.fp + va_addr
  | .procLocal r va_addr => regaddr env r + va_addr
  | .procStatic va_addr => va_addr
  | .ciStatic addr | .procReg addr => unsignedOf 4 addr

/-- What the machine does that is behind the instruction of an item. The calls are left out. -/
def itemOutcome (env : Env) (m : Machine) : Item → Outcome
  | .constpush val _ => .next (m.push val)
  | .address addr _ => .next (m.push (unsignedOf 4 addr))
  | .varAddress v => .next (m.push (varAddr env m v))
  | .localValue t va_addr => .next (m.push (fetch (loadOf t) m.mem (m.fp + va_addr)))
  | .staticValue t addr => .next (m.push (fetch (loadOf t) m.mem (unsignedOf 4 addr)))
  | .deref t .AT_CI_ADDR => .next (deref (loadOf t) m)
  | .deref t .AT_PROC_ADDR => procDeref env (loadOf t) m
  | .assign t true .AT_CI_ADDR => .next (assignAndPush (cellOf t) m)
  | .assign t false .AT_CI_ADDR => .next (assign (cellOf t) m)
  | .assign t true .AT_PROC_ADDR => procAssignAndPush env (cellOf t) m
  | .assign t false .AT_PROC_ADDR => procAssign env (cellOf t) m
  | .arith c op t _ => execOp env (operatorToOpcode c op t) m
  | .shift .OP_LSHIFT _ _ _ => .next (m.binop fun a b => a <<< b.toNat)
  | .shift .OP_RSHIFT _ _ _ => .next (m.binop fun a b => a >>> b.toNat)
  | .relation op t => execOp env (relOpcode op t) m
  | .scale _ => .next (m.binop (· * ·))
  | .ptrOp .OP_PLUS _ | .step .OP_PLUS _ _ _ => .next (m.binop (· + ·))
  | .ptrOp .OP_MINUS _ | .step .OP_MINUS _ _ _ => .next (m.binop (· - ·))
  | .unary .OP_BITWISE_NOT _ _ => .next (m.unop (~~~ ·))
  | .unary _ _ _ => .next (m.unop (- ·))
  | .logicalNot => .next (m.unop fun a => ofBool (a == 0#64))
  | .toBool => .next (m.unop fun a => ofBool (a != 0#64))
  | .dup => .next (m.push (m.slot 0))
  | .dupBackOne => .next (m.setSlot 2 (m.slot 0))
  | .reserveSlot => .next (m.subSp 1)
  | .pop => .next m.pop
  | .popmany nargs => .next (m.addSp nargs)
  | .pushRetval _ => .next (m.push m.retval)
  | .call _ _ _ _ | .callIndirect _ _ _ | .conversion _ _ => .panic

def isCall : Item → Bool
  | .call _ _ _ _ | .callIndirect _ _ _ => true
  | _ => false

section
variable {env : Env} {m : Machine}

theorem past_skip (s : OpSize) : past (m.skip 2) s = m.skip (2 + s.nbytes) := skip_skip m 2 s.nbytes

/-- What a push of a constant comes to, in whatever form it was coded. -/
theorem step_constpush {val : Word} {tx : Text}
    (h : Holds m.text m.pc ((ciCodeConstpush val).instr tx).bytes) :
    step env m = .next ((m.skip ((ciCodeConstpush val).instr tx).bytes.length).push val) := by
  obtain ⟨hstep, hoperands⟩ := holds_instr h
  by_cases hneg : val.toInt < 0
  · have hc : ciCodeConstpush val = .generic .NEG_CONSTPUSH (-val) := if_pos hneg
    simp only [hc] at hstep hoperands ⊢
    have hop := operand_of_holds hoperands
    rw [hstep]
    simp [Emission.instr, Emission.opcodeOf, Emission.operands, Generic.form, execOp, hop,
      past_skip, Instr.bytes]
  · have hc : ciCodeConstpush val = .generic .CONSTPUSH val := if_neg hneg
    simp only [hc] at hstep hoperands ⊢
    have hop := operand_of_holds hoperands
    rw [hstep]
    simp [Emission.instr, Emission.opcodeOf, Emission.operands, Generic.form, execOp, hop,
      past_skip, Instr.bytes]

end

end ups_rules.stack_words
