-- What an assignment to an automatic variable does to the frame (ci_code_assign in
-- ci_compile_expr.c and OC_ASSIGN_* in xc_machine.c). The machine stores a stack word for every
-- type of four bytes, and the layout reserves four.
import Ups.Locals
import Ups.ProcOpcodes

open le_bytes
open ups_rules.machine
open ups_rules.opcodes
open ups_rules.execute
open ups_rules.proc_opcodes
open ups_rules.locals

namespace ups_rules.local_stores

/-! ## The pure model -/

inductive AddrType where
  | AT_CI_ADDR | AT_PROC_ADDR

/-- `opcode_offset`, as the kind of the opcode; `none` is a panic. -/
def opcodeOffset (typecode : Scalar) (typesize : Nat) : Option CellKind :=
  match typecode with
  | .TY_LONGLONG | .TY_ULONGLONG => some .LONG_LONG
  | .TY_LONG | .TY_ULONG | .TY_INT | .TY_UINT | .TY_ENUM | .TY_U_ENUM | .TY_BOOLEAN | .DT_PTR_TO =>
    if typesize = 4 then some .LONG else if typesize = 8 then some .LONG_LONG else none
  | .TY_FLOAT => some .FLOAT
  | .TY_DOUBLE => some .DOUBLE
  | .TY_SHORT | .TY_USHORT => some .WORD
  | .TY_CHAR | .TY_UCHAR => some .BYTE

/-- The opcode that `ci_code_assign` emits for a type that is no bitfield. -/
def ciCodeAssign (type : Scalar) (want_value : Bool) (addrtype : AddrType) : Option Opcode :=
  (opcodeOffset type type.size).map fun t =>
    match addrtype, want_value with
    | .AT_PROC_ADDR, true => .OC_PROC_ASSIGN_AND_PUSH t
    | .AT_PROC_ADDR, false => .OC_PROC_ASSIGN t
    | .AT_CI_ADDR, true => .OC_ASSIGN_AND_PUSH t
    | .AT_CI_ADDR, false => .OC_ASSIGN t

/-! ## What assignments to locals are for -/

/-- The address at an offset from the frame pointer, as `OC_PUSH_STACKADDR` pushes it. -/
def frameAddr (m : Machine) (o : Int) : Word := m.fp + BitVec.ofInt 64 o

/-- The machine runs a function with a frame of `size` bytes and arguments that end `args` bytes
above the frame pointer, and an address and a value are on its stack below the frame. -/
structure InFrame (size args : Nat) (m : Machine) : Prop where
  below : m.sp.toNat + 16 + size ≤ m.fp.toNat
  above : m.fp.toNat + args ≤ 2 ^ 64

/-- An assignment to the variable leaves the byte at offset `o` unchanged. -/
def Keeps (size args : Nat) (v : Placed) (o : Int) : Prop :=
  ∀ env m m' s want_value op, v.va_type = .scalar s →
    ciCodeAssign s want_value .AT_CI_ADDR = some op → InFrame size args m →
    m.slot 1 = frameAddr m v.va_addr → execOp env op m = .next m' →
    m'.mem (frameAddr m o) = m.mem (frameAddr m o)

def KeepsVar (size args : Nat) (v w : Placed) : Prop :=
  ∀ o, w.va_addr ≤ o → o < w.limit → Keeps size args v o

/-- Automatic variables lie in the frame, aligned; those that are live together do not overlap,
and an assignment to one leaves the others, the parameters and the saved registers alone. -/
structure DoNotInterfere (f : Func) : Prop where
  inFrame : ∀ v ∈ (setLocalAddrs f).1.all, -((setLocalAddrs f).2 : Int) ≤ v.va_addr ∧ v.limit ≤ 0
  aligned : ∀ v ∈ (setLocalAddrs f).1.all, v.Aligned
  disjoint : LiveTogether Before (setLocalAddrs f).1
  others : LiveTogether (fun v w => KeepsVar (setLocalAddrs f).2 (setParameterAddrs f).2 v w ∧
    KeepsVar (setLocalAddrs f).2 (setParameterAddrs f).2 w v) (setLocalAddrs f).1
  params : ∀ v ∈ (setLocalAddrs f).1.all, ∀ p ∈ (setParameterAddrs f).1,
    KeepsVar (setLocalAddrs f).2 (setParameterAddrs f).2 v p
  saved : ∀ v ∈ (setLocalAddrs f).1.all, ∀ o, 0 ≤ o → o < 3 * 8 →
    Keeps (setLocalAddrs f).2 (setParameterAddrs f).2 v o

/-- The bytes that an assignment to a variable of the type stores. -/
def storeWidth : CType → Nat
  | .scalar s => if s.size = 4 then 8 else s.size
  | _ => 0

/-- The address behind the bytes that an assignment stores. -/
def storeLimit (v : Placed) : Int := v.va_addr + storeWidth v.va_type

/-- Behind each variable of four bytes that can be assigned, four bytes are free: no variable that
is live with it begins there, and the frame does not end. -/
structure Padded (f : Func) : Prop where
  others : LiveTogether (fun v w => 0 < ciTypesize w.va_type → storeLimit v ≤ w.va_addr)
    (setLocalAddrs f).1
  top : ∀ v ∈ (setLocalAddrs f).1.all, storeLimit v ≤ 0

/-- The frame and the arguments fit in the memory. -/
def Fits (f : Func) : Prop := (setLocalAddrs f).2 + 16 + (setParameterAddrs f).2 ≤ 2 ^ 64

/-! ## Offsets -/

section
variable {size args : Nat} {m : Machine}

theorem toNat_frameAddr (h : InFrame size args m) {o : Int} (hlo : -(size : Int) ≤ o)
    (hhi : o < args) : ((frameAddr m o).toNat : Int) = m.fp.toNat + o := by
  obtain ⟨hbelow, habove⟩ := h
  unfold frameAddr
  rw [BitVec.toNat_add, BitVec.toNat_ofInt]
  omega

/-- A store in the frame hits the offsets that it is to. -/
theorem sub_frameAddr_lt (h : InFrame size args m) {a o : Int} (hlo : -(size : Int) ≤ o)
    (hhi : o < args) (halo : -(size : Int) ≤ a) (hahi : a < args) {n : Nat} (hn : n ≤ 16) :
    (frameAddr m o - frameAddr m a).toNat < n ↔ a ≤ o ∧ o < a + n := by
  have ho := toNat_frameAddr h hlo hhi
  have ha := toNat_frameAddr h halo hahi
  obtain ⟨hbelow, habove⟩ := h
  rw [BitVec.toNat_sub]
  omega

/-- The stack below the frame. -/
theorem sub_slot_not_lt (h : InFrame size args m) {o : Int} (hlo : -(size : Int) ≤ o)
    (hhi : o < args) : ¬ (frameAddr m o - (m.sp + 8#64)).toNat < 8 := by
  have ho := toNat_frameAddr h hlo hhi
  obtain ⟨hbelow, habove⟩ := h
  have hsp : (m.sp + 8#64).toNat = m.sp.toNat + 8 := by
    rw [BitVec.toNat_add, BitVec.toNat_ofNat]
    omega
  rw [BitVec.toNat_sub, hsp]
  omega

end

/-! ## One assignment -/

/-- The opcode of an assignment stores the bytes that `storeWidth` says. -/
theorem ciCodeAssign_eq {s : Scalar} {want_value : Bool} {op : Opcode}
    (h : ciCodeAssign s want_value .AT_CI_ADDR = some op) :
    ∃ t, op = (if want_value then .OC_ASSIGN_AND_PUSH t else .OC_ASSIGN t) ∧
      cellWidth t = storeWidth (.scalar s) := by
  unfold ciCodeAssign at h
  obtain ⟨t, ht, rfl⟩ := Option.map_eq_some_iff.mp h
  refine ⟨t, by cases want_value <;> rfl, ?_⟩
  cases s <;> cases ht <;> rfl

theorem storeWidth_scalar (s : Scalar) : 0 < s.size ∧ s.size ≤ storeWidth (.scalar s) ∧
    storeWidth (.scalar s) ≤ 8 := by
  cases s <;> decide

/-- Every type can be assigned. -/
theorem ciCodeAssign_isSome (s : Scalar) :
    ∃ t, ciCodeAssign s false .AT_CI_ADDR = some (.OC_ASSIGN t) ∧
      cellWidth t = storeWidth (.scalar s) := by
  cases s <;> exact ⟨_, rfl, rfl⟩

theorem words_one : words 1 = 8#64 := rfl

/-- An assignment stores at the address, and may push the value in the slot of the address. -/
theorem execOp_assign_mem {env : Env} {m m' : Machine} {t : CellKind} {want_value : Bool}
    (h : execOp env (if want_value then .OC_ASSIGN_AND_PUSH t else .OC_ASSIGN t) m = .next m') :
    ∃ mem, mem = store m.mem (m.slot 1) (cellWidth t) (m.slot 0) ∧
      (m'.mem = mem ∨ ∃ v, m'.mem = store mem (m.sp + 8#64) 8 v) := by
  cases want_value with
  | false =>
    cases h
    exact ⟨_, rfl, .inl rfl⟩
  | true =>
    obtain rfl : assignAndPush t m = m' := Outcome.next.inj h
    refine ⟨_, rfl, .inr ?_⟩
    unfold assignAndPush
    dsimp only
    split
    · refine ⟨m.slot 0, ?_⟩
      have hsp : m.sp + words 2 - words 1 + words 0 = m.sp + 8#64 := by
        unfold words
        bv_omega
      simp only [Machine.push, setSlot_mem, subSp_mem, subSp_sp, addSp_mem, addSp_sp, storeAt_mem,
        storeAt_sp, hsp]
    · exact ⟨_, rfl⟩

section
variable {size args : Nat} {v : Placed} {s : Scalar} {o : Int}

/-- The offsets that an assignment stores at. -/
def Hits (v : Placed) (o : Int) : Prop := v.va_addr ≤ o ∧ o < storeLimit v

theorem keeps_of_not_hits (hlo : -(size : Int) ≤ o) (hhi : o < args)
    (halo : -(size : Int) ≤ v.va_addr) (hahi : v.va_addr < args) (h : ¬ Hits v o) :
    Keeps size args v o := by
  intro env m m' s want_value op hs hop hframe haddr hexec
  obtain ⟨t, rfl, hwidth⟩ := ciCodeAssign_eq hop
  obtain ⟨mem, rfl, hmem⟩ := execOp_assign_mem hexec
  have hn := (storeWidth_scalar s).2.2
  have hout : ¬ (frameAddr m o - m.slot 1).toNat < cellWidth t := by
    rw [haddr, sub_frameAddr_lt hframe hlo hhi halo hahi (by omega), hwidth]
    unfold Hits storeLimit at h
    rwa [hs] at h
  have hstore : store m.mem (m.slot 1) (cellWidth t) (m.slot 0) (frameAddr m o) =
      m.mem (frameAddr m o) := by
    rw [store_apply _ _ _ _ _ (by omega), if_neg hout]
  rcases hmem with hmem | ⟨w, hmem⟩
  · rw [hmem, hstore]
  · rw [hmem, store_apply _ _ _ _ _ (by omega), if_neg (sub_slot_not_lt hframe hlo hhi), hstore]

/-- A machine that is about to store a word of ones at an offset from its frame pointer. -/
def allOnesMachine (size : Nat) (a : Int) : Machine :=
  { longMachine with
    sp := 0#64
    fp := BitVec.ofNat 64 (size + 16)
    mem := store (store (fun _ => 0#8) 8#64 8 (BitVec.ofNat 64 (size + 16) + BitVec.ofInt 64 a))
      0#64 8 (BitVec.allOnes 64) }

theorem byteOf_allOnes {i : Nat} (hi : i < 8) : byteOf (BitVec.allOnes 64) i = 255#8 := by
  have hall : ∀ i < 8, byteOf (BitVec.allOnes 64) i = 255#8 := by decide
  exact hall i hi

theorem hits_of_not_keeps (hs : v.va_type = .scalar s) (hfits : size + 16 + args ≤ 2 ^ 64)
    (hargs : 0 < args) (hlo : -(size : Int) ≤ o) (hhi : o < args)
    (halo : -(size : Int) ≤ v.va_addr) (hahi : v.va_addr < args) (h : Keeps size args v o) :
    ¬ Hits v o := by
  intro hhit
  obtain ⟨t, hop, hwidth⟩ := ciCodeAssign_isSome s
  have hn := (storeWidth_scalar s).2.2
  generalize hm : allOnesMachine size v.va_addr = m
  have hfp : m.fp.toNat = size + 16 := by
    rw [← hm]
    simp only [allOnesMachine, BitVec.toNat_ofNat]
    omega
  have hsp : m.sp = 0#64 := by rw [← hm]; rfl
  have hmem : m.mem = store (store (fun _ => 0#8) 8#64 8 (frameAddr m v.va_addr)) 0#64 8
      (BitVec.allOnes 64) := by rw [← hm]; rfl
  have hframe : InFrame size args m := by
    refine ⟨?_, ?_⟩
    · rw [hfp, hsp]
      simp
      omega
    · omega
  have hzero : m.slot 0 = BitVec.allOnes 64 := by
    rw [slot_zero, hsp, hmem, loadWord_store]
  have hone : m.slot 1 = frameAddr m v.va_addr := by
    have hapart := apart_slots 0#64 (show 0 ≠ 1 by decide) (by decide) (by decide)
    have hload := loadWord_store_of_apart (store (fun _ => 0#8) 8#64 8 (frameAddr m v.va_addr))
      0#64 8#64 (BitVec.allOnes 64) hapart
    unfold Machine.slot
    rw [hsp, hmem]
    exact hload.trans (loadWord_store _ _ _)
  have hout : ∀ x : Word, 16 ≤ x.toNat → m.mem x = 0#8 := by
    intro x hx
    have hlt := x.isLt
    rw [hmem, store_apply _ _ _ _ _ (by omega), if_neg (by rw [BitVec.sub_zero]; omega),
      store_apply _ _ _ _ _ (by omega), if_neg]
    rw [BitVec.toNat_sub, BitVec.toNat_ofNat]
    omega
  have hkept := h quietEnv m _ s false _ hs hop hframe hone rfl
  have hbefore := hout (frameAddr m o) (by
    have := toNat_frameAddr hframe hlo hhi
    omega)
  have hin : (frameAddr m o - m.slot 1).toNat < cellWidth t := by
    rw [hone, sub_frameAddr_lt hframe hlo hhi halo hahi (by omega), hwidth]
    unfold Hits storeLimit at hhit
    rwa [hs] at hhit
  have hafter : (assign t m).mem (frameAddr m o) = 255#8 := by
    change store m.mem (m.slot 1) (cellWidth t) (m.slot 0) (frameAddr m o) = 255#8
    rw [store_apply _ _ _ _ _ (by omega), if_pos hin, hzero, byteOf_allOnes (by omega)]
  rw [hafter, hbefore] at hkept
  exact absurd hkept (by decide)

end

/-! ## The law -/

theorem storeLimit_of_not_scalar {v : Placed} (h : ∀ s, v.va_type ≠ .scalar s) :
    storeLimit v = v.va_addr := by
  unfold storeLimit storeWidth
  split
  case h_1 s hs => exact absurd hs (h s)
  case h_2 => simp

section
variable {f : Func}

theorem args_pos (f : Func) : 3 * 8 ≤ (setParameterAddrs f).2 := by
  have := (setParameterAddrs_laid f).le
  omega

theorem va_addr_le_limit (v : Placed) : v.va_addr ≤ v.limit := by
  unfold Placed.limit
  omega

/-- A function whose frame does not fit in the memory does not run. -/
theorem keeps_of_not_fits {size args : Nat} (h : ¬ size + 16 + args ≤ 2 ^ 64) (v : Placed)
    (o : Int) : Keeps size args v o := by
  intro env m m' s want_value op _ _ hframe
  obtain ⟨hbelow, habove⟩ := hframe
  omega

/-- No byte is hit that is neither in the variable nor in the padding behind it. -/
theorem keeps_of_padded (hpad : Fits f → Padded f) {v : Placed}
    (hv : v ∈ (setLocalAddrs f).1.all) {o : Int} (hlo : -((setLocalAddrs f).2 : Int) ≤ o)
    (hhi : o < (setParameterAddrs f).2) (hout : Padded f → ¬ Hits v o) :
    Keeps (setLocalAddrs f).2 (setParameterAddrs f).2 v o := by
  have hargs := args_pos f
  have hframe := (setLocalAddrs_laid f).within v hv
  have hle := va_addr_le_limit v
  by_cases hfits : Fits f
  · exact keeps_of_not_hits hlo hhi hframe.1 (by omega) (hout (hpad hfits))
  · exact keeps_of_not_fits hfits v o

theorem doNotInterfere_of_padded (hpad : Fits f → Padded f) : DoNotInterfere f := by
  have hlaid := setLocalAddrs_laid f
  have hargs := args_pos f
  by_cases hfits : Fits f
  case pos =>
    have hp := hpad hfits
    refine ⟨hlaid.within, hlaid.aligned, hlaid.ordered, ?_, ?_, ?_⟩
    · refine (hlaid.ordered.and hp.others).imp_mem ?_
      rintro v hv w hw ⟨hbefore, hstore⟩
      have hvframe := hlaid.within v hv
      have hwframe := hlaid.within w hw
      unfold Before at hbefore
      constructor
      · intro o hlo hhi
        refine keeps_of_padded hpad hv (by omega) (by omega) fun _ hhit => ?_
        have hsize : 0 < ciTypesize w.va_type := by
          unfold Placed.limit at hhi
          omega
        have := hstore hsize
        have := hhit.2
        omega
      · intro o hlo hhi
        refine keeps_of_padded hpad hw (by omega) (by omega) fun _ hhit => ?_
        have := hhit.1
        omega
    · intro v hv p hpar o hlo hhi
      have hpar := (setParameterAddrs_laid f).within p hpar
      refine keeps_of_padded hpad hv (by omega) (by omega) fun hp hhit => ?_
      have := hp.top v hv
      have := hhit.2
      omega
    · intro v hv o hlo hhi
      refine keeps_of_padded hpad hv (by omega) (by omega) fun hp hhit => ?_
      have := hp.top v hv
      have := hhit.2
      omega
  case neg =>
    have hnever := fun v o => keeps_of_not_fits hfits v o
    refine ⟨hlaid.within, hlaid.aligned, hlaid.ordered, ?_, ?_, ?_⟩
    · exact hlaid.ordered.imp_mem fun v _ w _ _ => ⟨fun o _ _ => hnever v o, fun o _ _ => hnever w o⟩
    · exact fun v _ p _ o _ _ => hnever v o
    · exact fun v _ o _ _ => hnever v o

/-- An assignment that keeps the byte at an offset behind the variable ends before it. -/
theorem storeLimit_le_of_keeps (hfits : Fits f) {v : Placed} (hv : v ∈ (setLocalAddrs f).1.all)
    {o : Int} (hlo : v.limit ≤ o) (hhi : o < (setParameterAddrs f).2)
    (h : Keeps (setLocalAddrs f).2 (setParameterAddrs f).2 v o) : storeLimit v ≤ o := by
  have hframe := (setLocalAddrs_laid f).within v hv
  have hargs := args_pos f
  have hle := va_addr_le_limit v
  by_cases hs : ∃ s, v.va_type = .scalar s
  · obtain ⟨s, hs⟩ := hs
    have hhit := hits_of_not_keeps hs hfits (by omega) (by omega) hhi hframe.1 (by omega) h
    unfold Hits at hhit
    omega
  · rw [storeLimit_of_not_scalar (not_exists.mp hs)]
    omega

end

/-- `void f(void) { int a, b; }` -/
def twoInts : Func :=
  { returns_aggregate := false
    bl_vars := [⟨.CL_AUTO, .scalar .TY_INT⟩, ⟨.CL_AUTO, .scalar .TY_INT⟩]
    bl_blocks := .null }

theorem twoInts_all :
    (setLocalAddrs twoInts).1.all = [⟨.scalar .TY_INT, -8⟩, ⟨.scalar .TY_INT, -4⟩] := by
  simp [twoInts, setLocalAddrs, assignLocalAddrs, setVarAddrs, adjustLocalAddrs, Blocks.all,
    Placed.adjust, roundUp, ciAlignAddrForType, ciAlignAddr, ciTypeAlignment, Scalar.alignment,
    fillUp, ciTypesize, Scalar.size]

end ups_rules.local_stores
