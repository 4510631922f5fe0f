-- The law of the PROC_ opcodes: on addresses of the interpreter they do what the plain opcodes
-- do, as long as no long is cut down to the int that they keep it in. A push of bytes is the
-- exception: the two opcodes move the stack pointer by different numbers of words.
import Mathlib.Data.BitVec
import Ups.Execute

open le_bytes
open ups_rules.machine
open ups_rules.opcodes
open ups_rules.execute

namespace ups_rules.proc_opcodes

/-! ## The pure model -/

/-- An operation that is there with and without access to the debugged process. -/
inductive Twin where
  | deref (t : LoadKind)
  | assign (t : CellKind)
  | assignAndPush (t : CellKind)
  | memcpy (s : OpSize)
  | pushBytes

def Twin.proc : Twin → Opcode
  | .deref t => .OC_PROC_DEREF t
  | .assign t => .OC_PROC_ASSIGN t
  | .assignAndPush t => .OC_PROC_ASSIGN_AND_PUSH t
  | .memcpy s => .OC_PROC_MEMCPY s
  | .pushBytes => .OC_PROC_PUSH_BYTES

def Twin.plain : Twin → Opcode
  | .deref t => .OC_DEREF t
  | .assign t => .OC_ASSIGN t
  | .assignAndPush t => .OC_ASSIGN_AND_PUSH t
  | .memcpy s => .OC_MEMCPY s
  | .pushBytes => .OC_PUSH_BYTES

/-- The addresses among the operands on the stack. -/
def Twin.addresses (m : Machine) : Twin → List Word
  | .deref _ | .pushBytes => [m.slot 0]
  | .assign _ | .assignAndPush _ => [m.slot 1]
  | .memcpy _ => [m.slot 1, m.slot 0]

/-- Both go on, with the same memory, stack pointer and text pointer. -/
def SameEffect (o o' : Outcome) : Prop :=
  ∃ m m', o = .next m ∧ o' = .next m' ∧ m.mem = m'.mem ∧ m.sp = m'.sp ∧ m.pc = m'.pc

/-- The value is one of an int of `n` bytes. -/
def FitsSigned (n : Nat) (v : Word) : Prop := -2 ^ (8 * n - 1) ≤ v.toInt ∧ v.toInt < 2 ^ (8 * n - 1)

/-- Where the byte `j` of the top word comes from, once the low `w` bytes of that word are
stored at `a`: the store may have hit the word itself. -/
def rereadIndex (m : Machine) (a : Word) (w j : Nat) : Nat :=
  if (m.sp + BitVec.ofNat 64 j - a).toNat < w then (m.sp + BitVec.ofNat 64 j - a).toNat else j

/-- The value that is stored and pushed is not changed by the way through a temporary: read
again byte by byte after the store it is what the temporary holds, and each byte of the store
that the push leaves in place is one of the temporary. -/
def PushUnchanged (m : Machine) (t : CellKind) : Prop :=
  (∀ j < 8, byteOf (m.slot 0) (rereadIndex m (m.slot 1) (cellWidth t) j) =
    byteOf (cellTemp t (m.slot 0)) j) ∧
  ∀ i < cellWidth t, 8 ≤ (m.slot 1 + BitVec.ofNat 64 i - (m.sp + words 1)).toNat →
    byteOf (m.slot 0) i = byteOf (cellTemp t (m.slot 0)) i

/-- When a PROC_ opcode loses nothing. -/
def Unchanged (env : Env) (m : Machine) : Twin → Prop
  | .deref .SIGNED_LONG => FitsSigned 4 (loadWord m.mem (m.slot 0))
  | .deref .UNSIGNED_LONG => (loadWord m.mem (m.slot 0)).toNat < 2 ^ 32
  | .assign .LONG => FitsSigned 4 (m.slot 0)
  | .assignAndPush .BYTE => PushUnchanged m .BYTE
  | .assignAndPush .WORD => PushUnchanged m .WORD
  | .assignAndPush .LONG => PushUnchanged m .LONG
  | .pushBytes =>
    m.get 4 < 4 ∧ (env.isCiAddr (m.slot 1) ∨
      ∃ bs, env.readproc m.written (unsignedOf 4 (m.slot 0)) (m.get 4) = some bs ∧
        bs.toList = readBytes m.mem (m.slot 0) (m.get 4))
  | _ => True

/-! ## Temporaries -/

theorem signedOf_toInt (n : Nat) (hn : 8 * n ≤ 64) (v : Word) :
    (signedOf n v).toInt = v.toInt.bmod (2 ^ (8 * n)) := by
  unfold signedOf
  rw [BitVec.toInt_signExtend_of_le hn, BitVec.toInt_setWidth]
  have hdvd : 2 ^ (8 * n) ∣ 2 ^ 64 := Nat.pow_dvd_pow 2 hn
  rw [BitVec.toInt_eq_toNat_bmod, Int.bmod_bmod_of_dvd hdvd]

theorem signedOf_eq_self_iff (n : Nat) (h0 : 0 < n) (hn : 8 * n ≤ 64) (v : Word) :
    signedOf n v = v ↔ FitsSigned n v := by
  have hpow : (2 : Int) ^ (8 * n) = 2 * 2 ^ (8 * n - 1) := by
    rw [← Int.pow_succ']
    congr 1
    omega
  unfold FitsSigned
  rw [← BitVec.toInt_inj, signedOf_toInt n hn]
  have hlo := Int.le_bmod (x := v.toInt) (m := 2 ^ (8 * n)) (Nat.two_pow_pos _)
  have hhi := Int.bmod_lt (x := v.toInt) (m := 2 ^ (8 * n)) (Nat.two_pow_pos _)
  constructor
  · intro h
    rw [h] at hlo hhi
    push_cast at hlo hhi
    omega
  · rintro ⟨h1, h2⟩
    apply Int.bmod_eq_of_le_mul_two
    · push_cast
      omega
    · push_cast
      omega

theorem unsignedOf_eq_self_iff (v : Word) : unsignedOf 4 v = v ↔ v.toNat < 2 ^ 32 := by
  unfold unsignedOf
  rw [← BitVec.toNat_inj]
  simp only [BitVec.toNat_setWidth]
  have := v.isLt
  omega

theorem toNat_signedOf_mod (n : Nat) (hn : 8 * n ≤ 64) (v : Word) :
    (signedOf n v).toNat % 2 ^ (8 * n) = v.toNat % 2 ^ (8 * n) := by
  have h : (signedOf n v).setWidth (8 * n) = v.setWidth (8 * n) := by
    apply BitVec.eq_of_getLsbD_eq
    intro i hi
    have h64 : i < 64 := by omega
    simp [signedOf, BitVec.getElem_signExtend, hi, h64]
  have h2 := congrArg BitVec.toNat h
  rwa [BitVec.toNat_setWidth, BitVec.toNat_setWidth] at h2

/-- The low bytes go through a temporary unchanged. -/
theorem byteOf_signedOf (n i : Nat) (hn : n ≤ 8) (hi : i < n) (v : Word) :
    byteOf (signedOf n v) i = byteOf v i := by
  have hbyte : ∀ x : Nat, x / 256 ^ i % 256 = x % 2 ^ (8 * n) / 256 ^ i % 256 := by
    intro x
    have hsplit : 2 ^ (8 * n) = 256 ^ i * (256 * 256 ^ (n - i - 1)) := by
      rw [Nat.pow_mul, ← Nat.pow_succ', ← Nat.pow_add]
      congr 1
      omega
    rw [hsplit, Nat.mod_mul_right_div_self, Nat.mod_mul_right_mod]
  apply BitVec.eq_of_toNat_eq
  unfold byteOf
  rw [BitVec.toNat_ofNat, BitVec.toNat_ofNat]
  calc (signedOf n v).toNat / 256 ^ i % 2 ^ 8
      = (signedOf n v).toNat % 2 ^ (8 * n) / 256 ^ i % 256 := hbyte _
    _ = v.toNat % 2 ^ (8 * n) / 256 ^ i % 256 := by rw [toNat_signedOf_mod n (by omega)]
    _ = v.toNat / 256 ^ i % 2 ^ 8 := (hbyte _).symm

theorem store_signedOf (mem : Mem 64) (a v : Word) (n : Nat) (hn : n ≤ 8) :
    store mem a n (signedOf n v) = store mem a n v := by
  funext x
  rw [store_apply _ _ _ _ _ hn, store_apply _ _ _ _ _ hn]
  split
  case isTrue h => exact byteOf_signedOf n _ hn h v
  case isFalse => rfl

theorem store_inj (mem : Mem 64) (a v w : Word) : store mem a 8 v = store mem a 8 w ↔ v = w := by
  constructor
  · intro h
    have h2 := congrArg (fun mem => loadWord mem a) h
    rwa [loadWord_store, loadWord_store] at h2
  · rintro rfl
    rfl

/-! ## The pairs one by one -/

theorem sameEffect_next (m m' : Machine) :
    SameEffect (.next m) (.next m') ↔ m.mem = m'.mem ∧ m.sp = m'.sp ∧ m.pc = m'.pc := by
  constructor
  · rintro ⟨m1, m2, h1, h2, h⟩
    cases h1
    cases h2
    exact h
  · intro h
    exact ⟨m, m', rfl, rfl, h⟩

variable {env : Env} {m : Machine}

theorem deref_iff (t : LoadKind) (h : env.isCiAddr (m.slot 0) = true) :
    SameEffect (procDeref env t m) (.next (deref t m)) ↔
      procFetch t m.mem (m.slot 0) = fetch t m.mem (m.slot 0) := by
  unfold procDeref deref
  simp only [h, if_true, sameEffect_next, setSlot_sp, setSlot_pc, and_true]
  exact store_inj _ _ _ _

theorem assign_iff (t : CellKind) (h : env.isCiAddr (m.slot 1) = true) :
    SameEffect (procAssign env t m) (.next (assign t m)) ↔
      store m.mem (m.slot 1) (cellWidth t) (cellTemp t (m.slot 0)) =
        store m.mem (m.slot 1) (cellWidth t) (m.slot 0) := by
  unfold procAssign procStore assign
  simp only [h, if_true, sameEffect_next]
  cases t <;> simp [cellPopsFirst, storeAt]

/-- The word read again at the stack pointer after the store, byte by byte. -/
theorem reread_iff (m : Machine) (a d : Word) (w : Nat) (hw : w ≤ 8) :
    loadWord (store m.mem a w (m.slot 0)) m.sp = d ↔
      ∀ j < 8, byteOf (m.slot 0) (rereadIndex m a w j) = byteOf d j := by
  have hbyte : ∀ j < 8, byteOf (loadWord (store m.mem a w (m.slot 0)) m.sp) j =
      byteOf (m.slot 0) (rereadIndex m a w j) := by
    intro j hj
    rw [byteOf_loadWord _ _ _ hj, store_apply _ _ _ _ _ hw]
    unfold rereadIndex
    split
    case isTrue => rfl
    case isFalse => rw [slot_zero, byteOf_loadWord _ _ _ hj]
  constructor
  · intro h j hj
    rw [← hbyte j hj, h]
  · intro h
    apply eq_of_byteOf
    intro j hj
    rw [hbyte j hj, h j hj]

/-- Two stores under two pushes: the pushed words are the same, and so are the bytes of the
stores beside them. -/
theorem store_push_iff (mem : Mem 64) (a b v d r : Word) (w : Nat) (hw : w ≤ 8) :
    store (store mem a w d) b 8 d = store (store mem a w v) b 8 r ↔
      r = d ∧ ∀ i < w, 8 ≤ (a + BitVec.ofNat 64 i - b).toNat → byteOf v i = byteOf d i := by
  constructor
  · intro h
    constructor
    · have h2 := congrArg (fun mem => loadWord mem b) h
      simp only [loadWord_store] at h2
      exact h2.symm
    · intro i hi hb
      have h2 := congrFun h (a + BitVec.ofNat 64 i)
      rw [store_apply _ b _ _ _ (Nat.le_refl 8), store_apply _ b _ _ _ (Nat.le_refl 8),
        if_neg (by omega), if_neg (by omega), store_apply _ _ _ _ _ hw,
        store_apply _ _ _ _ _ hw, add_ofNat_sub_toNat _ _ (by omega), if_pos hi,
        if_pos hi] at h2
      exact h2.symm
  · rintro ⟨rfl, h⟩
    funext x
    rw [store_apply _ b _ _ _ (Nat.le_refl 8), store_apply _ b _ _ _ (Nat.le_refl 8)]
    split
    case isTrue => rfl
    case isFalse hb =>
      rw [store_apply _ _ _ _ _ hw, store_apply _ _ _ _ _ hw]
      split
      case isTrue ha =>
        have hx : a + BitVec.ofNat 64 (x - a).toNat = x := by
          rw [BitVec.ofNat_toNat, BitVec.setWidth_eq, BitVec.add_comm, BitVec.sub_add_cancel]
        exact (h _ ha (by rw [hx]; omega)).symm
      case isFalse => rfl

theorem assignAndPush_iff (t : CellKind) (hw : cellWidth t ≤ 8) (ht : cellPopsFirst t = false)
    (h : env.isCiAddr (m.slot 1) = true) :
    SameEffect (procAssignAndPush env t m) (.next (assignAndPush t m)) ↔ PushUnchanged m t := by
  unfold procAssignAndPush procStore assignAndPush PushUnchanged
  simp only [h, ht, if_true, sameEffect_next, addSp_sp, setSlot_sp, addSp_pc, setSlot_pc,
    addSp_mem, setSlot_mem, storeAt_mem, storeAt_sp, storeAt_pc, and_true, Bool.false_eq_true,
    if_false]
  rw [← reread_iff m (m.slot 1) _ (cellWidth t) hw, slot_zero (storeAt _ _ _ _), storeAt_mem,
    storeAt_sp]
  exact store_push_iff _ _ _ _ _ _ _ hw

theorem assignAndPush_same (t : CellKind) (ht : cellPopsFirst t = true)
    (h : env.isCiAddr (m.slot 1) = true) :
    SameEffect (procAssignAndPush env t m) (.next (assignAndPush t m)) := by
  unfold procAssignAndPush procStore assignAndPush
  simp only [h, ht, if_true, sameEffect_next]
  cases t with
  | BYTE | WORD | LONG => simp [cellPopsFirst] at ht
  | LONG_LONG | FLOAT | DOUBLE => exact ⟨rfl, rfl, rfl⟩

theorem memcpy_same (nbytes : Nat) (h1 : env.isCiAddr (m.slot 1) = true)
    (h0 : env.isCiAddr (m.slot 0) = true) : procMemcpy env m nbytes = .next (memcpy m nbytes) := by
  unfold procMemcpy
  simp only [h1, h0, if_true]

theorem words_inj {i j : Nat} (hi : i < 2 ^ 61) (hj : j < 2 ^ 61) (h : words i = words j) :
    i = j := by
  have h2 := congrArg BitVec.toNat h
  unfold words at h2
  rw [BitVec.toNat_ofNat, BitVec.toNat_ofNat] at h2
  omega

/-- A push of four bytes or more moves the stack pointer further without the process. -/
theorem pushBytes_short (h : SameEffect (procPushBytes env m) (.next (pushBytes m))) :
    m.get 4 < 4 := by
  obtain ⟨m1, m2, h1, h2, -, hsp, -⟩ := h
  cases h2
  have hsp1 : m1.sp = m.sp - words (m.get 4 / 8) + words 1 := by
    unfold procPushBytes readData at h1
    dsimp only at h1
    split at h1
    · cases h1
      rfl
    · split at h1
      · cases h1
      · cases h1
        rfl
  have hsp2 : (pushBytes m).sp = m.sp - words (m.get 4 / 4) + words 1 := rfl
  rw [hsp1, hsp2, BitVec.add_left_inj, BitVec.sub_right_inj] at hsp
  have hget : m.get 4 < 2 ^ 32 := load_lt m.text m.pc 4
  have := words_inj (by omega) (by omega) hsp
  omega

theorem raised_slot (m : Machine) : ((m.subSp 0).addSp 1).slot 0 = m.slot 1 := by
  have hsp : m.sp - words 0 + words 1 + words 0 = m.sp + words 1 := by
    simp [words]
  unfold Machine.slot
  rw [addSp_sp, addSp_mem, subSp_sp, subSp_mem, hsp]

theorem writeBytes_inj (mem : Mem 64) (a : Word) (bs cs : List (BitVec 8))
    (hlen : bs.length = cs.length) (hn : bs.length ≤ 2 ^ 64) :
    writeBytes mem a bs = writeBytes mem a cs ↔ bs = cs := by
  constructor
  · intro h
    have h2 := congrArg (fun mem => readBytes mem a bs.length) h
    have hr := readBytes_writeBytes mem a cs (by omega)
    rw [← hlen] at hr
    simpa only [readBytes_writeBytes mem a bs hn, hr] using h2
  · intro h
    rw [h]

theorem pushBytes_iff :
    SameEffect (procPushBytes env m) (.next (pushBytes m)) ↔ Unchanged env m .pushBytes := by
  unfold Unchanged
  by_cases hlt : m.get 4 < 4
  case neg =>
    constructor
    · exact fun h => absurd (pushBytes_short h) hlt
    · exact fun h => absurd h.1 hlt
  have h4 : m.get 4 / 4 = 0 := by omega
  have h8 : m.get 4 / 8 = 0 := by omega
  unfold procPushBytes pushBytes readData
  simp only [h4, h8, raised_slot, hlt, true_and]
  cases hci : env.isCiAddr (m.slot 1) with
  | true =>
    simp only [if_true, true_or, iff_true]
    exact ⟨_, _, rfl, rfl, rfl, rfl, rfl⟩
  | false =>
  simp only [Bool.false_eq_true, if_false, false_or]
  have hwritten : ((m.subSp 0).addSp 1).written = m.written := rfl
  rw [hwritten]
  cases hr : env.readproc m.written (unsignedOf 4 (m.slot 0)) (m.get 4) with
  | none =>
    constructor
    · rintro ⟨m1, m2, h1, -⟩
      cases h1
    · rintro ⟨bs, h, -⟩
      cases h
  | some bs =>
    have hlen : bs.toList.length = m.get 4 := Vector.length_toList
    simp only [sameEffect_next, putBytes_mem, putBytes_sp, putBytes_pc, and_true,
      Option.some.injEq, exists_eq_left']
    exact writeBytes_inj _ _ _ _ (by rw [length_readBytes, hlen]) (by omega)

/-! ## The law -/

theorem unchanged_of_popsFirst (t : CellKind) (ht : cellPopsFirst t = true) :
    Unchanged env m (.assignAndPush t) := by
  cases t with
  | BYTE | WORD | LONG => simp [cellPopsFirst] at ht
  | LONG_LONG | FLOAT | DOUBLE => trivial

/-- On addresses of the interpreter a PROC_ opcode has the effect of the plain one exactly when
it loses nothing. -/
theorem a_proc_opcode_acts_as_the_plain_one_when_nothing_is_cut_off (env : Env) (m : Machine)
    (p : Twin) (h : ∀ a ∈ p.addresses m, env.isCiAddr a = true) :
    SameEffect (execOp env p.proc m) (execOp env p.plain m) ↔ Unchanged env m p := by
  cases p with
  | deref t =>
    have h0 := h (m.slot 0) (List.mem_singleton_self _)
    refine (deref_iff t h0).trans ?_
    cases t with
    | SIGNED_LONG => exact signedOf_eq_self_iff 4 (by decide) (by decide) _
    | UNSIGNED_LONG => exact unsignedOf_eq_self_iff _
    | _ => exact iff_of_true rfl trivial
  | assign t =>
    have h1 := h (m.slot 1) (List.mem_singleton_self _)
    refine (assign_iff t h1).trans ?_
    cases t with
    | LONG => exact (store_inj _ _ _ _).trans (signedOf_eq_self_iff 4 (by decide) (by decide) _)
    | BYTE => exact iff_of_true (store_signedOf _ _ _ 1 (by decide)) trivial
    | WORD => exact iff_of_true (store_signedOf _ _ _ 2 (by decide)) trivial
    | _ => exact iff_of_true rfl trivial
  | assignAndPush t =>
    have h1 := h (m.slot 1) (List.mem_singleton_self _)
    by_cases ht : cellPopsFirst t = true
    · exact iff_of_true (assignAndPush_same t ht h1) (unchanged_of_popsFirst t ht)
    · have hiff := assignAndPush_iff t (by cases t <;> decide) (by simpa using ht) h1
      cases t with
      | BYTE | WORD | LONG => exact hiff
      | LONG_LONG | FLOAT | DOUBLE => simp [cellPopsFirst] at ht
  | memcpy s =>
    have h1 := h (m.slot 1) (List.mem_cons_self ..)
    have h0 := h (m.slot 0) (List.mem_cons_of_mem _ (List.mem_singleton_self _))
    have hsame := @memcpy_same env (past m s) (m.get s.nbytes) (by simpa [past] using h1)
      (by simpa [past] using h0)
    refine iff_of_true ?_ trivial
    change SameEffect (procMemcpy env (past m s) (m.get s.nbytes))
      (.next (memcpy (past m s) (m.get s.nbytes)))
    rw [hsame]
    exact ⟨_, _, rfl, rfl, rfl, rfl, rfl⟩
  | pushBytes => exact pushBytes_iff

/-- Beside the top word a store does not change what is read again. -/
theorem pushUnchanged_of_apart (m : Machine) (t : CellKind)
    (hapart : ∀ j < 8, cellWidth t ≤ (m.sp + BitVec.ofNat 64 j - m.slot 1).toNat)
    (hfits : cellTemp t (m.slot 0) = m.slot 0) : PushUnchanged m t := by
  unfold PushUnchanged rereadIndex
  rw [hfits]
  constructor
  · intro j hj
    have := hapart j hj
    rw [if_neg (by omega)]
  · intro i _ _
    rfl

/-- A machine whose only data is the word 2^32 at the address 0, with the stack pointer at 64. -/
def longMachine : Machine where
  text := fun _ => 0#8
  mem := fun x => if x = 4#64 then 1#8 else 0#8
  files := fun _ => ⟨fun _ => ⟨0, false, 0⟩, fun _ => 0, true, 0, 0, 0, 0, fun _ => 0⟩
  pc := 0
  sp := 64
  fp := 64
  cf := 0
  retval := 0
  written := []

def noFloats (w : Nat) : FloatArith w where
  neg := id
  arith := fun _ a _ => a
  isZero := fun _ => false
  compare := fun _ _ _ => false
  ofSigned := fun _ => 0
  ofUnsigned := fun _ => 0
  toSigned := fun _ => 0
  toUnsigned := fun _ => 0

/-- No debugged process and no library; all addresses below 4096 are data. -/
def quietEnv : Env where
  procfp := 0
  procap := 0
  procsp := 0
  proccfa := 0
  mindata := 0
  maxdata := 4096
  minsp := 0
  maxsp := 4096
  cftab := 0
  readproc := fun _ _ _ => none
  writeproc := fun _ _ _ => false
  loadfunc := fun _ _ => none
  libfunc := fun _ _ _ m => ⟨.CI_ER_CONTINUE, 0, m.mem, m.written⟩
  indirect_call_proc := fun _ _ _ m => ⟨.CI_ER_INDIRECT_CALL_FAILED, 0, m.mem, m.written⟩
  float := noFloats 32
  double := noFloats 64
  floatToDouble := fun _ => 0
  doubleToFloat := fun _ => 0
  stale := fun _ => 0

theorem longMachine_slot : longMachine.slot 0 = 0#64 := by with_unfolding_all decide

theorem longMachine_word : loadWord longMachine.mem 0#64 = 2#64 ^ 32 := by with_unfolding_all decide

/-- A byte goes through unchanged. -/
theorem a_proc_load_of_a_byte_is_plain :
    (∀ a ∈ (Twin.deref .SIGNED_BYTE).addresses longMachine, quietEnv.isCiAddr a = true) ∧
    SameEffect (execOp quietEnv (Twin.deref .SIGNED_BYTE).proc longMachine)
      (execOp quietEnv (Twin.deref .SIGNED_BYTE).plain longMachine) := by
  have haddr : ∀ a ∈ (Twin.deref .SIGNED_BYTE).addresses longMachine,
      quietEnv.isCiAddr a = true := by
    intro a ha
    rw [List.mem_singleton.mp ha, longMachine_slot]
    decide
  exact ⟨haddr, (a_proc_opcode_acts_as_the_plain_one_when_nothing_is_cut_off quietEnv longMachine
    _ haddr).mpr trivial⟩

/-- The long 2^32 is loaded as 0 by the PROC_ opcode. -/
theorem a_proc_load_of_a_long_is_not_plain :
    ¬ ∀ env m (p : Twin), (∀ a ∈ p.addresses m, env.isCiAddr a = true) →
      SameEffect (execOp env p.proc m) (execOp env p.plain m) := by
  intro h
  have haddr : quietEnv.isCiAddr (longMachine.slot 0) = true := by
    rw [longMachine_slot]
    decide
  have hsame := h quietEnv longMachine (.deref .SIGNED_LONG)
    (fun a ha => by rw [List.mem_singleton.mp ha]; exact haddr)
  have heq := (deref_iff .SIGNED_LONG haddr).mp hsame
  have hfits := (signedOf_eq_self_iff 4 (by decide) (by decide) _).mp heq
  rw [longMachine_slot, longMachine_word] at hfits
  exact absurd hfits (by unfold FitsSigned; decide)

end ups_rules.proc_opcodes
