-- The text of a program with traps in it (xc_tswap in xc_text.c). An instruction that no trap
-- touches does in it what it does without them.
import Ups.NextPc

open le_bytes
open ups_rules.machine
open ups_rules.opcodes
open ups_rules.execute
open ups_rules.next_pc

namespace ups_rules.traps

/-! ## The pure model -/

/-- `GETOPCODE` -/
def getOpcode (text : Mem 64) (pc : Word) : Nat := load text pc 2

/-- `PUTOPCODE` -/
def putOpcode (text : Mem 64) (pc : Word) (opcode : Nat) : Mem 64 :=
  writeBytes text pc (leBytes 2 opcode)

/-- The text with a trap at each of some addresses. -/
def plant : List Word → Mem 64 → Mem 64
  | [], text => text
  | a :: as, text => plant as (putOpcode text a Opcode.OC_TRAP.num)

def plantImage (traps : List Word) (im : Image) : Image := { im with text := plant traps im.text }

def trapped (traps : List Word) (m : Machine) : Machine := { m with text := plant traps m.text }

/-- What is outside of the machine neither reads nor writes the text where the traps are, and does
not stop the machine with a trap of its own. -/
structure IgnoresTraps (env : Env) (traps : List Word) : Prop where
  loadfunc : ∀ cf im,
    env.loadfunc cf (plantImage traps im) = (env.loadfunc cf im).map (plantImage traps)
  libfunc : ∀ f args typecode m,
    env.libfunc f args typecode (trapped traps m) = env.libfunc f args typecode m
  indirect_call_proc : ∀ addr nargs typecode m,
    env.indirect_call_proc addr nargs typecode (trapped traps m) =
      env.indirect_call_proc addr nargs typecode m
  stale : ∀ m, env.stale (trapped traps m) = env.stale m
  libfunc_res : ∀ f args typecode m, (env.libfunc f args typecode m).res ≠ .CI_ER_TRAP
  indirect_call_res : ∀ addr nargs typecode m,
    (env.indirect_call_proc addr nargs typecode m).res ≠ .CI_ER_TRAP

/-- No trap touches the `n` bytes at the text pointer. -/
def Clear (traps : List Word) (m : Machine) (n : Nat) : Prop := ∀ a ∈ traps, Apart a 2 m.pc n

/-- The same outcome, with the traps in the text, and no stop at a trap. -/
inductive Same (traps : List Word) : Outcome → Outcome → Prop where
  | next (m : Machine) : Same traps (.next (trapped traps m)) (.next m)
  | quit (res : ExecResult) (m : Machine) (h : res ≠ .CI_ER_TRAP) :
    Same traps (.quit res (trapped traps m)) (.quit res m)
  | panic : Same traps .panic .panic

/-! ## Reading around the traps -/

section
variable {traps : List Word} {env : Env} {m : Machine} {n k : Nat}

@[simp] theorem trapped_pc : (trapped traps m).pc = m.pc := rfl
@[simp] theorem trapped_sp : (trapped traps m).sp = m.sp := rfl
@[simp] theorem trapped_fp : (trapped traps m).fp = m.fp := rfl
@[simp] theorem trapped_cf : (trapped traps m).cf = m.cf := rfl
@[simp] theorem trapped_mem : (trapped traps m).mem = m.mem := rfl
@[simp] theorem trapped_files : (trapped traps m).files = m.files := rfl
@[simp] theorem trapped_written : (trapped traps m).written = m.written := rfl
@[simp] theorem trapped_slot (i : Nat) : (trapped traps m).slot i = m.slot i := rfl

theorem load_putOpcode_of_apart (text : Mem 64) (a pc : Word) (opcode : Nat)
    (h : Apart a 2 pc n) : load (putOpcode text a opcode) pc n = load text pc n := by
  unfold load putOpcode
  rw [readBytes_writeBytes_of_apart _ _ _ _ _ (by simpa using h)]

theorem load_plant_of_apart (text : Mem 64) (pc : Word) (h : ∀ a ∈ traps, Apart a 2 pc n) :
    load (plant traps text) pc n = load text pc n := by
  induction traps generalizing text with
  | nil => rfl
  | cons a as ih =>
    rw [plant, ih _ fun b hb => h b (List.mem_cons_of_mem _ hb)]
    exact load_putOpcode_of_apart text a pc _ (h a List.mem_cons_self)

theorem Clear.mono (h : Clear traps m n) (hk : k ≤ n) : Clear traps m k :=
  fun a ha i hi => h a ha i (by omega)

theorem Clear.skip (h : Clear traps m (k + n)) : Clear traps (m.skip k) n := by
  intro a ha i hi
  have hi' := h a ha (k + i) (by omega)
  rwa [BitVec.ofNat_add, ← BitVec.add_assoc] at hi'

theorem Clear.get (h : Clear traps m n) (hk : k ≤ n) : (trapped traps m).get k = m.get k :=
  load_plant_of_apart m.text m.pc (h.mono hk)

theorem Clear.operand {s : OpSize} (h : Clear traps m n) (hs : s.nbytes ≤ n) :
    operand (trapped traps m) s = operand m s := by
  unfold execute.operand
  rw [h.get hs]

theorem Clear.jump (h : Clear traps m n) (hn : 2 ≤ n) :
    (trapped traps m).jump = trapped traps m.jump := by
  unfold Machine.jump
  rw [h.get hn]
  rfl

/-! ## The parts of an instruction -/

theorem Same.of_next {m' : Machine} (h : m' = trapped traps m) :
    Same traps (.next m') (.next m) := h ▸ .next m

theorem Same.of_quit {m' : Machine} {res : ExecResult} (h : m' = trapped traps m)
    (hres : res ≠ .CI_ER_TRAP) : Same traps (.quit res m') (.quit res m) := h ▸ .quit res m hres

theorem same_readData {a : Word} {nbytes : Nat} {f g : List (BitVec 8) → Outcome}
    (h : ∀ bs, Same traps (f bs) (g bs)) :
    Same traps (readData env (trapped traps m) a nbytes f) (readData env m a nbytes g) := by
  unfold readData
  rw [trapped_written]
  cases env.readproc m.written a nbytes with
  | none => exact .quit _ m (by decide)
  | some bs => exact h bs.toList

theorem same_writeData {a : Word} {bs : List (BitVec 8)} {f g : Machine → Outcome}
    (h : ∀ m', Same traps (f (trapped traps m')) (g m')) :
    Same traps (writeData env (trapped traps m) a bs f) (writeData env m a bs g) := by
  unfold writeData
  rw [trapped_written]
  split
  · exact h { m with written := m.written ++ [(a, bs)] }
  · exact .quit _ m (by decide)

theorem same_procStore (t : CellKind) {f g : Machine → Outcome}
    (h : ∀ m', Same traps (f (trapped traps m')) (g m')) :
    Same traps (procStore env t (trapped traps m) f) (procStore env t m g) := by
  unfold procStore
  have hpop : (if cellPopsFirst t then (trapped traps m).addSp 2 else trapped traps m) =
      trapped traps (if cellPopsFirst t then m.addSp 2 else m) := by
    split <;> rfl
  dsimp only
  rw [hpop, trapped_slot, trapped_slot]
  split
  · exact h (storeAt _ _ _ _)
  · exact same_writeData h

theorem same_procAssign (t : CellKind) :
    Same traps (procAssign env t (trapped traps m)) (procAssign env t m) := by
  apply same_procStore
  intro m'
  split
  · exact .next m'
  · exact .of_next rfl

theorem same_procAssignAndPush (t : CellKind) :
    Same traps (procAssignAndPush env t (trapped traps m)) (procAssignAndPush env t m) := by
  apply same_procStore
  intro m'
  split
  · exact .of_next rfl
  · exact .of_next rfl

theorem assignAndPush_trapped (t : CellKind) :
    assignAndPush t (trapped traps m) = trapped traps (assignAndPush t m) := by
  unfold assignAndPush
  dsimp only
  split <;> rfl

theorem same_procDeref (t : LoadKind) (hign : IgnoresTraps env traps) :
    Same traps (procDeref env t (trapped traps m)) (procDeref env t m) := by
  unfold procDeref
  dsimp only
  rw [hign.stale, trapped_slot, trapped_written]
  split
  · exact .of_next rfl
  · cases env.readproc m.written (m.slot 0) (loadProcWidth t) with
    | none =>
      refine .of_quit ?_ (by decide)
      split <;> rfl
    | some bs => exact .of_next rfl

theorem multiArrow_trapped (offset addr : Word) (count : Nat) :
    multiArrow env (trapped traps m) offset count addr = multiArrow env m offset count addr := by
  induction count generalizing addr with
  | zero => rfl
  | succ count ih =>
    unfold multiArrow
    simp only [ih]
    rfl

theorem same_procMemcpy (nbytes : Nat) :
    Same traps (procMemcpy env (trapped traps m) nbytes) (procMemcpy env m nbytes) := by
  unfold procMemcpy
  dsimp only
  rw [trapped_slot, trapped_slot]
  split
  · split
    · exact .of_next rfl
    · exact same_readData fun bs => .of_next rfl
  · split
    · exact same_writeData fun m' => .of_next rfl
    · exact same_readData fun bs => same_writeData fun m' => .of_next rfl

theorem same_procPushBytes (h : Clear traps m 4) :
    Same traps (procPushBytes env (trapped traps m)) (procPushBytes env m) := by
  unfold procPushBytes
  have hsp : ((trapped traps m).subSp (m.get 4 / 8)).addSp 1 =
      trapped traps ((m.subSp (m.get 4 / 8)).addSp 1) := rfl
  dsimp only
  rw [h.get (Nat.le_refl 4), hsp, trapped_slot, trapped_slot]
  split
  · exact .of_next rfl
  · exact same_readData fun bs => .of_next rfl

theorem same_divSigned (t : NumKind) :
    Same traps (divSigned env t (trapped traps m)) (divSigned env t m) := by
  unfold divSigned
  split
  · exact .of_next rfl
  · exact .of_next rfl
  · rw [trapped_slot, trapped_slot]
    split
    · exact .quit _ m (by decide)
    · exact .of_next rfl

theorem same_chkdivSigned (t : NumKind) :
    Same traps (chkdivSigned env t (trapped traps m)) (chkdivSigned env t m) := by
  have hzero : divisorIsZero env t (trapped traps m) = divisorIsZero env t m := by
    cases t <;> rfl
  unfold chkdivSigned
  rw [hzero]
  split
  · refine .of_quit ?_ (by decide)
    split <;> rfl
  · exact same_divSigned t

theorem same_divUnsigned (f : Word → Word → Word) :
    Same traps (divUnsigned f (trapped traps m)) (divUnsigned f m) := by
  unfold divUnsigned
  rw [trapped_slot]
  split
  · exact .quit _ m (by decide)
  · exact .of_next rfl

theorem same_chkdivUnsigned (t : IntKind) :
    Same traps (chkdivUnsigned t (trapped traps m)) (chkdivUnsigned t m) := by
  unfold chkdivUnsigned
  rw [trapped_slot]
  split
  · refine .of_quit ?_ (by decide)
    split <;> rfl
  · exact .of_next rfl

end

/-! ## Calls, returns and jumps -/

section
variable {traps : List Word} {env : Env} {m : Machine} {n : Nat}

theorem ensureLoaded_trapped (hign : IgnoresTraps env traps) (cf : Word) (m : Machine) :
    ensureLoaded env cf (trapped traps m) = (ensureLoaded env cf m).map (trapped traps) := by
  unfold ensureLoaded
  rw [trapped_files]
  split
  · rfl
  · show (env.loadfunc cf (plantImage traps m.toImage)).map _ = _
    rw [hign.loadfunc, Option.map_map, Option.map_map]
    rfl

theorem same_leaveCall {e : CallEffect} (h : e.res ≠ .CI_ER_TRAP) :
    Same traps (leaveCall (trapped traps m) e) (leaveCall m e) := by
  unfold leaveCall
  dsimp only
  split
  · exact .of_next rfl
  · exact .of_quit rfl h

theorem libArgs_trapped (nargs : Nat) : libArgs (trapped traps m) nargs = libArgs m nargs := rfl

theorem same_funcCall (hign : IgnoresTraps env traps) (h : Clear traps m 2) (fcf : Word)
    (func_index : Int) :
    Same traps (funcCall env (trapped traps m) fcf func_index) (funcCall env m fcf func_index) := by
  have htype : ((trapped traps m).skip 1).get 1 = (m.skip 1).get 1 :=
    (h.skip (k := 1) (n := 1)).get (Nat.le_refl 1)
  have hskip : (trapped traps m).skip 2 = trapped traps (m.skip 2) := rfl
  have hload : ∀ f, ensureLoaded env f
      { (trapped traps (m.skip 2)).push (trapped traps (m.skip 2)).cf with cf := f } =
      (ensureLoaded env f { (m.skip 2).push (m.skip 2).cf with cf := f }).map (trapped traps) :=
    fun f => ensureLoaded_trapped hign f { (m.skip 2).push (m.skip 2).cf with cf := f }
  unfold funcCall
  dsimp only
  rw [htype, h.get (by decide), hskip, trapped_files, libArgs_trapped, hign.libfunc,
    hign.indirect_call_proc, hload]
  split
  · exact .of_next rfl
  · split
    · -- a function of another file
      cases ensureLoaded env _ { (m.skip 2).push (m.skip 2).cf with cf := _ } with
      | none => exact .of_quit rfl (by decide)
      | some m' => exact .of_next rfl
    · split
      · exact same_leaveCall (hign.indirect_call_res _ _ _ _)
      · split
        · exact .panic
        · exact same_leaveCall (hign.libfunc_res _ _ _ _)

theorem ensureLoaded_pc {cf : Word} {m m' : Machine} (h : ensureLoaded env cf m = some m') :
    m'.pc = m.pc := by
  unfold ensureLoaded at h
  split at h
  · cases h
    rfl
  · obtain ⟨im, -, rfl⟩ := Option.map_eq_some_iff.mp h
    rfl

theorem same_callIndirect (hign : IgnoresTraps env traps) (h : Clear traps m 2) :
    Same traps (callIndirect env (trapped traps m)) (callIndirect env m) := by
  have hpop : (trapped traps m).pop = trapped traps m.pop := rfl
  unfold callIndirect
  dsimp only
  rw [hpop, trapped_slot, ensureLoaded_trapped hign]
  cases hload : ensureLoaded env (env.cftab + (m.slot 0 >>> 16) * BitVec.ofNat 64 codefileSize)
    m.pop with
  | none => exact .of_quit rfl (by decide)
  | some m' =>
    apply same_funcCall hign
    intro a ha
    rw [ensureLoaded_pc hload]
    exact h a ha

theorem retStruct_trapped (h : Clear traps m 4) :
    retStruct (trapped traps m) = trapped traps (retStruct m) := by
  have hunlink : unlink (trapped traps m) = trapped traps (unlink m) := rfl
  unfold retStruct
  dsimp only
  rw [h.get (Nat.le_refl 4), hunlink, trapped_slot, trapped_slot]
  split <;> rfl

theorem same_link (s : OpSize) (h : Clear traps m (s.nbytes + 4)) :
    Same traps (link env s (trapped traps m)) (link env s m) := by
  have hpush : (trapped traps m).push (trapped traps m).fp = trapped traps (m.push m.fp) := rfl
  have hclear : Clear traps (m.push m.fp) (s.nbytes + 4) := h
  have hpast : ∀ m : Machine, past (trapped traps m) s = trapped traps (past m s) := fun _ => rfl
  have hmax : ((trapped traps (m.push m.fp)).skip s.nbytes).get 4 =
      ((m.push m.fp).skip s.nbytes).get 4 := hclear.skip.get (Nat.le_refl 4)
  have hget : ∀ fp sp : Word,
      Machine.get { trapped traps (past (m.push m.fp) s) with fp := fp, sp := sp } 4 =
        Machine.get { past (m.push m.fp) s with fp := fp, sp := sp } 4 := fun _ _ => hmax
  unfold link
  dsimp only
  rw [hpush, hclear.operand (Nat.le_add_right _ _), hpast, hget, trapped_sp]
  split
  · exact .of_next rfl
  · exact .of_quit rfl (by decide)

theorem switchOnTable_trapped (h : Clear traps m (2 + 4 + m.get 2 * 2 + 2)) :
    switchOnTable (trapped traps m) = trapped traps (switchOnTable m) := by
  have hmin : ((trapped traps m).skip 2).get 4 = (m.skip 2).get 4 :=
    ((h.mono (by omega)).skip (k := 2) (n := 4)).get (Nat.le_refl 4)
  have hslot : ((trapped traps m).skip 2).slot 0 = (m.skip 2).slot 0 := rfl
  -- the place in the table is not behind its end
  have hjump : ∀ n ≤ m.get 2, ((((trapped traps m).skip 2).pop).skip (4 + n * 2)).jump =
      trapped traps ((((m.skip 2).pop).skip (4 + n * 2)).jump) := by
    intro n hn
    have hplace : Clear traps (((m.skip 2).skip (4 + n * 2))) 2 :=
      ((h.mono (by omega)).skip (k := 2) (n := 4 + n * 2 + 2)).skip
    exact Clear.jump (m := ((m.skip 2).pop).skip (4 + n * 2)) hplace (Nat.le_refl 2)
  unfold switchOnTable
  dsimp only
  rw [h.get (by omega), hmin, hslot]
  apply hjump
  split <;> omega

theorem switchOnChain_trapped (s : OpSize) (v : Int) (ncase : Nat) (m : Machine)
    (h : Clear traps m (ncase * (s.nbytes + 2) + 2)) :
    switchOnChain s v ncase (trapped traps m) = trapped traps (switchOnChain s v ncase m) := by
  induction ncase generalizing m with
  | zero => exact h.jump (by omega)
  | succ ncase ih =>
    have hpast : past (trapped traps m) s = trapped traps (past m s) := rfl
    have hlen : s.nbytes + 2 ≤ (ncase + 1) * (s.nbytes + 2) := Nat.le_mul_of_pos_left _ (by omega)
    unfold switchOnChain
    rw [h.operand (by omega), hpast]
    split
    · exact ((h.mono (by omega)).skip (k := s.nbytes) (n := 2)).jump (Nat.le_refl 2)
    · apply ih ((past m s).skip 2)
      apply Clear.skip (k := 2)
      apply Clear.skip (k := s.nbytes)
      apply h.mono
      rw [Nat.succ_mul]
      omega

end

/-! ## One instruction -/

/-- The bytes of the instruction at the text pointer. -/
def instructionSize (m : Machine) : Nat :=
  match opcodeOf (m.get 2) with
  | none => 2
  | some op => 2 + (ciOperandSize op ((m.skip 2).get 2)).getD 0

theorem two_le_instructionSize (m : Machine) : 2 ≤ instructionSize m := by
  unfold instructionSize
  split <;> omega

section
variable {traps : List Word} {env : Env} {m : Machine}

/-- Every instruction but a trap, with the text pointer behind its opcode. -/
theorem same_execOp (hign : IgnoresTraps env traps) (op : Opcode) (hop : op ≠ .OC_TRAP)
    (h : Clear traps m ((ciOperandSize op (m.get 2)).getD 0)) :
    Same traps (execOp env op (trapped traps m)) (execOp env op m) := by
  have hle : ∀ n : Nat, n ≤ n := Nat.le_refl
  unfold execOp
  cases op with
  | OC_TRAP => exact absurd rfl hop
  | OC_UNRESOLVED_JUMP => exact .panic
  | OC_CALL s =>
    have hclear : Clear traps (past m s) 2 := h.skip (k := s.nbytes) (n := 2)
    dsimp only
    rw [h.operand (Nat.le_add_right _ 2)]
    exact same_funcCall hign hclear _ _
  | OC_CALL_INDIRECT => exact same_callIndirect hign h
  | OC_POPMANY s | OC_NEG_CONSTPUSH s | OC_CONSTPUSH s | OC_PROC_PUSH_ADDR r s
  | OC_PUSH_STACKADDR s | OC_PUSH_AT_STACKADDR t s | OC_PUSH_AT_ADDR t s =>
    dsimp only
    rw [h.operand (hle s.nbytes)]
    exact .of_next rfl
  | OC_CHECK_SP s =>
    dsimp only
    rw [h.operand (hle s.nbytes), trapped_fp, trapped_sp]
    split
    · exact .panic
    · exact .of_next rfl
  | OC_LINK s => exact same_link s h
  | OC_PROC_MEMCPY s =>
    dsimp only
    rw [h.get (hle s.nbytes)]
    exact same_procMemcpy (m := past m s) _
  | OC_MEMCPY s =>
    dsimp only
    rw [h.get (hle s.nbytes)]
    exact .of_next rfl
  | OC_PUSH_BYTES =>
    dsimp only
    unfold pushBytes
    rw [h.get (hle 4)]
    exact .of_next rfl
  | OC_RESERVE_BYTES =>
    dsimp only
    unfold reserveBytes
    dsimp only
    rw [h.get (hle 4)]
    exact .of_next rfl
  | OC_PROC_PUSH_BYTES => exact same_procPushBytes h
  | OC_PROC_ASSIGN t => exact same_procAssign t
  | OC_PROC_ASSIGN_AND_PUSH t => exact same_procAssignAndPush t
  | OC_ASSIGN_AND_PUSH t => exact .of_next (assignAndPush_trapped t)
  | OC_PROC_DEREF t => exact same_procDeref t hign
  | OC_PUSH_FLOAT_CONST =>
    dsimp only
    unfold freshFloat
    rw [h.get (hle 4), hign.stale]
    exact .of_next rfl
  | OC_PUSH_DOUBLE_CONST =>
    dsimp only
    rw [h.get (hle 8)]
    exact .of_next rfl
  | OC_INSERT_SIGNED_BITFIELD | OC_INSERT_UNSIGNED_BITFIELD | OC_EXTRACT_SIGNED_BITFIELD
  | OC_EXTRACT_UNSIGNED_BITFIELD =>
    have hwidth : ((trapped traps m).skip 1).get 1 = (m.skip 1).get 1 :=
      (h.skip (k := 1) (n := 1)).get (hle 1)
    have hoffset : (trapped traps m).get 1 = m.get 1 := h.get (Nat.le_succ 1)
    dsimp only
    rw [hoffset, hwidth]
    exact .of_next rfl
  | OC_RET_STRUCT => exact .of_next (retStruct_trapped h)
  | OC_MULTI_ARROW =>
    dsimp only
    simp only [trapped_slot, multiArrow_trapped]
    split
    · exact .quit _ m (by decide)
    · cases multiArrow env m _ _ _ with
      | none => exact .quit _ m (by decide)
      | some addr => exact .of_next rfl
  | OC_JUMP => exact .of_next (h.jump (hle 2))
  | OC_JUMP_IF_NON_ZERO | OC_JUMP_IF_ZERO =>
    have hjump : (trapped traps m).pop.jump = trapped traps m.pop.jump :=
      Clear.jump (m := m.pop) h (hle 2)
    dsimp only
    rw [trapped_slot, hjump]
    refine .of_next ?_
    split <;> rfl
  | OC_SWITCH_ON_TABLE => exact .of_next (switchOnTable_trapped h)
  | OC_SWITCH_ON_CHAIN s =>
    have hclear : Clear traps m (2 + 4 + m.get 2 * (s.nbytes + 2) + 2) := h
    have hmin : ((trapped traps m).skip 2).get 4 = (m.skip 2).get 4 :=
      ((hclear.mono (by omega)).skip (k := 2) (n := 4)).get (hle 4)
    have hchain : Clear traps (m.pop.skip 6) (m.get 2 * (s.nbytes + 2) + 2) :=
      (hclear.mono (by omega)).skip (k := 6)
    have hval : switchval (trapped traps m) ((m.skip 2).get 4) =
      switchval m ((m.skip 2).get 4) := rfl
    dsimp only
    rw [hclear.get (by omega), hmin, hval]
    exact .of_next (switchOnChain_trapped s _ _ _ hchain)
  | OC_DIV_SIGNED t => exact same_divSigned t
  | OC_CHKDIV_SIGNED t => exact same_chkdivSigned t
  | OC_MOD | OC_DIV_UNSIGNED => exact same_divUnsigned _
  | OC_CHKDIV_UNSIGNED t => exact same_chkdivUnsigned t
  | OC_CVT_UNSIGNED_LONG_LONG_TO_FLOAT | OC_CVT_UNSIGNED_LONG_TO_FLOAT
  | OC_CVT_SIGNED_LONG_LONG_TO_FLOAT | OC_CVT_SIGNED_LONG_TO_FLOAT | OC_CVT_DOUBLE_TO_FLOAT =>
    dsimp only
    unfold freshFloat
    rw [hign.stale]
    exact .of_next rfl
  | _ =>
    -- the text is not read
    exact .of_next rfl

/-- An instruction that the traps leave alone does the same with them. -/
theorem same_step (hign : IgnoresTraps env traps) (h : Clear traps m (instructionSize m))
    (hop : opcodeOf (m.get 2) ≠ some .OC_TRAP) :
    Same traps (step env (trapped traps m)) (step env m) := by
  have hskip : (trapped traps m).skip 2 = trapped traps (m.skip 2) := rfl
  unfold step
  rw [h.get (two_le_instructionSize m), hskip]
  unfold instructionSize at h
  split
  · exact .panic
  · rename_i op hget
    rw [hget] at h hop
    exact same_execOp hign op (fun hc => hop (hc ▸ rfl)) h.skip

theorem step_of_trap (h : opcodeOf (m.get 2) = some .OC_TRAP) :
    step env m = .quit .CI_ER_TRAP (m.skip 2) := by
  unfold step
  rw [h]
  rfl

set_option maxRecDepth 8000 in
theorem opcodeOf_trap : opcodeOf Opcode.OC_TRAP.num = some .OC_TRAP := by decide

theorem IgnoresTraps.none (hign : IgnoresTraps env traps) : IgnoresTraps env [] where
  loadfunc cf im := (Option.map_id' (x := env.loadfunc cf im)).symm
  libfunc _ _ _ _ := rfl
  indirect_call_proc _ _ _ _ := rfl
  stale _ := rfl
  libfunc_res := hign.libfunc_res
  indirect_call_res := hign.indirect_call_res

/-- Only a trap stops the machine like one. -/
theorem opcode_of_quit_trap {m' : Machine} (hign : IgnoresTraps env traps)
    (h : step env m = .quit .CI_ER_TRAP m') : opcodeOf (m.get 2) = some .OC_TRAP := by
  by_contra hop
  have hsame : Same [] (step env m) (step env m) :=
    same_step hign.none (fun a ha => absurd ha List.not_mem_nil) hop
  rw [h] at hsame
  cases hsame
  contradiction

theorem getOpcode_putOpcode (text : Mem 64) (a : Word) {opcode : Nat} (h : opcode < 65536) :
    getOpcode (putOpcode text a opcode) a = opcode := by
  have hread := readBytes_writeBytes text a (leBytes 2 opcode) (by simp)
  rw [length_leBytes] at hread
  unfold getOpcode load putOpcode
  rw [hread, ofLeBytes_leBytes]
  omega

set_option maxRecDepth 8000 in
/-- A planted trap is read if no other one begins in it. -/
theorem get_plant_of_mem {a : Word} (ha : a ∈ traps)
    (hapart : ∀ b ∈ traps, b ≠ a → Apart b 2 a 2) (text : Mem 64) :
    getOpcode (plant traps text) a = Opcode.OC_TRAP.num := by
  induction traps generalizing text with
  | nil => exact absurd ha List.not_mem_nil
  | cons b bs ih =>
    have hbs : ∀ c ∈ bs, c ≠ a → Apart c 2 a 2 :=
      fun c hc => hapart c (List.mem_cons_of_mem _ hc)
    by_cases hmem : a ∈ bs
    · exact ih hmem hbs (putOpcode text b Opcode.OC_TRAP.num)
    · have hab : a = b := (List.mem_cons.mp ha).resolve_right hmem
      have hlast : ∀ c ∈ bs, Apart c 2 a 2 :=
        fun c hc => hbs c hc fun hca => hmem (hca ▸ hc)
      unfold getOpcode
      rw [plant, load_plant_of_apart _ _ hlast, hab]
      exact getOpcode_putOpcode text b (by decide)

end

end ups_rules.traps
