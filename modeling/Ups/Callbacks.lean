-- The callbacks that the interpreter's library gives to the host (ci_make_callback, callfunc and
-- call_machine_func in xc_machine.c). Every callback is the same C function: it calls the
-- function of the machine's list that was put there last.
import Mathlib.Data.List.Induction
import Mathlib.Logic.Relation
import Ups.ProcOpcodes

open le_bytes
open ups_rules.machine
open ups_rules.opcodes
open ups_rules.execute
open ups_rules.proc_opcodes

namespace ups_rules.callbacks

/-! ## The pure model -/

/-- A `callback_list_t`; the number of arguments is an int. -/
structure Callback where
  cl_func : Word
  cl_nargs : Nat
  cl_nargs_lt : cl_nargs < 2 ^ 31

/-- The two lists of a machine. -/
structure Callbacks where
  ma_callbacks : List Callback
  ma_free_callbacks : List Callback

/-- A `callback_t`, as `ci_make_callback` returns it. -/
inductive CallbackPtr where
  | callfunc

def ciMakeCallback (cs : Callbacks) (cl : Callback) : Callbacks × CallbackPtr :=
  ({ ma_callbacks := cl :: cs.ma_callbacks
     ma_free_callbacks := cs.ma_free_callbacks.tail }, .callfunc)

/-- The loop over the arguments: `sp[i] = va_arg(ap, stackword_t)`. -/
def storeArgs (args : Nat → Word) (sp : Word) : Nat → Mem 64 → Mem 64
  | 0, mem => mem
  | n + 1, mem => store (storeArgs args sp n mem) (sp + words n) 8 (args n)

/-- `TY_INT_ASSUMED` -/
def tyIntAssumed : BitVec 8 := 29#8

/-- What `call_machine_func` writes to its static text. -/
def callText (nargs : Nat) : List (BitVec 8) :=
  leBytes 2 Opcode.OC_CALL_INDIRECT.num ++ [BitVec.ofNat 8 nargs] ++ [tyIntAssumed] ++
    leBytes 2 Opcode.OC_PUSH_WORD_RETVAL.num ++ leBytes 2 Opcode.OC_TRAP.num

/-- `call_machine_func` up to the run of the machine. -/
def callMachineFunc (text : Word) (ma : Machine) (sp func : Word) (nargs : Nat) : Machine :=
  { ma with
    text := writeBytes ma.text text (callText nargs)
    mem := store ma.mem (sp - words 1) 8 func
    sp := sp - words 1
    pc := text }

/-- The call of `call_machine_func` in `callfunc`. -/
def callfuncOf (text : Word) (cl : Callback) (ma : Machine) (args : Nat → Word) : Machine :=
  let sp := ma.sp - words cl.cl_nargs
  callMachineFunc text { ma with mem := storeArgs args sp cl.cl_nargs ma.mem } sp cl.cl_func
    cl.cl_nargs

/-- `callfunc` up to the run of the machine; `none` is a null list. -/
def callfunc (text : Word) (cs : Callbacks) (ma : Machine) (args : Nat → Word) :
    Option Machine :=
  match cs.ma_callbacks with
  | [] => none
  | cl :: _ => some (callfuncOf text cl ma args)

def CallbackPtr.call (p : CallbackPtr) (text : Word) (cs : Callbacks) (ma : Machine)
    (args : Nat → Word) : Option Machine :=
  match p with
  | .callfunc => ups_rules.callbacks.callfunc text cs ma args

/-- A run of `ci_execute_machine` that stops. -/
inductive Executes (env : Env) : Machine → ExecResult → Machine → Prop where
  | quit {m m' : Machine} {res : ExecResult} (h : step env m = .quit res m') :
    Executes env m res m'
  | next {m m' m'' : Machine} {res : ExecResult} (h : step env m = .next m')
    (hrest : Executes env m' res m'') : Executes env m res m''

/-- The end of `call_machine_func` and of `callfunc`: the stopped machine has `pc - 1` for its
text pointer, and a trap in another place is a panic. -/
def callResult (text : Word) (res : ExecResult) (m : Machine) : Option Int :=
  if res = .CI_ER_TRAP ∧ m.pc - 1#64 = text + 6#64 then some (toCInt (m.slot 0)) else none

/-! ## What callbacks are for -/

/-- The machine goes from one state to another. -/
def Steps (env : Env) : Machine → Machine → Prop :=
  Relation.ReflTransGen fun m m' => step env m = .next m'

/-- The machine is about to call the function of the callback, with its arguments. -/
structure AboutToCall (cl : Callback) (args : Nat → Word) (m : Machine) : Prop where
  func : m.slot 0 = cl.cl_func
  count : (m.skip 2).get 1 = cl.cl_nargs
  args : ∀ j < cl.cl_nargs, m.slot (j + 1) = args j

/-- The called function has returned to the static text. -/
structure HasReturned (text : Word) (m : Machine) : Prop where
  pc : m.pc = text + 4#64
  retval : readBytes m.text (text + 4#64) 2 = leBytes 2 Opcode.OC_PUSH_WORD_RETVAL.num
  trap : readBytes m.text (text + 6#64) 2 = leBytes 2 Opcode.OC_TRAP.num

/-- The invocation that began in `m` comes back with a value. -/
def ComesBack (env : Env) (text : Word) (m : Machine) (v : Int) : Prop :=
  ∃ res m', Executes env m res m' ∧ callResult text res m' = some v

/-- An invocation that begins in `m` calls the function of the callback, and comes back with the
result of the function when that returns. -/
structure CallsItsOwn (env : Env) (text : Word) (cl : Callback) (args : Nat → Word)
    (m : Machine) : Prop where
  own : AboutToCall cl args m
  back : ∀ m', Steps env m m' → HasReturned text m' → ComesBack env text m (toCInt m'.retval)

inductive Event where
  | make (cl : Callback)
  /-- The callback that was made as number `i` is invoked while the machine is in `ma`. -/
  | invoke (i : Nat) (ma : Machine) (args : Nat → Word)

/-- The lists of the machine, and the callbacks in the order they were made. -/
structure Session where
  lists : Callbacks
  returned : List (Callback × CallbackPtr)

def Session.start : Session := ⟨⟨[], []⟩, []⟩

def Session.after (s : Session) : Event → Session
  | .make cl =>
    let (lists, p) := ciMakeCallback s.lists cl
    { lists := lists, returned := s.returned ++ [(cl, p)] }
  | .invoke _ _ _ => s

/-- The session after a sequence of events. An invocation may run while others do. -/
def session (es : List Event) : Session := es.foldl Session.after Session.start

/-- Every invocation of a sequence, as the callback that is invoked, the machine that runs and
the arguments, satisfies `P`. -/
def EachInvocation (P : List Event → Callback → CallbackPtr → Machine → (Nat → Word) → Prop)
    (es : List Event) : Prop :=
  ∀ before i ma args later, es = before ++ .invoke i ma args :: later →
    ∀ cl p, (session before).returned[i]? = some (cl, p) → P before cl p ma args

def EachCallsItsOwn (env : Env) (text : Word) : List Event → Prop :=
  EachInvocation fun before cl p ma args =>
    ∃ m, p.call text (session before).lists ma args = some m ∧ CallsItsOwn env text cl args m

/-- The callback does what the last one made would do, and its function does not return. -/
def EachIsTheLast (env : Env) (text : Word) : List Event → Prop :=
  EachInvocation fun before cl _ ma args =>
    ∃ last p, (session before).returned.getLast? = some (last, p) ∧ last.cl_func = cl.cl_func ∧
      last.cl_nargs % 256 = cl.cl_nargs ∧
      ∀ m', Steps env (callfuncOf text last ma args) m' → ¬ HasReturned text m'

/-! ## The start of a call -/

theorem loadWord_storeArgs (args : Nat → Word) (sp : Word) (mem : Mem 64) {n j : Nat}
    (hj : j < n) (hn : n < 2 ^ 31) :
    loadWord (storeArgs args sp n mem) (sp + words j) = args j := by
  induction n with
  | zero => omega
  | succ n ih =>
    rw [storeArgs]
    by_cases h : j = n
    · rw [h, loadWord_store]
    · rw [loadWord_store_of_apart _ _ _ _ (apart_slots sp (Ne.symm h) (by omega) (by omega))]
      exact ih (by omega) (by omega)

section
variable (text : Word) (cl : Callback) (ma : Machine) (args : Nat → Word)

theorem callfuncOf_func : (callfuncOf text cl ma args).slot 0 = cl.cl_func := by
  rw [slot_zero]
  exact loadWord_store _ _ _

theorem callfuncOf_arg {j : Nat} (hj : j < cl.cl_nargs) :
    (callfuncOf text cl ma args).slot (j + 1) = args j := by
  have hn := cl.cl_nargs_lt
  have hslot : ma.sp - words cl.cl_nargs - words 1 + words (j + 1) =
      ma.sp - words cl.cl_nargs + words j := by
    unfold words
    rw [Nat.mul_succ, BitVec.ofNat_add]
    bv_omega
  have hapart := apart_slots (ma.sp - words cl.cl_nargs - words 1) (i := 0) (j := j + 1)
    (by omega) (by omega) (by omega)
  have hzero : ma.sp - words cl.cl_nargs - words 1 + words 0 =
      ma.sp - words cl.cl_nargs - words 1 := by simp [words]
  rw [hzero, hslot] at hapart
  have hload := loadWord_storeArgs args (ma.sp - words cl.cl_nargs) ma.mem hj hn
  unfold callfuncOf callMachineFunc Machine.slot
  dsimp only
  rw [hslot, loadWord_store_of_apart _ _ _ _ hapart, hload]

theorem callfuncOf_count :
    ((callfuncOf text cl ma args).skip 2).get 1 = cl.cl_nargs % 256 := by
  have hsub : (text + 2#64 + 0#64 - text).toNat = 2 := by
    rw [BitVec.add_zero, BitVec.add_comm, BitVec.add_sub_cancel]
    rfl
  have hbyte : (callfuncOf text cl ma args).text (text + 2#64 + 0#64) =
      BitVec.ofNat 8 cl.cl_nargs := by
    unfold callfuncOf callMachineFunc
    dsimp only
    rw [writeBytes_apply _ _ _ _ (by simp [callText]), hsub]
    simp [callText, leBytes]
  have hpc : (callfuncOf text cl ma args).pc = text := rfl
  unfold Machine.get load
  rw [skip_text, skip_pc, hpc]
  simp only [readBytes, List.range_one, List.map_cons, List.map_nil, ofLeBytes]
  rw [hbyte]
  simp

/-- The machine is about to call the function of the callback at the head of the list. -/
theorem aboutToCall_iff (last : Callback) :
    AboutToCall cl args (callfuncOf text last ma args) ↔
      last.cl_func = cl.cl_func ∧ last.cl_nargs % 256 = cl.cl_nargs := by
  constructor
  · intro h
    exact ⟨(callfuncOf_func text last ma args).symm.trans h.func,
      (callfuncOf_count text last ma args).symm.trans h.count⟩
  · rintro ⟨hfunc, hcount⟩
    refine ⟨(callfuncOf_func text last ma args).trans hfunc,
      (callfuncOf_count text last ma args).trans hcount, ?_⟩
    intro j hj
    exact callfuncOf_arg text last ma args (by omega)

end

/-! ## The end of a call -/

section
variable {env : Env} {text : Word} {m m' m'' : Machine} {res : ExecResult}

theorem opcode_at {op : Opcode} (h : readBytes m.text m.pc 2 = leBytes 2 op.num)
    (hnum : op.num < 65536) (hop : opcodeOf op.num = some op) : step env m = execOp env op (m.skip 2) := by
  have hget : m.get 2 = op.num := by
    unfold Machine.get load
    rw [h, ofLeBytes_leBytes]
    omega
  unfold step
  rw [hget, hop]

/-- A machine takes no two ways. -/
theorem Executes.of_steps (h : Steps env m m') (hexec : Executes env m res m'') :
    Executes env m' res m'' := by
  induction h using Relation.ReflTransGen.head_induction_on with
  | refl => exact hexec
  | head hstep _ ih =>
    cases hexec with
    | quit hquit => cases hstep.symm.trans hquit
    | next hnext hrest =>
      cases hstep.symm.trans hnext
      exact ih hrest

set_option maxRecDepth 8000 in
/-- Once the function has returned the machine pushes the result and stops at the trap, and the
text pointer is one byte behind the place of the trap. -/
theorem HasReturned.stops (h : HasReturned text m) (hexec : Executes env m res m') :
    m'.pc - 1#64 = text + 7#64 := by
  have hpush : step env m = .next ((m.skip 2).push (m.skip 2).retval) :=
    opcode_at (by rw [h.pc]; exact h.retval) (by decide) (by decide)
  have hpc : ((m.skip 2).push (m.skip 2).retval).pc = text + 6#64 := by
    rw [push_pc, skip_pc, h.pc]
    bv_omega
  have htrap : step env ((m.skip 2).push (m.skip 2).retval) =
      .quit .CI_ER_TRAP (((m.skip 2).push (m.skip 2).retval).skip 2) :=
    opcode_at (by rw [hpc]; exact h.trap) (by decide) (by decide)
  cases hexec with
  | quit hquit => cases hpush.symm.trans hquit
  | next hnext hrest =>
    cases hpush.symm.trans hnext
    cases hrest with
    | next hnext _ => cases htrap.symm.trans hnext
    | quit hquit =>
      cases htrap.symm.trans hquit
      rw [skip_pc, hpc]
      bv_omega

/-- The trap is not recognised: an invocation whose function returns is a panic. -/
theorem not_comesBack (hsteps : Steps env m m') (hret : HasReturned text m') (v : Int) :
    ¬ ComesBack env text m v := by
  rintro ⟨res, m'', hexec, hresult⟩
  have hpc := hret.stops (hexec.of_steps hsteps)
  unfold callResult at hresult
  rw [hpc] at hresult
  split at hresult
  case isTrue h =>
    have hne := h.2
    rw [BitVec.add_right_inj] at hne
    exact absurd hne (by decide)
  case isFalse => cases hresult

/-- What an invocation has to do, when it starts with the callback `last`. -/
theorem callsItsOwn_iff (cl last : Callback) (ma : Machine) (args : Nat → Word) :
    CallsItsOwn env text cl args (callfuncOf text last ma args) ↔
      last.cl_func = cl.cl_func ∧ last.cl_nargs % 256 = cl.cl_nargs ∧
        ∀ m', Steps env (callfuncOf text last ma args) m' → ¬ HasReturned text m' := by
  constructor
  · rintro ⟨hown, hback⟩
    obtain ⟨hfunc, hcount⟩ := (aboutToCall_iff text cl ma args last).mp hown
    refine ⟨hfunc, hcount, ?_⟩
    intro m' hsteps hret
    exact not_comesBack hsteps hret _ (hback m' hsteps hret)
  · rintro ⟨hfunc, hcount, hnever⟩
    refine ⟨(aboutToCall_iff text cl ma args last).mpr ⟨hfunc, hcount⟩, ?_⟩
    intro m' hsteps hret
    exact absurd hret (hnever m' hsteps)

end

/-! ## The lists -/

/-- The head of the list is the callback that was made last. -/
theorem session_head (es : List Event) :
    (session es).lists.ma_callbacks.head? = (session es).returned.getLast?.map Prod.fst := by
  induction es using List.reverseRecOn with
  | nil => rfl
  | append_singleton es e ih =>
    unfold session at ih ⊢
    rw [List.foldl_append]
    cases e with
    | make cl => simp [Session.after, ciMakeCallback]
    | invoke i ma args => exact ih

theorem call_session (es : List Event) (text : Word) (p : CallbackPtr) (ma : Machine)
    (args : Nat → Word) :
    p.call text (session es).lists ma args =
      (session es).returned.getLast?.map fun last => callfuncOf text last.1 ma args := by
  have hhead := session_head es
  cases p with
  | callfunc =>
    unfold CallbackPtr.call callfunc
    cases hl : (session es).returned.getLast? with
    | none =>
      rw [hl, Option.map_none, List.head?_eq_none_iff] at hhead
      rw [hhead]
      rfl
    | some last =>
      rw [hl, Option.map_some, List.head?_eq_some_iff] at hhead
      obtain ⟨cls, hcls⟩ := hhead
      rw [hcls]
      rfl

theorem eachInvocation_congr
    {P Q : List Event → Callback → CallbackPtr → Machine → (Nat → Word) → Prop}
    (h : ∀ before cl p ma args, P before cl p ma args ↔ Q before cl p ma args)
    (es : List Event) : EachInvocation P es ↔ EachInvocation Q es := by
  unfold EachInvocation
  simp only [h]

/-! ## The law -/

/-- Invocations call their own functions and come back exactly when each is of a callback that
does what the last one would do, and no function returns. -/
theorem an_invocation_calls_the_last_callback_and_never_comes_back (env : Env) (text : Word)
    (es : List Event) : EachCallsItsOwn env text es ↔ EachIsTheLast env text es := by
  apply eachInvocation_congr
  intro before cl p ma args
  rw [call_session]
  constructor
  · rintro ⟨m, hm, hown⟩
    obtain ⟨⟨last, p'⟩, hlast, rfl⟩ := Option.map_eq_some_iff.mp hm
    exact ⟨last, p', hlast, (callsItsOwn_iff cl last ma args).mp hown⟩
  · rintro ⟨last, p', hlast, h⟩
    refine ⟨callfuncOf text last ma args, ?_, (callsItsOwn_iff cl last ma args).mpr h⟩
    rw [hlast]
    rfl

/-- Of two callbacks the first calls the function of the second. -/
theorem the_first_of_two_callbacks_calls_the_second_function :
    ¬ ∀ env text es, EachCallsItsOwn env text es := by
  intro h
  let one : Callback := ⟨1#64, 2, by omega⟩
  let two : Callback := ⟨2#64, 2, by omega⟩
  obtain ⟨m, hm, hown⟩ := h quietEnv 4096#64 [.make one, .make two, .invoke 0 longMachine fun _ => 0]
    [.make one, .make two] 0 longMachine (fun _ => 0) [] rfl one .callfunc rfl
  obtain rfl : callfuncOf 4096#64 two longMachine (fun _ => 0) = m := Option.some.inj hm
  have hfunc := hown.own.func
  rw [callfuncOf_func] at hfunc
  exact absurd hfunc (by decide)

end ups_rules.callbacks
