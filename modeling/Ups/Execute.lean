-- One instruction of ci_execute_machine (xc_machine.c). In each case the text pointer is
-- already behind the opcode, as READOPCODE leaves it.
import Ups.Machine
import Ups.Opcodes

open le_bytes
open ups_rules.machine
open ups_rules.opcodes

namespace ups_rules.execute

/-! ## Operands -/

def operand (m : Machine) (s : OpSize) : Word := BitVec.ofNat 64 (m.get s.nbytes)

/-- The machine behind an operand of size `s`. -/
def past (m : Machine) (s : OpSize) : Machine := m.skip s.nbytes

/-! ## The debugged process -/

def readData (env : Env) (m : Machine) (a : Word) (n : Nat)
    (k : List (BitVec 8) → Outcome) : Outcome :=
  match env.readproc m.written a n with
  | none => .quit .CI_ER_READDATA_FAILED m
  | some bs => k bs.toList

def writeData (env : Env) (m : Machine) (a : Word) (bs : List (BitVec 8))
    (k : Machine → Outcome) : Outcome :=
  if env.writeproc m.written a bs then k { m with written := m.written ++ [(a, bs)] }
  else .quit .CI_ER_WRITEDATA_FAILED m

/-! ## Stores -/

/-- The bytes of memory that a store of this kind writes. -/
def cellWidth : CellKind → Nat
  | .BYTE => 1
  | .WORD => 2
  | _ => 8

/-- The bytes that a store of this kind writes in the debugged process. -/
def cellProcWidth : CellKind → Nat
  | .BYTE => 1
  | .WORD => 2
  | .LONG | .FLOAT => 4
  | _ => 8

/-- What the member of `func_retval_t` that a PROC_ store uses keeps of a stack word. -/
def cellTemp : CellKind → Word → Word
  | .BYTE => signedOf 1
  | .WORD => signedOf 2
  | .LONG => signedOf 4
  | _ => id

/-- The kinds whose cases pop their operands before they store. -/
def cellPopsFirst : CellKind → Bool
  | .LONG_LONG | .FLOAT | .DOUBLE => true
  | _ => false

def storeAt (m : Machine) (a : Word) (n : Nat) (v : Word) : Machine :=
  { m with mem := store m.mem a n v }

section
variable (m : Machine) (a v : Word) (n : Nat)

@[simp] theorem storeAt_mem : (storeAt m a n v).mem = store m.mem a n v := rfl
@[simp] theorem storeAt_pc : (storeAt m a n v).pc = m.pc := rfl
@[simp] theorem storeAt_sp : (storeAt m a n v).sp = m.sp := rfl
@[simp] theorem storeAt_fp : (storeAt m a n v).fp = m.fp := rfl
@[simp] theorem storeAt_cf : (storeAt m a n v).cf = m.cf := rfl
end

def assign (t : CellKind) (m : Machine) : Machine :=
  (storeAt m (m.slot 1) (cellWidth t) (m.slot 0)).addSp 2

/-- The kinds that do not pop read the value again after the store. -/
def assignAndPush (t : CellKind) (m : Machine) : Machine :=
  let m' := storeAt m (m.slot 1) (cellWidth t) (m.slot 0)
  if cellPopsFirst t then (m'.addSp 2).push (m.slot 0)
  else (m'.setSlot 1 (m'.slot 0)).addSp 1

/-- A store to the memory of the interpreter or of the debugged process; `k` goes on. -/
def procStore (env : Env) (t : CellKind) (m : Machine) (k : Machine → Outcome) : Outcome :=
  let a := m.slot 1
  let d := cellTemp t (m.slot 0)
  let m := if cellPopsFirst t then m.addSp 2 else m
  if env.isCiAddr a then k (storeAt m a (cellWidth t) d)
  else writeData env m a (leBytes (cellProcWidth t) d.toNat) k

def procAssign (env : Env) (t : CellKind) (m : Machine) : Outcome :=
  procStore env t m fun m' => .next (if cellPopsFirst t then m' else m'.addSp 2)

def procAssignAndPush (env : Env) (t : CellKind) (m : Machine) : Outcome :=
  let d := cellTemp t (m.slot 0)
  procStore env t m fun m' =>
    .next (if cellPopsFirst t then m'.push d else (m'.setSlot 1 d).addSp 1)

/-! ## Loads -/

/-- The bytes that a load of this kind reads in the debugged process. -/
def loadProcWidth : LoadKind → Nat
  | .SIGNED_BYTE | .UNSIGNED_BYTE => 1
  | .SIGNED_WORD | .UNSIGNED_WORD => 2
  | .SIGNED_LONG | .UNSIGNED_LONG | .FLOAT => 4
  | _ => 8

def loadPopsFirst : LoadKind → Bool
  | .SIGNED_LONG_LONG | .UNSIGNED_LONG_LONG | .FLOAT | .DOUBLE => true
  | _ => false

/-- What a load of this kind pushes from the memory of the interpreter. -/
def fetch (t : LoadKind) (mem : Mem 64) (a : Word) : Word :=
  match t with
  | .SIGNED_BYTE => signedOf 1 (BitVec.ofNat 64 (load mem a 1))
  | .SIGNED_WORD => signedOf 2 (BitVec.ofNat 64 (load mem a 2))
  | .UNSIGNED_BYTE => BitVec.ofNat 64 (load mem a 1)
  | .UNSIGNED_WORD => BitVec.ofNat 64 (load mem a 2)
  | _ => loadWord mem a

/-- What a PROC_ load keeps of it: `d_long` and `d_ulong` are ints. -/
def procFetch (t : LoadKind) (mem : Mem 64) (a : Word) : Word :=
  match t with
  | .SIGNED_LONG => signedOf 4 (loadWord mem a)
  | .UNSIGNED_LONG => unsignedOf 4 (loadWord mem a)
  | _ => fetch t mem a

/-- What a PROC_ load pushes from bytes of the debugged process. -/
def ofProc (t : LoadKind) (stale : BitVec 32) (bs : List (BitVec 8)) : Word :=
  let v := BitVec.ofNat 64 (ofLeBytes bs)
  match t with
  | .SIGNED_BYTE => signedOf 1 v
  | .SIGNED_WORD => signedOf 2 v
  | .SIGNED_LONG => signedOf 4 v
  | .FLOAT => stale ++ v.setWidth 32
  | _ => v

def deref (t : LoadKind) (m : Machine) : Machine := m.setSlot 0 (fetch t m.mem (m.slot 0))

def procDeref (env : Env) (t : LoadKind) (m : Machine) : Outcome :=
  let a := m.slot 0
  if env.isCiAddr a then .next (m.setSlot 0 (procFetch t m.mem a))
  else
    match env.readproc m.written a (loadProcWidth t) with
    | none => .quit .CI_ER_READDATA_FAILED (if loadPopsFirst t then m.pop else m)
    | some bs => .next (m.setSlot 0 (ofProc t (env.stale m) bs.toList))

/-- The loop of `OC_MULTI_ARROW`. -/
def multiArrow (env : Env) (m : Machine) (offset : Word) : Nat → Word → Option Word
  | 0, addr => some addr
  | count + 1, addr =>
    if env.isCiAddr addr then multiArrow env m offset count (loadWord m.mem (addr + offset))
    else
      match env.readproc m.written (addr + offset) 4 with
      | none => none
      | some bs => multiArrow env m offset count (BitVec.ofNat 64 (ofLeBytes bs.toList))

/-! ## Blocks of bytes -/

def memcpy (m : Machine) (nbytes : Nat) : Machine :=
  { m with mem := copyBytes m.mem (m.slot 1) (m.slot 0) nbytes }.addSp 2

def procMemcpy (env : Env) (m : Machine) (nbytes : Nat) : Outcome :=
  let dst := m.slot 1
  let src := m.slot 0
  if env.isCiAddr dst then
    if env.isCiAddr src then .next (memcpy m nbytes)
    else readData env m src nbytes fun bs =>
      .next ({ m with mem := writeBytes m.mem dst bs }.addSp 2)
  else
    if env.isCiAddr src then
      writeData env m dst (readBytes m.mem src nbytes) fun m => .next (m.addSp 2)
    else readData env m src nbytes fun bs =>
      writeData env m dst bs fun m => .next (m.addSp 2)

/-- `sp -= nbytes / 4`, then the address of the block is pushed. -/
def reserveBytes (m : Machine) : Machine :=
  let nbytes := m.get 4
  let m := (m.skip 4).subSp (nbytes / 4)
  m.push m.sp

/-- `memcpy` to the stack pointer; the operand is skipped after it. -/
def putBytes (m : Machine) (bs : List (BitVec 8)) : Machine :=
  { m with mem := writeBytes m.mem m.sp bs }.skip 4

def pushBytes (m : Machine) : Machine :=
  putBytes ((m.subSp (m.get 4 / 4)).addSp 1) (readBytes m.mem (m.slot 0) (m.get 4))

/-- The test is of the word at the new stack pointer, and the address passed on is an int. -/
def procPushBytes (env : Env) (m : Machine) : Outcome :=
  let m' := (m.subSp (m.get 4 / 8)).addSp 1
  if env.isCiAddr (m'.slot 0) then
    .next (putBytes m' (readBytes m.mem (m.slot 0) (m.get 4)))
  else readData env m' (unsignedOf 4 (m.slot 0)) (m.get 4) fun bs => .next (putBytes m' bs)

@[simp] theorem putBytes_mem (m : Machine) (bs : List (BitVec 8)) :
    (putBytes m bs).mem = writeBytes m.mem m.sp bs := rfl
@[simp] theorem putBytes_sp (m : Machine) (bs : List (BitVec 8)) :
    (putBytes m bs).sp = m.sp := rfl
@[simp] theorem putBytes_pc (m : Machine) (bs : List (BitVec 8)) :
    (putBytes m bs).pc = m.pc + BitVec.ofNat 64 4 := rfl

/-! ## Bitfields -/

/-- `(1 << width) - 1` as a C int. -/
def intMask (width : Nat) : BitVec 32 := (1#32 <<< (width % 32)) - 1#32

def extractUnsigned (offset width : Nat) (v : Word) : Word :=
  (v >>> offset) &&& (intMask width).signExtend 64

/-- `~0u << width` is an unsigned int: the sign is not carried past its 32 bits. -/
def extractSigned (offset width : Nat) (v : Word) : Word :=
  let u := extractUnsigned offset width v
  if u &&& (1#32 <<< ((width - 1) % 32)).signExtend 64 ≠ 0#64 then
    u ||| (BitVec.allOnes 32 <<< (width % 32)).setWidth 64
  else u

def insertField (offset width : Nat) (old v : Word) : Word :=
  let mask := (intMask width <<< (offset % 32)).signExtend 64
  (old &&& ~~~mask) ||| ((v <<< offset) &&& mask)

/-! ## Calls and returns -/

/-- `!cf->cf_loaded && XLOAD(ma, cf) != 0` is `none`. -/
def ensureLoaded (env : Env) (cf : Word) (m : Machine) : Option Machine :=
  if (m.files cf).cf_loaded then some m
  else (env.loadfunc cf m.toImage).map fun im => { m with toImage := im }

def leaveCall (m : Machine) (e : CallEffect) : Outcome :=
  let m' := { m with retval := e.retval, mem := e.mem, written := e.written }
  if e.res = .CI_ER_CONTINUE then .next m' else .quit e.res m'

/-- The arguments of a library function, filled up with zeros. -/
def libArgs (m : Machine) (nargs : Nat) : List Word :=
  if nargs = 0 then []
  else (List.range 20).map fun i => if i < nargs then m.slot i else 0

/-- From the label `func_call` on. -/
def funcCall (env : Env) (m : Machine) (fcf : Word) (func_index : Int) : Outcome :=
  let nargs := m.get 1
  let typecode := BitVec.ofNat 8 ((m.skip 1).get 1)
  let m := m.skip 2
  if 0 < func_index then
    let m' := (m.push m.cf).push m.pc
    .next { m' with
      cf := fcf
      pc := (m.files fcf).cf_text_and_data + (m.files fcf).cf_funcaddrs func_index }
  else
    let er := (m.files fcf).cf_funcrefs func_index
    if er.er_file ≠ 0 then
      let m' := { m.push m.cf with cf := er.er_file }
      match ensureLoaded env er.er_file m' with
      | none => .quit .CI_ER_LOADFAULT m'
      | some m' =>
        .next { m'.push m'.pc with
          pc := (m'.files er.er_file).cf_text_and_data + er.er_addr }
    else if er.er_indirect then leaveCall m (env.indirect_call_proc er.er_addr nargs typecode m)
    else if 20 < nargs then .panic
    else leaveCall m (env.libfunc er.er_addr (libArgs m nargs) typecode m)

def callIndirect (env : Env) (m : Machine) : Outcome :=
  let addr := m.slot 0
  let m := m.pop
  let fcf := env.cftab + (addr >>> 16) * BitVec.ofNat 64 codefileSize
  match ensureLoaded env fcf m with
  | none => .quit .CI_ER_LOADFAULT m
  | some m => funcCall env m fcf (addr.setWidth 16).toInt

/-- From the label `unlink` on. -/
def unlink (m : Machine) : Machine :=
  { m with
    fp := loadWord m.mem m.fp
    pc := loadWord m.mem (m.fp + words 1)
    cf := loadWord m.mem (m.fp + words 2)
    sp := m.fp + words 3 }

def retStruct (m : Machine) : Machine :=
  let nbytes := m.get 4
  let addr := m.slot 0
  let m := unlink m
  if m.slot 0 ≠ 0#64 then
    { m with mem := copyBytes m.mem (loadWord m.mem (m.sp + 8#64 * m.slot 0)) addr nbytes }
  else m

def pushStructretAddr (m : Machine) : Machine :=
  let offset := (loadWord m.mem (m.fp + words 3)).setWidth 32
  m.push (loadWord m.mem (m.fp + 8#64 * (offset + 3#32).signExtend 64))

/-- The members of a `machine_state_t` are words, `ms_stackwords` the last four. -/
def setjmp (m : Machine) : Machine :=
  let m := { m.pop.pop with retval := 0#64, pc := m.slot 0, cf := m.pop.slot 0 }
  let ms := m.slot 0
  let mem := store m.mem ms 8 m.cf
  let mem := store mem (ms + words 1) 8 m.pc
  let mem := store mem (ms + words 2) 8 m.fp
  let mem := store mem (ms + words 3) 8 m.sp
  { m with mem := copyBytes mem (ms + words 4) (m.sp + words 1) 32 }

def longjmp (m : Machine) : Machine :=
  let ms := m.slot 2
  let sp := loadWord m.mem (ms + words 3)
  { m with
    retval := m.slot 3
    cf := loadWord m.mem ms
    pc := loadWord m.mem (ms + words 1)
    fp := loadWord m.mem (ms + words 2)
    sp := sp
    mem := copyBytes m.mem (sp + words 1) (ms + words 4) 32 }

def link (env : Env) (s : OpSize) (m : Machine) : Outcome :=
  let m := m.push m.fp
  let m := { past m s with fp := m.sp, sp := m.sp - operand m s }
  if env.minsp ≤ m.sp - BitVec.ofNat 64 (m.get 4) then .next (m.skip 4)
  else .quit .CI_ER_STACK_OVERFLOW m

/-! ## Jumps -/

/-- `POP(sp) - minval` as a C int. -/
def switchval (m : Machine) (minval : Nat) : Int :=
  toCInt (m.slot 0 - signedOf 4 (BitVec.ofNat 64 minval))

def switchOnTable (m : Machine) : Machine :=
  let ncase := m.get 2
  let m := m.skip 2
  let v := (m.slot 0 - signedOf 4 (BitVec.ofNat 64 (m.get 4))).setWidth 32
  let n := if ncase ≤ v.toNat then ncase else v.toNat
  (m.pop.skip (4 + n * 2)).jump

/-- The loop over the pairs of a value and an offset. -/
def switchOnChain (s : OpSize) (v : Int) : Nat → Machine → Machine
  | 0, m => m.jump
  | ncase + 1, m =>
    if toCInt (operand m s) = v then (past m s).jump
    else switchOnChain s v ncase ((past m s).skip 2)

/-! ## Arithmetic -/

def ofBool (b : Bool) : Word := if b then 1#64 else 0#64

/-- An operation on the float in the low half of a word. -/
def onFloat (f : BitVec 32 → BitVec 32 → BitVec 32) (a b : Word) : Word :=
  a.extractLsb' 32 32 ++ f (a.setWidth 32) (b.setWidth 32)

def arith (env : Env) (op : Arith) (int : Word → Word → Word) : NumKind → Word → Word → Word
  | .FLOAT => onFloat (env.float.arith op)
  | .DOUBLE => env.double.arith op
  | _ => int

def compare (env : Env) (op : Compare) (int : Word → Word → Bool) (t : NumKind)
    (a b : Word) : Word :=
  match t with
  | .FLOAT => ofBool (env.float.compare op (a.setWidth 32) (b.setWidth 32))
  | .DOUBLE => ofBool (env.double.compare op a b)
  | _ => ofBool (int a b)

def divSigned (env : Env) (t : NumKind) (m : Machine) : Outcome :=
  match t with
  | .FLOAT | .DOUBLE => .next (m.binop (arith env .div BitVec.sdiv t))
  | _ =>
    if m.slot 0 = 0#64 ∨ (m.slot 1 = BitVec.intMin 64 ∧ m.slot 0 = BitVec.allOnes 64) then
      .quit .CI_ER_ARITHMETIC_EXCEPTION m
    else .next (m.binop BitVec.sdiv)

/-- Whether the divisor is zero. -/
def divisorIsZero (env : Env) (t : NumKind) (m : Machine) : Bool :=
  match t with
  | .FLOAT => env.float.isZero ((m.slot 0).setWidth 32)
  | .DOUBLE => env.double.isZero (m.slot 0)
  | _ => m.slot 0 == 0#64

def chkdivSigned (env : Env) (t : NumKind) (m : Machine) : Outcome :=
  if divisorIsZero env t m then
    .quit .CI_ER_DIVISION_BY_ZERO (if t = .LONG then m else m.addSp 2)
  else divSigned env t m

def divUnsigned (f : Word → Word → Word) (m : Machine) : Outcome :=
  if m.slot 0 = 0#64 then .quit .CI_ER_ARITHMETIC_EXCEPTION m else .next (m.binop f)

def chkdivUnsigned (t : IntKind) (m : Machine) : Outcome :=
  if m.slot 0 = 0#64 then
    .quit .CI_ER_DIVISION_BY_ZERO (if t = .LONG then m else m.addSp 2)
  else .next (m.binop BitVec.udiv)

def unaryMinus (env : Env) (t : NumKind) (a : Word) : Word :=
  match t with
  | .FLOAT => onFloat (fun x _ => env.float.neg x) a a
  | .DOUBLE => env.double.neg a
  | _ => -a

/-- A float in a union that nothing else was stored in. -/
def freshFloat (env : Env) (m : Machine) (x : BitVec 32) : Word := env.stale m ++ x

/-! ## One instruction -/

def regaddr (env : Env) : ProcReg → Word
  | .FP => env.procfp
  | .AP => env.procap
  | .SP => env.procsp
  | .CFA => env.proccfa

/-- The cases of the instruction switch. -/
def execOp (env : Env) (op : Opcode) (m : Machine) : Outcome :=
  match op with
  | .OC_CALL s => funcCall env (past m s) m.cf (toCInt (operand m s))
  | .OC_POPMANY s => .next { past m s with sp := m.sp + operand m s }
  | .OC_LINK s => link env s m
  | .OC_PROC_MEMCPY s => procMemcpy env (past m s) (m.get s.nbytes)
  | .OC_MEMCPY s => .next (memcpy (past m s) (m.get s.nbytes))
  | .OC_PUSH_BYTES => .next (pushBytes m)
  | .OC_PROC_PUSH_BYTES => procPushBytes env m
  | .OC_RESERVE_BYTES => .next (reserveBytes m)
  | .OC_PROC_ASSIGN t => procAssign env t m
  | .OC_ASSIGN t => .next (assign t m)
  | .OC_PROC_ASSIGN_AND_PUSH t => procAssignAndPush env t m
  | .OC_ASSIGN_AND_PUSH t => .next (assignAndPush t m)
  | .OC_PROC_DEREF t => procDeref env t m
  | .OC_DEREF t => .next (deref t m)
  | .OC_NEG_CONSTPUSH s => .next ((past m s).push (-operand m s))
  | .OC_CONSTPUSH s => .next ((past m s).push (operand m s))
  | .OC_PUSH_FLOAT_CONST =>
    .next ((m.skip 4).push (freshFloat env m (BitVec.ofNat 32 (m.get 4))))
  | .OC_PUSH_DOUBLE_CONST => .next ((m.skip 8).push (BitVec.ofNat 64 (m.get 8)))
  | .OC_CHECK_SP s =>
    if (m.fp - m.sp).toInt ≠ toCInt (operand m s) then .panic else .next (past m s)
  | .OC_PROC_PUSH_ADDR r s => .next ((past m s).push (regaddr env r + operand m s))
  | .OC_PUSH_STACKADDR s => .next ((past m s).push (m.fp + operand m s))
  | .OC_PUSH_AT_STACKADDR t s => .next ((past m s).push (fetch t m.mem (m.fp + operand m s)))
  | .OC_PUSH_AT_ADDR t s => .next ((past m s).push (fetch t m.mem (operand m s)))
  | .OC_INSERT_SIGNED_BITFIELD | .OC_INSERT_UNSIGNED_BITFIELD =>
    .next ((m.skip 2).binop (insertField (m.get 1) ((m.skip 1).get 1)))
  | .OC_EXTRACT_SIGNED_BITFIELD =>
    .next ((m.skip 2).unop (extractSigned (m.get 1) ((m.skip 1).get 1)))
  | .OC_EXTRACT_UNSIGNED_BITFIELD =>
    .next ((m.skip 2).unop (extractUnsigned (m.get 1) ((m.skip 1).get 1)))
  | .OC_RET => .next (unlink m)
  | .OC_RET_WORD | .OC_RET_LONG_LONG | .OC_RET_FLOAT | .OC_RET_DOUBLE =>
    .next (unlink { m with retval := m.slot 0 })
  | .OC_RET_STRUCT => .next (retStruct m)
  | .OC_PUSH_STRUCTRET_ADDR => .next (pushStructretAddr m)
  | .OC_MULTI_ARROW =>
    let count := toCInt (m.slot 2)
    if count < 0 then .quit .CI_ER_BAD_MA_COUNT m
    else
      match multiArrow env m (signedOf 4 (m.slot 0)) count.toNat (m.slot 1) with
      | none => .quit .CI_ER_READDATA_FAILED m
      | some addr => .next ((m.addSp 2).setSlot 0 addr)
  | .OC_UNRESOLVED_JUMP => .panic
  | .OC_JUMP => .next m.jump
  | .OC_JUMP_IF_NON_ZERO => .next (if m.slot 0 ≠ 0#64 then m.pop.jump else m.pop.skip 2)
  | .OC_JUMP_IF_ZERO => .next (if m.slot 0 = 0#64 then m.pop.jump else m.pop.skip 2)
  | .OC_SWITCH_ON_TABLE => .next (switchOnTable m)
  | .OC_SWITCH_ON_CHAIN s =>
    .next (switchOnChain s (switchval m ((m.skip 2).get 4)) (m.get 2) (m.pop.skip 6))
  | .OC_PUSH_WORD_RETVAL | .OC_PUSH_LONG_LONG_RETVAL | .OC_PUSH_FLOAT_RETVAL
  | .OC_PUSH_DOUBLE_RETVAL => .next (m.push m.retval)
  | .OC_CALL_INDIRECT => callIndirect env m
  | .OC_TRAP => .quit .CI_ER_TRAP m
  | .OC_NOP => .next m
  | .OC_SETJMP => .next (setjmp m)
  | .OC_LONGJMP => .next (longjmp m)
  | .OC_DUP => .next (m.push (m.slot 0))
  | .OC_DUP_BACK_ONE => .next (m.setSlot 2 (m.slot 0))
  | .OC_RESERVE_SLOT => .next (m.subSp 1)
  | .OC_POP => .next m.pop
  | .OC_CVT_TO_BOOL | .OC_CVT_LONG_LONG_TO_BOOL => .next (m.unop fun a => ofBool (a != 0#64))
  | .OC_BITWISE_AND _ => .next (m.binop (· &&& ·))
  | .OC_BITWISE_XOR _ => .next (m.binop (· ^^^ ·))
  | .OC_BITWISE_OR _ => .next (m.binop (· ||| ·))
  | .OC_BITWISE_NOT _ => .next (m.unop (~~~ ·))
  | .OC_LOGICAL_NOT => .next (m.unop fun a => ofBool (a == 0#64))
  | .OC_LSHIFT _ => .next (m.binop fun a b => a <<< b.toNat)
  | .OC_RSHIFT _ => .next (m.binop fun a b => a >>> b.toNat)
  | .OC_MOD _ => divUnsigned BitVec.umod m
  | .OC_UNARY_MINUS t => .next (m.unop (unaryMinus env t))
  | .OC_MUL_SIGNED t => .next (m.binop (arith env .mul (· * ·) t))
  | .OC_DIV_SIGNED t => divSigned env t m
  | .OC_CHKDIV_SIGNED t => chkdivSigned env t m
  | .OC_ADD t => .next (m.binop (arith env .add (· + ·) t))
  | .OC_SUB t => .next (m.binop (arith env .sub (· - ·) t))
  | .OC_IS_EQUAL t => .next (m.binop (compare env .eq (· == ·) t))
  | .OC_NOT_EQUAL t => .next (m.binop (compare env .ne (· != ·) t))
  | .OC_LESS_SIGNED t => .next (m.binop (compare env .lt BitVec.slt t))
  | .OC_GREATER_SIGNED t => .next (m.binop (compare env .gt (fun a b => b.slt a) t))
  | .OC_LESS_OR_EQUAL_SIGNED t => .next (m.binop (compare env .le BitVec.sle t))
  | .OC_GREATER_OR_EQUAL_SIGNED t => .next (m.binop (compare env .ge (fun a b => b.sle a) t))
  | .OC_MUL_UNSIGNED _ => .next (m.binop (· * ·))
  | .OC_DIV_UNSIGNED _ => divUnsigned BitVec.udiv m
  | .OC_CHKDIV_UNSIGNED t => chkdivUnsigned t m
  | .OC_LESS_UNSIGNED _ => .next (m.binop fun a b => ofBool (a.ult b))
  | .OC_GREATER_UNSIGNED _ => .next (m.binop fun a b => ofBool (b.ult a))
  | .OC_LESS_OR_EQUAL_UNSIGNED _ => .next (m.binop fun a b => ofBool (a.ule b))
  | .OC_GREATER_OR_EQUAL_UNSIGNED _ => .next (m.binop fun a b => ofBool (b.ule a))
  | .OC_CVT_UNSIGNED_LONG_TO_LONG_LONG | .OC_CVT_SIGNED_LONG_TO_LONG_LONG
  | .OC_CVT_UNSIGNED_LONG_LONG_TO_LONG | .OC_CVT_SIGNED_LONG_LONG_TO_LONG => .next (m.unop id)
  | .OC_CVT_DOUBLE_TO_LONG_LONG => .next (m.unop env.double.toSigned)
  | .OC_CVT_FLOAT_TO_LONG_LONG => .next (m.unop fun a => env.float.toSigned (a.setWidth 32))
  | .OC_CVT_UNSIGNED_LONG_LONG_TO_DOUBLE | .OC_CVT_UNSIGNED_LONG_TO_DOUBLE =>
    .next (m.unop env.double.ofUnsigned)
  | .OC_CVT_SIGNED_LONG_LONG_TO_DOUBLE | .OC_CVT_SIGNED_LONG_TO_DOUBLE =>
    .next (m.unop env.double.ofSigned)
  | .OC_CVT_UNSIGNED_LONG_LONG_TO_FLOAT | .OC_CVT_UNSIGNED_LONG_TO_FLOAT =>
    .next (m.unop fun a => freshFloat env m (env.float.ofUnsigned a))
  | .OC_CVT_SIGNED_LONG_LONG_TO_FLOAT | .OC_CVT_SIGNED_LONG_TO_FLOAT =>
    .next (m.unop fun a => freshFloat env m (env.float.ofSigned a))
  | .OC_CVT_FLOAT_TO_DOUBLE => .next (m.unop fun a => env.floatToDouble (a.setWidth 32))
  | .OC_CVT_DOUBLE_TO_FLOAT => .next (m.unop fun a => freshFloat env m (env.doubleToFloat a))
  | .OC_CVT_FLOAT_TO_LONG => .next (m.unop fun a => env.float.toUnsigned (a.setWidth 32))
  | .OC_CVT_DOUBLE_TO_LONG => .next (m.unop env.double.toUnsigned)
  | .OC_CVT_FLOAT_TO_BOOL => .next (m.unop fun a => ofBool (!env.float.isZero (a.setWidth 32)))
  | .OC_CVT_DOUBLE_TO_BOOL => .next (m.unop fun a => ofBool (!env.double.isZero a))

/-- One turn of the loop of `ci_execute_machine`. -/
def step (env : Env) (m : Machine) : Outcome :=
  match opcodeOf (m.get 2) with
  | none => .panic
  | some op => execOp env op (m.skip 2)

end ups_rules.execute
