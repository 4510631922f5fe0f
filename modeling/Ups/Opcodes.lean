-- The instruction set (xc_opcodes.h), for a 64-bit long with long long of the same size and
-- no long double. Opcodes that differ in the size of their operand or in the type of their
-- data are one constructor with that size or type: `OC_CALL_B` is `OC_CALL .B`.
import Mathlib.Data.List.Basic

namespace ups_rules.opcodes

/-- The size of an operand: a byte, a word of two bytes, a long of four or a quad of eight. -/
inductive OpSize where
  | B | W | L | Q
deriving DecidableEq

def OpSize.nbytes : OpSize → Nat
  | .B => 1
  | .W => 2
  | .L => 4
  | .Q => 8

/-- What an assignment stores. -/
inductive CellKind where
  | LONG_LONG | BYTE | WORD | LONG | FLOAT | DOUBLE
deriving DecidableEq

/-- What a load reads. The loads at an address call a word of two bytes SHORT. -/
inductive LoadKind where
  | SIGNED_LONG_LONG | SIGNED_BYTE | SIGNED_WORD | SIGNED_LONG | FLOAT | DOUBLE
  | UNSIGNED_LONG_LONG | UNSIGNED_BYTE | UNSIGNED_WORD | UNSIGNED_LONG
deriving DecidableEq

/-- The type of an integer operation. -/
inductive IntKind where
  | LONG_LONG | LONG
deriving DecidableEq

/-- The type of an operation that is also there for floating point numbers. -/
inductive NumKind where
  | LONG_LONG | LONG | FLOAT | DOUBLE
deriving DecidableEq

/-- A register of the debugged process. -/
inductive ProcReg where
  | FP | AP | SP | CFA
deriving DecidableEq

inductive Opcode where
  | OC_CALL (s : OpSize)
  | OC_POPMANY (s : OpSize)
  | OC_LINK (s : OpSize)
  | OC_PROC_MEMCPY (s : OpSize)
  | OC_MEMCPY (s : OpSize)
  | OC_PUSH_BYTES
  | OC_PROC_PUSH_BYTES
  | OC_RESERVE_BYTES
  | OC_PROC_ASSIGN (t : CellKind)
  | OC_ASSIGN (t : CellKind)
  | OC_PROC_ASSIGN_AND_PUSH (t : CellKind)
  | OC_ASSIGN_AND_PUSH (t : CellKind)
  | OC_PROC_DEREF (t : LoadKind)
  | OC_DEREF (t : LoadKind)
  | OC_NEG_CONSTPUSH (s : OpSize)
  | OC_CONSTPUSH (s : OpSize)
  | OC_PUSH_FLOAT_CONST
  | OC_PUSH_DOUBLE_CONST
  | OC_CHECK_SP (s : OpSize)
  | OC_PROC_PUSH_ADDR (r : ProcReg) (s : OpSize)
  | OC_PUSH_STACKADDR (s : OpSize)
  | OC_PUSH_AT_STACKADDR (t : LoadKind) (s : OpSize)
  | OC_PUSH_AT_ADDR (t : LoadKind) (s : OpSize)
  | OC_INSERT_SIGNED_BITFIELD
  | OC_INSERT_UNSIGNED_BITFIELD
  | OC_EXTRACT_SIGNED_BITFIELD
  | OC_EXTRACT_UNSIGNED_BITFIELD
  | OC_RET
  | OC_RET_WORD
  | OC_RET_LONG_LONG
  | OC_RET_FLOAT
  | OC_RET_DOUBLE
  | OC_RET_STRUCT
  | OC_PUSH_STRUCTRET_ADDR
  | OC_MULTI_ARROW
  | OC_UNRESOLVED_JUMP
  | OC_JUMP
  | OC_JUMP_IF_NON_ZERO
  | OC_JUMP_IF_ZERO
  | OC_SWITCH_ON_TABLE
  | OC_SWITCH_ON_CHAIN (s : OpSize)
  | OC_PUSH_WORD_RETVAL
  | OC_PUSH_LONG_LONG_RETVAL
  | OC_PUSH_FLOAT_RETVAL
  | OC_PUSH_DOUBLE_RETVAL
  | OC_CALL_INDIRECT
  | OC_TRAP
  | OC_NOP
  | OC_SETJMP
  | OC_LONGJMP
  | OC_DUP
  | OC_DUP_BACK_ONE
  | OC_RESERVE_SLOT
  | OC_POP
  | OC_CVT_TO_BOOL
  | OC_BITWISE_AND (t : IntKind)
  | OC_BITWISE_XOR (t : IntKind)
  | OC_BITWISE_OR (t : IntKind)
  | OC_BITWISE_NOT (t : IntKind)
  | OC_LOGICAL_NOT
  | OC_LSHIFT (t : IntKind)
  | OC_RSHIFT (t : IntKind)
  | OC_MOD (t : IntKind)
  | OC_UNARY_MINUS (t : NumKind)
  | OC_MUL_SIGNED (t : NumKind)
  | OC_DIV_SIGNED (t : NumKind)
  | OC_CHKDIV_SIGNED (t : NumKind)
  | OC_ADD (t : NumKind)
  | OC_SUB (t : NumKind)
  | OC_IS_EQUAL (t : NumKind)
  | OC_NOT_EQUAL (t : NumKind)
  | OC_LESS_SIGNED (t : NumKind)
  | OC_GREATER_SIGNED (t : NumKind)
  | OC_LESS_OR_EQUAL_SIGNED (t : NumKind)
  | OC_GREATER_OR_EQUAL_SIGNED (t : NumKind)
  | OC_MUL_UNSIGNED (t : IntKind)
  | OC_DIV_UNSIGNED (t : IntKind)
  | OC_CHKDIV_UNSIGNED (t : IntKind)
  | OC_LESS_UNSIGNED (t : IntKind)
  | OC_GREATER_UNSIGNED (t : IntKind)
  | OC_LESS_OR_EQUAL_UNSIGNED (t : IntKind)
  | OC_GREATER_OR_EQUAL_UNSIGNED (t : IntKind)
  | OC_CVT_UNSIGNED_LONG_TO_LONG_LONG
  | OC_CVT_SIGNED_LONG_TO_LONG_LONG
  | OC_CVT_DOUBLE_TO_LONG_LONG
  | OC_CVT_FLOAT_TO_LONG_LONG
  | OC_CVT_UNSIGNED_LONG_LONG_TO_DOUBLE
  | OC_CVT_SIGNED_LONG_LONG_TO_DOUBLE
  | OC_CVT_UNSIGNED_LONG_LONG_TO_FLOAT
  | OC_CVT_SIGNED_LONG_LONG_TO_FLOAT
  | OC_CVT_UNSIGNED_LONG_LONG_TO_LONG
  | OC_CVT_SIGNED_LONG_LONG_TO_LONG
  | OC_CVT_LONG_LONG_TO_BOOL
  | OC_CVT_UNSIGNED_LONG_TO_DOUBLE
  | OC_CVT_SIGNED_LONG_TO_DOUBLE
  | OC_CVT_FLOAT_TO_DOUBLE
  | OC_CVT_UNSIGNED_LONG_TO_FLOAT
  | OC_CVT_SIGNED_LONG_TO_FLOAT
  | OC_CVT_DOUBLE_TO_FLOAT
  | OC_CVT_FLOAT_TO_LONG
  | OC_CVT_DOUBLE_TO_LONG
  | OC_CVT_FLOAT_TO_BOOL
  | OC_CVT_DOUBLE_TO_BOOL
deriving DecidableEq

/-! ## The numbers of the opcodes -/

def sizes (f : OpSize → Opcode) : List Opcode := [f .B, f .W, f .L, f .Q]

def cells (f : CellKind → Opcode) : List Opcode :=
  [f .LONG_LONG, f .BYTE, f .WORD, f .LONG, f .FLOAT, f .DOUBLE]

def ints (f : IntKind → Opcode) : List Opcode := [f .LONG_LONG, f .LONG]

def nums (f : NumKind → Opcode) : List Opcode := [f .LONG_LONG, f .LONG, f .FLOAT, f .DOUBLE]

def signedLoads : List LoadKind := [.SIGNED_LONG_LONG, .SIGNED_BYTE, .SIGNED_WORD, .SIGNED_LONG]

def floatLoads : List LoadKind := [.FLOAT, .DOUBLE]

def unsignedLoads : List LoadKind :=
  [.UNSIGNED_LONG_LONG, .UNSIGNED_BYTE, .UNSIGNED_WORD, .UNSIGNED_LONG]

/-- The calls, and what moves the stack pointer. -/
def callOpcodes : List Opcode :=
  List.flatten [sizes .OC_CALL, sizes .OC_POPMANY, sizes .OC_LINK, sizes .OC_PROC_MEMCPY,
    sizes .OC_MEMCPY, [.OC_PUSH_BYTES, .OC_PROC_PUSH_BYTES, .OC_RESERVE_BYTES]]

/-- Stores to and loads from an address on the stack. -/
def derefOpcodes : List Opcode :=
  List.flatten [cells .OC_PROC_ASSIGN, cells .OC_ASSIGN, cells .OC_PROC_ASSIGN_AND_PUSH,
    cells .OC_ASSIGN_AND_PUSH,
    (signedLoads ++ floatLoads ++ unsignedLoads).map .OC_PROC_DEREF,
    (signedLoads ++ floatLoads ++ unsignedLoads).map .OC_DEREF]

/-- Constants, and what is read at an address in the operand. -/
def pushOpcodes : List Opcode :=
  List.flatten [sizes .OC_NEG_CONSTPUSH, sizes .OC_CONSTPUSH,
    [.OC_PUSH_FLOAT_CONST, .OC_PUSH_DOUBLE_CONST], sizes .OC_CHECK_SP,
    sizes (.OC_PROC_PUSH_ADDR .FP), sizes (.OC_PROC_PUSH_ADDR .AP),
    sizes (.OC_PROC_PUSH_ADDR .SP), sizes (.OC_PROC_PUSH_ADDR .CFA), sizes .OC_PUSH_STACKADDR,
    (signedLoads ++ floatLoads ++ unsignedLoads).flatMap fun t => sizes (.OC_PUSH_AT_STACKADDR t),
    (unsignedLoads ++ signedLoads ++ floatLoads).flatMap fun t => sizes (.OC_PUSH_AT_ADDR t),
    [.OC_INSERT_SIGNED_BITFIELD, .OC_INSERT_UNSIGNED_BITFIELD, .OC_EXTRACT_SIGNED_BITFIELD,
      .OC_EXTRACT_UNSIGNED_BITFIELD]]

/-- Returns, jumps and the moves of single slots. -/
def controlOpcodes : List Opcode :=
  List.flatten [[.OC_RET, .OC_RET_WORD, .OC_RET_LONG_LONG, .OC_RET_FLOAT, .OC_RET_DOUBLE,
      .OC_RET_STRUCT, .OC_PUSH_STRUCTRET_ADDR, .OC_MULTI_ARROW, .OC_UNRESOLVED_JUMP, .OC_JUMP,
      .OC_JUMP_IF_NON_ZERO, .OC_JUMP_IF_ZERO, .OC_SWITCH_ON_TABLE],
    sizes .OC_SWITCH_ON_CHAIN,
    [.OC_PUSH_WORD_RETVAL, .OC_PUSH_LONG_LONG_RETVAL, .OC_PUSH_FLOAT_RETVAL,
      .OC_PUSH_DOUBLE_RETVAL, .OC_CALL_INDIRECT, .OC_TRAP, .OC_NOP, .OC_SETJMP, .OC_LONGJMP,
      .OC_DUP, .OC_DUP_BACK_ONE, .OC_RESERVE_SLOT, .OC_POP, .OC_CVT_TO_BOOL]]

def arithOpcodes : List Opcode :=
  List.flatten [ints .OC_BITWISE_AND, ints .OC_BITWISE_XOR, ints .OC_BITWISE_OR,
    ints .OC_BITWISE_NOT, [.OC_LOGICAL_NOT], ints .OC_LSHIFT, ints .OC_RSHIFT, ints .OC_MOD,
    nums .OC_UNARY_MINUS, nums .OC_MUL_SIGNED, nums .OC_DIV_SIGNED, nums .OC_CHKDIV_SIGNED,
    nums .OC_ADD, nums .OC_SUB, nums .OC_IS_EQUAL, nums .OC_NOT_EQUAL, nums .OC_LESS_SIGNED,
    nums .OC_GREATER_SIGNED, nums .OC_LESS_OR_EQUAL_SIGNED, nums .OC_GREATER_OR_EQUAL_SIGNED,
    ints .OC_MUL_UNSIGNED, ints .OC_DIV_UNSIGNED, ints .OC_CHKDIV_UNSIGNED,
    ints .OC_LESS_UNSIGNED, ints .OC_GREATER_UNSIGNED, ints .OC_LESS_OR_EQUAL_UNSIGNED,
    ints .OC_GREATER_OR_EQUAL_UNSIGNED]

def cvtOpcodes : List Opcode :=
  [.OC_CVT_UNSIGNED_LONG_TO_LONG_LONG, .OC_CVT_SIGNED_LONG_TO_LONG_LONG,
    .OC_CVT_DOUBLE_TO_LONG_LONG, .OC_CVT_FLOAT_TO_LONG_LONG,
    .OC_CVT_UNSIGNED_LONG_LONG_TO_DOUBLE, .OC_CVT_SIGNED_LONG_LONG_TO_DOUBLE,
    .OC_CVT_UNSIGNED_LONG_LONG_TO_FLOAT, .OC_CVT_SIGNED_LONG_LONG_TO_FLOAT,
    .OC_CVT_UNSIGNED_LONG_LONG_TO_LONG, .OC_CVT_SIGNED_LONG_LONG_TO_LONG,
    .OC_CVT_LONG_LONG_TO_BOOL, .OC_CVT_UNSIGNED_LONG_TO_DOUBLE, .OC_CVT_SIGNED_LONG_TO_DOUBLE,
    .OC_CVT_FLOAT_TO_DOUBLE, .OC_CVT_UNSIGNED_LONG_TO_FLOAT, .OC_CVT_SIGNED_LONG_TO_FLOAT,
    .OC_CVT_DOUBLE_TO_FLOAT, .OC_CVT_FLOAT_TO_LONG, .OC_CVT_DOUBLE_TO_LONG,
    .OC_CVT_FLOAT_TO_BOOL, .OC_CVT_DOUBLE_TO_BOOL]

/-- The opcodes in the order of the source, which gives each its number. -/
def opcodeTable : List Opcode :=
  callOpcodes ++ derefOpcodes ++ pushOpcodes ++ controlOpcodes ++ arithOpcodes ++ cvtOpcodes

/-- The opcode of a number, as `GETOPCODE` casts it. -/
def opcodeOf (n : Nat) : Option Opcode := opcodeTable[n]?

/-- The number of an opcode. -/
def Opcode.num (op : Opcode) : Nat := opcodeTable.idxOf op

end ups_rules.opcodes
