-- The parse tree of statements (ci_parse.h), as far as the statement checks and the code
-- generator look at it: each statement with its parts, and the types of the expressions.
import Mathlib.Algebra.Ring.Int.Defs
import Mathlib.Algebra.Ring.Nat
import Mathlib.Data.List.Basic

namespace ups_rules.statements

/-- `typecode_t` (symtab.h). -/
inductive TypeCode where
  | DT_PTR_TO | DT_FUNC_RETURNING | DT_ARRAY_OF
  | TY_NOTYPE | TY_UNKNOWN | PI_SAME_AS
  | TY_IDENTIFIER | TY_ELLIPSIS | TY_UNSIGNED | TY_SIGNED
  | TY_STRUCT | TY_UNION | TY_ENUM | TY_U_STRUCT | TY_U_UNION | TY_U_ENUM | TY_BITFIELD
  | TY_BASIC_TYPES
  | TY_VOID | TY_CHAR | TY_UCHAR | TY_SHORT | TY_USHORT | TY_INT | TY_UINT | TY_LONG | TY_ULONG
  | TY_FLOAT | TY_DOUBLE | TY_INT_ASSUMED
  | TY_LONGLONG | TY_ULONGLONG | TY_LONGDOUBLE | TY_BOOLEAN
  | TY_COMPLEX | TY_DBLCOMP | TY_LOGICAL | TY_CHARACTER | TY_FVOID
  | TY_MAXTYPE
deriving DecidableEq, Repr

/-- A type, as far as the checks of integral types look at it. The definition of an
enumeration is known by its address, `ty_aggr_or_enum`. -/
structure Ctype where
  ty_code : TypeCode
  ty_aggr_or_enum : Nat
  /-- `ty_bitfield->bf_type->ty_code` -/
  bf_type : TypeCode
deriving DecidableEq, Repr

/-- An expression with its type, which is NULL after an error. -/
structure Expr (E : Type) where
  ex_type : Option Ctype
  ex_tree : E
deriving DecidableEq, Repr

/-- A case label (`case_labeled_stm_t`), known by the address `cs_node`. Its value is a long
that `ci_make_case_labeled_statement` copied from an int. A default label has no expression. -/
structure CaseLabeledStm (E : Type) where
  cs_node : Nat
  cs_val : Int
  cs_val_ge : -2 ^ 31 ≤ cs_val
  cs_val_lt : cs_val < 2 ^ 31
  cs_expr : Option (Expr E)
deriving DecidableEq

mutual

/-- A statement. A NULL pointer, which stands for an else part that is not there, is `null`,
and a label of a goto is known by its address. -/
inductive Statement (E : Type) where
  | null
  | labeled (ls_goto_label : Nat) (ls_stm : Statement E)
  | caseLabeled (st_case : CaseLabeledStm E) (cs_stm : Statement E)
  | exprStm (st_expr : Option (Expr E))
  | compound (co_statements : Statements E)
  | ifStm (is_expr : Expr E) (is_ifpart is_elsepart : Statement E)
  | switchStm (ss_expr : Expr E) (ss_stm : Statement E) (ss_cstab : List (CaseLabeledStm E))
      (ss_default_cs : Option (CaseLabeledStm E))
  | whileStm (ws_expr : Expr E) (ws_stm : Statement E)
  | doStm (ws_expr : Expr E) (ws_stm : Statement E)
  | forStm (fs_init fs_test fs_reinit : Option (Expr E)) (fs_stm : Statement E)
  | gotoStm (st_goto_label : Nat)
  | continueStm
  | breakStm
  | returnStm (st_expr : Option (Expr E))

/-- The statements of a block, linked by `st_next`. -/
inductive Statements (E : Type) where
  | nil
  | cons (st : Statement E) (st_next : Statements E)

end

end ups_rules.statements
