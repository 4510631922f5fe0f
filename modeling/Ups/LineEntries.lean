-- The line numbers of interpreted functions (ci_compile.c and ci_stm.c): the entries that
-- compile_statement adds for the statements of a function, with the addresses of their code.
import Ups.CodeText

open ups_rules.machine
open ups_rules.opcodes
open ups_rules.code_text

namespace ups_rules.line_entries

/-! ## The pure model -/

/-- An expression with the line of `ex_lexinfo`, unless that is NULL, and with the calls that
`ci_compile_expression` makes for it where it stands. -/
structure Expr where
  ex_lexinfo : Option Int
  code : List (Word × Emission)

/-- What `compile_return_statement` looks at in the type of a value. -/
inductive Returned where
  | structOfCall | struct (size : Word) | float | double | longLong | word

mutual

/-- A statement; `null` is an else part that is not there. The lines of tokens are those of
`break`, `continue`, `return` and `for` and of the label after `goto`. -/
inductive Statement where
  | null
  | labeled (ls_stm : Statement)
  | caseLabeled (cs_stm : Statement)
  | exprStm (st_expr : Option Expr)
  | compound (bl_initlist : List (Word × Emission)) (co_statements : Statements)
  | ifStm (is_expr : Expr) (is_ifpart is_elsepart : Statement)
  | switchStm (ss_expr : Expr) (switch : Emission) (ss_stm : Statement)
  | whileStm (ws_expr : Expr) (ws_stm : Statement)
  | doStm (ws_expr : Expr) (ws_stm : Statement)
  | forStm (fs_init fs_test fs_reinit : Option Expr) (fs_stm : Statement) (lx : Int)
  | gotoStm (id_lexinfo : Int)
  | continueStm (lx : Int)
  | breakStm (lx : Int)
  | returnStm (st_expr : Option (Expr × Returned)) (lx : Int)

/-- The statements of a block, linked by `st_next`. -/
inductive Statements where
  | nil
  | cons (st : Statement) (st_next : Statements)

end

/-- The line of `st_lexinfo`, as the functions of ci_stm.c set it, unless it is NULL. -/
def Statement.st_lexinfo : Statement → Option Int
  | .null | .labeled _ | .caseLabeled _ | .compound _ _ => none
  | .exprStm st_expr => st_expr.bind Expr.ex_lexinfo
  | .ifStm expr _ _ | .switchStm expr _ _ | .whileStm expr _ | .doStm expr _ => expr.ex_lexinfo
  | .forStm init test reinit _ lx =>
    match init.or (test.or reinit) with
    | some expr => expr.ex_lexinfo
    | none => some lx
  | .gotoStm lx | .continueStm lx | .breakStm lx => some lx
  | .returnStm st_expr lx =>
    match st_expr with
    | some (expr, _) => expr.ex_lexinfo
    | none => some lx

def Statement.isNull : Statement → Bool
  | .null => true
  | _ => false

/-- The address and the line of an `lno_t`. -/
structure LnumEntry where
  le_addr : Nat
  le_lnum : Int
  deriving DecidableEq

/-- The parts of `text_t` that matter here. -/
structure Coder where
  tx : Text
  tx_lnos : List LnumEntry

def Coder.tx_pc (c : Coder) : Nat := c.tx.tx_text.length

def Coder.code (c : Coder) (es : List (Word × Emission)) : Coder := { c with tx := emitAll c.tx es }

/-- A jump to a label. The offset is patched when the label is resolved. -/
def toLabel (j : Jump) : List (Word × Emission) := [(0#64, .jump j 0#64)]

def addLnoEntry (c : Coder) : Option Int → Coder
  | some lx_lnum => { c with tx_lnos := c.tx_lnos ++ [⟨c.tx_pc, lx_lnum⟩] }
  | none => c

def compileExpressionStatement (c : Coder) (expr : Option Expr) : Coder :=
  match expr with
  | some expr => c.code expr.code
  | none => c

def compileReturnStatement (c : Coder) : Option (Expr × Returned) → Coder
  | none => c.code [(0#64, .opcode .OC_RET rfl)]
  | some (expr, .structOfCall) =>
    ((c.code [(0#64, .opcode .OC_PUSH_STRUCTRET_ADDR rfl)]).code expr.code).code
      [(0#64, .opcode .OC_RET rfl)]
  | some (expr, .struct size) => (c.code expr.code).code [(0#64, .long .RET_STRUCT size)]
  | some (expr, .float) => (c.code expr.code).code [(0#64, .opcode .OC_RET_FLOAT rfl)]
  | some (expr, .double) => (c.code expr.code).code [(0#64, .opcode .OC_RET_DOUBLE rfl)]
  | some (expr, .longLong) => (c.code expr.code).code [(0#64, .opcode .OC_RET_LONG_LONG rfl)]
  | some (expr, .word) => (c.code expr.code).code [(0#64, .opcode .OC_RET_WORD rfl)]

mutual

def compileStatement (c : Coder) (st : Statement) : Coder :=
  let c := addLnoEntry c st.st_lexinfo
  match st with
  | .null => c
  | .labeled st => compileStatement c st
  | .caseLabeled st => compileStatement c st
  | .exprStm expr => compileExpressionStatement c expr
  | .compound bl_initlist co_statements => compileStatements (c.code bl_initlist) co_statements
  | .ifStm expr ifpart elsepart =>
    let c := compileStatement ((c.code expr.code).code (toLabel .JUMP_IF_ZERO)) ifpart
    if elsepart.isNull then c else compileStatement (c.code (toLabel .JUMP)) elsepart
  | .switchStm expr switch st => compileStatement ((c.code expr.code).code [(0#64, switch)]) st
  | .whileStm expr st =>
    ((compileStatement (c.code (toLabel .JUMP)) st).code expr.code).code (toLabel .JUMP_IF_NON_ZERO)
  | .doStm expr st => ((compileStatement c st).code expr.code).code (toLabel .JUMP_IF_NON_ZERO)
  | .forStm init test reinit st _ =>
    let c := compileStatement ((compileExpressionStatement c init).code (toLabel .JUMP)) st
    let c := compileExpressionStatement c reinit
    match test with
    | some expr => (c.code expr.code).code (toLabel .JUMP_IF_NON_ZERO)
    | none => c.code (toLabel .JUMP)
  | .gotoStm _ | .continueStm _ | .breakStm _ => c.code (toLabel .JUMP)
  | .returnStm expr _ => compileReturnStatement c expr

/-- The loop of `compile_compound_statement`. -/
def compileStatements (c : Coder) : Statements → Coder
  | .nil => c
  | .cons st st_next => compileStatements (compileStatement c st) st_next

end

def Statement.isReturn : Statement → Bool
  | .returnStm _ _ => true
  | _ => false

def needFinalReturn : Statements → Bool
  | .nil => true
  | .cons st .nil => !st.isReturn
  | .cons _ st_next => needFinalReturn st_next

/-- A function with the size of its frame and the stack space beyond it, and with its body, which
is a compound statement. -/
structure Func where
  locals : Word
  used : Word
  bl_initlist : List (Word × Emission)
  co_statements : Statements

/-- The text of a function up to its body. -/
def linked (tx : Text) (f : Func) : Text :=
  emitAll { tx with tx_sp := f.locals, tx_max_sp := f.locals } [(0#64, .link f.used)]

def compileFunc (tx : Text) (f : Func) : Coder :=
  compileStatement ⟨linked tx f, []⟩ (.compound f.bl_initlist f.co_statements)

/-- The turn for a function of the loop that compiles them all. -/
def compileTurn (tx : Text) (f : Func) : Coder :=
  let c := compileFunc tx f
  if needFinalReturn f.co_statements then c.code [(0#64, .opcode .OC_RET rfl)] else c

/-! ## The addresses of the entries -/

variable {c c' c'' : Coder} {tx : Text}

theorem length_codeOperand (tx : Text) (s : OpSize) (v : Word) :
    tx.tx_text.length ≤ (codeOperand tx s v).tx_text.length := by
  rw [(adds_operand tx s v).text, List.length_append]
  exact Nat.le_add_right _ _

theorem length_codeOpcode (tx : Text) (op : Opcode) :
    (codeOpcode tx op).tx_text.length = tx.tx_text.length + 2 := by
  rw [(begins_codeOpcode tx op).text, List.length_append, le_bytes.length_leBytes]

theorem length_ciCodeOpcode (tx : Text) (op : Opcode) :
    tx.tx_text.length + 2 ≤ (ciCodeOpcode tx op).tx_text.length := by
  unfold ciCodeOpcode
  rw [length_codeOpcode]
  split
  · have hcheck := length_codeOperand (codeOpcode tx (.OC_CHECK_SP (formFor tx.tx_sp)))
      (formFor tx.tx_sp) tx.tx_sp
    rw [length_codeOpcode] at hcheck
    unfold codeCheckSp
    omega
  · exact Nat.le_refl _

/-- Each call codes an opcode of two bytes. -/
theorem length_emit (tx : Text) (e : Emission) :
    tx.tx_text.length + 2 ≤ (emit tx e).tx_text.length := by
  have hop := length_ciCodeOpcode tx (e.opcodeOf tx)
  rw [(e.adds_operands tx).text, List.length_append]
  omega

theorem length_emitAll (es : List (Word × Emission)) (tx : Text) :
    tx.tx_text.length ≤ (emitAll tx es).tx_text.length := by
  induction es generalizing tx with
  | nil => exact Nat.le_refl _
  | cons e es ih =>
    have hemit := length_emit (adjustSp tx e.1) e.2
    have hrest := ih (emit (adjustSp tx e.1) e.2)
    have hadjust : (adjustSp tx e.1).tx_text = tx.tx_text := rfl
    rw [hadjust] at hemit
    exact Nat.le_trans (by omega) hrest

/-- Entries are added behind those that are there, in the order of their addresses, for the code
that is added. -/
structure Extends (c c' : Coder) (new : List LnumEntry) : Prop where
  pc : c.tx_pc ≤ c'.tx_pc
  lnos : c'.tx_lnos = c.tx_lnos ++ new
  bounds : ∀ le ∈ new, c.tx_pc ≤ le.le_addr ∧ le.le_addr ≤ c'.tx_pc
  sorted : new.Pairwise fun a b => a.le_addr ≤ b.le_addr

theorem Extends.trans {new new' : List LnumEntry} (h : Extends c c' new) (h' : Extends c' c'' new') :
    Extends c c'' (new ++ new') where
  pc := h.pc.trans h'.pc
  lnos := by rw [h'.lnos, h.lnos, List.append_assoc]
  bounds := by
    intro le hle
    rcases List.mem_append.mp hle with hle | hle
    · exact ⟨(h.bounds le hle).1, (h.bounds le hle).2.trans h'.pc⟩
    · exact ⟨h.pc.trans (h'.bounds le hle).1, (h'.bounds le hle).2⟩
  sorted := List.pairwise_append.mpr ⟨h.sorted, h'.sorted, fun a ha b hb =>
    (h.bounds a ha).2.trans (h'.bounds b hb).1⟩

theorem extends_code (c : Coder) (es : List (Word × Emission)) : Extends c (c.code es) [] where
  pc := length_emitAll es c.tx
  lnos := (List.append_nil _).symm
  bounds := fun _ h => (nomatch h)
  sorted := List.Pairwise.nil

theorem extends_addLnoEntry (c : Coder) (lx : Option Int) :
    ∃ new, Extends c (addLnoEntry c lx) new := by
  cases lx with
  | none => exact ⟨[], Nat.le_refl _, (List.append_nil _).symm, fun _ h => (nomatch h), .nil⟩
  | some lx_lnum =>
    refine ⟨[⟨c.tx_pc, lx_lnum⟩], Nat.le_refl _, rfl, fun le hle => ?_, List.pairwise_singleton _ _⟩
    rw [List.mem_singleton.mp hle]
    exact ⟨Nat.le_refl _, Nat.le_refl _⟩

/-- Some entries are added. -/
def Grows (c c' : Coder) : Prop := ∃ new, Extends c c' new

theorem Grows.trans (h : Grows c c') (h' : Grows c' c'') : Grows c c'' := by
  obtain ⟨new, h⟩ := h
  obtain ⟨new', h'⟩ := h'
  exact ⟨new ++ new', h.trans h'⟩

theorem Grows.code (h : Grows c c') (es : List (Word × Emission)) : Grows c (c'.code es) :=
  h.trans ⟨[], extends_code c' es⟩

theorem grows_code (c : Coder) (es : List (Word × Emission)) : Grows c (c.code es) :=
  ⟨[], extends_code c es⟩

theorem Grows.expression (h : Grows c c') (expr : Option Expr) :
    Grows c (compileExpressionStatement c' expr) := by
  cases expr with
  | none => exact h
  | some expr => exact h.code _

theorem Grows.return (h : Grows c c') (expr : Option (Expr × Returned)) :
    Grows c (compileReturnStatement c' expr) := by
  rcases expr with _ | ⟨expr, _ | _ | _ | _ | _ | _⟩
  · exact h.code _
  · exact ((h.code _).code _).code _
  all_goals exact (h.code _).code _

mutual

theorem compileStatement_grows (c : Coder) (st : Statement) : Grows c (compileStatement c st) := by
  have hentry : Grows c (addLnoEntry c st.st_lexinfo) := extends_addLnoEntry c _
  cases st with
  | null => exact hentry
  | labeled st => exact hentry.trans (compileStatement_grows _ st)
  | caseLabeled st => exact hentry.trans (compileStatement_grows _ st)
  | exprStm expr => exact hentry.expression expr
  | compound init sts => exact (hentry.code init).trans (compileStatements_grows _ sts)
  | ifStm expr ifpart elsepart =>
    have hif := ((hentry.code expr.code).code (toLabel .JUMP_IF_ZERO)).trans (compileStatement_grows _ ifpart)
    unfold compileStatement
    dsimp only
    split
    · exact hif
    · exact (hif.code _).trans (compileStatement_grows _ elsepart)
  | switchStm expr switch st =>
    exact ((hentry.code expr.code).code _).trans (compileStatement_grows _ st)
  | whileStm expr st =>
    exact (((hentry.code _).trans (compileStatement_grows _ st)).code _).code _
  | doStm expr st => exact ((hentry.trans (compileStatement_grows _ st)).code _).code _
  | forStm init test reinit st lx =>
    have hbody := (((hentry.expression init).code (toLabel .JUMP)).trans
      (compileStatement_grows _ st)).expression reinit
    cases test with
    | none => exact hbody.code _
    | some expr => exact (hbody.code _).code _
  | gotoStm lx => exact hentry.code _
  | continueStm lx => exact hentry.code _
  | breakStm lx => exact hentry.code _
  | returnStm expr lx => exact hentry.return expr

theorem compileStatements_grows (c : Coder) (sts : Statements) :
    Grows c (compileStatements c sts) := by
  cases sts with
  | nil => exact grows_code c []
  | cons st sts => exact (compileStatement_grows c st).trans (compileStatements_grows _ sts)

end

/-- Entries are not behind the code. -/
theorem Grows.le (h : Grows c c') (hc : ∀ le ∈ c.tx_lnos, le.le_addr ≤ c.tx_pc) :
    ∀ le ∈ c'.tx_lnos, le.le_addr ≤ c'.tx_pc := by
  obtain ⟨new, hpc, hlnos, hbounds, -⟩ := h
  intro le hle
  rw [hlnos] at hle
  rcases List.mem_append.mp hle with hle | hle
  · exact (hc le hle).trans hpc
  · exact (hbounds le hle).2

theorem lt_code (c : Coder) (e : Emission) : c.tx_pc < (c.code [(0#64, e)]).tx_pc :=
  Nat.lt_of_lt_of_le (Nat.lt_add_of_pos_right Nat.zero_lt_two) (length_emit (adjustSp c.tx 0#64) e)

/-- A return adds code and no entry. -/
theorem compileReturnStatement_spec (c : Coder) (expr : Option (Expr × Returned)) :
    (compileReturnStatement c expr).tx_lnos = c.tx_lnos ∧
      c.tx_pc < (compileReturnStatement c expr).tx_pc := by
  rcases expr with _ | ⟨expr, _ | _ | _ | _ | _ | _⟩
  · exact ⟨rfl, lt_code c _⟩
  · exact ⟨rfl, Nat.lt_of_le_of_lt ((extends_code _ _).pc.trans (extends_code _ _).pc) (lt_code _ _)⟩
  all_goals exact ⟨rfl, Nat.lt_of_le_of_lt (extends_code _ _).pc (lt_code _ _)⟩

/-- The code of a return at the end is behind all entries. -/
theorem behind_statements : (sts : Statements) → (c : Coder) → needFinalReturn sts = false →
    (∀ le ∈ c.tx_lnos, le.le_addr ≤ c.tx_pc) →
      ∀ le ∈ (compileStatements c sts).tx_lnos, le.le_addr < (compileStatements c sts).tx_pc
  | .nil, _, h, _ => absurd h (by decide)
  | .cons st .nil, c, h, hc => by
    cases st with
    | returnStm expr lx =>
      intro le hle
      obtain ⟨hlnos, hlt⟩ := compileReturnStatement_spec
        (addLnoEntry c (Statement.returnStm expr lx).st_lexinfo) expr
      have hentry : Grows c (addLnoEntry c (Statement.returnStm expr lx).st_lexinfo) :=
        extends_addLnoEntry c _
      refine Nat.lt_of_le_of_lt (hentry.le hc le ?_) hlt
      rw [← hlnos]
      exact hle
    | _ => exact nomatch (show true = false from h)
  | .cons st (.cons st' sts), c, h, hc =>
    behind_statements (.cons st' sts) (compileStatement c st) h ((compileStatement_grows c st).le hc)

/-- The entries of a function are for its code, in the order of their addresses. -/
structure Within (start lim : Nat) (lnos : List LnumEntry) : Prop where
  bounds : ∀ le ∈ lnos, start ≤ le.le_addr ∧ le.le_addr < lim
  sorted : lnos.Pairwise fun a b => a.le_addr ≤ b.le_addr

/-- An instruction comes before the first entry, and a return behind the last one. -/
theorem compileTurn_within (tx : Text) (f : Func) :
    Within (tx.tx_text.length + 2) (compileTurn tx f).tx_pc (compileTurn tx f).tx_lnos := by
  have hlink : tx.tx_text.length + 2 ≤ (linked tx f).tx_text.length :=
    length_emit (adjustSp { tx with tx_sp := f.locals, tx_max_sp := f.locals } 0#64) (.link f.used)
  have hfunc : compileFunc tx f =
      compileStatements (Coder.code ⟨linked tx f, []⟩ f.bl_initlist) f.co_statements := rfl
  have hgrows : Grows ⟨linked tx f, []⟩ (compileFunc tx f) :=
    (grows_code _ f.bl_initlist).trans (compileStatements_grows _ f.co_statements)
  have hlt : ∀ le ∈ (compileTurn tx f).tx_lnos, le.le_addr < (compileTurn tx f).tx_pc := by
    unfold compileTurn
    dsimp only
    split
    · intro le hle
      exact Nat.lt_of_le_of_lt (hgrows.le (fun _ h => absurd h List.not_mem_nil) le hle) (lt_code _ _)
    · rename_i hreturn
      rw [hfunc]
      exact behind_statements _ _ (Bool.eq_false_iff.mpr hreturn) fun _ h =>
        absurd h List.not_mem_nil
  have hlnos : (compileTurn tx f).tx_lnos = (compileFunc tx f).tx_lnos := by
    unfold compileTurn
    dsimp only
    split
    · rfl
    · rfl
  obtain ⟨new, -, hnew, hbounds, hsorted⟩ := hgrows
  rw [List.nil_append] at hnew
  refine ⟨fun le hle => ⟨hlink.trans (hbounds le ?_).1, hlt le hle⟩, ?_⟩
  · rwa [hlnos, hnew] at hle
  · rw [hlnos, hnew]
    exact hsorted

end ups_rules.line_entries
