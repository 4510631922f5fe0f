-- The reading of a state or configuration file (config.c, obj_bpt.c): the commands, and the lines
-- that their handlers take from the stream themselves.
import Mathlib.Algebra.Ring.Int.Defs
import Mathlib.Algebra.Ring.Nat
import Mathlib.Data.Int.Init
import Mathlib.Data.List.DropRight

namespace ups_rules.state_file

abbrev Text := List Char

/-- Commands are looked up with the equality of texts. -/
theorem lawfulBEq_text : LawfulBEq Text := inferInstance

attribute [local instance] lawfulBEq_text

/-! ## Words -/

def isspace (c : Char) : Bool := c = ' ' || (9 ≤ c.toNat && c.toNat ≤ 13)

/-- `config_trim_line`: without the blanks at both ends and without a comment. -/
def configTrimLine (line : Text) : Text :=
  ((line.dropWhile isspace).takeWhile (· ≠ '#')).rdropWhile isspace

/-- `ssplit`, for at least one delimiter: the fields that are not empty. -/
def ssplit (delimiters line : Text) : List Text :=
  (line.splitOnP delimiters.contains).filter fun field => !field.isEmpty

/-- The fields between blanks. -/
def fields (line : Text) : List Text := ssplit [' ', '\t'] line

def openCurly : Text := ['{']

def closeCurly : Text := ['}']

/-- `strtol` in base 10: the value, and what is behind it. -/
def strtol (str : Text) : Int × Text :=
  let signed := str.dropWhile isspace
  let (negative, number) := match signed with
    | '-' :: number => (true, number)
    | '+' :: number => (false, number)
    | number => (false, number)
  let digits := number.takeWhile Char.isDigit
  if digits = [] then (0, str)
  else
    let value : Int := digits.foldl (fun v c => 10 * v + (c.toNat - 48)) 0
    let value := if negative then -value else value
    (max (-2 ^ 63) (min (2 ^ 63 - 1) value), number.dropWhile Char.isDigit)

/-- A long that is assigned to an int. -/
def toInt (value : Int) : Int := value.bmod (2 ^ 32)

/-- `sscanf(offsetstr, "[+%d]%c", &count, &junkc)`: its result, and `count` if it is set. -/
def scanOffset (offsetstr : Text) : Nat × Option Int :=
  match offsetstr with
  | '[' :: '+' :: number =>
    let (count, rest) := strtol number
    if rest = number then (0, none)
    else
      match rest with
      | ']' :: _ :: _ => (2, some (toInt count))
      | _ => (1, some (toInt count))
  | _ => (0, none)

/-! ## The target -/

/-- What the handlers ask of the symbol table and of the breakpoint objects; `σ` is the state of the
objects, of the variables on display and of the signals. -/
structure Target (σ Func Fil Obj : Type) where
  name_to_fil : Text → Option Fil
  name_and_fil_to_func : Text → Fil → Option Func
  find_func_by_name : Text → Option Func
  fu_fil : Func → Option Fil
  /-- The line numbers of `FU_LNOS`. -/
  fu_lnos : Func → List Int
  /-- What `count` is before `sscanf` sets it. -/
  stale_count : Int
  fil_and_lnum_to_bdobj : Option Fil → Int → σ → Option Obj
  remove_object : Obj → σ → σ
  add_breakpoint_object : Func → Option Fil → Int → σ → Option Obj × σ
  set_bpt_state : Obj → Bool → σ → σ
  set_want_save : Obj → Bool → σ → σ
  change_bd_text : Obj → Text → σ → σ
  add_interpreted_code : Fil → Int → Text → σ → Option Obj × σ
  /-- What the lines of a `file`, `common`, `globals` or `function` command do. -/
  keep_velist : Text → List Text → List Text → σ → Bool × σ
  handle_format_command : List Text → Bool → σ → Bool × σ
  handle_signal_command : List Text → σ → Bool × σ

structure Options where
  from_statefile : Bool
  breakpoints_only : Bool
  ignore_breakpoints : Bool

/-- The stream, `Errs_lnum`, the messages with the `Errs_lnum` they are shown with, what is written to
stdout, the result so far (-1 is false) and the state of the target. -/
structure Reader (σ : Type) where
  fp : List Text
  lnum : Nat
  errs : List (Nat × Text)
  out : Text
  auto_start : Bool
  res : Bool
  st : σ

variable {σ Func Fil Obj : Type}

def errf (mesg : Text) (r : Reader σ) : Reader σ := { r with errs := r.errs ++ [(r.lnum, mesg)] }

/-! ## Code blocks -/

/-- The loop of `skip_to_close_curly`. -/
def skipLines : List Text → Nat → Bool × List Text × Nat
  | [], lnum => (false, [], lnum)
  | line :: fp, lnum => if line = closeCurly then (true, fp, lnum) else skipLines fp (lnum + 1)

def skipToCloseCurly (r : Reader σ) : Bool × Reader σ :=
  let (found, fp, lnum) := skipLines r.fp r.lnum
  let r := { r with fp, lnum }
  if found then (true, r)
  else (false, errf "Missing closing `\x7d' in breakpoint code".toList r)

/-- The loop of `get_code_text`, with the text so far. -/
def codeLines : Text → List Text → Nat → Option Text × List Text × Nat
  | _, [], lnum => (none, [], lnum)
  | text, line :: fp, lnum =>
    if line = closeCurly then (some text, fp, lnum + 1)
    else
      match line with
      | '#' :: _ => codeLines text fp (lnum + 1)
      | '\t' :: line => codeLines (text ++ line ++ ['\n']) fp (lnum + 1)
      | line => codeLines (text ++ line ++ ['\n']) fp (lnum + 1)

def getCodeText (r : Reader σ) : Option Text × Reader σ :=
  match codeLines [] r.fp r.lnum with
  | (some text, fp, lnum) => (some text, { r with fp, lnum })
  | (none, fp, _) => (none, errf "Missing `\x7d'".toList { r with fp })

/-- `get_bp_lnum`: the line, and the messages. -/
def getBpLnum (t : Target σ Func Fil Obj) (f : Func) (lnumstr : Text) (offsetstr : Option Text) :
    Int × List Text :=
  let (value, ends) := strtol lnumstr
  let illegal := toInt value < 0 ∨ ends = lnumstr ∨ ends ≠ []
  let lnum := if illegal then -1 else toInt value
  let mesgs := if illegal then ["Ignored illegal line number `".toList ++ lnumstr ++ ['\'']] else []
  match offsetstr with
  | none => (lnum, mesgs)
  | some offsetstr =>
    let (n, count) := scanOffset offsetstr
    let mesgs :=
      if n ≠ 1 then mesgs ++ ["Ignored malformed offset `".toList ++ offsetstr ++ ['\'']] else mesgs
    match (t.fu_lnos f)[(count.getD t.stale_count).toNat]? with
    | some ln_num => (ln_num, mesgs)
    | none => (lnum, mesgs ++ ["Ignored out of range offset `".toList ++ offsetstr ++ ['\'']])

/-! ## Breakpoints -/

/-- The last argument of several is a brace. -/
def haveCode (args : List Text) : Bool := 1 < args.length && args.getLast? == some openCurly

/-- The arguments without the brace. -/
def bptArgs (args : List Text) : List Text := if haveCode args then args.dropLast else args

def bptUsage : Text :=
  ("Usage: breakpoint mangled-funcname \"funcname\" [filename [lnum [offset]] active|inactive] " ++
    "[\x7b]").toList

/-- A name in double quotes; `next` is the text behind it, with the blanks before it, which is what
stands behind the NUL that replaces a double quote alone. -/
def stripQuotes (next name : Text) : Text :=
  if name = ['"'] then next
  else if name.head? = some '"' ∧ name.getLast? = some '"' then name.tail.dropLast
  else name

/-- The function and file of a breakpoint command. A function may have moved to another file. -/
def bptFunc (t : Target σ Func Fil Obj) (funcname : Text) (filename : Option Text) :
    Option (Func × Option Fil) :=
  let moved := (t.find_func_by_name funcname).map fun f => (f, t.fu_fil f)
  match filename with
  | none => moved
  | some filename =>
    match t.name_to_fil filename with
    | none => moved
    | some fil =>
      match t.name_and_fil_to_func funcname fil with
      | none => moved
      | some f => some (f, some fil)

/-- In the file, and if that fails without one. -/
def addBreakpoint (t : Target σ Func Fil Obj) (f : Func) (fil : Option Fil) (lnum : Int) (st : σ) :
    Option Obj × σ :=
  match t.add_breakpoint_object f fil lnum st with
  | (some obj, st) => (some obj, st)
  | (none, st) => t.add_breakpoint_object f none (-1) st

/-- An object of the state file replaces the one that is there. -/
def replaceObject (t : Target σ Func Fil Obj) (opts : Options) (fil : Option Fil) (lnum : Int)
    (st : σ) : σ :=
  if opts.from_statefile then
    match t.fil_and_lnum_to_bdobj fil lnum st with
    | some obj => t.remove_object obj st
    | none => st
  else st

/-- The line of a breakpoint command, and the messages. -/
def bptLnum (t : Target σ Func Fil Obj) (f : Func) (args : List Text) : Int × List Text :=
  match args[2]? with
  | none => (-1, [])
  | some lnumstr => getBpLnum t f lnumstr args[3]?

def activationstr (args : List Text) : Option Text :=
  match args[4]? with
  | some str => some str
  | none => if args.length = 2 then args[1]? else none

/-- The breakpoint of the command, with its code. -/
def setBreakpoint (t : Target σ Func Fil Obj) (opts : Options) (words : List Text) (f : Func)
    (fil : Option Fil) (lnum : Int) (r : Reader σ) : Bool × Reader σ :=
  match addBreakpoint t f fil lnum (replaceObject t opts (t.fu_fil f) lnum r.st) with
  | (none, st) =>
    (false, if haveCode words then (skipToCloseCurly { r with st }).2 else { r with st })
  | (some obj, st) =>
    let disable := (activationstr (bptArgs words)).any (· ≠ "active".toList)
    let st := t.set_want_save obj opts.from_statefile (t.set_bpt_state obj disable st)
    if haveCode words then
      match getCodeText { r with st } with
      | (some text, r) => (true, { r with st := t.change_bd_text obj text r.st })
      | (none, r) => (false, { r with st := t.remove_object obj r.st })
    else (true, { r with st })

def handleAddBreakpointCommand (t : Target σ Func Fil Obj) (opts : Options) (next : Text)
    (words : List Text) (r : Reader σ) : Bool × Reader σ :=
  let args := bptArgs words
  if args.length < 1 ∨ args.length > 5 then (false, errf bptUsage r)
  else
    match bptFunc t (stripQuotes next (args.headD [])) args[1]? with
    | none => (false, (skipToCloseCurly r).2)
    | some (f, fil) =>
      let (lnum, mesgs) := bptLnum t f args
      let r := mesgs.foldl (fun r mesg => errf mesg r) r
      if opts.ignore_breakpoints then
        if haveCode words then skipToCloseCurly r else (true, r)
      else setBreakpoint t opts words f fil lnum r

/-! ## Interpreted code -/

def handleAddCodeCommand (t : Target σ Func Fil Obj) (opts : Options) (args : List Text)
    (r : Reader σ) : Bool × Reader σ :=
  match args with
  | [filename, lnumstr, brace] =>
    if brace ≠ openCurly then (false, errf "Usage: code filename lnum \x7b".toList r)
    else
      match t.name_to_fil filename with
      | none => (false, (skipToCloseCurly r).2)
      | some fil =>
        let (value, ends) := strtol lnumstr
        if ends = lnumstr ∨ ends ≠ [] then
          (false, (skipToCloseCurly (errf
            ("Line number `".toList ++ lnumstr ++ "' is not a decimal integer".toList) r)).2)
        else if opts.ignore_breakpoints then skipToCloseCurly r
        else
          match getCodeText r with
          | (none, r) => (false, (skipToCloseCurly r).2)
          | (some text, r) =>
            let lnum := toInt value
            let st := replaceObject t opts (some fil) lnum r.st
            match t.add_interpreted_code fil lnum text st with
            | (some obj, st) => (true, { r with st := t.set_want_save obj opts.from_statefile st })
            | (none, st) => (false, { r with st })
  | _ => (false, errf "Usage: code filename lnum \x7b".toList r)

/-! ## Variables -/

/-- The loops of `read_velist`, when `depth` calls of it wait for an inner one. -/
def velistLines : Nat → List Text → Nat → Option (List Text × Nat)
  | _, [], _ => none
  | depth, line :: fp, lnum =>
    let text := configTrimLine line
    if text = closeCurly then
      match depth with
      | 0 => some (fp, lnum + 1)
      | depth + 1 => velistLines depth fp (lnum + 1)
    else if text.getLast? = some '{' then velistLines (depth + 1) fp (lnum + 1)
    else velistLines depth fp (lnum + 1)

/-- `load_velist`, for the command with these arguments. -/
def loadVelist (t : Target σ Func Fil Obj) (cmd : Text) (args : List Text) (r : Reader σ) :
    Bool × Reader σ :=
  match velistLines 0 r.fp r.lnum with
  | some (fp, lnum) =>
    let (ok, st) := t.keep_velist cmd args (r.fp.take (r.fp.length - fp.length)) r.st
    (ok, { r with fp, lnum, st })
  | none => (false, errf "Missing closing `\x7d'".toList { r with fp := [] })

def handleFunctionCommand (t : Target σ Func Fil Obj) (args : List Text) (r : Reader σ) :
    Bool × Reader σ :=
  if args.getLast? ≠ some openCurly then (false, errf "Missing `\x7b'".toList r)
  else if args.length < 2 ∨ args.length > 4 then
    (false, errf "Usage: function mangled-funcname \"funcname\" [filename [lnum]] \x7b".toList r)
  else loadVelist t "function".toList args r

/-- The numbers of arguments, and the usage, of `globals`, `file` and `common`. -/
def fileUsage (cmd : Text) : List Nat × Text :=
  if cmd = "globals".toList then ([1], "Usage: globals \x7b".toList)
  else if cmd = "file".toList then ([2], "Usage: file filename \x7b".toList)
  else ([2, 3], "Usage: common cblockname [func] \x7b".toList)

def handleFileCommand (t : Target σ Func Fil Obj) (cmd : Text) (args : List Text) (r : Reader σ) :
    Bool × Reader σ :=
  if args.length ∈ (fileUsage cmd).1 ∧ args.getLast? = some openCurly then loadVelist t cmd args r
  else (false, errf (fileUsage cmd).2 r)

/-! ## Commands -/

/-- The function names of these commands can have blanks in them. -/
def quotedCommands : List Text :=
  ["breakpoint".toList, "function".toList, "format-hint".toList, "format".toList]

/-- The arguments of a line that is split at blanks into these fields; nothing if `fields2[2]` is no
string. -/
def arguments (line : Text) (words : List Text) : Option (List Text) :=
  match words with
  | [] => some []
  | cmd :: args =>
    if line.contains '"' ∧ cmd ∈ quotedCommands then
      match (ssplit ['"', '\t'] line)[2]? with
      | none => none
      | some rest => some (args.take 1 ++ fields rest)
    else some args

/-- What stands behind the first argument and one blank, up to the end of the second one. -/
def behindName (line : Text) : Text :=
  let blank (c : Char) : Bool := c = ' ' || c = '\t'
  let name := (line.dropWhile fun c => !blank c).dropWhile blank
  let rest := (name.dropWhile fun c => !blank c).tail
  rest.takeWhile blank ++ (rest.dropWhile blank).takeWhile fun c => !blank c

/-- The words, with blanks between them and a newline behind them unless the first one is `-n`. -/
def echo (args : List Text) : Text :=
  if args.head? = some ['-', 'n'] then List.intercalate [' '] args.tail
  else List.intercalate [' '] args ++ ['\n']

/-- The commands of `read_config_file`; nothing if it reads a NULL argument. -/
def runCommand (t : Target σ Func Fil Obj) (opts : Options) (line cmd : Text) (args : List Text)
    (r : Reader σ) : Option (Bool × Reader σ) :=
  if cmd = "breakpoint".toList then
    some (handleAddBreakpointCommand t opts (behindName line) args r)
  else if cmd = "code".toList then some (handleAddCodeCommand t opts args r)
  else if opts.breakpoints_only then some (true, r)
  else if cmd = "format".toList then
    let (ok, st) := t.handle_format_command args false r.st
    some (ok, { r with st })
  else if cmd = "format-hint".toList then
    let (ok, st) := t.handle_format_command args true r.st
    some (ok, { r with st })
  else if cmd ∈ ["file".toList, "common".toList, "globals".toList] then
    some (handleFileCommand t cmd args r)
  else if cmd = "function".toList then some (handleFunctionCommand t args r)
  else if cmd = "auto-start".toList then
    if args = ["yes".toList] then some (true, { r with auto_start := true })
    else if args = ["no".toList] then some (true, { r with auto_start := false })
    else some (true, errf "Usage: auto-start yes|no".toList r)
  else if cmd = "echo".toList then
    if args = [] then none else some (true, { r with out := r.out ++ echo args })
  else if cmd = "signal".toList then
    let (ok, st) := t.handle_signal_command args r.st
    some (ok, { r with st })
  else some (true, errf ("Unrecognised command `".toList ++ cmd ++ ['\'']) r)

/-- A command that was dispatched, with `Errs_lnum` at that time, and the stream and `Errs_lnum` when
its handler was done. -/
structure Dispatch where
  line : Text
  lnum : Nat
  fp : List Text
  after : Nat
deriving DecidableEq

/-- One line of `read_config_file`; nothing if it does not go on from there. -/
def readLine (t : Target σ Func Fil Obj) (opts : Options) (line : Text) (r : Reader σ) :
    Option (Option Dispatch × Reader σ) :=
  let r := { r with lnum := r.lnum + 1 }
  let text := configTrimLine line
  match fields text with
  | [] => some (none, r)
  | cmd :: words =>
    match arguments text (cmd :: words) with
    | none => none
    | some args =>
      match runCommand t opts text cmd args r with
      | none => none
      | some (ok, s) => some (some ⟨line, r.lnum, s.fp, s.lnum⟩, { s with res := s.res && ok })

/-- The loop of `read_config_file` for at most `fuel` lines: the commands that were dispatched, and
the end, unless a line went wrong. -/
def readConfigFile (t : Target σ Func Fil Obj) (opts : Options) :
    Nat → Reader σ → List Dispatch × Option (Reader σ)
  | 0, r => ([], some r)
  | fuel + 1, r =>
    match r.fp with
    | [] => ([], some r)
    | line :: fp =>
      match readLine t opts line { r with fp } with
      | none => ([], none)
      | some (dispatch, r) =>
        let (dispatched, done) := readConfigFile t opts fuel r
        (dispatch.toList ++ dispatched, done)

end ups_rules.state_file
