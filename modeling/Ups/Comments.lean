-- White space and comments (get_line, skip_whitespace and parse_hash_directive in ci_lex.c), and
-- the same lines with every comment replaced by blanks.
import Mathlib.Data.List.Forall2
import Ups.LexStrings

open ups_rules.lex_numbers
open ups_rules.lex_strings (isspace skipInLine isDirective charAt)

namespace ups_rules.comments

/-! ## The pure model -/

inductive ErrType where
  | ET_WARNING | ET_ERROR
deriving DecidableEq

/-- A message, with the place that `ci_lex_error` reports it for. -/
structure Diag where
  errtype : ErrType
  le_filename : Line
  lnum : Int
  mesg : Line
deriving DecidableEq

/-- What directives and messages change. -/
structure LexEnv where
  le_filename : Line
  le_lnum : Int
  le_abort_parse : Bool
  diags : List Diag
deriving DecidableEq

/-- The line that is read and the place in it, a null pointer at the end of the input; and the
lines that `le_getline` still has. -/
structure Lexer where
  env : LexEnv
  le_line : Line
  le_lptr : Option Line
  lines : List Line

/-- `diagf`: nothing is reported once the parse is given up. The report function answers whether
to give it up. -/
def diagf (aborts : List Diag → Bool) (e : LexEnv) (errtype : ErrType) (mesg : Line) : LexEnv :=
  if e.le_abort_parse then e
  else
    let diags := e.diags ++ [⟨errtype, e.le_filename, e.le_lnum + 1, mesg⟩]
    { e with diags := diags, le_abort_parse := aborts diags }

/-- `%d` of sscanf. -/
def scanInt (line : Line) : Option (Int × Line) :=
  let line := line.dropWhile isspace
  let (negative, line) :=
    match line with
    | '-' :: line => (true, line)
    | '+' :: line => (false, line)
    | line => (false, line)
  let digits := line.takeWhile Char.isDigit
  if digits = [] then none
  else
    let val : Int := Nat.ofDigitChars 10 digits 0
    some (if negative then -val else val, line.dropWhile Char.isDigit)

/-- What sscanf makes of a quoted name behind the number. -/
def scanName (line : Line) : Option Line :=
  match line.dropWhile isspace with
  | '"' :: line =>
    let name := line.takeWhile (· ≠ '"')
    if name = [] then none else some name
  | _ => none

/-- `strncmp(line, word, len) == 0 && isspace(line[len])` -/
def startsWith (word line : Line) : Bool :=
  word.isPrefixOf line && isspace (charAt (line.drop word.length))

/-- The line behind the sharp sign. What is left of it is empty in every case. -/
def parseHashDirective (aborts : List Diag → Bool) (line : Line) (le : LexEnv) : LexEnv :=
  let line := line.dropWhile isspace
  if line = [] then le
  else if startsWith "pragma".toList line then
    diagf aborts le .ET_WARNING
      ("#pragma `".toList ++ ((line.drop 7).dropWhile isspace).dropLast ++ "' ignored".toList)
  else if startsWith "ident".toList line then le
  else
    match scanInt line with
    | none => diagf aborts le .ET_ERROR ("Bad # directive \"".toList ++ line ++ ['"'])
    | some (lnum, rest) =>
      { le with
        le_filename := (scanName rest).getD le.le_filename
        le_lnum := lnum - 2 }

/-- The directive of a line that is one. -/
def directive (aborts : List Diag → Bool) (line : Line) (le : LexEnv) : LexEnv :=
  parseHashDirective aborts ((line.dropWhile isspace).drop 1) le

/-- The end of `skip_whitespace` when no line is left. -/
def hitEof (aborts : List Diag → Bool) (incomment : Bool) (le : LexEnv) : LexEnv :=
  if incomment then diagf aborts le .ET_ERROR "Hit EOF while in a comment".toList else le

/-- `skip_whitespace` from the place `line` in `le_line` on. -/
def skipWhitespace (aborts : List Diag → Bool) :
    List Line → Bool → LexEnv → Line → Line → Lexer
  | lines, incomment, le, le_line, line =>
    match skipInLine incomment line with
    | (_, c :: rest) => ⟨le, le_line, some (c :: rest), lines⟩
    | (incomment, []) =>
      if le.le_abort_parse then ⟨hitEof aborts incomment le, le_line, none, lines⟩
      else
        let le := { le with le_lnum := le.le_lnum + 1 }
        match lines with
        | [] => ⟨hitEof aborts incomment le, [], none, []⟩
        | next :: lines =>
          if isDirective next then
            skipWhitespace aborts lines incomment (directive aborts next le) next []
          else skipWhitespace aborts lines incomment le next next

/-- What the lexer does between two calls of `skip_whitespace`: the characters of a token are
taken, and a string may go on in a further line. -/
inductive Move where
  /-- A token begins behind the white space, with `n + 1` characters on the line. -/
  | token (n : Nat)
  /-- It goes on with `n` characters. -/
  | chars (n : Nat)
  /-- It goes on in the next line. -/
  | line

/-- The characters of a move, and where they are. -/
structure Piece where
  lx_filename : Line
  lx_lnum : Int
  lx_cnum : Nat
  text : Line
deriving DecidableEq

/-- `make_lexinfo`, with the next `n` characters. -/
def pieceAt (l : Lexer) (line : Line) (n : Nat) : Piece :=
  ⟨l.env.le_filename, l.env.le_lnum + 1, l.le_line.length - line.length, line.take n⟩

/-- `get_line` -/
def getLine (l : Lexer) : Lexer :=
  if l.env.le_abort_parse then { l with le_lptr := none }
  else
    let le := { l.env with le_lnum := l.env.le_lnum + 1 }
    match l.lines with
    | [] => ⟨le, [], none, []⟩
    | next :: lines => ⟨le, next, some next, lines⟩

/-- The pieces that the lexer finds until it is at the end of the input or the moves end. -/
def run (aborts : List Diag → Bool) : List Move → Lexer → List Piece × Lexer
  | [], l => ([], l)
  | move :: moves, l =>
    match l.le_lptr with
    | none => ([], l)
    | some line =>
      match move with
      | .line => run aborts moves (getLine l)
      | .chars n =>
        let (pieces, l') := run aborts moves { l with le_lptr := some (line.drop n) }
        (pieceAt l line n :: pieces, l')
      | .token n =>
        let l := skipWhitespace aborts l.lines false l.env l.le_line line
        match l.le_lptr with
        | none => ([], l)
        | some line =>
          let (pieces, l') := run aborts moves { l with le_lptr := some (line.drop (n + 1)) }
          (pieceAt l line (n + 1) :: pieces, l')

/-! ## Comments as blanks -/

/-- A character of a comment. The end of the line stays. -/
def blankChar (c : Char) : Char := if c = '\n' then c else ' '

/-- The part of the line that `skipInLine` goes over. -/
def blankInLine : Bool → Line → Line
  | false, [] => []
  | false, '/' :: '*' :: line => ' ' :: ' ' :: blankInLine true line
  | false, c :: line => if isspace c then c :: blankInLine false line else []
  | true, [] => []
  | true, '*' :: '/' :: line => ' ' :: ' ' :: blankInLine false line
  | true, c :: line => blankChar c :: blankInLine true line

/-- A whole directive, from inside or outside a string and a comment, and whether it ends in a
comment. -/
def blankDirective : Bool → Bool → Line → Line × Bool
  | _, incomment, [] => ([], incomment)
  | true, incomment, c :: line =>
    let (line, incomment) := blankDirective (c ≠ '"') incomment line
    (c :: line, incomment)
  | false, false, '/' :: '*' :: line =>
    let (line, incomment) := blankDirective false true line
    (' ' :: ' ' :: line, incomment)
  | false, false, c :: line =>
    let (line, incomment) := blankDirective (c = '"') false line
    (c :: line, incomment)
  | false, true, '*' :: '/' :: line =>
    let (line, incomment) := blankDirective false false line
    (' ' :: ' ' :: line, incomment)
  | false, true, c :: line =>
    let (line, incomment) := blankDirective false true line
    (blankChar c :: line, incomment)

/-- The rest of the current line and the further lines with blanks for comments, and whether a
comment has no end. -/
structure Blanked where
  line : Line
  lines : List Line
  unterminated : Bool

/-- The white space and comments before a piece; `k` goes on with what is behind them. A line
that begins with a sharp sign outside a comment is a directive. -/
def blankSkip (k : Line → List Line → Blanked) : List Line → Bool → Line → Blanked
  | lines, incomment, line =>
    match skipInLine incomment line with
    | (_, c :: rest) =>
      let b := k (c :: rest) lines
      { b with line := blankInLine incomment line ++ b.line }
    | (incomment', []) =>
      match lines with
      | [] => ⟨blankInLine incomment line, [], incomment'⟩
      | next :: lines =>
        if isDirective next && !incomment' then
          let (next, incomment') := blankDirective false false next
          let b := blankSkip k lines incomment' []
          ⟨blankInLine incomment line, next :: b.lines, b.unterminated⟩
        else
          let b := blankSkip k lines incomment' next
          ⟨blankInLine incomment line, b.line :: b.lines, b.unterminated⟩

/-- What a piece takes stays as it is. -/
def blank : List Move → Line → List Line → Blanked
  | [], line, lines => ⟨line, lines, false⟩
  | .chars n :: moves, line, lines =>
    let b := blank moves (line.drop n) lines
    { b with line := line.take n ++ b.line }
  | .line :: _, line, [] => ⟨line, [], false⟩
  | .line :: moves, line, next :: lines =>
    let b := blank moves next lines
    ⟨line, b.line :: b.lines, b.unterminated⟩
  | .token n :: moves, line, lines =>
    blankSkip (fun line lines =>
      let b := blank moves (line.drop (n + 1)) lines
      { b with line := line.take (n + 1) ++ b.line }) lines false line

/-! ## Lines without odd sharp signs -/

/-- A line that is read: in a comment it does not begin with a sharp sign, a directive has no
comment in it, and nothing but a directive has a sharp sign behind its blanks and comments. -/
def FineLine (incomment : Bool) (next : Line) : Prop :=
  if isDirective next then incomment = false ∧ blankDirective false false next = (next, false)
  else charAt (skipInLine incomment next).2 ≠ '#'

instance (incomment : Bool) (next : Line) : Decidable (FineLine incomment next) :=
  inferInstanceAs (Decidable (if isDirective next then
    incomment = false ∧ blankDirective false false next = (next, false)
    else charAt (skipInLine incomment next).2 ≠ '#'))

def FineSkip (k : Line → List Line → Prop) : List Line → Bool → Line → Prop
  | lines, incomment, line =>
    match skipInLine incomment line with
    | (_, c :: rest) => k (c :: rest) lines
    | (incomment', []) =>
      match lines with
      | [] => True
      | next :: lines =>
        FineLine incomment' next ∧ FineSkip k lines incomment' (if isDirective next then [] else next)

/-- Every line that is read between two pieces is fine. -/
def Fine : List Move → Line → List Line → Prop
  | [], _, _ => True
  | .chars n :: moves, line, lines => Fine moves (line.drop n) lines
  | .line :: _, _, [] => True
  | .line :: moves, _, next :: lines => Fine moves next lines
  | .token n :: moves, line, lines =>
    FineSkip (fun line lines => Fine moves (line.drop (n + 1)) lines) lines false line

/-! ## White space -/

theorem skipInLine_white (w rest : Line) (h : ∀ c ∈ w, isspace c = true) :
    skipInLine false (w ++ rest) = skipInLine false rest := by
  induction w with
  | nil => rfl
  | cons c w ih =>
    simp only [List.mem_cons, forall_eq_or_imp] at h
    rw [List.cons_append, skipInLine]
    · rw [if_pos h.1, ih h.2]
    · rintro rest rfl
      exact absurd h.1 (by decide)

theorem isspace_blankInLine (incomment : Bool) (line : Line) :
    ∀ c ∈ blankInLine incomment line, isspace c = true := by
  have hblank (c : Char) : isspace (blankChar c) = true := by
    unfold blankChar
    split
    case isTrue h => rw [h]; decide
    case isFalse => decide
  fun_induction blankInLine incomment line <;> simp_all [isspace]

theorem isDirective_white (w rest : Line) (h : ∀ c ∈ w, isspace c = true) :
    isDirective (w ++ rest) = isDirective rest := by
  unfold isDirective
  rw [List.dropWhile_append_of_pos h]

/-- Where a token begins. -/
def Stops (line : Line) : Prop := skipInLine false line = (false, line)

theorem skipInLine_false_cons (c : Char) (rest : Line) (h : c = '/' → rest.head? ≠ some '*') :
    skipInLine false (c :: rest) =
      if isspace c then skipInLine false rest else (false, c :: rest) := by
  rw [skipInLine]
  rintro rest' rfl rfl
  exact h rfl rfl

theorem stops_cons_iff (c : Char) (rest : Line) :
    Stops (c :: rest) ↔ isspace c = false ∧ (c = '/' → rest.head? ≠ some '*') := by
  unfold Stops
  constructor
  · intro h
    have hlen := congrArg (fun r => r.2.length) h
    have hno : c = '/' → rest.head? ≠ some '*' := by
      rintro rfl hstar
      rcases rest with _ | ⟨d, rest⟩
      · cases hstar
      · obtain rfl := Option.some.inj hstar
        have hle := lex_strings.skipInLine_length true rest
        simp only [skipInLine, List.length_cons] at hlen
        omega
    refine ⟨?_, hno⟩
    rw [skipInLine_false_cons c rest hno] at hlen
    split at hlen
    case isTrue =>
      have hle := lex_strings.skipInLine_length false rest
      simp only [List.length_cons] at hlen
      omega
    case isFalse hspace => simpa using hspace
  · rintro ⟨hspace, hno⟩
    rw [skipInLine_false_cons c rest hno, hspace]
    rfl

/-- The scan of a line stops outside comments, where a token begins. -/
theorem stops_of_skipInLine {incomment incomment' : Bool} {line rest : Line} {c : Char}
    (h : skipInLine incomment line = (incomment', c :: rest)) : Stops (c :: rest) := by
  fun_induction skipInLine incomment line with
  | case1 => cases h
  | case2 line ih => exact ih h
  | case3 d line hno hspace ih => exact ih h
  | case4 d line hno hspace =>
    obtain ⟨-, hcons⟩ := Prod.mk.inj h
    obtain ⟨rfl, rfl⟩ := List.cons.inj hcons
    rw [stops_cons_iff]
    refine ⟨by simpa using hspace, ?_⟩
    rintro rfl hstar
    rcases line with _ | ⟨e, line⟩
    · cases hstar
    · obtain rfl := Option.some.inj hstar
      exact hno line rfl rfl
  | case5 => cases h
  | case6 line ih => exact ih h
  | case7 d line hno ih => exact ih h

/-- What the scan goes over is all of the line before the place it stops at. -/
theorem skipInLine_eq_drop (incomment : Bool) (line : Line) :
    (skipInLine incomment line).2 = line.drop (blankInLine incomment line).length ∧
      (blankInLine incomment line).length ≤ line.length := by
  fun_induction blankInLine incomment line <;> simp_all [skipInLine]

/-! ## The same characters or blanks -/

/-- Each character is the same or a blank. -/
def Masks (line line' : Line) : Prop :=
  List.Forall₂ (fun c c' => c' = c ∨ isspace c' = true) line line'

theorem Masks.refl (line : Line) : Masks line line := by
  induction line with
  | nil => exact .nil
  | cons c line ih => exact .cons (.inl rfl) ih

theorem Masks.append {a a' b b' : Line} (ha : Masks a a') (hb : Masks b b') :
    Masks (a ++ b) (a' ++ b') := List.rel_append ha hb

theorem masks_white {line line' : Line} (hlen : line'.length = line.length)
    (h : ∀ c ∈ line', isspace c = true) : Masks line line' := by
  induction line generalizing line' with
  | nil =>
    obtain rfl := List.length_eq_zero_iff.mp hlen
    exact .nil
  | cons c line ih =>
    rcases line' with _ | ⟨c', line'⟩
    · cases hlen
    · simp only [List.mem_cons, forall_eq_or_imp] at h
      exact .cons (.inr h.1) (ih (by simpa using hlen) h.2)

theorem Masks.stops {c : Char} {rest rest' : Line} (h : Masks rest rest')
    (hstops : Stops (c :: rest)) : Stops (c :: rest') := by
  rw [stops_cons_iff] at hstops ⊢
  refine ⟨hstops.1, fun hc hstar => hstops.2 hc ?_⟩
  rcases h with _ | ⟨hhead, -⟩
  · cases hstar
  · obtain rfl := Option.some.inj hstar
    rcases hhead with hsame | hspace
    · rw [← hsame]
      rfl
    · exact absurd hspace (by decide)

/-- What a continuation makes of a place where a token begins: the token keeps its first
character, and behind it characters only turn into blanks. -/
def Keeps (k : Line → List Line → Blanked) : Prop :=
  ∀ c rest lines, Stops (c :: rest) →
    ∃ rest', (k (c :: rest) lines).line = c :: rest' ∧ Masks rest rest'

/-- The part that the scan goes over, and the rest. -/
theorem skipInLine_split (incomment : Bool) (line : Line) :
    ∃ passed, line = passed ++ (skipInLine incomment line).2 ∧
      Masks passed (blankInLine incomment line) := by
  obtain ⟨hdrop, hle⟩ := skipInLine_eq_drop incomment line
  refine ⟨line.take (blankInLine incomment line).length, ?_, ?_⟩
  · rw [hdrop, List.take_append_drop]
  · apply masks_white
    · rw [List.length_take]
      omega
    · exact isspace_blankInLine incomment line

/-! ## One turn of the three recursions -/

section
variable {k : Line → List Line → Blanked} {P : Line → List Line → Prop}
  {aborts : List Diag → Bool} {le : LexEnv} {cur line rest next : Line} {lines : List Line}
  {incomment incomment' : Bool} {c : Char}

alias blankSkip_eq := blankSkip.eq_def

alias skipWhitespace_eq := skipWhitespace.eq_def

alias fineSkip_eq := FineSkip.eq_def

theorem blankSkip_stop (h : skipInLine incomment line = (incomment', c :: rest)) :
    blankSkip k lines incomment line =
      { k (c :: rest) lines with
        line := blankInLine incomment line ++ (k (c :: rest) lines).line } := by
  rw [blankSkip_eq]
  dsimp only
  rw [h]

theorem blankSkip_nil (h : skipInLine incomment line = (incomment', [])) :
    blankSkip k [] incomment line = ⟨blankInLine incomment line, [], incomment'⟩ := by
  rw [blankSkip_eq]
  dsimp only
  rw [h]

theorem blankSkip_next (h : skipInLine incomment line = (incomment', []))
    (hdir : isDirective next = false) :
    blankSkip k (next :: lines) incomment line =
      ⟨blankInLine incomment line,
        (blankSkip k lines incomment' next).line :: (blankSkip k lines incomment' next).lines,
        (blankSkip k lines incomment' next).unterminated⟩ := by
  rw [blankSkip_eq]
  dsimp only
  rw [h]
  simp [hdir]

theorem blankSkip_directive (h : skipInLine incomment line = (false, []))
    (hdir : isDirective next = true) (hfree : blankDirective false false next = (next, false)) :
    blankSkip k (next :: lines) incomment line =
      ⟨blankInLine incomment line, next :: (blankSkip k lines false []).lines,
        (blankSkip k lines false []).unterminated⟩ := by
  rw [blankSkip_eq]
  dsimp only
  rw [h]
  simp [hdir, hfree]

theorem skipWhitespace_stop (h : skipInLine incomment line = (incomment', c :: rest)) :
    skipWhitespace aborts lines incomment le cur line = ⟨le, cur, some (c :: rest), lines⟩ := by
  rw [skipWhitespace_eq]
  dsimp only
  rw [h]

theorem skipWhitespace_aborted (h : skipInLine incomment line = (incomment', []))
    (hab : le.le_abort_parse = true) :
    skipWhitespace aborts lines incomment le cur line =
      ⟨hitEof aborts incomment' le, cur, none, lines⟩ := by
  rw [skipWhitespace_eq]
  dsimp only
  rw [h]
  exact if_pos hab

theorem skipWhitespace_nil (h : skipInLine incomment line = (incomment', []))
    (hab : le.le_abort_parse = false) :
    skipWhitespace aborts [] incomment le cur line =
      ⟨hitEof aborts incomment' { le with le_lnum := le.le_lnum + 1 }, [], none, []⟩ := by
  rw [skipWhitespace_eq]
  dsimp only
  rw [h]
  simp [hab]

theorem skipWhitespace_next (h : skipInLine incomment line = (incomment', []))
    (hab : le.le_abort_parse = false) :
    skipWhitespace aborts (next :: lines) incomment le cur line =
      if isDirective next then
        skipWhitespace aborts lines incomment'
          (directive aborts next { le with le_lnum := le.le_lnum + 1 }) next []
      else skipWhitespace aborts lines incomment' { le with le_lnum := le.le_lnum + 1 } next next := by
  rw [skipWhitespace_eq]
  dsimp only
  rw [h]
  simp [hab]

theorem fineSkip_stop (h : skipInLine incomment line = (incomment', c :: rest)) :
    FineSkip P lines incomment line ↔ P (c :: rest) lines := by
  rw [fineSkip_eq]
  dsimp only
  rw [h]

theorem fineSkip_next (h : skipInLine incomment line = (incomment', [])) :
    FineSkip P (next :: lines) incomment line ↔
      FineLine incomment' next ∧ FineSkip P lines incomment' (if isDirective next then [] else next) := by
  rw [fineSkip_eq]
  dsimp only
  rw [h]

end

theorem blankSkip_line {k : Line → List Line → Blanked} {incomment incomment' : Bool}
    {line : Line} (lines : List Line) (h : skipInLine incomment line = (incomment', [])) :
    (blankSkip k lines incomment line).line = blankInLine incomment line := by
  rw [blankSkip_eq]
  dsimp only
  rw [h]
  cases lines with
  | nil => rfl
  | cons next lines =>
    dsimp only
    split
    · rfl
    · rfl

theorem blankSkip_masks {k : Line → List Line → Blanked} (hk : Keeps k) (lines : List Line)
    (incomment : Bool) (line : Line) : Masks line (blankSkip k lines incomment line).line := by
  obtain ⟨passed, hline, hmasks⟩ := skipInLine_split incomment line
  rcases hskip : skipInLine incomment line with ⟨incomment', _ | ⟨c, rest⟩⟩
  · rw [hskip, List.append_nil] at hline
    rw [blankSkip_line lines hskip]
    rwa [← hline] at hmasks
  · obtain ⟨rest', hrest', hmasks'⟩ := hk c rest lines (stops_of_skipInLine hskip)
    rw [hskip] at hline
    rw [blankSkip_stop hskip]
    dsimp only at hline ⊢
    rw [hrest']
    conv_lhs => rw [hline]
    exact hmasks.append (.cons (.inl rfl) hmasks')

/-- A line that is no directive is none with blanks for its comments. -/
theorem isDirective_blankSkip {k : Line → List Line → Blanked} (hk : Keeps k) (lines : List Line)
    (incomment : Bool) {next : Line} (hsharp : charAt (skipInLine incomment next).2 ≠ '#') :
    isDirective (blankSkip k lines incomment next).line = false := by
  have hwhite := isspace_blankInLine incomment next
  rcases hskip : skipInLine incomment next with ⟨incomment', _ | ⟨c, rest⟩⟩
  · rw [blankSkip_line lines hskip, ← List.append_nil (blankInLine incomment next),
      isDirective_white _ _ hwhite]
    rfl
  · have hstops := stops_of_skipInLine hskip
    obtain ⟨rest', hrest', -⟩ := hk c rest lines hstops
    rw [blankSkip_stop hskip]
    dsimp only
    rw [hrest', isDirective_white _ _ hwhite]
    rw [hskip] at hsharp
    rw [stops_cons_iff] at hstops
    unfold isDirective
    simpa [hstops.1] using hsharp

/-- How a call of `skip_whitespace` and the call on the blanked lines end. -/
inductive SameSkip (aborts : List Diag → Bool) (k : Line → List Line → Blanked)
    (P : Line → List Line → Prop) (unterminated : Bool) : Lexer → Lexer → Prop where
  | stops {le : LexEnv} {cur cur' rest rest' : Line} {c : Char} {lines : List Line}
    (hstops : Stops (c :: rest)) (hk : (k (c :: rest) lines).line = c :: rest')
    (hcur : cur'.length = cur.length) (hfine : P (c :: rest) lines)
    (hend : unterminated = (k (c :: rest) lines).unterminated) :
    SameSkip aborts k P unterminated ⟨le, cur, some (c :: rest), lines⟩
      ⟨le, cur', some (c :: rest'), (k (c :: rest) lines).lines⟩
  | eof {le : LexEnv} {cur cur' : Line} {lines lines' : List Line} :
    SameSkip aborts k P unterminated ⟨hitEof aborts unterminated le, cur, none, lines⟩
      ⟨le, cur', none, lines'⟩

theorem hitEof_aborted {aborts : List Diag → Bool} {le : LexEnv} (h : le.le_abort_parse = true)
    (incomment : Bool) : hitEof aborts incomment le = le := by
  unfold hitEof diagf
  rw [if_pos h, ite_self]

/-- Scanning a line with blanks for comments. -/
theorem skipInLine_blanked {incomment incomment' : Bool} {line rest rest' : Line} {c : Char}
    (h : skipInLine incomment line = (incomment', c :: rest)) (hmasks : Masks rest rest') :
    skipInLine false (blankInLine incomment line ++ c :: rest') = (false, c :: rest') := by
  rw [skipInLine_white _ _ (isspace_blankInLine incomment line)]
  exact hmasks.stops (stops_of_skipInLine h)

theorem skipInLine_blanked_nil (incomment : Bool) (line : Line) :
    skipInLine false (blankInLine incomment line) = (false, []) := by
  rw [← List.append_nil (blankInLine incomment line),
    skipInLine_white _ _ (isspace_blankInLine incomment line)]
  rfl

section
variable {aborts : List Diag → Bool} {k : Line → List Line → Blanked}
  {P : Line → List Line → Prop} {incomment incomment' : Bool} {line rest : Line} {c : Char}

theorem skip_blanked_stop (hk : Keeps k) (lines : List Line) (le : LexEnv) (cur cur' : Line)
    (hcur : cur'.length = cur.length) (h : skipInLine incomment line = (incomment', c :: rest))
    (hfine : FineSkip P lines incomment line) :
    SameSkip aborts k P (blankSkip k lines incomment line).unterminated
      (skipWhitespace aborts lines incomment le cur line)
      (skipWhitespace aborts (blankSkip k lines incomment line).lines false le cur'
        (blankSkip k lines incomment line).line) := by
  have hstops := stops_of_skipInLine h
  obtain ⟨rest', hrest', hmasks⟩ := hk c rest lines hstops
  rw [skipWhitespace_stop h, blankSkip_stop h]
  dsimp only
  rw [hrest', skipWhitespace_stop (skipInLine_blanked h hmasks)]
  exact .stops hstops hrest' hcur ((fineSkip_stop h).mp hfine) rfl

/-- The messages of the unterminated comment are the only difference at the end of the input. -/
theorem sameSkip_eof {unterminated : Bool} {le le' : LexEnv} {cur cur' : Line}
    {lines lines' : List Line} (h : le = hitEof aborts unterminated le') :
    SameSkip aborts k P unterminated ⟨le, cur, none, lines⟩
      ⟨hitEof aborts false le', cur', none, lines'⟩ := by
  rw [h]
  exact .eof

theorem skip_blanked (aborts : List Diag → Bool) (hk : Keeps k) (lines : List Line) (incomment : Bool) (le : LexEnv)
    (cur cur' line : Line) (hcur : cur'.length = cur.length)
    (hfine : FineSkip P lines incomment line) :
    SameSkip aborts k P (blankSkip k lines incomment line).unterminated
      (skipWhitespace aborts lines incomment le cur line)
      (skipWhitespace aborts (blankSkip k lines incomment line).lines false le cur'
        (blankSkip k lines incomment line).line) := by
  induction lines generalizing incomment le cur cur' line with
  | nil =>
    rcases hskip : skipInLine incomment line with ⟨incomment', _ | ⟨c, rest⟩⟩
    · have hblank := skipInLine_blanked_nil incomment line
      rw [blankSkip_nil hskip]
      rcases hab : le.le_abort_parse
      · rw [skipWhitespace_nil hskip hab, skipWhitespace_nil hblank hab]
        exact sameSkip_eof rfl
      · rw [skipWhitespace_aborted hskip hab, skipWhitespace_aborted hblank hab]
        exact sameSkip_eof rfl
    · exact skip_blanked_stop hk [] le cur cur' hcur hskip hfine
  | cons next lines ih =>
    rcases hskip : skipInLine incomment line with ⟨incomment', _ | ⟨c, rest⟩⟩
    · have hblank := skipInLine_blanked_nil incomment line
      obtain ⟨hline, hrest⟩ := (fineSkip_next hskip).mp hfine
      rcases hab : le.le_abort_parse
      · unfold FineLine at hline
        rcases hdir : isDirective next
        · -- an ordinary line
          rw [hdir] at hline hrest
          have hnodir := isDirective_blankSkip hk lines incomment' hline
          have hlen := (blankSkip_masks hk lines incomment' next).length_eq
          rw [skipWhitespace_next hskip hab, blankSkip_next hskip hdir]
          dsimp only
          rw [skipWhitespace_next hblank hab, hdir, hnodir]
          exact ih incomment' _ next _ next hlen.symm hrest
        · -- a directive
          rw [hdir] at hline hrest
          obtain ⟨rfl, hfree⟩ := hline
          rw [skipWhitespace_next hskip hab, blankSkip_directive hskip hdir hfree]
          dsimp only
          rw [skipWhitespace_next hblank hab, hdir]
          have hnil : (blankSkip k lines false []).line = [] := blankSkip_line lines rfl
          have hih := ih false (directive aborts next { le with le_lnum := le.le_lnum + 1 }) next
            next [] rfl hrest
          rw [hnil] at hih
          exact hih
      · have hline' := blankSkip_line (k := k) (next :: lines) hskip
        rw [skipWhitespace_aborted hskip hab, hline', skipWhitespace_aborted hblank hab]
        apply sameSkip_eof
        rw [hitEof_aborted hab, hitEof_aborted hab]
    · exact skip_blanked_stop hk (next :: lines) le cur cur' hcur hskip hfine

end

/-! ## Runs of the lexer -/

/-- The blanked lines behind a token. -/
def behindToken (moves : List Move) (n : Nat) (line : Line) (lines : List Line) : Blanked :=
  { blank moves (line.drop (n + 1)) lines with
    line := line.take (n + 1) ++ (blank moves (line.drop (n + 1)) lines).line }

theorem masks_take {line line' : Line} (n : Nat) (h : Masks (line.drop n) line') :
    Masks line (line.take n ++ line') := by
  conv_lhs => rw [← List.take_append_drop n line]
  exact (Masks.refl _).append h

theorem behindToken_keeps {moves : List Move}
    (h : ∀ line lines, Masks line (blank moves line lines).line) (n : Nat) :
    Keeps (behindToken moves n) := by
  intro c rest lines _
  exact ⟨rest.take n ++ (blank moves (rest.drop n) lines).line, rfl, masks_take n (h _ _)⟩

theorem blank_masks (moves : List Move) (line : Line) (lines : List Line) :
    Masks line (blank moves line lines).line := by
  induction moves generalizing line lines with
  | nil => exact .refl line
  | cons move moves ih =>
    cases move with
    | token n => exact blankSkip_masks (behindToken_keeps ih n) lines false line
    | chars n => exact masks_take n (ih _ _)
    | line =>
      cases lines with
      | nil => exact .refl line
      | cons next lines => exact .refl line

/-- What is taken of a line comes back in front of the rest. -/
theorem take_drop_append {line line' : Line} (n : Nat) (h : Masks (line.drop n) line') :
    (line.take n ++ line').take n = line.take n ∧ (line.take n ++ line').drop n = line' := by
  have hlen := h.length_eq
  rw [List.length_drop] at hlen
  rcases Nat.le_total n line.length with hle | hle
  · have htake : (line.take n).length = n := List.length_take_of_le hle
    constructor
    · rw [List.take_append_of_le_length (Nat.le_of_eq htake.symm), List.take_take, Nat.min_self]
    · rw [List.drop_append_of_le_length (Nat.le_of_eq htake.symm), List.drop_of_length_le (by omega),
        List.nil_append]
  · obtain rfl : line' = [] := List.length_eq_zero_iff.mp (by omega)
    rw [List.append_nil, List.take_take, Nat.min_self]
    exact ⟨rfl, List.drop_of_length_le (by rw [List.length_take]; omega)⟩

/-- Two runs that find the same pieces, with the same directives and messages. An unterminated
comment is one error more, at the end of the input. -/
structure Alike (aborts : List Diag → Bool) (unterminated : Bool)
    (r r' : List Piece × Lexer) : Prop where
  pieces : r.1 = r'.1
  env : r.2.env = hitEof aborts unterminated r'.2.env
  eof : r.2.le_lptr.isNone = r'.2.le_lptr.isNone
  ends : unterminated = true → r.2.le_lptr = none

theorem run_none (aborts : List Diag → Bool) (moves : List Move) (le : LexEnv) (cur : Line)
    (lines : List Line) : run aborts moves ⟨le, cur, none, lines⟩ = ([], ⟨le, cur, none, lines⟩) := by
  cases moves <;> rfl

theorem Alike.cons {aborts : List Diag → Bool} {unterminated : Bool}
    {r r' : List Piece × Lexer} (h : Alike aborts unterminated r r') (p : Piece) :
    Alike aborts unterminated (p :: r.1, r.2) (p :: r'.1, r'.2) where
  pieces := congrArg (p :: ·) h.pieces
  env := h.env
  eof := h.eof
  ends := h.ends

theorem run_token {aborts : List Diag → Bool} (moves : List Move) (n : Nat) (le : LexEnv)
    (cur line : Line) (lines : List Line) :
    run aborts (.token n :: moves) ⟨le, cur, some line, lines⟩ =
      let l := skipWhitespace aborts lines false le cur line
      match l.le_lptr with
      | none => ([], l)
      | some line =>
        (pieceAt l line (n + 1) ::
          (run aborts moves { l with le_lptr := some (line.drop (n + 1)) }).1,
        (run aborts moves { l with le_lptr := some (line.drop (n + 1)) }).2) := rfl

/-- The same piece, where the line has been replaced by a blanked one. -/
theorem pieceAt_blanked (le : LexEnv) {cur cur' line line' : Line} (lines lines' : List Line)
    (n : Nat) (hcur : cur'.length = cur.length) (h : Masks (line.drop n) line') :
    pieceAt ⟨le, cur', some (line.take n ++ line'), lines'⟩ (line.take n ++ line') n =
      pieceAt ⟨le, cur, some line, lines⟩ line n := by
  have hlen := (masks_take n h).length_eq
  simp only [pieceAt, Piece.mk.injEq, true_and]
  exact ⟨by rw [hcur, hlen], (take_drop_append n h).1⟩

theorem run_blanked (aborts : List Diag → Bool) (moves : List Move) (le : LexEnv)
    (cur cur' line : Line) (lines : List Line) (hcur : cur'.length = cur.length)
    (hfine : Fine moves line lines) :
    Alike aborts (blank moves line lines).unterminated
      (run aborts moves ⟨le, cur, some line, lines⟩)
      (run aborts moves ⟨le, cur', some (blank moves line lines).line,
        (blank moves line lines).lines⟩) := by
  induction moves generalizing le cur cur' line lines with
  | nil => exact ⟨rfl, rfl, rfl, fun h => by cases h⟩
  | cons move moves ih =>
    cases move with
    | token n =>
      have hskip := skip_blanked aborts (behindToken_keeps (blank_masks moves) n) lines
        false le cur cur' line hcur hfine
      have hblank : blank (.token n :: moves) line lines =
          blankSkip (behindToken moves n) lines false line := rfl
      rw [hblank, run_token, run_token]
      generalize skipWhitespace aborts lines false le cur line = o at hskip ⊢
      generalize skipWhitespace aborts _ false le cur' _ = b at hskip ⊢
      generalize (blankSkip (behindToken moves n) lines false line).unterminated = u at hskip ⊢
      cases hskip with
      | eof =>
        exact ⟨rfl, rfl, rfl, fun _ => rfl⟩
      | @stops le cur cur' rest rest' c lines hstops hk hcur hfine hend =>
        have hmasks := blank_masks moves ((c :: rest).drop (n + 1)) lines
        have hih := ih le cur cur' ((c :: rest).drop (n + 1)) lines hcur hfine
        have hpiece := pieceAt_blanked le lines (behindToken moves n (c :: rest) lines).lines
          (n + 1) hcur hmasks
        obtain ⟨-, hdrop⟩ := take_drop_append (n + 1) hmasks
        have hline : (behindToken moves n (c :: rest) lines).line =
            (c :: rest).take (n + 1) ++ (blank moves ((c :: rest).drop (n + 1)) lines).line := rfl
        dsimp only
        rw [← hk, hend, hline, hpiece, hdrop]
        exact hih.cons _
    | chars n =>
      have hmasks := blank_masks moves (line.drop n) lines
      have hih := ih le cur cur' (line.drop n) lines hcur hfine
      have hpiece := pieceAt_blanked le lines (blank moves (line.drop n) lines).lines n hcur hmasks
      obtain ⟨-, hdrop⟩ := take_drop_append n hmasks
      have hblank : blank (.chars n :: moves) line lines =
          { blank moves (line.drop n) lines with
            line := line.take n ++ (blank moves (line.drop n) lines).line } := rfl
      simp only [run, hblank, hpiece, hdrop]
      exact hih.cons _
    | line =>
      simp only [run, getLine]
      rcases hab : le.le_abort_parse
      · cases lines with
        | nil =>
          simp only [blank, Bool.false_eq_true, if_false, run_none]
          exact ⟨rfl, rfl, rfl, fun _ => rfl⟩
        | cons next lines =>
          simp only [blank, Bool.false_eq_true, if_false]
          exact ih _ next _ next lines (blank_masks moves next lines).length_eq.symm hfine
      · simp only [if_true, run_none]
        exact ⟨rfl, (hitEof_aborted hab _).symm, rfl, fun _ => rfl⟩

/-! ## Main results -/

def initialEnv (le_filename : Line) : LexEnv := ⟨le_filename, -1, false, []⟩

/-- The lexer before the first line. -/
def start (le_filename : Line) (lines : List Line) : Lexer :=
  ⟨initialEnv le_filename, [], some [], lines⟩

/-- The run on the lines is the run on the lines without their comments. -/
def CommentsAreBlanks (aborts : List Diag → Bool) (le_filename : Line) (moves : List Move)
    (lines : List Line) : Prop :=
  Alike aborts (blank moves [] lines).unterminated
    (run aborts moves (start le_filename lines))
    (run aborts moves (start le_filename (blank moves [] lines).lines))

theorem blank_nil (moves : List Move) (lines : List Line) : (blank moves [] lines).line = [] := by
  have h := (blank_masks moves [] lines).length_eq
  exact List.length_eq_zero_iff.mp h.symm

end ups_rules.comments
