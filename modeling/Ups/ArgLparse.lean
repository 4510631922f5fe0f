-- Command lines (arg_lparse.c, arg_redir.c): how a line is taken apart into redirections and words, for
-- the shell and for a program that is started directly.
import Mathlib.Tactic.Common
import Ups.ArgGlob

namespace ups_rules.arg_lparse

open arg_quote arg_brace arg_glob

/-! ## The pure model -/

/-- `*s`; behind the text are NULs. -/
def deref : List Byte → Byte
  | [] => 0#8
  | c :: _ => c

def isdigit (c : Byte) : Bool := byte '0' ≤ c && c ≤ byte '9'

def iswhite (c : Byte) : Bool := " \t\n".toList.any fun d => byte d == c

def skipWhite (line : List Byte) : List Byte := line.dropWhile iswhite

/-- The room for characters in `patbuf`. -/
def PATLIM : Nat := 10 - 1

def isRedirChar (c : Byte) : Bool := c != 0#8 && "<>&-".toList.any fun d => byte d == c

/-- The loop of `arg_convert_redir_to_shell_syntax`, for at most so many turns. -/
def patLoop : Nat → List Byte → List Byte → Option (List Byte × List Byte)
  | 0, _, _ => none
  | fuel + 1, s, pat =>
    if isRedirChar (deref s) then
      if pat.length < PATLIM then patLoop fuel s.tail (pat ++ [deref s]) else patLoop fuel s pat
    else some (s, pat)

/-- What is recognised, and whether a file name follows. -/
def Rdtab : List (List Byte × Bool) :=
  [("d>&d", false), ("d>&-", false), ("d<&d", false), ("d<&-", false), (">&-", false), ("<&-", false),
    ("<&d", false), (">&d", false), (">>", true), (">", true), ("d>", true), ("<", true), ("d<", true),
    (">&", true)].map fun rd => (rd.1.toList.map byte, rd.2)

inductive Converted
  | notRedir
  | redir (redir_str : List Byte) (postarg_str : Option (List Byte)) (rest : List Byte)
  | unrecognised

/-- Behind the loop: the last digit, and the table. -/
def lookUp (p_s s pat : List Byte) : Converted :=
  let digit := isdigit (deref s)
  let pat := if digit ∧ pat.length < PATLIM then pat ++ [byte 'd'] else pat
  let s := if digit then s.tail else s
  match Rdtab.find? fun rd => rd.1 == pat with
  | none => .unrecognised
  | some rd =>
    if pat = ">&".toList.map byte then
      .redir (">".toList.map byte) (some (" 2>&1".toList.map byte)) s
    else .redir (p_s.take (p_s.length - s.length)) (if rd.2 then some [] else none) s

/-- `none` when the loop has not ended. -/
def argConvertRedirToShellSyntax (fuel : Nat) (p_s : List Byte) : Option Converted :=
  let digit := isdigit (deref p_s)
  let s := if digit then p_s.tail else p_s
  let pat := if digit then [byte 'd'] else []
  if deref s ≠ byte '<' ∧ deref s ≠ byte '>' then some .notRedir
  else
    let pat := pat ++ [deref s]
    let s := s.tail
    let more := deref s = byte '&' ∨ deref s = byte '>'
    let pat := if more then pat ++ [deref s] else pat
    let s := if more then s.tail else s
    (patLoop fuel s pat).map fun r => lookUp p_s r.1 r.2

inductive Action
  | RDA_CLOSE
  | RDA_DUP
  | RDA_DUP_AND_CLOSE

structure Redir where
  rdl_action : Action
  rdl_fd1 : Int
  rdl_fd2 : Int

inductive RedirType
  | RD_NOT_REDIR
  | RD_CREATE
  | RD_APPEND
  | RD_READ
  | RD_ERROR
  deriving DecidableEq

/-- What else the system says: the file that is opened for a redirection, and how many there can be. -/
structure System where
  env : Nat → Env
  arg_open_redir_file : Nat → List Byte → RedirType → Option Int
  dtablesize : Int

/-- A number in an `int`, and what is behind it. -/
def getfd (dtablesize : Int) (s : List Byte) : Option (Int × List Byte) :=
  let fd := (s.takeWhile isdigit).foldl
    (fun (fd : Int) c => (fd * 10 + c.toNat - (byte '0').toNat).bmod (2 ^ 32)) 0
  if fd < 0 ∨ dtablesize < fd then none else some (fd, s.dropWhile isdigit)

/-- `fdaddr` is the place in the list of the redirection that waits for its file. -/
structure GotRedir where
  redirtype : RedirType
  fdaddr : Option Nat
  rdlist : List Redir
  rest : List Byte

def GotRedir.error : GotRedir := ⟨.RD_ERROR, none, [], []⟩

/-- The second half of `arg_get_redir`: a file name follows, or a file descriptor, or `-`. -/
def finishRedir (dtablesize : Int) (rdlist more : List Redir) (redirtype : RedirType) (rfd : Int)
    (s : List Byte) : GotRedir :=
  if deref s ≠ byte '&' then
    ⟨redirtype, some rdlist.length, rdlist ++ ⟨.RDA_DUP_AND_CLOSE, -1, rfd⟩ :: more, s⟩
  else if redirtype = .RD_APPEND then .error
  else
    let s := s.tail
    if deref s = byte '-' then
      ⟨redirtype, none, rdlist ++ ⟨.RDA_CLOSE, rfd, rfd⟩ :: more, s.tail⟩
    else if !isdigit (deref s) then .error
    else match getfd dtablesize s with
      | none => .error
      | some (outfd, s) => ⟨redirtype, none, rdlist ++ ⟨.RDA_DUP, outfd, rfd⟩ :: more, s⟩

def argGetRedir (dtablesize : Int) (rdlist : List Redir) (p_s : List Byte) : GotRedir :=
  let s := p_s.dropWhile isdigit
  let redirch := deref s
  let s := s.tail
  if redirch ≠ byte '>' ∧ redirch ≠ byte '<' then ⟨.RD_NOT_REDIR, none, rdlist, p_s⟩
  else
    let rfd := if isdigit (deref p_s) then (getfd dtablesize p_s).map Prod.fst
      else some (if redirch = byte '<' then 0 else 1)
    match rfd with
    | none => .error
    | some rfd =>
      if redirch = byte '>' then
        let append := deref s = byte '>'
        let s := if append then s.tail else s
        let both := deref s = byte '&' ∧ deref s.tail ≠ byte '-' ∧ !isdigit (deref s.tail)
        finishRedir dtablesize rdlist (if both then [⟨.RDA_DUP, rfd, 2⟩] else [])
          (if append then .RD_APPEND else .RD_CREATE) rfd (if both then s.tail else s)
      else if deref s = byte '<' then .error
      else finishRedir dtablesize rdlist [] .RD_READ rfd s

/-- One file name, and what is behind it. -/
def getRedirArg (env : Env) (garbage : Memory) (b : Buffer) (line : List Byte) :
    Option (List Byte × List Byte) × Buffer :=
  let line := skipWhite line
  if deref line = 0#8 then (none, b)
  else
    let r := argGlob env garbage b line
    match r.1 with
    | some ([arg], line) => (some (arg, line), r.2)
    | _ => (none, r.2)

/-- At least one word. -/
def getGlob (env : Env) (garbage : Memory) (b : Buffer) (line : List Byte) :
    Option (List (List Byte) × List Byte) × Buffer :=
  let r := argGlob env garbage b line
  match r.1 with
  | some (args, line) => (if args = [] then none else some (args, line), r.2)
  | none => (none, r.2)

/-- `add_words_and_free`. -/
def addWords (args : List (List Byte)) : List Byte :=
  args.flatMap fun arg => singleQuote :: arg ++ [singleQuote, byte ' ']

/-- A turn of one of the main loops: the line is at its end, or there is an error, or the loop goes on
with what the turn gives, from this place. -/
inductive Turn (α : Type)
  | done
  | failed
  | goes (out : α) (line : List Byte) (b : Buffer)

/-- A turn of `arg_make_shell_line`; `none` when it does not end. -/
def shellTurn (fuel : Nat) (env : Env) (garbage : Memory) (b : Buffer) (line : List Byte) :
    Option (Turn (List Byte)) :=
  let line := skipWhite line
  if deref line = 0#8 then some .done
  else (argConvertRedirToShellSyntax fuel line).map fun
    | .unrecognised => .failed
    | .notRedir =>
      match getGlob env garbage b line with
      | (none, _) => .failed
      | (some (args, line), b) => .goes (addWords args) line b
    | .redir redir_str none rest => .goes (redir_str ++ [byte ' ']) rest b
    | .redir redir_str (some postarg_str) rest =>
      match getRedirArg env garbage b rest with
      | (none, _) => .failed
      | (some (arg, line), b) =>
        .goes (redir_str ++ [byte ' '] ++ addWords [arg] ++ postarg_str) line b

/-- `arg_make_shell_line`, for at most so many turns of each loop: the line for the shell, if there is
no error. The system is asked anew for each word. -/
def argMakeShellLine (sys : System) (garbage : Memory) :
    Nat → Nat → Buffer → List Byte → List Byte → Option (Option (List Byte))
  | 0, _, _, _, _ => none
  | fuel + 1, n, b, line, eb =>
    match shellTurn fuel (sys.env n) garbage b line with
    | none => none
    | some .done => some (some eb)
    | some .failed => some none
    | some (.goes out line b) => argMakeShellLine sys garbage fuel (n + 1) b line (eb ++ out)

/-- A turn of `arg_lparse`. -/
def lparseTurn (sys : System) (garbage : Memory) (n : Nat) (b : Buffer) (line : List Byte)
    (rdlist : List Redir) : Turn (List (List Byte) × List Redir) :=
  let line := skipWhite line
  if deref line = 0#8 then .done
  else
    let r := argGetRedir sys.dtablesize rdlist line
    if r.redirtype = .RD_ERROR then .failed
    else match r.fdaddr with
      | some i =>
        match getRedirArg (sys.env n) garbage b r.rest with
        | (none, _) => .failed
        | (some (arg, line), b) =>
          match sys.arg_open_redir_file n arg r.redirtype with
          | none => .failed
          | some fd => .goes ([], r.rdlist.modify i fun rdl => { rdl with rdl_fd1 := fd }) line b
      | none =>
        if r.redirtype = .RD_NOT_REDIR then
          match getGlob (sys.env n) garbage b r.rest with
          | (none, _) => .failed
          | (some (args, line), b) => .goes (args, r.rdlist) line b
        else .goes ([], r.rdlist) r.rest b

/-- `arg_lparse`, for at most so many turns. -/
def argLparse (sys : System) (garbage : Memory) : Nat → Nat → Buffer → List Byte →
    List (List Byte) → List Redir → Option (Option (List (List Byte) × List Redir))
  | 0, _, _, _, _, _ => none
  | fuel + 1, n, b, line, adv, rdlist =>
    match lparseTurn sys garbage n b line rdlist with
    | .done => some (some (adv, rdlist))
    | .failed => some none
    | .goes out line b => argLparse sys garbage fuel (n + 1) b line (adv ++ out.1) out.2

/-! ## Where the parse can be -/

/-- How many pattern characters a redirection at the start of the text has, without a digit at its
end. -/
def redirLength (s : List Byte) : Nat :=
  let digit := isdigit (deref s)
  let t := if digit then s.tail else s
  if deref t = byte '<' ∨ deref t = byte '>' then
    (if digit then 1 else 0) + (t.takeWhile isRedirChar).length
  else 0

/-- The places where a turn of `arg_make_shell_line` looks for a redirection. -/
inductive Reached (sys : System) (garbage : Memory) : Nat → Buffer → List Byte → List Byte → Prop
  | here {n : Nat} {b : Buffer} {line : List Byte} : Reached sys garbage n b line (skipWhite line)
  | next {n fuel : Nat} {b b' : Buffer} {line line' s out : List Byte}
      (turn : shellTurn fuel (sys.env n) garbage b line = some (.goes out line' b'))
      (rest : Reached sys garbage (n + 1) b' line' s) : Reached sys garbage n b line s

/-! ## The loop over the pattern -/

section
variable {s pat : List Byte} {fuel fuel' : Nat}

theorem deref_of_ne {c : Byte} (h : deref s = c) (hc : c ≠ 0#8) : s = c :: s.tail := by
  cases s with
  | nil => exact absurd h.symm hc
  | cons d s => exact congrArg (· :: s) h

theorem isRedirChar_ne {c : Byte} (h : isRedirChar c) : c ≠ 0#8 := by
  rintro rfl
  exact absurd h (by decide)

theorem patLoop_mono (hle : fuel ≤ fuel') {r : List Byte × List Byte}
    (h : patLoop fuel s pat = some r) : patLoop fuel' s pat = some r := by
  induction fuel generalizing fuel' s pat with
  | zero => cases h
  | succ fuel ih =>
    cases fuel' with
    | zero => exact absurd hle (Nat.not_succ_le_zero fuel)
    | succ fuel' =>
      rw [patLoop] at h ⊢
      split_ifs at h ⊢
      · exact ih (Nat.le_of_succ_le_succ hle) h
      · exact ih (Nat.le_of_succ_le_succ hle) h
      · exact h

/-- The loop ends when the buffer has room for all the characters, and takes them. -/
theorem patLoop_of_le (hroom : pat.length + (s.takeWhile isRedirChar).length ≤ PATLIM)
    (hfuel : (s.takeWhile isRedirChar).length < fuel) :
    patLoop fuel s pat = some (s.dropWhile isRedirChar, pat ++ s.takeWhile isRedirChar) := by
  induction fuel generalizing s pat with
  | zero => exact absurd hfuel (Nat.not_lt_zero _)
  | succ fuel ih =>
    rw [patLoop]
    cases s with
    | nil =>
      rw [if_neg (by decide)]
      simp only [List.dropWhile_nil, List.takeWhile_nil, List.append_nil]
    | cons c s =>
      rw [deref]
      by_cases hc : isRedirChar c
      · rw [List.takeWhile_cons_of_pos hc, List.length_cons] at hroom hfuel
        rw [if_pos hc, if_pos (by omega), List.takeWhile_cons_of_pos hc,
          List.dropWhile_cons_of_pos hc, List.tail_cons,
          ih (by rw [List.length_append, List.length_singleton]; omega) (by omega),
          List.append_assoc]
        rfl
      · rw [if_neg hc, List.takeWhile_cons_of_neg hc, List.dropWhile_cons_of_neg hc,
          List.append_nil]

/-- With one character more, it does not. -/
theorem patLoop_of_lt (hfull : PATLIM < pat.length + (s.takeWhile isRedirChar).length)
    (hpat : pat.length ≤ PATLIM) : patLoop fuel s pat = none := by
  induction fuel generalizing s pat with
  | zero => rfl
  | succ fuel ih =>
    rw [patLoop]
    cases s with
    | nil =>
      rw [List.takeWhile_nil, List.length_nil] at hfull
      omega
    | cons c s =>
      rw [deref]
      by_cases hc : isRedirChar c
      · rw [if_pos hc]
        split_ifs with hroom
        · rw [List.takeWhile_cons_of_pos hc, List.length_cons] at hfull
          refine ih ?_ ?_
          · rw [List.length_append, List.length_singleton, List.tail_cons]
            omega
          · rw [List.length_append, List.length_singleton]
            omega
        · exact ih hfull hpat
      · rw [List.takeWhile_cons_of_neg hc, List.length_nil] at hfull
        omega

/-! ## Redirections for the shell -/

theorem argConvert_mono (hle : fuel ≤ fuel') {r : Converted}
    (h : argConvertRedirToShellSyntax fuel s = some r) :
    argConvertRedirToShellSyntax fuel' s = some r := by
  unfold argConvertRedirToShellSyntax at h ⊢
  dsimp only at h ⊢
  split_ifs at h ⊢
  all_goals first | exact h | skip
  all_goals
    obtain ⟨r', hr', rfl⟩ := Option.map_eq_some_iff.1 h
    exact Option.map_eq_some_iff.2 ⟨r', patLoop_mono hle hr', rfl⟩

theorem takeWhile_of_deref (h : isRedirChar (deref s)) :
    (s.takeWhile isRedirChar).length = (s.tail.takeWhile isRedirChar).length + 1 ∧
      s.tail.length < s.length := by
  have hs := deref_of_ne rfl (isRedirChar_ne h)
  constructor
  · conv_lhs => rw [hs]
    rw [List.takeWhile_cons_of_pos h, List.length_cons]
  · conv_rhs => rw [hs]
    exact Nat.lt_succ_self _

/-- How the loop of a redirection starts: all its pattern characters are in the buffer or in front. -/
theorem argConvert_eq (fuel : Nat) (s : List Byte) :
    (redirLength s = 0 ∧ argConvertRedirToShellSyntax fuel s = some .notRedir) ∨
      ∃ s' pat, pat.length + (s'.takeWhile isRedirChar).length = redirLength s ∧ pat.length ≤ PATLIM ∧
        s'.length < s.length ∧
        argConvertRedirToShellSyntax fuel s = (patLoop fuel s' pat).map fun r => lookUp s r.1 r.2 := by
  unfold argConvertRedirToShellSyntax redirLength
  dsimp only
  have hpat : (if isdigit (deref s) then [byte 'd'] else []).length =
      if isdigit (deref s) then 1 else 0 := by
    split_ifs <;> rfl
  have hone : (if isdigit (deref s) then 1 else 0) ≤ 1 := by
    split_ifs <;> decide
  have ht : (if isdigit (deref s) then s.tail else s).length ≤ s.length := by
    split_ifs
    · rw [List.length_tail]
      omega
    · exact Nat.le_refl _
  generalize (if isdigit (deref s) then [byte 'd'] else []) = pat at hpat ⊢
  generalize (if isdigit (deref s) then s.tail else s) = t at ht ⊢
  rw [← hpat] at hone ⊢
  by_cases hredir : deref t = byte '<' ∨ deref t = byte '>'
  · have hc : isRedirChar (deref t) := by
      rcases hredir with h | h
      · rw [h]
        decide
      · rw [h]
        decide
    obtain ⟨htake, hlt⟩ := takeWhile_of_deref hc
    rw [if_pos hredir, if_neg (fun h => hredir.elim h.1 h.2), htake]
    by_cases hmore : deref t.tail = byte '&' ∨ deref t.tail = byte '>'
    · have hd : isRedirChar (deref t.tail) := by
        rcases hmore with h | h
        · rw [h]
          decide
        · rw [h]
          decide
      obtain ⟨htake', hlt'⟩ := takeWhile_of_deref hd
      rw [if_pos hmore, if_pos hmore, htake']
      refine .inr ⟨t.tail.tail, _, ?_, ?_, by omega, rfl⟩
      · simp only [List.length_append, List.length_singleton]
        omega
      · simp only [List.length_append, List.length_singleton, PATLIM]
        omega
    · rw [if_neg hmore, if_neg hmore]
      refine .inr ⟨t.tail, _, ?_, ?_, by omega, rfl⟩
      · simp only [List.length_append, List.length_singleton]
        omega
      · simp only [List.length_append, List.length_singleton, PATLIM]
        omega
  · rw [if_neg hredir, if_pos (not_or.1 hredir)]
    exact .inl ⟨rfl, rfl⟩

theorem argConvert_of_le (h : redirLength s ≤ PATLIM) (hfuel : PATLIM < fuel) :
    ∃ r, argConvertRedirToShellSyntax fuel s = some r := by
  rcases argConvert_eq fuel s with ⟨-, heq⟩ | ⟨s', pat, hlength, -, -, heq⟩
  · exact ⟨_, heq⟩
  · rw [heq, patLoop_of_le (by omega) (by omega)]
    exact ⟨_, rfl⟩

theorem argConvert_of_lt (h : PATLIM < redirLength s) :
    argConvertRedirToShellSyntax fuel s = none := by
  rcases argConvert_eq fuel s with ⟨hzero, -⟩ | ⟨s', pat, hlength, hpat, -, heq⟩
  · exact absurd h (hzero ▸ Nat.not_lt_zero _)
  · rw [heq, patLoop_of_lt (by omega) hpat]
    rfl

/-! ## What a turn takes -/

theorem lookUp_length {p_s s pat redir_str rest : List Byte} {postarg_str : Option (List Byte)}
    (h : lookUp p_s s pat = .redir redir_str postarg_str rest) : rest.length ≤ s.length := by
  unfold lookUp at h
  dsimp only at h
  have hs : (if isdigit (deref s) then s.tail else s).length ≤ s.length := by
    split_ifs
    · rw [List.length_tail]
      omega
    · exact Nat.le_refl _
  generalize (if isdigit (deref s) then s.tail else s) = s' at h hs
  split at h
  · cases h
  · split_ifs at h <;> cases h <;> exact hs

theorem patLoop_length {r : List Byte × List Byte} (h : patLoop fuel s pat = some r) :
    r.1.length ≤ s.length := by
  induction fuel generalizing s pat with
  | zero => cases h
  | succ fuel ih =>
    rw [patLoop] at h
    split_ifs at h
    · refine Nat.le_trans (ih h) ?_
      rw [List.length_tail]
      omega
    · exact ih h
    · cases h
      exact Nat.le_refl _

theorem argConvert_length {redir_str rest : List Byte} {postarg_str : Option (List Byte)}
    (h : argConvertRedirToShellSyntax fuel s = some (.redir redir_str postarg_str rest)) :
    rest.length < s.length := by
  rcases argConvert_eq fuel s with ⟨-, heq⟩ | ⟨s', pat, -, -, hlt, heq⟩
  · rw [heq] at h
    cases h
  · rw [heq] at h
    obtain ⟨r, hr, hlook⟩ := Option.map_eq_some_iff.1 h
    exact Nat.lt_of_le_of_lt (Nat.le_trans (lookUp_length hlook) (patLoop_length hr)) hlt

theorem skipWhite_length (line : List Byte) : (skipWhite line).length ≤ line.length :=
  (List.dropWhile_sublist _).length_le

theorem deref_skipWhite (line : List Byte) (h : deref (skipWhite line) ≠ 0#8) :
    ¬iswhite (deref (skipWhite line)) := by
  unfold skipWhite at h ⊢
  induction line with
  | nil => exact absurd rfl h
  | cons c line ih =>
    by_cases hc : iswhite c
    · rw [List.dropWhile_cons_of_pos hc] at h ⊢
      exact ih h
    · rw [List.dropWhile_cons_of_neg hc]
      exact hc

variable {env : Env} {garbage : Memory} {b : Buffer} {line rest : List Byte}

theorem getRedirArg_length {arg : List Byte}
    (h : (getRedirArg env garbage b line).1 = some (arg, rest)) : rest.length ≤ line.length := by
  unfold getRedirArg at h
  dsimp only at h
  split_ifs at h
  split at h
  · rename_i hglob
    cases h
    exact Nat.le_trans (argGlob_length hglob).1 (skipWhite_length line)
  · cases h

theorem stop_cases : ∀ c ∈ "<>\n \t".toList.map byte, c = byte '<' ∨ c = byte '>' ∨ iswhite c := by
  have hall : ("<>\n \t".toList.map byte).all
      (fun c => decide (c = byte '<' ∨ c = byte '>' ∨ iswhite c)) = true := by decide
  exact fun c hc => of_decide_eq_true (List.all_eq_true.1 hall c hc)

/-- A word that is no redirection takes some of the line. -/
theorem getGlob_length {args : List (List Byte)} (h : (getGlob env garbage b line).1 = some (args, rest))
    (hnul : deref line ≠ 0#8) (hwhite : ¬iswhite (deref line))
    (hredir : deref line ≠ byte '<' ∧ deref line ≠ byte '>') : rest.length < line.length := by
  unfold getGlob at h
  dsimp only at h
  split at h
  · rename_i hglob
    dsimp only at h
    split_ifs at h
    cases h
    refine (argGlob_length hglob).2 _ _ (deref_of_ne rfl hnul) hnul fun hmem => ?_
    rcases stop_cases _ hmem with h | h | h
    · exact hredir.1 h
    · exact hredir.2 h
    · exact hwhite h
  · cases h

theorem tail_length (s : List Byte) : s.tail.length ≤ s.length := by
  rw [List.length_tail]
  exact Nat.sub_le _ _

theorem isdigit_ne {c : Byte} (h : isdigit c) : c ≠ 0#8 ∧ c ≠ byte '<' ∧ c ≠ byte '>' := by
  refine ⟨?_, ?_, ?_⟩
  all_goals
    rintro rfl
    exact absurd h (by decide)

/-- A turn that goes on has taken some of the line. -/
theorem shellTurn_length {out : List Byte} {b' : Buffer}
    (h : shellTurn fuel env garbage b line = some (.goes out rest b')) : rest.length < line.length := by
  unfold shellTurn at h
  dsimp only at h
  refine Nat.lt_of_lt_of_le ?_ (skipWhite_length line)
  have hwhite := deref_skipWhite line
  generalize skipWhite line = s at h hwhite ⊢
  by_cases hnul : deref s = 0#8
  · rw [if_pos hnul] at h
    cases h
  rw [if_neg hnul] at h
  obtain ⟨r, hr, hturn⟩ := Option.map_eq_some_iff.1 h
  cases r with
  | unrecognised => cases hturn
  | notRedir =>
    have hredir : deref s ≠ byte '<' ∧ deref s ≠ byte '>' := by
      unfold argConvertRedirToShellSyntax at hr
      dsimp only at hr
      by_cases hdigit : isdigit (deref s)
      · exact (isdigit_ne hdigit).2
      · rw [if_neg hdigit] at hr
        by_contra hnot
        rw [if_neg hnot] at hr
        obtain ⟨r, -, hlook⟩ := Option.map_eq_some_iff.1 hr
        unfold lookUp at hlook
        dsimp only at hlook
        split at hlook
        · cases hlook
        · split_ifs at hlook
    have hlength := fun args => @getGlob_length env garbage b s rest args
    dsimp only at hturn
    generalize getGlob env garbage b s = g at hturn hlength
    obtain ⟨_ | ⟨args, line⟩, b''⟩ := g
    · cases hturn
    · cases hturn
      exact hlength args rfl hnul (hwhite hnul) hredir
  | redir redir_str postarg_str rest' =>
    have hlt := argConvert_length hr
    cases postarg_str with
    | none =>
      cases hturn
      exact hlt
    | some postarg_str =>
      have hlength := fun arg => @getRedirArg_length env garbage b rest' rest arg
      dsimp only at hturn
      generalize getRedirArg env garbage b rest' = g at hturn hlength
      obtain ⟨_ | ⟨arg, line⟩, b''⟩ := g
      · cases hturn
      · cases hturn
        exact Nat.lt_of_le_of_lt (hlength arg rfl) hlt

end

/-! ## Redirections for a program -/

section
variable {dtablesize : Int} {s rest : List Byte} {rdlist more : List Redir} {redirtype : RedirType}
  {rfd : Int}

theorem dropWhile_length (s : List Byte) : (s.dropWhile isdigit).length ≤ s.length :=
  (List.dropWhile_sublist _).length_le

theorem finishRedir_length
    (h : (finishRedir dtablesize rdlist more redirtype rfd s).redirtype ≠ .RD_ERROR) :
    (finishRedir dtablesize rdlist more redirtype rfd s).redirtype = redirtype ∧
      (finishRedir dtablesize rdlist more redirtype rfd s).rest.length ≤ s.length := by
  have htail := tail_length s
  unfold finishRedir at h ⊢
  dsimp only at h ⊢
  split_ifs at h ⊢
  · exact ⟨rfl, Nat.le_refl _⟩
  · exact absurd rfl h
  · exact ⟨rfl, Nat.le_trans (tail_length _) htail⟩
  · exact absurd rfl h
  · cases hfd : getfd dtablesize s.tail with
    | none =>
      rw [hfd] at h
      exact absurd rfl h
    | some r =>
      unfold getfd at hfd
      dsimp only at hfd
      split_ifs at hfd
      cases hfd
      exact ⟨rfl, Nat.le_trans (dropWhile_length _) htail⟩

/-- A redirection takes some of the line, and what is none starts with another character. -/
theorem argGetRedir_length (dtablesize : Int) (rdlist : List Redir) (s : List Byte) :
    ((argGetRedir dtablesize rdlist s).redirtype = .RD_NOT_REDIR →
      (argGetRedir dtablesize rdlist s).rest = s ∧
        (argGetRedir dtablesize rdlist s).fdaddr = none ∧
        deref s ≠ byte '<' ∧ deref s ≠ byte '>') ∧
      ((argGetRedir dtablesize rdlist s).redirtype ≠ .RD_NOT_REDIR →
        (argGetRedir dtablesize rdlist s).redirtype ≠ .RD_ERROR →
        (argGetRedir dtablesize rdlist s).rest.length < s.length) := by
  unfold argGetRedir
  dsimp only
  by_cases hnot : deref (s.dropWhile isdigit) ≠ byte '>' ∧ deref (s.dropWhile isdigit) ≠ byte '<'
  · rw [if_pos hnot]
    refine ⟨fun _ => ⟨rfl, rfl, ?_⟩, fun h => absurd rfl h⟩
    cases s with
    | nil => exact ⟨by decide, by decide⟩
    | cons c s =>
      by_cases hdigit : isdigit c
      · exact (isdigit_ne hdigit).2
      · rw [List.dropWhile_cons_of_neg hdigit] at hnot
        exact hnot.symm
  · rw [if_neg hnot]
    have hlt : (s.dropWhile isdigit).tail.length < s.length := by
      have hnul : deref (s.dropWhile isdigit) ≠ 0#8 := by
        intro hnul
        rw [hnul] at hnot
        exact hnot (by decide)
      have hcons := congrArg List.length (deref_of_ne rfl hnul)
      rw [List.length_cons] at hcons
      have hle := dropWhile_length s
      omega
    -- whatever is skipped in front of the second half, that half takes no more back
    have hfinish : ∀ more redirtype rfd s', redirtype ≠ .RD_NOT_REDIR →
        s'.length ≤ (s.dropWhile isdigit).tail.length →
        ((finishRedir dtablesize rdlist more redirtype rfd s').redirtype = .RD_NOT_REDIR →
          (finishRedir dtablesize rdlist more redirtype rfd s').rest = s ∧
            (finishRedir dtablesize rdlist more redirtype rfd s').fdaddr = none ∧
            deref s ≠ byte '<' ∧ deref s ≠ byte '>') ∧
          ((finishRedir dtablesize rdlist more redirtype rfd s').redirtype ≠ .RD_NOT_REDIR →
            (finishRedir dtablesize rdlist more redirtype rfd s').redirtype ≠ .RD_ERROR →
            (finishRedir dtablesize rdlist more redirtype rfd s').rest.length < s.length) := by
      intro more redirtype rfd s' htype hle
      refine ⟨fun h => ?_, fun _ herror => ?_⟩
      · have hsame := (finishRedir_length (by rw [h]; decide)).1
        exact absurd (hsame.symm.trans h) htype
      · exact Nat.lt_of_le_of_lt (Nat.le_trans (finishRedir_length herror).2 hle) hlt
    split
    · exact ⟨fun h => (nomatch h), fun _ h => absurd rfl h⟩
    · have htail := tail_length (s.dropWhile isdigit).tail
      split_ifs
      all_goals first
        | exact ⟨fun h => (nomatch h), fun _ h => absurd rfl h⟩
        | refine hfinish _ _ _ _ (by decide) ?_
      all_goals first
        | exact Nat.le_refl _
        | exact htail
        | exact Nat.le_trans (tail_length _) htail

end

section
variable {sys : System} {garbage : Memory} {b b' : Buffer} {line rest : List Byte}

theorem lparseTurn_length {n : Nat} {rdlist : List Redir} {out : List (List Byte) × List Redir}
    (h : lparseTurn sys garbage n b line rdlist = .goes out rest b') : rest.length < line.length := by
  unfold lparseTurn at h
  dsimp only at h
  refine Nat.lt_of_lt_of_le ?_ (skipWhite_length line)
  have hwhite := deref_skipWhite line
  generalize skipWhite line = s at h hwhite ⊢
  by_cases hnul : deref s = 0#8
  · rw [if_pos hnul] at h
    cases h
  rw [if_neg hnul] at h
  obtain ⟨hnot, htakes⟩ := argGetRedir_length sys.dtablesize rdlist s
  generalize argGetRedir sys.dtablesize rdlist s = r at h hnot htakes
  obtain ⟨redirtype, fdaddr, rdlist', rest'⟩ := r
  dsimp only at h hnot htakes
  by_cases herror : redirtype = .RD_ERROR
  · rw [if_pos herror] at h
    cases h
  rw [if_neg herror] at h
  by_cases hredir : redirtype = .RD_NOT_REDIR
  · obtain ⟨rfl, rfl, hother⟩ := hnot hredir
    rw [if_pos hredir] at h
    have hlength := fun args => @getGlob_length (sys.env n) garbage b rest' rest args
    generalize getGlob (sys.env n) garbage b rest' = g at h hlength
    obtain ⟨_ | ⟨args, line'⟩, b''⟩ := g
    · cases h
    · cases h
      exact hlength args rfl hnul (hwhite hnul) hother
  · have hlt := htakes hredir herror
    cases fdaddr with
    | none =>
      dsimp only at h
      rw [if_neg hredir] at h
      cases h
      exact hlt
    | some i =>
      have hlength := fun arg => @getRedirArg_length (sys.env n) garbage b rest' rest arg
      dsimp only at h
      generalize getRedirArg (sys.env n) garbage b rest' = g at h hlength
      obtain ⟨_ | ⟨arg, line'⟩, b''⟩ := g
      · cases h
      · dsimp only at h
        cases hopen : sys.arg_open_redir_file n arg redirtype with
        | none =>
          rw [hopen] at h
          cases h
        | some fd =>
          rw [hopen] at h
          cases h
          exact Nat.lt_of_le_of_lt (hlength arg rfl) hlt

/-! ## The main loops -/

theorem argLparse_ends {fuel : Nat} (hfuel : line.length < fuel) (n : Nat) (b : Buffer)
    (adv : List (List Byte)) (rdlist : List Redir) :
    ∃ res, argLparse sys garbage fuel n b line adv rdlist = some res := by
  induction fuel generalizing line n b adv rdlist with
  | zero => exact absurd hfuel (Nat.not_lt_zero _)
  | succ fuel ih =>
    rw [argLparse]
    cases hturn : lparseTurn sys garbage n b line rdlist with
    | done => exact ⟨_, rfl⟩
    | failed => exact ⟨_, rfl⟩
    | goes out rest b' =>
      have hlt := lparseTurn_length hturn
      exact ih (by omega) (n + 1) b' _ _

theorem shellTurn_mono {fuel fuel' : Nat} {env : Env} (hle : fuel ≤ fuel') {t : Turn (List Byte)}
    (h : shellTurn fuel env garbage b line = some t) : shellTurn fuel' env garbage b line = some t := by
  unfold shellTurn at h ⊢
  dsimp only at h ⊢
  split_ifs at h ⊢
  · exact h
  · obtain ⟨r, hr, rfl⟩ := Option.map_eq_some_iff.1 h
    exact Option.map_eq_some_iff.2 ⟨r, argConvert_mono hle hr, rfl⟩

theorem redirLength_of_nul {s : List Byte} (h : deref s = 0#8) : redirLength s = 0 := by
  unfold redirLength
  dsimp only
  rw [if_neg fun hdigit => (isdigit_ne hdigit).1 h, h, if_neg (by decide)]

/-- A turn ends just when the redirection that it looks at is not too long. -/
theorem shellTurn_ends {fuel : Nat} {env : Env} :
    (redirLength (skipWhite line) ≤ PATLIM → PATLIM < fuel →
      ∃ t, shellTurn fuel env garbage b line = some t) ∧
      (PATLIM < redirLength (skipWhite line) → shellTurn fuel env garbage b line = none) := by
  unfold shellTurn
  dsimp only
  constructor
  · intro hle hfuel
    split_ifs
    · exact ⟨_, rfl⟩
    · obtain ⟨r, hr⟩ := argConvert_of_le hle hfuel
      rw [hr]
      exact ⟨_, rfl⟩
  · intro hlt
    rw [if_neg fun hnul => by rw [redirLength_of_nul hnul] at hlt; exact Nat.not_lt_zero _ hlt,
      argConvert_of_lt hlt]
    rfl

theorem argMakeShellLine_ends {fuel n : Nat}
    (h : ∀ s, Reached sys garbage n b line s → redirLength s ≤ PATLIM)
    (hfuel : line.length + PATLIM + 1 < fuel) (eb : List Byte) :
    ∃ res, argMakeShellLine sys garbage fuel n b line eb = some res := by
  induction fuel generalizing line n b eb with
  | zero => exact absurd hfuel (Nat.not_lt_zero _)
  | succ fuel ih =>
    obtain ⟨t, ht⟩ := (@shellTurn_ends garbage b line fuel (sys.env n)).1 (h _ .here) (by omega)
    rw [argMakeShellLine, ht]
    cases t with
    | done => exact ⟨_, rfl⟩
    | failed => exact ⟨_, rfl⟩
    | goes out rest b' =>
      have hlt := shellTurn_length ht
      exact ih (fun s hs => h s (.next ht hs)) (by omega) _

theorem reached_of_ends {fuel n : Nat} {eb : List Byte} {res : Option (List Byte)}
    (h : argMakeShellLine sys garbage fuel n b line eb = some res) :
    ∀ s, Reached sys garbage n b line s → redirLength s ≤ PATLIM := by
  induction fuel generalizing line n b eb with
  | zero => cases h
  | succ fuel ih =>
    rw [argMakeShellLine] at h
    intro s hs
    cases hturn : shellTurn fuel (sys.env n) garbage b line with
    | none =>
      rw [hturn] at h
      cases h
    | some t =>
      cases hs with
      | here =>
        by_contra hlong
        rw [shellTurn_ends.2 (Nat.lt_of_not_le hlong)] at hturn
        cases hturn
      | @next _ fuel' _ b' _ line' _ out hgoes hrest =>
        -- more turns of the inner loop give the same
        have hsame := (shellTurn_mono (Nat.le_max_left fuel fuel') hturn).symm.trans
          (shellTurn_mono (Nat.le_max_right fuel fuel') hgoes)
        cases hsame
        rw [hturn] at h
        exact ih h s hrest

/-- The parse of a line for a program always ends. The one for the shell ends just when no redirection
that it comes to has more pattern characters than its buffer has room for. -/
theorem parsing_ends (sys : System) (garbage : Memory) (b : Buffer) (line : List Byte) :
    ((∃ fuel res, argMakeShellLine sys garbage fuel 0 b line [] = some res) ↔
        ∀ s, Reached sys garbage 0 b line s → redirLength s ≤ PATLIM) ∧
      ∃ fuel res, argLparse sys garbage fuel 0 b line [] [] = some res := by
  refine ⟨⟨fun ⟨_, _, h⟩ => reached_of_ends h, fun h => ?_⟩, ?_⟩
  · exact ⟨_, argMakeShellLine_ends h (Nat.lt_succ_self _) []⟩
  · exact ⟨_, argLparse_ends (Nat.lt_succ_self _) 0 b [] []⟩

/-- A system without files. -/
def noFiles : System where
  env _ := ⟨fun _ => false, fun _ => none, none, fun _ => none, fun _ _ => false⟩
  arg_open_redir_file _ _ _ := none
  dtablesize := 64

/-- Ten times `>`: the last one stays, and the loop goes on for ever. -/
theorem parsing_hangs : ¬∃ fuel res, argMakeShellLine noFiles (fun _ => none) fuel 0
    (initial fun _ => 0#8) (List.replicate 10 (byte '>')) [] = some res := by
  rintro ⟨fuel, res, h⟩
  cases fuel with
  | zero => cases h
  | succ fuel =>
    rw [argMakeShellLine, shellTurn_ends.2 (by decide)] at h
    cases h

end

end ups_rules.arg_lparse
