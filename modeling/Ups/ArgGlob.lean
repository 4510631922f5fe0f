-- File names for a word of a command line (arg_match.c, arg_user.c, arg_glob.c): the word is quoted,
-- its braces and its ~ are expanded, and what is left is matched with the names in the directories.
import Mathlib.Data.List.Basic
import Ups.ArgQuote
import Ups.ArgBraces

namespace ups_rules.arg_glob

open arg_quote brace_words arg_brace

/-! ## The pure model -/

/-- What the system says. A directory has finitely many names. `in_front` is what `TSTSEQ` finds in
front of a map, where a character from 128 on makes it look. -/
structure Env where
  df_isdir : List Byte → Bool
  df_opendir : List Byte → Option (List (List Byte))
  home : Option (List Byte)
  getpwnam : List Byte → Option (List Byte)
  in_front : List Byte → Byte → Bool

def slash : Byte := byte '/'

def tstSeq (env : Env) (map : List Byte) (c : Byte) : Bool :=
  if c < 128#8 then map.getD (c.toNat / 7) 0#8 &&& (1#8 <<< (c.toNat % 7)) != 0#8
  else env.in_front map c

def atEnd : List Byte → Bool
  | [] => true
  | c :: _ => c == slash

/-- Where a star can end, from the end of the path component back to the start. -/
def starEnds (name : List Byte) : List (List Byte) :=
  ((List.range ((name.takeWhile (· != slash)).length + 1)).map fun i => name.drop i).reverse

/-- What is left of the name and of the pattern when they match. -/
def rmatch (env : Env) (name pattern : List Byte) : Option (List Byte × List Byte) :=
  match pattern with
  | [] => if atEnd name then some (name, []) else none
  | p :: rest =>
    if p = slash then if atEnd name then some (name, p :: rest) else none
    else if p = PAT_SEQ then
      match name with
      | [] => none
      | c :: name =>
        if c = slash ∨ !tstSeq env (rest.take SEQMAPSIZE) c then none
        else rmatch env name (rest.drop SEQMAPSIZE)
    else if p = PAT_QUERY then
      match name with
      | [] => none
      | c :: name => if c = slash then none else rmatch env name rest
    else if p = PAT_STAR then (starEnds name).findSome? fun cptr => rmatch env cptr rest
    else
      match name with
      | [] => none
      | c :: name => if c = p then rmatch env name rest else none
termination_by pattern.length
decreasing_by all_goals simp only [List.length_cons, List.length_drop]; omega

def argMatch (env : Env) (name pattern : List Byte) : Bool :=
  let dot := name.head? = some (byte '.')
  if dot ∧ pattern.head? ≠ some (byte '.') then false
  else
    let name := if dot then name.tail else name
    let pattern := if dot then pattern.tail else pattern
    if pattern.head? = some PAT_STAR ∧ atEnd pattern.tail then true
    else (rmatch env name pattern).isSome

def MAXPATHLEN : Nat := 4096

/-- `rglob`, with the pattern as its path components. -/
def rglob (env : Env) (dir : List Byte) : List (List Byte) → List (List Byte)
  | [] => []
  | pat :: more =>
    let fsdir := if dir = [] then [byte '.'] else dir
    if !env.df_isdir fsdir then []
    else if pat = [] ∧ more = [] then [dir]
    else
      let start := if dir ≠ [] ∧ dir.getLast? ≠ some slash then dir ++ [slash] else dir
      ((env.df_opendir fsdir).getD []).flatMap fun name =>
        if argMatch env name pat ∧ name.length < MAXPATHLEN - start.length then
          if more = [] then [start ++ name] else rglob env (start ++ name) more
        else []

def argHasGlobchars (s : List Byte) : Bool :=
  s.any fun c => c == PAT_STAR || c == PAT_QUERY || c == PAT_SEQ

/-- `strcmp` is not above 0. -/
def strcmpLe : List Byte → List Byte → Bool
  | [], _ => true
  | _ :: _, [] => false
  | a :: x, b :: y => if a = b then strcmpLe x y else a < b

def argGenGlobCpat (env : Env) (cpat : List Byte) : List (List Byte) :=
  if !argHasGlobchars cpat then [cpat]
  else
    let dv := if cpat.head? = some slash then rglob env [slash] (cpat.tail.splitOn slash)
      else rglob env [] (cpat.splitOn slash)
    dv.mergeSort strcmpLe

def deTwiddle (path : List Byte) : List Byte :=
  path.map fun c => if c = PAT_TWIDDLE then byte '~' else c

def isalnum (c : Byte) : Bool :=
  (byte '0' ≤ c && c ≤ byte '9') || (byte 'A' ≤ c && c ≤ byte 'Z') || (byte 'a' ≤ c && c ≤ byte 'z')

def doTwiddle (env : Env) (s : List Byte) : Option (List Byte) :=
  if s = [] then env.home else env.getpwnam s

def argExpandTwiddle (env : Env) (path : List Byte) : Option (List Byte) :=
  if path.head? ≠ some PAT_TWIDDLE then some (deTwiddle path)
  else
    let s := path.tail.takeWhile (· != slash)
    if !s.all (fun c => isalnum c || c == byte '_') then some (deTwiddle path)
    else (doTwiddle env s).map fun twidex => deTwiddle (twidex ++ path.tail.drop s.length)

def braceMarks : Marks Character where
  left := ⟨PAT_OPENBR, by decide⟩
  right := ⟨PAT_CLOSEBR, by decide⟩
  sep := ⟨PAT_COMMA, by decide⟩
  left_ne_right := by decide
  left_ne_sep := by decide
  right_ne_sep := by decide

/-- The word that quoting leaves in its buffer: the NUL is what it stores last. -/
def cpatOf (b : Buffer) : List Byte :=
  match b.stores with
  | [] => []
  | st :: _ => ((List.range st.index.toNat).map fun i : Nat => b.obuf i).takeWhile (· != 0#8)

def toCharacters (s : List Byte) : List Character :=
  s.filterMap fun c => if h : c ≠ 0#8 then some ⟨c, h⟩ else none

/-- The words that braces give; a `~` that cannot be expanded ends the loop. -/
def globWords (env : Env) : List (List Byte) → List (List Byte)
  | [] => []
  | word :: words =>
    match argExpandTwiddle env word with
    | none => []
    | some fpat => argGenGlobCpat env fpat ++ globWords env words

/-- `arg_glob`: the words and what is left of the text, if there is no error. -/
def argGlob (env : Env) (garbage : Memory) (b : Buffer) (text : List Byte) :
    Option (List (List Byte) × List Byte) × Buffer :=
  let r := argDoQuoting b ⟨text, allGlobChars, false⟩
  match r.1 with
  | .error _ => (none, r.2)
  | .ok rest =>
    let cpat := toCharacters (cpatOf r.2)
    match argExpandBraces braceMarks garbage (2 * cpat.length + 1) cpat with
    | some (.ok words) => (some (globWords env (words.map (List.map Subtype.val)), rest), r.2)
    | _ => (none, r.2)

/-! ## What is taken of the text -/

/-- A word takes some of the text, unless that starts with white space or a redirection. -/
theorem argGlob_length {env : Env} {garbage : Memory} {b : Buffer} {text rest : List Byte}
    {words : List (List Byte)} (h : (argGlob env garbage b text).1 = some (words, rest)) :
    rest.length ≤ text.length ∧
      ∀ ch s, text = ch :: s → ch ≠ 0#8 → ch ∉ "<>\n \t".toList.map byte →
        rest.length < text.length := by
  unfold argGlob at h
  dsimp only at h
  have hquoting := fun rest => @argDoQuoting_length b ⟨text, allGlobChars, false⟩ rest
  generalize argDoQuoting b ⟨text, allGlobChars, false⟩ = r at h hquoting
  obtain ⟨res, b'⟩ := r
  cases res with
  | error message => cases h
  | ok rest' =>
    dsimp only at h
    split at h
    · cases h
      exact hquoting rest rfl
    · cases h

end ups_rules.arg_glob
