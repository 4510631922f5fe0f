-- Character and string constants (ci_lex.c): what ci_translate_escape decodes, where it leaves the
-- line, and what its two callers make of it.
import Ups.LexNumbers

open ups_rules.lex_numbers

namespace ups_rules.lex_strings

/-! ## The pure model -/

/-- `*line` -/
def charAt (line : Line) : Char := line.headD '\x00'

@[simp] theorem charAt_cons (c : Char) (line : Line) : charAt (c :: line) = c := rfl

/-- A character assigned to an int, by way of a char. -/
def charOf (ch : BitVec 32) : BitVec 32 := (ch.setWidth 8).signExtend 32

def intOf (c : Char) : BitVec 32 := BitVec.ofNat 32 c.toNat

def isOctal (c : Char) : Bool := c.isDigit && c < '8'

/-- The loop over at most `n` octal digits. -/
def octalLoop : Nat → BitVec 32 → Line → BitVec 32 × Line
  | n + 1, ch, c :: s =>
    if isOctal c then octalLoop n (ch * 8 + intOf c - intOf '0') s else (ch, c :: s)
  | _, ch, s => (ch, s)

def hexdigits : List Char := "0123456789abcdefABCDEF".toList

/-- The loop over hexadecimal digits. -/
def hexLoop : BitVec 32 → Line → BitVec 32 × Line
  | ch, c :: s =>
    match hexdigits.idxOf? c with
    | none => (ch, c :: s)
    | some pos => hexLoop (ch * 16 + BitVec.ofNat 32 (if 16 ≤ pos then pos - 6 else pos)) s
  | ch, [] => (ch, [])

/-- `--behind`, for a place in the line `s`. -/
def before (s behind : Line) : Line := s.drop (s.length - behind.length - 1)

/-- The escapes that are a letter. -/
def escapeLetter : Char → Option (BitVec 32)
  | 'n' => some 10
  | 't' => some 9
  | 'v' => some 11
  | 'b' => some 8
  | 'r' => some 13
  | 'f' => some 12
  | 'a' => some 7
  | _ => none

/-- The character that an escape stands for, and the last character of the escape. -/
def ciTranslateEscape (s : Line) : BitVec 32 × Line :=
  match escapeLetter (charAt s) with
  | some ch => (charOf ch, s)
  | none =>
    if isOctal (charAt s) then
      let (ch, behind) := octalLoop 3 0 s
      (charOf ch, before s behind)
    else if charAt s = 'x' then
      let (ch, s) := hexLoop 0 s
      (charOf ch, s)
    else (charOf (intOf (charAt s)), s)

/-- A character constant behind its opening quote (ci_yylex): its value and the rest of the line;
nothing if it is not terminated. -/
def charConstant (line : Line) : Option (BitVec 32 × Line) :=
  let (val, line) :=
    if charAt line = '\\' then ciTranslateEscape (line.drop 1) else (charOf (intOf (charAt line)), line)
  let line := line.drop 1
  if charAt line = '\'' then some (val, line.drop 1) else none

/-- The lines that `le_getline` returns from now on, and whether the message about a bad directive
stops it. -/
structure LexEnv where
  lines : List Line
  aborts : Line → Bool

def isspace (c : Char) : Bool := c = ' ' || (9 ≤ c.toNat && c.toNat ≤ 13)

/-- `skip_whitespace` up to the end of the line, and whether it is in a comment there. -/
def skipInLine : Bool → Line → Bool × Line
  | false, [] => (false, [])
  | false, '/' :: '*' :: line => skipInLine true line
  | false, c :: line => if isspace c then skipInLine false line else (false, c :: line)
  | true, [] => (true, [])
  | true, '*' :: '/' :: line => skipInLine false line
  | true, _ :: line => skipInLine true line

/-- The line is a directive, of which nothing is left to be read. -/
def isDirective (line : Line) : Bool := charAt (line.dropWhile isspace) = '#'

/-- The place behind the white space, in this line or in a later one, and the lines behind that. -/
def skipWhitespace (aborts : Line → Bool) : Bool → Line → List Line → Option Line × List Line
  | incomment, line, [] =>
    match skipInLine incomment line with
    | (_, []) => (none, [])
    | (_, line) => (some line, [])
  | incomment, line, next :: lines =>
    match skipInLine incomment line with
    | (incomment, []) =>
      if isDirective next then
        if aborts next then (none, []) else skipWhitespace aborts incomment [] lines
      else skipWhitespace aborts incomment next lines
    | (_, line) => (some line, next :: lines)

/-! ## What the loops leave -/

theorem octalLoop_length (n : Nat) (ch : BitVec 32) (s : Line) :
    (octalLoop n ch s).2.length ≤ s.length := by
  induction n generalizing ch s with
  | zero => simp [octalLoop]
  | succ n ih =>
    cases s with
    | nil => simp [octalLoop]
    | cons c s =>
      rw [octalLoop]
      split
      · exact (ih _ s).trans (Nat.le_succ _)
      · exact le_refl _

theorem hexLoop_length (ch : BitVec 32) (s : Line) : (hexLoop ch s).2.length ≤ s.length := by
  induction s generalizing ch with
  | nil => simp [hexLoop]
  | cons c s ih =>
    rw [hexLoop]
    split
    · exact le_refl _
    · exact (ih _).trans (Nat.le_succ _)

theorem ciTranslateEscape_length (s : Line) : (ciTranslateEscape s).2.length ≤ s.length := by
  unfold ciTranslateEscape
  split
  · exact le_refl _
  · split
    · dsimp only
      rw [before, List.length_drop]
      exact Nat.sub_le _ _
    · split
      · exact hexLoop_length 0 s
      · exact le_refl _

/-- How much is left to be read. -/
def size (line : Line) (lines : List Line) : Nat :=
  line.length + (lines.map fun line => line.length + 1).sum

theorem skipInLine_length (incomment : Bool) (line : Line) :
    (skipInLine incomment line).2.length ≤ line.length := by
  fun_induction skipInLine incomment line <;> grind

theorem skipWhitespace_size (aborts : Line → Bool) (incomment : Bool) (line : Line)
    (lines : List Line) {next : Line} (h : (skipWhitespace aborts incomment line lines).1 = some next) :
    size next (skipWhitespace aborts incomment line lines).2 ≤ size line lines := by
  have hlen := skipInLine_length incomment line
  induction lines generalizing incomment line with
  | nil =>
    rw [skipWhitespace] at h ⊢
    rcases hskip : skipInLine incomment line with ⟨inc, rest⟩
    rw [hskip] at h hlen
    cases rest with
    | nil => cases h
    | cons c rest =>
      obtain rfl := Option.some.inj h
      exact Nat.add_le_add_right hlen _
  | cons first lines ih =>
    rw [skipWhitespace] at h ⊢
    rcases hskip : skipInLine incomment line with ⟨inc, rest⟩
    rw [hskip] at h hlen
    cases rest with
    | nil =>
      -- the line is used up, and at least its end is
      have hnext (l : Line) (hl : l.length ≤ first.length)
          (hs : (skipWhitespace aborts inc l lines).1 = some next) :
          size next (skipWhitespace aborts inc l lines).2 ≤ size line (first :: lines) := by
        have hle := ih inc l hs (skipInLine_length inc l)
        simp only [size, List.map_cons, List.sum_cons] at hle ⊢
        omega
      dsimp only at h ⊢
      split
      · rename_i hdir
        rw [if_pos hdir] at h
        split
        · rename_i hab
          rw [if_pos hab] at h
          cases h
        · rename_i hab
          rw [if_neg hab] at h
          exact hnext [] (Nat.zero_le _) h
      · rename_i hdir
        rw [if_neg hdir] at h
        exact hnext first (le_refl _) h
    | cons c rest =>
      obtain rfl := Option.some.inj h
      exact Nat.add_le_add_right hlen _

/-! ## Strings -/

/-- The loop of `get_string` from `line` on, with what is in the buffer: the string, with its NUL, and
where the line pointer is left. Nothing if the string is not terminated. -/
def getString (aborts : Line → Bool) (line : Line) (lines : List Line) (buf : List (BitVec 8)) :
    Option (List (BitVec 8) × Option Line × List Line) :=
  match line with
  | [] => none
  | '"' :: line =>
    match h : (skipWhitespace aborts false line lines).1 with
    | some ('"' :: next) => getString aborts next (skipWhitespace aborts false line lines).2 buf
    | next => some (buf ++ [0], next, (skipWhitespace aborts false line lines).2)
  | '\\' :: '\n' :: _ =>
    -- a line is continued, and its first character is not looked at
    match lines with
    | [] => none
    | next :: lines =>
      if charAt next = '\n' ∨ charAt next = '\x00' then none
      else getString aborts (next.drop 1) lines (buf ++ [(intOf (charAt next)).setWidth 8])
  | '\\' :: line =>
    if charAt (ciTranslateEscape line).2 = '\n' ∨ charAt (ciTranslateEscape line).2 = '\x00' then none
    else getString aborts ((ciTranslateEscape line).2.drop 1) lines
      (buf ++ [(ciTranslateEscape line).1.setWidth 8])
  | c :: line =>
    if c = '\n' ∨ c = '\x00' then none
    else getString aborts line lines (buf ++ [(intOf c).setWidth 8])
termination_by size line lines
decreasing_by
  · have hle := skipWhitespace_size aborts false line lines h
    simp only [size, List.length_cons] at hle ⊢
    omega
  · simp only [size, List.length_cons, List.length_drop, List.map_cons, List.sum_cons]
    omega
  · have hle := ciTranslateEscape_length line
    simp only [size, List.length_cons, List.length_drop]
    omega
  · simp only [size, List.length_cons]
    omega

/-! ## What a constant is -/

/-- Octal digits or hexadecimal ones. -/
def isHex (c : Char) : Bool := (digitVal c).any (· < 16)

/-- One character of a constant as it is written between `quote`s. -/
inductive CChar (quote : Char) where
  | ordinary (c : Char) (h : c ∉ [quote, '\\', '\n', '\x00'])
  | simple (c : Char) (h : c ∈ ['\'', '"', '?', '\\', 'a', 'b', 'f', 'n', 'r', 't', 'v'])
  | octal (ds : List Char) (h : ds ≠ [] ∧ ds.length ≤ 3) (hds : ∀ d ∈ ds, isOctal d = true)
  | hex (ds : List Char) (h : ds ≠ []) (hds : ∀ d ∈ ds, isHex d = true)

section
variable {quote : Char}

def CChar.spelling : CChar quote → Line
  | .ordinary c _ => [c]
  | .simple c _ => ['\\', c]
  | .octal ds _ _ => '\\' :: ds
  | .hex ds _ _ => '\\' :: 'x' :: ds

def spelling (cs : List (CChar quote)) : Line := cs.flatMap CChar.spelling

/-- The escapes of one letter. -/
def simpleByte : Char → BitVec 8
  | 'a' => 7
  | 'b' => 8
  | 'f' => 12
  | 'n' => 10
  | 'r' => 13
  | 't' => 9
  | 'v' => 11
  | c => BitVec.ofNat 8 c.toNat

/-- The byte that the character denotes. -/
def CChar.denotes : CChar quote → BitVec 8
  | .ordinary c _ => BitVec.ofNat 8 c.toNat
  | .simple c _ => simpleByte c
  | .octal ds _ _ => BitVec.ofNat 8 (Nat.ofDigits 8 (ds.filterMap digitVal).reverse)
  | .hex ds _ _ => BitVec.ofNat 8 (Nat.ofDigits 16 (ds.filterMap digitVal).reverse)

/-- The escape would go on with the character. -/
def CChar.continues : CChar quote → Char → Bool
  | .octal ds _ _, d => decide (ds.length < 3) && isOctal d
  | .hex _ _ _, d => isHex d
  | _, _ => false

/-- The text is read back as these characters: no escape goes on with what is behind it. -/
def Separate : List (CChar quote) → Prop
  | [] => True
  | c :: cs => (∀ d, (spelling cs).head? = some d → c.continues d = false) ∧ Separate cs

def CChar.isHexEscape : CChar quote → Bool
  | .hex _ _ _ => true
  | _ => false

end

/-- Strings that follow each other, as they are written from behind the first opening quote on, with
the bytes that they denote and the place behind the white space behind them. -/
inductive Strings (aborts : Line → Bool) :
    Line → List Line → List (CChar '"') → Option Line → List Line → Prop
  | last {cs : List (CChar '"')} {rest : Line} {lines lines' : List Line} {next : Option Line}
    (hcs : Separate cs) (hskip : skipWhitespace aborts false rest lines = (next, lines'))
    (hnext : ∀ line, next ≠ some ('"' :: line)) :
    Strings aborts (spelling cs ++ '"' :: rest) lines cs next lines'
  | join {cs cs' : List (CChar '"')} {rest line : Line} {lines lines' lines'' : List Line}
    {next : Option Line} (hcs : Separate cs)
    (hskip : skipWhitespace aborts false rest lines = (some ('"' :: line), lines'))
    (hline : Strings aborts line lines' cs' next lines'') :
    Strings aborts (spelling cs ++ '"' :: rest) lines (cs ++ cs') next lines''

/-! ## Escapes -/

theorem setWidth_charOf (ch : BitVec 32) : (charOf ch).setWidth 8 = ch.setWidth 8 := by
  unfold charOf
  ext i hi
  simp [BitVec.getLsbD_signExtend, hi]
  omega

theorem isOctal_val {c : Char} (h : isOctal c = true) :
    ∃ v, digitVal c = some v ∧ ∀ ch : BitVec 32, ch + intOf c - intOf '0' = ch + BitVec.ofNat 32 v := by
  have hdigit : c.isDigit = true := by
    unfold isOctal at h
    simp only [Bool.and_eq_true] at h
    exact h.1
  have hle : '0'.toNat ≤ c.toNat := by
    unfold Char.isDigit at hdigit
    simp only [Bool.and_eq_true, decide_eq_true_eq] at hdigit
    exact hdigit.1
  refine ⟨c.toNat - '0'.toNat, by rw [digitVal, if_pos hdigit], fun ch => ?_⟩
  have hsum : intOf c = BitVec.ofNat 32 (c.toNat - '0'.toNat) + intOf '0' := by
    unfold intOf
    rw [← BitVec.ofNat_add, Nat.sub_add_cancel hle]
  rw [hsum, ← BitVec.add_assoc, BitVec.add_sub_cancel]

/-- The loop reads all the digits if no other one follows them. -/
theorem octalLoop_spec {n : Nat} {ds rest : Line} (hds : ∀ d ∈ ds, isOctal d = true)
    (hn : ds.length ≤ n)
    (hrest : ∀ d, rest.head? = some d → (decide (ds.length < n) && isOctal d) = false) (v : Nat) :
    octalLoop n (BitVec.ofNat 32 v) (ds ++ rest) =
      (BitVec.ofNat 32 (numberOf 8 v (ds.filterMap digitVal)), rest) := by
  induction ds generalizing n v with
  | nil =>
    cases n with
    | zero => rfl
    | succ n =>
      cases rest with
      | nil => rfl
      | cons d rest =>
        have hd := hrest d rfl
        simp only [List.length_nil, Nat.zero_lt_succ, decide_true, Bool.true_and] at hd
        rw [List.nil_append, octalLoop, hd]
        rfl
  | cons d ds ih =>
    obtain ⟨hd, hds⟩ := List.forall_mem_cons.1 hds
    obtain ⟨x, hx, hadd⟩ := isOctal_val hd
    cases n with
    | zero => cases hn
    | succ n =>
      have hnext := ih hds (Nat.le_of_succ_le_succ hn) (fun c hc => by
        have hcont := hrest c hc
        simpa only [List.length_cons, Nat.add_lt_add_iff_right] using hcont) (v * 8 + x)
      rw [List.cons_append, octalLoop, if_pos hd, hadd, List.filterMap_cons_some hx]
      rw [BitVec.ofNat_add, BitVec.ofNat_mul] at hnext
      exact hnext

section
variable {quote : Char} {rest : Line}

theorem translate_simple (rest : Line) {c : Char} (h : c ∈ ['\'', '"', '?', '\\', 'a', 'b', 'f', 'n', 'r', 't', 'v']) :
    ∃ ch, ciTranslateEscape (c :: rest) = (charOf ch, c :: rest) ∧ ch.setWidth 8 = simpleByte c := by
  simp only [List.mem_cons, List.not_mem_nil, or_false] at h
  rcases h with rfl | rfl | rfl | rfl | rfl | rfl | rfl | rfl | rfl | rfl | rfl
  all_goals exact ⟨_, rfl, rfl⟩

theorem escapeLetter_octal {c : Char} (h : isOctal c = true) : escapeLetter c = none := by
  unfold escapeLetter
  split
  all_goals first
    | rfl
    | cases h

theorem translate_octal {ds : Line} (h : ds ≠ [] ∧ ds.length ≤ 3) (hds : ∀ d ∈ ds, isOctal d = true)
    (hrest : ∀ d, rest.head? = some d → (decide (ds.length < 3) && isOctal d) = false) :
    ∃ d ∈ ds, ciTranslateEscape (ds ++ rest) =
      (charOf (BitVec.ofNat 32 (Nat.ofDigits 8 (ds.filterMap digitVal).reverse)), d :: rest) := by
  have hloop := octalLoop_spec hds h.2 hrest 0
  rw [numberOf_eq, Nat.zero_mul, Nat.zero_add] at hloop
  have hfirst : isOctal (charAt (ds ++ rest)) = true := by
    cases ds with
    | nil => exact absurd rfl h.1
    | cons c ds => exact hds c List.mem_cons_self
  have hbefore : before (ds ++ rest) rest = ds.getLast h.1 :: rest := by
    have hsplit := List.dropLast_concat_getLast h.1
    have hdrop : (ds ++ rest).length - rest.length - 1 = ds.dropLast.length := by
      rw [List.length_append, Nat.add_sub_cancel, List.length_dropLast]
    rw [before, hdrop]
    nth_rewrite 2 [← hsplit]
    rw [List.append_assoc, List.drop_left]
    rfl
  refine ⟨ds.getLast h.1, List.getLast_mem h.1, ?_⟩
  unfold ciTranslateEscape
  rw [escapeLetter_octal hfirst, if_pos hfirst]
  dsimp only
  rw [show (0 : BitVec 32) = BitVec.ofNat 32 0 from rfl, hloop, hbefore]

theorem translate_hex : ciTranslateEscape ('x' :: rest) = (charOf 0, 'x' :: rest) := rfl

/-! ## The loop over a string -/

/-- The bytes that the lexer makes of the character. -/
def CChar.read : CChar quote → List (BitVec 8)
  | .hex ds _ _ => 0 :: ds.map fun d => BitVec.ofNat 8 d.toNat
  | c => [c.denotes]

theorem setWidth_ofNat (n : Nat) : (BitVec.ofNat 32 n).setWidth 8 = BitVec.ofNat 8 n := by
  apply BitVec.eq_of_toNat_eq
  simp only [BitVec.toNat_setWidth, BitVec.toNat_ofNat]
  omega

variable {aborts : Line → Bool} {lines : List Line} {buf : List (BitVec 8)}

theorem getString_ordinary {c : Char} (h : c ∉ ['"', '\\', '\n', '\x00']) :
    getString aborts (c :: rest) lines buf =
      getString aborts rest lines (buf ++ [BitVec.ofNat 8 c.toNat]) := by
  simp only [List.mem_cons, List.not_mem_nil, or_false, not_or] at h
  obtain ⟨hquote, hback, hnewline, hnul⟩ := h
  rw [getString.eq_def]
  split
  · rename_i heq
    cases heq
  · rename_i heq
    exact absurd (List.cons.inj heq).1 hquote
  · rename_i heq
    exact absurd (List.cons.inj heq).1 hback
  · rename_i heq
    exact absurd (List.cons.inj heq).1 hback
  · rename_i heq
    obtain ⟨rfl, rfl⟩ := List.cons.inj heq
    rw [if_neg (by tauto), intOf, setWidth_ofNat]

theorem getString_escape {s : Line} {ch : BitVec 32} {d : Char} (hs : charAt s ≠ '\n')
    (h : ciTranslateEscape s = (ch, d :: rest)) (hd : ¬ (d = '\n' ∨ d = '\x00')) :
    getString aborts ('\\' :: s) lines buf =
      getString aborts rest lines (buf ++ [ch.setWidth 8]) := by
  rw [getString.eq_def]
  split
  · rename_i heq
    cases heq
  · rename_i heq
    exact absurd (List.cons.inj heq).1 (by decide)
  · rename_i heq
    obtain ⟨-, rfl⟩ := List.cons.inj heq
    exact absurd rfl hs
  · rename_i heq
    obtain ⟨-, rfl⟩ := List.cons.inj heq
    rw [h]
    exact if_neg hd
  · rename_i hno heq
    exact (hno (List.cons.inj heq).1.symm).elim

theorem getString_quote : getString aborts ('"' :: rest) lines buf =
    match (skipWhitespace aborts false rest lines).1 with
    | some ('"' :: next) => getString aborts next (skipWhitespace aborts false rest lines).2 buf
    | next => some (buf ++ [0], next, (skipWhitespace aborts false rest lines).2) := by
  rw [getString.eq_def]
  split
  · rename_i heq
    cases heq
  · rename_i heq
    obtain ⟨-, rfl⟩ := List.cons.inj heq
    split
    · rename_i heq
      simp only [heq]
    · rename_i hno
      split
      · rename_i next heq
        exact absurd heq (hno next)
      · rfl
  · rename_i heq
    exact absurd (List.cons.inj heq).1 (by decide)
  · rename_i heq
    exact absurd (List.cons.inj heq).1 (by decide)
  · rename_i hno _ _ heq
    exact (hno (List.cons.inj heq).1.symm).elim

theorem not_special {d : Char} (h : isOctal d = true ∨ isHex d = true) :
    d ∉ ['"', '\\', '\n', '\x00'] := by
  simp only [List.mem_cons, List.not_mem_nil, or_false]
  rintro (rfl | rfl | rfl | rfl)
  all_goals
    revert h
    decide

/-- Hexadecimal digits behind an escape that has ended are characters of their own. -/
theorem getString_digits {ds : Line} (h : ∀ d ∈ ds, isHex d = true) :
    getString aborts (ds ++ rest) lines buf =
      getString aborts rest lines (buf ++ ds.map fun d => BitVec.ofNat 8 d.toNat) := by
  induction ds generalizing buf with
  | nil => simp
  | cons d ds ih =>
    obtain ⟨hd, hds⟩ := List.forall_mem_cons.1 h
    rw [List.cons_append, getString_ordinary (not_special (.inr hd)), ih hds, List.append_assoc]
    rfl

theorem getString_char (c : CChar '"') (h : ∀ d, rest.head? = some d → c.continues d = false) :
    getString aborts (c.spelling ++ rest) lines buf = getString aborts rest lines (buf ++ c.read) := by
  cases c with
  | ordinary c hc => exact getString_ordinary hc
  | simple c hc =>
    obtain ⟨ch, htranslate, hbyte⟩ := translate_simple rest hc
    have hspecial : ¬ (c = '\n' ∨ c = '\x00') := by
      rintro (rfl | rfl)
      · exact absurd hc (by decide)
      · exact absurd hc (by decide)
    have hfirst : charAt (c :: rest) ≠ '\n' := (not_or.1 hspecial).1
    refine (getString_escape hfirst htranslate hspecial).trans ?_
    rw [setWidth_charOf, hbyte]
    rfl
  | octal ds hlen hds =>
    obtain ⟨d, hd, htranslate⟩ := translate_octal hlen hds h
    have hdigits : ∀ d ∈ ds, ¬ (d = '\n' ∨ d = '\x00') := by
      intro d hd
      have hno := not_special (.inl (hds d hd))
      simp only [List.mem_cons, List.not_mem_nil, or_false] at hno
      tauto
    have hfirst : charAt (ds ++ rest) ≠ '\n' := by
      cases ds with
      | nil => exact absurd rfl hlen.1
      | cons c ds => exact (not_or.1 (hdigits c List.mem_cons_self)).1
    refine (getString_escape hfirst htranslate (hdigits d hd)).trans ?_
    rw [setWidth_charOf, setWidth_ofNat]
    rfl
  | hex ds hne hds =>
    have hx : charAt ('x' :: (ds ++ rest)) ≠ '\n' := by
      show 'x' ≠ '\n'
      decide
    refine (getString_escape hx translate_hex (by decide)).trans ?_
    rw [getString_digits hds, List.append_assoc]
    rfl

theorem getString_chars {cs : List (CChar '"')} (h : Separate cs) :
    getString aborts (spelling cs ++ '"' :: rest) lines buf =
      getString aborts ('"' :: rest) lines (buf ++ cs.flatMap CChar.read) := by
  induction cs generalizing buf with
  | nil => simp [spelling]
  | cons c cs ih =>
    have hspell : spelling (c :: cs) ++ '"' :: rest = c.spelling ++ (spelling cs ++ '"' :: rest) := by
      simp [spelling]
    rw [hspell, getString_char c, ih h.2, List.flatMap_cons, List.append_assoc]
    intro d hd
    cases hcs : spelling cs with
    | nil =>
      rw [hcs] at hd
      obtain rfl := Option.some.inj hd
      cases c with
      | ordinary | simple => rfl
      | octal => exact Bool.and_false _
      | hex => rfl
    | cons first more =>
      rw [hcs] at hd
      exact h.1 d (by rw [hcs]; exact hd)

end

/-- What the lexer makes of strings that follow each other. -/
theorem getString_strings {aborts : Line → Bool} {line : Line} {lines lines' : List Line}
    {cs : List (CChar '"')} {next : Option Line} (h : Strings aborts line lines cs next lines')
    (buf : List (BitVec 8)) :
    getString aborts line lines buf = some (buf ++ cs.flatMap CChar.read ++ [0], next, lines') := by
  induction h generalizing buf with
  | last hcs hskip hnext =>
    rw [getString_chars hcs, getString_quote, hskip]
    split
    · rename_i next heq
      exact absurd heq (hnext next)
    · rfl
  | join hcs hskip hline ih =>
    rw [getString_chars hcs, getString_quote, hskip]
    refine (ih _).trans ?_
    rw [List.flatMap_append, List.append_assoc buf]

/-! ## Main results -/

/-- The lexer decodes the character constant and leaves the line behind the closing quote. -/
def CharDecodes (c : CChar '\'') (rest : Line) : Prop :=
  charConstant (c.spelling ++ '\'' :: rest) = some (c.denotes.signExtend 32, rest)

/-- Where a token begins there is nothing to skip. -/
theorem skipWhitespace_token (aborts : Line → Bool) {c : Char} (line : Line) (lines : List Line)
    (hspace : isspace c = false) (hslash : c ≠ '/') :
    skipWhitespace aborts false (c :: line) lines = (some (c :: line), lines) := by
  have hskip : skipInLine false (c :: line) = (false, c :: line) := by
    rw [skipInLine]
    · simp [hspace]
    · rintro rest rfl
      exact absurd rfl hslash
  cases lines <;> rw [skipWhitespace, hskip]

/-- The lexer decodes strings that follow each other and leaves the line where the next token begins,
which is just behind the last closing quote if no white space follows it. -/
def StringDecodes (aborts : Line → Bool) (line : Line) (lines : List Line) (cs : List (CChar '"'))
    (next : Option Line) (lines' : List Line) : Prop :=
  getString aborts line lines [] = some (cs.map CChar.denotes ++ [0], next, lines')

/-- A value that is a byte is the same as a character of the line. -/
theorem charOf_ofNat (n : Nat) : charOf (BitVec.ofNat 32 n) = (BitVec.ofNat 8 n).signExtend 32 := by
  rw [charOf, setWidth_ofNat]

theorem charConstant_escape {s rest : Line} {ch : BitVec 32} {d : Char}
    (h : ciTranslateEscape s = (ch, d :: rest)) :
    charConstant ('\\' :: s) = if charAt rest = '\'' then some (ch, rest.drop 1) else none := by
  unfold charConstant
  rw [charAt_cons, if_pos rfl, List.drop_one, List.tail_cons, h]
  rfl

theorem charDecodes_iff (c : CChar '\'') (rest : Line) :
    CharDecodes c rest ↔ c.isHexEscape = false := by
  unfold CharDecodes
  cases c with
  | ordinary c hc =>
    simp only [List.mem_cons, List.not_mem_nil, or_false, not_or] at hc
    refine iff_of_true ?_ rfl
    show charConstant (c :: '\'' :: rest) = _
    unfold charConstant
    rw [charAt_cons, if_neg hc.2.1]
    exact congrArg (fun val => some (val, rest)) (charOf_ofNat _)
  | simple c hc =>
    obtain ⟨ch, htranslate, hbyte⟩ := translate_simple ('\'' :: rest) hc
    refine iff_of_true ?_ rfl
    refine (charConstant_escape htranslate).trans ?_
    rw [charAt_cons, if_pos rfl, charOf, hbyte]
    rfl
  | octal ds hlen hds =>
    have hquote : ∀ d, ('\'' :: rest).head? = some d → (decide (ds.length < 3) && isOctal d) = false := by
      intro d hd
      obtain rfl := Option.some.inj hd
      exact Bool.and_false _
    obtain ⟨d, hd, htranslate⟩ := translate_octal hlen hds hquote
    refine iff_of_true ?_ rfl
    refine (charConstant_escape htranslate).trans ?_
    rw [charAt_cons, if_pos rfl, charOf_ofNat]
    rfl
  | hex ds hne hds =>
    refine iff_of_false ?_ (by simp [CChar.isHexEscape])
    have hnone : charConstant ('\\' :: 'x' :: (ds ++ '\'' :: rest)) = none := by
      rw [charConstant_escape translate_hex]
      cases ds with
      | nil => exact absurd rfl hne
      | cons d ds =>
        refine if_neg ?_
        rintro rfl
        exact absurd (hds _ List.mem_cons_self) (by decide)
    show ¬ charConstant ('\\' :: 'x' :: (ds ++ '\'' :: rest)) = _
    rw [hnone]
    nofun

/-- A character is read as more than one byte if and only if it is a hexadecimal escape. -/
theorem read_eq_denotes {quote : Char} (c : CChar quote) :
    (c.isHexEscape = false → c.read = [c.denotes]) ∧
      (c.isHexEscape = true → 1 < c.read.length) ∧ 1 ≤ c.read.length := by
  cases c with
  | ordinary | simple | octal => exact ⟨fun _ => rfl, nofun, le_refl _⟩
  | hex ds hne hds =>
    have hpos := List.length_pos_iff.2 hne
    refine ⟨nofun, fun _ => ?_, ?_⟩
    all_goals
      rw [CChar.read, List.length_cons, List.length_map]
      omega

theorem reads_eq_denotes {quote : Char} (cs : List (CChar quote)) :
    cs.flatMap CChar.read = cs.map CChar.denotes ↔ ∀ c ∈ cs, c.isHexEscape = false := by
  constructor
  · -- every hexadecimal escape adds to the length
    have hlen : cs.length ≤ (cs.flatMap CChar.read).length ∧
        ((∃ c ∈ cs, c.isHexEscape = true) → cs.length < (cs.flatMap CChar.read).length) := by
      induction cs with
      | nil => exact ⟨le_refl _, by simp⟩
      | cons c cs ih =>
        obtain ⟨-, hhex, hone⟩ := read_eq_denotes c
        rw [List.flatMap_cons, List.length_append, List.length_cons]
        refine ⟨by omega, ?_⟩
        rintro ⟨d, hd, hdhex⟩
        rcases List.mem_cons.1 hd with rfl | hd
        · have := hhex hdhex
          omega
        · have := ih.2 ⟨d, hd, hdhex⟩
          omega
    intro h c hc
    by_contra hhex
    have hlt := hlen.2 ⟨c, hc, by simpa using hhex⟩
    rw [h, List.length_map] at hlt
    exact lt_irrefl _ hlt
  · intro h
    induction cs with
    | nil => rfl
    | cons c cs ih =>
      obtain ⟨hc, hcs⟩ := List.forall_mem_cons.1 h
      rw [List.flatMap_cons, (read_eq_denotes c).1 hc, ih hcs]
      rfl

theorem stringDecodes_iff {aborts : Line → Bool} {line : Line} {lines lines' : List Line}
    {cs : List (CChar '"')} {next : Option Line} (h : Strings aborts line lines cs next lines') :
    StringDecodes aborts line lines cs next lines' ↔ ∀ c ∈ cs, c.isHexEscape = false := by
  unfold StringDecodes
  rw [getString_strings h, ← reads_eq_denotes]
  simp

/-- The character and string constants are decoded as they should be if and only if there is no
hexadecimal escape in them. -/
theorem constants_decode_iff (c : CChar '\'') (rest : Line) (aborts : Line → Bool) (line : Line)
    (lines lines' : List Line) (cs : List (CChar '"')) (next : Option Line) :
    (CharDecodes c rest ↔ c.isHexEscape = false) ∧
    (Strings aborts line lines cs next lines' →
      (StringDecodes aborts line lines cs next lines' ↔ ∀ c ∈ cs, c.isHexEscape = false)) :=
  ⟨charDecodes_iff c rest, stringDecodes_iff⟩

/-- A letter, an octal escape and a digit that the escape does not go on with. -/
def octalString : List (CChar '"') :=
  [.ordinary 'a' (by decide), .octal ['0', '0', '1'] (by decide) (List.all_eq_true.1 rfl),
    .ordinary '8' (by decide)]

theorem octal_string_decodes :
    CharDecodes (.ordinary 'a' (by decide)) [] ∧
    StringDecodes (fun _ => false) "a\\0018\" /**/ ;".toList [] octalString (some [';']) [] := by
  have hseparate : Separate octalString := by
    simp [octalString, Separate, CChar.continues]
  have hstrings : Strings (fun _ => false) "a\\0018\" /**/ ;".toList [] octalString (some [';']) [] :=
    .last hseparate rfl (fun line h => absurd (List.cons.inj (Option.some.inj h)).1 (by decide))
  obtain ⟨hchar, hstring⟩ := constants_decode_iff (.ordinary 'a' (by decide)) [] (fun _ => false)
    "a\\0018\" /**/ ;".toList [] [] octalString (some [';'])
  exact ⟨hchar.2 rfl, (hstring hstrings).2 (by decide)⟩

/-- The x of a hexadecimal escape is not a digit, so that the escape ends there. -/
theorem hex_escape_not_decoded :
    charConstant "\\x41';".toList = none ∧
    ¬ CharDecodes (.hex ['4', '1'] (by decide) (List.all_eq_true.1 rfl)) [';'] := by
  have hnone : charConstant "\\x41';".toList = none := by rfl
  refine ⟨hnone, fun h => ?_⟩
  have hsome : charConstant "\\x41';".toList = _ := h
  rw [hnone] at hsome
  cases hsome

end ups_rules.lex_strings
