-- Integer constants (ci_lex.c): the loop of convert_number over the digits, with its test for an
-- overflow, against the number that the digits stand for.
import Mathlib.Data.Nat.Digits.Defs
import Mathlib.Tactic.NormNum

namespace ups_rules.lex_numbers

/-! ## The pure model -/

/-- A line up to its NUL. -/
abbrev Line := List Char

inductive Diag where
  | illegalRadix (radix : Int)
  | illegalDigit (digit : Char) (constant : Line)
  | outOfRange (constant : Line)
deriving DecidableEq

def digits : List Char := "0123456789abcdefghijklmnopqrstuvwxyz".toList

/-- `memchr(digits, tolower(*str), radix)`, as a place in `digits`. -/
def digitPos (radix : Nat) (c : Char) : Option Nat := (digits.take radix).idxOf? c.toLower

/-- What the loop has read. -/
structure Acc where
  val : BitVec 64
  failed : Bool

def addDigit (radix : Nat) (acc : Acc) (d : Nat) : Acc :=
  let maxval := BitVec.allOnes 64 / BitVec.ofNat 64 radix
  let newval := acc.val * BitVec.ofNat 64 radix + BitVec.ofNat 64 d
  { val := newval
    failed := acc.failed || decide (maxval < acc.val) || decide (newval < acc.val) }

def readDigits (radix : Nat) : Acc → Line → Acc × Line
  | acc, [] => (acc, [])
  | acc, c :: str =>
    match digitPos radix c with
    | none => (acc, c :: str)
    | some d => readDigits radix (addDigit radix acc d) str

/-- The radix that the constant begins with, and what is behind it. -/
def prefixRadix : Line → Int × Line
  | '0' :: 'x' :: str | '0' :: 'X' :: str => (16, str)
  | '0' :: str => (8, str)
  | str => (10, str)

/-- `strchr(set, *str) != NULL`, which also finds the NUL. -/
def strchr (set : String) (str : Line) : Bool :=
  match str with
  | [] => true
  | c :: _ => c ∈ set.toList

/-- `isalnum(*str)` -/
def isalnum (str : Line) : Bool :=
  match str with
  | [] => false
  | c :: _ => c.isAlphanum

/-- The end of the constant and its value. -/
def convertNumber (str : Line) (radix : Int) : Except Diag (Line × BitVec 64) :=
  let (radix, start) := if radix = 0 then prefixRadix str else (radix, str)
  if radix < 2 ∨ 36 < radix then .error (.illegalRadix radix)
  else
    let (acc, endstr) := readDigits radix.toNat { val := 0, failed := false } start
    let constant := str.take (str.length - endstr.length)
    if isalnum endstr && !strchr "eElLuU" endstr then
      .error (.illegalDigit (endstr.headD '0') (constant ++ endstr.take 1))
    else if acc.failed && !strchr "eElLuU." endstr then .error (.outOfRange constant)
    else .ok (endstr, acc.val)

/-! ## What a constant is -/

/-- The number that a digit or a letter stands for. -/
def digitVal (c : Char) : Option Nat :=
  if c.isDigit then some (c.toNat - '0'.toNat)
  else if c.isAlpha then some (c.toLower.toNat - 'a'.toNat + 10)
  else none

def isDigitOf (radix : Nat) (c : Char) : Bool := (digitVal c).any (· < radix)

def baseOf (line : Line) : Nat := (prefixRadix line).1.toNat

/-- The longest run of digits. -/
def runOf (line : Line) : Line := (prefixRadix line).2.takeWhile (isDigitOf (baseOf line))

def behind (line : Line) : Line := (prefixRadix line).2.dropWhile (isDigitOf (baseOf line))

def valueOf (line : Line) : Nat :=
  Nat.ofDigits (baseOf line) ((runOf line).filterMap digitVal).reverse

/-- A line that begins with an integer constant: no float goes on behind the digits. -/
def IsConstant (line : Line) : Prop :=
  (∃ c, line.head? = some c ∧ c.isDigit = true) ∧
    ∀ c, (behind line).head? = some c → c ∉ ['.', 'e', 'E']

/-- A letter or a digit that no suffix begins with. -/
def IllegalDigit (line : Line) : Prop :=
  ∃ c, line.head? = some c ∧ c.isAlphanum = true ∧ c ∉ ['e', 'E', 'l', 'L', 'u', 'U']

/-- The constant is converted to its value, or refused if the value is out of range. -/
def Converts (line : Line) : Prop :=
  (valueOf line < 2 ^ 64 → ¬ IllegalDigit (behind line) →
    ∃ val, convertNumber line 0 = .ok (behind line, val) ∧ val.toNat = valueOf line) ∧
  (2 ^ 64 ≤ valueOf line → ∃ d, convertNumber line 0 = .error d)

/-- The constant has a suffix, or the line ends behind it. -/
def Unreported (line : Line) : Prop := ∀ c, line.head? = some c → c ∈ ['l', 'L', 'u', 'U']

/-! ## Digits -/

/-- The characters of `digits` as numbers. -/
def digitCodes : List Nat := List.range' 48 10 ++ List.range' 97 26

theorem digits_codes : digits.map Char.toNat = digitCodes := rfl

theorem idxOf?_toNat (ds : List Char) (c : Char) :
    ds.idxOf? c = (ds.map Char.toNat).idxOf? c.toNat := by
  induction ds with
  | nil => rfl
  | cons d ds ih =>
    have hsame : (d == c) = (d.toNat == c.toNat) := by
      rw [Bool.eq_iff_iff, beq_iff_eq, beq_iff_eq]
      exact Char.toNat_inj.symm
    rw [List.map_cons, List.idxOf?_cons, List.idxOf?_cons, ih, hsame]

theorem idxOf?_take (ds : List Char) (c : Char) (n : Nat) :
    (ds.take n).idxOf? c = (ds.idxOf? c).filter (· < n) := by
  induction ds generalizing n with
  | nil => cases n <;> rfl
  | cons d ds ih =>
    cases n with
    | zero => cases h : (d :: ds).idxOf? c <;> simp [Option.filter]
    | succ n =>
      rw [List.take_succ_cons, List.idxOf?_cons, List.idxOf?_cons, ih]
      split
      · rfl
      · cases ds.idxOf? c <;> simp [Option.filter, apply_ite]

/-- The place of a character among the digits is what it stands for. -/
theorem digitPos_eq {radix : Nat} (h : radix ∈ [8, 10, 16]) (c : Char) :
    digitPos radix c = (digitVal c).filter (· < radix) := by
  by_cases hc : c.toNat < 128
  · have hascii : ∀ n < 128,
        digitCodes.idxOf? (Char.ofNat n).toLower.toNat = digitVal (Char.ofNat n) := by
      decide +kernel
    have hall := hascii c.toNat hc
    rw [Char.ofNat_toNat] at hall
    rw [digitPos, idxOf?_take, idxOf?_toNat, digits_codes, hall]
  · -- neither side knows a character that is not ASCII
    have hclass : c.isUpper = false ∧ c.isLower = false ∧ c.isDigit = false := by
      have hupper : c.isUpper = decide (c.val ≥ 'A'.val ∧ c.val ≤ 'Z'.val) := rfl
      have hlower : c.isLower = (decide (c.val ≥ 'a'.val) && decide (c.val ≤ 'z'.val)) := rfl
      have hdigit : c.isDigit = (decide (c.val ≥ '0'.val) && decide (c.val ≤ '9'.val)) := rfl
      simp only [hupper, hlower, hdigit, Bool.and_eq_false_iff, decide_eq_false_iff_not, ge_iff_le,
        UInt32.le_iff_toNat_le]
      have hval : c.val.toNat = c.toNat := rfl
      have hmax : 'Z'.val.toNat < 128 ∧ 'z'.val.toNat < 128 ∧ '9'.val.toNat < 128 := by decide
      omega
    have hlower : c.toLower = c := by
      unfold Char.toLower
      refine dif_neg fun hupper => ?_
      have hno : c.isUpper = true := decide_eq_true hupper
      rw [hclass.1] at hno
      cases hno
    have hdigits : ∀ x ∈ digits, x.toNat < 128 := by
      have hall : digits.all (fun x => decide (x.toNat < 128)) = true := by decide
      simpa using hall
    have hpos : digitPos radix c = none := by
      rw [digitPos, List.idxOf?_eq_none_iff, hlower]
      exact fun hmem => hc (hdigits c (List.mem_of_mem_take hmem))
    have hval : digitVal c = none := by
      have halpha : c.isAlpha = false := by
        change (c.isUpper || c.isLower) = false
        rw [hclass.1, hclass.2.1]
        rfl
      simp [digitVal, halpha, hclass]
    rw [hpos, hval]
    rfl

/-! ## The loop -/

/-- The digits so far stand for `n`: the accumulator is `n`, or the overflow has been noticed. -/
def Reads (acc : Acc) (n : Nat) : Prop :=
  acc.val = BitVec.ofNat 64 n ∧ (acc.failed = true ↔ 2 ^ 64 ≤ n)

/-- One digit. The product overflows if the accumulator is above `maxval`, and the sum if it has
become smaller. -/
theorem addDigit_reads {radix : Nat} (hr : 2 ≤ radix ∧ radix ≤ 36) {acc : Acc} {n d : Nat}
    (hd : d < radix) (h : Reads acc n) : Reads (addDigit radix acc d) (n * radix + d) := by
  obtain ⟨hval, hfailed⟩ := h
  obtain ⟨hr2, hr36⟩ := hr
  have hlow : n * 2 ≤ n * radix := Nat.mul_le_mul_left n hr2
  have hhigh : n * radix ≤ n * 36 := Nat.mul_le_mul_left n hr36
  unfold addDigit Reads
  dsimp only
  constructor
  · rw [hval, ← BitVec.ofNat_mul, ← BitVec.ofNat_add]
  · have hmax : (BitVec.allOnes 64 / BitVec.ofNat 64 radix).toNat = (2 ^ 64 - 1) / radix := by
      rw [BitVec.toNat_udiv, BitVec.toNat_allOnes, BitVec.toNat_ofNat, Nat.mod_eq_of_lt (by omega)]
    have hnew : (acc.val * BitVec.ofNat 64 radix + BitVec.ofNat 64 d).toNat =
        (n * radix + d) % 2 ^ 64 := by
      rw [hval, ← BitVec.ofNat_mul, ← BitVec.ofNat_add, BitVec.toNat_ofNat]
    rw [Bool.or_eq_true, Bool.or_eq_true, decide_eq_true_eq, decide_eq_true_eq, hfailed]
    by_cases hn : 2 ^ 64 ≤ n
    · exact ⟨fun _ => by omega, fun _ => .inl (.inl hn)⟩
    · have hacc : acc.val.toNat = n := by
        rw [hval, BitVec.toNat_ofNat, Nat.mod_eq_of_lt (by omega)]
      rw [BitVec.lt_def, BitVec.lt_def, hmax, hnew, hacc, Nat.div_lt_iff_lt_mul (by omega)]
      omega

/-- What the digits stand for, on top of `n`. -/
def numberOf (radix n : Nat) (ds : List Nat) : Nat := ds.foldl (fun n d => n * radix + d) n

theorem numberOf_eq (radix n : Nat) (ds : List Nat) :
    numberOf radix n ds = n * radix ^ ds.length + Nat.ofDigits radix ds.reverse := by
  induction ds generalizing n with
  | nil => simp [numberOf]
  | cons d ds ih =>
    rw [numberOf, List.foldl_cons, ← numberOf, ih, List.reverse_cons, Nat.ofDigits_append,
      Nat.ofDigits_singleton, List.length_reverse, List.length_cons]
    ring

/-- The loop reads the longest run of digits. -/
theorem readDigits_spec {radix : Nat} (h : radix ∈ [8, 10, 16]) (str : Line) {acc : Acc} {n : Nat}
    (hacc : Reads acc n) :
    (readDigits radix acc str).2 = str.dropWhile (isDigitOf radix) ∧
    Reads (readDigits radix acc str).1
      (numberOf radix n ((str.takeWhile (isDigitOf radix)).filterMap digitVal)) := by
  have hr : 2 ≤ radix ∧ radix ≤ 36 := by
    simp only [List.mem_cons, List.not_mem_nil, or_false] at h
    omega
  induction str generalizing acc n with
  | nil => exact ⟨rfl, hacc⟩
  | cons c str ih =>
    rw [readDigits, digitPos_eq h]
    cases hd : digitVal c with
    | none =>
      have hno : isDigitOf radix c = false := by rw [isDigitOf, hd]; rfl
      rw [List.dropWhile_cons, List.takeWhile_cons, hno]
      exact ⟨rfl, hacc⟩
    | some d =>
      by_cases hlt : d < radix
      · have hyes : isDigitOf radix c = true := by rw [isDigitOf, hd]; simpa using hlt
        rw [Option.filter_some_pos (by simpa using hlt), List.dropWhile_cons_of_pos hyes,
          List.takeWhile_cons_of_pos hyes, List.filterMap_cons_some hd]
        exact ih (addDigit_reads hr hlt hacc)
      · have hno : isDigitOf radix c = false := by rw [isDigitOf, hd]; simpa using hlt
        rw [Option.filter_some_neg (by simpa using hlt), List.dropWhile_cons, List.takeWhile_cons, hno]
        exact ⟨rfl, hacc⟩

/-! ## Main results -/

theorem prefixRadix_cases (line : Line) :
    (prefixRadix line).1 = 8 ∨ (prefixRadix line).1 = 10 ∨ (prefixRadix line).1 = 16 := by
  unfold prefixRadix
  split <;> simp

theorem baseOf_mem (line : Line) : baseOf line ∈ [8, 10, 16] := by
  rcases prefixRadix_cases line with h | h | h <;> simp [baseOf, h]

/-- What is read for a radix of zero: where the digits end, and their value or the overflow. -/
theorem readDigits_value (line : Line) :
    (readDigits (baseOf line) { val := 0, failed := false } (prefixRadix line).2).2 = behind line ∧
    Reads (readDigits (baseOf line) { val := 0, failed := false } (prefixRadix line).2).1
      (valueOf line) := by
  have hstart : Reads { val := 0, failed := false } 0 := ⟨rfl, by simp⟩
  obtain ⟨hend, hreads⟩ := readDigits_spec (baseOf_mem line) (prefixRadix line).2 hstart
  rw [numberOf_eq, Nat.zero_mul, Nat.zero_add] at hreads
  exact ⟨hend, hreads⟩

/-- The three ends of the function. -/
theorem convertNumber_eq (line : Line) : ∃ constant val,
    (valueOf line < 2 ^ 64 → val.toNat = valueOf line) ∧
    convertNumber line 0 =
      if isalnum (behind line) && !strchr "eElLuU" (behind line) then
        .error (.illegalDigit ((behind line).headD '0') (constant ++ (behind line).take 1))
      else if decide (2 ^ 64 ≤ valueOf line) && !strchr "eElLuU." (behind line) then
        .error (.outOfRange constant)
      else .ok (behind line, val) := by
  obtain ⟨hend, hval, hfailed⟩ := readDigits_value line
  have hradix : ¬ ((prefixRadix line).1 < 2 ∨ 36 < (prefixRadix line).1) := by
    rcases prefixRadix_cases line with h | h | h <;> rw [h] <;> norm_num
  have hdecide : (readDigits (baseOf line) { val := 0, failed := false } (prefixRadix line).2).1.failed =
      decide (2 ^ 64 ≤ valueOf line) := by
    rw [Bool.eq_iff_iff, hfailed, decide_eq_true_eq]
  refine ⟨line.take (line.length - (behind line).length), BitVec.ofNat 64 (valueOf line), ?_, ?_⟩
  · intro hlt
    rw [BitVec.toNat_ofNat, Nat.mod_eq_of_lt hlt]
  · unfold convertNumber
    dsimp only
    rw [if_pos rfl, if_neg hradix]
    rw [show (prefixRadix line).1.toNat = baseOf line from rfl, hend, hdecide, hval]

theorem illegalDigit_iff (line : Line) :
    (isalnum line && !strchr "eElLuU" line) = true ↔ IllegalDigit line := by
  cases line with
  | nil => simp [isalnum, IllegalDigit]
  | cons c line => simp [isalnum, strchr, IllegalDigit]

theorem strchr_iff {line : Line} (h : ∀ c, line.head? = some c → c ∉ ['.', 'e', 'E']) :
    strchr "eElLuU." line = true ↔ Unreported line := by
  cases line with
  | nil => simp [strchr, Unreported]
  | cons c line =>
    have hc := h c rfl
    simp [strchr, Unreported] at hc ⊢
    simp [hc]

/-- A constant is converted or refused as it should be if and only if its value is in range or the
character behind the digits is neither the end of the line nor a suffix. -/
theorem converts_iff (line : Line) (h : IsConstant line) :
    Converts line ↔ valueOf line < 2 ^ 64 ∨ ¬ Unreported (behind line) := by
  obtain ⟨constant, val, hval, heq⟩ := convertNumber_eq line
  have hillegal := illegalDigit_iff (behind line)
  have hstrchr := strchr_iff h.2
  have hlegal (hn : ¬ IllegalDigit (behind line)) :
      ¬ (isalnum (behind line) && !strchr "eElLuU" (behind line)) = true := mt hillegal.1 hn
  constructor
  · rintro ⟨-, hlarge⟩
    by_contra hno
    simp only [not_or, not_lt, not_not] at hno
    obtain ⟨hge, hun⟩ := hno
    have hn : ¬ IllegalDigit (behind line) := by
      rintro ⟨c, hc, -, hmem⟩
      exact hmem (List.mem_cons_of_mem _ (List.mem_cons_of_mem _ (hun c hc)))
    obtain ⟨d, hd⟩ := hlarge hge
    rw [heq, if_neg (hlegal hn), hstrchr.2 hun] at hd
    simp at hd
  · intro hor
    constructor
    · intro hlt hn
      refine ⟨val, ?_, hval hlt⟩
      rw [heq, if_neg (hlegal hn), decide_eq_false (not_le.2 hlt)]
      simp
    · intro hge
      have hno : strchr "eElLuU." (behind line) = false := by
        rw [Bool.eq_false_iff, ne_eq, hstrchr]
        rcases hor with hlt | hno
        · exact absurd hge (not_le.2 hlt)
        · exact hno
      rw [heq, hno, decide_eq_true hge]
      split
      · exact ⟨_, rfl⟩
      · exact ⟨_, rfl⟩

/-- The largest value in hexadecimal, with two suffixes. -/
theorem largest_constant_converts :
    valueOf "0xffffffffffffffffUL".toList = 2 ^ 64 - 1 ∧ Converts "0xffffffffffffffffUL".toList := by
  have hvalue : valueOf "0xffffffffffffffffUL".toList = 2 ^ 64 - 1 := by decide
  have hsuffix : ∀ c, some 'U' = some c → c ∉ ['.', 'e', 'E'] := by
    rintro c ⟨⟩
    decide
  refine ⟨hvalue, (converts_iff "0xffffffffffffffffUL".toList ⟨⟨'0', rfl, rfl⟩, hsuffix⟩).2 (.inl ?_)⟩
  rw [hvalue]
  norm_num

/-- 2^64 with a suffix is converted to zero. -/
theorem large_constant_with_suffix : IsConstant "18446744073709551616L".toList ∧
    convertNumber "18446744073709551616L".toList 0 = .ok (['L'], 0) ∧
    ¬ Converts "18446744073709551616L".toList := by
  have hok : convertNumber "18446744073709551616L".toList 0 = .ok (['L'], 0) := by rfl
  have hsuffix : ∀ c, some 'L' = some c → c ∉ ['.', 'e', 'E'] := by
    rintro c ⟨⟩
    decide
  refine ⟨⟨⟨'1', rfl, rfl⟩, hsuffix⟩, hok, ?_⟩
  rintro ⟨-, hlarge⟩
  obtain ⟨d, hd⟩ := hlarge (by decide)
  rw [hok] at hd
  cases hd

end ups_rules.lex_numbers
