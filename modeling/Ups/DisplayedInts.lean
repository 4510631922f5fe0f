-- An integer in the display and in the editor (va_val.c, va_edit.c): the text that a format gives it,
-- and what the editor makes of that text.
import Mathlib.Algebra.Ring.Int.Defs
import Mathlib.Algebra.Ring.Nat
import Mathlib.Data.List.Basic
import Mathlib.Data.List.TakeWhile
import Mathlib.Tactic.Common

namespace ups_rules.displayed_ints

/-! ## The pure model -/

abbrev Byte := BitVec 8

def byte (c : Char) : Byte := BitVec.ofNat 8 c.toNat

def backslash : Byte := 92#8
def singleQuote : Byte := 39#8
def doubleQuote : Byte := 34#8

inductive VFormat
  | DF_NONE
  | DF_ASCII
  | DF_STRING
  | DF_SDEC
  | DF_UDEC
  | DF_SOCT
  | DF_UOCT
  | DF_SHEX
  | DF_UHEX
  | DF_UBIN
  deriving DecidableEq

def isSignedFormat : VFormat → Bool
  | .DF_UDEC | .DF_UOCT | .DF_UHEX | .DF_UBIN => false
  | _ => true

/-- The digits of a number, the first one first; 0 has one, too. -/
def digits (base n : Nat) : List Nat :=
  if n < base ∨ base < 2 then [n] else digits base (n / base) ++ [n % base]
termination_by n
decreasing_by exact Nat.div_lt_self (by omega) (by omega)

def digitChar (d : Nat) : Byte :=
  if d < 10 then byte '0' + BitVec.ofNat 8 d else byte 'a' + BitVec.ofNat 8 (d - 10)

/-- What `sprintf` writes for an unsigned conversion. -/
def numeral (base n : Nat) : List Byte := (digits base n).map digitChar

/-- The first loop of `DF_UBIN`, for so many turns: until the top bit is set. -/
def shiftUp : Nat → Nat → BitVec 64 → Nat × BitVec 64
  | 0, i, n => (i, n)
  | turns + 1, i, n => if 0 < n.toInt then shiftUp turns (i + 1) (n <<< 1) else (i, n)

/-- The second loop, with so many bits to go. -/
def binLoop (start_i : Nat) : Nat → Nat → BitVec 64 → List Byte
  | 0, _, _ => []
  | left + 1, i, n =>
    (if start_i < i ∧ i % 4 = 0 then [byte ' '] else []) ++
      (if n.toInt < 0 then byte '1' else byte '0') :: binLoop start_i left (i + 1) (n <<< 1)

def escapes : List Byte :=
  [10#8, byte 'n', 13#8, byte 'r', 9#8, byte 't', 8#8, byte 'b', 12#8, byte 'f', backslash, backslash,
    singleQuote, singleQuote, doubleQuote, doubleQuote]

/-- `cptr[1]`, if `strchr` finds the character. -/
def escapeOf (ch : Byte) : Option Byte :=
  match escapes.dropWhile (· != ch) with
  | [] => none
  | [_] => some 0#8
  | _ :: e :: _ => some e

/-- `\\%03o`. -/
def octalEscape (ch : Byte) : List Byte :=
  [backslash, digitChar (ch.toNat / 64), digitChar (ch.toNat / 8 % 8), digitChar (ch.toNat % 8)]

/-- The loop of `show_string`: what is left of the bytes, and what has been put out. -/
def showLoop (delim : Byte) (olim : Nat) : List Byte → List Byte → List Byte × List Byte
  | [], out => ([], out)
  | ch :: iptr, out =>
    if byte ' ' ≤ ch ∧ ch ≠ backslash ∧ ch ≠ delim ∧ ch < 127#8 then
      if olim ≤ out.length then (iptr, out) else showLoop delim olim iptr (out ++ [ch])
    else if ch = 0#8 then
      if delim = doubleQuote ∨ olim ≤ out.length + 1 then (iptr, out ++ [delim])
      else showLoop delim olim iptr (out ++ [backslash, byte '0'])
    else
      match escapeOf ch with
      | some e =>
        if olim ≤ out.length + 1 then (iptr, out)
        else showLoop delim olim iptr (out ++ [backslash, e])
      | none =>
        if olim ≤ out.length + 4 then (iptr, out)
        else showLoop delim olim iptr (out ++ octalEscape ch)

def showString (bytes : List Byte) (olen : Nat) (delim : Byte) (lang_c : Bool) : List Byte :=
  let r := showLoop delim (olen - 2) bytes [delim]
  if r.1 = [] ∧ r.2.length < olen - 2 ∧ (delim ≠ doubleQuote ∨ !lang_c) then r.2 ++ [delim] else r.2

/-- The bytes of a `vlong` in memory. -/
def bytesOf (n : BitVec 64) : List Byte := (List.range 8).map fun i => (n >>> (8 * i)).setWidth 8

def intToString (bufsize : Nat) (n : BitVec 64) : VFormat → List Byte
  | .DF_NONE | .DF_SDEC =>
    if n.toInt < 0 then byte '-' :: numeral 10 (-n).toNat else numeral 10 n.toNat
  | .DF_UDEC => numeral 10 n.toNat
  | .DF_SOCT =>
    if 0 ≤ n.toInt then byte '0' :: numeral 8 n.toNat
    else byte '-' :: byte '0' :: numeral 8 (-n).toNat
  | .DF_UOCT => byte '0' :: numeral 8 n.toNat
  | .DF_SHEX =>
    if 0 ≤ n.toInt then byte '0' :: byte 'x' :: numeral 16 n.toNat
    else byte '-' :: byte '0' :: byte 'x' :: numeral 16 (-n).toNat
  | .DF_UHEX | .DF_STRING => byte '0' :: byte 'x' :: numeral 16 n.toNat
  | .DF_UBIN =>
    let r := shiftUp 64 0 n
    if r.2 = 0#64 then [byte '0', byte 'b', byte '0']
    else byte '0' :: byte 'b' :: binLoop r.1 (64 - r.1) r.1 r.2
  | .DF_ASCII =>
    if (n.setWidth 32).toNat ≤ 255 then showString [n.setWidth 8] (bufsize - 1) singleQuote true
    else showString ((bytesOf n).dropWhile (· == 0#8)) (bufsize - 1) singleQuote true

/-- `*s`; behind the text is a NUL. -/
def deref : List Byte → Byte
  | [] => 0#8
  | c :: _ => c

def isdigit (c : Byte) : Bool := byte '0' ≤ c && c ≤ byte '9'

def isalnum (c : Byte) : Bool :=
  isdigit c || (byte 'A' ≤ c && c ≤ byte 'Z') || (byte 'a' ≤ c && c ≤ byte 'z')

def isspace (c : Byte) : Bool := (9#8 ≤ c && c ≤ 13#8) || c == byte ' '

def isOctal (c : Byte) : Bool := byte '0' ≤ c && c < byte '8'

/-- `ci_translate_escape`: the character, and what is behind the escape. -/
def translateEscape (s : List Byte) : Byte × List Byte :=
  if deref s = byte 'n' then (10#8, s.tail)
  else if deref s = byte 't' then (9#8, s.tail)
  else if deref s = byte 'v' then (11#8, s.tail)
  else if deref s = byte 'b' then (8#8, s.tail)
  else if deref s = byte 'r' then (13#8, s.tail)
  else if deref s = byte 'f' then (12#8, s.tail)
  else if deref s = byte 'a' then (7#8, s.tail)
  else if isOctal (deref s) then
    let ds := (s.take 3).takeWhile isOctal
    (BitVec.ofNat 8 (ds.foldl (fun ch c => ch * 8 + (c - byte '0').toNat) 0), s.drop ds.length)
  -- the loop over the hex digits starts at the x itself, which is none
  else if deref s = byte 'x' then (0#8, s.tail)
  else (deref s, s.tail)

/-- `*s - '0'`, and less for a letter. -/
def digitOf (c : Byte) : Int :=
  c.toInt - 48 - (if byte 'a' ≤ c ∧ c ≤ byte 'f' then 39 else 0) -
    (if byte 'A' ≤ c ∧ c ≤ byte 'F' then 7 else 0)

/-- The loop of `get_integer`: the value, and where it stops. -/
def parseDigits (radix : Nat) : List Byte → BitVec 64 → BitVec 64 × List Byte
  | [], val => (val, [])
  | c :: s, val =>
    if c = 0#8 then (val, c :: s)
    else if radix = 2 ∧ isspace c then parseDigits radix s val
    else if !isalnum c then (val, c :: s)
    else if digitOf c < 0 ∨ radix ≤ digitOf c then (val, c :: s)
    else parseDigits radix s (val * BitVec.ofNat 64 radix + BitVec.ofInt 64 (digitOf c))

/-- The end of `get_integer`: nothing may be left of the text. -/
def finish (negative : Bool) (val : BitVec 64) (endpos : List Byte) (vformat : VFormat) :
    Option (BitVec 64 × VFormat) :=
  if deref endpos ≠ 0#8 then none else some (if negative then -val else val, vformat)

/-- `get_integer`, behind the sign. -/
def readUnsigned (negative : Bool) (s : List Byte) : Option (BitVec 64 × VFormat) :=
  let digitsAt (radix : Nat) (vformat : VFormat) (s : List Byte) :=
    let r := parseDigits radix s 0#64
    finish negative r.1 r.2 vformat
  if deref s = singleQuote then
    let s := s.tail
    let r := if deref s = backslash then translateEscape s.tail else (deref s, s.tail)
    if deref r.2 ≠ singleQuote then none
    else some (if negative then -(r.1.signExtend 64) else r.1.signExtend 64, .DF_ASCII)
  else if deref s = byte '0' ∧ deref s.tail ≠ 0#8 then
    let s := s.tail
    if deref s = byte 'x' ∨ deref s = byte 'X' then
      digitsAt 16 (if negative then .DF_SHEX else .DF_UHEX) s.tail
    else if deref s = byte 'b' ∨ deref s = byte 'B' then digitsAt 2 .DF_UBIN s.tail
    else if isdigit (deref s) then digitsAt 8 (if negative then .DF_SOCT else .DF_UOCT) s.tail
    else finish negative 0#64 s .DF_SDEC
  else if isdigit (deref s) then digitsAt 10 (if negative then .DF_SDEC else .DF_UDEC) s
  else finish negative 0#64 s .DF_SDEC

def getInteger (vstr : List Byte) : Option (BitVec 64 × VFormat) :=
  if deref vstr = byte '-' then readUnsigned true vstr.tail else readUnsigned false vstr

/-- An integer type: how many bits its values have. -/
structure IntType where
  bits : Nat
  pos : 0 < bits
  le : bits ≤ 64

/-- The number that is shown: the value is read as signed or unsigned, as the format says. -/
def shownNumber (t : IntType) (x : BitVec t.bits) (format : VFormat) : BitVec 64 :=
  if isSignedFormat format then x.signExtend 64 else x.setWidth 64

/-- `get_value`, for a type of integers: the value goes to the bits of the type. -/
def getValue (t : IntType) (vstr : List Byte) : Option (BitVec t.bits × VFormat) :=
  if deref vstr = 0#8 then none else (getInteger vstr).map fun r => (r.1.setWidth t.bits, r.2)

/-- `sizeof(buf)` in `mkval`. -/
def BUFSIZE : Nat := 128

/-- What a format shows, but for the sign. -/
inductive Kind
  | decimal
  | octal
  | hexadecimal
  | binary
  | ascii
  deriving DecidableEq

def kind : VFormat → Kind
  | .DF_NONE | .DF_SDEC | .DF_UDEC => .decimal
  | .DF_SOCT | .DF_UOCT => .octal
  | .DF_SHEX | .DF_UHEX | .DF_STRING => .hexadecimal
  | .DF_UBIN => .binary
  | .DF_ASCII => .ascii

/-- The values whose text gives them back. -/
def Neutral (t : IntType) (x : BitVec t.bits) (format : VFormat) : Prop :=
  match kind format with
  | .octal => x = 0
  | .ascii => 0 ≤ x.toInt ∧ x.toInt ≤ 127
  | _ => True

/-! ## Digits -/

theorem digits_of_lt {base n : Nat} (h : n < base) : digits base n = [n] := by
  rw [digits, if_pos (.inl h)]

theorem digits_of_ge {base n : Nat} (hbase : 2 ≤ base) (h : base ≤ n) :
    digits base n = digits base (n / base) ++ [n % base] := by
  rw [digits, if_neg (by omega)]

theorem div_lt {base n : Nat} (hbase : 2 ≤ base) (h : base ≤ n) : n / base < n :=
  Nat.div_lt_self (by omega) hbase

theorem digits_lt {base n : Nat} (hbase : 2 ≤ base) : ∀ d ∈ digits base n, d < base := by
  induction n using Nat.strongRecOn with
  | ind n ih =>
    intro d hd
    rcases Nat.lt_or_ge n base with h | h
    · rw [digits_of_lt h] at hd
      rw [List.mem_singleton.1 hd]
      exact h
    · rw [digits_of_ge hbase h] at hd
      rcases List.mem_append.1 hd with hd | hd
      · exact ih _ (div_lt hbase h) d hd
      · rw [List.mem_singleton.1 hd]
        exact Nat.mod_lt n (by omega)

/-- The number that the digits stand for, behind one that is there already. -/
def valueOf (base : Nat) (ds : List Nat) (v : Nat) : Nat := ds.foldl (fun v d => v * base + d) v

theorem valueOf_digits {base : Nat} (hbase : 2 ≤ base) (n : Nat) :
    valueOf base (digits base n) 0 = n := by
  induction n using Nat.strongRecOn with
  | ind n ih =>
    rcases Nat.lt_or_ge n base with h | h
    · rw [digits_of_lt h]
      unfold valueOf
      rw [List.foldl_cons, List.foldl_nil, Nat.zero_mul, Nat.zero_add]
    · rw [digits_of_ge hbase h]
      unfold valueOf at ih ⊢
      rw [List.foldl_append, ih _ (div_lt hbase h), List.foldl_cons, List.foldl_nil, Nat.mul_comm]
      exact Nat.div_add_mod n base

/-- Only 0 has a 0 in front. -/
theorem digits_head {base n : Nat} (hbase : 2 ≤ base) (hn : n ≠ 0) :
    ∃ d ds, digits base n = d :: ds ∧ 0 < d := by
  induction n using Nat.strongRecOn with
  | ind n ih =>
    rcases Nat.lt_or_ge n base with h | h
    · exact ⟨n, [], digits_of_lt h, Nat.pos_of_ne_zero hn⟩
    · have hdiv : n / base ≠ 0 := Nat.pos_iff_ne_zero.1 (Nat.div_pos h (by omega))
      obtain ⟨d, ds, heq, hd⟩ := ih _ (div_lt hbase h) hdiv
      rw [digits_of_ge hbase h, heq]
      exact ⟨d, ds ++ [n % base], rfl, hd⟩

theorem valueOf_add (base : Nat) (ds : List Nat) (v w : Nat) :
    valueOf base ds (v + w) = v * base ^ ds.length + valueOf base ds w := by
  unfold valueOf
  induction ds generalizing v w with
  | nil => rw [List.foldl_nil, List.foldl_nil, List.length_nil, Nat.pow_zero, Nat.mul_one]
  | cons d ds ih =>
    rw [List.foldl_cons, List.foldl_cons, List.length_cons, Nat.add_mul, Nat.add_assoc, ih,
      Nat.pow_succ, Nat.mul_assoc, Nat.mul_comm base]

/-- Without its first digit, a number is smaller. -/
theorem valueOf_tail_lt {base n d : Nat} {ds : List Nat} (hbase : 2 ≤ base)
    (h : digits base n = d :: ds) (hd : 0 < d) : valueOf base ds 0 < n := by
  have hvalue := valueOf_digits hbase n
  rw [h] at hvalue
  have hsum : valueOf base ds (d + 0) = n := by
    rw [← hvalue]
    unfold valueOf
    rw [List.foldl_cons, Nat.zero_mul, Nat.zero_add, Nat.add_zero]
  rw [valueOf_add] at hsum
  have hpos := Nat.mul_pos hd (Nat.pow_pos (by omega : 0 < base) (n := ds.length))
  omega

theorem digitChar_facts : ∀ d < 16, digitChar d ≠ 0#8 ∧ isspace (digitChar d) = false ∧
    isalnum (digitChar d) = true ∧ digitOf (digitChar d) = d := by
  decide

/-- The editor reads the digits that the display writes. -/
theorem parseDigits_map {radix : Nat} (hradix : radix ≤ 16) {ds : List Nat}
    (hds : ∀ d ∈ ds, d < radix) (v : Nat) :
    parseDigits radix (ds.map digitChar) (BitVec.ofNat 64 v) =
      (BitVec.ofNat 64 (valueOf radix ds v), []) := by
  induction ds generalizing v with
  | nil => rfl
  | cons d ds ih =>
    have hd := hds d List.mem_cons_self
    obtain ⟨hnul, hspace, halnum, hdigit⟩ := digitChar_facts d (by omega)
    have hval : BitVec.ofNat 64 v * BitVec.ofNat 64 radix + BitVec.ofInt 64 d =
        BitVec.ofNat 64 (v * radix + d) := by
      rw [BitVec.ofInt_natCast, BitVec.ofNat_add, BitVec.ofNat_mul]
    rw [List.map_cons, parseDigits, if_neg hnul, hspace, if_neg (fun h => Bool.false_ne_true h.2),
      halnum, if_neg (by decide), hdigit, if_neg (by omega), hval,
      ih fun e he => hds e (List.mem_cons_of_mem d he)]
    rfl

theorem parseDigits_numeral {radix : Nat} (hbase : 2 ≤ radix) (hradix : radix ≤ 16) (n : Nat) :
    parseDigits radix (numeral radix n) 0#64 = (BitVec.ofNat 64 n, []) := by
  have hparse := parseDigits_map hradix (digits_lt (n := n) hbase) 0
  rw [valueOf_digits hbase] at hparse
  exact hparse

/-! ## Numbers -/

theorem digitChar_decimal : ∀ d < 10, isdigit (digitChar d) = true ∧ digitChar d ≠ singleQuote ∧
    digitChar d ≠ byte '-' ∧ (digitChar d = byte '0' → d = 0) ∧
    ¬(digitChar d = byte 'x' ∨ digitChar d = byte 'X') ∧
    ¬(digitChar d = byte 'b' ∨ digitChar d = byte 'B') := by
  decide

theorem numeral_eq {base n : Nat} (hbase : 2 ≤ base) :
    ∃ d ds, digits base n = d :: ds ∧ numeral base n = digitChar d :: ds.map digitChar ∧ d < base ∧
      (d = 0 → n = 0 ∧ ds = []) := by
  unfold numeral
  rcases Nat.eq_zero_or_pos n with rfl | hpos
  · rw [digits_of_lt (by omega)]
    exact ⟨0, [], rfl, rfl, by omega, fun _ => ⟨rfl, rfl⟩⟩
  · obtain ⟨d, ds, heq, hd⟩ := digits_head hbase (Nat.pos_iff_ne_zero.1 hpos)
    have hlt := digits_lt (n := n) hbase d (by rw [heq]; exact List.mem_cons_self)
    rw [heq]
    exact ⟨d, ds, rfl, rfl, hlt, fun h => absurd h (Nat.pos_iff_ne_zero.1 hd)⟩

theorem finish_nil (negative : Bool) (val : BitVec 64) (vformat : VFormat) :
    finish negative val [] vformat = some (if negative then -val else val, vformat) := rfl

theorem readUnsigned_decimal (negative : Bool) (n : Nat) :
    readUnsigned negative (numeral 10 n) =
      some (if negative then -BitVec.ofNat 64 n else BitVec.ofNat 64 n,
        if negative then .DF_SDEC else .DF_UDEC) := by
  obtain ⟨d, ds, -, heq, hd, hzero⟩ := @numeral_eq 10 n (by decide)
  obtain ⟨hdigit, hquote, -, hnought, -, -⟩ := digitChar_decimal d hd
  have hplain : ¬(digitChar d = byte '0' ∧ deref (ds.map digitChar) ≠ 0#8) := by
    rintro ⟨hd0, htail⟩
    rw [(hzero (hnought hd0)).2] at htail
    exact htail rfl
  have hparse := @parseDigits_numeral 10 (by decide) (by decide) n
  unfold readUnsigned
  dsimp only
  rw [heq] at hparse ⊢
  rw [deref, List.tail_cons, if_neg hquote, if_neg hplain, if_pos hdigit, hparse]
  rfl

theorem readUnsigned_hex (negative : Bool) (n : Nat) :
    readUnsigned negative (byte '0' :: byte 'x' :: numeral 16 n) =
      some (if negative then -BitVec.ofNat 64 n else BitVec.ofNat 64 n,
        if negative then .DF_SHEX else .DF_UHEX) := by
  have hparse := @parseDigits_numeral 16 (by decide) (by decide) n
  unfold readUnsigned
  dsimp only
  rw [deref, List.tail_cons, deref, List.tail_cons, if_neg (by decide), if_pos (by decide),
    if_pos (.inl rfl), hparse]
  rfl

/-- The first octal digit behind the 0 is skipped. -/
theorem readUnsigned_octal (negative : Bool) {n d : Nat} {ds : List Nat} (h : digits 8 n = d :: ds) :
    readUnsigned negative (byte '0' :: numeral 8 n) =
      some (if negative then -BitVec.ofNat 64 (valueOf 8 ds 0) else BitVec.ofNat 64 (valueOf 8 ds 0),
        if negative then .DF_SOCT else .DF_UOCT) := by
  have hlt : ∀ e ∈ d :: ds, e < 8 := by
    rw [← h]
    exact digits_lt (by decide)
  have hd := hlt d List.mem_cons_self
  obtain ⟨hdigit, -, -, -, hx, hb⟩ := digitChar_decimal d (by omega)
  have hnul := (digitChar_facts d (by omega)).1
  have hparse := @parseDigits_map 8 (by decide) ds (fun e he => hlt e (List.mem_cons_of_mem d he)) 0
  unfold readUnsigned numeral
  dsimp only
  rw [h, List.map_cons, deref, List.tail_cons, deref, List.tail_cons, if_neg (by decide),
    if_pos ⟨rfl, hnul⟩, if_neg hx, if_neg hb, if_pos hdigit, hparse]
  rfl

theorem getInteger_negative (s : List Byte) :
    getInteger (byte '-' :: s) = readUnsigned true s := if_pos rfl

theorem getInteger_zero (s : List Byte) :
    getInteger (byte '0' :: s) = readUnsigned false (byte '0' :: s) :=
  if_neg (show byte '0' ≠ byte '-' by decide)

theorem getInteger_decimal (n : Nat) : getInteger (numeral 10 n) = readUnsigned false (numeral 10 n) := by
  obtain ⟨d, ds, -, heq, hd, -⟩ := @numeral_eq 10 n (by decide)
  rw [heq]
  exact if_neg (digitChar_decimal d hd).2.2.1

/-! ## Binary -/

theorem toInt_neg_iff (n : BitVec 64) : n.toInt < 0 ↔ 2 ^ 63 ≤ n.toNat := by
  rw [BitVec.toInt_eq_toNat_cond]
  split <;> omega

theorem toNat_shift_one (n : BitVec 64) : (n <<< 1).toNat = n.toNat * 2 % 2 ^ 64 := by
  rw [BitVec.toNat_shiftLeft, Nat.shiftLeft_eq, Nat.pow_one]

/-- No bit is lost before the top bit is set. -/
theorem shiftUp_spec {turns i : Nat} {n n₀ : BitVec 64} (hn : n.toNat = n₀.toNat * 2 ^ i)
    (hn₀ : n₀ ≠ 0#64) (hturns : 64 ≤ turns + i) :
    (shiftUp turns i n).2.toNat = n₀.toNat * 2 ^ (shiftUp turns i n).1 ∧
      (shiftUp turns i n).1 ≤ 63 := by
  have hpos : 0 < n₀.toNat :=
    Nat.pos_of_ne_zero fun h => hn₀ (BitVec.eq_of_toNat_eq (by rw [h]; rfl))
  have hle : 2 ^ i ≤ n.toNat := by
    rw [hn]
    exact Nat.le_mul_of_pos_left _ hpos
  have hi : i < 64 := (Nat.pow_lt_pow_iff_right (by decide : 1 < 2)).1 (Nat.lt_of_le_of_lt hle n.isLt)
  induction turns generalizing i n with
  | zero => omega
  | succ turns ih =>
    rw [shiftUp]
    split_ifs with h
    · have hsmall : n.toNat < 2 ^ 63 := by
        by_contra hbig
        have hneg := (toInt_neg_iff n).2 (Nat.le_of_not_lt hbig)
        omega
      have hdouble : (n <<< 1).toNat = n₀.toNat * 2 ^ (i + 1) := by
        rw [toNat_shift_one, Nat.mod_eq_of_lt (by omega), hn, Nat.pow_succ, Nat.mul_assoc]
      have hle' : 2 ^ (i + 1) ≤ (n <<< 1).toNat := by
        rw [hdouble]
        exact Nat.le_mul_of_pos_left _ hpos
      exact ih hdouble (by omega) hle'
        ((Nat.pow_lt_pow_iff_right (by decide : 1 < 2)).1 (Nat.lt_of_le_of_lt hle' (n <<< 1).isLt))
    · exact ⟨hn, by omega⟩

theorem parseDigits_space (s : List Byte) (val : BitVec 64) :
    parseDigits 2 (byte ' ' :: s) val = parseDigits 2 s val := by
  rw [parseDigits, if_neg (by decide), if_pos (by decide)]

theorem parseDigits_bit (bit : Nat) (hbit : bit < 2) (s : List Byte) (v : Nat) :
    parseDigits 2 (digitChar bit :: s) (BitVec.ofNat 64 v) =
      parseDigits 2 s (BitVec.ofNat 64 (v * 2 + bit)) := by
  obtain ⟨hnul, hspace, halnum, hdigit⟩ := digitChar_facts bit (by omega)
  have hval : BitVec.ofNat 64 v * BitVec.ofNat 64 2 + BitVec.ofInt 64 bit =
      BitVec.ofNat 64 (v * 2 + bit) := by
    rw [BitVec.ofInt_natCast, BitVec.ofNat_add, BitVec.ofNat_mul]
  rw [parseDigits, if_neg hnul, hspace, if_neg (fun h => Bool.false_ne_true h.2), halnum,
    if_neg (by decide), hdigit, if_neg (by omega), hval]

/-- The top bit comes first, and the others are shifted up. -/
theorem top_bit {left : Nat} (k : Nat) (hleft : left + 1 ≤ 64) (v : Nat) :
    (v * 2 + k / 2 ^ 63) * 2 ^ left + k * 2 % 2 ^ 64 / 2 ^ (64 - left) =
      v * 2 ^ (left + 1) + k / 2 ^ (64 - (left + 1)) := by
  obtain ⟨e, he⟩ : ∃ e, e + left = 63 := ⟨63 - left, by omega⟩
  have hsplit : (2 : Nat) ^ 63 = 2 ^ e * 2 ^ left := by rw [← Nat.pow_add, he]
  have hdouble : k * 2 % 2 ^ 64 = k % 2 ^ 63 * 2 := by omega
  have hdiv : k / 2 ^ e = k / 2 ^ 63 * 2 ^ left + k % 2 ^ 63 / 2 ^ e := by
    conv_lhs => rw [← Nat.mod_add_div k (2 ^ 63)]
    generalize k / 2 ^ 63 = b
    generalize k % 2 ^ 63 = r
    rw [hsplit, Nat.mul_assoc, Nat.add_mul_div_left _ _ (Nat.two_pow_pos e), Nat.mul_comm b,
      Nat.add_comm]
  rw [show 64 - left = e + 1 by omega, show 64 - (left + 1) = e by omega, hdouble, hdiv]
  generalize k / 2 ^ 63 = b
  generalize k % 2 ^ 63 = r
  rw [Nat.pow_succ, Nat.mul_div_mul_right _ _ (by decide : 0 < 2), Nat.pow_succ, Nat.add_mul,
    Nat.mul_assoc, Nat.mul_comm 2 (2 ^ left), Nat.add_assoc]

/-- The editor reads the bits that are left, with the spaces between them. -/
theorem parseDigits_binLoop {left : Nat} (hleft : left ≤ 64) (start_i i : Nat) (n : BitVec 64)
    (v : Nat) :
    parseDigits 2 (binLoop start_i left i n) (BitVec.ofNat 64 v) =
      (BitVec.ofNat 64 (v * 2 ^ left + n.toNat / 2 ^ (64 - left)), []) := by
  induction left generalizing i n v with
  | zero =>
    rw [binLoop, parseDigits, Nat.pow_zero, Nat.mul_one, Nat.div_eq_of_lt n.isLt, Nat.add_zero]
  | succ left ih =>
    have hspaces : ∀ s val, parseDigits 2
        ((if start_i < i ∧ i % 4 = 0 then [byte ' '] else []) ++ s) val = parseDigits 2 s val := by
      intro s val
      split_ifs
      · exact parseDigits_space s val
      · rfl
    have hbit : (if n.toInt < 0 then byte '1' else byte '0') = digitChar (n.toNat / 2 ^ 63) := by
      have hlt := n.isLt
      by_cases h : n.toInt < 0
      · have hge := (toInt_neg_iff n).1 h
        rw [if_pos h, show n.toNat / 2 ^ 63 = 1 by omega]
        decide
      · have hge := mt (toInt_neg_iff n).2 h
        rw [if_neg h, show n.toNat / 2 ^ 63 = 0 by omega]
        decide
    have htop : n.toNat / 2 ^ 63 < 2 := by
      have hlt := n.isLt
      omega
    rw [binLoop, hspaces, hbit, parseDigits_bit _ htop, ih (by omega)]
    congr 2
    rw [toNat_shift_one]
    exact top_bit n.toNat hleft v

theorem getInteger_binary (n : BitVec 64) :
    getInteger (intToString BUFSIZE n .DF_UBIN) = some (n, .DF_UBIN) := by
  rw [intToString]
  by_cases hn : n = 0#64
  · subst hn
    decide
  · obtain ⟨hvalue, hi⟩ := @shiftUp_spec 64 0 n n (Nat.mul_one _).symm hn (by decide)
    generalize shiftUp 64 0 n = r at hvalue hi
    obtain ⟨i, n'⟩ := r
    dsimp only at hvalue hi ⊢
    have hne : n' ≠ 0#64 := by
      rintro rfl
      have hzero : n.toNat * 2 ^ i = 0 := hvalue.symm
      rcases Nat.mul_eq_zero.1 hzero with h | h
      · exact hn (BitVec.eq_of_toNat_eq (h.trans rfl))
      · exact absurd h (Nat.ne_of_gt (Nat.two_pow_pos i))
    have hparse := @parseDigits_binLoop (64 - i) (Nat.sub_le _ _) i i n' 0
    have hback : 0 * 2 ^ (64 - i) + n'.toNat / 2 ^ (64 - (64 - i)) = n.toNat := by
      rw [Nat.zero_mul, Nat.zero_add, show 64 - (64 - i) = i by omega, hvalue,
        Nat.mul_div_cancel _ (Nat.two_pow_pos i)]
    rw [hback, BitVec.ofNat_toNat, BitVec.setWidth_eq] at hparse
    rw [if_neg hne, getInteger_zero]
    unfold readUnsigned
    dsimp only
    rw [deref, List.tail_cons, deref, List.tail_cons, if_neg (by decide), if_pos (by decide),
      if_neg (by decide), if_pos (.inl rfl), hparse]
    rfl

/-! ## Characters -/

/-- What a character looks like in the display. -/
def shown (c : Byte) : List Byte :=
  if byte ' ' ≤ c ∧ c ≠ backslash ∧ c ≠ singleQuote ∧ c < 127#8 then [c]
  else if c = 0#8 then [backslash, byte '0']
  else match escapeOf c with
    | some e => [backslash, e]
    | none => octalEscape c

theorem shown_length (c : Byte) : (shown c).length ≤ 4 := by
  unfold shown
  split_ifs
  · exact (by decide : 1 ≤ 4)
  · exact (by decide : 2 ≤ 4)
  · split
    · exact (by decide : 2 ≤ 4)
    · exact Nat.le_refl 4

theorem showLoop_eq {olim : Nat} {bytes out : List Byte}
    (h : out.length + 4 * bytes.length + 4 ≤ olim) :
    showLoop singleQuote olim bytes out = ([], out ++ bytes.flatMap shown) := by
  induction bytes generalizing out with
  | nil => rw [showLoop, List.flatMap_nil, List.append_nil]
  | cons c bytes ih =>
    have hlen := shown_length c
    rw [List.length_cons] at h
    have hnext : (out ++ shown c).length + 4 * bytes.length + 4 ≤ olim := by
      rw [List.length_append]
      omega
    have hih := ih hnext
    rw [List.flatMap_cons, ← List.append_assoc, ← hih, showLoop]
    unfold shown
    by_cases hplain : byte ' ' ≤ c ∧ c ≠ backslash ∧ c ≠ singleQuote ∧ c < 127#8
    · rw [if_pos hplain, if_pos hplain, if_neg (by omega)]
    rw [if_neg hplain, if_neg hplain]
    by_cases hnul : c = 0#8
    · rw [if_pos hnul, if_pos hnul, if_neg (not_or.2 ⟨by decide, by omega⟩)]
    rw [if_neg hnul, if_neg hnul]
    cases escapeOf c with
    | some e => exact if_neg (by omega)
    | none => exact if_neg (by omega)

/-- A few bytes are shown one by one. -/
theorem showString_eq {bytes : List Byte} (h : bytes.length ≤ 8) :
    showString bytes (BUFSIZE - 1) singleQuote true =
      singleQuote :: bytes.flatMap shown ++ [singleQuote] := by
  have hlen : (bytes.flatMap shown).length ≤ 32 := by
    refine Nat.le_trans (?_ : _ ≤ 4 * bytes.length) (by omega)
    clear h
    induction bytes with
    | nil => exact Nat.zero_le _
    | cons c bytes ih =>
      have hc := shown_length c
      rw [List.flatMap_cons, List.length_append, List.length_cons]
      omega
  unfold showString
  dsimp only
  rw [showLoop_eq (by simp only [List.length_singleton, BUFSIZE]; omega)]
  exact if_pos ⟨rfl, by simp only [List.length_append, List.length_singleton, BUFSIZE]; omega,
    .inl (by decide)⟩

/-- How the editor reads a character: it has to be the only one. -/
theorem readUnsigned_quote (s : List Byte) :
    getInteger (singleQuote :: s) =
      let r := if deref s = backslash then translateEscape s.tail else (deref s, s.tail)
      if deref r.2 ≠ singleQuote then none else some (r.1.signExtend 64, .DF_ASCII) := by
  have hread : getInteger (singleQuote :: s) = readUnsigned false (singleQuote :: s) :=
    if_neg (show singleQuote ≠ byte '-' by decide)
  rw [hread]
  unfold readUnsigned
  exact if_pos rfl

theorem ite_behind {p : Prop} [Decidable p] {ch : Byte} {s : List Byte} {r₁ r₂ : Byte × List Byte}
    (h : r₁ = (r₂.1, s)) : (if p then (ch, s) else r₁) = ((if p then (ch, []) else r₂).1, s) := by
  split_ifs
  · rfl
  · exact h

theorem translateEscape_letter {e : Byte} (s : List Byte) (h : isOctal e = false) :
    translateEscape (e :: s) = ((translateEscape [e]).1, s) := by
  unfold translateEscape
  rw [show deref (e :: s) = e from rfl, show deref [e] = e from rfl]
  simp only [h, Bool.false_eq_true, if_false, List.tail_cons]
  iterate 8 refine ite_behind ?_
  rfl

theorem escapeOf_mem {c e : Byte} (h : escapeOf c = some e) : c ∈ escapes := by
  by_contra hc
  have hnil : escapes.dropWhile (· != c) = [] := by
    refine List.dropWhile_eq_nil_iff.2 fun d hd => ?_
    exact bne_iff_ne.2 fun hdc => hc (hdc ▸ hd)
  unfold escapeOf at h
  rw [hnil] at h
  cases h

/-- The characters that are not shown as they are, with their letters. -/
def escapePairs : List (Byte × Byte) :=
  [(10#8, byte 'n'), (13#8, byte 'r'), (9#8, byte 't'), (8#8, byte 'b'), (12#8, byte 'f'),
    (backslash, backslash), (singleQuote, singleQuote)]

theorem escapeOf_pairs {c e : Byte} (hc : c ∈ escapes)
    (hplain : ¬(byte ' ' ≤ c ∧ c ≠ backslash ∧ c ≠ singleQuote ∧ c < 127#8))
    (he : escapeOf c = some e) : (c, e) ∈ escapePairs := by
  -- `List.all` goes through the list, where a decided quantifier goes through all the bytes
  have hall : escapes.all (fun c =>
      decide (byte ' ' ≤ c ∧ c ≠ backslash ∧ c ≠ singleQuote ∧ c < 127#8) ||
        (escapeOf c).all fun e => escapePairs.contains (c, e)) = true := by decide
  have h := List.all_eq_true.1 hall c hc
  rw [decide_eq_false hplain, Bool.false_or, he] at h
  exact List.contains_iff_mem.1 h

theorem escapePairs_facts {p : Byte × Byte} (h : p ∈ escapePairs) :
    isOctal p.2 = false ∧ (translateEscape [p.2]).1 = p.1 := by
  have hall : escapePairs.all (fun p =>
      decide (isOctal p.2 = false ∧ (translateEscape [p.2]).1 = p.1)) = true := by decide
  exact of_decide_eq_true (List.all_eq_true.1 hall p h)

theorem octal_digit : ∀ d < 8, isOctal (digitChar d) = true ∧ (digitChar d - byte '0').toNat = d := by
  decide

theorem translateEscape_octal (c : Byte) (s : List Byte) :
    translateEscape ((octalEscape c).tail ++ s) = (c, s) := by
  have hc := c.isLt
  obtain ⟨h₁, hv₁⟩ := octal_digit (c.toNat / 64) (by omega)
  obtain ⟨h₂, hv₂⟩ := octal_digit (c.toNat / 8 % 8) (by omega)
  obtain ⟨h₃, hv₃⟩ := octal_digit (c.toNat % 8) (by omega)
  unfold octalEscape
  rw [List.tail_cons, List.cons_append, List.cons_append, List.cons_append, List.nil_append]
  generalize digitChar (c.toNat / 64) = d₁ at h₁ hv₁ ⊢
  generalize digitChar (c.toNat / 8 % 8) = d₂ at h₂ hv₂ ⊢
  generalize digitChar (c.toNat % 8) = d₃ at h₃ hv₃ ⊢
  have hletter : ∀ e : Char, isOctal (byte e) = false → d₁ ≠ byte e := by
    rintro e he rfl
    rw [he] at h₁
    cases h₁
  have hvalue : BitVec.ofNat 8 (((0 * 8 + c.toNat / 64) * 8 + c.toNat / 8 % 8) * 8 + c.toNat % 8) = c := by
    refine BitVec.eq_of_toNat_eq ?_
    rw [BitVec.toNat_ofNat]
    omega
  unfold translateEscape
  rw [deref, if_neg (hletter 'n' rfl), if_neg (hletter 't' rfl), if_neg (hletter 'v' rfl),
    if_neg (hletter 'b' rfl), if_neg (hletter 'r' rfl), if_neg (hletter 'f' rfl),
    if_neg (hletter 'a' rfl), if_pos h₁]
  simp only [List.take, List.takeWhile, h₁, h₂, h₃, List.foldl_cons, List.foldl_nil, hv₁, hv₂, hv₃,
    hvalue, List.length_cons, List.length_nil, List.drop]

/-- What is shown for a character is read back, whatever is behind it. -/
theorem translate_shown {c : Byte} (hc : c ≠ 0#8) (s : List Byte) :
    (if deref (shown c ++ s) = backslash then translateEscape (shown c ++ s).tail
      else (deref (shown c ++ s), (shown c ++ s).tail)) = (c, s) := by
  unfold shown
  by_cases hplain : byte ' ' ≤ c ∧ c ≠ backslash ∧ c ≠ singleQuote ∧ c < 127#8
  · rw [if_pos hplain]
    exact if_neg hplain.2.1
  rw [if_neg hplain, if_neg hc]
  cases he : escapeOf c with
  | some e =>
    have hpair := escapeOf_pairs (escapeOf_mem he) hplain he
    obtain ⟨hoctal, hvalue⟩ := escapePairs_facts hpair
    refine (if_pos rfl).trans ?_
    refine (translateEscape_letter s hoctal).trans ?_
    rw [hvalue]
  | none =>
    refine (if_pos rfl).trans ?_
    exact translateEscape_octal c s

theorem shown_head (c : Byte) (s : List Byte) : deref (shown c ++ s) ≠ singleQuote := by
  unfold shown
  split_ifs with hplain hnul
  · exact hplain.2.2.1
  · exact (by decide : backslash ≠ singleQuote)
  · split
    · exact (by decide : backslash ≠ singleQuote)
    · exact (by decide : backslash ≠ singleQuote)

theorem getInteger_single (c : Byte) :
    getInteger (showString [c] (BUFSIZE - 1) singleQuote true) = some (c.signExtend 64, .DF_ASCII) := by
  rw [showString_eq (show [c].length ≤ 8 from Nat.succ_le_of_lt (by decide)), List.cons_append,
    readUnsigned_quote]
  by_cases hc : c = 0#8
  · subst hc
    decide
  · dsimp only
    rw [List.flatMap_cons, List.flatMap_nil, List.append_nil, translate_shown hc]
    rfl

/-- More than one character is refused. -/
theorem getInteger_several {c d : Byte} {bytes : List Byte} (hc : c ≠ 0#8)
    (hlen : (c :: d :: bytes).length ≤ 8) :
    getInteger (showString (c :: d :: bytes) (BUFSIZE - 1) singleQuote true) = none := by
  rw [showString_eq hlen, List.cons_append, readUnsigned_quote]
  dsimp only
  rw [List.flatMap_cons, List.append_assoc, translate_shown hc, List.flatMap_cons, List.append_assoc]
  exact if_pos (shown_head d _)

theorem dropWhile_of_getD {bytes : List Byte} {j : Nat} (h : bytes.getD j 0#8 ≠ 0#8) :
    ∃ c rest, bytes.dropWhile (· == 0#8) = c :: rest ∧ c ≠ 0#8 ∧
      bytes.length ≤ j + (rest.length + 1) := by
  induction bytes generalizing j with
  | nil => exact absurd rfl h
  | cons b bytes ih =>
    by_cases hb : b = 0#8
    · subst hb
      cases j with
      | zero => exact absurd rfl h
      | succ j =>
        obtain ⟨c, rest, heq, hc, hlen⟩ := ih h
        refine ⟨c, rest, heq, hc, ?_⟩
        rw [List.length_cons]
        omega
    · refine ⟨b, bytes, List.dropWhile_cons_of_neg (by rwa [beq_iff_eq]), hb, ?_⟩
      rw [List.length_cons]
      omega

/-- Above 255, one of the bytes 1 to 3 is set. -/
theorem bytesOf_large {n : BitVec 64} (h : 255 < (n.setWidth 32).toNat) :
    ∃ c d bytes, (bytesOf n).dropWhile (· == 0#8) = c :: d :: bytes ∧ c ≠ 0#8 ∧
      (c :: d :: bytes).length ≤ 8 := by
  have hbyte : ∀ j, ((n >>> (8 * j)).setWidth 8) = 0#8 → n.toNat / 2 ^ (8 * j) % 256 = 0 := by
    intro j hzero
    have hnat := congrArg BitVec.toNat hzero
    rwa [BitVec.toNat_setWidth, BitVec.toNat_ushiftRight, Nat.shiftRight_eq_div_pow] at hnat
  obtain ⟨j, hj, hset⟩ : ∃ j < 4, (bytesOf n).getD j 0#8 ≠ 0#8 := by
    by_contra hnone
    have hclear : ∀ j < 4, (bytesOf n).getD j 0#8 = 0#8 := fun j hj =>
      not_not.1 fun hset => hnone ⟨j, hj, hset⟩
    have h₁ := hbyte 1 (hclear 1 (by decide))
    have h₂ := hbyte 2 (hclear 2 (by decide))
    have h₃ := hbyte 3 (hclear 3 (by decide))
    rw [BitVec.toNat_setWidth] at h
    omega
  obtain ⟨c, rest, heq, hc, hlen⟩ := dropWhile_of_getD hset
  have hle : (c :: rest).length ≤ 8 := heq ▸ (List.dropWhile_suffix _).length_le
  have height : (bytesOf n).length = 8 := rfl
  cases rest with
  | nil =>
    rw [List.length_nil] at hlen
    omega
  | cons d bytes => exact ⟨c, d, bytes, heq, hc, hle⟩

theorem getInteger_ascii (n : BitVec 64) :
    getInteger (intToString BUFSIZE n .DF_ASCII) =
      if (n.setWidth 32).toNat ≤ 255 then some ((n.setWidth 8).signExtend 64, .DF_ASCII) else none := by
  rw [intToString]
  split_ifs with h
  · exact getInteger_single _
  · obtain ⟨c, d, bytes, heq, hc, hlen⟩ := bytesOf_large (Nat.lt_of_not_le h)
    rw [heq]
    exact getInteger_several hc hlen

/-! ## Submitting the text again -/

theorem ofNat_toNat_self (n : BitVec 64) : BitVec.ofNat 64 n.toNat = n := by
  rw [BitVec.ofNat_toNat, BitVec.setWidth_eq]

theorem getInteger_decimal_text (n : BitVec 64) {format : VFormat} (h : kind format = .decimal) :
    ∃ f', getInteger (intToString BUFSIZE n format) = some (n, f') ∧ kind f' = .decimal := by
  have hunsigned : getInteger (numeral 10 n.toNat) = some (n, .DF_UDEC) := by
    rw [getInteger_decimal, readUnsigned_decimal, ofNat_toNat_self]
    rfl
  have hsigned : ∃ f', getInteger (if n.toInt < 0 then byte '-' :: numeral 10 (-n).toNat
      else numeral 10 n.toNat) = some (n, f') ∧ kind f' = .decimal := by
    split_ifs with hneg
    · refine ⟨.DF_SDEC, ?_, rfl⟩
      rw [getInteger_negative, readUnsigned_decimal, ofNat_toNat_self, if_pos rfl, if_pos rfl,
        BitVec.neg_neg]
    · exact ⟨.DF_UDEC, hunsigned, rfl⟩
  cases format with
  | DF_NONE => exact hsigned
  | DF_SDEC => exact hsigned
  | DF_UDEC => exact ⟨.DF_UDEC, hunsigned, rfl⟩
  | _ => cases h

theorem getInteger_hex_text (n : BitVec 64) {format : VFormat} (h : kind format = .hexadecimal) :
    ∃ f', getInteger (intToString BUFSIZE n format) = some (n, f') ∧ kind f' = .hexadecimal := by
  have hunsigned : getInteger (byte '0' :: byte 'x' :: numeral 16 n.toNat) = some (n, .DF_UHEX) := by
    rw [getInteger_zero, readUnsigned_hex, ofNat_toNat_self]
    rfl
  cases format with
  | DF_SHEX =>
    rw [intToString]
    split_ifs with hpos
    · exact ⟨.DF_UHEX, hunsigned, rfl⟩
    · refine ⟨.DF_SHEX, ?_, rfl⟩
      rw [getInteger_negative, readUnsigned_hex, ofNat_toNat_self, if_pos rfl, if_pos rfl,
        BitVec.neg_neg]
  | DF_UHEX => exact ⟨.DF_UHEX, hunsigned, rfl⟩
  | DF_STRING => exact ⟨.DF_UHEX, hunsigned, rfl⟩
  | _ => cases h

/-- What is left of a number without its first octal digit. -/
def withoutFirst (m : Nat) : Nat := valueOf 8 (digits 8 m).tail 0

theorem withoutFirst_zero : withoutFirst 0 = 0 := by
  unfold withoutFirst
  rw [digits_of_lt (by decide)]
  rfl

theorem withoutFirst_lt {m : Nat} (hm : m ≠ 0) : withoutFirst m < m := by
  obtain ⟨d, ds, heq, hd⟩ := @digits_head 8 m (by decide) hm
  have hlt := valueOf_tail_lt (by decide) heq hd
  unfold withoutFirst
  rwa [heq]

theorem readUnsigned_octal_text (negative : Bool) (m : Nat) :
    readUnsigned negative (byte '0' :: numeral 8 m) =
      some (if negative then -BitVec.ofNat 64 (withoutFirst m) else BitVec.ofNat 64 (withoutFirst m),
        if negative then .DF_SOCT else .DF_UOCT) := by
  obtain ⟨d, ds, heq, -, -, -⟩ := @numeral_eq 8 m (by decide)
  unfold withoutFirst
  rw [readUnsigned_octal negative heq, heq, List.tail_cons]

theorem setWidth_shownNumber (t : IntType) (x : BitVec t.bits) (format : VFormat) :
    (shownNumber t x format).setWidth t.bits = x := by
  unfold shownNumber
  refine BitVec.eq_of_getLsbD_eq fun i hi => ?_
  have hlt := Nat.lt_of_lt_of_le hi t.le
  split_ifs
  · simp only [BitVec.getLsbD_setWidth, BitVec.getLsbD_signExtend, hi, hlt, decide_true,
      Bool.true_and, if_true]
  · simp only [BitVec.getLsbD_setWidth, hi, hlt, decide_true, Bool.true_and]

/-- A value and its sign extension, as unsigned numbers. -/
theorem toNat_signExtend_cases {w : Nat} (hle : w ≤ 64) (x : BitVec w) :
    (0 ≤ x.toInt ∧ (x.signExtend 64).toNat = x.toNat ∧ x.toInt = x.toNat) ∨
      (x.toInt < 0 ∧ (x.signExtend 64).toNat + 2 ^ w = x.toNat + 2 ^ 64 ∧
        x.toInt + (2 ^ w : Nat) = x.toNat ∧ 2 ^ w ≤ 2 * x.toNat) := by
  have hwide := BitVec.toInt_signExtend_of_le (x := x) hle
  have hpow : 2 ^ w ≤ 2 ^ 64 := Nat.pow_le_pow_right (by decide) hle
  have hx := BitVec.toInt_eq_toNat_cond x
  have hs := BitVec.toInt_eq_toNat_cond (x.signExtend 64)
  have hlt := x.isLt
  have hslt := (x.signExtend 64).isLt
  rw [hwide] at hs
  generalize 2 ^ w = size at hpow hx hlt ⊢
  clear hwide
  generalize (x.signExtend 64).toNat = v at hs hslt ⊢
  generalize x.toInt = k at hx hs ⊢
  generalize x.toNat = u at hx hlt ⊢
  split_ifs at hx hs
  · exact .inl ⟨by omega, by omega, hx⟩
  · omega
  · omega
  · exact .inr ⟨by omega, by omega, by omega, by omega⟩

/-- The absolute value of a negative number. -/
theorem toNat_neg_signExtend {w : Nat} (hle : w ≤ 64) {x : BitVec w} (hneg : x.toInt < 0) :
    (-(x.signExtend 64)).toNat = (-x).toNat := by
  have hpow : 2 ^ w ≤ 2 ^ 64 := Nat.pow_le_pow_right (by decide) hle
  have hlt := x.isLt
  have hslt := (x.signExtend 64).isLt
  rcases toNat_signExtend_cases hle x with ⟨hpos, -, -⟩ | ⟨-, hs, hx, hhalf⟩
  · omega
  · rw [BitVec.toNat_neg, BitVec.toNat_neg]
    generalize 2 ^ w = size at hpow hs hx hlt hhalf ⊢
    generalize (x.signExtend 64).toNat = v at hs hslt ⊢
    generalize x.toInt = k at hneg hx
    generalize x.toNat = u at hs hx hlt hhalf ⊢
    rw [Nat.mod_eq_of_lt (by omega), Nat.mod_eq_of_lt (by omega)]
    omega

/-- Only 0 is still there without its first digit. -/
theorem withoutFirst_eq_iff {w : Nat} {x : BitVec w} (hle : w ≤ 64) :
    (BitVec.ofNat 64 (withoutFirst x.toNat)).setWidth w = x ↔ x = 0 := by
  constructor
  · intro h
    by_contra hx
    have hlt := withoutFirst_lt fun h0 : x.toNat = 0 => hx (BitVec.eq_of_toNat_eq (h0.trans rfl))
    have hxlt := x.isLt
    have hpow : 2 ^ w ≤ 2 ^ 64 := Nat.pow_le_pow_right (by decide) hle
    have hnat := congrArg BitVec.toNat h
    rw [BitVec.toNat_setWidth, BitVec.toNat_ofNat, Nat.mod_eq_of_lt (by omega),
      Nat.mod_eq_of_lt (by omega)] at hnat
    omega
  · rintro rfl
    rw [show (0 : BitVec w).toNat = 0 from BitVec.toNat_zero, withoutFirst_zero]
    exact BitVec.setWidth_zero w 64

/-- Which values come back from an octal text. -/
theorem getInteger_octal_text (t : IntType) (x : BitVec t.bits) {format : VFormat}
    (h : kind format = .octal) :
    ∃ val f', getInteger (intToString BUFSIZE (shownNumber t x format) format) = some (val, f') ∧
      kind f' = .octal ∧ (val.setWidth t.bits = x ↔ x = 0) := by
  cases format with
  | DF_SOCT =>
    have hshown : shownNumber t x .DF_SOCT = x.signExtend 64 := if_pos rfl
    rw [intToString, hshown, BitVec.toInt_signExtend_of_le t.le]
    split_ifs with hpos
    · refine ⟨.ofNat 64 (withoutFirst (x.signExtend 64).toNat), .DF_UOCT, ?_, rfl, ?_⟩
      · rw [getInteger_zero, readUnsigned_octal_text]
        rfl
      · rcases toNat_signExtend_cases t.le x with ⟨-, hx, -⟩ | ⟨hneg, -, -⟩
        · rw [hx]
          exact withoutFirst_eq_iff t.le
        · omega
    · refine ⟨-.ofNat 64 (withoutFirst (-(x.signExtend 64)).toNat), .DF_SOCT, ?_, rfl, ?_⟩
      · rw [getInteger_negative, readUnsigned_octal_text]
        rfl
      · rw [toNat_neg_signExtend t.le (Int.lt_of_not_ge hpos),
          BitVec.setWidth_neg_of_le t.le, BitVec.neg_eq_iff_eq_neg, withoutFirst_eq_iff t.le]
        exact BitVec.neg_eq_zero_iff
  | DF_UOCT =>
    have hshown : shownNumber t x .DF_UOCT = x.setWidth 64 := if_neg Bool.false_ne_true
    rw [intToString, hshown]
    refine ⟨.ofNat 64 (withoutFirst (x.setWidth 64).toNat), .DF_UOCT, ?_, rfl, ?_⟩
    · rw [getInteger_zero, readUnsigned_octal_text]
      rfl
    · have hx : (x.setWidth 64).toNat = x.toNat :=
        BitVec.toNat_setWidth_of_le t.le
      rw [hx]
      exact withoutFirst_eq_iff t.le
  | _ => cases h

theorem setWidth_signExtend {w : Nat} (hle : w ≤ 64) (c : Byte) :
    (c.signExtend 64).setWidth w = c.signExtend w := by
  refine BitVec.eq_of_getLsbD_eq fun i hi => ?_
  have hlt := Nat.lt_of_lt_of_le hi hle
  simp only [BitVec.getLsbD_setWidth, BitVec.getLsbD_signExtend, hi, hlt, decide_true, Bool.true_and]

theorem toInt_char {w : Nat} (c : Byte) :
    -128 ≤ (c.signExtend w).toInt ∧ (c.signExtend w).toInt ≤ 127 := by
  rcases Nat.lt_or_ge w 8 with h | h
  · have hlow := BitVec.le_two_mul_toInt (x := c.signExtend w)
    have hhigh := BitVec.two_mul_toInt_lt (x := c.signExtend w)
    have hpow : (2 : Int) ^ w ≤ 2 ^ 7 := by
      have hnat : 2 ^ w ≤ 2 ^ 7 := Nat.pow_le_pow_right (by decide) (Nat.le_of_lt_succ h)
      exact_mod_cast hnat
    generalize (c.signExtend w).toInt = k at hlow hhigh ⊢
    omega
  · have hlow := BitVec.le_two_mul_toInt (x := c)
    have hhigh := BitVec.two_mul_toInt_lt (x := c)
    rw [BitVec.toInt_signExtend_of_le h]
    omega

/-- Of the characters, those below 128 are read back. -/
theorem ascii_iff (t : IntType) (x : BitVec t.bits) :
    (((x.signExtend 64).setWidth 32).toNat ≤ 255 ∧
      (((x.signExtend 64).setWidth 8).signExtend 64).setWidth t.bits = x) ↔
        0 ≤ x.toInt ∧ x.toInt ≤ 127 := by
  have hlow : ((x.signExtend 64).setWidth 32).toNat = (x.signExtend 64).toNat % 2 ^ 32 :=
    BitVec.toNat_setWidth 32 _
  have hx := toNat_signExtend_cases t.le x
  rw [hlow]
  constructor
  · rintro ⟨hsmall, hback⟩
    obtain ⟨hmin, hmax⟩ : -128 ≤ x.toInt ∧ x.toInt ≤ 127 := by
      rw [setWidth_signExtend t.le] at hback
      rw [← hback]
      exact toInt_char _
    rcases hx with ⟨hpos, -, -⟩ | ⟨hneg, hs, hk, -⟩
    · exact ⟨hpos, hmax⟩
    · generalize (x.signExtend 64).toNat = v at hsmall hs
      generalize x.toNat = u at hs hk
      generalize x.toInt = k at hneg hmin hk
      omega
  · rintro ⟨hpos, hle⟩
    have hc := toNat_signExtend_cases (by decide : 8 ≤ 64) ((x.signExtend 64).setWidth 8)
    have hchar : ((x.signExtend 64).setWidth 8).toNat = (x.signExtend 64).toNat % 2 ^ 8 :=
      BitVec.toNat_setWidth 8 _
    have hk : (x.signExtend 64).toNat = x.toNat ∧ x.toNat ≤ 127 := by
      rcases hx with ⟨-, hs, hk⟩ | ⟨hneg, -, -⟩
      · exact ⟨hs, by omega⟩
      · omega
    have hbyte : ((x.signExtend 64).setWidth 8).toNat = x.toNat := by
      rw [hchar, hk.1]
      omega
    refine ⟨by omega, BitVec.eq_of_toNat_eq ?_⟩
    rcases hc with ⟨-, hcs, -⟩ | ⟨hneg, -, hcs, -⟩
    · rw [BitVec.toNat_setWidth, hcs, hbyte, Nat.mod_eq_of_lt x.isLt]
    · have hmin := BitVec.le_two_mul_toInt (x := (x.signExtend 64).setWidth 8)
      omega

theorem deref_numeral {base : Nat} (hbase : 2 ≤ base) (hle : base ≤ 16) (n : Nat) :
    deref (numeral base n) ≠ 0#8 := by
  obtain ⟨d, ds, -, heq, hd, -⟩ := @numeral_eq base n hbase
  rw [heq]
  exact (digitChar_facts d (by omega)).1

theorem deref_showString {bytes : List Byte} (h : bytes.length ≤ 8) :
    deref (showString bytes (BUFSIZE - 1) singleQuote true) ≠ 0#8 := by
  rw [showString_eq h]
  exact (by decide : singleQuote ≠ 0#8)

theorem intToString_ne (n : BitVec 64) (format : VFormat) :
    deref (intToString BUFSIZE n format) ≠ 0#8 := by
  have hnought : byte '0' ≠ 0#8 := by decide
  have hminus : byte '-' ≠ 0#8 := by decide
  have hdecimal := @deref_numeral 10 (by decide) (by decide)
  cases format <;> rw [intToString]
  case DF_NONE | DF_SDEC =>
    split_ifs
    · exact hminus
    · exact hdecimal _
  case DF_UDEC => exact hdecimal _
  case DF_SOCT | DF_SHEX =>
    split_ifs
    · exact hnought
    · exact hminus
  case DF_UBIN =>
    split_ifs
    · exact hnought
    · exact hnought
  case DF_ASCII =>
    split_ifs
    · exact deref_showString (Nat.succ_le_succ (Nat.zero_le _))
    · exact deref_showString (List.dropWhile_suffix _).length_le
  all_goals exact hnought

theorem getValue_eq (t : IntType) (n : BitVec 64) (format : VFormat) :
    getValue t (intToString BUFSIZE n format) =
      (getInteger (intToString BUFSIZE n format)).map fun r => (r.1.setWidth t.bits, r.2) :=
  if_neg (intToString_ne n format)

/-- A value that is submitted as it is displayed is the same again in decimal, hexadecimal and binary;
in octal only 0 is, and of the characters those from 0 to 127. -/
theorem shown_value_is_neutral_iff (t : IntType) (x : BitVec t.bits) (format : VFormat) :
    (∃ f', getValue t (intToString BUFSIZE (shownNumber t x format) format) = some (x, f') ∧
      kind f' = kind format) ↔ Neutral t x format := by
  rw [getValue_eq]
  have hsame : ∀ f' : VFormat, ∀ {text : List Byte},
      getInteger text = some (shownNumber t x format, f') →
        (getInteger text).map (fun r => (r.1.setWidth t.bits, r.2)) = some (x, f') := by
    intro f' text h
    rw [h, Option.map_some, setWidth_shownNumber]
  unfold Neutral
  cases hkind : kind format with
  | decimal =>
    obtain ⟨f', heq, hf'⟩ := getInteger_decimal_text (shownNumber t x format) hkind
    exact iff_of_true ⟨f', hsame f' heq, hf'⟩ trivial
  | hexadecimal =>
    obtain ⟨f', heq, hf'⟩ := getInteger_hex_text (shownNumber t x format) hkind
    exact iff_of_true ⟨f', hsame f' heq, hf'⟩ trivial
  | binary =>
    have hbin : format = .DF_UBIN := by
      cases format <;> first | rfl | cases hkind
    subst hbin
    exact iff_of_true ⟨.DF_UBIN, hsame _ (getInteger_binary _), rfl⟩ trivial
  | octal =>
    obtain ⟨val, f', heq, hf', hval⟩ := getInteger_octal_text t x hkind
    rw [heq, Option.map_some, ← hval]
    constructor
    · rintro ⟨f'', hread, -⟩
      exact congrArg Prod.fst (Option.some.inj hread)
    · intro hx
      exact ⟨f', by rw [hx], hf'⟩
  | ascii =>
    have hascii : format = .DF_ASCII := by
      cases format <;> first | rfl | cases hkind
    subst hascii
    dsimp only
    rw [getInteger_ascii, show shownNumber t x .DF_ASCII = x.signExtend 64 from if_pos rfl, ← ascii_iff]
    split_ifs with hsmall
    · rw [Option.map_some]
      constructor
      · rintro ⟨f', hread, -⟩
        exact ⟨hsmall, congrArg Prod.fst (Option.some.inj hread)⟩
      · rintro ⟨-, hx⟩
        exact ⟨.DF_ASCII, by rw [hx], rfl⟩
    · constructor
      · rintro ⟨f', hread, -⟩
        cases hread
      · intro h
        exact absurd h.1 hsmall

/-- 83 is shown as 0123 in octal, and 0123 is read as 19. -/
theorem octal_value_comes_back_changed :
    ¬∀ (t : IntType) (x : BitVec t.bits) (format : VFormat),
      ∃ f', getValue t (intToString BUFSIZE (shownNumber t x format) format) = some (x, f') ∧
        kind f' = kind format := by
  intro h
  obtain ⟨f', hread, -⟩ := h ⟨32, by decide, by decide⟩ 83#32 .DF_UOCT
  have htext : intToString BUFSIZE (shownNumber ⟨32, by decide, by decide⟩ 83#32 .DF_UOCT) .DF_UOCT =
      [byte '0', byte '1', byte '2', byte '3'] := by
    rw [intToString, show (shownNumber ⟨32, by decide, by decide⟩ 83#32 .DF_UOCT).toNat = 83 from rfl,
      numeral, digits_of_ge (by decide) (by decide), digits_of_ge (by decide) (by decide),
      digits_of_lt (by decide)]
    rfl
  rw [htext, show getValue ⟨32, by decide, by decide⟩ [byte '0', byte '1', byte '2', byte '3'] =
    some (19#32, .DF_UOCT) by decide] at hread
  exact absurd (congrArg Prod.fst (Option.some.inj hread)) (by decide : ¬19#32 = 83#32)

end ups_rules.displayed_ints
