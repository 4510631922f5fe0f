-- Formatting (formf.c): what formf writes for each part of a format, and for which parts that is what
-- printf writes.
import Ups.DisplayedInts

open ups_rules.displayed_ints

namespace ups_rules.formatted_text

/-! ## The pure model -/

/-- The text in the buffer, which always has room for a NUL behind it: `lim` is the last usable index. -/
structure Buf where
  lim : Nat
  text : List Byte
  room : text.length ≤ lim

/-- A store that leaves no room for the NUL is refused. -/
def store (lim : Nat) (text str : List Byte) : Option Buf :=
  if h : (text ++ str).length ≤ lim then some ⟨lim, text ++ str, h⟩ else none

/-- `lim` is an int. -/
def newBuffer (lim : Nat) : Option Nat :=
  if 2 * (lim + 1) ≤ 2 ^ 31 then some (2 * (lim + 1) - 1) else none

theorem newBuffer_lt {lim lim' : Nat} (h : newBuffer lim = some lim') :
    lim < lim' ∧ lim' + 1 = 2 * (lim + 1) ∧ lim' < 2 ^ 31 := by
  unfold newBuffer at h
  split at h
  · cases h
    omega
  · cases h

/-- The loop of `concat`: until there is an index so large. -/
def roomFor (lim need : Nat) : Option Nat :=
  if lim < need then
    match _h : newBuffer lim with
    | none => none
    | some lim' => roomFor lim' need
  else some lim
termination_by 2 ^ 31 - lim
decreasing_by
  have hlt := newBuffer_lt _h
  omega

/-- `memcpy` takes a negative length for a very large one. -/
def concat (b : Buf) (str : List Byte) (len : Int) : Option Buf :=
  if len < 0 then none
  else (roomFor b.lim (b.text.length + len.toNat)).bind fun lim => store lim b.text (str.take len.toNat)

/-- A character of the format that is copied. -/
def copyChar (b : Buf) (c : Byte) : Option Buf :=
  if b.text.length = b.lim then (newBuffer b.lim).bind fun lim => store lim b.text [c]
  else store b.lim b.text [c]

def MAX_NUM_LEN : Nat := 40

def digit (want_uppercase : Bool) (d : Nat) : Byte :=
  if d < 10 then byte '0' + BitVec.ofNat 8 d
  else (if want_uppercase then byte 'A' else byte 'a') + BitVec.ofNat 8 (d - 10)

/-- The loop of `long_to_ascii`, with so many bytes of `nbuf` before `s`. -/
def longToAscii (want_uppercase : Bool) (base : Nat) : Nat → Nat → List Byte → Option (List Byte)
  | 0, _, _ => none
  | before + 1, unum, s =>
    if unum / base = 0 then some (digit want_uppercase (unum % base) :: s)
    else longToAscii want_uppercase base before (unum / base) (digit want_uppercase (unum % base) :: s)

inductive Arg
  | int (v : BitVec 32)
  | long (v : BitVec 64)
  | ptr (s : Option (List Byte))

def vaInt : List Arg → Option (Int × List Arg)
  | .int v :: args => some (v.toInt, args)
  | _ => none

def vaLong : List Arg → Option (Int × List Arg)
  | .long v :: args => some (v.toInt, args)
  | _ => none

structure Flags where
  left_justify : Bool
  zero_pad : Bool
  alternate_form : Bool

def setFlag (f : Flags) (c : Byte) : Flags :=
  if c = byte '-' then { f with left_justify := true }
  else if c = byte '0' then { f with zero_pad := true }
  else if c = byte '#' then { f with alternate_form := true }
  else f

/-- Nothing reads the flags for a plus and for a blank. -/
def isFlag (c : Byte) : Bool :=
  c = byte '-' || c = byte '+' || c = byte ' ' || c = byte '0' || c = byte '#'

def readFlags : List Byte → Flags → Option (Flags × List Byte)
  | [], _ => none
  | c :: fmt, f => if isFlag c then readFlags fmt (setFlag f c) else some (f, c :: fmt)

/-- Digits, as far as they are an int. -/
def readNumber : List Byte → Nat → Option (Nat × List Byte)
  | [], n => some (n, [])
  | c :: fmt, n =>
    if isdigit c then
      if n * 10 + (c - byte '0').toNat < 2 ^ 31 then readNumber fmt (n * 10 + (c - byte '0').toNat)
      else none
    else some (n, c :: fmt)

def readWidth (fmt : List Byte) (args : List Arg) : Option (Int × List Byte × List Arg) :=
  if fmt.head? = some (byte '*') then (vaInt args).map fun (n, args) => (n, fmt.tail, args)
  else (readNumber fmt 0).map fun (n, fmt) => (n, fmt, args)

/-- Without a digit or an asterisk behind the dot, no precision is given. -/
def readPrecision (fmt : List Byte) (args : List Arg) : Option (Option Int × List Byte × List Arg) :=
  if fmt.head? ≠ some (byte '.') then some (none, fmt, args)
  else if fmt.tail.head? = some (byte '*') then
    (vaInt args).map fun (n, args) => (some n, fmt.tail.tail, args)
  else if (fmt.tail.head?.map isdigit).getD false then
    (readNumber fmt.tail 0).map fun (n, fmt) => (some (n : Int), fmt, args)
  else some (none, fmt.tail, args)

/-- At the end of the format `strchr` finds the NUL, and `fmt` goes past it. -/
def readModifier : List Byte → Option (Option Byte × List Byte)
  | [] => none
  | c :: fmt =>
    if c = byte 'h' ∨ c = byte 'l' ∨ c = byte 'L' then some (some c, fmt) else some (none, c :: fmt)

/-- What the switch makes of an argument. -/
structure Item where
  is_negative : Bool
  alternatePrefix : List Byte
  s : List Byte

def vaNumber (modifier : Option Byte) (args : List Arg) : Option (Int × List Arg) :=
  if modifier = some (byte 'l') then vaLong args else vaInt args

def upperPrefix : List Byte := [byte '0', byte 'X']

def signedItem (modifier : Option Byte) (args : List Arg) : Option (Item × List Arg) :=
  (vaNumber modifier args).bind fun (i, args) =>
    (longToAscii true 10 MAX_NUM_LEN (BitVec.ofInt 64 (if i < 0 then -i else i)).toNat []).map
      fun s => (⟨decide (i < 0), upperPrefix, s⟩, args)

def gencase (modifier : Option Byte) (args : List Arg) (base : Nat) (alternatePrefix : List Byte)
    (want_uppercase : Bool) : Option (Item × List Arg) :=
  (vaNumber modifier args).bind fun (u, args) =>
    (longToAscii want_uppercase base MAX_NUM_LEN (BitVec.ofInt 64 u).toNat []).map
      fun s => (⟨false, alternatePrefix, s⟩, args)

/-- The switch, for the integers and the strings. -/
def convert (c : Byte) (modifier : Option Byte) (args : List Arg) : Option (Item × List Arg) :=
  if c = byte 'd' ∨ c = byte 'i' then signedItem modifier args
  else if c = byte 'o' then gencase modifier args 8 [byte '0'] true
  else if c = byte 'x' then gencase modifier args 16 [byte '0', byte 'x'] false
  else if c = byte 'X' then gencase modifier args 16 upperPrefix true
  else if c = byte 'u' then gencase modifier args 10 upperPrefix true
  else if c = byte 'c' then
    (vaInt args).map fun (n, args) =>
      (⟨false, upperPrefix, [BitVec.ofInt 8 n].takeWhile (· ≠ 0#8)⟩, args)
  else if c = byte '%' then some (⟨false, upperPrefix, [byte '%']⟩, args)
  else if c = byte 's' then
    match args with
    | .ptr (some s) :: args => some (⟨false, upperPrefix, s⟩, args)
    | _ => none
  else none

/-- `len`: the length of the string in an int, or the precision. -/
def cutLen (c : Byte) (precision : Option Int) (s : List Byte) : Int :=
  let len := (s.length : Int).bmod (2 ^ 32)
  match precision with
  | some precision => if c = byte 's' ∧ precision < len then precision else len
  | none => len

def fill (fillch : Byte) : Nat → Buf → Option Buf
  | 0, b => some b
  | n + 1, b => (concat b [fillch] 1).bind (fill fillch n)

/-- A sign or a prefix, if there is one to write. -/
def lead (b : Buf) (wanted : Bool) (str : List Byte) (min_field_width : Int) : Option (Buf × Int) :=
  if wanted then (concat b str str.length).map fun b => (b, min_field_width - str.length)
  else some (b, min_field_width)

/-- The part for `!left_justify`: is there still a sign to write, a prefix, and how wide is the rest? -/
def padLeft (b : Buf) (f : Flags) (min_field_width : Int) (item : Item) (len : Int) :
    Option (Buf × Bool × Bool × Int) :=
  if f.left_justify then some (b, item.is_negative, f.alternate_form, min_field_width)
  else
    (lead b (item.is_negative && f.zero_pad) [byte '-'] min_field_width).bind fun (b, width) =>
      (lead b f.alternate_form item.alternatePrefix width).bind fun (b, width) =>
        (fill (if f.zero_pad then byte '0' else byte ' ') (width - len).toNat b).map fun b =>
          (b, item.is_negative && !f.zero_pad, false, min width len)

/-- `min_field_width` is an int. -/
def output (b : Buf) (f : Flags) (min_field_width : Int) (item : Item) (len : Int) : Option Buf :=
  (padLeft b f min_field_width item len).bind fun (b, is_negative, alternate_form, width) =>
    (lead b is_negative [byte '-'] width).bind fun (b, width) =>
      (lead b alternate_form item.alternatePrefix width).bind fun (b, width) =>
        (concat b item.s len).bind fun b =>
          if width - len < -2 ^ 31 then none
          else if f.left_justify then fill (byte ' ') (width - len).toNat b
          else some b

/-- What is done behind a percent sign, and what is left of the format and of the arguments. -/
def conversion (fmt : List Byte) (args : List Arg) (b : Buf) :
    Option (List Byte × List Arg × Buf) := do
  let (f, fmt) ← readFlags fmt ⟨false, false, false⟩
  let (min_field_width, fmt, args) ← readWidth fmt args
  let (precision, fmt, args) ← readPrecision fmt args
  let (modifier, fmt) ← readModifier fmt
  match fmt with
  | [] => none
  | c :: fmt => do
    let (item, args) ← convert c modifier args
    let b ← output b f min_field_width item (cutLen c precision item.s)
    some (fmt, args, b)

/-- The loop of `formf`, for so many turns. -/
def formfLoop : Nat → List Byte → List Arg → Buf → Option (List Byte)
  | 0, _, _, _ => none
  | _ + 1, [], _, b => some b.text
  | turns + 1, c :: fmt, args, b =>
    if c = byte '%' then
      (conversion fmt args b).bind fun (fmt, args, b) => formfLoop turns fmt args b
    else (copyChar b c).bind (formfLoop turns fmt args)

/-- Each turn takes at least one character of the format. -/
def formf (buffer_size : Nat) (format : List Byte) (args : List Arg) : Option (List Byte) :=
  formfLoop (format.length + 1) format args ⟨buffer_size - 1, [], Nat.zero_le _⟩

/-! ## Formats -/

/-- A flag that formf documents. -/
inductive Flag
  | minus
  | zero
  | hash
  deriving DecidableEq

def Flag.char : Flag → Byte
  | .minus => byte '-'
  | .zero => byte '0'
  | .hash => byte '#'

/-- A field width: a number does not begin with a zero, which is a flag. -/
inductive Width
  | none
  | number (n : Nat) (h : 0 < n)
  | star (v : BitVec 32)

def Width.bytes : Width → List Byte
  | .none => []
  | .number n _ => (digits 10 n).map (digit false)
  | .star _ => [byte '*']

def Width.args : Width → List Arg
  | .star v => [.int v]
  | _ => []

def Width.value : Width → Int
  | .none => 0
  | .number n _ => n
  | .star v => v.toInt

/-- A string's precision: digits, of which there may be none, or an argument. -/
inductive Precision
  | none
  | number (ds : List (Fin 10))
  | star (v : BitVec 32)

def Precision.bytes : Precision → List Byte
  | .none => []
  | .number ds => byte '.' :: (ds.map Fin.val).map (digit false)
  | .star _ => [byte '.', byte '*']

def Precision.args : Precision → List Arg
  | .star v => [.int v]
  | _ => []

inductive Conv
  | d | i | u | o | x | X
  deriving DecidableEq

def Conv.char : Conv → Byte
  | .d => byte 'd'
  | .i => byte 'i'
  | .u => byte 'u'
  | .o => byte 'o'
  | .x => byte 'x'
  | .X => byte 'X'

def Conv.isSigned : Conv → Bool
  | .d | .i => true
  | _ => false

def Conv.base : Conv → Nat
  | .o => 8
  | .x | .X => 16
  | _ => 10

/-- Only `%x` is in small letters. -/
def Conv.upper (conv : Conv) : Bool := conv ≠ .x

/-- What `#` puts before a number that is not 0. -/
def Conv.pre : Conv → List Byte
  | .o => [byte '0']
  | .x => [byte '0', byte 'x']
  | .X => [byte '0', byte 'X']
  | _ => []

/-- The number that is printed: with `h`, without a modifier, or with `l`. -/
inductive Value
  | short (v : BitVec 16)
  | int (v : BitVec 32)
  | long (v : BitVec 64)

def Value.modifier : Value → List Byte
  | .short _ => [byte 'h']
  | .int _ => []
  | .long _ => [byte 'l']

def Value.signed : Value → Int
  | .short v => v.toInt
  | .int v => v.toInt
  | .long v => v.toInt

def Value.unsigned : Value → Nat
  | .short v => v.toNat
  | .int v => v.toNat
  | .long v => v.toNat

/-- A short is promoted to an int. -/
def Value.arg (isSigned : Bool) : Value → Arg
  | .short v => .int (if isSigned then v.signExtend 32 else v.setWidth 32)
  | .int v => .int v
  | .long v => .long v

/-- The part of a format that is written at one go. C gives `#` a meaning for `%o`, `%x` and `%X` only,
and `0` for the numbers. -/
inductive Piece
  | text (c : Byte) (h : c ≠ 0#8 ∧ c ≠ byte '%')
  | percent
  | number (flags : List Flag) (width : Width) (conv : Conv) (value : Value)
      (h : .hash ∈ flags → conv.pre ≠ [])
  | char (minuses : Nat) (width : Width) (v : BitVec 32)
  | string (minuses : Nat) (width : Width) (precision : Precision) (s : List Byte) (h : 0#8 ∉ s)

def Piece.bytes : Piece → List Byte
  | .text c _ => [c]
  | .percent => [byte '%', byte '%']
  | .number flags width conv value _ =>
    byte '%' :: (flags.map Flag.char ++ (width.bytes ++ (value.modifier ++ [conv.char])))
  | .char minuses width _ =>
    byte '%' :: ((List.replicate minuses Flag.minus).map Flag.char ++ (width.bytes ++ [byte 'c']))
  | .string minuses width precision _ _ =>
    byte '%' :: ((List.replicate minuses Flag.minus).map Flag.char ++
      (width.bytes ++ (precision.bytes ++ [byte 's'])))

def Piece.args : Piece → List Arg
  | .text .. | .percent => []
  | .number _ width conv value _ => width.args ++ [value.arg conv.isSigned]
  | .char _ width v => width.args ++ [.int v]
  | .string _ width precision s _ => width.args ++ (precision.args ++ [.ptr (some s)])

def digitsOf (conv : Conv) (n : Nat) : List Byte := (digits conv.base n).map (digit conv.upper)

def format (ps : List Piece) : List Byte := ps.flatMap Piece.bytes

def argsOf (ps : List Piece) : List Arg := ps.flatMap Piece.args

/-! ## The buffer -/

variable {lim lim' need need' : Nat} {b : Buf} {t str : List Byte}

theorem roomFor_of_le (h : need ≤ lim) : roomFor lim need = some lim := by
  rw [roomFor, if_neg (Nat.not_lt.mpr h)]

theorem roomFor_of_new (h : lim < need) (hnew : newBuffer lim = some lim') :
    roomFor lim need = roomFor lim' need := by
  rw [roomFor, if_pos h]
  split
  · rename_i hnone
    rw [hnew] at hnone
    cases hnone
  · rename_i _ hsome
    rw [hnew] at hsome
    cases hsome
    rfl

theorem roomFor_of_none (h : lim < need) (hnew : newBuffer lim = none) : roomFor lim need = none := by
  rw [roomFor, if_pos h]
  split
  · rfl
  · rename_i _ hsome
    rw [hnew] at hsome
    cases hsome

/-- The doubling goes on from where it was. -/
theorem roomFor_bind (h : need ≤ need') :
    ((roomFor lim need).bind fun lim => roomFor lim need') = roomFor lim need' := by
  induction lim using roomFor.induct need with
  | case1 lim hlt hnew =>
    rw [roomFor_of_none hlt hnew, roomFor_of_none (Nat.lt_of_lt_of_le hlt h) hnew]
    rfl
  | case2 lim hlt lim' hnew ih =>
    rw [roomFor_of_new hlt hnew, roomFor_of_new (Nat.lt_of_lt_of_le hlt h) hnew, ih]
  | case3 lim hge =>
    rw [roomFor_of_le (Nat.not_lt.mp hge), Option.bind_some]

theorem le_of_roomFor (h : roomFor lim need = some lim') : need ≤ lim' := by
  induction lim using roomFor.induct need with
  | case1 lim hlt hnew =>
    rw [roomFor_of_none hlt hnew] at h
    cases h
  | case2 lim hlt lim' hnew ih =>
    rw [roomFor_of_new hlt hnew] at h
    exact ih h
  | case3 lim hge =>
    rw [roomFor_of_le (Nat.not_lt.mp hge)] at h
    cases h
    exact Nat.not_lt.mp hge

/-- The text goes behind what is in the buffer, wherever that is. -/
def append (b : Buf) (t : List Byte) : Option Buf := concat b t t.length

theorem append_eq (b : Buf) (t : List Byte) :
    append b t = (roomFor b.lim (b.text.length + t.length)).bind fun lim => store lim b.text t := by
  unfold append concat
  rw [if_neg (by omega), Int.toNat_natCast, List.take_length]

theorem store_of_room (h : roomFor lim (str ++ t).length = some lim') :
    store lim' str t = some ⟨lim', str ++ t, le_of_roomFor h⟩ := dif_pos (le_of_roomFor h)

theorem append_nil (b : Buf) : append b [] = some b := by
  rw [append_eq, List.length_nil, Nat.add_zero, roomFor_of_le b.room, Option.bind_some]
  unfold store
  cases b with
  | mk lim text room =>
    simp only [List.append_nil]
    rw [dif_pos room]

theorem append_append (b : Buf) (t t' : List Byte) :
    ((append b t).bind fun b => append b t') = append b (t ++ t') := by
  have hneed : (b.text ++ t).length ≤ (b.text ++ (t ++ t')).length := by
    rw [List.length_append, List.length_append, List.length_append]
    omega
  rw [append_eq, append_eq, ← List.length_append, ← List.length_append, ← roomFor_bind hneed]
  cases h : roomFor b.lim (b.text ++ t).length with
  | none => rfl
  | some lim' =>
    rw [Option.bind_some, Option.bind_some, store_of_room h, Option.bind_some, append_eq,
      ← List.append_assoc, ← List.length_append]
    congr 1
    funext lim
    unfold store
    simp only [List.append_assoc]

theorem concat_eq {len : Int} (h : 0 ≤ len) (hle : len ≤ str.length) :
    concat b str len = append b (str.take len.toNat) := by
  rw [append_eq]
  unfold concat
  rw [if_neg (by omega), List.length_take, Nat.min_eq_left (by omega)]

theorem copyChar_eq (b : Buf) (c : Byte) : copyChar b c = append b [c] := by
  rw [append_eq, List.length_singleton]
  unfold copyChar
  split
  · rename_i hfull
    rw [hfull]
    cases hnew : newBuffer b.lim with
    | none => rw [roomFor_of_none (Nat.lt_succ_self _) hnew]
    | some lim' =>
      rw [roomFor_of_new (Nat.lt_succ_self _) hnew, roomFor_of_le (newBuffer_lt hnew).1]
  · rename_i hroom
    have hle := b.room
    rw [roomFor_of_le (by omega), Option.bind_some]

theorem fill_eq (fillch : Byte) (n : Nat) (b : Buf) : fill fillch n b = append b (List.replicate n fillch) := by
  induction n generalizing b with
  | zero => exact (append_nil b).symm
  | succ n ih =>
    rw [List.replicate_succ, ← List.singleton_append, ← append_append]
    unfold fill
    congr 1
    funext b
    exact ih b

theorem lead_eq (b : Buf) (wanted : Bool) (str : List Byte) (min_field_width : Int) :
    lead b wanted str min_field_width =
      (append b (if wanted then str else [])).map fun b =>
        (b, min_field_width - (if wanted then str else []).length) := by
  unfold lead
  cases wanted with
  | false =>
    simp only [Bool.false_eq_true, if_false]
    rw [append_nil, List.length_nil, Int.natCast_zero, Int.sub_zero, Option.map_some]
  | true => rfl

/-! ## Justified fields -/

/-- What formf writes of an item, when no width is too small for an int. -/
def justified (f : Flags) (min_field_width : Int) (is_negative : Bool) (alternatePrefix s : List Byte) :
    Option (List Byte) :=
  let sign := if is_negative then [byte '-'] else []
  let pre := if f.alternate_form then alternatePrefix else []
  let width := min_field_width - (sign ++ pre ++ s).length
  if width < -2 ^ 31 then none
  else some
    (if f.left_justify then sign ++ pre ++ s ++ List.replicate width.toNat (byte ' ')
    else if f.zero_pad then sign ++ pre ++ List.replicate width.toNat (byte '0') ++ s
    else pre ++ List.replicate (min_field_width - (pre ++ s).length).toNat (byte ' ') ++ (sign ++ s))

theorem append_bind {α : Type} (b : Buf) (t t' : List Byte) (g : Buf → Option α) :
    ((append b t).bind fun b => (append b t').bind g) = (append b (t ++ t')).bind g := by
  rw [← append_append, Option.bind_assoc]

theorem lead_bind {α : Type} (b : Buf) (wanted : Bool) (str : List Byte) (width : Int)
    (g : Buf × Int → Option α) :
    (lead b wanted str width).bind g = (append b (if wanted then str else [])).bind fun b =>
      g (b, width - (if wanted then str else []).length) := by
  rw [lead_eq, Option.bind_map]
  rfl

/-- The order of the width's check and of the stores makes no difference. -/
theorem append_check (b : Buf) (t : List Byte) (p : Prop) [Decidable p] (g : Buf → Option Buf) :
    ((append b t).bind fun b => if p then none else g b) = if p then none else (append b t).bind g := by
  split
  · exact Option.bind_fun_none (append b t)
  · rfl

theorem ite_bind (b : Buf) (t : List Byte) (p : Prop) [Decidable p] :
    (if p then none else some t).bind (append b) = if p then none else append b t := by
  split <;> rfl

theorem output_left {f : Flags} {item : Item} {len : Int} (min_field_width : Int)
    (hleft : f.left_justify = true) (h : 0 ≤ len) (hle : len ≤ item.s.length) :
    output b f min_field_width item len =
      (justified f min_field_width item.is_negative item.alternatePrefix
        (item.s.take len.toNat)).bind (append b) := by
  have hlen : ((item.s.take len.toNat).length : Int) = len := by
    rw [List.length_take, Nat.min_eq_left (by omega)]
    omega
  unfold output padLeft
  rw [if_pos hleft, Option.bind_some]
  simp only [lead_bind, append_bind, concat_eq h hle, fill_eq, hleft, if_true]
  rw [append_check, append_append]
  unfold justified
  simp only [hleft, if_true, List.length_append, Int.natCast_add, hlen, ite_bind]
  rw [← List.append_assoc, Int.sub_sub, Int.sub_sub, Int.add_assoc]

theorem output_right {f : Flags} {item : Item} {len : Int} (min_field_width : Int)
    (hleft : f.left_justify = false) (h : 0 ≤ len) (hle : len ≤ item.s.length) :
    output b f min_field_width item len =
      (justified f min_field_width item.is_negative item.alternatePrefix
        (item.s.take len.toNat)).bind (append b) := by
  have hlen : ((item.s.take len.toNat).length : Int) = len := by
    rw [List.length_take, Nat.min_eq_left (by omega)]
    omega
  unfold output padLeft
  rw [if_neg (by rw [hleft]; decide)]
  simp only [lead_bind, Option.bind_assoc, Option.bind_map, Function.comp_def, append_bind, concat_eq h hle,
    fill_eq, hleft, Bool.false_eq_true, if_false, append_nil, List.length_nil,
    Int.natCast_zero, Int.sub_zero]
  unfold justified
  simp only [hleft, Bool.false_eq_true, if_false, List.length_append, Int.natCast_add, hlen]
  generalize (if f.alternate_form = true then item.alternatePrefix else []) = pre
  cases hzero : f.zero_pad with
  | true =>
    simp only [if_true, Bool.and_true, Bool.not_true, Bool.and_false, Bool.false_eq_true, if_false,
      Option.bind_some, append_bind, append_check, ite_bind, List.append_nil, List.length_nil,
      Int.natCast_zero, Int.sub_zero, Option.bind_fun_some]
    generalize (if item.is_negative = true then [byte '-'] else []) = sign
    have hcheck : min (min_field_width - sign.length - pre.length) len - len < -2 ^ 31 ↔
        min_field_width - (sign.length + pre.length + len) < -2 ^ 31 := by omega
    rw [if_congr hcheck rfl rfl, append_append, Int.sub_sub, Int.sub_sub, Int.add_assoc]
  | false =>
    simp only [Bool.not_false, Bool.and_false, Bool.and_true, Bool.false_eq_true, if_false,
      Option.bind_some, append_bind, append_check, ite_bind, List.nil_append, List.length_nil,
      Int.natCast_zero, Int.sub_zero, Option.bind_fun_some]
    have hsign : (if item.is_negative = true then [byte '-'] else []).length ≤ 1 := by
      split <;> decide
    generalize (if item.is_negative = true then [byte '-'] else []) = sign at hsign ⊢
    have hcheck : min (min_field_width - pre.length) len - sign.length - len < -2 ^ 31 ↔
        min_field_width - (sign.length + pre.length + len) < -2 ^ 31 := by omega
    rw [if_congr hcheck rfl rfl, append_append, Int.sub_sub, List.append_assoc, List.append_assoc]

/-- The string is cut and justified, and goes behind the text as a whole. -/
theorem output_eq {item : Item} {len : Int} (f : Flags) (min_field_width : Int) (h : 0 ≤ len)
    (hle : len ≤ item.s.length) :
    output b f min_field_width item len =
      (justified f min_field_width item.is_negative item.alternatePrefix
        (item.s.take len.toNat)).bind (append b) := by
  cases hleft : f.left_justify with
  | false => exact output_right min_field_width hleft h hle
  | true => exact output_left min_field_width hleft h hle

theorem output_negative {item : Item} {len : Int} (f : Flags) (min_field_width : Int) (h : len < 0) :
    output b f min_field_width item len = none := by
  unfold output
  simp only [concat, if_pos h, Option.bind_none, Option.bind_fun_none]

/-! ## Numbers -/

theorem longToAscii_eq (want_uppercase : Bool) {base before n : Nat} (hbase : 2 ≤ base)
    (h : n < base ^ (before + 1)) (s : List Byte) :
    longToAscii want_uppercase base (before + 1) n s =
      some ((digits base n).map (digit want_uppercase) ++ s) := by
  induction before generalizing n s with
  | zero =>
    rw [Nat.zero_add, Nat.pow_one] at h
    rw [longToAscii, if_pos (Nat.div_eq_of_lt h), digits_of_lt h, Nat.mod_eq_of_lt h]
    rfl
  | succ before ih =>
    rw [longToAscii]
    split
    · rename_i hdiv
      have hlt : n < base := (Nat.div_eq_zero_iff_lt (by omega)).mp hdiv
      rw [digits_of_lt hlt, Nat.mod_eq_of_lt hlt]
      rfl
    · rename_i hdiv
      have hge : base ≤ n := by
        by_contra hlt
        exact hdiv (Nat.div_eq_of_lt (by omega))
      have hnext : n / base < base ^ (before + 1) := by
        rw [Nat.div_lt_iff_lt_mul (by omega), ← Nat.pow_succ]
        exact h
      rw [ih hnext, digits_of_ge hbase hge, List.map_append, List.append_assoc]
      rfl

/-- `nbuf` has room for every number, in each base that formf uses. -/
theorem longToAscii_long (want_uppercase : Bool) {base : Nat} (hbase : 8 ≤ base) (v : BitVec 64) :
    longToAscii want_uppercase base MAX_NUM_LEN v.toNat [] =
      some ((digits base v.toNat).map (digit want_uppercase)) := by
  have hlt : v.toNat < base ^ (39 + 1) := by
    have hpow : 8 ^ (39 + 1) ≤ base ^ (39 + 1) := Nat.pow_le_pow_left hbase _
    have hv := v.isLt
    omega
  have heq := longToAscii_eq want_uppercase (by omega) hlt []
  rwa [List.append_nil] at heq

/-- The long that is left of an argument for an unsigned conversion. -/
def Value.widened : Value → Nat
  | .short v => v.toNat
  | .int v => (v.signExtend 64).toNat
  | .long v => v.toNat

theorem vaNumber_signed (value : Value) (args : List Arg) :
    vaNumber value.modifier.head? (value.arg true :: args) = some (value.signed, args) := by
  cases value with
  | short v =>
    have hsign : (v.signExtend 32).toInt = v.toInt := BitVec.toInt_signExtend_of_le (by decide)
    exact congrArg some (congrArg (·, args) hsign)
  | int v => rfl
  | long v => rfl

theorem vaNumber_unsigned (value : Value) (args : List Arg) :
    ∃ u, vaNumber value.modifier.head? (value.arg false :: args) = some (u, args) ∧
      (BitVec.ofInt 64 u).toNat = value.widened := by
  cases value with
  | short v =>
    refine ⟨(v.setWidth 32).toInt, rfl, ?_⟩
    have hv := v.isLt
    have hint : (v.setWidth 32).toInt = v.toNat := by
      rw [BitVec.toInt_setWidth, Int.bmod_def]
      split <;> omega
    rw [hint, BitVec.toNat_ofInt]
    show _ = v.toNat
    omega
  | int v => exact ⟨v.toInt, rfl, rfl⟩
  | long v =>
    refine ⟨v.toInt, rfl, ?_⟩
    rw [BitVec.ofInt_toInt]
    rfl

theorem signed_magnitude (value : Value) :
    (BitVec.ofInt 64 (if value.signed < 0 then -value.signed else value.signed)).toNat =
      value.signed.natAbs := by
  have hbound : -2 ^ 63 ≤ value.signed ∧ value.signed < 2 ^ 63 := by
    cases value with
    | short v =>
      have hle := BitVec.le_toInt v
      have hlt := BitVec.toInt_lt (x := v)
      show -2 ^ 63 ≤ v.toInt ∧ v.toInt < 2 ^ 63
      omega
    | int v =>
      have hle := BitVec.le_toInt v
      have hlt := BitVec.toInt_lt (x := v)
      show -2 ^ 63 ≤ v.toInt ∧ v.toInt < 2 ^ 63
      omega
    | long v => exact ⟨BitVec.le_toInt v, BitVec.toInt_lt⟩
  rw [BitVec.toNat_ofInt]
  split <;> omega

/-! ## Reading a format -/

theorem isFlag_char (flag : Flag) : isFlag flag.char = true := by
  cases flag <;> decide

def setFlags (f : Flags) (flags : List Flag) : Flags := flags.foldl (fun f flag => setFlag f flag.char) f

theorem setFlags_eq (flags : List Flag) (f : Flags) :
    setFlags f flags = ⟨f.left_justify || decide (.minus ∈ flags), f.zero_pad || decide (.zero ∈ flags),
      f.alternate_form || decide (.hash ∈ flags)⟩ := by
  induction flags generalizing f with
  | nil => simp [setFlags]
  | cons flag flags ih =>
    rw [setFlags, List.foldl_cons]
    refine (ih _).trans ?_
    cases flag <;> simp [setFlag, Flag.char, byte]

theorem setFlags_minuses (n : Nat) :
    setFlags ⟨false, false, false⟩ (List.replicate n .minus) = ⟨decide (0 < n), false, false⟩ := by
  rw [setFlags_eq]
  simp [List.mem_replicate, Nat.pos_iff_ne_zero]

/-- What may stand behind flags and a width. -/
def Behind (r : List Byte) : Prop :=
  ∃ c t, r = c :: t ∧ isFlag c = false ∧ isdigit c = false ∧ c ≠ byte '*'

variable {r : List Byte}

theorem readFlags_eq (flags : List Flag) (f : Flags) (h : ∃ c t, r = c :: t ∧ isFlag c = false) :
    readFlags (flags.map Flag.char ++ r) f = some (setFlags f flags, r) := by
  induction flags generalizing f with
  | nil =>
    obtain ⟨c, t, rfl, hc⟩ := h
    rw [List.map_nil, List.nil_append, readFlags, hc]
    rfl
  | cons flag flags ih =>
    rw [List.map_cons, List.cons_append, readFlags, isFlag_char, if_pos rfl, ih]
    rfl

theorem digit_facts : ∀ d < 10, isdigit (digit false d) = true ∧
    (digit false d - byte '0').toNat = d ∧ (d ≠ 0 → isFlag (digit false d) = false) ∧
    digit false d ≠ byte '*' := by
  decide

theorem le_valueOf (ds : List Nat) (n : Nat) : n ≤ valueOf 10 ds n := by
  induction ds generalizing n with
  | nil => exact Nat.le_refl n
  | cons d ds ih =>
    have hstep : n ≤ n * 10 + d := by omega
    exact Nat.le_trans hstep (ih _)

/-- A number that is no int has no value. -/
theorem readNumber_eq {ds : List Nat} {n : Nat} (hds : ∀ d ∈ ds, d < 10)
    (hr : ∀ c ∈ r.head?, isdigit c = false) (hn : n < 2 ^ 31) :
    readNumber (ds.map (digit false) ++ r) n =
      if valueOf 10 ds n < 2 ^ 31 then some (valueOf 10 ds n, r) else none := by
  induction ds generalizing n with
  | nil =>
    rw [List.map_nil, List.nil_append, show valueOf 10 [] n = n from rfl, if_pos hn]
    cases r with
    | nil => rfl
    | cons c r =>
      rw [readNumber, hr c rfl]
      rfl
  | cons d ds ih =>
    rw [List.forall_mem_cons] at hds
    obtain ⟨hdigit, hvalue, -, -⟩ := digit_facts d hds.1
    have hcons : valueOf 10 (d :: ds) n = valueOf 10 ds (n * 10 + d) := rfl
    rw [List.map_cons, List.cons_append, readNumber, hdigit, if_pos rfl, hvalue, hcons]
    split
    · rename_i hlt
      exact ih hds.2 hlt
    · rename_i hge
      have hle := le_valueOf ds (n * 10 + d)
      rw [if_neg (by omega)]

theorem bytes_number {n d : Nat} {ds : List Nat} (hn : 0 < n) (h : digits 10 n = d :: ds) :
    (Width.number n hn).bytes = digit false d :: ds.map (digit false) := by
  show (digits 10 n).map (digit false) = _
  rw [h]
  rfl

theorem readWidth_eq (width : Width) (args : List Arg) (h : Behind r) :
    readWidth (width.bytes ++ r) (width.args ++ args) =
      if width.value < 2 ^ 31 then some (width.value, r, args) else none := by
  obtain ⟨c, t, rfl, hflag, hdigit, hstar⟩ := h
  have hr : ∀ d ∈ (c :: t).head?, isdigit d = false := by
    intro d hd
    cases hd
    exact hdigit
  unfold readWidth
  cases width with
  | none =>
    have hnumber : readNumber (c :: t) 0 = some (0, c :: t) := by
      rw [readNumber, hdigit]
      rfl
    rw [if_neg (by simpa [Width.bytes] using hstar)]
    exact congrArg (Option.map _) hnumber
  | number n hn =>
    have hds : ∀ d ∈ digits 10 n, d < 10 := digits_lt (by decide)
    have hnumber := readNumber_eq (n := 0) hds hr (by decide)
    obtain ⟨d, ds, heq, hpos⟩ := digits_head (by decide : 2 ≤ 10) (by omega : n ≠ 0)
    have hd : d < 10 := hds d (by rw [heq]; exact List.mem_cons_self)
    rw [valueOf_digits (by decide)] at hnumber
    have hhead : ((Width.number n hn).bytes ++ c :: t).head? = some (digit false d) := by
      rw [bytes_number hn heq]
      rfl
    rw [hhead, if_neg (by rw [Option.some.injEq]; exact (digit_facts d hd).2.2.2)]
    refine (congrArg (Option.map _) hnumber).trans ?_
    show _ = if (n : Int) < 2 ^ 31 then _ else _
    by_cases hlt : n < 2 ^ 31
    · rw [if_pos hlt, if_pos (by omega)]
      rfl
    · rw [if_neg hlt, if_neg (by omega)]
      rfl
  | star v =>
    have hv := BitVec.toInt_lt (x := v)
    exact (if_pos rfl).trans (if_pos hv).symm

/-- Nothing in front of a number, a character or a string is taken for a flag. -/
theorem width_behind (width : Width) (h : Behind r) :
    ∃ c t, width.bytes ++ r = c :: t ∧ isFlag c = false := by
  cases width with
  | none =>
    obtain ⟨c, t, rfl, hflag, -⟩ := h
    exact ⟨c, t, rfl, hflag⟩
  | number n hn =>
    obtain ⟨d, ds, heq, hpos⟩ := digits_head (by decide : 2 ≤ 10) (by omega : n ≠ 0)
    have hd : d < 10 := digits_lt (by decide) d (by rw [heq]; exact List.mem_cons_self)
    refine ⟨digit false d, ds.map (digit false) ++ r, ?_, (digit_facts d hd).2.2.1 (by omega)⟩
    rw [bytes_number hn heq]
    rfl
  | star v => exact ⟨byte '*', r, rfl, by decide⟩

/-! ## What formf writes -/

/-- What the switch takes for the prefix. -/
def Conv.alternatePrefix : Conv → List Byte
  | .o => [byte '0']
  | .x => [byte '0', byte 'x']
  | _ => upperPrefix

/-- The precision that is read, if it is an int. -/
def Precision.read : Precision → Option (Option Int)
  | .none => some Option.none
  | .number [] => some Option.none
  | .number ds =>
    if valueOf 10 (ds.map Fin.val) 0 < 2 ^ 31 then some (some (valueOf 10 (ds.map Fin.val) 0 : Nat))
    else Option.none
  | .star v => some (some v.toInt)

/-- No string is cut to a negative length. -/
def cutTo (s : List Byte) : Option Int → Option (List Byte)
  | none => some s
  | some precision => if precision < 0 then none else some (s.take precision.toNat)

def Precision.given (precision : Precision) (s : List Byte) : Option (List Byte) :=
  precision.read.bind (cutTo s)

/-- With a width that is an int. -/
def justifiedTo (f : Flags) (width : Width) (is_negative : Bool) (alternatePrefix s : List Byte) :
    Option (List Byte) :=
  if width.value < 2 ^ 31 then justified f width.value is_negative alternatePrefix s else none

def Piece.written : Piece → Option (List Byte)
  | .text c _ => some [c]
  | .percent => some [byte '%']
  | .number flags width conv value _ =>
    justifiedTo ⟨decide (.minus ∈ flags), decide (.zero ∈ flags), decide (.hash ∈ flags)⟩ width
      (conv.isSigned && decide (value.signed < 0)) conv.alternatePrefix
      (digitsOf conv (if conv.isSigned then value.signed.natAbs else value.widened))
  | .char minuses width v =>
    justifiedTo ⟨decide (0 < minuses), false, false⟩ width false upperPrefix
      ([v.setWidth 8].takeWhile (· ≠ 0#8))
  | .string minuses width precision s _ =>
    (precision.given s).bind (justifiedTo ⟨decide (0 < minuses), false, false⟩ width false upperPrefix)

variable {args : List Arg} {rest : List Byte}

theorem readModifier_eq (value : Value) (conv : Conv) (rest : List Byte) :
    readModifier (value.modifier ++ conv.char :: rest) =
      some (value.modifier.head?, conv.char :: rest) := by
  cases value with
  | short v => rfl
  | int v => cases conv <;> rfl
  | long v => rfl

theorem behind_conv (value : Value) (conv : Conv) (rest : List Byte) :
    Behind (value.modifier ++ conv.char :: rest) := by
  cases value with
  | short v => exact ⟨byte 'h', conv.char :: rest, rfl, by decide⟩
  | int v => exact ⟨conv.char, rest, rfl, by cases conv <;> decide⟩
  | long v => exact ⟨byte 'l', conv.char :: rest, rfl, by decide⟩

theorem readPrecision_conv (value : Value) (conv : Conv) (rest : List Byte) (args : List Arg) :
    readPrecision (value.modifier ++ conv.char :: rest) args =
      some (none, value.modifier ++ conv.char :: rest, args) := by
  refine if_pos ?_
  cases value with
  | short v => exact fun h => absurd (Option.some.inj h) (by decide)
  | int v => exact fun h => absurd (Option.some.inj h) (by cases conv <;> decide)
  | long v => exact fun h => absurd (Option.some.inj h) (by decide)

theorem convert_number (conv : Conv) (value : Value) (args : List Arg) :
    convert conv.char value.modifier.head? (value.arg conv.isSigned :: args) =
      some (⟨conv.isSigned && decide (value.signed < 0), conv.alternatePrefix,
        digitsOf conv (if conv.isSigned then value.signed.natAbs else value.widened)⟩, args) := by
  have hsigned : signedItem value.modifier.head? (value.arg true :: args) =
      some (⟨decide (value.signed < 0), upperPrefix, (digits 10 value.signed.natAbs).map (digit true)⟩,
        args) := by
    unfold signedItem
    rw [vaNumber_signed, Option.bind_some]
    dsimp only
    rw [longToAscii_long true (by decide), signed_magnitude]
    rfl
  have hunsigned : ∀ base alternatePrefix want_uppercase, 8 ≤ base →
      gencase value.modifier.head? (value.arg false :: args) base alternatePrefix want_uppercase =
        some (⟨false, alternatePrefix, (digits base value.widened).map (digit want_uppercase)⟩,
          args) := by
    intro base alternatePrefix want_uppercase hbase
    obtain ⟨u, heq, hu⟩ := vaNumber_unsigned value args
    unfold gencase
    rw [heq, Option.bind_some]
    dsimp only
    rw [longToAscii_long want_uppercase hbase, hu]
    rfl
  cases conv with
  | d => exact hsigned
  | i => exact hsigned
  | u => exact hunsigned 10 upperPrefix true (by decide)
  | o => exact hunsigned 8 [byte '0'] true (by decide)
  | x => exact hunsigned 16 [byte '0', byte 'x'] false (by decide)
  | X => exact hunsigned 16 upperPrefix true (by decide)

/-- The reading of a conversion ends in one field. -/
theorem conversion_eq (flags : List Flag) (width : Width) (b : Buf) {args' args'' : List Arg}
    {r' : List Byte} {precision : Option Int} {modifier : Option Byte} {c : Byte} {item : Item}
    (hr : Behind r) (hprecision : readPrecision r args' = some (precision, r', args''))
    (hmodifier : readModifier r' = some (modifier, c :: rest))
    (hconvert : convert c modifier args'' = some (item, args)) :
    conversion (flags.map Flag.char ++ (width.bytes ++ r)) (width.args ++ args') b =
      if width.value < 2 ^ 31 then
        (output b (setFlags ⟨false, false, false⟩ flags) width.value item
          (cutLen c precision item.s)).map fun b => (rest, args, b)
      else none := by
  unfold conversion
  simp only [bind, readFlags_eq flags _ (width_behind width hr), Option.bind_some,
    readWidth_eq width args' hr]
  split
  · simp only [Option.bind_some, hprecision, hmodifier, hconvert]
    rw [Option.map_eq_bind]
    rfl
  · rfl

theorem cutLen_none {s : List Byte} (c : Byte) (h : s.length < 2 ^ 31) : cutLen c none s = s.length := by
  unfold cutLen
  rw [Int.bmod_def]
  dsimp only
  split <;> omega

theorem cutLen_some {s : List Byte} (precision : Int) (h : s.length < 2 ^ 31) :
    cutLen (byte 's') (some precision) s = min precision s.length := by
  have hlen := cutLen_none (byte 's') h
  unfold cutLen at hlen ⊢
  dsimp only at hlen ⊢
  rw [hlen]
  simp only [true_and]
  split <;> omega

/-- An item that is not cut. -/
theorem output_whole {item : Item} (c : Byte) (f : Flags) (width : Int) (h : item.s.length < 2 ^ 31) :
    output b f width item (cutLen c none item.s) =
      (justified f width item.is_negative item.alternatePrefix item.s).bind (append b) := by
  rw [cutLen_none c h, output_eq f width (Int.natCast_nonneg _) (Int.le_refl _), Int.toNat_natCast,
    List.take_length]

theorem length_digits {base k n : Nat} (hbase : 2 ≤ base) (h : n < base ^ (k + 1)) :
    (digits base n).length ≤ k + 1 := by
  induction k generalizing n with
  | zero =>
    rw [Nat.zero_add, Nat.pow_one] at h
    rw [digits_of_lt h, List.length_singleton]
  | succ k ih =>
    rcases Nat.lt_or_ge n base with hlt | hge
    · rw [digits_of_lt hlt, List.length_singleton]
      omega
    · rw [digits_of_ge hbase hge, List.length_append, List.length_singleton]
      have hnext : n / base < base ^ (k + 1) := by
        rw [Nat.div_lt_iff_lt_mul (by omega), ← Nat.pow_succ]
        exact h
      have hlen := ih hnext
      omega

theorem eight_le_base (conv : Conv) : 8 ≤ conv.base := by
  cases conv <;> decide

theorem length_digitsOf (conv : Conv) {n : Nat} (h : n < 2 ^ 64) : (digitsOf conv n).length < 2 ^ 31 := by
  have hpow : 8 ^ 22 ≤ conv.base ^ 22 := Nat.pow_le_pow_left (eight_le_base conv) 22
  have hbase := eight_le_base conv
  have hlt : n < conv.base ^ 22 := Nat.lt_of_lt_of_le (by omega) hpow
  have hlen := length_digits (by omega) hlt
  unfold digitsOf
  rw [List.length_map]
  omega

theorem written_lt (conv : Conv) (value : Value) :
    (if conv.isSigned then value.signed.natAbs else value.widened) < 2 ^ 64 := by
  split
  · rw [← signed_magnitude]
    exact BitVec.isLt _
  · cases value with
    | short v =>
      have hv := v.isLt
      show v.toNat < 2 ^ 64
      omega
    | int v => exact BitVec.isLt _
    | long v => exact BitVec.isLt _

theorem map_justifiedTo (f : Flags) (width : Width) (is_negative : Bool) (alternatePrefix s : List Byte)
    (rest : List Byte) (args : List Arg) (b : Buf) :
    (if width.value < 2 ^ 31 then
      ((justified f width.value is_negative alternatePrefix s).bind (append b)).map fun b =>
        (rest, args, b) else none) =
      (justifiedTo f width is_negative alternatePrefix s).bind fun t =>
        (append b t).map fun b => (rest, args, b) := by
  unfold justifiedTo
  split
  · rw [Option.map_bind]
    rfl
  · rfl

theorem conversion_number (flags : List Flag) (width : Width) (conv : Conv) (value : Value)
    (h : .hash ∈ flags → conv.pre ≠ []) (rest : List Byte) (args : List Arg) (b : Buf) :
    conversion ((Piece.number flags width conv value h).bytes.tail ++ rest)
        ((Piece.number flags width conv value h).args ++ args) b =
      (Piece.number flags width conv value h).written.bind fun t =>
        (append b t).map fun b => (rest, args, b) := by
  have hbytes : (Piece.number flags width conv value h).bytes.tail ++ rest =
      flags.map Flag.char ++ (width.bytes ++ (value.modifier ++ conv.char :: rest)) := by
    unfold Piece.bytes
    rw [List.tail_cons]
    simp only [List.append_assoc, List.singleton_append]
  have hargs : (Piece.number flags width conv value h).args ++ args =
      width.args ++ (value.arg conv.isSigned :: args) := by
    unfold Piece.args
    rw [List.append_assoc, List.singleton_append]
  rw [hbytes, hargs, conversion_eq flags width b (behind_conv value conv rest)
    (readPrecision_conv value conv rest _) (readModifier_eq value conv rest)
    (convert_number conv value args), output_whole _ _ _ (length_digitsOf conv (written_lt conv value)),
    map_justifiedTo, setFlags_eq]
  simp only [Bool.false_or]
  rfl

theorem conversion_percent (rest : List Byte) (args : List Arg) (b : Buf) :
    conversion (Piece.percent.bytes.tail ++ rest) (Piece.percent.args ++ args) b =
      Piece.percent.written.bind fun t => (append b t).map fun b => (rest, args, b) := by
  have hbehind : Behind (byte '%' :: rest) := ⟨byte '%', rest, rfl, by decide⟩
  have hnodot : readPrecision (byte '%' :: rest) args = some (none, byte '%' :: rest, args) :=
    if_pos fun hdot => absurd (Option.some.inj hdot) (by decide)
  have hconvert : convert (byte '%') none args = some (⟨false, upperPrefix, [byte '%']⟩, args) := rfl
  refine (conversion_eq [] .none b hbehind hnodot rfl hconvert).trans ?_
  rw [output_whole _ _ _ (by decide : [byte '%'].length < 2 ^ 31)]
  rfl

theorem conversion_char (minuses : Nat) (width : Width) (v : BitVec 32) (rest : List Byte)
    (args : List Arg) (b : Buf) :
    conversion ((Piece.char minuses width v).bytes.tail ++ rest)
        ((Piece.char minuses width v).args ++ args) b =
      (Piece.char minuses width v).written.bind fun t => (append b t).map fun b => (rest, args, b) := by
  have hbytes : (Piece.char minuses width v).bytes.tail ++ rest =
      (List.replicate minuses Flag.minus).map Flag.char ++ (width.bytes ++ byte 'c' :: rest) := by
    unfold Piece.bytes
    rw [List.tail_cons]
    simp only [List.append_assoc, List.singleton_append]
  have hargs : (Piece.char minuses width v).args ++ args = width.args ++ (.int v :: args) := by
    unfold Piece.args
    rw [List.append_assoc, List.singleton_append]
  have hchar : BitVec.ofInt 8 v.toInt = v.setWidth 8 := by
    exact BitVec.signExtend_eq_setWidth_of_le v (by decide)
  have hconvert : convert (byte 'c') none (.int v :: args) =
      some (⟨false, upperPrefix, [v.setWidth 8].takeWhile (· ≠ 0#8)⟩, args) := by
    rw [← hchar]
    rfl
  have hlen : ([v.setWidth 8].takeWhile (· ≠ 0#8)).length < 2 ^ 31 := by
    have hle := (List.takeWhile_sublist (· ≠ 0#8) (l := [v.setWidth 8])).length_le
    rw [List.length_singleton] at hle
    omega
  rw [hbytes, hargs, conversion_eq _ width b ⟨byte 'c', rest, rfl, by decide⟩ rfl rfl hconvert,
    output_whole _ _ _ hlen, map_justifiedTo, setFlags_minuses]
  rfl

theorem readPrecision_string (precision : Precision) (rest : List Byte) (args : List Arg) :
    readPrecision (precision.bytes ++ byte 's' :: rest) (precision.args ++ args) =
      precision.read.map fun p => (p, byte 's' :: rest, args) := by
  cases precision with
  | none => rfl
  | star v => rfl
  | number ds =>
    cases ds with
    | nil => rfl
    | cons d ds =>
      have hds : ∀ e ∈ (d :: ds).map Fin.val, e < 10 := by
        intro e he
        obtain ⟨f, -, rfl⟩ := List.mem_map.mp he
        exact f.isLt
      have hnumber := readNumber_eq (r := byte 's' :: rest) (n := 0) hds
        (by intro c hc; cases hc; decide) (by decide)
      have hbytes : (Precision.number (d :: ds)).bytes ++ byte 's' :: rest =
          byte '.' :: (((d :: ds).map Fin.val).map (digit false) ++ byte 's' :: rest) := rfl
      obtain ⟨hdigit, -, -, hstar⟩ := digit_facts d d.isLt
      rw [hbytes]
      unfold readPrecision
      rw [if_neg (by simp), List.tail_cons, if_neg ?_, if_pos ?_, hnumber]
      · have hread : (Precision.number (d :: ds)).read =
            if valueOf 10 ((d :: ds).map Fin.val) 0 < 2 ^ 31 then
              some (some ((valueOf 10 ((d :: ds).map Fin.val) 0 : Nat) : Int)) else none := rfl
        rw [hread]
        split <;> rfl
      · exact hdigit
      · exact fun hhead => hstar (Option.some.inj hhead)

theorem output_cut {s : List Byte} (f : Flags) (width : Int) (p : Option Int)
    (hlen : s.length < 2 ^ 31) :
    output b f width ⟨false, upperPrefix, s⟩ (cutLen (byte 's') p s) =
      ((cutTo s p).bind (justified f width false upperPrefix)).bind (append b) := by
  cases p with
  | none => exact @output_whole b ⟨false, upperPrefix, s⟩ (byte 's') f width hlen
  | some precision =>
    rw [cutLen_some precision hlen]
    unfold cutTo
    dsimp only
    split
    · exact output_negative f width (by omega)
    · rename_i hpos
      rw [output_eq f width (by omega) (Int.min_le_right _ _)]
      dsimp only
      rw [show (min precision (s.length : Int)).toNat = min precision.toNat s.length by omega,
        ← List.take_eq_take_min]
      rfl

theorem conversion_string (minuses : Nat) (width : Width) (precision : Precision) {s : List Byte}
    (h : 0#8 ∉ s) (hlen : s.length < 2 ^ 31) (rest : List Byte) (args : List Arg) (b : Buf) :
    conversion ((Piece.string minuses width precision s h).bytes.tail ++ rest)
        ((Piece.string minuses width precision s h).args ++ args) b =
      (Piece.string minuses width precision s h).written.bind fun t =>
        (append b t).map fun b => (rest, args, b) := by
  have hbytes : (Piece.string minuses width precision s h).bytes.tail ++ rest =
      (List.replicate minuses Flag.minus).map Flag.char ++
        (width.bytes ++ (precision.bytes ++ byte 's' :: rest)) := by
    unfold Piece.bytes
    rw [List.tail_cons]
    simp only [List.append_assoc, List.singleton_append]
  have hargs : (Piece.string minuses width precision s h).args ++ args =
      width.args ++ (precision.args ++ (.ptr (some s) :: args)) := by
    unfold Piece.args
    simp only [List.append_assoc, List.singleton_append]
  have hbehind : Behind (precision.bytes ++ byte 's' :: rest) := by
    cases precision with
    | none => exact ⟨byte 's', rest, rfl, by decide⟩
    | number ds => exact ⟨byte '.', _, rfl, by decide⟩
    | star v => exact ⟨byte '.', _, rfl, by decide⟩
  have hprecision := readPrecision_string precision rest (.ptr (some s) :: args)
  have hwritten : (Piece.string minuses width precision s h).written =
      (precision.read.bind (cutTo s)).bind
        (justifiedTo ⟨decide (0 < minuses), false, false⟩ width false upperPrefix) := rfl
  rw [hbytes, hargs, hwritten]
  cases hread : precision.read with
  | none =>
    rw [hread, Option.map_none] at hprecision
    unfold conversion
    simp only [bind, readFlags_eq _ _ (width_behind width hbehind), Option.bind_some,
      readWidth_eq width _ hbehind]
    split
    · simp only [Option.bind_some, hprecision, Option.bind_none]
    · rfl
  | some p =>
    rw [hread, Option.map_some] at hprecision
    have hconvert : convert (byte 's') none (.ptr (some s) :: args) =
      some (⟨false, upperPrefix, s⟩, args) := rfl
    rw [conversion_eq _ width b hbehind hprecision rfl hconvert, output_cut _ _ p hlen,
      setFlags_minuses, Option.bind_some]
    cases cutTo s p with
    | none => exact ite_self _
    | some t => exact map_justifiedTo _ width false upperPrefix t rest args b

/-! ## The loop -/

/-- The strings of a format's arguments have lengths that are ints. -/
def Piece.Short : Piece → Prop
  | .string _ _ _ s _ => s.length < 2 ^ 31
  | _ => True

/-- One turn for a piece. -/
theorem formfLoop_piece (p : Piece) (hshort : p.Short) (turns : Nat) (rest : List Byte) (args : List Arg)
    (b : Buf) :
    formfLoop (turns + 1) (p.bytes ++ rest) (p.args ++ args) b =
      p.written.bind fun t => (append b t).bind (formfLoop turns rest args) := by
  have hconversion : ∀ fmt, p.bytes = byte '%' :: fmt →
      conversion (p.bytes.tail ++ rest) (p.args ++ args) b =
        (p.written.bind fun t => (append b t).map fun b => (rest, args, b)) →
      formfLoop (turns + 1) (p.bytes ++ rest) (p.args ++ args) b =
        p.written.bind fun t => (append b t).bind (formfLoop turns rest args) := by
    intro fmt hfmt heq
    rw [hfmt, List.tail_cons] at heq
    rw [hfmt, List.cons_append, formfLoop, if_pos rfl, heq, Option.bind_assoc]
    congr 1
    funext t
    rw [Option.bind_map]
    rfl
  cases p with
  | text c hc =>
    show formfLoop (turns + 1) (c :: rest) args b = (append b [c]).bind (formfLoop turns rest args)
    rw [formfLoop, if_neg hc.2, copyChar_eq]
  | percent => exact hconversion _ rfl (conversion_percent rest args b)
  | number flags width conv value h =>
    exact hconversion _ rfl (conversion_number flags width conv value h rest args b)
  | char minuses width v => exact hconversion _ rfl (conversion_char minuses width v rest args b)
  | string minuses width precision s h =>
    exact hconversion _ rfl (conversion_string minuses width precision h hshort rest args b)

/-- What formf writes for all the pieces. -/
def writtenAll : List Piece → Option (List Byte)
  | [] => some []
  | p :: ps => p.written.bind fun t => (writtenAll ps).map (t ++ ·)

theorem formfLoop_eq (ps : List Piece) (hshort : ∀ p ∈ ps, p.Short) {turns : Nat}
    (hturns : ps.length < turns) (b : Buf) :
    formfLoop turns (format ps) (argsOf ps) b =
      (writtenAll ps).bind fun t => (append b t).map Buf.text := by
  induction ps generalizing turns b with
  | nil =>
    cases turns with
    | zero => cases hturns
    | succ turns =>
      rw [writtenAll, Option.bind_some, append_nil]
      rfl
  | cons p ps ih =>
    cases turns with
    | zero => cases hturns
    | succ turns =>
      rw [List.forall_mem_cons] at hshort
      rw [List.length_cons] at hturns
      have hformat : format (p :: ps) = p.bytes ++ format ps := List.flatMap_cons
      have hargs : argsOf (p :: ps) = p.args ++ argsOf ps := List.flatMap_cons
      rw [hformat, hargs, formfLoop_piece p hshort.1, writtenAll, Option.bind_assoc]
      congr 1
      funext t
      rw [Option.bind_map]
      have hrest := @ih hshort.2 turns (by omega)
      rw [funext hrest]
      cases writtenAll ps with
      | none => exact Option.bind_fun_none _
      | some t' =>
        simp only [Option.bind_some, Function.comp]
        rw [← append_append, Option.map_bind]
        rfl

end ups_rules.formatted_text
