-- Formatting (formf.c) and the C standard: what printf writes for a format, and for which formats formf
-- writes the same.
import Ups.Formf

open ups_rules.displayed_ints

namespace ups_rules.formatted_text

/-! ## What printf writes -/

/-- Digits that are not there count for zero, and a negative argument for no precision. -/
def Precision.cut (s : List Byte) : Precision → List Byte
  | .none => s
  | .number ds => s.take (valueOf 10 (ds.map Fin.val) 0)
  | .star v => if v.toInt < 0 then s else s.take v.toInt.toNat

/-- A field: blanks go before or behind it all, zeros behind the sign and the prefix. -/
def field (left zero : Bool) (width : Nat) (sign pre s : List Byte) : List Byte :=
  let n := width - (sign ++ pre ++ s).length
  if left then sign ++ pre ++ s ++ List.replicate n (byte ' ')
  else if zero then sign ++ pre ++ List.replicate n (byte '0') ++ s
  else List.replicate n (byte ' ') ++ (sign ++ pre ++ s)

/-- A negative width is a minus flag and a width. -/
def fieldOf (left zero : Bool) (width : Width) (sign pre s : List Byte) : List Byte :=
  field (left || decide (width.value < 0)) zero width.value.natAbs sign pre s

/-- The sign of a number, and its prefix. -/
def signOf (conv : Conv) (value : Value) : List Byte :=
  if conv.isSigned ∧ value.signed < 0 then [byte '-'] else []

def preOf (flags : List Flag) (conv : Conv) (value : Value) : List Byte :=
  if .hash ∈ flags ∧ value.unsigned ≠ 0 then conv.pre else []

def magnitude (conv : Conv) (value : Value) : Nat :=
  if conv.isSigned then value.signed.natAbs else value.unsigned

/-- What printf writes for a piece, by the C standard. -/
def Piece.printed : Piece → List Byte
  | .text c _ => [c]
  | .percent => [byte '%']
  | .number flags width conv value _ =>
    fieldOf (.minus ∈ flags) (.zero ∈ flags) width (signOf conv value) (preOf flags conv value)
      (digitsOf conv (magnitude conv value))
  | .char minuses width v => fieldOf (0 < minuses) false width [] [] [v.setWidth 8]
  | .string minuses width precision s _ => fieldOf (0 < minuses) false width [] [] (precision.cut s)

def printf (ps : List Piece) : List Byte := ps.flatMap Piece.printed

/-! ## Which pieces are written as printf writes them -/

/-- A negative width does no harm where the field is at least as long. -/
def FitsWidth (width : Width) (body : List Byte) : Prop :=
  0 ≤ width.value ∨ (-width.value ≤ body.length ∧ -2 ^ 31 ≤ width.value - body.length)

/-- Blanks come between a prefix and its number, and are one too many before a minus sign; an unsigned int
gets the sign of an int; and a 0 has a prefix, too. A dot alone is no precision. -/
def Piece.Good : Piece → Prop
  | .text .. => True
  | .percent => True
  | .number flags width conv value _ =>
    FitsWidth width
        (signOf conv value ++ preOf flags conv value ++ digitsOf conv (magnitude conv value)) ∧
      (signOf conv value ≠ [] → .minus ∈ flags ∨ .zero ∈ flags ∨
        width.value ≤ (digitsOf conv (magnitude conv value)).length) ∧
      (∀ v, value = .int v → conv.isSigned = false → v.toNat < 2 ^ 31) ∧
      (.hash ∈ flags →
        (value.unsigned ≠ 0 ∧ (.minus ∈ flags ∨ .zero ∈ flags ∨
          width.value ≤ (conv.pre ++ digitsOf conv (magnitude conv value)).length)) ∨
        (value.unsigned = 0 ∧ conv = .o ∧ .zero ∈ flags ∧ .minus ∉ flags ∧ 2 ≤ width.value))
  | .char _ width v => v.setWidth 8 ≠ 0#8 ∧ FitsWidth width [v.setWidth 8]
  | .string _ width precision s _ =>
    s.length < 2 ^ 31 ∧ FitsWidth width (precision.cut s) ∧
      match precision with
      | .none => True
      | .number [] => s = List.replicate s.length (byte ' ') ∧ s.length ≤ width.value
      | .number ds => valueOf 10 (ds.map Fin.val) 0 < 2 ^ 31
      | .star v => 0 ≤ v.toInt

/-- So large a buffer can be had by doubling. -/
def Fits (buffer_size n : Nat) : Prop := ∃ k, n < buffer_size * 2 ^ k ∧ buffer_size * 2 ^ k ≤ 2 ^ 31

/-- No asterisk's argument is negative. -/
def Piece.Plain : Piece → Prop
  | .number _ width _ _ _ => 0 ≤ width.value
  | .char _ width _ => 0 ≤ width.value
  | .string _ width _ _ _ => 0 ≤ width.value
  | _ => True

variable {left zero alternate is_negative : Bool} {width : Width} {sign pre s t : List Byte}

theorem length_field (left zero : Bool) (n : Nat) (sign pre s : List Byte) :
    (field left zero n sign pre s).length = max n (sign ++ pre ++ s).length := by
  unfold field
  split_ifs <;> simp only [List.length_append, List.length_replicate] <;> omega

/-- The sign and the prefix may not change places, and no blanks may be counted wrongly. -/
def Ordered (width : Width) (sign pre s : List Byte) : Prop :=
  (sign = [] ∨ pre = []) ∧ ((sign = [] ∧ pre = []) ∨ width.value ≤ (pre ++ s).length)

theorem justifiedTo_eq {alternatePrefix : List Byte}
    (hsign : (if is_negative then [byte '-'] else []) = sign)
    (hpre : (if alternate then alternatePrefix else []) = pre)
    (hfits : FitsWidth width (sign ++ pre ++ s))
    (hlen : (fieldOf left zero width sign pre s).length < 2 ^ 31)
    (hright : left = true ∨ zero = true ∨ Ordered width sign pre s) :
    justifiedTo ⟨left, zero, alternate⟩ width is_negative alternatePrefix s =
      some (fieldOf left zero width sign pre s) := by
  unfold fieldOf at hlen ⊢
  rw [length_field] at hlen
  unfold justifiedTo justified
  dsimp only
  rw [hsign, hpre, if_pos (by omega)]
  unfold FitsWidth at hfits
  rw [if_neg (by omega)]
  refine congrArg some ?_
  unfold field
  dsimp only
  have hswap : (sign = [] ∨ pre = []) → pre ++ (sign ++ s) = sign ++ pre ++ s := by
    rintro (rfl | rfl)
    · rfl
    · rw [List.nil_append, List.append_nil]
  rcases Int.lt_or_le width.value 0 with hneg | hpos
  · rw [decide_eq_true hneg, Bool.or_true, if_pos rfl,
      show (width.value - (sign ++ pre ++ s).length).toNat = 0 by omega,
      show (width.value - (pre ++ s).length).toNat = 0 by omega,
      show width.value.natAbs - (sign ++ pre ++ s).length = 0 by omega]
    simp only [List.replicate_zero, List.append_nil]
    rcases hright with rfl | rfl | ⟨hone, -⟩
    · rfl
    · rw [if_pos rfl, ite_self]
    · rw [hswap hone, ite_self, ite_self]
  · rw [decide_eq_false (by omega), Bool.or_false,
      show width.value.natAbs - (sign ++ pre ++ s).length =
        (width.value - (sign ++ pre ++ s).length).toNat by omega]
    rcases hright with rfl | rfl | ⟨hone, hnone | hle⟩
    · rfl
    · rw [if_pos rfl, if_pos rfl]
    · obtain ⟨rfl, rfl⟩ := hnone
      rfl
    · rw [show (width.value - (pre ++ s).length).toNat = 0 by omega,
        show (width.value - (sign ++ pre ++ s).length).toNat = 0 by
          rw [List.append_assoc, List.length_append]
          omega]
      simp only [List.replicate_zero, List.append_nil, List.nil_append]
      rw [hswap hone]

/-! ## Good pieces -/

theorem alternatePrefix_eq {conv : Conv} (h : conv.pre ≠ []) :
    conv.alternatePrefix = conv.pre ∧ conv.isSigned = false := by
  cases conv with
  | d => exact absurd rfl h
  | i => exact absurd rfl h
  | u => exact absurd rfl h
  | o => exact ⟨rfl, rfl⟩
  | x => exact ⟨rfl, rfl⟩
  | X => exact ⟨rfl, rfl⟩

theorem signOf_eq (conv : Conv) (value : Value) :
    (if (conv.isSigned && decide (value.signed < 0)) = true then [byte '-'] else []) =
      signOf conv value := by
  unfold signOf
  simp only [Bool.and_eq_true, decide_eq_true_iff]

/-- The sign is the difference between what is passed and what is printed. -/
theorem widened_eq {value : Value} (h : ∀ v, value = .int v → v.toNat < 2 ^ 31) :
    value.widened = value.unsigned := by
  cases value with
  | short v => rfl
  | int v =>
    have hlt := h v rfl
    show (v.signExtend 64).toNat = v.toNat
    rw [BitVec.signExtend_eq_setWidth_of_msb_false (BitVec.msb_eq_false_iff_two_mul_lt.mpr (by omega)),
      BitVec.toNat_setWidth]
    omega
  | long v => rfl

theorem written_magnitude {conv : Conv} {value : Value}
    (h : ∀ v, value = .int v → conv.isSigned = false → v.toNat < 2 ^ 31) :
    (if conv.isSigned then value.signed.natAbs else value.widened) = magnitude conv value := by
  unfold magnitude
  cases hsigned : conv.isSigned with
  | true => rfl
  | false => exact widened_eq fun v hv => h v hv hsigned

theorem digitsOf_zero (conv : Conv) : digitsOf conv 0 = [byte '0'] := by
  unfold digitsOf
  rw [digits_of_lt (by have hbase := eight_le_base conv; omega)]
  rfl

/-- For 0 in octal, the prefix can be one of the zeros. -/
theorem octal_zero {flags : List Flag} {value : Value} (h : .hash ∈ flags → Conv.o.pre ≠ [])
    (hhash : .hash ∈ flags) (hzero : .zero ∈ flags) (hminus : .minus ∉ flags) (hvalue : value.unsigned = 0)
    (hwide : 2 ≤ width.value) (hwidened : value.widened = value.unsigned)
    (hint : width.value < 2 ^ 31) :
    (Piece.number flags width .o value h).written =
      some (Piece.number flags width .o value h).printed := by
  have hdigits := digitsOf_zero .o
  have hsign : signOf .o value = [] := rfl
  have hpre : preOf flags .o value = [] := if_neg fun hne => hne.2 hvalue
  have hwritten : (Piece.number flags width .o value h).written =
      justifiedTo ⟨false, true, true⟩ width false [byte '0'] [byte '0'] := by
    show justifiedTo ⟨decide (.minus ∈ flags), decide (.zero ∈ flags), decide (.hash ∈ flags)⟩ width _ _
      (digitsOf .o value.widened) = _
    rw [decide_eq_false hminus, decide_eq_true hzero, decide_eq_true hhash, hwidened, hvalue, hdigits]
    rfl
  have hprinted : (Piece.number flags width .o value h).printed =
      fieldOf false true width [] [] [byte '0'] := by
    show fieldOf (decide (.minus ∈ flags)) (decide (.zero ∈ flags)) width _ _
      (digitsOf .o value.unsigned) = _
    rw [decide_eq_false hminus, decide_eq_true hzero, hvalue, hdigits, hsign, hpre]
  rw [hwritten, hprinted]
  unfold justifiedTo justified fieldOf field
  simp only [Bool.false_eq_true, if_false, if_true, List.nil_append, List.length_cons, List.length_nil,
    List.length_append, decide_eq_false (show ¬width.value < 0 by omega), Bool.or_false]
  rw [if_pos hint, if_neg (by omega),
    show width.value.natAbs - (0 + 1) = (width.value - ((0 + 1 + (0 + 1) : Nat) : Int)).toNat + 1 by omega,
    List.replicate_succ]
  rfl

theorem written_number {flags : List Flag} {conv : Conv} {value : Value}
    (h : .hash ∈ flags → conv.pre ≠ [])
    (hgood : (Piece.number flags width conv value h).Good)
    (hlen : (Piece.number flags width conv value h).printed.length < 2 ^ 31) :
    (Piece.number flags width conv value h).written =
      some (Piece.number flags width conv value h).printed := by
  obtain ⟨hfits, hneg, hint, hhash⟩ := hgood
  by_cases hspecial : .hash ∈ flags ∧ value.unsigned = 0
  · obtain ⟨hmem, hvalue⟩ := hspecial
    obtain ⟨hne, -⟩ | ⟨-, rfl, hzero, hminus, hwide⟩ := hhash hmem
    · exact absurd hvalue hne
    · refine octal_zero h hmem hzero hminus hvalue hwide (widened_eq fun v hv => hint v hv rfl) ?_
      unfold Piece.printed fieldOf at hlen
      rw [length_field] at hlen
      omega
  · have hpre : (if decide (.hash ∈ flags) = true then conv.alternatePrefix else []) =
        preOf flags conv value := by
      unfold preOf
      by_cases hmem : .hash ∈ flags
      · rw [if_pos (decide_eq_true hmem), if_pos ⟨hmem, fun hvalue => hspecial ⟨hmem, hvalue⟩⟩,
          (alternatePrefix_eq (h hmem)).1]
      · rw [if_neg (by simpa using hmem), if_neg fun hand => hmem hand.1]
    rw [Piece.written]
    rw [written_magnitude hint]
    refine justifiedTo_eq (signOf_eq conv value) hpre hfits hlen ?_
    simp only [decide_eq_true_iff]
    by_cases hminus : .minus ∈ flags
    · exact Or.inl hminus
    by_cases hzero : .zero ∈ flags
    · exact Or.inr (Or.inl hzero)
    refine Or.inr (Or.inr ?_)
    unfold Ordered
    by_cases hmem : .hash ∈ flags
    · have hsign : signOf conv value = [] := by
        unfold signOf
        rw [(alternatePrefix_eq (h hmem)).2]
        rfl
      obtain ⟨hne, hle⟩ | ⟨-, -, hz, -⟩ := hhash hmem
      · have hpre' : preOf flags conv value = conv.pre := if_pos ⟨hmem, hne⟩
        rw [hpre']
        exact ⟨Or.inl hsign, Or.inr ((hle.resolve_left hminus).resolve_left hzero)⟩
      · exact absurd hz hzero
    · have hpre' : preOf flags conv value = [] := if_neg fun hand => hmem hand.1
      refine ⟨Or.inr hpre', ?_⟩
      by_cases hsign : signOf conv value = []
      · exact Or.inl ⟨hsign, hpre'⟩
      · rw [hpre', List.nil_append]
        exact Or.inr (((hneg hsign).resolve_left hminus).resolve_left hzero)

/-- A good precision cuts the string as printf does, or there is nothing but blanks. -/
theorem given_of_good {precision : Precision}
    (h : match precision with
      | .none => True
      | .number [] => s = List.replicate s.length (byte ' ') ∧ s.length ≤ width.value
      | .number ds => valueOf 10 (ds.map Fin.val) 0 < 2 ^ 31
      | .star v => 0 ≤ v.toInt) :
    precision.given s = some (precision.cut s) ∨
      (precision = .number [] ∧ s = List.replicate s.length (byte ' ') ∧ s.length ≤ width.value) := by
  cases precision with
  | none => exact Or.inl rfl
  | number ds =>
    cases ds with
    | nil => exact Or.inr ⟨rfl, h⟩
    | cons d ds =>
      dsimp only at h
      refine Or.inl ?_
      have hread : (Precision.number (d :: ds)).read =
          some (some ((valueOf 10 ((d :: ds).map Fin.val) 0 : Nat) : Int)) := if_pos h
      unfold Precision.given
      rw [hread, Option.bind_some]
      dsimp only [cutTo]
      rw [if_neg (by omega), Int.toNat_natCast]
      rfl
  | star v =>
    dsimp only at h
    refine Or.inl ?_
    show (if v.toInt < 0 then none else some (s.take v.toInt.toNat)) =
      some (if v.toInt < 0 then s else s.take v.toInt.toNat)
    rw [if_neg (by omega), if_neg (by omega)]

theorem field_blanks (left : Bool) {n k : Nat} (hle : k ≤ n) :
    field left false n [] [] (List.replicate k (byte ' ')) = List.replicate n (byte ' ') := by
  unfold field
  simp only [List.nil_append, List.length_replicate, Bool.false_eq_true, if_false]
  split
  · rw [List.replicate_append_replicate]
    congr 1
    omega
  · rw [List.replicate_append_replicate]
    congr 1
    omega

theorem ordered_nil (width : Width) (s : List Byte) : Ordered width [] [] s := ⟨.inl rfl, .inl ⟨rfl, rfl⟩⟩

theorem written_string {minuses : Nat} {precision : Precision} (h : 0#8 ∉ s)
    (hgood : (Piece.string minuses width precision s h).Good)
    (hlen : (Piece.string minuses width precision s h).printed.length < 2 ^ 31) :
    (Piece.string minuses width precision s h).written =
      some (Piece.string minuses width precision s h).printed := by
  obtain ⟨-, hfits, hprecision⟩ := hgood
  rw [Piece.written]
  obtain hgiven | ⟨rfl, hblanks, hle⟩ := given_of_good hprecision
  · rw [hgiven, Option.bind_some]
    exact justifiedTo_eq rfl rfl hfits hlen (Or.inr (Or.inr (ordered_nil width _)))
  · have hgiven : (Precision.number []).given s = some s := rfl
    have hprinted : (Piece.string minuses width (.number []) s h).printed =
        fieldOf (decide (0 < minuses)) false width [] [] [] := rfl
    have hfields : fieldOf (decide (0 < minuses)) false width [] [] s =
        fieldOf (decide (0 < minuses)) false width [] [] [] := by
      unfold fieldOf
      rw [hblanks, field_blanks _ (by omega)]
      exact (field_blanks (k := 0) _ (Nat.zero_le _)).symm
    rw [hprinted] at hlen ⊢
    rw [hgiven, Option.bind_some, ← hfields]
    rw [← hfields] at hlen
    exact justifiedTo_eq rfl rfl (Or.inl (by omega)) hlen (Or.inr (Or.inr (ordered_nil width _)))

theorem written_of_good {p : Piece} (hgood : p.Good) (hlen : p.printed.length < 2 ^ 31) :
    p.written = some p.printed := by
  cases p with
  | text c h => rfl
  | percent => rfl
  | number flags width conv value h => exact written_number h hgood hlen
  | char minuses width v =>
    obtain ⟨hchar, hfits⟩ := hgood
    have hs : [v.setWidth 8].takeWhile (· ≠ 0#8) = [v.setWidth 8] := by
      rw [List.takeWhile_cons_of_pos (by simpa using hchar), List.takeWhile_nil]
    rw [Piece.written]
    rw [hs]
    exact justifiedTo_eq rfl rfl hfits hlen (Or.inr (Or.inr (ordered_nil width _)))
  | string minuses width precision s h => exact written_string h hgood hlen

/-! ## Bad pieces -/

/-- What is around the digits or the characters that are written. -/
def Around (sign pre before behind : List Byte) : Prop :=
  (∀ c ∈ before, c ∈ sign ∨ c ∈ pre ∨ c = byte ' ' ∨ c = byte '0') ∧ ∀ c ∈ behind, c = byte ' '

theorem field_around (left zero : Bool) (n : Nat) (sign pre s : List Byte) :
    ∃ before behind, field left zero n sign pre s = before ++ s ++ behind ∧
      Around sign pre before behind := by
  unfold field
  dsimp only
  generalize n - (sign ++ pre ++ s).length = k
  split_ifs
  · refine ⟨sign ++ pre, List.replicate k (byte ' '), rfl, fun c hc => ?_, fun c hc => ?_⟩
    · rw [List.mem_append] at hc
      tauto
    · exact List.eq_of_mem_replicate hc
  · refine ⟨sign ++ pre ++ List.replicate k (byte '0'), [], (List.append_nil _).symm, fun c hc => ?_,
      fun c hc => absurd hc List.not_mem_nil⟩
    rw [List.mem_append, List.mem_append] at hc
    have hpad : c ∈ List.replicate k (byte '0') → c = byte '0' := List.eq_of_mem_replicate
    tauto
  · refine ⟨List.replicate k (byte ' ') ++ (sign ++ pre), [], by simp only [List.append_assoc,
      List.append_nil], fun c hc => ?_, fun c hc => absurd hc List.not_mem_nil⟩
    rw [List.mem_append, List.mem_append] at hc
    have hpad : c ∈ List.replicate k (byte ' ') → c = byte ' ' := List.eq_of_mem_replicate
    tauto

theorem justifiedTo_around {f : Flags} {alternatePrefix : List Byte}
    (h : justifiedTo f width is_negative alternatePrefix s = some t) :
    ∃ before behind, t = before ++ s ++ behind ∧
      Around (if is_negative then [byte '-'] else []) (if f.alternate_form then alternatePrefix else [])
        before behind ∧
      width.value ≤ t.length ∧
      ((if is_negative then [byte '-'] else []) ++
        (if f.alternate_form then alternatePrefix else []) ++ s).length ≤ t.length := by
  unfold justifiedTo justified at h
  dsimp only at h
  generalize (if is_negative = true then [byte '-'] else []) = sign at h ⊢
  generalize (if f.alternate_form = true then alternatePrefix else []) = pre at h ⊢
  split at h
  · split at h
    · cases h
    · cases h
      generalize hblanks : (width.value - (sign ++ pre ++ s).length).toNat = k
      generalize hright : (width.value - (pre ++ s).length).toNat = m
      rw [List.length_append, List.length_append] at hblanks
      rw [List.length_append] at hright
      split_ifs
      · refine ⟨sign ++ pre, List.replicate k (byte ' '), rfl, ⟨fun c hc => ?_, fun c hc => ?_⟩, ?_, ?_⟩
        · rw [List.mem_append] at hc
          tauto
        · exact List.eq_of_mem_replicate hc
        · simp only [List.length_append, List.length_replicate]
          omega
        · simp only [List.length_append, List.length_replicate]
          omega
      · refine ⟨sign ++ pre ++ List.replicate k (byte '0'), [], (List.append_nil _).symm,
          ⟨fun c hc => ?_, fun c hc => absurd hc List.not_mem_nil⟩, ?_, ?_⟩
        · rw [List.mem_append, List.mem_append] at hc
          have hpad : c ∈ List.replicate k (byte '0') → c = byte '0' := List.eq_of_mem_replicate
          tauto
        · simp only [List.length_append, List.length_replicate]
          omega
        · simp only [List.length_append, List.length_replicate]
          omega
      · refine ⟨pre ++ List.replicate m (byte ' ') ++ sign, [], by simp only [List.append_assoc,
          List.append_nil], ⟨fun c hc => ?_, fun c hc => absurd hc List.not_mem_nil⟩, ?_, ?_⟩
        · rw [List.mem_append, List.mem_append] at hc
          have hpad : c ∈ List.replicate m (byte ' ') → c = byte ' ' := List.eq_of_mem_replicate
          tauto
        · simp only [List.length_append, List.length_replicate]
          omega
        · simp only [List.length_append, List.length_replicate]
          omega
  · cases h

/-- The value of a digit; a blank, a sign or an x has none. -/
def digitIn (c : Byte) : Option Nat :=
  if byte '0' ≤ c ∧ c ≤ byte '9' then some (c - byte '0').toNat
  else if byte 'a' ≤ c ∧ c ≤ byte 'f' then some ((c - byte 'a').toNat + 10)
  else if byte 'A' ≤ c ∧ c ≤ byte 'F' then some ((c - byte 'A').toNat + 10)
  else none

/-- The number that the digits in a text stand for. -/
def valueIn (base : Nat) (t : List Byte) : Nat := valueOf base (t.filterMap digitIn) 0

theorem valueOf_zeros (base : Nat) {ds : List Nat} (h : ∀ d ∈ ds, d = 0) : valueOf base ds 0 = 0 := by
  induction ds with
  | nil => rfl
  | cons d ds ih =>
    rw [List.forall_mem_cons] at h
    rw [h.1]
    show valueOf base ds (0 * base + 0) = 0
    rw [Nat.zero_mul]
    exact ih h.2

/-- What is around the digits makes no difference. -/
theorem valueIn_around (base : Nat) {before behind s : List Byte}
    (hbefore : ∀ c ∈ before, digitIn c = none ∨ digitIn c = some 0)
    (hbehind : ∀ c ∈ behind, digitIn c = none) :
    valueIn base (before ++ s ++ behind) = valueIn base s := by
  have hnil : behind.filterMap digitIn = [] := List.filterMap_eq_nil_iff.mpr hbehind
  have hzeros : valueOf base (before.filterMap digitIn) 0 = 0 := by
    refine valueOf_zeros base fun d hd => ?_
    obtain ⟨c, hc, heq⟩ := List.mem_filterMap.mp hd
    rcases hbefore c hc with h | h
    · rw [h] at heq
      cases heq
    · rw [h] at heq
      exact (Option.some.inj heq).symm
  unfold valueIn
  rw [List.filterMap_append, List.filterMap_append, hnil, List.append_nil]
  unfold valueOf at hzeros ⊢
  rw [List.foldl_append, hzeros]

theorem digitIn_digit : ∀ up : Bool, ∀ d < 16, digitIn (digit up d) = some d := by
  decide

theorem base_le (conv : Conv) : conv.base ≤ 16 := by
  cases conv <;> decide

theorem valueIn_digitsOf (conv : Conv) (n : Nat) : valueIn conv.base (digitsOf conv n) = n := by
  have hbase := eight_le_base conv
  have hdigits : (digitsOf conv n).filterMap digitIn = digits conv.base n := by
    unfold digitsOf
    rw [List.filterMap_map, List.filterMap_congr (g := some), List.filterMap_some]
    intro d hd
    have hlt := digits_lt (by omega) d hd
    have hle := base_le conv
    exact digitIn_digit conv.upper d (by omega)
  unfold valueIn
  rw [hdigits]
  exact valueOf_digits (by omega) n

theorem length_digits_le {base m n : Nat} (hbase : 2 ≤ base) (h : m ≤ n) :
    (digits base m).length ≤ (digits base n).length := by
  induction n using Nat.strongRecOn generalizing m with
  | ind n ih =>
    rcases Nat.lt_or_ge m base with hm | hm
    · rw [digits_of_lt hm, List.length_singleton]
      rcases Nat.lt_or_ge n base with hn | hn
      · rw [digits_of_lt hn, List.length_singleton]
      · rw [digits_of_ge hbase hn, List.length_append, List.length_singleton]
        exact Nat.le_add_left 1 _
    · have hn : base ≤ n := Nat.le_trans hm h
      rw [digits_of_ge hbase hm, digits_of_ge hbase hn, List.length_append, List.length_append]
      exact Nat.add_le_add_right (ih _ (div_lt hbase hn) (Nat.div_le_div_right h)) 1

theorem unsigned_le_widened (value : Value) : value.unsigned ≤ value.widened := by
  cases value with
  | short v => exact Nat.le_refl _
  | int v =>
    have hv := v.isLt
    show v.toNat ≤ (v.signExtend 64).toNat
    rw [BitVec.toNat_signExtend, BitVec.toNat_setWidth]
    omega
  | long v => exact Nat.le_refl _

/-- Only an int below 2^31 passes as an unsigned int. -/
theorem lt_of_widened {v : BitVec 32} (h : (Value.int v).widened = (Value.int v).unsigned) :
    v.toNat < 2 ^ 31 := by
  have hv := v.isLt
  have heq : (v.signExtend 64).toNat = v.toNat := h
  rw [BitVec.toNat_signExtend, BitVec.toNat_setWidth, Nat.mod_eq_of_lt (by omega)] at heq
  by_contra hge
  rw [if_pos (BitVec.msb_eq_true_iff_two_mul_ge.mpr (by omega))] at heq
  omega

theorem magnitude_le (conv : Conv) (value : Value) :
    (digitsOf conv (magnitude conv value)).length ≤
      (digitsOf conv (if conv.isSigned then value.signed.natAbs else value.widened)).length := by
  have hbase := eight_le_base conv
  unfold digitsOf magnitude
  rw [List.length_map, List.length_map]
  refine length_digits_le (by omega) ?_
  split
  · exact Nat.le_refl _
  · exact unsigned_le_widened value

theorem length_preOf_le {flags : List Flag} {conv : Conv} (value : Value)
    (h : .hash ∈ flags → conv.pre ≠ []) :
    (preOf flags conv value).length ≤
      (if decide (Flag.hash ∈ flags) = true then conv.alternatePrefix else []).length := by
  unfold preOf
  split
  · rename_i hand
    rw [if_pos (decide_eq_true hand.1), (alternatePrefix_eq (h hand.1)).1]
  · exact Nat.zero_le _

theorem length_fieldOf (left zero : Bool) (sign pre s : List Byte) (h : 0 ≤ width.value) :
    ((fieldOf left zero width sign pre s).length : Int) = max width.value (sign ++ pre ++ s).length := by
  unfold fieldOf
  rw [length_field]
  omega

/-- The precisions that are taken. -/
theorem given_digits {ds : List (Fin 10)} (hds : ds ≠ [])
    (h : (Precision.number ds).given s = some t) :
    t = s.take (valueOf 10 (ds.map Fin.val) 0) ∧ valueOf 10 (ds.map Fin.val) 0 < 2 ^ 31 := by
  cases ds with
  | nil => exact absurd rfl hds
  | cons d ds =>
    have hread : (Precision.number (d :: ds)).read =
        if valueOf 10 ((d :: ds).map Fin.val) 0 < 2 ^ 31 then
          some (some ((valueOf 10 ((d :: ds).map Fin.val) 0 : Nat) : Int)) else none := rfl
    unfold Precision.given at h
    rw [hread] at h
    split at h
    · rename_i hlt
      dsimp only [Option.bind_some, cutTo] at h
      rw [if_neg (by omega), Int.toNat_natCast] at h
      exact ⟨(Option.some.inj h).symm, hlt⟩
    · cases h

theorem given_star {v : BitVec 32} (h : (Precision.star v).given s = some t) :
    t = s.take v.toInt.toNat ∧ 0 ≤ v.toInt := by
  have hcut : (if v.toInt < 0 then none else some (s.take v.toInt.toNat)) = some t := h
  split at hcut
  · cases hcut
  · exact ⟨(Option.some.inj hcut).symm, by omega⟩

theorem length_cut_le {precision : Precision} (h : precision.given s = some t) :
    (precision.cut s).length ≤ t.length := by
  cases precision with
  | none =>
    cases h
    exact Nat.le_refl _
  | number ds =>
    by_cases hds : ds = []
    · rw [hds]
      exact Nat.zero_le _
    · rw [(given_digits hds h).1]
      exact Nat.le_refl _
  | star v =>
    obtain ⟨rfl, hv⟩ := given_star h
    rw [Precision.cut, if_neg (by omega)]

/-- A piece is never written shorter than it is printed. -/
theorem length_printed_le {p : Piece} (hplain : p.Plain)
    (hchar : ∀ minuses width v, p = .char minuses width v → v.setWidth 8 ≠ 0#8)
    (h : p.written = some t) : p.printed.length ≤ t.length := by
  cases p with
  | text c hc =>
    cases h
    exact Nat.le_refl _
  | percent =>
    cases h
    exact Nat.le_refl _
  | number flags width conv value hpre =>
    obtain ⟨before, behind, -, -, hwidth, hbody⟩ := justifiedTo_around h
    have hlen := length_fieldOf (.minus ∈ flags) (.zero ∈ flags) (signOf conv value)
      (preOf flags conv value) (digitsOf conv (magnitude conv value)) hplain
    have hdigits := magnitude_le conv value
    have hle := length_preOf_le value hpre
    rw [signOf_eq] at hbody
    rw [Piece.printed]
    simp only [List.length_append] at hlen hbody
    omega
  | char minuses width v =>
    obtain ⟨before, behind, -, -, hwidth, hbody⟩ := justifiedTo_around h
    have hlen := length_fieldOf (0 < minuses) false [] [] [v.setWidth 8] hplain
    rw [List.takeWhile_cons_of_pos (by simpa using hchar minuses width v rfl)] at hbody
    rw [Piece.printed]
    simp only [List.length_append, List.length_cons, List.length_nil] at hlen hbody
    omega
  | string minuses width precision s hs =>
    rw [Piece.written] at h
    obtain ⟨t', hgiven, ht⟩ := Option.bind_eq_some_iff.mp h
    obtain ⟨before, behind, -, -, hwidth, hbody⟩ := justifiedTo_around ht
    have hlen := length_fieldOf (0 < minuses) false [] [] (precision.cut s) hplain
    have hcut := length_cut_le hgiven
    rw [Piece.printed]
    simp only [List.length_append, List.length_nil] at hlen hbody
    omega

/-! ## Only good pieces are written as they are printed -/

/-- The text of a right-justified field that is padded with blanks. -/
theorem justifiedTo_right {alternatePrefix : List Byte}
    (h : justifiedTo ⟨false, false, alternate⟩ width is_negative alternatePrefix s = some t)
    (hsign : (if is_negative then [byte '-'] else []) = sign)
    (hpre : (if alternate then alternatePrefix else []) = pre) :
    t = pre ++ List.replicate (width.value - (pre ++ s).length).toNat (byte ' ') ++ (sign ++ s) := by
  unfold justifiedTo justified at h
  dsimp only at h
  rw [hsign, hpre] at h
  split at h
  · split at h
    · cases h
    · exact (Option.some.inj h).symm
  · cases h

theorem around_digitIn {sign pre before behind : List Byte} (h : Around sign pre before behind)
    (hsign : ∀ c ∈ sign, digitIn c = none) (hpre : ∀ c ∈ pre, digitIn c = none ∨ digitIn c = some 0) :
    (∀ c ∈ before, digitIn c = none ∨ digitIn c = some 0) ∧ ∀ c ∈ behind, digitIn c = none := by
  refine ⟨fun c hc => ?_, fun c hc => ?_⟩
  · rcases h.1 c hc with hmem | hmem | rfl | rfl
    · exact Or.inl (hsign c hmem)
    · exact hpre c hmem
    · exact Or.inl (by decide)
    · exact Or.inr (by decide)
  · rw [h.2 c hc]
    decide

theorem prefix_digitIn (conv : Conv) : (∀ c ∈ conv.pre, digitIn c = none ∨ digitIn c = some 0) ∧
    ∀ c ∈ conv.alternatePrefix, digitIn c = none ∨ digitIn c = some 0 := by
  have hall (l : List Byte)
      (h : l.all (fun c => decide (digitIn c = none ∨ digitIn c = some 0)) = true) :
      ∀ c ∈ l, digitIn c = none ∨ digitIn c = some 0 := fun c hc =>
    of_decide_eq_true (List.all_eq_true.1 h c hc)
  cases conv <;> exact ⟨hall _ (by decide), hall _ (by decide)⟩

theorem digitIn_sign (given : Prop) [Decidable given] : ∀ c ∈ (if given then [byte '-'] else []),
    digitIn c = none := by
  split
  · exact List.forall_mem_singleton.2 (by decide)
  · exact List.forall_mem_nil _

/-- The number that is written is the number that is printed. -/
theorem magnitude_of_written {flags : List Flag} {conv : Conv} {value : Value}
    {h : .hash ∈ flags → conv.pre ≠ []}
    (hwritten : (Piece.number flags width conv value h).written =
      some (Piece.number flags width conv value h).printed) :
    (if conv.isSigned then value.signed.natAbs else value.widened) = magnitude conv value := by
  obtain ⟨before, behind, heq, haround, -, -⟩ := justifiedTo_around hwritten
  have hcode : ∀ c ∈ (if decide (.hash ∈ flags) = true then conv.alternatePrefix else []),
      digitIn c = none ∨ digitIn c = some 0 := by
    split
    · exact (prefix_digitIn conv).2
    · exact fun c hc => absurd hc List.not_mem_nil
  have hpre : ∀ c ∈ preOf flags conv value, digitIn c = none ∨ digitIn c = some 0 := by
    unfold preOf
    split
    · exact (prefix_digitIn conv).1
    · exact fun c hc => absurd hc List.not_mem_nil
  obtain ⟨hbefore, hbehind⟩ := around_digitIn haround (digitIn_sign _) hcode
  obtain ⟨before', behind', heq', haround'⟩ := field_around
    (decide (.minus ∈ flags) || decide (width.value < 0)) (decide (.zero ∈ flags)) width.value.natAbs
    (signOf conv value) (preOf flags conv value) (digitsOf conv (magnitude conv value))
  obtain ⟨hbefore', hbehind'⟩ := around_digitIn haround' (digitIn_sign _) hpre
  have hvalue := congrArg (valueIn conv.base) (heq.symm.trans heq')
  rw [valueIn_around _ hbefore hbehind, valueIn_around _ hbefore' hbehind', valueIn_digitsOf,
    valueIn_digitsOf] at hvalue
  exact hvalue

theorem justifiedTo_mem {f : Flags} {alternatePrefix : List Byte}
    (h : justifiedTo f width is_negative alternatePrefix s = some t) {c : Byte}
    (hc : c ∈ (if f.alternate_form then alternatePrefix else [])) : c ∈ t := by
  unfold justifiedTo justified at h
  dsimp only at h
  generalize (if is_negative = true then [byte '-'] else []) = sign at h
  generalize (if f.alternate_form = true then alternatePrefix else []) = pre at h hc
  split at h
  · split at h
    · cases h
    · cases h
      split_ifs <;> simp only [List.mem_append] <;> tauto
  · cases h

/-- How many zeros there are, unless the field is padded with zeros. -/
theorem count_field {left zero : Bool} (n : Nat) (sign pre s : List Byte)
    (h : left = true ∨ zero = false) :
    (field left zero n sign pre s).count (byte '0') = (sign ++ pre ++ s).count (byte '0') := by
  unfold field
  dsimp only
  split
  · rw [List.count_append, List.count_replicate]
    rfl
  · rename_i hleft
    rw [if_neg (by rw [h.resolve_left hleft]; decide), List.count_append, List.count_replicate]
    exact Nat.zero_add _

theorem count_justifiedTo {alternatePrefix : List Byte} {left zero : Bool}
    (h : justifiedTo ⟨left, zero, alternate⟩ width is_negative alternatePrefix s = some t)
    (hsign : (if is_negative then [byte '-'] else []) = sign)
    (hpre : (if alternate then alternatePrefix else []) = pre) (hpad : left = true ∨ zero = false) :
    t.count (byte '0') = (sign ++ pre ++ s).count (byte '0') := by
  unfold justifiedTo justified at h
  dsimp only at h
  rw [hsign, hpre] at h
  have hblanks : ∀ k, (List.replicate k (byte ' ')).count (byte '0') = 0 := by
    intro k
    rw [List.count_replicate]
    rfl
  split at h
  · split at h
    · cases h
    · rw [← Option.some.inj h]
      split
      · rw [List.count_append, hblanks, Nat.add_zero]
      · rename_i hleft
        rw [if_neg (by rw [hpad.resolve_left hleft]; decide)]
        simp only [List.count_append, hblanks]
        omega
  · cases h

variable {flags : List Flag} {conv : Conv} {value : Value} {h : Flag.hash ∈ flags → conv.pre ≠ []}

theorem sign_of_written (hwide : 0 ≤ width.value)
    (hwritten : (Piece.number flags width conv value h).written =
      some (Piece.number flags width conv value h).printed)
    (hsign : signOf conv value ≠ []) (hminus : .minus ∉ flags) (hzero : .zero ∉ flags) :
    width.value ≤ (digitsOf conv (magnitude conv value)).length := by
  have hone : signOf conv value = [byte '-'] := by
    unfold signOf at hsign ⊢
    split
    · rfl
    · rename_i hnot
      rw [if_neg hnot] at hsign
      exact absurd rfl hsign
  have hhash : .hash ∉ flags := by
    intro hmem
    unfold signOf at hsign
    rw [(alternatePrefix_eq (h hmem)).2] at hsign
    exact hsign rfl
  have hmagnitude := magnitude_of_written hwritten
  have hlen := length_fieldOf (.minus ∈ flags) (.zero ∈ flags) (signOf conv value)
    (preOf flags conv value) (digitsOf conv (magnitude conv value)) hwide
  have hpre : preOf flags conv value = [] := if_neg fun hand => hhash hand.1
  rw [Piece.written, hmagnitude, decide_eq_false hminus, decide_eq_false hzero,
    decide_eq_false hhash] at hwritten
  have htext := congrArg List.length (justifiedTo_right hwritten (signOf_eq conv value) rfl)
  rw [Piece.printed] at htext
  simp only [hone, hpre, List.length_append, List.length_replicate, Bool.false_eq_true, if_false,
    List.length_cons, List.length_nil] at htext hlen
  omega

theorem pre_head {conv : Conv} (h : conv.pre ≠ []) : conv.pre.head? = some (byte '0') := by
  cases conv with
  | d => exact absurd rfl h
  | i => exact absurd rfl h
  | u => exact absurd rfl h
  | o => rfl
  | x => rfl
  | X => rfl

/-- A prefix in front of blanks is not what printf writes. -/
theorem prefix_of_written (hwide : 0 ≤ width.value)
    (hwritten : (Piece.number flags width conv value h).written =
      some (Piece.number flags width conv value h).printed)
    (hhash : .hash ∈ flags) (hvalue : value.unsigned ≠ 0) (hminus : .minus ∉ flags)
    (hzero : .zero ∉ flags) :
    width.value ≤ (conv.pre ++ digitsOf conv (magnitude conv value)).length := by
  have hmagnitude := magnitude_of_written hwritten
  have hpre : preOf flags conv value = conv.pre := if_pos ⟨hhash, hvalue⟩
  obtain ⟨hprefixed, hsigned⟩ := alternatePrefix_eq (h hhash)
  have hsign : signOf conv value = [] := by
    unfold signOf
    rw [hsigned]
    rfl
  rw [Piece.written, hmagnitude, decide_eq_false hminus, decide_eq_false hzero,
    decide_eq_true hhash] at hwritten
  have htext := congrArg List.head? (justifiedTo_right hwritten (signOf_eq conv value) rfl)
  by_contra hlt
  obtain ⟨k, hk⟩ : ∃ k, width.value.natAbs - (conv.pre ++ digitsOf conv (magnitude conv value)).length =
      k + 1 := ⟨_, (Nat.succ_pred_eq_of_pos (by omega)).symm⟩
  have hblank : (Piece.number flags width conv value h).printed.head? = some (byte ' ') := by
    rw [Piece.printed, fieldOf, field]
    simp only [hsign, hpre, decide_eq_false hminus, decide_eq_false hzero,
      decide_eq_false (show ¬width.value < 0 by omega), Bool.or_false, Bool.false_eq_true, if_false,
      List.nil_append]
    rw [hk]
    rfl
  have hzero' : (conv.pre ++ List.replicate (width.value -
      (conv.pre ++ digitsOf conv (magnitude conv value)).length).toNat (byte ' ') ++
        (signOf conv value ++ digitsOf conv (magnitude conv value))).head? = some (byte '0') := by
    rw [List.append_assoc, List.head?_append, pre_head (h hhash)]
    rfl
  rw [hblank, if_pos rfl, hprefixed, hzero'] at htext
  exact absurd (Option.some.inj htext) (by decide)

/-- A prefix of 0 is not what printf writes, unless it is one of the zeros in front of it. -/
theorem zero_of_written (hwide : 0 ≤ width.value)
    (hwritten : (Piece.number flags width conv value h).written =
      some (Piece.number flags width conv value h).printed)
    (hhash : .hash ∈ flags) (hvalue : value.unsigned = 0) :
    conv = .o ∧ .zero ∈ flags ∧ .minus ∉ flags ∧ 2 ≤ width.value := by
  have hmagnitude := magnitude_of_written hwritten
  obtain ⟨hprefixed, hsigned⟩ := alternatePrefix_eq (h hhash)
  have hpre : preOf flags conv value = [] := if_neg fun hand => hand.2 hvalue
  have hsign : signOf conv value = [] := by
    unfold signOf
    rw [hsigned]
    rfl
  have hdigits : digitsOf conv (magnitude conv value) = [byte '0'] := by
    unfold magnitude
    rw [hsigned, hvalue]
    exact digitsOf_zero conv
  have hprinted : (Piece.number flags width conv value h).printed =
      fieldOf (decide (.minus ∈ flags)) (decide (.zero ∈ flags)) width [] [] [byte '0'] := by
    rw [Piece.printed, hsign, hpre, hdigits]
  rw [Piece.written, hmagnitude, hdigits, decide_eq_true hhash, hprefixed, hprinted] at hwritten
  have hsign' : (if (conv.isSigned && decide (value.signed < 0)) = true then [byte '-'] else []) = [] := by
    rw [signOf_eq, hsign]
  have hconv : conv = .o := by
    obtain ⟨before, behind, heq, haround⟩ := field_around
      (decide (.minus ∈ flags) || decide (width.value < 0)) (decide (.zero ∈ flags)) width.value.natAbs
      [] [] [byte '0']
    have hall : ∀ c ∈ conv.pre, c = byte ' ' ∨ c = byte '0' := by
      intro c hc
      have hmem := justifiedTo_mem hwritten (c := c) (by rw [if_pos rfl]; exact hc)
      rw [fieldOf, heq, List.mem_append, List.mem_append, List.mem_singleton] at hmem
      have hbefore := haround.1 c
      have hbehind := haround.2 c
      simp only [List.not_mem_nil, false_or] at hbefore
      tauto
    cases conv with
    | o => rfl
    | d => exact absurd rfl (h hhash)
    | i => exact absurd rfl (h hhash)
    | u => exact absurd rfl (h hhash)
    | x => exact absurd (hall (byte 'x') (by decide)) (by decide)
    | X => exact absurd (hall (byte 'X') (by decide)) (by decide)
  subst hconv
  have hpad : ¬(decide (.minus ∈ flags) = true ∨ decide (.zero ∈ flags) = false) := by
    intro hpad
    have hcode := count_justifiedTo hwritten hsign' rfl hpad
    have hleft : (decide (.minus ∈ flags) || decide (width.value < 0)) = true ∨
        decide (.zero ∈ flags) = false := hpad.imp_left fun hminus => by rw [hminus, Bool.true_or]
    have hprintf := count_field width.value.natAbs [] [] [byte '0'] hleft
    rw [fieldOf, hprintf] at hcode
    exact absurd hcode (by decide)
  rw [not_or, decide_eq_true_iff, Bool.not_eq_false, decide_eq_true_iff] at hpad
  obtain ⟨before, behind, -, -, -, hbody⟩ := justifiedTo_around hwritten
  have hlen := @length_fieldOf width (decide (.minus ∈ flags)) (decide (.zero ∈ flags)) []
    [] [byte '0'] hwide
  rw [hsign'] at hbody
  refine ⟨rfl, hpad.2, hpad.1, ?_⟩
  have htwo : ([] ++ (if true = true then Conv.o.pre else []) ++ [byte '0'] : List Byte).length = 2 := rfl
  rw [htwo] at hbody
  have hone : (([] ++ [] ++ [byte '0'] : List Byte).length : Int) = 1 := rfl
  rw [hone] at hlen
  omega

theorem good_string {minuses : Nat} {precision : Precision} {hs : 0#8 ∉ s} (hwide : 0 ≤ width.value)
    (hlen : s.length < 2 ^ 31)
    (hwritten : (Piece.string minuses width precision s hs).written =
      some (Piece.string minuses width precision s hs).printed) :
    (Piece.string minuses width precision s hs).Good := by
  refine ⟨hlen, Or.inl hwide, ?_⟩
  rw [Piece.written] at hwritten
  obtain ⟨t, hgiven, ht⟩ := Option.bind_eq_some_iff.mp hwritten
  cases precision with
  | none => trivial
  | star v => exact (given_star hgiven).2
  | number ds =>
    cases ds with
    | cons d ds => exact (given_digits (List.cons_ne_nil d ds) hgiven).2
    | nil =>
      cases hgiven
      obtain ⟨before, behind, heq, -, -, hbody⟩ := justifiedTo_around ht
      have hprinted : (Piece.string minuses width (.number []) s hs).printed =
          List.replicate width.value.natAbs (byte ' ') :=
        field_blanks (k := 0) _ (Nat.zero_le _)
      rw [hprinted] at heq hbody
      refine ⟨List.eq_replicate_iff.mpr ⟨rfl, fun c hc => ?_⟩, ?_⟩
      · refine List.eq_of_mem_replicate (n := width.value.natAbs) ?_
        rw [heq]
        exact List.mem_append_left _ (List.mem_append_right _ hc)
      · simp only [List.length_append, List.length_replicate] at hbody
        omega

/-- What is written as it is printed is good. -/
theorem good_of_written {p : Piece} (hplain : p.Plain) (hshort : p.Short)
    (hchar : ∀ minuses width v, p = .char minuses width v → v.setWidth 8 ≠ 0#8)
    (hwritten : p.written = some p.printed) : p.Good := by
  cases p with
  | text c h => trivial
  | percent => trivial
  | number flags width conv value h =>
    refine ⟨Or.inl hplain, fun hsign => ?_, fun v hv hunsigned => ?_, fun hhash => ?_⟩
    · by_cases hminus : .minus ∈ flags
      · exact Or.inl hminus
      by_cases hzero : .zero ∈ flags
      · exact Or.inr (Or.inl hzero)
      · exact Or.inr (Or.inr (sign_of_written hplain hwritten hsign hminus hzero))
    · have hmagnitude := magnitude_of_written hwritten
      unfold magnitude at hmagnitude
      rw [hunsigned, hv] at hmagnitude
      exact lt_of_widened hmagnitude
    · by_cases hvalue : value.unsigned = 0
      · exact Or.inr ⟨hvalue, zero_of_written hplain hwritten hhash hvalue⟩
      refine Or.inl ⟨hvalue, ?_⟩
      by_cases hminus : .minus ∈ flags
      · exact Or.inl hminus
      by_cases hzero : .zero ∈ flags
      · exact Or.inr (Or.inl hzero)
      · exact Or.inr (Or.inr (prefix_of_written hplain hwritten hhash hvalue hminus hzero))
  | char minuses width v => exact ⟨hchar minuses width v rfl, Or.inl hplain⟩
  | string minuses width precision s h => exact good_string hplain hshort hwritten

/-! ## No NUL is written -/

theorem justifiedTo_ne_zero {f : Flags} {alternatePrefix : List Byte}
    (h : justifiedTo f width is_negative alternatePrefix s = some t) (hpre : 0#8 ∉ alternatePrefix)
    (hs : 0#8 ∉ s) : 0#8 ∉ t := by
  obtain ⟨before, behind, rfl, haround, -, -⟩ := justifiedTo_around h
  rw [List.mem_append, List.mem_append]
  rintro ((hmem | hmem) | hmem)
  · rcases haround.1 _ hmem with hc | hc | hc | hc
    · split at hc
      · exact absurd hc (by decide)
      · exact absurd hc List.not_mem_nil
    · split at hc
      · exact hpre hc
      · exact absurd hc List.not_mem_nil
    · exact absurd hc (by decide)
    · exact absurd hc (by decide)
  · exact hs hmem
  · exact absurd (haround.2 _ hmem) (by decide)

theorem digit_ne_zero : ∀ up : Bool, ∀ d < 16, digit up d ≠ 0#8 := by
  decide

theorem written_ne_zero {p : Piece} (h : p.written = some t) : 0#8 ∉ t := by
  cases p with
  | text c hc =>
    cases h
    rw [List.mem_singleton]
    exact fun heq => hc.1 heq.symm
  | percent =>
    cases h
    decide
  | number flags width conv value hpre =>
    refine justifiedTo_ne_zero h (by cases conv <;> decide) fun hmem => ?_
    obtain ⟨d, hd, heq⟩ := List.mem_map.mp hmem
    have hbase := eight_le_base conv
    have hle := base_le conv
    have hlt := digits_lt (by omega) d hd
    exact digit_ne_zero _ d (by omega) heq
  | char minuses width v =>
    refine justifiedTo_ne_zero h (by decide) fun hmem => ?_
    have hne := List.mem_takeWhile_imp hmem
    exact absurd hne (by decide)
  | string minuses width precision s hs =>
    rw [Piece.written] at h
    obtain ⟨t', hgiven, ht⟩ := Option.bind_eq_some_iff.mp h
    refine justifiedTo_ne_zero ht (by decide) fun hmem => hs ?_
    cases precision with
    | none =>
      cases hgiven
      exact hmem
    | star v =>
      rw [(given_star hgiven).1] at hmem
      exact List.mem_of_mem_take hmem
    | number ds =>
      by_cases hds : ds = []
      · subst hds
        cases hgiven
        exact hmem
      · rw [(given_digits hds hgiven).1] at hmem
        exact List.mem_of_mem_take hmem

/-- The character 0 is printed. -/
theorem printed_zero {minuses : Nat} {v : BitVec 32} (h : v.setWidth 8 = 0#8) :
    0#8 ∈ (Piece.char minuses width v).printed := by
  obtain ⟨before, behind, heq, -⟩ := field_around (decide (0 < minuses) || decide (width.value < 0)) false
    width.value.natAbs [] [] [v.setWidth 8]
  rw [Piece.printed, fieldOf, heq, h]
  exact List.mem_append_left _ (List.mem_append_right _ List.mem_cons_self)

/-! ## The whole text -/

variable {lim need : Nat}

theorem double_pow (n k : Nat) : n * 2 ^ (k + 1) = 2 * n * 2 ^ k := by
  rw [Nat.pow_succ, ← Nat.mul_assoc, Nat.mul_comm (n * 2 ^ k) 2, Nat.mul_assoc]

/-- The doubling comes to a large enough buffer if there is one. -/
theorem roomFor_fits (hlim : lim < 2 ^ 31) :
    (∃ lim', roomFor lim need = some lim') ↔ Fits (lim + 1) need := by
  unfold Fits
  induction lim using roomFor.induct need with
  | case1 lim hlt hnew =>
    rw [roomFor_of_none hlt hnew]
    have hlarge : ¬2 * (lim + 1) ≤ 2 ^ 31 := by
      intro hsmall
      rw [newBuffer, if_pos hsmall] at hnew
      cases hnew
    constructor
    · rintro ⟨_, h⟩
      cases h
    rintro ⟨k, hk, hle⟩
    cases k with
    | zero => omega
    | succ k =>
      have hpow := Nat.one_le_two_pow (n := k)
      have hmul := Nat.mul_le_mul_left (2 * (lim + 1)) hpow
      rw [double_pow] at hle
      omega
  | case2 lim hlt lim' hnew ih =>
    obtain ⟨-, hdouble, hlim'⟩ := newBuffer_lt hnew
    rw [roomFor_of_new hlt hnew, ih hlim', hdouble]
    constructor
    · rintro ⟨k, hk, hle⟩
      refine ⟨k + 1, ?_, ?_⟩
      · rw [double_pow]
        exact hk
      · rw [double_pow]
        exact hle
    · rintro ⟨k, hk, hle⟩
      cases k with
      | zero => omega
      | succ k =>
        rw [double_pow] at hk hle
        exact ⟨k, hk, hle⟩
  | case3 lim hge =>
    rw [roomFor_of_le (Nat.not_lt.mp hge)]
    exact ⟨fun _ => ⟨0, by omega, by omega⟩, fun _ => ⟨lim, rfl⟩⟩

variable {buffer_size : Nat} {ps : List Piece}

theorem length_le_format (ps : List Piece) : ps.length ≤ (format ps).length := by
  induction ps with
  | nil => exact Nat.le_refl 0
  | cons p ps ih =>
    have hpos : 0 < p.bytes.length := by
      cases p <;> exact Nat.succ_pos _
    rw [format, List.flatMap_cons, List.length_append, List.length_cons]
    unfold format at ih
    omega

/-- What formf returns: the text of the pieces, if a buffer can hold it. -/
theorem formf_some_iff (hsize : 0 < buffer_size) (hint : buffer_size < 2 ^ 31)
    (hshort : ∀ p ∈ ps, p.Short) :
    formf buffer_size (format ps) (argsOf ps) = some t ↔
      writtenAll ps = some t ∧ Fits buffer_size t.length := by
  unfold formf
  rw [formfLoop_eq ps hshort (Nat.lt_succ_of_le (length_le_format ps))]
  have happend : ∀ t' : List Byte, (append ⟨buffer_size - 1, [], Nat.zero_le _⟩ t').map Buf.text = some t ↔
      t' = t ∧ Fits buffer_size t.length := by
    intro t'
    have hroom := @roomFor_fits (buffer_size - 1) t'.length (by omega)
    rw [Nat.sub_add_cancel hsize] at hroom
    rw [append_eq]
    show ((roomFor (buffer_size - 1) (0 + t'.length)).bind fun lim => store lim [] t').map Buf.text =
      some t ↔ _
    rw [Nat.zero_add]
    cases heq : roomFor (buffer_size - 1) t'.length with
    | none =>
      rw [heq] at hroom
      refine ⟨fun h => (nomatch h), ?_⟩
      rintro ⟨rfl, hfits⟩
      obtain ⟨lim', h⟩ := hroom.mpr hfits
      cases h
    | some lim' =>
      rw [heq] at hroom
      have hfits := hroom.mp ⟨lim', rfl⟩
      have hstore := @store_of_room (buffer_size - 1) lim' t' [] heq
      rw [Option.bind_some, hstore]
      refine ⟨fun h => ?_, fun h => congrArg some h.1⟩
      cases Option.some.inj h
      exact ⟨rfl, hfits⟩
  cases writtenAll ps with
  | none => exact ⟨fun h => (nomatch h), fun h => (nomatch h.1)⟩
  | some t' =>
    rw [Option.bind_some, happend, Option.some.injEq]

theorem writtenAll_of_good (hgood : ∀ p ∈ ps, p.Good) (hlen : (printf ps).length < 2 ^ 31) :
    writtenAll ps = some (printf ps) := by
  induction ps with
  | nil => rfl
  | cons p ps ih =>
    rw [List.forall_mem_cons] at hgood
    rw [printf, List.flatMap_cons, List.length_append] at hlen
    have hrest : (printf ps).length < 2 ^ 31 := by
      unfold printf
      omega
    rw [writtenAll, written_of_good hgood.1 (by omega), Option.bind_some, ih hgood.2 hrest]
    rfl

theorem writtenAll_ne_zero (h : writtenAll ps = some t) : 0#8 ∉ t := by
  induction ps generalizing t with
  | nil =>
    cases h
    exact List.not_mem_nil
  | cons p ps ih =>
    obtain ⟨t₁, h₁, hrest⟩ := Option.bind_eq_some_iff.mp h
    obtain ⟨t₂, h₂, rfl⟩ := Option.map_eq_some_iff.mp hrest
    rw [List.mem_append, not_or]
    exact ⟨written_ne_zero h₁, ih h₂⟩

/-- Where every piece is written at least as long as it is printed, the two texts can only be the same piece
by piece. -/
theorem good_of_writtenAll (hplain : ∀ p ∈ ps, p.Plain ∧ p.Short)
    (hchar : ∀ p ∈ ps, ∀ minuses width v, p = .char minuses width v → v.setWidth 8 ≠ 0#8)
    (h : writtenAll ps = some t) :
    (printf ps).length ≤ t.length ∧ (t = printf ps → ∀ p ∈ ps, p.Good) := by
  induction ps generalizing t with
  | nil =>
    cases h
    exact ⟨Nat.le_refl 0, fun _ p hp => absurd hp List.not_mem_nil⟩
  | cons p ps ih =>
    rw [List.forall_mem_cons] at hplain hchar
    obtain ⟨t₁, h₁, hrest⟩ := Option.bind_eq_some_iff.mp h
    obtain ⟨t₂, h₂, rfl⟩ := Option.map_eq_some_iff.mp hrest
    have hle₁ := length_printed_le hplain.1.1 hchar.1 h₁
    obtain ⟨hle₂, hgood⟩ := ih hplain.2 hchar.2 h₂
    have hprintf : printf (p :: ps) = p.printed ++ printf ps := List.flatMap_cons
    rw [hprintf, List.length_append, List.length_append]
    refine ⟨by omega, fun heq => ?_⟩
    have hlen := congrArg List.length heq
    rw [List.length_append, List.length_append] at hlen
    obtain ⟨rfl, rfl⟩ := List.append_inj heq (by omega)
    rw [List.forall_mem_cons]
    exact ⟨good_of_written hplain.1.1 hplain.1.2 hchar.1 h₁, hgood rfl⟩

/-- Where no asterisk's argument is negative and the strings' lengths are ints, the text is what printf
writes for good pieces only. -/
theorem good_of_formf (hsize : 0 < buffer_size) (hint : buffer_size < 2 ^ 31)
    (hplain : ∀ p ∈ ps, p.Plain ∧ p.Short)
    (heq : formf buffer_size (format ps) (argsOf ps) = some (printf ps)) :
    (∀ p ∈ ps, p.Good) ∧ Fits buffer_size (printf ps).length := by
  obtain ⟨hwritten, hfits⟩ := (formf_some_iff hsize hint fun p hp => (hplain p hp).2).mp heq
  have hchar : ∀ p ∈ ps, ∀ minuses width v, p = .char minuses width v → v.setWidth 8 ≠ 0#8 := by
    rintro p hp minuses width v rfl hzero
    exact writtenAll_ne_zero hwritten (List.mem_flatMap.mpr ⟨_, hp, printed_zero hzero⟩)
  exact ⟨(good_of_writtenAll hplain hchar hwritten).2 rfl, hfits⟩

/-- formf returns what printf writes if every part of the format is good and the text fits a buffer; and
where no asterisk's argument is negative and the strings' lengths are ints, only then. -/
theorem formf_is_printf_exactly (hsize : 0 < buffer_size) (hint : buffer_size < 2 ^ 31)
    (ps : List Piece) :
    ((∀ p ∈ ps, p.Good) → Fits buffer_size (printf ps).length →
      formf buffer_size (format ps) (argsOf ps) = some (printf ps)) ∧
    ((∀ p ∈ ps, p.Plain ∧ p.Short) → formf buffer_size (format ps) (argsOf ps) = some (printf ps) →
      (∀ p ∈ ps, p.Good) ∧ Fits buffer_size (printf ps).length) := by
  refine ⟨fun hgood hfits => ?_, good_of_formf hsize hint⟩
  have hshort : ∀ p ∈ ps, p.Short := by
    intro p hp
    have h := hgood p hp
    cases p with
    | string minuses width precision s hs => exact h.1
    | _ => trivial
  obtain ⟨k, hk, hle⟩ := hfits
  exact (formf_some_iff hsize hint hshort).mpr ⟨writtenAll_of_good hgood (by omega), k, hk, hle⟩

/-- `%5d` or `%05d`, for -12. -/
def minusTwelve (flags : List Flag) (h : .hash ∉ flags) : Piece :=
  .number flags (.number 5 (by decide)) .d (.int (-12)) fun hmem => absurd hmem h

theorem length_minusTwelve (flags : List Flag) (h : .hash ∉ flags) :
    (printf [minusTwelve flags h]).length = 5 ∧ (digitsOf .d 12).length ≤ 2 := by
  have hdigits : (digitsOf .d 12).length ≤ 2 := by
    unfold digitsOf
    rw [List.length_map]
    exact length_digits (by decide) (by decide)
  have hpre : preOf flags .d (.int (-12)) = [] := if_neg fun hand => h hand.1
  have hlen := @length_fieldOf (.number 5 (by decide)) (.minus ∈ flags) (.zero ∈ flags)
    (signOf .d (.int (-12))) (preOf flags .d (.int (-12))) (digitsOf .d 12) (by decide)
  refine ⟨?_, hdigits⟩
  have hprintf : printf [minusTwelve flags h] = (minusTwelve flags h).printed := List.append_nil _
  have hsign : (signOf .d (.int (-12))).length = 1 := rfl
  have hwidth : (Width.number 5 (by decide)).value = 5 := rfl
  rw [List.length_append, List.length_append, hpre, hsign, hwidth, List.length_nil] at hlen
  rw [hprintf]
  unfold minusTwelve
  rw [Piece.printed, hpre]
  have hmagnitude : magnitude .d (.int (-12)) = 12 := rfl
  rw [hmagnitude]
  omega

/-- In a buffer of one byte, the zeros go behind the sign of `%05d`. -/
theorem zeros_behind_the_sign :
    formf 1 (format [minusTwelve [.zero] (by decide)]) (argsOf [minusTwelve [.zero] (by decide)]) =
      some (printf [minusTwelve [.zero] (by decide)]) := by
  refine (formf_is_printf_exactly (by decide) (by decide) [minusTwelve [.zero] (by decide)]).1 ?_ ?_
  · rw [List.forall_mem_singleton]
    exact ⟨Or.inl (by decide), fun _ => Or.inr (Or.inl (by decide)),
      fun v _ h => absurd h (by decide), fun h => absurd h (by decide)⟩
  · rw [(length_minusTwelve [.zero] (by decide)).1]
    exact ⟨3, by decide, by decide⟩

/-- `%5d` has one blank too many in front of a minus sign. -/
theorem a_blank_too_many :
    ¬∀ buffer_size ps, 0 < buffer_size → buffer_size < 2 ^ 31 → Fits buffer_size (printf ps).length →
      formf buffer_size (format ps) (argsOf ps) = some (printf ps) := by
  intro h
  obtain ⟨hlen, hdigits⟩ := length_minusTwelve [] List.not_mem_nil
  have heq := h 64 [minusTwelve [] List.not_mem_nil] (by decide) (by decide)
    ⟨0, by rw [hlen]; decide, by decide⟩
  have hgood := (good_of_formf (by decide) (by decide) (by
    rw [List.forall_mem_singleton]
    exact ⟨(by decide : (0 : Int) ≤ 5), trivial⟩) heq).1
  rw [List.forall_mem_singleton] at hgood
  obtain hminus | hzero | hle := hgood.2.1 (by decide)
  · exact List.not_mem_nil hminus
  · exact List.not_mem_nil hzero
  · have hwidth : (Width.number 5 (by decide)).value = 5 := rfl
    have hmagnitude : magnitude .d (.int (-12)) = 12 := rfl
    rw [hwidth, hmagnitude] at hle
    omega

end ups_rules.formatted_text
