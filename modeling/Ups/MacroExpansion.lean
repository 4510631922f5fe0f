-- The expansion of the macros in an expression (macro_expand_string in st_lookup.c): the first word with a
-- value is replaced by it, and the scan starts again from the front. Nothing keeps a macro from being
-- expanded in its own value.
import Mathlib.Data.List.TakeWhile
import Ups.FirstRewrite
import Ups.MacroTable

open first_rewrite
open ups_rules.macro_table

namespace ups_rules.macro_expansion

/-! ## The pure model -/

def isWordStart (c : Char) : Bool := c.isAlpha || c == '_'

def isWordChar (c : Char) : Bool := c.isAlphanum || c == '_'

/-- The inner loop, from `ptr` on: the new string, if a word is replaced. -/
def expandOnce (macros : List (Macro (List Char))) (lnum : Nat) (before ptr : List Char) :
    Option (List Char) :=
  match _h : ptr.dropWhile (!isWordStart ·) with
  | [] => none
  | c :: rest =>
    let skipped := ptr.takeWhile (!isWordStart ·)
    let word := c :: rest.takeWhile isWordChar
    match macroExpandWord macros lnum word with
    | some expansion => some (before ++ skipped ++ expansion ++ rest.dropWhile isWordChar)
    | none => expandOnce macros lnum (before ++ skipped ++ word) (rest.dropWhile isWordChar)
termination_by ptr.length
decreasing_by
  have hrest := (List.dropWhile_suffix isWordChar (l := rest)).length_le
  have hptr := (List.dropWhile_suffix (!isWordStart ·) (l := ptr)).length_le
  rw [_h, List.length_cons] at hptr
  omega

/-- The outer loop, with `result` and the string that was given. -/
def expandLoop (macros : List (Macro (List Char))) (lnum : Nat) (s : List Char) :
    Nat → Option (List Char) → Option (Option (List Char))
  | 0, _ => none
  | fuel + 1, result =>
    match expandOnce macros lnum [] (result.getD s) with
    | some new => expandLoop macros lnum s fuel (some new)
    | none => some result

/-- What is returned after at most so many turns of the outer loop; the null pointer is `none`, and the
string is to be used as it is. -/
def macroExpandString (macros : List (Macro (List Char))) (lnum fuel : Nat) (s : List Char) :
    Option (Option (List Char)) :=
  if macros.isEmpty then some none else expandLoop macros lnum s fuel none

/-! ## Words -/

/-- The words that the scan finds. -/
def words (s : List Char) : List Name :=
  match _h : s.dropWhile (!isWordStart ·) with
  | [] => []
  | c :: rest => (c :: rest.takeWhile isWordChar) :: words (rest.dropWhile isWordChar)
termination_by s.length
decreasing_by
  have hrest := (List.dropWhile_suffix isWordChar (l := rest)).length_le
  have hs := (List.dropWhile_suffix (!isWordStart ·) (l := s)).length_le
  rw [_h, List.length_cons] at hs
  omega

/-- The words of the value of a word. -/
def bodyOf (macros : List (Macro (List Char))) (lnum : Nat) (word : Name) : Option (List Name) :=
  (macroExpandWord macros lnum word).map words

/-- The expansion ends, and no word that is left has a value. -/
def Expands (macros : List (Macro (List Char))) (lnum : Nat) (s : List Char) : Prop :=
  ∃ fuel result, macroExpandString macros lnum fuel s = some result ∧
    ∀ word ∈ words (result.getD s), macroExpandWord macros lnum word = none

variable {macros : List (Macro (List Char))} {lnum fuel : Nat} {s t before ptr : List Char}

/-- The string ends, or goes on with a character that is not part of a word. -/
def Separate (s : List Char) : Prop := ∀ c ∈ s.head?, isWordChar c = false

theorem isWordChar_of_start {c : Char} (h : isWordStart c = true) : isWordChar c = true := by
  unfold isWordStart at h
  unfold isWordChar Char.isAlphanum
  rcases Bool.or_eq_true_iff.mp h with h | h
  · rw [h]
    rfl
  · rw [h, Bool.or_true]

theorem separate_dropWhile (s : List Char) : Separate (s.dropWhile isWordChar) := by
  intro c hc
  induction s with
  | nil => cases hc
  | cons d s ih =>
    rw [List.dropWhile_cons] at hc
    split_ifs at hc with hd
    · exact ih hc
    · rw [← Option.some.inj hc]
      exact Bool.eq_false_of_not_eq_true hd

theorem Separate.takeWhile (h : Separate t) : t.takeWhile isWordChar = [] := by
  cases t with
  | nil => rfl
  | cons c t => exact List.takeWhile_cons_of_neg (Bool.eq_false_iff.mp (h c rfl))

theorem Separate.dropWhile (h : Separate t) : t.dropWhile isWordChar = t := by
  cases t with
  | nil => rfl
  | cons c t => exact List.dropWhile_cons_of_neg (Bool.eq_false_iff.mp (h c rfl))

/-- What follows a word does not belong to it. -/
theorem takeWhile_append_separate (h : Separate t) (s : List Char) :
    (s ++ t).takeWhile isWordChar = s.takeWhile isWordChar := by
  induction s with
  | nil => exact h.takeWhile
  | cons c s ih =>
    rw [List.cons_append, List.takeWhile_cons, List.takeWhile_cons, ih]

theorem dropWhile_append_separate (h : Separate t) (s : List Char) :
    (s ++ t).dropWhile isWordChar = s.dropWhile isWordChar ++ t := by
  induction s with
  | nil => exact h.dropWhile
  | cons c s ih =>
    rw [List.cons_append, List.dropWhile_cons, List.dropWhile_cons, ih]
    split <;> rfl

theorem words_of_nil (h : s.dropWhile (!isWordStart ·) = []) : words s = [] := by
  rw [words]
  split
  next => rfl
  next heq =>
    rw [h] at heq
    cases heq

theorem words_of_cons {c : Char} {rest : List Char} (h : s.dropWhile (!isWordStart ·) = c :: rest) :
    words s = (c :: rest.takeWhile isWordChar) :: words (rest.dropWhile isWordChar) := by
  rw [words]
  split
  next heq =>
    rw [h] at heq
    cases heq
  next heq =>
    rw [h] at heq
    obtain ⟨rfl, rfl⟩ := List.cons.inj heq
    rfl

/-- Characters that start no word are skipped. -/
theorem words_skip (h : ∀ c ∈ s, isWordStart c = false) (t : List Char) : words (s ++ t) = words t := by
  have hdrop : (s ++ t).dropWhile (!isWordStart ·) = t.dropWhile (!isWordStart ·) := by
    induction s with
    | nil => rfl
    | cons c s ih =>
      rw [List.forall_mem_cons] at h
      rw [List.cons_append, List.dropWhile_cons_of_pos (by rw [h.1]; rfl), ih h.2]
  cases ht : t.dropWhile (!isWordStart ·) with
  | nil => rw [words_of_nil ht, words_of_nil (hdrop.trans ht)]
  | cons c rest => rw [words_of_cons ht, words_of_cons (hdrop.trans ht)]

theorem not_start_of_mem_takeWhile {c : Char} (h : c ∈ s.takeWhile (!isWordStart ·)) :
    isWordStart c = false := by
  have htrue := List.mem_takeWhile_imp h
  rwa [Bool.not_eq_true'] at htrue

theorem words_skip_takeWhile (s t : List Char) : words (s.takeWhile (!isWordStart ·) ++ t) = words t :=
  words_skip (fun _ => not_start_of_mem_takeWhile) t

theorem head_not_skipped {c : Char} {rest : List Char} (h : s.dropWhile (!isWordStart ·) = c :: rest) :
    isWordStart c = true := by
  induction s with
  | nil => cases h
  | cons d s ih =>
    rw [List.dropWhile_cons] at h
    split_ifs at h with hd
    · exact ih h
    · rw [← (List.cons.inj h).1]
      exact Bool.not_eq_false _ |>.mp fun hc => hd (by rw [hc]; rfl)

/-- The words of two strings that are not joined. -/
theorem words_append (h : Separate t) : words (s ++ t) = words s ++ words t := by
  induction s using words.induct with
  | case1 s hs =>
    have hskip : ∀ c ∈ s, isWordStart c = false := by
      intro c hc
      have hall := List.dropWhile_eq_nil_iff.mp hs c hc
      rwa [Bool.not_eq_true'] at hall
    rw [words_skip hskip, words_of_nil hs, List.nil_append]
  | case2 s c rest hs ih =>
    have hst : (s ++ t).dropWhile (!isWordStart ·) = c :: (rest ++ t) := by
      rw [List.dropWhile_append, hs]
      rfl
    rw [words_of_cons hst, words_of_cons hs, takeWhile_append_separate h, dropWhile_append_separate h,
      ih, List.cons_append]

theorem words_word {c : Char} {rest : List Char} (hc : isWordStart c = true)
    (hrest : ∀ d ∈ rest, isWordChar d = true) (h : Separate t) :
    words (c :: rest ++ t) = (c :: rest) :: words t := by
  have hdrop : (c :: rest ++ t).dropWhile (!isWordStart ·) = c :: (rest ++ t) := by
    rw [List.cons_append, List.dropWhile_cons_of_neg]
    rw [hc]
    exact Bool.false_ne_true
  rw [words_of_cons hdrop, takeWhile_append_separate h, dropWhile_append_separate h,
    List.takeWhile_eq_self_iff.mpr hrest, List.dropWhile_eq_nil_iff.mpr hrest, List.nil_append]

/-! ## The inner loop -/

theorem expandOnce_of_nil (h : ptr.dropWhile (!isWordStart ·) = []) :
    expandOnce macros lnum before ptr = none := by
  rw [expandOnce]
  split
  next => rfl
  next heq =>
    rw [h] at heq
    cases heq

theorem expandOnce_of_cons {c : Char} {rest : List Char}
    (h : ptr.dropWhile (!isWordStart ·) = c :: rest) :
    expandOnce macros lnum before ptr =
      match macroExpandWord macros lnum (c :: rest.takeWhile isWordChar) with
      | some expansion => some (before ++ ptr.takeWhile (!isWordStart ·) ++ expansion ++
          rest.dropWhile isWordChar)
      | none => expandOnce macros lnum (before ++ ptr.takeWhile (!isWordStart ·) ++
          (c :: rest.takeWhile isWordChar)) (rest.dropWhile isWordChar) := by
  rw [expandOnce]
  split
  next heq =>
    rw [h] at heq
    cases heq
  next heq =>
    rw [h] at heq
    obtain ⟨rfl, rfl⟩ := List.cons.inj heq
    rfl

theorem head_kept {c : Char} (hc : c ∈ s.head?) (hstart : isWordStart c = false) (t : List Char) :
    c ∈ (s.takeWhile (!isWordStart ·) ++ t).head? := by
  cases s with
  | nil => cases hc
  | cons d s =>
    obtain rfl : d = c := Option.some.inj hc
    rw [List.takeWhile_cons_of_pos (by rw [hstart]; rfl)]
    rfl

/-- What one turn of the outer loop does to the words. A character in front that starts no word stays. -/
theorem expandOnce_spec (macros : List (Macro (List Char))) (lnum : Nat) (before ptr : List Char) :
    (expandOnce macros lnum before ptr = none ∧
      replaceFirst (bodyOf macros lnum) (words ptr) = none) ∨
    ∃ new, expandOnce macros lnum before ptr = some (before ++ new) ∧
      replaceFirst (bodyOf macros lnum) (words ptr) = some (words new) ∧
      ∀ c ∈ ptr.head?, isWordStart c = false → c ∈ new.head? := by
  induction before, ptr using expandOnce.induct macros lnum with
  | case1 before ptr h => exact .inl ⟨expandOnce_of_nil h, by rw [words_of_nil h]; rfl⟩
  | case2 before ptr c rest h word expansion hword =>
    have hbody : bodyOf macros lnum word = some (words expansion) := by
      rw [bodyOf, hword]
      rfl
    refine .inr ⟨ptr.takeWhile (!isWordStart ·) ++ (expansion ++ rest.dropWhile isWordChar), ?_, ?_,
      fun d hd hstart => head_kept hd hstart _⟩
    · rw [expandOnce_of_cons h, show macroExpandWord macros lnum (c :: rest.takeWhile isWordChar) =
        some expansion from hword]
      dsimp only
      rw [List.append_assoc, List.append_assoc]
    · rw [words_skip_takeWhile, words_append (separate_dropWhile rest), words_of_cons h]
      exact replaceFirst_of_some hbody
  | case3 before ptr c rest h skipped word hword ih =>
    have hbody : bodyOf macros lnum word = none := by
      rw [bodyOf, hword]
      rfl
    have hnext : expandOnce macros lnum before ptr = expandOnce macros lnum
        (before ++ ptr.takeWhile (!isWordStart ·) ++ word) (rest.dropWhile isWordChar) := by
      rw [expandOnce_of_cons h, show macroExpandWord macros lnum (c :: rest.takeWhile isWordChar) = none
        from hword]
    have hfirst : replaceFirst (bodyOf macros lnum) (words ptr) =
        (replaceFirst (bodyOf macros lnum) (words (rest.dropWhile isWordChar))).map (word :: ·) := by
      rw [words_of_cons h]
      exact replaceFirst_of_none hbody
    rw [hnext, hfirst]
    rcases ih with ⟨hnone, hwords⟩ | ⟨new, hsome, hwords, hhead⟩
    · exact .inl ⟨hnone, by rw [hwords]; rfl⟩
    · have hseparate : Separate new := by
        intro d hd
        cases hrest : rest.dropWhile isWordChar with
        | nil =>
          rw [hrest, words_of_nil rfl] at hwords
          cases hwords
        | cons e after =>
          have he : isWordChar e = false := separate_dropWhile rest e (by rw [hrest]; rfl)
          have hstart : isWordStart e = false :=
            Bool.eq_false_iff.mpr fun hc => by rw [isWordChar_of_start hc] at he; cases he
          have hnew := hhead e (by rw [hrest]; rfl) hstart
          rw [Option.mem_unique hd hnew]
          exact he
      refine .inr ⟨ptr.takeWhile (!isWordStart ·) ++ (word ++ new), ?_, ?_,
        fun d hd hstart => head_kept hd hstart _⟩
      · rw [hsome, List.append_assoc, List.append_assoc]
      · have hword' : words (word ++ new) = word :: words new :=
          words_word (head_not_skipped h) (fun _ => List.mem_takeWhile_imp) hseparate
        rw [hwords, words_skip_takeWhile, hword']
        rfl

/-! ## The outer loop -/

theorem expandLoop_succ (macros : List (Macro (List Char))) (lnum : Nat) (s : List Char) (fuel : Nat)
    (result : Option (List Char)) :
    expandLoop macros lnum s (fuel + 1) result =
      match expandOnce macros lnum [] (result.getD s) with
      | some new => expandLoop macros lnum s fuel (some new)
      | none => some result := rfl

theorem no_value_iff (l : List Name) : replaceFirst (bodyOf macros lnum) l = none ↔
    ∀ word ∈ l, macroExpandWord macros lnum word = none := by
  rw [replaceFirst_eq_none_iff]
  exact forall₂_congr fun word _ => Option.map_eq_none_iff

theorem expandLoop_of_stops {l : List Name} (h : Stops (bodyOf macros lnum) l)
    (result : Option (List Char)) (hl : words (result.getD s) = l) :
    ∃ fuel result', expandLoop macros lnum s fuel result = some result' ∧
      ∀ word ∈ words (result'.getD s), macroExpandWord macros lnum word = none := by
  induction h generalizing result with
  | done hdone =>
    rcases expandOnce_spec macros lnum [] (result.getD s) with ⟨hnone, hwords⟩ | ⟨new, -, hwords, -⟩
    · exact ⟨1, result, by rw [expandLoop_succ, hnone], (no_value_iff _).mp hwords⟩
    · rw [hl, hdone] at hwords
      cases hwords
  | step hstep _ ih =>
    rcases expandOnce_spec macros lnum [] (result.getD s) with ⟨-, hwords⟩ | ⟨new, hsome, hwords, -⟩
    · rw [hl, hstep] at hwords
      cases hwords
    · rw [hl, hstep] at hwords
      obtain ⟨fuel, result', heq, hleft⟩ := ih (some new) (Option.some.inj hwords).symm
      exact ⟨fuel + 1, result', by rw [expandLoop_succ, hsome]; exact heq, hleft⟩

theorem stops_of_expandLoop {result result' : Option (List Char)}
    (h : expandLoop macros lnum s fuel result = some result') :
    Stops (bodyOf macros lnum) (words (result.getD s)) := by
  induction fuel generalizing result with
  | zero => cases h
  | succ fuel ih =>
    rw [expandLoop_succ] at h
    rcases expandOnce_spec macros lnum [] (result.getD s) with ⟨-, hwords⟩ | ⟨new, hsome, hwords, -⟩
    · exact .done hwords
    · rw [hsome] at h
      exact .step hwords (ih h)

theorem expands_iff_stops : Expands macros lnum s ↔ Stops (bodyOf macros lnum) (words s) := by
  unfold Expands macroExpandString
  by_cases hempty : macros.isEmpty
  · have hnone : ∀ word ∈ words s, macroExpandWord macros lnum word = none := by
      rw [List.isEmpty_iff.mp hempty]
      exact fun _ _ => rfl
    refine iff_of_true ⟨0, none, if_pos hempty, hnone⟩ (.done ((no_value_iff _).mpr hnone))
  · simp only [if_neg hempty]
    constructor
    · rintro ⟨fuel, result, heq, -⟩
      exact stops_of_expandLoop heq
    · exact fun h => expandLoop_of_stops h none rfl

/-! ## Which expansions end -/

/-- All words of all values. -/
def valueWords (macros : List (Macro (List Char))) : List Name :=
  macros.flatMap fun ma => ma.ma_values.flatMap fun mav => words mav.mav_value

theorem mem_valueWords {word : Name} {l : List Name} (h : bodyOf macros lnum word = some l) {w : Name}
    (hw : w ∈ l) : w ∈ valueWords macros := by
  obtain ⟨value, hvalue, rfl⟩ := Option.map_eq_some_iff.mp h
  obtain ⟨ma, hma, hsel⟩ := List.exists_of_findSome?_eq_some hvalue
  split_ifs at hsel
  obtain ⟨mav, hmav, rfl⟩ := Option.map_eq_some_iff.mp hsel
  have hmem := List.mem_of_find?_eq_some hmav
  exact List.mem_flatMap.mpr ⟨ma, hma, List.mem_flatMap.mpr ⟨mav, hmem, hw⟩⟩

theorem finite_reached (word : Name) :
    {w | Relation.ReflTransGen (Mentions (bodyOf macros lnum)) word w}.Finite := by
  refine (List.finite_toSet (word :: valueWords macros)).subset ?_
  intro w hw
  rcases Relation.ReflTransGen.cases_tail hw with rfl | ⟨v, -, l, hl, hmem⟩
  · exact List.mem_cons_self
  · exact List.mem_cons_of_mem word (mem_valueWords hl hmem)

/-- The expansion ends with no macro left just when no word of the expression leads to a macro that
leads back to itself. -/
theorem macro_expansion_ends_iff (macros : List (Macro (List Char))) (lnum : Nat) (s : List Char) :
    Expands macros lnum s ↔ ∀ word ∈ words s, ¬ReachesCycle (bodyOf macros lnum) word := by
  rw [expands_iff_stops, stops_iff]
  exact forall₂_congr fun word _ =>
    ⟨not_reachesCycle_of_acc, acc_of_not_reachesCycle (finite_reached word)⟩

/-- `#define foo foo` -/
def fooIsFoo : List (Macro (List Char)) := [⟨['f', 'o', 'o'], [⟨1, 0, ['f', 'o', 'o']⟩]⟩]

theorem foo_is_not_expanded : ¬∀ macros lnum s, Expands macros lnum s := by
  intro h
  have hwords : words ['f', 'o', 'o'] = [['f', 'o', 'o']] := by
    have ho : isWordChar 'o' = true := by decide
    have hrest : ∀ c ∈ ['o', 'o'], isWordChar c = true := by
      rw [List.forall_mem_cons, List.forall_mem_singleton]
      exact ⟨ho, ho⟩
    have hword : words (['f', 'o', 'o'] ++ []) = ['f', 'o', 'o'] :: words [] :=
      words_word (by decide) hrest fun c hc => by cases hc
    rwa [List.append_nil, words_of_nil (s := []) rfl] at hword
  have hbody : bodyOf fooIsFoo 1 ['f', 'o', 'o'] = some [['f', 'o', 'o']] := by
    rw [← hwords]
    rfl
  have hstops := expands_iff_stops.mp (h fooIsFoo 1 ['f', 'o', 'o'])
  rw [hwords] at hstops
  exact not_transGen_self (hstops.acc _ List.mem_cons_self)
    (.single ⟨_, hbody, List.mem_cons_self⟩)

end ups_rules.macro_expansion
