-- Words with braces: a left and a right mark that are balanced, and a separator that counts only at
-- its own level. A group stands for each of its alternatives in turn.
import Mathlib.Algebra.BigOperators.Group.Multiset.Basic
import Mathlib.Data.Multiset.Bind

namespace ups_rules.brace_words

variable {α : Type}

/-! ## Products -/

section
variable (x y z : Multiset (List α))

/-- Each of the ones with each of the others behind it. -/
def product (x y : Multiset (List α)) : Multiset (List α) := x.bind fun a => y.map (a ++ ·)

theorem nil_product : product {[]} x = x := by
  unfold product
  rw [Multiset.singleton_bind]
  exact Multiset.map_id' x

theorem product_nil : product x {[]} = x := by
  unfold product
  simp only [Multiset.map_singleton, List.append_nil]
  exact (Multiset.bind_singleton x fun a => a).trans (Multiset.map_id' x)

theorem zero_product : product 0 x = 0 := Multiset.zero_bind _

theorem product_zero : product x 0 = 0 := by
  unfold product
  simp only [Multiset.map_zero, Multiset.bind_zero]

theorem add_product : product (x + y) z = product x z + product y z := Multiset.add_bind _ _ _

theorem product_add : product x (y + z) = product x y + product x z := by
  unfold product
  simp only [Multiset.map_add, Multiset.bind_add]

theorem product_assoc : product (product x y) z = product x (product y z) := by
  unfold product
  simp only [Multiset.bind_assoc, Multiset.map_bind, Multiset.bind_map, Multiset.map_map,
    Function.comp_def, List.append_assoc]

theorem map_cons_product (c : α) : product (x.map (c :: ·)) y = (product x y).map (c :: ·) := by
  unfold product
  simp only [Multiset.bind_map, Multiset.map_bind, Multiset.map_map, Function.comp_def,
    List.cons_append]

theorem product_sum_product {ι : Type} (l : List ι) (f : ι → Multiset (List α)) :
    product x (product (l.map f).sum y) = (l.map fun i => product x (product (f i) y)).sum := by
  induction l with
  | nil =>
    rw [List.map_nil, List.sum_nil, zero_product, product_zero]
    rfl
  | cons i l ih => rw [List.map_cons, List.sum_cons, add_product, product_add, ih, List.map_cons,
      List.sum_cons]

end

/-! ## Balanced text -/

structure Marks (α : Type) where
  left : α
  right : α
  sep : α
  left_ne_right : left ≠ right
  left_ne_sep : left ≠ sep
  right_ne_sep : right ≠ sep

variable (m : Marks α)

/-- Read from the left, at so many open braces: no right brace comes too early, and none stays open. -/
def Balanced [DecidableEq α] : Nat → List α → Prop
  | level, [] => level = 0
  | level, c :: s =>
    if c = m.left then Balanced (level + 1) s
    else if c = m.right then 0 < level ∧ Balanced (level - 1) s
    else Balanced level s

/-- What is to be had from a text: a text without braces is itself, and one with a group is had from
each of the texts with an alternative in its place. The alternatives are what stands between the
separators at the group's own level. -/
inductive Expands [DecidableEq α] : List α → Multiset (List α) → Prop
  | plain {s : List α} (hleft : m.left ∉ s) (hright : m.right ∉ s) : Expands s {s}
  | group {p s : List α} {alts : List (List α)} {results : List α → Multiset (List α)}
      (hp : Balanced m 0 p) (hs : Balanced m 0 s) (hne : alts ≠ [])
      (balanced : ∀ a ∈ alts, Balanced m 0 a)
      (own : ∀ a ∈ alts, ∀ x y, a = x ++ m.sep :: y → ¬Balanced m 0 x)
      (each : ∀ a ∈ alts, Expands (p ++ a ++ s) (results a)) :
      Expands (p ++ m.left :: [m.sep].intercalate alts ++ m.right :: s) (alts.map results).sum

/-! ## Words -/

/-- A balanced text as a tree. -/
inductive Word (α : Type)
  | done
  | char (c : α) (w : Word α)
  | group (g w : Word α)

namespace Word

def text : Word α → List α
  | done => []
  | char c w => c :: text w
  | group g w => m.left :: (text g ++ m.right :: text w)

/-- No character is a brace. -/
def Valid : Word α → Prop
  | done => True
  | char c w => (c ≠ m.left ∧ c ≠ m.right) ∧ Valid w
  | group g w => Valid g ∧ Valid w

/-- No separator is at the level of the word itself. -/
def Single : Word α → Prop
  | done => True
  | char c w => c ≠ m.sep ∧ Single w
  | group _ w => Single w

def groups : Word α → Nat
  | done => 0
  | char _ w => groups w
  | group g w => groups g + groups w + 1

def append : Word α → Word α → Word α
  | done, x => x
  | char c w, x => char c (append w x)
  | group g w, x => group g (append w x)

def chars : List α → Word α → Word α
  | [], w => w
  | c :: s, w => char c (chars s w)

/-- Up to the first separator at its own level, and what is behind that. -/
def split [DecidableEq α] : Word α → Word α × Option (Word α)
  | done => (done, none)
  | char c w => if c = m.sep then (done, some w) else (char c (split w).1, (split w).2)
  | group g w => (group g (split w).1, (split w).2)

attribute [simp] text Valid Single groups append chars split

end Word

/-- What is to be had from the first of the alternatives, and from the others. -/
def Word.inside [DecidableEq α] : Word α → Multiset (List α) × Multiset (List α)
  | .done => ({[]}, 0)
  | .char c w =>
    if c = m.sep then ({[]}, (inside w).1 + (inside w).2)
    else ((inside w).1.map (c :: ·), (inside w).2)
  | .group g w => (product ((inside g).1 + (inside g).2) (inside w).1, (inside w).2)

/-- What is to be had from all of the alternatives. -/
def Word.total [DecidableEq α] (w : Word α) : Multiset (List α) := (w.inside m).1 + (w.inside m).2

/-- What is to be had from a word that is in no group. -/
def Word.outside [DecidableEq α] : Word α → Multiset (List α)
  | .done => {[]}
  | .char c w => (outside w).map (c :: ·)
  | .group g w => product (g.total m) (outside w)

attribute [simp] Word.inside Word.outside

/-! ## Words and their texts -/

section
variable {m} {u w x : Word α} {s t : List α} {n : Nat}

namespace Word

theorem text_append : (u.append w).text m = u.text m ++ w.text m := by
  induction u with
  | done => rfl
  | char c u ih =>
    simp only [append, text, ih, List.cons_append]
  | group g u _ ih =>
    simp only [append, text, ih, List.cons_append, List.append_assoc]

theorem valid_append : (u.append w).Valid m ↔ u.Valid m ∧ w.Valid m := by
  induction u with
  | done => exact (and_iff_right trivial).symm
  | char c u ih => simp only [append, Valid, ih, and_assoc]
  | group g u _ ih => simp only [append, Valid, ih, and_assoc]

theorem groups_append : (u.append w).groups = u.groups + w.groups := by
  induction u with
  | done => exact (Nat.zero_add _).symm
  | char c u ih => exact ih
  | group g u _ ih =>
    simp only [append, groups, ih]
    omega

theorem append_assoc : (u.append w).append x = u.append (w.append x) := by
  induction u with
  | done => rfl
  | char c u ih => simp only [append, ih]
  | group g u _ ih => simp only [append, ih]

theorem append_done : u.append .done = u := by
  induction u with
  | done => rfl
  | char c u ih => simp only [append, ih]
  | group g u _ ih => simp only [append, ih]

theorem outside_append [DecidableEq α] :
    (u.append w).outside m = product (u.outside m) (w.outside m) := by
  induction u with
  | done => exact (nil_product _).symm
  | char c u ih => simp only [append, outside, ih, map_cons_product]
  | group g u _ ih => simp only [append, outside, ih, product_assoc]

/-- A word without groups is only its own text. -/
theorem outside_of_groups_eq_zero [DecidableEq α] (h : w.groups = 0) : w.outside m = {w.text m} := by
  induction w with
  | done => rfl
  | char c w ih => simp only [outside, text, ih h, Multiset.map_singleton]
  | group g w => exact absurd h (Nat.succ_ne_zero _)

theorem notMem_of_groups_eq_zero (hvalid : w.Valid m) (h : w.groups = 0) :
    m.left ∉ w.text m ∧ m.right ∉ w.text m := by
  induction w with
  | done => exact ⟨List.not_mem_nil, List.not_mem_nil⟩
  | char c w ih =>
    obtain ⟨⟨hleft, hright⟩, hvalid⟩ := hvalid
    obtain ⟨hl, hr⟩ := ih hvalid h
    exact ⟨List.not_mem_cons_of_ne_of_not_mem hleft.symm hl,
      List.not_mem_cons_of_ne_of_not_mem hright.symm hr⟩
  | group g w => exact absurd h (Nat.succ_ne_zero _)

/-- The first group of a word. -/
theorem exists_group (h : 0 < w.groups) :
    ∃ u g v : Word α, u.groups = 0 ∧ w = u.append (.group g v) := by
  induction w with
  | done => cases h
  | char c w ih =>
    obtain ⟨u, g, v, hu, rfl⟩ := ih h
    exact ⟨.char c u, g, v, hu, rfl⟩
  | group g w => exact ⟨.done, g, w, rfl, rfl⟩

theorem count_text [BEq α] [LawfulBEq α] (hw : w.Valid m) : (w.text m).count m.left = w.groups := by
  induction w with
  | done => rfl
  | char c w ih => rw [text, List.count_cons_of_ne hw.1.1, ih hw.2, groups]
  | group g w ihg ihw =>
    rw [text, List.count_cons_self, List.count_append, List.count_cons_of_ne m.left_ne_right.symm,
      ihg hw.1, ihw hw.2, groups]

/-- Where a word ends is seen from what is behind it, if that is nothing or a right brace. -/
def Ends (m : Marks α) (s : List α) : Prop := s = [] ∨ ∃ t, s = m.right :: t

theorem not_ends_of_cons {c : α} (h : c ≠ m.right) : ¬Ends m (c :: s) := by
  rintro (heq | ⟨t, heq⟩)
  · cases heq
  · exact h (List.head_eq_of_cons_eq heq)

/-- A text is that of one word only. -/
theorem text_injective (hu : u.Valid m) (hw : w.Valid m) (hs : Ends m s) (ht : Ends m t)
    (h : u.text m ++ s = w.text m ++ t) : u = w ∧ s = t := by
  induction u generalizing w s t with
  | done =>
    cases w with
    | done => exact ⟨rfl, h⟩
    | char c w =>
      rw [show s = c :: (w.text m ++ t) from h] at hs
      exact absurd hs (not_ends_of_cons hw.1.2)
    | group g w =>
      rw [show s = m.left :: (g.text m ++ m.right :: w.text m ++ t) from h] at hs
      exact absurd hs (not_ends_of_cons m.left_ne_right)
  | char c u ih =>
    cases w with
    | done =>
      rw [show t = c :: (u.text m ++ s) from h.symm] at ht
      exact absurd ht (not_ends_of_cons hu.1.2)
    | char d w =>
      simp only [text, List.cons_append, List.cons.injEq] at h
      obtain ⟨rfl, h⟩ := h
      obtain ⟨rfl, rfl⟩ := ih hu.2 hw.2 hs ht h
      exact ⟨rfl, rfl⟩
    | group g w => exact absurd (List.head_eq_of_cons_eq h) hu.1.1
  | group g u ihg ihu =>
    cases w with
    | done =>
      rw [show t = m.left :: (g.text m ++ m.right :: u.text m ++ s) from h.symm] at ht
      exact absurd ht (not_ends_of_cons m.left_ne_right)
    | char d w => exact absurd (List.head_eq_of_cons_eq h).symm hw.1.1
    | group g' w =>
      simp only [text, List.cons_append, List.append_assoc, List.cons.injEq, true_and] at h
      obtain ⟨rfl, hrest⟩ := ihg hu.1 hw.1 (.inr ⟨_, rfl⟩) (.inr ⟨_, rfl⟩) h
      obtain ⟨rfl, rfl⟩ := ihu hu.2 hw.2 hs ht (List.tail_eq_of_cons_eq hrest)
      exact ⟨rfl, rfl⟩

theorem eq_of_text_eq (hu : u.Valid m) (hw : w.Valid m) (h : u.text m = w.text m) : u = w := by
  refine (text_injective (s := []) (t := []) hu hw (.inl rfl) (.inl rfl) ?_).1
  rw [h]

theorem balanced_append [DecidableEq α] (hw : w.Valid m) : Balanced m n (w.text m ++ s) ↔ Balanced m n s := by
  induction w generalizing n s with
  | done => rfl
  | char c w ih =>
    rw [text, List.cons_append, Balanced, if_neg hw.1.1, if_neg hw.1.2]
    exact ih hw.2
  | group g w ihg ihw =>
    rw [text, List.cons_append, List.append_assoc, Balanced, if_pos rfl, ihg hw.1, List.cons_append,
      Balanced, if_neg m.left_ne_right.symm, if_pos rfl, Nat.add_sub_cancel, ihw hw.2]
    exact and_iff_right (Nat.succ_pos n)

/-- A brace that is not closed stays open behind a word. -/
theorem ne_of_open (hs : ∀ g t, Valid m g → s ≠ g.text m ++ m.right :: t) (hu : u.Valid m)
    (hw : w.Valid m) : u.text m ++ m.left :: s ≠ w.text m ++ m.right :: t := by
  intro h
  induction u generalizing w with
  | done =>
    cases w with
    | done => exact m.left_ne_right (List.head_eq_of_cons_eq h)
    | char c w => exact hw.1.1 (List.head_eq_of_cons_eq h).symm
    | group g w =>
      simp only [text, List.nil_append, List.cons_append, List.append_assoc, List.cons.injEq,
        true_and] at h
      exact hs g (w.text m ++ m.right :: t) hw.1 h
  | char c u ih =>
    cases w with
    | done => exact hu.1.2 (List.head_eq_of_cons_eq h)
    | char d w => exact ih hu.2 hw.2 (List.tail_eq_of_cons_eq h)
    | group g w => exact hu.1.1 (List.head_eq_of_cons_eq h)
  | group g u _ ih =>
    cases w with
    | done => exact m.left_ne_right (List.head_eq_of_cons_eq h)
    | char d w => exact hw.1.1 (List.head_eq_of_cons_eq h).symm
    | group g' w =>
      simp only [text, List.cons_append, List.append_assoc, List.cons.injEq, true_and] at h
      obtain ⟨rfl, hrest⟩ := text_injective hu.1 hw.1 (.inr ⟨_, rfl⟩) (.inr ⟨_, rfl⟩) h
      exact ih hu.2 hw.2 (List.tail_eq_of_cons_eq hrest)

/-- Every text is a word, up to its end, or to a brace that is not matched. -/
theorem exists_text (m : Marks α) (s : List α) : ∃ (w : Word α) (t : List α), w.Valid m ∧
    s = w.text m ++ t ∧ (t = [] ∨ (∃ r, t = m.right :: r) ∨
      ∃ r, t = m.left :: r ∧ ∀ g t, Valid m g → r ≠ g.text m ++ m.right :: t) := by
  induction hn : s.length using Nat.strongRecOn generalizing s with
  | ind n ih =>
    subst hn
    cases s with
    | nil => exact ⟨.done, [], trivial, rfl, .inl rfl⟩
    | cons c s =>
      obtain ⟨w, t, hw, rfl, ht⟩ := ih s.length (Nat.lt_succ_self _) s rfl
      by_cases hright : c = m.right
      · subst hright
        exact ⟨.done, _, trivial, rfl, .inr (.inl ⟨_, rfl⟩)⟩
      by_cases hleft : c = m.left
      · subst hleft
        rcases ht with rfl | ⟨r, rfl⟩ | ⟨r, rfl, hopen⟩
        · refine ⟨.done, _, trivial, rfl, .inr (.inr ⟨_, rfl, fun g t hg h => ?_⟩)⟩
          have hnil := (text_injective hw hg (.inl rfl) (.inr ⟨_, rfl⟩) h).2
          cases hnil
        · have hlt : r.length < (m.left :: (w.text m ++ m.right :: r)).length := by
            simp only [List.length_cons, List.length_append]
            omega
          obtain ⟨v, t, hv, rfl, ht⟩ := ih r.length hlt r rfl
          refine ⟨.group w v, t, ⟨hw, hv⟩, ?_, ht⟩
          rw [text, List.cons_append, List.append_assoc, List.cons_append]
        · exact ⟨.done, _, trivial, rfl, .inr (.inr ⟨_, rfl, fun g t hg => ne_of_open hopen hw hg⟩)⟩
      · exact ⟨.char c w, t, ⟨⟨hleft, hright⟩, hw⟩, rfl, ht⟩

theorem closes_of_balanced [DecidableEq α] (h : Balanced m (n + 1) s) :
    ∃ g t, Valid m g ∧ s = g.text m ++ m.right :: t := by
  induction hn : s.length using Nat.strongRecOn generalizing s n with
  | ind k ih =>
    subst hn
    obtain ⟨w, t, hw, rfl, ht⟩ := exists_text m s
    rw [balanced_append hw] at h
    rcases ht with rfl | ⟨r, rfl⟩ | ⟨r, rfl, hopen⟩
    · exact absurd h (Nat.succ_ne_zero n)
    · exact ⟨w, r, hw, rfl⟩
    · rw [Balanced, if_pos rfl] at h
      have hlt : r.length < (w.text m ++ m.left :: r).length := by
        simp only [List.length_cons, List.length_append]
        omega
      obtain ⟨g, t, hg, heq⟩ := ih r.length hlt h rfl
      exact absurd heq (hopen g t hg)

/-- The balanced texts are those of words. -/
theorem balanced_iff [DecidableEq α] : Balanced m 0 s ↔ ∃ w, Valid m w ∧ w.text m = s := by
  constructor
  · intro h
    obtain ⟨w, t, hw, rfl, ht⟩ := exists_text m s
    rw [balanced_append hw] at h
    rcases ht with rfl | ⟨r, rfl⟩ | ⟨r, rfl, hopen⟩
    · exact ⟨w, hw, (List.append_nil _).symm⟩
    · rw [Balanced, if_neg m.left_ne_right.symm, if_pos rfl] at h
      exact absurd h.1 (Nat.lt_irrefl 0)
    · rw [Balanced, if_pos rfl] at h
      obtain ⟨g, t, hg, heq⟩ := closes_of_balanced h
      exact absurd heq (hopen g t hg)
  · rintro ⟨w, hw, rfl⟩
    rw [← List.append_nil (w.text m), balanced_append hw]
    rfl

end Word

end

/-! ## Alternatives -/

section
variable {m} [DecidableEq α] {u w x : Word α} {s : List α}

namespace Word

theorem valid_split (hw : w.Valid m) :
    (w.split m).1.Valid m ∧ ∀ x, (w.split m).2 = some x → x.Valid m := by
  induction w with
  | done => exact ⟨trivial, fun x h => nomatch h⟩
  | char c w ih =>
    obtain ⟨hfirst, hrest⟩ := ih hw.2
    rw [split]
    split_ifs
    · refine ⟨trivial, fun x h => ?_⟩
      cases h
      exact hw.2
    · exact ⟨⟨hw.1, hfirst⟩, hrest⟩
  | group g w _ ih =>
    obtain ⟨hfirst, hrest⟩ := ih hw.2
    exact ⟨⟨hw.1, hfirst⟩, hrest⟩

theorem single_split : (w.split m).1.Single m := by
  induction w with
  | done => trivial
  | char c w ih =>
    rw [split]
    split_ifs with h
    · trivial
    · exact ⟨h, ih⟩
  | group g w _ ih => exact ih

theorem split_of_none (h : (w.split m).2 = none) : (w.split m).1 = w := by
  induction w with
  | done => rfl
  | char c w ih =>
    rw [split] at h ⊢
    split_ifs at h ⊢
    rw [ih h]
  | group g w _ ih =>
    rw [split] at h ⊢
    rw [ih h]

theorem text_of_split (h : (w.split m).2 = some x) :
    w.text m = (w.split m).1.text m ++ m.sep :: x.text m := by
  induction w with
  | done => cases h
  | char c w ih =>
    rw [split] at h ⊢
    split_ifs at h ⊢ with hsep
    · cases h
      rw [hsep]
      rfl
    · rw [text, ih h]
      rfl
  | group g w _ ih =>
    rw [split] at h ⊢
    rw [text, ih h, text, List.cons_append, List.append_assoc, List.cons_append]

theorem groups_split :
    (w.split m).1.groups + ((w.split m).2.map groups).getD 0 = w.groups := by
  induction w with
  | done => rfl
  | char c w ih =>
    rw [split]
    split_ifs
    · exact Nat.zero_add _
    · exact ih
  | group g w _ ih =>
    rw [split, groups, groups, ← ih]
    dsimp only
    omega

/-- The first alternative counts for itself, and the others are those of the text behind it. -/
theorem total_split :
    w.total m = (w.split m).1.outside m + ((w.split m).2.map (total m)).getD 0 := by
  have hinside : w.inside m =
      ((w.split m).1.outside m, ((w.split m).2.map (total m)).getD 0) := by
    induction w with
    | done => rfl
    | char c w ih =>
      rw [inside, split]
      split_ifs
      · rfl
      · rw [ih, outside]
    | group g w _ ih =>
      rw [inside, split, ih, outside]
      rfl
  unfold total
  rw [hinside]
  rfl

theorem inside_append (hu : u.Single m) :
    (u.append w).inside m = (product (u.outside m) (w.inside m).1, (w.inside m).2) := by
  induction u with
  | done => rw [append, outside, nil_product]
  | char c u ih => rw [append, inside, if_neg hu.1, ih hu.2, outside, map_cons_product]
  | group g u _ ih =>
    rw [append, inside, ih hu, outside, product_assoc]
    rfl

theorem total_of_single (hu : u.Single m) : u.total m = u.outside m := by
  have hinside := inside_append (w := .done) hu
  rw [append_done] at hinside
  unfold total
  rw [hinside]
  exact (add_zero _).trans (product_nil _)

theorem total_append_sep (hu : u.Single m) :
    (u.append (.char m.sep w)).total m = u.outside m + w.total m := by
  unfold total
  rw [inside_append hu, inside, if_pos rfl, product_nil]

/-- A word is single when no separator is behind a balanced part of its text. -/
theorem single_iff (hw : w.Valid m) :
    w.Single m ↔ ∀ s t, w.text m = s ++ m.sep :: t → ¬Balanced m 0 s := by
  constructor
  · intro hsingle s t heq hs
    obtain ⟨u, hu, rfl⟩ := balanced_iff.1 hs
    clear hs
    induction u generalizing w with
    | done =>
      cases w with
      | done => cases heq
      | char c w => exact hsingle.1 (List.head_eq_of_cons_eq heq)
      | group g w => exact m.left_ne_sep (List.head_eq_of_cons_eq heq)
    | char c u ih =>
      cases w with
      | done => cases heq
      | char d w => exact ih hw.2 hsingle.2 hu.2 (List.tail_eq_of_cons_eq heq)
      | group g w => exact hu.1.1 (List.head_eq_of_cons_eq heq).symm
    | group g u _ ih =>
      cases w with
      | done => cases heq
      | char d w => exact hw.1.1 (List.head_eq_of_cons_eq heq)
      | group g' w =>
        simp only [text, List.cons_append, List.append_assoc, List.cons.injEq, true_and] at heq
        obtain ⟨rfl, hrest⟩ := text_injective hw.1 hu.1 (.inr ⟨_, rfl⟩) (.inr ⟨_, rfl⟩) heq
        exact ih hw.2 hsingle hu.2 (List.tail_eq_of_cons_eq hrest)
  · intro hown
    cases hx : (w.split m).2 with
    | none =>
      rw [← split_of_none hx]
      exact single_split
    | some x =>
      exact absurd (balanced_iff.2 ⟨_, (valid_split hw).1, rfl⟩) (hown _ _ (text_of_split hx))

/-- The alternatives of a word, one by one. -/
theorem exists_alternatives (hw : w.Valid m) : ∃ ws : List (Word α), ws ≠ [] ∧
    (∀ a ∈ ws, a.Valid m ∧ a.Single m ∧ a.groups ≤ w.groups) ∧
    w.text m = [m.sep].intercalate (ws.map (text m)) ∧ w.total m = (ws.map (outside m)).sum := by
  induction hn : (w.text m).length using Nat.strongRecOn generalizing w with
  | ind n ih =>
    subst hn
    have hvalid := valid_split hw
    have htotal := total_split (m := m) (w := w)
    have hgroups := groups_split (m := m) (w := w)
    cases hx : (w.split m).2 with
    | none =>
      have hfirst := split_of_none hx
      have hsingle := single_split (m := m) (w := w)
      rw [hfirst] at hsingle
      refine ⟨[w], List.cons_ne_nil _ _, fun a ha => ?_, List.intercalate_singleton.symm, ?_⟩
      · rw [List.mem_singleton.1 ha]
        exact ⟨hw, hsingle, Nat.le_refl _⟩
      · rw [total_of_single hsingle]
        exact (add_zero _).symm
    | some x =>
      have htext := text_of_split hx
      rw [hx] at htotal hgroups
      have hlt : (x.text m).length < (w.text m).length := by
        rw [htext, List.length_append, List.length_cons]
        omega
      obtain ⟨ws, hne, hall, hws, hsum⟩ := ih _ hlt (hvalid.2 x hx) rfl
      refine ⟨(w.split m).1 :: ws, List.cons_ne_nil _ _, fun a ha => ?_, ?_, ?_⟩
      · rcases List.mem_cons.1 ha with rfl | ha
        · exact ⟨hvalid.1, single_split, Nat.le.intro hgroups⟩
        · obtain ⟨ha, hsingle, hle⟩ := hall a ha
          refine ⟨ha, hsingle, Nat.le_trans hle ?_⟩
          rw [← hgroups]
          exact Nat.le_add_left _ _
      · rw [htext, hws, List.map_cons, List.intercalate_cons_of_ne_nil (by simpa using hne)]
        simp only [List.append_assoc, List.cons_append, List.nil_append]
      · rw [htotal, List.map_cons, List.sum_cons, ← hsum]
        rfl

end Word

/-- Alternatives make up a word. -/
theorem exists_join {alts : List (List α)} (hne : alts ≠ [])
    {results : List α → Multiset (List α)} (x y : Multiset (List α))
    (hall : ∀ a ∈ alts, ∃ w : Word α, w.Valid m ∧ w.Single m ∧ w.text m = a ∧
      results a = product x (product (w.outside m) y)) :
    ∃ g : Word α, g.Valid m ∧ g.text m = [m.sep].intercalate alts ∧
      (alts.map results).sum = product x (product (g.total m) y) := by
  induction alts with
  | nil => exact absurd rfl hne
  | cons a alts ih =>
    obtain ⟨w, hw, hsingle, rfl, hresult⟩ := hall a List.mem_cons_self
    cases alts with
    | nil =>
      refine ⟨w, hw, List.intercalate_singleton.symm, ?_⟩
      rw [Word.total_of_single hsingle, ← hresult]
      exact add_zero _
    | cons b alts =>
      obtain ⟨g, hg, htext, hsum⟩ := ih (List.cons_ne_nil _ _)
        fun a ha => hall a (List.mem_cons_of_mem _ ha)
      refine ⟨w.append (.char m.sep g), ?_, ?_, ?_⟩
      · exact Word.valid_append.2 ⟨hw, ⟨m.left_ne_sep.symm, m.right_ne_sep.symm⟩, hg⟩
      · rw [Word.text_append, Word.text, htext, List.intercalate_cons_cons, List.append_assoc]
        rfl
      · rw [List.map_cons, List.sum_cons, hsum, hresult, Word.total_append_sep hsingle, add_product,
          product_add]

open Classical in
/-- What is to be had from a text, by its word. -/
noncomputable def expansions (m : Marks α) (s : List α) : Multiset (List α) :=
  if h : ∃ w : Word α, w.Valid m ∧ w.text m = s then h.choose.outside m else 0

theorem expansions_text (hw : w.Valid m) : expansions m (w.text m) = w.outside m := by
  have h : ∃ x : Word α, x.Valid m ∧ x.text m = w.text m := ⟨w, hw, rfl⟩
  rw [expansions, dif_pos h, Word.eq_of_text_eq h.choose_spec.1 hw h.choose_spec.2]

/-- What is to be had from a balanced text is what its word gives. -/
theorem expands_iff {x : Multiset (List α)} :
    Expands m s x ↔ ∃ w : Word α, w.Valid m ∧ w.text m = s ∧ x = w.outside m := by
  constructor
  · intro h
    induction h with
    | @plain s hleft hright =>
      have hbalanced : ∀ n, n = 0 → Balanced m n s := by
        induction s with
        | nil => exact fun n hn => hn
        | cons c s ih =>
          intro n hn
          obtain ⟨hl, hleft⟩ := not_or.1 (List.mem_cons.not.1 hleft)
          obtain ⟨hr, hright⟩ := not_or.1 (List.mem_cons.not.1 hright)
          rw [Balanced, if_neg (Ne.symm hl), if_neg (Ne.symm hr)]
          exact ih hleft hright n hn
      obtain ⟨w, hw, rfl⟩ := Word.balanced_iff.1 (hbalanced 0 rfl)
      refine ⟨w, hw, rfl, (Word.outside_of_groups_eq_zero ?_).symm⟩
      rcases Nat.eq_zero_or_pos w.groups with hzero | hpos
      · exact hzero
      · obtain ⟨u, g, v, -, rfl⟩ := Word.exists_group hpos
        refine absurd ?_ hleft
        rw [Word.text_append]
        exact List.mem_append_right _ List.mem_cons_self
    | @group p s alts results hp hs hne hbalanced hown _ ih =>
      obtain ⟨u, hu, rfl⟩ := Word.balanced_iff.1 hp
      obtain ⟨v, hv, rfl⟩ := Word.balanced_iff.1 hs
      have hall : ∀ a ∈ alts, ∃ w : Word α, w.Valid m ∧ w.Single m ∧ w.text m = a ∧
          results a = product (u.outside m) (product (w.outside m) (v.outside m)) := by
        intro a ha
        obtain ⟨w, hw, rfl⟩ := Word.balanced_iff.1 (hbalanced a ha)
        refine ⟨w, hw, (Word.single_iff hw).2 (hown _ ha), rfl, ?_⟩
        obtain ⟨w', hw', htext, hresult⟩ := ih _ ha
        have heq : w' = u.append (w.append v) := by
          refine Word.eq_of_text_eq hw' (Word.valid_append.2 ⟨hu, Word.valid_append.2 ⟨hw, hv⟩⟩) ?_
          rw [htext, Word.text_append, Word.text_append, List.append_assoc]
        rw [hresult, heq, Word.outside_append, Word.outside_append]
      obtain ⟨g, hg, htext, hsum⟩ := exists_join hne _ _ hall
      refine ⟨u.append (.group g v), Word.valid_append.2 ⟨hu, hg, hv⟩, ?_, ?_⟩
      · rw [Word.text_append, Word.text, htext]
        simp only [List.append_assoc, List.cons_append]
      · rw [hsum, Word.outside_append, Word.outside]
  · rintro ⟨w, hw, rfl, rfl⟩
    induction hn : w.groups using Nat.strongRecOn generalizing w with
    | ind n ih =>
      subst hn
      rcases Nat.eq_zero_or_pos w.groups with hzero | hpos
      · obtain ⟨hleft, hright⟩ := Word.notMem_of_groups_eq_zero hw hzero
        rw [Word.outside_of_groups_eq_zero hzero]
        exact .plain hleft hright
      · obtain ⟨u, g, v, -, rfl⟩ := Word.exists_group hpos
        obtain ⟨hu, hg, hv⟩ := Word.valid_append.1 hw
        obtain ⟨ws, hne, hall, htext, hsum⟩ := Word.exists_alternatives hg
        -- one word with an alternative in the place of the group
        have hvalid : ∀ a ∈ ws, (u.append (a.append v)).Valid m := fun a ha =>
          Word.valid_append.2 ⟨hu, Word.valid_append.2 ⟨(hall a ha).1, hv⟩⟩
        have hgroups : ∀ a ∈ ws, (u.append (a.append v)).groups < (u.append (.group g v)).groups := by
          intro a ha
          have hle := (hall a ha).2.2
          rw [Word.groups_append, Word.groups_append, Word.groups_append, Word.groups]
          omega
        have hbalanced : ∀ a ∈ ws.map (Word.text m), Balanced m 0 a := by
          intro text htext
          obtain ⟨a, ha, rfl⟩ := List.mem_map.1 htext
          exact Word.balanced_iff.2 ⟨a, (hall a ha).1, rfl⟩
        have hown : ∀ a ∈ ws.map (Word.text m), ∀ x y, a = x ++ m.sep :: y → ¬Balanced m 0 x := by
          intro text htext
          obtain ⟨a, ha, rfl⟩ := List.mem_map.1 htext
          exact (Word.single_iff (hall a ha).1).1 (hall a ha).2.1
        have htexts : ∀ a : Word α, u.text m ++ a.text m ++ v.text m = (u.append (a.append v)).text m := by
          intro a
          rw [Word.text_append, Word.text_append, List.append_assoc]
        have heach : ∀ a ∈ ws.map (Word.text m),
            Expands m (u.text m ++ a ++ v.text m) (expansions m (u.text m ++ a ++ v.text m)) := by
          intro text htext
          obtain ⟨a, ha, rfl⟩ := List.mem_map.1 htext
          rw [htexts, expansions_text (hvalid a ha)]
          exact ih _ (hgroups a ha) _ (hvalid a ha) rfl
        have hrule := Expands.group (Word.balanced_iff.2 ⟨u, hu, rfl⟩)
          (Word.balanced_iff.2 ⟨v, hv, rfl⟩) (List.map_eq_nil_iff.not.2 hne) hbalanced hown heach
        have hresults : ((ws.map (Word.text m)).map fun a =>
            expansions m (u.text m ++ a ++ v.text m)).sum = (u.append (.group g v)).outside m := by
          rw [Word.outside_append, Word.outside, hsum, product_sum_product, List.map_map]
          congr 1
          refine List.map_congr_left fun a ha => ?_
          rw [Function.comp_apply, htexts, expansions_text (hvalid a ha), Word.outside_append,
            Word.outside_append]
        rw [hresults, ← htext] at hrule
        rw [Word.text_append, Word.text]
        simpa only [List.append_assoc, List.cons_append] using hrule

end

end ups_rules.brace_words
