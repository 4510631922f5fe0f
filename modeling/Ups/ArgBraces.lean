-- Expansion of braces in a word of a command line (arg_brace.c): all alternatives are put together in
-- one buffer, and a word that still has braces in it is expanded again.
import Mathlib.Logic.Function.Basic
import Ups.BraceWords

namespace ups_rules.arg_brace

open brace_words

/-! ## The pure model -/

/-- The characters of a string; NUL ends it. -/
abbrev Character := { c : BitVec 8 // c ≠ 0#8 }

/-- Memory for a string; `none` is NUL. -/
abbrev Memory := Nat → Option Character

/-- The string that is found from `i` on, of at most so many characters. -/
def stringAt (mem : Memory) (i : Nat) : Nat → List Character
  | 0 => []
  | n + 1 =>
    match mem i with
    | none => []
    | some c => c :: stringAt mem (i + 1) n

structure Copied where
  failed : Bool
  src : List Character
  dst : Nat
  dbuf : Memory

/-- The first loop of `do_braces`: up to the left brace. -/
def copyToLeft (db : Marks Character) (dbuf : Memory) : List Character → Nat → Copied
  | [], dst => ⟨false, [], dst, dbuf⟩
  | c :: src, dst =>
    if c = db.left then ⟨false, c :: src, dst, dbuf⟩
    else if c = db.right then ⟨true, src, dst + 1, Function.update dbuf dst (some c)⟩
    else copyToLeft db (Function.update dbuf dst (some c)) src (dst + 1)

/-- The second loop: what is behind the brace that closes the group. -/
def findRight (db : Marks Character) : Int → List Character → Option (List Character)
  | _, [] => none
  | level, c :: newsrc =>
    let level := if c = db.right then level - 1 else level
    if c ≠ db.right ∨ 0 < level then
      findRight db (if c = db.left then level + 1 else level) newsrc
    else some newsrc

structure Outcome where
  error : Option String
  dbuf : Memory
  dv : List (List Character)

/-- The third loop: `expand` is `do_braces` itself, for the rest of the string. -/
def alternatives (db : Marks Character)
    (expand : Memory → List Character → Nat → Bool → List (List Character) → Option Outcome)
    (newsrc : List Character) (dst : Nat) (no_curlies : Bool) :
    List Character → Int → Nat → Bool → Memory → List (List Character) → Option Outcome
  | [], _, _, _, dbuf, dv => some ⟨none, dbuf, dv⟩
  | c :: src, level, newdst, new_no_curlies, dbuf, dv =>
    if src.length + 1 ≤ newsrc.length then some ⟨none, dbuf, dv⟩
    else if c = db.sep ∧ level = 1 ∨ c = db.right ∧ level - 1 = 0 then
      match expand dbuf newsrc newdst (no_curlies && new_no_curlies) dv with
      | none => none
      | some o =>
        if o.error.isSome then some o
        else alternatives db expand newsrc dst no_curlies src
          (if c = db.right then level - 1 else level) dst true o.dbuf o.dv
    else
      let level := if c = db.right then level - 1 else level
      alternatives db expand newsrc dst no_curlies src (if c = db.left then level + 1 else level)
        (newdst + 1) (new_no_curlies && c ≠ db.left) (Function.update dbuf newdst (some c)) dv

/-- `do_braces`, to a depth of so many calls. Memory that is allocated holds `garbage`. -/
def doBraces (db : Marks Character) (garbage : Memory) :
    Nat → Memory → List Character → Nat → Bool → List (List Character) → Option Outcome
  | 0, _, _, _, _, _ => none
  | fuel + 1, dbuf, src, dst, no_curlies, dv =>
    let r := copyToLeft db dbuf src dst
    if r.failed then some ⟨some "unmatched \x7d", r.dbuf, dv⟩
    else match r.src with
      | [] =>
        let dbuf := Function.update r.dbuf r.dst none
        if no_curlies then some ⟨none, dbuf, dv ++ [stringAt dbuf 0 r.dst]⟩
        else (doBraces db garbage fuel garbage (stringAt dbuf 0 r.dst) 0 true dv).map fun o =>
          { o with dbuf := dbuf }
      | _ :: src =>
        match findRight db 1 src with
        | none => some ⟨some "unmatched \x7b", r.dbuf, dv⟩
        | some newsrc =>
          alternatives db (doBraces db garbage fuel) newsrc r.dst no_curlies src 1 r.dst true r.dbuf dv

/-- `arg_expand_braces`; the NULL that ends the vector is left out. -/
def argExpandBraces (db : Marks Character) (garbage : Memory) (fuel : Nat) (s : List Character) :
    Option (Except String (List (List Character))) :=
  (doBraces db garbage fuel garbage s 0 true []).map fun o =>
    match o.error with
    | some message => .error message
    | none => .ok o.dv

/-! ## The buffer -/

/-- The buffer starts with this string. -/
def Holds (mem : Memory) (s : List Character) : Prop := ∀ i < s.length, mem i = s[i]?

section
variable {db : Marks Character} {mem : Memory} {s t : List Character}

theorem holds_nil (mem : Memory) : Holds mem [] := fun _ h => absurd h (Nat.not_lt_zero _)

theorem Holds.update (h : Holds mem s) (c : Character) :
    Holds (Function.update mem s.length (some c)) (s ++ [c]) := by
  intro i hi
  rw [List.length_append, List.length_singleton] at hi
  rcases Nat.lt_succ_iff_lt_or_eq.1 hi with hlt | rfl
  · rw [Function.update_of_ne (Nat.ne_of_lt hlt), List.getElem?_append_left hlt]
    exact h i hlt
  · rw [Function.update_self, List.getElem?_append_right (Nat.le_refl _), Nat.sub_self]
    rfl

theorem Holds.of_append (h : Holds mem (s ++ t)) : Holds mem s := by
  intro i hi
  rw [h i (by rw [List.length_append]; omega), List.getElem?_append_left hi]

theorem Holds.update_end (h : Holds mem s) (c : Option Character) :
    Holds (Function.update mem s.length c) s := by
  intro i hi
  rw [Function.update_of_ne (Nat.ne_of_lt hi)]
  exact h i hi

theorem stringAt_of_holds (h : Holds mem s) : stringAt mem 0 s.length = s := by
  have hfrom : ∀ n i, i + n = s.length → stringAt mem i n = s.drop i := by
    intro n
    induction n with
    | zero =>
      intro i hi
      rw [List.drop_of_length_le (by omega)]
      rfl
    | succ n ih =>
      intro i hi
      have hlt : i < s.length := by omega
      rw [stringAt, h i hlt, List.getElem?_eq_getElem hlt, List.drop_eq_getElem_cons hlt,
        ih (i + 1) (by omega)]
  exact hfrom s.length 0 (Nat.zero_add _)

/-! ## The loops -/

theorem copyToLeft_plain (hleft : db.left ∉ t) (hright : db.right ∉ t) (h : Holds mem s)
    (r : List Character) :
    ∃ mem', Holds mem' (s ++ t) ∧
      copyToLeft db mem (t ++ r) s.length = copyToLeft db mem' r (s ++ t).length := by
  induction t generalizing s mem with
  | nil => exact ⟨mem, by rwa [List.append_nil], by rw [List.append_nil, List.nil_append]⟩
  | cons c t ih =>
    obtain ⟨hl, hleft⟩ := not_or.1 (List.mem_cons.not.1 hleft)
    obtain ⟨hr, hright⟩ := not_or.1 (List.mem_cons.not.1 hright)
    obtain ⟨mem', hmem', heq⟩ := ih hleft hright (h.update c)
    rw [List.append_assoc, List.singleton_append] at hmem' heq
    refine ⟨mem', hmem', ?_⟩
    rw [List.cons_append, copyToLeft, if_neg (Ne.symm hl), if_neg (Ne.symm hr), ← heq,
      List.length_append, List.length_singleton]

theorem findRight_text {w : Word Character} (hw : w.Valid db) {level : Int} (hlevel : 0 < level)
    (r : List Character) : findRight db level (w.text db ++ r) = findRight db level r := by
  induction w generalizing level r with
  | done => rfl
  | char c w ih =>
    obtain ⟨⟨hleft, hright⟩, hw⟩ := hw
    rw [Word.text, List.cons_append, findRight, if_neg hright, if_pos (.inl hright), if_neg hleft]
    exact ih hw hlevel r
  | group g w ihg ihw =>
    rw [Word.text, List.cons_append, findRight, if_neg db.left_ne_right,
      if_pos (.inl db.left_ne_right), if_pos rfl, List.append_assoc, ihg hw.1 (by omega),
      List.cons_append, findRight, if_pos rfl, if_pos (.inr (by omega)),
      if_neg db.left_ne_right.symm, Int.add_sub_cancel]
    exact ihw hw.2 hlevel r

theorem findRight_group {g : Word Character} (hg : g.Valid db) (r : List Character) :
    findRight db 1 (g.text db ++ db.right :: r) = some r := by
  rw [findRight_text hg (by decide), findRight, if_pos rfl, if_neg (by simp)]

theorem findRight_open (hopen : ∀ g t, Word.Valid db g → s ≠ g.text db ++ db.right :: t) {level : Int}
    (hlevel : 0 < level) : findRight db level s = none := by
  induction hn : s.length using Nat.strongRecOn generalizing s level with
  | ind n ih =>
    subst hn
    obtain ⟨w, t, hw, rfl, ht⟩ := Word.exists_text db s
    rw [findRight_text hw hlevel]
    rcases ht with rfl | ⟨r, rfl⟩ | ⟨r, rfl, hopen'⟩
    · rfl
    · exact absurd rfl (hopen w r hw)
    · rw [findRight, if_neg db.left_ne_right, if_pos (.inl db.left_ne_right), if_pos rfl]
      refine ih r.length ?_ hopen' (by omega) rfl
      rw [List.length_append, List.length_cons]
      omega

end

/-! ## Alternatives -/

section
variable {db : Marks Character}
  (expand : Memory → List Character → Nat → Bool → List (List Character) → Option Outcome)
  (newsrc : List Character) (dst : Nat) (no_curlies : Bool) (dv : List (List Character))
  {src s : List Character} {mem : Memory} {flag : Bool}

theorem alternatives_end (level : Int) :
    alternatives db expand newsrc dst no_curlies newsrc level dst flag mem dv =
      some ⟨none, mem, dv⟩ := by
  cases newsrc with
  | nil => rfl
  | cons c newsrc => exact if_pos (Nat.le_refl _)

/-- A character that is copied. -/
theorem alternatives_copy {c : Character} {level : Int} (hlen : newsrc.length ≤ src.length)
    (hsep : ¬(c = db.sep ∧ level = 1)) (hright : ¬(c = db.right ∧ level - 1 = 0)) :
    alternatives db expand newsrc dst no_curlies (c :: src) level s.length flag mem dv =
      alternatives db expand newsrc dst no_curlies src
        (if c = db.left then level + 1 else if c = db.right then level - 1 else level)
        (s ++ [c]).length (flag && c ≠ db.left) (Function.update mem s.length (some c)) dv := by
  rw [alternatives, if_neg (by omega), if_neg (not_or.2 ⟨hsep, hright⟩), List.length_append,
    List.length_singleton]
  split_ifs with h₁ h₂
  · exact absurd (h₂.symm.trans h₁) db.left_ne_right
  all_goals rfl

/-- A word in a group of the alternative is copied. -/
theorem alternatives_nested {w : Word Character} (hw : w.Valid db) {level : Int} (hlevel : 1 < level)
    (hlen : newsrc.length ≤ src.length) (h : Holds mem s) :
    ∃ mem', Holds mem' (s ++ w.text db) ∧
      alternatives db expand newsrc dst no_curlies (w.text db ++ src) level s.length false mem dv =
        alternatives db expand newsrc dst no_curlies src level (s ++ w.text db).length false mem' dv := by
  induction w generalizing s mem level src with
  | done => exact ⟨mem, by rwa [Word.text, List.append_nil], by rw [Word.text, List.append_nil]; rfl⟩
  | char c w ih =>
    obtain ⟨⟨hleft, hright⟩, hw⟩ := hw
    obtain ⟨mem', hmem', heq⟩ := ih hw hlevel hlen (h.update c)
    rw [List.append_assoc, List.singleton_append] at hmem' heq
    refine ⟨mem', hmem', ?_⟩
    rw [Word.text, List.cons_append, alternatives_copy _ _ _ _ _ (by rw [List.length_append]; omega)
      (fun hsep => by omega) (fun hr => hright hr.1), if_neg hleft, if_neg hright]
    exact heq
  | group g w ihg ihw =>
    have hlen' : newsrc.length ≤ (w.text db ++ src).length := by
      rw [List.length_append]
      omega
    have hclose : newsrc.length ≤ (db.right :: (w.text db ++ src)).length := Nat.le_succ_of_le hlen'
    obtain ⟨mem₁, hmem₁, heq₁⟩ := ihg hw.1 (Int.lt_trans hlevel (Int.lt_succ level)) hclose
      (h.update db.left)
    obtain ⟨mem₂, hmem₂, heq₂⟩ := ihw hw.2 hlevel hlen (hmem₁.update db.right)
    have htext : s ++ [db.left] ++ g.text db ++ [db.right] ++ w.text db =
        s ++ (Word.group g w).text db := by
      simp only [Word.text, List.append_assoc, List.cons_append, List.nil_append]
    rw [htext] at hmem₂ heq₂
    refine ⟨mem₂, hmem₂, ?_⟩
    rw [Word.text, List.cons_append, List.append_assoc, List.cons_append,
      alternatives_copy _ _ _ _ _ (by simp only [List.length_append, List.length_cons]; omega)
        (fun hsep => by omega) (fun hr => db.left_ne_right hr.1), if_pos rfl, Bool.false_and, heq₁,
      alternatives_copy _ _ _ _ _ hlen' (fun hsep => by omega) (fun hr => by omega),
      if_neg db.left_ne_right.symm, if_pos rfl, Bool.false_and, Int.add_sub_cancel]
    exact heq₂

/-- The first alternative goes into the buffer, and the rest of the string is expanded behind it. -/
theorem alternatives_first {w : Word Character} (hw : w.Valid db) (h : Holds mem s) :
    ∃ mem', Holds mem' (s ++ (w.split db).1.text db) ∧
      alternatives db expand newsrc dst no_curlies (w.text db ++ db.right :: newsrc) 1 s.length flag
          mem dv =
        match expand mem' newsrc (s ++ (w.split db).1.text db).length
          (no_curlies && (flag && (w.split db).1.groups = 0)) dv with
        | none => none
        | some o =>
          if o.error.isSome then some o
          else match (w.split db).2 with
            | none => some ⟨none, o.dbuf, o.dv⟩
            | some x => alternatives db expand newsrc dst no_curlies
              (x.text db ++ db.right :: newsrc) 1 dst true o.dbuf o.dv := by
  induction w generalizing s mem flag with
  | done =>
    refine ⟨mem, by rwa [Word.split, Word.text, List.append_nil], ?_⟩
    rw [Word.text, List.nil_append, alternatives, if_neg (by omega), if_pos (.inr ⟨rfl, by decide⟩)]
    simp only [Word.split, Word.text, List.append_nil, Word.groups, decide_true, Bool.and_true,
      alternatives_end]
  | char c w ih =>
    obtain ⟨⟨hleft, hright⟩, hw⟩ := hw
    rw [Word.split]
    by_cases hsep : c = db.sep
    · refine ⟨mem, by rwa [if_pos hsep, Word.text, List.append_nil], ?_⟩
      rw [Word.text, List.cons_append, alternatives,
        if_neg (by simp only [List.length_append, List.length_cons]; omega),
        if_pos (.inl ⟨hsep, rfl⟩), if_neg hright, if_pos hsep]
      simp only [Word.text, List.append_nil, Word.groups, decide_true, Bool.and_true]
    · obtain ⟨mem', hmem', heq⟩ := @ih _ _ flag hw (h.update c)
      rw [List.append_assoc, List.singleton_append] at hmem' heq
      rw [if_neg hsep]
      refine ⟨mem', hmem', ?_⟩
      rw [Word.text, List.cons_append,
        alternatives_copy _ _ _ _ _ (by simp only [List.length_append, List.length_cons]; omega)
          (fun hs => hsep hs.1) (fun hr => hright hr.1), if_neg hleft, if_neg hright,
        decide_eq_true hleft, Bool.and_true]
      exact heq
  | group g w _ ih =>
    rw [Word.split]
    have hlen : newsrc.length ≤ (w.text db ++ db.right :: newsrc).length := by
      simp only [List.length_append, List.length_cons]
      omega
    have hclose : newsrc.length ≤ (db.right :: (w.text db ++ db.right :: newsrc)).length :=
      Nat.le_succ_of_le hlen
    obtain ⟨mem₁, hmem₁, heq₁⟩ := alternatives_nested expand newsrc dst no_curlies dv hw.1
      (show (1 : Int) < 1 + 1 by decide) hclose (h.update db.left)
    obtain ⟨mem₂, hmem₂, heq₂⟩ := @ih _ _ false hw.2 (hmem₁.update db.right)
    have htext : s ++ [db.left] ++ g.text db ++ [db.right] ++ (w.split db).1.text db =
        s ++ (Word.group g (w.split db).1).text db := by
      simp only [Word.text, List.append_assoc, List.cons_append, List.nil_append]
    rw [htext] at hmem₂ heq₂
    refine ⟨mem₂, hmem₂, ?_⟩
    have hgroups : (decide ((Word.group g (w.split db).1).groups = 0)) = false :=
      decide_eq_false (Nat.succ_ne_zero _)
    rw [Word.text, List.cons_append, List.append_assoc, List.cons_append,
      alternatives_copy _ _ _ _ _ (by simp only [List.length_append, List.length_cons]; omega)
        (fun hsep => db.left_ne_sep hsep.1) (fun hr => db.left_ne_right hr.1), if_pos rfl,
      decide_eq_false (fun h => h rfl), Bool.and_false, heq₁,
      alternatives_copy _ _ _ _ _ hlen (fun hsep => by omega) (fun hr => by omega),
      if_neg db.left_ne_right.symm, if_pos rfl, Bool.false_and, Int.add_sub_cancel, heq₂]
    simp only [hgroups, Bool.false_and, Bool.and_false]

end

/-! ## The calls -/

section
variable {db : Marks Character}

/-- A call comes to its end: all that is to be had from the word in the buffer and the one that is
read goes to the end of the vector, and the buffer keeps its start. -/
structure Expanded (db : Marks Character) (res : Option Outcome) (s : List Character)
    (dv : List (List Character)) (x : Multiset (List Character)) : Prop where
  done : ∃ o l, res = some o ∧ o.error = none ∧ o.dv = dv ++ l ∧ (l : Multiset (List Character)) = x ∧
    Holds o.dbuf s

theorem alternatives_expanded
    {expand : Memory → List Character → Nat → Bool → List (List Character) → Option Outcome}
    {newsrc : List Character} {no_curlies : Bool} {u : Word Character} {n : Nat}
    {y : Multiset (List Character)}
    (hexpand : ∀ (a : Word Character) mem dv, a.Valid db → a.groups ≤ n →
      Holds mem (u.text db ++ a.text db) →
      Expanded db (expand mem newsrc (u.text db ++ a.text db).length
        (no_curlies && (true && a.groups = 0)) dv) (u.text db) dv
        (product (u.outside db) (product (a.outside db) y)))
    {w : Word Character} (hw : w.Valid db) (hn : w.groups ≤ n) {mem : Memory}
    (h : Holds mem (u.text db)) (dv : List (List Character)) :
    Expanded db (alternatives db expand newsrc (u.text db).length no_curlies
        (w.text db ++ db.right :: newsrc) 1 (u.text db).length true mem dv) (u.text db) dv
      (product (u.outside db) (product (w.total db) y)) := by
  induction hk : (w.text db).length using Nat.strongRecOn generalizing w mem dv with
  | ind k ih =>
    subst hk
    obtain ⟨hfirst, hrest⟩ := Word.valid_split hw
    have hgroups := Word.groups_split (m := db) (w := w)
    obtain ⟨mem', hmem', heq⟩ := @alternatives_first db expand newsrc (u.text db).length no_curlies dv
      _ _ true w hw h
    obtain ⟨o, l, ho, herror, hdv, hl, hkeep⟩ :=
      (hexpand _ mem' dv hfirst (by omega) hmem').done
    rw [heq, ho, Word.total_split]
    dsimp only
    rw [herror]
    cases hx : (w.split db).2 with
    | none => 
      refine ⟨_, l, rfl, rfl, hdv, ?_, hkeep⟩
      rw [hl, Option.map_none, Option.getD_none, add_zero]
    | some x =>
      rw [hx] at hgroups
      have hlt : (x.text db).length < (w.text db).length := by
        rw [Word.text_of_split hx, List.length_append, List.length_cons]
        omega
      have hle : x.groups ≤ n := Nat.le_trans (Nat.le_trans (Nat.le_add_left _ _) hgroups.le) hn
      obtain ⟨o', l', ho', herror', hdv', hl', hkeep'⟩ :=
        (ih _ hlt (hrest x hx) hle hkeep o.dv rfl).done
      refine ⟨o', l ++ l', ho', herror', ?_, ?_, hkeep'⟩
      · rw [hdv', hdv, List.append_assoc]
      · rw [← Multiset.coe_add, hl, hl', ← product_add, ← add_product]
        rfl

/-- How deep the calls can be. -/
def depth (groups : Nat) (no_curlies : Bool) : Nat := 2 * groups + if no_curlies then 0 else 1

theorem doBraces_expanded (garbage : Memory) {fuel : Nat} {u w : Word Character} {no_curlies : Bool}
    (hu : u.Valid db) (hw : w.Valid db) {mem : Memory} (h : Holds mem (u.text db))
    (hflag : no_curlies = true → u.groups = 0)
    (hfuel : depth (u.groups + w.groups) no_curlies < fuel) (dv : List (List Character)) :
    Expanded db (doBraces db garbage fuel mem (w.text db) (u.text db).length no_curlies dv)
      (u.text db) dv (product (u.outside db) (w.outside db)) := by
  induction fuel generalizing u w no_curlies mem dv with
  | zero => exact absurd hfuel (Nat.not_lt_zero _)
  | succ fuel ih =>
    rcases Nat.eq_zero_or_pos w.groups with hzero | hpos
    · -- no group is left: the word in the buffer is finished
      obtain ⟨hleft, hright⟩ := Word.notMem_of_groups_eq_zero hw hzero
      obtain ⟨mem', hmem', heq⟩ := copyToLeft_plain hleft hright h []
      rw [List.append_nil] at heq
      have hend := hmem'.update_end none
      rw [doBraces, heq, copyToLeft]
      dsimp only
      rw [if_neg Bool.false_ne_true, stringAt_of_holds hend]
      cases no_curlies with
      | true =>
        refine ⟨_, [u.text db ++ w.text db], rfl, rfl, rfl, ?_, hend.of_append⟩
        rw [Word.outside_of_groups_eq_zero (hflag rfl), Word.outside_of_groups_eq_zero hzero]
        rfl
      | false =>
        have hdepth : depth (0 + (u.append w).groups) true < fuel := by
          rw [Word.groups_append]
          unfold depth at hfuel ⊢
          simp only [Bool.false_eq_true, if_false, if_true] at hfuel ⊢
          omega
        obtain ⟨o, l, ho, herror, hdv, hl, -⟩ := (@ih .done (u.append w) true trivial
          (Word.valid_append.2 ⟨hu, hw⟩) garbage (holds_nil garbage) (fun _ => rfl) hdepth dv).done
        rw [Word.text_append] at ho
        rw [Word.outside_append] at hl
        have hagain : doBraces db garbage fuel garbage (u.text db ++ w.text db) 0 true dv = some o := ho
        rw [if_neg Bool.false_ne_true, hagain]
        exact ⟨_, l, rfl, herror, hdv, hl.trans (nil_product _), hend.of_append⟩
    · obtain ⟨p, g, v, hp, rfl⟩ := Word.exists_group hpos
      obtain ⟨hvp, hvg, hvv⟩ := Word.valid_append.1 hw
      obtain ⟨hleft, hright⟩ := Word.notMem_of_groups_eq_zero hvp hp
      obtain ⟨mem', hmem', heq⟩ := copyToLeft_plain hleft hright h ((Word.group g v).text db)
      have hgroups : (p.append (.group g v)).groups = g.groups + v.groups + 1 := by
        rw [Word.groups_append, hp, Word.groups, Nat.zero_add]
      rw [doBraces, Word.text_append, heq, Word.text, copyToLeft, if_pos rfl]
      dsimp only
      rw [if_neg Bool.false_ne_true, findRight_group hvg]
      dsimp only
      rw [← Word.text_append] at hmem' ⊢
      have hstart := Word.valid_append.2 ⟨hu, hvp⟩
      -- the word with one of the alternatives in it
      have hexpand : ∀ (a : Word Character) mem dv, a.Valid db → a.groups ≤ g.groups →
          Holds mem ((u.append p).text db ++ a.text db) →
          Expanded db (doBraces db garbage fuel mem (v.text db)
            ((u.append p).text db ++ a.text db).length (no_curlies && (true && a.groups = 0)) dv)
            ((u.append p).text db) dv
            (product ((u.append p).outside db) (product (a.outside db) (v.outside db))) := by
        intro a mem dv ha hle hmem
        rw [← Word.text_append] at hmem ⊢
        have hflag' : (no_curlies && (true && decide (a.groups = 0))) = true →
            ((u.append p).append a).groups = 0 := by
          simp only [Bool.true_and, Bool.and_eq_true, decide_eq_true_eq]
          rintro ⟨hno, hzero⟩
          rw [Word.groups_append, Word.groups_append, hflag hno, hp, hzero]
        have hdepth : depth (((u.append p).append a).groups + v.groups)
            (no_curlies && (true && a.groups = 0)) < fuel := by
          rw [Word.groups_append, Word.groups_append, hp]
          unfold depth at hfuel ⊢
          split_ifs <;> omega
        obtain ⟨o, l, ho, herror, hdv, hl, hkeep⟩ :=
          (ih (Word.valid_append.2 ⟨hstart, ha⟩) hvv hmem hflag' hdepth dv).done
        rw [Word.text_append] at hkeep
        rw [Word.outside_append, product_assoc] at hl
        exact ⟨o, l, ho, herror, hdv, hl, hkeep.of_append⟩
      obtain ⟨o, l, ho, herror, hdv, hl, hkeep⟩ :=
        (alternatives_expanded hexpand hvg (Nat.le_refl _) hmem' dv).done
      rw [Word.text_append] at hkeep
      rw [Word.outside_append, product_assoc] at hl
      refine ⟨o, l, ho, herror, hdv, ?_, hkeep.of_append⟩
      rw [hl, Word.outside_append, Word.outside]

/-- A text that is not balanced fails. -/
theorem doBraces_fails (garbage : Memory) {fuel : Nat} {s src : List Character}
    (hsrc : ¬Balanced db 0 src) {mem : Memory} (h : Holds mem s) (hfuel : src.count db.left < fuel)
    (no_curlies : Bool) (dv : List (List Character)) :
    ∃ o, doBraces db garbage fuel mem src s.length no_curlies dv = some o ∧ o.error.isSome := by
  induction fuel generalizing s src mem no_curlies dv with
  | zero => exact absurd hfuel (Nat.not_lt_zero _)
  | succ fuel ih =>
    obtain ⟨w, t, hw, rfl, ht⟩ := Word.exists_text db src
    rw [Word.balanced_append hw] at hsrc
    rcases Nat.eq_zero_or_pos w.groups with hzero | hpos
    · obtain ⟨hleft, hright⟩ := Word.notMem_of_groups_eq_zero hw hzero
      obtain ⟨mem', -, heq⟩ := copyToLeft_plain hleft hright h t
      rw [doBraces, heq]
      rcases ht with rfl | ⟨r, rfl⟩ | ⟨r, rfl, hopen⟩
      · exact absurd rfl hsrc
      · rw [copyToLeft, if_neg db.left_ne_right.symm, if_pos rfl]
        exact ⟨_, rfl, rfl⟩
      · rw [copyToLeft, if_pos rfl]
        dsimp only
        rw [if_neg Bool.false_ne_true, findRight_open hopen (by decide)]
        exact ⟨_, rfl, rfl⟩
    · obtain ⟨p, g, v, hp, rfl⟩ := Word.exists_group hpos
      obtain ⟨hvp, hvg, hvv⟩ := Word.valid_append.1 hw
      obtain ⟨hleft, hright⟩ := Word.notMem_of_groups_eq_zero hvp hp
      obtain ⟨mem', hmem', heq⟩ := copyToLeft_plain hleft hright h ((Word.group g v).text db ++ t)
      have hrest : ¬Balanced db 0 (v.text db ++ t) := by rwa [Word.balanced_append hvv]
      have htext : (p.append (.group g v)).text db ++ t =
          p.text db ++ db.left :: (g.text db ++ db.right :: (v.text db ++ t)) := by
        simp only [Word.text_append, Word.text, List.append_assoc, List.cons_append]
      have hcount : (v.text db ++ t).count db.left < fuel := by
        rw [htext] at hfuel
        simp only [List.count_append, List.count_cons_self, List.count_cons] at hfuel ⊢
        omega
      have hgroup : (Word.group g v).text db ++ t =
          db.left :: (g.text db ++ db.right :: (v.text db ++ t)) := by
        simp only [Word.text, List.append_assoc, List.cons_append]
      rw [Word.text_append, List.append_assoc, doBraces, heq, hgroup, copyToLeft, if_pos rfl]
      dsimp only
      rw [if_neg Bool.false_ne_true, findRight_group hvg]
      dsimp only
      obtain ⟨mem₁, hmem₁, hfirst⟩ := @alternatives_first db (doBraces db garbage fuel)
        (v.text db ++ t) (s ++ p.text db).length no_curlies dv _ _ true g hvg hmem'
      obtain ⟨o, ho, herror⟩ := ih hrest hmem₁ hcount _ dv
      rw [hfirst, ho]
      dsimp only
      rw [if_pos herror]
      exact ⟨o, rfl, herror⟩

theorem alternatives_mono
    {expand expand' : Memory → List Character → Nat → Bool → List (List Character) → Option Outcome}
    (hmono : ∀ mem src dst flag dv o, expand mem src dst flag dv = some o →
      expand' mem src dst flag dv = some o)
    {newsrc src : List Character} {dst newdst : Nat} {no_curlies new_no_curlies : Bool} {level : Int}
    {mem : Memory} {dv : List (List Character)} {o : Outcome}
    (h : alternatives db expand newsrc dst no_curlies src level newdst new_no_curlies mem dv = some o) :
    alternatives db expand' newsrc dst no_curlies src level newdst new_no_curlies mem dv = some o := by
  induction src generalizing level newdst new_no_curlies mem dv with
  | nil => exact h
  | cons c src ih =>
    rw [alternatives] at h ⊢
    by_cases hend : src.length + 1 ≤ newsrc.length
    · rw [if_pos hend] at h ⊢
      exact h
    rw [if_neg hend] at h ⊢
    by_cases hstop : c = db.sep ∧ level = 1 ∨ c = db.right ∧ level - 1 = 0
    · rw [if_pos hstop] at h ⊢
      cases ho : expand mem newsrc newdst (no_curlies && new_no_curlies) dv with
      | none =>
        rw [ho] at h
        cases h
      | some o' =>
        rw [ho] at h
        rw [hmono _ _ _ _ _ _ ho]
        dsimp only at h ⊢
        by_cases herror : o'.error.isSome
        · rw [if_pos herror] at h ⊢
          exact h
        · rw [if_neg herror] at h ⊢
          exact ih h
    · rw [if_neg hstop] at h ⊢
      exact ih h

/-- A deeper stack changes nothing. -/
theorem doBraces_mono {garbage : Memory} {fuel fuel' : Nat} (hle : fuel ≤ fuel') {mem : Memory}
    {src : List Character} {dst : Nat} {no_curlies : Bool} {dv : List (List Character)} {o : Outcome}
    (h : doBraces db garbage fuel mem src dst no_curlies dv = some o) :
    doBraces db garbage fuel' mem src dst no_curlies dv = some o := by
  induction fuel generalizing fuel' mem src dst no_curlies dv o with
  | zero => cases h
  | succ fuel ih =>
    cases fuel' with
    | zero => exact absurd hle (Nat.not_succ_le_zero fuel)
    | succ fuel' =>
      have hle := Nat.le_of_succ_le_succ hle
      rw [doBraces] at h ⊢
      dsimp only at h ⊢
      generalize copyToLeft db mem src dst = r at h ⊢
      obtain ⟨failed, rest, place, dbuf⟩ := r
      cases failed with
      | true => exact h
      | false =>
        rw [if_neg Bool.false_ne_true] at h ⊢
        cases rest with
        | nil =>
          cases no_curlies with
          | true => exact h
          | false =>
            obtain ⟨o', ho', rfl⟩ := Option.map_eq_some_iff.1 h
            exact Option.map_eq_some_iff.2 ⟨o', ih hle ho', rfl⟩
        | cons c rest =>
          dsimp only at h ⊢
          cases hright : findRight db 1 rest with
          | none =>
            rw [hright] at h
            exact h
          | some newsrc =>
            rw [hright] at h
            exact alternatives_mono (fun _ _ _ _ _ _ ho => ih hle ho) h

/-- The expansion comes to an end, fails just for a text that is not balanced, and else gives what is
to be had from it. -/
theorem brace_expansion_is_exact (db : Marks Character) (garbage : Memory) (s : List Character) :
    ∃ res, (∀ fuel, 2 * s.count db.left < fuel → argExpandBraces db garbage fuel s = some res) ∧
      ((∃ message, res = .error message) ↔ ¬Balanced db 0 s) ∧
      ∀ dv, res = .ok dv → ∀ x, Expands db s x ↔ x = dv := by
  have hle : s.count db.left < 2 * s.count db.left + 1 := by omega
  by_cases hs : Balanced db 0 s
  · obtain ⟨w, hw, rfl⟩ := Word.balanced_iff.1 hs
    have hdepth : depth (0 + w.groups) true < 2 * (w.text db).count db.left + 1 := by
      rw [Word.count_text hw]
      unfold depth
      simp only [if_true]
      omega
    obtain ⟨o, l, ho, herror, hdv, hl, -⟩ := (@doBraces_expanded db garbage _ .done w true trivial hw
      garbage (holds_nil garbage) (fun _ => rfl) hdepth []).done
    refine ⟨.ok l, fun fuel hfuel => ?_, iff_of_false (fun ⟨_, h⟩ => nomatch h) (not_not.2 hs), ?_⟩
    · have hmono : doBraces db garbage fuel garbage (w.text db) 0 true [] = some o :=
        doBraces_mono hfuel ho
      rw [argExpandBraces, hmono, Option.map_some, herror, hdv]
      rfl
    · rintro dv hdv' x
      cases hdv'
      rw [hl, Word.outside, nil_product, expands_iff]
      constructor
      · rintro ⟨w', hw', htext, rfl⟩
        rw [Word.eq_of_text_eq hw' hw htext]
      · rintro rfl
        exact ⟨w, hw, rfl, rfl⟩
  · obtain ⟨o, ho, herror⟩ := doBraces_fails garbage hs (holds_nil garbage) hle true []
    obtain ⟨message, hmessage⟩ := Option.isSome_iff_exists.1 herror
    refine ⟨.error message, fun fuel hfuel => ?_, iff_of_true ⟨message, rfl⟩ hs, fun _ h => nomatch h⟩
    have hmono : doBraces db garbage fuel garbage s 0 true [] = some o := doBraces_mono hfuel ho
    rw [argExpandBraces, hmono, Option.map_some, hmessage]

end

end ups_rules.arg_brace
