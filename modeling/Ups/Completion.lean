-- The completion of an ambiguous name (find_global_by_name in st_lookup.c): the first loop counts the
-- characters that all candidates have in common, the second one puts them out.
import Mathlib.Data.List.Basic
import Mathlib.Tactic.Common

namespace ups_rules.completion

/-! ## The pure model -/

abbrev Byte := BitVec 8

/-- The characters of a C string, without its NUL. -/
structure Name where
  bytes : List Byte
  no_nul : 0#8 ∉ bytes

/-- `name[i]`: the NUL is behind the characters, and behind the NUL nothing may be read. -/
def Name.at (name : Name) (i : Nat) : Option Byte := (name.bytes ++ [0#8])[i]?

/-- The `for` loop over the candidates, with `c` and `ok` set: what it leaves in `ok`. -/
def compare (c : Byte) (len : Nat) : List Name → Option Bool
  | [] => some true
  | gl :: gl_next => do
    let c1 ← gl.at len
    if c1 = 0#8 ∨ c1 ≠ c then some false else compare c len gl_next

theorem at_lt {name : Name} {i : Nat} {c : Byte} (h : name.at i = some c) : i < name.bytes.length + 1 := by
  obtain ⟨hlt, -⟩ := List.getElem?_eq_some_iff.mp h
  rwa [List.length_append] at hlt

/-- The first `while` loop, with `c` the character of the first candidate at `len`: what it leaves in
`len`. The `for` loop is not run when `c` is a NUL. -/
def countLoop (glhead : Name) (gls : List Name) (len : Nat) : Option Nat :=
  match _h : glhead.at len with
  | none => none
  | some c =>
    match if c = 0#8 then some true else compare c len (glhead :: gls) with
    | none => none
    | some false => some len
    | some true => countLoop glhead gls (len + 1)
termination_by glhead.bytes.length + 1 - len
decreasing_by
  have hlt := at_lt _h
  omega

/-- `ok = !!c` before the loop. -/
def commonLength (glhead : Name) (gls : List Name) : Option Nat :=
  match glhead.at 0 with
  | none => none
  | some c => if c = 0#8 then some 0 else countLoop glhead gls 0

/-- The second `while` loop: what goes to `handle_display_area_char`. -/
def echoLoop (glhead : Name) (gls : List Name) (funcname_len : Nat) : Option (List Byte) :=
  match _h : glhead.at funcname_len with
  | none => none
  | some c =>
    if c = 0#8 then some []
    else
      match compare c funcname_len (glhead :: gls) with
      | none => none
      | some false => some []
      | some true => (echoLoop glhead gls (funcname_len + 1)).map (c :: ·)
termination_by glhead.bytes.length + 1 - funcname_len
decreasing_by
  have hlt := at_lt _h
  omega

/-- From `funcname_len = strlen(funcname)` on: the characters that are echoed, ^e and ^u in front.
`none` when a name is read behind its NUL. -/
def complete (funcname glhead : Name) (gls : List Name) : Option (List Byte) := do
  let len ← commonLength glhead gls
  if funcname.bytes.length < len then
    let text ← echoLoop glhead gls 0
    some (5#8 :: 21#8 :: text)
  else some []

/-! ## What it is for -/

/-- The longest text that all names begin with. -/
def IsLongestPrefix (names : List Name) (text : List Byte) : Prop :=
  (∀ name ∈ names, text <+: name.bytes) ∧
    ∀ longer, (∀ name ∈ names, longer <+: name.bytes) → longer <+: text

/-- The names are read up to their NUL at most, and the longest common prefix is echoed when it is
longer than what was typed. -/
def Completes (funcname glhead : Name) (gls : List Name) : Prop :=
  ∃ text, IsLongestPrefix (glhead :: gls) text ∧
    complete funcname glhead gls =
      some (if funcname.bytes.length < text.length then 5#8 :: 21#8 :: text else [])

/-! ## The loops -/

variable {name glhead funcname : Name} {gls names : List Name} {len : Nat} {c : Byte}

/-- All names have their first characters in common with the first candidate. -/
def Agree (glhead : Name) (names : List Name) (len : Nat) : Prop :=
  ∀ name ∈ names, glhead.bytes.take len <+: name.bytes

theorem at_of_lt (h : len < name.bytes.length) : name.at len = some name.bytes[len] := by
  unfold Name.at
  rw [List.getElem?_append_left h, List.getElem?_eq_getElem h]

theorem at_length (name : Name) : name.at name.bytes.length = some 0#8 := by
  unfold Name.at
  rw [List.getElem?_append_right (Nat.le_refl _), Nat.sub_self]
  rfl

theorem at_behind (h : name.bytes.length < len) : name.at len = none := by
  unfold Name.at
  rw [List.getElem?_eq_none]
  rw [List.length_append, List.length_singleton]
  exact h

theorem getElem_ne_zero (h : len < name.bytes.length) : name.bytes[len] ≠ 0#8 :=
  fun hc => name.no_nul (hc ▸ List.getElem_mem h)

theorem take_prefix_succ_iff {l l' : List Byte} (hl : len < l.length) :
    l.take (len + 1) <+: l' ↔ l.take len <+: l' ∧ l'[len]? = some l[len] := by
  rw [List.take_succ_eq_append_getElem hl]
  constructor
  · rintro ⟨rest, rfl⟩
    have hlen : (l.take len).length = len := by
      rw [List.length_take]
      omega
    refine ⟨⟨l[len] :: rest, by rw [List.append_assoc]; rfl⟩, ?_⟩
    rw [List.append_assoc, List.getElem?_append_right (by omega), hlen, Nat.sub_self]
    rfl
  · rintro ⟨⟨rest, rfl⟩, hget⟩
    have hlen : (l.take len).length = len := by
      rw [List.length_take]
      omega
    rw [List.getElem?_append_right (by omega), hlen, Nat.sub_self] at hget
    cases rest with
    | nil => cases hget
    | cons d rest =>
      obtain rfl : d = l[len] := Option.some.inj hget
      exact ⟨rest, by rw [List.append_assoc]; rfl⟩

theorem Agree.mono {m : Nat} (h : Agree glhead names m) (hle : len ≤ m) : Agree glhead names len :=
  fun name hname => (List.take_prefix_take_left hle).trans (h name hname)

theorem agree_cons : Agree glhead (name :: names) len ↔
    glhead.bytes.take len <+: name.bytes ∧ Agree glhead names len :=
  List.forall_mem_cons

/-- The names are compared at one place, where none of them has come to its end before. -/
theorem compare_eq (hlt : len < glhead.bytes.length) (h : Agree glhead names len) :
    ∃ ok, compare glhead.bytes[len] len names = some ok ∧
      (ok = true ↔ Agree glhead names (len + 1)) := by
  induction names with
  | nil => exact ⟨true, rfl, iff_of_true rfl fun _ h => absurd h List.not_mem_nil⟩
  | cons gl gl_next ih =>
    obtain ⟨hgl, hrest⟩ := agree_cons.mp h
    have hle : len ≤ gl.bytes.length := by
      have hlen := hgl.length_le
      rw [List.length_take] at hlen
      omega
    obtain ⟨c1, hc1, hagree⟩ : ∃ c1, gl.at len = some c1 ∧
        (¬(c1 = 0#8 ∨ c1 ≠ glhead.bytes[len]) ↔ glhead.bytes.take (len + 1) <+: gl.bytes) := by
      rw [take_prefix_succ_iff hlt]
      rcases Nat.lt_or_eq_of_le hle with hlen | hlen
      · refine ⟨gl.bytes[len], at_of_lt hlen, ?_⟩
        rw [List.getElem?_eq_getElem hlen, Option.some_inj, not_or, not_not]
        exact ⟨fun hc => ⟨hgl, hc.2⟩, fun hc => ⟨getElem_ne_zero hlen, hc.2⟩⟩
      · refine ⟨0#8, by rw [hlen]; exact at_length gl, iff_of_false (fun hc => hc (.inl rfl)) ?_⟩
        rintro ⟨-, hget⟩
        rw [List.getElem?_eq_none (by omega)] at hget
        cases hget
    obtain ⟨ok, heq, hok⟩ := ih hrest
    rw [agree_cons, ← hagree, compare, hc1]
    simp only [Option.bind_eq_bind, Option.bind_some]
    by_cases hstop : c1 = 0#8 ∨ c1 ≠ glhead.bytes[len]
    · rw [if_pos hstop]
      exact ⟨false, rfl, iff_of_false Bool.false_ne_true fun hc => hc.1 hstop⟩
    · rw [if_neg hstop]
      exact ⟨ok, heq, hok.trans (and_iff_right hstop).symm⟩

/-- The loop counts the common characters, unless it comes to the end of the first candidate. -/
theorem countLoop_spec (hle : len ≤ glhead.bytes.length) (h : Agree glhead (glhead :: gls) len) :
    (∃ m, m < glhead.bytes.length ∧ countLoop glhead gls len = some m ∧
      Agree glhead (glhead :: gls) m ∧ ¬Agree glhead (glhead :: gls) (m + 1)) ∨
    (countLoop glhead gls len = none ∧ Agree glhead (glhead :: gls) glhead.bytes.length) := by
  obtain ⟨k, hk⟩ : ∃ k, len + k = glhead.bytes.length := ⟨glhead.bytes.length - len, by omega⟩
  induction k generalizing len with
  | zero =>
    obtain rfl : len = glhead.bytes.length := by omega
    refine .inr ⟨?_, h⟩
    have hnext : countLoop glhead gls (glhead.bytes.length + 1) = none := by
      rw [countLoop, at_behind (Nat.lt_succ_self _)]
    rw [countLoop, at_length]
    exact hnext
  | succ k ih =>
    have hlt : len < glhead.bytes.length := by omega
    obtain ⟨ok, heq, hok⟩ := compare_eq hlt h
    have hloop : countLoop glhead gls len =
        if ok = true then countLoop glhead gls (len + 1) else some len := by
      rw [countLoop, at_of_lt hlt]
      dsimp only
      rw [if_neg (getElem_ne_zero hlt), heq]
      cases ok <;> rfl
    rw [hloop]
    split_ifs with htrue
    · exact ih (by omega) (hok.mp htrue) (by omega)
    · exact .inl ⟨len, hlt, rfl, h, mt hok.mpr htrue⟩

/-- The second loop stops at the same place. -/
theorem echoLoop_spec {m : Nat} (hm : m < glhead.bytes.length) (h : Agree glhead (glhead :: gls) m)
    (hnot : ¬Agree glhead (glhead :: gls) (m + 1)) (hle : len ≤ m) :
    echoLoop glhead gls len = some ((glhead.bytes.take m).drop len) := by
  obtain ⟨k, hk⟩ : ∃ k, len + k = m := ⟨m - len, by omega⟩
  induction k generalizing len with
  | zero =>
    obtain rfl : len = m := by omega
    obtain ⟨ok, heq, hok⟩ := compare_eq hm h
    have hfalse : ok = false := Bool.eq_false_iff.mpr (mt hok.mp hnot)
    rw [echoLoop, at_of_lt hm]
    dsimp only
    rw [if_neg (getElem_ne_zero hm), heq, hfalse, List.drop_eq_nil_of_le]
    rw [List.length_take]
    omega
  | succ k ih =>
    have hlt : len < glhead.bytes.length := by omega
    obtain ⟨ok, heq, hok⟩ := compare_eq hlt (h.mono hle)
    have htrue : ok = true := hok.mpr (h.mono (by omega))
    have hdrop : (glhead.bytes.take m).drop len =
        glhead.bytes[len] :: (glhead.bytes.take m).drop (len + 1) := by
      rw [List.drop_eq_getElem_cons (by rw [List.length_take]; omega), List.getElem_take]
    rw [echoLoop, at_of_lt hlt]
    dsimp only
    rw [if_neg (getElem_ne_zero hlt), heq, htrue, hdrop]
    dsimp only
    rw [ih (by omega) (by omega)]
    rfl

/-! ## The longest common prefix -/

theorem isLongestPrefix_take {m : Nat} (h : Agree glhead (glhead :: gls) m)
    (hnot : ¬Agree glhead (glhead :: gls) (m + 1)) :
    IsLongestPrefix (glhead :: gls) (glhead.bytes.take m) := by
  refine ⟨h, fun longer hlonger => ?_⟩
  have hhead : longer = glhead.bytes.take longer.length :=
    List.prefix_iff_eq_take.mp (hlonger glhead List.mem_cons_self)
  rcases Nat.lt_or_ge m longer.length with hlt | hle
  · have hagree : Agree glhead (glhead :: gls) longer.length := by
      unfold Agree
      rwa [← hhead]
    exact absurd (hagree.mono hlt) hnot
  · rw [hhead]
    exact List.take_prefix_take_left hle

theorem agree_length_iff :
    Agree glhead (glhead :: gls) glhead.bytes.length ↔ ∀ gl ∈ gls, glhead.bytes <+: gl.bytes := by
  rw [agree_cons, List.take_length, and_iff_right (List.prefix_refl _)]
  unfold Agree
  rw [List.take_length]

/-- A first candidate that all others begin with is read behind its NUL. -/
theorem complete_none (hne : glhead.bytes ≠ []) (h : ∀ gl ∈ gls, glhead.bytes <+: gl.bytes) :
    complete funcname glhead gls = none := by
  have hpos := List.length_pos_iff.mpr hne
  have hall := agree_length_iff.mpr h
  have hcount : commonLength glhead gls = none := by
    unfold commonLength
    rw [at_of_lt hpos]
    dsimp only
    rw [if_neg (getElem_ne_zero hpos)]
    have hzero := hall.mono (Nat.zero_le _)
    rcases countLoop_spec (Nat.zero_le _) hzero with ⟨m, hm, -, -, hnot⟩ | ⟨heq, -⟩
    · exact absurd (hall.mono hm) hnot
    · exact heq
  unfold complete
  rw [hcount]
  rfl

theorem completes_of_empty (h : glhead.bytes = []) : Completes funcname glhead gls := by
  refine ⟨[], ⟨fun _ _ => List.nil_prefix, fun longer hlonger => ?_⟩, ?_⟩
  · rw [← h]
    exact hlonger glhead List.mem_cons_self
  · have hat : glhead.at 0 = some 0#8 := by
      have hend := at_length glhead
      rwa [h] at hend
    have hcount : commonLength glhead gls = some 0 := by
      unfold commonLength
      rw [hat]
      rfl
    unfold complete
    rw [hcount]
    rfl

theorem not_prefix_completes (hne : glhead.bytes ≠ [])
    (h : ¬∀ gl ∈ gls, glhead.bytes <+: gl.bytes) :
    Completes funcname glhead gls := by
  have hpos := List.length_pos_iff.mpr hne
  have hzero : Agree glhead (glhead :: gls) 0 := fun _ _ => List.nil_prefix
  rcases countLoop_spec (Nat.zero_le _) hzero with ⟨m, hm, heq, hagree, hnot⟩ | ⟨-, hall⟩
  · have hcount : commonLength glhead gls = some m := by
      unfold commonLength
      rw [at_of_lt hpos]
      dsimp only
      rw [if_neg (getElem_ne_zero hpos), heq]
    have hlen : (glhead.bytes.take m).length = m := by
      rw [List.length_take]
      omega
    refine ⟨_, isLongestPrefix_take hagree hnot, ?_⟩
    unfold complete
    rw [hcount, hlen]
    simp only [Option.bind_eq_bind, Option.bind_some]
    split_ifs
    · rw [echoLoop_spec hm hagree hnot (Nat.zero_le m)]
      rfl
    · rfl
  · exact absurd (agree_length_iff.mp hall) h

/-- The longest common prefix is echoed just when the first candidate is empty or is not the beginning
of all the others; else the first loop goes on behind its NUL. -/
theorem completes_iff (funcname glhead : Name) (gls : List Name) :
    Completes funcname glhead gls ↔
      glhead.bytes = [] ∨ ¬∀ gl ∈ gls, glhead.bytes <+: gl.bytes := by
  by_cases hne : glhead.bytes = []
  · exact iff_of_true (completes_of_empty hne) (.inl hne)
  by_cases hall : ∀ gl ∈ gls, glhead.bytes <+: gl.bytes
  · refine iff_of_false ?_ (not_or.mpr ⟨hne, not_not.mpr hall⟩)
    rintro ⟨text, -, htext⟩
    rw [complete_none hne hall] at htext
    cases htext
  · exact iff_of_true (not_prefix_completes hne hall) (.inr hall)

def f : Name := ⟨[102#8], by decide⟩

def foo : Name := ⟨[102#8, 111#8, 111#8], by decide⟩

def foobar : Name := ⟨[102#8, 111#8, 111#8, 98#8, 97#8, 114#8], by decide⟩

/-- `f` is not completed to `foo` where the candidates are `foo` and `foobar`. -/
theorem f_is_not_completed : ¬∀ funcname glhead gls, gls ≠ [] → Completes funcname glhead gls := by
  intro h
  obtain ⟨text, -, htext⟩ := h f foo [foobar] (List.cons_ne_nil _ _)
  rw [complete_none (List.cons_ne_nil _ _) (by decide)] at htext
  cases htext

end ups_rules.completion
