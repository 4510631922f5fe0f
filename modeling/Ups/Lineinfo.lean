-- The lines and the characters of a buffer whose text comes in chunks (util.c in libedit).
import Mathlib.Algebra.Ring.Int.Defs
import Mathlib.Algebra.Ring.Nat
import Mathlib.Data.List.TakeDrop
import Mathlib.Data.List.TakeWhile
import Mathlib.Tactic.Common

namespace ups_rules.lineinfo

/-! ## The pure model -/

abbrev Byte := BitVec 8

/-- How many of the `n` bytes of a text `edit_get_bytes` gives from a place on, and
`edit_get_bytes_before` up to it. -/
structure Chunks (n : Nat) where
  size : Nat → Nat
  before : Nat → Nat
  size_pos : ∀ p < n, 0 < size p
  size_le : ∀ p < n, p + size p ≤ n
  -- From a place within a chunk on there is what is left of it
  size_add : ∀ p < n, ∀ k < size p, size (p + k) = size p - k
  before_pos : ∀ p ≤ n, 0 < p → 0 < before p
  before_le : ∀ p ≤ n, before p ≤ p

section
variable {n size p : Nat}

theorem block_pos (hsize : 0 < size) (hp : p < n) : 0 < min (size - p % size) (n - p) := by
  have := Nat.mod_lt p hsize
  omega

theorem block_le (hp : p < n) : p + min (size - p % size) (n - p) ≤ n := by omega

theorem block_add {k : Nat} (hk : k < min (size - p % size) (n - p)) :
    min (size - (p + k) % size) (n - (p + k)) = min (size - p % size) (n - p) - k := by
  have hblock : k < size - p % size := (Nat.lt_min.1 hk).1
  have hmod : (p + k) % size = p % size + k := by
    rw [← Nat.mod_add_mod, Nat.mod_eq_of_lt (by omega)]
  rw [hmod, ← Nat.sub_sub, ← Nat.sub_sub, Nat.sub_min_sub_right]

theorem block_before (h : 0 < p) : 0 < min p ((p - 1) % size + 1) := by omega

end

/-- The text in blocks of `size` bytes. -/
def blocks (n size : Nat) (hsize : 0 < size) : Chunks n where
  size := fun p => min (size - p % size) (n - p)
  before := fun p => min p ((p - 1) % size + 1)
  size_pos := fun _ hp => block_pos hsize hp
  size_le := fun _ hp => block_le hp
  size_add := fun _ _ _ hk => block_add hk
  before_pos := fun _ _ h => block_before h
  before_le := fun _ _ => Nat.min_le_left ..

def exclamationMark : Byte := 33#8

def hyphen : Byte := 45#8

/-- The loop of `make_charmap`, with the character before. Characters are signed, and a range from
a negative one is written before the map. -/
def charmapLoop : Option Byte → List Byte → (Byte → Bool) → Option (Byte → Bool)
  | _, [], map => some map
  | _, [c], map => some fun x => if x = c then true else map x
  | prev, c :: lastch :: rest, map =>
    match prev, decide (c = hyphen) with
    | some first, true =>
      if first.toInt < 0 ∧ first.toInt ≤ lastch.toInt then none
      else charmapLoop (some lastch) rest fun x =>
        if first.toInt ≤ x.toNat ∧ x.toNat ≤ lastch.toInt then true
        else if x = first then false else map x
    | _, _ => charmapLoop (some c) (lastch :: rest) fun x => if x = c then true else map x

def makeCharmap (pat : List Byte) : Option (Byte → Bool) :=
  match pat with
  | [c] => some fun x => x = c
  | pat =>
    if pat.head? = some exclamationMark then
      (charmapLoop none pat.tail fun _ => false).map fun map x => !map x
    else charmapLoop none pat fun _ => false

section
variable (text : List Byte) (ck : Chunks text.length)

/-- The loop of `edit_find_char_forwards`. -/
def findForwards (map : Byte → Bool) (lim : Nat) : Nat → Nat → Option (Bool × Nat)
  | 0, _ => none
  | fuel + 1, pos =>
    if pos < lim ∧ pos < text.length then
      let chunk := (text.drop pos).take (min (ck.size pos) (lim - pos))
      match chunk.findIdx? map with
      | some i => some (true, pos + i)
      | none => findForwards map lim fuel (pos + chunk.length)
    else some (false, pos)

def editFindCharForwards (pos lim : Nat) (pat : List Byte) : Option (Bool × Nat) := do
  let map ← makeCharmap pat
  findForwards text ck map lim (text.length + 1) pos

/-- The loop of `edit_find_char_backwards`. -/
def findBackwards (map : Byte → Bool) (minpos : Nat) : Nat → Nat → Option (Bool × Nat)
  | 0, _ => none
  | fuel + 1, pos =>
    if minpos < pos ∧ pos ≤ text.length then
      let start := max (pos - ck.before pos) minpos
      let chunk := (text.take pos).drop start
      match chunk.reverse.findIdx? map with
      | some i => some (true, start + (chunk.length - 1 - i))
      | none => if start = minpos then some (false, start) else findBackwards map minpos fuel start
    else some (false, pos)

def editFindCharBackwards (pos minpos : Nat) (pat : List Byte) : Option (Bool × Nat) := do
  let map ← makeCharmap pat
  findBackwards text ck map minpos (text.length + 1) pos
end

/-- `left` is the number of bytes from `iptr` to `ilim`, where these are not null. -/
structure Lineinfo where
  pos : Nat
  left : Option Nat
  endc : Byte
  linebuf : List Byte
deriving DecidableEq

/-- The bytes at `*p_line`, and the other results. -/
structure Line where
  line : List Byte
  linelen : Nat
  seen_eol : Bool
deriving DecidableEq

def makeLineinfo (endc : Byte) : Lineinfo := ⟨0, none, endc, []⟩

def setLineinfoPos (li : Lineinfo) (pos : Nat) : Lineinfo := { li with pos := pos, left := none }

section
variable (text : List Byte) (ck : Chunks text.length) (lim : Option Nat)

/-- The next chunk where `iptr` is at `ilim`, and whether there is one. A limit of `none` is
`EDIT_MAX_POINT`. -/
def fill (li : Lineinfo) : Lineinfo × Bool :=
  if li.left.getD 0 ≠ 0 then (li, true)
  else if lim = some li.pos then (li, false)
  else if text.length ≤ li.pos then ({ li with left := none }, false)
  else
    let size := match lim with
      | some lim => min (ck.size li.pos) (lim - li.pos)
      | none => ck.size li.pos
    ({ li with left := some size }, true)

/-- The loop of `nextline`, with `linelen` and the bytes from `old_iptr` to `iptr`. -/
def nextlineLoop : Nat → Lineinfo → Nat → List Byte → Option (Lineinfo × Nat × List Byte × Bool)
  | 0, _, _, _ => none
  | fuel + 1, li, linelen, old =>
    match fill text ck lim li with
    | (li, false) => some (li, linelen, old, false)
    | (li, true) =>
      let left := li.left.getD 0
      let chunk := (text.drop li.pos).take left
      match chunk.findIdx? (· == li.endc) with
      | some i =>
        some ({ li with pos := li.pos + (i + 1), left := some (left - (i + 1)) },
          linelen + (i + 1), chunk.take (i + 1), true)
      | none =>
        nextlineLoop fuel
          { li with
            pos := li.pos + chunk.length, left := some 0, linebuf := li.linebuf ++ chunk }
          (linelen + chunk.length) chunk

def nextline (li : Lineinfo) : Option (Lineinfo × Line × Bool) := do
  let (li, linelen, old, seen_eol) ←
    nextlineLoop text ck lim (text.length + 2) { li with linebuf := [] } 0 []
  let more := linelen ≠ 0 || seen_eol
  let len := if seen_eol then linelen - 1 else linelen
  if linelen > old.length ∧ li.left ≠ none then
    let linebuf := li.linebuf ++ old
    some ({ li with linebuf := linebuf }, ⟨linebuf, len, seen_eol⟩, more)
  else some (li, ⟨old, len, seen_eol⟩, more)

def editNextline (li : Lineinfo) : Option (Lineinfo × Line × Bool) := nextline text ck none li

/-- The string of `endc` and a NUL. -/
def endPattern (endc : Byte) : List Byte := if endc = 0#8 then [] else [endc]

/-- There is no line where `false` comes back. -/
def editPrevline (li : Lineinfo) : Option (Lineinfo × Line × Bool) := do
  if li.pos = 0 then some (li, ⟨[], 0, false⟩, false)
  else
    let (found, pos) ← editFindCharBackwards text ck (li.pos - 1) 0 (endPattern li.endc)
    let pos := if found then pos + 1 else pos
    let (li, line, more) ← nextline text ck (some li.pos) { li with pos := pos, left := none }
    some ({ li with pos := pos }, line, more)
end

/-! ## The text without chunks -/

/-- The nearest place from `pos` on and before `lim` with a character of the set, or the end. -/
def NearestForwards (text : List Byte) (map : Byte → Bool) (pos lim : Nat) : Bool × Nat → Prop
  | (true, p) => (pos ≤ p ∧ p < lim ∧ ∃ c, text[p]? = some c ∧ map c = true) ∧
    ∀ q, pos ≤ q → q < p → ∀ c, text[q]? = some c → map c = false
  | (false, p) => p = max pos (min lim text.length) ∧
    ∀ q, pos ≤ q → q < lim → ∀ c, text[q]? = some c → map c = false

/-- The nearest place before `pos` and from `minpos` on. -/
def NearestBackwards (text : List Byte) (map : Byte → Bool) (pos minpos : Nat) :
    Bool × Nat → Prop
  | (true, p) => (minpos ≤ p ∧ p < pos ∧ ∃ c, text[p]? = some c ∧ map c = true) ∧
    ∀ q, p < q → q < pos → ∀ c, text[q]? = some c → map c = false
  | (false, p) => p = min pos minpos ∧
    ∀ q, minpos ≤ q → q < pos → ∀ c, text[q]? = some c → map c = false

/-- The pieces of a text between the end characters, with whether each ends with one. -/
def pieces (endc : Byte) : List Byte → List (List Byte × Bool)
  | [] => []
  | c :: rest =>
    if c = endc then ([], true) :: pieces endc rest
    else match pieces endc rest with
      | [] => [([c], false)]
      | (piece, eol) :: more => (c :: piece, eol) :: more

/-- The bytes at the pointer are those of the piece. -/
structure Line.Holds (r : Line) (piece : List Byte × Bool) : Prop where
  linelen : r.linelen = piece.1.length
  line : r.line.take r.linelen = piece.1
  seen_eol : r.seen_eol = piece.2

/-! ## The search for a character -/

section
variable {text : List Byte} {ck : Chunks text.length} {map : Byte → Bool}

theorem getElem?_chunk {start len q : Nat} (hq : q < len) :
    ((text.drop start).take len)[q]? = text[start + q]? := by
  rw [List.getElem?_take_of_lt hq, List.getElem?_drop]

/-- No character of a chunk is in the set. -/
theorem findIdx?_none {chunk : List Byte} (h : chunk.findIdx? map = none) (q : Nat) (c : Byte)
    (hc : chunk[q]? = some c) : map c = false := by
  rw [List.findIdx?_eq_none_iff] at h
  exact h c (List.mem_of_getElem? hc)

theorem findIdx?_some {chunk : List Byte} {i : Nat} (h : chunk.findIdx? map = some i) :
    (∃ c, chunk[i]? = some c ∧ map c = true) ∧
      ∀ q < i, ∀ c, chunk[q]? = some c → map c = false := by
  obtain ⟨hi, hmap, hbefore⟩ := List.findIdx?_eq_some_iff_getElem.1 h
  refine ⟨⟨chunk[i], List.getElem?_eq_getElem hi, hmap⟩, fun q hq c hc => ?_⟩
  have := hbefore q hq
  rw [List.getElem?_eq_getElem (by omega)] at hc
  cases hc
  simpa using this

theorem findForwards_spec (ck : Chunks text.length) (map : Byte → Bool) (lim fuel pos : Nat)
    (hpos : pos ≤ text.length) (hfuel : text.length - pos < fuel) :
    ∃ r, findForwards text ck map lim fuel pos = some r ∧ NearestForwards text map pos lim r := by
  induction fuel generalizing pos with
  | zero => omega
  | succ fuel ih =>
    unfold findForwards
    by_cases hmore : pos < lim ∧ pos < text.length
    · rw [if_pos hmore]
      have hsize := ck.size_pos pos hmore.2
      have hle := ck.size_le pos hmore.2
      generalize hlen : min (ck.size pos) (lim - pos) = len
      have hchunk : ((text.drop pos).take len).length = len := by
        rw [List.length_take, List.length_drop]
        omega
      dsimp only
      rcases hfind : ((text.drop pos).take len).findIdx? map with _ | i
      · -- No character of the chunk: the search goes on behind it
        have hnone : ∀ q, pos ≤ q → q < pos + len → ∀ c, text[q]? = some c → map c = false := by
          intro q hq hlt c hc
          apply findIdx?_none hfind (q - pos) c
          rw [getElem?_chunk (by omega), Nat.add_sub_cancel' hq]
          exact hc
        obtain ⟨r, hr, hnear⟩ := ih (pos + len) (by omega) (by omega)
        rw [hchunk]
        refine ⟨r, hr, ?_⟩
        rcases r with ⟨_ | _, p⟩
        · obtain ⟨hp, hrest⟩ := hnear
          refine ⟨by omega, fun q hq hlt => ?_⟩
          rcases Nat.lt_or_ge q (pos + len) with h | h
          · exact hnone q hq h
          · exact hrest q h hlt
        · obtain ⟨⟨hp, hlim, hc⟩, hrest⟩ := hnear
          refine ⟨⟨by omega, hlim, hc⟩, fun q hq hlt => ?_⟩
          rcases Nat.lt_or_ge q (pos + len) with h | h
          · exact hnone q hq h
          · exact hrest q h hlt
      · obtain ⟨⟨c, hc, hmap⟩, hbefore⟩ := findIdx?_some hfind
        have hi : i < len := by
          have := (List.getElem?_eq_some_iff.1 hc).1
          omega
        rw [getElem?_chunk hi] at hc
        refine ⟨(true, pos + i), rfl, ⟨by omega, by omega, c, hc, hmap⟩, fun q hq hlt c' hc' => ?_⟩
        apply hbefore (q - pos) (by omega) c'
        rw [getElem?_chunk (by omega), Nat.add_sub_cancel' hq]
        exact hc'
    · rw [if_neg hmore]
      refine ⟨(false, pos), rfl, by omega, fun q hq hlt c hc => ?_⟩
      have := (List.getElem?_eq_some_iff.1 hc).1
      omega

/-- The bytes between two places. -/
theorem getElem?_between {start pos q : Nat} (hq : q < pos - start) :
    ((text.take pos).drop start)[q]? = text[start + q]? := by
  rw [List.getElem?_drop, List.getElem?_take_of_lt (by omega)]

theorem findBackwards_spec (ck : Chunks text.length) (map : Byte → Bool) (minpos fuel pos : Nat)
    (hpos : pos ≤ text.length) (hfuel : pos < fuel) :
    ∃ r, findBackwards text ck map minpos fuel pos = some r ∧
      NearestBackwards text map pos minpos r := by
  induction fuel generalizing pos with
  | zero => omega
  | succ fuel ih =>
    unfold findBackwards
    by_cases hmore : minpos < pos ∧ pos ≤ text.length
    · rw [if_pos hmore]
      have hbefore := ck.before_pos pos hpos (by omega)
      have hle := ck.before_le pos hpos
      generalize hstart : max (pos - ck.before pos) minpos = start
      have hchunk : ((text.take pos).drop start).length = pos - start := by
        rw [List.length_drop, List.length_take]
        omega
      dsimp only
      rcases hfind : ((text.take pos).drop start).reverse.findIdx? map with _ | i
      · have hnone : ∀ q, start ≤ q → q < pos → ∀ c, text[q]? = some c → map c = false := by
          intro q hq hlt c hc
          apply findIdx?_none hfind (pos - 1 - q) c
          rw [List.getElem?_reverse (by omega), hchunk, getElem?_between (by omega), ← hc]
          congr 1
          omega
        by_cases hend : start = minpos
        · rw [if_pos hend]
          refine ⟨(false, start), rfl, by omega, fun q hq hlt => hnone q (by omega) hlt⟩
        · rw [if_neg hend]
          obtain ⟨r, hr, hnear⟩ := ih start (by omega) (by omega)
          refine ⟨r, hr, ?_⟩
          rcases r with ⟨_ | _, p⟩
          · obtain ⟨hp, hrest⟩ := hnear
            refine ⟨by omega, fun q hq hlt => ?_⟩
            rcases Nat.lt_or_ge q start with h | h
            · exact hrest q hq h
            · exact hnone q h hlt
          · obtain ⟨⟨hp, hlim, hc⟩, hrest⟩ := hnear
            refine ⟨⟨by omega, by omega, hc⟩, fun q hq hlt => ?_⟩
            rcases Nat.lt_or_ge q start with h | h
            · exact hrest q hq h
            · exact hnone q h hlt
      · obtain ⟨⟨c, hc, hmap⟩, hbehind⟩ := findIdx?_some hfind
        have hi : i < pos - start := by
          have := (List.getElem?_eq_some_iff.1 hc).1
          rw [List.length_reverse] at this
          omega
        rw [List.getElem?_reverse (by omega), hchunk, getElem?_between (by omega)] at hc
        rw [hchunk]
        refine ⟨(true, start + (pos - start - 1 - i)), rfl, ⟨by omega, by omega, c, hc, hmap⟩,
          fun q hq hlt c' hc' => ?_⟩
        apply hbehind (pos - 1 - q) (by omega) c'
        rw [List.getElem?_reverse (by omega), hchunk, getElem?_between (by omega), ← hc']
        congr 1
        omega
    · rw [if_neg hmore]
      exact ⟨(false, pos), rfl, by omega, fun q hq hlt => by omega⟩
end

end ups_rules.lineinfo
