-- The positions of the displays of a buffer while it is edited (edit_insert and edit_delete in
-- display.c). What is drawn before and after a change is left out, and so are the properties, which
-- are in PropChanges.
import Mathlib.Data.List.TakeDrop
import Mathlib.Tactic.Common

namespace ups_rules.display_edits

/-! ## The pure model -/

/-- A text buffer, with whether it has the operations that change it. -/
structure Textbuf (α : Type) where
  text : List α
  insert : Bool
  delete : Bool

structure Display where
  buffer : Nat
  start : Nat
  lim : Nat
  point : Nat
  mark : Nat
deriving DecidableEq

/-- The buffers, and the displays of all of them. -/
structure Displays (α : Type) where
  textbufs : Nat → Textbuf α
  all_displays : List Display

variable {α : Type}

/-- What is inserted by `ops->insert`. -/
def Textbuf.inserted (b : Textbuf α) (pos : Nat) (text : List α) : Textbuf α :=
  { b with text := b.text.take pos ++ text ++ b.text.drop pos }

/-- What is left by `ops->delete`. -/
def Textbuf.deleted (b : Textbuf α) (pos len : Nat) : Textbuf α :=
  { b with text := b.text.take pos ++ b.text.drop (pos + len) }

/-- The loop over the displays, for those of a buffer. -/
def Displays.adjust (s : Displays α) (buffer : Nat) (f : Display → Display) : Displays α :=
  { s with all_displays := s.all_displays.map fun d => if d.buffer = buffer then f d else d }

def Displays.setText (s : Displays α) (buffer : Nat) (b : Textbuf α) : Displays α :=
  { s with textbufs := fun i => if i = buffer then b else s.textbufs i }

def adjustForInsert (pos len : Nat) (d : Display) : Display :=
  { d with
    point := if pos ≤ d.point then d.point + len else d.point
    lim := if pos ≤ d.lim then d.lim + len else d.lim
    mark := if pos < d.mark then d.mark + len else d.mark
    start := if pos < d.start then d.start + len else d.start }

/-- `edit_insert`; `false` is the error "Buffer is read-only". -/
def editInsert (s : Displays α) (buffer pos : Nat) (text : List α) : Displays α × Bool :=
  if (s.textbufs buffer).insert then
    ((s.adjust buffer (adjustForInsert pos text.length)).setText buffer
      ((s.textbufs buffer).inserted pos text), true)
  else (s, false)

def adjustForDelete (pos len point : Nat) : Nat :=
  if pos ≤ point then if point < pos + len then pos else point - len else point

def editDelete (s : Displays α) (buffer pos len : Nat) : Displays α × Bool :=
  if (s.textbufs buffer).delete then
    let f (d : Display) := { d with
      point := adjustForDelete pos len d.point
      mark := adjustForDelete pos len d.mark
      start := adjustForDelete pos len d.start
      lim := adjustForDelete pos len d.lim }
    ((s.adjust buffer f).setText buffer ((s.textbufs buffer).deleted pos len), true)
  else (s, false)

/-! ## Runs -/

inductive Op (α : Type) where
  | insert (buffer pos : Nat) (text : List α)
  | delete (buffer pos len : Nat)

def exec (s : Displays α) : Op α → Displays α
  | .insert buffer pos text => (editInsert s buffer pos text).1
  | .delete buffer pos len => (editDelete s buffer pos len).1

def run (s : Displays α) (ops : List (Op α)) : Displays α := ops.foldl exec s

def Displays.length (s : Displays α) (buffer : Nat) : Nat := (s.textbufs buffer).text.length

/-- The place or the range is within the buffer. -/
def InRange (s : Displays α) : Op α → Prop
  | .insert buffer pos _ => pos ≤ s.length buffer
  | .delete buffer pos len => pos + len ≤ s.length buffer

/-- Each of the calls is within the buffer as it then is. -/
def AllInRange (s : Displays α) : List (Op α) → Prop
  | [] => True
  | op :: ops => InRange s op ∧ AllInRange (exec s op) ops

/-- The positions of a display are within a buffer of `n` characters. -/
structure Display.Within (d : Display) (n : Nat) : Prop where
  start_le_lim : d.start ≤ d.lim
  lim_le : d.lim ≤ n
  point_le : d.point ≤ n
  mark_le : d.mark ≤ n

def Displays.Valid (s : Displays α) : Prop :=
  ∀ d ∈ s.all_displays, d.Within (s.length d.buffer)

/-- Where the character at `q` is afterwards, if it is not deleted. -/
def moved (s : Displays α) (op : Op α) (buffer q : Nat) : Option Nat :=
  match op with
  | .insert b pos text =>
    if b = buffer ∧ (s.textbufs b).insert = true ∧ pos ≤ q then some (q + text.length) else some q
  | .delete b pos len =>
    if b = buffer ∧ (s.textbufs b).delete = true ∧ pos ≤ q then
      if q < pos + len then none else some (q - len)
    else some q

/-- Text goes in exactly at `q`. -/
def InsertsAt (s : Displays α) (op : Op α) (buffer q : Nat) : Prop :=
  match op with
  | .insert b pos _ => b = buffer ∧ (s.textbufs b).insert = true ∧ pos = q
  | .delete _ _ _ => False

/-- The positions of a display stay at their characters. -/
structure Follows (s : Displays α) (op : Op α) (d d' : Display) : Prop where
  buffer : d'.buffer = d.buffer
  point : ∀ q, moved s op d.buffer d.point = some q → d'.point = q
  lim : ∀ q, moved s op d.buffer d.lim = some q → d'.lim = q
  mark : ∀ q, moved s op d.buffer d.mark = some q → ¬ InsertsAt s op d.buffer d.mark → d'.mark = q
  start : ∀ q, moved s op d.buffer d.start = some q → ¬ InsertsAt s op d.buffer d.start →
    d'.start = q
  mark_stays : InsertsAt s op d.buffer d.mark → d'.mark = d.mark
  start_stays : InsertsAt s op d.buffer d.start → d'.start = d.start

/-! ## One call -/

theorem Textbuf.inserted_before {b : Textbuf α} {pos q : Nat} (hpos : pos ≤ b.text.length)
    (text : List α) (h : q < pos) : (b.inserted pos text).text[q]? = b.text[q]? := by
  have hlen : (b.text.take pos).length = pos := by simp [hpos]
  rw [Textbuf.inserted, List.append_assoc, List.getElem?_append_left (by omega),
    List.getElem?_take_of_lt h]

theorem Textbuf.inserted_after {b : Textbuf α} {pos q : Nat} (hpos : pos ≤ b.text.length)
    (text : List α) (h : pos ≤ q) :
    (b.inserted pos text).text[q + text.length]? = b.text[q]? := by
  have hlen : (b.text.take pos ++ text).length = pos + text.length := by simp [hpos]
  rw [Textbuf.inserted, List.getElem?_append_right (by omega), List.getElem?_drop]
  congr 1
  omega

theorem Textbuf.deleted_before {b : Textbuf α} {pos len q : Nat} (hpos : pos + len ≤ b.text.length)
    (h : q < pos) : (b.deleted pos len).text[q]? = b.text[q]? := by
  have hlen : (b.text.take pos).length = pos := by
    rw [List.length_take]
    omega
  rw [Textbuf.deleted, List.getElem?_append_left (by omega), List.getElem?_take_of_lt h]

theorem Textbuf.deleted_after {b : Textbuf α} {pos len q : Nat} (hpos : pos + len ≤ b.text.length)
    (h : pos + len ≤ q) : (b.deleted pos len).text[q - len]? = b.text[q]? := by
  have hlen : (b.text.take pos).length = pos := by
    rw [List.length_take]
    omega
  rw [Textbuf.deleted, List.getElem?_append_right (by omega), List.getElem?_drop]
  congr 1
  omega

/-- The character is there. -/
theorem moved_character {s : Displays α} {op : Op α} (hop : InRange s op) {buffer q q' : Nat}
    (h : moved s op buffer q = some q') :
    ((exec s op).textbufs buffer).text[q']? = (s.textbufs buffer).text[q]? := by
  cases op with
  | insert b pos text =>
    simp only [exec, editInsert]
    simp only [moved] at h
    by_cases hb : b = buffer
    · subst hb
      by_cases hins : (s.textbufs b).insert = true
      · simp only [hins, true_and, if_true, Displays.setText] at h ⊢
        split at h
        case isTrue hq =>
          cases h
          exact Textbuf.inserted_after hop text hq
        case isFalse hq =>
          cases h
          exact Textbuf.inserted_before hop text (by omega)
      · simp [hins] at h ⊢
        rw [h]
    · have hb' : ¬ buffer = b := fun e => hb e.symm
      simp only [hb, false_and, if_false, Option.some.injEq] at h
      subst h
      split <;> simp [Displays.setText, Displays.adjust, hb']
  | delete b pos len =>
    simp only [exec, editDelete]
    simp only [moved] at h
    by_cases hb : b = buffer
    · subst hb
      by_cases hdel : (s.textbufs b).delete = true
      · simp only [hdel, true_and, if_true, Displays.setText] at h ⊢
        split at h
        case isTrue hq =>
          split at h
          case isTrue => cases h
          case isFalse hge =>
            cases h
            exact Textbuf.deleted_after hop (by omega)
        case isFalse hq =>
          cases h
          exact Textbuf.deleted_before hop (by omega)
      · simp [hdel] at h ⊢
        rw [h]
    · have hb' : ¬ buffer = b := fun e => hb e.symm
      simp only [hb, false_and, if_false, Option.some.injEq] at h
      subst h
      split <;> simp [Displays.setText, Displays.adjust, hb']

/-- What a call does to a display of the list. -/
def adjusted (s : Displays α) (op : Op α) (d : Display) : Display :=
  match op with
  | .insert b pos text =>
    if d.buffer = b ∧ (s.textbufs b).insert = true then adjustForInsert pos text.length d else d
  | .delete b pos len =>
    if d.buffer = b ∧ (s.textbufs b).delete = true then
      { d with
        point := adjustForDelete pos len d.point
        mark := adjustForDelete pos len d.mark
        start := adjustForDelete pos len d.start
        lim := adjustForDelete pos len d.lim }
    else d

theorem exec_displays (s : Displays α) (op : Op α) :
    (exec s op).all_displays = s.all_displays.map (adjusted s op) := by
  cases op with
  | insert b pos text =>
    simp only [exec, editInsert]
    split
    case isTrue h =>
      simp [Displays.setText, Displays.adjust, adjusted, h]
    case isFalse h =>
      have : adjusted s (.insert b pos text) = id := by
        funext d
        simp [adjusted, h]
      simp [this]
  | delete b pos len =>
    simp only [exec, editDelete]
    split
    case isTrue h =>
      simp [Displays.setText, Displays.adjust, adjusted, h]
    case isFalse h =>
      have : adjusted s (.delete b pos len) = id := by
        funext d
        simp [adjusted, h]
      simp [this]

@[simp]
theorem adjusted_buffer (s : Displays α) (op : Op α) (d : Display) :
    (adjusted s op d).buffer = d.buffer := by
  cases op with
  | insert b pos text =>
    simp only [adjusted, adjustForInsert]
    split <;> simp
  | delete b pos len =>
    simp only [adjusted]
    split <;> simp

/-- The characters of a buffer after a call. -/
theorem length_exec {s : Displays α} {op : Op α} (hop : InRange s op) (buffer : Nat) :
    (exec s op).length buffer = match op with
      | .insert b _ text =>
        if buffer = b ∧ (s.textbufs b).insert = true then s.length buffer + text.length
        else s.length buffer
      | .delete b _ len =>
        if buffer = b ∧ (s.textbufs b).delete = true then s.length buffer - len
        else s.length buffer := by
  cases op with
  | insert b pos text =>
    simp only [InRange, Displays.length] at hop
    by_cases hins : (s.textbufs b).insert = true
    · by_cases hb : buffer = b
      · subst hb
        simp [exec, editInsert, hins, Displays.length, Displays.setText, Textbuf.inserted]
        omega
      · simp [exec, editInsert, hins, hb, Displays.length, Displays.setText, Displays.adjust]
    · simp [exec, editInsert, hins]
  | delete b pos len =>
    simp only [InRange, Displays.length] at hop
    by_cases hdel : (s.textbufs b).delete = true
    · by_cases hb : buffer = b
      · subst hb
        simp [exec, editDelete, hdel, Displays.length, Displays.setText, Textbuf.deleted]
        omega
      · simp [exec, editDelete, hdel, hb, Displays.length, Displays.setText, Displays.adjust]
    · simp [exec, editDelete, hdel]

/-- A deletion keeps the order of positions. -/
theorem adjustForDelete_le {pos len p q : Nat} (h : p ≤ q) :
    adjustForDelete pos len p ≤ adjustForDelete pos len q := by
  simp only [adjustForDelete]
  split_ifs <;> omega

theorem adjustForDelete_le_sub {pos len p n : Nat} (hn : pos + len ≤ n) (h : p ≤ n) :
    adjustForDelete pos len p ≤ n - len := by
  simp only [adjustForDelete]
  split_ifs <;> omega

/-- A call keeps the positions of a display within its buffer. -/
theorem within_adjusted {s : Displays α} {op : Op α} (hop : InRange s op) {d : Display}
    (h : d.Within (s.length d.buffer)) :
    (adjusted s op d).Within ((exec s op).length d.buffer) := by
  obtain ⟨h1, h2, h3, h4⟩ := h
  rw [length_exec hop]
  cases op with
  | insert b pos text =>
    simp only [adjusted, adjustForInsert]
    by_cases hb : d.buffer = b ∧ (s.textbufs b).insert = true
    · simp only [hb, and_self, if_true]
      rw [hb.1] at h2 h3 h4
      constructor
      · show (if pos < d.start then _ else _) ≤ if pos ≤ d.lim then _ else _
        split <;> split <;> omega
      · show (if pos ≤ d.lim then _ else _) ≤ _
        split <;> omega
      · show (if pos ≤ d.point then _ else _) ≤ _
        split <;> omega
      · show (if pos < d.mark then _ else _) ≤ _
        split <;> omega
    · simp only [hb, if_false]
      exact ⟨h1, h2, h3, h4⟩
  | delete b pos len =>
    simp only [adjusted]
    by_cases hb : d.buffer = b ∧ (s.textbufs b).delete = true
    · simp only [hb, and_self, if_true]
      rw [hb.1] at h2 h3 h4
      exact ⟨adjustForDelete_le h1, adjustForDelete_le_sub hop h2, adjustForDelete_le_sub hop h3,
        adjustForDelete_le_sub hop h4⟩
    · simp only [hb, if_false]
      exact ⟨h1, h2, h3, h4⟩

/-- A call keeps the positions of a display at their characters. -/
theorem follows_adjusted (s : Displays α) (op : Op α) (d : Display) :
    Follows s op d (adjusted s op d) := by
  cases op with
  | insert b pos text =>
    by_cases hb : b = d.buffer
    · subst hb
      by_cases hins : (s.textbufs d.buffer).insert = true
      · constructor <;>
          simp only [adjusted, adjustForInsert, moved, InsertsAt, hins, and_self, true_and, if_true] <;>
          grind
      · constructor <;> simp [adjusted, moved, InsertsAt, hins]
    · have hb' : ¬ d.buffer = b := fun e => hb e.symm
      constructor <;> simp [adjusted, moved, InsertsAt, hb, hb']
  | delete b pos len =>
    by_cases hb : b = d.buffer
    · subst hb
      by_cases hdel : (s.textbufs d.buffer).delete = true
      · constructor <;>
          simp only [adjusted, adjustForDelete, moved, InsertsAt, hdel, and_self, true_and, if_true] <;>
          grind
      · constructor <;> simp [adjusted, moved, InsertsAt, hdel]
    · have hb' : ¬ d.buffer = b := fun e => hb e.symm
      constructor <;> simp [adjusted, moved, InsertsAt, hb, hb']

theorem valid_exec {s : Displays α} {op : Op α} (hop : InRange s op) (h : s.Valid) :
    (exec s op).Valid := by
  intro d hd
  rw [exec_displays, List.mem_map] at hd
  obtain ⟨e, he, rfl⟩ := hd
  rw [adjusted_buffer]
  exact within_adjusted hop (h e he)

/-! ## Runs of calls -/

theorem valid_run {s : Displays α} {ops : List (Op α)} (hops : AllInRange s ops) (h : s.Valid) :
    (run s ops).Valid := by
  induction ops generalizing s with
  | nil => exact h
  | cons op ops ih => exact ih hops.2 (valid_exec hops.1 h)

theorem length_displays_run (s : Displays α) (ops : List (Op α)) :
    (run s ops).all_displays.length = s.all_displays.length := by
  induction ops generalizing s with
  | nil => rfl
  | cons op ops ih =>
    have hstep : (exec s op).all_displays.length = s.all_displays.length := by
      simp [exec_displays]
    exact (ih (exec s op)).trans hstep

theorem run_append (s : Displays α) (ops : List (Op α)) (op : Op α) :
    run s (ops ++ [op]) = exec (run s ops) op := by
  simp [run]

theorem allInRange_append {s : Displays α} {ops : List (Op α)} {op : Op α} :
    AllInRange s (ops ++ [op]) ↔ AllInRange s ops ∧ InRange (run s ops) op := by
  induction ops generalizing s with
  | nil => simp [AllInRange, run]
  | cons o ops ih =>
    simp only [List.cons_append, AllInRange, ih, run, List.foldl_cons]
    tauto

/-- After any calls the positions of the displays are within their buffers, and the last call has
moved each of them with its character. -/
theorem positions_follow_edits {s : Displays α} (hs : s.Valid) (ops : List (Op α)) (op : Op α)
    (hops : AllInRange s (ops ++ [op])) :
    (run s (ops ++ [op])).Valid ∧
    (run s (ops ++ [op])).all_displays.length = s.all_displays.length ∧
    (∀ buffer q q', moved (run s ops) op buffer q = some q' →
      ((run s (ops ++ [op])).textbufs buffer).text[q']? =
        ((run s ops).textbufs buffer).text[q]?) ∧
    ∀ (i : Nat) d, (run s ops).all_displays[i]? = some d →
      ∃ d', (run s (ops ++ [op])).all_displays[i]? = some d' ∧ Follows (run s ops) op d d' := by
  have hlast := (allInRange_append.1 hops).2
  refine ⟨valid_run hops hs, ?_, ?_, ?_⟩
  · rw [length_displays_run]
  · intro buffer q q' hq
    rw [run_append]
    exact moved_character hlast hq
  · intro i d hd
    refine ⟨adjusted (run s ops) op d, ?_, follows_adjusted _ op d⟩
    rw [run_append, exec_displays, List.getElem?_map, hd]
    rfl

/-- One display, with the cursor at the `c` where text is inserted, and its mark there too. -/
theorem positions_follow_edits_at_the_cursor :
    (run { textbufs := fun _ => ⟨"abcd".toList, true, true⟩,
           all_displays := [⟨0, 1, 4, 2, 2⟩] }
      ([.delete 0 3 1] ++ [.insert 0 2 "xy".toList])).Valid :=
  (positions_follow_edits (by
    intro d hd
    rcases List.mem_singleton.1 hd with rfl
    constructor <;> decide) [.delete 0 3 1] (.insert 0 2 "xy".toList) (by
      refine ⟨?_, ?_, trivial⟩ <;> simp [InRange, Displays.length, exec, editDelete,
        Displays.adjust, Displays.setText, Textbuf.deleted])).1

end ups_rules.display_edits
