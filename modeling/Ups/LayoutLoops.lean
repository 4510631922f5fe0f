-- The loops that lay out lines until one is reached (make_lmap and go_backwards in flines.c), and
-- whether each line goes on. The properties at the beginning of a line may be any.
import Ups.LineLayout
import Ups.Lineinfo
import Ups.Walks

namespace ups_rules.line_layout

open walks

/-! ## The pure model -/

def setLmap (point : Nat) : Lmap := ⟨point, 0, 0⟩

/-- How a loop ends; `turns` where it has not come to its end after a number of turns. -/
inductive Result where
  | found (lm : Lmap)
  | botch
  | turns

/-- A display of folded or clipped lines, with the chunks before places and the properties at
places. -/
structure Layouts where
  display : Display
  -- `edit_use_folded_lines`
  stop_at_newline : display.render_context.stop_at_newline = true
  text : List Byte
  -- `EDIT_MAX_POINT`
  size : text.length < 2 ^ 64 - 1
  chunks : Chunks text.length
  chunks_before : lineinfo.Chunks text.length
  props : Nat → Propchange

variable (s : Layouts)

/-- The beginning of the text line of the character before a place. A file buffer has no bytes
before a place behind its end. -/
def Layouts.lineStart (pos : Nat) : Nat :=
  match lineinfo.editFindCharBackwards s.text s.chunks_before pos 0 [newline] with
  | some (true, p) => p + 1
  | some (false, p) => p
  | none => 0

def Layouts.noFinalNewline : Bool := s.text.getLast? ≠ some newline

def Layouts.convert (lm : Lmap) : Option Lmap :=
  (convertLine s.display s.text s.chunks lm (s.props lm.point)).map Layout.next

/-- `next_lmap` is behind the point. -/
def Layouts.Behind (point : Nat) (next : Lmap) : Prop :=
  (next.point > point ∨ (next.point = point ∧ next.ch_offset ≠ 0)) ∨
    (point = s.text.length ∧ s.noFinalNewline ∧ next.point = point)

instance (point : Nat) (next : Lmap) : Decidable (s.Behind point next) :=
  inferInstanceAs (Decidable (_ ∨ _))

def Layouts.makeLmapLoop (point : Nat) : Nat → Lmap → Result
  | 0, _ => .turns
  | turns + 1, lm =>
    match s.convert lm with
    | none => .botch
    | some next => if s.Behind point next then .found lm else makeLmapLoop point turns next

def Layouts.makeLmap (turns point : Nat) : Result :=
  let lm := setLmap (s.lineStart point)
  if lm.point = point then .found lm else s.makeLmapLoop point turns lm

def Layouts.goBackwardsLoop (lm : Lmap) : Nat → Lmap → Result
  | 0, _ => .turns
  | turns + 1, lmap =>
    if lmap.point ≠ lm.point ∨ lmap.column ≠ lm.column then
      match s.convert lmap with
      | none => .botch
      | some next => goBackwardsLoop lm turns next
    else .found lmap

/-- `lm->point - 1`, which is a size. -/
def pointBefore (lm : Lmap) : Nat := (lm.point + (2 ^ 64 - 1)) % 2 ^ 64

def Layouts.goBackwards (turns : Nat) (lm : Lmap) : Result :=
  let start := s.lineStart (pointBefore lm)
  match s.goBackwardsLoop lm turns (setLmap start) with
  | .found _ => .found (setLmap start)
  | r => r

/-! ## Lines that go on -/

/-- Later in the order of points and character offsets. -/
def Later (lm next : Lmap) : Prop :=
  lm.point < next.point ∨ (lm.point = next.point ∧ lm.ch_offset < next.ch_offset)

/-- The character is where the line ends. -/
def Layouts.EndsLine (c : Byte) (newlineAhead : Bool) : Prop :=
  s.display.render_context.stop_at_newline = true ∧
    (c = newline ∨ (c = carriageReturn ∧ newlineAhead = true))

/-- What is shown first of the character at the beginning of a line. -/
def Layouts.firstShown (lm : Lmap) (c : Byte) : Option Byte :=
  if isprint c then some c
  else
    let cnum := (((lm.column : Int) - lm.ch_offset) % 2 ^ 64).toNat
    (convertChar cnum c s.display.render_context.tabspaces)[lm.ch_offset]?

def Layouts.firstChunk (lm : Lmap) : Chunk := ⟨s.chunks.size lm.point, s.chunks.behind lm.point⟩

/-- Lines are folded, and what is shown first of the first character is too wide. -/
def Layouts.TooNarrow (lm : Lmap) : Prop :=
  s.display.render_context.fold_lines = true ∧ ∃ c rest b, s.text.drop lm.point = c :: rest ∧
    (isprint c = true ∨ ¬s.EndsLine c (ahead rest (s.firstChunk lm) = newline)) ∧
    s.firstShown lm c = some b ∧
    startXpos s.display lm + (s.props lm.point).char_width_tab b > rightLimit s.display lm

section
variable (d : Display) (xlim : Int) (column : Nat) {n : Nat} (ck : Chunks n)

/-- Up to the first character of a line that is not printable, and within what stands for that
one: `ch_offset` is what the line before has shown of it. -/
def OffsetFits : List Byte → Chunk → Locals → Prop
  | [], _, _ => True
  | c :: rest, ch, l =>
    let ch := refill ck l.point (c :: rest) ch
    if isprint c then
      match turn d xlim column c false l with
      | .next l' => OffsetFits rest (ch.skip 1) l'
      | _ => True
    else
      let cnum := (((column : Int) + l.linebuf.length - l.ch_offset) % 2 ^ 64).toNat
      (d.render_context.stop_at_newline = true ∧
        (c = newline ∨ (c = carriageReturn ∧ ahead rest ch = newline))) ∨
        l.ch_offset < (convertChar cnum c d.render_context.tabspaces).length
end

/-- The line that begins at `lm` goes on. -/
structure Layouts.GoesOn (lm : Lmap) : Prop where
  wide : ¬s.TooNarrow lm
  offset : OffsetFits s.display (rightLimit s.display lm) lm.column s.chunks
    (s.text.drop lm.point) ⟨0, 0#8⟩ (startLocals s.display lm (s.props lm.point))

/-! ## The panic -/

section
variable (d : Display) (xlim : Int) (column : Nat) {n : Nat} (ck : Chunks n)

theorem convertChar_pos (cnum : Nat) (c : Byte) (tabspaces : Nat) :
    0 < (convertChar cnum c tabspaces).length := by
  unfold convertChar
  split_ifs with htab hctl hdel
  · rw [List.length_replicate]
    have := Nat.mod_lt cnum (Nat.pos_of_ne_zero htab.2)
    omega
  · cases escape c.toNat <;> simp
  · simp
  · simp

theorem convertChar_le (cnum : Nat) (c : Byte) (tabspaces : Nat) :
    (convertChar cnum c tabspaces).length ≤ tabspaces + 4 := by
  unfold convertChar
  split_ifs
  · rw [List.length_replicate]
    omega
  · cases escape c.toNat <;> simp
  · simp
  · simp [octal]

/-- A character that is shown in part, or as a whole, or a panic. -/
theorem showChar_cases (c : Byte) (l : Locals) :
    let charstr := convertChar (((column : Int) + l.linebuf.length - l.ch_offset) % 2 ^ 64).toNat c
      d.render_context.tabspaces
    let placed := (place l.pc.char_width_tab xlim (charstr.drop l.ch_offset) l.xpos).1
    (charstr.length ≤ l.ch_offset ∧ showChar d xlim column c l = .botch) ∨
    (l.ch_offset < charstr.length ∧
      ((∃ l', showChar d xlim column c l = .next l' ∧ l'.ch_offset = 0 ∧ placed ≠ []) ∨
        ∃ l', showChar d xlim column c l = .full l' ∧ l'.point = l.point ∧
          l'.linebuf = l.linebuf ++ placed ∧ l'.ch_offset = l.ch_offset + placed.length ∧
          l'.ch_offset < charstr.length)) := by
  intro charstr placed
  have hplaced : placed.length ≤ charstr.length - l.ch_offset := by
    rw [← List.length_drop]
    exact (place_placed _ _ _ _).length_le
  unfold showChar
  by_cases hle : charstr.length ≤ l.ch_offset
  · exact Or.inl ⟨hle, if_pos hle⟩
  · refine Or.inr ⟨by omega, ?_⟩
    dsimp only
    rw [if_neg hle]
    by_cases hall : l.ch_offset + placed.length = charstr.length
    · refine Or.inl ⟨_, if_pos hall, rfl, ?_⟩
      rintro hnil
      rw [hnil] at hall
      simp only [List.length_nil] at hall
      omega
    · refine Or.inr ⟨_, if_neg hall, rfl, rfl, rfl, ?_⟩
      change l.ch_offset + placed.length < charstr.length
      omega

theorem turn_of_isprint {c : Byte} (hc : isprint c = true) (b : Bool) (l : Locals) :
    turn d xlim column c b l = turn d xlim column c false l := by
  simp [turn, hc]

theorem turn_isprint_cases {c : Byte} (hc : isprint c = true) (b : Bool) (l : Locals) :
    (turn d xlim column c b l = .noFold ∧ d.render_context.fold_lines = false) ∨
    (turn d xlim column c b l = .full l ∧ d.render_context.fold_lines = true ∧
      l.xpos + l.pc.char_width_tab c > xlim) ∨
    ∃ l', turn d xlim column c b l = .next l' ∧ l'.ch_offset = l.ch_offset ∧
      (d.render_context.fold_lines = true → ¬l.xpos + l.pc.char_width_tab c > xlim) := by
  simp only [turn, hc, if_true]
  cases d.render_context.fold_lines with
  | true =>
    by_cases hwide : l.xpos + l.pc.char_width_tab c > xlim
    · simp [hwide]
    · simp [hwide, Locals.advance]
  | false =>
    by_cases hwide : l.xpos ≥ xlim
    · simp [hwide]
    · simp [hwide, Locals.advance]

/-- A character that is not printable ends the line, or is shown. -/
theorem turn_not_isprint {c : Byte} (hc : isprint c = false) (b : Bool) (l : Locals) :
    turn d xlim column c b l =
      if d.render_context.stop_at_newline = true ∧ (c = newline ∨ (c = carriageReturn ∧ b = true))
      then .newline else showChar d xlim column c l := by
  simp [turn, hc]

theorem loop_not_botch (text : List Byte) (ch : Chunk) (l : Locals) (hl : l.ch_offset = 0) :
    (loop d xlim column ck text ch l).exit ≠ .botch := by
  induction text generalizing ch l with
  | nil => simp [loop]
  | cons c rest ih =>
    rw [loop]
    generalize refill ck l.point (c :: rest) ch = ch'
    cases hc : isprint c with
    | true =>
      rcases turn_isprint_cases d xlim column hc (ahead rest ch' = newline) l with
        ⟨h, -⟩ | ⟨h, -, -⟩ | ⟨l', h, hl', -⟩
      · simp [h]
      · simp [h]
      · simp only [h]
        exact ih _ l' (hl'.trans hl)
    | false =>
      simp only [turn_not_isprint d xlim column hc]
      split_ifs
      · simp
      · rcases showChar_cases d xlim column c l with ⟨h, -⟩ | ⟨-, ⟨l', h, hl', -⟩ | ⟨l', h, -⟩⟩
        · have := convertChar_pos
            (((column : Int) + l.linebuf.length - l.ch_offset) % 2 ^ 64).toNat c
            d.render_context.tabspaces
          omega
        · simp only [h]
          exact ih _ l' hl'
        · simp [h]

theorem offsetFits_iff (text : List Byte) (ch : Chunk) (l : Locals) :
    OffsetFits d xlim column ck text ch l ↔ (loop d xlim column ck text ch l).exit ≠ .botch := by
  induction text generalizing ch l with
  | nil => simp [OffsetFits, loop]
  | cons c rest ih =>
    rw [OffsetFits, loop]
    generalize refill ck l.point (c :: rest) ch = ch'
    cases hc : isprint c with
    | true =>
      simp only [turn_of_isprint d xlim column hc (ahead rest ch' = newline), if_true]
      rcases turn_isprint_cases d xlim column hc false l with ⟨h, -⟩ | ⟨h, -, -⟩ | ⟨l', h, -, -⟩
      · simp [h]
      · simp [h]
      · simp only [h]
        exact ih _ l'
    | false =>
      simp only [turn_not_isprint d xlim column hc, Bool.false_eq_true, if_false, decide_eq_true_eq]
      split_ifs with hend
      · simp [hend]
      · simp only [hend, false_or]
        rcases showChar_cases d xlim column c l with ⟨hle, h⟩ | ⟨hlt, ⟨l', h, hl', -⟩ | ⟨l', h, -⟩⟩
        · simp only [h, ne_eq, not_true, iff_false]
          omega
        · simp only [h]
          exact iff_of_true hlt (loop_not_botch d xlim column ck _ _ l' hl')
        · simp only [h]
          exact iff_of_true hlt (by simp)
end

/-! ## One line -/

section
variable (d : Display) (xlim : Int) (column : Nat) {n : Nat} (ck : Chunks n)

theorem finish_none_iff (s : Stopped) : finish d column ck s = none ↔ s.exit = .botch := by
  unfold finish
  split
  · simp [*]
  · split <;> simp [*]
  · simp [*]
  · simp [*]
  · simp [*]

theorem finish_point {s : Stopped} {r : Layout} (h : finish d column ck s = some r) :
    s.l.point ≤ r.next.point := by
  unfold finish at h
  split at h
  · cases h
  · split at h <;> cases h
    · exact le_trans (Nat.le_succ _) (conclude_point d column ck _ _ _ _)
    · exact conclude_point d column ck _ _ _ _
  · cases h
    exact le_trans (Nat.le_add_right _ _) (conclude_point d column ck _ _ _ _)
  · cases h
    exact conclude_point d column ck _ _ _ _
  · cases h
    exact conclude_point d column ck _ _ _ _

theorem loop_point (text : List Byte) (ch : Chunk) (l : Locals) :
    l.point ≤ (loop d xlim column ck text ch l).l.point := by
  induction text generalizing ch l with
  | nil => exact le_rfl
  | cons c rest ih =>
    rw [loop]
    generalize refill ck l.point (c :: rest) ch = ch'
    have hgrows := turn_grows d xlim column c (ahead rest ch' = newline) l
    cases ht : turn d xlim column c (ahead rest ch' = newline) l with
    | next l' =>
      simp only [ht, Turn.Grows] at hgrows ⊢
      exact le_trans (by omega) (ih (ch'.skip 1) l')
    | full l' =>
      simp only [ht, Turn.Grows] at hgrows ⊢
      exact hgrows.1.ge
    | newline | noFold | botch => simp

theorem skipped_pos {c : Byte} (hc : c ≠ newline) (rest : List Byte) {left : Nat} (h : 0 < left) :
    0 < skipped (c :: rest) left := by
  cases left with
  | zero => omega
  | succ left => simp [skipped, hc]

theorem place_nil_iff (char_width_tab : Byte → Int) (charstr : List Byte) (k : Nat) (xpos : Int)
    (hk : k < charstr.length) :
    (place char_width_tab xlim (charstr.drop k) xpos).1 = [] ↔
      ∃ b, charstr[k]? = some b ∧ xpos + char_width_tab b > xlim := by
  rw [List.drop_eq_getElem_cons hk, List.getElem?_eq_getElem hk]
  simp only [place, Option.some.injEq, exists_eq_left']
  split <;> simp_all
end

theorem tooNarrow_iff {lm : Lmap} {c : Byte} {rest : List Byte}
    (htext : s.text.drop lm.point = c :: rest) :
    s.TooNarrow lm ↔ s.display.render_context.fold_lines = true ∧
      (isprint c = true ∨ ¬s.EndsLine c (ahead rest (s.firstChunk lm) = newline)) ∧
      ∃ b, s.firstShown lm c = some b ∧
        startXpos s.display lm + (s.props lm.point).char_width_tab b > rightLimit s.display lm := by
  unfold Layouts.TooNarrow
  constructor
  · rintro ⟨hfold, c', rest', b, htext', hshown, hb, hwide⟩
    rw [htext, List.cons.injEq] at htext'
    obtain ⟨rfl, rfl⟩ := htext'
    exact ⟨hfold, hshown, b, hb, hwide⟩
  · rintro ⟨hfold, hshown, b, hb, hwide⟩
    exact ⟨hfold, c, rest, b, htext, hshown, hb, hwide⟩

/-- The line that begins at `lm`, from its first turn on. -/
theorem convert_turn {lm : Lmap} {c : Byte} {rest : List Byte}
    (htext : s.text.drop lm.point = c :: rest) :
    let l := startLocals s.display lm (s.props lm.point)
    let ch := s.firstChunk lm
    let stopped := loop s.display (rightLimit s.display lm) lm.column s.chunks (c :: rest)
      ⟨0, 0#8⟩ l
    (s.convert lm = (finish s.display lm.column s.chunks stopped).map Layout.next) ∧
    (s.GoesOn lm ↔ ¬s.TooNarrow lm ∧ stopped.exit ≠ .botch) ∧
    0 < ch.left ∧ stopped = match turn s.display (rightLimit s.display lm) lm.column c
        (ahead rest ch = newline) l with
      | .next l' =>
        loop s.display (rightLimit s.display lm) lm.column s.chunks rest (ch.skip 1) l'
      | .newline => ⟨.newline, c :: rest, ch, l⟩
      | .noFold => ⟨.noFold, c :: rest, ch, l⟩
      | .full l => ⟨.full, c :: rest, ch, l⟩
      | .botch => ⟨.botch, c :: rest, ch, l⟩ := by
  intro l ch stopped
  have hlen : lm.point + (rest.length + 1) = s.text.length := by
    have := congrArg List.length htext
    rw [List.length_drop, List.length_cons] at this
    omega
  have hch : refill s.chunks lm.point (c :: rest) ⟨0, 0#8⟩ = ch := by
    simp [refill, ch, Layouts.firstChunk]
  have hleft := refill_left s.chunks lm.point c rest ⟨0, 0#8⟩ (Nat.zero_le _) hlen
  rw [hch] at hleft
  refine ⟨?_, ?_, hleft.1, ?_⟩
  · unfold Layouts.convert convertLine
    rw [htext]
  · rw [← offsetFits_iff]
    constructor
    · intro h
      have := h.offset
      rw [htext] at this
      exact ⟨h.wide, this⟩
    · rintro ⟨hwide, hoffset⟩
      refine ⟨hwide, ?_⟩
      rw [htext]
      exact hoffset
  · change loop _ _ _ _ (c :: rest) _ l = _
    have hpoint : l.point = lm.point := rfl
    rw [loop, hpoint, hch]
    all_goals
      cases turn s.display (rightLimit s.display lm) lm.column c (ahead rest ch = newline) l <;> rfl

/-- What comes of the line that begins at `lm`. -/
def Layouts.Outcome (lm : Lmap) : Prop :=
  (s.GoesOn lm ∧ ∃ next, s.convert lm = some next ∧ Later lm next) ∨
    (¬s.GoesOn lm ∧ (s.convert lm = none ∨ s.convert lm = some lm))

/-- Where there is room, the line goes on but for the panic. -/
theorem convert_wide {lm : Lmap} {stopped : Stopped}
    (hconvert : s.convert lm = (finish s.display lm.column s.chunks stopped).map Layout.next)
    (hgoes : s.GoesOn lm ↔ ¬s.TooNarrow lm ∧ stopped.exit ≠ .botch) (hwide : ¬s.TooNarrow lm)
    (hlater : ∀ r, finish s.display lm.column s.chunks stopped = some r → Later lm r.next) :
    s.Outcome lm := by
  rcases hfinish : finish s.display lm.column s.chunks stopped with _ | r
  · rw [finish_none_iff] at hfinish
    refine Or.inr ⟨fun h => (hgoes.1 h).2 hfinish, Or.inl ?_⟩
    rw [hconvert, (finish_none_iff _ _ _ _).2 hfinish]
    rfl
  · have hbotch : stopped.exit ≠ .botch := by
      intro h
      rw [(finish_none_iff _ _ _ _).2 h] at hfinish
      cases hfinish
    refine Or.inl ⟨hgoes.2 ⟨hwide, hbotch⟩, r.next, ?_, hlater r hfinish⟩
    rw [hconvert, hfinish]
    rfl

/-- A character of which nothing fits, where lines are folded: the next line is the same. -/
theorem finish_full_same {lm : Lmap} {c : Byte} {rest : List Byte} (l' : Locals)
    (hfold : s.display.render_context.fold_lines = true) (hleft : 0 < (s.firstChunk lm).left)
    (hat : atNewline s.display (c :: rest) (s.firstChunk lm) = false) :
    finish s.display lm.column s.chunks ⟨.full, c :: rest, s.firstChunk lm, l'⟩ =
      some (folded lm.column l') := by
  simp only [finish]
  rw [conclude_folded s.display lm.column s.chunks hfold _ _ _ _ hleft.ne' hat]
  rfl

theorem lineEndIn_pos {c : Byte} {rest : List Byte} {left : Nat} (h : 0 < left) :
    0 < lineEndIn (c :: rest) left := by
  unfold lineEndIn
  split
  · omega
  · by_cases hc : c = newline
    · cases left with
      | zero => omega
      | succ left => simp_all [skipped]
    · exact skipped_pos hc rest h

/-- The text at a line that begins before its end. -/
theorem exists_text {lm : Lmap} (hlm : lm.point < s.text.length) :
    ∃ c rest, s.text.drop lm.point = c :: rest := by
  cases h : s.text.drop lm.point with
  | nil =>
    rw [List.drop_eq_nil_iff] at h
    omega
  | cons c rest => exact ⟨c, rest, rfl⟩

/-- Behind the first turn. -/
theorem later_of_next {lm : Lmap} {rest : List Byte} {l' : Locals} {r : Layout}
    (hpoint : l'.point = (startLocals s.display lm (s.props lm.point)).point + 1)
    (hr : finish s.display lm.column s.chunks (loop s.display (rightLimit s.display lm) lm.column
      s.chunks rest ((s.firstChunk lm).skip 1) l') = some r) : Later lm r.next := by
  have h1 := finish_point s.display lm.column s.chunks hr
  have h2 := loop_point s.display (rightLimit s.display lm) lm.column s.chunks rest
    ((s.firstChunk lm).skip 1) l'
  simp only [startLocals] at hpoint
  exact Or.inl (by omega)

section
variable {s} {lm : Lmap} {c : Byte} {rest : List Byte} (htext : s.text.drop lm.point = c :: rest)
include htext

theorem outcome_of_isprint (hc : isprint c = true) : s.Outcome lm := by
  obtain ⟨hconvert, hgoes, hleft, hturn⟩ := convert_turn s htext
  have hnarrow := tooNarrow_iff s htext
  generalize loop s.display (rightLimit s.display lm) lm.column s.chunks (c :: rest) ⟨0, 0#8⟩
    (startLocals s.display lm (s.props lm.point)) = stopped at hconvert hgoes hturn
  have hgrows := turn_grows s.display (rightLimit s.display lm) lm.column c
    (ahead rest (s.firstChunk lm) = newline) (startLocals s.display lm (s.props lm.point))
  have hat := atNewline_of_turn s.display (rightLimit s.display lm) lm.column c rest
    (s.firstChunk lm) (startLocals s.display lm (s.props lm.point))
  have hne : c ≠ newline := by
    rintro rfl
    simp [isprint, newline] at hc
  rcases turn_isprint_cases s.display (rightLimit s.display lm) lm.column hc
      (ahead rest (s.firstChunk lm) = newline) (startLocals s.display lm (s.props lm.point)) with
    ⟨ht, hfold⟩ | ⟨ht, hfold, hwide⟩ | ⟨l', ht, -, hwide⟩
  · -- The rest of the line is skipped
    simp only [ht] at hturn
    subst hturn
    refine convert_wide s hconvert hgoes (fun h => ?_) fun r hr => Or.inl ?_
    · have := (hnarrow.1 h).1
      rw [hfold] at this
      cases this
    · simp only [finish, Option.some.injEq] at hr
      have hskip := skipped_pos hne rest hleft
      have hpoint := conclude_point s.display lm.column s.chunks
        ((c :: rest).drop (skipped (c :: rest) (s.firstChunk lm).left))
        ((s.firstChunk lm).skip (skipped (c :: rest) (s.firstChunk lm).left))
        ((startLocals s.display lm (s.props lm.point)).point +
          skipped (c :: rest) (s.firstChunk lm).left)
        (startLocals s.display lm (s.props lm.point))
      rw [hr] at hpoint
      simp only [startLocals] at hpoint
      omega
  · -- The first character is too wide
    simp only [ht] at hturn
    subst hturn
    have hnot : s.TooNarrow lm :=
      hnarrow.2 ⟨hfold, Or.inl hc, c, by simp [Layouts.firstShown, hc], hwide⟩
    refine Or.inr ⟨fun h => h.wide hnot, Or.inr ?_⟩
    rw [hconvert, finish_full_same s _ hfold hleft (hat (by rw [ht]; simp))]
    simp [folded, startLocals]
  · simp only [ht, Turn.Grows] at hturn hgrows
    subst hturn
    refine convert_wide s hconvert hgoes (fun h => ?_) fun r hr => later_of_next s hgrows.1 hr
    obtain ⟨hfold, -, b, hb, hb'⟩ := hnarrow.1 h
    simp only [Layouts.firstShown, hc, if_true, Option.some.injEq] at hb
    subst hb
    exact hwide hfold hb'

theorem outcome_of_endsLine (hc : isprint c = false)
    (hends : s.EndsLine c (ahead rest (s.firstChunk lm) = newline)) : s.Outcome lm := by
  obtain ⟨hconvert, hgoes, hleft, hturn⟩ := convert_turn s htext
  have hnarrow := tooNarrow_iff s htext
  have hshow := turn_not_isprint s.display (rightLimit s.display lm) lm.column hc
    (ahead rest (s.firstChunk lm) = newline) (startLocals s.display lm (s.props lm.point))
  have hends' := hends
  unfold Layouts.EndsLine at hends'
  rw [if_pos hends'] at hshow
  simp only [hshow] at hturn
  rw [hturn] at hconvert hgoes
  refine convert_wide s hconvert hgoes (fun h => ?_) fun r hr => Or.inl ?_
  · rcases (hnarrow.1 h).2.1 with h | h
    · rw [hc] at h
      cases h
    · exact h hends
  · simp only [finish] at hr
    split at hr
    case isTrue hcr =>
      have hpoint := conclude_point s.display lm.column s.chunks (c :: rest).tail
        ((s.firstChunk lm).skip 1) ((startLocals s.display lm (s.props lm.point)).point + 1)
        (startLocals s.display lm (s.props lm.point))
      rw [Option.some.injEq] at hr
      rw [hr] at hpoint
      exact hpoint
    case isFalse hcr =>
      rcases hends with ⟨hstop, rfl | ⟨rfl, -⟩⟩
      · have hnl : atNewline s.display (newline :: rest) (s.firstChunk lm) = true := by
          simp [atNewline, hstop]
        have hchunk := refill_of_left _ s.chunks
          (startLocals s.display lm (s.props lm.point)).point (newline :: rest) _ hleft.ne'
        rw [conclude_atNewline s.display lm.column s.chunks _ _ _ _
          (by rw [hchunk]; exact hleft.ne') (by rw [hchunk]; exact hnl)] at hr
        cases hr
        exact Nat.lt_succ_self _
      · exact absurd rfl hcr

/-- A character that is shown otherwise: what is shown of it first fits if anything of it is
placed. -/
theorem outcome_of_shown (hc : isprint c = false)
    (hends : ¬s.EndsLine c (ahead rest (s.firstChunk lm) = newline)) : s.Outcome lm := by
  obtain ⟨hconvert, hgoes, hleft, hturn⟩ := convert_turn s htext
  have hnarrow := tooNarrow_iff s htext
  generalize loop s.display (rightLimit s.display lm) lm.column s.chunks (c :: rest) ⟨0, 0#8⟩
    (startLocals s.display lm (s.props lm.point)) = stopped at hconvert hgoes hturn
  have hgrows := turn_grows s.display (rightLimit s.display lm) lm.column c
    (ahead rest (s.firstChunk lm) = newline) (startLocals s.display lm (s.props lm.point))
  have hat := atNewline_of_turn s.display (rightLimit s.display lm) lm.column c rest
    (s.firstChunk lm) (startLocals s.display lm (s.props lm.point))
  have hshow := turn_not_isprint s.display (rightLimit s.display lm) lm.column hc
    (ahead rest (s.firstChunk lm) = newline) (startLocals s.display lm (s.props lm.point))
  have hends' := hends
  unfold Layouts.EndsLine at hends'
  rw [if_neg hends'] at hshow
  rw [hshow] at hat hturn hgrows
  have hcases := showChar_cases s.display (rightLimit s.display lm) lm.column c
    (startLocals s.display lm (s.props lm.point))
  have hnum : ((lm.column : Int) +
      (startLocals s.display lm (s.props lm.point)).linebuf.length -
      (startLocals s.display lm (s.props lm.point)).ch_offset) =
        (lm.column : Int) - lm.ch_offset := by
    simp [startLocals]
  simp only [hnum] at hcases
  generalize hcharstr : convertChar (((lm.column : Int) - lm.ch_offset) % 2 ^ 64).toNat c
    s.display.render_context.tabspaces = charstr at hcases
  have hoffset : (startLocals s.display lm (s.props lm.point)).ch_offset = lm.ch_offset := rfl
  rw [hoffset] at hcases
  have hfits : lm.ch_offset < charstr.length →
      ((place (startLocals s.display lm (s.props lm.point)).pc.char_width_tab
        (rightLimit s.display lm) (charstr.drop lm.ch_offset)
        (startLocals s.display lm (s.props lm.point)).xpos).1 = [] ↔
      ∃ b, s.firstShown lm c = some b ∧ startXpos s.display lm +
        (s.props lm.point).char_width_tab b > rightLimit s.display lm) := by
    intro hlt
    rw [place_nil_iff _ _ _ _ _ hlt]
    simp only [Layouts.firstShown, hc, hcharstr]
    rfl
  rcases hcases with ⟨-, ht⟩ | ⟨hlt, ⟨l', ht, -, hplaced⟩ | ⟨l', ht, hpoint, hbuf, hoff, -⟩⟩
  · simp only [ht] at hturn
    subst hturn
    refine Or.inr ⟨fun h => (hgoes.1 h).2 rfl, Or.inl ?_⟩
    rw [hconvert]
    rfl
  · simp only [ht, Turn.Grows] at hturn hgrows
    subst hturn
    exact convert_wide s hconvert hgoes (fun h => hplaced ((hfits hlt).2 (hnarrow.1 h).2.2))
      fun r hr => later_of_next s hgrows.1 hr
  · simp only [ht] at hturn
    subst hturn
    have hnl := hat (by rw [ht]; simp)
    by_cases hfold : s.display.render_context.fold_lines = true
    · have hfinish := finish_full_same s l' hfold hleft hnl
      by_cases hplaced : (place (startLocals s.display lm (s.props lm.point)).pc.char_width_tab
          (rightLimit s.display lm) (charstr.drop lm.ch_offset)
          (startLocals s.display lm (s.props lm.point)).xpos).1 = []
      · -- Nothing of the character fits
        have hnot : s.TooNarrow lm := hnarrow.2 ⟨hfold, Or.inr hends, (hfits hlt).1 hplaced⟩
        refine Or.inr ⟨fun h => h.wide hnot, Or.inr ?_⟩
        rw [hconvert, hfinish]
        rw [hplaced] at hoff hbuf
        simp [folded, hpoint, hoff, hbuf, startLocals]
      · refine convert_wide s hconvert hgoes
          (fun h => hplaced ((hfits hlt).2 (hnarrow.1 h).2.2)) fun r hr => Or.inr ?_
        rw [hfinish] at hr
        cases hr
        refine ⟨hpoint.symm, ?_⟩
        have := List.length_pos_iff.2 hplaced
        simp only [folded, hoff]
        omega
    · -- The rest of the line is skipped
      have hfold' : s.display.render_context.fold_lines = false := by simpa using hfold
      refine convert_wide s hconvert hgoes (fun h => hfold (hnarrow.1 h).1) fun r hr => Or.inl ?_
      simp only [finish, Option.some.injEq] at hr
      rw [conclude_unfolded s.display lm.column s.chunks hfold' _ _ _ _ hleft.ne', hnl] at hr
      subst hr
      have hpos : 0 < lineEndIn (c :: rest) (s.firstChunk lm).left := lineEndIn_pos hleft
      simp only [ended, hpoint, startLocals, Bool.false_eq_true, if_false]
      omega
end

/-- The line goes on and the next one is behind its beginning, or it comes to the panic or begins
again. -/
theorem convert_cases {lm : Lmap} (hlm : lm.point < s.text.length) : s.Outcome lm := by
  obtain ⟨c, rest, htext⟩ := exists_text s hlm
  cases hc : isprint c with
  | true => exact outcome_of_isprint htext hc
  | false =>
    by_cases hends : s.EndsLine c (ahead rest (s.firstChunk lm) = newline)
    · exact outcome_of_endsLine htext hc hends
    · exact outcome_of_shown htext hc hends

/-! ## Character offsets and newlines -/

section
variable (d : Display) (xlim : Int) (column : Nat) {n : Nat} (ck : Chunks n)

theorem loop_offset {K : Nat} (hK : d.render_context.tabspaces + 4 ≤ K) (text : List Byte)
    (ch : Chunk) (l : Locals) (hl : l.ch_offset ≤ K) :
    (loop d xlim column ck text ch l).l.ch_offset ≤ K := by
  induction text generalizing ch l with
  | nil => exact hl
  | cons c rest ih =>
    rw [loop]
    generalize refill ck l.point (c :: rest) ch = ch'
    cases hc : isprint c with
    | true =>
      rcases turn_isprint_cases d xlim column hc (ahead rest ch' = newline) l with
        ⟨h, -⟩ | ⟨h, -, -⟩ | ⟨l', h, hl', -⟩
      · simpa [h] using hl
      · simpa [h] using hl
      · simp only [h]
        exact ih _ l' (by omega)
    | false =>
      simp only [turn_not_isprint d xlim column hc]
      split_ifs
      · exact hl
      · rcases showChar_cases d xlim column c l with
          ⟨-, h⟩ | ⟨-, ⟨l', h, hl', -⟩ | ⟨l', h, -, -, -, hl'⟩⟩
        · simpa [h] using hl
        · simp only [h]
          exact ih _ l' (by omega)
        · simp only [h]
          have := convertChar_le
            (((column : Int) + l.linebuf.length - l.ch_offset) % 2 ^ 64).toNat c
            d.render_context.tabspaces
          omega

theorem conclude_offset (rest : List Byte) (ch : Chunk) (point : Nat) (l : Locals) :
    (conclude d column ck rest ch point l).next.ch_offset = l.ch_offset := by
  simp only [conclude]
  split <;> rfl

theorem finish_offset {s : Stopped} {r : Layout} (h : finish d column ck s = some r) :
    r.next.ch_offset = s.l.ch_offset := by
  unfold finish at h
  split at h
  · cases h
  · split at h <;> cases h <;> exact conclude_offset d column ck _ _ _ _
  · cases h
    exact conclude_offset d column ck _ _ _ _
  · cases h
    exact conclude_offset d column ck _ _ _ _
  · cases h
    exact conclude_offset d column ck _ _ _ _

theorem skipped_le {rest : List Byte} {k : Nat} (h : rest[k]? = some newline) (left : Nat) :
    skipped rest left ≤ k := by
  induction rest generalizing k left with
  | nil => simp [skipped]
  | cons c rest ih =>
    cases left with
    | zero => simp [skipped]
    | succ left =>
      rw [skipped]
      split
      · exact Nat.zero_le k
      · cases k with
        | zero =>
          simp only [List.getElem?_cons_zero, Option.some.injEq] at h
          contradiction
        | succ k =>
          simp only [List.getElem?_cons_succ] at h
          have := ih h left
          omega

/-- The next line does not begin behind the place after a newline, and there it is a first one. -/
def NotBehind (p : Nat) (next : Lmap) : Prop := next.point ≤ p ∧ (next.point = p → next.column = 0)

theorem conclude_notBehind {rest : List Byte} {k : Nat} (h : rest[k]? = some newline) (ch : Chunk)
    (point : Nat) (l : Locals) :
    NotBehind (point + k + 1) (conclude d column ck rest ch point l).next := by
  simp only [conclude]
  generalize refill ck point rest ch = ch'
  have hskip := skipped_le h ch'.left
  split
  · exact ⟨by dsimp only; omega, fun he => by dsimp only at he; omega⟩
  · refine ⟨?_, fun _ => rfl⟩
    dsimp only
    split_ifs <;> omega

theorem finish_notBehind {s : Stopped} {r : Layout} {k : Nat} (h : s.rest[k]? = some newline)
    (hr : finish d column ck s = some r) : NotBehind (s.l.point + k + 1) r.next := by
  unfold finish at hr
  split at hr
  · cases hr
  · split at hr
    case isTrue hcr =>
      cases hr
      cases k with
      | zero =>
        rw [List.headD_eq_head?_getD, List.head?_eq_getElem?, h] at hcr
        cases hcr
      | succ k =>
        have htail : s.rest.tail[k]? = some newline := by
          rw [List.getElem?_tail]
          exact h
        have := conclude_notBehind d column ck htail (s.chunk.skip 1) (s.l.point + 1) s.l
        have hk : s.l.point + 1 + k + 1 = s.l.point + (k + 1) + 1 := by omega
        rwa [hk] at this
    case isFalse =>
      cases hr
      exact conclude_notBehind d column ck h _ _ _
  · cases hr
    have hskip := skipped_le h s.chunk.left
    have hdrop : (s.rest.drop (skipped s.rest s.chunk.left))[k - skipped s.rest s.chunk.left]? =
        some newline := by
      rw [List.getElem?_drop, Nat.add_sub_cancel' hskip]
      exact h
    have := conclude_notBehind d column ck hdrop (s.chunk.skip (skipped s.rest s.chunk.left))
      (s.l.point + skipped s.rest s.chunk.left) s.l
    have hk : s.l.point + skipped s.rest s.chunk.left + (k - skipped s.rest s.chunk.left) + 1 =
        s.l.point + k + 1 := by omega
    rwa [hk] at this
  · cases hr
    exact conclude_notBehind d column ck h _ _ _
  · cases hr
    exact conclude_notBehind d column ck h _ _ _

/-- The loop does not pass a newline. -/
theorem loop_notBehind (hstop : d.render_context.stop_at_newline = true) {text : List Byte} {k : Nat}
    (h : text[k]? = some newline) (ch : Chunk) (l : Locals) :
    ∃ j, (loop d xlim column ck text ch l).rest[j]? = some newline ∧
      (loop d xlim column ck text ch l).l.point + j = l.point + k := by
  induction text generalizing k ch l with
  | nil => cases h
  | cons c rest ih =>
    rw [loop]
    generalize refill ck l.point (c :: rest) ch = ch'
    have hgrows := turn_grows d xlim column c (ahead rest ch' = newline) l
    cases ht : turn d xlim column c (ahead rest ch' = newline) l with
    | next l' =>
      simp only [ht, Turn.Grows] at hgrows ⊢
      cases k with
      | zero =>
        simp only [List.getElem?_cons_zero, Option.some.injEq] at h
        subst h
        simp [turn, isprint, newline, hstop] at ht
      | succ k =>
        obtain ⟨j, hj, hpoint⟩ := ih h (ch'.skip 1) l'
        exact ⟨j, hj, by omega⟩
    | full l' =>
      simp only [ht, Turn.Grows] at hgrows ⊢
      exact ⟨k, h, by omega⟩
    | newline | noFold | botch => exact ⟨k, h, rfl⟩
end

theorem convert_some {lm next : Lmap} (h : s.convert lm = some next) :
    ∃ r, finish s.display lm.column s.chunks (loop s.display (rightLimit s.display lm) lm.column
      s.chunks (s.text.drop lm.point) ⟨0, 0#8⟩ (startLocals s.display lm (s.props lm.point))) =
        some r ∧ r.next = next := by
  unfold Layouts.convert convertLine at h
  rwa [Option.map_eq_some_iff] at h

def Layouts.maxOffset : Nat := s.display.render_context.tabspaces + 4

theorem convert_offset {lm next : Lmap} (h : s.convert lm = some next)
    (hlm : lm.ch_offset ≤ s.maxOffset) : next.ch_offset ≤ s.maxOffset := by
  obtain ⟨r, hr, rfl⟩ := convert_some s h
  rw [finish_offset _ _ _ hr]
  exact loop_offset _ _ _ _ le_rfl _ _ _ hlm

theorem convert_notBehind {lm next : Lmap} {p : Nat} (h : s.convert lm = some next)
    (hlt : lm.point < p) (hp : s.text[p - 1]? = some newline) : NotBehind p next := by
  obtain ⟨r, hr, rfl⟩ := convert_some s h
  have hk : (s.text.drop lm.point)[p - 1 - lm.point]? = some newline := by
    rw [List.getElem?_drop, ← hp]
    congr 1
    omega
  obtain ⟨j, hj, hpoint⟩ := loop_notBehind s.display (rightLimit s.display lm) lm.column s.chunks
    s.stop_at_newline hk ⟨0, 0#8⟩ (startLocals s.display lm (s.props lm.point))
  have hend := finish_notBehind s.display lm.column s.chunks hj hr
  have hstart : (startLocals s.display lm (s.props lm.point)).point = lm.point := rfl
  rw [hpoint, hstart] at hend
  have hsum : lm.point + (p - 1 - lm.point) + 1 = p := by omega
  rwa [hsum] at hend

/-! ## The loops -/

/-- What is left up to a place, with what there may be of a character. -/
def Layouts.distance (p : Nat) (lm : Lmap) : Nat :=
  (p - lm.point) * (s.maxOffset + 1) + (s.maxOffset - lm.ch_offset)

theorem distance_lt {p : Nat} {lm next : Lmap} (h : Later lm next) (hp : next.point ≤ p)
    (hoff : next.ch_offset ≤ s.maxOffset) : s.distance p next < s.distance p lm := by
  unfold Layouts.distance
  rcases h with hlt | ⟨heq, hlt⟩
  · have hmul : (p - next.point + 1) * (s.maxOffset + 1) ≤ (p - lm.point) * (s.maxOffset + 1) :=
      Nat.mul_le_mul_right _ (by omega)
    rw [Nat.add_mul, Nat.one_mul] at hmul
    omega
  · rw [heq]
    omega

theorem goesOn_stuck (lm : Lmap) (h : ¬s.GoesOn lm) :
    s.convert lm = none ∨ s.convert lm = some lm := by
  rcases Nat.lt_or_ge lm.point s.text.length with hlm | hlm
  · rcases convert_cases s hlm with ⟨hgoes, -⟩ | ⟨-, hstuck⟩
    · exact absurd hgoes h
    · exact hstuck
  · refine absurd ⟨?_, ?_⟩ h
    · rintro ⟨-, c, rest, b, htext, -⟩
      rw [List.drop_eq_nil_of_le hlm] at htext
      cases htext
    · rw [List.drop_eq_nil_of_le hlm]
      trivial

theorem makeLmapLoop_iff (point : Nat) (lm : Lmap) :
    (∃ turns lm', s.makeLmapLoop point turns lm = .found lm') ↔
      ∃ next, s.convert lm = some next ∧ Ends s.convert (s.Behind point) next := by
  constructor
  · rintro ⟨turns, lm', h⟩
    induction turns generalizing lm with
    | zero => cases h
    | succ turns ih =>
      rw [Layouts.makeLmapLoop] at h
      rcases hconvert : s.convert lm with _ | next
      · rw [hconvert] at h
        cases h
      · rw [hconvert] at h
        dsimp only at h
        split at h
        · exact ⟨next, rfl, .stop ‹_›⟩
        · obtain ⟨next', hnext, hends⟩ := ih next h
          exact ⟨next, rfl, .step hnext hends⟩
  · rintro ⟨next, hconvert, hends⟩
    induction hends generalizing lm with
    | @stop next hstop => exact ⟨1, lm, by simp [Layouts.makeLmapLoop, hconvert, hstop]⟩
    | @step next next' hnext _ ih =>
      by_cases hstop : s.Behind point next
      · exact ⟨1, lm, by simp [Layouts.makeLmapLoop, hconvert, hstop]⟩
      · obtain ⟨turns, lm', h⟩ := ih next hnext
        exact ⟨turns + 1, lm', by simp [Layouts.makeLmapLoop, hconvert, hstop, h]⟩

/-- The line that `go_backwards` goes up to. -/
def At (lm lmap : Lmap) : Prop := lmap.point = lm.point ∧ lmap.column = lm.column

theorem goBackwardsLoop_iff (lm lmap : Lmap) :
    (∃ turns lm', s.goBackwardsLoop lm turns lmap = .found lm') ↔
      Ends s.convert (At lm) lmap := by
  constructor
  · rintro ⟨turns, lm', h⟩
    induction turns generalizing lmap with
    | zero => cases h
    | succ turns ih =>
      rw [Layouts.goBackwardsLoop] at h
      split at h
      · rcases hconvert : s.convert lmap with _ | next
        · rw [hconvert] at h
          cases h
        · rw [hconvert] at h
          exact .step hconvert (ih next h)
      · rename_i hat
        push Not at hat
        exact .stop hat
  · intro h
    induction h with
    | @stop lmap hat => exact ⟨1, lmap, by simp [Layouts.goBackwardsLoop, hat.1, hat.2]⟩
    | @step lmap next hconvert _ ih =>
      by_cases hat : At lm lmap
      · exact ⟨1, lmap, by simp [Layouts.goBackwardsLoop, hat.1, hat.2]⟩
      · obtain ⟨turns, lm', h⟩ := ih
        have hgo : lmap.point ≠ lm.point ∨ lmap.column ≠ lm.column := by
          by_contra hnot
          push Not at hnot
          exact hat hnot
        exact ⟨turns + 1, lm', by rw [Layouts.goBackwardsLoop, if_pos hgo, hconvert]; exact h⟩

theorem goBackwards_iff (lm : Lmap) :
    (∃ turns lm', s.goBackwards turns lm = .found lm') ↔
      Ends s.convert (At lm) (setLmap (s.lineStart (pointBefore lm))) := by
  rw [← goBackwardsLoop_iff]
  unfold Layouts.goBackwards
  constructor
  · rintro ⟨turns, lm', h⟩
    refine ⟨turns, ?_⟩
    dsimp only at h
    split at h
    · exact ⟨_, ‹_›⟩
    · exact ⟨lm', h⟩
  · rintro ⟨turns, lm', h⟩
    exact ⟨turns, setLmap (s.lineStart (pointBefore lm)), by simp only [h]⟩

/-- Where a text line begins. -/
theorem lineStart_spec {pos : Nat} (hpos : pos ≤ s.text.length) :
    s.lineStart pos ≤ pos ∧
      ∀ q, s.lineStart pos ≤ q → q < pos → s.text[q]? ≠ some newline := by
  obtain ⟨r, hr, hnear⟩ := lineinfo.findBackwards_spec s.chunks_before
    (fun x => decide (x = newline)) 0 (s.text.length + 1) pos hpos (by omega)
  have hfind : lineinfo.editFindCharBackwards s.text s.chunks_before pos 0 [newline] = some r := by
    simp [lineinfo.editFindCharBackwards, lineinfo.makeCharmap, hr]
  unfold Layouts.lineStart
  rw [hfind]
  rcases r with ⟨_ | _, p⟩
  · obtain ⟨hp, hall⟩ := hnear
    refine ⟨by dsimp only; omega, fun q _ hq hc => ?_⟩
    simpa using hall q (Nat.zero_le q) hq _ hc
  · obtain ⟨⟨-, hp, -⟩, hall⟩ := hnear
    refine ⟨hp, fun q hpq hq hc => ?_⟩
    simpa using hall q hpq hq _ hc

theorem lineStart_behind {pos : Nat} (hpos : s.text.length < pos) : s.lineStart pos = pos := by
  have hfind : lineinfo.editFindCharBackwards s.text s.chunks_before pos 0 [newline] =
      some (false, pos) := by
    have hnot : ¬(0 < pos ∧ pos ≤ s.text.length) := by omega
    simp only [lineinfo.editFindCharBackwards, lineinfo.makeCharmap, lineinfo.findBackwards, hnot,
      if_false, Option.bind_eq_bind, Option.bind_some]
  unfold Layouts.lineStart
  rw [hfind]

/-! ## The lines on the way -/

/-- A line that `make_lmap` lays out for a point. -/
def Layouts.OnWayTo (point : Nat) (lm : Lmap) : Prop :=
  s.lineStart point ≠ point ∧
    Passes s.convert (s.Behind point) (setLmap (s.lineStart point)) lm

/-- A line that `go_backwards` lays out before it comes to `lm`. -/
def Layouts.OnWayBack (lm lmap : Lmap) : Prop :=
  Passes s.convert (At lm) (setLmap (s.lineStart (pointBefore lm))) lmap

/-- A line of the display: the first of a text line, or one that is laid out from the beginning of
the text line before it. -/
def Layouts.Laid (lm : Lmap) : Prop :=
  (lm.column = 0 ∧ lm.point ≤ s.text.length ∧ s.text[lm.point - 1]? = some newline) ∨
    Relation.ReflTransGen (fun a b => s.convert a = some b)
      (setLmap (s.lineStart (pointBefore lm))) lm

theorem makeLmap_iff {point : Nat} (hpoint : point ≤ s.text.length) :
    (∃ turns lm, s.makeLmap turns point = .found lm) ↔ ∀ lm, s.OnWayTo point lm → s.GoesOn lm := by
  obtain ⟨hle, hnone⟩ := lineStart_spec s hpoint
  unfold Layouts.makeLmap Layouts.OnWayTo
  by_cases hstart : s.lineStart point = point
  · refine iff_of_true ⟨0, setLmap point, ?_⟩ fun lm h => absurd hstart h.1
    simp [setLmap, hstart]
  · have hlt : s.lineStart point < point := by omega
    have hat : (setLmap (s.lineStart point)).point ≠ point := hstart
    simp only [hat, if_false, hstart, ne_eq, not_false_eq_true, true_and]
    have hbehind : ¬s.Behind point (setLmap (s.lineStart point)) := by
      simp only [Layouts.Behind, setLmap]
      omega
    -- The last text line has no newline at its end
    have hfinal : point = s.text.length → s.noFinalNewline = true := by
      intro hend
      have := hnone (point - 1) (by omega) (by omega)
      rw [hend] at this
      simpa [Layouts.noFinalNewline, List.getLast?_eq_getElem?] using this
    rw [makeLmapLoop_iff]
    have hends : (∃ next, s.convert (setLmap (s.lineStart point)) = some next ∧
        Ends s.convert (s.Behind point) next) ↔
          Ends s.convert (s.Behind point) (setLmap (s.lineStart point)) := by
      constructor
      · rintro ⟨next, hnext, h⟩
        exact .step hnext h
      · intro h
        cases h with
        | stop h => exact absurd h hbehind
        | step hnext h => exact ⟨_, hnext, h⟩
    rw [hends]
    apply ends_iff (fun lm => lm.point ≤ point ∧ lm.point < s.text.length ∧
      lm.ch_offset ≤ s.maxOffset) (s.distance point)
    · exact fun lm _ _ h => goesOn_stuck s lm h
    · rintro lm ⟨-, hlm, hoff⟩ - hgoes
      rcases convert_cases s hlm with ⟨-, next, hnext, hlater⟩ | ⟨hnot, -⟩
      · refine ⟨next, hnext, ?_⟩
        by_cases hstop : s.Behind point next
        · exact Or.inl hstop
        · have hoff' := convert_offset s hnext hoff
          simp only [Layouts.Behind, not_or, not_and, Nat.not_lt, not_not] at hstop
          have hend : next.point < s.text.length := by
            by_contra hge
            have h1 : point = s.text.length := by omega
            exact hstop.2 h1 (hfinal h1) (by omega)
          exact Or.inr ⟨⟨hstop.1.1, hend, hoff'⟩, distance_lt s hlater hstop.1.1 hoff'⟩
      · exact absurd hgoes hnot
    · exact ⟨hle, by change s.lineStart point < _; omega, Nat.zero_le _⟩

theorem pointBefore_eq {lm : Lmap} (hpos : lm.point ≠ 0) (hlt : lm.point < 2 ^ 64) :
    pointBefore lm = lm.point - 1 := by
  unfold pointBefore
  have hsum : lm.point + (2 ^ 64 - 1) = lm.point - 1 + 2 ^ 64 := by omega
  rw [hsum, Nat.add_mod_right, Nat.mod_eq_of_lt (by omega)]

theorem goBackwards_laid {lm : Lmap} (hpos : lm.point ≠ 0) (hlaid : s.Laid lm) :
    (∃ turns lm', s.goBackwards turns lm = .found lm') ↔
      ∀ lmap, s.OnWayBack lm lmap → s.GoesOn lmap := by
  rw [goBackwards_iff]
  unfold Layouts.OnWayBack
  rcases hlaid with ⟨hcolumn, hle, hnl⟩ | hreaches
  · have hsize := s.size
    rw [pointBefore_eq hpos (by omega)]
    obtain ⟨hstart, -⟩ := lineStart_spec s (show lm.point - 1 ≤ s.text.length by omega)
    apply ends_iff (fun lmap => lmap.point < lm.point ∧ lmap.ch_offset ≤ s.maxOffset)
      (s.distance lm.point)
    · exact fun lmap _ _ h => goesOn_stuck s lmap h
    · rintro lmap ⟨hlt, hoff⟩ - hgoes
      rcases convert_cases s (show lmap.point < s.text.length by omega) with
        ⟨-, next, hnext, hlater⟩ | ⟨hnot, -⟩
      · refine ⟨next, hnext, ?_⟩
        obtain ⟨hnext', hat⟩ := convert_notBehind s hnext hlt hnl
        have hoff' := convert_offset s hnext hoff
        rcases Nat.lt_or_eq_of_le hnext' with h | h
        · exact Or.inr ⟨⟨h, hoff'⟩, distance_lt s hlater hnext' hoff'⟩
        · exact Or.inl ⟨h, (hat h).trans hcolumn.symm⟩
      · exact absurd hgoes hnot
    · exact ⟨by change s.lineStart (lm.point - 1) < _; omega, Nat.zero_le _⟩
  · have hends : Ends s.convert (At lm) (setLmap (s.lineStart (pointBefore lm))) :=
      ends_of_reaches hreaches ⟨rfl, rfl⟩
    refine iff_of_true hends fun lmap hpass => ?_
    exact (hends.of_passes hpass).goes_on (fun _ => True)
      (fun b _ _ h => goesOn_stuck s b h) trivial hpass.not_stop

/-- The line behind the end of a buffer is the same again. -/
theorem convert_behind {point : Nat} (hpoint : s.text.length ≤ point) :
    s.convert (setLmap point) = some (setLmap point) := by
  unfold Layouts.convert convertLine
  have htext : s.text.drop (setLmap point).point = [] := List.drop_eq_nil_of_le hpoint
  rw [htext]
  simp [loop, refill, finish, conclude_nil, ended, startLocals, setLmap]

/-- For a line that begins within the first character of the buffer the search begins behind the
end of it. -/
theorem goBackwards_zero {lm : Lmap} (hpos : lm.point = 0) :
    ¬∃ turns lm', s.goBackwards turns lm = .found lm' := by
  rw [goBackwards_iff]
  have hbefore : pointBefore lm = 2 ^ 64 - 1 := by simp [pointBefore, hpos]
  have hsize := s.size
  rw [hbefore, lineStart_behind s hsize]
  refine not_ends_of_stays (convert_behind s hsize.le) fun hat => ?_
  have := hat.1
  rw [hpos] at this
  cases this

/-- A line goes on if there is room for what it shows first and it does not come to the panic; the
loops end if all of the lines on the way go on, but for a line that begins within the first character
of the buffer. -/
theorem layout_goes_on_iff :
    (∀ lm : Lmap, lm.point < s.text.length →
      ((∃ next, s.convert lm = some next ∧ Later lm next) ↔ s.GoesOn lm)) ∧
    (∀ point ≤ s.text.length, (∃ turns lm, s.makeLmap turns point = .found lm) ↔
      ∀ lm, s.OnWayTo point lm → s.GoesOn lm) ∧
    ∀ lm, s.Laid lm → ((∃ turns lm', s.goBackwards turns lm = .found lm') ↔
      lm.point ≠ 0 ∧ ∀ lmap, s.OnWayBack lm lmap → s.GoesOn lmap) := by
  refine ⟨fun lm hlm => ?_, fun point hpoint => makeLmap_iff s hpoint, fun lm hlaid => ?_⟩
  · rcases convert_cases s hlm with ⟨hgoes, hnext⟩ | ⟨hnot, hnone | hsame⟩
    · exact iff_of_true hnext hgoes
    · refine iff_of_false ?_ hnot
      rintro ⟨next, hnext, -⟩
      rw [hnone] at hnext
      cases hnext
    · refine iff_of_false ?_ hnot
      rintro ⟨next, hnext, hlater⟩
      rw [hsame] at hnext
      cases hnext
      rcases hlater with h | ⟨-, h⟩
      · exact absurd h (lt_irrefl _)
      · exact absurd h (lt_irrefl _)
  · by_cases hpos : lm.point = 0
    · exact iff_of_false (goBackwards_zero s hpos) fun h => h.1 hpos
    · rw [goBackwards_laid s hpos hlaid]
      simp [hpos]

/-- Characters twice as wide as the display. -/
def narrowLayouts : Layouts where
  display := plainDisplay 1 true
  stop_at_newline := rfl
  text := [97, 98]
  size := by decide
  chunks := wholeText 2
  chunks_before := lineinfo.blocks 2 2 (by decide)
  props := fun _ => ⟨fun _ => 2, 1000⟩

/-- The line at the beginning is the next one again, and `make_lmap` goes on for ever. -/
theorem narrow_display_does_not_go_on :
    narrowLayouts.convert (setLmap 0) = some (setLmap 0) ∧
      ¬∃ turns lm, narrowLayouts.makeLmap turns 1 = .found lm := by
  have hsame : narrowLayouts.convert (setLmap 0) = some (setLmap 0) := by decide
  refine ⟨hsame, ?_⟩
  rintro ⟨turns, lm, h⟩
  have hstart : narrowLayouts.lineStart 1 = 0 := by decide
  have hloop : narrowLayouts.makeLmapLoop 1 turns (setLmap 0) = .found lm := by
    simpa [Layouts.makeLmap, hstart, setLmap] using h
  obtain ⟨next, hnext, hends⟩ := (makeLmapLoop_iff narrowLayouts 1 (setLmap 0)).1 ⟨turns, lm, hloop⟩
  rw [hsame] at hnext
  cases hnext
  exact not_ends_of_stays hsame (by decide) hends

end ups_rules.line_layout
