-- The words of a line (util.c): how `parse_line` splits it, quotes and escapes included, and how
-- `put_quoted_string` writes one of them.
import Mathlib.Data.List.Basic
import Mathlib.Tactic.Common

namespace ups_rules.quoted_words

/-! ## The pure model -/

abbrev Byte := BitVec 8

/-- A string without the NUL at its end. -/
structure CString where
  bytes : List Byte
  noNul : 0#8 ∉ bytes

def backslash : Byte := 92#8
def doubleQuote : Byte := 34#8
def singleQuote : Byte := 39#8

/-- In the C locale. -/
def isspace (c : Byte) : Bool := (9#8 ≤ c && c ≤ 13#8) || c == 32#8

/-- What a letter behind a backslash stands for; any other byte stands for itself. -/
def escape (c : Byte) : Byte :=
  if c = 116#8 then 9#8 else if c = 110#8 then 10#8 else if c = 98#8 then 8#8
  else if c = 114#8 then 13#8 else c

/-- `optr` and `word` are offsets in `obuf`, and so are the ones in `words`. -/
structure State where
  obuf : List Byte
  optr : Nat
  word : Nat
  words : List Nat
  quotec : Byte
  word_exists : Bool

/-- `*optr++ = ch`; `none` is a store outside of what was allocated. -/
def State.put (st : State) (ch : Byte) : Option State :=
  if st.optr < st.obuf.length then
    some { st with obuf := st.obuf.set st.optr ch, optr := st.optr + 1 }
  else none

/-- The word goes to the words, and its NUL behind it. -/
def State.endWord (st : State) : Option State :=
  ({ st with words := st.words ++ [st.word] } : State).put 0#8

/-- The loop of `parse_line`. -/
def parseLoop : List Byte → State → Option (Except String State)
  | [], st => some (.ok st)
  | c :: rest, st =>
    if c = backslash then
      match rest with
      | [] => some (.error "Backslash at end of line")
      | d :: rest => do
        let st ← st.put (escape d)
        parseLoop rest st
    else if c = st.quotec then parseLoop rest { st with quotec := 0#8 }
    else if (c = singleQuote ∨ c = doubleQuote) ∧ st.quotec = 0#8 then
      parseLoop rest { st with quotec := c, word_exists := true }
    else if isspace c ∧ st.quotec = 0#8 then do
      let st ← st.endWord
      parseLoop (rest.dropWhile isspace) { st with word := st.optr, word_exists := false }
    else do
      let st ← st.put c
      parseLoop rest st
termination_by line => line.length
decreasing_by
  all_goals simp only [List.length_cons]
  all_goals first | omega | exact Nat.lt_succ_of_le (List.dropWhile_sublist _).length_le

/-- The string at an offset; `none` when no NUL follows. -/
def cstrAt (obuf : List Byte) (offset : Nat) : Option (List Byte) :=
  let s := (obuf.drop offset).takeWhile (· != 0#8)
  if offset + s.length < obuf.length then some s else none

/-- The strings are copied to a buffer of the given size, one behind the other. -/
def copyWords (obuf : List Byte) (size : Nat) : Nat → List Nat → Option (List (List Byte))
  | _, [] => some []
  | pos, offset :: offsets => do
    let s ← cstrAt obuf offset
    if pos + s.length + 1 ≤ size then
      let rest ← copyWords obuf size (pos + s.length + 1) offsets
      some (s :: rest)
    else none

/-- What is behind the loop. -/
def finish (st : State) : Option (Except String (List (List Byte))) :=
  if st.quotec = doubleQuote then some (.error "Missing closing double quote")
  else if st.quotec ≠ 0#8 then some (.error "Missing closing single quote")
  else do
    let st ← if st.word < st.optr ∨ st.word_exists then st.endWord else some st
    let argv ← copyWords st.obuf st.optr 0 st.words
    some (.ok argv)

/-- `garbage` is what the allocated buffer holds at first. `none` is an access outside of it. -/
def parseLine (garbage : Nat → Byte) (line : CString) :
    Option (Except String (List (List Byte))) := do
  let obuf := (List.range (line.bytes.length + 1)).map garbage
  match ← parseLoop (line.bytes.dropWhile isspace) ⟨obuf, 0, 0, [], 0#8, false⟩ with
  | .error message => some (.error message)
  | .ok st => finish st

def putQuotedString (str : List Byte) : List Byte :=
  [doubleQuote] ++ str.flatMap (fun c =>
    if c = backslash ∨ c = doubleQuote then [backslash, c] else [c]) ++ [doubleQuote]

/-! ## The words of a line -/

/-- The words that are ended, the one that is not, and whether there is one if it is empty. -/
structure Scan where
  done : List (List Byte)
  current : List Byte
  quotec : Byte
  pending : Bool

/-- The splitting of a line, without a buffer. -/
def scan : List Byte → Scan → Except String Scan
  | [], s => .ok s
  | c :: rest, s =>
    if c = backslash then
      match rest with
      | [] => .error "Backslash at end of line"
      | d :: rest => scan rest { s with current := s.current ++ [escape d] }
    else if c = s.quotec then scan rest { s with quotec := 0#8 }
    else if (c = singleQuote ∨ c = doubleQuote) ∧ s.quotec = 0#8 then
      scan rest { s with quotec := c, pending := true }
    else if isspace c ∧ s.quotec = 0#8 then
      scan (rest.dropWhile isspace) ⟨s.done ++ [s.current], [], 0#8, false⟩
    else scan rest { s with current := s.current ++ [c] }
termination_by line => line.length
decreasing_by
  all_goals simp only [List.length_cons]
  all_goals first | omega | exact Nat.lt_succ_of_le (List.dropWhile_sublist _).length_le

/-- The words of a line that is scanned. -/
def Scan.words (s : Scan) : Except String (List (List Byte)) :=
  if s.quotec = doubleQuote then .error "Missing closing double quote"
  else if s.quotec ≠ 0#8 then .error "Missing closing single quote"
  else if s.current ≠ [] ∨ s.pending then .ok (s.done ++ [s.current])
  else .ok s.done

/-- Words, each with blanks in front of it and in quotes, and more blanks behind the last one. -/
def written : List (List Byte × CString) → List Byte → List Byte
  | [], blanks => blanks
  | (blanks, w) :: ws, trailing => blanks ++ putQuotedString w.bytes ++ written ws trailing

/-! ## The buffer -/

/-- The words as they stand in the buffer, each with its NUL. -/
def spelled (words : List (List Byte)) : List Byte := (words.map (· ++ [0#8])).flatten

/-- Where the words start, when the first one starts at `base`. -/
def offsetsOf (base : Nat) : List (List Byte) → List Nat
  | [] => []
  | w :: ws => base :: offsetsOf (base + w.length + 1) ws

/-- The buffer holds what is scanned so far. -/
structure Holds (st : State) (s : Scan) : Prop where
  text : st.obuf.take st.optr = spelled s.done ++ s.current
  le : st.optr ≤ st.obuf.length
  word : st.word = (spelled s.done).length
  words : st.words = offsetsOf 0 s.done
  quotec : st.quotec = s.quotec
  pending : st.word_exists = s.pending
  noNul : ∀ w ∈ s.done, 0#8 ∉ w
  current : 0#8 ∉ s.current

section
variable {st : State} {s : Scan} {ch : Byte} {line rest : List Byte} {garbage : Nat → Byte}

theorem spelled_append (ws : List (List Byte)) (w : List Byte) :
    spelled (ws ++ [w]) = spelled ws ++ w ++ [0#8] := by
  simp [spelled]

theorem spelled_cons (w : List Byte) (ws : List (List Byte)) :
    spelled (w :: ws) = w ++ 0#8 :: spelled ws := by
  simp [spelled]

theorem offsetsOf_append (base : Nat) (ws : List (List Byte)) (w : List Byte) :
    offsetsOf base (ws ++ [w]) = offsetsOf base ws ++ [base + (spelled ws).length] := by
  induction ws generalizing base with
  | nil => rfl
  | cons v ws ih =>
    rw [List.cons_append, offsetsOf, offsetsOf, ih, spelled_cons, List.cons_append,
      List.length_append, List.length_cons]
    congr 3
    omega

theorem take_set {l : List Byte} {i : Nat} (h : i < l.length) (b : Byte) :
    (l.set i b).take (i + 1) = l.take i ++ [b] := by
  rw [List.set_eq_take_append_cons_drop, if_pos h, List.take_append, List.length_take,
    Nat.min_eq_left (Nat.le_of_lt h), List.take_take, Nat.min_eq_right (Nat.le_succ i), Nat.add_sub_cancel_left]
  rfl

theorem put_eq (h : st.optr < st.obuf.length) (ch : Byte) :
    st.put ch = some { st with obuf := st.obuf.set st.optr ch, optr := st.optr + 1 } := if_pos h

theorem Holds.put (h : Holds st s) (hlt : st.optr < st.obuf.length) (hch : ch ≠ 0#8) :
    Holds { st with obuf := st.obuf.set st.optr ch, optr := st.optr + 1 }
      { s with current := s.current ++ [ch] } where
  text := by
    dsimp only
    rw [take_set hlt, h.text, List.append_assoc]
  le := by
    dsimp only
    rw [List.length_set]
    exact hlt
  word := h.word
  words := h.words
  quotec := h.quotec
  pending := h.pending
  noNul := h.noNul
  current := by
    rw [List.mem_append, List.mem_singleton]
    exact not_or.2 ⟨h.current, hch.symm⟩

theorem Holds.endWord (h : Holds st s) (hlt : st.optr < st.obuf.length) :
    ∃ st', st.endWord = some st' ∧ st'.optr = st.optr + 1 ∧ st'.obuf.length = st.obuf.length ∧
      Holds { st' with word := st'.optr, word_exists := false }
        ⟨s.done ++ [s.current], [], s.quotec, false⟩ := by
  have hend : st.endWord = some { st with
      obuf := st.obuf.set st.optr 0#8
      optr := st.optr + 1
      words := st.words ++ [st.word] } := if_pos hlt
  have hlen := congrArg List.length h.text
  rw [List.length_take, Nat.min_eq_left h.le, List.length_append] at hlen
  refine ⟨_, hend, rfl, List.length_set, ?_⟩
  refine ⟨?_, ?_, ?_, ?_, h.quotec, rfl, ?_, List.not_mem_nil⟩
  · dsimp only
    rw [take_set hlt, h.text, spelled_append, List.append_nil]
  · dsimp only
    rw [List.length_set]
    exact hlt
  · dsimp only
    rw [spelled_append, List.length_append, List.length_append, hlen]
    rfl
  · dsimp only
    rw [offsetsOf_append, h.words, h.word, Nat.zero_add]
  · intro w hw
    rcases List.mem_append.1 hw with hw | hw
    · exact h.noNul w hw
    · rw [List.mem_singleton.1 hw]
      exact h.current

theorem escape_ne (h : ch ≠ 0#8) : escape ch ≠ 0#8 := by
  unfold escape
  split_ifs
  · decide
  · decide
  · decide
  · decide
  · exact h

/-- What the loop leaves, for what is left of the line and what is scanned before it. -/
def LeavesAs (r : Option (Except String State)) (t : Except String Scan) : Prop :=
  match t with
  | .error message => r = some (.error message)
  | .ok s => ∃ st, r = some (.ok st) ∧ Holds st s ∧ st.optr < st.obuf.length

theorem parseLoop_nil (st : State) : parseLoop [] st = some (.ok st) := by
  rw [parseLoop]

theorem parseLoop_cons (c : Byte) (rest : List Byte) (st : State) : parseLoop (c :: rest) st =
    if c = backslash then
      match rest with
      | [] => some (.error "Backslash at end of line")
      | d :: rest => (st.put (escape d)).bind fun st => parseLoop rest st
    else if c = st.quotec then parseLoop rest { st with quotec := 0#8 }
    else if (c = singleQuote ∨ c = doubleQuote) ∧ st.quotec = 0#8 then
      parseLoop rest { st with quotec := c, word_exists := true }
    else if isspace c ∧ st.quotec = 0#8 then
      st.endWord.bind fun st =>
        parseLoop (rest.dropWhile isspace) { st with word := st.optr, word_exists := false }
    else (st.put c).bind fun st => parseLoop rest st := by
  rw [parseLoop.eq_def]
  rfl

theorem scan_nil (s : Scan) : scan [] s = .ok s := by
  rw [scan]

theorem scan_cons (c : Byte) (rest : List Byte) (s : Scan) : scan (c :: rest) s =
    if c = backslash then
      match rest with
      | [] => .error "Backslash at end of line"
      | d :: rest => scan rest { s with current := s.current ++ [escape d] }
    else if c = s.quotec then scan rest { s with quotec := 0#8 }
    else if (c = singleQuote ∨ c = doubleQuote) ∧ s.quotec = 0#8 then
      scan rest { s with quotec := c, pending := true }
    else if isspace c ∧ s.quotec = 0#8 then
      scan (rest.dropWhile isspace) ⟨s.done ++ [s.current], [], 0#8, false⟩
    else scan rest { s with current := s.current ++ [c] } := by
  rw [scan.eq_def]

/-- No byte of the line makes more than one in the buffer. -/
theorem parseLoop_spec (h : Holds st s) (hnul : 0#8 ∉ line)
    (hroom : st.optr + line.length < st.obuf.length) : LeavesAs (parseLoop line st) (scan line s) := by
  induction hn : line.length using Nat.strongRecOn generalizing line st s with
  | ind n ih =>
    subst hn
    cases line with
    | nil =>
      rw [parseLoop_nil, scan_nil]
      exact ⟨st, rfl, h, hroom⟩
    | cons c rest =>
      rw [parseLoop_cons, scan_cons, h.quotec]
      simp only [List.mem_cons, not_or, List.length_cons] at hnul hroom ih
      split_ifs with hc hq hopen hspace
      · -- a backslash, and the byte behind it
        cases rest with
        | nil => rfl
        | cons d rest =>
          simp only [List.mem_cons, not_or, List.length_cons] at hnul hroom ih
          dsimp only
          rw [put_eq (by omega), Option.bind_some]
          refine ih rest.length (by omega) (h.put (by omega) (escape_ne (Ne.symm hnul.2.1))) hnul.2.2
            ?_ rfl
          dsimp only
          rw [List.length_set]
          omega
      · -- the quote that closes
        refine ih rest.length (by omega) ?_ hnul.2 (by dsimp only; omega) rfl
        exact ⟨h.text, h.le, h.word, h.words, rfl, h.pending, h.noNul, h.current⟩
      · refine ih rest.length (by omega) ?_ hnul.2 (by dsimp only; omega) rfl
        exact ⟨h.text, h.le, h.word, h.words, rfl, rfl, h.noNul, h.current⟩
      · -- blanks, which end the word
        obtain ⟨st', hend, hoptr, hlen, hholds⟩ := h.endWord (by omega)
        rw [hspace.2] at hholds
        rw [hend, Option.bind_some]
        have hdrop := (List.dropWhile_sublist isspace (l := rest)).length_le
        refine ih _ (by omega) hholds
          (fun hmem => hnul.2 ((List.dropWhile_sublist isspace).mem hmem)) ?_ rfl
        dsimp only
        omega
      · rw [put_eq (by omega), Option.bind_some]
        refine ih rest.length (by omega) (h.put (by omega) (Ne.symm hnul.1)) hnul.2 ?_ rfl
        dsimp only
        rw [List.length_set]
        omega

/-- A word is copied up to its NUL. -/
theorem cstrAt_spec {obuf before w rest : List Byte} (h : obuf = before ++ (w ++ 0#8 :: rest))
    (hw : 0#8 ∉ w) : cstrAt obuf before.length = some w := by
  have htake : (w ++ 0#8 :: rest).takeWhile (· != 0#8) = w := by
    rw [List.takeWhile_append_of_pos, List.takeWhile_cons_of_neg (by simp), List.append_nil]
    intro b hb
    have hne : b ≠ 0#8 := fun hc => hw (hc ▸ hb)
    simpa using hne
  have hlen := congrArg List.length h
  rw [List.length_append, List.length_append, List.length_cons] at hlen
  unfold cstrAt
  rw [h, List.drop_left, htake, ← h, if_pos (by omega)]

theorem copyWords_spec (before after : List Byte) {obuf : List Byte} {ws : List (List Byte)}
    {size : Nat}
    (h : obuf = before ++ spelled ws ++ after) (hsize : before.length + (spelled ws).length ≤ size)
    (hnul : ∀ w ∈ ws, 0#8 ∉ w) :
    copyWords obuf size before.length (offsetsOf before.length ws) = some ws := by
  induction ws generalizing before with
  | nil => rfl
  | cons w ws ih =>
    rw [List.forall_mem_cons] at hnul
    rw [spelled_cons, List.length_append, List.length_cons] at hsize
    have hword : obuf = before ++ (w ++ 0#8 :: (spelled ws ++ after)) := by
      rw [h, spelled_cons]
      simp
    have hrest : obuf = (before ++ w ++ [0#8]) ++ spelled ws ++ after := by
      rw [h, spelled_cons]
      simp
    have hlen : (before ++ w ++ [0#8]).length = before.length + w.length + 1 := by
      rw [List.length_append, List.length_append]
      rfl
    have hnext := ih (before ++ w ++ [0#8]) hrest (by omega) hnul.2
    rw [hlen] at hnext
    rw [offsetsOf, copyWords, cstrAt_spec hword hnul.1]
    dsimp only [Option.bind_eq_bind, Option.bind_some]
    rw [if_pos (by omega), hnext]
    rfl

theorem finish_spec (h : Holds st s) (hroom : st.optr < st.obuf.length) :
    finish st = some s.words := by
  have hcopy {st : State} {s : Scan} (h : Holds st s) (hcurrent : s.current = []) :
      copyWords st.obuf st.optr 0 st.words = some s.done := by
    have htext := h.text
    rw [hcurrent, List.append_nil] at htext
    have hlen := congrArg List.length htext
    rw [List.length_take, Nat.min_eq_left h.le] at hlen
    rw [h.words]
    refine copyWords_spec [] (st.obuf.drop st.optr) ?_ ?_ h.noNul
    · rw [List.nil_append, ← htext, List.take_append_drop]
    · rw [List.length_nil]
      omega
  have hlen := congrArg List.length h.text
  rw [List.length_take, Nat.min_eq_left h.le, List.length_append] at hlen
  have hlast : (st.word < st.optr ∨ st.word_exists = true) ↔
      (s.current ≠ [] ∨ s.pending = true) := by
    rw [h.word, h.pending, hlen, ← List.length_pos_iff]
    exact or_congr_left (by omega)
  unfold finish Scan.words
  rw [h.quotec]
  split_ifs with h1 h2 h3 h4
  · rfl
  · rfl
  · obtain ⟨st', hend, hoptr, -, hholds⟩ := h.endWord hroom
    have hwords := hcopy hholds rfl
    dsimp only at hwords
    dsimp only [Option.bind_eq_bind]
    rw [hend, Option.bind_some, hwords]
    rfl
  · exact absurd (hlast.1 h3) h4
  · exact absurd (hlast.2 ‹_›) h3
  · have hempty : s.current = [] := by
      by_contra hne
      exact ‹¬ (s.current ≠ [] ∨ s.pending = true)› (.inl hne)
    dsimp only [Option.bind_eq_bind, Option.bind_some]
    rw [hcopy h hempty]
    rfl

/-- The words of a line are what is scanned, and nothing is stored elsewhere. -/
theorem parseLine_spec (garbage : Nat → Byte) (line : CString) : parseLine garbage line =
    some (scan (line.bytes.dropWhile isspace) ⟨[], [], 0#8, false⟩ >>= Scan.words) := by
  have hstart : Holds ⟨(List.range (line.bytes.length + 1)).map garbage, 0, 0, [], 0#8, false⟩
      ⟨[], [], 0#8, false⟩ :=
    ⟨rfl, Nat.zero_le _, rfl, rfl, rfl, rfl, fun w hw => absurd hw List.not_mem_nil,
      List.not_mem_nil⟩
  have hdrop := (List.dropWhile_sublist isspace (l := line.bytes)).length_le
  have hloop := parseLoop_spec hstart
    (fun hmem => line.noNul ((List.dropWhile_sublist isspace).mem hmem)) (by
      dsimp only
      rw [List.length_map, List.length_range]
      omega)
  unfold parseLine
  dsimp only [Option.bind_eq_bind]
  unfold LeavesAs at hloop
  split at hloop
  · rename_i message hscan
    rw [hloop, hscan]
    rfl
  · rename_i s hscan
    obtain ⟨st, heq, hholds, hroom⟩ := hloop
    rw [heq, hscan, Option.bind_some]
    exact finish_spec hholds hroom

end

/-! ## The quoted words -/

section
variable {s : Scan} {w rest blanks trailing : List Byte} {ws : List (List Byte × CString)}

theorem scan_body (w : List Byte) (hq : s.quotec = doubleQuote) :
    scan (w.flatMap (fun c => if c = backslash ∨ c = doubleQuote then [backslash, c] else [c]) ++
      doubleQuote :: rest) s = scan rest { s with current := s.current ++ w, quotec := 0#8 } := by
  induction w generalizing s with
  | nil =>
    rw [List.flatMap_nil, List.nil_append, scan_cons, if_neg (by decide), hq, if_pos rfl, List.append_nil]
  | cons c w ih =>
    have hstep : ∀ tail, scan ((if c = backslash ∨ c = doubleQuote then [backslash, c] else [c]) ++
        tail) s = scan tail { s with current := s.current ++ [c] } := by
      intro tail
      split
      · rename_i hc
        have hself : escape c = c := by rcases hc with rfl | rfl <;> rfl
        rw [List.cons_append, List.cons_append, List.nil_append, scan_cons, if_pos rfl]
        dsimp only
        rw [hself]
      · rename_i hc
        have hne : ¬ s.quotec = 0#8 := by
          rw [hq]
          decide
        rw [not_or] at hc
        rw [List.cons_append, List.nil_append, scan_cons, if_neg hc.1, if_neg (by rw [hq]; exact hc.2),
          if_neg (fun h => hne h.2), if_neg (fun h => hne h.2)]
    rw [List.flatMap_cons, List.append_assoc, hstep]
    refine (ih (s := { s with current := s.current ++ [c] }) hq).trans ?_
    dsimp only
    rw [List.append_assoc]
    rfl

/-- A word in quotes is there also when it is empty. -/
theorem scan_quoted (hq : s.quotec = 0#8) : scan (putQuotedString w ++ rest) s =
    scan rest { s with current := s.current ++ w, quotec := 0#8, pending := true } := by
  have hline : putQuotedString w ++ rest = doubleQuote :: (w.flatMap (fun c =>
      if c = backslash ∨ c = doubleQuote then [backslash, c] else [c]) ++ doubleQuote :: rest) := by
    simp [putQuotedString]
  rw [hline, scan_cons, if_neg (by decide), hq, if_neg (by decide), if_pos ⟨.inr rfl, rfl⟩]
  exact scan_body w rfl

theorem dropWhile_blanks (h : ∀ c ∈ blanks, isspace c = true)
    (hrest : ∀ c, rest.head? = some c → isspace c = false) :
    (blanks ++ rest).dropWhile isspace = rest := by
  rw [List.dropWhile_append_of_pos h]
  cases rest with
  | nil => rfl
  | cons c rest =>
    rw [List.dropWhile_cons_of_neg]
    rw [hrest c rfl]
    exact Bool.false_ne_true

/-- Blanks between quotes end a word. -/
theorem scan_blanks (hne : blanks ≠ []) (h : ∀ c ∈ blanks, isspace c = true)
    (hrest : ∀ c, rest.head? = some c → isspace c = false) (hq : s.quotec = 0#8) :
    scan (blanks ++ rest) s = scan rest ⟨s.done ++ [s.current], [], 0#8, false⟩ := by
  cases blanks with
  | nil => exact absurd rfl hne
  | cons c blanks =>
    rw [List.forall_mem_cons] at h
    have hother {b : Byte} (hb : isspace b = false) : c ≠ b := by
      rintro rfl
      rw [h.1] at hb
      cases hb
    rw [List.cons_append, scan_cons, if_neg (hother rfl), hq, if_neg (hother rfl), if_neg, if_pos ⟨h.1, rfl⟩,
      dropWhile_blanks h.2 hrest]
    rintro ⟨hc | hc, -⟩
    · exact hother rfl hc
    · exact hother rfl hc

theorem head_quoted (w tail : List Byte) :
    ∀ c, (putQuotedString w ++ tail).head? = some c → isspace c = false := by
  intro c hc
  cases hc
  rfl

theorem words_pending (done : List (List Byte)) (current : List Byte) :
    Scan.words ⟨done, current, 0#8, true⟩ = .ok (done ++ [current]) := by
  unfold Scan.words
  rw [if_neg (show ¬ 0#8 = doubleQuote by decide), if_neg (show ¬ 0#8 ≠ 0#8 by decide),
    if_pos (.inr rfl)]

theorem no_head (c : Byte) (h : ([] : List Byte).head? = some c) : isspace c = false := nomatch h

/-- What is written behind a word: the other ones. -/
theorem scan_written (hblank : ∀ p ∈ ws, ∀ c ∈ p.1, isspace c = true) (hne : ∀ p ∈ ws, p.1 ≠ [])
    (htrailing : ∀ c ∈ trailing, isspace c = true) (done : List (List Byte)) (current : List Byte) :
    (scan (written ws trailing) ⟨done, current, 0#8, true⟩ >>= Scan.words) =
      .ok (done ++ current :: ws.map (·.2.bytes)) := by
  induction ws generalizing done current with
  | nil =>
    rw [written]
    by_cases h : trailing = []
    · rw [h, scan_nil]
      exact words_pending done current
    · rw [← List.append_nil trailing, scan_blanks h htrailing no_head rfl, scan_nil]
      rfl
  | cons p ws ih =>
    obtain ⟨blanks, w⟩ := p
    rw [List.forall_mem_cons] at hblank hne
    rw [written, List.append_assoc, scan_blanks hne.1 hblank.1 (head_quoted _ _) rfl, scan_quoted rfl,
      List.nil_append, ih hblank.2 hne.2]
    simp

theorem noNul_written (hblank : ∀ p ∈ ws, ∀ c ∈ p.1, isspace c = true)
    (htrailing : ∀ c ∈ trailing, isspace c = true) : 0#8 ∉ written ws trailing := by
  have hspaces {l : List Byte} (h : ∀ c ∈ l, isspace c = true) : 0#8 ∉ l :=
    fun hmem => nomatch h 0#8 hmem
  induction ws with
  | nil => exact hspaces htrailing
  | cons p ws ih =>
    obtain ⟨blanks, w⟩ := p
    rw [List.forall_mem_cons] at hblank
    have hw := w.noNul
    rw [written, List.mem_append, List.mem_append, not_or, not_or]
    refine ⟨⟨hspaces hblank.1, ?_⟩, ih hblank.2⟩
    unfold putQuotedString
    simp only [List.mem_append, List.mem_flatMap, List.mem_singleton, not_or, not_exists, not_and]
    refine ⟨⟨by decide, fun c hc hmem => ?_⟩, by decide⟩
    have hne : c ≠ 0#8 := fun h => hw (h ▸ hc)
    split at hmem
    · simp only [List.mem_cons, List.not_mem_nil, or_false] at hmem
      rcases hmem with h | h
      · exact absurd h (by decide)
      · exact hne h.symm
    · exact hne (List.mem_singleton.1 hmem).symm

end

/-! ## The law -/

/-- Whatever words are written in quotes with blanks between them are read back, and no line makes a
store outside of the buffer. -/
theorem quoted_words_are_read_back (garbage : Nat → Byte) :
    (∀ (ws : List (List Byte × CString)) (trailing : List Byte)
      (hblank : ∀ p ∈ ws, ∀ c ∈ p.1, isspace c = true)
      (htrailing : ∀ c ∈ trailing, isspace c = true), (∀ p ∈ ws.tail, p.1 ≠ []) →
      parseLine garbage ⟨written ws trailing, noNul_written hblank htrailing⟩ =
        some (.ok (ws.map (·.2.bytes)))) ∧
      ∀ line, (parseLine garbage line).isSome := by
  refine ⟨fun ws trailing hblank htrailing hne => ?_, fun line => ?_⟩
  · rw [parseLine_spec]
    congr 1
    dsimp only
    cases ws with
    | nil =>
      have hskip : trailing.dropWhile isspace = [] := by
        rw [← List.append_nil trailing]
        exact dropWhile_blanks htrailing no_head
      rw [written, hskip, scan_nil]
      rfl
    | cons p ws =>
      obtain ⟨blanks, w⟩ := p
      have hrest := hblank
      rw [List.forall_mem_cons] at hrest
      rw [written, List.append_assoc, dropWhile_blanks hrest.1 (head_quoted _ _), scan_quoted rfl,
        List.nil_append, scan_written hrest.2 hne htrailing]
      rfl
  · rw [parseLine_spec]
    rfl

/-- An empty word, and one with a quote in it. -/
theorem two_quoted_words_are_read_back :
    parseLine (fun _ => 255#8) ⟨written [([], ⟨[], by decide⟩), ([32#8], ⟨[97#8, 34#8], by decide⟩)] [],
      noNul_written (by decide) (by decide)⟩ = some (.ok [[], [97#8, 34#8]]) :=
  (quoted_words_are_read_back (fun _ => 255#8)).1 _ [] (by decide) (by decide) (by decide)

end ups_rules.quoted_words
