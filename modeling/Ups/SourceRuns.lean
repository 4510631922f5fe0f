-- What the index of a source file holds once its lines have been scanned, and what so_getline shows
-- of them (so.c).
import Ups.SourceFile

open file_lines
open ups_rules.strcache

namespace ups_rules.source_file

variable {F F' : List UInt8} {so so' : So} {sc sc' : Strcache} {s s' : Scan} {l : List UInt8}
  {ls ls' : List (List UInt8)} {n m i j lptr offset tabwidth : Nat} {before : List Block}
  {bl : Block} {last : Option Block}

/-! ## The characters of a line -/

theorem expand_spaces (tabwidth : Nat) (iptr : List UInt8) (tabspaces : Nat) (obuf : List UInt8) :
    expand tabwidth iptr tabspaces obuf =
      expand tabwidth iptr 0 (obuf ++ List.replicate tabspaces blank) := by
  induction tabspaces generalizing obuf with
  | zero => rw [List.replicate_zero, List.append_nil]
  | succ tabspaces ih =>
    rw [expand, ih, List.append_assoc, List.singleton_append, ← List.replicate_succ]

/-- A tab is as many blanks as there are places to the next tab stop. -/
theorem expand_eq (hwidth : 0 < tabwidth) (iptr obuf : List UInt8) :
    expand tabwidth iptr 0 obuf = iptr.foldl (showChar tabwidth) obuf := by
  induction iptr generalizing obuf with
  | nil => rw [expand, List.foldl_nil]
  | cons ch iptr ih =>
    rw [expand, List.foldl_cons]
    unfold showChar
    by_cases htab : ch = tab
    · have hmod := Nat.mod_lt obuf.length hwidth
      rw [if_pos htab, if_pos htab, expand_spaces, ih, List.append_assoc, List.singleton_append,
        ← List.replicate_succ]
      congr 3
      omega
    · rw [if_neg htab, if_neg htab]
      by_cases hback : ch = backspace
      · rw [if_pos hback]
        by_cases hobuf : obuf = []
        · rw [if_neg fun h => h.2 hobuf, if_pos hobuf, hback, hobuf]
          exact ih _
        · rw [if_pos ⟨hback, hobuf⟩, if_neg hobuf]
          exact ih _
      · rw [if_neg fun h => hback h.1, if_neg hback]
        split
        · exact ih _
        · exact ih _

/-! ## The lines and the cache -/

theorem textOf_take (h : (textOf l).length ≤ n) : textOf (l.take n) = textOf l := by
  unfold textOf at *
  induction l generalizing n with
  | nil => rw [List.take_nil]
  | cons c l ih =>
    by_cases hc : (c != newline) = true
    · rw [List.takeWhile_cons_of_pos (p := (· != newline)) hc] at h ⊢
      obtain ⟨n, rfl⟩ := Nat.exists_eq_succ_of_ne_zero (Nat.ne_of_gt (Nat.lt_of_lt_of_le
        (Nat.zero_lt_succ _) h))
      rw [List.take_succ_cons, List.takeWhile_cons_of_pos (p := (· != newline)) hc, ih (Nat.le_of_succ_le_succ h)]
    · rw [List.takeWhile_cons_of_neg (p := (· != newline)) hc]
      cases n with
      | zero => rfl
      | succ n => rw [List.take_succ_cons, List.takeWhile_cons_of_neg (p := (· != newline)) hc]

/-- The text of a line is the string where the line starts, and the next line starts behind it. -/
theorem string_of_line (h : (lines newline F)[n]? = some l) :
    lineStart (lines newline F) n < F.length ∧
      stringFrom F (lineStart (lines newline F) n) newline = textOf l ∧
      lineStart (lines newline F) (n + 1) = lineStart (lines newline F) n + (textOf l).length +
        if lineStart (lines newline F) n + (textOf l).length < F.length then 1 else 0 := by
  have hdrop := lines_drop newline F n
  have hrest : (lines newline F).drop n = l :: (lines newline F).drop (n + 1) := by
    obtain ⟨hn, rfl⟩ := List.getElem?_eq_some_iff.mp h
    exact List.drop_eq_getElem_cons hn
  have hlen := List.length_drop (i := lineStart (lines newline F) n) (l := F)
  rw [lineStart_succ h]
  unfold stringFrom
  generalize F.drop (lineStart (lines newline F) n) = rest at *
  rw [hrest] at hdrop
  have hne : rest ≠ [] := by
    rintro rfl
    cases hdrop
  have hpos := List.length_pos_of_ne_nil hne
  rw [lines_of_ne_nil hne, List.cons.injEq] at hdrop
  have hfirst := firstLength_le newline rest
  have hrun := (List.takeWhile_sublist (· != newline) (l := rest)).length_le
  have htext : rest.takeWhile (· != newline) = textOf l := by
    rw [← hdrop.1]
    refine (textOf_take ?_).symm
    unfold textOf firstLength
    dsimp only
    split <;> omega
  have hl : l.length = firstLength newline rest := by
    rw [← hdrop.1, List.length_take]
    exact min_eq_left hfirst
  refine ⟨by omega, htext, ?_⟩
  rw [hl]
  rw [htext] at hrun
  unfold firstLength
  rw [htext]
  dsimp only
  split <;> split <;> omega

/-- The cache holds blocks of the file, and its saved line takes a line that is not too long. -/
structure Ready (F : List UInt8) (sc : Strcache) : Prop where
  good : Good F sc
  offset : sc.sc_offset = 0
  size : blockSize sc = DEFAULT_BUFSIZE
  saved : SavedFrom DEFAULT_BUFSIZE sc

/-- A line is read unless it is as long as a buffer and the saved line has not been enlarged. -/
theorem getEnded_line (h : Ready F sc) (hl : (lines newline F)[n]? = some l)
    (hfits : Enlarged sc ∨ (textOf l).length ≠ DEFAULT_BUFSIZE) :
    ∃ sc', getEnded (readsFile F) (turns F) sc (lineStart (lines newline F) n) newline =
        .ok (sc', some (textOf l,
          if lineStart (lines newline F) n + (textOf l).length < F.length then newline else 0)) ∧
      Ready F sc' ∧ (Enlarged sc ∨ DEFAULT_BUFSIZE < (textOf l).length → Enlarged sc') := by
  obtain ⟨hlt, hstring, -⟩ := string_of_line hl
  have hsaved := h.saved
  rw [← h.size] at hsaved hfits
  obtain ⟨sc', heq, hgood, hoffset, hsize, hsaved', hlarge⟩ := getEnded_spec h.good hsaved
    (lineStart (lines newline F) n) newline (by rw [h.offset, Int.add_zero])
    (by rw [hstring]; exact hfits)
  rw [endedAt, stringAt, if_neg (Nat.not_le.mpr hlt), Option.map_some, hstring] at heq
  rw [h.size] at hsize hsaved' hlarge
  refine ⟨sc', heq, ⟨hgood, hoffset.trans h.offset, hsize, hsaved'⟩, ?_⟩
  rw [hstring] at hlarge
  exact fun hl => hlarge (hl.imp id fun hlong => ⟨hlt, hlong⟩)

/-- At the end of the file nothing is read. -/
theorem getEnded_end (h : Ready F sc) (hoff : F.length ≤ offset) :
    ∃ sc', getEnded (readsFile F) (turns F) sc offset newline = .ok (sc', none) ∧ Ready F sc' ∧
      (Enlarged sc → Enlarged sc') := by
  have hsaved := h.saved
  have hempty : stringFrom F offset newline = [] := by
    unfold stringFrom
    rw [List.drop_of_length_le hoff]
    rfl
  rw [← h.size] at hsaved
  obtain ⟨sc', heq, hgood, hoffset, hsize, hsaved', hlarge⟩ := getEnded_spec h.good hsaved offset
    newline (by rw [h.offset, Int.add_zero])
    (by rw [hempty, h.size]; exact Or.inr (Nat.zero_ne_add_one _))
  rw [endedAt, stringAt, if_pos hoff] at heq
  rw [h.size] at hsize hsaved'
  exact ⟨sc', heq, ⟨hgood, hoffset.trans h.offset, hsize, hsaved'⟩, fun hl => hlarge (Or.inl hl)⟩

/-! ## The blocks of the index -/

/-- Block `j` of the index holds the first `m` of its offsets. -/
structure Starts (ls : List (List UInt8)) (j m : Nat) (bl : Block) : Prop where
  offset : bl.bl_offset = lineStart ls (LINES_PER_BLOCK * j)
  lines : ∀ k < m, bl.bl_lines[k]? = some (lineStart ls (LINES_PER_BLOCK * j + k))

/-- The blocks hold the offsets of the first `n` lines. -/
structure Placed (ls : List (List UInt8)) (n : Nat) (before : List Block) (last : Option Block)
    (lptr : Nat) : Prop where
  count : n = LINES_PER_BLOCK * before.length + lptr
  room : lptr ≤ LINES_PER_BLOCK
  empty : last = none → before = [] ∧ lptr = 0
  full : ∀ j bl, before[j]? = some bl → Starts ls j LINES_PER_BLOCK bl
  part : ∀ bl, last = some bl → Starts ls before.length lptr bl

theorem placed_none (ls : List (List UInt8)) : Placed ls 0 [] none 0 where
  count := rfl
  room := Nat.zero_le _
  empty := fun _ => ⟨rfl, rfl⟩
  full := fun _ _ h => (nomatch h)
  part := fun _ h => (nomatch h)

theorem placed_withRoom (h : Placed ls n s.before s.last_block s.lptr) (hpos : s.pos = lineStart ls n) :
    Placed ls n s.withRoom.before s.withRoom.last_block s.withRoom.lptr ∧
      s.withRoom.lptr < LINES_PER_BLOCK ∧ s.withRoom.last_block.isSome := by
  obtain ⟨so, before, last, lptr, pos⟩ := s
  obtain ⟨hcount, hroom, hempty, hfull, hpart⟩ := h
  unfold Scan.withRoom Scan.llim
  dsimp only at *
  cases last with
  | none =>
    obtain ⟨rfl, rfl⟩ := hempty rfl
    rw [if_pos (show 0 = if (none : Option Block).isSome then LINES_PER_BLOCK else 0 from rfl)]
    refine ⟨⟨hcount, Nat.zero_le _, fun h => (nomatch h), fun _ _ h => (nomatch h), ?_⟩,
      Nat.zero_lt_succ _, rfl⟩
    rintro bl hbl
    cases hbl
    exact ⟨by rw [hcount] at hpos; exact hpos, fun k hk => absurd hk (Nat.not_lt_zero k)⟩
  | some last =>
    by_cases hlptr : lptr = LINES_PER_BLOCK
    · have hlen : (before ++ (some last).toList).length = before.length + 1 := by
        rw [List.length_append]
        rfl
      have hcount' : n = LINES_PER_BLOCK * (before.length + 1) := by
        rw [hcount, hlptr, Nat.mul_add, Nat.mul_one]
      rw [if_pos (show lptr = if (some last).isSome then LINES_PER_BLOCK else 0 from hlptr)]
      refine ⟨⟨by rw [hlen, ← hcount', Nat.add_zero], Nat.zero_le _, fun h => (nomatch h), ?_, ?_⟩,
        Nat.zero_lt_succ _, rfl⟩
      · intro j bl hbl
        dsimp only at hbl
        rw [List.getElem?_append] at hbl
        split at hbl
        · exact hfull j bl hbl
        · rename_i hj
          obtain ⟨hj', rfl⟩ := List.getElem?_eq_some_iff.mp hbl
          have hj0 : j = before.length := by
            rw [Option.toList_some, List.length_singleton] at hj'
            omega
          subst hj0
          rw [← hlptr]
          simpa using hpart last rfl
      · rintro bl hbl
        cases hbl
        rw [hlen]
        exact ⟨by rw [← hcount']; exact hpos, fun k hk => absurd hk (Nat.not_lt_zero k)⟩
    · rw [if_neg (show ¬lptr = if (some last).isSome then LINES_PER_BLOCK else 0 from hlptr)]
      exact ⟨⟨hcount, hroom, hempty, hfull, hpart⟩, Nat.lt_of_le_of_ne hroom hlptr, rfl⟩

theorem pos_withRoom (s : Scan) : s.withRoom.pos = s.pos := by
  unfold Scan.withRoom
  split
  · rfl
  · rfl

/-- One more offset is stored. -/
theorem placed_store (h : Placed ls n s.before s.last_block s.lptr) (hpos : s.pos = lineStart ls n) :
    Placed ls (n + 1) s.withRoom.store.before s.withRoom.store.last_block s.withRoom.store.lptr := by
  obtain ⟨⟨hcount, -, hempty, hfull, hpart⟩, hlt, hsome⟩ := placed_withRoom h hpos
  have hpos' : s.withRoom.pos = lineStart ls n := (pos_withRoom s).trans hpos
  generalize s.withRoom = t at *
  obtain ⟨so, before, last, lptr, pos⟩ := t
  obtain ⟨bl, rfl⟩ := Option.isSome_iff_exists.mp hsome
  unfold Scan.store
  dsimp only at *
  refine ⟨by omega, hlt, fun h => (nomatch h), hfull, ?_⟩
  rintro bl' hbl
  cases hbl
  obtain ⟨hoffset, hlines⟩ := hpart bl rfl
  refine ⟨hoffset, fun k hk => ?_⟩
  unfold Block.store
  dsimp only
  rw [List.getElem?_set]
  split
  · rename_i hk'
    rw [← hk', if_pos (by rw [bl.size]; exact hlt), ← hcount, hpos']
  · exact hlines k (by omega)

/-- The offset of a line is found in its block. -/
theorem placed_lookup (h : Placed ls n before last lptr) (hi : i < n) :
    (((before ++ last.toList)[i / LINES_PER_BLOCK]?).bind fun bl =>
      bl.bl_lines[i % LINES_PER_BLOCK]?) = some (lineStart ls i) := by
  obtain ⟨hcount, hroom, hempty, hfull, hpart⟩ := h
  have hdiv := Nat.div_add_mod i LINES_PER_BLOCK
  have hmod := Nat.mod_lt i (show 0 < LINES_PER_BLOCK from Nat.zero_lt_succ _)
  rw [List.getElem?_append]
  split
  · rename_i hlt
    rw [List.getElem?_eq_getElem hlt, Option.bind_some,
      (hfull _ _ (List.getElem?_eq_getElem hlt)).lines _ hmod, hdiv]
  · rename_i hge
    cases last with
    | none =>
      obtain ⟨rfl, rfl⟩ := hempty rfl
      exact absurd hi (by rw [hcount]; exact Nat.not_lt_zero i)
    | some bl =>
      have hj : i / LINES_PER_BLOCK = before.length := by
        unfold LINES_PER_BLOCK at *
        omega
      rw [hj, Nat.sub_self, Option.toList_some, List.getElem?_cons_zero, Option.bind_some,
        (hpart bl rfl).lines _ (by rw [hj] at hdiv; omega), ← hj, hdiv]

/-- The blocks of a text that grows hold the offsets of the longer one, but for the last block. -/
theorem placed_grown (h : Placed (lines newline F) n before last lptr)
    (hall : n = (lines newline F).length) (hlptr : n ≠ 0 → lptr ≠ 0) (more : List UInt8) :
    Placed (lines newline (F ++ more)) (LINES_PER_BLOCK * before.length) before last 0 := by
  obtain ⟨hcount, hroom, hempty, hfull, hpart⟩ := h
  have hstart : ∀ k ≤ LINES_PER_BLOCK * before.length,
      lineStart (lines newline F) k = lineStart (lines newline (F ++ more)) k := by
    intro k hk
    by_cases hk0 : k = 0
    · rw [hk0]
      rfl
    · exact (lineStart_append more (by omega)).symm
  refine ⟨rfl, Nat.zero_le _, fun hn => ⟨(hempty hn).1, rfl⟩, ?_, ?_⟩
  · intro j bl hbl
    obtain ⟨hoffset, hlines⟩ := hfull j bl hbl
    have hj := (List.getElem?_eq_some_iff.mp hbl).1
    have hle : LINES_PER_BLOCK * (j + 1) ≤ LINES_PER_BLOCK * before.length :=
      Nat.mul_le_mul_left _ hj
    rw [Nat.mul_add, Nat.mul_one] at hle
    exact ⟨by rw [hoffset, hstart _ (by omega)],
      fun k hk => by rw [hlines k hk, hstart _ (by omega)]⟩
  · intro bl hbl
    obtain ⟨hoffset, -⟩ := hpart bl hbl
    exact ⟨by rw [hoffset, hstart _ (Nat.le_refl _)], fun k hk => absurd hk (Nat.not_lt_zero k)⟩

/-! ## The scan -/

/-- The lines are shorter than a buffer, unless the saved line has been enlarged. -/
def Short (ls : List (List UInt8)) (n : Nat) (sc : Strcache) : Prop :=
  Enlarged sc ∨ ∀ i < n, ∀ l, ls[i]? = some l → (textOf l).length < DEFAULT_BUFSIZE

/-- The first lines of the file are in the index. -/
structure Scanned (F : List UInt8) (s : Scan) : Prop where
  width : 0 < s.so.so_tabwidth
  cache : Ready F s.so.so_strcache
  takes : TakesLines s.so.so_strcache F
  short : Short (lines newline F) s.so.so_nlines s.so.so_strcache
  pos : s.pos = lineStart (lines newline F) s.so.so_nlines
  le : s.so.so_nlines ≤ (lines newline F).length
  placed : Placed (lines newline F) s.so.so_nlines s.before s.last_block s.lptr

/-- The saved line takes the next line. -/
theorem fits_next (htakes : TakesLines sc F) (hshort : Short (lines newline F) n sc)
    (hl : (lines newline F)[n]? = some l) : Enlarged sc ∨ (textOf l).length ≠ DEFAULT_BUFSIZE := by
  rcases htakes with hlarge | htakes
  · exact Or.inl hlarge
  · refine hshort.imp id fun hshort hlen => ?_
    obtain ⟨hn, rfl⟩ := List.getElem?_eq_some_iff.mp hl
    obtain ⟨l', hl', hlong⟩ := htakes ((lines newline F).take n) _ ((lines newline F).drop (n + 1))
      (by rw [← List.drop_eq_getElem_cons hn, List.take_append_drop]) hlen
    obtain ⟨i, hi⟩ := List.mem_iff_getElem?.mp hl'
    rw [List.getElem?_take] at hi
    split at hi
    · exact Nat.lt_asymm hlong (hshort i ‹_› l' hi)
    · cases hi

/-- A line that is longer than a buffer enlarges the saved line. -/
theorem short_next (hshort : Short (lines newline F) n sc) (hl : (lines newline F)[n]? = some l)
    (hfits : Enlarged sc ∨ (textOf l).length ≠ DEFAULT_BUFSIZE)
    (hlarge : Enlarged sc ∨ DEFAULT_BUFSIZE < (textOf l).length → Enlarged sc') :
    Short (lines newline F) (n + 1) sc' := by
  rcases hshort with henlarged | hshort
  · exact Or.inl (hlarge (Or.inl henlarged))
  · by_cases hlong : DEFAULT_BUFSIZE < (textOf l).length
    · exact Or.inl (hlarge (Or.inr hlong))
    · rcases hfits with henlarged | hfits
      · exact Or.inl (hlarge (Or.inl henlarged))
      · refine Or.inr fun i hi l' hl' => ?_
        rcases Nat.lt_succ_iff_lt_or_eq.mp hi with hi | rfl
        · exact hshort i hi l' hl'
        · rw [hl, Option.some_inj] at hl'
          rw [← hl']
          omega

/-- The next line is read, and is in the index then. -/
theorem scanned_next (h : Scanned F s) (hl : (lines newline F)[s.so.so_nlines]? = some l) :
    ∃ sc' behind, getEnded (readsFile F) (turns F) s.so.so_strcache s.pos newline =
        .ok (sc', some (textOf l, behind)) ∧
      ∀ so_max_linelen, Scanned F { s.withRoom.store with
        so := { s.so with
          so_strcache := sc'
          so_max_linelen := so_max_linelen
          so_nlines := s.so.so_nlines + 1 }
        pos := s.withRoom.store.pos + (textOf l).length + if behind ≠ 0 then 1 else 0 } := by
  obtain ⟨hwidth, hcache, htakes, hshort, hpos, hle, hplaced⟩ := h
  have hfits := fits_next htakes hshort hl
  obtain ⟨sc', heq, hcache', hlarge⟩ := getEnded_line hcache hl hfits
  obtain ⟨-, -, hnext⟩ := string_of_line hl
  have hlt := (List.getElem?_eq_some_iff.mp hl).1
  have hpos' : s.withRoom.store.pos + (textOf l).length + (if (if lineStart (lines newline F)
      s.so.so_nlines + (textOf l).length < F.length then newline else 0) ≠ 0 then 1 else 0) =
      lineStart (lines newline F) (s.so.so_nlines + 1) := by
    rw [hnext, show s.withRoom.store.pos = s.pos from pos_withRoom s, hpos]
    congr 1
    split
    · rfl
    · rfl
  rw [hpos]
  exact ⟨sc', _, heq, fun _ => ⟨hwidth, hcache', htakes.imp (fun hl => hlarge (Or.inl hl)) id,
    short_next hshort hl hfits hlarge, hpos', hlt, placed_store hplaced hpos⟩⟩

theorem scanLines_spec (fuel : Nat) (h : Scanned F s)
    (hfuel : (lines newline F).length < s.so.so_nlines + fuel) :
    ∃ s', scanLines (readsFile F) (turns F) fuel s = .ok s' ∧ Scanned F s' ∧
      s'.so.so_nlines = (lines newline F).length ∧
      (s.so.so_nlines < (lines newline F).length ∨ s.lptr ≠ 0 → s'.lptr ≠ 0) ∧
      s'.so.so_tabwidth = s.so.so_tabwidth := by
  induction fuel generalizing s with
  | zero => exact absurd h.le (by omega)
  | succ fuel ih =>
    unfold scanLines
    cases hl : (lines newline F)[s.so.so_nlines]? with
    | none =>
      -- The end of the file
      obtain ⟨hwidth, hcache, htakes, hshort, hpos, hle, hplaced⟩ := h
      rw [hpos]
      have hn : s.so.so_nlines = (lines newline F).length :=
        Nat.le_antisymm hle (List.getElem?_eq_none_iff.mp hl)
      have hend : F.length ≤ lineStart (lines newline F) s.so.so_nlines := by
        rw [hn, lineStart, List.take_length, lines_flatten]
      obtain ⟨sc', heq, hcache', hlarge⟩ := getEnded_end hcache hend
      rw [heq]
      exact ⟨_, rfl, ⟨hwidth, hcache', htakes.imp hlarge id, hshort.imp hlarge id, rfl, hle, hplaced⟩,
        hn, fun h => h.resolve_left (by omega), rfl⟩
    | some l =>
      obtain ⟨sc', behind, heq, hscanned⟩ := scanned_next h hl
      rw [heq]
      dsimp only [bind, Except.bind]
      obtain ⟨s', heq', hscanned', hall, hlptr, hwidth'⟩ := ih (hscanned _) (by dsimp only; omega)
      exact ⟨s', heq', hscanned', hall, fun _ => hlptr (Or.inr (Nat.succ_ne_zero _)), hwidth'⟩

/-! ## The index of a file -/

/-- The index holds every line of the file. -/
structure Indexed (F : List UInt8) (so : So) : Prop where
  width : 0 < so.so_tabwidth
  cache : Ready F so.so_strcache
  short : Short (lines newline F) so.so_nlines so.so_strcache
  all : so.so_nlines = (lines newline F).length
  placed : ∃ before last lptr, so.so_block = before ++ last.toList ∧
    Placed (lines newline F) so.so_nlines before last lptr ∧ (so.so_nlines ≠ 0 → lptr ≠ 0)

theorem fits_line (h : Indexed F so) (hl : (lines newline F)[i]? = some l) :
    Enlarged so.so_strcache ∨ (textOf l).length ≠ DEFAULT_BUFSIZE := by
  have hi := (List.getElem?_eq_some_iff.mp hl).1
  rw [← h.all] at hi
  exact h.short.imp id fun hshort => Nat.ne_of_lt (hshort i hi l hl)

theorem indexed_endScan (h : Scanned F s) (hall : s.so.so_nlines = (lines newline F).length)
    (hlptr : s.so.so_nlines ≠ 0 → s.lptr ≠ 0) :
    ∃ so, endScan (readsFile F) (turns F) s = .ok so ∧ Indexed F so ∧
      so.so_tabwidth = s.so.so_tabwidth := by
  obtain ⟨hwidth, hcache, -, hshort, -, -, hplaced⟩ := h
  unfold endScan
  dsimp only
  by_cases hn : s.so.so_nlines = 0
  · rw [if_neg (not_not.mpr hn)]
    exact ⟨_, rfl, ⟨hwidth, hcache, hshort, hall, s.before, s.last_block, s.lptr, rfl, hplaced, hlptr⟩,
      rfl⟩
  · have hpos := hlptr hn
    have hlast : s.lastOffset = some (lineStart (lines newline F) (s.so.so_nlines - 1)) := by
      unfold Scan.lastOffset
      rw [if_neg hpos]
      cases hl : s.last_block with
      | none => exact absurd (hplaced.empty hl).2 hpos
      | some bl =>
        have hcount := hplaced.count
        rw [Option.bind_some, (hplaced.part bl hl).lines _ (by omega)]
        congr 2
        omega
    have hl := List.getElem?_eq_getElem (show s.so.so_nlines - 1 < (lines newline F).length by omega)
    have hfits : Enlarged s.so.so_strcache ∨
        (textOf (lines newline F)[s.so.so_nlines - 1]).length ≠ DEFAULT_BUFSIZE :=
      hshort.imp id fun hshort => Nat.ne_of_lt (hshort _ (by omega) _ hl)
    obtain ⟨sc', heq, hcache', hlarge⟩ := getEnded_line hcache hl hfits
    rw [if_pos hn, hlast]
    dsimp only
    rw [heq]
    exact ⟨_, rfl, ⟨hwidth, hcache', hshort.imp (fun hl => hlarge (Or.inl hl)) id, hall, s.before,
      s.last_block, s.lptr, rfl, hplaced, hlptr⟩, rfl⟩

/-- A scan that starts with the blocks that are kept leaves an index of the file. -/
theorem getLineOffsets_spec (so : So) (h : Scanned F (startScan so))
    (hstart : (startScan so).so.so_nlines < (lines newline F).length ∨
      (startScan so).so.so_nlines = 0) :
    ∃ so', getLineOffsets F so = .ok so' ∧ Indexed F so' ∧
      so'.so_tabwidth = (startScan so).so.so_tabwidth := by
  have hlen := length_lines_le newline F
  obtain ⟨s, heq, hscanned, hall, hlptr, hwidth⟩ := scanLines_spec (turns F) h
    (by unfold turns; omega)
  obtain ⟨so', heq', hindexed, hwidth'⟩ := indexed_endScan hscanned hall fun hn =>
    hlptr (Or.inl (by omega))
  unfold getLineOffsets
  rw [heq]
  exact ⟨so', heq', hindexed, hwidth'.trans hwidth⟩

theorem ready_make (F : List UInt8) : Ready F makeStrcache :=
  ⟨good_make F, rfl, rfl, fun _ h => (nomatch h)⟩

theorem Ready.fileHasGrown (h : Ready F sc) (more : List UInt8) :
    Ready (F ++ more) (fileHasGrown sc) where
  good := by
    refine h.good.mapBufs fun b hb => ?_
    split
    · exact holds_forgetBuf hb
    · exact hb.grow more ‹_›
  offset := h.offset
  size := h.size
  saved := h.saved

theorem Ready.forgetBuffers (h : Ready F sc) (F' : List UInt8) : Ready F' (forgetBuffers sc) :=
  ⟨h.good.mapBufs fun _ hb => holds_forgetBuf hb, h.offset, h.size, h.saved⟩

/-- The buffers of an empty file are empty. -/
theorem Ready.of_nil (h : Ready [] sc) (F' : List UInt8) : Ready F' sc where
  good := by
    refine ⟨h.good.last, h.good.size, fun b hb => ?_, h.good.saved⟩
    have hb := h.good.bufs b hb
    refine ⟨hb.lim, hb.size, hb.len, fun hused => ?_⟩
    have hlen := (hb.block hused).2.1
    rw [List.length_nil] at hlen
    omega
  offset := h.offset
  size := h.size
  saved := h.saved

/-- Without blocks the scan starts at the first line. -/
theorem fresh_spec (so : So) (hwidth : 0 < so.so_tabwidth) (hcache : Ready F so.so_strcache)
    (htakes : TakesLines so.so_strcache F) (hblock : so.so_block = []) :
    ∃ so', getLineOffsets F so = .ok so' ∧ Indexed F so' ∧ so'.so_tabwidth = so.so_tabwidth := by
  have hstart : startScan so = ⟨{ so with so_nlines := 0 }, [], none, 0, 0⟩ := by
    unfold startScan
    rw [hblock]
    rfl
  obtain ⟨so', heq, hindexed, hwidth'⟩ := getLineOffsets_spec (F := F) so
    (by
      rw [hstart]
      exact ⟨hwidth, hcache, htakes, Or.inr fun i hi => absurd hi (Nat.not_lt_zero i), rfl,
        Nat.zero_le _, placed_none _⟩)
    (by rw [hstart]; exact Or.inr rfl)
  rw [hstart] at hwidth'
  exact ⟨so', heq, hindexed, hwidth'⟩

theorem soOpen_spec (hwidth : 0 < tabwidth) (htakes : TakesLines makeStrcache F) :
    ∃ so, soOpen F tabwidth = .ok so ∧ Indexed F so ∧ so.so_tabwidth = tabwidth :=
  fresh_spec ⟨makeStrcache, 0, 0, 0, [], [], 0, tabwidth⟩ hwidth (ready_make F) htakes rfl

theorem reread_spec (h : Indexed F so) (htakes : TakesLines so.so_strcache F') :
    ∃ so', soReadMore F' so true = .ok so' ∧ Indexed F' so' ∧ so'.so_tabwidth = so.so_tabwidth :=
  fresh_spec _ h.width (h.cache.forgetBuffers F') htakes rfl

/-- When a file has grown, the scan starts at the last block, which has a line. -/
theorem grown_spec (h : Indexed F so) (more : List UInt8)
    (htakes : TakesLines so.so_strcache (F ++ more)) :
    ∃ so', soReadMore (F ++ more) so false = .ok so' ∧ Indexed (F ++ more) so' ∧
      so'.so_tabwidth = so.so_tabwidth := by
  obtain ⟨hwidth, hcache, hshort, hall, before, last, lptr, hblock, hplaced, hlptr⟩ := h
  have hcount := hplaced.count
  unfold soReadMore
  rw [if_neg Bool.false_ne_true]
  cases last with
  | none =>
    -- The file was empty
    obtain ⟨rfl, rfl⟩ := hplaced.empty rfl
    have hnil : F = [] := by
      rw [← lines_flatten newline F, List.eq_nil_of_length_eq_zero (hall.symm.trans hcount)]
      rfl
    subst hnil
    exact fresh_spec _ hwidth (hcache.of_nil _) htakes hblock
  | some bl =>
    have hstart : startScan so = ⟨{ so with
        so_nlines := LINES_PER_BLOCK * before.length
        so_strcache := fileHasGrown so.so_strcache }, before, some bl, 0, bl.bl_offset⟩ := by
      unfold startScan
      rw [hblock, Option.toList_some, List.getLast?_concat, List.dropLast_concat,
        List.length_append, List.length_singleton, Nat.add_sub_cancel, Nat.mul_comm]
    have hlonger := length_lines_append newline F more
    have hgrown := placed_grown hplaced hall hlptr more
    have hbefore : LINES_PER_BLOCK * before.length < (lines newline (F ++ more)).length ∨
        LINES_PER_BLOCK * before.length = 0 := by omega
    obtain ⟨so', heq, hindexed, hwidth'⟩ := getLineOffsets_spec (F := F ++ more) so
      (by
        rw [hstart]
        refine ⟨hwidth, hcache.fileHasGrown more, htakes, ?_, (hgrown.part bl rfl).offset, ?_, hgrown⟩
        · refine hshort.imp id fun hshort i hi l hl => ?_
          dsimp only at hi
          rw [line_append more (by omega)] at hl
          exact hshort i (by omega) l hl
        · dsimp only
          omega)
      (by rw [hstart]; exact hbefore)
    rw [hstart] at hwidth'
    exact ⟨so', heq, hindexed, hwidth'⟩

/-! ## The lines that are shown -/

theorem soGetline_spec (h : Indexed F so) (hl : (lines newline F)[i]? = some l) :
    ∃ so', soGetline F so i = .ok (so', shownLine so.so_tabwidth l) ∧ Indexed F so' := by
  have hfits := fits_line h hl
  obtain ⟨hwidth, hcache, hshort, hall, before, last, lptr, hblock, hplaced, hlptr⟩ := h
  have hi : i < so.so_nlines := hall ▸ (List.getElem?_eq_some_iff.mp hl).1
  obtain ⟨sc', heq, hcache', hlarge⟩ := getEnded_line hcache hl hfits
  unfold soGetline
  rw [if_neg (by omega)]
  dsimp only
  rw [Int.toNat_natCast, hblock, placed_lookup hplaced hi]
  dsimp only
  unfold readline
  rw [heq]
  dsimp only [bind, Except.bind]
  rw [Option.map_some, Option.getD_some, expand_eq hwidth]
  exact ⟨_, rfl, hwidth, hcache', hshort.imp (fun h => hlarge (Or.inl h)) id, hall, before, last, lptr,
    hblock, hplaced, hlptr⟩

/-- A line that is asked for is one of the file. -/
theorem indexed_soGetline {lnum : Int} {shown : List UInt8} (h : Indexed F so)
    (heq : soGetline F so lnum = .ok (so', shown)) : Indexed F so' := by
  by_cases hlnum : lnum < 0 ∨ lnum ≥ so.so_nlines
  · unfold soGetline at heq
    rw [if_pos hlnum] at heq
    cases heq
  · obtain ⟨i, rfl⟩ := Int.eq_ofNat_of_zero_le (show 0 ≤ lnum by omega)
    have hall := h.all
    have hl := List.getElem?_eq_getElem (show i < (lines newline F).length by omega)
    obtain ⟨so1, heq1, hindexed⟩ := soGetline_spec h hl
    rw [heq1] at heq
    cases heq
    exact hindexed

theorem indexed_of_reaches (h : Reaches F so) : Indexed F so := by
  induction h with
  | opened hwidth htakes h =>
    obtain ⟨so', heq, hindexed, -⟩ := soOpen_spec hwidth htakes
    rw [heq] at h
    cases h
    exact hindexed
  | grown more _ htakes h ih =>
    obtain ⟨so', heq, hindexed, -⟩ := grown_spec ih more htakes
    rw [heq] at h
    cases h
    exact hindexed
  | rewritten F' _ htakes h ih =>
    obtain ⟨so', heq, hindexed, -⟩ := reread_spec ih htakes
    rw [heq] at h
    cases h
    exact hindexed
  | shown _ h ih => exact indexed_soGetline ih h

/-- In every run in which the saved line takes the lines of each content of the file, the scans come
back, the index has all the lines, and each is shown. -/
theorem source_lines_are_those_of_the_file (F : List UInt8) :
    (∀ tabwidth, 0 < tabwidth → TakesLines makeStrcache F →
      ∃ so, soOpen F tabwidth = .ok so ∧ so.so_tabwidth = tabwidth) ∧
    ∀ so, Reaches F so →
      so.so_nlines = (lines newline F).length ∧
      (∀ (i : Nat) l, (lines newline F)[i]? = some l →
        ∃ so', soGetline F so i = .ok (so', shownLine so.so_tabwidth l)) ∧
      (∀ more, TakesLines so.so_strcache (F ++ more) →
        ∃ so', soReadMore (F ++ more) so false = .ok so' ∧ so'.so_tabwidth = so.so_tabwidth) ∧
      ∀ F', TakesLines so.so_strcache F' →
        ∃ so', soReadMore F' so true = .ok so' ∧ so'.so_tabwidth = so.so_tabwidth := by
  refine ⟨fun tabwidth hwidth htakes => ?_, fun so run => ?_⟩
  · obtain ⟨so, heq, -, hwidth'⟩ := soOpen_spec hwidth htakes
    exact ⟨so, heq, hwidth'⟩
  · have hindexed := indexed_of_reaches run
    refine ⟨hindexed.all, fun i l hl => ?_, fun more htakes => ?_, fun F' htakes => ?_⟩
    · obtain ⟨so', heq, -⟩ := soGetline_spec hindexed hl
      exact ⟨so', heq⟩
    · obtain ⟨so', heq, -, hwidth⟩ := grown_spec hindexed more htakes
      exact ⟨so', heq, hwidth⟩
    · obtain ⟨so', heq, -, hwidth⟩ := reread_spec hindexed htakes
      exact ⟨so', heq, hwidth⟩

/-- Lines that are not as long as a buffer. -/
theorem takesLines_of_ne (h : ∀ l ∈ lines newline F, (textOf l).length ≠ DEFAULT_BUFSIZE) :
    TakesLines sc F :=
  Or.inr fun before l _ heq hlen =>
    absurd hlen (h l (heq ▸ List.mem_append_right before List.mem_cons_self))

/-- A last line without newline goes on in what is appended. -/
theorem last_line_is_merged : ∃ so so', Reaches [97, 9, 98] so ∧ so.so_nlines = 1 ∧
    soReadMore [97, 9, 98, 0, 10, 99] so false = .ok so' ∧ so'.so_nlines = 2 ∧
      ∃ so'', soGetline [97, 9, 98, 0, 10, 99] so' 0 =
        .ok (so'', [97, 32, 32, 32, 32, 32, 32, 32, 98, 128]) := by
  have htakes : TakesLines makeStrcache [97, 9, 98] := takesLines_of_ne (by decide)
  obtain ⟨so, hopen, hwidth⟩ := (source_lines_are_those_of_the_file _).1 8 (by decide) htakes
  have hopened := Reaches.opened (by decide) htakes hopen
  obtain ⟨hone, -, hgrows, -⟩ := (source_lines_are_those_of_the_file _).2 _ hopened
  have hmore : TakesLines so.so_strcache ([97, 9, 98] ++ [0, 10, 99]) := takesLines_of_ne (by decide)
  obtain ⟨so', hmore', hwidth'⟩ := hgrows [0, 10, 99] hmore
  obtain ⟨htwo, hlines, -⟩ := (source_lines_are_those_of_the_file _).2 _ (hopened.grown _ hmore hmore')
  obtain ⟨so'', hline⟩ := hlines 0 [97, 9, 98, 0, 10] rfl
  rw [hwidth', hwidth] at hline
  exact ⟨so, so', hopened, hone, hmore', htwo, so'', hline⟩

/-- The character behind a line that is as long as a buffer is stored behind the saved line. -/
theorem soOpen_fault (hlen : F.length = DEFAULT_BUFSIZE) (hline : newline ∉ F) (tabwidth : Nat) :
    soOpen F tabwidth = .error .fault := by
  have hstring : stringFrom F 0 newline = F := by
    unfold stringFrom
    rw [List.drop_zero, List.takeWhile_eq_self_iff]
    exact fun c hc => bne_iff_ne.mpr fun h => hline (h ▸ hc)
  have hnot : ¬Meets F makeStrcache 0 newline := by
    unfold Meets
    rw [hstring, hlen]
    rintro (hlt | ⟨-, htakes⟩)
    · exact absurd hlt (by decide)
    · have hfits := (takes_iff_of_long_line (by decide) (by decide) (by decide) (by decide) (by decide)
        (by decide) (by decide) (by unfold turns; rw [hlen]; decide)).mp htakes
      exact absurd hfits (by decide)
  have hended : getEnded (readsFile F) (turns F) makeStrcache (0 : Nat) newline = .error .fault := by
    have hfst := getEnded_fst (readsFile F) (turns F) makeStrcache (0 : Nat) newline
    have hzero : ((0 : Nat) : Int) + makeStrcache.sc_offset = (0 : Nat) := rfl
    rcases getString_spec (good_make F) (0 : Nat) newline hzero with ⟨-, hmeets⟩ | ⟨hfault, -⟩
    · exact absurd hmeets hnot
    · rw [hfault] at hfst
      cases hget : getEnded (readsFile F) (turns F) makeStrcache (0 : Nat) newline with
      | error e =>
        rw [hget] at hfst
        cases hfst
        rfl
      | ok r =>
        rw [hget] at hfst
        cases hfst
  unfold soOpen getLineOffsets scanLines
  dsimp only [turns, startScan, List.getLast?_nil]
  rw [← turns, hended]
  rfl

theorem a_line_of_a_buffer_faults : soOpen (List.replicate 2048 97) 8 = .error .fault :=
  soOpen_fault List.length_replicate (fun h => absurd (List.eq_of_mem_replicate h) (by decide)) 8

end ups_rules.source_file
