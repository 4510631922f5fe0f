-- The lines that come out of a buffer are the pieces of its text, in any chunks, but for a last piece
-- in several chunks: of that only the last chunk comes out.
import Mathlib.Data.List.Forall2
import Ups.Lineinfo

namespace ups_rules.lineinfo

/-! ## The next line -/

section
variable {text : List Byte} (ck : Chunks text.length) {lim : Option Nat} {e : Nat}

/-- Lines are looked for up to `e`. -/
def Limits (text : List Byte) (lim : Option Nat) (e : Nat) : Prop :=
  lim = none ∧ e = text.length ∨ lim = some e ∧ e ≤ text.length

/-- The chunk at the position is within the text up to `e`. -/
structure Valid (li : Lineinfo) (e : Nat) : Prop where
  pos_le : li.pos ≤ e
  left_le : li.pos + li.left.getD 0 ≤ e

/-- Between the calls, what is left of a chunk goes up to its end. -/
structure Ready (li : Lineinfo) : Prop where
  pos_le : li.pos ≤ text.length
  left : li.left.getD 0 = 0 ∨ li.pos < text.length ∧ li.left = some (ck.size li.pos)

/-- The bytes from the position to the end of its chunk. -/
def reach (li : Lineinfo) : Nat := if li.left.getD 0 ≠ 0 then li.left.getD 0 else ck.size li.pos

theorem Ready.valid {li : Lineinfo} (h : Ready ck li) : Valid li text.length where
  pos_le := h.pos_le
  left_le := by
    rcases h.left with h0 | ⟨hpos, hleft⟩
    · rw [h0]
      exact h.pos_le
    · rw [hleft]
      exact ck.size_le li.pos hpos

theorem Ready.reach_eq {li : Lineinfo} (h : Ready ck li) : reach ck li = ck.size li.pos := by
  unfold reach
  rcases h.left with h0 | ⟨-, hleft⟩
  · rw [if_neg (not_not_intro h0)]
  · rw [hleft, Option.getD_some]
    split
    · rfl
    · rfl

/-- The text that is left up to `e`. -/
def rest (text : List Byte) (e : Nat) (li : Lineinfo) : List Byte := (text.take e).drop li.pos

theorem length_rest (li : Lineinfo) (he : e ≤ text.length) :
    (rest text e li).length = e - li.pos := by
  simp only [rest, List.length_drop, List.length_take]
  omega

theorem Limits.le (h : Limits text lim e) : e ≤ text.length := by
  rcases h with ⟨-, rfl⟩ | ⟨-, h⟩
  · exact le_rfl
  · exact h

/-- At the end there is no chunk. -/
theorem fill_end (li : Lineinfo) (hlim : Limits text lim e) (hv : Valid li e) (hpos : li.pos = e) :
    fill text ck lim li = (if lim = none then { li with left := none } else li, false) := by
  have hleft : li.left.getD 0 = 0 := by
    have := hv.left_le
    omega
  unfold fill
  rcases hlim with ⟨rfl, rfl⟩ | ⟨rfl, -⟩
  · simp [hleft, hpos]
  · simp [hleft, hpos]

theorem fill_chunk {li : Lineinfo} (hlim : Limits text lim e) (hv : Valid li e) (hpos : li.pos < e) :
    ∃ k, fill text ck lim li = ({ li with left := some k }, true) ∧ 0 < k ∧ li.pos + k ≤ e ∧
      k = min (reach ck li) (e - li.pos) := by
  have hle := hlim.le
  have hsize := ck.size_pos li.pos (by omega)
  have hsize' := ck.size_le li.pos (by omega)
  have hleft := hv.left_le
  unfold fill reach
  by_cases hzero : li.left.getD 0 = 0
  · have hlt : ¬text.length ≤ li.pos := by omega
    rcases hlim with ⟨rfl, rfl⟩ | ⟨rfl, -⟩
    · refine ⟨ck.size li.pos, by simp [hzero, hlt], hsize, hsize', ?_⟩
      rw [if_neg (not_not_intro hzero)]
      omega
    · have hne : e ≠ li.pos := by omega
      refine ⟨min (ck.size li.pos) (e - li.pos), by simp [hzero, hlt, hne], by omega, by omega, ?_⟩
      rw [if_neg (not_not_intro hzero)]
  · obtain ⟨k, hk⟩ : ∃ k, li.left = some k := by
      cases h : li.left with
      | none => simp [h] at hzero
      | some k => exact ⟨k, rfl⟩
    rw [hk, Option.getD_some] at hzero hleft
    refine ⟨k, ?_, by omega, hleft, ?_⟩
    · simp only [hk, Option.getD_some, ne_eq, hzero, not_false_eq_true, if_true]
      rw [← hk]
    · simp only [hk, Option.getD_some, ne_eq, hzero, not_false_eq_true, if_true]
      omega

/-- The chunk is the beginning of the text that is left. -/
theorem chunk_eq {li : Lineinfo} {k : Nat} (hk : li.pos + k ≤ e) :
    (text.drop li.pos).take k = (rest text e li).take k := by
  rw [rest, List.drop_take, List.take_take]
  congr 1
  omega

theorem rest_skip (text : List Byte) (e : Nat) (li : Lineinfo) (k : Nat) (left : Option Nat)
    (linebuf : List Byte) :
    rest text e { li with pos := li.pos + k, left := left, linebuf := linebuf } =
      (rest text e li).drop k := by
  simp [rest]

theorem takeWhile_none {l : List Byte} {c : Byte} {k : Nat}
    (h : (l.take k).findIdx? (· == c) = none) :
    l.takeWhile (· != c) = l.take k ++ (l.drop k).takeWhile (· != c) := by
  rw [List.findIdx?_eq_none_iff] at h
  have hwhole : (l.take k).takeWhile (· != c) = l.take k := by
    rw [List.takeWhile_eq_self_iff]
    intro a ha
    simpa using h a ha
  conv_lhs => rw [← List.take_append_drop k l]
  rw [List.takeWhile_append, if_pos (by rw [hwhole])]

theorem takeWhile_some {l : List Byte} {c : Byte} {k i : Nat}
    (h : (l.take k).findIdx? (· == c) = some i) :
    (l.takeWhile (· != c)).length = i ∧ i < (l.take k).length := by
  obtain ⟨hi, hc, hbefore⟩ := List.findIdx?_eq_some_iff_getElem.1 h
  have hfirst : ((l.take k).takeWhile (· != c)) = (l.take k).take i := by
    rw [List.takeWhile_eq_take_findIdx_not]
    congr 1
    rw [List.findIdx_eq hi]
    refine ⟨by simpa using hc, fun j hj => ?_⟩
    simpa using hbefore j hj
  have hlen : ((l.take k).take i).length = i := by
    rw [List.length_take]
    omega
  refine ⟨?_, hi⟩
  conv_lhs => rw [← List.take_append_drop k l]
  rw [List.takeWhile_append, if_neg]
  · rw [hfirst, hlen]
  · rw [hfirst, hlen]
    omega

/-- No end character: the loop comes to the end, and the chunks of the piece are in the line
buffer. -/
theorem nextlineLoop_none (hlim : Limits text lim e) (fuel : Nat) (li : Lineinfo) (linelen : Nat)
    (old : List Byte) (hv : Valid li e) (hfuel : (rest text e li).length < fuel)
    (hnone : li.endc ∉ rest text e li) :
    ∃ li' old', nextlineLoop text ck lim fuel li linelen old =
        some (li', linelen + (rest text e li).length, old', false) ∧
      li'.linebuf = li.linebuf ++ rest text e li ∧ li'.pos = e ∧ li'.endc = li.endc ∧
      li'.left.getD 0 = 0 ∧ (lim = none → li'.left = none) ∧
      (rest text e li = [] → old' = old ∧ (lim ≠ none → li'.left = li.left)) ∧
      (rest text e li ≠ [] → (lim ≠ none → li'.left ≠ none) ∧ old' <:+ rest text e li ∧
        (old'.length = (rest text e li).length ↔ (rest text e li).length ≤ reach ck li)) := by
  induction fuel generalizing li linelen old with
  | zero => omega
  | succ fuel ih =>
    have hlen := length_rest li hlim.le
    unfold nextlineLoop
    rcases Nat.lt_or_ge li.pos e with hpos | hpos
    · obtain ⟨k, hfill, hk, hke, hkr⟩ := fill_chunk ck hlim hv hpos
      have hne : rest text e li ≠ [] := by
        intro h
        rw [h] at hlen
        simp only [List.length_nil] at hlen
        omega
      have hchunk : ((text.drop li.pos).take k) = (rest text e li).take k := chunk_eq hke
      have hchunklen : ((rest text e li).take k).length = k := by
        rw [List.length_take]
        omega
      have hfind : ((rest text e li).take k).findIdx? (· == li.endc) = none := by
        rw [List.findIdx?_eq_none_iff]
        intro c hc
        have hcmem := List.mem_of_mem_take hc
        have hcne : c ≠ li.endc := fun h => hnone (h ▸ hcmem)
        simpa using hcne
      simp only [hfill, Option.getD_some, hchunk, hfind, hchunklen]
      have hnext := rest_skip text e li k (some 0) (li.linebuf ++ (rest text e li).take k)
      obtain ⟨li', old', hloop, hbuf, hend, hendc, hleft, hnull, hnil, hcons⟩ :=
        ih { li with
          pos := li.pos + k, left := some 0, linebuf := li.linebuf ++ (rest text e li).take k }
          (linelen + k) ((rest text e li).take k) ⟨hke, hke⟩
          (by rw [hnext, List.length_drop]; omega)
          (by rw [hnext]; exact fun h => hnone (List.mem_of_mem_drop h))
      rw [hnext] at hloop hbuf hnil hcons
      refine ⟨li', old', ?_, ?_, hend, hendc, hleft, hnull, fun h => absurd h hne, fun _ => ?_⟩
      · rw [hloop, List.length_drop]
        congr 3
        omega
      · rw [hbuf, List.append_assoc, List.take_append_drop]
      · by_cases hlast : (rest text e li).drop k = []
        · -- The chunk is the last one
          have hlek : (rest text e li).length ≤ k := List.drop_eq_nil_iff.1 hlast
          obtain ⟨hold, hleft'⟩ := hnil hlast
          rw [hold]
          refine ⟨fun hlim' => ?_, ?_, ?_⟩
          · rw [hleft' hlim']
            simp
          · simp [List.take_of_length_le hlek]
          · rw [hchunklen]
            omega
        · obtain ⟨hleft', hsuffix, -⟩ := hcons hlast
          refine ⟨hleft', hsuffix.trans (List.drop_suffix _ _), ?_⟩
          have := hsuffix.length_le
          rw [List.length_drop] at this
          have hmore : k < (rest text e li).length := by
            by_contra hle
            exact hlast (List.drop_eq_nil_iff.2 (by omega))
          omega
    · have hpos' : li.pos = e := le_antisymm hv.pos_le hpos
      have hnil : rest text e li = [] := List.length_eq_zero_iff.1 (by omega)
      simp only [fill_end ck li hlim hv hpos', hnil, List.length_nil, Nat.add_zero, List.append_nil]
      have hleft : li.left.getD 0 = 0 := by
        have := hv.left_le
        omega
      refine ⟨_, old, rfl, ?_, ?_, ?_, ?_, ?_, fun _ => ⟨rfl, ?_⟩, fun h => absurd rfl h⟩
      all_goals
        clear ih hnone hfuel hlen
        cases lim <;> simp [hpos', hleft]

/-- The loop comes to the end character, whose chunk is not yet in the line buffer. -/
theorem nextlineLoop_found (hlim : Limits text lim e) (fuel : Nat) (li : Lineinfo) (linelen : Nat)
    (old : List Byte) (w : Nat) (hv : Valid li e) (hfuel : (rest text e li).length < fuel)
    (hmem : li.endc ∈ rest text e li)
    (hw : ((rest text e li).takeWhile (· != li.endc)).length = w) :
    ∃ li' old', nextlineLoop text ck lim fuel li linelen old =
        some (li', linelen + (w + 1), old', true) ∧
      li'.linebuf ++ old' = li.linebuf ++ (rest text e li).take (w + 1) ∧
      li'.pos = li.pos + (w + 1) ∧ li'.endc = li.endc ∧ li'.left ≠ none ∧ Valid li' e ∧
      (lim = none → Ready ck li → Ready ck li') := by
  induction fuel generalizing li linelen old w with
  | zero => omega
  | succ fuel ih =>
    have hlen := length_rest li hlim.le
    have hpos : li.pos < e := by
      have := List.length_pos_of_mem hmem
      omega
    unfold nextlineLoop
    obtain ⟨k, hfill, hk, hke, hkr⟩ := fill_chunk ck hlim hv hpos
    have hchunk : ((text.drop li.pos).take k) = (rest text e li).take k := chunk_eq hke
    have hchunklen : ((rest text e li).take k).length = k := by
      rw [List.length_take]
      omega
    simp only [hfill, Option.getD_some, hchunk]
    rcases hfind : ((rest text e li).take k).findIdx? (· == li.endc) with _ | i
    · -- The chunk is added to the line buffer
      have hnext := rest_skip text e li k (some 0) (li.linebuf ++ (rest text e li).take k)
      have hsplit := takeWhile_none hfind
      have hmem' : li.endc ∈ (rest text e li).drop k := by
        rw [List.findIdx?_eq_none_iff] at hfind
        rw [← List.take_append_drop k (rest text e li), List.mem_append] at hmem
        rcases hmem with h | h
        · simpa using hfind _ h
        · exact h
      have hw' : (((rest text e li).drop k).takeWhile (· != li.endc)).length = w - k := by
        rw [hsplit, List.length_append, hchunklen] at hw
        omega
      have hkw : k ≤ w := by
        rw [hsplit, List.length_append, hchunklen] at hw
        omega
      obtain ⟨li', old', hloop, hbuf, hpos', hendc, hleft, hle, hready⟩ :=
        ih { li with
          pos := li.pos + k, left := some 0, linebuf := li.linebuf ++ (rest text e li).take k }
          (linelen + k) ((rest text e li).take k) (w - k) ⟨hke, hke⟩
          (by rw [hnext, List.length_drop]; omega)
          (by rw [hnext]; exact hmem') (by rw [hnext]; exact hw')
      rw [hnext] at hbuf
      dsimp only at hpos'
      have hsum : linelen + k + (w - k + 1) = linelen + (w + 1) := by omega
      rw [hchunklen]
      refine ⟨li', old', ?_, ?_, by omega, hendc, hleft, hle, fun hnull _ => ?_⟩
      rotate_left 2
      · exact hready hnull ⟨le_trans hke hlim.le, Or.inl rfl⟩
      · rw [hloop, hsum]
      · rw [hbuf, List.append_assoc, ← List.take_add]
        congr 2
        omega
    · obtain ⟨hi, hik⟩ := takeWhile_some hfind
      rw [hw] at hi
      subst hi
      rw [hchunklen] at hik
      refine ⟨_, _, rfl, ?_, rfl, rfl, by simp, ⟨?_, ?_⟩, fun hnull hready => ⟨?_, ?_⟩⟩
      · dsimp only
        rw [List.take_take, Nat.min_eq_left (by omega)]
      · dsimp only
        omega
      · dsimp only [Option.getD_some]
        omega
      · have := hlim.le
        dsimp only
        omega
      · -- What is left of the chunk
        have hle := hlim.le
        have hend : e = text.length := by
          rcases hlim with ⟨-, h⟩ | ⟨h, -⟩
          · exact h
          · rw [hnull] at h
            cases h
        have hsize := ck.size_le li.pos (by omega)
        have hkk : k = ck.size li.pos := by
          rw [hkr, hready.reach_eq]
          omega
        dsimp only [Option.getD_some]
        rcases Nat.lt_or_ge (w + 1) k with hlt | hge
        · refine Or.inr ⟨by omega, ?_⟩
          rw [ck.size_add li.pos (by omega) (w + 1) (by omega), hkk]
        · exact Or.inl (by omega)

/-! ## The pieces -/

/-- The piece at the beginning of a text. -/
def firstPiece (endc : Byte) (l : List Byte) : List Byte × Bool :=
  (l.takeWhile (· != endc), decide (endc ∈ l))

theorem takeWhile_notMem {l : List Byte} {c : Byte} (h : c ∉ l) : l.takeWhile (· != c) = l := by
  rw [List.takeWhile_eq_self_iff]
  intro a ha
  have hne : a ≠ c := fun e => h (e ▸ ha)
  simpa using hne

theorem take_takeWhile (l : List Byte) (c : Byte) :
    l.take (l.takeWhile (· != c)).length = l.takeWhile (· != c) :=
  (List.prefix_iff_eq_take.1 (List.takeWhile_prefix _)).symm

/-- A line with an end character is held in one of the two buffers. -/
theorem nextline_found (hlim : Limits text lim e) {li : Lineinfo} (hv : Valid li e)
    (hmem : li.endc ∈ rest text e li) :
    ∃ li' r, nextline text ck lim li = some (li', r, true) ∧
      r.Holds (firstPiece li.endc (rest text e li)) ∧
      li'.pos = li.pos + (((rest text e li).takeWhile (· != li.endc)).length + 1) ∧
      li'.endc = li.endc ∧ Valid li' e ∧ (lim = none → Ready ck li → Ready ck li') := by
  have hle := hlim.le
  have hlen := length_rest li hle
  obtain ⟨li', old, hloop, hbuf, hpos, hendc, hleft, hpe, hready⟩ :=
    nextlineLoop_found ck hlim (text.length + 2) { li with linebuf := [] } 0 [] _
      ⟨hv.pos_le, hv.left_le⟩ (by change (rest text e li).length < _; omega) hmem rfl
  have hsame : rest text e { li with linebuf := [] } = rest text e li := rfl
  rw [hsame] at hloop hbuf hpos
  dsimp only at hloop hbuf hpos hendc
  rw [List.nil_append] at hbuf
  generalize hw : ((rest text e li).takeWhile (· != li.endc)).length = w at hloop hbuf hpos ⊢
  have hww : w < (rest text e li).length := by
    rw [← hw]
    by_contra hge
    have hall := (List.takeWhile_prefix (· != li.endc) (l := rest text e li)).eq_of_length_le
      (by omega)
    rw [List.takeWhile_eq_self_iff] at hall
    simpa using hall _ hmem
  have htotal : li'.linebuf.length + old.length = w + 1 := by
    have := congrArg List.length hbuf
    rw [List.length_append, List.length_take] at this
    omega
  have hready' : lim = none → Ready ck li →
      Ready ck li' ∧ ∀ linebuf, Ready ck { li' with linebuf := linebuf } := by
    intro hnull h
    have := hready hnull ⟨h.pos_le, h.left⟩
    exact ⟨this, fun _ => ⟨this.pos_le, this.left⟩⟩
  unfold nextline
  simp only [hloop, Option.bind_eq_bind, Option.bind_some, Nat.zero_add]
  have hholds : ∀ line, line = (rest text e li).take (w + 1) →
      Line.Holds ⟨line, w, true⟩ (firstPiece li.endc (rest text e li)) := by
    rintro line rfl
    refine ⟨hw.symm, ?_, ?_⟩
    · dsimp only [firstPiece]
      rw [List.take_take, Nat.min_eq_left (by omega), ← hw, take_takeWhile]
    · simp [firstPiece, hmem]
  by_cases hmore : w + 1 > old.length
  · rw [if_pos ⟨hmore, hleft⟩]
    exact ⟨{ li' with linebuf := li'.linebuf ++ old }, ⟨li'.linebuf ++ old, w, true⟩, by simp,
      hholds _ hbuf, hpos, hendc, ⟨hpe.pos_le, hpe.left_le⟩, fun hnull h => (hready' hnull h).2 _⟩
  · rw [if_neg (fun h => hmore h.1)]
    have hnil : li'.linebuf = [] := List.length_eq_zero_iff.1 (by omega)
    rw [hnil, List.nil_append] at hbuf
    exact ⟨li', ⟨old, w, true⟩, by simp, hholds _ hbuf, hpos, hendc, hpe,
      fun hnull h => (hready' hnull h).1⟩

/-- A piece without an end character is held unless it is in several chunks up to the end of the
text. -/
theorem nextline_none (hlim : Limits text lim e) {li : Lineinfo} (hv : Valid li e)
    (hne : rest text e li ≠ []) (hnone : li.endc ∉ rest text e li) :
    ∃ li' r, nextline text ck lim li = some (li', r, true) ∧
      (r.Holds (firstPiece li.endc (rest text e li)) ↔
        lim ≠ none ∨ (rest text e li).length ≤ reach ck li) ∧
      r.linelen = (rest text e li).length ∧ r.seen_eol = false ∧
      li'.pos = e ∧ li'.endc = li.endc ∧ li'.left.getD 0 = 0 := by
  have hle := hlim.le
  have hlen := length_rest li hle
  obtain ⟨li', old, hloop, hbuf, hpos, hendc, hleft, hnull, -, hcons⟩ :=
    nextlineLoop_none ck hlim (text.length + 2) { li with linebuf := [] } 0 []
      ⟨hv.pos_le, hv.left_le⟩ (by change (rest text e li).length < _; omega) hnone
  have hsame : rest text e { li with linebuf := [] } = rest text e li := rfl
  have hreach : reach ck { li with linebuf := [] } = reach ck li := rfl
  rw [hsame] at hloop hbuf hcons
  rw [hreach] at hcons
  dsimp only at hloop hbuf hpos hendc
  rw [List.nil_append] at hbuf
  obtain ⟨hnotnull, hsuffix, hlast⟩ := hcons hne
  have hpos' : 0 < (rest text e li).length := List.length_pos_iff.2 hne
  have hpiece : firstPiece li.endc (rest text e li) = (rest text e li, false) := by
    simp [firstPiece, hnone, takeWhile_notMem hnone]
  unfold nextline
  simp only [hloop, Option.bind_eq_bind, Option.bind_some, Nat.zero_add, hpiece]
  have hsome : (decide ((rest text e li).length ≠ 0) || false) = true := by
    simpa using hne
  by_cases hlimnull : lim = none
  · rw [if_neg (fun h => h.2 (hnull hlimnull))]
    refine ⟨_, _, by rw [hsome], ?_, rfl, rfl, hpos, hendc, hleft⟩
    rw [← hlast]
    constructor
    · rintro ⟨-, hline, -⟩
      have := congrArg List.length hline
      simp only [Bool.false_eq_true, if_false, List.length_take] at this
      have := hsuffix.length_le
      exact Or.inr (by omega)
    · rintro (h | h)
      · exact absurd hlimnull h
      · have := hsuffix.eq_of_length h
        exact ⟨rfl, by simp [this], rfl⟩
  · by_cases hmore : (rest text e li).length > old.length
    · rw [if_pos ⟨hmore, hnotnull hlimnull⟩]
      refine ⟨{ li' with linebuf := li'.linebuf ++ old },
        ⟨li'.linebuf ++ old, (rest text e li).length, false⟩, by rw [hsome]; rfl, ?_, rfl, rfl,
        hpos, hendc, hleft⟩
      simp only [ne_eq, hlimnull, not_false_eq_true, true_or, iff_true]
      refine ⟨rfl, ?_, rfl⟩
      rw [hbuf]
      simp
    · rw [if_neg (fun h => hmore h.1)]
      refine ⟨_, _, by rw [hsome], ?_, rfl, rfl, hpos, hendc, hleft⟩
      simp only [ne_eq, hlimnull, not_false_eq_true, true_or, iff_true]
      have := hsuffix.eq_of_length (le_antisymm hsuffix.length_le (by omega))
      exact ⟨rfl, by simp [this], rfl⟩
end

section
variable {text : List Byte} (ck : Chunks text.length)

theorem pieces_cons {endc : Byte} {l : List Byte} (h : l ≠ []) :
    pieces endc l = firstPiece endc l ::
      pieces endc (l.drop ((l.takeWhile (· != endc)).length + 1)) := by
  induction l with
  | nil => exact absurd rfl h
  | cons c l ih =>
    by_cases hc : c = endc
    · simp [pieces, firstPiece, hc]
    · have hc' : ¬endc = c := fun e => hc e.symm
      rcases hl : l with _ | ⟨c', l'⟩
      · simp [pieces, firstPiece, hc, hc']
      · have := ih (by simp [hl])
        rw [hl] at this
        rw [pieces, if_neg hc, this]
        simp [firstPiece, hc, hc']

/-- The text up to the position, and the text from it on. -/
theorem rest_all (li : Lineinfo) : rest text text.length li = text.drop li.pos := by
  simp [rest]

/-- A piece without an end character begins in the last chunk. -/
def InLastChunk (endc : Byte) (p : Nat) : Prop :=
  endc ∈ text.drop p ∨ p + ck.size p = text.length

/-- The next line is the piece at the position, which goes behind it. -/
theorem editNextline_spec {li : Lineinfo} (h : Ready ck li) (hne : text.drop li.pos ≠ []) :
    ∃ li' r, editNextline text ck li = some (li', r, true) ∧
      (r.Holds (firstPiece li.endc (text.drop li.pos)) ↔ InLastChunk ck li.endc li.pos) ∧
      (r.linelen = (firstPiece li.endc (text.drop li.pos)).1.length ∧
        r.seen_eol = (firstPiece li.endc (text.drop li.pos)).2) ∧
      text.drop li'.pos =
        (text.drop li.pos).drop (((text.drop li.pos).takeWhile (· != li.endc)).length + 1) ∧
      li'.endc = li.endc ∧ Ready ck li' := by
  have hlim : Limits text none text.length := Or.inl ⟨rfl, rfl⟩
  have hall : rest text text.length li = text.drop li.pos := rest_all li
  have hpos : li.pos < text.length := by
    by_contra hge
    exact hne (List.drop_eq_nil_of_le (by omega))
  unfold editNextline InLastChunk
  by_cases hmem : li.endc ∈ text.drop li.pos
  · obtain ⟨li', r, hline, hholds, hpos', hendc, -, hready⟩ :=
      nextline_found ck hlim h.valid (by rw [hall]; exact hmem)
    rw [hall] at hholds hpos'
    refine ⟨li', r, hline, iff_of_true hholds (Or.inl hmem), ⟨hholds.linelen, hholds.seen_eol⟩, ?_,
      hendc, hready rfl h⟩
    rw [hpos', List.drop_drop]
  · obtain ⟨li', r, hline, hholds, hlinelen, heol, hpos', hendc, hleft⟩ :=
      nextline_none ck hlim h.valid (by rw [hall]; exact hne) (by rw [hall]; exact hmem)
    rw [hall, h.reach_eq] at hholds
    rw [hall] at hlinelen
    have hle := ck.size_le li.pos hpos
    refine ⟨li', r, hline, ?_, ?_, ?_, hendc, ⟨hpos'.le, Or.inl hleft⟩⟩
    rotate_left
    · simp [firstPiece, takeWhile_notMem hmem, hmem, hlinelen, heol]
    rotate_left
    · rw [hholds, List.length_drop]
      constructor
      · rintro (h | h)
        · exact absurd rfl h
        · exact Or.inr (by omega)
      · rintro (h | h)
        · exact absurd h hmem
        · exact Or.inr (by omega)
    · rw [takeWhile_notMem hmem, hpos', List.drop_length, List.drop_eq_nil_of_le (by omega)]

theorem editNextline_end {li : Lineinfo} (h : Ready ck li) (hnil : text.drop li.pos = []) :
    ∃ li' r, editNextline text ck li = some (li', r, false) ∧ Ready ck li' := by
  have hlim : Limits text none text.length := Or.inl ⟨rfl, rfl⟩
  have hpos : li.pos = text.length := le_antisymm h.pos_le (List.drop_eq_nil_iff.1 hnil)
  have hfill := fill_end ck { li with linebuf := [] } hlim
    ⟨h.valid.pos_le, h.valid.left_le⟩ hpos
  have hloop : nextlineLoop text ck none (text.length + 2) { li with linebuf := [] } 0 [] =
      some ({ li with left := none, linebuf := [] }, 0, [], false) := by
    rw [nextlineLoop, hfill]
    rfl
  refine ⟨{ li with left := none, linebuf := [] }, ⟨[], 0, false⟩, ?_, ⟨h.pos_le, Or.inl rfl⟩⟩
  simp [editNextline, nextline, hloop]

/-- `edit_nextline` until there is no line. -/
def nextlines (text : List Byte) (ck : Chunks text.length) : Nat → Lineinfo → Option (List Line)
  | 0, _ => none
  | fuel + 1, li => do
    let (li, line, more) ← editNextline text ck li
    if more then
      let lines ← nextlines text ck fuel li
      some (line :: lines)
    else some []

/-- The lines are the pieces, if the last one is all in one chunk or has an end character. -/
theorem nextlines_iff (fuel : Nat) {li : Lineinfo} (h : Ready ck li)
    (hfuel : (text.drop li.pos).length < fuel) :
    ∃ rs, nextlines text ck fuel li = some rs ∧
      (List.Forall₂ Line.Holds rs (pieces li.endc (text.drop li.pos)) ↔
        ∀ piece, (pieces li.endc (text.drop li.pos)).getLast? = some (piece, false) →
          piece.length ≤ ck.size (text.length - piece.length)) := by
  induction fuel generalizing li with
  | zero => omega
  | succ fuel ih =>
    by_cases hnil : text.drop li.pos = []
    · obtain ⟨li', r, hline, -⟩ := editNextline_end ck h hnil
      refine ⟨[], by simp [nextlines, hline], ?_⟩
      simp [hnil, pieces]
    · obtain ⟨li', r, hline, hholds, -, hrest, hendc, hready⟩ := editNextline_spec ck h hnil
      have hlen : 0 < (text.drop li.pos).length := List.length_pos_iff.2 hnil
      obtain ⟨rs, hrs, hiff⟩ := ih hready (by rw [hrest, List.length_drop]; omega)
      refine ⟨r :: rs, by simp [nextlines, hline, hrs], ?_⟩
      rw [pieces_cons hnil, ← hrest, List.forall₂_cons, ← hendc, hiff, hendc, hholds]
      by_cases hmem : li.endc ∈ text.drop li.pos
      · have hin : InLastChunk ck li.endc li.pos := Or.inl hmem
        rcases hmore : pieces li.endc (text.drop li'.pos) with _ | ⟨piece, more⟩
        · simp [hin, firstPiece, hmem]
        · simp [hin, List.getLast?_cons_cons]
      · have hlast : text.drop li'.pos = [] := by
          rw [hrest, takeWhile_notMem hmem, List.drop_eq_nil_of_le (by omega)]
        have hpos : li.pos < text.length := by
          rw [List.length_drop] at hlen
          omega
        have hle := ck.size_le li.pos hpos
        have hat : text.length - (text.length - li.pos) = li.pos := by omega
        simp only [hlast, pieces, List.getLast?_nil, reduceCtorEq, false_implies, implies_true,
          and_true, List.getLast?_singleton, Option.some.injEq, firstPiece, hmem, decide_false,
          Prod.mk.injEq, takeWhile_notMem hmem, InLastChunk, false_or, forall_eq', List.length_drop,
          hat]
        omega
/-! ## The line before -/

theorem pieces_append {endc : Byte} (A B : List Byte) (hA : A = [] ∨ A.getLast? = some endc) :
    pieces endc (A ++ B) = pieces endc A ++ pieces endc B := by
  induction A with
  | nil => rfl
  | cons c A ih =>
    have hlast : A = [] ∧ c = endc ∨ A.getLast? = some endc := by
      rcases hA with h | h
      · cases h
      · rcases A with _ | ⟨c', A'⟩
        · simp at h
          exact Or.inl ⟨rfl, h⟩
        · rw [List.getLast?_cons_cons] at h
          exact Or.inr h
    rw [List.cons_append, pieces, pieces]
    rcases hlast with ⟨rfl, rfl⟩ | hlast
    · simp [pieces]
    · have hne : A ≠ [] := by
        rintro rfl
        cases hlast
      rw [ih (Or.inr hlast)]
      split
      · rfl
      · rw [pieces_cons hne]
        rfl

/-- A text whose end characters are at its end is one piece. -/
theorem pieces_one {endc : Byte} {l : List Byte} (hne : l ≠ []) (h : endc ∉ l.dropLast) :
    pieces endc l = [firstPiece endc l] := by
  rw [pieces_cons hne, List.drop_eq_nil_of_le, pieces]
  have hsplit := List.dropLast_concat_getLast hne
  have hlen : l.dropLast.length = l.length - 1 := List.length_dropLast
  have hall : l.dropLast.takeWhile (· != endc) = l.dropLast := takeWhile_notMem h
  have hprefix : l.dropLast.length ≤ (l.takeWhile (· != endc)).length := by
    conv_rhs => rw [← hsplit]
    rw [List.takeWhile_append, if_pos (by rw [hall]), List.length_append]
    omega
  omega

/-- The bytes of a piece, with the end character. -/
def pieceSize (piece : List Byte × Bool) : Nat := piece.1.length + if piece.2 then 1 else 0

theorem pieceSize_firstPiece_le {endc : Byte} (l : List Byte) :
    pieceSize (firstPiece endc l) ≤ l.length := by
  have hprefix := List.takeWhile_prefix (· != endc) (l := l)
  simp only [pieceSize, firstPiece, decide_eq_true_eq]
  split
  case isTrue hmem =>
    have hlt : (l.takeWhile (· != endc)).length < l.length := by
      by_contra hge
      have hall := hprefix.eq_of_length_le (by omega)
      rw [List.takeWhile_eq_self_iff] at hall
      simpa using hall _ hmem
    omega
  case isFalse => exact hprefix.length_le

theorem pieceSize_one {endc : Byte} {l : List Byte} (hne : l ≠ []) (h : endc ∉ l.dropLast) :
    pieceSize (firstPiece endc l) = l.length := by
  by_cases hmem : endc ∈ l
  · apply le_antisymm (pieceSize_firstPiece_le l)
    have hone := pieces_one hne h
    rw [pieces_cons hne, List.cons.injEq] at hone
    have hdrop : l.drop ((l.takeWhile (· != endc)).length + 1) = [] := by
      by_contra hmore
      rw [pieces_cons hmore] at hone
      cases hone.2
    have := List.drop_eq_nil_iff.1 hdrop
    simpa [pieceSize, firstPiece, hmem] using this
  · simp [pieceSize, firstPiece, hmem, takeWhile_notMem hmem]

/-- Where `edit_prevline` begins its line. -/
theorem prevStart_spec {li : Lineinfo} (hpos : 0 < li.pos) (hle : li.pos ≤ text.length) :
    ∃ r, editFindCharBackwards text ck (li.pos - 1) 0 (endPattern li.endc) = some r ∧
      (let start := if r.1 then r.2 + 1 else r.2
      start < li.pos ∧
        (li.endc ≠ 0#8 → (text.take start = [] ∨ (text.take start).getLast? = some li.endc) ∧
          li.endc ∉ ((text.take li.pos).drop start).dropLast) ∧
        (li.endc = 0#8 → start = 0)) := by
  have hpattern : ∃ map, makeCharmap (endPattern li.endc) = some map ∧
      (li.endc ≠ 0#8 → map = fun x => decide (x = li.endc)) ∧
      (li.endc = 0#8 → map = fun _ => false) := by
    unfold endPattern
    by_cases hzero : li.endc = 0#8
    · rw [if_pos hzero]
      exact ⟨fun _ => false, rfl, fun h => absurd hzero h, fun _ => rfl⟩
    · rw [if_neg hzero]
      exact ⟨_, rfl, fun _ => rfl, fun h => absurd h hzero⟩
  obtain ⟨map, hmap, hone, hnone⟩ := hpattern
  obtain ⟨r, hr, hnear⟩ := findBackwards_spec ck map 0 (text.length + 1) (li.pos - 1) (by omega)
    (by omega)
  refine ⟨r, by simp [editFindCharBackwards, hmap, hr], ?_⟩
  have hdropLast : ∀ start, li.endc ∈ ((text.take li.pos).drop start).dropLast →
      ∃ q, start ≤ q ∧ q < li.pos - 1 ∧ text[q]? = some li.endc := by
    intro start hmem
    obtain ⟨q, hq⟩ := List.mem_iff_getElem?.1 hmem
    have hlt := (List.getElem?_eq_some_iff.1 hq).1
    rw [List.length_dropLast, List.length_drop, List.length_take] at hlt
    rw [List.getElem?_dropLast, if_pos (by rw [List.length_drop, List.length_take]; omega),
      getElem?_between (by omega)] at hq
    exact ⟨start + q, by omega, by omega, hq⟩
  rcases r with ⟨_ | _, p⟩
  · obtain ⟨hp, hall⟩ := hnear
    have hp0 : p = 0 := by omega
    subst hp0
    refine ⟨by simpa using hpos, fun hendc => ⟨Or.inl rfl, fun hmem => ?_⟩, fun _ => rfl⟩
    obtain ⟨q, -, hq, hc⟩ := hdropLast _ hmem
    have := hall q (Nat.zero_le q) hq _ hc
    rw [hone hendc] at this
    simp at this
  · obtain ⟨⟨-, hp, c, hc, hmapc⟩, hall⟩ := hnear
    have hendc : li.endc ≠ 0#8 := by
      intro h
      rw [hnone h] at hmapc
      cases hmapc
    rw [hone hendc, decide_eq_true_eq] at hmapc
    subst hmapc
    refine ⟨by simp; omega, fun _ => ⟨Or.inr ?_, fun hmem => ?_⟩, fun h => absurd h hendc⟩
    · have hlast : min (p + 1) text.length - 1 < p + 1 := by omega
      change (text.take (p + 1)).getLast? = some li.endc
      rw [List.getLast?_eq_getElem?, List.length_take, List.getElem?_take_of_lt hlast, ← hc]
      congr 1
      omega
    · obtain ⟨q, hpq, hq, hcq⟩ := hdropLast _ hmem
      simp only [if_true] at hpq
      have := hall q (by omega) hq _ hcq
      rw [hone hendc] at this
      simp at this
/-- The search backwards finds the end character of the piece before. -/
def FindsEnd (text : List Byte) (endc : Byte) (pos : Nat) : Prop :=
  endc ≠ 0#8 ∨ 0#8 ∉ text.take (pos - 1)

/-- What `edit_prevline` gives is the piece before the position, where it then is. -/
structure PrevRight (li li' : Lineinfo) (r : Line) (piece : List Byte × Bool) : Prop where
  holds : r.Holds piece
  pos : li'.pos + pieceSize piece = li.pos

theorem pieceSize_getLast_le {endc : Byte} {l : List Byte} {piece : List Byte × Bool}
    (h : (pieces endc l).getLast? = some piece) : pieceSize piece ≤ l.length := by
  induction l generalizing piece with
  | nil => cases h
  | cons c l ih =>
    rw [pieces] at h
    split at h
    · rcases hl : pieces endc l with _ | ⟨first, more⟩
      · rw [hl] at h
        cases h
        simp [pieceSize]
      · rw [hl, List.getLast?_cons_cons, ← hl] at h
        have := ih h
        rw [List.length_cons]
        omega
    · rcases hl : pieces endc l with _ | ⟨⟨first, eol⟩, _ | ⟨second, more⟩⟩
      · rw [hl] at h
        cases h
        simp [pieceSize]
      · rw [hl] at h
        cases h
        have : pieceSize (first, eol) ≤ l.length := ih (by rw [hl]; rfl)
        change (c :: first).length + (if eol = true then 1 else 0) ≤ (c :: l).length
        simp only [pieceSize, List.length_cons] at this ⊢
        omega
      · rw [hl] at h
        dsimp only at h
        have : pieceSize piece ≤ l.length := ih (by rw [hl]; exact h)
        rw [List.length_cons]
        omega

/-- Behind its first piece there is more of a text that has an end character before its end. -/
theorem more_of_mem_dropLast {endc : Byte} {l : List Byte} (h : endc ∈ l.dropLast) :
    l.drop ((l.takeWhile (· != endc)).length + 1) ≠ [] := by
  intro hnil
  have hlen := List.drop_eq_nil_iff.1 hnil
  rw [List.dropLast_eq_take] at h
  have htake : l.take (l.length - 1) <+: l.takeWhile (· != endc) := by
    apply List.prefix_of_prefix_length_le (List.take_prefix _ _) (List.takeWhile_prefix _)
    rw [List.length_take]
    omega
  have := List.mem_takeWhile_imp (htake.subset h)
  simp at this

theorem dropLast_take (l : List Byte) (pos : Nat) (hpos : pos ≤ l.length) :
    (l.take pos).dropLast = l.take (pos - 1) := by
  rw [List.dropLast_eq_take, List.length_take, List.take_take]
  congr 1
  omega

theorem editPrevline_spec {li : Lineinfo} (h : Ready ck li) (hpos : 0 < li.pos)
    {piece : List Byte × Bool} (hpiece : (pieces li.endc (text.take li.pos)).getLast? = some piece) :
    ∃ li' r, editPrevline text ck li = some (li', r, true) ∧ li'.endc = li.endc ∧
      (PrevRight li li' r piece ↔ FindsEnd text li.endc li.pos) ∧
      (FindsEnd text li.endc li.pos → Ready ck li' ∧ li'.pos < li.pos ∧
        piece = firstPiece li.endc ((text.take li.pos).drop li'.pos) ∧
        li.endc ∉ ((text.take li.pos).drop li'.pos).dropLast) := by
  have hle := h.pos_le
  obtain ⟨found, hfind, hstart⟩ := prevStart_spec ck hpos hle
  unfold editPrevline
  rw [if_neg (by omega)]
  simp only [hfind, Option.bind_eq_bind, Option.bind_some]
  generalize (if found.1 then found.2 + 1 else found.2) = start at hstart ⊢
  obtain ⟨hlt, hone, hnul⟩ := hstart
  have hlim : Limits text (some li.pos) li.pos := Or.inr ⟨rfl, hle⟩
  have hv : Valid { li with pos := start, left := none } li.pos :=
    ⟨by dsimp only; omega, by simp; omega⟩
  have hrest : rest text li.pos { li with pos := start, left := none } =
      (text.take li.pos).drop start := rfl
  have hlen : ((text.take li.pos).drop start).length = li.pos - start := by
    rw [List.length_drop, List.length_take]
    omega
  have hne : (text.take li.pos).drop start ≠ [] := by
    rw [← List.length_pos_iff]
    omega
  -- The call of `nextline` up to the position
  obtain ⟨li', r, hline, hholds, hendc, hleft⟩ :
      ∃ li' r, nextline text ck (some li.pos) { li with pos := start, left := none } =
          some (li', r, true) ∧
        r.Holds (firstPiece li.endc ((text.take li.pos).drop start)) ∧ li'.endc = li.endc ∧
        (li.endc ∉ ((text.take li.pos).drop start).dropLast → li'.left.getD 0 = 0) := by
    by_cases hmem : li.endc ∈ (text.take li.pos).drop start
    · obtain ⟨li', r, hline, hholds, hpos', hendc, hv', -⟩ :=
        nextline_found ck hlim hv (by rw [hrest]; exact hmem)
      rw [hrest] at hholds hpos'
      refine ⟨li', r, hline, hholds, hendc, fun hlast => ?_⟩
      have hsize := pieceSize_one hne hlast
      simp only [pieceSize, firstPiece, hmem, decide_true, if_true] at hsize
      have := hv'.left_le
      dsimp only at hpos'
      omega
    · obtain ⟨li', r, hline, hholds, -, -, -, hendc, hleft⟩ :=
        nextline_none ck hlim hv (by rw [hrest]; exact hne) (by rw [hrest]; exact hmem)
      rw [hrest] at hholds
      exact ⟨li', r, hline, hholds.2 (Or.inl (by simp)), hendc, fun _ => hleft⟩
  rw [hline]
  -- Where the search finds the end, the piece is the last one
  have hright : FindsEnd text li.endc li.pos →
      piece = firstPiece li.endc ((text.take li.pos).drop start) ∧
        li.endc ∉ ((text.take li.pos).drop start).dropLast := by
    intro hfinds
    obtain ⟨hbefore, hlast⟩ : (text.take start = [] ∨ (text.take start).getLast? = some li.endc) ∧
        li.endc ∉ ((text.take li.pos).drop start).dropLast := by
      by_cases hzero : li.endc = 0#8
      · rcases hfinds with hfinds | hfinds
        · exact absurd hzero hfinds
        · rw [hnul hzero, List.drop_zero, dropLast_take _ _ hle, hzero]
          exact ⟨Or.inl rfl, hfinds⟩
      · exact hone hzero
    refine ⟨?_, hlast⟩
    have hsplit : text.take li.pos = text.take start ++ (text.take li.pos).drop start := by
      conv_lhs => rw [← List.take_append_drop start (text.take li.pos)]
      rw [List.take_take, Nat.min_eq_left (by omega)]
    rw [hsplit, pieces_append _ _ hbefore, pieces_one hne hlast] at hpiece
    simpa using hpiece.symm
  refine ⟨_, r, rfl, hendc, ⟨fun hprev => ?_, fun hfinds => ?_⟩, fun hfinds => ⟨⟨?_, ?_⟩, hlt, hright hfinds⟩⟩
  · by_contra hnot
    obtain ⟨hzero, hmem⟩ : li.endc = 0#8 ∧ 0#8 ∈ text.take (li.pos - 1) := by
      simpa [FindsEnd] using hnot
    -- The line begins at the start of the text, and has more pieces than one
    have hsize := hprev.pos
    have hwhole : text.take li.pos ≠ [] := by
      rw [← List.length_pos_iff, List.length_take]
      omega
    dsimp only at hsize
    rw [hnul hzero, Nat.zero_add] at hsize
    have hmore : (text.take li.pos).drop
        (((text.take li.pos).takeWhile (· != li.endc)).length + 1) ≠ [] := by
      apply more_of_mem_dropLast
      rw [dropLast_take _ _ hle, hzero]
      exact hmem
    rw [pieces_cons hwhole, pieces_cons hmore, List.getLast?_cons_cons, ← pieces_cons hmore] at hpiece
    have := pieceSize_getLast_le hpiece
    rw [List.length_drop, List.length_take] at this
    omega
  · obtain ⟨rfl, hlast⟩ := hright hfinds
    refine ⟨hholds, ?_⟩
    rw [pieceSize_one hne hlast, hlen]
    dsimp only
    omega
  · dsimp only
    omega
  · exact Or.inl (hleft (hright hfinds).2)
/-! ## Runs of calls -/

/-- The states after any calls, of which those of `edit_prevline` find the end character. -/
inductive Reaches (text : List Byte) (ck : Chunks text.length) : Lineinfo → Prop where
  | make (endc : Byte) : Reaches text ck (makeLineinfo endc)
  | setPos {li : Lineinfo} (run : Reaches text ck li) (pos : Nat) (within : pos ≤ text.length) :
      Reaches text ck (setLineinfoPos li pos)
  | next {li li' : Lineinfo} {r : Line} {more : Bool} (run : Reaches text ck li)
      (call : editNextline text ck li = some (li', r, more)) : Reaches text ck li'
  | prev {li li' : Lineinfo} {r : Line} {more : Bool} (run : Reaches text ck li)
      (finds : FindsEnd text li.endc li.pos)
      (call : editPrevline text ck li = some (li', r, more)) : Reaches text ck li'

theorem exists_last_piece {li : Lineinfo} (hpos : 0 < li.pos) (hle : li.pos ≤ text.length) :
    ∃ piece, (pieces li.endc (text.take li.pos)).getLast? = some piece := by
  have hne : text.take li.pos ≠ [] := by
    rw [← List.length_pos_iff, List.length_take]
    omega
  rw [pieces_cons hne]
  exact ⟨_, List.getLast?_cons⟩

theorem ready_of_reaches {li : Lineinfo} (h : Reaches text ck li) : Ready ck li := by
  induction h with
  | make endc => exact ⟨Nat.zero_le _, Or.inl rfl⟩
  | setPos _ pos hpos _ => exact ⟨hpos, Or.inl rfl⟩
  | @next li li' r more _ hcall ih =>
    by_cases hnil : text.drop li.pos = []
    · obtain ⟨li1, r1, hline, hready⟩ := editNextline_end ck ih hnil
      rw [hline] at hcall
      cases hcall
      exact hready
    · obtain ⟨li1, r1, hline, -, -, -, -, hready⟩ := editNextline_spec ck ih hnil
      rw [hline] at hcall
      cases hcall
      exact hready
  | @prev li li' r more _ hfinds hcall ih =>
    rcases Nat.eq_zero_or_pos li.pos with hzero | hpos
    · rw [editPrevline, if_pos hzero] at hcall
      cases hcall
      exact ih
    · obtain ⟨piece, hpiece⟩ := exists_last_piece hpos ih.pos_le
      obtain ⟨li1, r1, hline, -, -, hright⟩ := editPrevline_spec ck ih hpos hpiece
      rw [hline] at hcall
      cases hcall
      exact (hright hfinds).1

/-- A piece ends at the position. -/
def EndsPiece (text : List Byte) (endc : Byte) (pos : Nat) : Prop :=
  pos = text.length ∨ text[pos - 1]? = some endc

theorem firstPiece_append {endc : Byte} {A : List Byte} (B : List Byte) (h : endc ∈ A) :
    firstPiece endc (A ++ B) = firstPiece endc A := by
  have hnot : ¬(A.takeWhile (· != endc)).length = A.length := by
    intro hlen
    have hall := (List.takeWhile_prefix (· != endc) (l := A)).eq_of_length hlen
    rw [List.takeWhile_eq_self_iff] at hall
    simpa using hall _ h
  simp [firstPiece, h, List.takeWhile_append, hnot]

/-- The piece up to the position is the one that begins there, if a piece ends at the position. -/
theorem firstPiece_take_iff {endc : Byte} {start pos : Nat} (hle : pos ≤ text.length)
    (hlt : start < pos) (hlast : endc ∉ ((text.take pos).drop start).dropLast) :
    firstPiece endc ((text.take pos).drop start) = firstPiece endc (text.drop start) ↔
      EndsPiece text endc pos := by
  have hsplit : text.drop start = (text.take pos).drop start ++ text.drop pos := by
    conv_lhs => rw [← List.take_append_drop pos text]
    rw [List.drop_append_of_le_length (by rw [List.length_take]; omega)]
  have hlen : ((text.take pos).drop start).length = pos - start := by
    rw [List.length_drop, List.length_take]
    omega
  have hend : ((text.take pos).drop start)[pos - start - 1]? = text[pos - 1]? := by
    rw [getElem?_between (by omega)]
    congr 1
    omega
  by_cases hmem : endc ∈ (text.take pos).drop start
  · rw [hsplit, firstPiece_append _ hmem]
    have hne : (text.take pos).drop start ≠ [] := List.ne_nil_of_mem hmem
    have hlastc : ((text.take pos).drop start).getLast hne = endc := by
      rw [← List.dropLast_concat_getLast hne, List.mem_append] at hmem
      rcases hmem with h | h
      · exact absurd h hlast
      · exact (List.mem_singleton.1 h).symm
    refine iff_of_true rfl (Or.inr ?_)
    rw [← hend, ← hlastc, List.getLast_eq_getElem, ← hlen, ← List.getElem?_eq_getElem]
  · constructor
    · intro hsame
      by_contra hnot
      simp only [EndsPiece, not_or] at hnot
      have heol := congrArg Prod.snd hsame
      have hpiece := congrArg (List.length ∘ Prod.fst) hsame
      simp only [firstPiece, hmem, decide_false, Bool.false_eq, decide_eq_false_iff_not] at heol
      simp only [Function.comp_apply, firstPiece, takeWhile_notMem hmem, takeWhile_notMem heol, hlen,
        List.length_drop] at hpiece
      omega
    · rintro (rfl | hc)
      · rw [List.take_length]
      · rw [← hend] at hc
        exact absurd (List.mem_of_getElem? hc) hmem

/-- The line that comes after the one before is the same, if a piece ends at the position. -/
theorem repeats_iff {li li' : Lineinfo} (hready : Ready ck li') (hendc : li'.endc = li.endc)
    (hle : li.pos ≤ text.length) (hlt : li'.pos < li.pos)
    (hlast : li.endc ∉ ((text.take li.pos).drop li'.pos).dropLast) :
    (∃ li'' r, editNextline text ck li' = some (li'', r, true) ∧
        r.Holds (firstPiece li.endc ((text.take li.pos).drop li'.pos))) ↔
      EndsPiece text li.endc li.pos ∧ InLastChunk ck li.endc li'.pos := by
  have hne : text.drop li'.pos ≠ [] := by
    rw [← List.length_pos_iff, List.length_drop]
    omega
  obtain ⟨li'', r, hline, hholds, ⟨hlinelen, heol⟩, -⟩ := editNextline_spec ck hready hne
  rw [hendc] at hholds hlinelen heol
  have hsame := firstPiece_take_iff hle hlt hlast
  constructor
  · rintro ⟨li1, r1, hline1, hpiece⟩
    rw [hline] at hline1
    cases hline1
    -- Both are at the beginning of the text there, and of one length
    have hprefix : (firstPiece li.endc ((text.take li.pos).drop li'.pos)).1 <+: text.drop li'.pos :=
      (List.takeWhile_prefix _).trans (by
        rw [List.drop_take]
        exact List.take_prefix _ _)
    have hpiece1 : (firstPiece li.endc ((text.take li.pos).drop li'.pos)).1 =
        (firstPiece li.endc (text.drop li'.pos)).1 := by
      have hprefix' : (firstPiece li.endc (text.drop li'.pos)).1 <+: text.drop li'.pos :=
        List.takeWhile_prefix _
      exact (List.prefix_of_prefix_length_le hprefix hprefix'
        (by rw [← hlinelen, hpiece.linelen])).eq_of_length (by rw [← hlinelen, hpiece.linelen])
    have heq := Prod.ext hpiece1 (hpiece.seen_eol.symm.trans heol)
    exact ⟨hsame.1 heq, hholds.1 (heq ▸ hpiece)⟩
  · rintro ⟨hends, hchunk⟩
    exact ⟨li'', r, hline, hsame.2 hends ▸ hholds.2 hchunk⟩

/-- The lines and the characters are those of the text if the last piece is all in the last chunk
or has an end character, the search for it does not stop at a NUL, and no range of the pattern
begins with a negative character. -/
theorem lines_and_characters_iff {li : Lineinfo} (h : Reaches text ck li) (pos lim minpos : Nat)
    (hpos : pos ≤ text.length) (pat : List Byte) :
    ((∃ rs, nextlines text ck (text.length + 1) li = some rs ∧
        List.Forall₂ Line.Holds rs (pieces li.endc (text.drop li.pos))) ↔
      ∀ piece, (pieces li.endc (text.drop li.pos)).getLast? = some (piece, false) →
        piece.length ≤ ck.size (text.length - piece.length)) ∧
    (li.pos = 0 → editPrevline text ck li = some (li, ⟨[], 0, false⟩, false)) ∧
    (∀ piece, (pieces li.endc (text.take li.pos)).getLast? = some piece →
      ∃ li' r, editPrevline text ck li = some (li', r, true) ∧
        (PrevRight li li' r piece ↔ FindsEnd text li.endc li.pos) ∧
        (FindsEnd text li.endc li.pos →
          ((∃ li'' r', editNextline text ck li' = some (li'', r', true) ∧ r'.Holds piece) ↔
            EndsPiece text li.endc li.pos ∧ InLastChunk ck li.endc (li.pos - pieceSize piece)))) ∧
    ((∃ map r, makeCharmap pat = some map ∧ editFindCharForwards text ck pos lim pat = some r ∧
        NearestForwards text map pos lim r) ↔ makeCharmap pat ≠ none) ∧
    ((∃ map r, makeCharmap pat = some map ∧ editFindCharBackwards text ck pos minpos pat = some r ∧
        NearestBackwards text map pos minpos r) ↔ makeCharmap pat ≠ none) := by
  have hready := ready_of_reaches ck h
  refine ⟨?_, ?_, ?_, ?_, ?_⟩
  · obtain ⟨rs, hrs, hiff⟩ := nextlines_iff ck (text.length + 1) hready
      (by rw [List.length_drop]; omega)
    rw [← hiff]
    constructor
    · rintro ⟨rs', hrs', hholds⟩
      rw [hrs] at hrs'
      cases hrs'
      exact hholds
    · exact fun hholds => ⟨rs, hrs, hholds⟩
  · intro hzero
    rw [editPrevline, if_pos hzero]
  · intro piece hpiece
    have hli : 0 < li.pos := by
      rcases Nat.eq_zero_or_pos li.pos with hzero | hpos
      · rw [hzero] at hpiece
        cases hpiece
      · exact hpos
    obtain ⟨li', r, hline, hendc, hprev, hright⟩ := editPrevline_spec ck hready hli hpiece
    refine ⟨li', r, hline, hprev, fun hfinds => ?_⟩
    obtain ⟨hready', hlt, hpiece', hlast⟩ := hright hfinds
    have hat := (hprev.2 hfinds).pos
    rw [hpiece', repeats_iff ck hready' hendc hready.pos_le hlt hlast, ← hpiece']
    have hat' : li.pos - pieceSize piece = li'.pos := by omega
    rw [hat']
  · constructor
    · rintro ⟨map, r, hmap, -⟩
      rw [hmap]
      simp
    · intro hmap
      obtain ⟨map, hmap⟩ := Option.ne_none_iff_exists'.1 hmap
      obtain ⟨r, hr, hnear⟩ := findForwards_spec ck map lim (text.length + 1) pos hpos (by omega)
      exact ⟨map, r, hmap, by simp [editFindCharForwards, hmap, hr], hnear⟩
  · constructor
    · rintro ⟨map, r, hmap, -⟩
      rw [hmap]
      simp
    · intro hmap
      obtain ⟨map, hmap⟩ := Option.ne_none_iff_exists'.1 hmap
      obtain ⟨r, hr, hnear⟩ :=
        findBackwards_spec ck map minpos (text.length + 1) pos hpos (by omega)
      exact ⟨map, r, hmap, by simp [editFindCharBackwards, hmap, hr], hnear⟩
end

/-- Two lines in blocks of two bytes, of which the second has no end character. -/
theorem lines_of_two_blocks :
    (∃ rs, nextlines [97, 10, 98, 99] (blocks 4 2 (by decide)) 5 (makeLineinfo 10) = some rs ∧
        List.Forall₂ Line.Holds rs (pieces 10 [97, 10, 98, 99])) ∧
      ∃ map r, makeCharmap [98] = some map ∧
        editFindCharForwards [97, 10, 98, 99] (blocks 4 2 (by decide)) 0 4 [98] = some r ∧
        NearestForwards [97, 10, 98, 99] map 0 4 r := by
  have hmake : Reaches [97, 10, 98, 99] (blocks 4 2 (by decide)) (makeLineinfo 10) := .make 10
  obtain ⟨hlines, -, -, hforwards, -⟩ :=
    lines_and_characters_iff _ hmake 0 4 0 (by decide) [98]
  refine ⟨hlines.2 fun piece hpiece => ?_, hforwards.2 (by simp [makeCharmap])⟩
  have hlast : piece = [98, 99] := by
    simpa [makeLineinfo, pieces] using hpiece.symm
  subst hlast
  decide

/-- A line in two blocks without an end character comes as its second block, with the length of
both. -/
theorem last_line_is_its_last_block :
    (∃ li, editNextline [97, 98, 99] (blocks 3 2 (by decide)) (makeLineinfo 10) =
      some (li, ⟨[99], 3, false⟩, true)) ∧
    ¬∃ rs, nextlines [97, 98, 99] (blocks 3 2 (by decide)) 4 (makeLineinfo 10) = some rs ∧
      List.Forall₂ Line.Holds rs (pieces 10 [97, 98, 99]) := by
  refine ⟨⟨⟨3, none, 10, [97, 98, 99]⟩, by decide⟩, ?_⟩
  rintro ⟨rs, hrs, hholds⟩
  have hline : nextlines [97, 98, 99] (blocks 3 2 (by decide)) 4 (makeLineinfo 10) =
      some [⟨[99], 3, false⟩] := by decide
  rw [hline] at hrs
  cases hrs
  have hpieces : pieces 10 [97, 98, 99] = [(([97, 98, 99] : List Byte), false)] := by decide
  rw [hpieces, List.forall₂_cons] at hholds
  have := hholds.1.line
  revert this
  decide

end ups_rules.lineinfo
