-- The character that stands behind a string from the cache (sc_get_string in strcache.c), and how
-- long the saved line is after it.
import Ups.StrcacheRuns

namespace ups_rules.strcache

variable {F : List UInt8} {sc sc' : Strcache} {b : Buf} {B offset n i : Nat} {c : UInt8}
  {line : SavedLine} {s : List UInt8} {t : UInt8}

/-! ## The pure model -/

/-- The loop of `sc_get_string` with the character that it puts behind the string. -/
def copyEnded (input : Input) (endchar : UInt8) :
    Nat → Strcache → SavedLine → Nat → List UInt8 →
      Except Stop (Strcache × Option (List UInt8 × UInt8))
  | 0, _, _, _, _ => .error .fault
  | fuel + 1, sc, line, offset, res => do
    let (sc, found) ← findBuf input sc (offset + res.length)
    match found with
    | none => if res.length < line.size then .ok (sc, some (res, 0)) else .error .fault
    | some (_, b) =>
      let stop := memchr endchar (b.b_data.take b.b_len)
      let chunk_len := stop.getD b.b_len
      let line := grown line (res.length + chunk_len)
      let sc := { sc with sc_saved_line := some line }
      if res.length + chunk_len > line.size then .error .fault
      else
        let res := res ++ b.b_data.take chunk_len
        match stop with
        | none => copyEnded input endchar fuel sc line offset res
        | some _ => if res.length < line.size then .ok (sc, some (res, endchar)) else .error .fault

/-- `sc_get_string` with the character behind the string: the end character, or a NUL at the end of
the file. -/
def getEnded (input : Input) (fuel : Nat) (sc : Strcache) (offset : Int) (endchar : UInt8) :
    Except Stop (Strcache × Option (List UInt8 × UInt8)) :=
  let offset := offset + sc.sc_offset
  if offset < 0 then .error (.panic "offset < 0 in gss")
  else do
    let offset := offset.toNat
    let (sc, found) ← firstBuf input sc offset
    match found with
    | none => .ok (sc, none)
    | some (i, b) =>
      let start := (b.b_data.drop (offset - b.b_offset)).take (b.b_len - (offset - b.b_offset))
      match memchr endchar start with
      | some n => .ok (sc, some (start.take n, endchar))
      | none =>
        if b.b_len < sc.sc_bufsize then
          .ok ({ sc with sc_bufs := sc.sc_bufs.set i { b with b_data := b.b_data.set b.b_len 0 } },
            some (start, 0))
        else
          let line := sc.sc_saved_line.getD ⟨sc.sc_bufsize, sc.sc_bufsize⟩
          let sc := { sc with sc_saved_line := some line }
          if start.length > line.size then .error .fault
          else copyEnded input endchar fuel sc line offset start

/-- The string at an offset with the character behind it. -/
def endedAt (F : List UInt8) (offset : Nat) (endchar : UInt8) : Option (List UInt8 × UInt8) :=
  (stringAt F offset endchar).map fun s =>
    (s, if offset + s.length < F.length then endchar else 0)

/-- The saved line has been enlarged, and then takes a character more than its length. -/
def Enlarged (sc : Strcache) : Prop :=
  ∃ line, sc.sc_saved_line = some line ∧ line.len < line.size

/-- The saved line is as long as a buffer, or has been enlarged. -/
def SavedFrom (B : Nat) (sc : Strcache) : Prop :=
  ∀ line, sc.sc_saved_line = some line → line = ⟨B, B⟩ ∨ B ≤ line.len ∧ line.len < line.size

/-! ## The string without its end -/

theorem copyEnded_fst (input : Input) (fuel : Nat) (sc : Strcache) (line : SavedLine) (offset : Nat)
    (res : List UInt8) :
    (copyEnded input c fuel sc line offset res).map (fun r => (r.1, r.2.map Prod.fst)) =
      copyString input c fuel sc line offset res := by
  induction fuel generalizing sc line res with
  | zero => rfl
  | succ fuel ih =>
    unfold copyEnded copyString
    cases findBuf input sc (offset + res.length) with
    | error e => rfl
    | ok r =>
      obtain ⟨sc1, found⟩ := r
      cases found with
      | none =>
        dsimp only [bind, Except.bind]
        split <;> rfl
      | some x =>
        dsimp only [bind, Except.bind]
        cases memchr c (x.2.b_data.take x.2.b_len) with
        | none =>
          split
          · rfl
          · exact ih _ _ _
        | some n =>
          dsimp only
          split
          · rfl
          · split <;> rfl

theorem getEnded_fst (input : Input) (fuel : Nat) (sc : Strcache) (off : Int) (c : UInt8) :
    (getEnded input fuel sc off c).map (fun r => (r.1, r.2.map Prod.fst)) =
      getString input fuel sc off c := by
  unfold getEnded getString
  dsimp only
  split
  · rfl
  · cases firstBuf input sc (off + sc.sc_offset).toNat with
    | error e => rfl
    | ok r =>
      obtain ⟨sc1, found⟩ := r
      cases found with
      | none => rfl
      | some x =>
        dsimp only [bind, Except.bind]
        generalize (x.2.b_data.drop ((off + sc.sc_offset).toNat - x.2.b_offset)).take
          (x.2.b_len - ((off + sc.sc_offset).toNat - x.2.b_offset)) = start
        cases memchr c start with
        | some n => rfl
        | none =>
          dsimp only
          split
          · rfl
          · split
            · rfl
            · exact copyEnded_fst _ _ _ _ _ _

/-! ## What a string leaves -/

/-- The saved line takes what it is enlarged for. -/
theorem grown_from {k : Nat} (hfrom : line = ⟨B, B⟩ ∨ B ≤ line.len ∧ line.len < line.size)
    (hk : k ≤ line.len + B) :
    (grown line k = ⟨B, B⟩ ∨ B ≤ (grown line k).len ∧ (grown line k).len < (grown line k).size) ∧
      k ≤ (grown line k).len ∧
      (line.len < line.size ∨ B < k → (grown line k).len < (grown line k).size) := by
  unfold grown
  rcases hfrom with rfl | ⟨hle, hlt⟩
  · split
    · refine ⟨Or.inr ⟨?_, ?_⟩, ?_, fun _ => ?_⟩ <;> dsimp only at * <;> omega
    · refine ⟨Or.inl rfl, ?_, fun h => ?_⟩ <;> dsimp only at * <;> omega
  · split
    · refine ⟨Or.inr ⟨?_, ?_⟩, ?_, fun _ => ?_⟩ <;> dsimp only <;> omega
    · exact ⟨Or.inr ⟨hle, hlt⟩, by omega, fun _ => hlt⟩

theorem copyEnded_left (fuel : Nat) (res : List UInt8) {found : Option (List UInt8 × UInt8)}
    (h : Good F sc) (hB : blockSize sc = B) (hline : sc.sc_saved_line = some line)
    (hfrom : line = ⟨B, B⟩ ∨ B ≤ line.len ∧ line.len < line.size) (hres : res.length ≤ line.len)
    (hp : B ∣ offset + res.length ∨ F.length ≤ offset + res.length)
    (hok : copyEnded (readsFile F) c fuel sc line offset res = .ok (sc', found)) :
    ∃ s, found = some (s, if offset + s.length < F.length then c else 0) ∧ blockSize sc' = B ∧
      SavedFrom B sc' ∧ (line.len < line.size ∨ B < s.length → Enlarged sc') := by
  induction fuel generalizing sc line res with
  | zero => cases hok
  | succ fuel ih =>
    obtain ⟨sc1, found1, heq, hgood, hkept, ⟨hend, rfl⟩ | ⟨hlt, i, b, rfl, -, hat⟩⟩ :=
      findBuf_spec h (offset + res.length)
    · -- The end of the file
      unfold copyEnded at hok
      rw [heq] at hok
      dsimp only [bind, Except.bind] at hok
      split at hok
      · cases hok
        have hsaved : sc'.sc_saved_line = some line := hkept.saved.trans hline
        refine ⟨res, by rw [if_neg (by omega)], hkept.blockSize_eq.trans hB, fun l hl => ?_, ?_⟩
        · rw [hsaved, Option.some_inj] at hl
          rwa [← hl]
        · intro hlong
          refine ⟨line, hsaved, ?_⟩
          rcases hfrom with rfl | ⟨-, hlt⟩
          · dsimp only at *
            omega
          · exact hlt
      · cases hok
    · rw [hB] at hat
      have hdvd := hp.resolve_right (Nat.not_le.mpr hlt)
      have hblen := hat.len_eq hdvd
      have hle := hat.len
      have hsize := hat.size
      have htake : (b.b_data.take b.b_len).length = b.b_len := by
        rw [List.length_take]
        omega
      have hlen : B ≤ line.len := by
        rcases hfrom with rfl | ⟨hle, -⟩
        · exact Nat.le_refl _
        · exact hle
      unfold copyEnded at hok
      rw [heq] at hok
      dsimp only [bind, Except.bind] at hok
      cases hfound : memchr c (b.b_data.take b.b_len) with
      | some n =>
        have hn := (memchr_some hfound).2
        rw [htake] at hn
        obtain ⟨hfrom1, -, hlong1⟩ := grown_from (k := res.length + n) hfrom (by omega)
        have hlen1 : (res ++ b.b_data.take n).length = res.length + n := by
          rw [List.length_append, List.length_take]
          omega
        rw [hfound] at hok
        dsimp only [Option.getD_some] at hok
        split at hok
        · cases hok
        · split at hok
          · cases hok
            refine ⟨res ++ b.b_data.take n, by rw [if_pos (by rw [hlen1]; omega)],
              hkept.blockSize_eq.trans hB, ?_, ?_⟩
            · rintro l hl
              cases hl
              exact hfrom1
            · rw [hlen1]
              exact fun hlong => ⟨_, rfl, hlong1 hlong⟩
          · cases hok
      | none =>
        obtain ⟨hfrom1, hroom, hlong1⟩ := grown_from (k := res.length + b.b_len) hfrom (by omega)
        have hlen1 : (res ++ b.b_data.take b.b_len).length = res.length + b.b_len := by
          rw [List.length_append, htake]
        have hnext := hat.next hdvd
        rw [hfound] at hok
        dsimp only [Option.getD_none] at hok
        split at hok
        · cases hok
        · have hused := hat.used
          have hsize1 : (grown line (res.length + b.b_len)).len ≤
              (grown line (res.length + b.b_len)).size := by
            rcases hfrom1 with h1 | h1
            · rw [h1]
            · omega
          obtain ⟨s, hs, hblock, hsaved, hlong⟩ := ih _ (hgood.setLine (by omega) hsize1)
            (hkept.blockSize_eq.trans hB) rfl hfrom1 (by rw [hlen1]; exact hroom)
            (by rw [hlen1, ← Nat.add_assoc]; exact hnext) hok
          refine ⟨s, hs, hblock, hsaved, fun h => ?_⟩
          by_cases hs : line.len < line.size
          · exact hlong (Or.inl (hlong1 (Or.inl hs)))
          · exact hlong (Or.inr (h.resolve_left hs))

/-- What a string that is read leaves, and the character behind it. -/
theorem getEnded_left (fuel : Nat) {off : Int} {found : Option (List UInt8 × UInt8)} (h : Good F sc)
    (hB : blockSize sc = B) (hsaved : SavedFrom B sc) (hoff : off + sc.sc_offset = offset)
    (hok : getEnded (readsFile F) fuel sc off c = .ok (sc', found)) :
    (∀ s t, found = some (s, t) → (t = if offset + s.length < F.length then c else 0) ∧
      (B < s.length → Enlarged sc')) ∧ blockSize sc' = B ∧ SavedFrom B sc' ∧
      (Enlarged sc → Enlarged sc') := by
  obtain ⟨sc1, found1, heq, hgood, hkept, hfinds⟩ := firstBuf_spec h offset
  have hpos : 0 < B := by
    rw [← hB, ← hkept.bufsize]
    exact hgood.pos hkept.nbufs
  have hsaved1 : SavedFrom B sc1 := fun l hl => hsaved l (hkept.saved ▸ hl)
  have henlarged : Enlarged sc → Enlarged sc1 := fun ⟨l, hl, hlt⟩ => ⟨l, hkept.saved.trans hl, hlt⟩
  have hblock := hkept.blockSize_eq.trans hB
  unfold getEnded at hok
  rw [hoff] at hok
  dsimp only at hok
  rw [if_neg (by omega), Int.toNat_natCast, heq] at hok
  dsimp only [bind, Except.bind] at hok
  obtain ⟨-, rfl⟩ | ⟨hlt, i, b, rfl, -, hat⟩ := hfinds
  · cases hok
    exact ⟨fun s t hs => (nomatch hs), hblock, hsaved1, henlarged⟩
  · rw [hB] at hat
    obtain ⟨hge, hltb, hend⟩ := hat.bounds hpos hlt
    have hle := hat.len
    have hsize := hat.size
    have hlen : ((b.b_data.drop (offset - b.b_offset)).take (b.b_len - (offset - b.b_offset))).length =
        b.b_len - (offset - b.b_offset) := by
      rw [List.length_take, List.length_drop]
      omega
    dsimp only at hok
    generalize (b.b_data.drop (offset - b.b_offset)).take (b.b_len - (offset - b.b_offset)) = start
      at hok hlen
    cases hfound : memchr c start with
    | some n =>
      have hn := (memchr_some hfound).2
      have htake : (start.take n).length = n := by
        rw [List.length_take]
        omega
      rw [hfound] at hok
      cases hok
      refine ⟨?_, hblock, hsaved1, henlarged⟩
      rintro s t hs
      cases hs
      rw [htake, if_pos (by omega)]
      exact ⟨rfl, fun hlong => by omega⟩
    | none =>
      rw [hfound] at hok
      dsimp only at hok
      have hbufsize := hkept.bufsize.trans hB
      split at hok
      · -- The file ends in the first block
        rename_i hshort
        have hoffset := hat.offset
        cases hok
        refine ⟨?_, hblock, hsaved1, henlarged⟩
        rintro s t hs
        cases hs
        have hfile : F.length = b.b_offset + b.b_len := by
          rw [Nat.add_mul, Nat.one_mul] at hend
          omega
        rw [if_neg (by omega)]
        exact ⟨rfl, fun hlong => by omega⟩
      · split at hok
        · cases hok
        · have hline : sc1.sc_saved_line.getD ⟨sc1.sc_bufsize, sc1.sc_bufsize⟩ = ⟨B, B⟩ ∨
              B ≤ (sc1.sc_saved_line.getD ⟨sc1.sc_bufsize, sc1.sc_bufsize⟩).len ∧
                (sc1.sc_saved_line.getD ⟨sc1.sc_bufsize, sc1.sc_bufsize⟩).len <
                  (sc1.sc_saved_line.getD ⟨sc1.sc_bufsize, sc1.sc_bufsize⟩).size := by
            rw [hbufsize]
            cases hl : sc1.sc_saved_line with
            | none => exact Or.inl rfl
            | some l => exact hsaved1 l hl
          have hroom : (sc1.sc_saved_line.getD ⟨sc1.sc_bufsize, sc1.sc_bufsize⟩).len <
              (sc1.sc_saved_line.getD ⟨sc1.sc_bufsize, sc1.sc_bufsize⟩).size ∨ ¬Enlarged sc1 := by
            by_cases he : Enlarged sc1
            · obtain ⟨l, hl, hlt⟩ := he
              rw [hl]
              exact Or.inl hlt
            · exact Or.inr he
          generalize sc1.sc_saved_line.getD ⟨sc1.sc_bufsize, sc1.sc_bufsize⟩ = line at hok hline hroom
          have hlineB : B ≤ line.len ∧ line.len ≤ line.size := by
            rcases hline with rfl | ⟨hl, hs⟩
            · exact ⟨Nat.le_refl _, Nat.le_refl _⟩
            · exact ⟨hl, Nat.le_of_lt hs⟩
          have hnext := hat.behind hpos hlt
          obtain ⟨s, rfl, hblock', hsaved', hlong⟩ := copyEnded_left fuel start
            (hgood.setLine (by omega) hlineB.2) hblock rfl hline (by omega)
            (by rw [hlen, show offset + (b.b_len - (offset - b.b_offset)) = b.b_offset + b.b_len by
              omega]; exact hnext) hok
          refine ⟨?_, hblock', hsaved', fun he => hlong (Or.inl ?_)⟩
          · rintro s' t hs
            cases hs
            exact ⟨rfl, fun h => hlong (Or.inr h)⟩
          · exact hroom.resolve_right fun hn => hn (henlarged he)

/-- A saved line that has been enlarged, or that is not as long as the string, takes the string. -/
theorem meets_of_fits (h : Good F sc) (hsaved : SavedFrom (blockSize sc) sc)
    (hfits : Enlarged sc ∨ (stringFrom F offset c).length ≠ blockSize sc) : Meets F sc offset c := by
  have hB : 0 < blockSize sc := by
    unfold blockSize
    split
    · exact Nat.zero_lt_succ _
    · rename_i hn
      exact h.pos hn
  have hdiv := Nat.div_add_mod offset (blockSize sc)
  have hmod := Nat.mod_lt offset hB
  have hle := stringFrom_le F offset c
  rw [Nat.mul_comm] at hdiv
  have hlim : (offset / blockSize sc + 1) * blockSize sc =
      offset / blockSize sc * blockSize sc + blockSize sc := by rw [Nat.add_mul, Nat.one_mul]
  have hline : (blockSize sc ≤ (sc.sc_saved_line.getD ⟨blockSize sc, blockSize sc⟩).len ∧
      (sc.sc_saved_line.getD ⟨blockSize sc, blockSize sc⟩).len ≤
        (sc.sc_saved_line.getD ⟨blockSize sc, blockSize sc⟩).size) ∧
      ((stringFrom F offset c).length ≠ (sc.sc_saved_line.getD ⟨blockSize sc, blockSize sc⟩).len ∨
        (sc.sc_saved_line.getD ⟨blockSize sc, blockSize sc⟩).len <
          (sc.sc_saved_line.getD ⟨blockSize sc, blockSize sc⟩).size) := by
    cases hl : sc.sc_saved_line with
    | none =>
      refine ⟨⟨Nat.le_refl _, Nat.le_refl _⟩, Or.inl (hfits.resolve_left ?_)⟩
      rintro ⟨l, hl', -⟩
      rw [hl] at hl'
      cases hl'
    | some l =>
      rw [Option.getD_some]
      rcases hsaved l hl with rfl | ⟨hle, hlt⟩
      · refine ⟨⟨Nat.le_refl _, Nat.le_refl _⟩, Or.inl (hfits.resolve_left ?_)⟩
        rintro ⟨l, hl', hlt⟩
        rw [hl] at hl'
        cases hl'
        exact Nat.lt_irrefl _ hlt
      · exact ⟨⟨hle, Nat.le_of_lt hlt⟩, Or.inr hlt⟩
  unfold Meets
  dsimp only
  by_cases hstop : offset + (stringFrom F offset c).length < (offset / blockSize sc + 1) * blockSize sc
  · exact Or.inl hstop
  · refine Or.inr ⟨by omega, (takes_iff_of_long_line hline.1.1 hline.1.2 (by omega) (by omega)
      (by omega) ?_ hB (by unfold turns; omega)).mpr (by omega)⟩
    omega

/-- A string is read with the character behind it, unless it is as long as a saved line that has
not been enlarged; a string that is longer than a buffer enlarges it. -/
theorem getEnded_spec (h : Good F sc) (hsaved : SavedFrom (blockSize sc) sc) (off : Int) (c : UInt8)
    (hoff : off + sc.sc_offset = offset)
    (hfits : Enlarged sc ∨ (stringFrom F offset c).length ≠ blockSize sc) :
    ∃ sc', getEnded (readsFile F) (turns F) sc off c = .ok (sc', endedAt F offset c) ∧ Good F sc' ∧
      sc'.sc_offset = sc.sc_offset ∧ blockSize sc' = blockSize sc ∧ SavedFrom (blockSize sc) sc' ∧
      (Enlarged sc ∨ offset < F.length ∧ blockSize sc < (stringFrom F offset c).length →
        Enlarged sc') := by
  obtain ⟨⟨sc2, hget, hgood, hoffset⟩, -⟩ | ⟨-, hnot⟩ := getString_spec h off c hoff
  · have hfst := getEnded_fst (readsFile F) (turns F) sc off c
    rw [hget] at hfst
    cases hended : getEnded (readsFile F) (turns F) sc off c with
    | error e =>
      rw [hended] at hfst
      cases hfst
    | ok r =>
      obtain ⟨sc3, found⟩ := r
      rw [hended] at hfst
      obtain ⟨rfl, hfound⟩ : sc3 = sc2 ∧ found.map Prod.fst = stringAt F offset c := by
        simpa only [Except.map, Except.ok.injEq, Prod.mk.injEq] using hfst
      obtain ⟨hends, hblock, hsaved', henlarged⟩ := getEnded_left (turns F) h rfl hsaved hoff hended
      refine ⟨sc3, ?_, hgood, hoffset, hblock, hsaved', ?_⟩
      · unfold endedAt
        rw [← hfound]
        cases found with
        | none => rfl
        | some st =>
          obtain ⟨s, t⟩ := st
          dsimp only [Option.map_some]
          rw [← (hends s t rfl).1]
      · rintro (he | ⟨hlt, hlong⟩)
        · exact henlarged he
        · unfold stringAt at hfound
          rw [if_neg (Nat.not_le.mpr hlt)] at hfound
          cases found with
          | none => cases hfound
          | some st =>
            obtain ⟨s, t⟩ := st
            rw [Option.map_some, Option.some_inj] at hfound
            rw [← hfound] at hlong
            exact (hends s t rfl).2 hlong
  · exact absurd (meets_of_fits h hsaved hfits) hnot

end ups_rules.strcache
