-- The bytes and the strings that come out of the cache are those of the file, whatever the calls
-- before have left in the buffers, as long as the saved line has room for the string.
import Mathlib.Data.Nat.Bitwise
import Ups.Strcache

namespace ups_rules.strcache

variable {F F' : List UInt8} {sc sc' : Strcache} {b : Buf} {B offset n i : Nat} {c : UInt8}
  {bufs : List Buf} {lru : Nat × Buf} {s : List UInt8} {line : SavedLine}

/-! ## Strings and blocks -/

theorem memchr_none (h : memchr c s = none) : s.takeWhile (· != c) = s := by
  rw [memchr, List.findIdx?_eq_none_iff] at h
  rw [List.takeWhile_eq_self_iff]
  intro a ha
  simpa using h a ha

theorem memchr_some (h : memchr c s = some n) : s.takeWhile (· != c) = s.take n ∧ n < s.length := by
  obtain ⟨hn, hc, hbefore⟩ := List.findIdx?_eq_some_iff_getElem.mp h
  refine ⟨?_, hn⟩
  rw [List.takeWhile_eq_take_findIdx_not]
  congr 1
  rw [List.findIdx_eq hn]
  refine ⟨by simpa using hc, fun j hj => ?_⟩
  simpa using hbefore j hj

/-- A string that does not end in a piece of the file goes on behind it. -/
theorem stringFrom_none (h : memchr c ((F.drop offset).take n) = none) :
    stringFrom F offset c =
      (F.drop offset).take n ++ stringFrom F (offset + ((F.drop offset).take n).length) c := by
  have hwhole := memchr_none h
  unfold stringFrom
  conv_lhs => rw [← List.take_append_drop n (F.drop offset)]
  rw [List.takeWhile_append, if_pos (by rw [hwhole]), List.drop_drop]
  congr 2
  rw [List.length_take, List.length_drop]
  by_cases hle : n ≤ F.length - offset
  · rw [min_eq_left hle]
  · rw [min_eq_right (by omega), List.drop_eq_nil_of_le (by omega), List.drop_eq_nil_of_le (by omega)]

theorem stringFrom_some {m : Nat} (h : memchr c ((F.drop offset).take n) = some m) :
    stringFrom F offset c = ((F.drop offset).take n).take m := by
  obtain ⟨hstring, hm⟩ := memchr_some h
  unfold stringFrom
  conv_lhs => rw [← List.take_append_drop n (F.drop offset)]
  rw [List.takeWhile_append, hstring, if_neg]
  rw [List.length_take]
  omega

theorem stringFrom_le (F : List UInt8) (offset : Nat) (c : UInt8) :
    (stringFrom F offset c).length ≤ F.length - offset := by
  rw [← List.length_drop]
  exact (List.takeWhile_sublist _).length_le

/-! ## The buffers -/

/-- A buffer holds a block of the file, or nothing. -/
structure Holds (F : List UInt8) (B : Nat) (b : Buf) : Prop where
  lim : b.b_lim = b.b_offset + b.b_len
  size : b.b_data.length = B
  len : b.b_len ≤ B
  block : 0 < b.b_len → B ∣ b.b_offset ∧ b.b_len = min B (F.length - b.b_offset) ∧
    b.b_data.take b.b_len = (F.drop b.b_offset).take B

structure Good (F : List UInt8) (sc : Strcache) : Prop where
  last : sc.sc_last_buf < sc.sc_bufs.length
  size : sc.sc_nbufs = 0 ∧ sc.sc_bufsize = 0 ∨
    sc.sc_nbufs = sc.sc_bufs.length ∧ ∃ k, sc.sc_bufsize = 2 ^ k
  bufs : ∀ b ∈ sc.sc_bufs, Holds F sc.sc_bufsize b
  saved : ∀ line, sc.sc_saved_line = some line → 0 < line.len ∧ line.len ≤ line.size

/-- A buffer that holds the block of the file with the byte at `offset`. -/
structure HoldsAt (F : List UInt8) (B offset : Nat) (b : Buf) : Prop extends Holds F B b where
  used : 0 < b.b_len
  offset : b.b_offset = offset / B * B

theorem holds_empty (hlim : b.b_lim = b.b_offset) (hlen : b.b_len = 0)
    (hsize : b.b_data.length = B) : Holds F B b :=
  ⟨by rw [hlim, hlen, Nat.add_zero], hsize, by omega, fun h => absurd hlen (Nat.ne_of_gt h)⟩

theorem Good.pos (h : Good F sc) (hn : sc.sc_nbufs ≠ 0) : 0 < sc.sc_bufsize := by
  obtain ⟨h0, -⟩ | ⟨-, k, hk⟩ := h.size
  · exact absurd h0 hn
  · rw [hk]
    exact Nat.two_pow_pos k

/-- The bytes of a block from the one at `offset` on. -/
theorem HoldsAt.rest (h : HoldsAt F B offset b) (hB : 0 < B) :
    (b.b_data.drop (offset - b.b_offset)).take (b.b_len - (offset - b.b_offset)) =
      (F.drop offset).take ((offset / B + 1) * B - offset) := by
  have hdiv := Nat.div_add_mod offset B
  have hmod := Nat.mod_lt offset hB
  rw [Nat.mul_comm] at hdiv
  rw [← List.drop_take, (h.block h.used).2.2, List.drop_take, List.drop_drop, h.offset]
  congr 1
  · rw [Nat.add_mul, Nat.one_mul]
    omega
  · congr 1
    omega

theorem searchBufs_spec {block : Nat} (P : Nat × Buf → Prop) (hlru : P lru)
    (hbufs : ∀ i b, bufs[i]? = some b → P (n + i, b)) :
    (∃ x, searchBufs block bufs n lru = .inl x ∧ P x ∧ 0 < x.2.b_len ∧ x.2.b_offset = block) ∨
      ∃ x, searchBufs block bufs n lru = .inr x ∧ P x := by
  induction bufs generalizing n lru with
  | nil => exact Or.inr ⟨lru, rfl, hlru⟩
  | cons b bufs ih =>
    have hb : P (n, b) := hbufs 0 b rfl
    unfold searchBufs
    by_cases hfound : 0 < b.b_len ∧ b.b_offset = block
    · rw [if_pos hfound]
      exact Or.inl ⟨(n, b), rfl, hb, hfound⟩
    · rw [if_neg hfound]
      refine ih ?_ fun i b' hi => ?_
      · split
        · exact hb
        · exact hlru
      · have hnext := hbufs (i + 1) b' hi
        rwa [Nat.add_assoc, Nat.add_comm 1 i]

/-- `offset & ~(bufsize - 1)` is the start of the block. -/
theorem block_start (offset k : Nat) :
    offset - (offset &&& (2 ^ k - 1)) = offset / 2 ^ k * 2 ^ k := by
  have hdiv := Nat.div_add_mod offset (2 ^ k)
  rw [Nat.mul_comm] at hdiv
  rw [Nat.and_two_pow_sub_one_eq_mod]
  omega

/-- A read leaves the sizes, the offset and the saved line. -/
structure Kept (sc sc' : Strcache) : Prop where
  nbufs : sc'.sc_nbufs ≠ 0
  bufsize : sc'.sc_bufsize = blockSize sc
  offset : sc'.sc_offset = sc.sc_offset
  saved : sc'.sc_saved_line = sc.sc_saved_line

theorem Kept.blockSize_eq (h : Kept sc sc') : blockSize sc' = blockSize sc := by
  unfold blockSize
  rw [if_neg h.nbufs, h.bufsize]
  rfl

theorem Kept.trans {sc'' : Strcache} (h : Kept sc sc') (h' : Kept sc' sc'') : Kept sc sc'' where
  nbufs := h'.nbufs
  bufsize := h'.bufsize.trans h.blockSize_eq
  offset := h'.offset.trans h.offset
  saved := h'.saved.trans h.saved

/-- What a search for the buffer of an offset comes back with. -/
def Finds (F : List UInt8) (B offset : Nat) (sc : Strcache) (found : Option (Nat × Buf)) : Prop :=
  F.length ≤ offset ∧ found = none ∨ offset < F.length ∧ ∃ i b, found = some (i, b) ∧
    sc.sc_bufs[i]? = some b ∧ HoldsAt F B offset b

/-- The buffers that `sc_set_bufs` makes are empty. -/
theorem good_setBufs (nbufs k : Nat) (h : Good F sc) (hn : nbufs ≠ 0) : Good F { sc with
    sc_bufs := List.replicate nbufs ⟨0, 0, 0, 0, List.replicate (2 ^ k) 0⟩
    sc_last_buf := 0
    sc_nbufs := nbufs
    sc_bufsize := 2 ^ k } where
  last := by
    rw [List.length_replicate]
    exact Nat.pos_of_ne_zero hn
  size := Or.inr ⟨(List.length_replicate ..).symm, k, rfl⟩
  bufs := by
    intro b hb
    rw [List.eq_of_mem_replicate hb]
    exact holds_empty rfl rfl (List.length_replicate ..)
  saved := h.saved

/-- Before the search there are buffers. -/
theorem withBufs (input : Input) (h : Good F sc) (offset : Nat) :
    ∃ sc', findBuf input sc offset = findBlock input sc' offset ∧ Good F sc' ∧ Kept sc sc' := by
  unfold findBuf
  by_cases hn : sc.sc_nbufs = 0
  · rw [if_pos hn]
    refine ⟨_, rfl, good_setBufs 4 11 h (by decide), ⟨Nat.succ_ne_zero 3, ?_, rfl, rfl⟩⟩
    unfold blockSize
    rw [if_pos hn]
    rfl
  · rw [if_neg hn]
    refine ⟨sc, rfl, h, ⟨hn, ?_, rfl, rfl⟩⟩
    unfold blockSize
    rw [if_neg hn]

/-- A buffer that has just been read. -/
theorem holds_refilled {p : Nat} (hB : b.b_data.length = B) (hp : B ∣ p) (stamp : Nat) :
    Holds F B (refilled b stamp p ((F.drop p).take B)) where
  lim := rfl
  size := by
    have hle := List.length_take_le B (F.drop p)
    change (_ ++ _ : List UInt8).length = B
    rw [List.length_append, List.length_drop, hB]
    omega
  len := List.length_take_le _ _
  block := by
    intro _
    refine ⟨hp, ?_, List.take_left' rfl⟩
    change ((F.drop p).take B).length = _
    rw [List.length_take, List.length_drop]
    rfl

theorem findBlock_spec (h : Good F sc) (hn : sc.sc_nbufs ≠ 0) (offset : Nat) :
    ∃ sc' found, findBlock (readsFile F) sc offset = .ok (sc', found) ∧ Good F sc' ∧ Kept sc sc' ∧
      Finds F sc.sc_bufsize offset sc' found := by
  obtain ⟨h0, -⟩ | ⟨hlen, k, hk⟩ := h.size
  · exact absurd h0 hn
  have hdiv := Nat.div_add_mod offset (2 ^ k)
  have hmod := Nat.mod_lt offset (Nat.two_pow_pos k)
  rw [Nat.mul_comm] at hdiv
  have hkept : ∀ sc', sc'.sc_nbufs = sc.sc_nbufs → sc'.sc_bufsize = sc.sc_bufsize →
      sc'.sc_offset = sc.sc_offset → sc'.sc_saved_line = sc.sc_saved_line → Kept sc sc' := by
    intro sc' h1 h2 h3 h4
    refine ⟨h1 ▸ hn, ?_, h3, h4⟩
    rw [h2, blockSize, if_neg hn]
  -- What is in a buffer with the block decides
  have hfinds : ∀ sc' i b, Holds F (2 ^ k) b → b.b_offset = offset / 2 ^ k * 2 ^ k →
      b.b_len = min (2 ^ k) (F.length - b.b_offset) → sc'.sc_bufs[i]? = some b →
      Finds F (2 ^ k) offset sc' (if offset < b.b_lim then some (i, b) else none) := by
    intro sc' i b hb hoff hlenb hi
    have hlim := hb.lim
    by_cases hlt : offset < b.b_lim
    · rw [if_pos hlt]
      exact Or.inr ⟨by omega, i, b, rfl, hi, hb, by omega, hoff⟩
    · rw [if_neg hlt]
      exact Or.inl ⟨by omega, rfl⟩
  unfold findBlock
  cases hbufs : sc.sc_bufs with
  | nil =>
    rw [hbufs] at hlen
    exact absurd hlen hn
  | cons first rest =>
    dsimp only
    rw [← hbufs, hlen, List.take_length, hk, block_start]
    rcases searchBufs_spec (fun x => sc.sc_bufs[x.1]? = some x.2)
        (by rw [hbufs]; rfl : sc.sc_bufs[(0, first).1]? = some (0, first).2)
        (fun i b hi => by rwa [Nat.zero_add] : ∀ i b, sc.sc_bufs[i]? = some b → sc.sc_bufs[0 + i]? = some b) with
      ⟨⟨i, b⟩, heq, hi, hused, hoff⟩ | ⟨⟨i, b⟩, heq, hi⟩
    · rw [heq]
      have hb := h.bufs b (List.mem_of_getElem? hi)
      rw [hk] at hb
      exact ⟨sc, _, rfl, h, hkept sc rfl rfl rfl rfl,
        hfinds sc i b hb hoff (hb.block hused).2.1 hi⟩
    · rw [heq]
      have hb := h.bufs b (List.mem_of_getElem? hi)
      rw [hk] at hb
      have hnew := holds_refilled (F := F) (b := b) hb.size (Nat.dvd_mul_left (2 ^ k) (offset / 2 ^ k))
        sc.sc_current_stamp
      refine ⟨_, _, rfl, ⟨?_, Or.inr ⟨?_, k, rfl⟩, ?_, h.saved⟩, hkept _ hlen.symm hk.symm rfl rfl,
        hfinds _ i _ hnew rfl ?_ ?_⟩
      · rw [List.length_set]
        exact h.last
      · exact (List.length_set ..).symm
      · intro b' hb'
        rcases List.mem_or_eq_of_mem_set hb' with hb' | rfl
        · exact hk ▸ h.bufs b' hb'
        · exact hnew
      · change ((F.drop _).take (2 ^ k)).length = _
        rw [List.length_take, List.length_drop]
        rfl
      · exact List.getElem?_set_self (List.getElem?_eq_some_iff.mp hi).1

theorem findBuf_spec (h : Good F sc) (offset : Nat) :
    ∃ sc' found, findBuf (readsFile F) sc offset = .ok (sc', found) ∧ Good F sc' ∧ Kept sc sc' ∧
      Finds F (blockSize sc) offset sc' found := by
  obtain ⟨sc1, heq, hgood, hkept⟩ := withBufs (readsFile F) h offset
  obtain ⟨sc2, found, heq2, hgood2, hkept2, hfinds⟩ := findBlock_spec hgood hkept.nbufs offset
  exact ⟨sc2, found, heq.trans heq2, hgood2, hkept.trans hkept2, hkept.bufsize ▸ hfinds⟩

/-- The shortcut over the last buffer finds the same block. -/
theorem firstBuf_spec (h : Good F sc) (offset : Nat) :
    ∃ sc' found, firstBuf (readsFile F) sc offset = .ok (sc', found) ∧ Good F sc' ∧ Kept sc sc' ∧
      Finds F (blockSize sc) offset sc' found := by
  obtain ⟨b, hlast⟩ : ∃ b, sc.sc_bufs[sc.sc_last_buf]? = some b :=
    ⟨_, List.getElem?_eq_getElem h.last⟩
  have hholds := h.bufs b (List.mem_of_getElem? hlast)
  unfold firstBuf
  rw [hlast]
  dsimp only
  by_cases hmiss : b.b_offset > offset ∨ offset ≥ b.b_lim
  · rw [if_pos hmiss]
    obtain ⟨sc1, found, heq, hgood, hkept, hfinds⟩ := findBuf_spec h offset
    rw [heq]
    obtain ⟨hle, rfl⟩ | ⟨hlt, i, b', rfl, hi, hat⟩ := hfinds
    · exact ⟨sc1, none, rfl, hgood, hkept, Or.inl ⟨hle, rfl⟩⟩
    · refine ⟨_, _, rfl, ⟨(List.getElem?_eq_some_iff.mp hi).1, hgood.size, hgood.bufs, hgood.saved⟩,
        ⟨hkept.nbufs, hkept.bufsize, hkept.offset, hkept.saved⟩, Or.inr ⟨hlt, i, b', rfl, hi, hat⟩⟩
  · rw [if_neg hmiss]
    rw [not_or] at hmiss
    have hlim := hholds.lim
    have hlen := hholds.len
    have hused : 0 < b.b_len := by omega
    obtain ⟨⟨q, hq⟩, hblen, hdata⟩ := hholds.block hused
    have hn : sc.sc_nbufs ≠ 0 := by
      intro hn
      obtain ⟨-, h0⟩ | ⟨hn', -⟩ := h.size
      · omega
      · have := h.last
        omega
    have hB : blockSize sc = sc.sc_bufsize := by
      unfold blockSize
      rw [if_neg hn]
    have hdiv : offset / sc.sc_bufsize = q := by
      rw [Nat.mul_comm] at hq
      refine Nat.div_eq_of_lt_le (by omega) ?_
      rw [Nat.add_mul, Nat.one_mul]
      omega
    refine ⟨sc, _, rfl, h, ⟨hn, hB.symm, rfl, rfl⟩, Or.inr ⟨by omega, sc.sc_last_buf, b, rfl, hlast, ?_⟩⟩
    rw [hB]
    exact ⟨hholds, hused, by rw [hdiv, hq, Nat.mul_comm]⟩

/-! ## Bytes -/

theorem HoldsAt.take (h : HoldsAt F B offset b) (hB : B ∣ offset) (hn : n ≤ b.b_len) :
    b.b_data.take n = (F.drop offset).take n := by
  have hoff : b.b_offset = offset := by rw [h.offset, Nat.div_mul_cancel hB]
  have hdata := (h.block h.used).2.2
  have hle := h.len
  rw [← min_eq_left hn, ← List.take_take, hdata, List.take_take, hoff]
  congr 1
  omega

theorem HoldsAt.len_eq (h : HoldsAt F B offset b) (hB : B ∣ offset) :
    b.b_len = min B (F.length - offset) := by
  have hoff : b.b_offset = offset := by rw [h.offset, Nat.div_mul_cancel hB]
  rw [(h.block h.used).2.1, hoff]

/-- Behind a block there is another one, or the end of the file. -/
theorem HoldsAt.next (h : HoldsAt F B offset b) (hB : B ∣ offset) :
    B ∣ offset + b.b_len ∨ F.length ≤ offset + b.b_len := by
  rw [h.len_eq hB]
  by_cases hle : B ≤ F.length - offset
  · rw [min_eq_left hle]
    exact Or.inl ((Nat.dvd_add_right hB).mpr (Nat.dvd_refl B))
  · rw [min_eq_right (by omega)]
    exact Or.inr (by omega)

theorem copyBytes_spec (fuel size remaining : Nat) {res : List UInt8} (h : Good F sc)
    (hp : blockSize sc ∣ offset + res.length ∨ F.length ≤ offset + res.length)
    (hres : res = (F.drop offset).take res.length) (hle : offset + res.length ≤ F.length)
    (hsize : res.length + remaining ≤ size) (hpos : 0 < remaining)
    (hfuel : F.length < offset + res.length + fuel) :
    ∃ sc', copyBytes (readsFile F) fuel sc size offset remaining res =
      .ok (sc', some ((F.drop offset).take (res.length + remaining))) ∧ Good F sc' ∧
        sc'.sc_offset = sc.sc_offset := by
  induction fuel generalizing sc remaining res with
  | zero => omega
  | succ fuel ih =>
    obtain ⟨sc1, found, heq, hgood, hkept, ⟨hend, rfl⟩ | ⟨hlt, i, b, rfl, -, hat⟩⟩ :=
      findBuf_spec h (offset + res.length)
    · refine ⟨sc1, ?_, hgood, hkept.offset⟩
      unfold copyBytes
      rw [heq]
      have hall : (F.drop offset).take (res.length + remaining) = res := by
        rw [List.take_of_length_le (by rw [List.length_drop]; omega)]
        rw [List.take_of_length_le (by rw [List.length_drop]; omega)] at hres
        exact hres.symm
      rw [hall]
      rfl
    · have hdvd := hp.resolve_right (Nat.not_le.mpr hlt)
      have hblen := hat.len_eq hdvd
      have hused := hat.used
      obtain ⟨m, hm, hmle, hmpos⟩ : ∃ m, (if remaining < b.b_len then remaining else b.b_len) = m ∧
          m ≤ b.b_len ∧ 0 < m ∧ m ≤ remaining ∧ (m < remaining → m = b.b_len) := by
        refine ⟨_, rfl, ?_⟩
        split <;> omega
      have hmdata := hat.take hdvd hmle
      have hlen : (res ++ b.b_data.take m).length = res.length + m := by
        rw [List.length_append, hmdata, List.length_take, List.length_drop]
        omega
      have hres' : res ++ b.b_data.take m = (F.drop offset).take (res.length + m) := by
        rw [List.take_add, ← hres, hmdata, List.drop_drop]
      have hstep : copyBytes (readsFile F) (fuel + 1) sc size offset remaining res =
          if remaining - m > 0 then copyBytes (readsFile F) fuel sc1 size offset (remaining - m)
            (res ++ b.b_data.take m)
          else .ok (sc1, some (res ++ b.b_data.take m)) := by
        rw [copyBytes, heq]
        dsimp only [bind, Except.bind]
        rw [hm, if_neg (by omega)]
      rw [hstep]
      by_cases hmore : remaining - m > 0
      · rw [if_pos hmore]
        have hfull := hmpos.2.2 (by omega)
        have hnext : blockSize sc1 ∣ offset + (res ++ b.b_data.take m).length ∨
            F.length ≤ offset + (res ++ b.b_data.take m).length := by
          rw [hlen, hkept.blockSize_eq, ← Nat.add_assoc, hfull]
          exact hat.next hdvd
        obtain ⟨sc2, heq2, hgood2, hoff2⟩ := ih _ hgood hnext (by rw [hlen]; exact hres')
          (by rw [hlen]; omega) (by rw [hlen]; omega) hmore (by rw [hlen]; omega)
        refine ⟨sc2, ?_, hgood2, hoff2.trans hkept.offset⟩
        rw [heq2, hlen]
        congr 4
        omega
      · rw [if_neg hmore]
        refine ⟨sc1, ?_, hgood, hkept.offset⟩
        rw [hres']
        congr 4
        omega

theorem doubled_spec {nbytes fuel r : Nat} (hpos : 0 < r) (hfuel : nbytes ≤ r + fuel) :
    ∃ r', doubled nbytes (fuel + 1) r = .ok r' ∧ nbytes ≤ r' ∧ 0 < r' := by
  induction fuel generalizing r with
  | zero =>
    unfold doubled
    rw [if_neg (by omega)]
    exact ⟨r, rfl, by omega, hpos⟩
  | succ fuel ih =>
    unfold doubled
    split
    · exact ih (by omega) (by omega)
    · exact ⟨r, rfl, by omega, hpos⟩

theorem lineFor_spec (h : Good F sc) (hn : sc.sc_nbufs ≠ 0) (nbytes : Nat) :
    ∃ line, lineFor sc nbytes = .ok line ∧ 0 < line.len ∧ line.len ≤ line.size ∧
      nbytes ≤ line.size := by
  have hB := h.pos hn
  unfold lineFor
  cases hsaved : sc.sc_saved_line with
  | none =>
    refine ⟨_, rfl, ?_⟩
    dsimp only
    split <;> omega
  | some line =>
    obtain ⟨hpos, hle⟩ := h.saved line hsaved
    dsimp only
    split
    · obtain ⟨r, hr, hler, hposr⟩ := doubled_spec hpos (Nat.le_add_left _ _)
      rw [hr]
      exact ⟨⟨r, r⟩, rfl, hposr, Nat.le_refl r, hler⟩
    · exact ⟨line, rfl, hpos, hle, by omega⟩

theorem Good.setLine (h : Good F sc) (hpos : 0 < line.len) (hle : line.len ≤ line.size) :
    Good F { sc with sc_saved_line := some line } :=
  ⟨h.last, h.size, h.bufs, fun l hl => by
    cases hl
    exact ⟨hpos, hle⟩⟩

/-- Where a block is that has a byte of the file at `offset`. -/
theorem HoldsAt.bounds (h : HoldsAt F B offset b) (hB : 0 < B) (hlt : offset < F.length) :
    b.b_offset ≤ offset ∧ offset < b.b_offset + b.b_len ∧
      b.b_offset + b.b_len = min ((offset / B + 1) * B) F.length := by
  have hdiv := Nat.div_add_mod offset B
  have hmod := Nat.mod_lt offset hB
  have hlen := (h.block h.used).2.1
  have hoff := h.offset
  rw [Nat.mul_comm] at hdiv
  rw [Nat.add_mul, Nat.one_mul]
  omega

/-- Behind the block of an offset there is another one, or the end of the file. -/
theorem HoldsAt.behind (h : HoldsAt F B offset b) (hB : 0 < B) (hlt : offset < F.length) :
    B ∣ b.b_offset + b.b_len ∨ F.length ≤ b.b_offset + b.b_len := by
  obtain ⟨-, -, hend⟩ := h.bounds hB hlt
  rw [hend]
  by_cases hle : (offset / B + 1) * B ≤ F.length
  · rw [min_eq_left hle]
    exact Or.inl (Nat.dvd_mul_left ..)
  · rw [min_eq_right (by omega)]
    exact Or.inr (Nat.le_refl _)

theorem getBytes_spec (h : Good F sc) (off : Int) (nbytes : Nat) (hoff : off + sc.sc_offset = offset) :
    ∃ sc', getBytes (readsFile F) (turns F) sc off nbytes = .ok (sc', bytesAt F offset nbytes) ∧
      Good F sc' ∧ sc'.sc_offset = sc.sc_offset := by
  obtain ⟨sc1, found, heq, hgood, hkept, hfinds⟩ := firstBuf_spec h offset
  unfold getBytes
  rw [hoff]
  dsimp only
  rw [if_neg (by omega), Int.toNat_natCast, heq]
  dsimp only [bind, Except.bind]
  unfold bytesAt
  obtain ⟨hend, rfl⟩ | ⟨hlt, i, b, rfl, -, hat⟩ := hfinds
  · rw [if_pos hend]
    exact ⟨sc1, rfl, hgood, hkept.offset⟩
  · rw [if_neg (Nat.not_le.mpr hlt)]
    have hB : 0 < blockSize sc := by
      rw [← hkept.bufsize]
      exact hgood.pos hkept.nbufs
    obtain ⟨hge, hltb, hend⟩ := hat.bounds hB hlt
    have hrest := hat.rest hB
    have hlen : ((b.b_data.drop (offset - b.b_offset)).take
        (b.b_len - (offset - b.b_offset))).length = b.b_len - (offset - b.b_offset) := by
      have hle := hat.len
      rw [List.length_take, List.length_drop, hat.size]
      omega
    dsimp only
    by_cases hone : offset - b.b_offset + nbytes ≤ b.b_len
    · -- The bytes are in one block
      rw [if_pos hone]
      refine ⟨sc1, ?_, hgood, hkept.offset⟩
      have htake : (b.b_data.drop (offset - b.b_offset)).take nbytes =
          (F.drop offset).take nbytes := by
        rw [← min_eq_left (by omega : nbytes ≤ b.b_len - (offset - b.b_offset)), ← List.take_take,
          hrest, List.take_take]
        congr 1
        omega
      rw [htake]
    · rw [if_neg hone]
      obtain ⟨line, hline, hpos, hle, hnbytes⟩ := lineFor_spec hgood hkept.nbufs nbytes
      rw [hline]
      dsimp only
      rw [hlen, if_neg (by omega)]
      have hres : (b.b_data.drop (offset - b.b_offset)).take (b.b_len - (offset - b.b_offset)) =
          (F.drop offset).take (b.b_len - (offset - b.b_offset)) := by
        rw [hrest]
        by_cases hfull : (offset / blockSize sc + 1) * blockSize sc ≤ F.length
        · congr 1
          omega
        · rw [List.take_of_length_le (by rw [List.length_drop]; omega),
            List.take_of_length_le (by rw [List.length_drop]; omega)]
      obtain ⟨sc2, heq2, hgood2, hoff2⟩ := copyBytes_spec (turns F)
        line.size (nbytes - (b.b_len - (offset - b.b_offset))) (hgood.setLine hpos hle) (by
          rw [hlen]
          have hbehind := hat.behind hB hlt
          rw [show blockSize { sc1 with sc_saved_line := some line } = blockSize sc from
            hkept.blockSize_eq]
          rwa [show offset + (b.b_len - (offset - b.b_offset)) = b.b_offset + b.b_len by omega])
        (by rw [hlen]; exact hres) (by rw [hlen]; omega) (by rw [hlen]; omega) (by omega) (by
          unfold turns
          omega)
      refine ⟨sc2, ?_, hgood2, hoff2.trans hkept.offset⟩
      rw [heq2, hlen]
      congr 4
      omega

/-! ## Strings -/

theorem copyString_some (input : Input) (fuel : Nat) {i : Nat} {res : List UInt8}
    (heq : findBuf input sc (offset + res.length) = .ok (sc', some (i, b)))
    (hn : memchr c (b.b_data.take b.b_len) = some n) :
    copyString input c (fuel + 1) sc line offset res =
      if res.length + n > (grown line (res.length + n)).size then .error .fault
      else if (res ++ b.b_data.take n).length < (grown line (res.length + n)).size then
        .ok ({ sc' with sc_saved_line := some (grown line (res.length + n)) },
          some (res ++ b.b_data.take n))
      else .error .fault := by
  rw [copyString, heq]
  dsimp only [bind, Except.bind]
  rw [hn]
  rfl

theorem copyString_none (input : Input) (fuel : Nat) {i : Nat} {res : List UInt8}
    (heq : findBuf input sc (offset + res.length) = .ok (sc', some (i, b)))
    (hn : memchr c (b.b_data.take b.b_len) = none) :
    copyString input c (fuel + 1) sc line offset res =
      if res.length + b.b_len > (grown line (res.length + b.b_len)).size then .error .fault
      else copyString input c fuel
        { sc' with sc_saved_line := some (grown line (res.length + b.b_len)) }
        (grown line (res.length + b.b_len)) offset (res ++ b.b_data.take b.b_len) := by
  rw [copyString, heq]
  dsimp only [bind, Except.bind]
  rw [hn]
  rfl

theorem grown_spec (hpos : 0 < line.len) (hsize : line.len ≤ line.size) (n : Nat) :
    0 < (grown line n).len ∧ (grown line n).len ≤ (grown line n).size := by
  unfold grown
  split
  · dsimp only
    omega
  · exact ⟨hpos, hsize⟩

theorem copyString_spec (fuel : Nat) {stop : Nat} (res : List UInt8) (h : Good F sc)
    (hp : blockSize sc ∣ offset + res.length ∨ F.length ≤ offset + res.length)
    (hres : res ++ stringFrom F (offset + res.length) c = stringFrom F offset c)
    (hle : offset + res.length ≤ F.length) (hpos : 0 < line.len) (hsize : line.len ≤ line.size)
    (hfuel : F.length < offset + res.length + fuel)
    (hstop : offset + (stringFrom F offset c).length = stop) :
    (∃ sc', copyString (readsFile F) c fuel sc line offset res =
        .ok (sc', some (stringFrom F offset c)) ∧ Good F sc' ∧ sc'.sc_offset = sc.sc_offset) ∧
        Takes (blockSize sc) F.length offset stop fuel line (offset + res.length) ∨
      copyString (readsFile F) c fuel sc line offset res = .error .fault ∧
        ¬Takes (blockSize sc) F.length offset stop fuel line (offset + res.length) := by
  induction fuel generalizing sc line res with
  | zero => omega
  | succ fuel ih =>
    obtain ⟨sc1, found, heq, hgood, hkept, ⟨hend, rfl⟩ | ⟨hlt, i, b, rfl, -, hat⟩⟩ :=
      findBuf_spec h (offset + res.length)
    · -- The end of the file
      have hall : stringFrom F (offset + res.length) c = [] := by
        unfold stringFrom
        rw [List.drop_of_length_le hend]
        rfl
      rw [hall, List.append_nil] at hres
      unfold copyString Takes
      rw [heq, if_pos hend, Nat.add_sub_cancel_left]
      dsimp only [bind, Except.bind]
      by_cases hroom : res.length < line.size
      · rw [if_pos hroom, ← hres]
        exact Or.inl ⟨⟨sc1, rfl, hgood, hkept.offset⟩, hroom⟩
      · rw [if_neg hroom]
        exact Or.inr ⟨rfl, hroom⟩
    · have hdvd := hp.resolve_right (Nat.not_le.mpr hlt)
      have hblen := hat.len_eq hdvd
      have hblock := hat.take hdvd (Nat.le_refl _)
      have hlenb : ((F.drop (offset + res.length)).take b.b_len).length = b.b_len := by
        rw [List.length_take, List.length_drop]
        omega
      have hlim : min (offset + res.length + blockSize sc) F.length =
          offset + res.length + b.b_len := by
        omega
      have hstop' : stop = offset + res.length + (stringFrom F (offset + res.length) c).length := by
        rw [← hstop, ← hres, List.length_append]
        omega
      unfold Takes
      rw [if_neg (Nat.not_le.mpr hlt), hlim]
      cases hfound : memchr c (b.b_data.take b.b_len) with
      | some n =>
        -- The string ends in this block
        rw [copyString_some _ fuel heq hfound]
        rw [hblock] at hfound
        have hstring := stringFrom_some hfound
        have hn := (memchr_some hfound).2
        rw [hlenb] at hn
        rw [hat.take hdvd hn.le]
        rw [List.take_take, min_eq_left hn.le] at hstring
        have hlenn : ((F.drop (offset + res.length)).take n).length = n := by
          rw [List.length_take, List.length_drop]
          omega
        rw [hstring, hlenn] at hstop'
        rw [← hstring, hres]
        have hnext : min stop (offset + res.length + b.b_len) - offset = res.length + n := by omega
        have hlen : (stringFrom F offset c).length = res.length + n := by omega
        dsimp only
        rw [hnext, hlen, if_pos (by omega : stop < offset + res.length + b.b_len)]
        obtain ⟨hpos', hsize'⟩ := grown_spec hpos hsize (res.length + n)
        by_cases hroom : res.length + n < (grown line (res.length + n)).size
        · rw [if_neg (by omega), if_pos hroom]
          exact Or.inl ⟨⟨_, rfl, hgood.setLine hpos' hsize', hkept.offset⟩, hroom.le, hroom⟩
        · refine Or.inr ⟨?_, fun hc => hroom hc.2⟩
          rw [if_neg hroom]
          split <;> rfl
      | none =>
        rw [copyString_none _ fuel heq hfound, hblock]
        rw [hblock] at hfound
        have hstring := stringFrom_none hfound
        rw [hlenb] at hstring
        rw [hstring, List.length_append, hlenb] at hstop'
        have hnext : min stop (offset + res.length + b.b_len) = offset + res.length + b.b_len := by
          omega
        have hlen : (res ++ (F.drop (offset + res.length)).take b.b_len).length =
            res.length + b.b_len := by
          rw [List.length_append, hlenb]
        dsimp only
        rw [hnext, if_neg (by omega : ¬stop < offset + res.length + b.b_len), Nat.add_assoc,
          Nat.add_sub_cancel_left]
        obtain ⟨hpos', hsize'⟩ := grown_spec hpos hsize (res.length + b.b_len)
        by_cases hroom : res.length + b.b_len ≤ (grown line (res.length + b.b_len)).size
        · rw [if_neg (by omega)]
          have hused := hat.used
          have hbehind := hat.next hdvd
          rw [Nat.add_assoc] at hbehind
          have hrest := ih _ (hgood.setLine hpos' hsize')
            (by rw [hlen]; exact hkept.blockSize_eq ▸ hbehind)
            (by rw [hlen, List.append_assoc, ← Nat.add_assoc, ← hstring]; exact hres)
            (by rw [hlen]; omega) hpos' hsize' (by rw [hlen]; omega)
          rw [hlen, show blockSize { sc1 with
              sc_saved_line := some (grown line (res.length + b.b_len)) } = blockSize sc from
            hkept.blockSize_eq] at hrest
          obtain ⟨⟨sc2, heq2, hgood2, hoff2⟩, htakes⟩ | ⟨hfault, hnot⟩ := hrest
          · exact Or.inl ⟨⟨sc2, heq2, hgood2, hoff2.trans hkept.offset⟩, hroom, htakes⟩
          · exact Or.inr ⟨hfault, fun hc => hnot hc.2⟩
        · rw [if_pos (by omega)]
          exact Or.inr ⟨rfl, fun hc => hroom hc.1⟩

/-- The data of a short buffer may be marked behind its end. -/
theorem Good.mark (h : Good F sc) (hi : sc.sc_bufs[i]? = some b) :
    Good F { sc with sc_bufs := sc.sc_bufs.set i { b with b_data := b.b_data.set b.b_len 0 } } where
  last := by
    rw [List.length_set]
    exact h.last
  size := by
    rw [List.length_set]
    exact h.size
  bufs := by
    intro b' hb'
    rcases List.mem_or_eq_of_mem_set hb' with hb' | rfl
    · exact h.bufs b' hb'
    · have hb := h.bufs b (List.mem_of_getElem? hi)
      refine ⟨hb.lim, by rw [List.length_set]; exact hb.size, hb.len, fun hused => ?_⟩
      rw [List.take_set_of_le (Nat.le_refl _)]
      exact hb.block hused
  saved := h.saved

theorem getString_spec (h : Good F sc) (off : Int) (c : UInt8) (hoff : off + sc.sc_offset = offset) :
    (∃ sc', getString (readsFile F) (turns F) sc off c = .ok (sc', stringAt F offset c) ∧
        Good F sc' ∧ sc'.sc_offset = sc.sc_offset) ∧ Meets F sc offset c ∨
      getString (readsFile F) (turns F) sc off c = .error .fault ∧ ¬Meets F sc offset c := by
  obtain ⟨sc1, found, heq, hgood, hkept, hfinds⟩ := firstBuf_spec h offset
  have hB : 0 < blockSize sc := by
    rw [← hkept.bufsize]
    exact hgood.pos hkept.nbufs
  have hdiv := Nat.div_add_mod offset (blockSize sc)
  have hmod := Nat.mod_lt offset hB
  rw [Nat.mul_comm] at hdiv
  have hlim : offset < (offset / blockSize sc + 1) * blockSize sc := by
    rw [Nat.add_mul, Nat.one_mul]
    omega
  unfold getString Meets
  rw [hoff]
  dsimp only
  rw [if_neg (by omega), Int.toNat_natCast, heq]
  dsimp only [bind, Except.bind]
  unfold stringAt
  obtain ⟨hend, rfl⟩ | ⟨hlt, i, b, rfl, hi, hat⟩ := hfinds
  · rw [if_pos hend]
    refine Or.inl ⟨⟨sc1, rfl, hgood, hkept.offset⟩, Or.inl ?_⟩
    have hle := stringFrom_le F offset c
    omega
  · rw [if_neg (Nat.not_le.mpr hlt)]
    obtain ⟨hge, hltb, hend⟩ := hat.bounds hB hlt
    have hrest := hat.rest hB
    set lim := (offset / blockSize sc + 1) * blockSize sc with hlimdef
    have hlen : ((F.drop offset).take (lim - offset)).length = min lim F.length - offset := by
      rw [List.length_take, List.length_drop]
      omega
    dsimp only
    rw [hrest]
    cases hfound : memchr c ((F.drop offset).take (lim - offset)) with
    | some n =>
      -- The string ends in its first block
      have hstring := stringFrom_some hfound
      have hn := (memchr_some hfound).2
      dsimp only
      rw [← hstring]
      refine Or.inl ⟨⟨sc1, rfl, hgood, hkept.offset⟩, Or.inl ?_⟩
      rw [hstring, List.length_take]
      omega
    | none =>
      have hstring := stringFrom_none hfound
      have hbufsize := hkept.bufsize
      have hsaved : sc1.sc_saved_line.getD ⟨sc1.sc_bufsize, sc1.sc_bufsize⟩ =
          sc.sc_saved_line.getD ⟨blockSize sc, blockSize sc⟩ := by
        rw [hkept.saved, hbufsize]
      dsimp only
      by_cases hshort : b.b_len < sc1.sc_bufsize
      · -- The file ends in the first block
        have hfile : F.length < lim := by
          have hoffset := hat.offset
          rw [hlimdef, Nat.add_mul, Nat.one_mul] at hend ⊢
          omega
        have hall : stringFrom F (offset + ((F.drop offset).take (lim - offset)).length) c = [] := by
          unfold stringFrom
          rw [List.drop_of_length_le (by omega)]
          rfl
        rw [if_pos hshort]
        rw [hall, List.append_nil] at hstring
        rw [← hstring]
        refine Or.inl ⟨⟨_, rfl, hgood.mark hi, hkept.offset⟩, Or.inl ?_⟩
        have hle := stringFrom_le F offset c
        omega
      · have hfull : lim ≤ F.length := by
          have hoffset := hat.offset
          have hle := hat.len
          rw [hlimdef, Nat.add_mul, Nat.one_mul] at hend ⊢
          omega
        rw [min_eq_left hfull] at hlen
        rw [if_neg hshort, hlen]
        rw [hlen] at hstring
        have hstop : ¬offset + (stringFrom F offset c).length < lim := by
          rw [hstring, List.length_append, hlen]
          omega
        simp only [hstop, false_or]
        rw [hsaved]
        set line := sc.sc_saved_line.getD ⟨blockSize sc, blockSize sc⟩ with hline
        obtain ⟨hpos, hsize⟩ : 0 < line.len ∧ line.len ≤ line.size := by
          rw [hline]
          cases hsaved : sc.sc_saved_line with
          | none => exact ⟨hB, Nat.le_refl _⟩
          | some l => exact h.saved l hsaved
        by_cases hroom : lim - offset ≤ line.size
        · rw [if_neg (by omega)]
          have hp : offset + ((F.drop offset).take (lim - offset)).length = lim := by
            rw [hlen]
            omega
          have hcopy := copyString_spec (c := c) (turns F)
            ((F.drop offset).take (lim - offset)) (hgood.setLine hpos hsize) (Or.inl ?_) (by rw [hlen]; exact hstring.symm)
            (by rw [hp]; exact hfull) hpos hsize (by rw [hp, turns]; omega) rfl
          · rw [hp, show blockSize { sc1 with sc_saved_line := some line } = blockSize sc from
              hkept.blockSize_eq] at hcopy
            obtain ⟨⟨sc2, heq2, hgood2, hoff2⟩, htakes⟩ | ⟨hfault, hnot⟩ := hcopy
            · exact Or.inl ⟨⟨sc2, heq2, hgood2, hoff2.trans hkept.offset⟩, hroom, htakes⟩
            · exact Or.inr ⟨hfault, fun hc => hnot hc.2⟩
          · rw [hp, show blockSize { sc1 with sc_saved_line := some line } = blockSize sc from
              hkept.blockSize_eq, hlimdef]
            exact Nat.dvd_mul_left ..
        · rw [if_pos (by omega)]
          exact Or.inr ⟨rfl, fun hc => hroom hc.1⟩

/-- With a saved line that is as long as a buffer only the character behind the string may lack
room. -/
theorem takes_iff_of_long_line {n start stop fuel p : Nat} (hB : B ≤ line.len)
    (hsize : line.len ≤ line.size) (hp : p - start ≤ line.len) (hstart : start ≤ p)
    (hstop : p ≤ stop) (hn : stop ≤ n) (hpos : 0 < B) (hfuel : n < p + fuel) :
    Takes B n start stop fuel line p ↔ stop - start ≠ line.len ∨ line.len < line.size := by
  induction fuel generalizing line p with
  | zero => omega
  | succ fuel ih =>
    unfold Takes
    by_cases hend : n ≤ p
    · rw [if_pos hend]
      omega
    · rw [if_neg hend]
      dsimp only
      by_cases hgrow : min stop (min (p + B) n) - start > line.len
      · have hgrown : grown line (min stop (min (p + B) n) - start) =
            ⟨line.len * 2, line.len * 2 + 1⟩ := if_pos hgrow
        rw [hgrown]
        dsimp only
        split
        · omega
        · rw [ih (by dsimp only; omega) (by dsimp only; omega) (by dsimp only; omega) (by omega)
            (by omega) (by omega)]
          dsimp only
          omega
      · have hgrown : grown line (min stop (min (p + B) n) - start) = line := if_neg hgrow
        rw [hgrown]
        split
        · omega
        · rw [ih hB hsize (by omega) (by omega) (by omega) (by omega)]
          omega

/-! ## Runs -/

theorem good_make (F : List UInt8) : Good F makeStrcache where
  last := Nat.one_pos
  size := Or.inl ⟨rfl, rfl⟩
  bufs := by
    intro b hb
    rw [List.mem_singleton.mp hb]
    exact holds_empty rfl rfl rfl
  saved := by
    intro line hline
    cases hline

/-- A loop over the buffers that leaves each with a block, or with nothing. -/
theorem Good.mapBufs {f : Buf → Buf} (h : Good F sc)
    (hf : ∀ b, Holds F sc.sc_bufsize b → Holds F' sc.sc_bufsize (f b)) :
    Good F' (mapBufs sc f) := by
  obtain ⟨hn, hB⟩ | ⟨hlen, k, hk⟩ := h.size
  · -- Only the dummy buffer
    have hbufs : (strcache.mapBufs sc f).sc_bufs = sc.sc_bufs := by
      unfold strcache.mapBufs
      rw [hn]
      rfl
    refine ⟨hbufs ▸ h.last, Or.inl ⟨hn, hB⟩, fun b hb => ?_, h.saved⟩
    rw [hbufs] at hb
    have hholds := h.bufs b hb
    have hle := hholds.len
    exact ⟨hholds.lim, hholds.size, hle, fun hused => by omega⟩
  · have hbufs : (strcache.mapBufs sc f).sc_bufs = sc.sc_bufs.map f := by
      unfold strcache.mapBufs
      rw [hlen, List.take_length, List.drop_length, List.append_nil]
    refine ⟨?_, Or.inr ⟨?_, k, hk⟩, fun b hb => ?_, h.saved⟩
    · rw [hbufs, List.length_map]
      exact h.last
    · rw [hbufs, List.length_map]
      exact hlen
    · rw [hbufs] at hb
      obtain ⟨b', hb', rfl⟩ := List.mem_map.mp hb
      exact hf b' (h.bufs b' hb')

theorem holds_forgetBuf (h : Holds F B b) : Holds F' B (forgetBuf b) :=
  holds_empty rfl rfl h.size

/-- A whole block is in the grown file as well. -/
theorem Holds.grow (h : Holds F B b) (more : List UInt8) (hfull : ¬b.b_len < B) :
    Holds (F ++ more) B b where
  lim := h.lim
  size := h.size
  len := h.len
  block := by
    intro hused
    obtain ⟨hdvd, hlen, hdata⟩ := h.block hused
    have hle := h.len
    refine ⟨hdvd, ?_, ?_⟩
    · rw [List.length_append]
      omega
    · rw [hdata, List.drop_append_of_le_length (by omega), List.take_append_of_le_length]
      rw [List.length_drop]
      omega

theorem good_setBufs_ok {nbufs bufsize : Nat} {allocated : Bool} {res : Int} (h : Good F sc)
    (heq : setBufs sc nbufs bufsize allocated = .ok (sc', res)) : Good F sc' := by
  have hnum : (if nbufs = 0 then DEFAULT_NBUFS else nbufs) ≠ 0 := by
    split
    · decide
    · assumption
  have hsize : (if bufsize = 0 then DEFAULT_BUFSIZE else bufsize) ≠ 0 := by
    split
    · decide
    · assumption
  unfold setBufs at heq
  dsimp only at heq
  generalize (if nbufs = 0 then DEFAULT_NBUFS else nbufs) = num at heq hnum
  generalize (if bufsize = 0 then DEFAULT_BUFSIZE else bufsize) = size at heq hsize
  by_cases hpower : size &&& (size - 1) = 0
  · obtain ⟨k, rfl⟩ := (Nat.and_sub_one_eq_zero_iff_isPowerOfTwo hsize).mp hpower
    rw [if_neg (not_not_intro hpower)] at heq
    cases allocated with
    | false =>
      cases heq
      exact h
    | true =>
      cases heq
      exact good_setBufs num k h hnum
  · rw [if_pos hpower] at heq
    cases heq

/-- The state that comes out of a call with a result. -/
theorem result_of_ok {α : Type} {x : Except Stop (Strcache × α)}
    (h : (do
      let (sc, _) ← x
      .ok sc : Except Stop Strcache) = .ok sc') : ∃ res, x = .ok (sc', res) := by
  cases x with
  | error e => cases h
  | ok y =>
    cases h
    exact ⟨y.2, rfl⟩

theorem good_of_reaches (h : Reaches F sc) : Good F sc := by
  induction h with
  | make F => exact good_make F
  | @call F sc sc' op _ step ih =>
    cases op with
    | setBufs nbufs bufsize allocated =>
      obtain ⟨res, heq⟩ := result_of_ok (x := setBufs sc nbufs bufsize allocated) step
      exact good_setBufs_ok ih heq
    | setOffset offset =>
      cases step
      exact ⟨ih.last, ih.size, ih.bufs, ih.saved⟩
    | forgetBuffers =>
      cases step
      exact ih.mapBufs fun b hb => holds_forgetBuf hb
    | getBytes off nbytes =>
      obtain ⟨res, heq⟩ := result_of_ok (x := getBytes (readsFile F) (turns F) sc off nbytes) step
      by_cases hneg : off + sc.sc_offset < 0
      · unfold getBytes at heq
        rw [if_pos hneg] at heq
        cases heq
      · obtain ⟨sc1, heq1, hgood, -⟩ :=
          getBytes_spec ih off nbytes (Int.toNat_of_nonneg (Int.not_lt.mp hneg)).symm
        rw [heq1] at heq
        cases heq
        exact hgood
    | getString off c =>
      obtain ⟨res, heq⟩ := result_of_ok (x := getString (readsFile F) (turns F) sc off c) step
      by_cases hneg : off + sc.sc_offset < 0
      · unfold getString at heq
        rw [if_pos hneg] at heq
        cases heq
      · obtain ⟨⟨sc1, heq1, hgood, -⟩, -⟩ | ⟨hfault, -⟩ :=
          getString_spec ih off c (Int.toNat_of_nonneg (Int.not_lt.mp hneg)).symm
        · rw [heq1] at heq
          cases heq
          exact hgood
        · rw [hfault] at heq
          cases heq
  | grow more _ ih =>
    refine ih.mapBufs fun b hb => ?_
    split
    · exact holds_forgetBuf hb
    · exact hb.grow more ‹_›

/-- After any calls, bytes that are asked for are those of the file, and so are strings, as long as
the saved line has room for them. -/
theorem reads_are_those_of_the_file (h : Reaches F sc) {off : Int} (hoff : 0 ≤ off + sc.sc_offset)
    (nbytes : Nat) (c : UInt8) :
    (∃ sc', getBytes (readsFile F) (turns F) sc off nbytes =
      .ok (sc', bytesAt F (off + sc.sc_offset).toNat nbytes)) ∧
      ((∃ sc', getString (readsFile F) (turns F) sc off c =
        .ok (sc', stringAt F (off + sc.sc_offset).toNat c)) ↔
          Meets F sc (off + sc.sc_offset).toNat c) := by
  have hgood := good_of_reaches h
  have heq := (Int.toNat_of_nonneg hoff).symm
  obtain ⟨sc1, hbytes, -, -⟩ := getBytes_spec hgood off nbytes heq
  refine ⟨⟨sc1, hbytes⟩, ?_⟩
  obtain ⟨⟨sc2, hstring, -, -⟩, hmeets⟩ | ⟨hfault, hnot⟩ := getString_spec hgood off c heq
  · exact ⟨fun _ => hmeets, fun _ => ⟨sc2, hstring⟩⟩
  · refine ⟨?_, fun hc => absurd hc hnot⟩
    rintro ⟨sc2, hstring⟩
    rw [hfault] at hstring
    cases hstring

/-- A file of four bytes in one buffer of two bytes. -/
theorem a_file_in_a_buffer_of_two_bytes : ∃ sc, Reaches [97, 98, 99, 10] sc ∧
    (∃ sc', getBytes (readsFile [97, 98, 99, 10]) (turns [97, 98, 99, 10]) sc 1 2 =
      .ok (sc', bytesAt [97, 98, 99, 10] 1 2)) ∧
      ((∃ sc', getString (readsFile [97, 98, 99, 10]) (turns [97, 98, 99, 10]) sc 1 10 =
        .ok (sc', stringAt [97, 98, 99, 10] 1 10)) ↔ Meets [97, 98, 99, 10] sc 1 10) :=
  ⟨_, .call (.setBufs 1 2 true) (.make _) rfl,
    reads_are_those_of_the_file (.call (.setBufs 1 2 true) (.make _) rfl) (by decide) 2 10⟩

/-- A string that is as long as the saved line that is made for it, and goes on into the next block,
leaves no room for the character behind it. -/
theorem a_string_as_long_as_a_buffer_does_not_fit : ∃ sc, Reaches [97, 98, 10] sc ∧
    getString (readsFile [97, 98, 10]) (turns [97, 98, 10]) sc 0 10 = .error .fault ∧
      stringAt [97, 98, 10] 0 10 = some [97, 98] :=
  ⟨_, .call (.setBufs 1 2 true) (.make _) rfl, by decide, by decide⟩

end ups_rules.strcache
