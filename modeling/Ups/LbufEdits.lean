-- The edit buffer is a sequence of bytes: each call of lbuf.c does to the list of blocks what
-- the plain operation does to the bytes.
import Ups.LbufBlocks

open linked_path

namespace ups_rules.lbuf

variable {file s : List Byte} {b b' : Bufdata} {bl pos : Nat} {l l1 l2 : List Nat} {v : Block}
  {env : Env}

/-! ## Buffers -/

theorem memcpy_length {buf src : List Byte} {off : Nat} (h : off + src.length ≤ buf.length) :
    (memcpy buf off src).length = buf.length := by
  rw [memcpy, List.length_append, List.length_append, List.length_take, List.length_drop]
  omega

/-- The bytes up to the end of what was copied. -/
theorem memcpy_take {buf src : List Byte} {off n : Nat} (hoff : off ≤ buf.length)
    (hn : n = off + src.length) : (memcpy buf off src).take n = buf.take off ++ src := by
  have hlen : (buf.take off ++ src).length = n := by
    rw [List.length_append, List.length_take]
    omega
  rw [memcpy, List.take_append_of_le_length (Nat.le_of_eq hlen.symm)]
  exact List.take_of_length_le (Nat.le_of_eq hlen)

theorem slice_length {buf : List Byte} {src n : Nat} (h : src + n ≤ buf.length) :
    ((buf.drop src).take n).length = n := by
  rw [List.length_take, List.length_drop]
  omega

theorem memmove_length {buf : List Byte} {dst src n : Nat} (hsrc : src + n ≤ buf.length)
    (hdst : dst + n ≤ buf.length) : (memmove buf dst src n).length = buf.length := by
  apply memcpy_length
  rw [slice_length hsrc]
  exact hdst

/-- Bytes are cut out of the middle of a block. -/
theorem memmove_cut {buf : List Byte} {len off zap : Nat} (hlen : len ≤ buf.length)
    (hzap : off + zap ≤ len) :
    (memmove buf off (off + zap) (len - (off + zap))).take (len - zap) =
      (buf.take len).take off ++ (buf.take len).drop (off + zap) := by
  have hslice : ((buf.drop (off + zap)).take (len - (off + zap))).length = len - (off + zap) :=
    slice_length (by omega)
  rw [memmove, memcpy_take (by omega) (by omega), List.take_take, Nat.min_eq_left (by omega),
    List.drop_take]

/-- Bytes are put into the middle of a block. -/
theorem memmove_open {buf src : List Byte} {len off : Nat} (hoff : off ≤ len)
    (hlen : len + src.length ≤ buf.length) :
    (memcpy (memmove buf (off + src.length) off (len - off)) off src).take (len + src.length) =
      (buf.take len).take off ++ src ++ (buf.take len).drop off := by
  have hslice : ((buf.drop off).take (len - off)).length = len - off := slice_length (by omega)
  have hmoved : (memmove buf (off + src.length) off (len - off)).take (len + src.length) =
      buf.take (off + src.length) ++ (buf.drop off).take (len - off) :=
    memcpy_take (by omega) (by omega)
  have hfront : (memmove buf (off + src.length) off (len - off)).take off = buf.take off := by
    have hcut := congrArg (List.take off) hmoved
    rwa [List.take_append_of_le_length (by rw [List.length_take]; omega), List.take_take,
      List.take_take, Nat.min_eq_left (by omega), Nat.min_eq_left (by omega)] at hcut
  have hback : ((memmove buf (off + src.length) off (len - off)).drop (off + src.length)).take
      (len - off) = (buf.drop off).take (len - off) := by
    have hcut := congrArg (List.drop (off + src.length)) hmoved
    have hlength : (buf.take (off + src.length)).length = off + src.length := by
      rw [List.length_take]
      omega
    rw [List.drop_take, List.drop_append_of_le_length (Nat.le_of_eq hlength.symm),
      List.drop_of_length_le (Nat.le_of_eq hlength), List.nil_append] at hcut
    rw [← hcut]
    congr 1
    omega
  have hlength : (buf.take off ++ src).length = off + src.length := by
    rw [List.length_append, List.length_take]
    omega
  rw [memcpy, hfront, List.take_append, hlength, List.take_of_length_le (by omega)]
  rw [show len + src.length - (off + src.length) = len - off by omega, hback, List.take_take,
    Nat.min_eq_left hoff, List.drop_take]

/-! ## Reading -/

/-- A position within `c`, which stands behind `a`. -/
theorem drop_into {a c t : List Byte} (ha : a.length ≤ pos) (hc : pos - a.length ≤ c.length) :
    (a ++ (c ++ t)).drop pos = c.drop (pos - a.length) ++ t := by
  rw [List.drop_append, List.drop_of_length_le ha, List.nil_append,
    List.drop_append_of_le_length hc]

theorem take_into {a c t : List Byte} (ha : a.length ≤ pos) (hc : pos - a.length ≤ c.length) :
    (a ++ (c ++ t)).take pos = a ++ c.take (pos - a.length) := by
  rw [List.take_append, List.take_of_length_le ha, List.take_append_of_le_length hc]

/-- The bytes before the block that was found, those of the block, and those behind it. -/
theorem Got.split {l1 l2 : List Nat} (h : Got file b b' l1 (bl :: l2) s pos) :
    ∃ t c text, s = bytes file b' l1 ++ (c ++ t) ∧ c.length = (b'.heap bl).blocklen ∧
      pos - (bytes file b' l1).length < c.length ∧ b'.textOf bl = .ok text ∧
      text.take (b'.heap bl).blocklen = c := by
  obtain ⟨t, ht⟩ := h.holds.front
  have hlen : (content file (b'.heap bl)).length = (b'.heap bl).blocklen :=
    content_length h.holds.shape.sized_at
  have hin := h.inside bl rfl
  have hbefore := h.before
  have hread := h.isRead bl rfl
  cases htext : (b'.heap bl).text with
  | none => exact absurd htext hread
  | some text =>
    refine ⟨bytes file b' l2 ++ t, content file (b'.heap bl), text, ?_, hlen, by omega, ?_, ?_⟩
    · rw [← ht, bytes_append, bytes_cons, List.append_assoc, List.append_assoc]
    · rw [Bufdata.textOf, htext]
    · rw [content, htext]

theorem lbufGetBytes_spec (henv : ReadsFile env file) (h : Holds file b l s)
    (hblocksize : 0 < b.blocksize) (hpos : pos < s.length) :
    ∃ b' run, lbufGetBytes env b pos = .ok (b', some run) ∧ Represents file b' s ∧
      b'.blocksize = b.blocksize ∧ run ≠ [] ∧ run <+: s.drop pos := by
  obtain ⟨b1, l1, l2, hget, hgot⟩ := getBlock_spec henv h hblocksize (Nat.le_of_lt hpos)
  have hbuflen := h.buflen
  unfold lbufGetBytes
  rw [if_neg (by omega), hget]
  cases l2 with
  | nil =>
    have hend := (hgot.atEnd rfl).2
    omega
  | cons bl l2 =>
    obtain ⟨t, c, text, hs, hc, hoff, htext, rfl⟩ := hgot.split
    dsimp only [bind, Except.bind, List.head?_cons]
    rw [htext]
    refine ⟨b1, _, rfl, ⟨_, hgot.holds⟩, hgot.blocksize, ?_, ?_⟩
    · rw [← List.drop_take]
      intro hnil
      have hle := List.drop_eq_nil_iff.mp hnil
      omega
    · rw [← List.drop_take, hs, drop_into hgot.before (Nat.le_of_lt hoff)]
      exact List.prefix_append _ _

theorem lbufGetBytesBefore_spec (henv : ReadsFile env file) (h : Holds file b l s)
    (hblocksize : 0 < b.blocksize) (hpos : 0 < pos) (hlen : pos ≤ s.length) :
    ∃ b' run, lbufGetBytesBefore env b pos = .ok (b', some run) ∧ Represents file b' s ∧
      b'.blocksize = b.blocksize ∧ run ≠ [] ∧ run <:+ s.take pos := by
  obtain ⟨b1, l1, l2, hget, hgot⟩ :=
    getBlock_spec henv h hblocksize (show pos - 1 ≤ s.length by omega)
  have hbuflen := h.buflen
  unfold lbufGetBytesBefore
  rw [if_neg (by omega), hget]
  cases l2 with
  | nil =>
    have hend := (hgot.atEnd rfl).2
    omega
  | cons bl l2 =>
    obtain ⟨t, c, text, hs, hc, hoff, htext, htake⟩ := hgot.split
    have hbefore := hgot.before
    have hrun : text.take (pos - 1 - (bytes file b1 l1).length + 1) =
        c.take (pos - (bytes file b1 l1).length) := by
      rw [← htake, List.take_take]
      congr 1
      omega
    dsimp only [bind, Except.bind, List.head?_cons]
    rw [htext]
    refine ⟨b1, _, rfl, ⟨_, hgot.holds⟩, hgot.blocksize, ?_, ?_⟩
    · rw [hrun]
      intro hnil
      have hzero := congrArg List.length hnil
      rw [List.length_take, List.length_nil] at hzero
      omega
    · rw [hrun, hs, take_into (by omega) (by omega)]
      exact List.suffix_append _ _

/-! ## What an edit keeps -/

/-- The list of all blocks, with the length kept beside it. -/
structure Solid (file : List Byte) (b : Bufdata) (l : List Nat) : Prop where
  shape : Shape file b l
  buflen : b.buflen = (bytes file b l).length

def Filled (b : Bufdata) (l : List Nat) : Prop := ∀ bl ∈ l, 0 < (b.heap bl).blocklen

theorem Holds.of_solid (h : Solid file b l) (hfilled : Filled b l) (hplaced : Placed file b l) :
    Holds file b l (bytes file b l) :=
  ⟨h.shape, hfilled, List.prefix_refl _, Or.inl rfl, h.buflen, hplaced⟩

theorem Solid.set (h : Solid file b (l1 ++ bl :: l2)) (hnext : v.next = (b.heap bl).next)
    (hsized : Sized file b.blocksize v) {n : Nat}
    (hn : n + (b.heap bl).blocklen = b.buflen + v.blocklen) :
    Solid file { b.setBlock bl v with buflen := n } (l1 ++ bl :: l2) := by
  have hshape := h.shape.set hnext hsized
  have hbytes : bytes file { b.setBlock bl v with buflen := n } (l1 ++ bl :: l2) =
      bytes file b l1 ++ (content file v ++ bytes file b l2) := h.shape.bytes_set
  refine ⟨⟨hshape.path, hshape.nodup, hshape.old, hshape.sized⟩, ?_⟩
  have hbuflen := h.buflen
  have hold := content_length h.shape.sized_at
  have hnew := content_length hsized
  rw [bytes_append, bytes_cons, List.length_append, List.length_append] at hbuflen
  rw [hbytes, List.length_append, List.length_append]
  dsimp only
  omega

/-- A block with another text and length. -/
def Block.holding (blk : Block) (text : List Byte) (n : Nat) : Block :=
  { blk with text := some text, blocklen := n }

/-- One block has other bytes, which are in its text. -/
structure Changed (file : List Byte) (b b' : Bufdata) (bl : Nat) (c : List Byte) : Prop where
  content : content file (b'.heap bl) = c
  isRead : (b'.heap bl).text ≠ none
  others : ∀ x, x ≠ bl → b'.heap x = b.heap x
  same : Same b b'

theorem Changed.trans {b1 b2 b3 : Bufdata} {c d : List Byte} (h1 : Changed file b1 b2 bl c)
    (h2 : Changed file b2 b3 bl d) : Changed file b1 b3 bl d :=
  ⟨h2.content, h2.isRead, fun x hx => (h2.others x hx).trans (h1.others x hx),
    h1.same.trans h2.same⟩

theorem Changed.bytes {c : List Byte} (h : Changed file b b' bl c) (hl : bl ∉ l) :
    bytes file b' l = bytes file b l := by
  apply bytes_congr
  intro x hx
  rw [h.others x]
  rintro rfl
  exact hl hx

theorem Changed.bytes_at {c : List Byte} (h : Changed file b b' bl c)
    (hshape : Shape file b (l1 ++ bl :: l2)) :
    lbuf.bytes file b' (l1 ++ bl :: l2) = lbuf.bytes file b l1 ++ (c ++ lbuf.bytes file b l2) := by
  rw [bytes_append, bytes_cons, h.bytes hshape.notMem_front, h.bytes hshape.notMem_back, h.content]

theorem Solid.hold (h : Solid file b (l1 ++ bl :: l2)) {text : List Byte} {m n : Nat}
    (htext : text.length = b.blocksize) (hm : m ≤ b.blocksize)
    (hn : n + (b.heap bl).blocklen = b.buflen + m) :
    ∃ b', { b.setBlock bl ((b.heap bl).holding text m) with buflen := n } = b' ∧
      Solid file b' (l1 ++ bl :: l2) ∧ Changed file b b' bl (text.take m) ∧
      (b'.heap bl).blocklen = m := by
  have hsized : Sized file b.blocksize ((b.heap bl).holding text m) := by
    refine ⟨hm, ?_, ?_⟩
    · intro t ht
      cases ht
      exact htext
    · intro ht
      cases ht
  have hself : ({ b.setBlock bl ((b.heap bl).holding text m) with buflen := n } : Bufdata).heap bl =
      (b.heap bl).holding text m := setBlock_heap_self
  refine ⟨_, rfl, h.set (v := (b.heap bl).holding text m) rfl hsized hn,
    ⟨?_, ?_, ?_, ⟨rfl, rfl, rfl, rfl⟩⟩, ?_⟩
  · rw [hself]
    rfl
  · rw [hself]
    exact Option.some_ne_none text
  · intro x hx
    exact setBlock_heap_of_ne hx
  · rw [hself]
    rfl

theorem Solid.length_at (h : Solid file b (l1 ++ bl :: l2)) :
    (content file (b.heap bl)).length = (b.heap bl).blocklen :=
  content_length h.shape.sized_at

theorem Solid.buflen_split (h : Solid file b (l1 ++ bl :: l2)) :
    b.buflen = (bytes file b l1).length + ((b.heap bl).blocklen + (bytes file b l2).length) := by
  rw [h.buflen, bytes_append, bytes_cons, List.length_append, List.length_append, h.length_at]

theorem Filled.changed {c : List Byte} (h : Filled b l) (hchanged : Changed file b b' bl c)
    (hc : 0 < (b'.heap bl).blocklen) : Filled b' l := by
  intro x hx
  by_cases hxbl : x = bl
  · rw [hxbl]
    exact hc
  · rw [hchanged.others x hxbl]
    exact h x hx

theorem Changed.relinked {c : List Byte} (h : Changed file b b' bl c) {x : Nat} (hx : x ≠ bl) :
    Relinked b b' x := Relinked.of_eq (h.others x hx)

/-- After `needText` the bytes of the block are in its text. -/
theorem Solid.needText (henv : ReadsFile env file) (h : Solid file b (l1 ++ bl :: l2)) :
    ∃ b' text, needText env b bl = .ok b' ∧ Solid file b' (l1 ++ bl :: l2) ∧
      Changed file b b' bl (content file (b.heap bl)) ∧ (b'.heap bl).text = some text ∧
      (b'.heap bl).blocklen = (b.heap bl).blocklen := by
  obtain ⟨text, n, hread, hlen, htake⟩ := needText_spec henv h.shape.sized_at
  have hroom := h.shape.sized_at.room
  obtain ⟨b1, hb1, hsolid, hchanged, hlength⟩ :=
    h.hold (m := (b.heap bl).blocklen) (n := b.buflen) hlen hroom rfl
  rw [htake] at hchanged
  have hb : { b1 with reads := n } = { b.setBlock bl ((b.heap bl).withText text) with
      reads := n } := by
    rw [← hb1]
    rfl
  have htext : (b1.heap bl).text = some text := by
    rw [← hb1]
    exact congrArg Block.text setBlock_heap_self
  refine ⟨{ b1 with reads := n }, text, ?_, ?_, ?_, htext, hlength⟩
  · rw [hb]
    exact hread
  · exact ⟨⟨hsolid.shape.path, hsolid.shape.nodup, hsolid.shape.old, hsolid.shape.sized⟩,
      hsolid.buflen⟩
  · exact ⟨hchanged.content, hchanged.isRead, hchanged.others,
      hchanged.same.trans ⟨rfl, rfl, rfl, rfl⟩⟩

/-- A block is taken out of the list. -/
theorem Solid.remove (h : Solid file b (l1 ++ bl :: l2)) {n : Nat}
    (hn : n + (b.heap bl).blocklen = b.buflen) :
    Solid file { b.setLink (lastOf none l1) (b.heap bl).next with buflen := n } (l1 ++ l2) := by
  have hrelinked : ∀ x, Relinked b (b.setLink (lastOf none l1) (b.heap bl).next) x :=
    setLink_relinked _ _
  have hsub : ∀ x ∈ l1 ++ l2, x ∈ l1 ++ bl :: l2 := by
    intro x hx
    exact List.perm_middle.mem_iff.mpr (List.mem_cons_of_mem bl hx)
  refine ⟨⟨?_, ?_, ?_, ?_⟩, ?_⟩
  · apply path_remove h.shape.path h.shape.nodup
    · exact link_setLink_self ..
    · intro q hq
      exact link_setLink_of_ne hq _
  · exact (List.nodup_cons.mp (List.nodup_middle.mp h.shape.nodup)).2
  · intro x hx
    dsimp only
    rw [setLink_nblocks]
    exact h.shape.old x (hsub x hx)
  · intro x hx
    dsimp only
    rw [(setLink_same _ _).blocksize]
    exact (hrelinked x).sized (h.shape.sized x (hsub x hx))
  · have hbytes : bytes file { b.setLink (lastOf none l1) (b.heap bl).next with buflen := n }
        (l1 ++ l2) = bytes file b (l1 ++ l2) := bytes_relinked fun x _ => hrelinked x
    have hbuflen := h.buflen
    have hlen := h.length_at
    rw [bytes_append, bytes_cons, List.length_append, List.length_append] at hbuflen
    rw [hbytes, bytes_append, List.length_append]
    dsimp only
    omega

/-- The place of a search is kept only when it lies before the position. -/
theorem Got.forget (h : Got file b b' l1 l2 s pos) (hdone : b.done_all_file_offsets = true) :
    ∃ b3, forgetPlace b' pos = b3 ∧ Solid file b3 (l1 ++ l2) ∧ Filled b3 (l1 ++ l2) ∧
      bytes file b3 (l1 ++ l2) = s ∧ (∀ x, b3.heap x = b'.heap x) ∧
      b3.blocksize = b.blocksize ∧ b3.done_all_file_offsets = true ∧ (b3.lastprev = none ∨
        (bytes file b3 l1).length < pos ∧ Placed file b3 l1) := by
  have hholds := h.holds
  have hdone' := h.done.trans hdone
  have hall := hholds.whole hdone'
  have hbuflen := hholds.buflen
  rw [← hall] at hbuflen
  unfold forgetPlace
  by_cases hforget : pos ≤ b'.lastpos
  · rw [if_pos hforget]
    exact ⟨_, rfl, ⟨⟨hholds.shape.path, hholds.shape.nodup, hholds.shape.old,
      hholds.shape.sized⟩, hbuflen⟩, hholds.nonempty, hall, fun _ => rfl, h.blocksize, hdone',
      Or.inl rfl⟩
  · rw [if_neg hforget]
    refine ⟨_, rfl, ⟨hholds.shape, hbuflen⟩, hholds.nonempty, hall, fun _ => rfl, h.blocksize,
      hdone', Or.inr ⟨?_, Or.inr ⟨l1, List.prefix_refl l1, h.lastprev, h.lastpos⟩⟩⟩
    rw [← h.lastpos]
    exact Nat.not_le.mp hforget

/-! ## Deleting -/

theorem cutBlock_spec {text : List Byte} {off : Nat} (zap : Nat) (htext : (b.heap bl).text = some text)
    (hroom : (b.heap bl).blocklen ≤ text.length) (hoff : off < (b.heap bl).blocklen) :
    ∃ n text', cutBlock b bl off zap = .ok (n, some text') ∧ text'.length = text.length ∧
      n = min zap ((b.heap bl).blocklen - off) ∧
      text'.take ((b.heap bl).blocklen - n) =
        (text.take (b.heap bl).blocklen).take off ++ (text.take (b.heap bl).blocklen).drop (off + n)
      := by
  unfold cutBlock
  by_cases hend : (b.heap bl).blocklen ≤ off + zap
  · refine ⟨(b.heap bl).blocklen - off, text, ?_, rfl, ?_, ?_⟩
    · dsimp only
      rw [if_pos hend, htext]
    · omega
    · rw [Nat.add_sub_cancel' (Nat.le_of_lt hoff), Nat.sub_sub_self (Nat.le_of_lt hoff),
        List.drop_of_length_le (by rw [List.length_take]; omega), List.append_nil, List.take_take]
      congr 1
      omega
  · refine ⟨zap, memmove text off (off + zap) ((b.heap bl).blocklen - (off + zap)), ?_, ?_, ?_, ?_⟩
    · dsimp only
      rw [if_neg hend, Bufdata.textOf, htext]
      rfl
    · exact memmove_length (by omega) (by omega)
    · omega
    · exact memmove_cut hroom (by omega)

theorem zapWithin_spec (h : Solid file b (l1 ++ l2)) (hfilled : Filled b (l1 ++ l2)) {off zap : Nat}
    (hin : ∀ bl ∈ l2.head?, off < (b.heap bl).blocklen ∧ (b.heap bl).text ≠ none)
    (hnil : l2 = [] → off = 0) (hzap : off + zap ≤ (bytes file b l2).length) :
    ∃ b' m1 m2 zap', zapWithin b (lastOf none l1) l2.head? off zap =
        .ok (b', lastOf none (l1 ++ m1), m2.head?, zap') ∧
      Solid file b' ((l1 ++ m1) ++ m2) ∧ Filled b' ((l1 ++ m1) ++ m2) ∧ Same b b' ∧
      (∀ x ∈ l1, Relinked b b' x) ∧ zap' ≤ (bytes file b' m2).length ∧
      bytes file b' m1 ++ (bytes file b' m2).drop zap' =
        (bytes file b l2).take off ++ (bytes file b l2).drop (off + zap) := by
  unfold zapWithin
  by_cases hoff : off = 0
  · subst hoff
    rw [if_pos rfl]
    rw [Nat.zero_add] at hzap ⊢
    refine ⟨b, [], l2, zap, by rw [List.append_nil], ?_, ?_, Same.refl b, ?_, hzap, rfl⟩
    · rwa [List.append_nil]
    · rwa [List.append_nil]
    · intro x _
      exact Relinked.of_eq rfl
  · rw [if_neg hoff]
    cases l2 with
    | nil => exact absurd (hnil rfl) hoff
    | cons bl l2 =>
      obtain ⟨hlt, htext⟩ := hin bl rfl
      have hlen := h.length_at
      have hsized := h.shape.sized_at
      have hroom := hsized.room
      rw [bytes_cons, List.length_append] at hzap
      obtain ⟨text, htext⟩ := Option.ne_none_iff_exists'.mp htext
      have hbuffer := hsized.buffer text htext
      have hc : content file (b.heap bl) = text.take (b.heap bl).blocklen := by
        rw [content, htext]
      obtain ⟨n, text', hcut, hlength, hn, htake⟩ :=
        cutBlock_spec zap htext (by omega) hlt
      rw [← hc] at htake
      have hbuflen := h.buflen
      rw [bytes_append, bytes_cons, List.length_append, List.length_append] at hbuflen
      obtain ⟨b', hb', hsolid, hchanged, hlen'⟩ := h.hold (m := (b.heap bl).blocklen - n)
        (n := b.buflen - n) (hlength.trans hbuffer) (by omega) (by omega)
      rw [htake] at hchanged
      dsimp only [List.head?_cons]
      rw [hcut]
      have hsplit : l1 ++ bl :: l2 = (l1 ++ [bl]) ++ l2 := by simp
      rw [hsplit] at hsolid
      have hnext : (b.heap bl).next = l2.head? := (path_append.mp h.shape.path).2.head
      refine ⟨b', [bl], l2, zap - n, ?_, hsolid, ?_, hchanged.same, ?_, ?_, ?_⟩
      · rw [lastOf_append, ← hnext, ← hb']
        rfl
      · rw [← hsplit]
        exact hfilled.changed hchanged (by omega)
      · intro x hx
        apply Relinked.of_eq
        apply hchanged.others
        rintro rfl
        exact h.shape.notMem_front hx
      · rw [hchanged.bytes h.shape.notMem_back]
        omega
      · rw [bytes_cons, bytes_nil, List.append_nil, hchanged.content,
          hchanged.bytes h.shape.notMem_back, bytes_cons, List.append_assoc,
          List.take_append_of_le_length (by omega)]
        congr 1
        rw [List.drop_append]
        by_cases hend : (b.heap bl).blocklen ≤ off + zap
        · have hcut : (content file (b.heap bl)).drop (off + n) = [] :=
            List.drop_of_length_le (by omega)
          have hcut' : (content file (b.heap bl)).drop (off + zap) = [] :=
            List.drop_of_length_le (by omega)
          rw [hcut, hcut']
          congr 2
          omega
        · have hall : n = zap := by omega
          rw [hall, Nat.sub_self, List.drop_zero]
          congr 1
          rw [Nat.sub_eq_zero_of_le (by omega), List.drop_zero]

theorem zapBlocks_spec (fuel : Nat) {zap : Nat} (h : Solid file b (l1 ++ l2))
    (hfilled : Filled b (l1 ++ l2)) (hzap : zap ≤ (bytes file b l2).length) (hfuel : zap < fuel) :
    ∃ b' m2 zap', zapBlocks fuel b (lastOf none l1) l2.head? zap = .ok (b', m2.head?, zap') ∧
      Solid file b' (l1 ++ m2) ∧ Filled b' (l1 ++ m2) ∧ Same b b' ∧ (∀ x, Relinked b b' x) ∧
      (∀ bl ∈ m2.head?, zap' < (b'.heap bl).blocklen) ∧ (m2 = [] → zap' = 0) ∧
      (bytes file b' m2).drop zap' = (bytes file b l2).drop zap := by
  induction fuel generalizing b l2 zap with
  | zero => omega
  | succ fuel ih =>
    have hrefl : ∀ x, Relinked b b x := fun x => Relinked.of_eq rfl
    cases l2 with
    | nil =>
      refine ⟨b, [], zap, rfl, h, hfilled, Same.refl b, hrefl, ?_, ?_, rfl⟩
      · intro bl hbl
        cases hbl
      · intro _
        exact Nat.le_zero.mp hzap
    | cons bl l2 =>
      have hlen := h.length_at
      have hbuflen := h.buflen
      rw [bytes_append, bytes_cons, List.length_append, List.length_append] at hbuflen
      rw [bytes_cons, List.length_append] at hzap
      dsimp only [zapBlocks, List.head?_cons]
      by_cases hlt : zap < (b.heap bl).blocklen
      · rw [if_pos hlt]
        refine ⟨b, bl :: l2, zap, rfl, h, hfilled, Same.refl b, hrefl, ?_, ?_, rfl⟩
        · intro x hx
          cases hx
          exact hlt
        · intro hnil
          cases hnil
      · rw [if_neg hlt]
        have hpositive : 0 < (b.heap bl).blocklen := hfilled bl (by simp)
        have hnext : (b.heap bl).next = l2.head? := (path_append.mp h.shape.path).2.head
        have hsolid := h.remove (n := b.buflen - (b.heap bl).blocklen) (by omega)
        have hrelinked : ∀ x, Relinked b (b.setLink (lastOf none l1) (b.heap bl).next) x :=
          setLink_relinked _ _
        have hbytes : bytes file { b.setLink (lastOf none l1) (b.heap bl).next with
            buflen := b.buflen - (b.heap bl).blocklen } l2 = bytes file b l2 :=
          bytes_relinked fun x _ => hrelinked x
        have hfilled' : Filled { b.setLink (lastOf none l1) (b.heap bl).next with
            buflen := b.buflen - (b.heap bl).blocklen } (l1 ++ l2) := by
          intro x hx
          have hx2 : x ∈ l1 ++ bl :: l2 := List.perm_middle.mem_iff.mpr (List.mem_cons_of_mem bl hx)
          dsimp only
          rw [(hrelinked x).blocklen]
          exact hfilled x hx2
        have hsame : Same b { b.setLink (lastOf none l1) (b.heap bl).next with
            buflen := b.buflen - (b.heap bl).blocklen } :=
          (setLink_same _ _).trans ⟨rfl, rfl, rfl, rfl⟩
        have hzap' : zap - (b.heap bl).blocklen ≤ (bytes file { b.setLink (lastOf none l1)
            (b.heap bl).next with buflen := b.buflen - (b.heap bl).blocklen } l2).length := by
          rw [hbytes]
          omega
        obtain ⟨b', m2, zap', hrun, hsolid', hfill', hsame', hrel', hlt', hnil', hdrop⟩ :=
          ih hsolid hfilled' hzap' (by omega)
        rw [setLink_buflen, hnext]
        rw [hnext] at hrun
        refine ⟨b', m2, zap', hrun, hsolid', hfill', hsame.trans hsame', ?_, hlt', hnil', ?_⟩
        · intro x
          exact (hrelinked x).trans (hrel' x)
        · rw [hdrop, hbytes, bytes_cons, List.drop_append,
            List.drop_of_length_le (show (content file (b.heap bl)).length ≤ zap by omega),
            List.nil_append, hlen]

theorem zapFront_spec (henv : ReadsFile env file) {zap : Nat} (h : Solid file b (l1 ++ l2))
    (hfilled : Filled b (l1 ++ l2)) (hlt : ∀ bl ∈ l2.head?, zap < (b.heap bl).blocklen)
    (hnil : l2 = [] → zap = 0) :
    ∃ b', zapFront env b l2.head? zap = .ok b' ∧ Solid file b' (l1 ++ l2) ∧
      Filled b' (l1 ++ l2) ∧ Same b b' ∧ (∀ x ∈ l1, Relinked b b' x) ∧
      bytes file b' l2 = (bytes file b l2).drop zap := by
  unfold zapFront
  by_cases hzap : zap = 0
  · subst hzap
    rw [if_pos rfl]
    exact ⟨b, rfl, h, hfilled, Same.refl b, fun x _ => Relinked.of_eq rfl, rfl⟩
  · rw [if_neg hzap]
    cases l2 with
    | nil => exact absurd (hnil rfl) hzap
    | cons bl l2 =>
      obtain ⟨b1, text, hread, h1, hchanged1, htext, hsamelen⟩ := h.needText henv
      have hlt := hlt bl rfl
      have hroom := h1.shape.sized_at.room
      have hlength := h1.shape.sized_at.buffer text htext
      have hlen := h1.length_at
      have hbuflen := h1.buflen_split
      have hcontent := hchanged1.content
      rw [content, htext] at hcontent
      dsimp only at hcontent
      dsimp only [List.head?_cons, bind, Except.bind]
      rw [hread]
      dsimp only
      rw [Bufdata.textOf, htext]
      have hmoved : (memmove text 0 zap ((b1.heap bl).blocklen - zap)).length = b1.blocksize :=
        (memmove_length (by omega) (by omega)).trans hlength
      have hcut : (memmove text 0 (0 + zap) ((b1.heap bl).blocklen - (0 + zap))).take
            ((b1.heap bl).blocklen - zap) =
          (text.take (b1.heap bl).blocklen).take 0 ++
            (text.take (b1.heap bl).blocklen).drop (0 + zap) :=
        memmove_cut (by omega) (by omega)
      rw [Nat.zero_add, List.take_zero, List.nil_append, hcontent] at hcut
      obtain ⟨b2, hb2, h2, hchanged2, hlen2⟩ := h1.hold (m := (b1.heap bl).blocklen - zap)
        (n := b1.buflen - zap) hmoved (by omega) (by omega)
      rw [hcut] at hchanged2
      have hfilled1 : Filled b1 (l1 ++ bl :: l2) := hfilled.changed hchanged1 (by omega)
      refine ⟨b2, ?_, h2, hfilled1.changed hchanged2 (by omega),
        hchanged1.same.trans hchanged2.same, ?_, ?_⟩
      · rw [← hb2]
        rfl
      · intro x hx
        have hne : x ≠ bl := by
          rintro rfl
          exact h.shape.notMem_front hx
        exact (hchanged1.relinked hne).trans (hchanged2.relinked hne)
      · rw [bytes_cons, hchanged2.content, hchanged2.bytes h.shape.notMem_back,
          hchanged1.bytes h.shape.notMem_back, bytes_cons,
          List.drop_append_of_le_length (by rw [h.length_at]; omega)]

theorem lbufDelete_spec (henv : ReadsFile env file) (h : Holds file b l s)
    (hblocksize : 0 < b.blocksize) {zap : Nat} (hzap : pos + zap ≤ s.length) :
    ∃ b', lbufDelete env b pos zap = .ok b' ∧
      Represents file b' (s.take pos ++ s.drop (pos + zap)) ∧ b'.blocksize = b.blocksize := by
  obtain ⟨b1, l', hset, h1, hdone, hsize1⟩ := setAllFileOffsets_spec henv h hblocksize
  obtain ⟨b2, l1, l2, hget, hgot⟩ := getBlock_spec henv h1 (hsize1 ▸ hblocksize)
    (show pos ≤ s.length by omega)
  obtain ⟨b3, hforget, h3, hfilled3, hs, hheap, hsize3, hdone3, hplaced3⟩ := hgot.forget hdone
  have hbytes1 : bytes file b2 l1 = bytes file b3 l1 :=
    bytes_congr fun x _ => by rw [hheap x]
  have hbefore := hgot.before
  rw [hbytes1] at hbefore
  rw [bytes_append] at hs
  have hlen := congrArg List.length hs
  rw [List.length_append] at hlen
  have hin : ∀ bl ∈ l2.head?, pos - (bytes file b3 l1).length < (b3.heap bl).blocklen ∧
      (b3.heap bl).text ≠ none := by
    intro bl hbl
    have hinside := hgot.inside bl hbl
    rw [hbytes1] at hinside
    rw [hheap bl]
    exact ⟨by omega, hgot.isRead bl hbl⟩
  have hnil : l2 = [] → pos - (bytes file b3 l1).length = 0 := by
    rintro rfl
    have hend := hgot.atEnd rfl
    rw [bytes_nil, List.length_nil] at hlen
    omega
  obtain ⟨b4, m1, m2, zap4, hwithin, h4, hfilled4, hsame4, hrel4, hzap4, hbytes4⟩ :=
    zapWithin_spec h3 hfilled3 hin hnil
      (show pos - (bytes file b3 l1).length + zap ≤ (bytes file b3 l2).length by omega)
  obtain ⟨b5, m3, zap5, hblocks, h5, hfilled5, hsame5, hrel5, hlt5, hnil5, hbytes5⟩ :=
    zapBlocks_spec (zap4 + 1) h4 hfilled4 hzap4 (by omega)
  obtain ⟨b6, hfront, h6, hfilled6, hsame6, hrel6, hbytes6⟩ :=
    zapFront_spec henv h5 hfilled5 hlt5 hnil5
  -- The blocks in front of the deletion are unchanged.
  have hrel46 : ∀ x ∈ l1 ++ m1, Relinked b4 b6 x := fun x hx => (hrel5 x).trans (hrel6 x hx)
  have hrel36 : ∀ x ∈ l1, Relinked b3 b6 x := fun x hx =>
    (hrel4 x hx).trans (hrel46 x (List.mem_append_left m1 hx))
  have hm1 : bytes file b6 m1 = bytes file b4 m1 :=
    bytes_relinked fun x hx => hrel46 x (List.mem_append_right l1 hx)
  have hl1 : bytes file b6 l1 = bytes file b3 l1 := bytes_relinked hrel36
  have hresult : bytes file b6 ((l1 ++ m1) ++ m3) = s.take pos ++ s.drop (pos + zap) := by
    have htake : s.take pos = bytes file b3 l1 ++
        (bytes file b3 l2).take (pos - (bytes file b3 l1).length) := by
      rw [← hs, List.take_append, List.take_of_length_le hbefore]
    have hdrop : s.drop (pos + zap) =
        (bytes file b3 l2).drop (pos - (bytes file b3 l1).length + zap) := by
      rw [← hs, List.drop_append, List.drop_of_length_le (by omega), List.nil_append]
      congr 1
      omega
    calc bytes file b6 ((l1 ++ m1) ++ m3)
        = bytes file b3 l1 ++ (bytes file b4 m1 ++ (bytes file b4 m2).drop zap4) := by
          rw [bytes_append, bytes_append, hl1, hm1, hbytes6, hbytes5, List.append_assoc]
      _ = s.take pos ++ s.drop (pos + zap) := by
          rw [hbytes4, htake, hdrop, List.append_assoc]
  have hsame36 : Same b3 b6 := hsame4.trans (hsame5.trans hsame6)
  have hplaced : Placed file b6 ((l1 ++ m1) ++ m3) := by
    rcases hplaced3 with hnone | ⟨-, hplaced⟩
    · exact Or.inl (hsame36.lastprev.trans hnone)
    · refine hplaced.mono hsame36 ?_ ((List.prefix_append l1 m1).trans (List.prefix_append _ m3))
      intro l hl
      exact bytes_relinked fun x hx => hrel36 x (hl.subset hx)
  have hbuflen := h6.buflen
  rw [hresult, List.length_append, List.length_take, List.length_drop] at hbuflen
  have hbuflen1 := h1.buflen
  refine ⟨b6, ?_, ⟨(l1 ++ m1) ++ m3, ?_⟩, ?_⟩
  · unfold lbufDelete
    dsimp only [bind, Except.bind]
    rw [hset]
    dsimp only
    rw [if_neg (by omega), hget]
    dsimp only
    rw [hforget, hbytes1, hwithin]
    dsimp only
    rw [hblocks]
    dsimp only
    rw [hfront]
    dsimp only
    rw [if_pos (by omega)]
  · rw [← hresult]
    exact Holds.of_solid h6 hfilled6 hplaced
  · rw [hsame36.blocksize, hsize3, hsize1]

/-! ## Inserting -/

/-- The text of a block after a transfer to it. -/
theorem transfer_text {text src : List Byte} {len off : Nat} (hoff : off ≤ len)
    (hlen : len + src.length ≤ text.length) :
    ∃ text', memcpy (if off = len then text else memmove text (off + src.length) off (len - off))
        off src = text' ∧ text'.length = text.length ∧
      text'.take (len + src.length) =
        (text.take len).take off ++ src ++ (text.take len).drop off := by
  refine ⟨_, rfl, ?_⟩
  by_cases hend : off = len
  · subst hend
    rw [if_pos rfl]
    refine ⟨memcpy_length hlen, ?_⟩
    rw [memcpy_take (by omega) rfl, List.take_take, Nat.min_self, List.drop_take, Nat.sub_self,
      List.take_zero, List.append_nil]
  · rw [if_neg hend]
    have hmoved : (memmove text (off + src.length) off (len - off)).length = text.length :=
      memmove_length (by omega) (by omega)
    refine ⟨(memcpy_length (by omega)).trans hmoved, ?_⟩
    exact memmove_open hoff hlen

theorem transfer_spec (h : Solid file b (l1 ++ bl :: l2)) (hread : (b.heap bl).text ≠ none)
    {off : Nat} (hoff : off ≤ (b.heap bl).blocklen) (src : List Byte) :
    ∃ b' n, transfer b bl off src = .ok (b', src.drop n) ∧
      n = min (b.blocksize - (b.heap bl).blocklen) src.length ∧ Solid file b' (l1 ++ bl :: l2) ∧
      Changed file b b' bl ((content file (b.heap bl)).take off ++ src.take n ++
        (content file (b.heap bl)).drop off) ∧
      (b'.heap bl).blocklen = (b.heap bl).blocklen + n := by
  obtain ⟨text, htext⟩ := Option.ne_none_iff_exists'.mp hread
  have hroom := h.shape.sized_at.room
  have hbuffer := h.shape.sized_at.buffer text htext
  have hc : content file (b.heap bl) = text.take (b.heap bl).blocklen := by
    rw [content, htext]
  unfold transfer
  dsimp only
  by_cases hfull : b.blocksize - (b.heap bl).blocklen = 0
  · refine ⟨b, 0, ?_, by omega, h, ⟨?_, hread, fun _ _ => rfl, Same.refl b⟩, rfl⟩
    · rw [if_pos hfull, List.drop_zero]
    · rw [List.take_zero, List.append_nil, List.take_append_drop]
  · rw [if_neg hfull, if_neg (Nat.not_lt.mpr hoff), Bufdata.textOf, htext]
    dsimp only [bind, Except.bind]
    obtain ⟨n, hn⟩ : ∃ n, n = min (b.blocksize - (b.heap bl).blocklen) src.length := ⟨_, rfl⟩
    rw [← hn]
    have hlen : (src.take n).length = n := by
      rw [List.length_take]
      omega
    obtain ⟨text', htext', hlength, htake⟩ := transfer_text hoff
      (show (b.heap bl).blocklen + (src.take n).length ≤ text.length by omega)
    rw [hlen] at htext' htake
    obtain ⟨b', hb', hsolid, hchanged, hlen'⟩ := h.hold (m := (b.heap bl).blocklen + n)
      (n := b.buflen + n) (hlength.trans hbuffer) (by omega) (by omega)
    rw [htake, ← hc] at hchanged
    refine ⟨b', n, ?_, rfl, hsolid, hchanged, hlen'⟩
    rw [htext', ← hb']
    rfl

theorem fillBlock_spec (h : Solid file b (l1 ++ bl :: l2)) (hread : (b.heap bl).text ≠ none)
    (instext residue : List Byte) :
    ∃ b' w instext' residue', fillBlock b bl instext residue = .ok (b', instext', residue') ∧
      Solid file b' (l1 ++ bl :: l2) ∧ Changed file b b' bl (content file (b.heap bl) ++ w) ∧
      (b'.heap bl).blocklen = (b.heap bl).blocklen + w.length ∧
      instext ++ residue = w ++ (instext' ++ residue') ∧
      w.length = min (b.blocksize - (b.heap bl).blocklen) (instext.length + residue.length) := by
  obtain ⟨b1, n1, htransfer1, hn1, h1, hchanged1, hlen1⟩ :=
    transfer_spec h hread (Nat.le_refl _) instext
  obtain ⟨b2, n2, htransfer2, hn2, h2, hchanged2, hlen2⟩ :=
    transfer_spec h1 hchanged1.isRead (Nat.le_refl _) residue
  have hfront : (content file (b.heap bl)).take (b.heap bl).blocklen = content file (b.heap bl) :=
    List.take_of_length_le (Nat.le_of_eq h.length_at)
  have hback : (content file (b.heap bl)).drop (b.heap bl).blocklen = [] :=
    List.drop_of_length_le (Nat.le_of_eq h.length_at)
  have hfront1 : (content file (b1.heap bl)).take (b1.heap bl).blocklen =
      content file (b1.heap bl) := List.take_of_length_le (Nat.le_of_eq h1.length_at)
  have hback1 : (content file (b1.heap bl)).drop (b1.heap bl).blocklen = [] :=
    List.drop_of_length_le (Nat.le_of_eq h1.length_at)
  rw [hfront, hback, List.append_nil] at hchanged1
  rw [hfront1, hback1, List.append_nil, hchanged1.content, List.append_assoc] at hchanged2
  rw [hchanged1.same.blocksize] at hn2
  have hw : (instext.take n1 ++ residue.take n2).length = n1 + n2 := by
    rw [List.length_append, List.length_take, List.length_take]
    omega
  refine ⟨b2, instext.take n1 ++ residue.take n2, instext.drop n1, residue.drop n2, ?_, h2,
    hchanged1.trans hchanged2, by omega, ?_, by omega⟩
  · unfold fillBlock
    rw [htransfer1]
    dsimp only [bind, Except.bind]
    rw [htransfer2]
  · -- The residue is only touched when all of the text fits.
    by_cases hall : instext.length ≤ n1
    · rw [List.take_of_length_le hall, List.drop_of_length_le hall, List.nil_append,
        List.append_assoc, List.take_append_drop]
    · have hzero : n2 = 0 := by omega
      rw [hzero, List.take_zero, List.append_nil, List.drop_zero, ← List.append_assoc,
        List.take_append_drop]

theorem Appended.solid (h : Solid file b (l1 ++ l2)) (happ : Appended file b b' bl l1 l2) :
    Solid file b' (l1 ++ bl :: l2) := by
  refine ⟨happ.shape, ?_⟩
  have hlen := content_length happ.shape.sized_at
  have hl1 : bytes file b' l1 = bytes file b l1 :=
    bytes_relinked fun x hx => happ.others x (List.mem_append_left l2 hx)
  have hl2 : bytes file b' l2 = bytes file b l2 :=
    bytes_relinked fun x hx => happ.others x (List.mem_append_right l1 hx)
  rw [bytes_append, bytes_cons, List.length_append, List.length_append, hl1, hl2, hlen,
    happ.blocklen, happ.buflen, h.buflen, bytes_append, List.length_append, Nat.zero_add]

theorem insertBlocks_spec (env : Env) (spare fuel : Nat) {instext residue : List Byte}
    (h : Solid file b (l1 ++ l2)) (hfilled : Filled b (l1 ++ l2)) (hblocksize : 0 < b.blocksize)
    (hfuel : instext.length + residue.length < fuel) :
    ∃ b' m instext' residue', insertBlocks env spare fuel b (lastOf none l1) (lastOf none l1)
        instext residue = .ok (b', lastOf none (l1 ++ m), instext', residue') ∧
      Solid file b' ((l1 ++ m) ++ l2) ∧ Filled b' ((l1 ++ m) ++ l2) ∧ Same b b' ∧
      (∀ x ∈ l1 ++ l2, Relinked b b' x) ∧
      instext ++ residue = bytes file b' m ++ (instext' ++ residue') ∧
      instext'.length + residue'.length ≤ spare := by
  induction fuel generalizing b l1 instext residue with
  | zero => omega
  | succ fuel ih =>
    unfold insertBlocks
    by_cases hfits : instext.length + residue.length ≤ spare
    · rw [if_pos hfits]
      refine ⟨b, [], instext, residue, ?_, ?_, ?_, Same.refl b, fun x _ => Relinked.of_eq rfl, rfl,
        hfits⟩
      · rw [List.append_nil]
      · rwa [List.append_nil]
      · rwa [List.append_nil]
    · rw [if_neg hfits]
      obtain ⟨b1, bl, happend, happ, htext⟩ := appendBlock_spec env h.shape true
      have h1 := happ.solid h
      have hempty : content file (b1.heap bl) = [] := by
        apply List.eq_nil_of_length_eq_zero
        rw [h1.length_at, happ.blocklen]
      have hread : (b1.heap bl).text ≠ none := by
        rw [htext, if_pos rfl]
        exact Option.some_ne_none _
      obtain ⟨b2, w, instext', residue', hfill, h2, hchanged, hlen, hsplit, hw⟩ :=
        fillBlock_spec h1 hread instext residue
      rw [happ.blocklen, happ.same.blocksize] at hw
      have hrel : ∀ x ∈ l1 ++ l2, Relinked b b2 x := by
        intro x hx
        have hne : x ≠ bl := by
          rintro rfl
          exact (List.nodup_cons.mp (List.nodup_middle.mp happ.shape.nodup)).1 hx
        exact (happ.others x hx).trans (hchanged.relinked hne)
      have hlist : l1 ++ bl :: l2 = (l1 ++ [bl]) ++ l2 := by simp
      have hfilled2 : Filled b2 (l1 ++ bl :: l2) := by
        intro x hx
        rcases List.mem_cons.mp (List.perm_middle.mem_iff.mp hx) with rfl | hx
        · omega
        · rw [(hrel x hx).blocklen]
          exact hfilled x hx
      rw [hlist] at h2 hfilled2
      have hsize2 : b2.blocksize = b.blocksize :=
        hchanged.same.blocksize.trans happ.same.blocksize
      have hlength := congrArg List.length hsplit
      rw [List.length_append, List.length_append, List.length_append] at hlength
      obtain ⟨b3, m, instext3, residue3, hrun, h3, hfilled3, hsame3, hrel3, hsplit3, hspare⟩ :=
        ih h2 hfilled2 (hsize2 ▸ hblocksize)
          (show instext'.length + residue'.length < fuel by omega)
      have hlist3 : l1 ++ bl :: m = (l1 ++ [bl]) ++ m := by simp
      have hsome : lastOf none (l1 ++ [bl]) = some bl := lastOf_append none l1 [bl]
      rw [hsome] at hrun
      refine ⟨b3, bl :: m, instext3, residue3, ?_, ?_, ?_, ?_, ?_, ?_, hspare⟩
      · rw [happend]
        dsimp only [bind, Except.bind]
        rw [hfill]
        dsimp only
        rw [hrun, hlist3]
      · rwa [hlist3]
      · rwa [hlist3]
      · exact happ.same.trans (hchanged.same.trans hsame3)
      · intro x hx
        have hmem : x ∈ (l1 ++ [bl]) ++ l2 := by
          rw [← hlist]
          exact List.perm_middle.mem_iff.mpr (List.mem_cons_of_mem bl hx)
        exact (hrel x hx).trans (hrel3 x hmem)
      · have hbl : content file (b3.heap bl) = w := by
          rw [(hrel3 bl (by simp)).content, hchanged.content, hempty, List.nil_append]
        rw [bytes_cons, hbl, hsplit, hsplit3, List.append_assoc]

/-- Room is only counted in a block behind another one. -/
theorem spareSpace_spec (h : Shape file b (l1 ++ l2)) : spareSpace b (lastOf none l1) = 0 ∨
    ∃ p bl l3, lastOf none l1 = some p ∧ (b.heap p).next = some bl ∧ l2 = bl :: l3 ∧
      spareSpace b (lastOf none l1) = b.blocksize - (b.heap bl).blocklen := by
  unfold spareSpace
  rcases lastOf_none l1 with ⟨hnone, -⟩ | ⟨k, p, hsome, -⟩
  · rw [hnone]
    exact Or.inl rfl
  · have hlink := h.path.link_lastOf
    rw [hsome, Bufdata.link] at hlink
    rw [hsome]
    dsimp only
    rw [hlink]
    cases l2 with
    | nil => exact Or.inl rfl
    | cons bl l3 => exact Or.inr ⟨p, bl, l3, rfl, hlink, rfl, rfl⟩

theorem insertFront_spec (henv : ReadsFile env file) {instext residue : List Byte}
    (h : Solid file b (l1 ++ l2)) (hfilled : Filled b (l1 ++ l2))
    (hroom : instext.length + residue.length = 0 ∨ ∃ p bl l3, lastOf none l1 = some p ∧
      (b.heap p).next = some bl ∧ l2 = bl :: l3 ∧
      instext.length + residue.length ≤ b.blocksize - (b.heap bl).blocklen) :
    ∃ b', insertFront env b (lastOf none l1) instext residue = .ok (b', [], []) ∧
      Solid file b' (l1 ++ l2) ∧ Filled b' (l1 ++ l2) ∧ Same b b' ∧
      (∀ x ∈ l1, Relinked b b' x) ∧
      bytes file b' l2 = (instext ++ residue) ++ bytes file b l2 := by
  unfold insertFront
  by_cases hzero : instext.length + residue.length = 0
  · have hins : instext = [] := List.eq_nil_of_length_eq_zero (by omega)
    have hres : residue = [] := List.eq_nil_of_length_eq_zero (by omega)
    subst hins hres
    rw [if_pos hzero]
    exact ⟨b, rfl, h, hfilled, Same.refl b, fun x _ => Relinked.of_eq rfl, rfl⟩
  · rw [if_neg hzero]
    obtain ⟨p, bl, l3, hlast, hnext, rfl, hfits⟩ := hroom.resolve_left hzero
    clear hroom
    obtain ⟨b1, text, hread, h1, hchanged1, htext, hsamelen⟩ := h.needText henv
    have hread1 : (b1.heap bl).text ≠ none := hchanged1.isRead
    obtain ⟨b2, n2, htransfer2, hn2, h2, hchanged2, hlen2⟩ :=
      transfer_spec h1 hread1 (Nat.zero_le _) instext
    rw [hchanged1.same.blocksize, hsamelen] at hn2
    have hall2 : n2 = instext.length := by omega
    rw [List.take_zero, List.nil_append, List.drop_zero, hall2, List.take_length,
      hchanged1.content] at hchanged2
    obtain ⟨b3, n3, htransfer3, hn3, h3, hchanged3, hlen3⟩ :=
      transfer_spec h2 hchanged2.isRead (show instext.length ≤ (b2.heap bl).blocklen by omega)
        residue
    rw [hchanged2.same.blocksize, hchanged1.same.blocksize, hlen2, hsamelen] at hn3
    have hall3 : n3 = residue.length := by omega
    rw [hchanged2.content, hall3, List.take_length, List.take_left, List.drop_left] at hchanged3
    have hchanged := hchanged1.trans (hchanged2.trans hchanged3)
    refine ⟨b3, ?_, h3, hfilled.changed hchanged (by omega), hchanged.same, ?_, ?_⟩
    · rw [hlast]
      dsimp only
      rw [hnext]
      dsimp only [bind, Except.bind]
      rw [hread]
      dsimp only
      rw [htransfer2, hall2, List.drop_length]
      dsimp only
      rw [htransfer3, hall3, List.drop_length]
    · intro x hx
      apply hchanged.relinked
      rintro rfl
      exact h.shape.notMem_front hx
    · rw [bytes_cons, hchanged.content, hchanged.bytes h.shape.notMem_back, bytes_cons,
        List.append_assoc]

theorem insertRest_spec (henv : ReadsFile env file) (instext residue : List Byte)
    (h : Solid file b (l1 ++ l2)) (hfilled : Filled b (l1 ++ l2)) (hblocksize : 0 < b.blocksize) :
    ∃ b' m, insertRest env b (lastOf none l1) (lastOf none l1) instext residue
        (b.buflen + (instext.length + residue.length)) = .ok b' ∧
      Solid file b' ((l1 ++ m) ++ l2) ∧ Filled b' ((l1 ++ m) ++ l2) ∧ Same b b' ∧
      (∀ x ∈ l1, Relinked b b' x) ∧ bytes file b' ((l1 ++ m) ++ l2) =
        bytes file b l1 ++ ((instext ++ residue) ++ bytes file b l2) := by
  obtain ⟨b1, m, instext1, residue1, hblocks, h1, hfilled1, hsame1, hrel1, hsplit1, hspare⟩ :=
    insertBlocks_spec env (spareSpace b (lastOf none l1)) (instext.length + residue.length + 1) h
      hfilled hblocksize (Nat.lt_succ_self _)
  have hroom : instext1.length + residue1.length = 0 ∨ ∃ p bl l3, lastOf none (l1 ++ m) = some p ∧
      (b1.heap p).next = some bl ∧ l2 = bl :: l3 ∧
      instext1.length + residue1.length ≤ b1.blocksize - (b1.heap bl).blocklen := by
    rcases spareSpace_spec h.shape with hzero | ⟨p, bl, l3, hlast, -, rfl, hroom⟩
    · exact Or.inl (by omega)
    · rcases lastOf_none (l1 ++ m) with ⟨-, hnil⟩ | ⟨k, q, hq, -⟩
      · rw [List.append_eq_nil_iff] at hnil
        rw [hnil.1] at hlast
        cases hlast
      · have hlink := h1.shape.path.link_lastOf
        rw [hq] at hlink
        refine Or.inr ⟨q, bl, l3, hq, hlink, rfl, ?_⟩
        rw [hsame1.blocksize, (hrel1 bl (by simp)).blocklen, ← hroom]
        exact hspare
  obtain ⟨b2, hfront, h2, hfilled2, hsame2, hrel2, hbytes2⟩ :=
    insertFront_spec henv h1 hfilled1 hroom
  have hl1 : ∀ x ∈ l1, Relinked b b2 x := fun x hx =>
    (hrel1 x (List.mem_append_left l2 hx)).trans (hrel2 x (List.mem_append_left m hx))
  have hm : bytes file b2 m = bytes file b1 m :=
    bytes_relinked fun x hx => hrel2 x (List.mem_append_right l1 hx)
  have hl2 : bytes file b1 l2 = bytes file b l2 :=
    bytes_relinked fun x hx => hrel1 x (List.mem_append_right l1 hx)
  have hresult : bytes file b2 ((l1 ++ m) ++ l2) =
      bytes file b l1 ++ ((instext ++ residue) ++ bytes file b l2) := by
    rw [bytes_append, bytes_append, bytes_relinked hl1, hm, hbytes2, hl2, hsplit1]
    simp only [List.append_assoc]
  refine ⟨b2, m, ?_, h2, hfilled2, hsame1.trans hsame2, hl1, hresult⟩
  have hbuflen := h2.buflen
  rw [hresult, List.length_append, List.length_append, List.length_append] at hbuflen
  have hbuflen0 := h.buflen
  rw [bytes_append, List.length_append] at hbuflen0
  unfold insertRest
  dsimp only [bind, Except.bind]
  rw [hblocks]
  dsimp only
  rw [hfront]
  dsimp only
  rw [if_pos ⟨rfl, by omega⟩]

/-- What is cut off a block to be put behind the inserted text. -/
theorem takeResidue_spec (h : Solid file b (l1 ++ bl :: l2)) {off : Nat}
    (hoff : off ≤ (b.heap bl).blocklen)
    (hread : off < (b.heap bl).blocklen → (b.heap bl).text ≠ none) :
    ∃ b', takeResidue b bl off = .ok (b', (content file (b.heap bl)).drop off) ∧
      Solid file b' (l1 ++ bl :: l2) ∧ content file (b'.heap bl) =
        (content file (b.heap bl)).take off ∧ (b'.heap bl).blocklen = off ∧
      (∀ x, x ≠ bl → b'.heap x = b.heap x) ∧ Same b b' := by
  have hlen := h.length_at
  unfold takeResidue
  dsimp only
  by_cases hend : (b.heap bl).blocklen - off = 0
  · have hall : off = (content file (b.heap bl)).length := by omega
    rw [if_pos hend, hall, List.drop_length, List.take_length]
    exact ⟨b, rfl, h, rfl, hlen.symm, fun _ _ => rfl, Same.refl b⟩
  · obtain ⟨text, htext⟩ := Option.ne_none_iff_exists'.mp (hread (by omega))
    have hroom := h.shape.sized_at.room
    have hbuffer := h.shape.sized_at.buffer text htext
    have hbuflen := h.buflen_split
    have hc : content file (b.heap bl) = text.take (b.heap bl).blocklen := by
      rw [content, htext]
    obtain ⟨b', hb', hsolid, hchanged, hlen'⟩ := h.hold (m := off)
      (n := b.buflen - ((b.heap bl).blocklen - off)) hbuffer (by omega) (by omega)
    have hheld : (b.heap bl).holding text off = { b.heap bl with
        blocklen := (b.heap bl).blocklen - ((b.heap bl).blocklen - off) } := by
      rw [Block.holding, ← htext, Nat.sub_sub_self hoff]
    rw [hheld] at hb'
    have htextOf : b.textOf bl = .ok text := by
      rw [Bufdata.textOf, htext]
    rw [if_neg hend, htextOf]
    refine ⟨b', ?_, hsolid, ?_, hlen', hchanged.others, hchanged.same⟩
    · rw [← hb', hc, List.drop_take]
      rfl
    · rw [hchanged.content, hc, List.take_take, Nat.min_eq_left hoff]

/-- Where the text goes: into a block, at an offset up to its end, or to the start of an empty
list. -/
theorem Got.backUp {b3 : Bufdata} (h : Got file b b' l1 l2 s pos)
    (hheap : ∀ x, b3.heap x = b'.heap x) (hs : bytes file b3 (l1 ++ l2) = s)
    (hplaced : b3.lastprev = none ∨ (bytes file b3 l1).length < pos ∧ Placed file b3 l1) :
    ∃ k1 k2 off, l1 ++ l2 = k1 ++ k2 ∧
      backUp b3 (lastOf none l1) l2.head? (pos - (bytes file b' l1).length) = (k2.head?, off) ∧
      pos = (bytes file b3 k1).length + off ∧
      (∀ bl ∈ k2.head?, off ≤ (b3.heap bl).blocklen ∧
        (off < (b3.heap bl).blocklen → (b3.heap bl).text ≠ none)) ∧
      (k2 = [] → lastOf none l1 = none ∧ k1 = []) ∧
      (b3.lastprev = none ∨ Placed file b3 k1) := by
  have hbytes : bytes file b' l1 = bytes file b3 l1 := bytes_congr fun x _ => by rw [hheap x]
  have hbefore := h.before
  have hinside : ∀ bl ∈ l2.head?, pos - (bytes file b3 l1).length ≤ (b3.heap bl).blocklen ∧
      (pos - (bytes file b3 l1).length < (b3.heap bl).blocklen → (b3.heap bl).text ≠ none) := by
    intro bl hbl
    have hin := h.inside bl hbl
    rw [hbytes] at hin
    rw [hheap bl]
    exact ⟨by omega, fun _ => h.isRead bl hbl⟩
  have hend : l2 = [] → pos - (bytes file b3 l1).length = 0 := by
    rintro rfl
    obtain ⟨hall, hlen⟩ := h.atEnd rfl
    rw [← hbytes, hall]
    omega
  rw [hbytes] at hbefore ⊢
  rcases lastOf_none l1 with ⟨hnone, rfl⟩ | ⟨k, p, hsome, rfl⟩
  · refine ⟨[], l2, pos, rfl, rfl, ?_, hinside, fun _ => ⟨rfl, rfl⟩, hplaced.imp_right And.right⟩
    rw [bytes_nil, List.length_nil, Nat.zero_add]
  · rw [hsome]
    by_cases hoff : pos - (bytes file b3 (k ++ [p])).length = 0
    · refine ⟨k, p :: l2, (b3.heap p).blocklen, by simp, ?_, ?_, ?_, ?_, ?_⟩
      · rw [lbuf.backUp]
        exact if_pos hoff
      · have hp : (content file (b3.heap p)).length = (b3.heap p).blocklen := by
          rw [hheap p]
          exact content_length (h.holds.shape.sized p (by simp))
        have hk : (bytes file b3 (k ++ [p])).length =
            (bytes file b3 k).length + (b3.heap p).blocklen := by
          rw [bytes_append, bytes_cons, bytes_nil, List.append_nil, List.length_append, hp]
        omega
      · intro bl hbl
        cases hbl
        exact ⟨Nat.le_refl _, fun hlt => absurd hlt (Nat.lt_irrefl _)⟩
      · intro hnil
        cases hnil
      · exact Or.inl (hplaced.resolve_right fun hlt => by omega)
    · refine ⟨k ++ [p], l2, _, rfl, if_neg hoff, by omega, hinside, ?_, hplaced.imp_right And.right⟩
      intro hnil
      exact absurd (hend hnil) hoff

/-- The text goes into a block that has room for it. -/
theorem insertInto_spec (henv : ReadsFile env file) {k1 k2 : List Nat} {off : Nat}
    {instext : List Byte} (h : Solid file b (k1 ++ bl :: k2)) (hfilled : Filled b (k1 ++ bl :: k2))
    (hoff : off ≤ (b.heap bl).blocklen)
    (hfits : (b.heap bl).blocklen + instext.length ≤ b.blocksize) :
    ∃ b1 b2 rest, needText env b bl = .ok b1 ∧ transfer b1 bl off instext = .ok (b2, rest) ∧
      Solid file b2 (k1 ++ bl :: k2) ∧ Filled b2 (k1 ++ bl :: k2) ∧ Same b b2 ∧
      (∀ x ∈ k1, Relinked b b2 x) ∧ bytes file b2 (k1 ++ bl :: k2) =
        bytes file b k1 ++ (((content file (b.heap bl)).take off ++ instext ++
          (content file (b.heap bl)).drop off) ++ bytes file b k2) := by
  obtain ⟨b1, text, hread, h1, hchanged1, htext, hsamelen⟩ := h.needText henv
  obtain ⟨b2, n, htransfer, hn, h2, hchanged2, hlen2⟩ :=
    transfer_spec h1 hchanged1.isRead (hsamelen ▸ hoff) instext
  rw [hchanged1.same.blocksize, hsamelen] at hn
  have hall : n = instext.length := by omega
  rw [hchanged1.content, hall, List.take_length] at hchanged2
  have hchanged := hchanged1.trans hchanged2
  have hpositive : 0 < (b.heap bl).blocklen := hfilled bl (by simp)
  refine ⟨b1, b2, _, hread, htransfer, h2, hfilled.changed hchanged (by omega), hchanged.same, ?_,
    hchanged.bytes_at h.shape⟩
  intro x hx
  apply hchanged.relinked
  rintro rfl
  exact h.shape.notMem_front hx

/-- The text fills a block, and more are made behind it. -/
theorem insertOver_spec (henv : ReadsFile env file) {k1 k2 : List Nat} {off : Nat}
    {instext : List Byte} (h : Solid file b (k1 ++ bl :: k2)) (hfilled : Filled b (k1 ++ bl :: k2))
    (hblocksize : 0 < b.blocksize) (hoff : off ≤ (b.heap bl).blocklen)
    (hread : off < (b.heap bl).blocklen → (b.heap bl).text ≠ none)
    (hover : b.blocksize < (b.heap bl).blocklen + instext.length) :
    ∃ b1 b2 b3 b4 residue instext' residue' m,
      takeResidue b bl off = .ok (b1, residue) ∧ needText env b1 bl = .ok b2 ∧
      fillBlock b2 bl instext residue = .ok (b3, instext', residue') ∧
      insertRest env b3 (some bl) (some bl) instext' residue' (b.buflen + instext.length) = .ok b4 ∧
      Solid file b4 (k1 ++ m) ∧ Filled b4 (k1 ++ m) ∧ Same b b4 ∧ (∀ x ∈ k1, Relinked b b4 x) ∧
      bytes file b4 (k1 ++ m) =
        bytes file b k1 ++ (((content file (b.heap bl)).take off ++ instext ++
          (content file (b.heap bl)).drop off) ++ bytes file b k2) := by
  have hlen := h.length_at
  obtain ⟨b1, hresidue, h1, hcontent1, hlen1, hothers1, hsame1⟩ := takeResidue_spec h hoff hread
  obtain ⟨b2, text, hneed, h2, hchanged2, htext, hlen2⟩ := h1.needText henv
  obtain ⟨b3, w, instext', residue', hfill, h3, hchanged3, hlen3, hsplit, hw⟩ :=
    fillBlock_spec h2 hchanged2.isRead instext ((content file (b.heap bl)).drop off)
  rw [hchanged2.content, hcontent1] at hchanged3
  have hchanged : Changed file b b3 bl ((content file (b.heap bl)).take off ++ w) :=
    ⟨hchanged3.content, hchanged3.isRead, fun x hx => (hchanged3.others x hx).trans
      ((hchanged2.others x hx).trans (hothers1 x hx)),
      hsame1.trans (hchanged2.same.trans hchanged3.same)⟩
  rw [hchanged2.same.blocksize, hsame1.blocksize, hlen2, hlen1, List.length_drop] at hw
  have hfilled3 : Filled b3 (k1 ++ bl :: k2) := hfilled.changed hchanged (by omega)
  have hlist : k1 ++ bl :: k2 = (k1 ++ [bl]) ++ k2 := by simp
  have hbuflen3 := h3.buflen_split
  have hbuflen := h.buflen_split
  rw [hchanged.bytes h.shape.notMem_front, hchanged.bytes h.shape.notMem_back] at hbuflen3
  have hlengths := congrArg List.length hsplit
  rw [List.length_append, List.length_append, List.length_append, List.length_drop] at hlengths
  have hbytes3 := hchanged.bytes_at h.shape
  rw [hlist] at h3 hfilled3 hbytes3
  obtain ⟨b4, m, hrest, h4, hfilled4, hsame4, hrel4, hbytes4⟩ :=
    insertRest_spec henv instext' residue' h3 hfilled3
      (hchanged.same.blocksize ▸ hblocksize)
  have hsome : lastOf none (k1 ++ [bl]) = some bl := lastOf_append none k1 [bl]
  have hexpected : b3.buflen + (instext'.length + residue'.length) = b.buflen + instext.length := by
    omega
  have hassoc : ((k1 ++ [bl]) ++ m) ++ k2 = k1 ++ (bl :: (m ++ k2)) := by simp
  rw [hsome, hexpected] at hrest
  rw [hassoc] at h4 hfilled4 hbytes4
  refine ⟨b1, b2, b3, b4, _, instext', residue', bl :: (m ++ k2), hresidue, hneed, hfill, hrest, h4,
    hfilled4, hchanged.same.trans hsame4, ?_, ?_⟩
  · intro x hx
    have hne : x ≠ bl := by
      rintro rfl
      exact h.shape.notMem_front hx
    exact (hchanged.relinked hne).trans (hrel4 x (List.mem_append_left _ hx))
  · have hfront : bytes file b3 (k1 ++ [bl]) =
        bytes file b k1 ++ ((content file (b.heap bl)).take off ++ w) := by
      rw [bytes_append, bytes_cons, bytes_nil, List.append_nil, hchanged.content,
        hchanged.bytes h.shape.notMem_front]
    have hmiddle : ((content file (b.heap bl)).take off ++ w) ++
        ((instext' ++ residue') ++ bytes file b k2) =
          (content file (b.heap bl)).take off ++ ((w ++ (instext' ++ residue')) ++ bytes file b k2)
        := by simp only [List.append_assoc]
    rw [hbytes4, hfront, hchanged.bytes h.shape.notMem_back, List.append_assoc, hmiddle, ← hsplit]
    simp only [List.append_assoc]

theorem lbufInsert_spec (henv : ReadsFile env file) (h : Holds file b l s)
    (hblocksize : 0 < b.blocksize) (pos : Nat) (instext : List Byte) :
    ∃ b', lbufInsert env b pos instext = .ok b' ∧
      Represents file b' (s.take (min pos s.length) ++ instext ++ s.drop (min pos s.length)) ∧
      b'.blocksize = b.blocksize := by
  obtain ⟨b1, l', hset, h1, hdone, hsize1⟩ := setAllFileOffsets_spec henv h hblocksize
  have hmin : min pos b1.buflen = min pos s.length := by rw [h1.buflen]
  obtain ⟨b2, l1, l2, hget, hgot⟩ := getBlock_spec henv h1 (hsize1 ▸ hblocksize)
    (show min pos s.length ≤ s.length by omega)
  obtain ⟨b3, hforget, h3, hfilled3, hs, hheap, hsize3, hdone3, hplaced3⟩ := hgot.forget hdone
  obtain ⟨k1, k2, off, hlist, hback, hpos, hin, hnil, hplaced⟩ := hgot.backUp hheap hs hplaced3
  have hblocksize3 : 0 < b3.blocksize := by
    rw [hsize3, hsize1]
    exact hblocksize
  rw [hlist] at h3 hfilled3 hs
  -- Whatever the blocks are in the end, the place of the search stays in front of them.
  have hdoneWith : ∀ b4 m, Solid file b4 (k1 ++ m) → Filled b4 (k1 ++ m) → Same b3 b4 →
      (∀ x ∈ k1, Relinked b3 b4 x) → bytes file b4 (k1 ++ m) =
        s.take (min pos s.length) ++ instext ++ s.drop (min pos s.length) →
      Represents file b4 (s.take (min pos s.length) ++ instext ++ s.drop (min pos s.length)) ∧
        b4.blocksize = b.blocksize := by
    intro b4 m h4 hfilled4 hsame4 hrel4 hbytes4
    have hplaced4 : Placed file b4 (k1 ++ m) := by
      rcases hplaced with hnone | hplaced
      · exact Or.inl (hsame4.lastprev.trans hnone)
      · refine hplaced.mono hsame4 ?_ (List.prefix_append k1 m)
        intro l hl
        exact bytes_relinked fun x hx => hrel4 x (hl.subset hx)
    refine ⟨⟨k1 ++ m, ?_⟩, ?_⟩
    · rw [← hbytes4]
      exact Holds.of_solid h4 hfilled4 hplaced4
    · rw [hsame4.blocksize, hsize3, hsize1]
  unfold lbufInsert
  dsimp only [bind, Except.bind]
  rw [hset]
  dsimp only
  rw [hmin, hget]
  dsimp only
  rw [hforget, hback]
  cases k2 with
  | nil =>
    obtain ⟨hnone, rfl⟩ := hnil rfl
    obtain ⟨b4, m, hrest, h4, hfilled4, hsame4, hrel4, hbytes4⟩ :=
      insertRest_spec henv instext [] h3 hfilled3 hblocksize3
    have hempty : s = [] := hs.symm
    subst hempty
    rw [List.append_nil] at h4 hfilled4 hbytes4
    obtain ⟨hrep, hsize4⟩ := hdoneWith b4 _ h4 hfilled4 hsame4 hrel4 (by rw [hbytes4]; simp)
    refine ⟨b4, ?_, hrep, hsize4⟩
    rw [hnone]
    exact hrest
  | cons bl k2 =>
    obtain ⟨hoff, hread⟩ := hin bl rfl
    have hlen := h3.length_at
    have hresult : bytes file b3 k1 ++ (((content file (b3.heap bl)).take off ++ instext ++
        (content file (b3.heap bl)).drop off) ++ bytes file b3 k2) =
        s.take (min pos s.length) ++ instext ++ s.drop (min pos s.length) := by
      have hoff' : min pos s.length - (bytes file b3 k1).length = off := by omega
      have hbefore : (bytes file b3 k1).length ≤ min pos s.length := by omega
      have hwithin : min pos s.length - (bytes file b3 k1).length ≤
          (content file (b3.heap bl)).length := by omega
      have htake : s.take (min pos s.length) =
          bytes file b3 k1 ++ (content file (b3.heap bl)).take off := by
        rw [← hoff', ← take_into (t := bytes file b3 k2) hbefore hwithin, ← bytes_cons,
          ← bytes_append, hs]
      have hdrop : s.drop (min pos s.length) =
          (content file (b3.heap bl)).drop off ++ bytes file b3 k2 := by
        rw [← hoff', ← drop_into hbefore hwithin, ← bytes_cons, ← bytes_append, hs]
      rw [htake, hdrop]
      simp only [List.append_assoc]
    dsimp only [List.head?_cons]
    by_cases hfits : (b3.heap bl).blocklen + instext.length ≤ b3.blocksize
    · obtain ⟨b4, b5, rest, hneed, htransfer, h5, hfilled5, hsame5, hrel5, hbytes5⟩ :=
        insertInto_spec henv h3 hfilled3 hoff hfits
      obtain ⟨hrep, hsize5⟩ := hdoneWith b5 _ h5 hfilled5 hsame5 hrel5 (hbytes5.trans hresult)
      refine ⟨b5, ?_, hrep, hsize5⟩
      rw [if_pos hfits, hneed]
      dsimp only
      rw [htransfer]
    · obtain ⟨b4, b5, b6, b7, residue, instext', residue', m, htaken, hneed, hfill, hrest, h7,
        hfilled7, hsame7, hrel7, hbytes7⟩ :=
        insertOver_spec henv h3 hfilled3 hblocksize3 hoff hread (Nat.not_le.mp hfits)
      obtain ⟨hrep, hsize7⟩ := hdoneWith b7 m h7 hfilled7 hsame7 hrel7 (hbytes7.trans hresult)
      refine ⟨b7, ?_, hrep, hsize7⟩
      rw [if_neg hfits, htaken]
      dsimp only
      rw [hneed]
      dsimp only
      rw [hfill]
      exact hrest

/-! ## Runs -/

/-- The same operation on a plain sequence of bytes. -/
def edit (s : List Byte) : Op → List Byte
  | .insert pos instext => s.take (min pos s.length) ++ instext ++ s.drop (min pos s.length)
  | .delete pos zapcount => s.take pos ++ s.drop (pos + zapcount)
  | .get_bytes _ => s
  | .get_bytes_before _ => s

/-- A deletion is of a range inside the buffer. -/
def Allowed (s : List Byte) : Op → Prop
  | .delete pos zapcount => pos + zapcount ≤ s.length
  | _ => True

/-- What a call gives back: a run of the bytes from the position on, or up to it. -/
def Answers (s : List Byte) : Op → Option (List Byte) → Prop
  | .get_bytes pos, r =>
    if pos < s.length then ∃ run, r = some run ∧ run ≠ [] ∧ run <+: s.drop pos else r = none
  | .get_bytes_before pos, r =>
    if 0 < pos ∧ pos ≤ s.length then ∃ run, r = some run ∧ run ≠ [] ∧ run <:+ s.take pos
    else r = none
  | _, _ => True

/-- The buffers after any run of calls, each with the bytes that a plain sequence would have. -/
inductive Reaches (env : Env) (file : List Byte) (blocksize : Nat) :
    Bufdata → List Byte → Prop where
  | create : Reaches env file blocksize (createLbufBuffer file.length blocksize) file
  | call {b b' : Bufdata} {s : List Byte} {op : Op} {r : Option (List Byte)}
    (run : Reaches env file blocksize b s) (allowed : Allowed s op)
    (step : exec env b op = .ok (b', r)) : Reaches env file blocksize b' (edit s op)

theorem represents_create (file : List Byte) (blocksize : Nat) :
    Represents file (createLbufBuffer file.length blocksize) file := by
  refine ⟨[], ⟨rfl, List.nodup_nil, ?_, ?_⟩, ?_, List.nil_prefix, Or.inr ⟨rfl, rfl⟩, rfl,
    Or.inl rfl⟩
  · intro bl hbl
    cases hbl
  · intro bl hbl
    cases hbl
  · intro bl hbl
    cases hbl

/-- One call, from any buffer. -/
theorem exec_spec (henv : ReadsFile env file) (h : Represents file b s)
    (hblocksize : 0 < b.blocksize) (op : Op) (hop : Allowed s op) :
    ∃ b' r, exec env b op = .ok (b', r) ∧ Represents file b' (edit s op) ∧
      b'.blocksize = b.blocksize ∧ Answers s op r := by
  obtain ⟨l, h⟩ := h
  have hbuflen := h.buflen
  cases op with
  | insert pos instext =>
    obtain ⟨b', hrun, hrep, hsize⟩ := lbufInsert_spec henv h hblocksize pos instext
    refine ⟨b', none, ?_, hrep, hsize, trivial⟩
    dsimp only [exec]
    rw [hrun]
    rfl
  | delete pos zapcount =>
    obtain ⟨b', hrun, hrep, hsize⟩ := lbufDelete_spec henv h hblocksize hop
    refine ⟨b', none, ?_, hrep, hsize, trivial⟩
    dsimp only [exec]
    rw [hrun]
    rfl
  | get_bytes pos =>
    by_cases hpos : pos < s.length
    · obtain ⟨b', run, hrun, hrep, hsize, hne, hfront⟩ := lbufGetBytes_spec henv h hblocksize hpos
      refine ⟨b', some run, hrun, hrep, hsize, ?_⟩
      dsimp only [Answers]
      rw [if_pos hpos]
      exact ⟨run, rfl, hne, hfront⟩
    · refine ⟨b, none, ?_, ⟨l, h⟩, rfl, ?_⟩
      · dsimp only [exec, lbufGetBytes]
        rw [if_pos (by omega)]
      · dsimp only [Answers]
        rw [if_neg hpos]
  | get_bytes_before pos =>
    by_cases hpos : 0 < pos ∧ pos ≤ s.length
    · obtain ⟨b', run, hrun, hrep, hsize, hne, hsuffix⟩ :=
        lbufGetBytesBefore_spec henv h hblocksize hpos.1 hpos.2
      refine ⟨b', some run, hrun, hrep, hsize, ?_⟩
      dsimp only [Answers]
      rw [if_pos hpos]
      exact ⟨run, rfl, hne, hsuffix⟩
    · refine ⟨b, none, ?_, ⟨l, h⟩, rfl, ?_⟩
      · dsimp only [exec, lbufGetBytesBefore]
        rw [if_pos (by omega)]
      · dsimp only [Answers]
        rw [if_neg hpos]

theorem represents_of_reaches (henv : ReadsFile env file) {blocksize : Nat}
    (hblocksize : 0 < blocksize) (h : Reaches env file blocksize b s) :
    Represents file b s ∧ b.blocksize = blocksize := by
  induction h with
  | create => exact ⟨represents_create file blocksize, rfl⟩
  | call run allowed step ih =>
    obtain ⟨b', r, hrun, hrep, hsize, -⟩ := exec_spec henv ih.1 (ih.2 ▸ hblocksize) _ allowed
    rw [step] at hrun
    cases hrun
    exact ⟨hrep, hsize.trans ih.2⟩

/-! ## The law -/

/-- In every run in which the reads succeed, the length is that of the plain sequence, and the
next call ends, panics nowhere and answers with the bytes of the sequence. -/
theorem a_buffer_is_a_sequence_of_bytes {env : Env} {file s : List Byte} {blocksize : Nat}
    {b : Bufdata} (henv : ReadsFile env file) (hblocksize : 1 ≤ blocksize)
    (h : Reaches env file blocksize b s) :
    b.buflen = s.length ∧ ∀ op, Allowed s op → ∃ b' r, exec env b op = .ok (b', r) ∧
      b'.buflen = (edit s op).length ∧ Answers s op r := by
  obtain ⟨hrep, hsize⟩ := represents_of_reaches henv hblocksize h
  obtain ⟨l, hholds⟩ := hrep
  refine ⟨hholds.buflen, fun op hop => ?_⟩
  obtain ⟨b', r, hrun, ⟨l', hholds'⟩, -, hanswers⟩ :=
    exec_spec henv ⟨l, hholds⟩ (hsize ▸ hblocksize) op hop
  exact ⟨b', r, hrun, hholds'.buflen, hanswers⟩

/-- A file that is read without failing. -/
def readingEnv (file : List Byte) : Env where
  read_func := fun _ off len buf => (true, (file.drop off).take len ++ buf.drop len)
  junk := fun _ _ => 0

theorem readingEnv_reads (file : List Byte) : ReadsFile (readingEnv file) file :=
  fun _ _ _ _ _ _ => rfl

theorem a_file_of_three_bytes_in_blocks_of_two :
    (createLbufBuffer 3 2).buflen = 3 ∧ ∀ op, Allowed [1, 2, 3] op →
      ∃ b' r, exec (readingEnv [1, 2, 3]) (createLbufBuffer 3 2) op = .ok (b', r) ∧
        b'.buflen = (edit [1, 2, 3] op).length ∧ Answers [1, 2, 3] op r := by
  have hrun : Reaches (readingEnv [1, 2, 3]) [1, 2, 3] 2 (createLbufBuffer 3 2) [1, 2, 3] :=
    Reaches.create
  exact a_buffer_is_a_sequence_of_bytes (readingEnv_reads [1, 2, 3]) (by decide) hrun

end ups_rules.lbuf
