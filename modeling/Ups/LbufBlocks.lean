-- The bytes that a block list stands for, and the search for a block, which makes and reads
-- blocks but changes no byte.
import Ups.Lbuf
import Mathlib.Tactic.Common

open linked_path

namespace ups_rules.lbuf

variable {file s : List Byte} {b b' : Bufdata} {bl wanted : Nat} {l l1 l2 : List Nat} {v : Block}
  {env : Env}

/-! ## What a list of blocks stands for -/

/-- The bytes of a block, in its text or still in the file. -/
def content (file : List Byte) (blk : Block) : List Byte :=
  match blk.text with
  | none => (file.drop blk.file_offset).take blk.blocklen
  | some text => text.take blk.blocklen

def bytes (file : List Byte) (b : Bufdata) (l : List Nat) : List Byte :=
  l.flatMap fun bl => content file (b.heap bl)

/-- The bytes of a block fit in its buffer, or are all in the file. -/
structure Sized (file : List Byte) (blocksize : Nat) (blk : Block) : Prop where
  room : blk.blocklen ≤ blocksize
  buffer : ∀ text, blk.text = some text → text.length = blocksize
  unread : blk.text = none → blk.file_offset + blk.blocklen ≤ file.length

/-- The list of the blocks of a buffer. -/
structure Shape (file : List Byte) (b : Bufdata) (l : List Nat) : Prop where
  path : Path b.link none l none
  nodup : l.Nodup
  old : ∀ bl ∈ l, bl < b.nblocks
  sized : ∀ bl ∈ l, Sized file b.blocksize (b.heap bl)

/-- The place of the last search, if it is kept, is behind some of the blocks of the list. -/
def Placed (file : List Byte) (b : Bufdata) (l : List Nat) : Prop :=
  b.lastprev = none ∨ ∃ l1, l1 <+: l ∧ b.lastprev = lastOf none l1 ∧
    b.lastpos = (bytes file b l1).length

/-- The blocks hold the text, or its front while the rest is still the rest of the file. -/
structure Holds (file : List Byte) (b : Bufdata) (l : List Nat) (s : List Byte) : Prop where
  shape : Shape file b l
  nonempty : ∀ bl ∈ l, 0 < (b.heap bl).blocklen
  front : bytes file b l <+: s
  rest : bytes file b l = s ∨ b.done_all_file_offsets = false ∧ s = file
  buflen : b.buflen = s.length
  placed : Placed file b l

/-- The buffer has the text. -/
def Represents (file : List Byte) (b : Bufdata) (s : List Byte) : Prop := ∃ l, Holds file b l s

/-- Every read succeeds and gives the bytes of the file. -/
def ReadsFile (env : Env) (file : List Byte) : Prop :=
  ∀ n off len buf, off + len ≤ file.length → len ≤ buf.length →
    env.read_func n off len buf = (true, (file.drop off).take len ++ buf.drop len)

@[simp] theorem bytes_nil : bytes file b [] = [] := rfl

@[simp] theorem bytes_cons :
    bytes file b (bl :: l) = content file (b.heap bl) ++ bytes file b l := rfl

@[simp] theorem bytes_append : bytes file b (l1 ++ l2) = bytes file b l1 ++ bytes file b l2 :=
  List.flatMap_append

theorem content_length {blocksize : Nat} (h : Sized file blocksize v) :
    (content file v).length = v.blocklen := by
  unfold content
  cases htext : v.text with
  | none =>
    have hunread := h.unread htext
    dsimp only
    rw [List.length_take, List.length_drop]
    omega
  | some text =>
    have hbuffer := h.buffer text htext
    have hroom := h.room
    dsimp only
    rw [List.length_take]
    omega

theorem bytes_congr (h : ∀ bl ∈ l, content file (b'.heap bl) = content file (b.heap bl)) :
    bytes file b' l = bytes file b l := by
  induction l with
  | nil => rfl
  | cons bl l ih =>
    rw [bytes_cons, bytes_cons, h bl List.mem_cons_self]
    rw [ih fun x hx => h x (List.mem_cons_of_mem bl hx)]

/-! ## Changing one block -/

@[simp] theorem setBlock_heap_self : (b.setBlock bl v).heap bl = v := Function.update_self ..

theorem setBlock_heap_of_ne {x : Nat} (h : x ≠ bl) : (b.setBlock bl v).heap x = b.heap x :=
  Function.update_of_ne h ..

theorem bytes_setBlock (h : bl ∉ l) : bytes file (b.setBlock bl v) l = bytes file b l := by
  apply bytes_congr
  intro x hx
  rw [setBlock_heap_of_ne]
  rintro rfl
  exact h hx

theorem link_setBlock (h : v.next = (b.heap bl).next) : (b.setBlock bl v).link = b.link := by
  funext p
  cases p with
  | none => rfl
  | some x =>
    by_cases hx : x = bl
    · rw [hx, Bufdata.link, Bufdata.link, setBlock_heap_self, h]
    · rw [Bufdata.link, Bufdata.link, setBlock_heap_of_ne hx]

theorem Shape.set (h : Shape file b l) (hnext : v.next = (b.heap bl).next)
    (hsized : Sized file b.blocksize v) : Shape file (b.setBlock bl v) l := by
  refine ⟨?_, h.nodup, h.old, ?_⟩
  · rw [link_setBlock hnext]
    exact h.path
  · intro x hx
    by_cases hxbl : x = bl
    · rw [hxbl, setBlock_heap_self]
      exact hsized
    · rw [setBlock_heap_of_ne hxbl]
      exact h.sized x hx

theorem Shape.notMem_front (h : Shape file b (l1 ++ bl :: l2)) : bl ∉ l1 := by
  intro hmem
  exact (List.nodup_append.mp h.nodup).2.2 bl hmem bl List.mem_cons_self rfl

theorem Shape.notMem_back (h : Shape file b (l1 ++ bl :: l2)) : bl ∉ l2 :=
  (List.nodup_cons.mp (List.nodup_append.mp h.nodup).2.1).1

theorem Shape.sized_at (h : Shape file b (l1 ++ bl :: l2)) :
    Sized file b.blocksize (b.heap bl) := h.sized bl (by simp)

/-- The bytes after a block was changed: those around it stay. -/
theorem Shape.bytes_set (h : Shape file b (l1 ++ bl :: l2)) :
    bytes file (b.setBlock bl v) (l1 ++ bl :: l2) =
      bytes file b l1 ++ (content file v ++ bytes file b l2) := by
  rw [bytes_append, bytes_cons, bytes_setBlock h.notMem_front, bytes_setBlock h.notMem_back,
    setBlock_heap_self]

/-! ## Reading the text of a block -/

/-- A block with its text. -/
def Block.withText (blk : Block) (text : List Byte) : Block := { blk with text := some text }

theorem allocText_length : (allocText env b bl).length = b.blocksize := by
  rw [allocText, List.length_map, List.length_range]

theorem needText_spec (henv : ReadsFile env file) (h : Sized file b.blocksize (b.heap bl)) :
    ∃ text n, needText env b bl =
        .ok { b.setBlock bl ((b.heap bl).withText text) with reads := n } ∧
      text.length = b.blocksize ∧ text.take (b.heap bl).blocklen = content file (b.heap bl) := by
  unfold needText content
  cases htext : (b.heap bl).text with
  | none =>
    have hunread := h.unread htext
    have hroom : (b.heap bl).blocklen ≤ (allocText env b bl).length := by
      rw [allocText_length]
      exact h.room
    have hread := henv b.reads _ _ _ hunread hroom
    have hlen : ((file.drop (b.heap bl).file_offset).take (b.heap bl).blocklen).length =
        (b.heap bl).blocklen := by
      rw [List.length_take, List.length_drop]
      omega
    refine ⟨(file.drop (b.heap bl).file_offset).take (b.heap bl).blocklen ++
      (allocText env b bl).drop (b.heap bl).blocklen, b.reads + 1, ?_, ?_, ?_⟩
    · dsimp only
      unfold readText
      dsimp only
      rw [hread]
      rfl
    · rw [List.length_append, hlen, List.length_drop, allocText_length]
      have := h.room
      omega
    · rw [List.take_append_of_le_length (Nat.le_of_eq hlen.symm)]
      exact List.take_of_length_le (Nat.le_of_eq hlen)
  | some text =>
    refine ⟨text, b.reads, ?_, h.buffer text htext, rfl⟩
    have hself : (b.heap bl).withText text = b.heap bl := by
      rw [Block.withText, ← htext]
    rw [hself, Bufdata.setBlock, Function.update_eq_self]

theorem Sized.withText {blocksize : Nat} {text : List Byte} (h : Sized file blocksize v)
    (htext : text.length = blocksize) : Sized file blocksize (v.withText text) := by
  refine ⟨h.room, ?_, ?_⟩
  · intro t ht
    cases ht
    exact htext
  · intro ht
    cases ht

theorem bytes_withText {text : List Byte}
    (htext : text.take (b.heap bl).blocklen = content file (b.heap bl)) (l : List Nat) :
    bytes file (b.setBlock bl ((b.heap bl).withText text)) l = bytes file b l := by
  apply bytes_congr
  intro x _
  by_cases hx : x = bl
  · rw [hx, setBlock_heap_self]
    exact htext
  · rw [setBlock_heap_of_ne hx]

/-! ## Linking in a block -/

/-- What no call but a search changes. -/
structure Same (b b' : Bufdata) : Prop where
  blocksize : b'.blocksize = b.blocksize
  done : b'.done_all_file_offsets = b.done_all_file_offsets
  lastprev : b'.lastprev = b.lastprev
  lastpos : b'.lastpos = b.lastpos

theorem Same.refl (b : Bufdata) : Same b b := ⟨rfl, rfl, rfl, rfl⟩

theorem Same.trans {b1 b2 b3 : Bufdata} (h1 : Same b1 b2) (h2 : Same b2 b3) : Same b1 b3 :=
  ⟨h2.blocksize.trans h1.blocksize, h2.done.trans h1.done, h2.lastprev.trans h1.lastprev,
    h2.lastpos.trans h1.lastpos⟩

theorem Placed.mono (h : Placed file b l1) (hsame : Same b b')
    (hbytes : ∀ l, l <+: l1 → bytes file b' l = bytes file b l) (hl : l1 <+: l2) :
    Placed file b' l2 := by
  rcases h with hnone | ⟨l, hl1, hprev, hpos⟩
  · exact Or.inl (hsame.lastprev.trans hnone)
  · refine Or.inr ⟨l, hl1.trans hl, hsame.lastprev.trans hprev, ?_⟩
    rw [hbytes l hl1]
    exact hsame.lastpos.trans hpos

/-- The block is the same but for its link. -/
def Relinked (b b' : Bufdata) (x : Nat) : Prop := ∃ n, b'.heap x = { b.heap x with next := n }

theorem Relinked.of_eq {x : Nat} (h : b'.heap x = b.heap x) : Relinked b b' x :=
  ⟨(b.heap x).next, h⟩

theorem Relinked.trans {b1 b2 b3 : Bufdata} {x : Nat} (h1 : Relinked b1 b2 x)
    (h2 : Relinked b2 b3 x) : Relinked b1 b3 x := by
  obtain ⟨n1, hn1⟩ := h1
  obtain ⟨n2, hn2⟩ := h2
  exact ⟨n2, by rw [hn2, hn1]⟩

theorem Relinked.content (h : Relinked b b' bl) :
    content file (b'.heap bl) = content file (b.heap bl) := by
  obtain ⟨n, hn⟩ := h
  rw [hn]
  rfl

theorem Relinked.blocklen (h : Relinked b b' bl) :
    (b'.heap bl).blocklen = (b.heap bl).blocklen := by
  obtain ⟨n, hn⟩ := h
  rw [hn]

theorem Relinked.sized {blocksize : Nat} (h : Relinked b b' bl)
    (hsized : Sized file blocksize (b.heap bl)) : Sized file blocksize (b'.heap bl) := by
  obtain ⟨n, hn⟩ := h
  rw [hn]
  exact ⟨hsized.room, hsized.buffer, hsized.unread⟩

theorem bytes_relinked (h : ∀ x ∈ l, Relinked b b' x) : bytes file b' l = bytes file b l :=
  bytes_congr fun x hx => (h x hx).content

theorem setLink_same (prev next : Option Nat) : Same b (b.setLink prev next) := by
  cases prev <;> exact ⟨rfl, rfl, rfl, rfl⟩

theorem setLink_relinked (prev next : Option Nat) (x : Nat) :
    Relinked b (b.setLink prev next) x := by
  cases prev with
  | none => exact ⟨(b.heap x).next, rfl⟩
  | some p =>
    by_cases hx : x = p
    · exact ⟨next, by rw [hx, Bufdata.setLink, setBlock_heap_self]⟩
    · exact ⟨(b.heap x).next, setBlock_heap_of_ne hx⟩

@[simp] theorem link_setLink_self (prev next : Option Nat) :
    (b.setLink prev next).link prev = next := by
  cases prev with
  | none => rfl
  | some p => rw [Bufdata.setLink, Bufdata.link, setBlock_heap_self]

theorem link_setLink_of_ne {prev q : Option Nat} (h : q ≠ prev) (next : Option Nat) :
    (b.setLink prev next).link q = b.link q := by
  cases prev with
  | none =>
    cases q with
    | none => exact absurd rfl h
    | some x => rfl
  | some p =>
    cases q with
    | none => rfl
    | some x =>
      have hx : x ≠ p := fun hxp => h (congrArg some hxp)
      rw [Bufdata.setLink, Bufdata.link, setBlock_heap_of_ne hx, Bufdata.link]

@[simp] theorem setLink_nblocks (prev next : Option Nat) :
    (b.setLink prev next).nblocks = b.nblocks := by
  cases prev <;> rfl

@[simp] theorem setLink_buflen (prev next : Option Nat) :
    (b.setLink prev next).buflen = b.buflen := by
  cases prev <;> rfl

/-- A new block without bytes behind those of `l1`. -/
structure Appended (file : List Byte) (b b' : Bufdata) (bl : Nat) (l1 l2 : List Nat) : Prop where
  shape : Shape file b' (l1 ++ bl :: l2)
  blocklen : (b'.heap bl).blocklen = 0
  others : ∀ x ∈ l1 ++ l2, Relinked b b' x
  buflen : b'.buflen = b.buflen
  same : Same b b'

theorem sized_new {blocksize : Nat} {text : Option (List Byte)} {next : Option Nat}
    (h : ∀ t, text = some t → t.length = blocksize) : Sized file blocksize ⟨text, 0, 0, next⟩ :=
  ⟨Nat.zero_le _, h, fun _ => Nat.zero_le _⟩

theorem appendBlock_spec (env : Env) (h : Shape file b (l1 ++ l2)) (allocate_text : Bool) :
    ∃ b' bl, appendBlock env b (lastOf none l1) allocate_text = (b', bl) ∧
      Appended file b b' bl l1 l2 ∧
      (b'.heap bl).text = if allocate_text then some (allocText env b bl) else none := by
  have hfresh : b.nblocks ∉ l1 ++ l2 := fun hmem => Nat.lt_irrefl _ (h.old _ hmem)
  have hlast : lastOf none l1 ≠ some b.nblocks := by
    intro hc
    have hmem := lastOf_mem none l1
    rw [hc] at hmem
    rcases List.mem_cons.mp hmem with hmem | hmem
    · cases hmem
    · exact not_mem_map_some (fun hx => hfresh (List.mem_append_left _ hx)) hmem
  -- The buffer with the new block before the block in front of it links to it.
  let text := if allocate_text then some (allocText env b b.nblocks) else none
  let b0 : Bufdata := { b.setBlock b.nblocks ⟨text, 0, 0, b.link (lastOf none l1)⟩ with
    nblocks := b.nblocks + 1 }
  have hself : b0.heap b.nblocks = ⟨text, 0, 0, b.link (lastOf none l1)⟩ := setBlock_heap_self
  have hother : ∀ x ∈ l1 ++ l2, b0.heap x = b.heap x := by
    intro x hx
    apply setBlock_heap_of_ne
    rintro rfl
    exact hfresh hx
  have hrelinked : ∀ x, Relinked b0 (b0.setLink (lastOf none l1) (some b.nblocks)) x :=
    setLink_relinked (lastOf none l1) (some b.nblocks)
  have hsame : Same b b0 := ⟨rfl, rfl, rfl, rfl⟩
  refine ⟨b0.setLink (lastOf none l1) (some b.nblocks), b.nblocks, rfl, ⟨⟨?_, ?_, ?_, ?_⟩, ?_, ?_,
    ?_, ?_⟩, ?_⟩
  · apply path_insert h.path h.nodup hfresh
    · rw [link_setLink_of_ne (Ne.symm hlast), Bufdata.link, hself]
    · exact link_setLink_self ..
    · intro q hq hql
      rw [link_setLink_of_ne hql]
      cases q with
      | none => rfl
      | some x =>
        have hx : x ≠ b.nblocks := fun hxn => hq (congrArg some hxn)
        exact congrArg Block.next (setBlock_heap_of_ne hx)
  · exact List.nodup_middle.mpr (List.nodup_cons.mpr ⟨hfresh, h.nodup⟩)
  · intro x hx
    rw [setLink_nblocks]
    rcases List.mem_cons.mp (List.perm_middle.mem_iff.mp hx) with rfl | hx
    · exact Nat.lt_succ_self _
    · exact Nat.lt_succ_of_lt (h.old x hx)
  · intro x hx
    rw [(setLink_same _ _).blocksize]
    apply (hrelinked x).sized
    rcases List.mem_cons.mp (List.perm_middle.mem_iff.mp hx) with rfl | hx
    · rw [hself]
      apply sized_new
      intro t ht
      by_cases hallocate : allocate_text = true
      · rw [show text = some (allocText env b b.nblocks) from if_pos hallocate] at ht
        cases ht
        exact allocText_length
      · rw [show text = none from if_neg hallocate] at ht
        cases ht
    · rw [hother x hx]
      exact h.sized x hx
  · rw [(hrelinked b.nblocks).blocklen, hself]
  · intro x hx
    obtain ⟨n, hn⟩ := hrelinked x
    exact ⟨n, by rw [hn, hother x hx]⟩
  · exact setLink_buflen ..
  · exact hsame.trans (setLink_same _ _)
  · obtain ⟨n, hn⟩ := hrelinked b.nblocks
    rw [hn, hself]

/-! ## The search -/

theorem Holds.total (h : Holds file b (l1 ++ l2) s) :
    (bytes file b l1).length + (bytes file b l2).length ≤ s.length := by
  have hle := h.front.length_le
  rwa [bytes_append, List.length_append] at hle

/-- Blocks all of whose bytes are those of `l1` are at the end of the text only when it ends
there. -/
theorem Holds.eq_of_length (h : Holds file b l1 s) (hlen : s.length ≤ (bytes file b l1).length) :
    bytes file b l1 = s := h.front.eq_of_length_le hlen

/-- The block that `makeBlock` appends has the next bytes of the file. -/
theorem holds_more (h : Holds file b l1 file) (happ : Appended file b b' bl l1 [])
    (hdone : b.done_all_file_offsets = false) (htext : (b'.heap bl).text = none) {n : Nat}
    (hn : 0 < n) (hroom : n ≤ b.blocksize) (hmore : (bytes file b l1).length + n ≤ file.length) :
    Holds file (b'.setBlock bl { b'.heap bl with
      blocklen := n, file_offset := (bytes file b l1).length }) (l1 ++ [bl]) file := by
  have hothers : ∀ x ∈ l1, Relinked b b' x := by
    intro x hx
    exact happ.others x (List.mem_append_left _ hx)
  have hnotmem : bl ∉ l1 := happ.shape.notMem_front
  have hbytes : bytes file b' l1 = bytes file b l1 := bytes_relinked hothers
  refine ⟨happ.shape.set rfl ⟨?_, ?_, fun _ => hmore⟩, ?_, ?_, Or.inr ⟨?_, rfl⟩, ?_, ?_⟩
  · rw [happ.same.blocksize]
    exact hroom
  · intro text ht
    rw [htext] at ht
    cases ht
  · intro x hx
    by_cases hxbl : x = bl
    · rw [hxbl, setBlock_heap_self]
      exact hn
    · have hxl : x ∈ l1 := by
        rcases List.mem_append.mp hx with hx | hx
        · exact hx
        · exact absurd (List.mem_singleton.mp hx) hxbl
      rw [setBlock_heap_of_ne hxbl, (hothers x hxl).blocklen]
      exact h.nonempty x hxl
  · rw [happ.shape.bytes_set, hbytes, bytes_nil, List.append_nil]
    obtain ⟨t, ht⟩ := h.front
    unfold content
    rw [htext]
    dsimp only
    have hdrop : (bytes file b l1 ++ t).drop (bytes file b l1).length = t := List.drop_left
    rw [ht] at hdrop
    have hfront : bytes file b l1 ++ t.take n <+: bytes file b l1 ++ t :=
      (List.prefix_append_right_inj _).mpr (List.take_prefix n t)
    rw [ht] at hfront
    rwa [hdrop]
  · exact happ.same.done.trans hdone
  · exact happ.buflen.trans h.buflen
  · refine h.placed.mono ⟨happ.same.blocksize, happ.same.done, happ.same.lastprev,
      happ.same.lastpos⟩ ?_ (List.prefix_append l1 [bl])
    intro l hl
    rw [bytes_setBlock fun hx => hnotmem (hl.subset hx)]
    exact bytes_relinked fun x hx => hothers x (hl.subset hx)

theorem makeBlock_spec (env : Env) (h : Holds file b (l1 ++ l2) s) (hblocksize : 0 < b.blocksize)
    (hpos : (bytes file b l1).length ≤ wanted) (hwanted : wanted ≤ s.length) :
    (makeBlock env b wanted (bytes file b l1).length (lastOf none l1) l2.head? = .ok (b, none) ∧
      l2 = [] ∧ bytes file b l1 = s ∧ wanted = s.length) ∨
    ∃ b' bl l3, makeBlock env b wanted (bytes file b l1).length (lastOf none l1) l2.head? =
        .ok (b', some bl) ∧ Holds file b' (l1 ++ bl :: l3) s ∧
      bytes file b' l1 = bytes file b l1 ∧ Same b b' := by
  cases l2 with
  | cons bl l2 => exact Or.inr ⟨b, bl, l2, rfl, h, rfl, Same.refl b⟩
  | nil =>
    rw [List.append_nil] at h
    have hbuflen := h.buflen
    by_cases hend : (bytes file b l1).length = b.buflen ∧ wanted = (bytes file b l1).length
    · refine Or.inl ⟨?_, rfl, ?_, ?_⟩
      · unfold makeBlock
        dsimp only [List.head?_nil]
        rw [if_pos hend]
      · apply h.eq_of_length
        omega
      · omega
    · have hlt : (bytes file b l1).length < b.buflen := by omega
      -- The rest of the text is the rest of the file.
      obtain ⟨hdone, rfl⟩ : b.done_all_file_offsets = false ∧ s = file := by
        rcases h.rest with hall | hrest
        · rw [hall] at hlt
          omega
        · exact hrest
      have hshape : Shape s b (l1 ++ []) := by
        rw [List.append_nil]
        exact h.shape
      obtain ⟨b1, bl, happend, happ, htext⟩ := appendBlock_spec env hshape false
      have hnotmem : bl ∉ l1 := happ.shape.notMem_front
      have hholds := holds_more (n := min (b.buflen - (bytes s b l1).length) b.blocksize) h happ
        hdone htext (by omega) (by omega) (by omega)
      refine Or.inr ⟨_, bl, [], ?_, hholds, ?_, ?_⟩
      · unfold makeBlock
        dsimp only [List.head?_nil]
        rw [if_neg hend, if_neg (Nat.not_le.mpr hlt), happend]
      · rw [bytes_setBlock hnotmem]
        exact bytes_relinked fun x hx => happ.others x (List.mem_append_left _ hx)
      · exact ⟨happ.same.blocksize, happ.same.done, happ.same.lastprev, happ.same.lastpos⟩

/-- The position is in the first of the blocks of `l2`, or at the end of the text. -/
structure Reached (file : List Byte) (b : Bufdata) (l1 l2 : List Nat) (s : List Byte)
    (wanted : Nat) : Prop where
  holds : Holds file b (l1 ++ l2) s
  before : (bytes file b l1).length ≤ wanted
  inside : ∀ bl ∈ l2.head?, wanted < (bytes file b l1).length + (b.heap bl).blocklen
  atEnd : l2 = [] → bytes file b l1 = s ∧ wanted = s.length

theorem getBlockLoop_spec (env : Env) (hwanted : wanted ≤ s.length) (fuel : Nat)
    (h : Holds file b (l1 ++ l2) s) (hblocksize : 0 < b.blocksize)
    (hpos : (bytes file b l1).length ≤ wanted)
    (hfuel : wanted < (bytes file b l1).length + fuel) :
    ∃ b' m1 m2, getBlockLoop env wanted fuel b (bytes file b l1).length (lastOf none l1) l2.head? =
        .ok (b', (bytes file b' m1).length, lastOf none m1, m2.head?) ∧
      Reached file b' m1 m2 s wanted ∧ Same b b' := by
  induction fuel generalizing b l1 l2 with
  | zero => omega
  | succ fuel ih =>
    unfold getBlockLoop
    rcases makeBlock_spec env h hblocksize hpos hwanted with
      ⟨hmake, rfl, hall, hend⟩ | ⟨b1, bl, l3, hmake, h1, hbytes, hsame⟩
    · rw [hmake]
      refine ⟨b, l1, [], rfl, ⟨h, hpos, ?_, fun _ => ⟨hall, hend⟩⟩, Same.refl b⟩
      intro bl hbl
      cases hbl
    · rw [hmake]
      dsimp only [bind, Except.bind]
      rw [← hbytes] at hpos hfuel ⊢
      by_cases hin : (bytes file b1 l1).length ≤ wanted ∧
          wanted < (bytes file b1 l1).length + (b1.heap bl).blocklen
      · rw [if_pos hin]
        refine ⟨b1, l1, bl :: l3, rfl, ⟨h1, hpos, ?_, ?_⟩, hsame⟩
        · intro x hx
          cases hx
          exact hin.2
        · intro hnil
          cases hnil
      · rw [if_neg hin]
        have hlen : (content file (b1.heap bl)).length = (b1.heap bl).blocklen :=
          content_length h1.shape.sized_at
        have hpositive : 0 < (b1.heap bl).blocklen := h1.nonempty bl (by simp)
        have hfront : (bytes file b1 (l1 ++ [bl])).length =
            (bytes file b1 l1).length + (b1.heap bl).blocklen := by
          rw [bytes_append, bytes_cons, bytes_nil, List.append_nil, List.length_append, hlen]
        have hnext : (b1.heap bl).next = l3.head? := by
          have hpath := h1.shape.path
          rw [path_append] at hpath
          exact hpath.2.head
        have h2 : Holds file b1 ((l1 ++ [bl]) ++ l3) s := by
          rw [List.append_assoc]
          exact h1
        rw [hnext, ← hfront, show some bl = lastOf none (l1 ++ [bl]) from
          (lastOf_append none l1 [bl]).symm]
        obtain ⟨b', m1, m2, hloop, hreached, hsame2⟩ := ih h2
          (hsame.blocksize ▸ hblocksize) (by omega) (by omega)
        exact ⟨b', m1, m2, hloop, hreached, hsame.trans hsame2⟩

/-- The search starts behind some of the blocks, at a position that is not beyond the wanted
one. -/
theorem searchStart_spec (h : Holds file b l s) (wanted : Nat) :
    ∃ l1 l2, l = l1 ++ l2 ∧ (bytes file b l1).length ≤ wanted ∧
      searchStart b wanted = ((bytes file b l1).length, lastOf none l1, l2.head?) := by
  unfold searchStart
  by_cases hplace : b.lastprev ≠ none ∧ b.lastpos ≤ wanted
  · rw [if_pos hplace]
    rcases h.placed with hnone | ⟨l1, ⟨l2, rfl⟩, hprev, hpos⟩
    · exact absurd hnone hplace.1
    · refine ⟨l1, l2, rfl, hpos ▸ hplace.2, ?_⟩
      rw [hprev, hpos, h.shape.path.link_lastOf]
  · rw [if_neg hplace]
    refine ⟨[], l, rfl, Nat.zero_le _, ?_⟩
    rw [← h.shape.path.head]
    rfl

theorem withText_blocklen {text : List Byte} (x : Nat) :
    ((b.setBlock bl ((b.heap bl).withText text)).heap x).blocklen = (b.heap x).blocklen := by
  by_cases hx : x = bl
  · rw [hx, setBlock_heap_self]
    rfl
  · rw [setBlock_heap_of_ne hx]

theorem Holds.withText (h : Holds file b l s) {text : List Byte} {n : Nat}
    (hlen : text.length = b.blocksize) (hbl : bl ∈ l)
    (htext : text.take (b.heap bl).blocklen = content file (b.heap bl)) :
    Holds file { b.setBlock bl ((b.heap bl).withText text) with reads := n } l s := by
  have hbytes := bytes_withText htext
  have hshape : Shape file (b.setBlock bl ((b.heap bl).withText text)) l :=
    h.shape.set rfl ((h.shape.sized bl hbl).withText hlen)
  refine ⟨⟨hshape.path, hshape.nodup, hshape.old, hshape.sized⟩, ?_, ?_, ?_, h.buflen, ?_⟩
  · intro x hx
    dsimp only
    rw [withText_blocklen]
    exact h.nonempty x hx
  · exact (hbytes l).symm ▸ h.front
  · rcases h.rest with hall | hrest
    · exact Or.inl ((hbytes l).trans hall)
    · exact Or.inr hrest
  · exact h.placed.mono ⟨rfl, rfl, rfl, rfl⟩ (fun l1 _ => hbytes l1) (List.prefix_refl l)

/-- What a search gives: the text is unchanged, the block that was found is read, and its place is
kept. -/
structure Got (file : List Byte) (b b' : Bufdata) (l1 l2 : List Nat) (s : List Byte)
    (wanted : Nat) : Prop extends Reached file b' l1 l2 s wanted where
  isRead : ∀ bl ∈ l2.head?, (b'.heap bl).text ≠ none
  blocksize : b'.blocksize = b.blocksize
  done : b'.done_all_file_offsets = b.done_all_file_offsets
  lastprev : b'.lastprev = lastOf none l1
  lastpos : b'.lastpos = (bytes file b' l1).length

theorem Reached.withText (h : Reached file b l1 l2 s wanted) {text : List Byte} {n : Nat}
    (hlen : text.length = b.blocksize) (hbl : bl ∈ l1 ++ l2)
    (htext : text.take (b.heap bl).blocklen = content file (b.heap bl)) :
    Reached file { b.setBlock bl ((b.heap bl).withText text) with reads := n } l1 l2 s wanted := by
  have hbytes : bytes file { b.setBlock bl ((b.heap bl).withText text) with reads := n } l1 =
      bytes file b l1 := bytes_withText htext l1
  refine ⟨h.holds.withText hlen hbl htext, ?_, ?_, ?_⟩
  · rw [hbytes]
    exact h.before
  · intro x hx
    rw [hbytes]
    dsimp only
    rw [withText_blocklen]
    exact h.inside x hx
  · rw [hbytes]
    exact h.atEnd

theorem Reached.at_place (h : Reached file b l1 l2 s wanted) :
    Reached file { b with lastpos := (bytes file b l1).length, lastprev := lastOf none l1 } l1 l2 s
      wanted :=
  ⟨⟨⟨h.holds.shape.path, h.holds.shape.nodup, h.holds.shape.old, h.holds.shape.sized⟩,
    h.holds.nonempty, h.holds.front, h.holds.rest, h.holds.buflen,
    Or.inr ⟨l1, List.prefix_append l1 l2, rfl, rfl⟩⟩, h.before, h.inside, h.atEnd⟩

theorem getBlock_spec (henv : ReadsFile env file) (h : Holds file b l s)
    (hblocksize : 0 < b.blocksize) (hwanted : wanted ≤ s.length) :
    ∃ b' l1 l2, getBlock env b wanted =
        .ok (b', lastOf none l1, l2.head?, wanted - (bytes file b' l1).length) ∧
      Got file b b' l1 l2 s wanted := by
  obtain ⟨l1, l2, rfl, hpos, hstart⟩ := searchStart_spec h wanted
  obtain ⟨b1, m1, m2, hloop, hreached, hsame⟩ :=
    getBlockLoop_spec env hwanted (wanted + 1) h hblocksize hpos (by omega)
  unfold getBlock
  rw [hstart]
  dsimp only
  rw [hloop]
  dsimp only [bind, Except.bind]
  cases m2 with
  | nil =>
    refine ⟨_, m1, [], rfl, hreached.at_place, ?_, hsame.blocksize, hsame.done, rfl, rfl⟩
    intro bl hbl
    cases hbl
  | cons bl m2 =>
    have hmem : bl ∈ m1 ++ bl :: m2 := by simp
    obtain ⟨text, n, hread, hlen, htext⟩ := needText_spec henv hreached.holds.shape.sized_at
    have hreached2 := hreached.withText (n := n) hlen hmem htext
    have hbytes : bytes file { b1.setBlock bl ((b1.heap bl).withText text) with reads := n } m1 =
        bytes file b1 m1 := bytes_withText htext m1
    dsimp only [List.head?_cons]
    rw [hread, ← hbytes]
    refine ⟨_, m1, bl :: m2, rfl, hreached2.at_place, ?_, hsame.blocksize, hsame.done, rfl, rfl⟩
    intro x hx
    cases hx
    dsimp only
    rw [setBlock_heap_self]
    exact Option.some_ne_none text

/-- With every block made, the blocks hold the whole text. -/
theorem Holds.whole (h : Holds file b l s) (hdone : b.done_all_file_offsets = true) :
    bytes file b l = s := by
  rcases h.rest with hall | hrest
  · exact hall
  · rw [hdone] at hrest
    cases hrest.1

theorem setAllFileOffsets_spec (henv : ReadsFile env file) (h : Holds file b l s)
    (hblocksize : 0 < b.blocksize) :
    ∃ b' l', setAllFileOffsets env b = .ok b' ∧ Holds file b' l' s ∧
      b'.done_all_file_offsets = true ∧ b'.blocksize = b.blocksize := by
  unfold setAllFileOffsets
  by_cases hdone : b.done_all_file_offsets = true
  · rw [if_pos hdone]
    exact ⟨b, l, rfl, h, hdone, rfl⟩
  · rw [if_neg hdone]
    obtain ⟨b1, l1, l2, hget, hgot⟩ :=
      getBlock_spec henv h hblocksize (Nat.le_of_eq h.buflen)
    rw [hget]
    refine ⟨{ b1 with done_all_file_offsets := true }, l1 ++ l2, rfl, ?_, rfl, hgot.blocksize⟩
    have hholds := hgot.holds
    have hnil : l2 = [] := by
      cases l2 with
      | nil => rfl
      | cons bl l2 =>
        have hin := hgot.inside bl rfl
        have htotal := hholds.total
        rw [bytes_cons, List.length_append, content_length hholds.shape.sized_at] at htotal
        have hbuflen := h.buflen
        omega
    subst hnil
    have hall := (hgot.atEnd rfl).1
    rw [List.append_nil] at hholds ⊢
    exact ⟨⟨hholds.shape.path, hholds.shape.nodup, hholds.shape.old, hholds.shape.sized⟩,
      hholds.nonempty, hholds.front, Or.inl hall, hholds.buflen, hholds.placed⟩

end ups_rules.lbuf
