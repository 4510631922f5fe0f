-- The allocation pools of libukcprog (alloc.c): blocks that are filled from both ends, and marks to
-- which a pool is set back.
import Mathlib.Algebra.Ring.Int.Defs
import Mathlib.Algebra.Ring.Nat
import Mathlib.Data.List.Perm.Basic
import Mathlib.Logic.Function.Basic

namespace ups_rules.alloc_pool

/-! ## The pure model -/

/-- An ablock_t. Its buffer is at `ab_buf`, right behind its header. -/
structure Ablock where
  ab_buf : Nat
  ab_pos : Nat
  ab_end : Nat
  ab_size : Nat
deriving DecidableEq

/-- What is at the address of an alloc_mark_t; `am_apool` says whether it still is the pool. -/
structure Mark where
  am_apool : Bool
  am_ablock : Nat
  am_pos : Nat
  am_end : Nat
deriving DecidableEq

/-- An alloc_pool_t. The two chains are linked by `ab_next`, the last block of the first one is
`ap_first_ablock`; `memory` has the marks that are in the blocks. -/
structure Pool where
  ap_ablock : List Ablock
  ap_freelist : List Ablock
  ap_nblocks : Nat
  ap_debug : Bool
  ap_first_ablock : Nat
  memory : Nat → Option Mark

def ALIGN : Nat := 8
def NSMALLBLOCKS : Nat := 32
def sizeof_ablock_t : Nat := 40
def sizeof_alloc_pool_t : Nat := 64
def sizeof_alloc_mark_t : Nat := 32
def MALLOC_OVERHEAD : Nat := 24
def SBLOCKSIZE : Nat := 256 - sizeof_alloc_pool_t - MALLOC_OVERHEAD
def BLOCKSIZE : Nat := 4096 - sizeof_ablock_t - MALLOC_OVERHEAD

/-- `memset` of the `n` bytes at `a`: no mark is left there. -/
def wipe (memory : Nat → Option Mark) (a n : Nat) : Nat → Option Mark :=
  fun x => if a < x + sizeof_alloc_mark_t ∧ x < a + n then none else memory x

def wipeIf (debug : Bool) (memory : Nat → Option Mark) (a n : Nat) : Nat → Option Mark :=
  if debug then wipe memory a n else memory

/-- The block as it is when nothing is allocated in it. -/
def Ablock.reset (ab : Ablock) : Ablock :=
  { ab with ab_pos := ab.ab_buf, ab_end := ab.ab_buf + ab.ab_size }

def pushAblock (ap : Pool) (ab_buf size : Nat) : Pool :=
  { ap with
    ap_ablock := ⟨ab_buf, ab_buf, ab_buf + size, size⟩ :: ap.ap_ablock
    memory := wipeIf ap.ap_debug ap.memory ab_buf size }

/-- A pool whose header `malloc` has put at `ap`. -/
def allocCreatePool (debug : Bool) (ap : Nat) : Pool :=
  pushAblock ⟨[], [], 0, debug, ap + sizeof_alloc_pool_t, fun _ => none⟩
    (ap + sizeof_alloc_pool_t) SBLOCKSIZE

/-- The loop of `reset_ablocks`; `none` is a null pointer dereferenced. -/
def resetAblocks (ap : Pool) (limab : Nat) : List Ablock → Option Pool
  | [] => none
  | ab :: chain =>
    if ab.ab_buf = limab then some { ap with ap_ablock := ab :: chain }
    else resetAblocks { ap with
      ap_freelist := ab.reset :: ap.ap_freelist
      memory := wipeIf ap.ap_debug ap.memory ab.ab_buf ab.ab_size } limab chain

def allocResetPool (ap : Pool) : Option Pool :=
  match resetAblocks ap ap.ap_first_ablock ap.ap_ablock with
  | none => none
  | some ap =>
    match ap.ap_ablock with
    | [] => none
    | ab :: chain =>
      some { ap with
        ap_ablock := ab.reset :: chain
        memory := wipeIf ap.ap_debug ap.memory ab.ab_buf ab.ab_size }

/-- What `find_ab` asks `malloc` for, without the header. -/
def newSize (ap : Pool) (size : Nat) : Nat :=
  let blocksize := if ap.ap_nblocks < NSMALLBLOCKS then SBLOCKSIZE else BLOCKSIZE
  if size < blocksize then blocksize else size

/-- `size` is an unsigned int, and `buf` is what `malloc` gives. -/
def findAb (ap : Pool) (size buf : Nat) : Pool :=
  let size := size % 2 ^ 32
  match ap.ap_freelist with
  | ab :: rest =>
    if size ≤ ab.ab_size then
      { ap with ap_freelist := rest, ap_ablock := ab :: ap.ap_ablock }
    else { pushAblock ap (buf + sizeof_ablock_t) (newSize ap size) with
      ap_nblocks := ap.ap_nblocks + 1 }
  | [] => { pushAblock ap (buf + sizeof_ablock_t) (newSize ap size) with
      ap_nblocks := ap.ap_nblocks + 1 }

/-- The pool whose head has `nbytes` bytes left; the pool always has a head. -/
def withRoom (ap : Pool) (nbytes buf : Nat) : Pool :=
  match ap.ap_ablock with
  | [] => ap
  | ab :: _ => if ab.ab_end - ab.ab_pos < nbytes then findAb ap nbytes buf else ap

def roundUp (nbytes : Nat) : Nat :=
  let excess := nbytes % ALIGN
  if excess ≠ 0 then nbytes + (ALIGN - excess) else nbytes

def alloc (ap : Pool) (nbytes buf : Nat) : Option (Pool × Nat) :=
  let nbytes := roundUp nbytes
  let ap := withRoom ap nbytes buf
  match ap.ap_ablock with
  | [] => none
  | ab :: chain =>
    some ({ ap with ap_ablock := { ab with ab_pos := ab.ab_pos + nbytes } :: chain }, ab.ab_pos)

def allocstr (ap : Pool) (nbytes buf : Nat) : Option (Pool × Nat) :=
  let ap := withRoom ap nbytes buf
  match ap.ap_ablock with
  | [] => none
  | ab :: chain =>
    some ({ ap with ap_ablock := { ab with ab_end := ab.ab_end - nbytes } :: chain },
      ab.ab_end - nbytes)

def allocMark (ap : Pool) (buf : Nat) : Option (Pool × Nat) :=
  match ap.ap_ablock with
  | [] => none
  | save_ab :: _ =>
    match alloc ap sizeof_alloc_mark_t buf with
    | none => none
    | some (ap, am) =>
      let mark : Mark := ⟨true, save_ab.ab_buf, save_ab.ab_pos, save_ab.ab_end⟩
      let memory := wipe ap.memory am sizeof_alloc_mark_t
      some ({ ap with memory := Function.update memory am (some mark) }, am)

def allocRelease (ap : Pool) (am : Nat) : Option Pool :=
  match ap.memory am with
  | none => none
  | some mark =>
    if !mark.am_apool then none
    else
      match resetAblocks ap mark.am_ablock ap.ap_ablock with
      | none => none
      | some ap =>
        match ap.ap_ablock with
        | [] => none
        | ab :: chain =>
          let memory :=
            if ap.ap_debug then
              wipe (wipe ap.memory mark.am_pos (ab.ab_pos - mark.am_pos)) ab.ab_end
                (mark.am_end - ab.ab_end)
            else Function.update ap.memory am (some { mark with am_apool := false })
          some { ap with
            ap_ablock := { ab with ab_pos := mark.am_pos, ab_end := mark.am_end } :: chain
            memory := memory }

/-- A call; `buf` is what `malloc` gives if it is asked. -/
inductive Call where
  | alloc (nbytes buf : Nat)
  | allocstr (nbytes buf : Nat)
  | alloc_mark (buf : Nat)
  | alloc_release (am : Nat)
  | alloc_reset_pool

/-! ## What a pool is for -/

inductive Kind where
  | plain | str | mark
deriving DecidableEq

/-- A region that a call has returned. -/
structure Region where
  kind : Kind
  addr : Nat
  len : Nat
deriving DecidableEq

def Region.isMark (am : Nat) (r : Region) : Bool := r.kind == .mark && r.addr == am

/-- A call, and the regions that are not released, the last one first. -/
def Call.exec (s : Pool × List Region) : Call → Option (Pool × List Region)
  | .alloc nbytes buf =>
    (alloc_pool.alloc s.1 nbytes buf).map fun r => (r.1, ⟨.plain, r.2, nbytes⟩ :: s.2)
  | .allocstr nbytes buf =>
    (alloc_pool.allocstr s.1 nbytes buf).map fun r => (r.1, ⟨.str, r.2, nbytes⟩ :: s.2)
  | .alloc_mark buf =>
    (allocMark s.1 buf).map fun r => (r.1, ⟨.mark, r.2, sizeof_alloc_mark_t⟩ :: s.2)
  | .alloc_release am =>
    -- the mark and all that is newer
    (allocRelease s.1 am).map fun ap => (ap, (s.2.dropWhile (!·.isMark am)).tail)
  | .alloc_reset_pool => (allocResetPool s.1).map fun ap => (ap, [])

def blocks (ap : Pool) : List Ablock := ap.ap_ablock ++ ap.ap_freelist

/-- `malloc` gives aligned memory that the pool does not have. -/
def FreshBuf (ap : Pool) (nbytes buf : Nat) : Prop :=
  8 ∣ buf ∧ ∀ ab ∈ blocks ap, ab.ab_buf + ab.ab_size ≤ buf ∨
    buf + sizeof_ablock_t + newSize ap nbytes ≤ ab.ab_buf

def Call.Legal (s : Pool × List Region) : Call → Prop
  | .alloc nbytes buf => nbytes < 2 ^ 31 ∧ FreshBuf s.1 (roundUp nbytes) buf
  | .allocstr nbytes buf => nbytes < 2 ^ 31 ∧ FreshBuf s.1 nbytes buf
  | .alloc_mark buf => FreshBuf s.1 sizeof_alloc_mark_t buf
  | .alloc_release am => ∃ r ∈ s.2, r.isMark am = true
  | .alloc_reset_pool => True

def LegalRun : Pool × List Region → List Call → Prop
  | _, [] => True
  | s, c :: cs => c.Legal s ∧ ∀ s', c.exec s = some s' → LegalRun s' cs

/-- Every call comes back, and the state is as `P` says before and behind each. -/
def Throughout (P : Pool × List Region → Prop) : Pool × List Region → List Call → Prop
  | s, [] => P s
  | s, c :: cs => P s ∧ ∃ s', c.exec s = some s' ∧ Throughout P s' cs

def Region.Apart (r r' : Region) : Prop := r.addr + r.len ≤ r'.addr ∨ r'.addr + r'.len ≤ r.addr

/-- The regions that are not released are each inside one block of the pool, aligned but for those
of `allocstr`, and have nothing in common. -/
structure Separate (s : Pool × List Region) : Prop where
  inside : ∀ r ∈ s.2, ∃ ab ∈ blocks s.1,
    ab.ab_buf ≤ r.addr ∧ r.addr + r.len ≤ ab.ab_buf + ab.ab_size
  aligned : ∀ r ∈ s.2, r.kind ≠ .str → r.addr % ALIGN = 0
  apart : s.2.Pairwise Region.Apart

/-! ## Blocks -/

def Ablock.Apart (a b : Ablock) : Prop :=
  a.ab_buf + a.ab_size ≤ b.ab_buf ∨ b.ab_buf + b.ab_size ≤ a.ab_buf

/-- The fill positions are in order, and the lower one is aligned. -/
structure Ablock.Sound (ab : Ablock) : Prop where
  size : 0 < ab.ab_size
  aligned : ab.ab_buf % ALIGN = 0 ∧ ab.ab_pos % ALIGN = 0
  buf : ab.ab_buf ≤ ab.ab_pos
  pos : ab.ab_pos ≤ ab.ab_end
  le_size : ab.ab_end ≤ ab.ab_buf + ab.ab_size

theorem Ablock.Sound.reset {ab : Ablock} (h : ab.Sound) : ab.reset.Sound :=
  ⟨h.size, ⟨h.aligned.1, h.aligned.1⟩, Nat.le_refl _, Nat.le_add_right _ _, Nat.le_refl _⟩

theorem Ablock.Apart.ne {a b : Ablock} (h : a.Apart b) (ha : a.Sound) (hb : b.Sound) :
    a.ab_buf ≠ b.ab_buf := by
  have := ha.size
  have := hb.size
  unfold Ablock.Apart at h
  omega

/-- The chains of a pool have sound blocks that are apart, those of the second one are empty. -/
structure WellFormed (ap : Pool) : Prop where
  first : (ap.ap_ablock.map (·.ab_buf)).getLast? = some ap.ap_first_ablock
  sound : ∀ ab ∈ blocks ap, ab.Sound
  free : ∀ ab ∈ ap.ap_freelist, ab = ab.reset
  apart : (blocks ap).Pairwise Ablock.Apart

/-- The region is in the part of a block that has been handed out. -/
def Taken (chain : List Ablock) (r : Region) : Prop :=
  ∃ ab ∈ chain, (ab.ab_buf ≤ r.addr ∧ r.addr + r.len ≤ ab.ab_pos) ∨
    (ab.ab_end ≤ r.addr ∧ r.addr + r.len ≤ ab.ab_buf + ab.ab_size)

/-- Nothing of the region has been handed out. -/
def Free (chain : List Ablock) (r : Region) : Prop := ∀ r', Taken chain r' → r.Apart r'

/-- The first chain has come from the second one by filling its head and pushing blocks. -/
def Extends (chain chain' : List Ablock) : Prop :=
  ∃ pre b b' tl, chain = pre ++ b :: tl ∧ chain' = b' :: tl ∧ b.ab_buf = b'.ab_buf ∧
    b.ab_size = b'.ab_size ∧ b'.ab_pos ≤ b.ab_pos ∧ b.ab_end ≤ b'.ab_end

section
variable {ap ap' : Pool} {chain chain' chain'' : List Ablock} {r r' : Region} {live : List Region}
  {memory memory' : Nat → Option Mark} {ab b : Ablock} {tl : List Ablock}

theorem Region.Apart.symm (h : r.Apart r') : r'.Apart r := Or.symm h

theorem Ablock.Apart.symm {a b : Ablock} (h : a.Apart b) : b.Apart a := Or.symm h

theorem Extends.refl (h : chain ≠ []) : Extends chain chain := by
  obtain ⟨b, tl, rfl⟩ := List.exists_cons_of_ne_nil h
  exact ⟨[], b, b, tl, rfl, rfl, rfl, rfl, Nat.le_refl _, Nat.le_refl _⟩

theorem Extends.trans (h : Extends chain chain') (h' : Extends chain' chain'') :
    Extends chain chain'' := by
  obtain ⟨pre, b, b', tl, rfl, rfl, hbuf, hsize, hpos, hend⟩ := h
  obtain ⟨pre', c, c', tl', hchain, rfl, hbuf', hsize', hpos', hend'⟩ := h'
  cases pre' with
  | nil =>
    obtain ⟨rfl, rfl⟩ := List.cons.inj hchain
    exact ⟨pre, b, c', tl, rfl, rfl, hbuf.trans hbuf', hsize.trans hsize', by omega, by omega⟩
  | cons p pre' =>
    obtain ⟨rfl, rfl⟩ := List.cons.inj hchain
    exact ⟨pre ++ b :: pre', c, c', tl', by simp, rfl, hbuf', hsize', hpos', hend'⟩

theorem Taken.mono (h : Extends chain chain') (hr : Taken chain' r) : Taken chain r := by
  obtain ⟨pre, b, b', tl, rfl, rfl, hbuf, hsize, hpos, hend⟩ := h
  obtain ⟨ab, hab, htaken⟩ := hr
  cases List.mem_cons.mp hab with
  | inl heq =>
    subst heq
    refine ⟨b, by simp, ?_⟩
    omega
  | inr hmem => exact ⟨ab, by simp [hmem], htaken⟩

theorem Free.mono (h : Extends chain chain') (hr : Free chain r) : Free chain' r :=
  fun r' hr' => hr r' (hr'.mono h)

/-! ## The regions that are not released -/

/-- What holds of the regions, the last one first: each was free when it was handed out, and for a
mark there is the memory that says to which chain the pool goes back. -/
def Layered (memory : Nat → Option Mark) : List Ablock → List Region → Prop
  | _, [] => True
  | chain, r :: older =>
    Taken chain r ∧ (r.kind ≠ .str → r.addr % ALIGN = 0) ∧
      ∃ b tl, Extends chain (b :: tl) ∧ b.Sound ∧ Free (b :: tl) r ∧
        (r.kind = .mark → r.len = sizeof_alloc_mark_t ∧
          memory r.addr = some ⟨true, b.ab_buf, b.ab_pos, b.ab_end⟩) ∧
        Layered memory (b :: tl) older

theorem Layered.mono (h : Extends chain chain') (hl : Layered memory chain' live) :
    Layered memory chain live := by
  cases live with
  | nil => trivial
  | cons r older =>
    obtain ⟨htaken, haligned, b, tl, hext, hrest⟩ := hl
    exact ⟨htaken.mono h, haligned, b, tl, h.trans hext, hrest⟩

theorem Layered.taken (h : Layered memory chain live) : ∀ r ∈ live, Taken chain r := by
  induction live generalizing chain with
  | nil => simp
  | cons r older ih =>
    obtain ⟨htaken, -, b, tl, hext, -, -, -, holder⟩ := h
    intro r' hr'
    cases List.mem_cons.mp hr' with
    | inl heq => exact heq ▸ htaken
    | inr hmem => exact (ih holder r' hmem).mono hext

theorem Layered.pairwise (h : Layered memory chain live) : live.Pairwise Region.Apart := by
  induction live generalizing chain with
  | nil => exact .nil
  | cons r older ih =>
    obtain ⟨-, -, b, tl, -, -, hfree, -, holder⟩ := h
    exact .cons (fun r' hr' => hfree r' (holder.taken r' hr')) (ih holder)

theorem Layered.aligned (h : Layered memory chain live) :
    ∀ r ∈ live, r.kind ≠ .str → r.addr % ALIGN = 0 := by
  induction live generalizing chain with
  | nil => simp
  | cons r older ih =>
    obtain ⟨-, haligned, b, tl, -, -, -, -, holder⟩ := h
    intro r' hr'
    cases List.mem_cons.mp hr' with
    | inl heq => exact heq ▸ haligned
    | inr hmem => exact ih holder r' hmem

/-- The place of a mark in a chain. -/
def Marked (chain : List Ablock) (a : Nat) : Prop := Taken chain ⟨.mark, a, sizeof_alloc_mark_t⟩

/-- Only the marks in what has been handed out count. -/
theorem Layered.congr (h : Layered memory chain live)
    (hmem : ∀ a, Marked chain a → memory' a = memory a) : Layered memory' chain live := by
  induction live generalizing chain with
  | nil => trivial
  | cons r older ih =>
    obtain ⟨htaken, haligned, b, tl, hext, hsound, hfree, hmark, holder⟩ := h
    refine ⟨htaken, haligned, b, tl, hext, hsound, hfree, ?_, ?_⟩
    · intro hkind
      obtain ⟨hlen, hmemory⟩ := hmark hkind
      obtain ⟨kind, addr, len⟩ := r
      dsimp only at hkind hlen hmemory ⊢
      subst hkind hlen
      exact ⟨rfl, (hmem addr htaken).trans hmemory⟩
    · exact ih holder fun a ha => hmem a (Taken.mono hext ha)

/-- The chain to which a mark sets the pool back, with what is older than the mark. -/
theorem Layered.at_mark {am : Nat} (h : Layered memory chain live)
    (hmem : ∃ r ∈ live, r.isMark am = true) :
    ∃ b tl, Extends chain (b :: tl) ∧ b.Sound ∧
      memory am = some ⟨true, b.ab_buf, b.ab_pos, b.ab_end⟩ ∧
      Free (b :: tl) ⟨.mark, am, sizeof_alloc_mark_t⟩ ∧
      Layered memory (b :: tl) (live.dropWhile (!·.isMark am)).tail := by
  induction live generalizing chain with
  | nil => simp at hmem
  | cons r older ih =>
    obtain ⟨htaken, haligned, b, tl, hext, hsound, hfree, hmark, holder⟩ := h
    by_cases hr : r.isMark am = true
    · rw [List.dropWhile_cons_of_neg (by simpa using hr), List.tail_cons]
      obtain ⟨kind, addr, len⟩ := r
      unfold Region.isMark at hr
      rw [Bool.and_eq_true, beq_iff_eq, beq_iff_eq] at hr
      dsimp only at hr hmark
      obtain ⟨rfl, rfl⟩ := hr
      obtain ⟨rfl, hmemory⟩ := hmark rfl
      exact ⟨b, tl, hext, hsound, hmemory, hfree, holder⟩
    · rw [List.dropWhile_cons_of_pos (by simpa using hr)]
      obtain ⟨r', hr', hmark'⟩ := hmem
      have holder' : r' ∈ older := by
        cases List.mem_cons.mp hr' with
        | inl heq => exact absurd (heq ▸ hmark') hr
        | inr hmem => exact hmem
      obtain ⟨b', tl', hext', hrest⟩ := ih holder ⟨r', holder', hmark'⟩
      exact ⟨b', tl', hext.trans hext', hrest⟩

end

/-! ## Room for a request -/

section
variable {ap : Pool} {ab b : Ablock} {chain tl : List Ablock} {r : Region} {nbytes buf : Nat}

theorem pairwise_of_perm {l l' : List Ablock} (h : l.Perm l') (hl : l.Pairwise Ablock.Apart) :
    l'.Pairwise Ablock.Apart := (h.pairwise_iff fun h => h.symm).mp hl

theorem WellFormed.ne_nil (h : WellFormed ap) : ap.ap_ablock ≠ [] := by
  intro hnil
  have hfirst := h.first
  rw [hnil] at hfirst
  cases hfirst

theorem WellFormed.of_chain (h : WellFormed ap) (hab : ab ∈ ap.ap_ablock) : ab.Sound :=
  h.sound ab (List.mem_append_left _ hab)

/-- What is left of the head is free. -/
theorem WellFormed.free_head (h : WellFormed ap) (hchain : ap.ap_ablock = ab :: chain)
    (hlo : ab.ab_pos ≤ r.addr) (hhi : r.addr + r.len ≤ ab.ab_end) : Free ap.ap_ablock r := by
  have hsound := h.of_chain (hchain ▸ List.mem_cons_self)
  have hapart := (List.pairwise_append.mp h.apart).1
  rw [hchain] at hapart
  rintro r' ⟨b, hb, htaken⟩
  rw [hchain] at hb
  unfold Region.Apart
  have := hsound.buf
  have := hsound.le_size
  cases List.mem_cons.mp hb with
  | inl heq =>
    subst heq
    omega
  | inr hmem =>
    have hb' := h.of_chain (hchain ▸ List.mem_cons_of_mem ab hmem)
    have hab := (List.pairwise_cons.mp hapart).1 b hmem
    unfold Ablock.Apart at hab
    have := hb'.buf
    have := hb'.pos
    have := hb'.le_size
    omega

/-- A pushed block is not the last one. -/
theorem WellFormed.first_cons (h : WellFormed ap) (ab : Ablock) :
    ((ab :: ap.ap_ablock).map (·.ab_buf)).getLast? = some ap.ap_first_ablock := by
  obtain ⟨b, tl, hchain⟩ := List.exists_cons_of_ne_nil h.ne_nil
  have hfirst := h.first
  rw [hchain] at hfirst ⊢
  simpa using hfirst

theorem wellFormed_pushAblock (h : WellFormed ap) {size : Nat} (hsize : 0 < size)
    (haligned : buf % ALIGN = 0)
    (hfresh : ∀ ab ∈ blocks ap, ab.ab_buf + ab.ab_size ≤ buf ∨ buf + size ≤ ab.ab_buf) :
    WellFormed (pushAblock ap buf size) where
  first := h.first_cons _
  sound := by
    intro ab hab
    cases List.mem_cons.mp hab with
    | inl heq =>
      subst heq
      exact ⟨hsize, ⟨haligned, haligned⟩, Nat.le_refl _, Nat.le_add_right _ _, Nat.le_refl _⟩
    | inr hmem => exact h.sound ab hmem
  free := h.free
  apart := .cons (fun ab hab => (hfresh ab hab).symm) h.apart

theorem newSize_pos (ap : Pool) (size : Nat) : 0 < newSize ap size ∧ size ≤ newSize ap size := by
  have hblock : 0 < if ap.ap_nblocks < NSMALLBLOCKS then SBLOCKSIZE else BLOCKSIZE := by
    split <;> decide
  unfold newSize
  dsimp only
  generalize (if ap.ap_nblocks < NSMALLBLOCKS then SBLOCKSIZE else BLOCKSIZE) = blocksize at hblock
  split <;> omega

/-- The memory is wiped only where no mark is. -/
theorem wipeIf_of_apart {debug : Bool} {memory : Nat → Option Mark} {a n x : Nat}
    (h : x + sizeof_alloc_mark_t ≤ a ∨ a + n ≤ x) : wipeIf debug memory a n x = memory x := by
  unfold wipeIf
  split
  · exact if_neg (by omega)
  · rfl

/-- What is done to get a block at the head: it is sound, empty, and in front of the others. -/
structure Pushes (ap ap' : Pool) (ab : Ablock) : Prop where
  chain : ap'.ap_ablock = ab :: ap.ap_ablock
  wf : WellFormed ap'
  empty : ab = ab.reset
  debug : ap'.ap_debug = ap.ap_debug
  memory : ∀ a, Marked ap.ap_ablock a → ap'.memory a = ap.memory a

theorem pushes_pushAblock (h : WellFormed ap) {size : Nat} (hsize : 0 < size)
    (haligned : buf % ALIGN = 0)
    (hfresh : ∀ ab ∈ blocks ap, ab.ab_buf + ab.ab_size ≤ buf ∨ buf + size ≤ ab.ab_buf) :
    Pushes ap (pushAblock ap buf size) ⟨buf, buf, buf + size, size⟩ where
  chain := rfl
  wf := wellFormed_pushAblock h hsize haligned hfresh
  empty := rfl
  debug := rfl
  memory := by
    rintro a ⟨ab, hab, htaken⟩
    have hsound := h.of_chain hab
    have hor := hfresh ab (List.mem_append_left _ hab)
    have := hsound.buf
    have := hsound.pos
    have := hsound.le_size
    dsimp only at htaken
    exact wipeIf_of_apart (by omega)

theorem Pushes.count {ap' : Pool} (h : Pushes ap ap' ab) (n : Nat) :
    Pushes ap { ap' with ap_nblocks := n } ab :=
  ⟨h.chain, ⟨h.wf.first, h.wf.sound, h.wf.free, h.wf.apart⟩, h.empty, h.debug, h.memory⟩

theorem findAb_spec (h : WellFormed ap) (hsize : nbytes < 2 ^ 32) (hfresh : FreshBuf ap nbytes buf) :
    ∃ ab, Pushes ap (findAb ap nbytes buf) ab ∧ nbytes ≤ ab.ab_size := by
  have hnew : Pushes ap { pushAblock ap (buf + sizeof_ablock_t) (newSize ap nbytes) with
      ap_nblocks := ap.ap_nblocks + 1 } _ :=
    (pushes_pushAblock h (newSize_pos ap nbytes).1
      (by obtain ⟨k, rfl⟩ := hfresh.1; unfold ALIGN sizeof_ablock_t; omega)
      (fun ab hab => by
        have := hfresh.2 ab hab
        unfold sizeof_ablock_t at this ⊢
        omega)).count _
  unfold findAb
  dsimp only
  rw [Nat.mod_eq_of_lt hsize]
  split
  · rename_i ab rest hfree
    split
    · rename_i hle
      have hperm : (blocks ap).Perm (ab :: ap.ap_ablock ++ rest) := by
        unfold blocks
        rw [hfree]
        exact List.perm_middle
      have hpush : WellFormed { ap with ap_freelist := rest, ap_ablock := ab :: ap.ap_ablock } := by
        refine ⟨?_, ?_, ?_, pairwise_of_perm hperm h.apart⟩
        · exact h.first_cons ab
        · exact fun b hb => h.sound b (hperm.mem_iff.mpr hb)
        · exact fun b hb => h.free b (hfree ▸ List.mem_cons_of_mem ab hb)
      exact ⟨ab, ⟨rfl, hpush, h.free ab (hfree ▸ List.mem_cons_self), rfl, fun _ _ => rfl⟩, hle⟩
    · exact ⟨_, hnew, (newSize_pos ap nbytes).2⟩
  · exact ⟨_, hnew, (newSize_pos ap nbytes).2⟩

/-- The pool has room for the request at its head. -/
structure HasRoom (ap ap' : Pool) (ab : Ablock) (rest : List Ablock) (nbytes : Nat) : Prop where
  chain : ap'.ap_ablock = ab :: rest
  wf : WellFormed ap'
  ext : Extends ap'.ap_ablock ap.ap_ablock
  room : nbytes ≤ ab.ab_end - ab.ab_pos
  memory : ∀ a, Marked ap.ap_ablock a → ap'.memory a = ap.memory a

theorem withRoom_spec (h : WellFormed ap) (hsize : nbytes < 2 ^ 32)
    (hfresh : FreshBuf ap nbytes buf) :
    ∃ ab rest, HasRoom ap (withRoom ap nbytes buf) ab rest nbytes := by
  obtain ⟨b, tl, hchain⟩ := List.exists_cons_of_ne_nil h.ne_nil
  unfold withRoom
  split
  · rename_i hnil
    exact absurd hnil h.ne_nil
  · rename_i b tl hchain
    split
    · obtain ⟨ab, hpushes, hle⟩ := findAb_spec h hsize hfresh
      have hext : Extends (findAb ap nbytes buf).ap_ablock ap.ap_ablock := by
        rw [hpushes.chain, hchain]
        exact ⟨[ab], b, b, tl, rfl, rfl, rfl, rfl, Nat.le_refl _, Nat.le_refl _⟩
      refine ⟨ab, ap.ap_ablock, hpushes.chain, hpushes.wf, hext, ?_, hpushes.memory⟩
      rw [hpushes.empty]
      unfold Ablock.reset
      dsimp only
      omega
    · exact ⟨b, tl, hchain, h, .refl h.ne_nil, by omega, fun _ _ => rfl⟩

/-- The fill positions of the head are moved. -/
theorem WellFormed.with_head (h : WellFormed ap) (hchain : ap.ap_ablock = ab :: tl)
    (hbuf : b.ab_buf = ab.ab_buf) (hsize : b.ab_size = ab.ab_size) (hsound : b.Sound)
    (memory : Nat → Option Mark) :
    WellFormed { ap with ap_ablock := b :: tl, memory := memory } where
  first := by
    have hfirst := h.first
    rw [hchain, List.map_cons] at hfirst
    rw [List.map_cons, hbuf]
    exact hfirst
  sound := by
    intro c hc
    cases List.mem_cons.mp hc with
    | inl heq => exact heq ▸ hsound
    | inr hmem =>
      apply h.sound c
      unfold blocks
      rw [hchain]
      exact List.mem_cons_of_mem _ hmem
  free := h.free
  apart := by
    have hapart := h.apart
    unfold blocks at hapart
    rw [hchain, List.cons_append, List.pairwise_cons] at hapart
    refine .cons ?_ hapart.2
    intro c hc
    have hab := hapart.1 c hc
    unfold Ablock.Apart at hab ⊢
    rwa [hbuf, hsize]

/-- What a call that hands out a region does to the pool. -/
structure Hands (ap ap' : Pool) (r : Region) : Prop where
  wf : WellFormed ap'
  ext : Extends ap'.ap_ablock ap.ap_ablock
  taken : Taken ap'.ap_ablock r
  free : Free ap.ap_ablock r
  memory : ∀ a, Marked ap.ap_ablock a → ap'.memory a = ap.memory a

theorem le_roundUp (nbytes : Nat) : nbytes ≤ roundUp nbytes ∧ roundUp nbytes % ALIGN = 0 ∧
    roundUp nbytes < nbytes + 8 := by
  unfold roundUp ALIGN
  dsimp only
  split <;> omega

theorem alloc_spec (h : WellFormed ap) (hsize : nbytes < 2 ^ 31)
    (hfresh : FreshBuf ap (roundUp nbytes) buf) :
    ∃ ap' ptr, alloc ap nbytes buf = some (ap', ptr) ∧ ptr % ALIGN = 0 ∧
      ∀ kind, Hands ap ap' ⟨kind, ptr, nbytes⟩ := by
  obtain ⟨hle, hround, hlt⟩ := le_roundUp nbytes
  obtain ⟨ab, rest, hroom⟩ := withRoom_spec h (by omega : roundUp nbytes < 2 ^ 32) hfresh
  have hsound := hroom.wf.of_chain (hroom.chain ▸ List.mem_cons_self)
  have hspace := hroom.room
  have hpos := hsound.pos
  have hnew : Ablock.Sound { ab with ab_pos := ab.ab_pos + roundUp nbytes } := by
    refine ⟨hsound.size, ⟨hsound.aligned.1, ?_⟩, ?_, ?_, hsound.le_size⟩
    · dsimp only
      rw [Nat.add_mod, hsound.aligned.2, hround]
      rfl
    · exact Nat.le_trans hsound.buf (Nat.le_add_right _ _)
    · dsimp only
      omega
  unfold alloc
  dsimp only
  rw [hroom.chain]
  refine ⟨_, ab.ab_pos, rfl, hsound.aligned.2, fun kind => ?_⟩
  have hext : Extends ({ ab with ab_pos := ab.ab_pos + roundUp nbytes } :: rest)
      (withRoom ap (roundUp nbytes) buf).ap_ablock := by
    rw [hroom.chain]
    exact ⟨[], _, ab, rest, rfl, rfl, rfl, rfl, Nat.le_add_right _ _, Nat.le_refl _⟩
  constructor
  · exact hroom.wf.with_head (b := { ab with ab_pos := ab.ab_pos + roundUp nbytes }) hroom.chain
      rfl rfl hnew _
  · exact hext.trans hroom.ext
  · refine ⟨_, List.mem_cons_self, .inl ⟨hsound.buf, ?_⟩⟩
    dsimp only
    omega
  · exact (hroom.wf.free_head hroom.chain (Nat.le_refl _) (by dsimp only; omega)).mono hroom.ext
  · exact hroom.memory

theorem allocstr_spec (h : WellFormed ap) (hsize : nbytes < 2 ^ 31)
    (hfresh : FreshBuf ap nbytes buf) :
    ∃ ap' ptr, allocstr ap nbytes buf = some (ap', ptr) ∧ Hands ap ap' ⟨.str, ptr, nbytes⟩ := by
  obtain ⟨ab, rest, hroom⟩ := withRoom_spec h (by omega : nbytes < 2 ^ 32) hfresh
  have hsound := hroom.wf.of_chain (hroom.chain ▸ List.mem_cons_self)
  have hspace := hroom.room
  have hpos := hsound.pos
  have hend := hsound.le_size
  have hnew : Ablock.Sound { ab with ab_end := ab.ab_end - nbytes } := by
    refine ⟨hsound.size, hsound.aligned, hsound.buf, ?_, ?_⟩
    · dsimp only
      omega
    · dsimp only
      omega
  unfold allocstr
  dsimp only
  rw [hroom.chain]
  refine ⟨_, ab.ab_end - nbytes, rfl, ?_⟩
  have hext : Extends ({ ab with ab_end := ab.ab_end - nbytes } :: rest)
      (withRoom ap nbytes buf).ap_ablock := by
    rw [hroom.chain]
    exact ⟨[], _, ab, rest, rfl, rfl, rfl, rfl, Nat.le_refl _, Nat.sub_le _ _⟩
  constructor
  · exact hroom.wf.with_head (b := { ab with ab_end := ab.ab_end - nbytes }) hroom.chain rfl rfl
      hnew _
  · exact hext.trans hroom.ext
  · refine ⟨_, List.mem_cons_self, .inr ⟨Nat.le_refl _, ?_⟩⟩
    dsimp only
    omega
  · exact (hroom.wf.free_head hroom.chain (by dsimp only; omega) (by dsimp only; omega)).mono
      hroom.ext
  · exact hroom.memory

end

/-! ## Going back to a mark -/

section
variable {ap : Pool} {ab b : Ablock} {chain pre tl : List Ablock} {live : List Region}

/-- What `reset_ablocks` makes of a pool with other blocks in front of `tl`. -/
structure Resets (ap ap' : Pool) (pre tl : List Ablock) : Prop where
  chain : ap'.ap_ablock = tl
  free : ap'.ap_freelist = (pre.map Ablock.reset).reverse ++ ap.ap_freelist
  debug : ap'.ap_debug = ap.ap_debug
  first : ap'.ap_first_ablock = ap.ap_first_ablock
  memory : ∀ a, (∀ ab ∈ pre, a + sizeof_alloc_mark_t ≤ ab.ab_buf ∨ ab.ab_buf + ab.ab_size ≤ a) →
    ap'.memory a = ap.memory a

theorem resetAblocks_spec (ap : Pool) (limab : Nat) (pre : List Ablock) (b : Ablock)
    (tl : List Ablock) (hpre : ∀ ab ∈ pre, ab.ab_buf ≠ limab) (hb : b.ab_buf = limab) :
    ∃ ap', resetAblocks ap limab (pre ++ b :: tl) = some ap' ∧ Resets ap ap' pre (b :: tl) := by
  induction pre generalizing ap with
  | nil =>
    refine ⟨_, if_pos hb, rfl, rfl, rfl, rfl, fun _ _ => rfl⟩
  | cons ab pre ih =>
    obtain ⟨ap', hreset, hspec⟩ := ih { ap with
      ap_freelist := ab.reset :: ap.ap_freelist
      memory := wipeIf ap.ap_debug ap.memory ab.ab_buf ab.ab_size }
      fun c hc => hpre c (List.mem_cons_of_mem ab hc)
    refine ⟨ap', ?_, hspec.chain, ?_, hspec.debug, hspec.first, ?_⟩
    · rw [List.cons_append, resetAblocks, if_neg (hpre ab List.mem_cons_self)]
      exact hreset
    · rw [hspec.free]
      simp
    · intro a ha
      rw [hspec.memory a fun c hc => ha c (List.mem_cons_of_mem ab hc)]
      exact wipeIf_of_apart (ha ab List.mem_cons_self)

/-- The place of a block. -/
def Ablock.extent (ab : Ablock) : Nat × Nat := (ab.ab_buf, ab.ab_size)

theorem pairwise_of_extents {l l' : List Ablock}
    (h : (l.map Ablock.extent).Perm (l'.map Ablock.extent)) (hl : l.Pairwise Ablock.Apart) :
    l'.Pairwise Ablock.Apart := by
  let R : Nat × Nat → Nat × Nat → Prop := fun p q => p.1 + p.2 ≤ q.1 ∨ q.1 + q.2 ≤ p.1
  have hmap : ∀ l : List Ablock, l.Pairwise Ablock.Apart ↔ (l.map Ablock.extent).Pairwise R := by
    intro l
    rw [List.pairwise_map]
    rfl
  rw [hmap] at hl ⊢
  exact (h.pairwise_iff fun h => Or.symm h).mp hl

theorem Resets.wf {ap' : Pool} (h : Resets ap ap' pre (b :: tl)) (hwf : WellFormed ap)
    (hchain : ap.ap_ablock = pre ++ b :: tl) : WellFormed ap' where
  first := by
    have hfirst := hwf.first
    rw [hchain, List.map_append, List.getLast?_append] at hfirst
    rw [h.chain, h.first, ← hfirst, List.map_cons, List.getLast?_cons]
    rfl
  sound := by
    intro ab hab
    unfold blocks at hab
    rw [h.chain, h.free] at hab
    have hsound := hwf.sound
    unfold blocks at hsound
    rw [hchain] at hsound
    simp only [List.mem_append, List.mem_reverse, List.mem_map] at hab hsound
    obtain hmem | ⟨c, hc, rfl⟩ | hmem := hab
    · exact hsound ab (.inl (.inr hmem))
    · exact (hsound c (.inl (.inl hc))).reset
    · exact hsound ab (.inr hmem)
  free := by
    intro ab hab
    rw [h.free] at hab
    simp only [List.mem_append, List.mem_reverse, List.mem_map] at hab
    obtain ⟨c, -, rfl⟩ | hmem := hab
    · rfl
    · exact hwf.free ab hmem
  apart := by
    apply pairwise_of_extents _ hwf.apart
    have hextent : (pre.map Ablock.reset).map Ablock.extent = pre.map Ablock.extent := by
      rw [List.map_map]
      rfl
    unfold blocks
    rw [h.chain, h.free, hchain]
    simp only [List.map_append, List.map_reverse, hextent]
    refine .trans ?_ (List.Perm.append_left _
      (List.Perm.append_right _ (List.reverse_perm _).symm))
    rw [← List.append_assoc]
    exact List.Perm.append_right _ List.perm_append_comm

/-- The blocks in front of a chain have nothing of what has been handed out in it. -/
theorem WellFormed.outside {c : Ablock} {r : Region} (h : WellFormed ap)
    (hchain : ap.ap_ablock = pre ++ c :: tl) (hb : b.Sound) (hbuf : c.ab_buf = b.ab_buf)
    (hsize : c.ab_size = b.ab_size) (hr : Taken (b :: tl) r) (hab : ab ∈ pre) :
    r.addr + r.len ≤ ab.ab_buf ∨ ab.ab_buf + ab.ab_size ≤ r.addr := by
  have hapart := (List.pairwise_append.mp h.apart).1
  rw [hchain] at hapart
  have hacross := (List.pairwise_append.mp hapart).2.2 ab hab
  obtain ⟨d, hd, htaken⟩ := hr
  have hsound : d.Sound ∧ ab.Apart d := by
    cases List.mem_cons.mp hd with
    | inl heq =>
      have hc := hacross c List.mem_cons_self
      unfold Ablock.Apart at hc ⊢
      rw [heq, ← hbuf, ← hsize]
      exact ⟨hb, hc⟩
    | inr hmem =>
      exact ⟨h.of_chain (by rw [hchain]; simp [hmem]), hacross d (List.mem_cons_of_mem c hmem)⟩
  obtain ⟨hsound, hd'⟩ := hsound
  unfold Ablock.Apart at hd'
  have := hsound.buf
  have := hsound.pos
  have := hsound.le_size
  omega

theorem allocRelease_spec {am : Nat} (h : WellFormed ap)
    (hlayered : Layered ap.memory ap.ap_ablock live) (hmark : ∃ r ∈ live, r.isMark am = true) :
    ∃ ap', allocRelease ap am = some ap' ∧ WellFormed ap' ∧
      Layered ap'.memory ap'.ap_ablock (live.dropWhile (!·.isMark am)).tail := by
  obtain ⟨b, tl, ⟨pre, c, _, _, hchain, heq, hbuf, hsize, hpos, hend⟩, hsound, hmemory, hfree,
    hrest⟩ := hlayered.at_mark hmark
  obtain ⟨rfl, rfl⟩ := List.cons.inj heq
  have hapart := (List.pairwise_append.mp h.apart).1
  rw [hchain] at hapart
  have hc : c.Sound := h.of_chain (by rw [hchain]; simp)
  have hpre : ∀ ab ∈ pre, ab.ab_buf ≠ b.ab_buf := by
    intro ab hab
    rw [← hbuf]
    exact Ablock.Apart.ne ((List.pairwise_append.mp hapart).2.2 ab hab c List.mem_cons_self)
      (h.of_chain (by rw [hchain]; simp [hab])) hc
  obtain ⟨ap1, hreset, hspec⟩ := resetAblocks_spec ap b.ab_buf pre c tl hpre hbuf
  have hwf1 := hspec.wf h hchain
  have hhead : { c with ab_pos := b.ab_pos, ab_end := b.ab_end } = b := by
    rw [hbuf, hsize]
  -- the marks below the chain are kept
  have hkeeps : ∀ a, Marked (b :: tl) a →
      (if ap1.ap_debug then
        wipe (wipe ap1.memory b.ab_pos (c.ab_pos - b.ab_pos)) c.ab_end (b.ab_end - c.ab_end)
      else Function.update ap1.memory am (some ⟨false, b.ab_buf, b.ab_pos, b.ab_end⟩)) a =
        ap.memory a := by
    intro a ha
    have hout := hspec.memory a fun ab hab => h.outside hchain hsound hbuf hsize ha hab
    split
    · have hboth : (a + sizeof_alloc_mark_t ≤ b.ab_pos ∨ c.ab_pos ≤ a) ∧
          (a + sizeof_alloc_mark_t ≤ c.ab_end ∨ b.ab_end ≤ a) := by
        obtain ⟨d, hd, htaken⟩ := ha
        dsimp only at htaken
        cases List.mem_cons.mp hd with
        | inl heq =>
          have := hc.pos
          subst heq
          omega
        | inr hmem =>
          have hd : d.Sound := h.of_chain (by rw [hchain]; simp [hmem])
          have hcd := (List.pairwise_cons.mp (List.pairwise_append.mp hapart).2.1).1 d hmem
          unfold Ablock.Apart at hcd
          have := hd.buf
          have := hd.pos
          have := hd.le_size
          have := hsound.buf
          have := hsound.le_size
          have := hc.buf
          have := hc.pos
          have := hc.le_size
          omega
      unfold wipe
      rw [if_neg (by omega), if_neg (by omega)]
      exact hout
    · have hne : a ≠ am := by
        rintro rfl
        have := hfree _ ha
        unfold Region.Apart sizeof_alloc_mark_t at this
        dsimp only at this
        omega
      rw [Function.update_of_ne hne]
      exact hout
  refine ⟨_, ?_, hwf1.with_head hspec.chain hbuf.symm hsize.symm hsound _, hrest.congr hkeeps⟩
  unfold allocRelease
  rw [hmemory]
  dsimp only
  rw [hchain, hreset]
  dsimp only
  rw [hspec.chain]
  dsimp only
  rw [hhead]
  rfl

theorem allocResetPool_spec (h : WellFormed ap) :
    ∃ ap', allocResetPool ap = some ap' ∧ WellFormed ap' := by
  have hne : ap.ap_ablock ≠ [] := h.ne_nil
  have hchain : ap.ap_ablock = ap.ap_ablock.dropLast ++ [ap.ap_ablock.getLast hne] :=
    (List.dropLast_append_getLast hne).symm
  generalize ap.ap_ablock.dropLast = pre at hchain
  generalize ap.ap_ablock.getLast hne = b at hchain
  have hfirst : b.ab_buf = ap.ap_first_ablock := by
    have hfirst := h.first
    rw [hchain, List.map_append, List.getLast?_append] at hfirst
    exact Option.some.inj hfirst
  have hapart := (List.pairwise_append.mp h.apart).1
  rw [hchain] at hapart
  have hb : b.Sound := h.of_chain (by rw [hchain]; simp)
  have hpre : ∀ ab ∈ pre, ab.ab_buf ≠ ap.ap_first_ablock := by
    intro ab hab
    rw [← hfirst]
    exact Ablock.Apart.ne ((List.pairwise_append.mp hapart).2.2 ab hab b List.mem_cons_self)
      (h.of_chain (by rw [hchain]; simp [hab])) hb
  obtain ⟨ap1, hreset, hspec⟩ := resetAblocks_spec ap ap.ap_first_ablock pre b [] hpre hfirst
  refine ⟨_, ?_, (hspec.wf h hchain).with_head (b := b.reset) hspec.chain rfl rfl hb.reset
    (wipeIf ap1.ap_debug ap1.memory b.ab_buf b.ab_size)⟩
  unfold allocResetPool
  rw [hchain, hreset]
  dsimp only
  rw [hspec.chain]

end

/-! ## The main theorem -/

section
variable {s : Pool × List Region}

/-- What every call keeps. -/
structure Inv (s : Pool × List Region) : Prop where
  wf : WellFormed s.1
  layered : Layered s.1.memory s.1.ap_ablock s.2

theorem Inv.separate (h : Inv s) : Separate s where
  inside := by
    intro r hr
    obtain ⟨ab, hab, htaken⟩ := h.layered.taken r hr
    have hsound := h.wf.of_chain hab
    have := hsound.buf
    have := hsound.pos
    have := hsound.le_size
    exact ⟨ab, List.mem_append_left _ hab, by omega, by omega⟩
  aligned := h.layered.aligned
  apart := h.layered.pairwise

/-- A region that is handed out is a new layer. -/
theorem Inv.hands {ap ap' : Pool} {live : List Region} {r : Region} (h : Inv (ap, live))
    (hhands : Hands ap ap' r) (haligned : r.kind ≠ .str → r.addr % ALIGN = 0)
    (hkind : r.kind ≠ .mark) : Inv (ap', r :: live) := by
  obtain ⟨b, tl, hchain⟩ := List.exists_cons_of_ne_nil h.wf.ne_nil
  have hext := hhands.ext
  have hfree := hhands.free
  have holder := h.layered.congr hhands.memory
  dsimp only at hchain holder
  rw [hchain] at hext hfree holder
  exact ⟨hhands.wf, hhands.taken, haligned, b, tl, hext,
    h.wf.of_chain (hchain ▸ List.mem_cons_self), hfree, fun hc => absurd hc hkind, holder⟩

theorem Inv.mark {ap : Pool} {live : List Region} {buf : Nat} (h : Inv (ap, live))
    (hfresh : FreshBuf ap sizeof_alloc_mark_t buf) :
    ∃ ap' am, allocMark ap buf = some (ap', am) ∧
      Inv (ap', ⟨.mark, am, sizeof_alloc_mark_t⟩ :: live) := by
  obtain ⟨b, tl, hchain⟩ := List.exists_cons_of_ne_nil h.wf.ne_nil
  obtain ⟨ap', am, halloc, haligned, hhands⟩ :=
    alloc_spec h.wf (by decide : sizeof_alloc_mark_t < 2 ^ 31) hfresh
  have hhands := hhands .mark
  unfold allocMark
  dsimp only at hchain
  rw [hchain, halloc]
  dsimp only
  refine ⟨_, am, rfl, ⟨hhands.wf.first, hhands.wf.sound, hhands.wf.free, hhands.wf.apart⟩,
    hhands.taken, fun _ => haligned, b, tl, hchain ▸ hhands.ext,
    h.wf.of_chain (hchain ▸ List.mem_cons_self), hchain ▸ hhands.free,
    fun _ => ⟨rfl, Function.update_self _ _ _⟩, ?_⟩
  have holder := h.layered
  dsimp only at holder
  rw [← hchain]
  -- the memory of the mark has nothing of an older one
  refine holder.congr fun a ha => ?_
  have hapart := hhands.free _ ha
  unfold Region.Apart sizeof_alloc_mark_t at hapart
  dsimp only at hapart ⊢
  rw [Function.update_of_ne (by omega)]
  unfold wipe sizeof_alloc_mark_t
  rw [if_neg (by omega)]
  exact hhands.memory a ha

theorem Call.exec_spec {c : Call} (h : Inv s) (hlegal : c.Legal s) :
    ∃ s', c.exec s = some s' ∧ Inv s' := by
  obtain ⟨ap, live⟩ := s
  unfold Call.exec
  cases c with
  | alloc nbytes buf =>
    obtain ⟨ap', ptr, halloc, haligned, hhands⟩ := alloc_spec h.wf hlegal.1 hlegal.2
    dsimp only
    rw [halloc]
    exact ⟨_, rfl, h.hands (hhands .plain) (fun _ => haligned) (by simp)⟩
  | allocstr nbytes buf =>
    obtain ⟨ap', ptr, halloc, hhands⟩ := allocstr_spec h.wf hlegal.1 hlegal.2
    dsimp only
    rw [halloc]
    exact ⟨_, rfl, h.hands hhands (fun hc => absurd rfl hc) (by simp)⟩
  | alloc_mark buf =>
    obtain ⟨ap', am, halloc, hinv⟩ := h.mark hlegal
    dsimp only
    rw [halloc]
    exact ⟨_, rfl, hinv⟩
  | alloc_release am =>
    obtain ⟨ap', hrelease, hwf, hlayered⟩ := allocRelease_spec h.wf h.layered hlegal
    dsimp only
    rw [hrelease]
    exact ⟨_, rfl, hwf, hlayered⟩
  | alloc_reset_pool =>
    obtain ⟨ap', hreset, hwf⟩ := allocResetPool_spec h.wf
    dsimp only
    rw [hreset]
    exact ⟨_, rfl, hwf, trivial⟩

theorem Inv.throughout {cs : List Call} (h : Inv s) (hlegal : LegalRun s cs) :
    Throughout Separate s cs := by
  induction cs generalizing s with
  | nil => exact h.separate
  | cons c cs ih =>
    obtain ⟨s', hexec, hinv⟩ := Call.exec_spec h hlegal.1
    exact ⟨h.separate, s', hexec, ih hinv (hlegal.2 s' hexec)⟩

theorem wellFormed_create (debug : Bool) (ap : Nat) (haligned : 8 ∣ ap) :
    WellFormed (allocCreatePool debug ap) where
  first := rfl
  sound := by
    intro ab hab
    obtain rfl := List.mem_singleton.mp hab
    obtain ⟨k, rfl⟩ := haligned
    refine ⟨(by decide : 0 < SBLOCKSIZE), ?_, Nat.le_refl _, Nat.le_add_right _ _, Nat.le_refl _⟩
    unfold ALIGN sizeof_alloc_pool_t
    dsimp only
    omega
  free := fun ab hab => absurd hab List.not_mem_nil
  apart := List.pairwise_singleton _ _

/-- In every run the regions that are not released are apart and each inside one block. -/
theorem pool_allocations_never_overlap (debug : Bool) (ap : Nat) (haligned : 8 ∣ ap)
    (cs : List Call) (hlegal : LegalRun (allocCreatePool debug ap, []) cs) :
    Throughout Separate (allocCreatePool debug ap, []) cs :=
  Inv.throughout ⟨wellFormed_create debug ap haligned, trivial⟩ hlegal

end

/-- A mark at the start of a pool is released. -/
theorem a_mark_is_released_and_the_pool_is_reset :
    Throughout Separate (allocCreatePool true 4096, [])
      [.alloc_mark 8192, .alloc_release 4160, .alloc_reset_pool] := by
  apply pool_allocations_never_overlap true 4096 (by decide)
  refine ⟨⟨by decide, ?_⟩, fun s' hs => ⟨?_, fun s'' _ => ⟨trivial, fun _ _ => trivial⟩⟩⟩
  · intro ab hab
    obtain rfl := List.mem_singleton.mp hab
    decide
  · have hlive : some [(⟨.mark, 4160, 32⟩ : Region)] = some s'.2 :=
      congrArg (Option.map Prod.snd) hs
    exact ⟨⟨.mark, 4160, 32⟩, Option.some.inj hlive ▸ List.mem_singleton_self _, rfl⟩

end ups_rules.alloc_pool
