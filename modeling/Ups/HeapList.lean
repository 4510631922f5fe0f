-- The blocks that an interpreted program has allocated (ci_mem_malloc, ci_mem_free,
-- ci_mem_realloc and ci_reset_machine in xc_machine.c): a ring of block headers that starts
-- at ma_mhead.
import Ups.Machine
import Ups.Ring

open ring
open ups_rules.machine

namespace ups_rules.heap_list

/-! ## The pure model -/

abbrev Addr := BitVec 64

/-- The header of a block (`mem_t`), and the marker behind its last byte. -/
structure MemT where
  m_next : Addr
  m_prev : Addr
  m_size : BitVec 64
  m_start_marker : BitVec 32
  end_marker : BitVec 32

def M_STARTVAL : BitVec 32 := 0x4853acbd
def M_ENDVAL : BitVec 32 := 0xd31c8bee
/-- `M_FREED_BYTE * 0x01010101` -/
def M_FREEDVAL : BitVec 32 := 0x91919191

/-- The part of a machine that these functions use. `ma_mhead` is the address of the head. -/
structure HeapMachine where
  ma_mhead : Addr
  mem : Addr → MemT
  ma_stopres : ExecResult
  /-- What `free` was called with, in this order. -/
  freed : List Addr

namespace HeapMachine

def next (ma : HeapMachine) (a : Addr) : Addr := (ma.mem a).m_next

def prev (ma : HeapMachine) (a : Addr) : Addr := (ma.mem a).m_prev

def setMem (ma : HeapMachine) (a : Addr) (v : MemT) : HeapMachine :=
  { ma with mem := Function.update ma.mem a v }

def setNext (ma : HeapMachine) (a v : Addr) : HeapMachine :=
  ma.setMem a { ma.mem a with m_next := v }

def setPrev (ma : HeapMachine) (a v : Addr) : HeapMachine :=
  ma.setMem a { ma.mem a with m_prev := v }

end HeapMachine

/-- `sizeof(mem_t)` -/
def memtSize : Addr := 32

def linkMem (ma : HeapMachine) (m : Addr) : HeapMachine :=
  let mh := ma.ma_mhead
  let ma := ma.setPrev m mh
  let ma := ma.setNext m (ma.next mh)
  let ma := ma.setPrev (ma.next mh) m
  ma.setNext mh m

def unlinkMem (ma : HeapMachine) (m : Addr) : HeapMachine :=
  let ma := ma.setNext (ma.prev m) (ma.next m)
  ma.setPrev (ma.next m) (ma.prev m)

/-- The start marker and `set_size`. -/
def setMarkers (ma : HeapMachine) (m : Addr) (size : BitVec 64) : HeapMachine :=
  ma.setMem m { ma.mem m with
    m_start_marker := M_STARTVAL
    m_size := size
    end_marker := M_ENDVAL }

/-- The header, the bytes and the end marker, as a size_t that does not wrap around. -/
def Fits (size : BitVec 64) : Prop := 32 + size.toNat + 4 < 2 ^ 64

instance (size : BitVec 64) : Decidable (Fits size) := inferInstanceAs (Decidable (_ < _))

/-- From `link_mem` on, with the block that the allocator gave. `none` is a write to the null
pointer, or behind a block that is smaller than its header and its bytes because the sum of
their sizes wrapped around. -/
def finishBlock (ma : HeapMachine) (m : Addr) (size : BitVec 64) : Option (HeapMachine × Addr) :=
  if m = 0 then none
  else if ¬Fits size then none
  else some (setMarkers (linkMem ma m) m size, m + memtSize)

/-- `m` is what `malloc` returns, 0 for a failure. -/
def ciMemMalloc (ma : HeapMachine) (size : BitVec 64) (m : Addr) : Option (HeapMachine × Addr) :=
  if m = 0 then some (ma, 0)
  else finishBlock ma m size

/-- The null pointer is given back as `none`. -/
def getMem (ma : HeapMachine) (p : Addr) : HeapMachine × Option Addr :=
  let m := p - memtSize
  if (ma.mem m).m_start_marker = M_FREEDVAL then ({ ma with ma_stopres := .CI_ER_MEM_FREED }, none)
  else if (ma.mem m).m_start_marker ≠ M_STARTVAL ∨ ma.prev (ma.next m) ≠ m ∨
      ma.next (ma.prev m) ≠ m then ({ ma with ma_stopres := .CI_ER_MEM_BAD }, none)
  else if (ma.mem m).end_marker ≠ M_ENDVAL then
    ({ ma with ma_stopres := .CI_ER_MEM_OVERRUN }, none)
  else (ma, some m)

/-- The `memset` of a block, and `free`. -/
def zapBlock (ma : HeapMachine) (m : Addr) : HeapMachine :=
  { ma.setMem m ⟨0x9191919191919191, 0x9191919191919191, 0x9191919191919191, M_FREEDVAL,
      M_FREEDVAL⟩ with freed := ma.freed ++ [m] }

def ciMemFree (ma : HeapMachine) (p : Addr) : HeapMachine :=
  if p = 0 then ma
  else
    match getMem ma p with
    | (ma, none) => ma
    | (ma, some m) => zapBlock (unlinkMem ma m) m

/-- `r` is what the allocator returns; `realloc` moves the header along. -/
def ciMemRealloc (ma : HeapMachine) (p : Addr) (size : BitVec 64) (r : Addr) :
    Option (HeapMachine × Addr) :=
  if p = 0 then ciMemMalloc ma size r
  else if size = 0 then some (ciMemFree ma p, 0)
  else
    match getMem ma p with
    | (ma, none) => some (ma, 0)
    | (ma, some m) =>
      let ma := unlinkMem ma m
      finishBlock (ma.setMem r (ma.mem m)) r size

/-- The loop of `ci_reset_machine`; `none` when the fuel runs out. -/
def resetLoop : Nat → HeapMachine → Addr → Option (HeapMachine × Addr)
  | 0, _, _ => none
  | fuel + 1, ma, m =>
    if m = ma.ma_mhead then some (ma, m)
    else
      let next := ma.next m
      let ma := ciMemFree ma (m + memtSize)
      if ma.ma_stopres ≠ .CI_ER_CONTINUE then some (ma, m)
      else resetLoop fuel ma next

/-- `ci_reset_machine`, without the file descriptors that it closes first. -/
def ciResetMachine (fuel : Nat) (ma : HeapMachine) : Option HeapMachine :=
  let old_stopres := ma.ma_stopres
  let ma := { ma with ma_stopres := .CI_ER_CONTINUE }
  match resetLoop fuel ma (ma.next ma.ma_mhead) with
  | none => none
  | some (ma, m) =>
    some (if m = ma.ma_mhead then { ma with ma_stopres := old_stopres } else ma)

/-! ## What the moves leave alone -/

section
variable (ma : HeapMachine) (a b m : Addr) (v : MemT)

theorem mem_setMem_self : (ma.setMem a v).mem a = v := by
  unfold HeapMachine.setMem
  dsimp only
  rw [Function.update_self]

theorem mem_setMem_of_ne {x : Addr} (hx : x ≠ a) : (ma.setMem a v).mem x = ma.mem x := by
  unfold HeapMachine.setMem
  dsimp only
  rw [Function.update_of_ne hx]

theorem next_setMem : (ma.setMem a v).next = Function.update ma.next a v.m_next := by
  funext x
  unfold HeapMachine.next
  by_cases hx : x = a
  · subst hx
    rw [mem_setMem_self, Function.update_self]
  · rw [mem_setMem_of_ne ma a v hx, Function.update_of_ne hx]

theorem prev_setMem : (ma.setMem a v).prev = Function.update ma.prev a v.m_prev := by
  funext x
  unfold HeapMachine.prev
  by_cases hx : x = a
  · subst hx
    rw [mem_setMem_self, Function.update_self]
  · rw [mem_setMem_of_ne ma a v hx, Function.update_of_ne hx]

@[simp] theorem next_setNext : (ma.setNext a b).next = Function.update ma.next a b :=
  next_setMem ma a _

@[simp] theorem prev_setNext : (ma.setNext a b).prev = ma.prev := by
  unfold HeapMachine.setNext
  rw [prev_setMem]
  exact Function.update_eq_self a ma.prev

@[simp] theorem prev_setPrev : (ma.setPrev a b).prev = Function.update ma.prev a b :=
  prev_setMem ma a _

@[simp] theorem next_setPrev : (ma.setPrev a b).next = ma.next := by
  unfold HeapMachine.setPrev
  rw [next_setMem]
  exact Function.update_eq_self a ma.next

@[simp] theorem mhead_setMem : (ma.setMem a v).ma_mhead = ma.ma_mhead := rfl
@[simp] theorem mhead_setNext : (ma.setNext a b).ma_mhead = ma.ma_mhead := rfl
@[simp] theorem mhead_setPrev : (ma.setPrev a b).ma_mhead = ma.ma_mhead := rfl

/-- The markers of a header. -/
def marked (ma : HeapMachine) (m : Addr) : BitVec 32 × BitVec 32 :=
  ((ma.mem m).m_start_marker, (ma.mem m).end_marker)

theorem marked_setMem_of_ne {x : Addr} (hx : x ≠ a) :
    marked (ma.setMem a v) x = marked ma x := by
  unfold marked
  rw [mem_setMem_of_ne ma a v hx]

theorem marked_setMem_self : marked (ma.setMem a v) a = (v.m_start_marker, v.end_marker) := by
  unfold marked
  rw [mem_setMem_self]

@[simp] theorem marked_setNext : marked (ma.setNext a b) = marked ma := by
  funext x
  by_cases hx : x = a
  · subst hx
    exact marked_setMem_self ma x _
  · exact marked_setMem_of_ne ma a _ hx

@[simp] theorem marked_setPrev : marked (ma.setPrev a b) = marked ma := by
  funext x
  by_cases hx : x = a
  · subst hx
    exact marked_setMem_self ma x _
  · exact marked_setMem_of_ne ma a _ hx

end

section
variable {ma : HeapMachine} {m p : Addr} {size : BitVec 64} {live : List Addr}

theorem next_linkMem : (linkMem ma m).next =
    Function.update (Function.update ma.next m (ma.next ma.ma_mhead)) ma.ma_mhead m := by
  unfold linkMem
  simp only [next_setNext, next_setPrev]

theorem prev_linkMem (hm : m ≠ ma.ma_mhead) : (linkMem ma m).prev =
    Function.update (Function.update ma.prev m ma.ma_mhead) (ma.next ma.ma_mhead) m := by
  unfold linkMem
  simp only [prev_setNext, prev_setPrev, next_setNext, next_setPrev,
    Function.update_of_ne hm.symm]

theorem marked_linkMem : marked (linkMem ma m) = marked ma := by
  unfold linkMem
  simp only [marked_setNext, marked_setPrev]

theorem next_unlinkMem : (unlinkMem ma m).next =
    Function.update ma.next (ma.prev m) (ma.next m) := by
  unfold unlinkMem
  simp only [next_setNext, next_setPrev]

theorem prev_unlinkMem (hm : ma.prev m ≠ m) : (unlinkMem ma m).prev =
    Function.update ma.prev (ma.next m) (ma.prev m) := by
  unfold unlinkMem
  simp only [prev_setNext, prev_setPrev, next_setNext, Function.update_of_ne hm.symm]

theorem marked_unlinkMem : marked (unlinkMem ma m) = marked ma := by
  unfold unlinkMem
  simp only [marked_setNext, marked_setPrev]

end

/-! ## The invariant -/

/-- The ring is well formed and has exactly the live blocks, each once, their markers are intact
and no pointer to one is null. -/
structure Exact (ma : HeapMachine) (live : List Addr) : Prop where
  ring : IsRing ma.next ma.prev ma.ma_mhead live
  marked : ∀ m ∈ live, marked ma m = (M_STARTVAL, M_ENDVAL)
  nonnull : ∀ m ∈ live, m + memtSize ≠ 0

section
variable {ma ma' : HeapMachine} {m p : Addr} {size : BitVec 64} {live : List Addr}

theorem Exact.unlinkMem (h : Exact ma live) (hm : m ∈ live) :
    Exact (unlinkMem ma m) (live.erase m) where
  ring := by
    exact h.ring.unlink hm next_unlinkMem (prev_unlinkMem (h.ring.prev_ne hm))
  marked := by
    intro x hx
    rw [marked_unlinkMem]
    exact h.marked x (List.mem_of_mem_erase hx)
  nonnull := by
    intro x hx
    exact h.nonnull x (List.mem_of_mem_erase hx)

theorem Exact.notMem (h : Exact ma live) : ma.ma_mhead ∉ live :=
  (List.nodup_cons.mp h.ring.nodup).1

/-- What is outside the ring may change. -/
theorem Exact.congr (h : Exact ma live) (hhead : ma'.ma_mhead = ma.ma_mhead)
    (hmem : ∀ a ∈ ma.ma_mhead :: live, ma'.mem a = ma.mem a) : Exact ma' live where
  ring := by
    rw [hhead]
    refine ⟨seg_congr ?_ ?_ h.ring.seg, h.ring.nodup⟩
    · intro x hx
      unfold HeapMachine.next
      rw [hmem x hx]
    · intro x hx
      unfold HeapMachine.prev
      rw [hmem x]
      rw [List.mem_append, List.mem_singleton] at hx
      exact List.mem_cons.mpr hx.symm
  marked := by
    intro x hx
    unfold heap_list.marked
    rw [hmem x (List.mem_cons_of_mem _ hx)]
    exact h.marked x hx
  nonnull := h.nonnull

theorem Exact.finish (h : Exact ma live) (hm : m ≠ ma.ma_mhead) (hlive : m ∉ live)
    (hnull : m + memtSize ≠ 0) :
    Exact (setMarkers (linkMem ma m) m size) (m :: live) where
  ring := by
    have hnot : m ∉ ma.ma_mhead :: live := by
      rw [List.mem_cons, not_or]
      exact ⟨hm, hlive⟩
    have hring := h.ring.link hnot next_linkMem (prev_linkMem hm)
    have hnext : (setMarkers (linkMem ma m) m size).next = (linkMem ma m).next := by
      unfold setMarkers
      rw [next_setMem]
      exact Function.update_eq_self m (linkMem ma m).next
    have hprev : (setMarkers (linkMem ma m) m size).prev = (linkMem ma m).prev := by
      unfold setMarkers
      rw [prev_setMem]
      exact Function.update_eq_self m (linkMem ma m).prev
    rw [hnext, hprev]
    exact hring
  marked := by
    intro x hx
    unfold setMarkers
    by_cases hxm : x = m
    · subst hxm
      rw [marked_setMem_self]
    · rw [marked_setMem_of_ne _ _ _ hxm, marked_linkMem]
      exact h.marked x ((List.mem_cons.mp hx).resolve_left hxm)
  nonnull := by
    intro x hx
    rcases List.mem_cons.mp hx with rfl | hx
    · exact hnull
    · exact h.nonnull x hx

/-- A pointer to a live block passes the checks. -/
theorem getMem_live (h : Exact ma live) (hp : p - memtSize ∈ live) :
    getMem ma p = (ma, some (p - memtSize)) := by
  have hmark := h.marked _ hp
  obtain ⟨hback, hforth⟩ := h.ring.links hp
  unfold heap_list.marked at hmark
  rw [Prod.mk.injEq] at hmark
  unfold getMem
  dsimp only
  rw [if_neg (by rw [hmark.1]; decide), if_neg, if_neg]
  · rw [hmark.2]
    exact not_not.mpr rfl
  · rintro (hc | hc | hc)
    · exact hc hmark.1
    · exact hc hback
    · exact hc hforth

theorem getMem_freed (hp : (ma.mem (p - memtSize)).m_start_marker = M_FREEDVAL) :
    getMem ma p = ({ ma with ma_stopres := .CI_ER_MEM_FREED }, none) := by
  unfold getMem
  exact if_pos hp

theorem Exact.zap (h : Exact ma live) (hhead : m ≠ ma.ma_mhead) (hm : m ∉ live) :
    Exact (zapBlock ma m) live := by
  have hhead' : (zapBlock ma m).ma_mhead = ma.ma_mhead := rfl
  apply h.congr hhead'
  intro a ha
  have hne : a ≠ m := by
    rintro rfl
    rcases List.mem_cons.mp ha with rfl | ha
    · exact hhead rfl
    · exact hm ha
  exact mem_setMem_of_ne ma m _ hne

/-- A free of the null pointer, of a live block or of one that was freed before. -/
theorem ciMemFree_null : ciMemFree ma 0 = ma := if_pos rfl

theorem ciMemFree_live (h : Exact ma live) (hp0 : p ≠ 0) (hp : p - memtSize ∈ live) :
    ciMemFree ma p = zapBlock (unlinkMem ma (p - memtSize)) (p - memtSize) := by
  unfold ciMemFree
  rw [if_neg hp0, getMem_live h hp]

theorem exact_zap_unlink (h : Exact ma live) (hm : m ∈ live) :
    Exact (zapBlock (unlinkMem ma m) m) (live.erase m) := by
  have hnodup := (List.nodup_cons.mp h.ring.nodup).2
  apply (h.unlinkMem hm).zap
  · exact fun hc => h.notMem (hc ▸ hm)
  · exact hnodup.not_mem_erase

theorem ciMemFree_freed (hp0 : p ≠ 0)
    (hp : (ma.mem (p - memtSize)).m_start_marker = M_FREEDVAL) :
    ciMemFree ma p = { ma with ma_stopres := .CI_ER_MEM_FREED } := by
  unfold ciMemFree
  rw [if_neg hp0, getMem_freed hp]

/-- The loop frees the blocks in their order, each once. -/
theorem resetLoop_spec (fuel : Nat) (hfuel : live.length < fuel) (h : Exact ma live)
    (hstop : ma.ma_stopres = .CI_ER_CONTINUE) :
    ∃ ma', resetLoop fuel ma (ma.next ma.ma_mhead) = some (ma', ma'.ma_mhead) ∧
      Exact ma' [] ∧ ma'.freed = ma.freed ++ live := by
  induction live generalizing ma fuel with
  | nil =>
    obtain ⟨fuel, rfl⟩ : ∃ k, fuel = k + 1 := ⟨fuel - 1, by omega⟩
    have hhead : ma.next ma.ma_mhead = ma.ma_mhead := h.ring.seg.1
    refine ⟨ma, ?_, h, (List.append_nil _).symm⟩
    rw [hhead]
    unfold resetLoop
    exact if_pos rfl
  | cons m live ih =>
    obtain ⟨fuel, rfl⟩ : ∃ k, fuel = k + 1 := ⟨fuel - 1, by omega⟩
    have hm : ma.next ma.ma_mhead = m := h.ring.next_cons
    have hne : m ≠ ma.ma_mhead := by
      rintro rfl
      exact h.notMem List.mem_cons_self
    have hsub : m + memtSize - memtSize = m := BitVec.add_sub_cancel m memtSize
    have hfree := ciMemFree_live (p := m + memtSize) h
      (h.nonnull m List.mem_cons_self) (by rw [hsub]; exact List.mem_cons_self)
    rw [hsub] at hfree
    have hexact := exact_zap_unlink h List.mem_cons_self
    rw [List.erase_cons_head] at hexact
    -- the next block was read before this one was freed, and is the first one now
    have hnext : ma.next m =
        (zapBlock (unlinkMem ma m) m).next (zapBlock (unlinkMem ma m) m).ma_mhead := by
      have hsecond := h.ring.seg.2.2
      cases live with
      | nil =>
        have hend := hexact.ring.seg.1
        rw [hend]
        exact hsecond.1
      | cons b live =>
        rw [hexact.ring.next_cons]
        exact hsecond.1
    obtain ⟨ma', hloop, hdone, hfreed⟩ := ih fuel (by simp at hfuel; omega) hexact hstop
    have hgo : ¬(zapBlock (unlinkMem ma m) m).ma_stopres ≠ .CI_ER_CONTINUE := not_not.mpr hstop
    refine ⟨ma', ?_, hdone, ?_⟩
    · unfold resetLoop
      rw [hm, if_neg hne]
      dsimp only
      rw [hfree, if_neg hgo, hnext]
      exact hloop
    · rw [hfreed, List.append_cons]
      rfl

end

/-! ## Runs -/

/-- A call on the machine. `r` is what the allocator returns in it. -/
inductive Call where
  | malloc (size : BitVec 64) (r : Addr)
  | free (p : Addr)
  | realloc (p : Addr) (size : BitVec 64) (r : Addr)
  | reset (fuel : Nat)
  /-- The program and the allocator use the memory outside the headers of the ring. -/
  | other (mem : Addr → MemT)

/-- The machine after a call, and the pointer that the call returns. -/
def exec (ma : HeapMachine) : Call → Option (HeapMachine × Addr)
  | .malloc size r => ciMemMalloc ma size r
  | .free p => some (ciMemFree ma p, 0)
  | .realloc p size r => ciMemRealloc ma p size r
  | .reset fuel => (ciResetMachine fuel ma).map fun ma => (ma, 0)
  | .other mem => some ({ ma with mem := mem }, 0)

/-- A block is handed out at the pointer `q`, unless it is null. -/
def returned (q : Addr) (live : List Addr) : List Addr :=
  if q = 0 then live else (q - memtSize) :: live

/-- The block at the pointer `p` is given back. -/
def gone (p : Addr) (live : List Addr) : List Addr :=
  if p = 0 then live else live.erase (p - memtSize)

/-- The blocks that were returned and not freed since, after a call that returned `q`. A realloc
to the size 0 frees, and one that fails leaves the block alone. -/
def liveAfter (live : List Addr) (c : Call) (q : Addr) : List Addr :=
  match c with
  | .malloc _ _ => returned q live
  | .free p => gone p live
  | .realloc p size _ =>
    if p ≠ 0 ∧ size = 0 then gone p live
    else if q = 0 then live
    else returned q (gone p live)
  | .reset _ => []
  | .other _ => live

/-- A null pointer, a live block, or one that ci_mem_free has zapped and that was not handed out
again. -/
def Given (ma : HeapMachine) (live : List Addr) (p : Addr) : Prop :=
  p = 0 ∨ p - memtSize ∈ live ∨ (ma.mem (p - memtSize)).m_start_marker = M_FREEDVAL

/-- What an allocator may return: a failure, or a block that is not in use. -/
def Fresh (ma : HeapMachine) (live : List Addr) (r : Addr) : Prop :=
  r = 0 ∨ r ≠ ma.ma_mhead ∧ r ∉ live ∧ r + memtSize ≠ 0

/-- The calls that a program can make. -/
def Allowed (ma : HeapMachine) (live : List Addr) : Call → Prop
  | .malloc _ r => Fresh ma live r
  | .free p => Given ma live p
  | .realloc p _ r => Given ma live p ∧ Fresh ma (gone p live) r
  | .reset fuel => live.length < fuel
  | .other mem => ∀ a ∈ ma.ma_mhead :: live, mem a = ma.mem a

/-- No allocation of a size so large that the sum with the header wraps around, and no realloc of
a live block for which the allocator fails. -/
def Served (live : List Addr) : Call → Prop
  | .malloc size r => r = 0 ∨ Fits size
  | .realloc p size r =>
    if p = 0 then r = 0 ∨ Fits size
    else size ≠ 0 → p - memtSize ∈ live → r ≠ 0 ∧ Fits size
  | _ => True

section
variable {ma ma' : HeapMachine} {m p q r : Addr} {size : BitVec 64} {live : List Addr}

/-- What a call is to do: no fault, and a ring of exactly the blocks that are live after it. -/
def Serves (ma : HeapMachine) (live : List Addr) (c : Call) : Prop :=
  ∃ ma' q, exec ma c = some (ma', q) ∧ Exact ma' (liveAfter live c q)

theorem finishBlock_eq (h0 : r ≠ 0) (hfits : Fits size) :
    finishBlock ma r size = some (setMarkers (linkMem ma r) r size, r + memtSize) := by
  unfold finishBlock
  rw [if_neg h0, if_neg (not_not.mpr hfits)]

theorem finishBlock_none (hfits : r = 0 ∨ ¬Fits size) : finishBlock ma r size = none := by
  unfold finishBlock
  rcases hfits with h0 | hfits
  · exact if_pos h0
  · rw [if_pos hfits, ite_self]

theorem exact_finishBlock (h : Exact ma live) (hr : Fresh ma live r) (h0 : r ≠ 0) :
    Exact (setMarkers (linkMem ma r) r size) (returned (r + memtSize) live) := by
  obtain ⟨hhead, hlive, hnull⟩ := hr.resolve_left h0
  have hsub : r + memtSize - memtSize = r := BitVec.add_sub_cancel r memtSize
  unfold returned
  rw [if_neg hnull, hsub]
  exact h.finish hhead hlive hnull

theorem malloc_serves (h : Exact ma live) (hr : Fresh ma live r) :
    (∃ ma' q, ciMemMalloc ma size r = some (ma', q) ∧ Exact ma' (returned q live)) ↔
      r = 0 ∨ Fits size := by
  unfold ciMemMalloc
  by_cases h0 : r = 0
  · rw [if_pos h0]
    exact iff_of_true ⟨ma, 0, rfl, h⟩ (Or.inl h0)
  · rw [if_neg h0, or_iff_right h0]
    by_cases hfits : Fits size
    · exact iff_of_true ⟨_, _, finishBlock_eq h0 hfits, exact_finishBlock h hr h0⟩ hfits
    · rw [finishBlock_none (Or.inr hfits)]
      exact iff_of_false (by simp) hfits

theorem free_serves (h : Exact ma live) (hp : Given ma live p) :
    Exact (ciMemFree ma p) (gone p live) := by
  unfold gone
  by_cases hp0 : p = 0
  · rw [if_pos hp0, hp0, ciMemFree_null]
    exact h
  · rw [if_neg hp0]
    rcases hp.resolve_left hp0 with hlive | hfreed
    · rw [ciMemFree_live h hp0 hlive]
      exact exact_zap_unlink h hlive
    · have hnot : p - memtSize ∉ live := by
        intro hc
        have hmark := congrArg Prod.fst (h.marked _ hc)
        exact absurd (hmark.symm.trans hfreed) (by decide)
      rw [ciMemFree_freed hp0 hfreed, List.erase_of_not_mem hnot]
      exact h.congr rfl fun a _ => rfl

/-- What a block that is moved takes along is overwritten. -/
theorem exact_moved (h : Exact ma live) (hr : Fresh ma live r) (h0 : r ≠ 0) (v : MemT) :
    Exact (ma.setMem r v) live := by
  obtain ⟨hhead, hlive, -⟩ := hr.resolve_left h0
  apply h.congr (mhead_setMem ma r v)
  intro a ha
  apply mem_setMem_of_ne
  rintro rfl
  rcases List.mem_cons.mp ha with ha | ha
  · exact hhead ha
  · exact hlive ha

theorem notMem_of_freed (h : Exact ma live)
    (hfreed : (ma.mem (p - memtSize)).m_start_marker = M_FREEDVAL) : p - memtSize ∉ live := by
  intro hc
  have hmark := congrArg Prod.fst (h.marked _ hc)
  exact absurd (hmark.symm.trans hfreed) (by decide)

theorem realloc_null_serves (h : Exact ma live) (hr : Fresh ma live r) :
    Serves ma live (.realloc 0 size r) ↔ Served live (.realloc 0 size r) := by
  have hlive : ∀ q, liveAfter live (.realloc 0 size r) q = returned q live := by
    intro q
    unfold liveAfter returned gone
    by_cases hq : q = 0
    · simp [hq]
    · simp
  have hexec : exec ma (.realloc 0 size r) = ciMemMalloc ma size r := by
    unfold exec ciMemRealloc
    exact if_pos rfl
  have hserved : Served live (.realloc 0 size r) ↔ r = 0 ∨ Fits size := by
    unfold Served
    dsimp only
    rw [if_pos rfl]
  unfold Serves
  rw [hserved, ← malloc_serves h hr]
  simp only [hlive, hexec]

/-- A block that is moved or resized, and the pointer to it. -/
theorem realloc_live_serves (h : Exact ma live) (hp0 : p ≠ 0) (hsize : size ≠ 0)
    (hp : p - memtSize ∈ live) (hr : Fresh ma (gone p live) r) :
    Serves ma live (.realloc p size r) ↔ r ≠ 0 ∧ Fits size := by
  have hgone : gone p live = live.erase (p - memtSize) := if_neg hp0
  have hexec : exec ma (.realloc p size r) = finishBlock
      ((unlinkMem ma (p - memtSize)).setMem r ((unlinkMem ma (p - memtSize)).mem (p - memtSize)))
      r size := by
    unfold exec ciMemRealloc
    dsimp only
    rw [if_neg hp0, if_neg hsize, getMem_live h hp]
  unfold Serves
  rw [hexec]
  by_cases hok : r ≠ 0 ∧ Fits size
  · obtain ⟨h0, hfits⟩ := hok
    obtain ⟨-, -, hnull⟩ := hr.resolve_left h0
    have hlive : liveAfter live (.realloc p size r) (r + memtSize) =
        returned (r + memtSize) (gone p live) := by
      unfold liveAfter
      dsimp only
      rw [if_neg (fun hc => hsize hc.2), if_neg hnull]
    refine iff_of_true ⟨_, _, finishBlock_eq h0 hfits, ?_⟩ ⟨h0, hfits⟩
    rw [hlive]
    rw [hgone] at hr ⊢
    exact exact_finishBlock (exact_moved (h.unlinkMem hp) hr h0 _) hr h0
  · rw [finishBlock_none]
    · exact iff_of_false (by simp) hok
    · rw [not_and_or, not_not] at hok
      exact hok

theorem realloc_serves (h : Exact ma live) (hp : Given ma live p)
    (hr : Fresh ma (gone p live) r) :
    Serves ma live (.realloc p size r) ↔ Served live (.realloc p size r) := by
  by_cases hp0 : p = 0
  · subst hp0
    exact realloc_null_serves h hr
  · have hserved : Served live (.realloc p size r) ↔
        (size ≠ 0 → p - memtSize ∈ live → r ≠ 0 ∧ Fits size) := by
      unfold Served
      dsimp only
      rw [if_neg hp0]
    rw [hserved]
    by_cases hsize : size = 0
    · refine iff_of_true ⟨ciMemFree ma p, 0, ?_, ?_⟩ fun hc => absurd hsize hc
      · unfold exec ciMemRealloc
        dsimp only
        rw [if_neg hp0, if_pos hsize]
      · unfold liveAfter
        dsimp only
        rw [if_pos ⟨hp0, hsize⟩]
        exact free_serves h hp
    · rcases hp.resolve_left hp0 with hlive | hfreed
      · rw [realloc_live_serves h hp0 hsize hlive hr]
        exact ⟨fun hok _ _ => hok, fun hok => hok hsize hlive⟩
      · have hnot := notMem_of_freed h hfreed
        refine iff_of_true ⟨{ ma with ma_stopres := .CI_ER_MEM_FREED }, 0, ?_, ?_⟩
          fun _ hc => absurd hc hnot
        · unfold exec ciMemRealloc
          dsimp only
          rw [if_neg hp0, if_neg hsize, getMem_freed hfreed]
        · unfold liveAfter
          dsimp only
          rw [if_neg (fun hc => hsize hc.2), if_pos rfl]
          exact h.congr rfl fun a _ => rfl

theorem reset_serves (h : Exact ma live) (fuel : Nat) (hfuel : live.length < fuel) :
    ∃ ma', ciResetMachine fuel ma = some ma' ∧ Exact ma' [] ∧ ma'.freed = ma.freed ++ live ∧
      ma'.ma_stopres = ma.ma_stopres := by
  have hstart : Exact { ma with ma_stopres := .CI_ER_CONTINUE } live :=
    h.congr rfl fun a _ => rfl
  obtain ⟨ma', hloop, hdone, hfreed⟩ := resetLoop_spec fuel hfuel hstart rfl
  refine ⟨{ ma' with ma_stopres := ma.ma_stopres }, ?_, hdone.congr rfl fun a _ => rfl, hfreed,
    rfl⟩
  unfold ciResetMachine
  dsimp only
  rw [hloop]
  dsimp only
  rw [if_pos rfl]

/-- One call, from any state in which the ring is exact. -/
theorem serves_iff (h : Exact ma live) (c : Call) (hc : Allowed ma live c) :
    Serves ma live c ↔ Served live c := by
  cases c with
  | malloc size r => exact malloc_serves h hc
  | free p => exact iff_of_true ⟨_, _, rfl, free_serves h hc⟩ trivial
  | realloc p size r => exact realloc_serves h hc.1 hc.2
  | reset fuel =>
    obtain ⟨ma', hreset, hexact, -⟩ := reset_serves h fuel hc
    refine iff_of_true ⟨ma', 0, ?_, hexact⟩ trivial
    unfold exec
    dsimp only
    rw [hreset]
    rfl
  | other mem => exact iff_of_true ⟨_, _, rfl, h.congr rfl hc⟩ trivial

end

/-- The machines after any run of allowed calls that are served, with the blocks that are live
then. The head is made a ring of its own when the machine is created. -/
inductive Reaches : HeapMachine → List Addr → Prop where
  | create {ma : HeapMachine} (hnext : ma.next ma.ma_mhead = ma.ma_mhead)
    (hprev : ma.prev ma.ma_mhead = ma.ma_mhead) : Reaches ma []
  | call {ma ma' : HeapMachine} {live : List Addr} {c : Call} {q : Addr}
    (run : Reaches ma live) (allowed : Allowed ma live c) (served : Served live c)
    (step : exec ma c = some (ma', q)) : Reaches ma' (liveAfter live c q)

theorem exact_of_reaches {ma : HeapMachine} {live : List Addr} (h : Reaches ma live) :
    Exact ma live := by
  induction h with
  | create hnext hprev =>
    refine ⟨isRing_nil hnext hprev, ?_, ?_⟩
    · intro m hm
      cases hm
    · intro m hm
      cases hm
  | call run allowed served step ih =>
    obtain ⟨ma', q, hstep, hexact⟩ := (serves_iff ih _ allowed).mpr served
    rw [step] at hstep
    cases hstep
    exact hexact

/-! ## The law -/

/-- A machine whose memory has only the head, at the address 8. -/
def newMachine : HeapMachine where
  ma_mhead := 8
  mem := fun _ => ⟨8, 8, 0, 0, 0⟩
  ma_stopres := .CI_ER_CONTINUE
  freed := []

end ups_rules.heap_list
