-- Which buffer of the cache a block is read into (find_buf in strcache.c). The stamps of the buffers
-- are in the order of the reads, and a buffer that is found again keeps its stamp, so the buffer that
-- goes is the one read longest ago.
import Mathlib.Data.List.Basic
import Mathlib.Logic.Relation
import Ups.StrcacheRuns

namespace ups_rules.strcache

variable {sc sc' : Strcache} {input : Input} {offset : Nat} {found : Option (Nat × Buf)}

/-! ## The accesses to the buffers -/

/-- The buffers that were hit or read, and those that were read, since they were allocated. The latest
is first. -/
structure Log where
  accesses : List Nat
  loads : List Nat

def noLog : Log := ⟨[], []⟩

def Log.hit (log : Log) (i : Nat) : Log := { log with accesses := i :: log.accesses }

/-- The read with stamp 0 cannot be told from none. -/
def Log.load (log : Log) (stamp i : Nat) : Log :=
  ⟨i :: log.accesses, if stamp = 0 then log.loads else i :: log.loads⟩

def block (sc : Strcache) (offset : Nat) : Nat := offset - (offset &&& (sc.sc_bufsize - 1))

/-- What `find_buf` adds, once there are buffers. -/
def findLog (input : Input) (sc : Strcache) (log : Log) (offset : Nat) : Log :=
  match sc.sc_bufs with
  | [] => log
  | first :: _ =>
    match searchBufs (block sc offset) (sc.sc_bufs.take sc.sc_nbufs) 0 (0, first) with
    | .inl (i, b) => if offset < b.b_lim then log.hit i else log
    | .inr (i, _) =>
      match input (block sc offset) sc.sc_bufsize with
      | none => log
      | some _ => log.load sc.sc_current_stamp i

/-- What the choice of a buffer depends on. -/
def Buf.age (b : Buf) : Nat × Nat × Nat × Nat := (b.b_last_used, b.b_offset, b.b_lim, b.b_len)

/-- One step of a call, with the accesses. -/
inductive Step : Strcache × Log → Strcache × Log → Prop where
  | setBufs {sc sc' : Strcache} {log : Log} {nbufs bufsize : Nat} {allocated : Bool} {res : Int}
      (set : setBufs sc nbufs bufsize allocated = .ok (sc', res)) :
      Step (sc, log) (sc', if res = 0 then noLog else log)
  | find {sc sc' : Strcache} {log : Log} {input : Input} {offset : Nat}
      {found : Option (Nat × Buf)} (bufs : sc.sc_nbufs ≠ 0)
      (find : findBlock input sc offset = .ok (sc', found)) :
      Step (sc, log) (sc', findLog input sc log offset)
  -- The buffer of the call before
  | last {sc : Strcache} {log : Log} {b : Buf} {offset : Nat}
      (buf : sc.sc_bufs[sc.sc_last_buf]? = some b)
      (within : b.b_offset ≤ offset ∧ offset < b.b_lim) :
      Step (sc, log) (sc, log.hit sc.sc_last_buf)
  | grown {sc : Strcache} {log : Log} : Step (sc, log) (fileHasGrown sc, log)
  | forget {sc : Strcache} {log : Log} : Step (sc, log) (forgetBuffers sc, log)
  -- The offset, the last buffer, the saved line and the data of the buffers
  | other {sc sc' : Strcache} {log : Log}
      (ages : sc'.sc_bufs.map Buf.age = sc.sc_bufs.map Buf.age)
      (sizes : sc'.sc_nbufs = sc.sc_nbufs ∧ sc'.sc_bufsize = sc.sc_bufsize)
      (stamp : sc'.sc_current_stamp = sc.sc_current_stamp) : Step (sc, log) (sc', log)

def Steps : Strcache × Log → Strcache × Log → Prop := Relation.ReflTransGen Step

/-- A state between two steps of any run of calls. -/
def Passes (sc : Strcache) (log : Log) : Prop := Steps (makeStrcache, noLog) (sc, log)

/-- Of `n` buffers the first of those that were read longest ago. -/
def LoadedLongestAgo (log : Log) (n v : Nat) : Prop :=
  v < n ∧ ∀ j < n, log.loads.idxOf j ≤ log.loads.idxOf v ∧
    (j < v → log.loads.idxOf j < log.loads.idxOf v)

def LeastRecentlyUsed (log : Log) (n v : Nat) : Prop :=
  v < n ∧ ∀ j < n, j ≠ v → log.accesses.idxOf j < log.accesses.idxOf v

def Unused (sc : Strcache) (v : Nat) : Prop := ∃ b, sc.sc_bufs[v]? = some b ∧ b.b_len = 0

/-- A buffer that may go when a block is read. -/
def MayGo (sc : Strcache) (log : Log) (v : Nat) : Prop :=
  ((∃ j, Unused sc j) → Unused sc v) ∧
    ((¬∃ j, Unused sc j) → LeastRecentlyUsed log sc.sc_nbufs v)

/-- The hits have not made a difference to which buffer comes first. -/
def OrdersAgree (sc : Strcache) (log : Log) : Prop :=
  ((∃ j, Unused sc j) → ∃ v, LoadedLongestAgo log sc.sc_nbufs v ∧ Unused sc v) ∧
    ((¬∃ j, Unused sc j) →
      ∃ v, LoadedLongestAgo log sc.sc_nbufs v ∧ LeastRecentlyUsed log sc.sc_nbufs v)

/-- A block has been read into a buffer. -/
def ReadInto (sc sc' : Strcache) (offset v : Nat) : Prop :=
  v < sc.sc_nbufs ∧ ∃ b, b.b_offset = block sc offset ∧ b.b_last_used = sc.sc_current_stamp ∧
    sc'.sc_bufs = sc.sc_bufs.set v b

/-! ## The search -/

/-- The first of the buffers with the least stamp. -/
def FirstLeast (bufs : List Buf) (x : Nat × Buf) : Prop :=
  bufs[x.1]? = some x.2 ∧ ∀ (j : Nat) b, bufs[j]? = some b → x.2.b_last_used ≤ b.b_last_used ∧
    (j < x.1 → x.2.b_last_used < b.b_last_used)

theorem FirstLeast.append {pre : List Buf} {lru : Nat × Buf} (h : FirstLeast pre lru) (b : Buf) :
    FirstLeast (pre ++ [b])
      (if b.b_last_used < lru.2.b_last_used then (pre.length, b) else lru) := by
  obtain ⟨hlru, hleast⟩ := h
  have hlt : lru.1 < pre.length := (List.getElem?_eq_some_iff.1 hlru).1
  split
  case isTrue hless =>
    refine ⟨by simp, fun j c hj => ?_⟩
    rcases Nat.lt_or_ge j pre.length with hjlt | hjge
    · rw [List.getElem?_append_left hjlt] at hj
      have := (hleast j c hj).1
      exact ⟨by dsimp only; omega, fun _ => by dsimp only; omega⟩
    · rw [List.getElem?_append_right hjge] at hj
      have hzero : j - pre.length = 0 := by
        have := (List.getElem?_eq_some_iff.1 hj).1
        simp only [List.length_singleton] at this
        omega
      rw [hzero] at hj
      cases hj
      exact ⟨le_rfl, fun hj => by dsimp only at hj; omega⟩
  case isFalse hless =>
    refine ⟨by rw [List.getElem?_append_left hlt]; exact hlru, fun j c hj => ?_⟩
    rcases Nat.lt_or_ge j pre.length with hjlt | hjge
    · rw [List.getElem?_append_left hjlt] at hj
      exact hleast j c hj
    · rw [List.getElem?_append_right hjge] at hj
      have hc : c = b := by
        have := List.mem_of_getElem? hj
        simpa using this
      subst hc
      exact ⟨by omega, fun hj => by omega⟩

theorem searchBufs_least {block : Nat} {pre bufs : List Buf} {lru x : Nat × Buf}
    (hlru : FirstLeast pre lru) (h : searchBufs block bufs pre.length lru = .inr x) :
    FirstLeast (pre ++ bufs) x := by
  induction bufs generalizing pre lru with
  | nil =>
    cases h
    simpa using hlru
  | cons b bufs ih =>
    unfold searchBufs at h
    split at h
    case isTrue => cases h
    case isFalse =>
      have hnext := hlru.append b
      have hlen : pre.length + 1 = (pre ++ [b]).length := by simp
      rw [hlen] at h
      have := ih hnext h
      simpa using this

theorem searchBufs_first {block : Nat} {first : Buf} {rest : List Buf} {x : Nat × Buf}
    (h : searchBufs block (first :: rest) 0 (0, first) = .inr x) :
    FirstLeast (first :: rest) x := by
  unfold searchBufs at h
  split at h
  case isTrue => cases h
  case isFalse =>
    simp only [lt_irrefl, if_false] at h
    have hfirst : FirstLeast [first] (0, first) := by
      refine ⟨rfl, fun j b hj => ?_⟩
      have hb : b = first := by
        have := List.mem_of_getElem? hj
        simpa using this
      subst hb
      exact ⟨le_rfl, fun hj => absurd hj (Nat.not_lt_zero j)⟩
    exact searchBufs_least hfirst h

/-! ## The stamps -/

/-- The stamps are in the order of the reads. -/
structure Stamped (sc : Strcache) (log : Log) : Prop where
  bufs : sc.sc_nbufs ≠ 0 → sc.sc_bufs.length = sc.sc_nbufs
  loads : log.loads.length ≤ sc.sc_current_stamp - 1
  stamps : ∀ (i : Nat) b, sc.sc_bufs[i]? = some b → b.b_last_used =
    if i ∈ log.loads then sc.sc_current_stamp - 1 - log.loads.idxOf i else 0

theorem stamped_make : Stamped makeStrcache noLog where
  bufs := fun h => absurd rfl h
  loads := Nat.zero_le _
  stamps := by
    intro i b hb
    have := List.mem_of_getElem? hb
    simp only [makeStrcache, List.mem_singleton] at this
    subst this
    simp [noLog]

theorem Stamped.of_ages {log : Log} (h : Stamped sc log)
    (hages : sc'.sc_bufs.map Buf.b_last_used = sc.sc_bufs.map Buf.b_last_used)
    (hnbufs : sc'.sc_nbufs = sc.sc_nbufs) (hstamp : sc'.sc_current_stamp = sc.sc_current_stamp) :
    Stamped sc' log where
  bufs := by
    have hlen := congrArg List.length hages
    simp only [List.length_map] at hlen
    rw [hnbufs, hlen]
    exact h.bufs
  loads := hstamp ▸ h.loads
  stamps := by
    intro i b hb
    have hi := congrArg (·[i]?) hages
    simp only [List.getElem?_map, hb, Option.map_some] at hi
    obtain ⟨c, hc, hcb⟩ := Option.map_eq_some_iff.1 hi.symm
    rw [← hcb, hstamp]
    exact h.stamps i c hc

theorem Stamped.hit {log : Log} (h : Stamped sc log) (i : Nat) : Stamped sc (log.hit i) :=
  ⟨h.bufs, h.loads, h.stamps⟩

theorem Stamped.load {log : Log} (h : Stamped sc log) {b : Buf} (v : Nat)
    (hb : b.b_last_used = sc.sc_current_stamp) :
    Stamped { sc with sc_bufs := sc.sc_bufs.set v b, sc_current_stamp := sc.sc_current_stamp + 1 }
      (log.load sc.sc_current_stamp v) where
  bufs := by simpa using h.bufs
  loads := by
    have := h.loads
    simp only [Log.load]
    split
    · omega
    · simp only [List.length_cons]
      omega
  stamps := by
    intro i c hc
    have hloads := h.loads
    simp only [Log.load]
    dsimp only at hc
    rw [List.getElem?_set] at hc
    by_cases hstamp : sc.sc_current_stamp = 0
    · have hnil : log.loads = [] := List.length_eq_zero_iff.1 (by omega)
      simp only [hstamp, if_true, hnil, List.not_mem_nil, if_false]
      split at hc
      · split at hc <;> cases hc
        rw [hb, hstamp]
      · have := h.stamps i c hc
        simpa [hnil] using this
    · simp only [hstamp, if_false]
      split at hc
      case isTrue hv =>
        split at hc <;> cases hc
        simp [hv, hb]
      case isFalse hv =>
        have hne : (i == v) = false := by simpa using fun e => hv e.symm
        rw [h.stamps i c hc]
        have hiv : ¬ i = v := fun e => hv e.symm
        simp only [List.mem_cons, hiv, false_or]
        split
        · rw [List.idxOf_cons_ne _ hv]
          omega
        · rfl

/-- A search once there are buffers: nothing is read, or the buffer with the least stamp is. -/
theorem findBlock_cases {log : Log} (h : Stamped sc log) (hbufs : sc.sc_nbufs ≠ 0)
    (hfind : findBlock input sc offset = .ok (sc', found)) :
    (sc' = sc ∧ (findLog input sc log offset = log ∨ ∃ i, findLog input sc log offset = log.hit i)) ∨
    ∃ v old b, FirstLeast sc.sc_bufs (v, old) ∧ b.b_last_used = sc.sc_current_stamp ∧
      b.b_offset = block sc offset ∧
      sc' = { sc with
        sc_bufs := sc.sc_bufs.set v b, sc_current_stamp := sc.sc_current_stamp + 1 } ∧
      findLog input sc log offset = log.load sc.sc_current_stamp v := by
  unfold findBlock at hfind
  unfold findLog
  have hlen := h.bufs hbufs
  cases hlist : sc.sc_bufs with
  | nil =>
    rw [hlist] at hlen
    exact absurd hlen.symm hbufs
  | cons first rest =>
    have htake : (first :: rest).take sc.sc_nbufs = first :: rest := by
      rw [← hlen, hlist]
      exact List.take_length
    rw [hlist] at hfind
    dsimp only at hfind ⊢
    rw [htake] at hfind ⊢
    change (match searchBufs (block sc offset) (first :: rest) 0 (0, first) with
      | .inl (i, b) => _
      | .inr (i, b) => _) = _ at hfind
    rcases hsearch : searchBufs (block sc offset) (first :: rest) 0 (0, first) with ⟨i, b⟩ | ⟨v, b⟩
    · rw [hsearch] at hfind
      cases hfind
      refine Or.inl ⟨rfl, ?_⟩
      dsimp only
      split
      · exact Or.inr ⟨i, rfl⟩
      · exact Or.inl rfl
    · rw [hsearch] at hfind
      dsimp only at hfind ⊢
      change (match input (block sc offset) sc.sc_bufsize with
        | none => _
        | some bytes => _) = _ at hfind
      rcases hinput : input (block sc offset) sc.sc_bufsize with _ | bytes
      · rw [hinput] at hfind
        cases hfind
        exact Or.inl ⟨rfl, Or.inl rfl⟩
      · rw [hinput] at hfind
        cases hfind
        refine Or.inr ⟨v, b, refilled b sc.sc_current_stamp (block sc offset) bytes,
          searchBufs_first hsearch, rfl, rfl, ?_, rfl⟩
        rw [← hlist]
        rfl

theorem mapBufs_stamps {f : Buf → Buf} (hf : ∀ b, (f b).b_last_used = b.b_last_used) :
    (mapBufs sc f).sc_bufs.map Buf.b_last_used = sc.sc_bufs.map Buf.b_last_used := by
  have hcomp : Buf.b_last_used ∘ f = Buf.b_last_used := funext hf
  simp only [mapBufs, List.map_append, List.map_map, hcomp]
  rw [← List.map_append, List.take_append_drop]

theorem stamped_setBufs {log : Log} {nbufs bufsize : Nat} {allocated : Bool} {res : Int}
    (h : Stamped sc log) (hset : setBufs sc nbufs bufsize allocated = .ok (sc', res)) :
    Stamped sc' (if res = 0 then noLog else log) := by
  unfold setBufs at hset
  dsimp only at hset
  generalize (if nbufs = 0 then DEFAULT_NBUFS else nbufs) = num at hset
  generalize (if bufsize = 0 then DEFAULT_BUFSIZE else bufsize) = size at hset
  by_cases hpower : size &&& (size - 1) = 0
  · rw [if_neg (not_not_intro hpower)] at hset
    cases allocated with
    | false =>
      cases hset
      exact h
    | true =>
      cases hset
      refine ⟨fun _ => List.length_replicate .., Nat.zero_le _, fun i b hb => ?_⟩
      have := List.eq_of_mem_replicate (List.mem_of_getElem? hb)
      subst this
      simp [noLog]
  · rw [if_pos hpower] at hset
    cases hset

theorem stamped_step {x y : Strcache × Log} (hstep : Step x y) (h : Stamped x.1 x.2) :
    Stamped y.1 y.2 := by
  cases hstep with
  | setBufs hset => exact stamped_setBufs h hset
  | find hbufs hfind =>
    rcases findBlock_cases h hbufs hfind with ⟨rfl, hlog | ⟨i, hlog⟩⟩ | ⟨v, old, b, -, hb, -, rfl, hlog⟩
    · rw [hlog]
      exact h
    · rw [hlog]
      exact h.hit i
    · rw [hlog]
      exact h.load v hb
  | last => exact h.hit _
  | grown =>
    refine h.of_ages (mapBufs_stamps fun b => ?_) rfl rfl
    split <;> rfl
  | forget => exact h.of_ages (mapBufs_stamps fun _ => rfl) rfl rfl
  | other hages hsizes hstamp =>
    refine h.of_ages ?_ hsizes.1 hstamp
    have := congrArg (List.map Prod.fst) hages
    rwa [List.map_map, List.map_map] at this

theorem stamped_of_passes {log : Log} (h : Passes sc log) : Stamped sc log := by
  have hall : ∀ y, Steps (makeStrcache, noLog) y → Stamped y.1 y.2 := by
    intro y hy
    induction hy with
    | refl => exact stamped_make
    | tail _ hstep ih => exact stamped_step hstep ih
  exact hall (sc, log) h

/-! ## The buffer that goes -/

/-- The least stamp is that of the buffer read longest ago. -/
theorem loadedLongestAgo_iff {log : Log} (h : Stamped sc log) (hbufs : sc.sc_nbufs ≠ 0)
    {v w : Nat} {old : Buf} (hold : FirstLeast sc.sc_bufs (v, old)) :
    LoadedLongestAgo log sc.sc_nbufs w ↔ w = v := by
  have hlen := h.bufs hbufs
  have hloads := h.loads
  have hv : v < sc.sc_nbufs := by
    rw [← hlen]
    exact (List.getElem?_eq_some_iff.1 hold.1).1
  -- A later stamp is a later read
  have horder : ∀ (i j : Nat) b c, sc.sc_bufs[i]? = some b → sc.sc_bufs[j]? = some c →
      (b.b_last_used < c.b_last_used ↔ log.loads.idxOf j < log.loads.idxOf i) := by
    intro i j b c hb hc
    rw [h.stamps i b hb, h.stamps j c hc]
    have hi := List.idxOf_lt_length_iff (l := log.loads) (a := i)
    have hj := List.idxOf_lt_length_iff (l := log.loads) (a := j)
    have hi' := List.idxOf_le_length (l := log.loads) (a := i)
    have hj' := List.idxOf_le_length (l := log.loads) (a := j)
    split <;> split <;> grind
  have hfirst : ∀ j < sc.sc_nbufs, log.loads.idxOf j ≤ log.loads.idxOf v ∧
      (j < v → log.loads.idxOf j < log.loads.idxOf v) := by
    intro j hj
    rw [← hlen] at hj
    have hb := List.getElem?_eq_getElem hj
    obtain ⟨hle, hlt⟩ := hold.2 j _ hb
    refine ⟨?_, fun hjv => (horder v j _ _ hold.1 hb).1 (hlt hjv)⟩
    by_contra hgt
    exact absurd ((horder j v _ _ hb hold.1).2 (Nat.lt_of_not_le hgt)) (Nat.not_lt.2 hle)
  constructor
  · rintro ⟨hw, hall⟩
    rcases Nat.lt_trichotomy w v with hlt | heq | hgt
    · have := (hfirst w hw).2 hlt
      have := (hall v hv).1
      omega
    · exact heq
    · have := (hall v hv).2 hgt
      have := (hfirst w hw).1
      omega
  · rintro rfl
    exact ⟨hv, hfirst⟩

theorem mayGo_iff {log : Log} {n v : Nat} (hn : sc.sc_nbufs = n)
    (hv : ∀ w, LoadedLongestAgo log n w ↔ w = v) : MayGo sc log v ↔ OrdersAgree sc log := by
  unfold MayGo OrdersAgree
  simp only [hn, hv, exists_eq_left]

/-- The state in which the search is made. -/
theorem findBuf_block (hfind : findBuf input sc offset = .ok (sc', found)) (log : Log) :
    ∃ sc1 log1, Steps (sc, log) (sc1, log1) ∧ sc1.sc_nbufs ≠ 0 ∧
      (sc.sc_nbufs ≠ 0 → sc1 = sc ∧ log1 = log) ∧ findBlock input sc1 offset = .ok (sc', found) := by
  unfold findBuf at hfind
  by_cases hn : sc.sc_nbufs = 0
  · rw [if_pos hn] at hfind
    obtain ⟨sc1, hset, hn1⟩ : ∃ sc1, setBufs sc 0 0 true = .ok (sc1, 0) ∧ sc1.sc_nbufs ≠ 0 :=
      ⟨_, rfl, Nat.succ_ne_zero 3⟩
    rw [hset] at hfind
    exact ⟨sc1, noLog, .single (.setBufs hset), hn1, fun h => absurd hn h, hfind⟩
  · rw [if_neg hn] at hfind
    exact ⟨sc, log, .refl, hn, fun _ => ⟨rfl, rfl⟩, hfind⟩

theorem findBuf_steps (hfind : findBuf input sc offset = .ok (sc', found)) (log : Log) :
    ∃ log', Steps (sc, log) (sc', log') := by
  obtain ⟨sc1, log1, hsteps, hn, -, hblock⟩ := findBuf_block hfind log
  exact ⟨_, hsteps.tail (.find hn hblock)⟩

/-- For any block that is read after any calls, the buffer that it replaces is one that may go if and
only if the orders agree. -/
theorem replaced_buffer_may_go_iff {log : Log} (h : Passes sc log)
    (hfind : findBuf input sc offset = .ok (sc', found)) :
    ∃ sc1 log1, Passes sc1 log1 ∧ (sc.sc_nbufs ≠ 0 → sc1 = sc ∧ log1 = log) ∧
      findBlock input sc1 offset = .ok (sc', found) ∧
      (sc'.sc_current_stamp ≠ sc1.sc_current_stamp →
        ∃ v, ReadInto sc1 sc' offset v ∧ (MayGo sc1 log1 v ↔ OrdersAgree sc1 log1)) := by
  obtain ⟨sc1, log1, hsteps, hn, hsame, hblock⟩ := findBuf_block hfind log
  have hpass : Passes sc1 log1 := h.trans hsteps
  have hstamped := stamped_of_passes hpass
  refine ⟨sc1, log1, hpass, hsame, hblock, fun hread => ?_⟩
  rcases findBlock_cases hstamped hn hblock with ⟨rfl, -⟩ | ⟨v, old, b, hold, hb, hoff, rfl, -⟩
  · exact absurd rfl hread
  · refine ⟨v, ⟨?_, b, hoff, hb, rfl⟩,
      mayGo_iff rfl fun w => loadedLongestAgo_iff hstamped hn hold⟩
    rw [← hstamped.bufs hn]
    exact (List.getElem?_eq_some_iff.1 hold.1).1

/-- A cache of two buffers of two bytes. -/
def twoBufs (first second : Buf) (stamp : Nat) : Strcache :=
  ⟨0, [first, second], 2, 2, 0, none, stamp⟩

/-- The reads of the blocks at 0, 2 and 4, and the block at 2 again. The second read took the buffer
of the first one. -/
theorem passes_twoBufs : Passes (twoBufs ⟨1, 2, 4, 2, [3, 4]⟩ ⟨2, 4, 6, 2, [5, 6]⟩ 3)
    ⟨[0, 1, 0, 0], [1, 0]⟩ := by
  have hset : Passes (twoBufs ⟨0, 0, 0, 0, [0, 0]⟩ ⟨0, 0, 0, 0, [0, 0]⟩ 0) noLog :=
    .tail .refl (.setBufs (show setBufs makeStrcache 2 2 true = .ok (_, 0) from rfl))
  have hfirst : Passes (twoBufs ⟨0, 0, 2, 2, [1, 2]⟩ ⟨0, 0, 0, 0, [0, 0]⟩ 1) ⟨[0], []⟩ :=
    hset.tail (.find (by decide)
      (show findBlock (readsFile [1, 2, 3, 4, 5, 6, 7, 8]) _ 0 = .ok (_, some (0, _)) from rfl))
  have hsecond : Passes (twoBufs ⟨1, 2, 4, 2, [3, 4]⟩ ⟨0, 0, 0, 0, [0, 0]⟩ 2) ⟨[0, 0], [0]⟩ :=
    hfirst.tail (.find (by decide)
      (show findBlock (readsFile [1, 2, 3, 4, 5, 6, 7, 8]) _ 2 = .ok (_, some (0, _)) from rfl))
  have hthird : Passes (twoBufs ⟨1, 2, 4, 2, [3, 4]⟩ ⟨2, 4, 6, 2, [5, 6]⟩ 3) ⟨[1, 0, 0], [1, 0]⟩ :=
    hsecond.tail (.find (by decide)
      (show findBlock (readsFile [1, 2, 3, 4, 5, 6, 7, 8]) _ 4 = .ok (_, some (1, _)) from rfl))
  exact hthird.tail (.find (by decide)
    (show findBlock (readsFile [1, 2, 3, 4, 5, 6, 7, 8]) _ 2 = .ok (_, some (0, _)) from rfl))

theorem replaced_buffer_after_a_hit :
    ∃ sc1 log1, Passes sc1 log1 ∧
      findBlock (readsFile [1, 2, 3, 4, 5, 6, 7, 8]) sc1 6 =
        .ok (twoBufs ⟨3, 6, 8, 2, [7, 8]⟩ ⟨2, 4, 6, 2, [5, 6]⟩ 4, some (0, ⟨3, 6, 8, 2, [7, 8]⟩)) := by
  obtain ⟨sc1, log1, hpass, -, hblock, -⟩ := replaced_buffer_may_go_iff passes_twoBufs
    (show findBuf (readsFile [1, 2, 3, 4, 5, 6, 7, 8]) _ 6 = .ok (_, some (0, _)) from rfl)
  exact ⟨sc1, log1, hpass, hblock⟩

/-- The block at 6 replaces the one at 2, which was found after the read of the block at 4. -/
theorem block_found_last_goes_first :
    ∃ sc log sc' found v, Passes sc log ∧
      findBuf (readsFile [1, 2, 3, 4, 5, 6, 7, 8]) sc 6 = .ok (sc', found) ∧
      ReadInto sc sc' 6 v ∧ ¬MayGo sc log v := by
  refine ⟨_, _, twoBufs ⟨3, 6, 8, 2, [7, 8]⟩ ⟨2, 4, 6, 2, [5, 6]⟩ 4, some (0, ⟨3, 6, 8, 2, [7, 8]⟩),
    0, passes_twoBufs, rfl, ⟨by decide, _, rfl, rfl, rfl⟩, fun hmay => ?_⟩
  have hunused : ¬∃ j, Unused (twoBufs ⟨1, 2, 4, 2, [3, 4]⟩ ⟨2, 4, 6, 2, [5, 6]⟩ 3) j := by
    rintro ⟨j, b, hb, hlen⟩
    have hmem := List.mem_of_getElem? hb
    simp only [twoBufs, List.mem_cons, List.not_mem_nil, or_false] at hmem
    rcases hmem with rfl | rfl <;> cases hlen
  have hlast := (hmay.2 hunused).2 1 (by decide) (by decide)
  revert hlast
  decide

/-! ## The calls -/

theorem other_steps {log : Log} (hbufs : sc'.sc_bufs.map Buf.age = sc.sc_bufs.map Buf.age)
    (hsizes : sc'.sc_nbufs = sc.sc_nbufs ∧ sc'.sc_bufsize = sc.sc_bufsize)
    (hstamp : sc'.sc_current_stamp = sc.sc_current_stamp) : Steps (sc, log) (sc', log) :=
  .single (.other hbufs hsizes hstamp)

theorem line_steps (line : Option SavedLine) (log : Log) :
    Steps (sc, log) ({ sc with sc_saved_line := line }, log) := other_steps rfl ⟨rfl, rfl⟩ rfl

/-- A buffer that is found is there. -/
theorem findBlock_found {i : Nat} {b : Buf}
    (hfind : findBlock input sc offset = .ok (sc', some (i, b))) : sc'.sc_bufs[i]? = some b := by
  unfold findBlock at hfind
  cases hlist : sc.sc_bufs with
  | nil =>
    rw [hlist] at hfind
    cases hfind
  | cons first rest =>
    rw [hlist] at hfind
    dsimp only at hfind
    have hthere : ∀ j c, ((first :: rest).take sc.sc_nbufs)[j]? = some c →
        sc.sc_bufs[0 + j]? = some c := by
      intro j c hj
      rw [hlist, Nat.zero_add]
      rw [List.getElem?_take] at hj
      split at hj
      · exact hj
      · cases hj
    have hfirst : sc.sc_bufs[(0, first).1]? = some (0, first).2 := by
      rw [hlist]
      rfl
    rcases searchBufs_spec (fun x => sc.sc_bufs[x.1]? = some x.2) hfirst hthere with
      ⟨⟨j, c⟩, heq, hj, -⟩ | ⟨⟨j, c⟩, heq, hj⟩
    · rw [heq] at hfind
      dsimp only at hfind
      split at hfind <;> cases hfind
      exact hj
    · rw [heq] at hfind
      dsimp only at hfind
      rcases hinput : input (offset - (offset &&& (sc.sc_bufsize - 1))) sc.sc_bufsize with _ | bytes
      · rw [hinput] at hfind
        cases hfind
      · rw [hinput, ← hlist] at hfind
        dsimp only at hfind
        split at hfind <;> cases hfind
        exact List.getElem?_set_self (List.getElem?_eq_some_iff.1 hj).1

theorem firstBuf_found {i : Nat} {b : Buf}
    (hfirst : firstBuf input sc offset = .ok (sc', some (i, b))) : sc'.sc_bufs[i]? = some b := by
  unfold firstBuf at hfirst
  rcases hlast : sc.sc_bufs[sc.sc_last_buf]? with _ | c
  · rw [hlast] at hfirst
    cases hfirst
  · rw [hlast] at hfirst
    dsimp only at hfirst
    split at hfirst
    · rcases hfind : findBuf input sc offset with _ | ⟨sc1, _ | ⟨j, c'⟩⟩
      · rw [hfind] at hfirst
        cases hfirst
      · rw [hfind] at hfirst
        cases hfirst
      · rw [hfind] at hfirst
        cases hfirst
        obtain ⟨sc2, -, -, -, -, hblock⟩ := findBuf_block hfind noLog
        have hfound := findBlock_found hblock
        exact hfound
    · cases hfirst
      exact hlast

theorem firstBuf_steps (hfirst : firstBuf input sc offset = .ok (sc', found)) (log : Log) :
    ∃ log', Steps (sc, log) (sc', log') := by
  unfold firstBuf at hfirst
  rcases hlast : sc.sc_bufs[sc.sc_last_buf]? with _ | b
  · rw [hlast] at hfirst
    cases hfirst
  · rw [hlast] at hfirst
    dsimp only at hfirst
    by_cases hout : b.b_offset > offset ∨ offset ≥ b.b_lim
    · rw [if_pos hout] at hfirst
      rcases hfind : findBuf input sc offset with _ | ⟨sc1, res⟩
      · rw [hfind] at hfirst
        cases hfirst
      · rw [hfind] at hfirst
        obtain ⟨log1, hsteps⟩ := findBuf_steps hfind log
        rcases res with _ | ⟨i, b1⟩
        · cases hfirst
          exact ⟨log1, hsteps⟩
        · cases hfirst
          exact ⟨log1, hsteps.trans (other_steps rfl ⟨rfl, rfl⟩ rfl)⟩
    · rw [if_neg hout] at hfirst
      cases hfirst
      push Not at hout
      exact ⟨_, .single (.last hlast hout)⟩

theorem copyString_steps {endchar : UInt8} {fuel : Nat} {line : SavedLine} {res : List UInt8}
    {r : Option (List UInt8)}
    (hcopy : copyString input endchar fuel sc line offset res = .ok (sc', r)) (log : Log) :
    ∃ log', Steps (sc, log) (sc', log') := by
  induction fuel generalizing sc line res log with
  | zero => cases hcopy
  | succ fuel ih =>
    rcases hfind : findBuf input sc (offset + res.length) with _ | ⟨sc1, _ | ⟨i, b⟩⟩
    · rw [copyString, hfind] at hcopy
      cases hcopy
    · obtain ⟨log1, hsteps⟩ := findBuf_steps hfind log
      rw [copyString, hfind] at hcopy
      change (if res.length < line.size then _ else _) = _ at hcopy
      split at hcopy <;> cases hcopy
      exact ⟨log1, hsteps⟩
    · obtain ⟨log1, hsteps⟩ := findBuf_steps hfind log
      rcases hstop : memchr endchar (b.b_data.take b.b_len) with _ | n
      · rw [copyString_none input fuel hfind hstop] at hcopy
        split at hcopy
        · cases hcopy
        · obtain ⟨log2, hrest⟩ := ih hcopy log1
          exact ⟨log2, (hsteps.trans (line_steps _ log1)).trans hrest⟩
      · rw [copyString_some input fuel hfind hstop] at hcopy
        split at hcopy
        · cases hcopy
        · split at hcopy <;> cases hcopy
          exact ⟨log1, hsteps.trans (line_steps _ log1)⟩

theorem copyBytes_steps {fuel size remaining : Nat} {res : List UInt8} {r : Option (List UInt8)}
    (hcopy : copyBytes input fuel sc size offset remaining res = .ok (sc', r)) (log : Log) :
    ∃ log', Steps (sc, log) (sc', log') := by
  induction fuel generalizing sc remaining res log with
  | zero => cases hcopy
  | succ fuel ih =>
    unfold copyBytes at hcopy
    rcases hfind : findBuf input sc (offset + res.length) with _ | ⟨sc1, found⟩
    · rw [hfind] at hcopy
      cases hcopy
    · rw [hfind] at hcopy
      obtain ⟨log1, hsteps⟩ := findBuf_steps hfind log
      rcases found with _ | ⟨i, b⟩
      · cases hcopy
        exact ⟨log1, hsteps⟩
      · dsimp only [bind, Except.bind] at hcopy
        generalize (if remaining < b.b_len then remaining else b.b_len) = to_copy at hcopy
        split at hcopy
        · cases hcopy
        · split at hcopy
          · obtain ⟨log2, hrest⟩ := ih hcopy log1
            exact ⟨log2, hsteps.trans hrest⟩
          · cases hcopy
            exact ⟨log1, hsteps⟩

theorem getString_steps {fuel : Nat} {off : Int} {endchar : UInt8} {r : Option (List UInt8)}
    (hget : getString input fuel sc off endchar = .ok (sc', r)) (log : Log) :
    ∃ log', Steps (sc, log) (sc', log') := by
  unfold getString at hget
  dsimp only [bind, Except.bind] at hget
  split at hget
  · cases hget
  · rcases hfirst : firstBuf input sc (off + sc.sc_offset).toNat with _ | ⟨sc1, _ | ⟨i, b⟩⟩
    · rw [hfirst] at hget
      cases hget
    · rw [hfirst] at hget
      cases hget
      exact firstBuf_steps hfirst log
    · obtain ⟨log1, hsteps⟩ := firstBuf_steps hfirst log
      rw [hfirst] at hget
      dsimp only at hget
      split at hget
      · cases hget
        exact ⟨log1, hsteps⟩
      · split at hget
        · cases hget
          refine ⟨log1, hsteps.trans (other_steps ?_ ⟨rfl, rfl⟩ rfl)⟩
          rw [List.map_set]
          apply List.ext_getElem?
          intro j
          rw [List.getElem?_set, List.getElem?_map]
          split
          case isTrue hj =>
            subst hj
            rw [firstBuf_found hfirst]
            split
            · rfl
            · rename_i hout
              rw [List.length_map] at hout
              exact absurd (List.getElem?_eq_some_iff.1 (firstBuf_found hfirst)).1 hout
          case isFalse => rfl
        · split at hget
          · cases hget
          · obtain ⟨log2, hrest⟩ := copyString_steps hget log1
            exact ⟨log2, (hsteps.trans (line_steps _ log1)).trans hrest⟩

theorem getBytes_steps {fuel nbytes : Nat} {off : Int} {r : Option (List UInt8)}
    (hget : getBytes input fuel sc off nbytes = .ok (sc', r)) (log : Log) :
    ∃ log', Steps (sc, log) (sc', log') := by
  unfold getBytes at hget
  dsimp only [bind, Except.bind] at hget
  split at hget
  · cases hget
  · rcases hfirst : firstBuf input sc (off + sc.sc_offset).toNat with _ | ⟨sc1, _ | ⟨i, b⟩⟩
    · rw [hfirst] at hget
      cases hget
    · rw [hfirst] at hget
      cases hget
      exact firstBuf_steps hfirst log
    · obtain ⟨log1, hsteps⟩ := firstBuf_steps hfirst log
      rw [hfirst] at hget
      dsimp only at hget
      split at hget
      · cases hget
        exact ⟨log1, hsteps⟩
      · rcases hline : lineFor sc1 nbytes with _ | line
        · rw [hline] at hget
          cases hget
        · rw [hline] at hget
          dsimp only at hget
          split at hget
          · cases hget
          · obtain ⟨log2, hrest⟩ := copyBytes_steps hget log1
            exact ⟨log2, (hsteps.trans (line_steps _ log1)).trans hrest⟩

/-- Any run of calls is one of steps. -/
theorem passes_of_reaches {F : List UInt8} (h : Reaches F sc) : ∃ log, Passes sc log := by
  induction h with
  | make F => exact ⟨noLog, .refl⟩
  | @call F sc sc' op _ step ih =>
    obtain ⟨log, ih⟩ := ih
    cases op with
    | setBufs nbufs bufsize allocated =>
      obtain ⟨res, heq⟩ := result_of_ok (x := setBufs sc nbufs bufsize allocated) step
      exact ⟨_, ih.tail (.setBufs heq)⟩
    | setOffset offset =>
      cases step
      exact ⟨log, ih.tail (.other rfl ⟨rfl, rfl⟩ rfl)⟩
    | forgetBuffers =>
      cases step
      exact ⟨log, ih.tail .forget⟩
    | getBytes off nbytes =>
      obtain ⟨res, heq⟩ := result_of_ok (x := getBytes (readsFile F) (turns F) sc off nbytes) step
      obtain ⟨log', hsteps⟩ := getBytes_steps heq log
      exact ⟨log', ih.trans hsteps⟩
    | getString off c =>
      obtain ⟨res, heq⟩ := result_of_ok (x := getString (readsFile F) (turns F) sc off c) step
      obtain ⟨log', hsteps⟩ := getString_steps heq log
      exact ⟨log', ih.trans hsteps⟩
  | grow more _ ih =>
    obtain ⟨log, ih⟩ := ih
    exact ⟨log, ih.tail .grown⟩

end ups_rules.strcache
