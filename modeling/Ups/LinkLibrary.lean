-- The search of a library (`link_library`, cx_link.c). The linker scans the members again and
-- again, back to front every second time, and links each member that defines an unresolved
-- name. The members it links are the least set that the unresolved names ask for.
import Mathlib.Data.List.Pairwise
import Ups.LinkNames
import Ups.Demand

open ups_rules.link_info ups_rules.link_names

namespace ups_rules.link_library

/-! ## The pure model -/

/-- The lines that a verbose search prints. -/
inductive LibraryLine where
  /-- "Including %s from %s for symbol `%s' (first referenced in %s)" -/
  | including (srcpath path name : CString) (refpath : Option CString)
  /-- "Not including %s from %s - no wanted symbols" -/
  | notIncluding (srcpath path : CString)
deriving DecidableEq, Repr

/-- The loops of `satisfies_ref`: the first name of the list that is unresolved. -/
def firstUnresolved (ol : Olinkinfo) : List Linkname → Option (CString × Extname)
  | [] => none
  | ln :: lns =>
    match nameToExtname ol ln.ln_name with
    | some en => if en.en_file = none then some (ln.ln_name, en) else firstUnresolved ol lns
    | none => firstUnresolved ol lns

/-- The name for which a member is wanted, functions before variables. -/
def satisfiesRef (ol : Olinkinfo) (li : Linkinfo) : Option (CString × Extname) :=
  match firstUnresolved ol li.li_funcs with
  | some r => some r
  | none => firstUnresolved ol li.li_vars

/-- The variables of `link_library`, with the lines printed so far. -/
structure LibraryScan where
  ol : Olinkinfo
  wanted : List LinklistElt
  unused : List LinklistElt
  done_one : Bool
  printed : List LibraryLine

/-- One turn of the inner loop of `link_library`. -/
def scanElt (path : CString) (verbose : Bool) (s : LibraryScan) (ll : LinklistElt) :
    LibraryScan :=
  match satisfiesRef s.ol ll.ll_linkinfo with
  | some (name, en) =>
    { ol := linkElt path s.ol ll
      wanted := ll :: s.wanted
      unused := s.unused
      done_one := true
      printed :=
        if verbose then
          s.printed ++ [.including ll.ll_linkinfo.li_srcpath path name en.en_refpath]
        else s.printed }
  | none => { s with unused := ll :: s.unused }

/-- One pass over the members that are still unused. -/
def scanPass (path : CString) (verbose : Bool) (s : LibraryScan) : LibraryScan :=
  s.unused.foldl (scanElt path verbose) { s with unused := [], done_one := false }

/-- The do loop of `link_library`, which ends after a pass that links no member. It gives
up when the fuel is out. -/
def scanLoop (path : CString) (verbose : Bool) : Nat → LibraryScan → Option LibraryScan
  | 0, _ => none
  | fuel + 1, s =>
    let s' := scanPass path verbose s
    if s'.done_one then scanLoop path verbose fuel s' else some s'

/-- The lines about the unused members at the end of `link_library`. -/
def reportUnused (path : CString) (verbose : Bool) (s : LibraryScan) : LibraryScan :=
  { s with printed :=
      if verbose then
        s.printed ++ s.unused.map fun ll => .notIncluding ll.ll_linkinfo.li_srcpath path
      else s.printed }

/-- `link_library`, with enough fuel for each member to need a pass of its own. -/
def linkLibrary (ol : Olinkinfo) (linklist : List LinklistElt) (path : CString)
    (verbose : Bool) : Option LibraryScan :=
  (scanLoop path verbose (linklist.length + 1) ⟨ol, [], linklist, false, []⟩).map
    (reportUnused path verbose)

/-! ## The demand of the unresolved names -/

/-- The members of a list are linked, the last one first. -/
def linkElts (path : CString) (ol : Olinkinfo) (lls : List LinklistElt) : Olinkinfo :=
  lls.foldr (fun ll ol => linkElt path ol ll) ol

/-- A name that is unresolved given the files already linked and the members of `A`. -/
def UnresolvedWith (ol : Olinkinfo) (A : Set LinklistElt) (n : CString) : Prop :=
  (Known ol n ∨ ∃ a ∈ A, n ∈ a.ll_linkinfo.refs ∨ n ∈ a.ll_linkinfo.defs) ∧
    ¬ (Defined ol n ∨ ∃ a ∈ A, n ∈ a.ll_linkinfo.defs)

/-- The member defines a name that is unresolved given the files already linked and the
members of `A`. -/
def Wanted (ol : Olinkinfo) (A : Set LinklistElt) (ll : LinklistElt) : Prop :=
  ∃ n ∈ ll.ll_linkinfo.defs, UnresolvedWith ol A n

/-- Each name is defined by at most one member. -/
def OneDefiner (lls : List LinklistElt) : Prop :=
  lls.Pairwise fun a b => ∀ n ∈ a.ll_linkinfo.defs, n ∉ b.ll_linkinfo.defs

instance (lls : List LinklistElt) : Decidable (OneDefiner lls) :=
  inferInstanceAs (Decidable (lls.Pairwise _))

theorem firstUnresolved_isSome (ol : Olinkinfo) (lns : List Linkname) :
    (firstUnresolved ol lns).isSome ↔ ∃ n ∈ lns.map Linkname.ln_name, Unresolved ol n := by
  induction lns with
  | nil => simp [firstUnresolved]
  | cons ln lns ih =>
    have hun : Unresolved ol ln.ln_name ↔
        ∃ en, nameToExtname ol ln.ln_name = some en ∧ en.en_file = none := by
      unfold Unresolved Known Defined kindOf defOf
      cases nameToExtname ol ln.ln_name with
      | none => simp
      | some en => simp
    simp only [firstUnresolved, List.map_cons, List.mem_cons, exists_eq_or_imp, hun]
    rcases nameToExtname ol ln.ln_name with _ | en
    · simpa using ih
    · by_cases hf : en.en_file = none
      · simp [hf]
      · simpa [hf] using ih

/-- `satisfies_ref` holds for the members that define an unresolved name. -/
theorem satisfiesRef_isSome (ol : Olinkinfo) (li : Linkinfo) :
    (satisfiesRef ol li).isSome ↔ ∃ n ∈ li.defs, Unresolved ol n := by
  have hf := firstUnresolved_isSome ol li.li_funcs
  have hv := firstUnresolved_isSome ol li.li_vars
  have hsplit : (satisfiesRef ol li).isSome ↔
      (firstUnresolved ol li.li_funcs).isSome ∨ (firstUnresolved ol li.li_vars).isSome := by
    unfold satisfiesRef
    cases firstUnresolved ol li.li_funcs <;> simp
  rw [hsplit, hf, hv]
  simp only [Linkinfo.defs, List.mem_append]
  constructor
  · rintro (⟨n, hn, hu⟩ | ⟨n, hn, hu⟩)
    · exact ⟨n, Or.inr hn, hu⟩
    · exact ⟨n, Or.inl hn, hu⟩
  · rintro ⟨n, hn | hn, hu⟩
    · exact Or.inr ⟨n, hn, hu⟩
    · exact Or.inl ⟨n, hn, hu⟩

theorem known_linkElts (path : CString) (ol : Olinkinfo) (lls : List LinklistElt) (n : CString) :
    Known (linkElts path ol lls) n ↔
      Known ol n ∨ ∃ a ∈ lls, n ∈ a.ll_linkinfo.refs ∨ n ∈ a.ll_linkinfo.defs := by
  induction lls with
  | nil => simp [linkElts]
  | cons ll lls ih =>
    unfold linkElts at ih ⊢
    rw [List.foldr_cons, linkElt, known_linkFile, ih]
    simp only [List.mem_cons, exists_eq_or_imp, or_assoc, or_comm, or_left_comm]

theorem defined_linkElts (path : CString) (ol : Olinkinfo) (lls : List LinklistElt)
    (n : CString) :
    Defined (linkElts path ol lls) n ↔ Defined ol n ∨ ∃ a ∈ lls, n ∈ a.ll_linkinfo.defs := by
  induction lls with
  | nil => simp [linkElts]
  | cons ll lls ih =>
    unfold linkElts at ih ⊢
    rw [List.foldr_cons, linkElt, defined_linkFile, ih]
    simp only [List.mem_cons, exists_eq_or_imp, or_comm, or_left_comm]

/-- The state after some members knows which names are unresolved given those members. -/
theorem unresolved_linkElts (path : CString) (ol : Olinkinfo) (lls : List LinklistElt)
    (n : CString) :
    Unresolved (linkElts path ol lls) n ↔ UnresolvedWith ol {a | a ∈ lls} n := by
  unfold Unresolved UnresolvedWith
  rw [known_linkElts, defined_linkElts]
  rfl

theorem satisfiesRef_linkElts (path : CString) (ol : Olinkinfo) (lls : List LinklistElt)
    (ll : LinklistElt) :
    (satisfiesRef (linkElts path ol lls) ll.ll_linkinfo).isSome ↔
      Wanted ol {a | a ∈ lls} ll := by
  rw [satisfiesRef_isSome]
  simp only [unresolved_linkElts, Wanted]

theorem oneDefiner_eq {lls : List LinklistElt} (h : OneDefiner lls) {a b : LinklistElt}
    (ha : a ∈ lls) (hb : b ∈ lls) {n : CString} (hna : n ∈ a.ll_linkinfo.defs)
    (hnb : n ∈ b.ll_linkinfo.defs) : a = b := by
  by_contra hab
  have hsymm : Std.Symm fun a b : LinklistElt =>
      ∀ n ∈ a.ll_linkinfo.defs, n ∉ b.ll_linkinfo.defs :=
    ⟨fun _ _ hd m hmb hma => hd m hma hmb⟩
  exact h.forall ha hb hab n hna hnb

/-- With one definer for each name, no other member takes away the demand for a member. -/
theorem wanted_persistent (ol : Olinkinfo) {lls : List LinklistElt} (h : OneDefiner lls) :
    demand.Persistent {a | a ∈ lls} (Wanted ol) := by
  intro A B m hAB hB hm hmB hw
  obtain ⟨n, hn, hknown, hdef⟩ := hw
  refine ⟨n, hn, ?_, ?_⟩
  · rcases hknown with hk | ⟨a, ha, hr⟩
    · exact Or.inl hk
    · exact Or.inr ⟨a, hAB ha, hr⟩
  · rintro (hd | ⟨b, hb, hnb⟩)
    · exact hdef (Or.inl hd)
    · have hmb : m = b := oneDefiner_eq h hm (hB hb) hn hnb
      exact hmB (hmb ▸ hb)

/-! ## The scan -/

/-- What holds at every point of the scan, with `rest` the members that the pass still has
to look at: the state is the one after the wanted members, each of them was wanted by those
before it, and no member is lost or doubled. -/
structure ScanOk (path : CString) (ol : Olinkinfo) (lls : List LinklistElt) (s : LibraryScan)
    (rest : List LinklistElt) : Prop where
  state : s.ol = linkElts path ol s.wanted
  taken : demand.Taken {a | a ∈ lls} (Wanted ol) s.wanted
  perm : (s.wanted ++ s.unused ++ rest).Perm lls

section scan

variable {path : CString} {ol : Olinkinfo} {lls : List LinklistElt} (verbose : Bool)

theorem scanOk_step {s : LibraryScan} {ll : LinklistElt} {rest : List LinklistElt}
    (h : ScanOk path ol lls s (ll :: rest)) :
    ScanOk path ol lls (scanElt path verbose s ll) rest := by
  have hmem : ll ∈ lls := h.perm.subset (by simp)
  unfold scanElt
  rcases hsat : satisfiesRef s.ol ll.ll_linkinfo with _ | ⟨name, en⟩
  · refine ⟨h.state, h.taken, List.Perm.trans ?_ h.perm⟩
    simpa using List.perm_middle.symm.append_left s.wanted
  · have hw : Wanted ol {a | a ∈ s.wanted} ll := by
      rw [← satisfiesRef_linkElts path, ← h.state, hsat]
      rfl
    refine ⟨?_, h.taken.cons hmem hw, List.Perm.trans ?_ h.perm⟩
    · simp only [linkElts, List.foldr_cons]
      rw [h.state]
      rfl
    · simpa using (@List.perm_middle _ ll (s.wanted ++ s.unused) rest).symm

theorem scanOk_foldl {s : LibraryScan} {rest : List LinklistElt}
    (h : ScanOk path ol lls s rest) :
    ScanOk path ol lls (rest.foldl (scanElt path verbose) s) [] := by
  induction rest generalizing s with
  | nil => exact h
  | cons ll rest ih => exact ih (scanOk_step verbose h)

theorem done_one_foldl {s : LibraryScan} (rest : List LinklistElt) (h : s.done_one = true) :
    (rest.foldl (scanElt path verbose) s).done_one = true := by
  induction rest generalizing s with
  | nil => exact h
  | cons ll rest ih =>
    refine ih ?_
    unfold scanElt
    split
    · rfl
    · exact h

/-- A pass that links no member only turns the unused members around, and it has looked at
each of them in the state it ends in. -/
theorem idle_foldl {s : LibraryScan} {rest : List LinklistElt}
    (h : (rest.foldl (scanElt path verbose) s).done_one = false) :
    (rest.foldl (scanElt path verbose) s).ol = s.ol ∧
      (rest.foldl (scanElt path verbose) s).unused = rest.reverse ++ s.unused ∧
      ∀ ll ∈ rest, satisfiesRef s.ol ll.ll_linkinfo = none := by
  induction rest generalizing s with
  | nil => simp
  | cons ll rest ih =>
    rw [List.foldl_cons] at h ⊢
    rcases hsat : satisfiesRef s.ol ll.ll_linkinfo with _ | ⟨name, en⟩
    · have hstep : scanElt path verbose s ll = { s with unused := ll :: s.unused } := by
        simp [scanElt, hsat]
      rw [hstep] at h ⊢
      obtain ⟨hol, hun, hall⟩ := ih h
      refine ⟨hol, by rw [hun]; simp, fun a ha => ?_⟩
      rcases List.mem_cons.mp ha with rfl | ha
      · exact hsat
      · exact hall a ha
    · have hdone : (scanElt path verbose s ll).done_one = true := by simp [scanElt, hsat]
      rw [done_one_foldl verbose rest hdone] at h
      cases h

theorem unused_foldl_le (path : CString) (rest : List LinklistElt) (s : LibraryScan) :
    (rest.foldl (scanElt path verbose) s).unused.length ≤ s.unused.length + rest.length := by
  induction rest generalizing s with
  | nil => simp
  | cons ll rest ih =>
    have h1 := ih (scanElt path verbose s ll)
    have h2 : (scanElt path verbose s ll).unused.length ≤ s.unused.length + 1 := by
      unfold scanElt
      split <;> simp
    simp only [List.foldl_cons, List.length_cons]
    omega

/-- A pass that links a member leaves fewer members unused. -/
theorem unused_foldl_lt {s : LibraryScan} {rest : List LinklistElt}
    (h0 : s.done_one = false) (h : (rest.foldl (scanElt path verbose) s).done_one = true) :
    (rest.foldl (scanElt path verbose) s).unused.length < s.unused.length + rest.length := by
  induction rest generalizing s with
  | nil => rw [List.foldl_nil, h0] at h; cases h
  | cons ll rest ih =>
    rw [List.foldl_cons] at h ⊢
    rcases hsat : satisfiesRef s.ol ll.ll_linkinfo with _ | ⟨name, en⟩
    · have hstep : scanElt path verbose s ll = { s with unused := ll :: s.unused } := by
        simp [scanElt, hsat]
      rw [hstep] at h ⊢
      have h1 := ih (s := { s with unused := ll :: s.unused }) h0 h
      simp only [List.length_cons] at h1 ⊢
      omega
    · have h1 := unused_foldl_le verbose path rest (scanElt path verbose s ll)
      have h2 : (scanElt path verbose s ll).unused = s.unused := by simp [scanElt, hsat]
      simp only [h2, List.length_cons] at h1 ⊢
      omega

theorem scanOk_pass {s : LibraryScan} (h : ScanOk path ol lls s []) :
    ScanOk path ol lls (scanPass path verbose s) [] := by
  refine scanOk_foldl verbose ⟨h.state, h.taken, ?_⟩
  simpa using h.perm

/-- With more fuel than unused members the loop ends, and it ends in a state in which no
unused member is wanted. -/
theorem scanLoop_ends (fuel : Nat) {s : LibraryScan} (hf : s.unused.length < fuel)
    (h : ScanOk path ol lls s []) :
    ∃ s', scanLoop path verbose fuel s = some s' ∧ ScanOk path ol lls s' [] ∧
      ∀ ll ∈ s'.unused, satisfiesRef s'.ol ll.ll_linkinfo = none := by
  induction fuel generalizing s with
  | zero => omega
  | succ fuel ih =>
    have hok := scanOk_pass verbose h
    rcases hdone : (scanPass path verbose s).done_one with _ | _
    · refine ⟨_, by simp [scanLoop, hdone], hok, fun ll hll => ?_⟩
      obtain ⟨hol, hun, hall⟩ := idle_foldl verbose hdone
      unfold scanPass at hll ⊢
      rw [hun, List.append_nil, List.mem_reverse] at hll
      rw [hol]
      exact hall ll hll
    · have hlt : (scanPass path verbose s).unused.length < s.unused.length := by
        have hpass := unused_foldl_lt verbose rfl hdone
        simpa [scanPass] using hpass
      obtain ⟨s', hs', hrest⟩ := ih (by omega) hok
      exact ⟨s', by simp [scanLoop, hdone, hs'], hrest⟩

end scan

/-- What `link_library` returns, whatever the members define. -/
theorem linkLibrary_spec (ol : Olinkinfo) (lls : List LinklistElt) (path : CString)
    (verbose : Bool) :
    ∃ s, linkLibrary ol lls path verbose = some s ∧ ScanOk path ol lls s [] ∧
      ∀ ll ∈ s.unused, satisfiesRef s.ol ll.ll_linkinfo = none := by
  have h0 : ScanOk path ol lls ⟨ol, [], lls, false, []⟩ [] :=
    ⟨rfl, .nil, by simp⟩
  obtain ⟨s, hs, hok, hend⟩ := scanLoop_ends verbose (lls.length + 1)
    (by simp) h0
  exact ⟨reportUnused path verbose s, by simp [linkLibrary, hs],
    ⟨hok.state, hok.taken, hok.perm⟩, hend⟩

/-- No member that is left over is wanted by the members that were taken. -/
theorem not_wanted_of_left {path : CString} {ol : Olinkinfo} {lls : List LinklistElt}
    {s : LibraryScan} (hok : ScanOk path ol lls s [])
    (hend : ∀ ll ∈ s.unused, satisfiesRef s.ol ll.ll_linkinfo = none) :
    ∀ m ∈ {a | a ∈ lls}, m ∉ s.wanted → ¬ Wanted ol {a | a ∈ s.wanted} m := by
  intro m hm hmw hw
  have hmu : m ∈ s.wanted ++ s.unused := by simpa using hok.perm.symm.subset hm
  rcases List.mem_append.mp hmu with h | h
  · exact hmw h
  · rw [← satisfiesRef_linkElts path, ← hok.state, hend m h] at hw
    cases hw

/-! ## The laws -/

/-- The search of a library ends. It links the least set of members that holds every member
that defines a name unresolved given the files already linked and the set, no member left
over defines a name that is still unresolved, and every order of the members gives this set. -/
theorem a_library_search_links_the_least_closed_set (ol : Olinkinfo) (lls : List LinklistElt)
    (path : CString) (verbose : Bool) (h : OneDefiner lls) :
    ∃ s, linkLibrary ol lls path verbose = some s ∧
      (s.wanted ++ s.unused).Perm lls ∧ s.ol = linkElts path ol s.wanted ∧
      IsLeast {A | A ⊆ {a | a ∈ lls} ∧ ∀ ll ∈ lls, Wanted ol A ll → ll ∈ A} {a | a ∈ s.wanted} ∧
      (∀ ll ∈ s.unused, ∀ n ∈ ll.ll_linkinfo.defs, ¬ Unresolved s.ol n) ∧
      ∀ lls', lls'.Perm lls → ∃ s', linkLibrary ol lls' path verbose = some s' ∧
        ∀ ll, ll ∈ s'.wanted ↔ ll ∈ s.wanted := by
  obtain ⟨s, hs, hok, hend⟩ := linkLibrary_spec ol lls path verbose
  have hp := wanted_persistent ol h
  have hleft := not_wanted_of_left hok hend
  refine ⟨s, hs, by simpa using hok.perm, hok.state, hok.taken.isLeast hp hleft, ?_, ?_⟩
  · intro ll hll n hn hu
    have hsat : (satisfiesRef s.ol ll.ll_linkinfo).isSome :=
      (satisfiesRef_isSome _ _).mpr ⟨n, hn, hu⟩
    rw [hend ll hll] at hsat
    cases hsat
  · intro lls' hperm
    obtain ⟨s', hs', hok', hend'⟩ := linkLibrary_spec ol lls' path verbose
    have hset : {a | a ∈ lls'} = {a | a ∈ lls} := Set.ext fun a => hperm.mem_iff
    have htaken' := hok'.taken
    have hleft' := not_wanted_of_left hok' hend'
    rw [hset] at htaken' hleft'
    exact ⟨s', hs', htaken'.unique hp hok.taken hleft' hleft⟩

/-- A member that uses a variable and defines a function. -/
def sampleMember (offset : Taddr) (ref defined : CString) : LinklistElt :=
  ⟨offset, { (default : Linkinfo) with li_undef_vars := [⟨ref, 0⟩], li_funcs := [⟨defined, 0⟩] },
    default⟩

/-- A cycle of two members of which the first defines `main`. -/
theorem a_library_search_of_a_cycle :
    ∃ s, linkLibrary (makeLinkId [])
        [sampleMember 0 [97] mainName, sampleMember 1 mainName [97]] [] false = some s ∧
      ∀ ll ∈ s.unused, ∀ n ∈ ll.ll_linkinfo.defs, ¬ Unresolved s.ol n := by
  obtain ⟨s, hs, _, _, _, hleft, _⟩ := a_library_search_links_the_least_closed_set (makeLinkId [])
    [sampleMember 0 [97] mainName, sampleMember 1 mainName [97]] [] false (by decide)
  exact ⟨s, hs, hleft⟩

end ups_rules.link_library
