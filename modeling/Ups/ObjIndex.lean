-- The hash table of the object codes: what a lookup finds, and what entering an object and taking
-- one out does to the lists of nodes.
import Ups.ObjTree

open linked_path

namespace ups_rules.obj_tree

variable {s s' : State} {chains : Nat → List Ptr} {i hash obj o n code : Nat} {p q : Option Ptr}
  {l l1 l2 : List Ptr}

/-- The links of the list with the number `i`. -/
def chainLink (s : State) (i : Nat) : Option Ptr → Option Ptr
  | none => s.Hashtab i
  | some n => (s.hashes n).ha_next

/-- The nodes of the hash table: one for each live object, in the list for its code. -/
structure Index (s : State) (chains : Nat → List Ptr) : Prop where
  path : ∀ i, Path (chainLink s i) none (chains i) none
  nodup : ∀ i, (chains i).Nodup
  used : ∀ i, ∀ n ∈ chains i, s.used n = true
  entry : ∀ i, ∀ n ∈ chains i, s.live (s.hashes n).ha_obj = true ∧
    HASH (s.code (s.hashes n).ha_obj) = i
  once : ∀ i, ((chains i).map fun n => (s.hashes n).ha_obj).Nodup
  all : ∀ o, s.live o = true → ∃ n ∈ chains (HASH (s.code o)), (s.hashes n).ha_obj = o

/-- There are no more live objects than have been made, and the root. -/
def Counted (s : State) : Prop :=
  ∃ nodes : List Ptr, (∀ o, s.live o = true → o ∈ nodes) ∧ nodes.length ≤ s.made + 1

def DistinctCodes (s : State) : Prop :=
  ∀ o o', s.live o = true → s.live o' = true → s.code o = s.code o' → o = o'

theorem Index.length_lt (h : Index s chains) (hcount : Counted s) (i : Nat) :
    (chains i).length < s.fuel := by
  obtain ⟨nodes, hnodes, hlen⟩ := hcount
  have hsub : (chains i).map (fun n => (s.hashes n).ha_obj) ⊆ nodes := by
    intro o ho
    obtain ⟨n, hn, rfl⟩ := List.mem_map.mp ho
    exact hnodes _ (h.entry i n hn).1
  have hle := ((h.once i).subperm hsub).length_le
  rw [List.length_map] at hle
  unfold State.fuel
  omega

theorem Index.disjoint (h : Index s chains) {j : Nat} (hi : n ∈ chains i) (hj : n ∈ chains j) :
    i = j :=
  ((h.entry i n hi).2).symm.trans (h.entry j n hj).2

/-! ## Lookups -/

theorem findCode_spec (code : Nat) {fuel : Nat} (hpath : Path (chainLink s i) p l none)
    (hq : chainLink s i p = q) (hfuel : l.length < fuel) :
    findCode s code fuel q =
      match l.find? fun n => s.code (s.hashes n).ha_obj == code with
      | some n => .ok n
      | none => .error (.panic "attempt to reference nonexistent object") := by
  induction l generalizing p q fuel with
  | nil =>
    obtain ⟨fuel, rfl⟩ := Nat.exists_eq_succ_of_ne_zero (Nat.ne_of_gt (by omega : 0 < fuel))
    rw [path_nil] at hpath
    rw [← hq, hpath]
    rfl
  | cons a l ih =>
    obtain ⟨fuel, rfl⟩ := Nat.exists_eq_succ_of_ne_zero (Nat.ne_of_gt (by omega : 0 < fuel))
    obtain ⟨ha, hrest⟩ := path_cons.mp hpath
    rw [← hq, ha, Nat.succ_eq_add_one, findCode]
    by_cases hcode : s.code (s.hashes a).ha_obj = code
    · rw [if_pos hcode, List.find?_cons_of_pos (by simpa using hcode)]
    · rw [if_neg hcode, List.find?_cons_of_neg (by simpa using hcode)]
      exact ih hrest rfl (by simpa using hfuel)

theorem findObj_spec {fuel : Nat} (hpath : Path (chainLink s i) p (l1 ++ n :: l2) none)
    (hq : chainLink s i p = q) (hn : (s.hashes n).ha_obj = obj)
    (hbefore : ∀ m ∈ l1, (s.hashes m).ha_obj ≠ obj) (hfuel : l1.length + 1 < fuel) :
    findObj s obj fuel p q = .ok (lastOf p l1, n) := by
  induction l1 generalizing p q fuel with
  | nil =>
    obtain ⟨fuel, rfl⟩ := Nat.exists_eq_succ_of_ne_zero (Nat.ne_of_gt (by omega : 0 < fuel))
    obtain ⟨ha, -⟩ := path_cons.mp hpath
    rw [← hq, ha, Nat.succ_eq_add_one, findObj, if_pos hn]
    rfl
  | cons a l1 ih =>
    obtain ⟨fuel, rfl⟩ := Nat.exists_eq_succ_of_ne_zero (Nat.ne_of_gt (by omega : 0 < fuel))
    rw [List.cons_append] at hpath
    obtain ⟨ha, hrest⟩ := path_cons.mp hpath
    rw [List.forall_mem_cons] at hbefore
    rw [← hq, ha, Nat.succ_eq_add_one, findObj, if_neg hbefore.1]
    exact ih hrest rfl hbefore.2 (by simpa using hfuel)

/-- A lookup only touches the cache. -/
theorem codeToObj_spec (h : Index s chains) (hcount : Counted s) (hcodes : DistinctCodes s)
    (h1 : s.live s.Likely1 = true) (h2 : s.live s.Likely2 = true) (ho : Named s code o) :
    codeToObj s code = .ok (s, o) ∧ (o = s.Likely1 ∨ o = s.Likely2) ∨
      codeToObj s code = .ok (setLikely s o, o) ∧ o ≠ s.Likely1 ∧ o ≠ s.Likely2 := by
  obtain ⟨hlive, rfl⟩ := ho
  unfold codeToObj
  by_cases hc1 : s.code s.Likely1 = s.code o
  · rw [if_pos hc1, hcodes _ _ h1 hlive hc1]
    exact Or.inl ⟨rfl, Or.inl rfl⟩
  · rw [if_neg hc1]
    by_cases hc2 : s.code s.Likely2 = s.code o
    · rw [if_pos hc2, hcodes _ _ h2 hlive hc2]
      exact Or.inl ⟨rfl, Or.inr rfl⟩
    · rw [if_neg hc2]
      right
      have hfind := findCode_spec (s.code o) (h.path (HASH (s.code o))) rfl
        (h.length_lt hcount _)
      obtain ⟨n, hn, hno⟩ := h.all o hlive
      have hfound : (chains (HASH (s.code o))).find?
          (fun n => s.code (s.hashes n).ha_obj == s.code o) = some n := by
        cases hm : (chains (HASH (s.code o))).find?
            (fun n => s.code (s.hashes n).ha_obj == s.code o) with
        | none =>
          rw [List.find?_eq_none] at hm
          exact absurd (by simp [hno]) (hm n hn)
        | some m =>
          have hmem := List.mem_of_find?_eq_some hm
          have hmcode : s.code (s.hashes m).ha_obj = s.code o := by
            simpa using List.find?_some hm
          have hmo := hcodes _ _ (h.entry _ m hmem).1 hlive hmcode
          -- Two nodes of one list are not of one object
          rw [List.inj_on_of_nodup_map (h.once _) hmem hn (hmo.trans hno.symm)]
      rw [hfound] at hfind
      refine ⟨?_, ?_, ?_⟩
      · change (findCode s (s.code o) s.fuel (s.Hashtab _)).bind _ = _
        change findCode s (s.code o) s.fuel (s.Hashtab _) = _ at hfind
        rw [hfind]
        dsimp only [Except.bind]
        rw [hno]
      · rintro rfl
        exact hc1 rfl
      · rintro rfl
        exact hc2 rfl

theorem codeToObj_none (h : Index s chains) (hcount : Counted s) (h1 : s.live s.Likely1 = true)
    (h2 : s.live s.Likely2 = true) (hnone : ¬InUse s code) :
    codeToObj s code = .error (.panic "attempt to reference nonexistent object") := by
  have hne : ∀ o, s.live o = true → s.code o ≠ code := fun o ho hc => hnone ⟨o, ho, hc⟩
  unfold codeToObj
  rw [if_neg (hne _ h1), if_neg (hne _ h2)]
  have hfind := findCode_spec code (h.path (HASH code)) rfl (h.length_lt hcount _)
  have hnot : (chains (HASH code)).find? (fun n => s.code (s.hashes n).ha_obj == code) = none := by
    rw [List.find?_eq_none]
    intro n hn
    have := hne _ (h.entry _ n hn).1
    simpa using this
  rw [hnot] at hfind
  change (findCode s code s.fuel (s.Hashtab _)).bind _ = _
  change findCode s code s.fuel (s.Hashtab _) = _ at hfind
  rw [hfind]
  rfl

/-! ## Entering an object and taking one out -/

theorem Index.congr (h : Index s chains) (hHashtab : s'.Hashtab = s.Hashtab)
    (hhashes : s'.hashes = s.hashes) (hused : s'.used = s.used) (hlive : s'.live = s.live)
    (hcode : ∀ o, s'.code o = s.code o) : Index s' chains := by
  have hlink : ∀ i, chainLink s' i = chainLink s i := by
    intro i
    funext p
    unfold chainLink
    rw [hHashtab, hhashes]
  refine ⟨?_, h.nodup, ?_, ?_, ?_, ?_⟩
  · intro i
    rw [hlink]
    exact h.path i
  · rw [hused]
    exact h.used
  · intro i n hn
    rw [hhashes, hlive, hcode]
    exact h.entry i n hn
  · rw [hhashes]
    exact h.once
  · intro o ho
    rw [hcode, hhashes]
    rw [hlive] at ho
    exact h.all o ho

/-- A free node is put in front of the list for the code of a new object. -/
theorem Index.enter (s' : State) (h : Index s chains) (hlive : s.live obj = false)
    (hused : s.used hash = false)
    (hhashes' : s'.hashes = Function.update s.hashes hash ⟨obj, s.Hashtab (HASH code)⟩)
    (hused' : s'.used = Function.update s.used hash true)
    (hHashtab' : s'.Hashtab = Function.update s.Hashtab (HASH code) (some hash))
    (hlive' : s'.live = Function.update s.live obj true) (hcode : s'.code obj = code)
    (hcodes : ∀ o, o ≠ obj → s'.code o = s.code o) :
    Index s' (Function.update chains (HASH code) (hash :: chains (HASH code))) := by
  have hnew : ∀ i, hash ∉ chains i := by
    intro i hc
    rw [h.used i hash hc] at hused
    exact Bool.noConfusion hused
  have hsame : ∀ i, ∀ n ∈ chains i, s'.hashes n = s.hashes n := by
    intro i n hn
    rw [hhashes', Function.update_of_ne]
    rintro rfl
    exact hnew i hn
  have hobj : s'.hashes hash = ⟨obj, s.Hashtab (HASH code)⟩ := by
    rw [hhashes', Function.update_self]
  have hold : ∀ i, ∀ n ∈ chains i, (s.hashes n).ha_obj ≠ obj := by
    intro i n hn hc
    have := (h.entry i n hn).1
    rw [hc, hlive] at this
    exact Bool.noConfusion this
  have hmaps : ∀ i, (chains i).map (fun n => (s'.hashes n).ha_obj) =
      (chains i).map fun n => (s.hashes n).ha_obj :=
    fun i => List.map_congr_left fun n hn => by rw [hsame i n hn]
  refine ⟨?_, ?_, ?_, ?_, ?_, ?_⟩
  · intro i
    by_cases hi : i = HASH code
    · subst hi
      rw [Function.update_self]
      refine path_insert (show Path _ none ([] ++ _) none from h.path _) (h.nodup _) (hnew _) ?_ ?_ ?_
      · change (s'.hashes hash).ha_next = s.Hashtab _
        rw [hobj]
      · change s'.Hashtab _ = some hash
        rw [hHashtab', Function.update_self]
      · intro x hx hx'
        cases x with
        | none => exact absurd rfl hx'
        | some n =>
          change (s'.hashes n).ha_next = (s.hashes n).ha_next
          rw [hhashes', Function.update_of_ne]
          rintro rfl
          exact hx rfl
    · rw [Function.update_of_ne hi]
      refine (h.path i).congr ?_
      intro x hx
      cases x with
      | none =>
        change s'.Hashtab i = s.Hashtab i
        rw [hHashtab', Function.update_of_ne hi]
      | some n =>
        have hn : n ∈ chains i := by simpa using hx
        change (s'.hashes n).ha_next = (s.hashes n).ha_next
        rw [hsame i n hn]
  · intro i
    by_cases hi : i = HASH code
    · subst hi
      rw [Function.update_self, List.nodup_cons]
      exact ⟨hnew _, h.nodup _⟩
    · rw [Function.update_of_ne hi]
      exact h.nodup i
  · intro i n hn
    rw [hused']
    by_cases hnh : n = hash
    · rw [hnh, Function.update_self]
    · rw [Function.update_of_ne hnh]
      by_cases hi : i = HASH code
      · subst hi
        rw [Function.update_self] at hn
        exact h.used _ n ((List.mem_cons.mp hn).resolve_left hnh)
      · rw [Function.update_of_ne hi] at hn
        exact h.used i n hn
  · have hentry : ∀ i, ∀ n ∈ chains i, s'.live (s'.hashes n).ha_obj = true ∧
        HASH (s'.code (s'.hashes n).ha_obj) = i := by
      intro i n hn
      rw [hsame i n hn, hlive', Function.update_of_ne (hold i n hn), hcodes _ (hold i n hn)]
      exact h.entry i n hn
    intro i n hn
    by_cases hi : i = HASH code
    · subst hi
      rw [Function.update_self] at hn
      rcases List.mem_cons.mp hn with rfl | hn
      · rw [hobj, hlive', Function.update_self, hcode]
        exact ⟨rfl, rfl⟩
      · exact hentry _ n hn
    · rw [Function.update_of_ne hi] at hn
      exact hentry i n hn
  · intro i
    by_cases hi : i = HASH code
    · subst hi
      rw [Function.update_self, List.map_cons, hmaps, hobj, List.nodup_cons]
      refine ⟨?_, h.once _⟩
      intro hc
      obtain ⟨n, hn, hno⟩ := List.mem_map.mp hc
      exact hold _ n hn hno
    · rw [Function.update_of_ne hi, hmaps]
      exact h.once i
  · intro o ho
    rw [hlive'] at ho
    by_cases hoo : o = obj
    · rw [hoo, hcode, Function.update_self]
      exact ⟨hash, List.mem_cons_self, by rw [hobj]⟩
    · rw [Function.update_of_ne hoo] at ho
      obtain ⟨n, hn, hno⟩ := h.all o ho
      rw [hcodes o hoo]
      refine ⟨n, ?_, by rw [hsame _ n hn, hno]⟩
      by_cases hi : HASH (s.code o) = HASH code
      · rw [hi, Function.update_self]
        rw [hi] at hn
        exact List.mem_cons_of_mem hash hn
      · rwa [Function.update_of_ne hi]

/-- The node of a live object, and those before and behind it in its list. -/
theorem Index.split (h : Index s chains) (ho : s.live o = true) :
    ∃ l1 n l2, chains (HASH (s.code o)) = l1 ++ n :: l2 ∧ (s.hashes n).ha_obj = o ∧
      ∀ m ∈ l1 ++ l2, (s.hashes m).ha_obj ≠ o := by
  obtain ⟨n, hn, hno⟩ := h.all o ho
  obtain ⟨l1, l2, hl⟩ := List.append_of_mem hn
  refine ⟨l1, n, l2, hl, hno, ?_⟩
  have honce := h.once (HASH (s.code o))
  rw [hl, List.map_append, List.map_cons, hno] at honce
  have hnot := (List.nodup_middle.mp honce)
  rw [List.nodup_cons, ← List.map_append] at hnot
  intro m hm hmo
  exact hnot.1 (List.mem_map.mpr ⟨m, hm, hmo⟩)

theorem findObj_of_index (h : Index s chains) (hcount : Counted s) (hl : chains (HASH (s.code o)) =
    l1 ++ n :: l2) (hno : (s.hashes n).ha_obj = o)
    (hother : ∀ m ∈ l1 ++ l2, (s.hashes m).ha_obj ≠ o) :
    unenterObj s o = .ok (forget (dropHash s (HASH (s.code o)) (lastOf none l1) n) o) := by
  have hlen := h.length_lt hcount (HASH (s.code o))
  have hpath := h.path (HASH (s.code o))
  rw [hl] at hlen hpath
  rw [List.length_append, List.length_cons] at hlen
  have hfind := findObj_spec hpath rfl hno
    (fun m hm => hother m (List.mem_append_left _ hm)) (by omega : l1.length + 1 < s.fuel)
  unfold unenterObj
  change (findObj s o s.fuel none (s.Hashtab _)).bind _ = _
  change findObj s o s.fuel none (s.Hashtab _) = _ at hfind
  rw [hfind]
  rfl

/-- Dropping a node changes the link to it, and nothing else in the lists. -/
theorem dropHash_links (s : State) (i : Nat) (prev : Option Ptr) (n : Ptr) :
    (∀ m, ((dropHash s i prev n).hashes m).ha_obj = (s.hashes m).ha_obj) ∧
      chainLink (dropHash s i prev n) i prev = (s.hashes n).ha_next ∧
      (∀ j x, x ≠ prev → chainLink (dropHash s i prev n) j x = chainLink s j x) ∧
      (∀ j, j ≠ i → chainLink (dropHash s i prev n) j none = chainLink s j none) ∧
      ∀ m, m ≠ n → (dropHash s i prev n).used m = s.used m := by
  cases prev with
  | none =>
    refine ⟨fun _ => rfl, Function.update_self .., ?_, ?_, fun _ _ => rfl⟩
    · intro j x hx
      cases x with
      | none => exact absurd rfl hx
      | some m => rfl
    · intro j hj
      exact Function.update_of_ne hj ..
  | some p =>
    refine ⟨?_, ?_, ?_, fun _ _ => rfl, ?_⟩
    · intro m
      change (Function.update s.hashes p _ m).ha_obj = _
      by_cases hm : m = p
      · rw [hm, Function.update_self]
      · rw [Function.update_of_ne hm]
    · change (Function.update s.hashes p _ p).ha_next = _
      rw [Function.update_self]
    · intro j x hx
      cases x with
      | none => rfl
      | some m =>
        change (Function.update s.hashes p _ m).ha_next = _
        rw [Function.update_of_ne fun hc => hx (congrArg some hc)]
        rfl
    · intro m hm
      exact Function.update_of_ne hm ..

/-- The node of an object that dies is taken out of its list. -/
theorem Index.leave (h : Index s chains) (hl : chains (HASH (s.code o)) = l1 ++ n :: l2)
    (hno : (s.hashes n).ha_obj = o) (hother : ∀ m ∈ l1 ++ l2, (s.hashes m).ha_obj ≠ o)
    (hHashtab : s'.Hashtab = (dropHash s (HASH (s.code o)) (lastOf none l1) n).Hashtab)
    (hhashes : s'.hashes = (dropHash s (HASH (s.code o)) (lastOf none l1) n).hashes)
    (hused : s'.used = (dropHash s (HASH (s.code o)) (lastOf none l1) n).used)
    (hlive' : s'.live = Function.update s.live o false) (hcodes : ∀ x, s'.code x = s.code x) :
    Index s' (Function.update chains (HASH (s.code o)) (l1 ++ l2)) := by
  set i := HASH (s.code o)
  obtain ⟨hobjs, hlast, hsame, hheads, hkept⟩ := dropHash_links s i (lastOf none l1) n
  have hlink : ∀ j, chainLink s' j = chainLink (dropHash s i (lastOf none l1) n) j := by
    intro j
    funext x
    unfold chainLink
    rw [hHashtab, hhashes]
  have hobj : ∀ m, (s'.hashes m).ha_obj = (s.hashes m).ha_obj := by
    intro m
    rw [hhashes]
    exact hobjs m
  have hnodup : (l1 ++ n :: l2).Nodup := hl ▸ h.nodup i
  have hnnot : n ∉ l1 ++ l2 := (List.nodup_cons.mp (List.nodup_middle.mp hnodup)).1
  -- The lists are as before, but for the node
  have hchain : ∀ j, ∀ m ∈ Function.update chains i (l1 ++ l2) j,
      m ∈ chains j ∧ m ≠ n ∧ (s.hashes m).ha_obj ≠ o := by
    intro j m hm
    by_cases hj : j = i
    · subst hj
      rw [Function.update_self] at hm
      refine ⟨?_, fun hc => hnnot (hc ▸ hm), hother m hm⟩
      rw [hl]
      rcases List.mem_append.mp hm with hm | hm
      · exact List.mem_append_left _ hm
      · exact List.mem_append_right _ (List.mem_cons_of_mem n hm)
    · rw [Function.update_of_ne hj] at hm
      have hn : n ∈ chains i := by
        rw [hl]
        simp
      refine ⟨hm, ?_, ?_⟩
      · rintro rfl
        exact hj (h.disjoint hm hn)
      · intro hmo
        have := (h.entry j m hm).2
        rw [hmo] at this
        exact hj this.symm
  refine ⟨?_, ?_, ?_, ?_, ?_, ?_⟩
  · intro j
    rw [hlink]
    by_cases hj : j = i
    · subst hj
      rw [Function.update_self]
      have hpath := h.path i
      rw [hl] at hpath
      exact path_remove hpath hnodup hlast (hsame i)
    · rw [Function.update_of_ne hj]
      refine (h.path j).congr ?_
      intro x hx
      by_cases hxl : x = lastOf none l1
      · -- The last node in front of the one that goes is not in another list
        cases hlast1 : lastOf none l1 with
        | none =>
          rw [hxl, hlast1]
          rw [hlast1] at hheads
          exact hheads j hj
        | some p =>
          exfalso
          have hp : p ∈ l1 := by
            have hmem := lastOf_mem none l1
            rw [hlast1] at hmem
            simpa using hmem
          have hpi : p ∈ chains i := by
            rw [hl]
            exact List.mem_append_left _ hp
          have hpj : p ∈ chains j := by
            rw [hxl, hlast1] at hx
            simpa using hx
          exact hj (h.disjoint hpj hpi)
      · exact hsame j x hxl
  · intro j
    by_cases hj : j = i
    · subst hj
      rw [Function.update_self]
      exact (List.nodup_cons.mp (List.nodup_middle.mp hnodup)).2
    · rw [Function.update_of_ne hj]
      exact h.nodup j
  · intro j m hm
    obtain ⟨hmj, hmn, -⟩ := hchain j m hm
    rw [hused, hkept m hmn]
    exact h.used j m hmj
  · intro j m hm
    obtain ⟨hmj, -, hmo⟩ := hchain j m hm
    rw [hobj, hlive', Function.update_of_ne hmo, hcodes]
    exact h.entry j m hmj
  · intro j
    have hold := h.once j
    have hmap : ∀ k : List Ptr, k.map (fun m => (s'.hashes m).ha_obj) =
        k.map fun m => (s.hashes m).ha_obj :=
      fun k => List.map_congr_left fun m _ => hobj m
    rw [hmap]
    by_cases hj : j = i
    · subst hj
      rw [Function.update_self]
      rw [hl] at hold
      refine List.Nodup.sublist (List.Sublist.map _ ?_) hold
      exact List.Sublist.append_left (List.sublist_cons_self n l2) l1
    · rw [Function.update_of_ne hj]
      exact hold
  · intro x hx
    rw [hlive'] at hx
    have hxo : x ≠ o := by
      rintro rfl
      rw [Function.update_self] at hx
      exact Bool.noConfusion hx
    rw [Function.update_of_ne hxo] at hx
    obtain ⟨m, hm, hmx⟩ := h.all x hx
    rw [hcodes]
    refine ⟨m, ?_, (hobj m).trans hmx⟩
    by_cases hj : HASH (s.code x) = i
    · rw [hj, Function.update_self]
      rw [hj, hl] at hm
      have hmn : m ≠ n := by
        rintro rfl
        exact hxo (hmx.symm.trans hno)
      rcases List.mem_append.mp hm with hm | hm
      · exact List.mem_append_left _ hm
      · exact List.mem_append_right _ ((List.mem_cons.mp hm).resolve_left hmn)
    · rwa [Function.update_of_ne hj]

end ups_rules.obj_tree
