-- The values of one key: inline, or in a list of value nodes, with the free list that all keys
-- share.
import Ups.HashTab

open node_arena

namespace ups_rules.hash_tab

/-- The value nodes of the keys, and those of the free list. -/
structure Values (vls : Nodes Vlist) (lists : Option Nat → List Nat) : Prop where
  arena : Arena (vlNext vls) vls.count lists
  free : vls.freelist = (lists none).head?

/-- The values of some nodes. -/
def valuesOf (vls : Nodes Vlist) (xs : List Nat) : List Ptr :=
  xs.map fun x => (vls.node x).vl_value

/-- The key node has the values, the newest first; two or more are in the nodes `xs`. -/
def Holds (vls : Nodes Vlist) (xs : List Nat) (ha : Hash) (vals : List Ptr) : Prop :=
  ha.ha_nvalues = vals.length ∧
    match vals with
    | [] => ha.ha_u = none ∧ xs = []
    | [v] => ha.ha_u = v ∧ xs = []
    | _ => ha.ha_u = xs.head? ∧ valuesOf vls xs = vals

/-- What a change to the values of key node `a` leaves alone. -/
structure Kept (a : Nat) (vls vls' : Nodes Vlist) (lists lists' : Option Nat → List Nat) :
    Prop where
  same_lists : ∀ b ≠ a, lists' (some b) = lists (some b)
  same_values : ∀ b ≠ a, ∀ x ∈ lists (some b), (vls'.node x).vl_value = (vls.node x).vl_value

variable {vls vls' vls2 : Nodes Vlist} {lists lists' lists2 : Option Nat → List Nat} {a b x : Nat}
  {ha ha' : Hash} {vals : List Ptr} {value : Ptr} {xs xs' : List Nat}

theorem Kept.trans (h : Kept a vls vls' lists lists') (h2 : Kept a vls' vls2 lists' lists2) :
    Kept a vls vls2 lists lists2 := by
  refine ⟨fun b hb => (h2.same_lists b hb).trans (h.same_lists b hb), ?_⟩
  intro b hb x hx
  rw [h2.same_values b hb x (by rw [h.same_lists b hb]; exact hx), h.same_values b hb x hx]

theorem Kept.refl (a : Nat) (vls : Nodes Vlist) (lists : Option Nat → List Nat) :
    Kept a vls vls lists lists :=
  ⟨fun _ _ => rfl, fun _ _ _ _ => rfl⟩

theorem valuesOf_congr (h : ∀ x ∈ xs, (vls'.node x).vl_value = (vls.node x).vl_value) :
    valuesOf vls' xs = valuesOf vls xs :=
  List.map_congr_left h

theorem valuesOf_length (vls : Nodes Vlist) (xs : List Nat) :
    (valuesOf vls xs).length = xs.length :=
  List.length_map _

theorem Holds.congr (h : Holds vls xs ha vals) (hsame : valuesOf vls' xs = valuesOf vls xs) :
    Holds vls' xs ha vals := by
  unfold Holds at h ⊢
  rwa [hsame]

/-- Another key's values are kept. -/
theorem Kept.holds (h : Kept a vls vls' lists lists') (hb : b ≠ a)
    (hholds : Holds vls (lists (some b)) ha vals) : Holds vls' (lists' (some b)) ha vals := by
  rw [h.same_lists b hb]
  exact hholds.congr (valuesOf_congr (h.same_values b hb))

theorem holds_many (h : 2 ≤ vals.length) : Holds vls xs ha vals ↔
    ha.ha_nvalues = vals.length ∧ ha.ha_u = xs.head? ∧ valuesOf vls xs = vals := by
  match vals, h with
  | _ :: _ :: _, _ => exact Iff.rfl

/-! ## The nodes of the free list -/

theorem vlNext_setVlNext (vls : Nodes Vlist) (vl : Nat) (next : Ptr) :
    vlNext (setVlNext vls vl next) = Function.update (vlNext vls) vl next := by
  funext y
  by_cases hy : y = vl
  · subst hy
    simp [vlNext, setVlNext]
  · simp [vlNext, setVlNext, Function.update_of_ne hy]

theorem setVlNext_value (vls : Nodes Vlist) (vl : Nat) (next : Ptr) (y : Nat) :
    ((setVlNext vls vl next).node y).vl_value = (vls.node y).vl_value := by
  by_cases hy : y = vl
  · subst hy
    simp [setVlNext]
  · simp [setVlNext, Function.update_of_ne hy]

/-- The node is nowhere, and the lists other than the free list are as they were. -/
theorem newNode_spec {β ι : Type} [DecidableEq ι] (next : β → Ptr) (nodes : Nodes β)
    {lists : Option ι → List Nat} (harena : Arena (fun a => next (nodes.node a)) nodes.count lists)
    (hfree : nodes.freelist = (lists none).head?) :
    ∃ lists', Arena (fun a => next ((newNode next nodes).1.node a)) (newNode next nodes).1.count
        lists' ∧
      (newNode next nodes).1.freelist = (lists' none).head? ∧
      (∀ i, (newNode next nodes).2 ∉ lists' i) ∧
      (newNode next nodes).2 < (newNode next nodes).1.count ∧
      (∀ i, lists' (some i) = lists (some i)) ∧ (newNode next nodes).1.node = nodes.node := by
  cases hf : nodes.freelist with
  | none =>
    have hnew : newNode next nodes = ({ nodes with count := nodes.count + 1 }, nodes.count) := by
      rw [newNode, hf]
    rw [hnew]
    refine ⟨lists, harena.grow (Nat.le_succ _), hfree, ?_, Nat.lt_succ_self _, fun _ => rfl, rfl⟩
    intro i hi
    exact Nat.lt_irrefl _ (harena.bound i _ hi)
  | some a =>
    have hnew : newNode next nodes = ({ nodes with freelist := next (nodes.node a) }, a) := by
      rw [newNode, hf]
    obtain ⟨rest, hrest⟩ : ∃ rest, lists none = [] ++ a :: rest :=
      List.head?_eq_some_iff.mp (hfree.symm.trans hf)
    have hlinked := harena.linked none
    rw [hrest, List.nil_append, linked_cons] at hlinked
    obtain ⟨htake, hnowhere⟩ := harena.take hrest
    rw [hnew]
    refine ⟨_, htake, ?_, hnowhere, ?_, ?_, rfl⟩
    · rw [Function.update_self]
      exact hlinked.1
    · apply harena.bound none
      rw [hrest]
      exact List.mem_cons_self
    · intro i
      exact Function.update_of_ne (Option.some_ne_none i) ..

theorem freeVlist_spec (h : Values vls lists) (hx : ∀ i, x ∉ lists i) (hn : x < vls.count) :
    Values (freeVlist vls x) (Function.update lists none (x :: lists none)) := by
  refine ⟨?_, ?_⟩
  · have hput := h.arena.put hx hn none
    have hnext : vlNext (freeVlist vls x) =
        Function.update (vlNext vls) x (lists none).head? := by
      rw [← h.free]
      exact vlNext_setVlNext vls x vls.freelist
    rw [hnext]
    exact hput
  · rw [Function.update_self]
    rfl

theorem freeVlist_value (vls : Nodes Vlist) (vl y : Nat) :
    ((freeVlist vls vl).node y).vl_value = (vls.node y).vl_value :=
  setVlNext_value vls vl vls.freelist y

/-! ## The operations on the values of a key -/

theorem pushVlist_node (vls : Nodes Vlist) (ha : Hash) (value : Ptr) :
    (pushVlist vls ha value).1.node =
      Function.update (newVlist vls).1.node (newVlist vls).2 ⟨value, ha.ha_u⟩ := rfl

theorem pushVlist_spec (a : Nat) (ha : Hash) (value : Ptr) (h : Values vls lists) (hu : ha.ha_u = (lists (some a)).head?) :
    ∃ lists', Values (pushVlist vls ha value).1 lists' ∧
      Kept a vls (pushVlist vls ha value).1 lists lists' ∧
      (pushVlist vls ha value).2 = { ha with ha_u := (lists' (some a)).head? } ∧
      valuesOf (pushVlist vls ha value).1 (lists' (some a)) =
        value :: valuesOf vls (lists (some a)) := by
  obtain ⟨lists1, harena, hfree, hnowhere, hn, hkeys, hnode⟩ :=
    newNode_spec Vlist.vl_next vls h.arena h.free
  rw [← newVlist] at hfree hnowhere hn hnode
  have hput := harena.put hnowhere hn (some a)
  set vl := (newVlist vls).2 with hvl
  have hvalue : ∀ y, y ≠ vl →
      ((pushVlist vls ha value).1.node y).vl_value = (vls.node y).vl_value := by
    intro y hy
    rw [pushVlist_node, Function.update_of_ne hy, hnode]
  have hnext : vlNext (pushVlist vls ha value).1 =
      Function.update (vlNext (newVlist vls).1) vl (lists1 (some a)).head? := by
    rw [hkeys, ← hu]
    funext y
    by_cases hy : y = vl
    · rw [hy, Function.update_self, vlNext, pushVlist_node, ← hvl, Function.update_self]
    · rw [Function.update_of_ne hy, vlNext, pushVlist_node, Function.update_of_ne hy]
      rfl
  refine ⟨Function.update lists1 (some a) (vl :: lists1 (some a)),
    ⟨?_, ?_⟩, ⟨?_, ?_⟩, ?_, ?_⟩
  · rw [hnext]
    exact hput
  · rw [Function.update_of_ne (Option.some_ne_none a).symm]
    exact hfree
  · intro b hb
    rw [Function.update_of_ne fun hc => hb (Option.some.inj hc)]
    exact hkeys b
  · intro b hb y hy
    apply hvalue
    rintro rfl
    rw [← hkeys] at hy
    exact hnowhere _ hy
  · rw [Function.update_self]
    rfl
  · rw [Function.update_self, hkeys]
    refine congrArg₂ List.cons ?_ ?_
    · dsimp only
      rw [pushVlist_node, ← hvl, Function.update_self]
    · apply valuesOf_congr
      intro y hy
      apply hvalue
      rintro rfl
      rw [← hkeys] at hy
      exact hnowhere _ hy

theorem addValue_spec (value : Ptr) (h : Values vls lists) (hholds : Holds vls (lists (some a)) ha vals) :
    ∃ lists' u, Values (addValue vls ha value).1 lists' ∧
      Kept a vls (addValue vls ha value).1 lists lists' ∧
      (addValue vls ha value).2 = { ha with ha_u := u, ha_nvalues := vals.length + 1 } ∧
      Holds (addValue vls ha value).1 (lists' (some a)) (addValue vls ha value).2
        (value :: vals) := by
  match vals, hholds with
  | [], ⟨hn, hu, hxs⟩ =>
    have hadd : addValue vls ha value = (vls, { ha with ha_u := value, ha_nvalues := 1 }) := by
      simp [addValue, hn]
    rw [hadd]
    exact ⟨lists, value, h, Kept.refl a vls lists, rfl, rfl, rfl, hxs⟩
  | [v], ⟨hn, hu, hxs⟩ =>
    have hadd : addValue vls ha value =
        let r := pushVlist vls { ha with ha_u := none } v
        let r := pushVlist r.1 r.2 value
        (r.1, { r.2 with ha_nvalues := r.2.ha_nvalues + 1 }) := by
      simp [addValue, hn, hu]
    obtain ⟨lists1, h1, hkept1, hha1, hval1⟩ :=
      pushVlist_spec a { ha with ha_u := none } v h (by rw [hxs]; rfl)
    obtain ⟨lists2, h2, hkept2, hha2, hval2⟩ :=
      pushVlist_spec a { ha with ha_u := (lists1 (some a)).head? } value h1 rfl
    rw [hadd]
    dsimp only
    rw [hha1]
    refine ⟨lists2, (lists2 (some a)).head?, h2, hkept1.trans hkept2, ?_, ?_, ?_, ?_⟩
    · rw [hha2, hn]
    · rw [hha2, hn]
      rfl
    · rw [hha2]
    · rw [hval2, hval1, hxs]
      rfl
  | v :: w :: vals, ⟨hn, hu, hxs⟩ =>
    have hadd : addValue vls ha value =
        let r := pushVlist vls ha value
        (r.1, { r.2 with ha_nvalues := r.2.ha_nvalues + 1 }) := by
      simp [addValue, hn]
    obtain ⟨lists1, h1, hkept1, hha1, hval1⟩ := pushVlist_spec a ha value h hu
    rw [hadd]
    dsimp only
    refine ⟨lists1, (lists1 (some a)).head?, h1, hkept1, ?_, ?_, ?_, ?_⟩
    · rw [hha1, hn]
    · rw [hha1, hn]
      rfl
    · rw [hha1]
    · rw [hval1, hxs]

/-- The value at `x` in the list of key node `a` goes to the free list. -/
def dropVlist (vls : Nodes Vlist) (prev : Ptr) (x : Nat) : Nodes Vlist :=
  freeVlist (match prev with
    | none => vls
    | some prev => setVlNext vls prev (vlNext vls x)) x

theorem dropVlist_spec (h : Values vls lists) {l1 l2 : List Nat}
    (hsplit : lists (some a) = l1 ++ x :: l2) :
    ∃ lists', Values (dropVlist vls l1.getLast? x) lists' ∧
      Kept a vls (dropVlist vls l1.getLast? x) lists lists' ∧ lists' (some a) = l1 ++ l2 ∧
      ∀ y, ((dropVlist vls l1.getLast? x).node y).vl_value = (vls.node y).vl_value := by
  obtain ⟨harena, hnowhere⟩ := h.arena.take hsplit
  have hx : x < vls.count := by
    apply h.arena.bound (some a)
    rw [hsplit]
    exact List.mem_append_right _ List.mem_cons_self
  have hnone : Function.update lists (some a) (l1 ++ l2) none = lists none :=
    Function.update_of_ne (Option.some_ne_none a).symm ..
  -- the nodes before `x` is freed
  have hmid : ∃ mid, dropVlist vls l1.getLast? x = freeVlist mid x ∧
      Values mid (Function.update lists (some a) (l1 ++ l2)) ∧ mid.count = vls.count ∧
      ∀ y, (mid.node y).vl_value = (vls.node y).vl_value := by
    cases hlast : l1.getLast? with
    | none =>
      rw [hlast] at harena
      exact ⟨vls, rfl, ⟨harena, hnone ▸ h.free⟩, rfl, fun _ => rfl⟩
    | some prev =>
      rw [hlast] at harena
      refine ⟨setVlNext vls prev (vlNext vls x), rfl, ⟨?_, hnone ▸ h.free⟩, rfl, ?_⟩
      · rw [vlNext_setVlNext]
        exact harena
      · exact setVlNext_value vls prev (vlNext vls x)
  obtain ⟨mid, hdrop, hvalues, hcount, hvalue⟩ := hmid
  have hsame : ∀ y, ((dropVlist vls l1.getLast? x).node y).vl_value =
      (vls.node y).vl_value := by
    intro y
    rw [hdrop, freeVlist_value, hvalue]
  refine ⟨_, hdrop ▸ freeVlist_spec hvalues hnowhere (hcount ▸ hx), ⟨?_, ?_⟩, ?_, hsame⟩
  · intro b hb
    rw [Function.update_of_ne (Option.some_ne_none b),
      Function.update_of_ne fun hc => hb (Option.some.inj hc)]
  · exact fun b _ y _ => hsame y
  · rw [Function.update_of_ne (Option.some_ne_none a), Function.update_self]

/-- A value that is among those of the nodes, and the first node that has it. -/
theorem valuesOf_split (hmem : value ∈ valuesOf vls xs) :
    ∃ l1 x l2, xs = l1 ++ x :: l2 ∧ (vls.node x).vl_value = value ∧
      (∀ y ∈ l1, (vls.node y).vl_value ≠ value) ∧
      valuesOf vls (l1 ++ l2) = (valuesOf vls xs).erase value := by
  obtain ⟨vs1, vs2, hvs, hnot⟩ := List.eq_append_cons_of_mem hmem
  obtain ⟨l1, rest, rfl, hl1, hrest⟩ := List.map_eq_append_iff.mp hvs
  obtain ⟨x, l2, rfl, hx, hl2⟩ := List.map_eq_cons_iff.mp hrest
  refine ⟨l1, x, l2, rfl, hx, ?_, ?_⟩
  · intro y hy hc
    apply hnot
    rw [← hl1, ← hc]
    exact List.mem_map_of_mem hy
  · rw [hvs, List.erase_append_right _ hnot, List.erase_cons_head, valuesOf, List.map_append,
      hl1, hl2]

theorem deleteValue_many {prev : Ptr} (hn : 2 ≤ ha.ha_nvalues)
    (hfound : search (vlNext vls) (fun vl => (vls.node vl).vl_value == value) (vls.count + 1)
      ha.ha_u none = some (some x, prev)) :
    deleteValue vls ha value =
      let u := if prev = none then vlNext vls x else ha.ha_u
      let vls := dropVlist vls prev x
      if ha.ha_nvalues = 2 then
        match u with
        | none => none
        | some last =>
          some (freeVlist vls last,
            { ha with ha_u := (vls.node last).vl_value, ha_nvalues := 1 })
      else some (vls, { ha with ha_u := u, ha_nvalues := ha.ha_nvalues - 1 }) := by
  have h0 : ha.ha_nvalues ≠ 0 := by omega
  have h1 : ha.ha_nvalues ≠ 1 := by omega
  rw [deleteValue, if_neg h0, if_neg h1, hfound]
  cases prev with
  | none => rfl
  | some prev => rfl

theorem deleteValue_spec (h : Values vls lists) (hholds : Holds vls (lists (some a)) ha vals)
    (hmem : value ∈ vals) :
    ∃ vls' lists' u, deleteValue vls ha value =
        some (vls', { ha with ha_u := u, ha_nvalues := vals.length - 1 }) ∧
      Values vls' lists' ∧ Kept a vls vls' lists lists' ∧
      Holds vls' (lists' (some a)) { ha with ha_u := u, ha_nvalues := vals.length - 1 }
        (vals.erase value) := by
  match vals, hholds with
  | [], _ => exact absurd hmem List.not_mem_nil
  | [v], ⟨hn, hu, hxs⟩ =>
    obtain rfl : value = v := List.mem_singleton.mp hmem
    refine ⟨vls, lists, none, ?_, h, Kept.refl a vls lists, ?_⟩
    · simp [deleteValue, hn, hu]
    · rw [List.erase_cons_head]
      exact ⟨rfl, rfl, hxs⟩
  | v :: w :: vals, ⟨hn, hu, hxs⟩ =>
    set vs := v :: w :: vals with hvs
    rw [← hxs] at hmem
    obtain ⟨l1, x, l2, hsplit, hx, hl1, herase⟩ := valuesOf_split hmem
    rw [hxs] at herase
    have hlinked := h.arena.linked (some a)
    have hle := h.arena.length_le (some a)
    have hlen2 : 2 ≤ ha.ha_nvalues := by
      rw [hn, hvs, List.length_cons, List.length_cons]
      omega
    rw [hsplit] at hlinked hle hu
    have hfound := search_found none hlinked
      (fun y hy => beq_eq_false_iff_ne.mpr (hl1 y hy)) (beq_iff_eq.mpr hx) (Nat.lt_succ_of_le hle)
    rw [← hu, Option.or_none] at hfound
    obtain ⟨lists1, h1, hkept1, hlist1, hvalue1⟩ := dropVlist_spec h hsplit
    have hvals1 : valuesOf (dropVlist vls l1.getLast? x) (lists1 (some a)) = vs.erase value := by
      rw [hlist1, ← herase]
      exact valuesOf_congr fun y _ => hvalue1 y
    have hlen1 : (vs.erase value).length = vs.length - 1 :=
      List.length_erase_of_mem (hxs ▸ hmem)
    have hhead : (if l1.getLast? = none then vlNext vls x else ha.ha_u) =
        (lists1 (some a)).head? := by
      rw [hlist1]
      cases l1 with
      | nil => exact (linked_cons.mp hlinked).1
      | cons y l1 => rw [if_neg (by simp), hu]; rfl
    rw [deleteValue_many hlen2 hfound]
    dsimp only
    rw [hhead]
    by_cases htwo : ha.ha_nvalues = 2
    · -- the value that is left goes into the key node
      have hone : vs.length = 2 := by omega
      obtain ⟨last, hlast⟩ : ∃ last, lists1 (some a) = [last] := by
        apply List.length_eq_one_iff.mp
        rw [← valuesOf_length (dropVlist vls l1.getLast? x), hvals1, hlen1, hone]
      obtain ⟨lists2, h2, hkept2, hlist2, -⟩ :=
        dropVlist_spec h1 (show lists1 (some a) = [] ++ last :: [] from hlast)
      refine ⟨freeVlist (dropVlist vls l1.getLast? x) last, lists2,
        ((dropVlist vls l1.getLast? x).node last).vl_value, ?_, h2, hkept1.trans hkept2, ?_⟩
      · rw [if_pos htwo, hlast, hone]
        rfl
      · rw [← hvals1, hlast, hone]
        exact ⟨rfl, rfl, hlist2⟩
    · rw [if_neg htwo]
      refine ⟨dropVlist vls l1.getLast? x, lists1, (lists1 (some a)).head?, ?_, h1, hkept1, ?_⟩
      · rw [hn]
      · rw [holds_many (by omega), hlen1]
        exact ⟨rfl, rfl, hvals1⟩

/-- All the nodes of the key go to the free list. -/
theorem deleteAllValues_spec (h : Values vls lists)
    (hholds : Holds vls (lists (some a)) ha vals) :
    ∃ vls' lists' u, deleteAllValues vls ha = some (vls', { ha with ha_u := u, ha_nvalues := 0 }) ∧
      Values vls' lists' ∧ Kept a vls vls' lists lists' ∧ lists' (some a) = [] := by
  match vals, hholds with
  | [], ⟨hn, hu, hxs⟩ =>
    exact ⟨vls, lists, ha.ha_u, by simp [deleteAllValues, hn], h, Kept.refl a vls lists, hxs⟩
  | [v], ⟨hn, hu, hxs⟩ =>
    exact ⟨vls, lists, ha.ha_u, by simp [deleteAllValues, hn], h, Kept.refl a vls lists, hxs⟩
  | v :: w :: vals, ⟨hn, hu, hxs⟩ =>
    have hmany : ha.ha_nvalues > 1 := by
      rw [hn, List.length_cons, List.length_cons]
      omega
    obtain ⟨last, hlast⟩ : ∃ last, (lists (some a)).getLast? = some last := by
      cases hx : lists (some a) with
      | nil =>
        rw [hx] at hxs
        cases hxs
      | cons x xs => exact ⟨_, List.getLast?_cons⟩

    have hmissed := search_missed (fun _ => false) none (h.arena.linked (some a))
      (fun _ _ => rfl) (Nat.lt_succ_of_le (h.arena.length_le (some a)))
    rw [← hu, hlast] at hmissed
    have hpour := h.arena.pour (Option.some_ne_none a) hlast
    refine ⟨{ setVlNext vls last vls.freelist with freelist := ha.ha_u },
      Function.update (Function.update lists (some a) []) none (lists (some a) ++ lists none),
      none, ?_, ⟨?_, ?_⟩, ⟨?_, ?_⟩, ?_⟩
    · rw [deleteAllValues, if_pos hmany, hmissed]
      rfl
    · rw [← h.free, ← vlNext_setVlNext] at hpour
      exact hpour
    · rw [Function.update_self, List.head?_append, hu]
      cases hx : lists (some a) with
      | nil =>
        rw [hx] at hlast
        cases hlast
      | cons x xs => rfl
    · intro b hb
      rw [Function.update_of_ne (Option.some_ne_none b),
        Function.update_of_ne fun hc => hb (Option.some.inj hc)]
    · exact fun b _ y _ => setVlNext_value vls last vls.freelist y
    · rw [Function.update_of_ne (Option.some_ne_none a), Function.update_self]

/-! ## Reading the values -/

theorem vlistValues_eq {fuel : Nat} (h : Linked (vlNext vls) xs) (hfuel : xs.length < fuel) :
    vlistValues vls fuel xs.head? = some (valuesOf vls xs) := by
  induction xs generalizing fuel with
  | nil =>
    cases fuel with
    | zero => exact absurd hfuel (Nat.not_lt_zero _)
    | succ fuel => rfl
  | cons x xs ih =>
    cases fuel with
    | zero => exact absurd hfuel (Nat.not_lt_zero _)
    | succ fuel =>
      rw [linked_cons] at h
      rw [List.head?_cons, vlistValues, h.1, ih h.2 (Nat.lt_of_succ_lt_succ hfuel)]
      rfl

theorem le_doubled (n : Nat) : ∀ fuel max, 0 < max → n ≤ max + fuel → n ≤ doubled n fuel max := by
  intro fuel
  induction fuel with
  | zero => exact fun max _ h => h
  | succ fuel ih =>
    intro max hmax h
    rw [doubled]
    split
    · exact ih _ (by omega) (by omega)
    · omega

theorem le_makeRoom (hv : Hashvalues) (n : Nat) : n ≤ (makeRoom hv n).hv__max_nvalues := by
  rw [makeRoom]
  split
  · exact le_doubled n n _ hv.pos (by omega)
  · omega

theorem writeValues_spec (hv : Hashvalues) (hroom : vals.length ≤ hv.hv__max_nvalues) :
    ∃ hv', writeValues hv vals.length vals = some hv' ∧ hv'.values = vals := by
  refine ⟨_, dif_pos hroom, ?_⟩
  exact List.take_left

theorem copyValues_spec (h : Values vls lists) (hholds : Holds vls (lists (some a)) ha vals)
    (hv : Hashvalues) : ∃ hv', copyValues vls ha hv = some hv' ∧ hv'.values = vals := by
  have hroom := le_makeRoom hv ha.ha_nvalues
  have hn : ha.ha_nvalues = vals.length := hholds.1
  have hlist : vals.length ≠ 1 →
      vlistValues vls (vls.count + 1) ha.ha_u = some vals := by
    intro hone
    match vals, hholds with
    | [], ⟨_, hu, _⟩ => rw [hu]; rfl
    | [v], _ => exact absurd rfl hone
    | v :: w :: vals, ⟨_, hu, hxs⟩ =>
      rw [hu, ← hxs]
      exact vlistValues_eq (h.arena.linked _) (Nat.lt_succ_of_le (h.arena.length_le _))
  rw [copyValues]
  by_cases hone : vals.length = 1
  · obtain ⟨v, rfl⟩ := List.length_eq_one_iff.mp hone
    have hu : ha.ha_u = v := hholds.2.1
    rw [if_pos (hn.trans hone), hu, hn]
    rw [hn] at hroom
    exact writeValues_spec _ hroom
  · rw [if_neg (hn ▸ hone), hlist hone, hn]
    rw [hn] at hroom
    exact writeValues_spec _ hroom

/-- What `hash_lookup` returns for a key that is there. -/
theorem firstValue_spec (hholds : Holds vls (lists (some a)) ha vals) :
    (if ha.ha_nvalues = 0 then some none
      else if ha.ha_nvalues = 1 then some ha.ha_u
      else
        match ha.ha_u with
        | none => none
        | some vl => some (vls.node vl).vl_value) = some vals.head?.join := by
  match vals, hholds with
  | [], ⟨hn, _⟩ =>
    have h0 : ha.ha_nvalues = 0 := hn
    rw [if_pos h0]
    rfl
  | [v], ⟨hn, hu, _⟩ =>
    have h1 : ha.ha_nvalues = 1 := hn
    rw [if_neg (by omega), if_pos h1, hu]
    rfl
  | v :: w :: vals, ⟨hn, hu, hxs⟩ =>
    rw [List.length_cons, List.length_cons] at hn
    rw [if_neg (by omega), if_neg (by omega), hu]
    cases hx : lists (some a) with
    | nil =>
      rw [hx] at hxs
      cases hxs
    | cons x xs =>
      rw [hx] at hxs
      exact congrArg some (List.cons.inj hxs).1

end ups_rules.hash_tab
