-- What linking an object into the tree and unlinking it does to the lists of children, and that
-- the flags in the tree do not matter for them.
import Ups.ObjIndex

open linked_path
open sibling_lists
open trees

namespace ups_rules.obj_tree

variable {s s' t : State} {o p obj : Ptr} {par nxt prv : Option Ptr} {kids : Ptr → List Ptr}
  {l l1 l2 : List Ptr} {fuel : Nat}

/-! ## The flags -/

/-- Other flags. -/
def State.withFlags (s : State) (f : Ptr → Bool) : State :=
  { s with objs := fun o => { s.objs o with update_lptrs := f o } }

/-- A state that only differs in the flags. -/
def Flagged (s s' : State) : Prop := ∃ f, s' = s.withFlags f

theorem Flagged.refl (s : State) : Flagged s s := ⟨fun o => (s.objs o).update_lptrs, rfl⟩

theorem Flagged.trans (h : Flagged s s') (h' : Flagged s' t) : Flagged s t := by
  obtain ⟨f, rfl⟩ := h
  obtain ⟨g, rfl⟩ := h'
  exact ⟨g, rfl⟩

theorem flagged_flag (s : State) (o : Ptr) : Flagged s (flag s o) := by
  refine ⟨Function.update (fun o => (s.objs o).update_lptrs) o true, ?_⟩
  unfold flag State.set State.withFlags
  congr 1
  funext x
  by_cases hx : x = o
  · rw [hx, Function.update_self, Function.update_self]
  · rw [Function.update_of_ne hx, Function.update_of_ne hx]

theorem flagged_foldl (s : State) (l : List Ptr) : Flagged s (l.foldl flag s) := by
  induction l generalizing s with
  | nil => exact Flagged.refl s
  | cons o l ih => exact (flagged_flag s o).trans (ih (flag s o))

theorem upwards_some (s : State) (fuel : Nat) (o : Ptr) : upwards s (fuel + 1) (some o) =
    (upwards s fuel (s.parent o)).bind fun l => .ok (o :: l) := rfl

theorem upwards_spec (h : IsTree.Chain s.parent o l) (hfuel : l.length < fuel) :
    upwards s fuel (some o) = .ok l := by
  induction h generalizing fuel with
  | @root o hp =>
    obtain ⟨fuel, rfl⟩ := Nat.exists_eq_add_of_lt hfuel
    rw [upwards_some, hp, List.length_singleton, Nat.add_comm]
    rfl
  | @step o p l hp _ ih =>
    obtain ⟨fuel, rfl⟩ := Nat.exists_eq_add_of_lt hfuel
    rw [List.length_cons] at hfuel ⊢
    rw [upwards_some, hp, ih (by omega)]
    rfl

/-- The children of every live object are linked. -/
def Lists (s : State) (kids : Ptr → List Ptr) : Prop :=
  ∀ p, s.live p = true → Linked s.next s.prev none (s.child p) (kids p) none

abbrev Tree (s : State) (kids : Ptr → List Ptr) : Prop :=
  IsTree Rootobj (fun o => s.live o = true) s.parent kids

/-- The way up from an object ends. -/
def Bounded (s : State) (o : Ptr) : Prop :=
  ∃ l, IsTree.Chain s.parent o l ∧ l.length < s.fuel

theorem Bounded.upwards (h : Bounded s o) :
    ∃ l, IsTree.Chain s.parent o l ∧ upwards s s.fuel (some o) = .ok l := by
  obtain ⟨l, hl, hlen⟩ := h
  exact ⟨l, hl, upwards_spec hl hlen⟩

theorem bounded_of_tree (h : Tree s kids) (hcount : Counted s) (ho : s.live o = true) :
    Bounded s o := by
  obtain ⟨nodes, hnodes, hlen⟩ := hcount
  obtain ⟨l, hl, hle, -⟩ := h.chain_bounded hnodes ho
  refine ⟨l, hl, ?_⟩
  unfold State.fuel
  omega

/-- Setting the flags upwards comes back. -/
theorem setUpdateLptrs_spec (par : Option Ptr) (h : ∀ o, par = some o → Bounded s o) :
    ∃ s', setUpdateLptrs s par false = .ok s' ∧ Flagged s s' := by
  cases par with
  | none => exact ⟨_, rfl, Flagged.refl s⟩
  | some o =>
    obtain ⟨l, -, hup⟩ := (h o rfl).upwards
    refine ⟨_, ?_, flagged_foldl s (l.takeWhile fun o => !(s.objs o).update_lptrs)⟩
    unfold setUpdateLptrs
    rw [hup]
    rfl

theorem setDescUpdateLptrs_some (s : State) (fuel : Nat) (obj : Ptr) :
    setDescUpdateLptrs (fuel + 1) s (some obj) =
      (if s.child obj = none then .ok s else setDescUpdateLptrs fuel s (s.child obj)).bind fun s =>
        setDescUpdateLptrs fuel (flag s obj) (s.next obj) := by
  rw [setDescUpdateLptrs]
  split <;> rfl

theorem setDescUpdateLptrs_spec {n : Nat} {q f : Option Ptr} (h : IsTree.Turns kids n l)
    (hn : n ≤ fuel) (hlists : Lists s kids)
    (hmem : ∀ p, s.live p = true → ∀ o ∈ kids p, s.live o = true)
    (hl : Linked s.next s.prev q f l none) (hlive : ∀ o ∈ l, s.live o = true) :
    ∃ s', setDescUpdateLptrs fuel s f = .ok s' ∧ Flagged s s' := by
  induction h generalizing s fuel q f with
  | nil =>
    obtain ⟨fuel, rfl⟩ := Nat.exists_eq_add_of_le' hn
    rw [← Nat.add_assoc]
    obtain rfl : f = none := hl
    exact ⟨s, rfl, Flagged.refl s⟩
  | @cons n c l _ _ ih1 ih2 =>
    obtain ⟨fuel, rfl⟩ := Nat.exists_eq_add_of_le' hn
    rw [← Nat.add_assoc]
    obtain ⟨rfl, hprev, hrest⟩ := hl
    rw [List.forall_mem_cons] at hlive
    -- What is below the object
    have hbelow : ∃ s1, (if s.child c = none then .ok s
        else setDescUpdateLptrs (fuel + n) s (s.child c)) = .ok s1 ∧ Flagged s s1 := by
      by_cases hnone : s.child c = none
      · rw [if_pos hnone]
        exact ⟨s, rfl, Flagged.refl s⟩
      · rw [if_neg hnone]
        exact ih1 (by omega) hlists hmem (hlists c hlive.1) (hmem c hlive.1)
    obtain ⟨s1, hs1, f1, rfl⟩ := hbelow
    obtain ⟨f2, hf2⟩ := flagged_flag (s.withFlags f1) c
    obtain ⟨s3, hs3, hflag3⟩ : ∃ s', setDescUpdateLptrs (fuel + n) (flag (s.withFlags f1) c)
        (s.next c) = .ok s' ∧ Flagged (flag (s.withFlags f1) c) s' := by
      rw [hf2]
      exact ih2 (q := some c) (by omega) hlists hmem hrest hlive.2
    refine ⟨s3, ?_, (Flagged.trans ⟨f1, rfl⟩ (flagged_flag _ c)).trans hflag3⟩
    rw [setDescUpdateLptrs_some, hs1]
    exact hs3

/-! ## Linking and unlinking -/

/-- The tables of the codes, and the members of the objects that are neither links nor flags. -/
structure SameRest (s s' : State) : Prop where
  live : s'.live = s.live
  Hashtab : s'.Hashtab = s.Hashtab
  hashes : s'.hashes = s.hashes
  used : s'.used = s.used
  made : s'.made = s.made
  Likely1 : s'.Likely1 = s.Likely1
  Likely2 : s'.Likely2 = s.Likely2
  code : ∀ o, s'.code o = s.code o
  type : ∀ o, (s'.objs o).ob_type = (s.objs o).ob_type
  od_flags : ∀ o, (s'.objs o).od_flags = (s.objs o).od_flags
  no_indent : ∀ o, (s'.objs o).no_indent = (s.objs o).no_indent

theorem SameRest.refl (s : State) : SameRest s s :=
  ⟨rfl, rfl, rfl, rfl, rfl, rfl, rfl, fun _ => rfl, fun _ => rfl, fun _ => rfl, fun _ => rfl⟩

theorem SameRest.trans (h : SameRest s s') (h' : SameRest s' t) : SameRest s t where
  live := h'.live.trans h.live
  Hashtab := h'.Hashtab.trans h.Hashtab
  hashes := h'.hashes.trans h.hashes
  used := h'.used.trans h.used
  made := h'.made.trans h.made
  Likely1 := h'.Likely1.trans h.Likely1
  Likely2 := h'.Likely2.trans h.Likely2
  code := fun o => (h'.code o).trans (h.code o)
  type := fun o => (h'.type o).trans (h.type o)
  od_flags := fun o => (h'.od_flags o).trans (h.od_flags o)
  no_indent := fun o => (h'.no_indent o).trans (h.no_indent o)

theorem Flagged.sameRest (h : Flagged s s') : SameRest s s' := by
  obtain ⟨f, rfl⟩ := h
  exact ⟨rfl, rfl, rfl, rfl, rfl, rfl, rfl, fun _ => rfl, fun _ => rfl, fun _ => rfl, fun _ => rfl⟩

/-- Only links of an object are set. -/
theorem SameRest.set {f : Obj → Obj} (h : SameRest s t)
    (hcode : (f (t.objs o)).ob_code = (t.objs o).ob_code)
    (htype : (f (t.objs o)).ob_type = (t.objs o).ob_type)
    (hflags : (f (t.objs o)).od_flags = (t.objs o).od_flags)
    (hindent : (f (t.objs o)).no_indent = (t.objs o).no_indent) : SameRest s (t.set o f) := by
  have hsame : ∀ {β : Type} (g : Obj → β), g (f (t.objs o)) = g (t.objs o) →
      ∀ x, g ((t.set o f).objs x) = g (t.objs x) := by
    intro β g hg x
    change g (Function.update t.objs o _ x) = _
    by_cases hx : x = o
    · rw [hx, Function.update_self, hg]
    · rw [Function.update_of_ne hx]
  exact h.trans ⟨rfl, rfl, rfl, rfl, rfl, rfl, rfl, hsame (·.ob_code) hcode,
    hsame (·.ob_type) htype, hsame (·.od_flags) hflags, hsame (·.no_indent) hindent⟩

/-- The links once an object has been linked in. -/
def linkedIn (s : State) (obj : Ptr) (par next prev : Option Ptr) : State :=
  let s := s.set obj fun o => { o with ob_parent := par, ob_next := next, ob_prev := prev }
  let s := match next with
    | some next => s.set next fun o => { o with ob_prev := some obj }
    | none => s
  match prev, par with
  | some prev, _ => s.set prev fun o => { o with ob_next := some obj }
  | none, some par => s.set par fun o => { o with ob_child := some obj }
  | none, none => s

/-- The link to an object leads to the one behind it. -/
def skipped (s : State) (obj : Ptr) : State :=
  match s.prev obj, s.parent obj with
  | some prev, _ => s.set prev fun o => { o with ob_next := s.next obj }
  | none, some par => s.set par fun o => { o with ob_child := s.next obj }
  | none, none => s

/-- The links once an object has been unlinked. -/
def linkedOut (s : State) (obj : Ptr) : State :=
  let s := skipped s obj
  match s.next obj with
  | some next => s.set next fun o => { o with ob_prev := s.prev obj }
  | none => s

theorem linkObject_eq (s : State) (obj p : Ptr) (nxt prv : Option Ptr) :
    linkObject s obj (some p) nxt prv =
      setUpdateLptrs (linkedIn s obj (some p) nxt prv) (some p) false := by
  unfold linkObject linkedIn
  cases nxt <;> cases prv <;> rfl

theorem linkedIn_parent (s : State) (obj : Ptr) (par nxt prv : Option Ptr) :
    (linkedIn s obj par nxt prv).parent = Function.update s.parent obj par := by
  funext x
  unfold linkedIn State.parent State.set
  cases nxt <;> cases prv <;> cases par <;> simp only [Function.update_apply] <;> split_ifs <;>
    simp_all

theorem linkedIn_child (s : State) (obj : Ptr) (par nxt prv : Option Ptr) (x : Ptr) :
    (linkedIn s obj par nxt prv).child x =
      if prv = none ∧ par = some x then some obj else s.child x := by
  unfold linkedIn State.child State.set
  cases nxt <;> cases prv <;> cases par <;> simp only [Function.update_apply] <;> split_ifs <;>
    simp_all

theorem linkedIn_next (s : State) (par nxt : Option Ptr) (hprv : prv ≠ some obj) (x : Ptr) :
    (linkedIn s obj par nxt prv).next x =
      if some x = prv then some obj else if x = obj then nxt else s.next x := by
  unfold linkedIn State.next State.set
  cases nxt <;> cases prv <;> cases par <;> simp only [Function.update_apply] <;> split_ifs <;>
    simp_all

theorem linkedIn_prev (s : State) (par prv : Option Ptr) (hnxt : nxt ≠ some obj) (x : Ptr) :
    (linkedIn s obj par nxt prv).prev x =
      if some x = nxt then some obj else if x = obj then prv else s.prev x := by
  unfold linkedIn State.prev State.set
  cases nxt <;> cases prv <;> cases par <;> simp only [Function.update_apply] <;> split_ifs <;>
    simp_all

theorem linkedIn_same (s : State) (obj : Ptr) (par nxt prv : Option Ptr) :
    SameRest s (linkedIn s obj par nxt prv) := by
  have h1 : SameRest s (s.set obj fun o =>
      { o with ob_parent := par, ob_next := nxt, ob_prev := prv }) :=
    (SameRest.refl s).set rfl rfl rfl rfl
  unfold linkedIn
  cases nxt with
  | none =>
    cases prv with
    | some _ => exact h1.set rfl rfl rfl rfl
    | none =>
      cases par with
      | some _ => exact h1.set rfl rfl rfl rfl
      | none => exact h1
  | some n =>
    have h2 : SameRest s ((s.set obj fun o =>
        { o with ob_parent := par, ob_next := some n, ob_prev := prv }).set n fun o =>
          { o with ob_prev := some obj }) := h1.set rfl rfl rfl rfl
    cases prv with
    | some _ => exact h2.set rfl rfl rfl rfl
    | none =>
      cases par with
      | some _ => exact h2.set rfl rfl rfl rfl
      | none => exact h2

theorem unlinkObject_eq (hp : s.parent obj = some p) : unlinkObject s obj =
    setUpdateLptrs (linkedOut s obj) ((linkedOut s obj).parent obj) false := by
  unfold unlinkObject linkedOut skipped
  rw [hp]
  cases hprev : s.prev obj with
  | none => rfl
  | some q => rfl

theorem skipped_parent (s : State) (obj : Ptr) : (skipped s obj).parent = s.parent := by
  funext x
  unfold skipped
  cases s.prev obj <;> cases s.parent obj <;>
    simp only [State.parent, State.set, Function.update_apply] <;> split_ifs <;> simp_all

theorem skipped_child (s : State) (obj x : Ptr) : (skipped s obj).child x =
    if s.prev obj = none ∧ s.parent obj = some x then s.next obj else s.child x := by
  unfold skipped
  cases s.prev obj <;> cases s.parent obj <;>
    simp only [State.child, State.set, Function.update_apply] <;> split_ifs <;> simp_all

theorem skipped_next (s : State) (obj x : Ptr) : (skipped s obj).next x =
    if some x = s.prev obj then s.next obj else s.next x := by
  unfold skipped
  cases s.prev obj <;> cases s.parent obj <;>
    simp only [State.next, State.set, Function.update_apply] <;> split_ifs <;> simp_all

theorem skipped_prev (s : State) (obj x : Ptr) : (skipped s obj).prev x = s.prev x := by
  unfold skipped
  cases s.prev obj <;> cases s.parent obj <;>
    simp only [State.prev, State.set, Function.update_apply] <;> split_ifs <;> simp_all

theorem skipped_same (s : State) (obj : Ptr) : SameRest s (skipped s obj) := by
  unfold skipped
  split
  · exact (SameRest.refl s).set rfl rfl rfl rfl
  · exact (SameRest.refl s).set rfl rfl rfl rfl
  · exact SameRest.refl s

theorem linkedOut_eq (hprev : s.prev obj ≠ some obj) : linkedOut s obj =
    match s.next obj with
    | some next => (skipped s obj).set next fun o => { o with ob_prev := s.prev obj }
    | none => skipped s obj := by
  have hnext : (skipped s obj).next obj = s.next obj := by
    rw [skipped_next, if_neg fun hc => hprev hc.symm]
  unfold linkedOut
  dsimp only
  rw [hnext, skipped_prev]

theorem linkedOut_parent (hprev : s.prev obj ≠ some obj) :
    (linkedOut s obj).parent = s.parent := by
  rw [linkedOut_eq hprev, ← skipped_parent s obj]
  funext x
  cases s.next obj with
  | none => rfl
  | some n =>
    simp only [State.parent, State.set, Function.update_apply]
    split_ifs with hx
    · rw [hx]
    · rfl

theorem linkedOut_child (hprev : s.prev obj ≠ some obj) (x : Ptr) : (linkedOut s obj).child x =
    if s.prev obj = none ∧ s.parent obj = some x then s.next obj else s.child x := by
  rw [linkedOut_eq hprev, ← skipped_child]
  cases s.next obj with
  | none => rfl
  | some n =>
    simp only [State.child, State.set, Function.update_apply]
    split_ifs with hx
    · rw [hx]
    · rfl

theorem linkedOut_next (hprev : s.prev obj ≠ some obj) (x : Ptr) : (linkedOut s obj).next x =
    if some x = s.prev obj then s.next obj else s.next x := by
  rw [linkedOut_eq hprev, ← skipped_next]
  cases s.next obj with
  | none => rfl
  | some n =>
    simp only [State.next, State.set, Function.update_apply]
    split_ifs with hx
    · rw [hx]
    · rfl

theorem linkedOut_prev (hprev : s.prev obj ≠ some obj) (x : Ptr) : (linkedOut s obj).prev x =
    if some x = s.next obj then s.prev obj else s.prev x := by
  rw [linkedOut_eq hprev]
  cases s.next obj with
  | none =>
    rw [if_neg (Option.some_ne_none x)]
    exact skipped_prev s obj x
  | some n =>
    change (Function.update (skipped s obj).objs n _ x).ob_prev = _
    by_cases hx : x = n
    · rw [hx, Function.update_self, if_pos rfl]
    · rw [Function.update_of_ne hx, if_neg fun hc => hx (Option.some.inj hc)]
      exact skipped_prev s obj x

theorem linkedOut_same (hprev : s.prev obj ≠ some obj) : SameRest s (linkedOut s obj) := by
  rw [linkedOut_eq hprev]
  cases s.next obj with
  | none => exact skipped_same s obj
  | some n => exact (skipped_same s obj).set rfl rfl rfl rfl

/-! ## The lists of children -/

/-- The children of the live objects are linked, and no object is in two places. -/
structure Lined (s : State) (kids : Ptr → List Ptr) : Prop where
  lists : Lists s kids
  nodup : ∀ p, s.live p = true → (kids p).Nodup
  apart : ∀ p q x, s.live p = true → s.live q = true → x ∈ kids p → x ∈ kids q → p = q

theorem lined_of_tree (h : Tree s kids) (hlists : Lists s kids) : Lined s kids where
  lists := hlists
  nodup := h.nodup
  apart := by
    intro p q x hp hq hxp hxq
    exact Option.some.inj ((h.parent_of_kid hp hxp).symm.trans (h.parent_of_kid hq hxq))

theorem mem_of_lastOf (h : lastOf none l = some o) : o ∈ l := by
  rw [lastOf_none_eq] at h
  exact List.mem_of_getLast? h

/-- An object that is in no list is put into that of `p`. -/
theorem Lined.linkedIn (h : Lined s kids) (hp : s.live p = true) (hl : kids p = l1 ++ l2)
    (hobj : ∀ q, s.live q = true → obj ∉ kids q) :
    Lists (linkedIn s obj (some p) l2.head? (lastOf none l1))
      (Function.update kids p (l1 ++ obj :: l2)) := by
  have hnot := hobj p hp
  have hnxt : ∀ x, some x = l2.head? → x ∈ kids p := by
    intro x hx
    rw [hl]
    exact List.mem_append_right _ (List.mem_of_head? hx.symm)
  have hprv : ∀ x, some x = lastOf none l1 → x ∈ kids p := by
    intro x hx
    rw [hl]
    exact List.mem_append_left _ (mem_of_lastOf hx.symm)
  have hnxt' : l2.head? ≠ some obj := fun hc => hnot (hnxt obj hc.symm)
  have hprv' : lastOf none l1 ≠ some obj := fun hc => hnot (hprv obj hc.symm)
  intro q hq
  rw [(linkedIn_same ..).live] at hq
  by_cases hqp : q = p
  · rw [hqp, Function.update_self]
    have hlinked := h.lists p hp
    have hnodup := h.nodup p hp
    rw [hl] at hlinked hnodup hnot
    refine hlinked.insert hnodup hnot ?_ ?_ ?_ ?_ ?_ ?_
    · rw [linkedIn_next _ _ _ hprv', if_neg hprv'.symm, if_pos rfl]
    · rw [linkedIn_prev _ _ _ hnxt', if_neg hnxt'.symm, if_pos rfl]
    · rw [linkedIn_child]
      rcases lastOf_none l1 with ⟨hnone, rfl⟩ | ⟨l, a, hsome, rfl⟩
      · rw [if_pos ⟨hnone, rfl⟩, if_pos rfl]
      · rw [if_neg (by simp [hsome]), if_neg (by simp)]
    · intro x hx
      rw [linkedIn_next _ _ _ hprv', if_neg (fun hc : x = obj => hnot (hc ▸ hx))]
    · intro x hx
      rw [linkedIn_prev _ _ _ hnxt', if_neg (fun hc : x = obj => hnot (hc ▸ hx))]
    · exact fun x _ => Option.some_ne_none x
  · rw [Function.update_of_ne hqp, linkedIn_child,
      if_neg (fun hc => hqp (Option.some.inj hc.2).symm)]
    refine (h.lists q hq).congr ?_ ?_
    · intro x hx
      rw [linkedIn_next _ _ _ hprv', if_neg, if_neg]
      · rintro rfl
        exact hobj q hq hx
      · exact fun hc => hqp (h.apart q p x hq hp hx (hprv x hc))
    · intro x hx
      rw [linkedIn_prev _ _ _ hnxt', if_neg, if_neg]
      · rintro rfl
        exact hobj q hq hx
      · exact fun hc => hqp (h.apart q p x hq hp hx (hnxt x hc))

/-- The links of a child. -/
theorem Lined.links (h : Lined s kids) (hp : s.live p = true) (hl : kids p = l1 ++ obj :: l2) :
    s.prev obj = lastOf none l1 ∧ s.next obj = l2.head? := by
  have hlinked := h.lists p hp
  rw [hl] at hlinked
  exact hlinked.links

theorem Lined.prev_ne (h : Lined s kids) (hp : s.live p = true) (hobj : obj ∈ kids p) :
    s.prev obj ≠ some obj := by
  obtain ⟨l1, l2, hl⟩ := List.append_of_mem hobj
  have hnodup := h.nodup p hp
  rw [hl, List.nodup_middle, List.nodup_cons] at hnodup
  rw [(h.links hp hl).1]
  exact fun hc => hnodup.1 (List.mem_append_left _ (mem_of_lastOf hc))

/-- A child is taken out of its list. -/
theorem Lined.linkedOut (h : Lined s kids) (hp : s.live p = true) (hobj : obj ∈ kids p)
    (hpar : s.parent obj = some p) :
    Lined (linkedOut s obj) (fun q => (kids q).erase obj) := by
  have hself := h.prev_ne hp hobj
  obtain ⟨l1, l2, hl⟩ := List.append_of_mem hobj
  obtain ⟨hprv, hnxt⟩ := h.links hp hl
  have hnodup := h.nodup p hp
  have hout : ∀ q, s.live q = true → q ≠ p → (kids q).erase obj = kids q := by
    intro q hq hqp
    exact List.erase_of_not_mem fun hc => hqp (h.apart q p obj hq hp hc hobj)
  have herase : (kids p).erase obj = l1 ++ l2 := by
    rw [hl] at hnodup ⊢
    rw [List.nodup_middle, List.nodup_cons] at hnodup
    rw [List.erase_append_right _ fun hc => hnodup.1 (List.mem_append_left _ hc),
      List.erase_cons_head]
  have hlive := (linkedOut_same hself).live
  refine ⟨?_, ?_, ?_⟩
  · intro q hq
    rw [hlive] at hq
    beta_reduce
    rw [linkedOut_child hself, hprv, hnxt, hpar]
    by_cases hqp : q = p
    · rw [hqp, herase]
      have hlinked := h.lists p hp
      rw [hl] at hlinked hnodup
      refine hlinked.remove hnodup ?_ ?_ ?_ ?_
      · rcases lastOf_none l1 with ⟨hnone, rfl⟩ | ⟨l, a, hsome, rfl⟩
        · rw [if_pos ⟨hnone, rfl⟩, if_pos rfl]
        · rw [if_neg (by simp [hsome]), if_neg (by simp)]
      · intro x _
        rw [linkedOut_next hself, hprv, hnxt]
      · intro x _
        rw [linkedOut_prev hself, hprv, hnxt]
      · exact fun x _ => Option.some_ne_none x
    · rw [hout q hq hqp, if_neg (fun hc => hqp (Option.some.inj hc.2).symm)]
      refine (h.lists q hq).congr ?_ ?_
      · intro x hx
        rw [linkedOut_next hself, hprv, if_neg]
        intro hc
        refine hqp (h.apart q p x hq hp hx ?_)
        rw [hl]
        exact List.mem_append_left _ (mem_of_lastOf hc.symm)
      · intro x hx
        rw [linkedOut_prev hself, hnxt, if_neg]
        intro hc
        refine hqp (h.apart q p x hq hp hx ?_)
        rw [hl]
        exact List.mem_append_right _ (List.mem_cons_of_mem _ (List.mem_of_head? hc.symm))
  · intro q hq
    rw [hlive] at hq
    exact (h.nodup q hq).erase obj
  · intro q q' x hq hq' hx hx'
    rw [hlive] at hq hq'
    exact h.apart q q' x hq hq' (List.mem_of_mem_erase hx) (List.mem_of_mem_erase hx')

/-! ## The two functions -/

theorem SameRest.fuel_eq (h : SameRest s s') : s'.fuel = s.fuel := by
  unfold State.fuel
  rw [h.made]

/-- An object goes between those of `l1` and those of `l2`, below one that it is not above. -/
theorem linkObject_spec (h : Lined s kids) (hp : s.live p = true) (hl : kids p = l1 ++ l2)
    (hobj : ∀ q, s.live q = true → obj ∉ kids q) (hup : Bounded s p)
    (hnot : ¬Anc s.parent p obj) :
    ∃ s', linkObject s obj (some p) l2.head? (lastOf none l1) = .ok s' ∧ SameRest s s' ∧
      s'.parent = Function.update s.parent obj (some p) ∧
      Lists s' (Function.update kids p (l1 ++ obj :: l2)) ∧
      ∀ x, x ≠ obj → (∀ q, s.live q = true → x ∉ kids q) →
        s'.next x = s.next x ∧ s'.prev x = s.prev x := by
  obtain ⟨up, hchain, hlen⟩ := hup
  have hsame := linkedIn_same s obj (some p) l2.head? (lastOf none l1)
  have hbound : Bounded (linkedIn s obj (some p) l2.head? (lastOf none l1)) p := by
    refine ⟨up, hchain.congr ?_, by rwa [hsame.fuel_eq]⟩
    intro x hx
    rw [linkedIn_parent, Function.update_of_ne]
    rintro rfl
    exact hnot ((IsTree.chain_mem_iff hchain).mp hx)
  obtain ⟨s', hs', f, rfl⟩ := setUpdateLptrs_spec (some p) fun o ho => by
    cases ho
    exact hbound
  refine ⟨_, (linkObject_eq ..).trans hs', hsame.trans (Flagged.sameRest ⟨f, rfl⟩),
    linkedIn_parent .., h.linkedIn hp hl hobj, ?_⟩
  intro x hxo hx
  have hxp := hx p hp
  rw [hl] at hxp
  have hnxt : some x ≠ l2.head? := by
    intro hc
    exact hxp (List.mem_append_right _ (List.mem_of_head? hc.symm))
  have hprv : some x ≠ lastOf none l1 := by
    intro hc
    exact hxp (List.mem_append_left _ (mem_of_lastOf hc.symm))
  have hobjp := hobj p hp
  rw [hl] at hobjp
  have hnxt' : l2.head? ≠ some obj := by
    intro hc
    exact hobjp (List.mem_append_right _ (List.mem_of_head? hc))
  have hprv' : lastOf none l1 ≠ some obj := by
    intro hc
    exact hobjp (List.mem_append_left _ (mem_of_lastOf hc))
  refine ⟨(linkedIn_next _ _ _ hprv' x).trans ?_, (linkedIn_prev _ _ _ hnxt' x).trans ?_⟩
  · rw [if_neg hprv, if_neg hxo]
  · rw [if_neg hnxt, if_neg hxo]

/-- A child leaves the list of its parent, and keeps the link to it. -/
theorem unlinkObject_spec (h : Lined s kids) (hp : s.live p = true) (hobj : obj ∈ kids p)
    (hpar : s.parent obj = some p) (hup : Bounded s p) :
    ∃ s', unlinkObject s obj = .ok s' ∧ SameRest s s' ∧ s'.parent = s.parent ∧
      Lined s' (fun q => (kids q).erase obj) ∧
      ∀ x, (∀ q, s.live q = true → x ∉ kids q) →
        s'.next x = s.next x ∧ s'.prev x = s.prev x := by
  have hself := h.prev_ne hp hobj
  have hsame := linkedOut_same hself
  have hparent := linkedOut_parent hself
  have hbound : Bounded (linkedOut s obj) p := by
    obtain ⟨up, hchain, hlen⟩ := hup
    exact ⟨up, hparent ▸ hchain, by rwa [hsame.fuel_eq]⟩
  obtain ⟨s', hs', f, rfl⟩ := setUpdateLptrs_spec ((linkedOut s obj).parent obj)
    fun o ho => by
      rw [hparent, hpar] at ho
      cases ho
      exact hbound
  have hlined := h.linkedOut hp hobj hpar
  refine ⟨_, (unlinkObject_eq hpar).trans hs', hsame.trans (Flagged.sameRest ⟨f, rfl⟩), hparent,
    ⟨hlined.lists, hlined.nodup, hlined.apart⟩, ?_⟩
  intro x hx
  obtain ⟨l1, l2, hl⟩ := List.append_of_mem hobj
  obtain ⟨hprv, hnxt⟩ := h.links hp hl
  have hxp := hx p hp
  rw [hl] at hxp
  refine ⟨(linkedOut_next hself x).trans (if_neg ?_), (linkedOut_prev hself x).trans (if_neg ?_)⟩
  · rw [hprv]
    exact fun hc => hxp (List.mem_append_left _ (mem_of_lastOf hc.symm))
  · rw [hnxt]
    exact fun hc => hxp (List.mem_append_right _ (List.mem_cons_of_mem _ (List.mem_of_head? hc.symm)))

end ups_rules.obj_tree
