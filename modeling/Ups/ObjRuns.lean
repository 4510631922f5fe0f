-- Every call on the display objects keeps the tree, its links and the index of the codes, as long as
-- no object that is in both places of the cache is removed for itself.
import Ups.ObjLinks

open linked_path
open sibling_lists
open trees
open ups_rules.merge_sort

namespace ups_rules.obj_tree

variable {s s' t : State} {kids : Ptr → List Ptr} {chains : Nat → List Ptr} {o p pos keep : Ptr}
  {code fuel n : Nat} {nxt prv : Option Ptr} {l l0 : List Ptr} {od : Int → Odesc}

/-! ## The invariant -/

structure Inv (s : State) (kids : Ptr → List Ptr) (chains : Nat → List Ptr) : Prop where
  tree : Tree s kids
  lists : Lists s kids
  index : Index s chains
  codes : DistinctCodes s
  counted : Counted s
  likely1 : s.live s.Likely1 = true
  likely2 : s.live s.Likely2 = true
  root_code : s.code Rootobj = 0
  root_next : s.next Rootobj = none
  root_prev : s.prev Rootobj = none

namespace Inv

theorem flagged (h : Inv s kids chains) (hs : Flagged s s') : Inv s' kids chains := by
  obtain ⟨f, rfl⟩ := hs
  exact ⟨h.tree, h.lists, h.index.congr rfl rfl rfl rfl fun _ => rfl, h.codes, h.counted,
    h.likely1, h.likely2, h.root_code, h.root_next, h.root_prev⟩

theorem setLikely (h : Inv s kids chains) (ho : s.live o = true) :
    Inv (setLikely s o) kids chains :=
  ⟨h.tree, h.lists, h.index.congr rfl rfl rfl rfl fun _ => rfl, h.codes, h.counted, ho,
    h.likely1, h.root_code, h.root_next, h.root_prev⟩

theorem lined (h : Inv s kids chains) : Lined s kids := lined_of_tree h.tree h.lists

theorem bounded (h : Inv s kids chains) (ho : s.live o = true) : Bounded s o :=
  bounded_of_tree h.tree h.counted ho

/-- A lookup comes back with the object, and leaves it in the cache. -/
theorem lookup (h : Inv s kids chains) (ho : Named s code o) :
    ∃ s', codeToObj s code = .ok (s', o) ∧ (s' = s ∨ s' = obj_tree.setLikely s o) ∧
      Inv s' kids chains ∧ (s'.Likely1 = o ∨ s'.Likely2 = o) ∧
      (¬(s.Likely1 = o ∧ s.Likely2 = o) → ¬(s'.Likely1 = o ∧ s'.Likely2 = o)) := by
  rcases codeToObj_spec h.index h.counted h.codes h.likely1 h.likely2 ho with
    ⟨heq, hlikely⟩ | ⟨heq, hne, -⟩
  · refine ⟨s, heq, Or.inl rfl, h, ?_, id⟩
    rcases hlikely with rfl | rfl
    · exact Or.inl rfl
    · exact Or.inr rfl
  · exact ⟨_, heq, Or.inr rfl, h.setLikely ho.1, Or.inl rfl, fun _ hc => hne hc.2.symm⟩

/-- Above an object that is not the root there is one that has it as a child. -/
theorem split (h : Inv s kids chains) (ho : s.live o = true) (hne : o ≠ Rootobj) :
    ∃ p l1 l2, s.parent o = some p ∧ s.live p = true ∧ kids p = l1 ++ o :: l2 := by
  obtain ⟨p, hp, hlive⟩ := h.tree.exists_parent ho hne
  obtain ⟨l1, l2, hl⟩ := List.append_of_mem ((h.tree.mem_kids p hlive o).mpr ⟨ho, hp⟩)
  exact ⟨p, l1, l2, hp, hlive, hl⟩

theorem root_not_kid (h : Inv s kids chains) (hp : s.live p = true) : Rootobj ∉ kids p :=
  fun hc => h.tree.kid_ne_root hp hc rfl

end Inv

/-! ## An object goes -/

/-- What `rm_obj_tree` does to the object itself. -/
def kill (s : State) (o : Ptr) : Except Stop State := do
  let s ← unlinkObject s o
  let s ← unenterObj s o
  .ok { s with live := Function.update s.live o false }

theorem forget_same (s : State) (o : Ptr) : (forget s o).objs = s.objs ∧
    (forget s o).live = s.live ∧ (forget s o).Hashtab = s.Hashtab ∧
    (forget s o).hashes = s.hashes ∧ (forget s o).used = s.used ∧ (forget s o).made = s.made := by
  unfold forget
  split
  · exact ⟨rfl, rfl, rfl, rfl, rfl, rfl⟩
  · split <;> exact ⟨rfl, rfl, rfl, rfl, rfl, rfl⟩

theorem dropHash_same (s : State) (i : Nat) (prev : Option Ptr) (n : Ptr) :
    (dropHash s i prev n).objs = s.objs ∧ (dropHash s i prev n).live = s.live ∧
      (dropHash s i prev n).made = s.made ∧ (dropHash s i prev n).Likely1 = s.Likely1 ∧
      (dropHash s i prev n).Likely2 = s.Likely2 := by
  cases prev <;> exact ⟨rfl, rfl, rfl, rfl, rfl⟩

/-- The cache forgets an object that is in one of its places, and no other. -/
theorem forget_likely (hlikely : ¬(s.Likely1 = o ∧ s.Likely2 = o)) :
    ((forget s o).Likely1 = s.Likely1 ∧ s.Likely1 ≠ o ∨ (forget s o).Likely1 = Rootobj) ∧
      ((forget s o).Likely2 = s.Likely2 ∧ s.Likely2 ≠ o ∨ (forget s o).Likely2 = Rootobj) ∧
      ∀ x, x ≠ o → s.Likely1 = x ∨ s.Likely2 = x →
        (forget s o).Likely1 = x ∨ (forget s o).Likely2 = x := by
  unfold forget
  by_cases h1 : o = s.Likely1
  · have h2 : s.Likely2 ≠ o := fun h2 => hlikely ⟨h1.symm, h2⟩
    rw [if_pos h1]
    refine ⟨Or.inr rfl, Or.inl ⟨rfl, h2⟩, ?_⟩
    rintro x hx (rfl | hx')
    · exact absurd h1.symm hx
    · exact Or.inr hx'
  · rw [if_neg h1]
    by_cases h2 : o = s.Likely2
    · rw [if_pos h2]
      refine ⟨Or.inl ⟨rfl, Ne.symm h1⟩, Or.inr rfl, ?_⟩
      rintro x hx (hx' | rfl)
      · exact Or.inl hx'
      · exact absurd h2.symm hx
    · rw [if_neg h2]
      exact ⟨Or.inl ⟨rfl, Ne.symm h1⟩, Or.inl ⟨rfl, Ne.symm h2⟩, fun _ _ hx => hx⟩

/-- The index without an object that dies next. -/
theorem unenterObj_spec (h : Index s chains) (hcount : Counted s) (ho : s.live o = true)
    (hlikely : ¬(s.Likely1 = o ∧ s.Likely2 = o)) :
    ∃ s' chains', unenterObj s o = .ok s' ∧ s'.objs = s.objs ∧ s'.live = s.live ∧
      s'.made = s.made ∧ Index { s' with live := Function.update s'.live o false } chains' ∧
      (s'.Likely1 = s.Likely1 ∧ s.Likely1 ≠ o ∨ s'.Likely1 = Rootobj) ∧
      (s'.Likely2 = s.Likely2 ∧ s.Likely2 ≠ o ∨ s'.Likely2 = Rootobj) ∧
      ∀ x, x ≠ o → s.Likely1 = x ∨ s.Likely2 = x → s'.Likely1 = x ∨ s'.Likely2 = x := by
  obtain ⟨m1, n, m2, hm, hno, hother⟩ := h.split ho
  have heq := findObj_of_index h hcount hm hno hother
  obtain ⟨d1, d2, d3, d4, d5⟩ := dropHash_same s (HASH (s.code o)) (lastOf none m1) n
  obtain ⟨f1, f2, f3, f4, f5, f6⟩ :=
    forget_same (dropHash s (HASH (s.code o)) (lastOf none m1) n) o
  have hlikely' := forget_likely (s := dropHash s (HASH (s.code o)) (lastOf none m1) n) (o := o)
  rw [d4, d5] at hlikely'
  refine ⟨_, Function.update chains (HASH (s.code o)) (m1 ++ m2), heq, f1.trans d1, f2.trans d2,
    f6.trans d3, ?_, hlikely' hlikely⟩
  refine h.leave hm hno hother f3 f4 f5 ?_ ?_
  · change Function.update (forget _ o).live o false = _
    rw [f2, d2]
  · intro x
    change ((forget _ o).objs x).ob_code = _
    rw [f1, d1]
    rfl

/-- A live object without children leaves the tree and the index. -/
theorem kill_spec (h : Inv s kids chains) (ho : s.live o = true) (hne : o ≠ Rootobj)
    (hleaf : kids o = []) (hlikely : ¬(s.Likely1 = o ∧ s.Likely2 = o)) :
    ∃ s' chains', kill s o = .ok s' ∧ Inv s' (fun q => (kids q).erase o) chains' ∧
      s'.parent = s.parent ∧ s'.live = Function.update s.live o false ∧
      ∀ x, x ≠ o → s.Likely1 = x ∨ s.Likely2 = x → s'.Likely1 = x ∨ s'.Likely2 = x := by
  obtain ⟨p, l1, l2, hpar, hp, hl⟩ := h.split ho hne
  have hkid : o ∈ kids p := by
    rw [hl]
    exact List.mem_append_right _ List.mem_cons_self
  obtain ⟨s1, hs1, hsame, hparent, hlined, halone⟩ :=
    unlinkObject_spec h.lined hp hkid hpar (h.bounded hp)
  have hindex : Index s1 chains :=
    h.index.congr hsame.Hashtab hsame.hashes hsame.used hsame.live hsame.code
  obtain ⟨nodes, hnodes, hlen⟩ := h.counted
  have hcounted : Counted s1 := ⟨nodes, hsame.live ▸ hnodes, hsame.made ▸ hlen⟩
  obtain ⟨s2, chains', hs2, hobjs, hlive, hmade, hindex', hlikely1, hlikely2, hkeep⟩ :=
    unenterObj_spec hindex hcounted (hsame.live ▸ ho) (by rwa [hsame.Likely1, hsame.Likely2])
  rw [hsame.Likely1] at hlikely1 hkeep
  rw [hsame.Likely2] at hlikely2 hkeep
  rw [hsame.live] at hlive
  have hparent2 : s2.parent = s.parent := by
    rw [← hparent]
    unfold State.parent
    rw [hobjs]
  have hcode2 : ∀ x, s2.code x = s.code x := by
    intro x
    rw [← hsame.code x]
    unfold State.code
    rw [hobjs]
  have hmem : ∀ x, Function.update s2.live o false x = true ↔ x ≠ o ∧ s.live x = true := by
    intro x
    rw [hlive]
    by_cases hx : x = o
    · rw [hx, Function.update_self]
      simp
    · rw [Function.update_of_ne hx]
      simp [hx]
  have hroot := halone Rootobj fun q hq => h.root_not_kid hq
  have hlikes : ∀ x y, x = y ∧ y ≠ o ∨ x = Rootobj → s.live y = true →
      Function.update s2.live o false x = true := by
    rintro x y (⟨rfl, hyo⟩ | rfl) hy
    · exact (hmem x).mpr ⟨hyo, hy⟩
    · exact (hmem Rootobj).mpr ⟨hne.symm, h.tree.root_mem⟩
  refine ⟨{ s2 with live := Function.update s2.live o false }, chains', ?_, ?_, hparent2, ?_, hkeep⟩
  · unfold kill
    rw [hs1]
    change (unenterObj s1 o).bind _ = _
    rw [hs2]
    rfl
  · refine ⟨?_, ?_, hindex', ?_, ?_, hlikes _ _ hlikely1 h.likely1, hlikes _ _ hlikely2 h.likely2,
      (hcode2 Rootobj).trans h.root_code, ?_, ?_⟩
    · change IsTree Rootobj _ s2.parent _
      rw [hparent2]
      refine h.tree.detach ho hne hleaf hmem (fun _ _ => rfl) ?_ ?_
      · intro x hx y
        exact (h.tree.nodup x ((hmem x).mp hx).2).mem_erase_iff
      · exact fun x hx => (h.tree.nodup x ((hmem x).mp hx).2).erase o
    · intro q hq
      have hlinked := hlined.lists q (by
        rw [hsame.live]
        exact ((hmem q).mp hq).2)
      change Linked (fun x => (s2.objs x).ob_next) (fun x => (s2.objs x).ob_prev) none
        (s2.objs q).ob_child _ none
      rw [hobjs]
      exact hlinked
    · intro x y hx hy hxy
      change s2.code x = s2.code y at hxy
      rw [hcode2, hcode2] at hxy
      exact h.codes x y ((hmem x).mp hx).2 ((hmem y).mp hy).2 hxy
    · refine ⟨nodes, fun x hx => hnodes x ((hmem x).mp hx).2, ?_⟩
      change nodes.length ≤ s2.made + 1
      rw [hmade, hsame.made]
      exact hlen
    · change (s2.objs Rootobj).ob_next = none
      rw [hobjs]
      exact hroot.1.trans h.root_next
    · change (s2.objs Rootobj).ob_prev = none
      rw [hobjs]
      exact hroot.2.trans h.root_prev
  · change Function.update s2.live o false = _
    rw [hlive]

theorem rmObjTrees_some (fuel : Nat) (s : State) (child : Ptr) (all : Bool) :
    rmObjTrees (fuel + 1) s (some child) all =
      (if all || s.child child == none then
        (rmObjTrees fuel s (s.child child) true).bind fun s => kill s child
      else .ok s).bind fun s' => rmObjTrees fuel s' (s.next child) all := by
  rw [rmObjTrees]
  split
  · unfold kill
    cases rmObjTrees fuel s (s.child child) true with
    | error _ => rfl
    | ok s1 =>
      dsimp only [bind, Except.bind]
      cases unlinkObject s1 child with
      | error _ => rfl
      | ok s2 =>
        dsimp only
        cases unenterObj s2 child <;> rfl
  · rfl

/-- What removing some of the children of `p`, from those of `l` on, leaves alone. -/
structure Removes (s s' : State) (kids kids' : Ptr → List Ptr) (p keep : Ptr) : Prop where
  parent : s'.parent = s.parent
  likely : s'.Likely1 = keep ∨ s'.Likely2 = keep
  sublist : ∀ x, (kids' x).Sublist (kids x)
  live : s'.live p = true
  outside : ∀ x, s.live x = true → ¬Anc s.parent x p → kids' x = kids x ∧ s'.live x = true

/-- One child goes, with all that is below it. -/
theorem removes_kill {c : Ptr} {kids1 : Ptr → List Ptr} {chains1 : Nat → List Ptr} {s1 : State}
    (h : Inv s kids chains) (hp : s.live p = true) (hc : c ∈ kids p)
    (hanc : Anc s.parent p keep) (h1 : Inv s1 kids1 chains1)
    (hremoves : Removes s s1 kids kids1 c keep) (hnone : kids1 c = []) :
    ∃ s2 chains2, kill s1 c = .ok s2 ∧ Inv s2 (fun q => (kids1 q).erase c) chains2 ∧
      Removes s s2 kids (fun q => (kids1 q).erase c) p keep ∧ (kids1 p).erase c = (kids p).erase c := by
  have hcp := h.tree.parent_of_kid hp hc
  have hcmem := h.tree.mem_of_kid hp hc
  have hne : ∀ x, Anc s.parent p x → x ≠ c := by
    rintro x hx rfl
    exact h.tree.not_anc_parent hcmem hcp hx
  have hlikely : ¬(s1.Likely1 = c ∧ s1.Likely2 = c) := by
    rintro ⟨h1, h2⟩
    rcases hremoves.likely with hk | hk
    · exact hne keep hanc (hk.symm.trans h1)
    · exact hne keep hanc (hk.symm.trans h2)
  obtain ⟨s2, chains2, hs2, hinv2, hparent2, hlive2, hkeep2⟩ :=
    kill_spec h1 hremoves.live (h.tree.kid_ne_root hp hc) hnone hlikely
  have houtside : ∀ x, s.live x = true → ¬Anc s.parent x c → kids1 x = kids x ∧ s2.live x = true := by
    intro x hx hxc
    obtain ⟨hkids, hlive⟩ := hremoves.outside x hx hxc
    refine ⟨hkids, ?_⟩
    rw [hlive2, Function.update_of_ne]
    · exact hlive
    · rintro rfl
      exact hxc Relation.ReflTransGen.refl
  have hpout := houtside p hp (h.tree.not_anc_parent hcmem hcp)
  refine ⟨s2, chains2, hs2, hinv2, ?_, by rw [hpout.1]⟩
  refine ⟨hparent2.trans hremoves.parent, hkeep2 keep (hne keep hanc) hremoves.likely, ?_,
    hpout.2, ?_⟩
  · exact fun x => List.erase_sublist.trans (hremoves.sublist x)
  · intro x hx hxp
    obtain ⟨hkids, hlive⟩ := houtside x hx fun hxc => hxp (hxc.tail hcp)
    refine ⟨?_, hlive⟩
    rw [hkids, List.erase_of_not_mem]
    intro hcx
    obtain rfl : p = x := Option.some.inj (hcp.symm.trans (h.tree.parent_of_kid hx hcx))
    exact hxp Relation.ReflTransGen.refl

/-- All the children from those of `l` on go, or those that have no children. -/
theorem rmObjTrees_spec (all : Bool) (hturns : IsTree.Turns kids fuel l) (h : Inv s kids chains)
    (hp : s.live p = true) (hl : kids p = l0 ++ l) (hanc : Anc s.parent p keep)
    (hkeep : s.Likely1 = keep ∨ s.Likely2 = keep) :
    ∃ s' kids' chains', rmObjTrees fuel s l.head? all = .ok s' ∧ Inv s' kids' chains' ∧
      Removes s s' kids kids' p keep ∧ (all = true → kids' p = l0) := by
  induction fuel generalizing s kids chains p l0 l all with
  | zero => cases hturns
  | succ fuel ih =>
    cases hturns with
    | nil =>
      rw [List.append_nil] at hl
      exact ⟨s, kids, chains, rfl, h, ⟨rfl, hkeep, fun x => List.Sublist.refl _, hp,
        fun x hx _ => ⟨rfl, hx⟩⟩, fun _ => hl⟩
    | @cons _ c l hbelow hrest =>
      have hc : c ∈ kids p := by
        rw [hl]
        exact List.mem_append_right _ List.mem_cons_self
      have hcp := h.tree.parent_of_kid hp hc
      have hcmem := h.tree.mem_of_kid hp hc
      -- What becomes of the first child
      have hfirst : ∃ s1 kids1 chains1 l1, (if all || s.child c == none then
          (rmObjTrees fuel s (s.child c) true).bind fun s => kill s c else .ok s) = .ok s1 ∧
          Inv s1 kids1 chains1 ∧ Removes s s1 kids kids1 p keep ∧ kids1 p = l1 ++ l ∧
          (all = true → l1 = l0) := by
        split
        · obtain ⟨s1, kids1, chains1, hs1, hinv1, hremoves1, hnone⟩ :=
            ih true hbelow h hcmem (List.nil_append _).symm (Relation.ReflTransGen.head hcp hanc)
              hkeep
          obtain ⟨s2, chains2, hs2, hinv2, hremoves2, hp2⟩ :=
            removes_kill h hp hc hanc hinv1 hremoves1 (hnone rfl)
          refine ⟨s2, _, chains2, l0, ?_, hinv2, hremoves2, ?_, fun _ => rfl⟩
          · rw [(h.lists c hcmem).first, hs1]
            exact hs2
          · have hnodup := h.tree.nodup p hp
            rw [hl, List.nodup_middle, List.nodup_cons] at hnodup
            rw [hp2, hl, List.erase_append_right _ fun hc => hnodup.1 (List.mem_append_left _ hc),
              List.erase_cons_head]
        · rename_i hnot
          refine ⟨s, kids, chains, l0 ++ [c], rfl, h, ⟨rfl, hkeep, fun x => List.Sublist.refl _, hp,
            fun x hx _ => ⟨rfl, hx⟩⟩, ?_, ?_⟩
          · rw [hl, List.append_assoc]
            rfl
          · rintro rfl
            exact absurd rfl hnot
      obtain ⟨s1, kids1, chains1, l1, hs1, hinv1, hremoves1, hl1, hall1⟩ := hfirst
      obtain ⟨s2, kids2, chains2, hs2, hinv2, hremoves2, hall2⟩ :=
        ih all (hrest.sublist hremoves1.sublist (List.Sublist.refl l)) hinv1 hremoves1.live hl1
          (hremoves1.parent ▸ hanc) hremoves1.likely
      refine ⟨s2, kids2, chains2, ?_, hinv2, ?_, fun hall => (hall2 hall).trans (hall1 hall)⟩
      · rw [List.head?_cons, rmObjTrees_some, hs1, (h.lined.links hp hl).2]
        exact hs2
      · refine ⟨hremoves2.parent.trans hremoves1.parent, hremoves2.likely,
          fun x => (hremoves2.sublist x).trans (hremoves1.sublist x), hremoves2.live, ?_⟩
        intro x hx hxp
        obtain ⟨hkids1, hlive1⟩ := hremoves1.outside x hx hxp
        obtain ⟨hkids2, hlive2⟩ := hremoves2.outside x hlive1 (hremoves1.parent ▸ hxp)
        exact ⟨hkids2.trans hkids1, hlive2⟩

theorem Inv.turns (h : Inv s kids chains) (ho : s.live o = true) :
    IsTree.Turns kids (s.fuel * s.fuel) (kids o) := by
  obtain ⟨nodes, hnodes, hlen⟩ := h.counted
  refine (h.tree.turns hnodes ho).mono ?_
  have hle : nodes.length + 1 ≤ s.fuel := by
    unfold State.fuel
    omega
  calc nodes.length * nodes.length + 1
      ≤ (nodes.length + 1) * (nodes.length + 1) := by
        rw [Nat.add_mul, Nat.one_mul]
        exact Nat.add_le_add (Nat.mul_le_mul_left _ (Nat.le_succ _)) (Nat.succ_le_succ (Nat.zero_le _))
    _ ≤ s.fuel * s.fuel := Nat.mul_le_mul hle hle

theorem removeObject_spec {which : Which} (h : Inv s kids chains) (hin : InUse s code)
    (hmeets : Meets s (.removeObject code which)) :
    ∃ s' kids' chains' res, removeObject s code which = .ok (s', res) ∧ Inv s' kids' chains' := by
  obtain ⟨o, ho⟩ := hin
  obtain ⟨s1, hs1, hs, hinv1, hkeep, hboth⟩ := h.lookup ho
  have hlive1 : s1.live o = true := by
    rcases hs with rfl | rfl <;> exact ho.1
  have hchild1 : s1.child o = s.child o := by
    rcases hs with rfl | rfl <;> rfl
  -- The objects below
  have hbelow : ∀ all, ∃ s' kids' chains', rmObjTree s1 o true false all = .ok s' ∧
      Inv s' kids' chains' := by
    intro all
    obtain ⟨s2, kids2, chains2, hs2, hinv2, -⟩ := rmObjTrees_spec all (hinv1.turns hlive1) hinv1
      hlive1 (List.nil_append _).symm Relation.ReflTransGen.refl hkeep
    refine ⟨s2, kids2, chains2, ?_, hinv2⟩
    unfold rmObjTree
    rw [if_pos rfl, (hinv1.lists o hlive1).first, hs2]
    rfl
  unfold removeObject
  rw [hs1]
  cases which with
  | OBJ_SELF =>
    by_cases hnone : s1.child o = none
    · obtain ⟨hne, hlikely⟩ := hmeets o ho (hchild1.symm.trans hnone)
      have hleaf : kids o = [] := by
        have hfirst := (hinv1.lists o hlive1).first
        rw [hnone] at hfirst
        exact List.head?_eq_none_iff.mp hfirst.symm
      obtain ⟨s2, chains2, hs2, hinv2, -⟩ := kill_spec hinv1 hlive1 hne hleaf (hboth hlikely)
      refine ⟨s2, _, chains2, 0, ?_, hinv2⟩
      change (if s1.child o = none then (rmObjTree s1 o false true false).bind fun s => .ok (s, 0)
        else _) = _
      rw [if_pos hnone]
      change (kill s1 o).bind _ = _
      rw [hs2]
      rfl
    · refine ⟨s1, kids, chains, -1, ?_, hinv1⟩
      change (if s1.child o = none then _ else Except.ok (s1, -1)) = _
      rw [if_neg hnone]
  | OBJ_CHILDREN =>
    obtain ⟨s2, kids2, chains2, hs2, hinv2⟩ := hbelow false
    refine ⟨s2, kids2, chains2, 0, ?_, hinv2⟩
    change (rmObjTree s1 o true false false).bind _ = _
    rw [hs2]
    rfl
  | OBJ_DESCENDENTS =>
    obtain ⟨s2, kids2, chains2, hs2, hinv2⟩ := hbelow true
    refine ⟨s2, kids2, chains2, 0, ?_, hinv2⟩
    change (rmObjTree s1 o true false true).bind _ = _
    rw [hs2]
    rfl

/-! ## A place in the tree -/

/-- A place between the children of a live object. -/
def Place (s : State) (kids : Ptr → List Ptr) (p : Ptr) (nxt prv : Option Ptr) : Prop :=
  s.live p = true ∧ ∃ l1 l2, kids p = l1 ++ l2 ∧ nxt = l2.head? ∧ prv = lastOf none l1

theorem place_child (h : Lined s kids) (hp : s.live p = true) :
    Place s kids p (s.child p) none :=
  ⟨hp, [], kids p, rfl, (h.lists p hp).first, rfl⟩

theorem place_last_child (hp : s.live p = true) : Place s kids p none (kids p).getLast? :=
  ⟨hp, kids p, [], (List.append_nil _).symm, rfl, (lastOf_none_eq _).symm⟩

theorem place_after (h : Lined s kids) (hp : s.live p = true) (hpos : pos ∈ kids p) :
    Place s kids p (s.next pos) (some pos) := by
  obtain ⟨l1, l2, hl⟩ := List.append_of_mem hpos
  refine ⟨hp, l1 ++ [pos], l2, ?_, (h.links hp hl).2, ?_⟩
  · rw [hl, List.append_assoc]
    rfl
  · rw [lastOf_append]
    rfl

theorem place_before (h : Lined s kids) (hp : s.live p = true) (hpos : pos ∈ kids p) :
    Place s kids p (some pos) (s.prev pos) := by
  obtain ⟨l1, l2, hl⟩ := List.append_of_mem hpos
  exact ⟨hp, l1, pos :: l2, hl, rfl, (h.links hp hl).1⟩

theorem children_spec {q f : Option Ptr} (h : Linked s.next s.prev q f l none)
    (hfuel : l.length < fuel) : children s fuel f = .ok l := by
  induction l generalizing q f fuel with
  | nil =>
    obtain ⟨fuel, rfl⟩ := Nat.exists_eq_add_of_lt hfuel
    obtain rfl : f = none := h
    rw [List.length_nil, Nat.zero_add]
    rfl
  | cons a l ih =>
    obtain ⟨fuel, rfl⟩ := Nat.exists_eq_add_of_lt hfuel
    obtain ⟨rfl, -, hrest⟩ := h
    rw [List.length_cons]
    change (children s _ (s.next a)).bind _ = _
    rw [ih hrest (by omega)]
    rfl

theorem Inv.children (h : Inv s kids chains) (ho : s.live o = true) :
    children s s.fuel (s.child o) = .ok (kids o) := by
  refine children_spec (h.lists o ho) ?_
  obtain ⟨nodes, hnodes, hlen⟩ := h.counted
  have hle := ((h.tree.nodup o ho).subperm fun c hc => hnodes c (h.tree.mem_of_kid ho hc)).length_le
  unfold State.fuel
  omega

theorem Inv.lastChild (h : Inv s kids chains) (ho : s.live o = true) :
    lastChild s o = .ok (kids o).getLast? := by
  unfold obj_tree.lastChild
  rw [h.children ho]
  rfl

/-! ## A new object -/

/-- The members that `make_obj` sets before it links the object. -/
def freshObj (od : Int → Odesc) (code : Nat) (type : Int) (o : Obj) : Obj :=
  { o with
    ob_child := none
    ob_code := code
    ob_type := type
    od_flags := (od type).od_flags
    update_lptrs := false
    no_indent := false }

/-- A new object that is not linked yet. -/
def fresh (od : Int → Odesc) (s : State) (obj hash : Ptr) (code : Nat) (type : Int) : State :=
  (enterObj { s with live := Function.update s.live obj true, made := s.made + 1 } hash obj
    code).set obj (freshObj od code type)

theorem makeObj_eq (od : Int → Odesc) (s : State) (obj hash : Ptr) (par nxt prv : Option Ptr)
    (code : Nat) (type : Int) : makeObj od s obj hash par nxt prv code type =
      linkObject (fresh od s obj hash code type) obj par nxt prv := rfl

/-- A new object has the links that its memory has, and no children. -/
theorem fresh_links (od : Int → Odesc) (s : State) (obj hash : Ptr) (code : Nat) (type : Int) :
    (fresh od s obj hash code type).parent = s.parent ∧
      (fresh od s obj hash code type).next = s.next ∧
      (fresh od s obj hash code type).prev = s.prev ∧
      (fresh od s obj hash code type).child = Function.update s.child obj none ∧
      (fresh od s obj hash code type).code = Function.update s.code obj code := by
  have hset : ∀ {β : Type} (g : Obj → β), (fun x => g ((fresh od s obj hash code type).objs x)) =
      Function.update (fun x => g (s.objs x)) obj (g (freshObj od code type (s.objs obj))) := by
    intro β g
    funext x
    change g (Function.update s.objs obj _ x) = _
    by_cases hx : x = obj
    · rw [hx, Function.update_self, Function.update_self]
      rfl
    · rw [Function.update_of_ne hx, Function.update_of_ne hx]
  exact ⟨(hset (·.ob_parent)).trans (Function.update_eq_self ..),
    (hset (·.ob_next)).trans (Function.update_eq_self ..),
    (hset (·.ob_prev)).trans (Function.update_eq_self ..), hset (·.ob_child), hset (·.ob_code)⟩

theorem makeObj_spec {obj hash : Ptr} {type : Int} (h : Inv s kids chains)
    (hplace : Place s kids p nxt prv) (hlive : s.live obj = false) (hused : s.used hash = false)
    (hcode : ¬InUse s code) :
    ∃ s' kids' chains', makeObj od s obj hash (some p) nxt prv code type = .ok s' ∧
      Inv s' kids' chains' := by
  obtain ⟨hp, l1, l2, hl, rfl, rfl⟩ := hplace
  have hne : ∀ x, s.live x = true → x ≠ obj := by
    rintro x hx rfl
    rw [hlive] at hx
    exact Bool.noConfusion hx
  obtain ⟨hparent, hnext, hprev, hchild, hcodes⟩ := fresh_links od s obj hash code type
  set s0 := fresh od s obj hash code type with hs0
  have hlive0 : ∀ x, s0.live x = true ↔ x = obj ∨ s.live x = true := by
    intro x
    change Function.update s.live obj true x = true ↔ _
    by_cases hx : x = obj
    · rw [hx, Function.update_self]
      simp
    · rw [Function.update_of_ne hx]
      simp [hx]
  -- The lists before the object is linked
  have hkids0 : ∀ q, s0.live q = true → ∀ x ∈ Function.update kids obj [] q,
      q ≠ obj ∧ s.live q = true ∧ x ∈ kids q := by
    intro q hq x hx
    by_cases hqo : q = obj
    · rw [hqo, Function.update_self] at hx
      exact absurd hx List.not_mem_nil
    · rw [Function.update_of_ne hqo] at hx
      exact ⟨hqo, ((hlive0 q).mp hq).resolve_left hqo, hx⟩
  have hlined0 : Lined s0 (Function.update kids obj []) := by
    refine ⟨?_, ?_, ?_⟩
    · intro q hq
      rw [hnext, hprev, hchild]
      by_cases hqo : q = obj
      · rw [hqo, Function.update_self, Function.update_self]
        rfl
      · rw [Function.update_of_ne hqo, Function.update_of_ne hqo]
        exact h.lists q (((hlive0 q).mp hq).resolve_left hqo)
    · intro q hq
      by_cases hqo : q = obj
      · rw [hqo, Function.update_self]
        exact List.nodup_nil
      · rw [Function.update_of_ne hqo]
        exact h.tree.nodup q (((hlive0 q).mp hq).resolve_left hqo)
    · intro q q' x hq hq' hx hx'
      obtain ⟨-, hq, hx⟩ := hkids0 q hq x hx
      obtain ⟨-, hq', hx'⟩ := hkids0 q' hq' x hx'
      exact h.lined.apart q q' x hq hq' hx hx'
  have hbound : Bounded s0 p := by
    obtain ⟨up, hup, hlen⟩ := h.bounded hp
    refine ⟨up, hparent ▸ hup, ?_⟩
    change up.length < s.made + 1 + 2
    unfold State.fuel at hlen
    omega
  have hnot : ¬Anc s0.parent p obj := by
    rw [hparent]
    intro hc
    exact hne obj (h.tree.anc_mem hp hc) rfl
  obtain ⟨s', hs', hsame, hparent', hlists', halone⟩ := linkObject_spec hlined0
    ((hlive0 p).mpr (Or.inr hp)) (by rw [Function.update_of_ne (hne p hp), hl])
    (fun q hq hc => by
      obtain ⟨-, hq, hx⟩ := hkids0 q hq obj hc
      exact hne obj (h.tree.mem_of_kid hq hx) rfl) hbound hnot
  have hindex0 := h.index.enter s0 hlive hused rfl rfl rfl rfl
    (by rw [hcodes, Function.update_self]) (fun o ho => by rw [hcodes, Function.update_of_ne ho])
  have hcode' : ∀ x, s'.code x = Function.update s.code obj code x := by
    intro x
    rw [hsame.code, hcodes]
  have hroot := hne Rootobj h.tree.root_mem
  have hlone := halone Rootobj hroot fun q hq hc => by
    obtain ⟨-, hq, hx⟩ := hkids0 q hq Rootobj hc
    exact h.root_not_kid hq hx
  have hlive' : ∀ x, s'.live x = true ↔ x = obj ∨ s.live x = true := by
    intro x
    rw [hsame.live]
    exact hlive0 x
  refine ⟨s', _, _, (makeObj_eq ..).trans hs', ?_, hlists',
    hindex0.congr hsame.Hashtab hsame.hashes hsame.used hsame.live hsame.code, ?_, ?_, ?_, ?_, ?_,
    ?_, ?_⟩
  · have hnew : obj ∉ l1 ++ l2 := by
      rw [← hl]
      intro hc
      exact hne obj (h.tree.mem_of_kid hp hc) rfl
    refine h.tree.attach (fun hc => hne obj hc rfl) hp hlive' ?_ ?_ ?_ ?_ ?_
    · rw [hparent', Function.update_self]
    · intro x hx
      rw [hparent', Function.update_of_ne hx, hparent]
    · rw [Function.update_of_ne (hne p hp).symm, Function.update_self]
    · intro x hx y
      by_cases hxp : x = p
      · rw [hxp, Function.update_self, hl]
        simp only [List.mem_append, List.mem_cons, and_true]
        tauto
      · rw [Function.update_of_ne hxp, Function.update_of_ne (hne x hx)]
        simp [hxp]
    · intro x hx
      by_cases hxp : x = p
      · rw [hxp, Function.update_self, List.nodup_middle, List.nodup_cons, ← hl]
        rw [← hl] at hnew
        exact ⟨hnew, h.tree.nodup p hp⟩
      · rw [Function.update_of_ne hxp, Function.update_of_ne (hne x hx)]
        exact h.tree.nodup x hx
  · intro x y hx hy hxy
    rw [hcode', hcode'] at hxy
    rcases (hlive' x).mp hx with rfl | hx <;> rcases (hlive' y).mp hy with rfl | hy
    · rfl
    · rw [Function.update_self, Function.update_of_ne (hne y hy)] at hxy
      exact absurd ⟨y, hy, hxy.symm⟩ hcode
    · rw [Function.update_self, Function.update_of_ne (hne x hx)] at hxy
      exact absurd ⟨x, hx, hxy⟩ hcode
    · rw [Function.update_of_ne (hne x hx), Function.update_of_ne (hne y hy)] at hxy
      exact h.codes x y hx hy hxy
  · obtain ⟨nodes, hnodes, hlen⟩ := h.counted
    refine ⟨obj :: nodes, ?_, ?_⟩
    · intro x hx
      rw [List.mem_cons]
      exact ((hlive' x).mp hx).imp_right (hnodes x)
    · rw [hsame.made, List.length_cons]
      change nodes.length + 1 ≤ s.made + 1 + 1
      omega
  · rw [hsame.Likely1]
    exact (hlive' obj).mpr (Or.inl rfl)
  · rw [hsame.Likely2]
    exact (hlive' _).mpr (Or.inr h.likely1)
  · rw [hcode', Function.update_of_ne hroot]
    exact h.root_code
  · rw [hlone.1, hnext]
    exact h.root_next
  · rw [hlone.2, hprev]
    exact h.root_prev

/-- An object that is not the root has a place behind it and one in front of it. -/
theorem Inv.beside (h : Inv s kids chains) (ho : s.live o = true) (hne : o ≠ Rootobj) :
    ∃ p, s.parent o = some p ∧ s.live p = true ∧ o ∈ kids p := by
  obtain ⟨p, l1, l2, hpar, hp, hl⟩ := h.split ho hne
  refine ⟨p, hpar, hp, ?_⟩
  rw [hl]
  exact List.mem_append_right _ List.mem_cons_self

theorem Inv.ne_root (h : Inv s kids chains) (ho : Named s code o) (hcode : code ≠ 0) :
    o ≠ Rootobj := by
  rintro rfl
  exact hcode (ho.2.symm.trans h.root_code)

theorem newObject_spec {obj hash : Ptr} {type : Int} {poscode : Nat} {wh : Where}
    (h : Inv s kids chains) (hlegal : Legal s (.newObject obj hash code type poscode wh)) :
    ∃ s' kids' chains', newObject od s obj hash code type poscode wh = .ok s' ∧
      Inv s' kids' chains' := by
  obtain ⟨hlive, hused, hcode, ⟨pos, hpos⟩, hroot⟩ := hlegal
  obtain ⟨s1, hs1, hs, hinv1, -, -⟩ := h.lookup hpos
  obtain ⟨hlive1, hused1, hcode1, hpos1⟩ : s1.live obj = false ∧ s1.used hash = false ∧
      ¬InUse s1 code ∧ Named s1 poscode pos := by
    rcases hs with rfl | rfl <;> exact ⟨hlive, hused, hcode, hpos⟩
  unfold newObject
  rw [hs1]
  cases wh with
  | OBJ_LAST_CHILD =>
    change ∃ s' kids' chains', (lastChild s1 pos).bind _ = _ ∧ _
    rw [hinv1.lastChild hpos1.1]
    exact makeObj_spec hinv1 (place_last_child hpos1.1) hlive1 hused1 hcode1
  | OBJ_CHILD => exact makeObj_spec hinv1 (place_child hinv1.lined hpos1.1) hlive1 hused1 hcode1
  | OBJ_AFTER =>
    obtain ⟨p, hpar, hp, hmem⟩ := hinv1.beside hpos1.1 (h.ne_root hpos (hroot (Or.inl rfl)))
    have hmake : ∃ s' kids' chains', makeObj od s1 obj hash (s1.parent pos) (s1.next pos) (some pos)
        code type = .ok s' ∧ Inv s' kids' chains' := by
      rw [hpar]
      exact makeObj_spec hinv1 (place_after hinv1.lined hp hmem) hlive1 hused1 hcode1
    exact hmake
  | OBJ_BEFORE =>
    obtain ⟨p, hpar, hp, hmem⟩ := hinv1.beside hpos1.1 (h.ne_root hpos (hroot (Or.inr rfl)))
    have hmake : ∃ s' kids' chains', makeObj od s1 obj hash (s1.parent pos) (some pos) (s1.prev pos)
        code type = .ok s' ∧ Inv s' kids' chains' := by
      rw [hpar]
      exact makeObj_spec hinv1 (place_before hinv1.lined hp hmem) hlive1 hused1 hcode1
    exact hmake

/-! ## Moving an object -/

theorem setUpdateLptrs_below (h : Inv s kids chains) (ho : s.live o = true) :
    ∃ s', setUpdateLptrs s (some o) true = .ok s' ∧ Flagged s s' := by
  obtain ⟨up, -, hup⟩ := (h.bounded ho).upwards
  obtain ⟨f, hf⟩ := flagged_foldl s (up.takeWhile fun o => !(s.objs o).update_lptrs)
  obtain ⟨s', hs', hflag⟩ := setDescUpdateLptrs_spec (s := s.withFlags f) (h.turns ho)
    (Nat.le_refl _) h.lists (fun p hp o ho => h.tree.mem_of_kid hp ho) (h.lists o ho)
    (fun c hc => h.tree.mem_of_kid ho hc)
  refine ⟨s', ?_, Flagged.trans ⟨f, rfl⟩ hflag⟩
  unfold setUpdateLptrs
  rw [hup]
  change setDescUpdateLptrs (State.fuel (List.foldl flag s _) * State.fuel (List.foldl flag s _))
    (List.foldl flag s _) (State.child (List.foldl flag s _) o) = _
  rw [hf]
  exact hs'

/-- An object that is out of its list is linked in again. -/
theorem relinked_spec {s1 : State} (h : Inv s kids chains) (ho : s.live o = true)
    (hsame : SameRest s s1) (hparent : s1.parent = s.parent)
    (hlined : Lined s1 fun q => (kids q).erase o)
    (hroot : s1.next Rootobj = none ∧ s1.prev Rootobj = none)
    (hplace : Place s1 (fun q => (kids q).erase o) p nxt prv) (hnot : ¬Anc s.parent p o) :
    ∃ s' kids', linkObject s1 o (some p) nxt prv = .ok s' ∧ s'.live = s.live ∧
      Inv s' kids' chains := by
  obtain ⟨hp1, l1, l2, hl, rfl, rfl⟩ := hplace
  change (kids p).erase o = l1 ++ l2 at hl
  have hp : s.live p = true := hsame.live ▸ hp1
  have hne : o ≠ Rootobj := by
    rintro rfl
    exact hnot (h.tree.reach p hp)
  have hout : ∀ q, s1.live q = true → o ∉ (kids q).erase o := by
    intro q hq
    rw [hsame.live] at hq
    exact (h.tree.nodup q hq).not_mem_erase
  have hbound : Bounded s1 p := by
    obtain ⟨up, hup, hlen⟩ := h.bounded hp
    exact ⟨up, hparent ▸ hup, by rwa [hsame.fuel_eq]⟩
  obtain ⟨s2, hs2, hsame2, hparent2, hlists2, halone2⟩ :=
    linkObject_spec hlined hp1 hl hout hbound (hparent ▸ hnot)
  have hall := hsame.trans hsame2
  have hlone := halone2 Rootobj hne.symm fun q hq hc => by
    rw [hsame.live] at hq
    exact h.root_not_kid hq (List.mem_of_mem_erase hc)
  refine ⟨s2, _, hs2, hall.live, ?_, hlists2,
    h.index.congr hall.Hashtab hall.hashes hall.used hall.live hall.code, ?_, ?_, ?_, ?_, ?_, ?_, ?_⟩
  · change IsTree Rootobj (fun x => s2.live x = true) s2.parent _
    rw [hall.live, hparent2, hparent]
    have hmem : ∀ y, y ∈ l1 ++ l2 ↔ y ≠ o ∧ y ∈ kids p := by
      intro y
      rw [← hl]
      exact (h.tree.nodup p hp).mem_erase_iff
    refine h.tree.move ho hp hnot (Function.update_self ..) (fun x hx => Function.update_of_ne hx ..)
      ?_ ?_
    · intro x hx y
      by_cases hxp : x = p
      · rw [hxp, Function.update_self, List.mem_append, List.mem_cons]
        have hy := hmem y
        rw [List.mem_append] at hy
        tauto
      · rw [Function.update_of_ne hxp, (h.tree.nodup x hx).mem_erase_iff]
        simp [hxp]
    · intro x hx
      by_cases hxp : x = p
      · have hnodup := (h.tree.nodup p hp).erase o
        have hnot := hout p hp1
        rw [hl] at hnodup hnot
        rw [hxp, Function.update_self, List.nodup_middle, List.nodup_cons]
        exact ⟨hnot, hnodup⟩
      · rw [Function.update_of_ne hxp]
        exact (h.tree.nodup x hx).erase o
  · intro x y hx hy hxy
    rw [hall.live] at hx hy
    rw [hall.code, hall.code] at hxy
    exact h.codes x y hx hy hxy
  · obtain ⟨nodes, hnodes, hlen⟩ := h.counted
    exact ⟨nodes, hall.live ▸ hnodes, hall.made ▸ hlen⟩
  · rw [hall.live, hall.Likely1]
    exact h.likely1
  · rw [hall.live, hall.Likely2]
    exact h.likely2
  · rw [hall.code]
    exact h.root_code
  · exact hlone.1.trans hroot.1
  · exact hlone.2.trans hroot.2

/-- The place that `move_object` gives to the object. -/
def relinkAt (s : State) (orig dest : Ptr) : Where → Except Stop State
  | .OBJ_CHILD => linkObject s orig (some dest) (s.child dest) none
  | .OBJ_AFTER => linkObject s orig (s.parent dest) (s.next dest) (some dest)
  | .OBJ_BEFORE => linkObject s orig (s.parent dest) (some dest) (s.prev dest)
  | .OBJ_LAST_CHILD => .error (.panic "unknown where in move_object")

theorem moveObject_eq (od : Int → Odesc) (s : State) (code poscode : Nat) (wh : Where) :
    moveObject od s code poscode wh =
      (codeToObj s code).bind fun x => (codeToObj x.1 poscode).bind fun y =>
        (upwards y.1 y.1.fuel (some y.2)).bind fun above =>
          if x.2 ∈ above then .error (.panic "illegal destination in move_object")
          else (upwards y.1 y.1.fuel (some x.2)).bind fun old =>
            (unlinkObject y.1 x.2).bind fun s => (relinkAt s x.2 y.2 wh).bind fun s =>
              (upwards s s.fuel (some x.2)).bind fun new =>
                if getIndent od s new = getIndent od y.1 old then .ok s
                else setUpdateLptrs s (some x.2) true := by
  unfold moveObject
  cases wh <;> rfl

theorem moveObject_spec {poscode : Nat} {wh : Where} (h : Inv s kids chains)
    (hlegal : Legal s (.moveObject code poscode wh)) :
    ∃ s' kids' chains', moveObject od s code poscode wh = .ok s' ∧ Inv s' kids' chains' := by
  obtain ⟨⟨orig, horig⟩, ⟨dest, hdest⟩, hwh, hroot, hnot⟩ := hlegal
  have hnot := hnot orig dest horig hdest
  obtain ⟨s1, hs1, hcase1, hinv1, -, -⟩ := h.lookup horig
  have hsame1 : Named s1 poscode dest ∧ Named s1 code orig ∧ s1.parent = s.parent := by
    rcases hcase1 with rfl | rfl <;> exact ⟨hdest, horig, rfl⟩
  obtain ⟨s2, hs2, hcase2, hinv2, -, -⟩ := hinv1.lookup hsame1.1
  have hsame2 : Named s2 poscode dest ∧ Named s2 code orig ∧ s2.parent = s1.parent := by
    rcases hcase2 with rfl | rfl <;> exact ⟨hsame1.1, hsame1.2.1, rfl⟩
  obtain ⟨⟨hdest2, -⟩, ⟨horig2, -⟩, hparent2⟩ := hsame2
  rw [← hsame1.2.2, ← hparent2] at hnot
  obtain ⟨above, habove, hs3⟩ := (hinv2.bounded hdest2).upwards
  obtain ⟨old, -, hold⟩ := (hinv2.bounded horig2).upwards
  have hne : orig ≠ Rootobj := by
    rintro rfl
    exact hnot (hinv2.tree.reach dest hdest2)
  obtain ⟨p, hpar, hp, hkid⟩ := hinv2.beside horig2 hne
  obtain ⟨s3, hunlink, hsame3, hparent3, hlined3, halone3⟩ :=
    unlinkObject_spec hinv2.lined hp hkid hpar (hinv2.bounded hp)
  have hroot3 := halone3 Rootobj fun q hq => hinv2.root_not_kid hq
  have hroots : s3.next Rootobj = none ∧ s3.prev Rootobj = none :=
    ⟨hroot3.1.trans hinv2.root_next, hroot3.2.trans hinv2.root_prev⟩
  -- The place next to the destination
  have hbeside : poscode ≠ 0 → ∃ q, s3.parent dest = some q ∧ s3.live q = true ∧
      dest ∈ (kids q).erase orig ∧ ¬Anc s2.parent q orig := by
    intro hcode
    obtain ⟨q, hq, hqlive, hmem⟩ := hinv2.beside hdest2 (h.ne_root hdest hcode)
    refine ⟨q, by rw [hparent3, hq], by rw [hsame3.live, hqlive], ?_, ?_⟩
    · refine (List.mem_erase_of_ne ?_).mpr hmem
      rintro rfl
      exact hnot Relation.ReflTransGen.refl
    · exact fun hanc => hnot (Relation.ReflTransGen.head hq hanc)
  have hrelink : ∃ s4 kids4, relinkAt s3 orig dest wh = .ok s4 ∧ s4.live = s2.live ∧
      Inv s4 kids4 chains := by
    cases wh with
    | OBJ_LAST_CHILD => exact absurd rfl hwh
    | OBJ_CHILD =>
      exact relinked_spec hinv2 horig2 hsame3 hparent3 hlined3 hroots
        (place_child hlined3 (hsame3.live ▸ hdest2)) hnot
    | OBJ_AFTER =>
      obtain ⟨q, hq, hqlive, hmem, hnotq⟩ := hbeside (hroot (Or.inl rfl))
      unfold relinkAt
      rw [hq]
      exact relinked_spec hinv2 horig2 hsame3 hparent3 hlined3 hroots
        (place_after hlined3 hqlive hmem) hnotq
    | OBJ_BEFORE =>
      obtain ⟨q, hq, hqlive, hmem, hnotq⟩ := hbeside (hroot (Or.inr rfl))
      unfold relinkAt
      rw [hq]
      exact relinked_spec hinv2 horig2 hsame3 hparent3 hlined3 hroots
        (place_before hlined3 hqlive hmem) hnotq
  obtain ⟨s4, kids4, hs4, hlive4, hinv4⟩ := hrelink
  have horig4 : s4.live orig = true := hlive4 ▸ horig2
  obtain ⟨new, -, hnew⟩ := (hinv4.bounded horig4).upwards
  rw [moveObject_eq, hs1]
  dsimp only [Except.bind]
  rw [hs2]
  dsimp only
  rw [hs3]
  dsimp only
  rw [if_neg fun hc => hnot ((IsTree.chain_mem_iff habove).mp hc), hold]
  dsimp only
  rw [hunlink]
  dsimp only
  rw [hs4]
  dsimp only
  rw [hnew]
  dsimp only
  split
  · exact ⟨s4, kids4, chains, rfl, hinv4⟩
  · obtain ⟨s5, hs5, hflag⟩ := setUpdateLptrs_below hinv4 horig4
    exact ⟨s5, kids4, chains, hs5, hinv4.flagged hflag⟩

/-! ## Sorting -/

theorem relink_spec {q : Option Ptr} (hnodup : l.Nodup) :
    Linked (relink s q l).next (relink s q l).prev q l.head? l none ∧ SameRest s (relink s q l) ∧
      (relink s q l).parent = s.parent ∧ (relink s q l).child = s.child ∧
      ∀ x, x ∉ l → (relink s q l).next x = s.next x ∧ (relink s q l).prev x = s.prev x := by
  induction l generalizing s q with
  | nil => exact ⟨rfl, SameRest.refl s, rfl, rfl, fun _ _ => ⟨rfl, rfl⟩⟩
  | cons a l ih =>
    obtain ⟨ha, hnodup⟩ := List.nodup_cons.mp hnodup
    obtain ⟨hlinked, hsame, hparent, hchild, hout⟩ :=
      ih (s := s.set a fun o => { o with ob_next := l.head?, ob_prev := q }) (q := some a) hnodup
    have hset : ∀ {β : Type} (g : Obj → β), (∀ o : Obj, g { o with ob_next := l.head?, ob_prev := q } =
        g o) → (fun x => g ((s.set a fun o => { o with ob_next := l.head?, ob_prev := q }).objs x)) =
          fun x => g (s.objs x) := by
      intro β g hg
      funext x
      change g (Function.update s.objs a _ x) = _
      by_cases hx : x = a
      · rw [hx, Function.update_self, hg]
      · rw [Function.update_of_ne hx]
    have hother : ∀ x, x ≠ a →
        (s.set a fun o => { o with ob_next := l.head?, ob_prev := q }).objs x = s.objs x :=
      fun x hx => Function.update_of_ne hx ..
    have hself : (s.set a fun o => { o with ob_next := l.head?, ob_prev := q }).objs a =
        { s.objs a with ob_next := l.head?, ob_prev := q } := Function.update_self ..
    obtain ⟨hnext, hprev⟩ := hout a ha
    refine ⟨⟨rfl, ?_, ?_⟩, ?_, ?_, ?_, ?_⟩
    · refine hprev.trans ?_
      unfold State.prev
      rw [hself]
    · rw [show (relink s q (a :: l)).next a = l.head? from hnext.trans (by
        unfold State.next
        rw [hself])]
      exact hlinked
    · exact ((SameRest.refl s).set rfl rfl rfl rfl).trans hsame
    · exact hparent.trans (hset (·.ob_parent) fun _ => rfl)
    · exact hchild.trans (hset (·.ob_child) fun _ => rfl)
    · intro x hx
      rw [List.mem_cons, not_or] at hx
      obtain ⟨hnext, hprev⟩ := hout x hx.2
      refine ⟨hnext.trans ?_, hprev.trans ?_⟩
      · unfold State.next
        rw [hother x hx.1]
      · unfold State.prev
        rw [hother x hx.1]

theorem sortChildren_spec {cmp : Nat → Nat → Int} (h : Inv s kids chains) (hin : InUse s code) :
    ∃ s' kids', sortChildren s code cmp = .ok s' ∧ Inv s' kids' chains := by
  obtain ⟨par, hpar⟩ := hin
  obtain ⟨s1, hs1, hcase, hinv, -, -⟩ := h.lookup hpar
  have hlive : s1.live par = true := by
    rcases hcase with rfl | rfl <;> exact hpar.1
  have hperm := sortList_perm (fun o1 o2 => cmp (s1.code o1) (s1.code o2)) (kids par)
    (kids par).length
  set sorted := sortList (fun o1 o2 => cmp (s1.code o1) (s1.code o2)) (kids par)
    (kids par).length with hsorted
  have hnodup : sorted.Nodup := hperm.nodup_iff.mpr (hinv.tree.nodup par hlive)
  set s2 := s1.set par fun o => { o with ob_child := sorted.head? } with hs2
  have hother : ∀ x, x ≠ par → s2.objs x = s1.objs x := fun x hx => Function.update_of_ne hx ..
  have hself : s2.objs par = { s1.objs par with ob_child := sorted.head? } := Function.update_self ..
  have hset : ∀ {β : Type} (g : Obj → β), (∀ o : Obj, g { o with ob_child := sorted.head? } = g o) →
      ∀ x, g (s2.objs x) = g (s1.objs x) := by
    intro β g hg x
    by_cases hx : x = par
    · rw [hx, hself, hg]
    · rw [hother x hx]
  obtain ⟨hlinked, hsame, hparent, hchild, hout⟩ := relink_spec (s := s2) (q := none) hnodup
  set s3 := relink s2 none sorted with hs3
  have hall : SameRest s1 s3 := ((SameRest.refl s1).set rfl rfl rfl rfl).trans hsame
  have hparent3 : s3.parent = s1.parent := by
    rw [hparent]
    exact funext (hset (·.ob_parent) fun _ => rfl)
  have hlinks : ∀ x, x ∉ sorted → s3.next x = s1.next x ∧ s3.prev x = s1.prev x := by
    intro x hx
    obtain ⟨hnext, hprev⟩ := hout x hx
    exact ⟨hnext.trans (hset (·.ob_next) (fun _ => rfl) x),
      hprev.trans (hset (·.ob_prev) (fun _ => rfl) x)⟩
  have hroot := hlinks Rootobj fun hc => hinv.root_not_kid hlive (hperm.mem_iff.mp hc)
  have hinv3 : Inv s3 (Function.update kids par sorted) chains := by
    refine ⟨?_, ?_, hinv.index.congr hall.Hashtab hall.hashes hall.used hall.live hall.code, ?_, ?_,
      ?_, ?_, ?_, hroot.1.trans hinv.root_next, hroot.2.trans hinv.root_prev⟩
    · change IsTree Rootobj (fun x => s3.live x = true) s3.parent _
      rw [hall.live, hparent3]
      refine hinv.tree.permute fun x hx => ?_
      by_cases hxp : x = par
      · rw [hxp, Function.update_self]
        exact hperm
      · rw [Function.update_of_ne hxp]
    · intro x hx
      rw [hall.live] at hx
      rw [hchild]
      by_cases hxp : x = par
      · rw [hxp, Function.update_self]
        unfold State.child
        rw [hself]
        exact hlinked
      · rw [Function.update_of_ne hxp]
        unfold State.child
        rw [hother x hxp]
        have hapart : ∀ y ∈ kids x, y ∉ sorted := fun y hy hc =>
          hxp (hinv.lined.apart x par y hx hlive hy (hperm.mem_iff.mp hc))
        exact (hinv.lists x hx).congr (fun y hy => (hlinks y (hapart y hy)).1)
          fun y hy => (hlinks y (hapart y hy)).2
    · intro x y hx hy hxy
      rw [hall.live] at hx hy
      rw [hall.code, hall.code] at hxy
      exact hinv.codes x y hx hy hxy
    · obtain ⟨nodes, hnodes, hlen⟩ := hinv.counted
      exact ⟨nodes, hall.live ▸ hnodes, hall.made ▸ hlen⟩
    · rw [hall.live, hall.Likely1]
      exact hinv.likely1
    · rw [hall.live, hall.Likely2]
      exact hinv.likely2
    · rw [hall.code]
      exact hinv.root_code
  obtain ⟨s4, hs4, hflag⟩ := setUpdateLptrs_spec (some par) fun o ho => by
    cases ho
    exact hinv3.bounded (hall.live ▸ hlive)
  refine ⟨s4, _, ?_, hinv3.flagged hflag⟩
  unfold sortChildren
  rw [hs1]
  change (children s1 s1.fuel (s1.child par)).bind _ = _
  rw [hinv.children hlive]
  exact hs4

/-! ## Asking for the code of a relative -/

/-- The object that `get_code` looks for. -/
def relative (s : State) (obj : Ptr) : Rel → Except Stop (Option Ptr)
  | .OBJ_PARENT => .ok (s.parent obj)
  | .OBJ_CHILD => .ok (s.child obj)
  | .OBJ_LAST_CHILD => lastChild s obj
  | .OBJ_NEXT => .ok (s.next obj)
  | .OBJ_PREV => .ok (s.prev obj)

/-- What `get_code` answers. -/
def answer (s : State) : Option Ptr → State × Option Nat
  | some res => (setLikely s res, some (s.code res))
  | none => (s, none)

theorem getCode_eq (s : State) (code : Nat) (rel : Rel) : getCode s code rel =
    (codeToObj s code).bind fun x => (relative x.1 x.2 rel).bind fun res =>
      .ok (answer x.1 res) := by
  unfold getCode
  cases codeToObj s code with
  | error _ => rfl
  | ok x =>
    cases rel <;> simp only [relative, bind, Except.bind]
    · cases x.1.parent x.2 <;> rfl
    · cases x.1.child x.2 <;> rfl
    · cases lastChild x.1 x.2 with
      | error _ => rfl
      | ok res => cases res <;> rfl
    · cases x.1.next x.2 <;> rfl
    · cases x.1.prev x.2 <;> rfl

theorem getCode_spec (rel : Rel) (h : Inv s kids chains) (hin : InUse s code) :
    ∃ s' res, getCode s code rel = .ok (s', res) ∧ Inv s' kids chains := by
  obtain ⟨o, ho⟩ := hin
  obtain ⟨s1, hs1, hcase, hinv, -, -⟩ := h.lookup ho
  have hlive : s1.live o = true := by
    rcases hcase with rfl | rfl <;> exact ho.1
  have hmem : ∀ c ∈ kids o, s1.live c = true := fun c hc => hinv.tree.mem_of_kid hlive hc
  -- A sibling is live, as the parent of the object has it among its children
  have hsibling : ∀ c, s1.next o = some c ∨ s1.prev o = some c → s1.live c = true := by
    intro c hc
    by_cases hroot : o = Rootobj
    · rw [hroot, hinv.root_next, hinv.root_prev] at hc
      rcases hc with hc | hc <;> cases hc
    · obtain ⟨p, -, hp, hkid⟩ := hinv.beside hlive hroot
      rcases hc with hc | hc
      · exact hinv.tree.mem_of_kid hp ((hinv.lists p hp).next_prev hkid hc).1
      · exact hinv.tree.mem_of_kid hp ((hinv.lists p hp).prev_next hkid hc).1
  have hres : ∃ res, relative s1 o rel = .ok res ∧ ∀ c, res = some c → s1.live c = true := by
    cases rel with
    | OBJ_PARENT => exact ⟨_, rfl, fun c hc => hinv.tree.parent_mem o c hlive hc⟩
    | OBJ_CHILD =>
      refine ⟨_, rfl, fun c hc => hmem c ?_⟩
      rw [(hinv.lists o hlive).first] at hc
      exact List.mem_of_head? hc
    | OBJ_LAST_CHILD => exact ⟨_, hinv.lastChild hlive, fun c hc => hmem c (List.mem_of_getLast? hc)⟩
    | OBJ_NEXT => exact ⟨_, rfl, fun c hc => hsibling c (Or.inl hc)⟩
    | OBJ_PREV => exact ⟨_, rfl, fun c hc => hsibling c (Or.inr hc)⟩
  obtain ⟨res, hres, hlives⟩ := hres
  rw [getCode_eq, hs1]
  dsimp only [Except.bind]
  rw [hres]
  dsimp only
  cases res with
  | none => exact ⟨s1, none, rfl, hinv⟩
  | some c => exact ⟨_, _, rfl, hinv.setLikely (hlives c rfl)⟩

/-! ## Runs -/

/-- The index before the root is entered. -/
theorem index_empty (hnone : ∀ i, s.Hashtab i = none) (hlive : ∀ o, s.live o = false) :
    Index s fun _ => [] where
  path := hnone
  nodup := fun _ => List.nodup_nil
  used := fun _ _ hn => absurd hn List.not_mem_nil
  entry := fun _ _ hn => absurd hn List.not_mem_nil
  once := fun _ => List.nodup_nil
  all := by
    intro o ho
    rw [hlive] at ho
    exact Bool.noConfusion ho

theorem initObjects_root (od : Int → Odesc) (memory : Ptr → Obj) (hash : Ptr) :
    (initObjects od memory hash).objs Rootobj =
      ⟨none, none, none, none, 0, -1, (od (-1)).od_flags, false, false⟩ :=
  Function.update_self Rootobj _ memory

theorem initObjects_inv (od : Int → Odesc) (memory : Ptr → Obj) (hash : Ptr) :
    ∃ chains, Inv (initObjects od memory hash) (fun _ => []) chains := by
  set s := initObjects od memory hash with hs
  have hroot := initObjects_root od memory hash
  rw [← hs] at hroot
  have hlive : ∀ o, s.live o = true ↔ o = Rootobj := fun o => beq_iff_eq
  have hempty := index_empty (s := { s with
    live := fun _ => false
    Hashtab := fun _ => none
    hashes := fun _ => ⟨Rootobj, none⟩
    used := fun _ => false }) (fun _ => rfl) fun _ => rfl
  have hindex : Index s (Function.update (fun _ => []) (HASH 0) [hash]) := by
    refine hempty.enter _ rfl rfl rfl rfl rfl ?_ ?_ fun _ _ => rfl
    · funext o
      change (o == Rootobj) = Function.update (fun _ => false) Rootobj true o
      by_cases ho : o = Rootobj
      · rw [ho, Function.update_self, beq_self_eq_true]
      · rw [Function.update_of_ne ho, beq_eq_false_iff_ne.mpr ho]
    · unfold State.code
      rw [hroot]
  refine ⟨_, ⟨?_, ?_, ?_, ?_, ?_, ?_⟩, ?_, hindex, ?_, ⟨[Rootobj], ?_, Nat.le_refl _⟩,
    (hlive _).mpr rfl, (hlive _).mpr rfl, ?_, ?_, ?_⟩
  · exact (hlive _).mpr rfl
  · unfold State.parent
    rw [hroot]
  · intro o p ho hp
    rw [(hlive o).mp ho] at hp
    unfold State.parent at hp
    rw [hroot] at hp
    cases hp
  · intro p _ o
    refine iff_of_false List.not_mem_nil ?_
    rintro ⟨ho, hp⟩
    rw [(hlive o).mp ho] at hp
    unfold State.parent at hp
    rw [hroot] at hp
    cases hp
  · exact fun _ _ => List.nodup_nil
  · intro o ho
    rw [(hlive o).mp ho]
  · intro p hp
    rw [(hlive p).mp hp]
    change s.child Rootobj = none
    unfold State.child
    rw [hroot]
  · intro o o' ho ho' _
    rw [(hlive o).mp ho, (hlive o').mp ho']
  · intro o ho
    rw [(hlive o).mp ho]
    exact List.mem_singleton_self _
  · unfold State.code
    rw [hroot]
  · unfold State.next
    rw [hroot]
  · unfold State.prev
    rw [hroot]

/-- A call that may be made, on objects that are as they should be, comes back with such objects. -/
theorem exec_spec (od : Int → Odesc) (op : Op) (h : Inv s kids chains) (hlegal : Legal s op)
    (hmeets : Meets s op) : ∃ s' kids' chains', op.exec od s = .ok s' ∧ Inv s' kids' chains' := by
  cases op with
  | newObject obj hash code type poscode wh => exact newObject_spec h hlegal
  | moveObject code poscode wh => exact moveObject_spec h hlegal
  | removeObject code which =>
    obtain ⟨s', kids', chains', res, hs', hinv⟩ := removeObject_spec h hlegal hmeets
    refine ⟨s', kids', chains', ?_, hinv⟩
    change (removeObject s code which).bind _ = _
    rw [hs']
    rfl
  | sortChildren parcode cmp =>
    obtain ⟨s', kids', hs', hinv⟩ := sortChildren_spec h hlegal
    exact ⟨s', kids', chains, hs', hinv⟩
  | getCode code rel =>
    obtain ⟨s', res, hs', hinv⟩ := getCode_spec rel h hlegal
    refine ⟨s', kids, chains, ?_, hinv⟩
    change (getCode s code rel).bind _ = _
    rw [hs']
    rfl

theorem inv_of_reaches (h : Reaches od s) : ∃ kids chains, Inv s kids chains := by
  induction h with
  | init memory hash =>
    obtain ⟨chains, hinv⟩ := initObjects_inv od memory hash
    exact ⟨_, chains, hinv⟩
  | @call s s' op _ legal meets step ih =>
    obtain ⟨kids, chains, hinv⟩ := ih
    obtain ⟨s1, kids', chains', hs1, hinv'⟩ := exec_spec od op hinv legal meets
    obtain rfl : s1 = s' := Except.ok.inj (hs1.symm.trans step)
    exact ⟨kids', chains', hinv'⟩

theorem Inv.finds (h : Inv s kids chains) : Finds s := by
  intro code
  refine ⟨fun o ho => ?_, codeToObj_none h.index h.counted h.likely1 h.likely2⟩
  obtain ⟨s', hs', -⟩ := h.lookup ho
  exact ⟨s', hs'⟩

/-- After any calls, as long as no object that is in both places of the cache is removed for itself,
the objects are one tree, and a code leads to the live object that has it and to no other. -/
theorem the_tree_and_the_index_are_kept (h : Reaches od s) : TreeLinked s ∧ Finds s ∧
    ∀ op, Legal s op → Meets s op → ∃ s', op.exec od s = .ok s' := by
  obtain ⟨kids, chains, hinv⟩ := inv_of_reaches h
  refine ⟨⟨kids, hinv.tree, hinv.lists⟩, hinv.finds, ?_⟩
  intro op legal meets
  obtain ⟨s', -, -, hs', -⟩ := exec_spec od op hinv legal meets
  exact ⟨s', hs'⟩

/-! ### An object that is removed while it is in both places of the cache -/

/-- One type of objects. -/
def oneType : Int → Odesc := fun _ => ⟨1, 1, 0, ⟨false, false, false⟩⟩

def noMemory : Ptr → Obj := fun _ =>
  ⟨none, none, none, none, 0, 0, ⟨false, false, false⟩, false, false⟩

/-- The state that a call leaves. -/
def after (s : State) (op : Op) : State :=
  match op.exec oneType s with
  | .ok s' => s'
  | .error _ => s

/-- The root with one object below it. -/
def oneObject : State :=
  after (initObjects oneType noMemory 9) (.newObject 1 10 8 0 0 .OBJ_CHILD)

theorem oneObject_legal :
    Legal (initObjects oneType noMemory 9) (.newObject 1 10 8 0 0 .OBJ_CHILD) := by
  refine ⟨rfl, rfl, ?_, ⟨0, rfl, rfl⟩, by simp⟩
  rintro ⟨o, ho, hcode⟩
  have hroot : o = Rootobj := beq_iff_eq.mp ho
  rw [hroot] at hcode
  exact absurd hcode (by decide)

theorem an_object_below_the_root_is_found : TreeLinked oneObject ∧ Finds oneObject ∧
    ∀ op, Legal oneObject op → Meets oneObject op → ∃ s', op.exec oneType oneObject = .ok s' :=
  the_tree_and_the_index_are_kept
    (.call (.newObject 1 10 8 0 0 .OBJ_CHILD) (.init noMemory 9) oneObject_legal trivial rfl)

/-- The child of the root is asked for, and is then in both places of the cache. The lookup of its
code leads to it when it has been removed. -/
theorem an_object_is_found_after_its_removal :
    ∃ s1 s2 s3, Legal (initObjects oneType noMemory 9) (.newObject 1 10 8 0 0 .OBJ_CHILD) ∧
      (Op.newObject 1 10 8 0 0 .OBJ_CHILD).exec oneType (initObjects oneType noMemory 9) = .ok s1 ∧
      Legal s1 (.getCode 0 .OBJ_CHILD) ∧ (Op.getCode 0 .OBJ_CHILD).exec oneType s1 = .ok s2 ∧
      Legal s2 (.removeObject 8 .OBJ_SELF) ∧
      (Op.removeObject 8 .OBJ_SELF).exec oneType s2 = .ok s3 ∧
      s3.live 1 = false ∧ codeToObj s3 8 = .ok (s3, 1) ∧ ¬Finds s3 := by
  refine ⟨oneObject, after oneObject (.getCode 0 .OBJ_CHILD),
    after (after oneObject (.getCode 0 .OBJ_CHILD)) (.removeObject 8 .OBJ_SELF), oneObject_legal,
    rfl, ⟨0, rfl, rfl⟩, rfl, ⟨1, rfl, rfl⟩, rfl, rfl, rfl, ?_⟩
  intro hfinds
  have hnone := (hfinds 8).2 ?_
  · cases hnone
  · rintro ⟨o, ho, hcode⟩
    change Function.update (Function.update (fun o => o == Rootobj) 1 true) 1 false o = true at ho
    by_cases h1 : o = 1
    · rw [h1, Function.update_self] at ho
      exact Bool.noConfusion ho
    · rw [Function.update_of_ne h1, Function.update_of_ne h1] at ho
      have hroot : o = Rootobj := beq_iff_eq.mp ho
      rw [hroot] at hcode
      exact absurd hcode (by decide)

end ups_rules.obj_tree
