-- Iterating over a hash table (hash_apply in hash.c) with a callback that changes the table under it.
-- The changes rely on a record of the node it is at and of the one in front.
import Ups.HashRuns

open node_arena

namespace ups_rules.hash_tab

/-! ## The pure model -/

/-- What the callback does with the table. -/
inductive Op
  | hash_lookup_key (key : Key) (hv : Hashvalues)
  | hash_lookup (key : Key)
  | hash_enter_key (key : Key)
  | hash_enter (key : Key) (value : Ptr)
  | hash_delete (key : Key) (value : Ptr)
  | hash_delete_key (key : Key)

def Op.exec (m : Memory) (ht : Hashtab) : Op → Option (Memory × Hashtab)
  | .hash_lookup_key key hv => (hashLookupKey m ht key hv).map fun _ => (m, ht)
  | .hash_lookup key => (hashLookup m ht key).map fun _ => (m, ht)
  | .hash_enter_key key => hashEnterKey m ht key
  | .hash_enter key value => hashEnter m ht key value
  | .hash_delete key value => hashDelete m ht key value
  | .hash_delete_key key => hashDeleteKey m ht key

def execOps (m : Memory) (ht : Hashtab) : List Op → Option (Memory × Hashtab)
  | [] => some (m, ht)
  | op :: ops => (op.exec m ht).bind fun (m, ht) => execOps m ht ops

/-- `hash_apply` in front of a call of the callback, with the node that it is at. -/
structure Iter where
  memory : Memory
  tab : Hashtab
  hv : Hashvalues
  pos : Nat
  ha : Ptr

/-- What the callback is called with. -/
structure Visit where
  key : Key
  values : List Ptr

/-- The outer loop, with so many chains to go, up to one that has a node. -/
def seek (ht : Hashtab) : Nat → Nat → Hashtab × Nat × Ptr
  | 0, pos => (ht, pos, none)
  | left + 1, pos =>
    let ht := { ht with ht_qhash := { ht.ht_qhash with qh_pos := pos, qh_prev := none } }
    match ht.ht_tab pos with
    | some a => (ht, pos, some a)
    | none => seek ht left (pos + 1)

def Iter.start (m : Memory) (ht : Hashtab) (hv : Hashvalues) : Iter :=
  let (ht, pos, ha) := seek ht ht.ht_size 0
  ⟨m, ht, hv, pos, ha⟩

/-- `ht_qkey` and `qh_hash` for the call at a node. -/
def quickTab (m : Memory) (ht : Hashtab) (a : Nat) : Hashtab :=
  { ht with
    ht_qkey := some (m.hashes.node a).ha_key.addr
    ht_qhash := { ht.ht_qhash with qh_hash := some a } }

/-- One turn of the inner loop, and the outer one where the chain ends. -/
def Iter.step (it : Iter) (ops : List Op) : Option (Visit × Iter) :=
  match it.ha with
  | none => none
  | some a =>
    let next := haNext it.memory.hashes a
    (copyValues it.memory.vlists (it.memory.hashes.node a) it.hv).bind fun hv =>
      (execOps it.memory (quickTab it.memory it.tab a) ops).map fun (m, ht) =>
        let visit : Visit := ⟨(it.memory.hashes.node a).ha_key, hv.values⟩
        let ht :=
          if haNext m.hashes a = next then
            { ht with ht_qhash := { ht.ht_qhash with qh_prev := some a } }
          else ht
        match next with
        | some b => (visit, ⟨m, ht, hv, it.pos, some b⟩)
        | none =>
          let (ht, pos, ha) := seek ht (ht.ht_size - (it.pos + 1)) (it.pos + 1)
          (visit, ⟨m, ht, hv, pos, ha⟩)

/-- So many turns; `func n` is what the callback does when it is called after `n` calls. -/
def Iter.runs (func : Nat → List Op) (it : Iter) : Nat → Option (List Visit × Iter)
  | 0 => some ([], it)
  | n + 1 =>
    (it.runs func n).bind fun (visits, it) =>
      (it.step (func n)).map fun (visit, it) => (visits ++ [visit], it)

/-- A table as `hash_apply` leaves it, without a record. -/
def bare (ht : Hashtab) : Hashtab := { ht with ht_qkey := none, ht_qhash := ⟨none, none, 0⟩ }

/-! ## What the callback's calls mean -/

def Op.key : Op → Key
  | .hash_lookup_key key _ => key
  | .hash_lookup key => key
  | .hash_enter_key key => key
  | .hash_enter key _ => key
  | .hash_delete key _ => key
  | .hash_delete_key key => key

/-- What a call makes of the entry of its key. -/
def Op.onEntry (e : Entry) : Op → Entry
  | .hash_lookup_key _ _ => e
  | .hash_lookup _ => e
  | .hash_enter_key _ => some (e.getD [])
  | .hash_enter _ value => e.enter value
  | .hash_delete _ value => e.delete value
  | .hash_delete_key _ => none

def Op.onEntries (t : Nat) (E : Entries) (op : Op) : Entries :=
  E.set t op.key.bytes (op.onEntry (E t op.key.bytes))

def opsOnEntries (t : Nat) (E : Entries) (ops : List Op) : Entries := ops.foldl (Op.onEntries t) E

/-- The entries after so many calls of the callback. -/
def entriesAfter (t : Nat) (E : Entries) (func : Nat → List Op) : Nat → Entries
  | 0 => E
  | n + 1 => opsOnEntries t (entriesAfter t E func n) (func n)

/-- Values and keys are deleted only if they are there, and only those of the visited key. -/
def Op.Legal (t : Nat) (visited : List (BitVec 8)) (E : Entries) : Op → Prop
  | .hash_delete key value => key.bytes = visited ∧ value ∈ (E t key.bytes).getD []
  | .hash_delete_key key => key.bytes = visited ∧ E t key.bytes ≠ none
  | _ => True

def OpsLegal (t : Nat) (visited : List (BitVec 8)) : Entries → List Op → Prop
  | _, [] => True
  | E, op :: ops => op.Legal t visited E ∧ OpsLegal t visited (op.onEntries t E) ops

/-- A call that takes the node out of its chain. -/
def Op.Unlinks (node : Hash) : Op → Prop
  | .hash_delete _ _ => node.ha_nvalues = 1
  | .hash_delete_key _ => True
  | _ => False

/-- A call with the pointer of the visited key, which is answered from the record: that has the node
of the call's key, and for a node that goes also its chain and the node in front. -/
def Op.Agrees (m : Memory) (ht : Hashtab) (op : Op) : Prop :=
  some op.key.addr = ht.ht_qkey →
    ∃ a pos prev, ht.ht_qhash.qh_hash = some a ∧
      findHash m.hashes (bare ht) op.key = some (some a, pos, prev) ∧
        (op.Unlinks (m.hashes.node a) → pos = ht.ht_qhash.qh_pos ∧ prev = ht.ht_qhash.qh_prev)

def OpsAgree (m : Memory) (ht : Hashtab) : List Op → Prop
  | [] => True
  | op :: ops => op.Agrees m ht ∧ ∀ m' ht', op.exec m ht = some (m', ht') → OpsAgree m' ht' ops

/-- Each call of the callback deletes only what it may delete, and the record is right for what it
does. -/
def Careful (t : Nat) (E : Entries) (start : Iter) (func : Nat → List Op) : Prop :=
  ∀ n visits it a, start.runs func n = some (visits, it) → it.ha = some a →
    OpsLegal t (keyOf it.memory a) (entriesAfter t E func n) (func n) ∧
      OpsAgree it.memory (quickTab it.memory it.tab a) (func n)

variable {m m' : Memory} {tabs : List Hashtab} {E E' : Entries} {ht ht' : Hashtab} {op : Op}
  {chains chains' : Option (Nat × Nat) → List Nat} {lists : Option Nat → List Nat} {t a : Nat}
  {visited : List (BitVec 8)}

/-! ## The record -/

theorem deleteHash_bare (has : Nodes Hash) (ht : Hashtab) (pos : Nat) (prev : Ptr) (a : Nat) :
    deleteHash has (bare ht) pos prev a =
      (deleteHash has ht pos prev a).map fun r => (r.1, bare r.2) := by
  unfold deleteHash
  split
  · rfl
  · cases prev <;> rfl

theorem deleteHash_size {has has' : Nodes Hash} {pos : Nat} {prev : Ptr}
    (h : deleteHash has ht pos prev a = some (has', ht')) : ht'.ht_size = ht.ht_size := by
  unfold deleteHash at h
  split at h
  · cases h
  · cases prev with
    | none =>
      obtain ⟨-, rfl⟩ := Prod.mk.inj (Option.some.inj h)
      rfl
    | some p =>
      obtain ⟨-, rfl⟩ := Prod.mk.inj (Option.some.inj h)
      rfl

theorem deleteValue_last {vls vls' : Nodes Vlist} {ha ha' : Hash} {value : Ptr}
    (h : deleteValue vls ha value = some (vls', ha')) (hzero : ha'.ha_nvalues = 0) :
    ha.ha_nvalues = 1 := by
  by_contra hne
  by_cases hnone : ha.ha_nvalues = 0
  · rw [deleteValue, if_pos hnone] at h
    cases h
  have hmany : 2 ≤ ha.ha_nvalues := by omega
  cases hfound : search (vlNext vls) (fun vl => (vls.node vl).vl_value == value) (vls.count + 1)
      ha.ha_u none with
  | none =>
    rw [deleteValue, if_neg hnone, if_neg hne, hfound] at h
    cases h
  | some r =>
    obtain ⟨vl, prev⟩ := r
    cases vl with
    | none =>
      rw [deleteValue, if_neg hnone, if_neg hne, hfound] at h
      cases h
    | some vl =>
      rw [deleteValue_many hmany hfound] at h
      dsimp only at h
      split at h
      · split at h
        · cases h
        · obtain ⟨-, rfl⟩ := Prod.mk.inj (Option.some.inj h)
          cases hzero
      · obtain ⟨-, rfl⟩ := Prod.mk.inj (Option.some.inj h)
        dsimp only at hzero
        omega

/-- A call does without the record what it does with it, if the two find the same. -/
theorem exec_bare {node : Ptr} {pos pos' : Nat} {prev prev' : Ptr}
    (hfind : findHash m.hashes ht op.key = some (node, pos, prev))
    (hbare : findHash m.hashes (bare ht) op.key = some (node, pos', prev'))
    (hsame : (pos = pos' ∧ prev = prev') ∨
      ∃ a, node = some a ∧ ¬op.Unlinks (m.hashes.node a)) :
    op.exec m (bare ht) = (op.exec m ht).map fun r => (r.1, bare r.2) := by
  cases op with
  | hash_lookup_key key hv =>
    simp only [Op.key] at hfind hbare
    simp only [Op.exec, hashLookupKey, hfind, hbare]
    cases node with
    | none => rfl
    | some a =>
      dsimp only
      cases copyValues m.vlists (m.hashes.node a) hv <;> rfl
  | hash_lookup key =>
    simp only [Op.key] at hfind hbare
    have hsame : hashLookup m (bare ht) key = hashLookup m ht key := by
      rw [hashLookup, hashLookup, hfind, hbare]
      cases node <;> rfl
    rw [Op.exec, Op.exec, hsame, Option.map_map]
    rfl
  | hash_enter_key key =>
    simp only [Op.key] at hfind hbare
    simp only [Op.exec, hashEnterKey, hfind, hbare]
    cases node with
    | some a => rfl
    | none =>
      obtain ⟨rfl, rfl⟩ := hsame.resolve_right (by rintro ⟨a, ha, -⟩; cases ha)
      rfl
  | hash_enter key value =>
    simp only [Op.key] at hfind hbare
    simp only [Op.exec, hashEnter, hfind, hbare]
    cases node with
    | some a => rfl
    | none =>
      obtain ⟨rfl, rfl⟩ := hsame.resolve_right (by rintro ⟨a, ha, -⟩; cases ha)
      rfl
  | hash_delete key value =>
    simp only [Op.key] at hfind hbare
    simp only [Op.exec, hashDelete, hfind, hbare]
    cases node with
    | none => rfl
    | some a =>
      dsimp only
      cases hdelete : deleteValue m.vlists (m.hashes.node a) value with
      | none => rfl
      | some r =>
        obtain ⟨vlists, node⟩ := r
        dsimp only
        by_cases hzero : node.ha_nvalues = 0
        · rw [if_pos hzero, if_pos hzero]
          have hone : (m.hashes.node a).ha_nvalues = 1 := deleteValue_last hdelete hzero
          obtain ⟨rfl, rfl⟩ := hsame.resolve_right (by
            rintro ⟨b, hb, hnot⟩
            obtain rfl := Option.some.inj hb
            exact hnot hone)
          rw [deleteHash_bare, Option.map_map, Option.map_map]
          rfl
        · rw [if_neg hzero, if_neg hzero]
          rfl
  | hash_delete_key key =>
    simp only [Op.key] at hfind hbare
    simp only [Op.exec, hashDeleteKey, hfind, hbare]
    cases node with
    | none => rfl
    | some a =>
      dsimp only
      cases deleteAllValues m.vlists (m.hashes.node a) with
      | none => rfl
      | some r =>
        obtain ⟨vlists, node⟩ := r
        dsimp only
        obtain ⟨rfl, rfl⟩ := hsame.resolve_right (by
          rintro ⟨b, hb, hnot⟩
          exact hnot trivial)
        rw [deleteHash_bare, Option.map_map, Option.map_map]
        rfl

/-! ## The callback's calls -/

theorem Moved.refl (gone : List (BitVec 8) → Prop) (m : Memory)
    (chains : Option (Nat × Nat) → List Nat) : Moved gone m m chains chains :=
  fun _ _ hrest _ => ⟨hrest, fun _ _ => rfl⟩

theorem Moved.mono {gone gone' : List (BitVec 8) → Prop} (h : Moved gone m m' chains chains')
    (hgone : ∀ bytes, gone bytes → gone' bytes) : Moved gone' m m' chains chains' :=
  fun i rest hrest hnot => h i rest hrest fun b hb hc => hnot b hb (hgone _ hc)

theorem Next.mono {gone gone' : List (BitVec 8) → Prop} (h : Next gone m chains m' tabs E)
    (hgone : ∀ bytes, gone bytes → gone' bytes) : Next gone' m chains m' tabs E :=
  let ⟨chains', lists', hwf, hmoved⟩ := h
  ⟨chains', lists', hwf, hmoved.mono hgone⟩

/-- A call of the callback on a table without a record. -/
theorem exec_spec (h : Wf m tabs E chains lists) (hht : tabs[t]? = some ht)
    (hlegal : op.Legal t visited E) :
    ∃ m' ht', op.exec m ht = some (m', ht') ∧
      Next (· = visited) m chains m' (tabs.set t ht') (op.onEntries t E) := by
  cases op with
  | hash_lookup_key key hv =>
    obtain ⟨hv', hlookup, -⟩ := hashLookupKey_spec ⟨chains, lists, h⟩ hht key hv
    refine ⟨m, ht, ?_, ?_⟩
    · rw [Op.exec, hlookup]
      rfl
    · rw [set_same hht, Op.onEntries]
      exact ⟨chains, lists, by rw [Op.onEntry, E.set_entry]; exact h, Moved.refl _ m chains⟩
  | hash_lookup key =>
    have hlookup := hashLookup_spec ⟨chains, lists, h⟩ hht key
    refine ⟨m, ht, ?_, ?_⟩
    · rw [Op.exec, hlookup]
      rfl
    · rw [set_same hht, Op.onEntries]
      exact ⟨chains, lists, by rw [Op.onEntry, E.set_entry]; exact h, Moved.refl _ m chains⟩
  | hash_enter_key key =>
    obtain ⟨m', ht', hrun, hnext⟩ := hashEnterKey_spec h hht key
    exact ⟨m', ht', hrun, hnext.mono fun _ hc => hc.elim⟩
  | hash_enter key value =>
    obtain ⟨m', ht', hrun, hnext⟩ := hashEnter_spec h hht key value
    exact ⟨m', ht', hrun, hnext.mono fun _ hc => hc.elim⟩
  | hash_delete key value =>
    obtain ⟨m', ht', hrun, hnext⟩ := hashDelete_spec h hht hlegal.2
    exact ⟨m', ht', hrun, hnext.mono fun _ hc => hc.trans hlegal.1⟩
  | hash_delete_key key =>
    obtain ⟨m', ht', hrun, hnext⟩ := hashDeleteKey_spec h hht hlegal.2
    exact ⟨m', ht', hrun, hnext.mono fun _ hc => hc.trans hlegal.1⟩

theorem addHash_size (has : Nodes Hash) (ht : Hashtab) (pos : Nat) (key : Key) :
    (addHash has ht pos key).2.1.ht_size = ht.ht_size := rfl

/-- No call changes the number of chains. -/
theorem exec_size (h : op.exec m ht = some (m', ht')) : ht'.ht_size = ht.ht_size := by
  cases op with
  | hash_lookup_key key hv =>
    obtain ⟨_, -, heq⟩ := Option.map_eq_some_iff.mp h
    rw [← (Prod.mk.inj heq).2]
  | hash_lookup key =>
    obtain ⟨_, -, heq⟩ := Option.map_eq_some_iff.mp h
    rw [← (Prod.mk.inj heq).2]
  | hash_enter_key key =>
    simp only [Op.exec, hashEnterKey] at h
    split at h
    · cases h
    · rw [← (Prod.mk.inj (Option.some.inj h)).2]
    · rw [← (Prod.mk.inj (Option.some.inj h)).2, addHash_size]
  | hash_enter key value =>
    simp only [Op.exec, hashEnter] at h
    split at h
    · cases h
    · rw [← (Prod.mk.inj (Option.some.inj h)).2]
    · rw [← (Prod.mk.inj (Option.some.inj h)).2, addHash_size]
  | hash_delete key value =>
    simp only [Op.exec, hashDelete] at h
    split at h
    · split at h
      · cases h
      · split at h
        · obtain ⟨r, hr, heq⟩ := Option.map_eq_some_iff.mp h
          rw [← (Prod.mk.inj heq).2]
          exact deleteHash_size hr
        · rw [← (Prod.mk.inj (Option.some.inj h)).2]
    · cases h
  | hash_delete_key key =>
    simp only [Op.exec, hashDeleteKey] at h
    split at h
    · split at h
      · cases h
      · obtain ⟨r, hr, heq⟩ := Option.map_eq_some_iff.mp h
        rw [← (Prod.mk.inj heq).2]
        exact deleteHash_size hr
    · cases h

theorem tabs_get (hlt : t < tabs.length) (ht : Hashtab) : (tabs.set t ht)[t]? = some ht :=
  List.getElem?_set_self hlt

/-- A call with a record that is right for it does what it does without one. -/
theorem op_spec (h : Wf m (tabs.set t (bare ht)) E chains lists) (hlt : t < tabs.length)
    (hlegal : op.Legal t visited E) (hagrees : op.Agrees m ht) :
    ∃ m' ht', op.exec m ht = some (m', ht') ∧ ht'.ht_size = ht.ht_size ∧
      Next (· = visited) m chains m' (tabs.set t (bare ht')) (op.onEntries t E) := by
  have hht := tabs_get hlt (bare ht)
  obtain ⟨m', ht1, hrun, hnext⟩ := exec_spec h hht hlegal
  rw [List.set_set] at hnext
  have hbare : op.exec m (bare ht) = (op.exec m ht).map fun r => (r.1, bare r.2) := by
    by_cases hquick : some op.key.addr = ht.ht_qkey
    · obtain ⟨a, pos, prev, ha, hfind, hunlinks⟩ := hagrees hquick
      have hrecord : findHash m.hashes ht op.key =
          some (some a, ht.ht_qhash.qh_pos, ht.ht_qhash.qh_prev) := by
        rw [findHash, if_pos hquick, ha]
      refine exec_bare hrecord hfind ?_
      by_cases hu : op.Unlinks (m.hashes.node a)
      · exact Or.inl ⟨(hunlinks hu).1.symm, (hunlinks hu).2.symm⟩
      · exact Or.inr ⟨a, rfl, hu⟩
    · have hsame : findHash m.hashes ht op.key = findHash m.hashes (bare ht) op.key := by
        have hbare : ¬some op.key.addr = (bare ht).ht_qkey := Option.some_ne_none _
        rw [findHash, findHash, if_neg hquick, if_neg hbare]
        rfl
      rcases findHash_spec h hht op.key with ⟨l1, a, l2, -, -, hfound⟩ | ⟨-, prev, hfound⟩
      · exact exec_bare (hsame.trans hfound) hfound (Or.inl ⟨rfl, rfl⟩)
      · exact exec_bare (hsame.trans hfound) hfound (Or.inl ⟨rfl, rfl⟩)
  rw [hbare] at hrun
  obtain ⟨⟨m2, ht'⟩, hexec, heq⟩ := Option.map_eq_some_iff.mp hrun
  obtain ⟨rfl, rfl⟩ := Prod.mk.inj heq
  exact ⟨m2, ht', hexec, exec_size hexec, hnext⟩

/-- Of two changes, the second one finds what the first one left. -/
theorem Moved.next {gone : List (BitVec 8) → Prop} {m2 : Memory}
    (h : Moved gone m m' chains chains') (h' : Next gone m' chains' m2 tabs E) :
    Next gone m chains m2 tabs E := by
  obtain ⟨chains2, lists2, hwf, hmoved⟩ := h'
  refine ⟨chains2, lists2, hwf, fun i rest hrest hnot => ?_⟩
  obtain ⟨hrest', hkeys⟩ := h i rest hrest hnot
  obtain ⟨hrest2, hkeys2⟩ := hmoved i rest hrest' fun b hb => by
    rw [hkeys b hb]
    exact hnot b hb
  exact ⟨hrest2, fun b hb => (hkeys2 b hb).trans (hkeys b hb)⟩

/-- All the calls of one visit. -/
theorem ops_spec {ops : List Op} (h : Wf m (tabs.set t (bare ht)) E chains lists)
    (hlt : t < tabs.length) (hlegal : OpsLegal t visited E ops) (hagree : OpsAgree m ht ops) :
    ∃ m' ht', execOps m ht ops = some (m', ht') ∧ ht'.ht_size = ht.ht_size ∧
      Next (· = visited) m chains m' (tabs.set t (bare ht')) (opsOnEntries t E ops) := by
  induction ops generalizing m ht E chains lists with
  | nil => exact ⟨m, ht, rfl, rfl, chains, lists, h, Moved.refl _ m chains⟩
  | cons op ops ih =>
    obtain ⟨m1, ht1, hexec, hsize, chains1, lists1, hwf, hmoved⟩ :=
      op_spec h hlt hlegal.1 hagree.1
    obtain ⟨m2, ht2, hrun, hsize2, hnext⟩ := ih hwf hlegal.2 (hagree.2 m1 ht1 hexec)
    refine ⟨m2, ht2, ?_, hsize2.trans hsize, hmoved.next hnext⟩
    rw [execOps, hexec]
    exact hrun

theorem onEntry_none_iff {e : Entry} (hlegal : ∀ key value, op ≠ .hash_delete key value)
    (hkey : ∀ key, op ≠ .hash_delete_key key) (h : e ≠ none) : op.onEntry e ≠ none := by
  cases op with
  | hash_lookup_key key hv => exact h
  | hash_lookup key => exact h
  | hash_enter_key key => exact Option.some_ne_none _
  | hash_enter key value => exact Option.some_ne_none _
  | hash_delete key value => exact absurd rfl (hlegal key value)
  | hash_delete_key key => exact absurd rfl (hkey key)

/-- Only the visited key goes. -/
theorem onEntries_kept (hlegal : op.Legal t visited E) {bytes : List (BitVec 8)}
    (hne : bytes ≠ visited) (h : E t bytes ≠ none) : op.onEntries t E t bytes ≠ none := by
  rw [Op.onEntries]
  by_cases hsame : op.key.bytes = bytes
  · subst hsame
    rw [Entries.set_self]
    refine onEntry_none_iff ?_ ?_ h
    · rintro key value rfl
      exact hne hlegal.1
    · rintro key rfl
      exact hne hlegal.1
  · rwa [Entries.set_of_ne _ _ fun hc => hsame hc.2]

theorem opsOnEntries_kept {ops : List Op} (hlegal : OpsLegal t visited E ops)
    {bytes : List (BitVec 8)} (hne : bytes ≠ visited) (h : E t bytes ≠ none) :
    opsOnEntries t E ops t bytes ≠ none := by
  induction ops generalizing E with
  | nil => exact h
  | cons op ops ih => exact ih hlegal.2 (onEntries_kept hlegal.1 hne h)

/-! ## The walk -/

/-- A table may be given another record. -/
theorem Wf.retab (h : Wf m tabs E chains lists) (hht : tabs[t]? = some ht)
    (htab : ht'.ht_tab = ht.ht_tab) (hsize : ht'.ht_size = ht.ht_size)
    (hquick : ht'.ht_qkey = none) : Wf m (tabs.set t ht') E chains lists := by
  refine ⟨h.arena, h.free, h.values, ?_, ?_, ?_, h.keylen, h.distinct, h.holds, h.here, h.idle⟩
  · intro t2 h2 hh2 pos
    rcases (tabs_set hht _ h2 t2).mp hh2 with ⟨rfl, rfl⟩ | ⟨-, hh2⟩
    · rw [htab]
      exact h.tab t2 ht hht pos
    · exact h.tab t2 h2 hh2 pos
  · intro t2 h2 hh2
    rcases (tabs_set hht _ h2 t2).mp hh2 with ⟨rfl, rfl⟩ | ⟨-, hh2⟩
    · exact hquick
    · exact h.quick t2 h2 hh2
  · intro t2 pos a ha
    exact place_set hht hsize (h.place t2 pos a ha)

/-- The outer loop stops at the first chain from its place on that has a node. -/
theorem seek_spec (h : Wf m (tabs.set t (bare ht)) E chains lists) (hlt : t < tabs.length)
    (left pos : Nat) :
    ∃ ht' pos' ha, seek ht left pos = (ht', pos', ha) ∧ bare ht' = bare ht ∧ pos ≤ pos' ∧
      pos' ≤ pos + left ∧ (∀ i, pos ≤ i → i < pos' → chains (some (t, i)) = []) ∧
      (pos' < pos + left → ha = (chains (some (t, pos'))).head? ∧ ha ≠ none) ∧
      (pos' = pos + left → ha = none) := by
  induction left generalizing ht pos with
  | zero =>
    exact ⟨ht, pos, none, rfl, rfl, Nat.le_refl _, Nat.le_refl _,
      fun i h1 h2 => absurd h2 (by omega), fun hc => absurd hc (by omega), fun _ => rfl⟩
  | succ left ih =>
    have htab : ht.ht_tab pos = (chains (some (t, pos))).head? :=
      h.tab t (bare ht) (tabs_get hlt _) pos
    rw [seek]
    dsimp only
    cases hhead : ht.ht_tab pos with
    | some a =>
      refine ⟨_, pos, some a, rfl, rfl, Nat.le_refl _, by omega,
        fun i h1 h2 => absurd h2 (by omega), ?_, ?_⟩
      · exact fun _ => ⟨hhead.symm.trans htab, Option.some_ne_none a⟩
      · exact fun hc => absurd hc (by omega)
    | none =>
      have hrecord : Wf m (tabs.set t (bare { ht with
          ht_qhash := { ht.ht_qhash with qh_pos := pos, qh_prev := none } })) E chains lists := h
      obtain ⟨ht', pos', ha, hseek, hbare, hle, hle', hempty, hfound, hend⟩ := ih hrecord (pos + 1)
      refine ⟨ht', pos', ha, hseek, hbare, by omega, by omega, ?_, ?_, ?_⟩
      · intro i hi hi'
        rcases Nat.eq_or_lt_of_le hi with rfl | hi
        · rw [hhead] at htab
          exact List.head?_eq_none_iff.mp htab.symm
        · exact hempty i hi hi'
      · exact fun hc => hfound (by omega)
      · exact fun hc => hend (by omega)

/-! ## What is ahead -/

/-- A key is still to come: its chain is behind this one, or its node is among those of the
chain. -/
def Ahead (m : Memory) (ht : Hashtab) (pos : Nat) (rest : List Nat) (bytes : List (BitVec 8)) :
    Prop :=
  pos < posOf ht bytes ∨ ∃ b ∈ rest, keyOf m b = bytes

theorem size_of_bare (h : bare ht' = bare ht) : ht'.ht_size = ht.ht_size := by
  have hsize : (bare ht').ht_size = (bare ht).ht_size := by rw [h]
  exact hsize

theorem posOf_congr (h : ht'.ht_size = ht.ht_size) (bytes : List (BitVec 8)) :
    posOf ht' bytes = posOf ht bytes := by
  rw [posOf, posOf, h]

theorem Wf.pos_eq (h : Wf m (tabs.set t (bare ht)) E chains lists) (hlt : t < tabs.length)
    {pos b : Nat} (hb : b ∈ chains (some (t, pos))) : posOf ht (keyOf m b) = pos := by
  obtain ⟨ht2, hht2, hpos⟩ := h.place t pos b hb
  rw [tabs_get hlt] at hht2
  obtain rfl := Option.some.inj hht2
  exact hpos

theorem posOf_lt (hsize : 0 < ht.ht_size) (bytes : List (BitVec 8)) : posOf ht bytes < ht.ht_size :=
  Nat.mod_lt _ hsize

/-- Where the outer loop comes to, the keys ahead are those of the chains that it had ahead. -/
theorem arrive (h : Wf m (tabs.set t (bare ht)) E chains lists) (hlt : t < tabs.length)
    (hsize : 0 < ht.ht_size) {pos : Nat} (hpos : pos ≤ ht.ht_size) :
    ∃ ht' pos' ha, seek ht (ht.ht_size - pos) pos = (ht', pos', ha) ∧ bare ht' = bare ht ∧
      pos ≤ pos' ∧ ha = (chains (some (t, pos'))).head? ∧
      (chains (some (t, pos')) = [] → ht.ht_size ≤ pos') ∧
      (∀ bytes, Ahead m ht pos' (chains (some (t, pos'))) bytes → pos ≤ posOf ht bytes) ∧
      ∀ bytes, E t bytes ≠ none → pos ≤ posOf ht bytes →
        Ahead m ht pos' (chains (some (t, pos'))) bytes := by
  obtain ⟨ht', pos', ha, hseek, hbare, hle, hle', hempty, hfound, hend⟩ :=
    seek_spec h hlt (ht.ht_size - pos) pos
  have hbound : pos + (ht.ht_size - pos) = ht.ht_size := by omega
  rw [hbound] at hle' hfound hend
  have hlast : pos' = ht.ht_size → chains (some (t, pos')) = [] := by
    intro heq
    rw [List.eq_nil_iff_forall_not_mem]
    intro b hb
    have hlt' := posOf_lt hsize (keyOf m b)
    rw [h.pos_eq hlt hb] at hlt'
    omega
  refine ⟨ht', pos', ha, hseek, hbare, hle, ?_, ?_, ?_, ?_⟩
  · rcases Nat.lt_or_eq_of_le hle' with hlt' | heq
    · exact (hfound hlt').1
    · rw [hend heq, hlast heq]
      rfl
  · intro hnil
    rcases Nat.lt_or_eq_of_le hle' with hlt' | heq
    · obtain ⟨hhead, hne⟩ := hfound hlt'
      rw [hnil] at hhead
      exact absurd hhead hne
    · exact Nat.le_of_eq heq.symm
  · rintro bytes (hlt' | ⟨b, hb, rfl⟩)
    · omega
    · rw [h.pos_eq hlt hb]
      exact hle
  · intro bytes hne hge
    obtain ⟨p, b, hb, rfl⟩ := h.here t bytes hne
    rw [h.pos_eq hlt hb] at hge
    rcases Nat.lt_trichotomy p pos' with hp | rfl | hp
    · rw [hempty p hge hp] at hb
      exact absurd hb List.not_mem_nil
    · exact Or.inr ⟨b, hb, rfl⟩
    · left
      rwa [h.pos_eq hlt hb]

/-! ## The visits -/

/-- The state in front of a call: `rest` are the nodes of the chain from the next one on. The keys of
the start have been visited or are ahead, and no visited key is ahead. -/
structure Walk (tabs : List Hashtab) (t : Nat) (E0 E : Entries) (it : Iter) (visits : List Visit)
    (chains : Option (Nat × Nat) → List Nat) (lists : Option Nat → List Nat) (rest : List Nat) :
    Prop where
  wf : Wf it.memory (tabs.set t (bare it.tab)) E chains lists
  head : it.ha = rest.head?
  suffix : rest <:+ chains (some (t, it.pos))
  last : rest = [] → it.tab.ht_size ≤ it.pos
  once : (visits.map fun v => v.key.bytes).Nodup
  passed : ∀ v ∈ visits, ¬Ahead it.memory it.tab it.pos rest v.key.bytes
  waits : ∀ bytes, E0 t bytes ≠ none → (∃ v ∈ visits, v.key.bytes = bytes) ∨
    (E t bytes ≠ none ∧ Ahead it.memory it.tab it.pos rest bytes)

variable {it it' : Iter} {visits : List Visit} {v : Visit} {rest rest' : List Nat}
  {lists' : Option Nat → List Nat} {E0 : Entries}

theorem Walk.start (h : Wf m (tabs.set t (bare ht)) E chains lists) (hlt : t < tabs.length)
    (hsize : 0 < ht.ht_size) (hv : Hashvalues) :
    ∃ rest, Walk tabs t E E (Iter.start m ht hv) [] chains lists rest ∧
      (Iter.start m ht hv).tab.ht_size = ht.ht_size := by
  obtain ⟨ht', pos', ha, hseek, hbare, -, hhead, hover, -, hahead⟩ :=
    arrive h hlt hsize (Nat.zero_le _)
  have hsize' : ht'.ht_size = ht.ht_size := size_of_bare hbare
  rw [Nat.sub_zero] at hseek
  have hstart : Iter.start m ht hv = ⟨m, ht', hv, pos', ha⟩ := by
    rw [Iter.start, hseek]
  rw [hstart]
  refine ⟨chains (some (t, pos')), ⟨?_, hhead, List.suffix_rfl, ?_, List.nodup_nil, ?_, ?_⟩,
    hsize'⟩
  · dsimp only
    rwa [hbare]
  · intro hnil
    exact Nat.le_trans (Nat.le_of_eq hsize') (hover hnil)
  · intro v hv
    cases hv
  · intro bytes hne
    refine Or.inr ⟨hne, ?_⟩
    have := hahead bytes hne (Nat.zero_le _)
    rwa [Ahead, ← posOf_congr hsize'] at this

/-- A visit takes its key from those ahead, and no other one that still has an entry. -/
theorem Walk.visit (h : Walk tabs t E0 E it visits chains lists (a :: rest))
    (hvisit : v.key.bytes = keyOf it.memory a)
    (hwf : Wf it'.memory (tabs.set t (bare it'.tab)) E' chains' lists')
    (hhead : it'.ha = rest'.head?) (hsuffix : rest' <:+ chains' (some (t, it'.pos)))
    (hover : rest' = [] → it'.tab.ht_size ≤ it'.pos)
    (hkept : ∀ bytes, bytes ≠ keyOf it.memory a → E t bytes ≠ none → E' t bytes ≠ none)
    (hahead : ∀ bytes, Ahead it'.memory it'.tab it'.pos rest' bytes →
      bytes ≠ keyOf it.memory a ∧ Ahead it.memory it.tab it.pos (a :: rest) bytes)
    (hstill : ∀ bytes, E' t bytes ≠ none → bytes ≠ keyOf it.memory a →
      Ahead it.memory it.tab it.pos (a :: rest) bytes →
        Ahead it'.memory it'.tab it'.pos rest' bytes) :
    Walk tabs t E0 E' it' (visits ++ [v]) chains' lists' rest' := by
  refine ⟨hwf, hhead, hsuffix, hover, ?_, ?_, ?_⟩
  · rw [List.map_append, List.nodup_append]
    refine ⟨h.once, List.nodup_singleton _, ?_⟩
    rintro x hx y hy rfl
    obtain ⟨v', hv, rfl⟩ := List.mem_map.mp hx
    obtain hy := List.mem_singleton.mp hy
    refine h.passed v' hv (Or.inr ⟨a, List.mem_cons_self, ?_⟩)
    exact hvisit.symm.trans hy.symm
  · intro v' hv hc
    rcases List.mem_append.mp hv with hv | hv
    · exact h.passed v' hv (hahead _ hc).2
    · obtain rfl := List.mem_singleton.mp hv
      exact (hahead _ hc).1 hvisit
  · intro bytes hne
    rcases h.waits bytes hne with ⟨v', hv, hbytes⟩ | ⟨hE, hah⟩
    · exact Or.inl ⟨v', List.mem_append_left _ hv, hbytes⟩
    · by_cases hbytes : bytes = keyOf it.memory a
      · exact Or.inl ⟨v, List.mem_append_right _ (List.mem_singleton.mpr rfl),
          hvisit.trans hbytes.symm⟩
      · have hE' := hkept bytes hbytes hE
        exact Or.inr ⟨hE', hstill bytes hE' hbytes hah⟩

/-- One turn of the loop. It comes nearer to the end of the chain, or to the next one. -/
theorem Walk.step (h : Walk tabs t E0 E it visits chains lists (a :: rest)) (hlt : t < tabs.length)
    (hsize : 0 < it.tab.ht_size) {ops : List Op} (hlegal : OpsLegal t (keyOf it.memory a) E ops)
    (hagree : OpsAgree it.memory (quickTab it.memory it.tab a) ops) :
    ∃ visit it' chains' lists' rest', it.step ops = some (visit, it') ∧
      E t visit.key.bytes = some visit.values ∧ it'.tab.ht_size = it.tab.ht_size ∧
      Walk tabs t E0 (opsOnEntries t E ops) it' (visits ++ [visit]) chains' lists' rest' ∧
      (it.pos < it'.pos ∧ it.pos < it.tab.ht_size ∨
        it'.pos = it.pos ∧ rest'.length < (a :: rest).length) := by
  have ha : a ∈ chains (some (t, it.pos)) := h.suffix.subset List.mem_cons_self
  obtain ⟨vals, hE, hholds⟩ := h.wf.holds t it.pos a ha
  obtain ⟨hv, hcopy, hvals⟩ := copyValues_spec h.wf.values hholds it.hv
  have hquick : Wf it.memory (tabs.set t (bare (quickTab it.memory it.tab a))) E chains lists := h.wf
  obtain ⟨m', ht', hrun, hsize', chains', lists', hwf', hmoved⟩ :=
    ops_spec hquick hlt hlegal hagree
  have hsize' : ht'.ht_size = it.tab.ht_size := hsize'
  -- the nodes behind this one are those of other keys, and they stay where they are
  have hnodup : (a :: rest).Nodup := (h.wf.arena.nodup _).sublist h.suffix.sublist
  have hrest : rest <:+ chains (some (t, it.pos)) := (List.suffix_cons a rest).trans h.suffix
  have hother : ∀ b ∈ rest, keyOf it.memory b ≠ keyOf it.memory a := by
    intro b hb hc
    obtain rfl := h.wf.distinct _ b (hrest.subset hb) a ha hc
    exact (List.nodup_cons.mp hnodup).1 hb
  obtain ⟨hrest', hkeys⟩ := hmoved _ rest hrest hother
  have hnext : haNext it.memory.hashes a = rest.head? := by
    have hlinked := h.wf.arena.linked (some (t, it.pos))
    obtain ⟨front, hfront⟩ := h.suffix
    rw [← hfront] at hlinked
    exact hlinked.next_eq
  have hpos : posOf it.tab (keyOf it.memory a) = it.pos := h.wf.pos_eq hlt ha
  have hposlt : it.pos < it.tab.ht_size := hpos ▸ posOf_lt hsize _
  have hkept : ∀ bytes, bytes ≠ keyOf it.memory a → E t bytes ≠ none →
      opsOnEntries t E ops t bytes ≠ none := fun bytes hne hE => opsOnEntries_kept hlegal hne hE
  generalize hht2 : (if haNext m'.hashes a = haNext it.memory.hashes a then
    { ht' with ht_qhash := { ht'.ht_qhash with qh_prev := some a } } else ht') = ht2
  have hbare2 : bare ht2 = bare ht' := by
    rw [← hht2]
    split <;> rfl
  have hsize2 : ht2.ht_size = it.tab.ht_size := (size_of_bare hbare2).trans hsize'
  rw [← hbare2] at hwf'
  have hvisit : E t (it.memory.hashes.node a).ha_key.bytes = some hv.values := by
    rw [hvals]
    exact hE
  have hback : ∀ bytes, Ahead m' ht2 it.pos rest bytes →
      bytes ≠ keyOf it.memory a ∧ Ahead it.memory it.tab it.pos (a :: rest) bytes := by
    rintro bytes (hlater | ⟨b, hb, rfl⟩)
    · rw [posOf_congr hsize2] at hlater
      refine ⟨?_, Or.inl hlater⟩
      rintro rfl
      omega
    · rw [hkeys b hb]
      exact ⟨hother b hb, Or.inr ⟨b, List.mem_cons_of_mem a hb, rfl⟩⟩
  have hforth : ∀ bytes, bytes ≠ keyOf it.memory a →
      Ahead it.memory it.tab it.pos (a :: rest) bytes → Ahead m' ht2 it.pos rest bytes := by
    rintro bytes hne (hlater | ⟨b, hb, rfl⟩)
    · rw [← posOf_congr hsize2] at hlater
      exact Or.inl hlater
    · rcases List.mem_cons.mp hb with rfl | hb
      · exact absurd rfl hne
      · exact Or.inr ⟨b, hb, hkeys b hb⟩
  cases rest with
  | cons b rest =>
    have hstep : it.step ops = some (⟨(it.memory.hashes.node a).ha_key, hv.values⟩,
        ⟨m', ht2, hv, it.pos, some b⟩) := by
      rw [Iter.step, h.head]
      dsimp only [List.head?_cons]
      rw [hcopy, Option.bind_some, hrun, Option.map_some, hht2, hnext]
      rfl
    exact ⟨_, _, chains', lists', b :: rest, hstep, hvisit, hsize2,
      h.visit rfl hwf' rfl hrest' (fun hc => absurd hc (List.cons_ne_nil b rest)) hkept hback
        fun bytes _ hne hah => hforth bytes hne hah, Or.inr ⟨rfl, Nat.lt_succ_self _⟩⟩
  | nil =>
    have hnext' : it.pos + 1 ≤ ht2.ht_size := hsize2 ▸ hposlt
    obtain ⟨ht3, pos', ha', hseek, hbare3, hle, hhead, hover, hback', hforth'⟩ :=
      arrive hwf' hlt (hsize2 ▸ hsize) hnext'
    have hsize3 : ht3.ht_size = ht2.ht_size := size_of_bare hbare3
    have hstep : it.step ops = some (⟨(it.memory.hashes.node a).ha_key, hv.values⟩,
        ⟨m', ht3, hv, pos', ha'⟩) := by
      rw [Iter.step, h.head]
      dsimp only [List.head?_cons]
      rw [hcopy, Option.bind_some, hrun, Option.map_some, hht2, hnext]
      dsimp only [List.head?_nil]
      rw [hseek]
    refine ⟨_, _, chains', lists', chains' (some (t, pos')), hstep, hvisit,
      hsize3.trans hsize2, ?_, Or.inl ⟨hle, hposlt⟩⟩
    refine h.visit rfl ?_ hhead List.suffix_rfl ?_ hkept ?_ ?_
    · dsimp only
      rwa [hbare3]
    · intro hnil
      exact Nat.le_trans (Nat.le_of_eq hsize3) (hover hnil)
    · intro bytes hah
      dsimp only at hah
      rw [Ahead, posOf_congr hsize3] at hah
      exact hback bytes (Or.inl (hback' bytes hah))
    · intro bytes hE' hne hah
      have hah' : Ahead m' ht2 pos' (chains' (some (t, pos'))) bytes := by
        rcases hforth bytes hne hah with hlater | ⟨b, hb, -⟩
        · exact hforth' bytes hE' hlater
        · exact absurd hb List.not_mem_nil
      rwa [Ahead, ← posOf_congr hsize3] at hah'

/-- The walk comes to its end: each turn comes nearer to the end of its chain, or to the next
chain. -/
theorem walk_ends {start it : Iter} {func : Nat → List Op} {n : Nat} {visits : List Visit}
    {chains : Option (Nat × Nat) → List Nat} {lists : Option Nat → List Nat} {rest : List Nat}
    (hcareful : Careful t E0 start func) (hlt : t < tabs.length)
    (hrun : start.runs func n = some (visits, it))
    (h : Walk tabs t E0 (entriesAfter t E0 func n) it visits chains lists rest)
    (hsize : 0 < it.tab.ht_size) (hlen : visits.length = n)
    (hvals : ∀ i v, visits[i]? = some v →
      entriesAfter t E0 func i t v.key.bytes = some v.values) :
    ∃ n visits it chains lists, start.runs func n = some (visits, it) ∧ 0 < it.tab.ht_size ∧
      visits.length = n ∧
      (∀ i v, visits[i]? = some v → entriesAfter t E0 func i t v.key.bytes = some v.values) ∧
      Walk tabs t E0 (entriesAfter t E0 func n) it visits chains lists [] := by
  cases hrest : rest with
  | nil =>
    rw [hrest] at h
    exact ⟨n, visits, it, chains, lists, hrun, hsize, hlen, hvals, h⟩
  | cons a tail =>
    rw [hrest] at h
    obtain ⟨hlegal, hagree⟩ := hcareful n visits it a hrun h.head
    obtain ⟨v, it', chains', lists', rest', hstep, hvalue, hsize', h', hnear⟩ :=
      h.step hlt hsize hlegal hagree
    have hrun' : start.runs func (n + 1) = some (visits ++ [v], it') := by
      rw [Iter.runs, hrun, Option.bind_some]
      dsimp only
      rw [hstep]
      rfl
    refine walk_ends hcareful hlt hrun' h' (hsize' ▸ hsize) ?_ ?_
    · rw [List.length_append, hlen, List.length_singleton]
    · intro i w hw
      rcases Nat.lt_or_ge i visits.length with hi | hi
      · rw [List.getElem?_append_left hi] at hw
        exact hvals i w hw
      · rw [List.getElem?_append_right hi] at hw
        obtain rfl := List.mem_singleton.mp (List.mem_of_getElem? hw)
        have hi' : i < n + 1 := by
          obtain ⟨hlast, -⟩ := List.getElem?_eq_some_iff.mp hw
          rw [List.length_singleton] at hlast
          omega
        obtain rfl : i = n := by omega
        exact hvalue
termination_by (it.tab.ht_size - it.pos, rest.length)
decreasing_by
  rw [Prod.lex_def]
  dsimp only
  rcases hnear with ⟨hnear, hbound⟩ | ⟨hsame, hshort⟩
  · left
    omega
  · right
    rw [hsame, hsize', hrest]
    exact ⟨rfl, hshort⟩

/-! ## Tables have chains -/

theorem onTab_sizes {p p' : Program} {f : Memory → Hashtab → Option (Memory × Hashtab)}
    (hf : ∀ m m' ht ht', f m ht = some (m', ht') → ht'.ht_size = ht.ht_size)
    (h : onTab p t f = some p') (hp : ∀ ht ∈ p.tabs, 0 < ht.ht_size) :
    ∀ ht ∈ p'.tabs, 0 < ht.ht_size := by
  unfold onTab at h
  split at h
  · cases h
  · rename_i ht hht
    obtain ⟨r, hr, rfl⟩ := Option.map_eq_some_iff.mp h
    intro ht' hmem
    rcases List.mem_or_eq_of_mem_set hmem with hmem | rfl
    · exact hp ht' hmem
    · rw [hf _ _ _ _ hr]
      exact hp ht (List.mem_of_getElem? hht)

theorem call_sizes {p p' : Program} {c : Call} (h : c.exec p = some p')
    (hp : ∀ ht ∈ p.tabs, 0 < ht.ht_size) : ∀ ht ∈ p'.tabs, 0 < ht.ht_size := by
  cases c with
  | hash_create_tab size =>
    obtain rfl := Option.some.inj h
    intro ht hmem
    rcases List.mem_append.mp hmem with hmem | hmem
    · exact hp ht hmem
    · obtain rfl := List.mem_singleton.mp hmem
      unfold hashCreateTab
      dsimp only
      split <;> omega
  | hash_enter_key t key =>
    exact onTab_sizes (fun _ _ _ _ h => @exec_size _ _ _ _ (.hash_enter_key key) h) h hp
  | hash_enter t key value =>
    exact onTab_sizes (fun _ _ _ _ h => @exec_size _ _ _ _ (.hash_enter key value) h) h hp
  | hash_delete t key value =>
    exact onTab_sizes (fun _ _ _ _ h => @exec_size _ _ _ _ (.hash_delete key value) h) h hp
  | hash_delete_key t key =>
    exact onTab_sizes (fun _ _ _ _ h => @exec_size _ _ _ _ (.hash_delete_key key) h) h hp

theorem exec_sizes {p p' : Program} {calls : List Call} (h : exec p calls = some p')
    (hp : ∀ ht ∈ p.tabs, 0 < ht.ht_size) : ∀ ht ∈ p'.tabs, 0 < ht.ht_size := by
  induction calls generalizing p with
  | nil =>
    obtain rfl := Option.some.inj h
    exact hp
  | cons c calls ih =>
    rw [exec] at h
    split at h
    · cases h
    · rename_i p1 hp1
      exact ih h (call_sizes hp1 hp)

/-! ## The whole walk -/

/-- A table with the keys `[7]` and `[8]`. -/
def twoKeys : List Call :=
  [.hash_create_tab 3, .hash_enter 0 ⟨1, [7]⟩ (some 5), .hash_enter 0 ⟨2, [8]⟩ (some 6)]

def nothingYet : Program :=
  Program.start (fun _ => ⟨none, none⟩) fun _ => ⟨⟨0, []⟩, 0, 0, none, none⟩

def twoKeysTables : Program := (exec nothingYet twoKeys).getD nothingYet

def twoKeysTab : Hashtab := twoKeysTables.tabs.headD (hashCreateTab 3 none ⟨none, none, 0⟩)

/-- The first call deletes its key. -/
def deleteFirst : Nat → List Op
  | 0 => [.hash_delete_key ⟨1, [7]⟩]
  | _ + 1 => []

def twoKeysWalk : Iter := Iter.start twoKeysTables.memory twoKeysTab hashMakeHashvalues

theorem deleteFirst_careful : Careful 0 (entryOf twoKeys) twoKeysWalk deleteFirst := by
  intro n visits it a hrun hha
  cases n with
  | succ n => exact ⟨trivial, trivial⟩
  | zero =>
    obtain ⟨-, rfl⟩ := Prod.mk.inj (Option.some.inj hrun)
    have hfirst : twoKeysWalk.ha = some 0 := by decide
    obtain rfl := Option.some.inj (hfirst.symm.trans hha)
    have hlegal : keyOf twoKeysWalk.memory 0 = [7] ∧ entryOf twoKeys 0 [7] ≠ none := by decide
    refine ⟨⟨⟨hlegal.1.symm, hlegal.2⟩, trivial⟩, fun _ => ⟨0, 7, none, ?_, ?_, fun _ => ?_⟩,
      fun _ _ _ => trivial⟩
    · decide
    · decide
    · decide

/-- Without care a key is lost: it comes to the front of the chain, and the visited one is then taken
out there, where the record has no node in front of it. -/
example : ((twoKeysWalk.runs (fun n => if n = 0 then
      [.hash_enter_key ⟨3, [27]⟩, .hash_delete_key ⟨1, [7]⟩] else []) 2).bind fun r =>
    (hashLookupKey r.2.memory (bare r.2.tab) ⟨3, [27]⟩ hashMakeHashvalues).map Prod.fst) =
      some false := by
  decide

end ups_rules.hash_tab
