-- Runs of the hash table: the chains and the value lists stand for a finite multimap.
import Ups.HashValues

open node_arena

namespace ups_rules.hash_tab

/-- The bytes of the key at a node. -/
def keyOf (m : Memory) (a : Nat) : List (BitVec 8) := (m.hashes.node a).ha_key.bytes

/-- What each table has for each key. -/
abbrev Entries := Nat → List (BitVec 8) → Entry

def Entries.set (E : Entries) (t : Nat) (bytes : List (BitVec 8)) (e : Entry) : Entries :=
  fun t' bytes' => if t = t' ∧ bytes = bytes' then e else E t' bytes'

/-- The key nodes of the chains, each in the chain of its key and with the values of its entry. -/
structure Wf (m : Memory) (tabs : List Hashtab) (E : Entries)
    (chains : Option (Nat × Nat) → List Nat) (lists : Option Nat → List Nat) : Prop where
  arena : Arena (haNext m.hashes) m.hashes.count chains
  free : m.hashes.freelist = (chains none).head?
  values : Values m.vlists lists
  tab : ∀ t ht, tabs[t]? = some ht → ∀ pos, ht.ht_tab pos = (chains (some (t, pos))).head?
  quick : ∀ (t : Nat) ht, tabs[t]? = some ht → ht.ht_qkey = none
  place : ∀ t pos, ∀ a ∈ chains (some (t, pos)),
    ∃ ht, tabs[t]? = some ht ∧ posOf ht (keyOf m a) = pos
  keylen : ∀ i, ∀ a ∈ chains (some i), (m.hashes.node a).ha_keylen = (keyOf m a).length
  distinct : ∀ i, ∀ a ∈ chains (some i), ∀ b ∈ chains (some i), keyOf m a = keyOf m b → a = b
  holds : ∀ t pos, ∀ a ∈ chains (some (t, pos)), ∃ vals, E t (keyOf m a) = some vals ∧
    Holds m.vlists (lists (some a)) (m.hashes.node a) vals
  here : ∀ t bytes, E t bytes ≠ none → ∃ pos, ∃ a ∈ chains (some (t, pos)), keyOf m a = bytes
  idle : ∀ a, (∀ i, a ∉ chains (some i)) → lists (some a) = []

/-- The memory and the tables stand for the entries. -/
def Rep (m : Memory) (tabs : List Hashtab) (E : Entries) : Prop :=
  ∃ chains lists, Wf m tabs E chains lists

/-- What a change does to the chains: the end of one stays, as far as no key of it is gone, and the nodes
keep their keys. -/
def Moved (gone : List (BitVec 8) → Prop) (m m' : Memory)
    (chains chains' : Option (Nat × Nat) → List Nat) : Prop :=
  ∀ i rest, rest <:+ chains (some i) → (∀ b ∈ rest, ¬gone (keyOf m b)) →
    rest <:+ chains' (some i) ∧ ∀ b ∈ rest, keyOf m' b = keyOf m b

/-- The memory and the tables stand for the entries, and the chains have moved only so far. -/
def Next (gone : List (BitVec 8) → Prop) (m : Memory) (chains : Option (Nat × Nat) → List Nat)
    (m' : Memory) (tabs : List Hashtab) (E : Entries) : Prop :=
  ∃ chains' lists', Wf m' tabs E chains' lists' ∧ Moved gone m m' chains chains'

theorem Next.rep {gone : List (BitVec 8) → Prop} {m m' : Memory}
    {chains : Option (Nat × Nat) → List Nat} {tabs : List Hashtab} {E : Entries}
    (h : Next gone m chains m' tabs E) : Rep m' tabs E :=
  let ⟨chains', lists', hwf, _⟩ := h
  ⟨chains', lists', hwf⟩

/-- Nothing is gone. -/
def Nothing (_ : List (BitVec 8)) : Prop := False

variable {m : Memory} {tabs : List Hashtab} {E : Entries} {chains : Option (Nat × Nat) → List Nat}
  {lists lists' : Option Nat → List Nat} {t pos a b : Nat} {ht : Hashtab} {key : Key}
  {vals : List Ptr}

theorem Wf.entry_none (h : Wf m tabs E chains lists) (ht' : tabs[t]? = some ht)
    (hmiss : ∀ a ∈ chains (some (t, posOf ht key.bytes)), keyOf m a ≠ key.bytes) :
    E t key.bytes = none := by
  by_contra hne
  obtain ⟨pos, a, ha, hkey⟩ := h.here t key.bytes hne
  obtain ⟨ht2, hht2, hpos⟩ := h.place t pos a ha
  rw [ht'] at hht2
  obtain rfl := Option.some.inj hht2
  rw [hkey] at hpos
  rw [← hpos] at ha
  exact hmiss a ha hkey

/-- A table has one node for a key. -/
theorem Wf.unique (h : Wf m tabs E chains lists) {pos' : Nat} (ha : a ∈ chains (some (t, pos)))
    (hb : b ∈ chains (some (t, pos'))) (hkey : keyOf m a = keyOf m b) : a = b := by
  obtain ⟨ht, hht, hpos⟩ := h.place t pos a ha
  obtain ⟨ht2, hht2, hpos2⟩ := h.place t pos' b hb
  rw [hht] at hht2
  obtain rfl := Option.some.inj hht2
  rw [hkey, hpos2] at hpos
  subst hpos
  exact h.distinct _ a ha b hb hkey

theorem sameKey_iff {ha : Hash} (hlen : ha.ha_keylen = ha.ha_key.bytes.length) :
    sameKey ha key = true ↔ ha.ha_key.bytes = key.bytes := by
  rw [sameKey, Bool.and_eq_true, beq_iff_eq, beq_iff_eq, hlen]
  constructor
  · rintro ⟨hlen2, htake⟩
    rwa [List.take_length, List.take_of_length_le (Nat.le_of_eq hlen2)] at htake
  · intro heq
    rw [heq]
    exact ⟨rfl, rfl⟩

/-- The search ends at the key's node, with the one before it, or at the end of the chain. -/
theorem findHash_spec (h : Wf m tabs E chains lists) (hht : tabs[t]? = some ht) (key : Key) :
    (∃ l1 a l2, chains (some (t, posOf ht key.bytes)) = l1 ++ a :: l2 ∧
        keyOf m a = key.bytes ∧
        findHash m.hashes ht key = some (some a, posOf ht key.bytes, l1.getLast?)) ∨
      ((∀ a ∈ chains (some (t, posOf ht key.bytes)), keyOf m a ≠ key.bytes) ∧
        ∃ prev, findHash m.hashes ht key = some (none, posOf ht key.bytes, prev)) := by
  set i := some (t, posOf ht key.bytes) with hi
  have hquick : some key.addr ≠ ht.ht_qkey := by
    rw [h.quick t ht hht]
    exact Option.some_ne_none _
  have hsame : ∀ x ∈ chains i,
      (sameKey (m.hashes.node x) key = true ↔ keyOf m x = key.bytes) :=
    fun x hx => sameKey_iff (h.keylen _ x hx)
  have hle := Nat.lt_succ_of_le (h.arena.length_le i)
  by_cases hkey : ∃ a ∈ chains i, keyOf m a = key.bytes
  · obtain ⟨a, ha, hkey⟩ := hkey
    obtain ⟨l1, l2, hsplit, hnot⟩ := List.eq_append_cons_of_mem ha
    have hl1 : ∀ x ∈ l1, sameKey (m.hashes.node x) key = false := by
      intro x hx
      have hxi : x ∈ chains i := hsplit ▸ List.mem_append_left _ hx
      rw [Bool.eq_false_iff, ne_eq, hsame x hxi]
      intro hc
      obtain rfl := h.distinct _ x hxi a ha (hc.trans hkey.symm)
      exact hnot hx
    have hlinked := h.arena.linked i
    rw [hsplit] at hlinked hle
    have hfound := search_found none hlinked hl1 ((hsame a ha).mpr hkey) hle
    refine Or.inl ⟨l1, a, l2, hsplit, hkey, ?_⟩
    rw [← hsplit, ← h.tab t ht hht, Option.or_none] at hfound
    rw [findHash, if_neg hquick]
    dsimp only
    rw [hfound]
  · have hmiss : ∀ a ∈ chains i, keyOf m a ≠ key.bytes :=
      fun a ha hc => hkey ⟨a, ha, hc⟩
    have hfalse : ∀ x ∈ chains i, sameKey (m.hashes.node x) key = false := by
      intro x hx
      rw [Bool.eq_false_iff, ne_eq, hsame x hx]
      exact hmiss x hx
    have hmissed := search_missed _ none (h.arena.linked i) hfalse hle
    refine Or.inr ⟨hmiss, (chains i).getLast?.or none, ?_⟩
    rw [← h.tab t ht hht] at hmissed
    rw [findHash, if_neg hquick]
    dsimp only
    rw [hmissed]

/-! ## Lookups -/

/-- A lookup delivers the values of the key's entry, if there is one. -/
theorem hashLookupKey_spec (h : Rep m tabs E) (hht : tabs[t]? = some ht) (key : Key)
    (hv : Hashvalues) :
    ∃ hv', hashLookupKey m ht key hv = some ((E t key.bytes).isSome, hv') ∧
      (E t key.bytes = none → hv' = hv) ∧ ∀ vals, E t key.bytes = some vals → hv'.values = vals := by
  obtain ⟨chains, lists, h⟩ := h
  rcases findHash_spec h hht key with ⟨l1, a, l2, hsplit, hkey, hfound⟩ | ⟨hmiss, prev, hfound⟩
  · have ha : a ∈ chains (some (t, posOf ht key.bytes)) := by
      rw [hsplit]
      exact List.mem_append_right _ List.mem_cons_self
    obtain ⟨vals, hE, hholds⟩ := h.holds _ _ a ha
    obtain ⟨hv', hcopy, hvals⟩ := copyValues_spec h.values hholds hv
    rw [hkey] at hE
    refine ⟨hv', ?_, ?_, ?_⟩
    · rw [hashLookupKey, hfound, hE]
      dsimp only
      rw [hcopy]
      rfl
    · intro hnone
      rw [hE] at hnone
      cases hnone
    · intro vals' hvals'
      rw [hE] at hvals'
      rw [hvals, Option.some.inj hvals']
  · have hE := h.entry_none hht hmiss
    refine ⟨hv, ?_, fun _ => rfl, ?_⟩
    · rw [hashLookupKey, hfound, hE]
      rfl
    · intro vals' hvals'
      rw [hE] at hvals'
      cases hvals'

theorem hashLookup_spec (h : Rep m tabs E) (hht : tabs[t]? = some ht) (key : Key) :
    hashLookup m ht key = some ((E t key.bytes).bind fun vals => vals.head?.join) := by
  obtain ⟨chains, lists, h⟩ := h
  rcases findHash_spec h hht key with ⟨l1, a, l2, hsplit, hkey, hfound⟩ | ⟨hmiss, prev, hfound⟩
  · have ha : a ∈ chains (some (t, posOf ht key.bytes)) := by
      rw [hsplit]
      exact List.mem_append_right _ List.mem_cons_self
    obtain ⟨vals, hE, hholds⟩ := h.holds _ _ a ha
    rw [hkey] at hE
    rw [hashLookup, hfound, hE]
    exact firstValue_spec hholds
  · rw [hashLookup, hfound, h.entry_none hht hmiss]
    rfl

/-! ## Changes -/

theorem Entries.set_self (E : Entries) (t : Nat) (bytes : List (BitVec 8)) (e : Entry) :
    E.set t bytes e t bytes = e :=
  if_pos ⟨rfl, rfl⟩

theorem Entries.set_of_ne (E : Entries) {t t' : Nat} {bytes bytes' : List (BitVec 8)} (e : Entry)
    (hne : ¬(t = t' ∧ bytes = bytes')) : E.set t bytes e t' bytes' = E t' bytes' :=
  if_neg hne

theorem Entries.set_set (E : Entries) (t : Nat) (bytes : List (BitVec 8)) (e e' : Entry) :
    (E.set t bytes e).set t bytes e' = E.set t bytes e' := by
  funext t' bytes'
  by_cases h : t = t' ∧ bytes = bytes'
  · rw [Entries.set, if_pos h, Entries.set, if_pos h]
  · rw [set_of_ne _ _ h, set_of_ne _ _ h, set_of_ne _ _ h]

theorem withValues_node_self (m : Memory) (a : Nat) (vls : Nodes Vlist) (node : Hash) :
    (withValues m a vls node).hashes.node a = node :=
  Function.update_self ..

theorem withValues_node_of_ne (m : Memory) (vls : Nodes Vlist) (node : Hash) (hb : b ≠ a) :
    (withValues m a vls node).hashes.node b = m.hashes.node b :=
  Function.update_of_ne hb ..

/-- Values do not change a key or a link. -/
theorem withValues_key {vls : Nodes Vlist} {node : Hash}
    (hkey : node.ha_key = (m.hashes.node a).ha_key) (b : Nat) :
    keyOf (withValues m a vls node) b = keyOf m b := by
  by_cases hb : b = a
  · rw [hb, keyOf, withValues_node_self, hkey]
    rfl
  · rw [keyOf, withValues_node_of_ne _ _ _ hb]
    rfl

theorem withValues_next {vls : Nodes Vlist} {node : Hash}
    (hnext : node.ha_next = (m.hashes.node a).ha_next) :
    haNext (withValues m a vls node).hashes = haNext m.hashes := by
  funext b
  by_cases hb : b = a
  · rw [hb, haNext, withValues_node_self, hnext]
    rfl
  · rw [haNext, withValues_node_of_ne _ _ _ hb]
    rfl

/-- The values of a node change, and with them the entry of its key. -/
theorem Wf.change (h : Wf m tabs E chains lists) (ha : a ∈ chains (some (t, pos)))
    {vls : Nodes Vlist} {u : Ptr} {n : Nat} (hvalues : Values vls lists')
    (hkept : Kept a m.vlists vls lists lists')
    (hholds : Holds vls (lists' (some a)) { m.hashes.node a with ha_u := u, ha_nvalues := n } vals) :
    Wf (withValues m a vls { m.hashes.node a with ha_u := u, ha_nvalues := n }) tabs
      (E.set t (keyOf m a) (some vals)) chains lists' := by
  set node : Hash := { m.hashes.node a with ha_u := u, ha_nvalues := n } with hnode
  have hkey : ∀ b, keyOf (withValues m a vls node) b = keyOf m b := withValues_key rfl
  refine ⟨?_, h.free, hvalues, h.tab, h.quick, ?_, ?_, ?_, ?_, ?_, ?_⟩
  · have hnext : haNext (withValues m a vls node).hashes = haNext m.hashes := withValues_next rfl
    rw [hnext]
    exact h.arena
  · intro t' pos' b hb
    rw [hkey]
    exact h.place t' pos' b hb
  · intro i b hb
    rw [hkey, ← h.keylen i b hb]
    by_cases hba : b = a
    · rw [hba, withValues_node_self]
    · rw [withValues_node_of_ne _ _ _ hba]
  · intro i b hb c hc hbc
    rw [hkey, hkey] at hbc
    exact h.distinct i b hb c hc hbc
  · intro t' pos' b hb
    rw [hkey]
    by_cases hba : b = a
    · have hi := Option.some.inj (h.arena.apart _ _ b hb (hba ▸ ha))
      obtain rfl : t' = t := congrArg Prod.fst hi
      rw [hba, Entries.set_self, withValues_node_self]
      exact ⟨vals, rfl, hholds⟩
    · rw [Entries.set_of_ne, withValues_node_of_ne _ _ _ hba]
      · obtain ⟨vals', hE, hholds'⟩ := h.holds t' pos' b hb
        exact ⟨vals', hE, hkept.holds hba hholds'⟩
      · rintro ⟨rfl, hsame⟩
        exact hba (h.unique hb ha hsame.symm)
  · intro t' bytes' hne
    by_cases hsame : t = t' ∧ keyOf m a = bytes'
    · obtain ⟨rfl, hbytes⟩ := hsame
      exact ⟨pos, a, ha, (hkey a).trans hbytes⟩
    · rw [Entries.set_of_ne _ _ hsame] at hne
      obtain ⟨pos', b, hb, hbytes⟩ := h.here t' bytes' hne
      exact ⟨pos', b, hb, (hkey b).trans hbytes⟩
  · intro b hb
    have hba : b ≠ a := by
      rintro rfl
      exact hb _ ha
    rw [hkept.same_lists b hba]
    exact h.idle b hb

theorem moved_of_keys {gone : List (BitVec 8) → Prop} {m' : Memory}
    (h : ∀ i, ∀ b ∈ chains (some i), keyOf m' b = keyOf m b) : Moved gone m m' chains chains :=
  fun i _ hrest _ => ⟨hrest, fun b hb => h i b (hrest.subset hb)⟩

theorem addValueAt_spec (h : Wf m tabs E chains lists) (ha : a ∈ chains (some (t, pos)))
    (hE : E t (keyOf m a) = some vals) (value : Ptr) :
    ∃ lists', Wf (addValueAt m a value) tabs (E.set t (keyOf m a) (some (value :: vals))) chains lists' ∧
      ∀ b, keyOf (addValueAt m a value) b = keyOf m b := by
  obtain ⟨vals', hE', hholds⟩ := h.holds t pos a ha
  rw [hE] at hE'
  obtain rfl := Option.some.inj hE'
  obtain ⟨lists', u, hvalues, hkept, hnode, hholds'⟩ := addValue_spec value h.values hholds
  rw [hnode] at hholds'
  have hwf := h.change ha hvalues hkept hholds'
  rw [← hnode] at hwf
  have hsame : (addValue m.vlists (m.hashes.node a) value).2.ha_key = (m.hashes.node a).ha_key := by
    rw [hnode]
  exact ⟨lists', hwf, @withValues_key m a (addValue m.vlists (m.hashes.node a) value).1 _ hsame⟩

theorem tabs_set (hht : tabs[t]? = some ht) (ht' h : Hashtab) (t' : Nat) :
    (tabs.set t ht')[t']? = some h ↔ (t' = t ∧ h = ht') ∨ (t' ≠ t ∧ tabs[t']? = some h) := by
  obtain ⟨hlt, -⟩ := List.getElem?_eq_some_iff.mp hht
  by_cases ht2 : t' = t
  · subst ht2
    rw [List.getElem?_set_self hlt]
    constructor
    · intro heq
      exact Or.inl ⟨rfl, (Option.some.inj heq).symm⟩
    · rintro (⟨-, rfl⟩ | ⟨hne, -⟩)
      · rfl
      · exact absurd rfl hne
  · rw [List.getElem?_set_ne (Ne.symm ht2)]
    constructor
    · exact fun heq => Or.inr ⟨ht2, heq⟩
    · rintro (⟨heq, -⟩ | ⟨-, heq⟩)
      · exact absurd heq ht2
      · exact heq

/-- Other heads of chains do not move a key. -/
theorem place_set {ht' : Hashtab} (hht : tabs[t]? = some ht) (hsize : ht'.ht_size = ht.ht_size)
    {t' : Nat} {bytes : List (BitVec 8)} (h : ∃ h, tabs[t']? = some h ∧ posOf h bytes = pos) :
    ∃ h, (tabs.set t ht')[t']? = some h ∧ posOf h bytes = pos := by
  obtain ⟨h, hh, hpos⟩ := h
  by_cases ht2 : t' = t
  · subst ht2
    rw [hht] at hh
    obtain rfl := Option.some.inj hh
    refine ⟨ht', (tabs_set hht ht' ht' t').mpr (Or.inl ⟨rfl, rfl⟩), ?_⟩
    rw [posOf, hsize]
    exact hpos
  · exact ⟨h, (tabs_set hht ht' h t').mpr (Or.inr ⟨ht2, hh⟩), hpos⟩

/-- A key that is not there gets a node without values. -/
theorem addHash_spec (h : Wf m tabs E chains lists) (hht : tabs[t]? = some ht)
    (hmiss : ∀ a ∈ chains (some (t, posOf ht key.bytes)), keyOf m a ≠ key.bytes) :
    ∃ has ht' a chains', addHash m.hashes ht (posOf ht key.bytes) key = (has, ht', a) ∧
      Wf ⟨m.vlists, has⟩ (tabs.set t ht') (E.set t key.bytes (some [])) chains' lists ∧
      a ∈ chains' (some (t, posOf ht key.bytes)) ∧ keyOf ⟨m.vlists, has⟩ a = key.bytes ∧
      Moved Nothing m ⟨m.vlists, has⟩ chains chains' := by
  set pos := posOf ht key.bytes with hpos
  have hEnone : E t key.bytes = none := h.entry_none hht hmiss
  obtain ⟨chains1, harena, hfree, hnowhere, hn, hchains, hnode⟩ :=
    newNode_spec Hash.ha_next m.hashes h.arena h.free
  rw [← newHash] at hfree hnowhere hn hnode
  set a := (newHash m.hashes).2 with ha
  have hput := harena.put hnowhere hn (some (t, pos))
  rw [hchains, ← h.tab t ht hht pos] at hput
  set node : Hash := ⟨key, key.bytes.length, 0, none, ht.ht_tab pos⟩ with hnodedef
  set has : Nodes Hash := { (newHash m.hashes).1 with
    node := Function.update (newHash m.hashes).1.node a node } with hhas
  have hself : has.node a = node := Function.update_self ..
  have hother : ∀ b, b ≠ a → has.node b = m.hashes.node b := by
    intro b hb
    rw [← hnode]
    exact Function.update_of_ne hb ..
  have hkeyself : keyOf ⟨m.vlists, has⟩ a = key.bytes := by
    rw [keyOf, hself]
  have hkey : ∀ b, b ≠ a → keyOf ⟨m.vlists, has⟩ b = keyOf m b := by
    intro b hb
    rw [keyOf, hother b hb]
    rfl
  have hnext : haNext has = Function.update (haNext (newHash m.hashes).1) a (ht.ht_tab pos) := by
    funext b
    by_cases hb : b = a
    · rw [hb, haNext, hself, Function.update_self]
    · rw [Function.update_of_ne hb]
      exact congrArg Hash.ha_next (Function.update_of_ne hb ..)
  have hnew : ∀ i, a ∉ chains (some i) := fun i hi => hnowhere (some i) (hchains i ▸ hi)
  set chains' := Function.update chains1 (some (t, pos)) (a :: chains (some (t, pos))) with hc'
  have hmem : ∀ i b, b ∈ chains' (some i) →
      (i = (t, pos) ∧ b = a) ∨ (b ≠ a ∧ b ∈ chains (some i)) := by
    intro i b hb
    by_cases hi : i = (t, pos)
    · subst hi
      rw [hc', Function.update_self, List.mem_cons] at hb
      rcases hb with rfl | hb
      · exact Or.inl ⟨rfl, rfl⟩
      · exact Or.inr ⟨fun hc => hnew _ (hc ▸ hb), hb⟩
    · rw [hc', Function.update_of_ne fun hc => hi (Option.some.inj hc), hchains] at hb
      exact Or.inr ⟨fun hc => hnew _ (hc ▸ hb), hb⟩
  have hold : ∀ i, ∀ b ∈ chains (some i), b ∈ chains' (some i) := by
    intro i b hb
    by_cases hi : i = (t, pos)
    · subst hi
      rw [hc', Function.update_self]
      exact List.mem_cons_of_mem a hb
    · rw [hc', Function.update_of_ne fun hc => hi (Option.some.inj hc), hchains]
      exact hb
  have hain : a ∈ chains' (some (t, pos)) := by
    rw [hc', Function.update_self]
    exact List.mem_cons_self
  have hmoved : Moved Nothing m ⟨m.vlists, has⟩ chains chains' := by
    intro i rest hrest _
    refine ⟨?_, fun b hb => hkey b fun hc => hnew i (hc ▸ hrest.subset hb)⟩
    by_cases hi : i = (t, pos)
    · subst hi
      rw [hc', Function.update_self]
      exact hrest.trans (List.suffix_cons _ _)
    · rwa [hc', Function.update_of_ne fun hc => hi (Option.some.inj hc), hchains]
  refine ⟨has, setTab ht pos (some a), a, chains', rfl, ?_, hain, hkeyself, hmoved⟩
  refine ⟨?_, ?_, h.values, ?_, ?_, ?_, ?_, ?_, ?_, ?_, ?_⟩
  · rw [hnext]
    exact hput
  · rw [hc', Function.update_of_ne (Option.some_ne_none _).symm]
    exact hfree
  · intro t' h' hh' pos'
    rcases (tabs_set hht _ h' t').mp hh' with ⟨rfl, rfl⟩ | ⟨hne, hh'⟩
    · by_cases hp : pos' = pos
      · rw [hp, hc', Function.update_self]
        exact Function.update_self ..
      · have hi : some (t', pos') ≠ some (t', pos) :=
          fun hc => hp (congrArg Prod.snd (Option.some.inj hc))
        rw [hc', Function.update_of_ne hi, hchains, ← h.tab t' ht hht]
        exact Function.update_of_ne hp ..
    · have hi : some (t', pos') ≠ some (t, pos) :=
        fun hc => hne (congrArg Prod.fst (Option.some.inj hc))
      rw [hc', Function.update_of_ne hi, hchains]
      exact h.tab t' h' hh' pos'
  · intro t' h' hh'
    rcases (tabs_set hht _ h' t').mp hh' with ⟨rfl, rfl⟩ | ⟨hne, hh'⟩
    · exact h.quick t' ht hht
    · exact h.quick t' h' hh'
  · intro t' pos' b hb
    have hsize : (setTab ht pos (some a)).ht_size = ht.ht_size := rfl
    refine place_set hht hsize ?_
    rcases hmem _ b hb with ⟨hi, rfl⟩ | ⟨hba, hb⟩
    · obtain ⟨rfl, rfl⟩ := Prod.mk.inj hi
      rw [hkeyself]
      exact ⟨ht, hht, rfl⟩
    · rw [hkey b hba]
      exact h.place t' pos' b hb
  · intro i b hb
    rcases hmem _ b hb with ⟨-, rfl⟩ | ⟨hba, hb⟩
    · rw [hkeyself]
      exact congrArg Hash.ha_keylen hself
    · rw [hkey b hba, ← h.keylen i b hb]
      exact congrArg Hash.ha_keylen (hother b hba)
  · intro i b hb c hc hbc
    rcases hmem i b hb with ⟨hi, rfl⟩ | ⟨hba, hb⟩ <;> rcases hmem i c hc with ⟨hi', rfl⟩ | ⟨hca, hc⟩
    · rfl
    · rw [hkeyself, hkey c hca] at hbc
      exact absurd hbc.symm (hmiss c (hi ▸ hc))
    · rw [hkeyself, hkey b hba] at hbc
      exact absurd hbc (hmiss b (hi' ▸ hb))
    · rw [hkey b hba, hkey c hca] at hbc
      exact h.distinct i b hb c hc hbc
  · intro t' pos' b hb
    rcases hmem _ b hb with ⟨hi, rfl⟩ | ⟨hba, hb⟩
    · obtain ⟨rfl, rfl⟩ := Prod.mk.inj hi
      rw [hkeyself, Entries.set_self]
      refine ⟨[], rfl, ?_⟩
      rw [hself, h.idle a hnew]
      exact ⟨rfl, rfl, rfl⟩
    · obtain ⟨vals, hE, hholds⟩ := h.holds t' pos' b hb
      rw [hkey b hba, Entries.set_of_ne]
      · refine ⟨vals, hE, ?_⟩
        rw [hother b hba]
        exact hholds
      · rintro ⟨rfl, hbytes⟩
        rw [← hbytes, hEnone] at hE
        cases hE
  · intro t' bytes' hne
    by_cases hsame : t = t' ∧ key.bytes = bytes'
    · obtain ⟨rfl, rfl⟩ := hsame
      exact ⟨pos, a, hain, hkeyself⟩
    · rw [Entries.set_of_ne _ _ hsame] at hne
      obtain ⟨pos', b, hb, hbytes⟩ := h.here t' bytes' hne
      refine ⟨pos', b, hold _ b hb, ?_⟩
      rw [hkey b fun hc => hnew _ (hc ▸ hb)]
      exact hbytes
  · intro b hb
    exact h.idle b fun i hi => hb i (hold i b hi)

theorem haNext_setHaNext (has : Nodes Hash) (a : Nat) (next : Ptr) :
    haNext (setHaNext has a next) = Function.update (haNext has) a next := by
  funext b
  by_cases hb : b = a
  · subst hb
    simp [haNext, setHaNext]
  · simp [haNext, setHaNext, Function.update_of_ne hb]

theorem setHaNext_node (has : Nodes Hash) (a : Nat) (next : Ptr) (b : Nat) :
    ∃ next', (setHaNext has a next).node b = { has.node b with ha_next := next' } := by
  by_cases hb : b = a
  · subst hb
    exact ⟨next, Function.update_self ..⟩
  · exact ⟨(has.node b).ha_next, Function.update_of_ne hb ..⟩

/-- A node without values goes to the free list, and nothing but links and a chain's head changes. -/
theorem deleteHash_eq (has : Nodes Hash) (ht : Hashtab) (pos : Nat) (prev : Ptr) (a : Nat)
    (hn : (has.node a).ha_nvalues = 0) :
    ∃ has' ht', deleteHash has ht pos prev a = some (has', ht') ∧
      haNext has' = Function.update (unlink (haNext has) prev a) a has.freelist ∧
      has'.freelist = some a ∧ has'.count = has.count ∧
      (∀ b, ∃ next, has'.node b = { has.node b with ha_next := next }) ∧
      ht' = if prev = none then setTab ht pos (haNext has a) else ht := by
  cases prev with
  | none =>
    refine ⟨{ setHaNext has a has.freelist with freelist := some a }, setTab ht pos (haNext has a),
      ?_, haNext_setHaNext has a has.freelist, rfl, rfl, setHaNext_node has a has.freelist, rfl⟩
    rw [deleteHash, if_neg (not_not_intro hn)]
  | some p =>
    refine ⟨{ setHaNext (setHaNext has p (haNext has a)) a has.freelist with freelist := some a },
      ht, ?_, ?_, rfl, rfl, ?_, rfl⟩
    · rw [deleteHash, if_neg (not_not_intro hn)]
      rfl
    · have hlink : haNext (setHaNext has p (haNext has a)) = unlink (haNext has) (some p) a :=
        haNext_setHaNext has p (haNext has a)
      rw [← hlink]
      exact haNext_setHaNext _ a has.freelist
    · intro b
      obtain ⟨next, hnode⟩ := setHaNext_node has p (haNext has a) b
      obtain ⟨next', hnode'⟩ := setHaNext_node (setHaNext has p (haNext has a)) a has.freelist b
      refine ⟨next', hnode'.trans ?_⟩
      rw [hnode]

/-- The end of a list that a node is not in is behind it. -/
theorem suffix_of_not_mem {rest l1 l2 : List Nat} (h : rest <:+ l1 ++ a :: l2) (ha : a ∉ rest) :
    rest <:+ l1 ++ l2 := by
  induction l1 with
  | nil =>
    rcases List.suffix_cons_iff.mp h with rfl | h
    · exact absurd List.mem_cons_self ha
    · exact h
  | cons b l1 ih =>
    rcases List.suffix_cons_iff.mp h with rfl | h
    · exact absurd (List.mem_append_right (b :: l1) List.mem_cons_self) ha
    · exact (ih h).trans (List.suffix_cons _ _)

/-- A node whose values are gone is deleted, and with it the entry of its key. -/
theorem deleteHash_spec (h : Wf m tabs E chains lists) (hht : tabs[t]? = some ht) {l1 l2 : List Nat}
    (hsplit : chains (some (t, pos)) = l1 ++ a :: l2) {vls : Nodes Vlist} {u : Ptr}
    (hvalues : Values vls lists') (hkept : Kept a m.vlists vls lists lists')
    (hnil : lists' (some a) = []) :
    ∃ has' ht', deleteHash (withValues m a vls
          { m.hashes.node a with ha_u := u, ha_nvalues := 0 }).hashes ht pos l1.getLast? a =
        some (has', ht') ∧
      Next (· = keyOf m a) m chains ⟨vls, has'⟩ (tabs.set t ht') (E.set t (keyOf m a) none) := by
  set node : Hash := { m.hashes.node a with ha_u := u, ha_nvalues := 0 } with hnodedef
  have hn : ((withValues m a vls node).hashes.node a).ha_nvalues = 0 := by
    rw [withValues_node_self]
  obtain ⟨has', ht', hdelete, hnext, hfree, hcount, hnode, hht'⟩ :=
    deleteHash_eq (withValues m a vls node).hashes ht pos l1.getLast? a hn
  have hnext0 : haNext (withValues m a vls node).hashes = haNext m.hashes := withValues_next rfl
  rw [hnext0] at hnext hht'
  have ha : a ∈ chains (some (t, pos)) := by
    rw [hsplit]
    exact List.mem_append_right _ List.mem_cons_self
  obtain ⟨htake, hnowhere⟩ := h.arena.take hsplit
  have hput := htake.put hnowhere (h.arena.bound _ a ha) none
  have hnone : Function.update chains (some (t, pos)) (l1 ++ l2) none = chains none :=
    Function.update_of_ne (Option.some_ne_none _).symm ..
  rw [hnone, ← h.free] at hput
  set chains' := Function.update (Function.update chains (some (t, pos)) (l1 ++ l2)) none
    (a :: chains none) with hc'
  have hchains : ∀ i, chains' (some i) = Function.update chains (some (t, pos)) (l1 ++ l2) (some i) :=
    fun i => Function.update_of_ne (Option.some_ne_none i) ..
  have hmem : ∀ i b, b ∈ chains' (some i) ↔ b ≠ a ∧ b ∈ chains (some i) := by
    intro i b
    rw [hchains]
    by_cases hi : i = (t, pos)
    · subst hi
      have hnodup := h.arena.nodup (some (t, pos))
      rw [hsplit, List.perm_middle.nodup_iff, List.nodup_cons] at hnodup
      rw [Function.update_self, hsplit, List.perm_middle.mem_iff, List.mem_cons]
      constructor
      · intro hb
        exact ⟨fun hc => hnodup.1 (hc ▸ hb), Or.inr hb⟩
      · rintro ⟨hba, hb | hb⟩
        · exact absurd hb hba
        · exact hb
    · rw [Function.update_of_ne fun hc => hi (Option.some.inj hc)]
      constructor
      · intro hb
        refine ⟨?_, hb⟩
        rintro rfl
        exact hi (Option.some.inj (h.arena.apart _ _ b hb ha))
      · exact fun hb => hb.2
  have hkey : ∀ b, keyOf ⟨vls, has'⟩ b = keyOf m b := by
    intro b
    obtain ⟨next, hb⟩ := hnode b
    have hsame : ∀ c, keyOf (withValues m a vls node) c = keyOf m c := withValues_key rfl
    rw [keyOf, hb]
    exact hsame b
  have hsize : ht'.ht_size = ht.ht_size ∧ ht'.ht_qkey = ht.ht_qkey := by
    rw [hht']
    split
    · exact ⟨rfl, rfl⟩
    · exact ⟨rfl, rfl⟩
  have hmoved : Moved (· = keyOf m a) m ⟨vls, has'⟩ chains chains' := by
    intro i rest hrest hgone
    refine ⟨?_, fun b _ => hkey b⟩
    have hnot : a ∉ rest := fun hc => hgone a hc rfl
    rw [hchains]
    by_cases hi : i = (t, pos)
    · subst hi
      rw [Function.update_self]
      rw [hsplit] at hrest
      exact suffix_of_not_mem hrest hnot
    · rwa [Function.update_of_ne fun hc => hi (Option.some.inj hc)]
  refine ⟨has', ht', hdelete, chains', lists', ?_, hmoved⟩
  refine ⟨?_, ?_, hvalues, ?_, ?_, ?_, ?_, ?_, ?_, ?_, ?_⟩
  · rw [hnext, hcount]
    exact hput
  · rw [hfree, hc', Function.update_self]
    rfl
  · intro t2 h2 hh2 pos2
    rw [hchains]
    rcases (tabs_set hht _ h2 t2).mp hh2 with ⟨rfl, rfl⟩ | ⟨hne, hh2⟩
    · by_cases hp : pos2 = pos
      · subst hp
        rw [Function.update_self, hht']
        cases l1 with
        | nil =>
          have hlinked := h.arena.linked (some (t2, pos2))
          rw [hsplit, List.nil_append, linked_cons] at hlinked
          exact (Function.update_self ..).trans hlinked.1
        | cons b l1 =>
          rw [if_neg (by simp), h.tab t2 ht hht, hsplit]
          rfl
      · have hi : some (t2, pos2) ≠ some (t2, pos) :=
          fun hc => hp (congrArg Prod.snd (Option.some.inj hc))
        rw [Function.update_of_ne hi, ← h.tab t2 ht hht, hht']
        split
        · exact Function.update_of_ne hp ..
        · rfl
    · have hi : some (t2, pos2) ≠ some (t, pos) :=
        fun hc => hne (congrArg Prod.fst (Option.some.inj hc))
      rw [Function.update_of_ne hi]
      exact h.tab t2 h2 hh2 pos2
  · intro t2 h2 hh2
    rcases (tabs_set hht _ h2 t2).mp hh2 with ⟨rfl, rfl⟩ | ⟨hne, hh2⟩
    · rw [hsize.2]
      exact h.quick t2 ht hht
    · exact h.quick t2 h2 hh2
  · intro t2 pos2 b hb
    rw [hkey]
    exact place_set hht hsize.1 (h.place t2 pos2 b ((hmem _ b).mp hb).2)
  · intro i b hb
    obtain ⟨hba, hb⟩ := (hmem i b).mp hb
    obtain ⟨next, hb'⟩ := hnode b
    rw [hkey, hb', withValues_node_of_ne _ _ _ hba]
    exact h.keylen i b hb
  · intro i b hb c hc hbc
    rw [hkey, hkey] at hbc
    exact h.distinct i b ((hmem i b).mp hb).2 c ((hmem i c).mp hc).2 hbc
  · intro t2 pos2 b hb
    obtain ⟨hba, hb⟩ := (hmem _ b).mp hb
    obtain ⟨vals, hE, hholds⟩ := h.holds t2 pos2 b hb
    obtain ⟨next, hb'⟩ := hnode b
    rw [hkey, Entries.set_of_ne, hb', withValues_node_of_ne _ _ _ hba]
    · exact ⟨vals, hE, hkept.holds hba hholds⟩
    · rintro ⟨rfl, hsame⟩
      exact hba (h.unique hb ha hsame.symm)
  · intro t2 bytes2 hne
    by_cases hsame : t = t2 ∧ keyOf m a = bytes2
    · obtain ⟨rfl, rfl⟩ := hsame
      exact absurd (Entries.set_self E t (keyOf m a) none) hne
    · rw [Entries.set_of_ne _ _ hsame] at hne
      obtain ⟨pos2, b, hb, hbytes⟩ := h.here t2 bytes2 hne
      refine ⟨pos2, b, (hmem _ b).mpr ⟨?_, hb⟩, (hkey b).trans hbytes⟩
      rintro rfl
      refine hsame ⟨?_, hbytes⟩
      exact (congrArg Prod.fst (Option.some.inj (h.arena.apart _ _ b hb ha))).symm
  · intro b hb
    by_cases hba : b = a
    · rw [hba]
      exact hnil
    · rw [hkept.same_lists b hba]
      apply h.idle
      intro i hi
      exact hb i ((hmem i b).mpr ⟨hba, hi⟩)

/-! ## The calls -/

theorem set_same (hht : tabs[t]? = some ht) : tabs.set t ht = tabs := by
  obtain ⟨hlt, heq⟩ := List.getElem?_eq_some_iff.mp hht
  rw [← heq]
  exact List.set_getElem_self hlt

theorem Entries.set_entry (E : Entries) (t : Nat) (bytes : List (BitVec 8)) :
    E.set t bytes (E t bytes) = E := by
  funext t' bytes'
  by_cases h : t = t' ∧ bytes = bytes'
  · obtain ⟨rfl, rfl⟩ := h
    exact E.set_self t bytes _
  · exact E.set_of_ne _ h

theorem hashEnterKey_spec (h : Wf m tabs E chains lists) (hht : tabs[t]? = some ht) (key : Key) :
    ∃ m' ht', hashEnterKey m ht key = some (m', ht') ∧
      Next Nothing m chains m' (tabs.set t ht')
        (E.set t key.bytes (some ((E t key.bytes).getD []))) := by
  rcases findHash_spec h hht key with ⟨l1, a, l2, hsplit, hkey, hfound⟩ | ⟨hmiss, prev, hfound⟩
  · have ha : a ∈ chains (some (t, posOf ht key.bytes)) := by
      rw [hsplit]
      exact List.mem_append_right _ List.mem_cons_self
    obtain ⟨vals, hE, -⟩ := h.holds _ _ a ha
    rw [hkey] at hE
    refine ⟨m, ht, by rw [hashEnterKey, hfound], ?_⟩
    have hsame : some ((E t key.bytes).getD []) = E t key.bytes := by
      rw [hE]
      rfl
    rw [hsame, E.set_entry, set_same hht]
    exact ⟨chains, lists, h, moved_of_keys fun _ _ _ => rfl⟩
  · obtain ⟨has, ht', a, chains', hadd, hwf, -, -, hmoved⟩ := addHash_spec h hht hmiss
    refine ⟨⟨m.vlists, has⟩, ht', ?_, ?_⟩
    · rw [hashEnterKey, hfound]
      dsimp only
      rw [hadd]
    · rw [h.entry_none hht hmiss]
      exact ⟨chains', lists, hwf, hmoved⟩

theorem hashEnter_spec (h : Wf m tabs E chains lists) (hht : tabs[t]? = some ht) (key : Key)
    (value : Ptr) :
    ∃ m' ht', hashEnter m ht key value = some (m', ht') ∧
      Next Nothing m chains m' (tabs.set t ht')
        (E.set t key.bytes ((E t key.bytes).enter value)) := by
  rcases findHash_spec h hht key with ⟨l1, a, l2, hsplit, hkey, hfound⟩ | ⟨hmiss, prev, hfound⟩
  · have ha : a ∈ chains (some (t, posOf ht key.bytes)) := by
      rw [hsplit]
      exact List.mem_append_right _ List.mem_cons_self
    obtain ⟨vals, hE, -⟩ := h.holds _ _ a ha
    obtain ⟨lists', hwf, hkeys⟩ := addValueAt_spec h ha hE value
    rw [hkey] at hE hwf
    refine ⟨addValueAt m a value, ht, by rw [hashEnter, hfound], ?_⟩
    rw [set_same hht, hE]
    exact ⟨chains, lists', hwf, moved_of_keys fun _ b _ => hkeys b⟩
  · obtain ⟨has, ht', a, chains', hadd, hwf, ha, hkey, hmoved⟩ := addHash_spec h hht hmiss
    refine ⟨addValueAt ⟨m.vlists, has⟩ a value, ht', ?_, ?_⟩
    · rw [hashEnter, hfound]
      dsimp only
      rw [hadd]
    · have hE : E.set t key.bytes (some []) t (keyOf ⟨m.vlists, has⟩ a) = some [] := by
        rw [hkey]
        exact E.set_self t key.bytes _
      obtain ⟨lists', hwf', hkeys⟩ := addValueAt_spec hwf ha hE value
      rw [hkey, Entries.set_set] at hwf'
      rw [h.entry_none hht hmiss]
      refine ⟨chains', lists', hwf', fun i rest hrest hnot => ?_⟩
      obtain ⟨hrest', hsame⟩ := hmoved i rest hrest hnot
      exact ⟨hrest', fun b hb => (hkeys b).trans (hsame b hb)⟩

theorem hashDeleteKey_spec (h : Wf m tabs E chains lists) (hht : tabs[t]? = some ht) {key : Key}
    (hE : E t key.bytes ≠ none) :
    ∃ m' ht', hashDeleteKey m ht key = some (m', ht') ∧
      Next (· = key.bytes) m chains m' (tabs.set t ht') (E.set t key.bytes none) := by
  rcases findHash_spec h hht key with ⟨l1, a, l2, hsplit, hkey, hfound⟩ | ⟨hmiss, -, -⟩
  · have ha : a ∈ chains (some (t, posOf ht key.bytes)) := by
      rw [hsplit]
      exact List.mem_append_right _ List.mem_cons_self
    obtain ⟨vals, -, hholds⟩ := h.holds _ _ a ha
    obtain ⟨vls, lists', u, hdelall, hvalues, hkept, hnil⟩ := deleteAllValues_spec h.values hholds
    obtain ⟨has', ht', hdelete, hrep⟩ := deleteHash_spec (u := u) h hht hsplit hvalues hkept hnil
    rw [hkey] at hrep
    refine ⟨⟨vls, has'⟩, ht', ?_, hrep⟩
    rw [hashDeleteKey, hfound]
    dsimp only
    rw [hdelall]
    dsimp only
    rw [hdelete]
    rfl
  · exact absurd (h.entry_none hht hmiss) hE

/-- The key goes with its last value. -/
theorem hashDelete_spec (h : Wf m tabs E chains lists) (hht : tabs[t]? = some ht) {key : Key}
    {value : Ptr} (hmem : value ∈ (E t key.bytes).getD []) :
    ∃ m' ht', hashDelete m ht key value = some (m', ht') ∧
      Next (· = key.bytes) m chains m' (tabs.set t ht')
        (E.set t key.bytes ((E t key.bytes).delete value)) := by
  rcases findHash_spec h hht key with ⟨l1, a, l2, hsplit, hkey, hfound⟩ | ⟨hmiss, -, -⟩
  · have ha : a ∈ chains (some (t, posOf ht key.bytes)) := by
      rw [hsplit]
      exact List.mem_append_right _ List.mem_cons_self
    obtain ⟨vals, hE, hholds⟩ := h.holds _ _ a ha
    rw [hkey] at hE
    rw [hE, Option.getD_some] at hmem
    obtain ⟨vls, lists', u, hdel, hvalues, hkept, hholds'⟩ :=
      deleteValue_spec h.values hholds hmem
    have hlen : vals.length - 1 = (vals.erase value).length := hholds'.1
    rw [hashDelete, hfound]
    dsimp only
    rw [hdel]
    dsimp only
    cases herase : vals.erase value with
    | nil =>
      rw [herase] at hholds' hlen
      have hdelete : (E t key.bytes).delete value = none := by
        rw [hE, Entry.delete, Option.getD_some, herase]
      have h0 : vals.length - 1 = 0 := hlen
      rw [if_pos h0, hdelete, h0]
      obtain ⟨has', ht', hdelh, hrep⟩ := deleteHash_spec (u := u) h hht hsplit hvalues hkept
        hholds'.2.2
      rw [hkey] at hrep
      refine ⟨⟨vls, has'⟩, ht', ?_, hrep⟩
      rw [hdelh]
      rfl
    | cons v rest =>
      rw [herase] at hholds' hlen
      have hdelete : (E t key.bytes).delete value = some (v :: rest) := by
        rw [hE, Entry.delete, Option.getD_some, herase]
      have hne : vals.length - 1 ≠ 0 := by
        rw [hlen, List.length_cons]
        omega
      rw [if_neg hne, hdelete]
      have hwf := h.change ha hvalues hkept hholds'
      rw [hkey] at hwf
      have hkeys : ∀ b, keyOf (withValues m a vls
          { m.hashes.node a with ha_u := u, ha_nvalues := vals.length - 1 }) b = keyOf m b :=
        withValues_key rfl
      refine ⟨_, ht, rfl, ?_⟩
      rw [set_same hht]
      exact ⟨chains, lists', hwf, moved_of_keys fun _ b _ => hkeys b⟩
  · rw [h.entry_none hht hmiss] at hmem
    exact absurd hmem List.not_mem_nil

/-- A new table is empty, and no key of the others moves. -/
theorem hashCreateTab_spec (h : Rep m tabs E) (size : Nat) (qhash : Qhash) :
    Rep m (tabs ++ [hashCreateTab size none qhash]) E := by
  obtain ⟨chains, lists, h⟩ := h
  have hold : ∀ (t : Nat) ht, tabs[t]? = some ht →
      (tabs ++ [hashCreateTab size none qhash])[t]? = some ht := by
    intro t ht hht
    rw [List.getElem?_append_left (List.getElem?_eq_some_iff.mp hht).1]
    exact hht
  have hnew : ∀ (t : Nat) ht, (tabs ++ [hashCreateTab size none qhash])[t]? = some ht →
      tabs[t]? = some ht ∨ (tabs[t]? = none ∧ ht = hashCreateTab size none qhash) := by
    intro t ht hht
    rcases Nat.lt_or_ge t tabs.length with hlt | hge
    · rw [List.getElem?_append_left hlt] at hht
      exact Or.inl hht
    · rw [List.getElem?_append_right hge] at hht
      refine Or.inr ⟨List.getElem?_eq_none hge, ?_⟩
      exact List.mem_singleton.mp (List.mem_of_getElem? hht)
  refine ⟨chains, lists, h.arena, h.free, h.values, ?_, ?_, ?_, h.keylen, h.distinct, h.holds,
    h.here, h.idle⟩
  · intro t ht hht pos
    rcases hnew t ht hht with hht | ⟨hnone, rfl⟩
    · exact h.tab t ht hht pos
    · have hempty : chains (some (t, pos)) = [] := by
        rw [List.eq_nil_iff_forall_not_mem]
        intro a ha
        obtain ⟨ht, hht, -⟩ := h.place t pos a ha
        rw [hnone] at hht
        cases hht
      rw [hempty]
      rfl
  · intro t ht hht
    rcases hnew t ht hht with hht | ⟨-, rfl⟩
    · exact h.quick t ht hht
    · rfl
  · intro t pos a ha
    obtain ⟨ht, hht, hpos⟩ := h.place t pos a ha
    exact ⟨ht, hold t ht hht, hpos⟩

/-- The state stands for what the calls have entered and not deleted. -/
def Stands (p : Program) (calls : List Call) : Prop :=
  p.tabs.length = ntabs calls ∧ Rep p.memory p.tabs (entryOf calls)

theorem entryOf_append (calls : List Call) (c : Call) (t : Nat) (bytes : List (BitVec 8)) :
    entryOf (calls ++ [c]) t bytes = c.onEntry t bytes (entryOf calls t bytes) :=
  List.foldl_append

theorem onTab_spec {p : Program} {calls : List Call} (h : Stands p calls) {c : Call} {t : Nat}
    (ht : t < ntabs calls) {f : Memory → Hashtab → Option (Memory × Hashtab)}
    (hntabs : ntabs (calls ++ [c]) = ntabs calls)
    (hf : ∀ ht, p.tabs[t]? = some ht → ∃ m' ht', f p.memory ht = some (m', ht') ∧
      Rep m' (p.tabs.set t ht') (entryOf (calls ++ [c]))) :
    ∃ p', onTab p t f = some p' ∧ Stands p' (calls ++ [c]) := by
  have hlt : t < p.tabs.length := h.1.symm ▸ ht
  have hht := List.getElem?_eq_getElem hlt
  obtain ⟨m', ht', hrun, hrep⟩ := hf _ hht
  refine ⟨⟨m', p.tabs.set t ht'⟩, ?_, ?_, hrep⟩
  · rw [onTab, hht]
    dsimp only
    rw [hrun]
    rfl
  · rw [List.length_set, hntabs]
    exact h.1

theorem ntabs_append (calls : List Call) (c : Call) :
    ntabs (calls ++ [c]) = ntabs calls + ntabs [c] :=
  List.countP_append

/-- A call changes the entry of one key. -/
theorem entryOf_set {calls : List Call} {c : Call} (t : Nat) (key : Key) (f : Entry → Entry)
    (hc : ∀ t' bytes e, c.onEntry t' bytes e = if t = t' ∧ key.bytes = bytes then f e else e) :
    entryOf (calls ++ [c]) =
      Entries.set (entryOf calls) t key.bytes (f (entryOf calls t key.bytes)) := by
  funext t' bytes
  rw [entryOf_append, hc]
  by_cases h : t = t' ∧ key.bytes = bytes
  · obtain ⟨rfl, rfl⟩ := h
    rw [if_pos ⟨rfl, rfl⟩, Entries.set_self]
  · rw [if_neg h, Entries.set_of_ne _ _ h]

/-- A legal call does not panic, and does to the entries what it does to the key's one. -/
theorem exec_step {p : Program} {calls : List Call} (h : Stands p calls) {c : Call}
    (hlegal : c.legal calls) : ∃ p', c.exec p = some p' ∧ Stands p' (calls ++ [c]) := by
  cases c with
  | hash_create_tab size =>
    refine ⟨_, rfl, ?_, ?_⟩
    · rw [List.length_append, h.1, ntabs_append]
      rfl
    · have hentries : entryOf (calls ++ [.hash_create_tab size]) = entryOf calls := by
        funext t bytes
        exact entryOf_append calls _ t bytes
      rw [hentries]
      exact hashCreateTab_spec h.2 size _
  | hash_enter_key t key =>
    refine onTab_spec (c := .hash_enter_key t key) (f := fun m ht => hashEnterKey m ht key)
      h hlegal (ntabs_append calls _) ?_
    intro ht hht
    rw [entryOf_set t key (fun e => some (e.getD [])) fun _ _ _ => rfl]
    obtain ⟨chains, lists, hwf⟩ := h.2
    obtain ⟨m', ht', hrun, hnext⟩ := hashEnterKey_spec hwf hht key
    exact ⟨m', ht', hrun, hnext.rep⟩
  | hash_enter t key value =>
    refine onTab_spec (c := .hash_enter t key value) (f := fun m ht => hashEnter m ht key value)
      h hlegal (ntabs_append calls _) ?_
    intro ht hht
    rw [entryOf_set t key (fun e => e.enter value) fun _ _ _ => rfl]
    obtain ⟨chains, lists, hwf⟩ := h.2
    obtain ⟨m', ht', hrun, hnext⟩ := hashEnter_spec hwf hht key value
    exact ⟨m', ht', hrun, hnext.rep⟩
  | hash_delete t key value =>
    refine onTab_spec (c := .hash_delete t key value) (f := fun m ht => hashDelete m ht key value)
      h hlegal.1 (ntabs_append calls _) ?_
    intro ht hht
    rw [entryOf_set t key (fun e => e.delete value) fun _ _ _ => rfl]
    obtain ⟨chains, lists, hwf⟩ := h.2
    obtain ⟨m', ht', hrun, hnext⟩ := hashDelete_spec hwf hht hlegal.2
    exact ⟨m', ht', hrun, hnext.rep⟩
  | hash_delete_key t key =>
    refine onTab_spec (c := .hash_delete_key t key) (f := fun m ht => hashDeleteKey m ht key)
      h hlegal.1 (ntabs_append calls _) ?_
    intro ht hht
    rw [entryOf_set t key (fun _ => none) fun _ _ _ => rfl]
    obtain ⟨chains, lists, hwf⟩ := h.2
    obtain ⟨m', ht', hrun, hnext⟩ := hashDeleteKey_spec hwf hht (Option.isSome_iff_ne_none.mp hlegal.2)
    exact ⟨m', ht', hrun, hnext.rep⟩

theorem exec_run {p : Program} {before : List Call} (h : Stands p before) {calls : List Call}
    (hlegal : LegalAfter before calls) :
    ∃ p', exec p calls = some p' ∧ Stands p' (before ++ calls) := by
  induction calls generalizing p before with
  | nil =>
    rw [List.append_nil]
    exact ⟨p, rfl, h⟩
  | cons c calls ih =>
    obtain ⟨p1, hp1, h1⟩ := exec_step h hlegal.1
    obtain ⟨p2, hp2, h2⟩ := ih h1 hlegal.2
    rw [List.append_assoc] at h2
    refine ⟨p2, ?_, h2⟩
    rw [exec, hp1]
    exact hp2

theorem stands_start (vlist : Nat → Vlist) (hash : Nat → Hash) :
    Stands (Program.start vlist hash) [] := by
  refine ⟨rfl, fun _ => [], fun _ => [], ?_⟩
  have harena : ∀ {ι : Type} (next : Nat → Ptr), Arena next 0 fun _ : ι => [] := by
    intro ι next
    exact ⟨fun _ => linked_nil, fun _ => List.nodup_nil, fun _ _ _ h => absurd h List.not_mem_nil,
      fun _ _ h => absurd h List.not_mem_nil⟩
  refine ⟨harena _, rfl, ⟨harena _, rfl⟩, ?_, ?_, ?_, ?_, ?_, ?_, ?_, fun _ _ => rfl⟩
  · intro t ht hht
    cases hht
  · intro t ht hht
    cases hht
  · exact fun _ _ _ h => absurd h List.not_mem_nil
  · exact fun _ _ h => absurd h List.not_mem_nil
  · exact fun _ _ h => absurd h List.not_mem_nil
  · exact fun _ _ _ h => absurd h List.not_mem_nil
  · exact fun _ _ h => absurd rfl h

/-- After legal calls the tables are the multimaps of what was entered and not deleted: a lookup
says whether the key has an entry and delivers its values, and `hash_lookup` gives the newest one. -/
theorem hash_tables_are_multimaps (vlist : Nat → Vlist) (hash : Nat → Hash) (calls : List Call)
    (hlegal : LegalAfter [] calls) :
    ∃ p, exec (Program.start vlist hash) calls = some p ∧ p.tabs.length = ntabs calls ∧
      ∀ t ht, p.tabs[t]? = some ht → ∀ key,
        (∀ hv, ∃ hv', hashLookupKey p.memory ht key hv =
            some ((entryOf calls t key.bytes).isSome, hv') ∧
          ∀ vals, entryOf calls t key.bytes = some vals → hv'.values = vals) ∧
        hashLookup p.memory ht key =
          some ((entryOf calls t key.bytes).bind fun vals => vals.head?.join) := by
  obtain ⟨p, hrun, hlen, hrep⟩ := exec_run (stands_start vlist hash) hlegal
  rw [List.nil_append] at hlen hrep
  refine ⟨p, hrun, hlen, ?_⟩
  intro t ht hht key
  refine ⟨?_, hashLookup_spec hrep hht key⟩
  intro hv
  obtain ⟨hv', hlookup, -, hvals⟩ := hashLookupKey_spec hrep hht key hv
  exact ⟨hv', hlookup, hvals⟩

/-- A key with two values. -/
def twoValues : List Call :=
  [.hash_create_tab 3, .hash_enter 0 ⟨1, [7]⟩ (some 5), .hash_enter 0 ⟨1, [7]⟩ (some 6)]

theorem hash_tables_are_multimaps_two : LegalAfter [] twoValues ∧
    ∃ p, exec (Program.start (fun _ => ⟨none, none⟩) fun _ => ⟨⟨0, []⟩, 0, 0, none, none⟩)
      twoValues = some p ∧ p.tabs.length = 1 := by
  have hlegal : LegalAfter [] twoValues := by decide
  obtain ⟨p, hrun, hlen, -⟩ := hash_tables_are_multimaps (fun _ => ⟨none, none⟩)
    (fun _ => ⟨⟨0, []⟩, 0, 0, none, none⟩) twoValues hlegal
  exact ⟨hlegal, p, hrun, hlen⟩

/-- A key that is entered, gets a value and loses it. -/
def lastValueDeleted : List Call :=
  [.hash_create_tab 3, .hash_enter_key 0 ⟨1, [7]⟩, .hash_enter 0 ⟨1, [7]⟩ (some 5),
    .hash_delete 0 ⟨1, [7]⟩ (some 5)]

/-- The key is gone, although only its value was deleted. -/
theorem last_value_takes_key : LegalAfter [] lastValueDeleted ∧
    (∀ t key, Call.hash_delete_key t key ∉ lastValueDeleted) ∧
    ((exec (Program.start (fun _ => ⟨none, none⟩) fun _ => ⟨⟨0, []⟩, 0, 0, none, none⟩)
      lastValueDeleted).bind fun p => p.tabs[0]?.bind fun ht =>
        (hashLookupKey p.memory ht ⟨1, [7]⟩ hashMakeHashvalues).map Prod.fst) = some false := by
  refine ⟨by decide, ?_, by decide⟩
  intro t key
  simp [lastValueDeleted]

end ups_rules.hash_tab
