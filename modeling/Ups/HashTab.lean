-- The chained hash table of libmtrprog (hash.c), over a memory in which its nodes lie, and the
-- finite multimap it stands for.
import Mathlib.Data.List.Basic
import Mathlib.Logic.Function.Basic
import Ups.NodeArena

open node_arena

namespace ups_rules.hash_tab

/-! ## The pure model -/

/-- A pointer; `none` is NULL. -/
abbrev Ptr := Option Nat

/-- A hash_key_t that is not NULL, with the `keylen` bytes it points to. -/
structure Key where
  addr : Nat
  bytes : List (BitVec 8)
deriving DecidableEq

/-- A vlist_t; a hash_value_t is a pointer. -/
structure Vlist where
  vl_value : Ptr
  vl_next : Ptr

/-- A hash_t. The union has one word for `ha_vlist` and `ha_value`. -/
structure Hash where
  ha_key : Key
  ha_keylen : Nat
  ha_nvalues : Nat
  ha_u : Ptr
  ha_next : Ptr

/-- The nodes of one type, of which `alloc` has given the first `count`, and their free list. -/
structure Nodes (β : Type) where
  node : Nat → β
  count : Nat
  freelist : Ptr

structure Qhash where
  qh_hash : Ptr
  qh_prev : Ptr
  qh_pos : Nat

/-- A hashtab_t. -/
structure Hashtab where
  ht_size : Nat
  ht_tab : Nat → Ptr
  ht_qkey : Ptr
  ht_qhash : Qhash

/-- `Vlist_freelist`, `Hash_freelist` and the nodes of all the tables. -/
structure Memory where
  vlists : Nodes Vlist
  hashes : Nodes Hash

def DESIRED_CHAIN_LENGTH : Nat := 4

/-- The pointers of the value nodes and of the key nodes. -/
def vlNext (vls : Nodes Vlist) (vl : Nat) : Ptr := (vls.node vl).vl_next

def haNext (has : Nodes Hash) (ha : Nat) : Ptr := (has.node ha).ha_next

def setVlNext (vls : Nodes Vlist) (vl : Nat) (next : Ptr) : Nodes Vlist :=
  { vls with node := Function.update vls.node vl { vls.node vl with vl_next := next } }

/-- `vl->vl_next = Vlist_freelist; Vlist_freelist = vl;` -/
def freeVlist (vls : Nodes Vlist) (vl : Nat) : Nodes Vlist :=
  { setVlNext vls vl vls.freelist with freelist := some vl }

/-- The first node of the free list, or else a new one from `alloc`. -/
def newNode {β : Type} (next : β → Ptr) (nodes : Nodes β) : Nodes β × Nat :=
  match nodes.freelist with
  | none => ({ nodes with count := nodes.count + 1 }, nodes.count)
  | some a => ({ nodes with freelist := next (nodes.node a) }, a)

def newVlist (vls : Nodes Vlist) : Nodes Vlist × Nat := newNode Vlist.vl_next vls

def pushVlist (vls : Nodes Vlist) (ha : Hash) (value : Ptr) : Nodes Vlist × Hash :=
  let (vls, vl) := newVlist vls
  ({ vls with node := Function.update vls.node vl ⟨value, ha.ha_u⟩ }, { ha with ha_u := some vl })

def addValue (vls : Nodes Vlist) (ha : Hash) (value : Ptr) : Nodes Vlist × Hash :=
  let (vls, ha) :=
    if ha.ha_nvalues = 0 then (vls, { ha with ha_u := value })
    else
      let (vls, ha) :=
        if ha.ha_nvalues = 1 then pushVlist vls { ha with ha_u := none } ha.ha_u else (vls, ha)
      pushVlist vls ha value
  (vls, { ha with ha_nvalues := ha.ha_nvalues + 1 })

/-- `none` is a panic, or a loop without an end. -/
def deleteValue (vls : Nodes Vlist) (ha : Hash) (value : Ptr) : Option (Nodes Vlist × Hash) :=
  if ha.ha_nvalues = 0 then none
  else if ha.ha_nvalues = 1 then
    if ha.ha_u ≠ value then none else some (vls, { ha with ha_u := none, ha_nvalues := 0 })
  else
    match search (vlNext vls) (fun vl => (vls.node vl).vl_value == value) (vls.count + 1)
        ha.ha_u none with
    | some (some vl, prev) =>
      let next := vlNext vls vl
      let (vls, ha) :=
        match prev with
        | none => (vls, { ha with ha_u := next })
        | some prev => (setVlNext vls prev next, ha)
      let vls := freeVlist vls vl
      if ha.ha_nvalues = 2 then
        match ha.ha_u with
        | none => none
        | some last =>
          let last_value := (vls.node last).vl_value
          some (freeVlist vls last, { ha with ha_u := last_value, ha_nvalues := 1 })
      else some (vls, { ha with ha_nvalues := ha.ha_nvalues - 1 })
    | _ => none

def deleteAllValues (vls : Nodes Vlist) (ha : Hash) : Option (Nodes Vlist × Hash) :=
  if ha.ha_nvalues > 1 then
    match search (vlNext vls) (fun _ => false) (vls.count + 1) ha.ha_u none with
    | some (_, some prev) =>
      some ({ setVlNext vls prev vls.freelist with freelist := ha.ha_u },
        { ha with ha_u := none, ha_nvalues := 0 })
    | _ => none
  else some (vls, { ha with ha_nvalues := 0 })

def setHaNext (has : Nodes Hash) (ha : Nat) (next : Ptr) : Nodes Hash :=
  { has with node := Function.update has.node ha { has.node ha with ha_next := next } }

def newHash (has : Nodes Hash) : Nodes Hash × Nat := newNode Hash.ha_next has

def setTab (ht : Hashtab) (pos : Nat) (ha : Ptr) : Hashtab :=
  { ht with ht_tab := Function.update ht.ht_tab pos ha }

def addHash (has : Nodes Hash) (ht : Hashtab) (pos : Nat) (key : Key) :
    Nodes Hash × Hashtab × Nat :=
  let (has, ha) := newHash has
  let node : Hash := ⟨key, key.bytes.length, 0, none, ht.ht_tab pos⟩
  ({ has with node := Function.update has.node ha node }, setTab ht pos (some ha), ha)

def deleteHash (has : Nodes Hash) (ht : Hashtab) (pos : Nat) (prev : Ptr) (ha : Nat) :
    Option (Nodes Hash × Hashtab) :=
  if (has.node ha).ha_nvalues ≠ 0 then none
  else
    let next := haNext has ha
    let (has, ht) :=
      match prev with
      | some prev => (setHaNext has prev next, ht)
      | none => (has, setTab ht pos next)
    some ({ setHaNext has ha has.freelist with freelist := some ha }, ht)

/-- The loop over the first bytes of the key; a char is signed. -/
def hashOf (bytes : List (BitVec 8)) : BitVec 32 :=
  (bytes.take 16).foldl (fun hash c => (hash <<< 8) + (hash <<< 2) + c.signExtend 32) 0

def posOf (ht : Hashtab) (bytes : List (BitVec 8)) : Nat := (hashOf bytes).toNat % ht.ht_size

/-- The lengths are equal, and `memcmp` finds no difference in that many bytes. -/
def sameKey (ha : Hash) (key : Key) : Bool :=
  ha.ha_keylen == key.bytes.length &&
    ha.ha_key.bytes.take key.bytes.length == key.bytes.take key.bytes.length

/-- The node of the key, the place of its chain, and the node before it. -/
def findHash (has : Nodes Hash) (ht : Hashtab) (key : Key) : Option (Ptr × Nat × Ptr) :=
  if some key.addr = ht.ht_qkey then
    some (ht.ht_qhash.qh_hash, ht.ht_qhash.qh_pos, ht.ht_qhash.qh_prev)
  else
    let pos := posOf ht key.bytes
    match search (haNext has) (fun ha => sameKey (has.node ha) key) (has.count + 1)
        (ht.ht_tab pos) none with
    | none => none
    | some (ha, prev) => some (ha, pos, prev)

/-- A hashvalues_t; `hv_values` has the whole buffer. -/
structure Hashvalues where
  hv_nvalues : Nat
  hv_values : List Ptr
  hv__max_nvalues : Nat
  room : hv_values.length = hv__max_nvalues
  pos : 0 < hv__max_nvalues

def hashMakeHashvalues : Hashvalues := ⟨0, List.replicate 10 none, 10, rfl, by decide⟩

/-- The values that are delivered. -/
def Hashvalues.values (hv : Hashvalues) : List Ptr := hv.hv_values.take hv.hv_nvalues

/-- `while (n > max) max *= 2;` with a bound for the number of rounds. -/
def doubled (n : Nat) : Nat → Nat → Nat
  | 0, max => max
  | fuel + 1, max => if n > max then doubled n fuel (max * 2) else max

theorem doubled_pos (n fuel : Nat) : ∀ max, 0 < max → 0 < doubled n fuel max := by
  induction fuel with
  | zero => exact fun _ h => h
  | succ fuel ih =>
    intro max h
    rw [doubled]
    split
    · exact ih _ (by omega)
    · exact h

/-- The buffer when there is room for `n` values in it; a new one holds anything. -/
def makeRoom (hv : Hashvalues) (n : Nat) : Hashvalues :=
  if n > hv.hv__max_nvalues then
    let max := doubled n n hv.hv__max_nvalues
    ⟨hv.hv_nvalues, List.replicate max none, max, List.length_replicate,
      doubled_pos n n _ hv.pos⟩
  else hv

/-- The values of the nodes from `vl` on, in the order of the loop. -/
def vlistValues (vls : Nodes Vlist) : Nat → Ptr → Option (List Ptr)
  | 0, _ => none
  | _ + 1, none => some []
  | fuel + 1, some vl =>
    (vlistValues vls fuel (vlNext vls vl)).map ((vls.node vl).vl_value :: ·)

/-- The values are written from the start of the buffer on; `none` is a write behind its end. -/
def writeValues (hv : Hashvalues) (n : Nat) (vals : List Ptr) : Option Hashvalues :=
  if hroom : vals.length ≤ hv.hv__max_nvalues then
    some ⟨n, vals ++ hv.hv_values.drop vals.length, hv.hv__max_nvalues, by
      have hlen := hv.room
      rw [List.length_append, List.length_drop]
      omega, hv.pos⟩
  else none

def copyValues (vls : Nodes Vlist) (ha : Hash) (hv : Hashvalues) : Option Hashvalues :=
  let hv := makeRoom hv ha.ha_nvalues
  if ha.ha_nvalues = 1 then writeValues hv ha.ha_nvalues [ha.ha_u]
  else
    match vlistValues vls (vls.count + 1) ha.ha_u with
    | none => none
    | some vals => writeValues hv ha.ha_nvalues vals

/-- `ht_qkey` and `ht_qhash` keep what the memory has there. -/
def hashCreateTab (probable_size : Nat) (ht_qkey : Ptr) (ht_qhash : Qhash) : Hashtab :=
  let size := probable_size / DESIRED_CHAIN_LENGTH
  let size := if size < 20 then 20 else size
  ⟨size, fun _ => none, ht_qkey, ht_qhash⟩

def hashEnterKey (m : Memory) (ht : Hashtab) (key : Key) : Option (Memory × Hashtab) :=
  match findHash m.hashes ht key with
  | none => none
  | some (some _, _, _) => some (m, ht)
  | some (none, pos, _) =>
    let (hashes, ht, _) := addHash m.hashes ht pos key
    some ({ m with hashes := hashes }, ht)

/-- The node `ha` and the value nodes, after a change to its values. -/
def withValues (m : Memory) (ha : Nat) (vlists : Nodes Vlist) (node : Hash) : Memory :=
  ⟨vlists, { m.hashes with node := Function.update m.hashes.node ha node }⟩

/-- `add_value` on the node `ha`. -/
def addValueAt (m : Memory) (ha : Nat) (value : Ptr) : Memory :=
  let (vlists, node) := addValue m.vlists (m.hashes.node ha) value
  withValues m ha vlists node

def hashEnter (m : Memory) (ht : Hashtab) (key : Key) (value : Ptr) : Option (Memory × Hashtab) :=
  match findHash m.hashes ht key with
  | none => none
  | some (some ha, _, _) => some (addValueAt m ha value, ht)
  | some (none, pos, _) =>
    let (hashes, ht, ha) := addHash m.hashes ht pos key
    some (addValueAt { m with hashes := hashes } ha value, ht)

def hashLookupKey (m : Memory) (ht : Hashtab) (key : Key) (hv : Hashvalues) :
    Option (Bool × Hashvalues) :=
  match findHash m.hashes ht key with
  | none => none
  | some (none, _, _) => some (false, hv)
  | some (some ha, _, _) =>
    match copyValues m.vlists (m.hashes.node ha) hv with
    | none => none
    | some hv => some (true, hv)

def hashLookup (m : Memory) (ht : Hashtab) (key : Key) : Option Ptr :=
  match findHash m.hashes ht key with
  | none => none
  | some (none, _, _) => some none
  | some (some ha, _, _) =>
    let ha := m.hashes.node ha
    if ha.ha_nvalues = 0 then some none
    else if ha.ha_nvalues = 1 then some ha.ha_u
    else
      match ha.ha_u with
      | none => none
      | some vl => some (m.vlists.node vl).vl_value

def hashDeleteKey (m : Memory) (ht : Hashtab) (key : Key) : Option (Memory × Hashtab) :=
  match findHash m.hashes ht key with
  | some (some ha, pos, prev) =>
    match deleteAllValues m.vlists (m.hashes.node ha) with
    | none => none
    | some (vlists, node) =>
      let m := withValues m ha vlists node
      (deleteHash m.hashes ht pos prev ha).map fun (hashes, ht) => (⟨m.vlists, hashes⟩, ht)
  | _ => none

def hashDelete (m : Memory) (ht : Hashtab) (key : Key) (value : Ptr) :
    Option (Memory × Hashtab) :=
  match findHash m.hashes ht key with
  | some (some ha, pos, prev) =>
    match deleteValue m.vlists (m.hashes.node ha) value with
    | none => none
    | some (vlists, node) =>
      let m := withValues m ha vlists node
      if node.ha_nvalues = 0 then
        (deleteHash m.hashes ht pos prev ha).map fun (hashes, ht) => (⟨m.vlists, hashes⟩, ht)
      else some (m, ht)
  | _ => none

/-! ## Runs over several tables -/

/-- A program's calls; a table is named by the number of tables created before it. -/
inductive Call where
  | hash_create_tab (probable_size : Nat)
  | hash_enter_key (t : Nat) (key : Key)
  | hash_enter (t : Nat) (key : Key) (value : Ptr)
  | hash_delete (t : Nat) (key : Key) (value : Ptr)
  | hash_delete_key (t : Nat) (key : Key)

structure Program where
  memory : Memory
  tabs : List Hashtab

/-- The call on table `t`. -/
def onTab (p : Program) (t : Nat) (f : Memory → Hashtab → Option (Memory × Hashtab)) :
    Option Program :=
  match p.tabs[t]? with
  | none => none
  | some ht => (f p.memory ht).map fun (m, ht) => ⟨m, p.tabs.set t ht⟩

/-- One call; a new table has no quick key. -/
def Call.exec (p : Program) : Call → Option Program
  | .hash_create_tab size =>
    some { p with tabs := p.tabs ++ [hashCreateTab size none ⟨none, none, 0⟩] }
  | .hash_enter_key t key => onTab p t fun m ht => hashEnterKey m ht key
  | .hash_enter t key value => onTab p t fun m ht => hashEnter m ht key value
  | .hash_delete t key value => onTab p t fun m ht => hashDelete m ht key value
  | .hash_delete_key t key => onTab p t fun m ht => hashDeleteKey m ht key

def exec (p : Program) : List Call → Option Program
  | [] => some p
  | c :: calls =>
    match c.exec p with
    | none => none
    | some p => exec p calls

/-- No node is allocated and there is no table. What unused memory holds is of no interest. -/
def Program.start (vlist : Nat → Vlist) (hash : Nat → Hash) : Program :=
  ⟨⟨⟨vlist, 0, none⟩, ⟨hash, 0, none⟩⟩, []⟩

/-! ## The multimap -/

/-- What a multimap has for a key: nothing, or its values, the newest first. -/
abbrev Entry := Option (List Ptr)

def Entry.enter (e : Entry) (value : Ptr) : Entry := some (value :: e.getD [])

/-- The key is deleted with its last value. -/
def Entry.delete (e : Entry) (value : Ptr) : Entry :=
  match (e.getD []).erase value with
  | [] => none
  | vals => some vals

/-- What a call does to the entry of the key with these bytes in table `t`. -/
def Call.onEntry (t : Nat) (bytes : List (BitVec 8)) (e : Entry) : Call → Entry
  | .hash_create_tab _ => e
  | .hash_enter_key t' key =>
    if t' = t ∧ key.bytes = bytes then some (e.getD []) else e
  | .hash_enter t' key value => if t' = t ∧ key.bytes = bytes then e.enter value else e
  | .hash_delete t' key value => if t' = t ∧ key.bytes = bytes then e.delete value else e
  | .hash_delete_key t' key => if t' = t ∧ key.bytes = bytes then none else e

/-- What table `t` has for the key after the calls. -/
def entryOf (calls : List Call) (t : Nat) (bytes : List (BitVec 8)) : Entry :=
  calls.foldl (fun e c => c.onEntry t bytes e) none

/-- The number of tables after the calls. -/
def ntabs (calls : List Call) : Nat :=
  calls.countP fun c => match c with | .hash_create_tab _ => true | _ => false

/-- The call is about a table that is there, and deletes what is there. -/
def Call.legal (before : List Call) : Call → Prop
  | .hash_create_tab _ => True
  | .hash_enter_key t _ => t < ntabs before
  | .hash_enter t _ _ => t < ntabs before
  | .hash_delete t key value =>
    t < ntabs before ∧ value ∈ (entryOf before t key.bytes).getD []
  | .hash_delete_key t key => t < ntabs before ∧ (entryOf before t key.bytes).isSome

instance (before : List Call) : (c : Call) → Decidable (c.legal before)
  | .hash_create_tab _ => inferInstanceAs (Decidable True)
  | .hash_enter_key t _ => inferInstanceAs (Decidable (t < ntabs before))
  | .hash_enter t _ _ => inferInstanceAs (Decidable (t < ntabs before))
  | .hash_delete t key value => inferInstanceAs
      (Decidable (t < ntabs before ∧ value ∈ (entryOf before t key.bytes).getD []))
  | .hash_delete_key t key => inferInstanceAs
      (Decidable (t < ntabs before ∧ (entryOf before t key.bytes).isSome))

/-- Every call is legal after those before it. -/
def LegalAfter : List Call → List Call → Prop
  | _, [] => True
  | before, c :: calls => c.legal before ∧ LegalAfter (before ++ [c]) calls

instance : (before calls : List Call) → Decidable (LegalAfter before calls)
  | _, [] => inferInstanceAs (Decidable True)
  | before, c :: calls =>
    have := instDecidableLegalAfter (before ++ [c]) calls
    inferInstanceAs (Decidable (c.legal before ∧ LegalAfter (before ++ [c]) calls))

end ups_rules.hash_tab
