-- The code of a switch statement (ci_compile.c): a table or a chain of case values, with labels that
-- are resolved when the statement behind it has been compiled.
import Ups.CodeLayout

open le_bytes
open ups_rules.machine
open ups_rules.opcodes
open ups_rules.code_text
open ups_rules.compile_expr
open ups_rules.code_layout

namespace ups_rules.switch_code

/-! ## The pure model -/

/-- A switch statement: its table of case values, the code of its statement with the breaks in it
resolved, and where in that code the labeled statements are. -/
structure SwitchStm where
  cstab : List (BitVec 32)
  code : List (BitVec 8)
  caseAddr : Nat → Nat
  defaultAddr : Option Nat

/-- The label of a case, by its place in the table, or the default label. -/
abbrev Label := Option Nat

/-- Where the label is, if the statement's code begins at `start`. Without a default the default label
is resolved at the end. -/
def SwitchStm.addr (ss : SwitchStm) (start : Nat) : Label → Nat
  | some i => start + ss.caseAddr i
  | none => start + ss.defaultAddr.getD ss.code.length

inductive Form where
  | table
  | chain (s : OpSize)
deriving DecidableEq

/-- A jump table if more than 80 percent of the values from the first to the last are used. -/
def formOf (ncase : Nat) (dist : Int) : Form :=
  if dist = 0 ∨ ((100 * ncase : Int).bmod (2 ^ 32)).tdiv dist > 80 then .table
  else if dist ≤ 0xff then .chain .B
  else if dist ≤ 0xffff then .chain .W
  else .chain .L

/-- The labels of `n` values from `val` on; nothing if it panics or reads behind the table. -/
def tableLabels : Nat → BitVec 32 → List (BitVec 32 × Nat) → Option (List Label)
  | 0, _, [] => some []
  | 0, _, _ :: _ => none
  | _ + 1, _, [] => none
  | n + 1, val, (cs_val, i) :: cases =>
    if val = cs_val then (some i :: ·) <$> tableLabels n (val + 1) cases
    else (none :: ·) <$> tableLabels n (val + 1) ((cs_val, i) :: cases)

/-- A text with the references to labels in it. -/
abbrev Coded := Text × List (Label × Nat)

/-- `add_label_reference`, and the word for it. -/
def codeLabel (c : Coded) (label : Label) : Coded :=
  ({ c.1 with tx_text := c.1.tx_text ++ leBytes 2 0 }, c.2 ++ [(label, c.1.tx_text.length)])

def codeCase (s : OpSize) (minval : BitVec 32) (c : Coded) (case : BitVec 32 × Nat) : Coded :=
  codeLabel (codeOperand c.1 s ((case.1 - minval).signExtend 64), c.2) (some case.2)

/-- The opcode, the count and the smallest value. -/
def codeHead (tx : Text) (op : Opcode) (count : Int) (minval : BitVec 32) : Text :=
  ciCodeLong (ciCodeWord (ciCodeOpcode tx op) (BitVec.ofInt 64 count)) (minval.signExtend 64)

def codeCases (tx : Text) (cstab : List (BitVec 32)) (minval : BitVec 32) (dist : Int) :
    Option Coded :=
  match formOf cstab.length dist with
  | .table => do
    let labels ← tableLabels (dist.toNat + 1) minval cstab.zipIdx
    some (labels.foldl codeLabel (codeHead tx .OC_SWITCH_ON_TABLE (dist + 1) minval, []))
  | .chain s =>
    some (cstab.zipIdx.foldl (codeCase s minval)
      (codeHead tx (.OC_SWITCH_ON_CHAIN s) cstab.length minval, []))

/-- The references of one label, the last one first. -/
def refsOf (refs : List (Label × Nat)) (label : Label) : List (Label × Nat) :=
  (refs.filter fun ref => ref.1 = label).reverse

/-- `ci_resolve_and_free_label` for these references; nothing if it panics. -/
def resolve (addr : Label → Nat) : List (Label × Nat) → List (BitVec 8) → Option (List (BitVec 8))
  | [], text => some text
  | (label, location) :: refs, text =>
    let offset : Int := addr label - location
    if (BitVec.ofInt 16 offset).toInt ≠ offset then none
    else resolve addr refs (patchWord text location (BitVec.ofInt 16 offset))

/-- `maxval - minval` -/
def distOf (cstab : List (BitVec 32)) : Int :=
  (cstab.getLastD 0 - cstab.headD 0).toInt

/-- `compile_switch_statement`, behind the code of the expression: the text in the end; nothing if it
panics or reads through the NULL of an empty table. -/
def compileSwitchStatement (tx : Text) (ss : SwitchStm) : Option (List (BitVec 8)) := do
  if ss.cstab = [] then none
  else
    let dist := distOf ss.cstab
    if dist < 0 then none
    else
      let coded ← codeCases tx ss.cstab (ss.cstab.headD 0) dist
      let (tx, refs) := codeLabel coded none
      let labels := none :: ss.cstab.zipIdx.map fun case => some case.2
      resolve (ss.addr tx.tx_text.length) (labels.flatMap (refsOf refs)) (tx.tx_text ++ ss.code)

/-! ## Entries -/

/-- The bytes of a value and the label behind it: a case of a chain, or a slot of a table. -/
abbrev Entry := List (BitVec 8) × Label

/-- Where the references are, from `at` on. -/
def entryRefs : Nat → List Entry → List (Label × Nat)
  | _, [] => []
  | start, (bs, label) :: es =>
    (label, start + bs.length) :: entryRefs (start + bs.length + 2) es

/-- The bytes while the references are not resolved. -/
def unresolved (es : List Entry) : List (BitVec 8) := es.flatMap fun e => e.1 ++ leBytes 2 0

/-- The offset to a label. -/
def offsetBytes (addr : Label → Nat) (label : Label) (location : Nat) : List (BitVec 8) :=
  leBytes 2 (BitVec.ofInt 16 (addr label - location)).toNat

/-- The bytes when they are. -/
def resolved (addr : Label → Nat) : Nat → List Entry → List (BitVec 8)
  | _, [] => []
  | start, (bs, label) :: es =>
    bs ++ offsetBytes addr label (start + bs.length) ++
      resolved addr (start + bs.length + 2) es

/-- The offset is one that a short holds. -/
def Fits (addr : Label → Nat) (ref : Label × Nat) : Prop :=
  ((addr ref.1 : Int) - ref.2).bmod (2 ^ 16) = addr ref.1 - ref.2

theorem toInt_ofInt16 (i : Int) : (BitVec.ofInt 16 i).toInt = i.bmod (2 ^ 16) := by
  rw [BitVec.toInt_ofInt]

theorem resolve_isSome (addr : Label → Nat) (refs : List (Label × Nat)) (text : List (BitVec 8)) :
    (resolve addr refs text).isSome = true ↔ ∀ ref ∈ refs, Fits addr ref := by
  induction refs generalizing text with
  | nil => simp [resolve]
  | cons ref refs ih =>
    rw [resolve, List.forall_mem_cons, Fits, toInt_ofInt16]
    split
    · rename_i h
      exact ⟨nofun, fun hf => absurd hf.1 h⟩
    · rename_i h
      rw [ih, not_not] at *
      exact ⟨fun hr => ⟨h, hr⟩, And.right⟩

/-- Two places with a word each are apart. -/
def RefApart (a b : Label × Nat) : Prop := a.2 + 2 ≤ b.2 ∨ b.2 + 2 ≤ a.2

theorem patchWord_length {text : List (BitVec 8)} {location : Nat} (h : location + 2 ≤ text.length)
    (word : BitVec 16) : (patchWord text location word).length = text.length := by
  simp only [patchWord, List.length_append, List.length_take, List.length_drop, length_leBytes]
  omega

theorem patchWord_get {text : List (BitVec 8)} {location : Nat} (h : location + 2 ≤ text.length)
    (word : BitVec 16) (i : Nat) : (patchWord text location word)[i]? =
      if location ≤ i ∧ i < location + 2 then (leBytes 2 word.toNat)[i - location]? else text[i]? := by
  have htake : (text.take location).length = location := List.length_take_of_le (by omega)
  unfold patchWord
  split
  · rename_i hi
    rw [List.append_assoc, List.getElem?_append_right (by omega),
      List.getElem?_append_left (by simp; omega), htake]
  · rename_i hi
    rcases Nat.lt_or_ge i location with hlt | hge
    · rw [List.append_assoc, List.getElem?_append_left (by omega), List.getElem?_take_of_lt hlt]
    · rw [List.getElem?_append_right (by simp; omega), List.getElem?_drop]
      congr 1
      simp only [List.length_append, htake, length_leBytes]
      omega

/-- A byte of a reference that is resolved, and one that none is for. -/
theorem resolve_get {addr : Label → Nat} {refs : List (Label × Nat)} {text done : List (BitVec 8)}
    (h : resolve addr refs text = some done) (hin : ∀ ref ∈ refs, ref.2 + 2 ≤ text.length)
    (hapart : refs.Pairwise RefApart) :
    done.length = text.length ∧
    (∀ ref ∈ refs, ∀ i < 2, done[ref.2 + i]? = (offsetBytes addr ref.1 ref.2)[i]?) ∧
    ∀ i, (∀ ref ∈ refs, i < ref.2 ∨ ref.2 + 2 ≤ i) → done[i]? = text[i]? := by
  induction refs generalizing text with
  | nil =>
    obtain rfl := Option.some.inj h
    exact ⟨rfl, nofun, fun _ _ => rfl⟩
  | cons ref refs ih =>
    rw [resolve] at h
    split at h
    · cases h
    · have href := hin ref List.mem_cons_self
      have hlen := patchWord_length href (BitVec.ofInt 16 (addr ref.1 - ref.2))
      obtain ⟨hfirst, hrest⟩ := List.pairwise_cons.1 hapart
      obtain ⟨hdone, hat, helse⟩ := ih h
        (fun r hr => hlen ▸ hin r (List.mem_cons_of_mem _ hr)) hrest
      refine ⟨hdone.trans hlen, ?_, ?_⟩
      · rw [List.forall_mem_cons]
        refine ⟨fun i hi => ?_, hat⟩
        rw [helse, patchWord_get href, if_pos (by omega), Nat.add_sub_cancel_left]
        · rfl
        · intro r hr
          rcases hfirst r hr with hr | hr <;> omega
      · intro i hi
        obtain ⟨hi, his⟩ := List.forall_mem_cons.1 hi
        rw [helse i his, patchWord_get href, if_neg (by omega)]

/-- The bytes with the offsets are the unresolved ones but for the references. -/
theorem resolved_get (addr : Label → Nat) (es : List Entry) (before code : List (BitVec 8)) :
    (∀ ref ∈ entryRefs before.length es, ∀ i < 2,
      (before ++ resolved addr before.length es ++ code)[ref.2 + i]? =
        (offsetBytes addr ref.1 ref.2)[i]?) ∧
    ∀ i, (∀ ref ∈ entryRefs before.length es, i < ref.2 ∨ ref.2 + 2 ≤ i) →
      (before ++ resolved addr before.length es ++ code)[i]? =
        (before ++ unresolved es ++ code)[i]? := by
  induction es generalizing before with
  | nil => exact ⟨nofun, fun _ _ => rfl⟩
  | cons e es ih =>
    obtain ⟨bs, label⟩ := e
    let offset := offsetBytes addr label (before.length + bs.length)
    have hoffset : offset.length = 2 := length_leBytes _ _
    have hlen : (before ++ bs ++ offset).length = before.length + bs.length + 2 := by
      simp only [List.length_append, hoffset]
    have hbytes : before ++ resolved addr before.length ((bs, label) :: es) ++ code =
        before ++ bs ++ offset ++ resolved addr (before ++ bs ++ offset).length es ++ code := by
      rw [hlen, resolved]
      simp only [List.append_assoc, offset]
    obtain ⟨hat, helse⟩ := ih (before ++ bs ++ offset)
    rw [hbytes]
    rw [entryRefs, ← hlen]
    constructor
    · rw [List.forall_mem_cons]
      refine ⟨fun i hi => ?_, hat⟩
      dsimp only
      rw [← List.length_append, List.append_assoc (before ++ bs ++ offset),
        List.append_assoc (before ++ bs), List.getElem?_append_right (by omega),
        Nat.add_sub_cancel_left, List.getElem?_append_left (by omega), List.length_append]
    · intro i hi
      obtain ⟨hi, his⟩ := List.forall_mem_cons.1 hi
      rw [helse i his]
      have hunresolved : before ++ unresolved ((bs, label) :: es) ++ code =
          before ++ bs ++ leBytes 2 0 ++ (unresolved es ++ code) := by
        simp [unresolved]
      rw [hunresolved, List.append_assoc _ (unresolved es)]
      rcases hi with hi | hi
      · have hi : i < (before ++ bs).length := by simpa using hi
        rw [List.append_assoc (before ++ bs) offset, List.append_assoc (before ++ bs) (leBytes 2 0),
          List.getElem?_append_left hi, List.getElem?_append_left hi]
      · have hi : (before ++ bs ++ offset).length ≤ i := hlen ▸ hi
        have hzero : (before ++ bs ++ leBytes 2 0).length = (before ++ bs ++ offset).length := by
          simp [hoffset]
        have hi' : (before ++ bs ++ leBytes 2 0).length ≤ i := hzero ▸ hi
        rw [List.getElem?_append_right hi, List.getElem?_append_right hi', hzero]

theorem entryRefs_bounds {start : Nat} {es : List Entry} {ref : Label × Nat}
    (h : ref ∈ entryRefs start es) :
    start ≤ ref.2 ∧ ref.2 + 2 ≤ start + (unresolved es).length := by
  induction es generalizing start with
  | nil => cases h
  | cons e es ih =>
    obtain ⟨bs, label⟩ := e
    have hlen : (unresolved ((bs, label) :: es)).length = bs.length + 2 + (unresolved es).length := by
      simp [unresolved, Nat.add_assoc]
    rw [hlen]
    rcases List.mem_cons.1 h with rfl | h
    · dsimp only
      omega
    · have hb := ih h
      omega

theorem entryRefs_apart (start : Nat) (es : List Entry) :
    (entryRefs start es).Pairwise RefApart := by
  induction es generalizing start with
  | nil => exact .nil
  | cons e es ih =>
    refine List.pairwise_cons.2 ⟨fun ref href => ?_, ih _⟩
    exact .inl (entryRefs_bounds href).1

theorem refApart_symm : Std.Symm RefApart := ⟨fun _ _ h => Or.symm h⟩

/-- The references label by label are the same ones. -/
theorem mem_refsOf {refs : List (Label × Nat)} {labels : List Label}
    (hall : ∀ ref ∈ refs, ref.1 ∈ labels) (ref : Label × Nat) :
    ref ∈ labels.flatMap (refsOf refs) ↔ ref ∈ refs := by
  simp only [List.mem_flatMap, refsOf, List.mem_reverse, List.mem_filter, decide_eq_true_eq]
  constructor
  · rintro ⟨_, -, href, -⟩
    exact href
  · intro href
    exact ⟨ref.1, hall ref href, href, rfl⟩

theorem refsOf_apart {refs : List (Label × Nat)} {labels : List Label} (hn : labels.Nodup)
    (h : refs.Pairwise RefApart) : (labels.flatMap (refsOf refs)).Pairwise RefApart := by
  have := refApart_symm
  rw [List.pairwise_flatMap]
  constructor
  · intro label _
    rw [refsOf, List.pairwise_reverse]
    exact (h.sublist List.filter_sublist).imp fun hr => Or.symm hr
  · refine hn.imp fun hne x hx y hy => ?_
    have hmem : ∀ {label ref}, ref ∈ refsOf refs label → ref ∈ refs ∧ ref.1 = label := by
      intro label ref href
      simpa [refsOf] using href
    obtain ⟨hx, hlx⟩ := hmem hx
    obtain ⟨hy, hly⟩ := hmem hy
    refine h.forall hx hy ?_
    rintro rfl
    exact hne (hlx.symm.trans hly)

/-- Resolving every label puts the offsets into their places, if all of them fit. -/
theorem resolve_eq {addr : Label → Nat} {es : List Entry} {labels : List Label}
    (before code : List (BitVec 8)) (hn : labels.Nodup)
    (hall : ∀ ref ∈ entryRefs before.length es, ref.1 ∈ labels) (done : List (BitVec 8)) :
    resolve addr (labels.flatMap (refsOf (entryRefs before.length es)))
        (before ++ unresolved es ++ code) = some done ↔
      (∀ ref ∈ entryRefs before.length es, Fits addr ref) ∧
        done = before ++ resolved addr before.length es ++ code := by
  have hmem := mem_refsOf hall
  have hfits := resolve_isSome addr (labels.flatMap (refsOf (entryRefs before.length es)))
    (before ++ unresolved es ++ code)
  simp only [hmem] at hfits
  -- what is resolved is determined byte by byte
  have heq : ∀ done, resolve addr (labels.flatMap (refsOf (entryRefs before.length es)))
      (before ++ unresolved es ++ code) = some done →
      done = before ++ resolved addr before.length es ++ code := by
    intro done hdone
    obtain ⟨-, hat, helse⟩ := resolve_get hdone (fun ref href => by
      have hb := entryRefs_bounds ((hmem ref).1 href)
      simp only [List.length_append]
      omega) (refsOf_apart hn (entryRefs_apart before.length es))
    obtain ⟨hat', helse'⟩ := resolved_get addr es before code
    simp only [hmem] at hat helse
    refine List.ext_getElem? fun i => ?_
    by_cases hi : ∀ ref ∈ entryRefs before.length es, i < ref.2 ∨ ref.2 + 2 ≤ i
    · rw [helse i hi, helse' i hi]
    · simp only [not_forall, not_or, Nat.not_lt, Nat.not_le] at hi
      obtain ⟨ref, href, hle, hlt⟩ := hi
      obtain ⟨k, rfl⟩ := Nat.exists_eq_add_of_le hle
      rw [hat ref href k (by omega), hat' ref href k (by omega)]
  constructor
  · intro h
    exact ⟨hfits.1 (by rw [h]; rfl), heq done h⟩
  · rintro ⟨h, rfl⟩
    obtain ⟨done, hdone⟩ := Option.isSome_iff_exists.1 (hfits.2 h)
    rw [hdone, heq done hdone]

/-! ## What is coded -/

/-- A step that codes bytes and a label. -/
def CodesEntry {α : Type} (f : Coded → α → Coded) (g : α → Entry) : Prop :=
  ∀ c x, (f c x).1.tx_text = c.1.tx_text ++ (g x).1 ++ leBytes 2 0 ∧
    (f c x).2 = c.2 ++ [((g x).2, c.1.tx_text.length + (g x).1.length)]

theorem codeLabel_codes : CodesEntry codeLabel fun label => ([], label) := by
  intro c label
  simp [codeLabel]

theorem codeCase_codes (s : OpSize) (minval : BitVec 32) :
    CodesEntry (codeCase s minval) fun case =>
      (leBytes s.nbytes ((case.1 - minval).signExtend 64).toNat, some case.2) := by
  intro c case
  have hbytes := (adds_operand c.1 s ((case.1 - minval).signExtend 64)).text
  unfold codeCase codeLabel
  dsimp only
  rw [hbytes]
  simp

theorem foldl_codes {α : Type} {f : Coded → α → Coded} {g : α → Entry} (h : CodesEntry f g)
    (xs : List α) (c : Coded) :
    (xs.foldl f c).1.tx_text = c.1.tx_text ++ unresolved (xs.map g) ∧
    (xs.foldl f c).2 = c.2 ++ entryRefs c.1.tx_text.length (xs.map g) := by
  induction xs generalizing c with
  | nil => simp [unresolved, entryRefs]
  | cons x xs ih =>
    obtain ⟨htext, hrefs⟩ := h c x
    obtain ⟨hts, hrs⟩ := ih (f c x)
    rw [List.foldl_cons, List.map_cons]
    constructor
    · rw [hts, htext]
      simp [unresolved]
    · rw [hrs, hrefs, htext, entryRefs]
      simp [Nat.add_assoc]

theorem unresolved_append (es fs : List Entry) :
    unresolved (es ++ fs) = unresolved es ++ unresolved fs := List.flatMap_append

theorem entryRefs_append (start : Nat) (es fs : List Entry) :
    entryRefs start (es ++ fs) = entryRefs start es ++ entryRefs (start + (unresolved es).length) fs := by
  induction es generalizing start with
  | nil => rfl
  | cons e es ih =>
    obtain ⟨bs, label⟩ := e
    have hlen : start + bs.length + 2 + (unresolved es).length =
        start + (unresolved ((bs, label) :: es)).length := by
      simp [unresolved]
      omega
    rw [List.cons_append, entryRefs, entryRefs, ih, hlen, List.cons_append]

end ups_rules.switch_code
