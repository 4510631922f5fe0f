-- The input history (display.c): a ring of lines, in which a line that is appended again moves to
-- the front.
import Mathlib.Algebra.Ring.Int.Defs
import Mathlib.Algebra.Ring.Nat
import Mathlib.Data.List.Induction
import Mathlib.Data.List.InsertIdx
import Mathlib.Data.List.Nodup
import Mathlib.Data.List.Perm.Basic
import Mathlib.Logic.Function.Basic
import Mathlib.Tactic.Common

namespace ups_rules.history

/-! ## The pure model -/

/-- A string on the heap: which allocation it is, and its bytes up to the NUL. -/
structure Str where
  alloc : Nat
  bytes : List UInt8
deriving DecidableEq

/-- `size` is the parameter. -/
structure History (size : Nat) where
  text_lines : Fin size → Option Str
  insert_point : Fin size
  /-- What has been given to `free`. The source does not keep this. -/
  freed : List Str

/-- `edit_create_history_by_size`; the size is an int. -/
def createHistory (size : Nat) (hpos : 0 < size) : History size where
  text_lines := fun _ => none
  insert_point := ⟨0, hpos⟩
  freed := []

variable {size : Nat}

/-- `num` is an int, and compared as an unsigned one. -/
def getHistory (h : History size) (num : BitVec 32) : Option Str :=
  if size ≤ num.toNat then none
  else
    let extract_point : Int := h.insert_point - num.toInt - 1
    let extract_point := if extract_point < 0 then extract_point + size else extract_point
    if hp : extract_point.toNat < size then h.text_lines ⟨extract_point.toNat, hp⟩ else none

/-- `(i ? i : h->size) - 1` -/
def before (i : Fin size) : Fin size :=
  ⟨(if i.val ≠ 0 then i.val else size) - 1, by have := i.isLt; split <;> omega⟩

/-- `j = i + 1; if (j == h->size) j = 0;` -/
def behind (i : Fin size) : Fin size :=
  ⟨if i.val + 1 = size then 0 else i.val + 1, by have := i.isLt; split <;> omega⟩

/-- The loop that looks for a duplicate. Nothing if the turns do not suffice. -/
def findDuplicate (h : History size) (text : Str) : Nat → Fin size → Option (Option (Fin size))
  | 0, _ => none
  | turns + 1, i =>
    let i := before i
    match h.text_lines i with
    | none => some none
    | some line =>
      if i = h.insert_point then some none
      else if line.bytes = text.bytes then some (some i)
      else findDuplicate h text turns i

/-- The loop that moves the lines behind a duplicate down. -/
def moveDown (insert_point : Fin size) (text : Str) :
    Nat → (Fin size → Option Str) → Fin size → Option (Fin size → Option Str)
  | 0, _, _ => none
  | turns + 1, text_lines, i =>
    let j := behind i
    if j = insert_point then some (Function.update text_lines i (some text))
    else moveDown insert_point text turns (Function.update text_lines i (text_lines j)) j

/-- `edit_append_history`; nothing if a loop does not end in as many turns as there are slots. -/
def appendHistory (h : History size) : Option Str → Option (History size)
  | none => some h
  | some text =>
    if text.bytes = [] then some { h with freed := h.freed ++ [text] }
    else
      match findDuplicate h text size h.insert_point with
      | none => none
      | some (some i) => do
        let text_lines ← moveDown h.insert_point text size h.text_lines i
        some { h with text_lines, freed := h.freed ++ (h.text_lines i).toList }
      | some none =>
        some {
          text_lines := Function.update h.text_lines h.insert_point (some text)
          insert_point := behind h.insert_point
          freed := h.freed ++ (h.text_lines h.insert_point).toList }

def appendAll (h : History size) (calls : List (Option Str)) : Option (History size) :=
  calls.foldlM appendHistory h

/-! ## What the history is for -/

/-- The distinct strings of the calls that are not empty, the most recent one first. -/
def remember (recent : List (List UInt8)) : Option Str → List (List UInt8)
  | none => recent
  | some text =>
    if text.bytes = [] then recent
    else text.bytes :: recent.filter (· ≠ text.bytes)

def recent (calls : List (Option Str)) : List (List UInt8) := calls.foldl remember []

/-- The strings that the calls hand over. -/
def given (calls : List (Option Str)) : List Str := calls.filterMap id

/-! ## Slots -/

/-- The slot of the line that `k` others have been appended after. -/
def slot (insert_point : Fin size) : Nat → Fin size
  | 0 => before insert_point
  | k + 1 => before (slot insert_point k)

theorem behind_before (i : Fin size) : behind (before i) = i := by
  have := i.isLt
  apply Fin.ext
  simp only [behind, before]
  split <;> split <;> omega

theorem before_behind (i : Fin size) : before (behind i) = i := by
  have := i.isLt
  apply Fin.ext
  simp only [behind, before]
  split <;> split <;> omega

theorem slot_val (ip : Fin size) {k : Nat} (hk : k < size) :
    (slot ip k).val = if k < ip.val then ip.val - (k + 1) else ip.val + size - (k + 1) := by
  have := ip.isLt
  induction k with
  | zero =>
    simp only [slot, before]
    split <;> split <;> omega
  | succ k ih =>
    have ih := ih (by omega)
    simp only [slot, before, ih]
    split <;> split <;> split <;> omega

theorem slot_inj (ip : Fin size) {j k : Nat} (hj : j < size) (hk : k < size)
    (h : slot ip j = slot ip k) : j = k := by
  have := ip.isLt
  have hval := congrArg Fin.val h
  rw [slot_val ip hj, slot_val ip hk] at hval
  split at hval <;> split at hval <;> omega

/-- The slot of the oldest line is the one that the next line is put into. -/
theorem slot_eq_insert_point (ip : Fin size) {k : Nat} (hk : k < size) :
    slot ip k = ip ↔ k + 1 = size := by
  have := ip.isLt
  rw [Fin.ext_iff, slot_val ip hk]
  split <;> omega

theorem slot_behind (ip : Fin size) (k : Nat) : slot (behind ip) (k + 1) = slot ip k := by
  induction k with
  | zero => simp [slot, before_behind]
  | succ k ih => rw [slot, ih, slot]

theorem slot_behind_zero (ip : Fin size) : slot (behind ip) 0 = ip := before_behind ip

/-! ## One call -/

/-- The ring has the lines, the most recent one first. -/
structure Holds (h : History size) (lines : List Str) : Prop where
  slots : ∀ k < size, h.text_lines (slot h.insert_point k) = lines[k]?
  length_le : lines.length ≤ size

section
variable {h : History size} {lines : List Str}

/-- No line but that in the oldest slot is a duplicate. -/
def NoDuplicate (size : Nat) (lines : List Str) (text : Str) : Prop :=
  ∀ j line, j + 1 < size → lines[j]? = some line → line.bytes ≠ text.bytes

/-- The loop has come to the slot before `k`; it stops at the first duplicate, and leaves out the
oldest slot. -/
theorem findDuplicate_spec (hh : Holds h lines) (text : Str) (turns : Nat) {k : Nat} {i : Fin size}
    (hi : before i = slot h.insert_point k) (hk : k < size) (hturns : size ≤ k + turns)
    (hpast : ∀ j line, j < k → lines[j]? = some line → line.bytes ≠ text.bytes) :
    (∃ j line, j + 1 < size ∧ lines[j]? = some line ∧ line.bytes = text.bytes ∧
        findDuplicate h text turns i = some (some (slot h.insert_point j))) ∨
      findDuplicate h text turns i = some none ∧ NoDuplicate size lines text := by
  induction turns generalizing k i with
  | zero => omega
  | succ turns ih =>
    have hslot := hh.slots k hk
    simp only [findDuplicate, hi]
    cases hline : lines[k]? with
    | none =>
      right
      rw [hline] at hslot
      rw [List.getElem?_eq_none_iff] at hline
      refine ⟨by simp [hslot], fun j line _ hj => ?_⟩
      apply hpast j line _ hj
      have := (List.getElem?_eq_some_iff.mp hj).1
      omega
    | some line =>
      rw [hline] at hslot
      by_cases holdest : k + 1 = size
      · right
        have hip := (slot_eq_insert_point h.insert_point hk).mpr holdest
        refine ⟨by simp only [hslot]; rw [if_pos hip], fun j line hj => ?_⟩
        exact hpast j line (by omega)
      · have hip := mt (slot_eq_insert_point h.insert_point hk).mp holdest
        by_cases heq : line.bytes = text.bytes
        · left
          exact ⟨k, line, by omega, hline, heq, by simp [hslot, hip, heq]⟩
        · simp only [hslot, hip, heq, if_false]
          apply ih (show before _ = slot h.insert_point (k + 1) from rfl) (by omega) (by omega)
          intro j line' hj hj'
          rcases Nat.lt_or_ge j k with hlt | hge
          · exact hpast j line' hlt hj'
          · obtain rfl : j = k := by omega
            rw [hline] at hj'
            cases hj'
            exact heq

/-- The lines up to the slot of the duplicate move up by one slot. -/
theorem moveDown_spec (ip : Fin size) (text : Str) (turns : Nat) {k : Nat} (hk : k < size)
    (hturns : k < turns) (text_lines : Fin size → Option Str) :
    ∃ text_lines', moveDown ip text turns text_lines (slot ip k) = some text_lines' ∧
      ∀ j < size, text_lines' (slot ip j) =
        if j = 0 then some text
        else if j ≤ k then text_lines (slot ip (j - 1))
        else text_lines (slot ip j) := by
  induction turns generalizing k text_lines with
  | zero => omega
  | succ turns ih =>
    cases k with
    | zero =>
      simp only [moveDown, slot, behind_before, if_true]
      refine ⟨_, rfl, fun j hj => ?_⟩
      rw [show before ip = slot ip 0 from rfl]
      by_cases hj0 : j = 0
      · simp [hj0]
      · have hne : slot ip j ≠ slot ip 0 := fun e => hj0 (slot_inj ip hj hk e)
        simp [Function.update_of_ne hne, hj0]
    | succ k =>
      have hbehind : behind (slot ip (k + 1)) = slot ip k := behind_before _
      have hip : slot ip k ≠ ip := by
        rw [Ne, slot_eq_insert_point ip (by omega)]
        omega
      simp only [moveDown, hbehind, hip, if_false]
      obtain ⟨text_lines', heq, hslots⟩ := ih (k := k) (by omega) (by omega)
        (Function.update text_lines (slot ip (k + 1)) (text_lines (slot ip k)))
      refine ⟨text_lines', heq, fun j hj => ?_⟩
      rw [hslots j hj]
      by_cases hj0 : j = 0
      · simp [hj0]
      · by_cases hjk : j ≤ k
        · have hne : slot ip (j - 1) ≠ slot ip (k + 1) := fun e => by
            have := slot_inj ip (by omega) hk e
            omega
          simp [hj0, hjk, Nat.le_succ_of_le hjk, Function.update_of_ne hne]
        · by_cases hjk1 : j = k + 1
          · have hle : ¬ k + 1 ≤ k := by omega
            simp [hjk1, hle]
          · have hne : slot ip j ≠ slot ip (k + 1) := fun e => hjk1 (slot_inj ip hj hk e)
            have hle : ¬ j ≤ k + 1 := by omega
            simp [hj0, hjk, hle, Function.update_of_ne hne]
end

section
variable {h : History size} {lines : List Str}

/-- What a call does to the lines that are kept. -/
theorem appendHistory_spec (hh : Holds h lines) (text : Str) (htext : text.bytes ≠ []) :
    ∃ h', appendHistory h (some text) = some h' ∧
      ((∃ k line, k + 1 < size ∧ lines[k]? = some line ∧ line.bytes = text.bytes ∧
          Holds h' (text :: lines.eraseIdx k) ∧ h'.freed = h.freed ++ [line]) ∨
        NoDuplicate size lines text ∧ Holds h' (text :: lines.take (size - 1)) ∧
          h'.freed = h.freed ++ lines[size - 1]?.toList) := by
  have hpos : 0 < size := Nat.lt_of_le_of_lt (Nat.zero_le _) h.insert_point.isLt
  simp only [appendHistory, htext, if_false]
  rcases findDuplicate_spec hh text size rfl hpos (by omega) (by simp) with
    ⟨k, line, hk, hline, heq, hfind⟩ | ⟨hfind, hnone⟩
  · obtain ⟨text_lines, hmove, hslots⟩ :=
      moveDown_spec h.insert_point text size (Nat.lt_of_succ_lt hk) (by omega) h.text_lines
    rw [hfind]
    simp only [hmove, Option.bind_eq_bind, Option.bind_some]
    have hlt := (List.getElem?_eq_some_iff.mp hline).1
    refine ⟨_, rfl, Or.inl ⟨k, line, hk, hline, heq, ⟨fun j hj => ?_, ?_⟩, ?_⟩⟩
    · simp only [hslots j hj]
      cases j with
      | zero => simp
      | succ j =>
        simp only [List.getElem?_cons_succ, List.getElem?_eraseIdx, Nat.add_sub_cancel]
        rw [if_neg (Nat.succ_ne_zero j)]
        by_cases hjk : j < k
        · rw [if_pos (Nat.succ_le_of_lt hjk), if_pos hjk]
          exact hh.slots j (by omega)
        · rw [if_neg (by omega), if_neg hjk]
          exact hh.slots (j + 1) hj
    · have := hh.length_le
      rw [List.length_cons, List.length_eraseIdx_of_lt hlt]
      omega
    · simp [hh.slots k (Nat.lt_of_succ_lt hk), hline]
  · rw [hfind]
    refine ⟨_, rfl, Or.inr ⟨hnone, ⟨fun j hj => ?_, ?_⟩, ?_⟩⟩
    · cases j with
      | zero => simp [slot_behind_zero]
      | succ j =>
        have hne : slot h.insert_point j ≠ h.insert_point := by
          rw [Ne, slot_eq_insert_point _ (by omega)]
          omega
        simp only [slot_behind, Function.update_of_ne hne, List.getElem?_cons_succ]
        rw [hh.slots j (by omega), List.getElem?_take_of_lt (by omega)]
    · rw [List.length_cons, List.length_take]
      omega
    · have hip := (slot_eq_insert_point h.insert_point (k := size - 1) (by omega)).mpr (by omega)
      have hslot := hh.slots (size - 1) (by omega)
      rw [hip] at hslot
      simp [hslot]
end

/-! ## Lists of distinct strings -/

section
variable {α : Type} [DecidableEq α] {l : List α} {a : α}

theorem filter_ne_of_getElem (h : l.Nodup) {k : Nat} (hk : l[k]? = some a) :
    l.filter (· ≠ a) = l.eraseIdx k := by
  obtain ⟨hlt, rfl⟩ := List.getElem?_eq_some_iff.mp hk
  rw [← h.erase_getElem k hlt, h.erase_eq_filter]
  apply List.filter_congr
  intro x _
  by_cases hx : x = l[k] <;> simp [hx]

omit [DecidableEq α] in
theorem take_eraseIdx {n k : Nat} (hk : k < n) :
    (l.eraseIdx k).take (n - 1) = (l.take n).eraseIdx k := by
  apply List.ext_getElem?
  intro i
  simp only [List.getElem?_take, List.getElem?_eraseIdx]
  split <;> split <;> simp <;> omega

/-- What is not among the first elements does not matter to them. -/
theorem take_filter_ne {n : Nat} (h : a ∉ l.take n) : (l.filter (· ≠ a)).take n = l.take n := by
  have hfirst : (l.take n).filter (· ≠ a) = l.take n := by
    apply List.filter_eq_self.mpr
    intro x hx
    have : x ≠ a := fun e => h (e ▸ hx)
    simp [this]
  conv_lhs => rw [← List.take_append_drop n l, List.filter_append, hfirst]
  rcases Nat.lt_or_ge l.length n with hlt | hge
  · rw [List.drop_eq_nil_of_le (Nat.le_of_lt hlt)]
    simp [List.take_take]
  · rw [List.take_append_of_le_length (by rw [List.length_take]; omega)]
    simp [List.take_take]
end

/-! ## Runs -/

/-- The history keeps the strings remembered from the calls, and has freed the others. -/
structure Remembers (h : History size) (calls : List (Option Str)) (lines : List Str) : Prop where
  holds : Holds h lines
  recent : lines.map Str.bytes = (recent calls).take size
  freed : (lines ++ h.freed).Perm (given calls)

theorem recent_append (calls : List (Option Str)) (call : Option Str) :
    recent (calls ++ [call]) = remember (recent calls) call := by
  simp [recent, List.foldl_append]

theorem given_append (calls : List (Option Str)) (call : Option Str) :
    given (calls ++ [call]) = given calls ++ call.toList := by
  cases call <;> simp [given]

theorem nodup_recent (calls : List (Option Str)) : (recent calls).Nodup := by
  induction calls using List.reverseRecOn with
  | nil => simp [recent]
  | append_singleton calls call ih =>
    rw [recent_append]
    cases call with
    | none => exact ih
    | some text =>
      simp only [remember]
      split
      · exact ih
      · rw [List.nodup_cons]
        exact ⟨by simp, ih.filter _⟩

theorem take_remembered (calls : List (Option Str)) (hpos : 0 < size) (bytes : List UInt8) :
    (bytes :: (recent calls).filter (· ≠ bytes)).take size =
      bytes :: ((recent calls).filter (· ≠ bytes)).take (size - 1) := by
  obtain ⟨n, rfl⟩ : ∃ n, size = n + 1 := ⟨size - 1, by omega⟩
  simp

/-- A call keeps what the history is for. -/
theorem remembers_append {h : History size} {calls : List (Option Str)} {lines : List Str}
    (hr : Remembers h calls lines) (call : Option Str) :
    ∃ h' lines', appendHistory h call = some h' ∧ Remembers h' (calls ++ [call]) lines' := by
  have hpos : 0 < size := Nat.lt_of_le_of_lt (Nat.zero_le _) h.insert_point.isLt
  cases call with
  | none =>
    refine ⟨h, lines, rfl, hr.holds, ?_, ?_⟩
    · rw [recent_append]
      exact hr.recent
    · simpa [given_append] using hr.freed
  | some text =>
    by_cases htext : text.bytes = []
    · refine ⟨{ h with freed := h.freed ++ [text] }, lines, by simp [appendHistory, htext],
        ⟨hr.holds.slots, hr.holds.length_le⟩, ?_, ?_⟩
      · simpa [recent_append, remember, htext] using hr.recent
      · rw [given_append, ← List.append_assoc]
        exact hr.freed.append_right _
    · obtain ⟨h', happ, ⟨k, line, hk, hline, heq, hholds, hfreed⟩ | ⟨hnone, hholds, hfreed⟩⟩ :=
        appendHistory_spec hr.holds text htext
      · -- The duplicate moves to the front
        refine ⟨h', _, happ, hholds, ?_, ?_⟩
        · have hbytes : (recent calls)[k]? = some text.bytes := by
            rw [← List.getElem?_take_of_lt (Nat.lt_of_succ_lt hk), ← hr.recent, List.getElem?_map,
              hline, Option.map_some, heq]
          simp only [recent_append, remember, htext, if_false]
          rw [take_remembered calls hpos,
            filter_ne_of_getElem (nodup_recent calls) hbytes,
            take_eraseIdx (Nat.lt_of_succ_lt hk), ← hr.recent, List.map_cons, List.eraseIdx_map]
        · have hperm : (line :: lines.eraseIdx k).Perm lines := by
            obtain ⟨hlt, rfl⟩ := List.getElem?_eq_some_iff.mp hline
            exact List.getElem_cons_eraseIdx_perm hlt
          rw [given_append, hfreed]
          calc text :: lines.eraseIdx k ++ (h.freed ++ [line])
            _ |>.Perm (text :: (line :: lines.eraseIdx k ++ h.freed)) := by
              rw [← List.append_assoc]
              exact (List.perm_append_singleton line _).cons text
            _ |>.Perm (text :: given calls) := ((hperm.append_right _).trans hr.freed).cons text
            _ |>.Perm (given calls ++ [text]) := (List.perm_append_singleton text _).symm
      · -- The line takes the place of the oldest one
        refine ⟨h', _, happ, hholds, ?_, ?_⟩
        · have hbytes : text.bytes ∉ (recent calls).take (size - 1) := by
            intro hmem
            obtain ⟨j, hj⟩ := List.mem_iff_getElem?.mp hmem
            rw [List.getElem?_take] at hj
            split at hj
            case isFalse => cases hj
            case isTrue hlt =>
              rw [← List.getElem?_take_of_lt (by omega : j < size), ← hr.recent,
                List.getElem?_map, Option.map_eq_some_iff] at hj
              obtain ⟨line, hline, heq⟩ := hj
              exact hnone j line (by omega) hline heq
          simp only [recent_append, remember, htext, if_false]
          rw [take_remembered calls hpos, take_filter_ne hbytes, List.map_cons, List.map_take,
            hr.recent, List.take_take, Nat.min_eq_left (by omega)]
        · have hsplit : lines = lines.take (size - 1) ++ lines[size - 1]?.toList := by
            have hle := hr.holds.length_le
            conv_lhs => rw [← List.take_append_drop (size - 1) lines]
            congr 1
            cases hlast : lines[size - 1]? with
            | none => exact List.drop_eq_nil_of_le (List.getElem?_eq_none_iff.mp hlast)
            | some last =>
              obtain ⟨hlt, rfl⟩ := List.getElem?_eq_some_iff.mp hlast
              rw [List.drop_eq_getElem_cons hlt, List.drop_eq_nil_of_le (by omega)]
              rfl
          rw [given_append, hfreed]
          calc text :: lines.take (size - 1) ++ (h.freed ++ lines[size - 1]?.toList)
            _ |>.Perm (text :: (lines ++ h.freed)) := by
              conv_rhs => rw [hsplit]
              simp only [List.cons_append, List.append_assoc]
              exact ((List.perm_append_comm).append_left _).cons text
            _ |>.Perm (text :: given calls) := hr.freed.cons text
            _ |>.Perm (given calls ++ [text]) := (List.perm_append_singleton text _).symm

theorem remembers_create (hpos : 0 < size) : Remembers (createHistory size hpos) [] [] where
  holds := ⟨fun _ _ => rfl, Nat.zero_le _⟩
  recent := by simp [recent]
  freed := by simp [createHistory, given]

/-- No loop takes more turns than there are slots. -/
theorem remembers_appendAll {h : History size} {before : List (Option Str)} {lines : List Str}
    (hr : Remembers h before lines) (calls : List (Option Str)) :
    ∃ h' lines', appendAll h calls = some h' ∧ Remembers h' (before ++ calls) lines' := by
  induction calls generalizing h before lines with
  | nil => exact ⟨h, lines, rfl, by simpa using hr⟩
  | cons call calls ih =>
    obtain ⟨h1, lines1, happ, hr1⟩ := remembers_append hr call
    obtain ⟨h2, lines2, hrest, hr2⟩ := ih hr1
    refine ⟨h2, lines2, ?_, by simpa using hr2⟩
    simp only [appendAll, List.foldlM_cons, happ, Option.bind_eq_bind, Option.bind_some]
    exact hrest

theorem getHistory_slot (h : History size) (hsize : size < 2 ^ 31) (num : BitVec 32) :
    getHistory h num =
      if num.toNat < size then h.text_lines (slot h.insert_point num.toNat) else none := by
  have := h.insert_point.isLt
  unfold getHistory
  by_cases hnum : size ≤ num.toNat
  · simp [hnum, Nat.not_lt.mpr hnum]
  · have hlt := Nat.not_le.mp hnum
    have hint : num.toInt = num.toNat := BitVec.toInt_eq_toNat_of_lt (by omega)
    have hval := slot_val h.insert_point hlt
    simp only [hnum, hlt, if_true, if_false, hint]
    have hpoint : (if (h.insert_point : Int) - (num.toNat : Int) - 1 < 0 then
        (h.insert_point : Int) - (num.toNat : Int) - 1 + (size : Int)
        else (h.insert_point : Int) - (num.toNat : Int) - 1).toNat =
          (slot h.insert_point num.toNat).val := by
      rw [hval]
      split <;> split <;> omega
    simp only [hpoint, Fin.is_lt, dif_pos, Fin.eta]

theorem getHistory_eq {h : History size} {calls : List (Option Str)} {lines : List Str}
    (hr : Remembers h calls lines) (hsize : size < 2 ^ 31) (num : BitVec 32) :
    (getHistory h num).map Str.bytes = ((recent calls).take size)[num.toNat]? := by
  rw [getHistory_slot h hsize]
  split
  case isTrue hlt => rw [hr.holds.slots _ hlt, ← hr.recent, List.getElem?_map]
  case isFalse hge =>
    rw [List.getElem?_eq_none (by rw [List.length_take]; omega)]
    rfl

/-- What is stored, slot by slot. -/
def stored (h : History size) : List Str := (List.finRange size).filterMap h.text_lines

theorem filterMap_getElem? {α : Type} (l : List α) {n : Nat} (h : l.length ≤ n) :
    (List.range n).filterMap (l[·]?) = l := by
  induction l generalizing n with
  | nil => simp
  | cons a l ih =>
    obtain ⟨m, rfl⟩ : ∃ m, n = m + 1 := ⟨n - 1, by simp at h; omega⟩
    rw [List.range_succ_eq_map, List.filterMap_cons_some (by rfl), List.filterMap_map]
    congr 1
    exact ih (by simpa using h)

theorem stored_perm {h : History size} {lines : List Str} (hh : Holds h lines) :
    (stored h).Perm lines := by
  -- The slots from the most recent line on are all the slots
  let order : List (Fin size) := (List.range size).map (slot h.insert_point)
  have hnodup : order.Nodup := by
    apply List.Nodup.map_on _ List.nodup_range
    intro j hj k hk
    exact slot_inj h.insert_point (List.mem_range.mp hj) (List.mem_range.mp hk)
  have hperm : (List.finRange size).Perm order := by
    apply List.Perm.symm
    apply (List.subperm_of_subset hnodup (fun i _ => List.mem_finRange i)).perm_of_length_le
    simp [order]
  have hlines : order.filterMap h.text_lines = lines := by
    rw [List.filterMap_map, ← filterMap_getElem? lines hh.length_le]
    apply List.filterMap_congr
    intro k hk
    exact hh.slots k (List.mem_range.mp hk)
  rw [← hlines]
  exact hperm.filterMap _

/-- The input history keeps the distinct strings that were appended last, the most recent one
first, each of them once, and every other string that was given to it has been freed once. -/
theorem edit_get_history_is_most_recently_used (hpos : 0 < size) (hsize : size < 2 ^ 31)
    (calls : List (Option Str)) :
    ∃ h, appendAll (createHistory size hpos) calls = some h ∧
      (∀ num, (getHistory h num).map Str.bytes = ((recent calls).take size)[num.toNat]?) ∧
      ((stored h).map Str.bytes).Nodup ∧ (stored h ++ h.freed).Perm (given calls) := by
  obtain ⟨h, lines, happ, hr⟩ := remembers_appendAll (remembers_create hpos) calls
  rw [List.nil_append] at hr
  have hstored := stored_perm hr.holds
  refine ⟨h, happ, getHistory_eq hr hsize, ?_, (hstored.append_right _).trans hr.freed⟩
  rw [(hstored.map Str.bytes).nodup_iff, hr.recent]
  exact (nodup_recent calls).sublist (List.take_sublist _ _)

/-- The first of two strings appended again. -/
theorem appended_again_in_history_of_two :
    ∃ h, appendAll (createHistory 2 Nat.two_pos) [some ⟨0, [97]⟩, some ⟨1, [98]⟩, some ⟨2, [97]⟩] =
      some h ∧
      (∀ num, (getHistory h num).map Str.bytes =
        ((recent [some ⟨0, [97]⟩, some ⟨1, [98]⟩, some ⟨2, [97]⟩]).take 2)[num.toNat]?) ∧
      ((stored h).map Str.bytes).Nodup ∧
      (stored h ++ h.freed).Perm (given [some ⟨0, [97]⟩, some ⟨1, [98]⟩, some ⟨2, [97]⟩]) :=
  edit_get_history_is_most_recently_used Nat.two_pos (by decide) _

example : recent [some ⟨0, [97]⟩, some ⟨1, [98]⟩, some ⟨2, [97]⟩] = [[97], [98]] := by decide

end ups_rules.history
