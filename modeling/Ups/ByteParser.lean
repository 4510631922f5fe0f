-- Parsers of byte strings that fail or consume a prefix, and when a parser reads back what a
-- writer wrote.
import Ups.LeBytes

open le_bytes

namespace byte_parsing

/-- Reads from the front of a byte string and leaves the rest. -/
abbrev Parser (α : Type) := StateT (List (BitVec 8)) Option α

/-- The next `n` bytes. -/
def bytes (n : Nat) : Parser (List (BitVec 8)) :=
  fun bs => if n ≤ bs.length then some (bs.take n, bs.drop n) else none

/-- A seek forward, which may go past the end. -/
def skip (n : Nat) : Parser Unit := fun bs => some ((), bs.drop n)

/-- A number of eight bytes. -/
def word : Parser (BitVec 64) := do
  let bs ← bytes 8
  return BitVec.ofNat 64 (ofLeBytes bs)

/-- A value that may be missing. -/
def ofOption {α : Type} (o : Option α) : Parser α := fun bs => o.map fun a => (a, bs)

/-- The same thing `n` times. -/
def many {α : Type} (n : Nat) (p : Parser α) : Parser (List α) :=
  match n with
  | 0 => return []
  | n + 1 => do
    let a ← p
    let as ← many n p
    return a :: as

/-- Before any rest, `p` reads `v` from `bs` and stops there. -/
def Parses {α : Type} (p : Parser α) (v : α) (bs : List (BitVec 8)) : Prop :=
  ∀ rest, p (bs ++ rest) = some (v, rest)

section
variable {α β : Type}

theorem Parses.pure (v : α) : Parses (Pure.pure v) v [] := by
  intro rest
  rfl

theorem Parses.bind {p : Parser α} {f : α → Parser β} {v : α} {w : β} {bs cs : List (BitVec 8)}
    (hp : Parses p v bs) (hf : Parses (f v) w cs) : Parses (p >>= f) w (bs ++ cs) := by
  intro rest
  have h1 := hp (cs ++ rest)
  rw [List.append_assoc]
  change (p (bs ++ (cs ++ rest))).bind _ = _
  rw [h1]
  exact hf rest

theorem Parses.map {p : Parser α} {v : α} {bs : List (BitVec 8)} (hp : Parses p v bs)
    (f : α → β) : Parses (p >>= fun a => Pure.pure (f a)) (f v) bs := by
  have h := hp.bind (f := fun a => Pure.pure (f a)) (Parses.pure (f v))
  rwa [List.append_nil] at h

theorem parses_bytes (bs : List (BitVec 8)) : Parses (bytes bs.length) bs bs := by
  intro rest
  unfold bytes
  rw [if_pos (by rw [List.length_append]; omega), List.take_left, List.drop_left]

theorem parses_skip (bs : List (BitVec 8)) : Parses (skip bs.length) () bs := by
  intro rest
  unfold skip
  rw [List.drop_left]

theorem parses_ofOption {o : Option α} {v : α} (h : o = some v) : Parses (ofOption o) v [] := by
  intro rest
  rw [h]
  rfl

theorem parses_word (v : BitVec 64) : Parses word v (leBytes 8 v.toNat) := by
  have h := parses_bytes (leBytes 8 v.toNat)
  rw [length_leBytes] at h
  have hv : BitVec.ofNat 64 (ofLeBytes (leBytes 8 v.toNat)) = v := by
    rw [ofLeBytes_leBytes]
    apply BitVec.eq_of_toNat_eq
    rw [BitVec.toNat_ofNat]
    have := v.isLt
    omega
  have hmap := h.map fun bs => BitVec.ofNat 64 (ofLeBytes bs)
  rwa [hv] at hmap

/-- A list is read back when each element is. -/
theorem parses_many {p : Parser α} (write : β → List (BitVec 8)) (read : β → α) (l : List β)
    (h : ∀ b ∈ l, Parses p (read b) (write b)) :
    Parses (many l.length p) (l.map read) (l.flatMap write) := by
  induction l with
  | nil => exact Parses.pure []
  | cons b l ih =>
    have hb := h b List.mem_cons_self
    have hl := ih fun c hc => h c (List.mem_cons_of_mem b hc)
    rw [List.flatMap_cons]
    exact hb.bind (hl.map fun as => read b :: as)

end

end byte_parsing
