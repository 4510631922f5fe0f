-- Singly linked lists: the nodes that links lead over, from the head or from a node on, and
-- what inserting and removing a node does to them.
import Mathlib.Data.List.Basic
import Mathlib.Data.List.Nodup

namespace linked_path

variable {α : Type} {link link' : Option α → Option α} {p z z' : Option α} {a b : α}
  {l l1 l2 : List α}

/-- The links lead from `p` over the nodes of the list to `z`. What `none` links to is the head of
the list. -/
def Path (link : Option α → Option α) : Option α → List α → Option α → Prop
  | p, [], z => link p = z
  | p, a :: l, z => link p = some a ∧ Path link (some a) l z

/-- The last of `p` and the nodes of the list. -/
def lastOf : Option α → List α → Option α
  | p, [] => p
  | _, a :: l => lastOf (some a) l

theorem path_nil : Path link p [] z ↔ link p = z := Iff.rfl

theorem path_cons : Path link p (a :: l) z ↔ link p = some a ∧ Path link (some a) l z := Iff.rfl

theorem lastOf_nil (p : Option α) : lastOf p [] = p := rfl

theorem lastOf_cons (p : Option α) (a : α) (l : List α) : lastOf p (a :: l) = lastOf (some a) l :=
  rfl

theorem lastOf_append (p : Option α) (l1 l2 : List α) :
    lastOf p (l1 ++ l2) = lastOf (lastOf p l1) l2 := by
  induction l1 generalizing p with
  | nil => rfl
  | cons a l1 ih => exact ih (some a)

theorem lastOf_mem (p : Option α) (l : List α) : lastOf p l ∈ p :: l.map some := by
  induction l generalizing p with
  | nil => exact List.mem_cons_self
  | cons a l ih => exact List.mem_cons_of_mem p (ih (some a))

theorem lastOf_some (a : α) (l : List α) : ∃ b ∈ a :: l, lastOf (some a) l = some b := by
  have hmem := lastOf_mem (some a) l
  rw [← List.map_cons, List.mem_map] at hmem
  obtain ⟨b, hb, hlast⟩ := hmem
  exact ⟨b, hb, hlast.symm⟩

/-- Where the list starts is of no interest when it has a node. -/
theorem lastOf_congr (p q : Option α) (hl : l ≠ []) : lastOf p l = lastOf q l := by
  cases l with
  | nil => exact absurd rfl hl
  | cons a l => rfl

/-- The last of a list with a node in it is the last node. -/
theorem lastOf_none (l : List α) :
    (lastOf none l = none ∧ l = []) ∨ ∃ l1 a, lastOf none l = some a ∧ l = l1 ++ [a] := by
  rcases List.eq_nil_or_concat l with rfl | ⟨l1, a, rfl⟩
  · exact Or.inl ⟨rfl, rfl⟩
  · rw [List.concat_eq_append]
    exact Or.inr ⟨l1, a, lastOf_append none l1 [a], rfl⟩

theorem lastOf_none_eq (l : List α) : lastOf none l = l.getLast? := by
  rcases List.eq_nil_or_concat l with rfl | ⟨l1, a, rfl⟩
  · rfl
  · rw [List.concat_eq_append, lastOf_append, List.getLast?_concat]
    rfl

theorem path_append : Path link p (l1 ++ a :: l2) z ↔
    Path link p l1 (some a) ∧ Path link (some a) l2 z := by
  induction l1 generalizing p with
  | nil => exact Iff.rfl
  | cons b l1 ih => rw [List.cons_append, path_cons, path_cons, ih, and_assoc]

theorem Path.last (h : Path link p l z) : link (lastOf p l) = z := by
  induction l generalizing p with
  | nil => exact h
  | cons a l ih => exact ih h.2

theorem Path.head (h : Path link p l none) : link p = l.head? := by
  cases l with
  | nil => exact h
  | cons a l => exact h.1

/-- The last of the nodes in front links to the first one behind. -/
theorem Path.link_lastOf (h : Path link p (l1 ++ l2) none) : link (lastOf p l1) = l2.head? := by
  cases l2 with
  | nil =>
    rw [List.append_nil] at h
    exact h.last
  | cons a l2 => exact (path_append.mp h).1.last

/-- Only the links of `p` and of the nodes are looked at. -/
theorem Path.congr (h : Path link p l z) (hsame : ∀ x ∈ p :: l.map some, link' x = link x) :
    Path link' p l z := by
  induction l generalizing p with
  | nil => exact (hsame p List.mem_cons_self).trans h
  | cons a l ih =>
    refine ⟨(hsame p List.mem_cons_self).trans h.1, ih h.2 ?_⟩
    intro x hx
    exact hsame x (List.mem_cons_of_mem p hx)

/-- The last link leads elsewhere. -/
theorem Path.retarget (h : Path link p l z) (hnodup : (p :: l.map some).Nodup)
    (hsame : ∀ x ∈ p :: l.map some, x ≠ lastOf p l → link' x = link x)
    (hlast : link' (lastOf p l) = z') : Path link' p l z' := by
  induction l generalizing p with
  | nil => exact hlast
  | cons a l ih =>
    have hp : p ≠ lastOf (some a) l := by
      intro hc
      have hmem := lastOf_mem (some a) l
      rw [← hc] at hmem
      exact (List.nodup_cons.mp hnodup).1 hmem
    refine ⟨(hsame p List.mem_cons_self hp).trans h.1, ?_⟩
    apply ih h.2 (List.nodup_cons.mp hnodup).2 _ hlast
    intro x hx
    exact hsame x (List.mem_cons_of_mem p hx)

/-- A path goes on where another one ends. -/
theorem Path.join (h1 : Path link p l1 z) (h2 : Path link (lastOf p l1) l2 z') (hl2 : l2 ≠ [])
    (hz : z = l2.head?) : Path link p (l1 ++ l2) z' := by
  cases l2 with
  | nil => exact absurd rfl hl2
  | cons a l2 =>
    rw [path_append]
    rw [hz] at h1
    exact ⟨h1, h2.2⟩

theorem not_mem_map_some (hb : b ∉ l) : some b ∉ l.map some := by
  rw [List.mem_map]
  rintro ⟨c, hc, hcb⟩
  exact hb (Option.some.inj hcb ▸ hc)

theorem nodup_none_map (h : l.Nodup) : (none :: l.map some).Nodup := by
  rw [List.nodup_cons]
  refine ⟨?_, h.map fun _ _ hab => Option.some.inj hab⟩
  rw [List.mem_map]
  rintro ⟨c, -, hc⟩
  cases hc

/-- The last of the nodes in front is not one of those behind. -/
theorem lastOf_not_mem (hnodup : (l1 ++ l2).Nodup) : lastOf none l1 ∉ l2.map some := by
  intro hx
  rcases List.mem_cons.mp (lastOf_mem none l1) with hnone | hmem
  · rw [hnone] at hx
    simp at hx
  · obtain ⟨d, hd, hdl⟩ := List.mem_map.mp hmem
    rw [← hdl] at hx
    have hd2 : d ∈ l2 := by simpa using hx
    exact (List.nodup_append.mp hnodup).2.2 d hd d hd2 rfl

/-- A longer list of distinct nodes ends elsewhere. -/
theorem lastOf_ne (hnodup : (a :: (l1 ++ l2)).Nodup) (hl2 : l2 ≠ []) :
    lastOf (some a) l1 ≠ lastOf (some a) (l1 ++ l2) := by
  intro hc
  rw [lastOf_append] at hc
  obtain ⟨b, hb, hlast⟩ := lastOf_some a l1
  rw [hlast] at hc
  have hmem := lastOf_mem none l2
  rw [lastOf_congr none (some b) hl2, ← hc] at hmem
  have hb2 : b ∈ l2 := by simpa using hmem
  rw [← List.cons_append] at hnodup
  exact (List.nodup_append.mp hnodup).2.2 b hb b hb2 rfl

/-- A new node is linked in behind the nodes of `l1`. -/
theorem path_insert (h : Path link none (l1 ++ l2) none) (hnodup : (l1 ++ l2).Nodup)
    (hb : b ∉ l1 ++ l2) (hnew : link' (some b) = link (lastOf none l1))
    (hlast : link' (lastOf none l1) = some b)
    (hsame : ∀ x, x ≠ some b → x ≠ lastOf none l1 → link' x = link x) :
    Path link' none (l1 ++ b :: l2) none := by
  rw [List.mem_append, not_or] at hb
  have hnodup1 : (none :: l1.map some).Nodup := nodup_none_map (List.nodup_append.mp hnodup).1
  have hb1 : ∀ x ∈ none :: l1.map some, x ≠ some b := by
    rintro x hx rfl
    rcases List.mem_cons.mp hx with hx | hx
    · cases hx
    · exact not_mem_map_some hb.1 hx
  have hfront : ∀ z, Path link none l1 z → Path link' none l1 (some b) := by
    intro z hz
    apply hz.retarget hnodup1 _ hlast
    intro x hx
    exact hsame x (hb1 x hx)
  rw [path_append]
  cases l2 with
  | nil =>
    rw [List.append_nil] at h
    refine ⟨hfront none h, ?_⟩
    rw [path_nil, hnew]
    exact h.last
  | cons c l2 =>
    rw [path_append] at h
    refine ⟨hfront (some c) h.1, ?_⟩
    rw [path_cons, hnew]
    refine ⟨h.1.last, h.2.congr ?_⟩
    intro x hx
    apply hsame
    · rintro rfl
      exact not_mem_map_some hb.2 hx
    · rintro rfl
      exact lastOf_not_mem hnodup hx

/-- The node behind those of `l1` is taken out. -/
theorem path_remove (h : Path link none (l1 ++ a :: l2) none)
    (hnodup : (l1 ++ a :: l2).Nodup) (hlast : link' (lastOf none l1) = link (some a))
    (hsame : ∀ x, x ≠ lastOf none l1 → link' x = link x) :
    Path link' none (l1 ++ l2) none := by
  have hnodup1 : (none :: l1.map some).Nodup := nodup_none_map (List.nodup_append.mp hnodup).1
  obtain ⟨hfront, hback⟩ := path_append.mp h
  have hretarget := hfront.retarget hnodup1 (fun x _ => hsame x) hlast
  cases l2 with
  | nil =>
    rw [path_nil] at hback
    rw [hback] at hretarget
    rwa [List.append_nil]
  | cons c l2 =>
    rw [path_append]
    rw [hback.1] at hretarget
    refine ⟨hretarget, hback.2.congr ?_⟩
    intro x hx
    apply hsame
    rintro rfl
    exact lastOf_not_mem hnodup (List.mem_cons_of_mem (some a) hx)

end linked_path
