-- The jumps of a line that a step has to stop at (get_lno_jumps in trun_j.c). The list is filtered
-- in place, and it is not used if there is only one place that the line is left for.
import Ups.Compaction
import Ups.GetJumps

open compaction
open ups_rules.get_jumps

namespace ups_rules.step_jumps

/-! ## The pure model -/

/-- `lno_t` -/
structure Lno where
  ln_addr : Nat
  ln_num : Nat
deriving DecidableEq

/-- `func_t`; without line numbers `FU_LNOS` is NULL. -/
structure Func where
  fu_addr : Nat
  fu_lnos : List Lno
deriving DecidableEq

/-- What the symbol tables say. `stGetJumps` is the list up to `JT_END`. -/
structure Symtabs where
  addrToFunc : Nat → Option Func
  stGetAddrLim : Func → Nat
  stReadText : Func → Nat → Nat → Option (List (BitVec 8))
  stGetJumps : Func → Nat → List (BitVec 8) → Bool → List JumpEntry

def jumpNeeded (x : Symtabs) (j : JumpEntry) : Bool :=
  if j.ju_type = .JT_CALL ∧ j.ju_dstaddr ≠ 0 then
    match x.addrToFunc j.ju_dstaddr with
    | some f => !f.fu_lnos.isEmpty
    | none => false
  else true

inductive JumpDisp where
  | ALL_WITHIN_LINE | WITHIN_LINE_OR_TO_ONE_ADDR | TO_MULTIPLE_PLACES
deriving DecidableEq

/-- What the loop has found out so far; the type `none` is `JT_END`. -/
structure Dest where
  jump_disp : JumpDisp
  alt_addr : Nat
  alt_jumptype : Option JumpType
deriving DecidableEq

/-- The branches of the loop for a jump that is needed. -/
def Dest.classify (addr nextaddr : Nat) (j : JumpEntry) (d : Dest) : Dest :=
  if j.ju_dstaddr = 0 then { d with jump_disp := .TO_MULTIPLE_PLACES }
  else if j.ju_dstaddr < addr ∨ nextaddr < j.ju_dstaddr then
    match d.jump_disp with
    | .ALL_WITHIN_LINE => ⟨.WITHIN_LINE_OR_TO_ONE_ADDR, j.ju_dstaddr, some j.ju_type⟩
    | .WITHIN_LINE_OR_TO_ONE_ADDR =>
      if j.ju_dstaddr ≠ d.alt_addr ∨ some j.ju_type ≠ d.alt_jumptype then
        { d with jump_disp := .TO_MULTIPLE_PLACES }
      else d
    | .TO_MULTIPLE_PLACES => d
  else d

/-- The variables of the loop. An entry `none` of the array is `JT_END`. -/
structure Scan where
  jumps : List (Option JumpEntry)
  src : Nat
  dst : Nat
  dest : Dest

/-- The loop; `none` if it reads beyond the array. -/
def scan (needed : JumpEntry → Bool) (addr nextaddr : Nat) : Nat → Scan → Option Scan
  | 0, _ => none
  | fuel + 1, s =>
    match s.jumps[s.src]? with
    | none => none
    | some none => some s
    | some (some j) =>
      if needed j then
        scan needed addr nextaddr fuel {
          jumps := s.jumps.set s.dst (some j)
          src := s.src + 1
          dst := s.dst + 1
          dest := s.dest.classify addr nextaddr j }
      else scan needed addr nextaddr fuel { s with src := s.src + 1 }

/-- What `get_lno_jumps` hands out. The pointer that it returns is to the entry `res`. -/
structure LnoJumps where
  jumps : List (Option JumpEntry)
  res : Nat
  addr : Nat
  nextaddr : Nat
  alt_addr : Nat
  alt_jumptype : Option JumpType
deriving DecidableEq

def upToEnd : List (Option JumpEntry) → List JumpEntry
  | some j :: jumps => j :: upToEnd jumps
  | _ => []

/-- The list that the pointer leads to. -/
def LnoJumps.list (r : LnoJumps) : List JumpEntry := upToEnd (r.jumps.drop r.res)

def nextAddr (x : Symtabs) (f : Func) : Option Lno → Nat
  | some next => next.ln_addr
  | none => x.stGetAddrLim f

/-- The text of the line; its length is a `size_t`. -/
def lineText (x : Symtabs) (f : Func) (lno : Lno) (ln_next : Option Lno) :
    Option (List (BitVec 8)) :=
  x.stReadText f lno.ln_addr ((nextAddr x f ln_next + 2 ^ 64 - lno.ln_addr) % 2 ^ 64)

/-- `get_lno_jumps`; it returns NULL if the text cannot be read. -/
def getLnoJumps (x : Symtabs) (f : Func) (lno : Lno) (ln_next : Option Lno) (want_calls : Bool) :
    Option LnoJumps := do
  let addr := lno.ln_addr
  let nextaddr := nextAddr x f ln_next
  let text ← lineText x f lno ln_next
  let jumps := (x.stGetJumps f addr text want_calls).map some ++ [none]
  let s ← scan (jumpNeeded x) addr nextaddr jumps.length ⟨jumps, 0, 0, ⟨.ALL_WITHIN_LINE, 0, none⟩⟩
  let jumps := s.jumps.set s.src none
  return match s.dest.jump_disp with
    | .TO_MULTIPLE_PLACES => ⟨jumps, 0, addr, nextaddr, 0, none⟩
    | _ => ⟨jumps, s.src, addr, nextaddr, s.dest.alt_addr, s.dest.alt_jumptype⟩

/-! ## What the filter is for -/

/-- The jump leads to a known place outside the line. At the address of the next line the step has
a breakpoint anyway. -/
def leavesLine (addr nextaddr : Nat) (j : JumpEntry) : Bool :=
  j.ju_dstaddr ≠ 0 && (j.ju_dstaddr < addr || nextaddr < j.ju_dstaddr)

def destinations (addr nextaddr : Nat) (jumps : List JumpEntry) : List (Nat × JumpType) :=
  (jumps.filter (leavesLine addr nextaddr)).map fun j => (j.ju_dstaddr, j.ju_type)

/-- A destination is unknown, or there is more than one outside the line. -/
def Scattered (addr nextaddr : Nat) (jumps : List JumpEntry) : Prop :=
  (∃ j ∈ jumps, j.ju_dstaddr = 0) ∨
    ∃ d ∈ destinations addr nextaddr jumps, ∃ e ∈ destinations addr nextaddr jumps, d ≠ e

instance (addr nextaddr : Nat) (jumps : List JumpEntry) :
    Decidable (Scattered addr nextaddr jumps) := by
  unfold Scattered
  infer_instance

/-- The needed jumps are in the list if there are several places to stop at, and else the only one
outside the line is handed out instead of a list. -/
structure LnoJumps.Exact (r : LnoJumps) (needed : List JumpEntry) : Prop where
  several : Scattered r.addr r.nextaddr needed → r.list = needed ∧ r.alt_addr = 0
  single : ¬ Scattered r.addr r.nextaddr needed → r.list = [] ∧
    match destinations r.addr r.nextaddr needed with
    | [] => r.alt_addr = 0 ∧ r.alt_jumptype = none
    | d :: _ => r.alt_addr = d.1 ∧ r.alt_jumptype = some d.2

/-! ## Where the jumps lead -/

section
variable {addr nextaddr : Nat} {kept : List JumpEntry} {j : JumpEntry} {d : Dest}

/-- What the loop has found out from the jumps that it kept. -/
inductive Leads (addr nextaddr : Nat) (kept : List JumpEntry) : Dest → Prop where
  | within (hknown : ∀ j ∈ kept, j.ju_dstaddr ≠ 0) (hnone : destinations addr nextaddr kept = []) :
    Leads addr nextaddr kept ⟨.ALL_WITHIN_LINE, 0, none⟩
  | one {d : Nat × JumpType} {rest : List (Nat × JumpType)} (hknown : ∀ j ∈ kept, j.ju_dstaddr ≠ 0)
    (hdest : destinations addr nextaddr kept = d :: rest) (hall : ∀ e ∈ rest, e = d) :
    Leads addr nextaddr kept ⟨.WITHIN_LINE_OR_TO_ONE_ADDR, d.1, some d.2⟩
  | several {alt_addr : Nat} {alt_jumptype : Option JumpType}
    (hscattered : Scattered addr nextaddr kept) :
    Leads addr nextaddr kept ⟨.TO_MULTIPLE_PLACES, alt_addr, alt_jumptype⟩

theorem destinations_append (addr nextaddr : Nat) (kept : List JumpEntry) (j : JumpEntry) :
    destinations addr nextaddr (kept ++ [j]) = destinations addr nextaddr kept ++
      if leavesLine addr nextaddr j then [(j.ju_dstaddr, j.ju_type)] else [] := by
  unfold destinations
  rw [List.filter_append, List.map_append]
  split
  · rename_i h
    rw [List.filter_cons_of_pos h]
    rfl
  · rename_i h
    rw [List.filter_cons_of_neg h]
    rfl

theorem leavesLine_iff (h : j.ju_dstaddr ≠ 0) : leavesLine addr nextaddr j = true ↔
    j.ju_dstaddr < addr ∨ nextaddr < j.ju_dstaddr := by
  simp [leavesLine, h]

theorem Scattered.append (h : Scattered addr nextaddr kept) (j : JumpEntry) :
    Scattered addr nextaddr (kept ++ [j]) := by
  rcases h with ⟨i, hi, hzero⟩ | ⟨d, hd, e, he, hne⟩
  · exact .inl ⟨i, List.mem_append_left _ hi, hzero⟩
  · refine .inr ⟨d, ?_, e, ?_, hne⟩
    · rw [destinations_append]
      exact List.mem_append_left _ hd
    · rw [destinations_append]
      exact List.mem_append_left _ he

theorem known_append (hknown : ∀ j ∈ kept, j.ju_dstaddr ≠ 0) (hj : j.ju_dstaddr ≠ 0) :
    ∀ i ∈ kept ++ [j], i.ju_dstaddr ≠ 0 := by
  intro i hi
  rcases List.mem_append.1 hi with hi | hi
  · exact hknown i hi
  · rw [List.mem_singleton.1 hi]
    exact hj

/-- What a turn of the loop does to it. -/
theorem Leads.classify (h : Leads addr nextaddr kept d) (j : JumpEntry) :
    Leads addr nextaddr (kept ++ [j]) (d.classify addr nextaddr j) := by
  unfold Dest.classify
  by_cases hzero : j.ju_dstaddr = 0
  · rw [if_pos hzero]
    exact .several (.inl ⟨j, by simp, hzero⟩)
  rw [if_neg hzero]
  have happend := destinations_append addr nextaddr kept j
  by_cases hout : j.ju_dstaddr < addr ∨ nextaddr < j.ju_dstaddr
  · rw [if_pos ((leavesLine_iff hzero).2 hout)] at happend
    rw [if_pos hout]
    cases h with
    | within hknown hnone =>
      rw [hnone, List.nil_append] at happend
      exact .one (d := (j.ju_dstaddr, j.ju_type)) (known_append hknown hzero) happend nofun
    | @one first rest hknown hdest hall =>
      dsimp only
      rw [hdest] at happend
      by_cases hsame : (j.ju_dstaddr, j.ju_type) = first
      · rw [if_neg (by simp [← hsame])]
        rw [hsame, List.cons_append] at happend
        refine .one (known_append hknown hzero) happend ?_
        · intro e he
          rcases List.mem_append.1 he with he | he
          · exact hall e he
          · exact List.mem_singleton.1 he
      · rw [if_pos]
        · refine .several (.inr ⟨first, ?_, (j.ju_dstaddr, j.ju_type), ?_, Ne.symm hsame⟩)
          · rw [happend]
            simp
          · rw [happend]
            simp
        · by_contra hno
          simp only [not_or, not_not, Option.some.injEq] at hno
          exact hsame (Prod.ext hno.1 hno.2)
    | several hscattered => exact .several (hscattered.append j)
  · rw [if_neg (mt (leavesLine_iff hzero).1 hout), List.append_nil] at happend
    rw [if_neg hout]
    cases h with
    | within hknown hnone => exact .within (known_append hknown hzero) (happend.trans hnone)
    | one hknown hdest hall => exact .one (known_append hknown hzero) (happend.trans hdest) hall
    | several hscattered => exact .several (hscattered.append j)

/-- The jumps lead to one place outside the line at most. -/
theorem not_scattered {l : List (Nat × JumpType)} {d : Nat × JumpType}
    (hknown : ∀ j ∈ kept, j.ju_dstaddr ≠ 0) (hdest : destinations addr nextaddr kept = l)
    (hall : ∀ e ∈ l, e = d) : ¬ Scattered addr nextaddr kept := by
  rintro (⟨j, hj, hzero⟩ | ⟨a, ha, b, hb, hne⟩)
  · exact hknown j hj hzero
  · rw [hdest] at ha hb
    exact hne ((hall a ha).trans (hall b hb).symm)

end

/-! ## The loop -/

def slots (jumps : List JumpEntry) : List (Option JumpEntry) := jumps.map some ++ [none]

/-- The loop does not come to copy a `JT_END`. -/
def keepSlot (needed : JumpEntry → Bool) : Option JumpEntry → Bool
  | some j => needed j
  | none => true

section
variable {needed : JumpEntry → Bool} {addr nextaddr n dst fuel : Nat} {jumps : List JumpEntry}
  {cells : List (Option JumpEntry)} {dest : Dest}

theorem slots_at (hn : n < jumps.length) : (slots jumps)[n]? = some (some jumps[n]) := by
  unfold slots
  rw [List.getElem?_append_left (by simpa using hn), List.getElem?_map, List.getElem?_eq_getElem hn]
  rfl

theorem slots_end (jumps : List JumpEntry) : (slots jumps)[jumps.length]? = some none := by
  simp [slots]

theorem filter_take_succ (needed : JumpEntry → Bool) (hn : n < jumps.length) :
    (jumps.take (n + 1)).filter needed =
      (jumps.take n).filter needed ++ if needed jumps[n] then [jumps[n]] else [] := by
  rw [List.take_add_one, List.getElem?_eq_getElem hn, List.filter_append]
  simp [List.filter_cons]

/-- The loop comes to the end of the list, with the cells compacted and the destinations known. -/
theorem scan_spec (hcells : Compacts (keepSlot needed) (slots jumps) n cells dst)
    (hn : n ≤ jumps.length) (hfuel : jumps.length - n < fuel)
    (hleads : Leads addr nextaddr ((jumps.take n).filter needed) dest) :
    ∃ cells' dst' dest', scan needed addr nextaddr fuel ⟨cells, n, dst, dest⟩ =
        some ⟨cells', jumps.length, dst', dest'⟩ ∧
      Compacts (keepSlot needed) (slots jumps) jumps.length cells' dst' ∧
      Leads addr nextaddr (jumps.filter needed) dest' := by
  induction fuel generalizing n cells dst dest with
  | zero => omega
  | succ fuel ih =>
    rw [scan]
    dsimp only
    rw [hcells.read]
    rcases Nat.lt_or_eq_of_le hn with hlt | rfl
    · have hslot := slots_at hlt
      have hfilter := filter_take_succ needed hlt
      rw [hslot]
      dsimp only
      cases hneeded : needed jumps[n] with
      | true =>
        rw [hneeded, if_pos rfl] at hfilter
        rw [if_pos rfl]
        refine ih (hcells.copy hslot hneeded) hlt (by omega) ?_
        rw [hfilter]
        exact hleads.classify _
      | false =>
        rw [hneeded, if_neg (by simp), List.append_nil] at hfilter
        rw [if_neg (by simp)]
        refine ih (hcells.skip hslot hneeded) hlt (by omega) ?_
        rwa [hfilter]
    · rw [slots_end]
      rw [List.take_length] at hleads
      exact ⟨cells, dst, dest, rfl, hcells, hleads⟩

/-- What was written over is in front of the jumps that were not. -/
theorem cells_of_compacts (h : Compacts (keepSlot needed) (slots jumps) jumps.length cells dst) :
    cells = slots (jumps.filter needed ++ jumps.drop (jumps.filter needed).length) := by
  have htake : (slots jumps).take jumps.length = jumps.map some := by
    unfold slots
    rw [List.take_append_of_le_length (by simp), List.take_of_length_le (by simp)]
  have hfilter : (jumps.map some).filter (keepSlot needed) = (jumps.filter needed).map some := by
    rw [List.filter_map]
    rfl
  have hdst := h.dst_eq
  have hcells := h.cells_eq
  rw [htake, hfilter] at hdst hcells
  rw [List.length_map] at hdst
  have hle : (jumps.filter needed).length ≤ jumps.length := List.length_filter_le _ _
  rw [hcells, hdst]
  unfold slots
  rw [List.drop_append_of_le_length (by simpa using hle), List.map_append, List.map_drop,
    List.append_assoc]

theorem upToEnd_slots (jumps : List JumpEntry) : upToEnd (slots jumps) = jumps := by
  induction jumps with
  | nil => rfl
  | cons j jumps ih => exact congrArg (j :: ·) ih

theorem set_slots (jumps : List JumpEntry) : (slots jumps).set jumps.length none = slots jumps := by
  unfold slots
  rw [List.set_append_right _ _ (by simp)]
  simp

theorem upToEnd_drop_slots (jumps : List JumpEntry) :
    upToEnd ((slots jumps).drop jumps.length) = [] := by
  unfold slots
  rw [List.drop_append_of_le_length (by simp), List.drop_of_length_le (by simp)]
  rfl

end

/-! ## The list that is handed out -/

section
variable {x : Symtabs} {f : Func} {lno : Lno} {ln_next : Option Lno} {want_calls : Bool}
  {text : List (BitVec 8)}

/-- If there are several places to stop at, the jumps that were not written over are still behind
those that are needed. -/
theorem getLnoJumps_spec (want_calls : Bool) (htext : lineText x f lno ln_next = some text) :
    ∃ r, getLnoJumps x f lno ln_next want_calls = some r ∧ r.addr = lno.ln_addr ∧
      r.nextaddr = nextAddr x f ln_next ∧
      let jumps := x.stGetJumps f lno.ln_addr text want_calls
      let needed := jumps.filter (jumpNeeded x)
      (Scattered r.addr r.nextaddr needed →
        r.list = needed ++ jumps.drop needed.length ∧ r.alt_addr = 0) ∧
      (¬ Scattered r.addr r.nextaddr needed → r.list = [] ∧
        match destinations r.addr r.nextaddr needed with
        | [] => r.alt_addr = 0 ∧ r.alt_jumptype = none
        | d :: _ => r.alt_addr = d.1 ∧ r.alt_jumptype = some d.2) := by
  obtain ⟨jumps, hjumps⟩ : ∃ l, x.stGetJumps f lno.ln_addr text want_calls = l := ⟨_, rfl⟩
  have hfuel : jumps.length - 0 < (slots jumps).length := by simp [slots]
  have hnone : Leads lno.ln_addr (nextAddr x f ln_next) ((jumps.take 0).filter (jumpNeeded x))
      ⟨.ALL_WITHIN_LINE, 0, none⟩ := .within nofun rfl
  obtain ⟨cells, dst, dest, hscan, hcells, hleads⟩ :=
    scan_spec (Compacts.start (keepSlot (jumpNeeded x)) (slots jumps)) (Nat.zero_le _) hfuel hnone
  have hlen : (jumps.filter (jumpNeeded x) ++
      jumps.drop (jumps.filter (jumpNeeded x)).length).length = jumps.length := by
    have hle : (jumps.filter (jumpNeeded x)).length ≤ jumps.length := List.length_filter_le _ _
    rw [List.length_append, List.length_drop]
    omega
  have hset : cells.set jumps.length none = cells := by
    rw [cells_of_compacts hcells]
    conv_lhs => rw [← hlen]
    exact set_slots _
  have hlist : upToEnd cells =
      jumps.filter (jumpNeeded x) ++ jumps.drop (jumps.filter (jumpNeeded x)).length := by
    rw [cells_of_compacts hcells, upToEnd_slots]
  have hend : upToEnd (cells.drop jumps.length) = [] := by
    rw [cells_of_compacts hcells]
    conv_lhs => rw [← hlen]
    exact upToEnd_drop_slots _
  have hrun : getLnoJumps x f lno ln_next want_calls = some (match dest.jump_disp with
      | .TO_MULTIPLE_PLACES => ⟨cells, 0, lno.ln_addr, nextAddr x f ln_next, 0, none⟩
      | _ => ⟨cells, jumps.length, lno.ln_addr, nextAddr x f ln_next, dest.alt_addr,
        dest.alt_jumptype⟩) := by
    unfold getLnoJumps
    rw [htext]
    simp only [Option.bind_eq_bind, Option.bind_some, hjumps]
    have hscan' := hscan
    unfold slots at hscan'
    rw [hscan']
    simp only [Option.bind_some, hset]
    rfl
  rw [hjumps]
  refine ⟨_, hrun, ?_⟩
  cases hleads with
  | within hknown hnone =>
    refine ⟨rfl, rfl, fun h => absurd h (not_scattered (d := (0, .JT_CALL)) hknown hnone nofun),
      fun _ => ⟨hend, ?_⟩⟩
    dsimp only
    rw [hnone]
    exact ⟨rfl, rfl⟩
  | one hknown hdest hall =>
    refine ⟨rfl, rfl, fun h => absurd h (not_scattered hknown hdest (List.forall_mem_cons.2 ⟨rfl, hall⟩)),
      fun _ => ⟨hend, ?_⟩⟩
    dsimp only
    rw [hdest]
    exact ⟨rfl, rfl⟩
  | several hscattered => exact ⟨rfl, rfl, fun _ => ⟨hlist, rfl⟩, fun h => absurd hscattered h⟩

/-- The filter is right exactly when there is nothing to throw out of the list, or when the list is
not used because the line is left for one place at most. -/
theorem the_jump_filter_is_right_when_it_throws_nothing_out
    (htext : lineText x f lno ln_next = some text) :
    ∃ r, getLnoJumps x f lno ln_next want_calls = some r ∧
      (r.Exact ((x.stGetJumps f lno.ln_addr text want_calls).filter (jumpNeeded x)) ↔
        (Scattered lno.ln_addr (nextAddr x f ln_next)
            ((x.stGetJumps f lno.ln_addr text want_calls).filter (jumpNeeded x)) →
          ∀ j ∈ x.stGetJumps f lno.ln_addr text want_calls, jumpNeeded x j = true)) := by
  obtain ⟨r, hrun, haddr, hnext, hseveral, hsingle⟩ :=
    getLnoJumps_spec want_calls htext
  refine ⟨r, hrun, ?_⟩
  generalize x.stGetJumps f lno.ln_addr text want_calls = jumps at hseveral hsingle ⊢
  have hiff := filter_append_drop_eq_filter_iff (jumpNeeded x) jumps
  rw [← haddr, ← hnext]
  constructor
  · intro hexact hscattered
    rw [← hiff, ← (hseveral hscattered).1]
    exact (hexact.several hscattered).1
  · intro hall
    refine ⟨fun hscattered => ?_, hsingle⟩
    obtain ⟨hlist, halt⟩ := hseveral hscattered
    exact ⟨hlist.trans (hiff.2 (hall hscattered)), halt⟩

end

/-! ## A call that is not needed -/

/-- The text of a line from 100 to 110 in which a function without symbols is called before the
jumps to 50 and to 200. -/
def calling : Symtabs where
  addrToFunc := fun a => if a = 1000 then some ⟨1000, []⟩ else none
  stGetAddrLim := fun _ => 300
  stReadText := fun _ _ len => some (List.replicate len 0)
  stGetJumps := fun _ _ _ want_calls =>
    (if want_calls then [⟨.JT_CALL, 102, 1000, true⟩] else []) ++
      [⟨.JT_BRANCH, 104, 50, false⟩, ⟨.JT_BRANCH, 106, 200, false⟩]

def callingFunc : Func := ⟨20, [⟨100, 7⟩, ⟨110, 8⟩]⟩

theorem two_branches_are_listed :
    ∃ r, getLnoJumps calling callingFunc ⟨100, 7⟩ (some ⟨110, 8⟩) false = some r ∧
      (r.Exact [⟨.JT_BRANCH, 104, 50, false⟩, ⟨.JT_BRANCH, 106, 200, false⟩] ↔
        (Scattered 100 110 [⟨.JT_BRANCH, 104, 50, false⟩, ⟨.JT_BRANCH, 106, 200, false⟩] →
          ∀ j ∈ calling.stGetJumps callingFunc 100 (List.replicate 10 0) false,
            jumpNeeded calling j = true)) :=
  have htext : lineText calling callingFunc ⟨100, 7⟩ (some ⟨110, 8⟩) =
      some (List.replicate 10 0) := rfl
  the_jump_filter_is_right_when_it_throws_nothing_out htext

/-- The last branch is listed twice, since it is also where it was before the call went. -/
theorem a_jump_is_listed_twice :
    ¬ ∀ x f lno ln_next want_calls text r, lineText x f lno ln_next = some text →
      getLnoJumps x f lno ln_next want_calls = some r →
      r.Exact ((x.stGetJumps f lno.ln_addr text want_calls).filter (jumpNeeded x)) := by
  intro h
  obtain ⟨r, hrun, hlist⟩ : ∃ r, getLnoJumps calling callingFunc ⟨100, 7⟩ (some ⟨110, 8⟩) true =
      some r ∧ r.list = [⟨.JT_BRANCH, 104, 50, false⟩, ⟨.JT_BRANCH, 106, 200, false⟩,
        ⟨.JT_BRANCH, 106, 200, false⟩] := ⟨_, rfl, rfl⟩
  have hexact := h calling callingFunc ⟨100, 7⟩ (some ⟨110, 8⟩) true (List.replicate 10 0) r rfl hrun
  obtain ⟨rfl⟩ := hrun
  have hneeded := (hexact.several (by decide)).1
  exact absurd hneeded (by decide)

end ups_rules.step_jumps
