-- The case labels of a switch (ci_stm.c). `build_case_stm_list` walks over the body, and
-- `build_cstab` filters the labels, sorts them by value and looks for equal neighbours. The
-- walk goes into the first part of an if statement twice and never into its else part, and
-- the sort compares by a difference that it cuts to 32 bits.
import Mathlib.Algebra.Ring.Int.Defs
import Mathlib.Algebra.Ring.Nat
import Ups.MergeSort
import Ups.Statements

open ups_rules.merge_sort ups_rules.statements

namespace ups_rules.switch_labels

variable {E : Type}

/-! ## The pure model -/

def ciIsIntegral : TypeCode → Bool
  | .TY_CHAR | .TY_UCHAR | .TY_SHORT | .TY_USHORT | .TY_INT | .TY_UINT | .TY_LONG | .TY_ULONG
  | .TY_LONGLONG | .TY_ULONGLONG | .TY_BITFIELD | .TY_BOOLEAN | .TY_ENUM => true
  | _ => false

/-- The type that `ci_do_integral_promotions` leaves, where an int is bigger than a short. -/
def ciDoIntegralPromotions (t : Ctype) : Ctype :=
  match t.ty_code with
  | .TY_BITFIELD => { t with ty_code := t.bf_type }
  | .TY_CHAR | .TY_UCHAR | .TY_BOOLEAN | .TY_SHORT | .TY_USHORT => { t with ty_code := .TY_INT }
  | _ => t

/-- `ci_types_same`, where one of the types is an enumeration. -/
def ciTypesSame (t1 : Ctype) : Option Ctype → Bool
  | none => false
  | some t2 => t1.ty_code == t2.ty_code && t1.ty_aggr_or_enum == t2.ty_aggr_or_enum

/-- The diagnostics of `build_cstab` and `ci_make_switch_statement`. -/
inductive SwitchDiag (E : Type) where
  /-- "Non integral switch expression" -/
  | nonIntegral (expr : Expr E)
  /-- "Switch statement with no case labels" -/
  | noCaseLabels (expr : Expr E)
  /-- "Switch statement with only a default label" -/
  | onlyDefault (expr : Expr E)
  /-- "Duplicate defaults in switch" -/
  | duplicateDefaults
  /-- "Case expression type conflicts with switch expression type" -/
  | typeConflict (expr : Expr E)
  /-- "Case label has same value as label at %s" -/
  | sameValue (cs prev : CaseLabeledStm E)

mutual

def buildCaseStmList : Statement E → List (CaseLabeledStm E) → List (CaseLabeledStm E)
  | .null, cslist => cslist
  | .labeled _ ls_stm, cslist => buildCaseStmList ls_stm cslist
  | .caseLabeled st_case cs_stm, cslist => buildCaseStmList cs_stm (st_case :: cslist)
  | .compound co_statements, cslist => buildCaseStmLists co_statements cslist
  -- the second call names the first part again, not the else part
  | .ifStm _ is_ifpart _, cslist => buildCaseStmList is_ifpart (buildCaseStmList is_ifpart cslist)
  | .whileStm _ ws_stm, cslist => buildCaseStmList ws_stm cslist
  | .doStm _ ws_stm, cslist => buildCaseStmList ws_stm cslist
  | .forStm _ _ _ fs_stm, cslist => buildCaseStmList fs_stm cslist
  | .switchStm _ _ _ _, cslist => cslist
  | .exprStm _, cslist => cslist
  | .gotoStm _, cslist => cslist
  | .continueStm, cslist => cslist
  | .breakStm, cslist => cslist
  | .returnStm _, cslist => cslist

/-- The loop over the statements of a block. -/
def buildCaseStmLists : Statements E → List (CaseLabeledStm E) → List (CaseLabeledStm E)
  | .nil, cslist => cslist
  | .cons st st_next, cslist => buildCaseStmLists st_next (buildCaseStmList st cslist)

end

/-- The difference of two values is a long, which is returned as an int. -/
def casecmp (cs1 cs2 : CaseLabeledStm E) : Int := (cs1.cs_val - cs2.cs_val).bmod (2 ^ 32)

/-- What the loop of `build_cstab` decides about one label: whether it goes into the table,
and the diagnostic. -/
def wantCase (switchtype : Option Ctype) (cs : CaseLabeledStm E) : Bool × List (SwitchDiag E) :=
  let switchcode := (switchtype.map Ctype.ty_code).getD .TY_NOTYPE
  match cs.cs_expr with
  | none => (false, [])
  | some expr =>
    match expr.ex_type with
    | none => (false, [])
    | some t =>
      let casetype := ciDoIntegralPromotions t
      if casetype.ty_code = .TY_ENUM ∨ switchcode = .TY_ENUM then
        if ciTypesSame casetype switchtype then (true, []) else (false, [.typeConflict expr])
      else if switchcode ≠ .TY_NOTYPE then (true, [])
      else (false, [])

/-- The variables of the filter loop of `build_cstab`. -/
structure Filtered (E : Type) where
  newlist : List (CaseLabeledStm E)
  default_cs : Option (CaseLabeledStm E)
  diags : List (SwitchDiag E)

/-- One turn of the filter loop. -/
def filterCase (switchtype : Option Ctype) (s : Filtered E) (cs : CaseLabeledStm E) : Filtered E :=
  match cs.cs_expr with
  | none =>
    { s with
      default_cs := some cs
      diags := if s.default_cs.isSome then s.diags ++ [.duplicateDefaults] else s.diags }
  | some _ =>
    let want := wantCase switchtype cs
    { s with
      newlist := if want.1 then cs :: s.newlist else s.newlist
      diags := s.diags ++ want.2 }

/-- The scan of the sorted table for equal neighbours. -/
def sameValues : List (CaseLabeledStm E) → List (SwitchDiag E)
  | prev :: cs :: cstab =>
    if cs.cs_val = prev.cs_val then .sameValue cs prev :: sameValues (cs :: cstab)
    else sameValues (cs :: cstab)
  | _ => []

/-- `build_cstab`, with the sort `sortcslist` of the labels it keeps. -/
def buildCstab (switchtype : Option Ctype) (cslist : List (CaseLabeledStm E)) : Filtered E :=
  let s := cslist.foldl (filterCase switchtype) ⟨[], none, []⟩
  let cstab := sortList casecmp s.newlist s.newlist.length
  { s with newlist := cstab, diags := s.diags ++ sameValues cstab }

/-- The two checks that `ci_make_switch_statement` makes before it builds the table. -/
def switchWarnings (expr : Expr E) (csl : List (CaseLabeledStm E)) : List (SwitchDiag E) :=
  (match expr.ex_type with
    | some t => if t.ty_code ≠ .TY_ENUM ∧ ¬ ciIsIntegral t.ty_code then [.nonIntegral expr] else []
    | none => []) ++
  match csl with
  | [] => [.noCaseLabels expr]
  | [cs] => if cs.cs_expr.isNone then [.onlyDefault expr] else []
  | _ => []

/-- `ci_make_switch_statement`: the new statement, and the diagnostics. -/
def ciMakeSwitchStatement (expr : Expr E) (statement : Statement E) :
    Statement E × List (SwitchDiag E) :=
  let csl := buildCaseStmList statement []
  let t := buildCstab (expr.ex_type.map ciDoIntegralPromotions) csl
  (.switchStm expr statement t.newlist t.default_cs, switchWarnings expr csl ++ t.diags)

/-! ## The labels of a switch -/

mutual

/-- The labels of a body in the order of the source, those of inner switches left out. What
the two parts of an if statement give is put together by `pick`. -/
def casesBy (pick : List (CaseLabeledStm E) → List (CaseLabeledStm E) → List (CaseLabeledStm E)) :
    Statement E → List (CaseLabeledStm E)
  | .labeled _ ls_stm => casesBy pick ls_stm
  | .caseLabeled st_case cs_stm => st_case :: casesBy pick cs_stm
  | .compound co_statements => casesByList pick co_statements
  | .ifStm _ is_ifpart is_elsepart => pick (casesBy pick is_ifpart) (casesBy pick is_elsepart)
  | .whileStm _ ws_stm => casesBy pick ws_stm
  | .doStm _ ws_stm => casesBy pick ws_stm
  | .forStm _ _ _ fs_stm => casesBy pick fs_stm
  | .null | .switchStm _ _ _ _ | .exprStm _ | .gotoStm _ | .continueStm | .breakStm
  | .returnStm _ => []

def casesByList
    (pick : List (CaseLabeledStm E) → List (CaseLabeledStm E) → List (CaseLabeledStm E)) :
    Statements E → List (CaseLabeledStm E)
  | .nil => []
  | .cons st st_next => casesBy pick st ++ casesByList pick st_next

end

/-- The labels that belong to the switch, each once. -/
def ownCases (st : Statement E) : List (CaseLabeledStm E) := casesBy (· ++ ·) st

/-- The labels as the walk of the code finds them. -/
def visited (st : Statement E) : List (CaseLabeledStm E) := casesBy (fun ifs _ => ifs ++ ifs) st

/-- The labels that are not inside an else part. -/
def outsideElse (st : Statement E) : List (CaseLabeledStm E) := casesBy (fun ifs _ => ifs) st

mutual

/-- The labels inside an if statement, in one of its two parts. -/
def underIf : Statement E → List (CaseLabeledStm E)
  | .labeled _ ls_stm => underIf ls_stm
  | .caseLabeled _ cs_stm => underIf cs_stm
  | .compound co_statements => underIfList co_statements
  | .ifStm _ is_ifpart is_elsepart => ownCases is_ifpart ++ ownCases is_elsepart
  | .whileStm _ ws_stm => underIf ws_stm
  | .doStm _ ws_stm => underIf ws_stm
  | .forStm _ _ _ fs_stm => underIf fs_stm
  | .null | .switchStm _ _ _ _ | .exprStm _ | .gotoStm _ | .continueStm | .breakStm
  | .returnStm _ => []

def underIfList : Statements E → List (CaseLabeledStm E)
  | .nil => []
  | .cons st st_next => underIf st ++ underIfList st_next

end

/-! ## What the walk collects -/

mutual

/-- The walk puts what it visits in front, the last label first. -/
theorem buildCaseStmList_eq : ∀ (st : Statement E) (cslist : List (CaseLabeledStm E)),
    buildCaseStmList st cslist = (visited st).reverse ++ cslist
  | .null, _ | .switchStm _ _ _ _, _ | .exprStm _, _ | .gotoStm _, _ | .continueStm, _
  | .breakStm, _ | .returnStm _, _ => rfl
  | .labeled _ st, cslist => buildCaseStmList_eq st cslist
  | .whileStm _ st, cslist => buildCaseStmList_eq st cslist
  | .doStm _ st, cslist => buildCaseStmList_eq st cslist
  | .forStm _ _ _ st, cslist => buildCaseStmList_eq st cslist
  | .caseLabeled cs st, cslist => by
    have ih := buildCaseStmList_eq st (cs :: cslist)
    simp only [buildCaseStmList, ih]
    simp [visited, casesBy]
  | .ifStm _ ifs _, cslist => by
    have ih1 := buildCaseStmList_eq ifs cslist
    have ih2 := buildCaseStmList_eq ifs ((visited ifs).reverse ++ cslist)
    simp only [buildCaseStmList, ih1, ih2]
    simp [visited, casesBy]
  | .compound sts, cslist => buildCaseStmLists_eq sts cslist

theorem buildCaseStmLists_eq : ∀ (sts : Statements E) (cslist : List (CaseLabeledStm E)),
    buildCaseStmLists sts cslist =
      (casesByList (fun ifs _ => ifs ++ ifs) sts).reverse ++ cslist
  | .nil, _ => rfl
  | .cons st sts, cslist => by
    have ih1 := buildCaseStmList_eq st cslist
    have ih2 := buildCaseStmLists_eq sts ((visited st).reverse ++ cslist)
    simp only [buildCaseStmLists, ih1, ih2]
    simp [visited, casesByList]

end

section walk

variable {pick : List (CaseLabeledStm E) → List (CaseLabeledStm E) → List (CaseLabeledStm E)}

mutual

theorem casesBy_subset (hpick : ∀ A B, pick A B ⊆ A ++ B) :
    ∀ st : Statement E, casesBy pick st ⊆ ownCases st
  | .null | .switchStm _ _ _ _ | .exprStm _ | .gotoStm _ | .continueStm | .breakStm
  | .returnStm _ => List.Subset.refl _
  | .labeled _ st => casesBy_subset hpick st
  | .whileStm _ st => casesBy_subset hpick st
  | .doStm _ st => casesBy_subset hpick st
  | .forStm _ _ _ st => casesBy_subset hpick st
  | .caseLabeled cs st => List.cons_subset_cons cs (casesBy_subset hpick st)
  | .ifStm _ ifs els => by
    intro c hc
    rcases List.mem_append.mp (hpick _ _ hc) with h | h
    · exact List.mem_append_left _ (casesBy_subset hpick ifs h)
    · exact List.mem_append_right _ (casesBy_subset hpick els h)
  | .compound sts => casesByList_subset hpick sts

theorem casesByList_subset (hpick : ∀ A B, pick A B ⊆ A ++ B) :
    ∀ sts : Statements E, casesByList pick sts ⊆ casesByList (· ++ ·) sts
  | .nil => List.Subset.refl _
  | .cons st sts => by
    intro c hc
    rcases List.mem_append.mp hc with h | h
    · exact List.mem_append_left _ (casesBy_subset hpick st h)
    · exact List.mem_append_right _ (casesByList_subset hpick sts h)

end

end walk

theorem visited_subset (st : Statement E) : visited st ⊆ ownCases st :=
  casesBy_subset (fun A B c hc => by simp_all) st

mutual

theorem mem_visited : ∀ (st : Statement E) (c : CaseLabeledStm E),
    c ∈ visited st ↔ c ∈ outsideElse st
  | .null, _ | .switchStm _ _ _ _, _ | .exprStm _, _ | .gotoStm _, _ | .continueStm, _
  | .breakStm, _ | .returnStm _, _ => Iff.rfl
  | .labeled _ st, c => mem_visited st c
  | .whileStm _ st, c => mem_visited st c
  | .doStm _ st, c => mem_visited st c
  | .forStm _ _ _ st, c => mem_visited st c
  | .caseLabeled cs st, c => by
    have ih := mem_visited st c
    unfold visited outsideElse at ih ⊢
    simp only [casesBy, List.mem_cons, ih]
  | .ifStm _ ifs _, c => by
    have ih := mem_visited ifs c
    unfold visited outsideElse at ih ⊢
    simp only [casesBy, List.mem_append, ih, or_self]
  | .compound sts, c => mem_visitedList sts c

theorem mem_visitedList : ∀ (sts : Statements E) (c : CaseLabeledStm E),
    c ∈ casesByList (fun ifs _ => ifs ++ ifs) sts ↔ c ∈ casesByList (fun ifs _ => ifs) sts
  | .nil, _ => Iff.rfl
  | .cons st sts, c => by
    have ih1 := mem_visited st c
    have ih2 := mem_visitedList sts c
    unfold visited outsideElse at ih1
    simp only [casesByList, List.mem_append, ih1, ih2]

end

mutual

/-- When no label of a kind is inside an if statement, the walk finds each label of that
kind once, in the order of the source. -/
theorem filter_visited (p : CaseLabeledStm E → Bool) : ∀ st : Statement E,
    (∀ c ∈ underIf st, p c = false) → (visited st).filter p = (ownCases st).filter p
  | .null, _ | .switchStm _ _ _ _, _ | .exprStm _, _ | .gotoStm _, _ | .continueStm, _
  | .breakStm, _ | .returnStm _, _ => rfl
  | .labeled _ st, h => filter_visited p st h
  | .whileStm _ st, h => filter_visited p st h
  | .doStm _ st, h => filter_visited p st h
  | .forStm _ _ _ st, h => filter_visited p st h
  | .caseLabeled cs st, h => by
    have ih := filter_visited p st h
    unfold visited ownCases at ih ⊢
    simp only [casesBy, List.filter_cons, ih]
  | .ifStm e ifs els, h => by
    have hnone : ∀ l : List (CaseLabeledStm E), l ⊆ ownCases ifs ++ ownCases els →
        l.filter p = [] := fun l hl =>
      List.filter_eq_nil_iff.mpr fun c hc => by simp [h c (hl hc)]
    have hvis : visited (.ifStm e ifs els) ⊆ ownCases ifs ++ ownCases els :=
      visited_subset (.ifStm e ifs els)
    rw [hnone _ hvis, hnone (ownCases (.ifStm e ifs els)) (List.Subset.refl _)]
  | .compound sts, h => filter_visitedList p sts h

theorem filter_visitedList (p : CaseLabeledStm E → Bool) : ∀ sts : Statements E,
    (∀ c ∈ underIfList sts, p c = false) →
      (casesByList (fun ifs _ => ifs ++ ifs) sts).filter p = (casesByList (· ++ ·) sts).filter p
  | .nil, _ => rfl
  | .cons st sts, h => by
    have ih1 := filter_visited p st fun c hc => h c (List.mem_append_left _ hc)
    have ih2 := filter_visitedList p sts fun c hc => h c (List.mem_append_right _ hc)
    unfold visited ownCases at ih1
    simp only [casesByList, List.filter_append, ih1, ih2]

end

section count

open Classical

mutual

theorem underIf_subset : ∀ st : Statement E, underIf st ⊆ ownCases st
  | .null | .switchStm _ _ _ _ | .exprStm _ | .gotoStm _ | .continueStm | .breakStm
  | .returnStm _ => List.Subset.refl _
  | .labeled _ st => underIf_subset st
  | .whileStm _ st => underIf_subset st
  | .doStm _ st => underIf_subset st
  | .forStm _ _ _ st => underIf_subset st
  | .caseLabeled cs st => List.subset_cons_of_subset cs (underIf_subset st)
  | .ifStm _ _ _ => List.Subset.refl _
  | .compound sts => underIfList_subset sts

theorem underIfList_subset : ∀ sts : Statements E, underIfList sts ⊆ casesByList (· ++ ·) sts
  | .nil => List.Subset.refl _
  | .cons st sts => by
    intro c hc
    rcases List.mem_append.mp hc with h | h
    · exact List.mem_append_left _ (underIf_subset st h)
    · exact List.mem_append_right _ (underIfList_subset sts h)

end

mutual

/-- The walk finds a label inside an if statement an even number of times. -/
theorem count_visited_ne_one : ∀ (st : Statement E) (c : CaseLabeledStm E),
    (ownCases st).Nodup → c ∈ underIf st → (visited st).count c ≠ 1
  | .null, _, _, h | .switchStm _ _ _ _, _, _, h | .exprStm _, _, _, h | .gotoStm _, _, _, h
  | .continueStm, _, _, h | .breakStm, _, _, h | .returnStm _, _, _, h => by cases h
  | .labeled _ st, c, hn, h => count_visited_ne_one st c hn h
  | .whileStm _ st, c, hn, h => count_visited_ne_one st c hn h
  | .doStm _ st, c, hn, h => count_visited_ne_one st c hn h
  | .forStm _ _ _ st, c, hn, h => count_visited_ne_one st c hn h
  | .caseLabeled cs st, c, hn, h => by
    obtain ⟨hcs, hn'⟩ := List.nodup_cons.mp hn
    have ih := count_visited_ne_one st c hn' h
    have hne : cs ≠ c := fun he => hcs (he ▸ underIf_subset st h)
    unfold visited at ih ⊢
    rw [casesBy, List.count_cons_of_ne hne]
    exact ih
  | .ifStm _ ifs _, c, _, _ => by
    unfold visited
    rw [casesBy, List.count_append]
    omega
  | .compound sts, c, hn, h => count_visitedList_ne_one sts c hn h

theorem count_visitedList_ne_one : ∀ (sts : Statements E) (c : CaseLabeledStm E),
    (casesByList (· ++ ·) sts).Nodup → c ∈ underIfList sts →
      (casesByList (fun ifs _ => ifs ++ ifs) sts).count c ≠ 1
  | .nil, _, _, h => by cases h
  | .cons st sts, c, hn, h => by
    obtain ⟨hn1, hn2, hdis⟩ := List.nodup_append.mp hn
    rw [casesByList, List.count_append]
    rcases List.mem_append.mp h with h | h
    · have ih := count_visited_ne_one st c hn1 h
      have hzero : (casesByList (fun ifs _ => ifs ++ ifs) sts).count c = 0 :=
        List.count_eq_zero.mpr fun hc => hdis c (underIf_subset st h) c
          (casesByList_subset (fun A B d hd => by simp_all) sts hc) rfl
      unfold visited at ih
      omega
    · have ih := count_visitedList_ne_one sts c hn2 h
      have hzero : (casesBy (fun ifs _ => ifs ++ ifs) st).count c = 0 :=
        List.count_eq_zero.mpr fun hc => hdis c (visited_subset st hc) c
          (underIfList_subset sts h) rfl
      omega

end

end count

/-! ## What the table holds -/

/-- The label goes into the table of a switch of this type. The others have diagnostics of
their own, or are default labels. -/
def accepted (switchtype : Option Ctype) (cs : CaseLabeledStm E) : Bool :=
  (wantCase switchtype cs).1

def isDefault (cs : CaseLabeledStm E) : Bool := cs.cs_expr.isNone

theorem wantCase_diags (switchtype : Option Ctype) (cs a b : CaseLabeledStm E) :
    SwitchDiag.sameValue a b ∉ (wantCase switchtype cs).2 := by
  unfold wantCase
  dsimp only
  split
  · simp
  · split
    · simp
    · split
      · split <;> simp
      · split <;> simp

theorem filterCase_spec (switchtype : Option Ctype) (s : Filtered E) (cs : CaseLabeledStm E) :
    (filterCase switchtype s cs).newlist = ([cs].filter (accepted switchtype)) ++ s.newlist ∧
      (filterCase switchtype s cs).default_cs = ([cs].find? isDefault).or s.default_cs ∧
      ∀ a b, SwitchDiag.sameValue a b ∈ (filterCase switchtype s cs).diags ↔
        SwitchDiag.sameValue a b ∈ s.diags := by
  unfold filterCase
  rcases he : cs.cs_expr with _ | e
  · have hacc : accepted switchtype cs = false := by simp [accepted, wantCase, he]
    refine ⟨by simp [hacc], by simp [isDefault, he], fun a b => ?_⟩
    by_cases hd : s.default_cs.isSome <;> simp [hd]
  · refine ⟨?_, by simp [isDefault, he], fun a b => ?_⟩
    · by_cases hacc : accepted switchtype cs
      · simp [accepted] at hacc; simp [accepted, hacc]
      · simp [accepted] at hacc; simp [accepted, hacc]
    · simp [wantCase_diags]

theorem foldl_filterCase (switchtype : Option Ctype) (l : List (CaseLabeledStm E))
    (s : Filtered E) :
    (l.foldl (filterCase switchtype) s).newlist =
        (l.filter (accepted switchtype)).reverse ++ s.newlist ∧
      (l.foldl (filterCase switchtype) s).default_cs =
        (l.reverse.find? isDefault).or s.default_cs ∧
      ∀ a b, SwitchDiag.sameValue a b ∈ (l.foldl (filterCase switchtype) s).diags ↔
        SwitchDiag.sameValue a b ∈ s.diags := by
  induction l generalizing s with
  | nil => simp
  | cons cs l ih =>
    obtain ⟨ih1, ih2, ih3⟩ := ih (filterCase switchtype s cs)
    obtain ⟨h1, h2, h3⟩ := filterCase_spec switchtype s cs
    refine ⟨?_, ?_, fun a b => ?_⟩
    · rw [List.foldl_cons, ih1, h1]
      by_cases hacc : accepted switchtype cs <;> simp [hacc]
    · rw [List.foldl_cons, ih2, h2, List.reverse_cons, List.find?_append, Option.or_assoc]
    · rw [List.foldl_cons, ih3, h3]

/-- The labels that the table of a switch of this type should hold. -/
def tableLabels (switchtype : Option Ctype) (st : Statement E) : List (CaseLabeledStm E) :=
  (ownCases st).filter (accepted switchtype)

/-- The labels that the sort gets, in this order. -/
def sortInput (switchtype : Option Ctype) (st : Statement E) : List (CaseLabeledStm E) :=
  (visited st).filter (accepted switchtype)

/-- The table that `build_cstab` makes of what the walk collects. -/
theorem buildCstab_spec (switchtype : Option Ctype) (st : Statement E) :
    (buildCstab switchtype (buildCaseStmList st [])).newlist =
        sortList casecmp (sortInput switchtype st) (sortInput switchtype st).length ∧
      (buildCstab switchtype (buildCaseStmList st [])).default_cs =
        (visited st).find? isDefault ∧
      ∀ a b, SwitchDiag.sameValue a b ∈ (buildCstab switchtype (buildCaseStmList st [])).diags ↔
        SwitchDiag.sameValue a b ∈
          sameValues (buildCstab switchtype (buildCaseStmList st [])).newlist := by
  have hcsl : buildCaseStmList st [] = (visited st).reverse := by
    rw [buildCaseStmList_eq, List.append_nil]
  obtain ⟨h1, h2, h3⟩ := foldl_filterCase switchtype (visited st).reverse (⟨[], none, []⟩)
  have hnew : ((visited st).reverse.foldl (filterCase switchtype) ⟨[], none, []⟩).newlist =
      sortInput switchtype st := by
    rw [h1, List.filter_reverse, List.reverse_reverse, List.append_nil]
    rfl
  rw [hcsl]
  refine ⟨?_, ?_, fun a b => ?_⟩
  · simp only [buildCstab, hnew]
  · simp only [buildCstab, h2, List.reverse_reverse, Option.or_none]
  · simp only [buildCstab, List.mem_append, h3, List.not_mem_nil, false_or]

theorem sameValues_of_nodup (l : List (CaseLabeledStm E))
    (h : (l.map CaseLabeledStm.cs_val).Nodup) : sameValues l = [] := by
  induction l with
  | nil => rfl
  | cons prev l ih =>
    cases l with
    | nil => rfl
    | cons cs l =>
      obtain ⟨hprev, hrest⟩ := List.nodup_cons.mp h
      have hne : cs.cs_val ≠ prev.cs_val := fun he => hprev (by simp [← he])
      rw [sameValues, if_neg hne]
      exact ih hrest

/-- In a table in order, no equal neighbours means no equal values. -/
theorem sorted_of_sameValues (l : List (CaseLabeledStm E))
    (hs : l.Pairwise fun a b => a.cs_val ≤ b.cs_val) (h : sameValues l = []) :
    l.Pairwise fun a b => a.cs_val < b.cs_val := by
  induction l with
  | nil => exact List.Pairwise.nil
  | cons prev l ih =>
    cases l with
    | nil => exact List.pairwise_singleton _ _
    | cons cs l =>
      obtain ⟨hprev, hrest⟩ := List.pairwise_cons.mp hs
      have hle : prev.cs_val ≤ cs.cs_val := hprev cs (by simp)
      have hne : cs.cs_val ≠ prev.cs_val := fun he => by simp [sameValues, he] at h
      rw [sameValues, if_neg hne] at h
      refine List.pairwise_cons.mpr ⟨fun b hb => ?_, ih hrest h⟩
      have hcs : cs.cs_val ≤ b.cs_val := by
        rcases List.mem_cons.mp hb with rfl | hb
        · exact le_refl _
        · exact (List.pairwise_cons.mp hrest).1 b hb
      omega

theorem exists_sameValue (l : List (CaseLabeledStm E)) :
    (∃ a b, SwitchDiag.sameValue a b ∈ sameValues l) ↔ sameValues l ≠ [] := by
  constructor
  · rintro ⟨a, b, h⟩ he
    rw [he] at h
    cases h
  · intro h
    induction l with
    | nil => exact absurd rfl h
    | cons prev l ih =>
      cases l with
      | nil => exact absurd rfl h
      | cons cs l =>
        by_cases heq : cs.cs_val = prev.cs_val
        · exact ⟨cs, prev, by simp [sameValues, heq]⟩
        · rw [sameValues, if_neg heq] at h ⊢
          exact ih h

/-! ## The laws -/

/-- The difference of the two values fits in an int. -/
def Near (a b : CaseLabeledStm E) : Prop :=
  -2 ^ 31 ≤ a.cs_val - b.cs_val ∧ a.cs_val - b.cs_val < 2 ^ 31

theorem casecmp_bmod (a b : CaseLabeledStm E) :
    casecmp a b = a.cs_val - b.cs_val ∧ Near a b ∨
      casecmp a b = a.cs_val - b.cs_val + 2 ^ 32 ∧ a.cs_val - b.cs_val < -2 ^ 31 ∨
      casecmp a b = a.cs_val - b.cs_val - 2 ^ 32 ∧ 2 ^ 31 ≤ a.cs_val - b.cs_val := by
  have ha1 := a.cs_val_ge
  have ha2 := a.cs_val_lt
  have hb1 := b.cs_val_ge
  have hb2 := b.cs_val_lt
  unfold casecmp Near
  rw [Int.bmod_def]
  split <;> omega

/-- The comparison of two labels is right exactly when their difference fits. -/
theorem right_casecmp_iff (a b : CaseLabeledStm E) :
    Right casecmp CaseLabeledStm.cs_val a b ↔ Near a b := by
  have ha1 := a.cs_val_ge
  have ha2 := a.cs_val_lt
  have hb1 := b.cs_val_ge
  have hb2 := b.cs_val_lt
  unfold Right
  rcases casecmp_bmod a b with ⟨h, hn⟩ | ⟨h, hlt⟩ | ⟨h, hge⟩
  · rw [h]
    exact iff_of_true (by omega) hn
  · rw [h]
    unfold Near
    omega
  · rw [h]
    unfold Near
    omega

theorem casecmp_of_eq (a b : CaseLabeledStm E) (h : a.cs_val = b.cs_val) : ¬ casecmp a b < 0 := by
  simp [casecmp, h]

/-- No label of the table is inside an if statement, and a default label, if there is one,
is found outside the else parts. -/
structure LabelsReached (switchtype : Option Ctype) (body : Statement E) : Prop where
  no_case_under_if : ∀ c ∈ underIf body, accepted switchtype c = false
  default_outside_else : (∃ c ∈ ownCases body, isDefault c) → ∃ c ∈ outsideElse body, isDefault c

/-- In each merge of the sort of the labels, an element of one half and the next larger one
of the other half have values whose difference fits in an int. -/
def LabelsNear (switchtype : Option Ctype) (body : Statement E) : Prop :=
  SortSafe CaseLabeledStm.cs_val Near (tableLabels switchtype body)
    (tableLabels switchtype body).length

/-- What the table, the default label and the diagnostics of a switch should be. -/
structure SwitchOk (switchtype : Option Ctype) (body : Statement E)
    (cstab : List (CaseLabeledStm E)) (default_cs : Option (CaseLabeledStm E))
    (diags : List (SwitchDiag E)) : Prop where
  each_once : cstab.Perm (tableLabels switchtype body)
  sorted : ((tableLabels switchtype body).map CaseLabeledStm.cs_val).Nodup →
    cstab.Pairwise fun a b => a.cs_val < b.cs_val
  default_found : (∃ c ∈ ownCases body, isDefault c) →
    ∃ c ∈ ownCases body, isDefault c ∧ default_cs = some c
  no_default : (∀ c ∈ ownCases body, isDefault c = false) → default_cs = none
  same_value : (∃ a b, SwitchDiag.sameValue a b ∈ diags) ↔
    ∃ a ∈ tableLabels switchtype body, ∃ b ∈ tableLabels switchtype body,
      a ≠ b ∧ a.cs_val = b.cs_val

/-- The switch statement that the code makes is as it should be. -/
def MakesSwitch (expr : Expr E) (body : Statement E) : Prop :=
  ∃ cstab default_cs,
    (ciMakeSwitchStatement expr body).1 = .switchStm expr body cstab default_cs ∧
      SwitchOk (expr.ex_type.map ciDoIntegralPromotions) body cstab default_cs
        (ciMakeSwitchStatement expr body).2

theorem switchWarnings_diags (expr : Expr E) (csl : List (CaseLabeledStm E))
    (a b : CaseLabeledStm E) : SwitchDiag.sameValue a b ∉ switchWarnings expr csl := by
  unfold switchWarnings
  rw [List.mem_append]
  rintro (h | h)
  · split at h
    · split at h <;> simp at h
    · simp at h
  · match csl with
    | [] => simp at h
    | [cs] => dsimp only at h; split at h <;> simp at h
    | _ :: _ :: _ => simp at h

/-- The parts of `SwitchOk` as facts about the body and the sort. -/
theorem makesSwitch_iff (expr : Expr E) (body : Statement E) :
    MakesSwitch expr body ↔
      SwitchOk (expr.ex_type.map ciDoIntegralPromotions) body
        (sortList casecmp (sortInput (expr.ex_type.map ciDoIntegralPromotions) body)
          (sortInput (expr.ex_type.map ciDoIntegralPromotions) body).length)
        ((visited body).find? isDefault)
        (sameValues (sortList casecmp (sortInput (expr.ex_type.map ciDoIntegralPromotions) body)
          (sortInput (expr.ex_type.map ciDoIntegralPromotions) body).length)) := by
  obtain ⟨hnew, hdef, hdiags⟩ :=
    buildCstab_spec (expr.ex_type.map ciDoIntegralPromotions) body
  rw [hnew] at hdiags
  have hall : ∀ a b, SwitchDiag.sameValue a b ∈ (ciMakeSwitchStatement expr body).2 ↔
      SwitchDiag.sameValue a b ∈ sameValues
        (sortList casecmp (sortInput (expr.ex_type.map ciDoIntegralPromotions) body)
          (sortInput (expr.ex_type.map ciDoIntegralPromotions) body).length) := by
    intro a b
    rw [← hdiags a b, ciMakeSwitchStatement, List.mem_append]
    exact or_iff_right (switchWarnings_diags expr _ a b)
  unfold MakesSwitch
  constructor
  · rintro ⟨cstab, dflt, heq, h⟩
    rw [ciMakeSwitchStatement, hnew, hdef] at heq
    injection heq with _ _ h1 h2
    subst h1 h2
    refine ⟨h.each_once, h.sorted, h.default_found, h.no_default, ?_⟩
    rw [← h.same_value]
    exact exists_congr fun a => exists_congr fun b => (hall a b).symm
  · intro h
    refine ⟨_, _, by rw [ciMakeSwitchStatement, hnew, hdef], ?_⟩
    refine ⟨h.each_once, h.sorted, h.default_found, h.no_default, ?_⟩
    rw [← h.same_value]
    exact exists_congr fun a => exists_congr fun b => hall a b

section laws

variable {switchtype : Option Ctype} {body : Statement E}

theorem nodup_tableLabels (hn : (ownCases body).Nodup) : (tableLabels switchtype body).Nodup :=
  hn.filter _

theorem distinct_iff (hn : (ownCases body).Nodup) :
    ((tableLabels switchtype body).map CaseLabeledStm.cs_val).Nodup ↔
      ¬ ∃ a ∈ tableLabels switchtype body, ∃ b ∈ tableLabels switchtype body,
        a ≠ b ∧ a.cs_val = b.cs_val := by
  rw [List.nodup_map_iff_inj_on (nodup_tableLabels hn)]
  constructor
  · rintro h ⟨a, ha, b, hb, hab, heq⟩
    exact hab (h a ha b hb heq)
  · intro h a ha b hb heq
    by_contra hab
    exact h ⟨a, ha, b, hb, hab, heq⟩

theorem find_default_mem {d : CaseLabeledStm E} (h : (visited body).find? isDefault = some d) :
    d ∈ ownCases body ∧ isDefault d = true :=
  ⟨visited_subset body (List.mem_of_find?_eq_some h), List.find?_some h⟩

theorem find_default_none :
    (visited body).find? isDefault = none ↔ ∀ c ∈ outsideElse body, isDefault c = false := by
  simp [List.find?_eq_none, mem_visited]

/-- The labels that the sort gets are those of the table when none is inside an if. -/
theorem sortInput_eq (h : ∀ c ∈ underIf body, accepted switchtype c = false) :
    sortInput switchtype body = tableLabels switchtype body :=
  filter_visited (accepted switchtype) body h

theorem switchOk_of_reached (hn : (ownCases body).Nodup) (hr : LabelsReached switchtype body)
    (hnear : LabelsNear switchtype body) :
    SwitchOk switchtype body
      (sortList casecmp (sortInput switchtype body) (sortInput switchtype body).length)
      ((visited body).find? isDefault)
      (sameValues (sortList casecmp (sortInput switchtype body)
        (sortInput switchtype body).length)) := by
  rw [sortInput_eq hr.no_case_under_if]
  have hperm := sortList_perm casecmp (tableLabels switchtype body)
    (tableLabels switchtype body).length
  have hle : (sortList casecmp (tableLabels switchtype body)
      (tableLabels switchtype body).length).Pairwise fun a b => a.cs_val ≤ b.cs_val := by
    apply sortList_sorted casecmp_of_eq _ _ rfl
    unfold LabelsNear at hnear
    have hright : (Near : CaseLabeledStm E → CaseLabeledStm E → Prop) =
        Right casecmp CaseLabeledStm.cs_val := by
      funext a b
      exact propext (right_casecmp_iff a b).symm
    rwa [hright] at hnear
  have hsorted : ((tableLabels switchtype body).map CaseLabeledStm.cs_val).Nodup →
      (sortList casecmp (tableLabels switchtype body)
        (tableLabels switchtype body).length).Pairwise fun a b => a.cs_val < b.cs_val := by
    intro hd
    apply sorted_of_sameValues _ hle
    exact sameValues_of_nodup _ ((hperm.map CaseLabeledStm.cs_val).nodup_iff.mpr hd)
  refine ⟨hperm, hsorted, fun hd => ?_, fun hd => ?_, ?_⟩
  · rcases hf : (visited body).find? isDefault with _ | d
    · obtain ⟨c, hc, hcd⟩ := hr.default_outside_else hd
      rw [find_default_none.mp hf c hc] at hcd
      cases hcd
    · exact ⟨d, (find_default_mem hf).1, (find_default_mem hf).2, rfl⟩
  · rw [find_default_none]
    intro c hc
    exact hd c (visited_subset body ((mem_visited body c).mpr hc))
  · rw [exists_sameValue, ← not_iff_not, not_not, ← distinct_iff hn]
    constructor
    · intro hnil
      have hlt := sorted_of_sameValues _ hle hnil
      have hd := (List.pairwise_map (f := CaseLabeledStm.cs_val)).mpr hlt
      exact ((hperm.map CaseLabeledStm.cs_val).nodup_iff).mp (hd.imp fun h => ne_of_lt h)
    · intro hd
      exact sameValues_of_nodup _ ((hperm.map CaseLabeledStm.cs_val).nodup_iff.mpr hd)

/-- A table that holds each label once shows that no label is inside an if statement. -/
theorem reached_of_switchOk (hn : (ownCases body).Nodup)
    (h : SwitchOk switchtype body
      (sortList casecmp (sortInput switchtype body) (sortInput switchtype body).length)
      ((visited body).find? isDefault)
      (sameValues (sortList casecmp (sortInput switchtype body)
        (sortInput switchtype body).length))) : LabelsReached switchtype body := by
  classical
  constructor
  · intro c hc
    by_contra hacc
    rw [Bool.not_eq_false] at hacc
    have hperm := (sortList_perm casecmp (sortInput switchtype body) _).symm.trans h.each_once
    have hcount := hperm.count_eq c
    have hmem : c ∈ tableLabels switchtype body :=
      List.mem_filter.mpr ⟨underIf_subset body hc, hacc⟩
    rw [List.count_eq_one_of_mem (nodup_tableLabels hn) hmem, sortInput,
      List.count_filter hacc] at hcount
    refine count_visited_ne_one body c hn hc ?_
    convert hcount
  · intro hd
    obtain ⟨c, _, hcd, hsome⟩ := h.default_found hd
    exact ⟨c, (mem_visited body c).mp (List.mem_of_find?_eq_some hsome), hcd⟩

theorem near_of_switchOk (hr : LabelsReached switchtype body)
    (hd : ((tableLabels switchtype body).map CaseLabeledStm.cs_val).Nodup)
    (h : SwitchOk switchtype body
      (sortList casecmp (sortInput switchtype body) (sortInput switchtype body).length)
      ((visited body).find? isDefault)
      (sameValues (sortList casecmp (sortInput switchtype body)
        (sortInput switchtype body).length))) : LabelsNear switchtype body := by
  have hs := h.sorted hd
  rw [sortInput_eq hr.no_case_under_if] at hs
  have hsafe := sortSafe_of_sorted _ _ hs
  have hright : (Near : CaseLabeledStm E → CaseLabeledStm E → Prop) =
      Right casecmp CaseLabeledStm.cs_val := by
    funext a b
    exact propext (right_casecmp_iff a b).symm
  unfold LabelsNear
  rwa [hright]

end laws

/-- The switch statement comes out right when its labels are outside of if statements and
near enough for the comparison. The first condition is needed always, and both are needed
when the values are distinct. -/
theorem a_switch_is_right_when_its_labels_are_reached_and_near (expr : Expr E)
    (body : Statement E) (hn : (ownCases body).Nodup) :
    (LabelsReached (expr.ex_type.map ciDoIntegralPromotions) body →
      LabelsNear (expr.ex_type.map ciDoIntegralPromotions) body → MakesSwitch expr body) ∧
    (MakesSwitch expr body → LabelsReached (expr.ex_type.map ciDoIntegralPromotions) body) ∧
    (((tableLabels (expr.ex_type.map ciDoIntegralPromotions) body).map
        CaseLabeledStm.cs_val).Nodup →
      (MakesSwitch expr body ↔ LabelsReached (expr.ex_type.map ciDoIntegralPromotions) body ∧
        LabelsNear (expr.ex_type.map ciDoIntegralPromotions) body)) := by
  rw [makesSwitch_iff]
  refine ⟨switchOk_of_reached hn, reached_of_switchOk hn, fun hd => ⟨fun h => ?_, fun h => ?_⟩⟩
  · have hr := reached_of_switchOk hn h
    exact ⟨hr, near_of_switchOk hr hd h⟩
  · exact switchOk_of_reached hn h.1 h.2

def intExpr : Expr Unit := ⟨some ⟨.TY_INT, 0, .TY_INT⟩, ()⟩

/-- A label of the node `n`, `case v:`. -/
def caseInt (n : Nat) (v : Int) (hge : -2 ^ 31 ≤ v) (hlt : v < 2 ^ 31) : CaseLabeledStm Unit :=
  ⟨n, v, hge, hlt, some intExpr⟩

/-- The body `{ case v: case w: default: ; }`. -/
def twoLabels (a b : CaseLabeledStm Unit) : Statement Unit :=
  .compound (.cons (.caseLabeled a (.caseLabeled b
    (.caseLabeled ⟨9, 0, by decide, by decide, none⟩ (.exprStm none)))) .nil)

theorem twoLabels_nodup (v w : Int) (h1 h2 h3 h4) :
    (ownCases (twoLabels (caseInt 1 v h1 h2) (caseInt 2 w h3 h4))).Nodup := by
  simp [ownCases, casesBy, casesByList, twoLabels, caseInt]

/-- Two labels are near when the first minus the second fits. -/
theorem twoLabels_near (v w : Int) (h1 h2 h3 h4) :
    LabelsNear (intExpr.ex_type.map ciDoIntegralPromotions)
        (twoLabels (caseInt 1 v h1 h2) (caseInt 2 w h3 h4)) ↔
      (v ≠ w → -2 ^ 31 ≤ v - w ∧ v - w < 2 ^ 31) := by
  have htable : tableLabels (intExpr.ex_type.map ciDoIntegralPromotions)
      (twoLabels (caseInt 1 v h1 h2) (caseInt 2 w h3 h4)) =
        [caseInt 1 v h1 h2, caseInt 2 w h3 h4] := rfl
  have hone : ∀ c : CaseLabeledStm Unit, SortSafe CaseLabeledStm.cs_val Near [c] 1 ↔ True := by
    intro c
    rw [SortSafe, if_neg (by omega)]
  unfold LabelsNear
  rw [htable, SortSafe, if_pos (by simp)]
  simp only [List.length_cons, List.length_nil, Nat.zero_add, Nat.reduceAdd, Nat.reduceDiv,
    List.take_succ_cons, List.take_zero, List.drop_succ_cons, List.drop_zero, hone, true_and,
    MergeSafe, List.mem_singleton, forall_eq, Meets, Near, caseInt]
  omega

/-- The labels of the first part of an if statement are found twice, and two labels whose
difference does not fit in an int are left out of order. -/
theorem a_switch_with_a_case_in_an_if_is_wrong :
    ¬ MakesSwitch intExpr
        (.ifStm intExpr (.caseLabeled (caseInt 1 5 (by decide) (by decide)) (.exprStm none)) .null) ∧
      ¬ MakesSwitch intExpr (twoLabels (caseInt 1 2147483647 (by decide) (by decide))
        (caseInt 2 (-1) (by decide) (by decide))) := by
  constructor
  · rw [makesSwitch_iff]
    intro h
    have hr := reached_of_switchOk (by simp [ownCases, casesBy]) h
    have hacc := hr.no_case_under_if (caseInt 1 5 (by decide) (by decide))
      (by simp [underIf, ownCases, casesBy])
    exact absurd hacc (by decide)
  · rw [makesSwitch_iff]
    intro h
    have hr := reached_of_switchOk (twoLabels_nodup _ _ _ _ _ _) h
    have hd : ((tableLabels (intExpr.ex_type.map ciDoIntegralPromotions)
        (twoLabels (caseInt 1 2147483647 (by decide) (by decide))
          (caseInt 2 (-1) (by decide) (by decide)))).map CaseLabeledStm.cs_val).Nodup := by decide
    exact absurd ((twoLabels_near _ _ _ _ _ _).mp (near_of_switchOk hr hd h)) (by decide)

theorem a_switch_of_two_labels_is_right :
    MakesSwitch intExpr (twoLabels (caseInt 1 7 (by decide) (by decide))
      (caseInt 2 (-3) (by decide) (by decide))) := by
  refine (a_switch_is_right_when_its_labels_are_reached_and_near intExpr _
    (twoLabels_nodup _ _ _ _ _ _)).1 ⟨?_, ?_⟩ ((twoLabels_near _ _ _ _ _ _).mpr (by decide))
  · intro c hc
    cases hc
  · rintro ⟨c, hc, hcd⟩
    exact ⟨c, hc, hcd⟩

end ups_rules.switch_labels
