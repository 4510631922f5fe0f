-- The functions that a breakpoint name stands for (get_matching_func_bp_list in st_lookup.c): the
-- symbol tables are walked, what matches is put into a list of nodes, and that is sorted.
import Mathlib.Data.List.Infix
import Mathlib.Data.List.Nodup
import Ups.ArgGlob
import Ups.FuncTable
import Ups.NodeSort

open ups_rules.arg_quote (Byte byte Buffer GlobChars argDoQuoting)
open ups_rules.arg_glob (Env slash argMatch cpatOf)
open ups_rules.func_table (Ptr Funcs addrcmp addrKey addrcmp_eq sign)
open ups_rules.merge_sort (mergeLists mergeLists_cons sortList)
open ups_rules.node_sort (TotalPreorder InOrder sortList_inOrder)

namespace ups_rules.matching_funcs

/-! ## The pure model -/

/-- The address of a fil_t. -/
abbrev FilPtr := Nat

/-- The functions and the source files in memory. -/
structure Memory where
  fu : Funcs
  fu_demangled_name : Ptr → List Byte
  fu_fil : Ptr → Option FilPtr
  fi_name : FilPtr → List Byte

structure Module where
  name : List Byte
  funclist : List Ptr

structure SymTab where
  st_path : List Byte
  st_funclist : List Ptr
  st_modules : List Module

/-- The `fl_func` of a node of the list, `none` for NULL. -/
abbrev Node := Option Ptr

inductive CmpStyle
  | CMP_STRCMP
  | CMP_STRNCMP
  | CMP_STRSTR

def colon : Byte := byte ':'
def star : Byte := byte '*'

/-- The bytes in front of the NUL. -/
def cstring (s : List Byte) : List Byte := s.takeWhile (· != 0#8)

def strchr (s : List Byte) (c : Byte) : Option (List Byte) :=
  match s.dropWhile (· != c) with
  | [] => none
  | rest => some rest

def strcmp : List Byte → List Byte → Int
  | [], [] => 0
  | [], _ :: _ => -1
  | _ :: _, [] => 1
  | a :: s, b :: t => if a = b then strcmp s t else if a < b then -1 else 1

def filenameMatches (mem : Memory) (st_name : List Byte) (fil matchfil : Option FilPtr)
    (name : Option (List Byte)) (namelen : Nat) (cmp_style : CmpStyle) : Bool :=
  match matchfil, name with
  | some _, _ => fil == matchfil
  | none, none => true
  | none, some name =>
    if namelen = 0 then fil.isSome
    else
      let file_name := (fil.map mem.fi_name).getD st_name
      let len := file_name.length
      if len < namelen then false
      else match cmp_style with
        | .CMP_STRCMP =>
          if file_name.drop (len - namelen) ≠ name.take namelen then false
          else len == namelen || file_name[len - namelen - 1]? == some slash
        | .CMP_STRNCMP => file_name.take (namelen - 1) == name.take (namelen - 1)
        -- the last character of the name is a NUL for the time of the search
        | .CMP_STRSTR => cstring ((name.set (namelen - 1) 0#8).drop 1) <:+: file_name

def modnameMatches (m : Module) (name : Option (List Byte)) (namelen : Nat) : Bool :=
  match name with
  | none => true
  | some name => m.name.length == namelen && m.name == name.take namelen

/-- The style is passed on to it, but `filename_matches` is always called with CMP_STRCMP. The
second loop stores the `f` of the first one, which has come to its NULL. -/
def findMatchingFuncsOnly (env : Env) (mem : Memory) (st : SymTab) (matchfil : Option FilPtr)
    (filename : Option (List Byte)) (flen : Nat) (funcpat : List Byte) (funchead : List Node)
    (_cmp_style : CmpStyle) : List Node :=
  let funchead := st.st_funclist.foldl (fun funchead f =>
    if filenameMatches mem st.st_path (mem.fu_fil f) matchfil filename flen .CMP_STRCMP &&
        argMatch env (mem.fu_demangled_name f) funcpat then
      some f :: funchead
    else funchead) funchead
  let f : Node := none
  st.st_modules.foldl (fun funchead m =>
    if modnameMatches m filename flen then
      m.funclist.foldl (fun funchead fl_func =>
        if argMatch env (mem.fu_demangled_name fl_func) funcpat then f :: funchead else funchead)
        funchead
    else funchead) funchead

/-- What `flcmp` gives for two functions. -/
def funcCmp (mem : Memory) (f1 f2 : Ptr) : Int :=
  let res := strcmp (mem.fu_demangled_name f1) (mem.fu_demangled_name f2)
  if res ≠ 0 then res else addrcmp (mem.fu f1) (mem.fu f2)

/-- The names are read before the pointers are compared with NULL. -/
def flcmp (mem : Memory) : Node → Node → Option Int
  | some f1, some f2 => some (funcCmp mem f1 f2)
  | _, _ => none

section
variable {α : Type}

/-- `name_merge`, with a comparison that may crash. -/
def mergeM (cmp : α → α → Option Int) : List α → List α → Option (List α)
  | [], list2 => some list2
  | a :: list1, [] => some (a :: list1)
  | a :: list1, b :: list2 => do
    let r ← cmp a b
    if r < 0 then (mergeM cmp list1 (b :: list2)).map (a :: ·)
    else (mergeM cmp (a :: list1) list2).map (b :: ·)
termination_by list1 list2 => list1.length + list2.length

def sortM (cmp : α → α → Option Int) (list : List α) (len : Nat) : Option (List α) :=
  if len > 1 then do
    let list1 ← sortM cmp (list.take (len / 2)) (len / 2)
    let list2 ← sortM cmp (list.drop (len / 2)) ((len + 1) / 2)
    mergeM cmp list1 list2
  else some list
termination_by len

end

theorem legal_globchars : ∀ c ∈ "*?".toList.map byte, c ∈ "[]~\x7b,\x7d*?".toList.map byte := by
  have hall : ("*?".toList.map byte).all ("[]~\x7b,\x7d*?".toList.map byte).contains = true := by
    decide
  exact fun c hc => List.contains_iff_mem.1 (List.all_eq_true.1 hall c hc)

/-- RGA removed "[]" from globchars to allow for operator[] methods -/
def globchars : GlobChars := ⟨"*?".toList.map byte, legal_globchars⟩

/-- What the function has of its name when it comes to the symbol tables. The file name is the whole
name: only its first bytes count. -/
structure Patterns where
  filename : Option (List Byte)
  filename_len : Nat
  cmp_style : CmpStyle
  funcpat : List Byte

/-- The file name, its length, the style and the name of the function. In front of a file name
without characters there is no star. -/
def readName (name : List Byte) :
    Except String (Option (List Byte) × Nat × CmpStyle × List Byte) :=
  match strchr name colon with
  | none => .ok (none, 0, .CMP_STRCMP, name)
  | some found =>
    let funcname := found.tail
    if funcname.head? = some colon then .ok (none, 0, .CMP_STRCMP, name)
    else if funcname = [] then .error "Missing function name after source file"
    else
      let filename_len := name.length - found.length
      let cmp_style : CmpStyle :=
        if name.head? = some star then .CMP_STRSTR
        else if (name.take filename_len).getLast? = some star then .CMP_STRNCMP
        else .CMP_STRCMP
      .ok (some name, filename_len, cmp_style, funcname)

/-- A name without glob characters, or with `::` at its first colon, gets a star. -/
def globname (name funcname : List Byte) : List Byte :=
  if !funcname.any globchars.chars.contains ||
      ((strchr name colon).map fun c => c.tail.head?) == some (some colon) then
    funcname ++ [star]
  else funcname

/-- The part of `get_matching_func_bp_list` in front of the loop. -/
def readPatterns (b : Buffer) (name : List Byte) : Except String Patterns × Buffer :=
  match readName name with
  | .error message => (.error message, b)
  | .ok (filename, filename_len, cmp_style, funcname) =>
    let r := argDoQuoting b ⟨globname name funcname, globchars, true⟩
    match r.1 with
    | .error message => (.error message, r.2)
    | .ok _ => (.ok ⟨filename, filename_len, cmp_style, cpatOf r.2⟩, r.2)

/-- The list behind the call, if it does not crash. -/
def getMatchingFuncBpList (env : Env) (mem : Memory) (tables : List SymTab) (b : Buffer)
    (name : List Byte) (funchead : List Node) : Option (List Node) :=
  match (readPatterns b name).1 with
  | .error _ => some funchead
  | .ok p =>
    let funchead := tables.foldl (fun funchead st =>
      findMatchingFuncsOnly env mem st none p.filename p.filename_len p.funcpat funchead p.cmp_style)
      funchead
    sortM (flcmp mem) funchead funchead.length

/-! ## What the list is for -/

/-- A function is on one list of functions, by its own link. -/
structure SymTabs where
  tables : List SymTab
  nodup : (tables.flatMap SymTab.st_funclist).Nodup

/-- The end of a path, from the start or a slash on. -/
def AtBoundary (pattern path : List Byte) : Prop :=
  ∃ front, path = front ++ pattern ∧ (front = [] ∨ front.getLast? = some slash)

/-- A path has the text between two stars somewhere, starts with the text in front of a star, or
ends with a pattern without them. -/
def FileMatches (pattern path : List Byte) : Prop :=
  if pattern.getLast? = some star then
    if pattern.head? = some star ∧ 2 ≤ pattern.length then pattern.tail.dropLast <:+: path
    else pattern.dropLast <+: path
  else AtBoundary pattern path

def Patterns.file (p : Patterns) : Option (List Byte) := p.filename.map (·.take p.filename_len)

section
variable (env : Env) (mem : Memory) (tables : List SymTab) (p : Patterns)

def Named (f : Ptr) : Prop := argMatch env (mem.fu_demangled_name f) p.funcpat = true

/-- The source file of a function, or what its symbol table was read from. -/
def pathOf (st : SymTab) (f : Ptr) : List Byte := ((mem.fu_fil f).map mem.fi_name).getD st.st_path

/-- Each source file matches a pattern without characters. -/
def InFile (st : SymTab) (f : Ptr) : Prop :=
  ∀ pattern, p.file = some pattern →
    if pattern = [] then (mem.fu_fil f).isSome else FileMatches pattern (pathOf mem st f)

/-- The functions of the program are those on the lists of its symbol tables: a module lists some of
them again. -/
def Wanted (f : Ptr) : Prop :=
  ∃ st ∈ tables, f ∈ st.st_funclist ∧ Named env mem p f ∧ InFile mem p st f

/-- The list has each function that is wanted once, nothing else, and is sorted. -/
def Exact (funchead : Option (List Node)) : Prop :=
  ∃ l : List Ptr, funchead = some (l.map some) ∧ l.Nodup ∧
    (∀ f, f ∈ l ↔ Wanted env mem tables p f) ∧ InOrder (funcCmp mem) l

/-- No function matches by way of its module, and no star of the file pattern makes a difference to
a function with the name. -/
structure Plain : Prop where
  modules : ∀ st ∈ tables, ∀ m ∈ st.st_modules,
    modnameMatches m p.filename p.filename_len = true → ∀ f ∈ m.funclist, ¬Named env mem p f
  files : ∀ st ∈ tables, ∀ f ∈ st.st_funclist, Named env mem p f →
    ∀ pattern, p.file = some pattern → pattern ≠ [] →
      (AtBoundary pattern (pathOf mem st f) ↔ FileMatches pattern (pathOf mem st f))

end

variable {α β : Type} {env : Env} {mem : Memory} {tables : List SymTab} {p : Patterns}
  {st : SymTab} {f : Ptr} {name : List Byte} {b : Buffer}

/-! ## The sort -/

theorem mergeM_perm {cmp : α → α → Option Int} {list1 list2 l : List α}
    (h : mergeM cmp list1 list2 = some l) : l.Perm (list1 ++ list2) := by
  induction list1, list2 using mergeM.induct generalizing l with
  | case1 list2 =>
    rw [mergeM] at h
    rw [← Option.some.inj h]
    rfl
  | case2 a list1 =>
    rw [mergeM] at h
    rw [← Option.some.inj h, List.append_nil]
  | case3 a list1 b list2 ih1 ih2 =>
    rw [mergeM] at h
    obtain ⟨r, -, h⟩ := Option.bind_eq_some_iff.mp h
    split at h
    · obtain ⟨l', hl', rfl⟩ := Option.map_eq_some_iff.mp h
      exact (ih1 hl').cons a
    · obtain ⟨l', hl', rfl⟩ := Option.map_eq_some_iff.mp h
      exact ((ih2 hl').cons b).trans List.perm_middle.symm

theorem sortM_perm {cmp : α → α → Option Int} {list l : List α} {len : Nat}
    (h : sortM cmp list len = some l) : l.Perm list := by
  induction list, len using sortM.induct generalizing l with
  | case1 list len hlen ih1 ih2 =>
    rw [sortM, if_pos hlen] at h
    obtain ⟨list1, h1, h⟩ := Option.bind_eq_some_iff.mp h
    obtain ⟨list2, h2, h⟩ := Option.bind_eq_some_iff.mp h
    calc l
        _ |>.Perm (list1 ++ list2) := mergeM_perm h
        _ |>.Perm (list.take (len / 2) ++ list.drop (len / 2)) := (ih1 h1).append (ih2 h2)
        _ |>.Perm list := by rw [List.take_append_drop]
  | case2 list len hlen =>
    rw [sortM, if_neg hlen] at h
    rw [Option.some.inj h]

section
variable {cmp : β → β → Option Int} {cmp' : α → α → Int} {node : α → β}

/-- Where the comparison never crashes, the merge is that of lists. -/
theorem mergeM_map (hcmp : ∀ a b, cmp (node a) (node b) = some (cmp' a b))
    (list1 list2 : List α) :
    mergeM cmp (list1.map node) (list2.map node) =
      some ((mergeLists cmp' list1 list2).map node) := by
  induction list1 generalizing list2 with
  | nil =>
    rw [List.map_nil, mergeM]
    simp only [mergeLists, List.nil_merge]
  | cons a list1 ih1 =>
    induction list2 with
    | nil =>
      rw [List.map_nil, List.map_cons, mergeM]
      simp only [mergeLists, List.merge_right, List.map_cons]
    | cons b list2 ih2 =>
      rw [List.map_cons, List.map_cons, mergeM, hcmp, mergeLists_cons]
      dsimp only [bind, Option.bind]
      split
      · rw [← List.map_cons, ih1, Option.map_some, List.map_cons]
      · rw [← List.map_cons, ih2, Option.map_some, List.map_cons]

theorem sortM_map (hcmp : ∀ a b, cmp (node a) (node b) = some (cmp' a b)) (list : List α)
    (len : Nat) :
    sortM cmp (list.map node) len = some ((sortList cmp' list len).map node) := by
  induction list, len using ups_rules.merge_sort.sortList.induct with
  | case1 list len hlen ih1 ih2 =>
    rw [sortM, sortList, if_pos hlen, if_pos hlen, ← List.map_take, ← List.map_drop, ih1, ih2]
    exact mergeM_map hcmp _ _
  | case2 list len hlen => rw [sortM, sortList, if_neg hlen, if_neg hlen]

end

/-! ## The order -/

theorem strcmp_swap (s t : List Byte) : strcmp s t < 0 ↔ 0 < strcmp t s := by
  induction s generalizing t with
  | nil => cases t <;> simp [strcmp]
  | cons a s ih =>
    cases t with
    | nil => simp [strcmp]
    | cons b t =>
      simp only [strcmp]
      by_cases h : a = b
      · rw [if_pos h, if_pos h.symm]
        exact ih t
      · rw [if_neg h, if_neg (Ne.symm h)]
        have hne : a.toNat ≠ b.toNat := fun hc => h (BitVec.eq_of_toNat_eq hc)
        simp only [BitVec.lt_def]
        split <;> split <;> omega

theorem strcmp_eq_zero {s t : List Byte} : strcmp s t = 0 ↔ s = t := by
  induction s generalizing t with
  | nil => cases t <;> simp [strcmp]
  | cons a s ih =>
    cases t with
    | nil => simp [strcmp]
    | cons b t =>
      simp only [strcmp, List.cons.injEq]
      by_cases h : a = b
      · rw [if_pos h, ih, and_iff_right h]
      · rw [if_neg h]
        split <;> simp [h]

theorem strcmp_trans {s t u : List Byte} (h : strcmp s t ≤ 0) (h' : strcmp t u ≤ 0) :
    strcmp s u ≤ 0 := by
  induction s generalizing t u with
  | nil => cases u <;> simp [strcmp]
  | cons a s ih =>
    cases t with
    | nil => simp [strcmp] at h
    | cons b t =>
      cases u with
      | nil => simp [strcmp] at h'
      | cons c u =>
        simp only [strcmp, BitVec.lt_def] at h h' ⊢
        by_cases hab : a = b
        · subst hab
          by_cases hac : a = c
          · rw [if_pos rfl] at h
            rw [if_pos hac] at h' ⊢
            exact ih h h'
          · rw [if_neg hac] at h' ⊢
            exact h'
        · rw [if_neg hab] at h
          by_cases hbc : b = c
          · subst hbc
            rw [if_neg hab]
            exact h
          · rw [if_neg hbc] at h'
            split at h
            · split at h'
              · rw [if_neg (by rintro rfl; omega), if_pos (by omega)]
                decide
              · exact absurd h' (by decide)
            · exact absurd h (by decide)

theorem addrcmp_swap (mem : Memory) (f g : Ptr) :
    addrcmp (mem.fu f) (mem.fu g) < 0 ↔ 0 < addrcmp (mem.fu g) (mem.fu f) := by
  rw [addrcmp_eq, addrcmp_eq]
  unfold sign
  split_ifs <;> omega

theorem addrcmp_le {mem : Memory} {f g : Ptr} :
    addrcmp (mem.fu f) (mem.fu g) ≤ 0 ↔ addrKey (mem.fu f) ≤ addrKey (mem.fu g) := by
  rw [addrcmp_eq]
  unfold sign
  split_ifs <;> omega

theorem funcCmp_of_ne {g : Ptr} (h : mem.fu_demangled_name f ≠ mem.fu_demangled_name g) :
    funcCmp mem f g = strcmp (mem.fu_demangled_name f) (mem.fu_demangled_name g) :=
  if_pos fun hc => h (strcmp_eq_zero.mp hc)

theorem funcCmp_of_eq {g : Ptr} (h : mem.fu_demangled_name f = mem.fu_demangled_name g) :
    funcCmp mem f g = addrcmp (mem.fu f) (mem.fu g) :=
  if_neg (not_not.mpr (strcmp_eq_zero.mpr h))

theorem strcmp_le_of_funcCmp {g : Ptr} (h : funcCmp mem f g ≤ 0) :
    strcmp (mem.fu_demangled_name f) (mem.fu_demangled_name g) ≤ 0 := by
  by_cases heq : mem.fu_demangled_name f = mem.fu_demangled_name g
  · exact (strcmp_eq_zero.mpr heq).le
  · rwa [funcCmp_of_ne heq] at h

theorem funcCmp_totalPreorder (mem : Memory) : TotalPreorder (funcCmp mem) where
  swap f g := by
    by_cases h : mem.fu_demangled_name f = mem.fu_demangled_name g
    · rw [funcCmp_of_eq h, funcCmp_of_eq h.symm]
      exact addrcmp_swap mem f g
    · rw [funcCmp_of_ne h, funcCmp_of_ne (Ne.symm h)]
      exact strcmp_swap _ _
  trans f g k hfg hgk := by
    have hle := strcmp_trans (strcmp_le_of_funcCmp hfg) (strcmp_le_of_funcCmp hgk)
    by_cases h : mem.fu_demangled_name f = mem.fu_demangled_name k
    · -- the name in the middle is the same one
      have hmid : mem.fu_demangled_name f = mem.fu_demangled_name g := by
        have hback := strcmp_le_of_funcCmp hgk
        rw [← h] at hback
        have hforth := strcmp_le_of_funcCmp hfg
        have hnot : ¬0 < strcmp (mem.fu_demangled_name g) (mem.fu_demangled_name f) :=
          not_lt.mpr hback
        rw [← strcmp_swap] at hnot
        exact strcmp_eq_zero.mp (by omega)
      rw [funcCmp_of_eq hmid] at hfg
      rw [funcCmp_of_eq (hmid.symm.trans h)] at hgk
      rw [funcCmp_of_eq h]
      exact addrcmp_le.mpr ((addrcmp_le.mp hfg).trans (addrcmp_le.mp hgk))
    · rw [funcCmp_of_ne h]
      exact hle

/-! ## The walk -/

/-- A loop that puts something in front of the list for each element puts all of it in front. -/
theorem foldl_reverse {step : List Node → β → List Node} {g : β → List Node}
    (h : ∀ head x, step head x = (g x).reverse ++ head) (l : List β) (head : List Node) :
    l.foldl step head = (l.flatMap g).reverse ++ head := by
  induction l generalizing head with
  | nil => rfl
  | cons x l ih =>
    rw [List.foldl_cons, ih, h, List.flatMap_cons, List.reverse_append, List.append_assoc]

theorem foldl_filter (q : Ptr → Bool) (node : Ptr → Node) (l : List Ptr) (head : List Node) :
    l.foldl (fun head f => if q f then node f :: head else head) head =
      ((l.filter q).map node).reverse ++ head := by
  induction l generalizing head with
  | nil => rfl
  | cons f l ih =>
    rw [List.foldl_cons, ih, List.filter_cons]
    split
    · rw [List.map_cons, List.reverse_cons, List.append_assoc, List.singleton_append]
    · rfl

section
variable (env mem p)

/-- The functions of a symbol table that the first loop records. -/
def found (st : SymTab) : List Ptr :=
  st.st_funclist.filter fun f =>
    filenameMatches mem st.st_path (mem.fu_fil f) none p.filename p.filename_len .CMP_STRCMP &&
      argMatch env (mem.fu_demangled_name f) p.funcpat

/-- The nodes that the second loop makes for a module. -/
def ofModule (m : Module) : List Node :=
  if modnameMatches m p.filename p.filename_len then
    let matching := m.funclist.filter fun f => argMatch env (mem.fu_demangled_name f) p.funcpat
    matching.map fun _ => none
  else []

def ofModules (st : SymTab) : List Node := st.st_modules.flatMap (ofModule env mem p)

def foundNodes (st : SymTab) : List Node := (found env mem p st).map some ++ ofModules env mem p st

theorem ofModule_reverse (head : List Node) (m : Module) :
    (if modnameMatches m p.filename p.filename_len then
      m.funclist.foldl (fun head f =>
        if argMatch env (mem.fu_demangled_name f) p.funcpat then none :: head else head) head
    else head) = (ofModule env mem p m).reverse ++ head := by
  unfold ofModule
  split
  · exact foldl_filter _ (fun _ => none) _ _
  · rfl

end

theorem findMatchingFuncsOnly_eq (funchead : List Node) :
    findMatchingFuncsOnly env mem st none p.filename p.filename_len p.funcpat funchead p.cmp_style =
      (foundNodes env mem p st).reverse ++ funchead := by
  unfold findMatchingFuncsOnly
  dsimp only
  rw [foldl_filter, foldl_reverse (ofModule_reverse env mem p), foundNodes, List.reverse_append,
    List.append_assoc]
  rfl

theorem getMatchingFuncBpList_eq (h : (readPatterns b name).1 = .ok p) :
    getMatchingFuncBpList env mem tables b name [] =
      sortM (flcmp mem)
        (tables.flatMap (foundNodes env mem p)).reverse
        (tables.flatMap (foundNodes env mem p)).reverse.length := by
  unfold getMatchingFuncBpList
  rw [h]
  dsimp only
  have hall := foldl_reverse (fun head (st : SymTab) =>
    @findMatchingFuncsOnly_eq env mem p st head) tables []
  rw [hall, List.append_nil]

theorem none_mem_ofModules : none ∈ ofModules env mem p st ↔ ∃ m ∈ st.st_modules,
    modnameMatches m p.filename p.filename_len = true ∧ ∃ f ∈ m.funclist, Named env mem p f := by
  unfold ofModules ofModule Named
  rw [List.mem_flatMap]
  refine exists_congr fun m => and_congr_right fun _ => ?_
  split
  · rename_i hm
    rw [List.mem_map, and_iff_right hm]
    simp only [List.mem_filter, and_true]
  · rename_i hm
    simp only [hm, List.not_mem_nil, Bool.false_eq_true, false_and]

theorem eq_none_of_mem_ofModules {x : Node} (h : x ∈ ofModules env mem p st) : x = none := by
  obtain ⟨m, -, h⟩ := List.mem_flatMap.mp h
  unfold ofModule at h
  split at h
  · obtain ⟨f, -, rfl⟩ := List.mem_map.mp h
    rfl
  · cases h

/-! ## The file names -/

theorem atBoundary_iff {pattern path : List Byte} :
    AtBoundary pattern path ↔ pattern.length ≤ path.length ∧
      path.drop (path.length - pattern.length) = pattern ∧
        (path.length = pattern.length ∨
          path[path.length - pattern.length - 1]? = some slash) := by
  constructor
  · rintro ⟨front, rfl, hfront⟩
    have hlen : (front ++ pattern).length - pattern.length = front.length := by
      rw [List.length_append, Nat.add_sub_cancel]
    refine ⟨by rw [List.length_append]; omega, by rw [hlen, List.drop_left], ?_⟩
    rcases hfront with rfl | hlast
    · exact .inl rfl
    · right
      obtain ⟨init, rfl⟩ := List.getLast?_eq_some_iff.mp hlast
      rw [hlen, List.length_append, List.length_singleton, Nat.add_sub_cancel, List.append_assoc,
        List.getElem?_append_right le_rfl, Nat.sub_self]
      rfl
  · rintro ⟨hle, hdrop, hslash⟩
    refine ⟨path.take (path.length - pattern.length), ?_, ?_⟩
    · conv_lhs => rw [← List.take_append_drop (path.length - pattern.length) path, hdrop]
    · rcases hslash with heq | hslash
      · left
        rw [heq, Nat.sub_self, List.take_zero]
      · rcases Nat.eq_zero_or_pos (path.length - pattern.length) with hzero | hpos
        · left
          rw [hzero, List.take_zero]
        · right
          rw [List.getLast?_eq_getElem?, List.length_take, Nat.min_eq_left (Nat.sub_le _ _),
            List.getElem?_take_of_lt (Nat.sub_lt hpos Nat.one_pos), hslash]

theorem filename_len_le (h : (readPatterns b name).1 = .ok p) {s : List Byte}
    (hs : p.filename = some s) : p.filename_len ≤ s.length := by
  unfold readPatterns at h
  split at h
  · cases h
  · rename_i filename filename_len cmp_style funcname hread
    dsimp only at h
    split at h
    · cases h
    · obtain rfl := Except.ok.inj h
      dsimp only at hs ⊢
      unfold readName at hread
      split at hread
      · cases hread
        cases hs
      · dsimp only at hread
        split at hread
        · cases hread
          cases hs
        · split at hread
          · cases hread
          · cases hread
            cases hs
            exact Nat.sub_le _ _

/-- The test of the first loop, as it is called, does not know a star. -/
theorem filenameMatches_iff (hlen : ∀ s, p.filename = some s → p.filename_len ≤ s.length) :
    filenameMatches mem st.st_path (mem.fu_fil f) none p.filename p.filename_len .CMP_STRCMP =
        true ↔
      ∀ pattern, p.file = some pattern →
        if pattern = [] then (mem.fu_fil f).isSome else AtBoundary pattern (pathOf mem st f) := by
  unfold filenameMatches Patterns.file
  cases hname : p.filename with
  | none => simp
  | some s =>
    have hlength : (s.take p.filename_len).length = p.filename_len := by
      rw [List.length_take, Nat.min_eq_left (hlen s hname)]
    simp only [Option.map_some, Option.some.injEq, forall_eq']
    by_cases hzero : p.filename_len = 0
    · rw [if_pos hzero, if_pos (by rw [hzero, List.take_zero])]
    · have hne : s.take p.filename_len ≠ [] := fun hc => hzero (by rw [← hlength, hc]; rfl)
      rw [if_neg hzero, if_neg hne, atBoundary_iff, hlength]
      rw [← pathOf]
      by_cases hlt : (pathOf mem st f).length < p.filename_len
      · rw [if_pos hlt]
        exact iff_of_false Bool.false_ne_true fun hc => absurd hc.1 (not_le.mpr hlt)
      · rw [if_neg hlt, and_iff_right (not_lt.mp hlt)]
        by_cases hdrop : (pathOf mem st f).drop ((pathOf mem st f).length - p.filename_len) =
            s.take p.filename_len
        · rw [if_neg (not_not.mpr hdrop), and_iff_right hdrop, Bool.or_eq_true, beq_iff_eq,
            beq_iff_eq]
        · rw [if_pos hdrop]
          exact iff_of_false Bool.false_ne_true fun hc => hdrop hc.1

/-! ## The list -/

theorem mem_found (hlen : ∀ s, p.filename = some s → p.filename_len ≤ s.length) :
    f ∈ found env mem p st ↔ f ∈ st.st_funclist ∧ Named env mem p f ∧ ∀ pattern,
      p.file = some pattern →
        if pattern = [] then (mem.fu_fil f).isSome else AtBoundary pattern (pathOf mem st f) := by
  unfold found Named
  rw [List.mem_filter, Bool.and_eq_true, filenameMatches_iff hlen]
  exact and_congr_right fun _ => and_comm

/-- A function is of one symbol table. -/
theorem SymTabs.unique (sts : SymTabs) {st st' : SymTab} (hst : st ∈ sts.tables)
    (hst' : st' ∈ sts.tables) (hf : f ∈ st.st_funclist) (hf' : f ∈ st'.st_funclist) : st = st' := by
  by_contra hne
  have hsymm : Std.Symm (Function.onFun List.Disjoint SymTab.st_funclist) :=
    ⟨fun _ _ h => h.symm⟩
  exact (List.nodup_flatMap.mp sts.nodup).2.forall hst hst' hne hf hf'

theorem found_nodup (sts : SymTabs) : (sts.tables.flatMap (found env mem p)).Nodup := by
  have hsub : ∀ tables : List SymTab,
      (tables.flatMap (found env mem p)).Sublist (tables.flatMap SymTab.st_funclist) := by
    intro tables
    induction tables with
    | nil => exact List.Sublist.slnil
    | cons st tables ih =>
      rw [List.flatMap_cons, List.flatMap_cons]
      exact List.filter_sublist.append ih
  exact sts.nodup.sublist (hsub sts.tables)

/-- The functions that are found are those that are wanted, where no star makes a difference. -/
theorem found_iff_wanted (hlen : ∀ s, p.filename = some s → p.filename_len ≤ s.length)
    (hplain : Plain env mem tables p) :
    f ∈ tables.flatMap (found env mem p) ↔ Wanted env mem tables p f := by
  rw [List.mem_flatMap]
  refine exists_congr fun st => and_congr_right fun hst => ?_
  rw [mem_found hlen]
  refine and_congr_right fun hf => and_congr_right fun hnamed => forall_congr' fun pattern =>
    forall_congr' fun hfile => ?_
  split
  · exact Iff.rfl
  · exact hplain.files st hst f hf hnamed pattern hfile ‹_›

theorem nodes_of_plain (h : Plain env mem tables p) :
    tables.flatMap (foundNodes env mem p) = (tables.flatMap (found env mem p)).map some := by
  rw [List.map_flatMap]
  refine List.flatMap_congr fun st hst => ?_
  have hnil : ofModules env mem p st = [] := by
    rw [List.eq_nil_iff_forall_not_mem]
    intro x hx
    obtain rfl := eq_none_of_mem_ofModules hx
    obtain ⟨m, hm, hname, f, hf, hnamed⟩ := none_mem_ofModules.mp hx
    exact h.modules st hst m hm hname f hf hnamed
  rw [foundNodes, hnil, List.append_nil]

theorem exact_of_plain (sts : SymTabs) (h : (readPatterns b name).1 = .ok p)
    (hplain : Plain env mem sts.tables p) :
    Exact env mem sts.tables p (getMatchingFuncBpList env mem sts.tables b name []) := by
  rw [getMatchingFuncBpList_eq h, nodes_of_plain hplain, ← List.map_reverse, List.length_map]
  generalize hlist : (sts.tables.flatMap (found env mem p)).reverse = list
  have hperm := ups_rules.merge_sort.sortList_perm (funcCmp mem) list list.length
  refine ⟨sortList (funcCmp mem) list list.length, sortM_map (fun _ _ => rfl) _ _, ?_, ?_, ?_⟩
  · rw [hperm.nodup_iff, ← hlist, List.nodup_reverse]
    exact found_nodup sts
  · intro f
    rw [hperm.mem_iff, ← hlist, List.mem_reverse]
    exact found_iff_wanted (fun s hs => filename_len_le h hs) hplain
  · exact sortList_inOrder (funcCmp_totalPreorder mem) rfl

theorem plain_of_exact (sts : SymTabs) (h : (readPatterns b name).1 = .ok p)
    (hexact : Exact env mem sts.tables p (getMatchingFuncBpList env mem sts.tables b name [])) :
    Plain env mem sts.tables p := by
  have hlen : ∀ s, p.filename = some s → p.filename_len ≤ s.length := fun s hs =>
    filename_len_le h hs
  obtain ⟨l, hl, -, hwanted, -⟩ := hexact
  rw [getMatchingFuncBpList_eq h] at hl
  have hmem : ∀ x, x ∈ l.map some ↔ ∃ st ∈ sts.tables, x ∈ foundNodes env mem p st := by
    intro x
    rw [(sortM_perm hl).mem_iff, List.mem_reverse, List.mem_flatMap]
  have hfound : ∀ f, f ∈ l ↔ ∃ st ∈ sts.tables, f ∈ found env mem p st := by
    intro f
    rw [← List.mem_map_of_injective (Option.some_injective _), hmem]
    refine exists_congr fun st => and_congr_right fun _ => ?_
    rw [foundNodes, List.mem_append, List.mem_map_of_injective (Option.some_injective _),
      or_iff_left]
    exact fun hc => Option.some_ne_none _ (eq_none_of_mem_ofModules hc)
  constructor
  · intro st hst m hm hname f hf hnamed
    have hnull : none ∈ l.map some := (hmem none).mpr ⟨st, hst,
      List.mem_append_right _ (none_mem_ofModules.mpr ⟨m, hm, hname, f, hf, hnamed⟩)⟩
    obtain ⟨_, _, hc⟩ := List.mem_map.mp hnull
    cases hc
  · intro st hst f hf hnamed pattern hfile hne
    constructor
    · intro hend
      have hf' : f ∈ found env mem p st := (mem_found hlen).mpr ⟨hf, hnamed, by
        intro pattern' hfile'
        obtain rfl := Option.some.inj (hfile.symm.trans hfile')
        rwa [if_neg hne]⟩
      obtain ⟨st', hst', hf', -, hin⟩ := (hwanted f).mp ((hfound f).mpr ⟨st, hst, hf'⟩)
      obtain rfl := sts.unique hst hst' hf hf'
      have hin := hin pattern hfile
      rwa [if_neg hne] at hin
    · intro hmatch
      have hl := (hwanted f).mpr ⟨st, hst, hf, hnamed, by
        intro pattern' hfile'
        obtain rfl := Option.some.inj (hfile.symm.trans hfile')
        rwa [if_neg hne]⟩
      obtain ⟨st', hst', hf'⟩ := (hfound f).mp hl
      obtain ⟨hlist, -, hend⟩ := (mem_found hlen).mp hf'
      obtain rfl := sts.unique hst hst' hf hlist
      have hend := hend pattern hfile
      rwa [if_neg hne] at hend

/-- The functions at 0 and 1 are `g` and `f` of the file `ab`. -/
def twoFuncs : Memory where
  fu := fun f => ⟨BitVec.ofNat 64 f, 0⟩
  fu_demangled_name := fun f => if f = 0 then [byte 'g'] else [byte 'f']
  fu_fil := fun _ => some 0
  fi_name := fun _ => "ab".toList.map byte

theorem oneTable_nodup (modules : List Module) :
    ([⟨[], [0, 1], modules⟩].flatMap SymTab.st_funclist).Nodup := by
  change [0, 1].Nodup
  decide

def oneTable (modules : List Module) : SymTabs :=
  ⟨[⟨[], [0, 1], modules⟩], oneTable_nodup modules⟩

def noEnv : Env := ⟨fun _ => false, fun _ => none, none, fun _ => none, fun _ _ => false⟩

def anyFunction : List Byte := "*".toList.map byte

def compiled (filename : Option (List Byte)) (filename_len : Nat) (style : CmpStyle) : Patterns :=
  ⟨filename, filename_len, style, [ups_rules.arg_quote.PAT_STAR]⟩

end ups_rules.matching_funcs
