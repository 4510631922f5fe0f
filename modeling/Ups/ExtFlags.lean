-- Which variables get external relocation: the flags that ci_compile sets while it walks over the
-- variables and their initialisers.
import Ups.Marking
import Mathlib.Data.List.Nodup
import Mathlib.Data.Fin.VecNotation
import Mathlib.Tactic.Tauto

open marking

namespace ups_rules.ext_flags

/-! ## The pure model -/

inductive Class where
  | CL_NOCLASS | CL_EXTREF | CL_DECL | CL_AUTO | CL_EXT | CL_STAT | CL_REG | CL_ARG | CL_LSTAT
deriving DecidableEq

/-- A variable, with the flags `VA_EXT_RELOC`, `VA_TODO` and `VA_ON_VLIST`. -/
structure Var where
  va_class : Class
  /-- `va_type->ty_code == DT_FUNC_RETURNING` -/
  is_func : Bool
  ext_reloc : Bool
  todo : Bool
  on_vlist : Bool
deriving DecidableEq

/-- `initialiser_t`, with the variables known by their addresses. -/
inductive Initialiser (V : Type) where
  | INTVAL (val : BitVec 64)
  | FLOATVAL (val : BitVec 64)
  | STRINGADDR (sc_val : List (BitVec 8)) (offset : BitVec 64)
  | STRINGBYTES (sc_val : List (BitVec 8))
  | VARADDR (addrvar : V) (offset : BitVec 64)
  | FUNCADDR (func_name : String)
  | EXPR
  | LIST (list : List (Initialiser V))

variable {V : Type}

/-- The variables, and those on `tx_vlist`, the last one that was added first. -/
structure Text (V : Type) where
  var : V → Var
  tx_vlist : List V

section
variable [DecidableEq V]

def Text.set (tx : Text V) (v : V) (f : Var → Var) : Text V :=
  { tx with var := fun u => if u = v then f (tx.var v) else tx.var u }

/-- Nothing if it panics. -/
def addToVlist (tx : Text V) (v : V) : Option (Text V) :=
  if (tx.var v).va_class = .CL_DECL ∨ (tx.var v).is_func then some tx
  else if (tx.var v).on_vlist then none
  else some { tx.set v fun va => { va with on_vlist := true } with tx_vlist := v :: tx.tx_vlist }

/-- The case `IT_VARADDR` of `set_var_extflags`. -/
def setAddrvar (tx : Text V) (v : V) : Option (Text V) :=
  if (tx.var v).ext_reloc then some tx
  else
    let tx := tx.set v fun va => { va with todo := true }
    if (tx.var v).on_vlist then some tx
    else if (tx.var v).va_class ≠ .CL_DECL then none
    else addToVlist (tx.set v fun va => { va with va_class := .CL_EXTREF, ext_reloc := true }) v

mutual

def setVarExtflags (tx : Text V) : Initialiser V → Option (Text V)
  | .VARADDR addrvar _ => setAddrvar tx addrvar
  | .LIST list => setListExtflags tx list
  | _ => some tx

def setListExtflags (tx : Text V) : List (Initialiser V) → Option (Text V)
  | [] => some tx
  | i :: is => (setVarExtflags tx i).bind fun tx => setListExtflags tx is

end

/-- `tx_initlist` -/
abbrev Initlist (V : Type) := List (V × Initialiser V)

/-- One pass over the initialisers, with `done_one`. -/
def walkInitlist (tx : Text V) : Initlist V → Option (Text V × Bool)
  | [] => some (tx, false)
  | (v, i) :: rest =>
    if (tx.var v).todo then do
      let tx ← setVarExtflags tx i
      let (tx, _) ← walkInitlist (tx.set v fun va => { va with ext_reloc := true, todo := false }) rest
      return (tx, true)
    else walkInitlist tx rest

/-- The `do` loop, with a bound on the passes. -/
def spread (initlist : Initlist V) : Nat → Text V → Option (Text V)
  | 0, _ => none
  | fuel + 1, tx => do
    let (tx, done_one) ← walkInitlist tx initlist
    if done_one then spread initlist fuel tx else return tx

/-- The first walk over the variables: a single file has no external data. -/
def markVar (one_file : Bool) (va : Var) : Var :=
  let va := if one_file ∧ va.va_class = .CL_EXT then { va with va_class := .CL_STAT } else va
  if (va.va_class = .CL_EXT ∨ va.va_class = .CL_EXTREF) ∧ ¬ va.is_func then { va with todo := true }
  else va

def markExternals (one_file : Bool) (tx : Text V) : Text V :=
  tx.tx_vlist.foldl (fun tx v => tx.set v (markVar one_file)) tx

/-- The head of the walk that assigns the addresses. -/
def settleVar (va : Var) : Var :=
  if va.todo then { va with ext_reloc := true, todo := false } else va

def settle (tx : Text V) : Text V := tx.tx_vlist.foldl (fun tx v => tx.set v settleVar) tx

def setExtReloc (one_file : Bool) (initlist : Initlist V) (fuel : Nat) (tx : Text V) : Option (Text V) :=
  (spread initlist fuel (markExternals one_file tx)).map settle

end

/-! ## Colours -/

mutual

/-- The variables whose addresses an initialiser takes. -/
def Initialiser.addrvars : Initialiser V → List V
  | .VARADDR addrvar _ => [addrvar]
  | .LIST list => listAddrvars list
  | _ => []

def listAddrvars : List (Initialiser V) → List V
  | [] => []
  | i :: is => i.addrvars ++ listAddrvars is

end

/-- The variables whose addresses the initialiser of a variable takes. -/
def uses (initlist : Initlist V) (v : V) : Set V := {u | ∃ i, (v, i) ∈ initlist ∧ u ∈ i.addrvars}

/-- External and externally referenced variables. In a single file all data is internal. -/
def Var.External (one_file : Bool) (va : Var) : Prop :=
  va.va_class = .CL_EXTREF ∨ va.va_class = .CL_EXT ∧ one_file = false

def externals (one_file : Bool) (tx : Text V) : Set V :=
  {v | v ∈ tx.tx_vlist ∧ (tx.var v).External one_file}

def grey (tx : Text V) : Set V := {v | (tx.var v).todo}

def black (tx : Text V) : Set V := {v | (tx.var v).ext_reloc ∧ ¬ (tx.var v).todo}

/-- A variable that has storage in this file, or a declaration of one that has none here. -/
def Var.InScope (va : Var) : Prop := ¬ va.is_func ∧ (va.on_vlist ∨ va.va_class = .CL_DECL)

/-- The list holds the variables that are flagged so, once each, and all that have a colour. -/
structure Listing (tx : Text V) : Prop where
  nodup : tx.tx_vlist.Nodup
  listed : ∀ v, (tx.var v).on_vlist ↔ v ∈ tx.tx_vlist
  coloured : ∀ v ∈ grey tx ∪ black tx, (tx.var v).on_vlist

/-- What the flags of an initialiser's variables change. -/
structure Grows (tx tx' : Text V) (S : Set V) : Prop where
  listing : Listing tx'
  coloured : grey tx' ∪ black tx' = grey tx ∪ black tx ∪ S
  black : black tx' = black tx
  scope : ∀ v, (tx.var v).InScope → (tx'.var v).InScope

theorem mem_coloured {tx : Text V} {v : V} :
    v ∈ grey tx ∪ black tx ↔ (tx.var v).todo ∨ (tx.var v).ext_reloc := by
  show (tx.var v).todo ∨ ((tx.var v).ext_reloc ∧ ¬ (tx.var v).todo) ↔ _
  tauto

theorem Grows.refl {tx : Text V} (h : Listing tx) : Grows tx tx ∅ :=
  ⟨h, (Set.union_empty _).symm, rfl, fun _ => id⟩

theorem Grows.trans {tx tx' tx'' : Text V} {S T : Set V} (h : Grows tx tx' S) (h' : Grows tx' tx'' T) :
    Grows tx tx'' (S ∪ T) :=
  ⟨h'.listing, by rw [h'.coloured, h.coloured, Set.union_assoc], h'.black.trans h.black,
    fun v hv => h'.scope v (h.scope v hv)⟩

/-- With one initialiser for each variable. -/
theorem uses_eq {initlist : Initlist V} (hkeys : (initlist.map Prod.fst).Nodup) {v : V} {i : Initialiser V}
    (h : (v, i) ∈ initlist) : uses initlist v = {u | u ∈ i.addrvars} := by
  ext u
  constructor
  · rintro ⟨j, hj, hu⟩
    have hij : (v, j) = (v, i) := List.inj_on_of_nodup_map hkeys hj h rfl
    obtain rfl := (Prod.mk.inj hij).2
    exact hu
  · exact fun hu => ⟨i, h, hu⟩

variable [DecidableEq V]

/-- A variable that has no external relocation yet becomes grey. -/
theorem grows_of_white {tx : Text V} (h : Listing tx) {v : V} (hwhite : ¬ (tx.var v).ext_reloc)
    (va : Var) (htodo : va.todo) (hon : va.on_vlist) (hfunc : ¬ va.is_func) {l : List V}
    (hl : l = if (tx.var v).on_vlist then tx.tx_vlist else v :: tx.tx_vlist) :
    Grows tx { var := fun u => if u = v then va else tx.var u, tx_vlist := l } {v} := by
  have hmem : ∀ u, u ∈ l ↔ u = v ∨ u ∈ tx.tx_vlist := by
    intro u
    rw [hl]
    split
    · rename_i hv
      exact ⟨.inr, fun hu => hu.elim (fun huv => huv ▸ (h.listed v).1 hv) id⟩
    · exact List.mem_cons
  have hblack : black { var := fun u => if u = v then va else tx.var u, tx_vlist := l } = black tx := by
    ext u
    by_cases hu : u = v
    · subst hu
      simp [black, htodo, hwhite]
    · simp [black, hu]
  have hgrey : grey { var := fun u => if u = v then va else tx.var u, tx_vlist := l } = grey tx ∪ {v} := by
    ext u
    by_cases hu : u = v
    · subst hu
      simp [grey, htodo]
    · simp [grey, hu]
  refine ⟨⟨?_, fun u => ?_, fun u hu => ?_⟩, ?_, hblack, fun u hu => ?_⟩
  · rw [hl]
    split
    · exact h.nodup
    · rename_i hv
      exact List.nodup_cons.2 ⟨fun hin => hv ((h.listed v).2 hin), h.nodup⟩
  · show (if u = v then va else tx.var u).on_vlist ↔ u ∈ l
    rw [hmem]
    split
    · rename_i huv
      exact iff_of_true hon (.inl huv)
    · rename_i hne
      rw [h.listed u, or_iff_right hne]
  · rw [hgrey, hblack] at hu
    show (if u = v then va else tx.var u).on_vlist
    split
    · exact hon
    · rename_i hne
      refine h.coloured u ?_
      rcases hu with (hu | hu) | hu
      · exact .inl hu
      · exact absurd hu hne
      · exact .inr hu
  · rw [hgrey, hblack, Set.union_right_comm]
  · show (if u = v then va else tx.var u).InScope
    split
    · exact ⟨hfunc, .inl hon⟩
    · exact hu

theorem setAddrvar_spec {tx : Text V} (h : Listing tx) {v : V} (hv : (tx.var v).InScope) :
    ∃ tx', setAddrvar tx v = some tx' ∧ Grows tx tx' {v} := by
  unfold setAddrvar
  obtain ⟨hfunc, hscope⟩ := hv
  by_cases hext : (tx.var v).ext_reloc
  · rw [if_pos hext]
    refine ⟨tx, rfl, h, ?_, rfl, fun _ => id⟩
    refine (Set.union_eq_self_of_subset_right ?_).symm
    rintro _ rfl
    exact mem_coloured.2 (.inr hext)
  · rw [if_neg hext]
    by_cases hon : (tx.var v).on_vlist
    · refine ⟨_, if_pos (by simpa [Text.set] using hon), ?_⟩
      exact grows_of_white h hext { tx.var v with todo := true } rfl hon hfunc (if_pos hon).symm
    · have hdecl := hscope.resolve_left hon
      have hadd : addToVlist (((tx.set v fun va => { va with todo := true }).set v fun va =>
          { va with va_class := .CL_EXTREF, ext_reloc := true })) v =
          some { var := fun u => if u = v then
            { tx.var v with va_class := .CL_EXTREF, ext_reloc := true, todo := true, on_vlist := true }
            else tx.var u, tx_vlist := v :: tx.tx_vlist } := by
        rw [addToVlist, if_neg (by simpa [Text.set] using hfunc), if_neg (by simpa [Text.set] using hon)]
        simp only [Text.set, if_pos]
        congr 2
        funext u
        by_cases hu : u = v <;> simp [hu]
      refine ⟨_, ?_, grows_of_white h hext { tx.var v with
        va_class := .CL_EXTREF, ext_reloc := true, todo := true, on_vlist := true }
        rfl rfl hfunc (if_neg hon).symm⟩
      rw [if_neg (by simpa [Text.set] using hon), if_neg (by simpa [Text.set] using hdecl), hadd]

mutual

theorem setVarExtflags_spec : ∀ (i : Initialiser V) {tx : Text V}, Listing tx →
    (∀ u ∈ i.addrvars, (tx.var u).InScope) →
    ∃ tx', setVarExtflags tx i = some tx' ∧ Grows tx tx' {u | u ∈ i.addrvars}
  | .VARADDR addrvar _, tx, h, hscope => by
    obtain ⟨tx', hset, hgrows⟩ := setAddrvar_spec h (hscope addrvar (List.mem_singleton_self _))
    refine ⟨tx', hset, ?_⟩
    simpa [Initialiser.addrvars] using hgrows
  | .LIST list, tx, h, hscope => setListExtflags_spec list h hscope
  | .INTVAL _, tx, h, _ | .FLOATVAL _, tx, h, _ | .STRINGADDR _ _, tx, h, _ | .STRINGBYTES _, tx, h, _
  | .FUNCADDR _, tx, h, _ | .EXPR, tx, h, _ =>
    ⟨tx, rfl, by simpa [Initialiser.addrvars] using Grows.refl h⟩

theorem setListExtflags_spec : ∀ (is : List (Initialiser V)) {tx : Text V}, Listing tx →
    (∀ u ∈ listAddrvars is, (tx.var u).InScope) →
    ∃ tx', setListExtflags tx is = some tx' ∧ Grows tx tx' {u | u ∈ listAddrvars is}
  | [], tx, h, _ => ⟨tx, rfl, by simpa [listAddrvars] using Grows.refl h⟩
  | i :: is, tx, h, hscope => by
    obtain ⟨hi, his⟩ := List.forall_mem_append.1 (show ∀ u ∈ i.addrvars ++ listAddrvars is, _ from hscope)
    obtain ⟨tx', hset, hgrows⟩ := setVarExtflags_spec i h hi
    obtain ⟨tx'', hset', hgrows'⟩ := setListExtflags_spec is hgrows.listing fun u hu =>
      hgrows.scope u (his u hu)
    refine ⟨tx'', ?_, ?_⟩
    · rw [setListExtflags, hset]
      exact hset'
    · have hunion : {u | u ∈ listAddrvars (i :: is)} =
          {u | u ∈ i.addrvars} ∪ {u | u ∈ listAddrvars is} := by
        ext u
        exact List.mem_append
      rw [hunion]
      exact hgrows.trans hgrows'

end

/-! ## The loop -/

variable {roots : Set V} {initlist : Initlist V} {tx : Text V}

structure Inv (roots : Set V) (initlist : Initlist V) (tx : Text V) : Prop where
  listing : Listing tx
  marked : Marked roots (uses initlist) (grey tx) (black tx)
  scope : ∀ v i, Reach roots (uses initlist) v → (v, i) ∈ initlist →
    ∀ u ∈ i.addrvars, (tx.var u).InScope

/-- The flags of a variable whose initialiser was walked over. -/
theorem blacken (h : Listing tx) {v : V} (hv : v ∈ grey tx ∪ black tx) :
    let tx' := tx.set v fun va => { va with ext_reloc := true, todo := false }
    Listing tx' ∧ black tx' = insert v (black tx) ∧ grey tx' ∪ black tx' = grey tx ∪ black tx := by
  intro tx'
  have hvar : ∀ u, tx'.var u = if u = v then { tx.var v with ext_reloc := true, todo := false } else tx.var u :=
    fun u => rfl
  have hon : ∀ u, (tx'.var u).on_vlist = (tx.var u).on_vlist := by
    intro u
    rw [hvar]
    split
    · rename_i hu
      rw [hu]
    · rfl
  have hcoloured : grey tx' ∪ black tx' = grey tx ∪ black tx := by
    ext u
    by_cases hu : u = v
    · subst hu
      exact iff_of_true (mem_coloured.2 (.inr (by rw [hvar, if_pos rfl]))) hv
    · rw [mem_coloured, mem_coloured, hvar, if_neg hu]
  refine ⟨⟨h.nodup, fun u => ?_, fun u hu => ?_⟩, ?_, hcoloured⟩
  · rw [hon]
    exact h.listed u
  · rw [hon]
    rw [hcoloured] at hu
    exact h.coloured u hu
  · ext u
    by_cases hu : u = v
    · subst hu
      simp [black, hvar]
    · simp [black, hvar, hu]

theorem walkInitlist_spec (hkeys : (initlist.map Prod.fst).Nodup) (rest : Initlist V)
    (hsub : rest ⊆ initlist) (h : Inv roots initlist tx) :
    ∃ tx' done_one, walkInitlist tx rest = some (tx', done_one) ∧ Inv roots initlist tx' ∧
      black tx ⊆ black tx' ∧
      (done_one = false → tx' = tx ∧ ∀ x ∈ rest, x.1 ∉ grey tx) ∧
      (done_one = true → ∃ x ∈ rest, x.1 ∈ black tx' ∧ x.1 ∉ black tx) := by
  induction rest generalizing tx with
  | nil => exact ⟨tx, false, rfl, h, Set.Subset.rfl, fun _ => ⟨rfl, nofun⟩, nofun⟩
  | cons x rest ih =>
    obtain ⟨v, i⟩ := x
    obtain ⟨hin, hsub⟩ := List.cons_subset.1 hsub
    by_cases htodo : (tx.var v).todo
    · have hv : v ∈ grey tx ∪ black tx := .inl htodo
      obtain ⟨tx1, hset, hgrows⟩ := setVarExtflags_spec i h.listing
        (h.scope v i (h.marked.reach v hv) hin)
      have hv1 : v ∈ grey tx1 ∪ black tx1 := hgrows.coloured.ge (.inl hv)
      obtain ⟨hlisting, hblack, hcoloured⟩ := blacken hgrows.listing hv1
      have hinv : Inv roots initlist (tx1.set v fun va => { va with ext_reloc := true, todo := false }) := by
        refine ⟨hlisting, h.marked.scan hv ?_ ?_, fun w j hw hj u hu => ?_⟩
        · rw [hcoloured, hgrows.coloured, uses_eq hkeys hin]
        · rw [hblack, hgrows.black]
        · have hscope := hgrows.scope u (h.scope w j hw hj u hu)
          show (if u = v then _ else tx1.var u).InScope
          split
          · rename_i huv
            subst huv
            exact hscope
          · exact hscope
      obtain ⟨tx', d, hwalk, hinv', hmono, -, -⟩ := ih hsub hinv
      rw [hblack, hgrows.black] at hmono
      refine ⟨tx', true, ?_, hinv', (Set.subset_insert v _).trans hmono, nofun, fun _ => ?_⟩
      · rw [walkInitlist, if_pos htodo, hset]
        exact congrArg (fun r => r.bind fun p => some (p.1, true)) hwalk
      · exact ⟨(v, i), List.mem_cons_self, hmono (Set.mem_insert v _), fun hb => hb.2 htodo⟩
    · obtain ⟨tx', d, hwalk, hinv', hmono, hfalse, htrue⟩ := ih hsub h
      refine ⟨tx', d, ?_, hinv', hmono, fun hd => ?_, fun hd => ?_⟩
      · rw [walkInitlist, if_neg htodo, hwalk]
      · obtain ⟨heq, hrest⟩ := hfalse hd
        exact ⟨heq, List.forall_mem_cons.2 ⟨htodo, hrest⟩⟩
      · obtain ⟨x, hx, hb⟩ := htrue hd
        exact ⟨x, List.mem_cons_of_mem _ hx, hb⟩

instance (tx : Text V) : DecidablePred (· ∉ black tx) := fun v =>
  inferInstanceAs (Decidable (¬ ((tx.var v).ext_reloc = true ∧ ¬ (tx.var v).todo = true)))

theorem spread_spec (hkeys : (initlist.map Prod.fst).Nodup) {fuel : Nat} (h : Inv roots initlist tx)
    (hfuel : (initlist.map Prod.fst).countP (· ∉ black tx) < fuel) :
    ∃ tx', spread initlist fuel tx = some tx' ∧ Inv roots initlist tx' ∧
      ∀ x ∈ initlist, x.1 ∉ grey tx' := by
  induction fuel generalizing tx with
  | zero => cases hfuel
  | succ fuel ih =>
    obtain ⟨tx', d, hwalk, hinv, hmono, hfalse, htrue⟩ :=
      walkInitlist_spec hkeys initlist (List.Subset.refl _) h
    rw [spread, hwalk]
    cases d with
    | false =>
      obtain ⟨rfl, hdone⟩ := hfalse rfl
      exact ⟨_, rfl, hinv, hdone⟩
    | true =>
      obtain ⟨x, hx, hb, hb'⟩ := htrue rfl
      have hlt := countP_not_mem_lt hmono (List.mem_map_of_mem hx) hb' hb
      exact ih hinv (by omega)

/-! ## The walks over the variables -/

theorem foldl_set (f : Var → Var) {l : List V} (hl : l.Nodup) (tx : Text V) :
    (l.foldl (fun tx v => tx.set v f) tx).tx_vlist = tx.tx_vlist ∧
      ∀ u, (l.foldl (fun tx v => tx.set v f) tx).var u = if u ∈ l then f (tx.var u) else tx.var u := by
  induction l generalizing tx with
  | nil => exact ⟨rfl, fun u => rfl⟩
  | cons v l ih =>
    obtain ⟨hv, hl⟩ := List.nodup_cons.1 hl
    obtain ⟨hlist, hvar⟩ := ih hl (tx.set v f)
    refine ⟨hlist, fun u => (hvar u).trans ?_⟩
    by_cases hu : u = v
    · subst hu
      simp [Text.set, hv]
    · simp [Text.set, hu]

/-- What the rest of the compiler leaves behind: a list of variables with storage, and no flags but
those of declarations that the text refers to. -/
structure Start (tx : Text V) : Prop where
  nodup : tx.tx_vlist.Nodup
  listed : ∀ v, (tx.var v).on_vlist ↔ v ∈ tx.tx_vlist
  data : ∀ v ∈ tx.tx_vlist, ¬ (tx.var v).is_func
  todo : ∀ v, ¬ (tx.var v).todo
  ext_reloc : ∀ v, (tx.var v).ext_reloc → v ∈ tx.tx_vlist ∧ (tx.var v).va_class = .CL_EXTREF

theorem markVar_same (one_file : Bool) (va : Var) :
    (markVar one_file va).on_vlist = va.on_vlist ∧ (markVar one_file va).is_func = va.is_func ∧
      (markVar one_file va).ext_reloc = va.ext_reloc := by
  unfold markVar
  dsimp only
  split <;> split <;> exact ⟨rfl, rfl, rfl⟩

theorem markVar_todo {one_file : Bool} {va : Var} (htodo : ¬ va.todo) (hfunc : ¬ va.is_func) :
    (markVar one_file va).todo ↔ va.External one_file := by
  obtain ⟨c, f, e, t, o⟩ := va
  simp only [Bool.not_eq_true] at htodo hfunc
  subst htodo hfunc
  cases c <;> cases one_file <;> simp [markVar, Var.External]

theorem markVar_inScope {one_file : Bool} {va : Var} (h : va.InScope) : (markVar one_file va).InScope := by
  obtain ⟨hon, hfunc, -⟩ := markVar_same one_file va
  unfold Var.InScope
  rw [hon, hfunc]
  refine ⟨h.1, h.2.imp_right fun hdecl => ?_⟩
  simp [markVar, hdecl]

theorem inv_start {one_file : Bool} (h : Start tx)
    (hscope : ∀ v i, Reach (externals one_file tx) (uses initlist) v → (v, i) ∈ initlist →
      ∀ u ∈ i.addrvars, (tx.var u).InScope) :
    Inv (externals one_file tx) initlist (markExternals one_file tx) := by
  obtain ⟨hlist, hvar⟩ := foldl_set (markVar one_file) h.nodup tx
  change (markExternals one_file tx).tx_vlist = tx.tx_vlist at hlist
  change ∀ u, (markExternals one_file tx).var u = _ at hvar
  have hgrey : grey (markExternals one_file tx) = externals one_file tx := by
    ext u
    show ((markExternals one_file tx).var u).todo ↔ u ∈ tx.tx_vlist ∧ (tx.var u).External one_file
    rw [hvar]
    by_cases hu : u ∈ tx.tx_vlist
    · rw [if_pos hu, markVar_todo (h.todo u) (h.data u hu), and_iff_right hu]
    · rw [if_neg hu]
      exact iff_of_false (h.todo u) fun hin => hu hin.1
  have hblack : black (markExternals one_file tx) = ∅ := by
    refine Set.eq_empty_of_forall_notMem fun u hu => hu.2 ?_
    have hext : (tx.var u).ext_reloc := by
      have := hu.1
      rw [hvar] at this
      split at this
      · rwa [(markVar_same one_file _).2.2] at this
      · exact this
    obtain ⟨hin, hclass⟩ := h.ext_reloc u hext
    exact hgrey.ge ⟨hin, .inl hclass⟩
  have hon : ∀ u, ((markExternals one_file tx).var u).on_vlist = (tx.var u).on_vlist := by
    intro u
    rw [hvar]
    split
    · exact (markVar_same one_file _).1
    · rfl
  refine ⟨⟨?_, fun u => ?_, fun u hu => ?_⟩, .start ?_ hblack, fun v i hv hi u hu => ?_⟩
  · rw [hlist]
    exact h.nodup
  · rw [hon, hlist]
    exact h.listed u
  · rw [hgrey, hblack, Set.union_empty] at hu
    rw [hon]
    exact (h.listed u).2 hu.1
  · rw [hgrey, hblack, Set.union_empty]
  · have hu := hscope v i hv hi u hu
    rw [hvar]
    split
    · exact markVar_inScope hu
    · exact hu

theorem settle_spec (h : Listing tx) : (settle tx).tx_vlist = tx.tx_vlist ∧
    ∀ v, ((settle tx).var v).todo = false ∧
      ((settle tx).var v).ext_reloc = ((tx.var v).todo || (tx.var v).ext_reloc) := by
  obtain ⟨hlist, hvar⟩ := foldl_set settleVar h.nodup tx
  refine ⟨hlist, fun v => ?_⟩
  change ∀ u, (settle tx).var u = _ at hvar
  rw [hvar]
  by_cases hv : v ∈ tx.tx_vlist
  · rw [if_pos hv, settleVar]
    split
    · rename_i htodo
      simp [htodo]
    · rename_i htodo
      simp [htodo]
  · have hwhite : ¬ ((tx.var v).todo ∨ (tx.var v).ext_reloc) := fun hc =>
      hv ((h.listed v).1 (h.coloured v (mem_coloured.2 hc)))
    rw [if_neg hv]
    simp only [not_or, Bool.not_eq_true] at hwhite
    simp [hwhite]

/-! ## Main result -/

/-- The loop ends, and the variables with external relocation are the least set that contains the
external ones and is closed under the addresses in initialisers. They are all on the list, once. -/
theorem setExtReloc_isLeast (one_file : Bool) (initlist : Initlist V) (tx : Text V) (hstart : Start tx)
    (hkeys : (initlist.map Prod.fst).Nodup)
    (hscope : ∀ v i, Reach (externals one_file tx) (uses initlist) v → (v, i) ∈ initlist →
      ∀ u ∈ i.addrvars, (tx.var u).InScope)
    (fuel : Nat) (hfuel : initlist.length < fuel) :
    ∃ tx', setExtReloc one_file initlist fuel tx = some tx' ∧
      IsLeast {A | Closed (externals one_file tx) (uses initlist) A} {v | (tx'.var v).ext_reloc} ∧
      (∀ v, (tx'.var v).ext_reloc → tx'.tx_vlist.count v = 1) ∧ ∀ v, ¬ (tx'.var v).todo := by
  have hinv := inv_start hstart hscope
  have hcount : (initlist.map Prod.fst).countP (· ∉ black (markExternals one_file tx)) < fuel :=
    List.countP_le_length.trans_lt (by rwa [List.length_map])
  obtain ⟨tx', hspread, hinv', hdone⟩ := spread_spec hkeys hinv hcount
  obtain ⟨hlist, hsettle⟩ := settle_spec hinv'.listing
  have hcoloured := hinv'.marked.coloured fun v hv u hu => by
    obtain ⟨i, hi, -⟩ := hu
    exact absurd hv (hdone (v, i) hi)
  have hext : {v | ((settle tx').var v).ext_reloc} = grey tx' ∪ black tx' := by
    ext v
    rw [mem_coloured]
    show ((settle tx').var v).ext_reloc = true ↔ _
    rw [(hsettle v).2, Bool.or_eq_true]
  refine ⟨settle tx', ?_, ?_, fun v hv => ?_, fun v => ?_⟩
  · rw [setExtReloc, hspread]
    rfl
  · rw [hext, hcoloured]
    exact isLeast_reach ..
  · rw [hlist]
    have hv' := hinv'.listing.coloured v (hext.le hv)
    exact List.count_eq_one_of_mem hinv'.listing.nodup ((hinv'.listing.listed v).1 hv')
  · rw [(hsettle v).1]
    decide

/-- An external variable, a static one that points back at it and at itself, and a declaration. -/
def head : Text (Fin 3) where
  var := ![{ va_class := .CL_EXT, is_func := false, ext_reloc := false, todo := false, on_vlist := true },
    { va_class := .CL_STAT, is_func := false, ext_reloc := false, todo := false, on_vlist := true },
    { va_class := .CL_DECL, is_func := false, ext_reloc := false, todo := false, on_vlist := false }]
  tx_vlist := [1, 0]

def headInitlist : Initlist (Fin 3) :=
  [(1, .LIST [.VARADDR 0 0, .VARADDR 1 0, .LIST [.VARADDR 2 4]]), (0, .LIST [.INTVAL 7, .VARADDR 1 0])]

example : (setExtReloc false headInitlist 3 head).map (fun tx => (tx.tx_vlist, (tx.var 2).va_class)) =
    some ([2, 1, 0], .CL_EXTREF) := by decide

theorem setExtReloc_isLeast_head : ∃ tx', setExtReloc false headInitlist 3 head = some tx' ∧
    IsLeast {A | Closed (externals false head) (uses headInitlist) A} {v | (tx'.var v).ext_reloc} := by
  have hscope : ∀ u, (head.var u).InScope := by
    unfold Var.InScope
    decide
  obtain ⟨tx', hset, hleast, -⟩ := setExtReloc_isLeast false headInitlist head
    ⟨by decide, by decide, by decide, by decide, by decide⟩ (by decide)
    (fun _ _ _ _ u _ => hscope u) 3 (by decide)
  exact ⟨tx', hset, hleast⟩

end ups_rules.ext_flags
