-- The types of declarators: the parser's chain of nodes against the derivation that C has.
import Ups.Declarators

namespace ups_rules.declarators

theorem ciPushTypes_eq (typelist types : Chain) :
    ciPushTypes typelist types = types.reverse ++ typelist := by
  induction types generalizing typelist with
  | nil => rfl
  | cons type base ih =>
    rw [ciPushTypes, ih, List.reverse_cons, List.append_assoc]
    rfl

theorem qualifiersOf_eq (list : List Qualifier) : qualifiersOf list = namedIn list := by
  have hfold : ∀ (l : List Qualifier) (q : Qualifiers), l.foldl Qualifiers.add q =
      ⟨q.const || l.contains .QU_CONST, q.volatile || l.contains .QU_VOLATILE⟩ := by
    intro l
    induction l with
    | nil => intro q; simp
    | cons c l ih =>
      intro q
      rw [List.foldl_cons, ih]
      cases c <;> simp [Qualifiers.add]
  rw [qualifiersOf, hfold]
  rfl

/-! ## The nodes between the identifier and the base type -/

/-- A function's node; the parameters of a function that is declared itself are rewritten. -/
def funcNode (rewritten : Bool) (params : Params) (ellipsis : Bool) : Node :=
  .func (if rewritten then (voidParam params.varlist).map adjustParam else voidParam params.varlist)
    ellipsis

/-- What the stars add behind the nodes of the declarator. -/
def starNodes (star : List Qualifier) (stars : List (List Qualifier)) (d : Decl) : Chain :=
  if d.named then pointerNodes star stars
  else if d.isOmitted then (pointerNodes star stars).reverse
  else (pointerNodes star stars).take 1

def Decl.path (rewritten : Bool) : Decl → Chain
  | omitted | identifier _ => []
  | parens d => d.path rewritten
  | pointer star stars d => d.path rewritten ++ starNodes star stars d
  | array d dim => d.path rewritten ++ [.array dim]
  | funcIds d ids => d.path rewritten ++ [.funcIds ids]
  | func d params ellipsis => d.path rewritten ++ [funcNode (rewritten && d.atCore) params ellipsis]

/-- The same in C. -/
def Decl.cpath : Decl → Chain
  | omitted | identifier _ => []
  | parens d => d.cpath
  | pointer star stars d => d.cpath ++ ((star :: stars).map fun list => .ptr (namedIn list)).reverse
  | array d dim => d.cpath ++ [.array dim]
  | funcIds d ids => d.cpath ++ [.funcIds ids]
  | func d params ellipsis => d.cpath ++ [.func (voidParam params.adjusted) ellipsis]

theorem foldl_ptr (stars : List (List Qualifier)) (t : Chain) :
    stars.foldl (fun t list => Node.ptr (namedIn list) :: t) t =
      (stars.map fun list => Node.ptr (namedIn list)).reverse ++ t := by
  induction stars generalizing t with
  | nil => rfl
  | cons star stars ih =>
    rw [List.foldl_cons, ih, List.map_cons, List.reverse_cons, List.append_assoc]
    rfl

theorem Decl.ctype_eq (d : Decl) (t : Chain) : d.ctype t = d.cpath ++ t := by
  match d with
  | omitted => rfl
  | identifier _ => rfl
  | parens d => exact d.ctype_eq t
  | pointer star stars d => rw [ctype, d.ctype_eq, foldl_ptr, cpath, List.append_assoc]
  | array d dim => rw [ctype, d.ctype_eq, cpath, List.append_assoc]; rfl
  | funcIds d ids => rw [ctype, d.ctype_eq, cpath, List.append_assoc]; rfl
  | func d params ellipsis => rw [ctype, d.ctype_eq, cpath, List.append_assoc]; rfl

theorem Decl.declarator_eq {d : Decl} (h : d.named = true) :
    ∃ name, d.declarator.reverse = .ident name :: d.path false := by
  match d with
  | identifier name => exact ⟨name, rfl⟩
  | parens d => exact d.declarator_eq h
  | pointer star stars d =>
    obtain ⟨name, hd⟩ := d.declarator_eq h
    refine ⟨name, ?_⟩
    have hn : d.named = true := h
    rw [declarator, ciPushTypes_eq, List.reverse_append, List.reverse_reverse, hd, path, starNodes,
      if_pos hn]
    rfl
  | array d dim =>
    obtain ⟨name, hd⟩ := d.declarator_eq h
    exact ⟨name, by rw [declarator, List.reverse_cons, hd, path]; rfl⟩
  | funcIds d ids =>
    obtain ⟨name, hd⟩ := d.declarator_eq h
    exact ⟨name, by rw [declarator, List.reverse_cons, hd, path]; rfl⟩
  | func d params ellipsis =>
    obtain ⟨name, hd⟩ := d.declarator_eq h
    exact ⟨name, by rw [declarator, List.reverse_cons, hd, path]; rfl⟩

theorem Decl.abstract_not_named {d : Decl} (h : d.abstract = true) : d.named = false := by
  match d with
  | omitted => rfl
  | parens omitted => cases h
  | parens (parens d) => exact (parens d).abstract_not_named h
  | parens (pointer star stars d) => exact (pointer star stars d).abstract_not_named h
  | parens (array d dim) => exact (array d dim).abstract_not_named h
  | parens (funcIds d ids) => exact (funcIds d ids).abstract_not_named h
  | parens (func d params e) => exact (func d params e).abstract_not_named h
  | funcIds d ids => exact d.abstract_not_named (Bool.and_eq_true_iff.1 h).2
  | pointer _ _ d | array d _ | func d _ _ => exact d.abstract_not_named h

/-! ## Lengths and heads -/

theorem pointerNodes_eq (star : List Qualifier) (stars : List (List Qualifier)) :
    ((star :: stars).map fun list => Node.ptr (namedIn list)).reverse =
      (pointerNodes star stars).reverse := by
  simp [pointerNodes, qualifiersOf_eq]

theorem starNodes_length (star : List Qualifier) (stars : List (List Qualifier)) (d : Decl) :
    (starNodes star stars d).length ≤ (pointerNodes star stars).reverse.length := by
  unfold starNodes
  split
  · simp
  · split
    · simp
    · simp [pointerNodes]

theorem Decl.path_length (d : Decl) (rewritten : Bool) :
    (d.path rewritten).length ≤ d.cpath.length := by
  match d with
  | omitted | identifier _ => exact Nat.le_refl 0
  | parens d => exact d.path_length rewritten
  | pointer star stars d =>
    rw [path, cpath, pointerNodes_eq, List.length_append, List.length_append]
    exact Nat.add_le_add (d.path_length rewritten) (starNodes_length star stars d)
  | array d _ | funcIds d _ | func d _ _ =>
    rw [path, cpath, List.length_append, List.length_append]
    exact Nat.add_le_add_right (d.path_length rewritten) 1

theorem qualify_length (list : List Qualifier) (t : Chain) : t.length ≤ (qualify list t).length := by
  fun_induction qualify list t <;> simp_all

/-- The lengths tell where the equality of two chains splits. -/
theorem append_eq_iff {a b c d : Chain} (hab : a.length ≤ c.length) (hbd : b.length ≤ d.length) :
    a ++ b = c ++ d ↔ a = c ∧ b = d := by
  constructor
  · intro h
    have hlen := congrArg List.length h
    simp only [List.length_append] at hlen
    exact List.append_inj h (by omega)
  · rintro ⟨rfl, rfl⟩
    rfl

/-- What a parameter is adjusted by. -/
inductive Shape where
  | array (dim : Option Nat)
  | function
  | plain
deriving DecidableEq

def Node.shape : Node → Shape
  | .array dim => .array dim
  | .func _ _ | .funcIds _ => .function
  | _ => .plain

/-- A node that a declarator adds. -/
def Node.derived : Node → Bool
  | .ptr _ | .array _ | .func _ _ | .funcIds _ => true
  | _ => false

def shape : Chain → Shape
  | [] => .plain
  | n :: _ => n.shape

theorem adjust_of_plain {t : Chain} (h : shape t = .plain) : adjust t = t := by
  match t with
  | [] | .base _ :: _ | .qualified _ :: _ | .ident _ :: _ | .ptr _ :: _ => rfl

theorem shape_adjust (t : Chain) : shape (adjust t) = .plain := by
  match t with
  | [] | .base _ :: _ | .qualified _ :: _ | .ident _ :: _ | .ptr _ :: _ => rfl
  | .array _ :: _ | .func _ _ :: _ | .funcIds _ :: _ => rfl

theorem adjust_eq_self {t : Chain} : adjust t = t ↔ shape t = .plain :=
  ⟨fun h => h ▸ shape_adjust t, adjust_of_plain⟩

theorem adjust_of_function {t : Chain} (h : shape t = .function) :
    adjust t = .ptr .none :: t := by
  match t with
  | .func _ _ :: _ | .funcIds _ :: _ => rfl

theorem adjust_inj {p c : Chain} (h : shape p = shape c) : adjust p = adjust c ↔ p = c := by
  refine ⟨fun ha => ?_, fun hp => hp ▸ rfl⟩
  cases hp : shape p with
  | plain => rwa [adjust_of_plain hp, adjust_of_plain (h ▸ hp)] at ha
  | function =>
    rw [adjust_of_function hp, adjust_of_function (h ▸ hp)] at ha
    exact (List.cons.inj ha).2
  | array dim =>
    match p, c with
    | .array _ :: p, .array _ :: c =>
      obtain rfl := Shape.array.inj h
      exact congrArg _ (List.cons.inj ha).2

/-- A type is another one adjusted only where there was nothing to adjust. -/
theorem eq_adjust {p c : Chain} (h : shape p = shape c) : p = adjust c ↔ p = c ∧ adjust c = c := by
  constructor
  · rintro rfl
    have hc : adjust c = c := adjust_of_plain (h ▸ shape_adjust c)
    exact ⟨hc, hc⟩
  · rintro ⟨rfl, hc⟩
    exact hc.symm

theorem mem_pointerNodes {star : List Qualifier} {stars : List (List Qualifier)} {n : Node}
    (h : n ∈ pointerNodes star stars) : ∃ q, n = .ptr q := by
  obtain ⟨list, -, rfl⟩ := List.mem_map.1 h
  exact ⟨_, rfl⟩

theorem mem_starNodes {star : List Qualifier} {stars : List (List Qualifier)} {d : Decl} {n : Node}
    (h : n ∈ starNodes star stars d) : n ∈ pointerNodes star stars := by
  unfold starNodes at h
  split at h
  · exact h
  · split at h
    · exact List.mem_reverse.1 h
    · exact List.mem_of_mem_take h

theorem starNodes_head (star : List Qualifier) (stars : List (List Qualifier)) (d : Decl) :
    ∃ q r, starNodes star stars d = .ptr q :: r := by
  cases hs : starNodes star stars d with
  | nil =>
    unfold starNodes at hs
    split at hs
    · simp [pointerNodes] at hs
    · split at hs <;> simp [pointerNodes] at hs
  | cons n r =>
    obtain ⟨q, rfl⟩ := mem_pointerNodes (mem_starNodes (hs ▸ List.mem_cons_self))
    exact ⟨q, r, rfl⟩

theorem Decl.path_atCore {d : Decl} (h : d.atCore = true) (rewritten : Bool) :
    d.path rewritten = [] ∧ d.cpath = [] := by
  match d with
  | omitted | identifier _ => exact ⟨rfl, rfl⟩
  | parens d => exact d.path_atCore h rewritten

/-- The code's nodes begin like C's. -/
theorem Decl.path_head {d : Decl} (h : d.atCore = false) (rewritten : Bool) :
    ∃ n m r s, d.path rewritten = n :: r ∧ d.cpath = m :: s ∧ n.derived = true ∧
      m.derived = true ∧ n.shape = m.shape := by
  -- behind other nodes, or the first ones
  have hstep : ∀ {d' : Decl} {ns ms : Chain},
      (d'.atCore = false → ∃ n m r s, d'.path rewritten = n :: r ∧ d'.cpath = m :: s ∧
        n.derived = true ∧ m.derived = true ∧ n.shape = m.shape) →
      (∃ n m r s, ns = n :: r ∧ ms = m :: s ∧ n.derived = true ∧ m.derived = true ∧
        n.shape = m.shape) →
      ∃ n m r s, d'.path rewritten ++ ns = n :: r ∧ d'.cpath ++ ms = m :: s ∧ n.derived = true ∧
        m.derived = true ∧ n.shape = m.shape := by
    intro d' ns ms hd hn
    cases hc : d'.atCore with
    | true =>
      obtain ⟨hp, hcp⟩ := path_atCore hc rewritten
      rw [hp, hcp]
      exact hn
    | false =>
      obtain ⟨n, m, r, s, hr, hs, hrest⟩ := hd hc
      exact ⟨n, m, r ++ ns, s ++ ms, by rw [hr]; rfl, by rw [hs]; rfl, hrest⟩
  match d with
  | parens d => exact d.path_head h rewritten
  | pointer star stars d =>
    apply hstep (fun hd => d.path_head hd rewritten)
    obtain ⟨q, r, hr⟩ := starNodes_head star stars d
    rw [hr, pointerNodes_eq]
    cases hc : (pointerNodes star stars).reverse with
    | nil => simp [pointerNodes] at hc
    | cons m s =>
      obtain ⟨q, rfl⟩ := mem_pointerNodes (List.mem_reverse.1 (hc ▸ List.mem_cons_self))
      exact ⟨_, _, _, _, rfl, rfl, rfl, rfl, rfl⟩
  | array d dim =>
    exact hstep (fun hd => d.path_head hd rewritten) ⟨_, _, _, _, rfl, rfl, rfl, rfl, rfl⟩
  | funcIds d ids =>
    exact hstep (fun hd => d.path_head hd rewritten) ⟨_, _, _, _, rfl, rfl, rfl, rfl, rfl⟩
  | func d params ellipsis =>
    exact hstep (fun hd => d.path_head hd rewritten) ⟨_, _, _, _, rfl, rfl, rfl, rfl, rfl⟩

theorem shape_qualify (list : List Qualifier) (t : Chain) : shape (qualify list t) = shape t := by
  match t with
  | [] | .qualified _ :: _ | .ident _ :: _ | .ptr _ :: _ | .array _ :: _ | .funcIds _ :: _
  | .func _ _ :: _ => rfl
  | .base _ :: _ =>
    rw [qualify]
    split <;> rfl

theorem Decl.shape_path (d : Decl) (rewritten : Bool) (list : List Qualifier) (t : Chain) :
    shape (d.path rewritten ++ t) = shape (d.cpath ++ qualify list t) := by
  cases hc : d.atCore with
  | true =>
    obtain ⟨hp, hcp⟩ := path_atCore hc rewritten
    rw [hp, hcp]
    exact (shape_qualify list t).symm
  | false =>
    obtain ⟨n, m, r, s, hr, hs, -, -, hshape⟩ := path_head hc rewritten
    rw [hr, hs]
    exact hshape

/-! ## The types that are built -/

theorem rewriteFuncParams_path {d : Decl} (h : d.atCore = false) (t : Chain) :
    rewriteFuncParams (d.path false ++ t) = d.path true ++ t := by
  -- what is behind other nodes stays
  have hstep : ∀ {d' : Decl} {ns : Chain},
      (d'.atCore = false → rewriteFuncParams (d'.path false ++ (ns ++ t)) =
        d'.path true ++ (ns ++ t)) →
      (d'.atCore = true → rewriteFuncParams (ns ++ t) = ns ++ t) →
      rewriteFuncParams (d'.path false ++ ns ++ t) = d'.path true ++ ns ++ t := by
    intro d' ns hd hn
    rw [List.append_assoc, List.append_assoc]
    cases hc : d'.atCore with
    | true =>
      rw [(d'.path_atCore hc false).1, (d'.path_atCore hc true).1]
      exact hn hc
    | false => exact hd hc
  match d with
  | .parens d => exact rewriteFuncParams_path (d := d) h t
  | .pointer star stars d =>
    apply hstep (fun hd => rewriteFuncParams_path hd _)
    intro _
    obtain ⟨q, r, hr⟩ := starNodes_head star stars d
    rw [hr]
    rfl
  | .array d dim => exact hstep (fun hd => rewriteFuncParams_path hd _) (fun _ => rfl)
  | .funcIds d ids => exact hstep (fun hd => rewriteFuncParams_path hd _) (fun _ => rfl)
  | .func d params ellipsis =>
    rw [Decl.path, Decl.path]
    cases hc : d.atCore with
    | true =>
      rw [(d.path_atCore hc false).1, (d.path_atCore hc true).1]
      rfl
    | false =>
      rw [List.append_assoc, List.append_assoc, rewriteFuncParams_path hc]
      rfl

theorem rewriteFuncParams_base (d : Decl) (base : BaseType) :
    rewriteFuncParams (d.path false ++ base.nodes) = d.path true ++ base.nodes := by
  cases hc : d.atCore with
  | true =>
    rw [(d.path_atCore hc false).1, (d.path_atCore hc true).1]
    exact base.adjusted
  | false => exact rewriteFuncParams_path hc base.nodes

theorem isVoid_path (d : Decl) (rewritten : Bool) (t : Chain) :
    isVoid (d.path rewritten ++ t) = isVoid (d.cpath ++ t) := by
  cases hc : d.atCore with
  | true =>
    obtain ⟨hp, hcp⟩ := d.path_atCore hc rewritten
    rw [hp, hcp]
  | false =>
    obtain ⟨n, m, r, s, hr, hs, hn, hm, -⟩ := Decl.path_head hc rewritten
    have hderived : ∀ {n : Node} {r : Chain}, n.derived = true → isVoid (n :: r) = false := by
      intro n r h
      cases n with
      | base b => cases h
      | _ => rfl
    rw [hr, hs, List.cons_append, List.cons_append, hderived hn, hderived hm]

theorem varType_named {d : Decl} (h : d.named = true) (is_typedef : Bool) (base : BaseType) :
    varType is_typedef base.nodes d.declarator =
      if isVoid (d.cpath ++ base.nodes) && !is_typedef then [.base .TY_INT]
      else d.path true ++ base.nodes := by
  obtain ⟨name, hd⟩ := Decl.declarator_eq h
  rw [varType, ciPushTypes_eq, hd]
  simp only [List.cons_append]
  rw [isVoid_path, rewriteFuncParams_base]

theorem Decl.abstractDeclarator_eq {d : Decl} (h : d.abstract = true) :
    d.abstractDeclarator.reverse = d.path false := by
  match d with
  | omitted => rfl
  | parens (parens d) => exact (parens d).abstractDeclarator_eq h
  | parens (pointer star stars d) => exact (pointer star stars d).abstractDeclarator_eq h
  | parens (array d dim) => exact (array d dim).abstractDeclarator_eq h
  | parens (funcIds d ids) => exact (funcIds d ids).abstractDeclarator_eq h
  | parens (func d params e) => exact (func d params e).abstractDeclarator_eq h
  | array d dim =>
    rw [abstractDeclarator, List.reverse_cons, d.abstractDeclarator_eq h, path]
  | funcIds d ids =>
    rw [abstractDeclarator, List.reverse_cons,
      d.abstractDeclarator_eq (Bool.and_eq_true_iff.1 h).2, path]
  | func d params ellipsis =>
    rw [abstractDeclarator, List.reverse_cons, d.abstractDeclarator_eq h, path]
    rfl
  | pointer star stars d =>
    have hd : d.abstract = true := h
    have hn := abstract_not_named hd
    cases ho : d.isOmitted with
    | true =>
      cases d with
      | omitted => rfl
      | _ => cases ho
    | false =>
      have habs : (pointer star stars d).abstractDeclarator =
          setBase (pointerNodes star stars) d.abstractDeclarator := by
        cases d with
        | omitted => cases ho
        | _ => rfl
      rw [habs, setBase, List.reverse_append, d.abstractDeclarator_eq hd, path, starNodes, hn, ho]
      rfl

theorem varType_abstract {d : Decl} (h : d.abstract = true) (base : BaseType) :
    varType false base.nodes d.abstractDeclarator = d.path true ++ base.nodes := by
  have hident : ∀ name t, d.path false ++ base.nodes ≠ .ident name :: t := by
    intro name t he
    cases hc : d.atCore with
    | true =>
      rw [(d.path_atCore hc false).1] at he
      exact base.unnamed name (by rw [← List.nil_append base.nodes, he]; rfl)
    | false =>
      obtain ⟨n, m, r, s, hr, -, hn, -⟩ := Decl.path_head hc false
      rw [hr] at he
      rw [(List.cons.inj he).1] at hn
      cases hn
  rw [varType, ciPushTypes_eq, Decl.abstractDeclarator_eq h]
  split
  · rename_i heq
    exact absurd heq (hident _ _)
  · exact rewriteFuncParams_base d base

/-! ## Parameters -/

/-- The type that the code gives to a parameter. -/
def paramType (base : BaseType) (d : Decl) : Chain :=
  varType false base.nodes (if d.named then d.declarator else d.abstractDeclarator)

theorem paramType_eq {d : Decl} (h : (d.named || d.abstract) = true) (base : BaseType) :
    paramType base d = if d.named && isVoid (d.cpath ++ base.nodes) then [.base .TY_INT]
      else d.path true ++ base.nodes := by
  unfold paramType
  cases hn : d.named with
  | true =>
    rw [if_pos rfl, varType_named hn]
    simp
  | false =>
    rw [hn, Bool.false_or] at h
    simp only [Bool.false_eq_true, if_false, Bool.false_and]
    exact varType_abstract h base

theorem isVoid_iff {t : Chain} : isVoid t = true ↔ t = [.base .TY_VOID] := by
  unfold isVoid
  split
  · simp
  · rename_i h
    exact ⟨nofun, fun ht => absurd ht h⟩

theorem Decl.shape_void {d : Decl} {t : Chain} (h : isVoid (d.cpath ++ t) = true)
    (list : List Qualifier) : shape (d.cpath ++ qualify list t) = .plain := by
  rw [← d.shape_path true list t]
  rw [← isVoid_path d true, isVoid_iff] at h
  rw [h]
  rfl

theorem shape_paramType {d : Decl} (h : (d.named || d.abstract) = true) (base : BaseType)
    (list : List Qualifier) :
    shape (paramType base d) = shape (d.ctype (qualify list base.nodes)) := by
  rw [paramType_eq h, d.ctype_eq]
  split
  · rename_i hv
    exact (Decl.shape_void (Bool.and_eq_true_iff.1 hv).2 list).symm
  · exact d.shape_path true list base.nodes

/-- No chain for int is C's for void. -/
theorem int_ne {d : Decl} {t : Chain} (h : isVoid (d.cpath ++ t) = true) (list : List Qualifier) :
    [Node.base .TY_INT] ≠ d.cpath ++ qualify list t := by
  intro he
  rw [isVoid_iff] at h
  have hlen := congrArg List.length he
  have hq := qualify_length list t
  have hl := congrArg List.length h
  simp only [List.length_append, List.length_cons, List.length_nil] at hlen hl
  cases hc : d.cpath with
  | nil =>
    rw [hc, List.nil_append] at h he
    rw [h, qualify] at he
    split at he <;> simp at he
  | cons n r =>
    have ht : t = [] := by
      rw [hc] at hl
      simp only [List.length_cons] at hl
      exact List.eq_nil_of_length_eq_zero (by omega)
    rw [ht, List.append_nil] at h
    rw [ht, h] at he
    cases he

theorem path_type_iff (d : Decl) (base : BaseType) (rewritten : Bool) (list : List Qualifier) :
    d.path rewritten ++ base.nodes = d.cpath ++ qualify list base.nodes ↔
      d.path rewritten = d.cpath ∧ qualify list base.nodes = base.nodes := by
  rw [append_eq_iff (d.path_length rewritten) (qualify_length list base.nodes),
    eq_comm (a := base.nodes)]

theorem paramType_iff {d : Decl} (h : (d.named || d.abstract) = true) (base : BaseType)
    (list : List Qualifier) :
    paramType base d = d.ctype (qualify list base.nodes) ↔
      qualify list base.nodes = base.nodes ∧ d.path true = d.cpath ∧
        (d.named = true → isVoid (d.ctype base.nodes) = false) := by
  rw [paramType_eq h, d.ctype_eq, d.ctype_eq]
  split
  · rename_i hv
    obtain ⟨hn, hv⟩ := Bool.and_eq_true_iff.1 hv
    refine ⟨fun he => absurd he (int_ne hv list), fun ⟨_, _, hne⟩ => ?_⟩
    rw [hne hn] at hv
    cases hv
  · rename_i hv
    rw [path_type_iff]
    constructor
    · rintro ⟨hp, hq⟩
      refine ⟨hq, hp, fun hn => ?_⟩
      rw [hn, Bool.true_and, Bool.not_eq_true] at hv
      exact hv
    · rintro ⟨hq, hp, -⟩
      exact ⟨hp, hq⟩

/-- The parameters' types in C, before they are adjusted. -/
def Params.ctypes : Params → List (Bool × Chain)
  | one quals base d => [(d.named, d.ctype (qualify quals base.nodes))]
  | cons quals base d rest => (d.named, d.ctype (qualify quals base.nodes)) :: rest.ctypes

theorem Params.adjusted_eq (params : Params) : params.adjusted = params.ctypes.map adjustParam := by
  match params with
  | one quals base d => rfl
  | cons quals base d rest =>
    rw [adjusted, ctypes, List.map_cons, ← rest.adjusted_eq]
    rfl

theorem Params.plain_iff (params : Params) :
    params.plain ↔ params.ctypes.map adjustParam = params.ctypes := by
  match params with
  | one quals base d => simp [plain, ctypes, adjustParam]
  | cons quals base d rest =>
    rw [plain, ctypes, rest.plain_iff, List.map_cons, List.cons.injEq]
    simp [adjustParam]

theorem Params.ctypes_ne_nil (params : Params) : params.ctypes ≠ [] := by
  cases params <;> exact List.cons_ne_nil _ _

theorem Params.varlist_ne_nil (params : Params) : params.varlist ≠ [] := by
  cases params <;> exact List.cons_ne_nil _ _

/-- The lists have names and shapes in the same places. -/
def Alike (params cparams : List (Bool × Chain)) : Prop :=
  params.map (fun p => (p.1, shape p.2)) = cparams.map (fun p => (p.1, shape p.2))

theorem Params.alike (params : Params) (h : params.wellFormed = true) :
    Alike params.varlist params.ctypes := by
  match params with
  | one quals base d =>
    have hd := (Bool.and_eq_true_iff.1 h).1
    show [(d.named, shape (paramType base d))] = [(d.named, shape _)]
    rw [shape_paramType hd base quals]
  | cons quals base d rest =>
    obtain ⟨h, hrest⟩ := Bool.and_eq_true_iff.1 h
    have hd := (Bool.and_eq_true_iff.1 h).1
    show (d.named, shape (paramType base d)) :: rest.varlist.map _ = (d.named, shape _) :: _
    rw [shape_paramType hd base quals, rest.alike hrest]

theorem Alike.adjust_inj {ps cs : List (Bool × Chain)} (h : Alike ps cs) :
    ps.map adjustParam = cs.map adjustParam ↔ ps = cs := by
  refine ⟨fun he => ?_, fun he => he ▸ rfl⟩
  induction ps generalizing cs with
  | nil =>
    cases cs with
    | nil => rfl
    | cons c cs => cases he
  | cons p ps ih =>
    cases cs with
    | nil => cases he
    | cons c cs =>
      obtain ⟨hhead, htail⟩ := List.cons.inj h
      obtain ⟨he, hes⟩ := List.cons.inj he
      have hp : p = c := by
        apply Prod.ext
        · exact (Prod.mk.inj hhead).1
        · exact (declarators.adjust_inj (Prod.mk.inj hhead).2).1 (Prod.mk.inj he).2
      rw [hp, ih htail hes]

theorem Alike.eq_adjust {ps cs : List (Bool × Chain)} (h : Alike ps cs) :
    ps = cs.map adjustParam ↔ ps = cs ∧ cs.map adjustParam = cs := by
  constructor
  · intro he
    have hself : cs.map adjustParam = cs := by
      subst he
      rw [Alike, List.map_map] at h
      have hplain : ∀ c ∈ cs, adjustParam c = id c := by
        intro c hc
        have hshape : shape (adjust c.2) = shape c.2 := (Prod.mk.inj (List.map_inj_left.1 h c hc)).2
        exact Prod.ext rfl (adjust_of_plain (hshape ▸ shape_adjust c.2))
      rw [List.map_congr_left hplain, List.map_id]
    exact ⟨he.trans hself, hself⟩
  · rintro ⟨rfl, hc⟩
    exact hc.symm

theorem voidParam_cases (ps : List (Bool × Chain)) :
    voidParam ps = ps ∨ (ps = [(false, [.base .TY_VOID])] ∧ voidParam ps = []) := by
  unfold voidParam
  split
  · split
    · rename_i hv
      exact .inr ⟨by rw [isVoid_iff.1 hv], rfl⟩
    · exact .inl rfl
  · exact .inl rfl

theorem voidParam_inj {ps cs : List (Bool × Chain)} (hp : ps ≠ []) (hc : cs ≠ []) :
    voidParam ps = voidParam cs ↔ ps = cs := by
  refine ⟨fun h => ?_, fun h => h ▸ rfl⟩
  rcases voidParam_cases ps with hps | ⟨hps, hpv⟩ <;>
    rcases voidParam_cases cs with hcs | ⟨hcs, hcv⟩
  · rw [← hps, h, hcs]
  · rw [hps, hcv] at h
    exact absurd h hp
  · rw [hcs, hpv] at h
    exact absurd h.symm hc
  · rw [hps, hcs]

theorem voidParam_map (ps : List (Bool × Chain)) :
    (voidParam ps).map adjustParam = voidParam (ps.map adjustParam) := by
  have hvoid : ∀ {t : Chain}, isVoid (adjust t) = isVoid t := by
    intro t
    match t with
    | [] | .base _ :: _ | .qualified _ :: _ | .ident _ :: _ | .ptr _ :: _ => rfl
    | .array _ :: _ | .func _ _ :: _ | .funcIds _ :: _ => rfl
  match ps with
  | [] => rfl
  | [(true, t)] => rfl
  | [(false, t)] =>
    simp only [voidParam, List.map_cons, List.map_nil, adjustParam, hvoid]
    split <;> rfl
  | (true, _) :: _ :: _ | (false, _) :: _ :: _ => rfl

/-! ## Where the chains are the same -/

theorem funcNode_eq {params : Params} (hw : params.wellFormed = true)
    (hok : params.varlist = params.ctypes ↔ params.ok) (rewritten ellipsis : Bool) :
    funcNode rewritten params ellipsis = .func (voidParam params.adjusted) ellipsis ↔
      params.ok ∧ (rewritten = true ∨ params.plain) := by
  have halike := params.alike hw
  have hadjusted : params.ctypes.map adjustParam ≠ [] := by
    simpa using params.ctypes_ne_nil
  rw [funcNode, Node.func.injEq, params.adjusted_eq, params.plain_iff, ← hok]
  cases rewritten with
  | true =>
    have hmap : params.varlist.map adjustParam ≠ [] := by
      simpa using params.varlist_ne_nil
    rw [if_pos rfl, voidParam_map, voidParam_inj hmap hadjusted, halike.adjust_inj]
    simp
  | false =>
    rw [if_neg Bool.false_ne_true, voidParam_inj params.varlist_ne_nil hadjusted, halike.eq_adjust]
    simp

/-- The grammar has the declarator in parentheses only if it has the one inside. -/
theorem Decl.inside_parens {d : Decl} (h : ((parens d).named || (parens d).abstract) = true) :
    (d.named || d.abstract) = true := by
  cases d with
  | omitted => rfl
  | _ => exact h

theorem Decl.inside_funcIds {d : Decl} {ids : List String}
    (h : ((funcIds d ids).named || (funcIds d ids).abstract) = true) :
    (d.named || d.abstract) = true := by
  rw [named, abstract, Bool.or_eq_true, Bool.and_eq_true] at h
  rw [Bool.or_eq_true]
  exact h.imp_right And.right

theorem starNodes_eq (star : List Qualifier) (stars : List (List Qualifier)) (d : Decl) :
    starNodes star stars d = (pointerNodes star stars).reverse ↔
      if d.named then ((star :: stars).map namedIn).reverse = (star :: stars).map namedIn
      else d.isOmitted = true ∨ stars = [] := by
  unfold starNodes
  cases d.named with
  | true =>
    have hnodes : pointerNodes star stars = ((star :: stars).map namedIn).map Node.ptr := by
      simp [pointerNodes, qualifiersOf_eq]
    have hinj : Function.Injective Node.ptr := fun _ _ h => Node.ptr.inj h
    rw [if_pos rfl, if_pos rfl, hnodes, ← List.map_reverse, eq_comm, hinj.list_map.eq_iff]
  | false =>
    simp only [Bool.false_eq_true, if_false]
    cases d.isOmitted with
    | true => simp
    | false =>
      constructor
      · intro h
        have hlen := congrArg List.length h
        cases stars with
        | nil => exact .inr rfl
        | cons s stars => simp [pointerNodes] at hlen
      · rintro (h | rfl)
        · cases h
        · rfl

mutual

/-- The code's chain is C's exactly for these declarators. By induction on the declarator. -/
theorem Decl.path_iff (d : Decl) (hw : d.wellFormed = true)
    (hg : (d.named || d.abstract) = true) (rewritten : Bool) :
    d.path rewritten = d.cpath ↔ d.ok rewritten := by
  match d with
  | .omitted | .identifier _ => simp [Decl.path, Decl.cpath, Decl.ok]
  | .parens d => exact d.path_iff hw (Decl.inside_parens hg) rewritten
  | .pointer star stars d =>
    have hd := d.path_iff (Bool.and_eq_true_iff.1 hw).2 hg rewritten
    rw [Decl.path, Decl.cpath, pointerNodes_eq,
      append_eq_iff (d.path_length rewritten) (starNodes_length star stars d), hd, starNodes_eq,
      Decl.ok]
  | .array d dim =>
    have hd := d.path_iff (Bool.and_eq_true_iff.1 hw).2 hg rewritten
    rw [Decl.path, Decl.cpath, List.append_cancel_right_eq, hd, Decl.ok]
  | .funcIds d ids =>
    have hd := d.path_iff (Bool.and_eq_true_iff.1 hw).2 (Decl.inside_funcIds hg) rewritten
    rw [Decl.path, Decl.cpath, List.append_cancel_right_eq, hd, Decl.ok]
  | .func d params ellipsis =>
    obtain ⟨hwd, hwp⟩ := Bool.and_eq_true_iff.1 hw
    have hd := d.path_iff (Bool.and_eq_true_iff.1 hwd).2 hg rewritten
    have hf := funcNode_eq hwp (params.varlist_iff hwp) (rewritten && d.atCore) ellipsis
    rw [Decl.path, Decl.cpath,
      append_eq_iff (b := [_]) (d := [_]) (d.path_length rewritten) (Nat.le_refl 1), hd,
      List.cons.injEq, hf, Decl.ok]
    simp

/-- The parameters have C's types exactly if all of them are so. -/
theorem Params.varlist_iff (params : Params) (hw : params.wellFormed = true) :
    params.varlist = params.ctypes ↔ params.ok := by
  match params with
  | .one quals base d =>
    obtain ⟨hg, hwd⟩ := Bool.and_eq_true_iff.1 hw
    show [(d.named, paramType base d)] = [(d.named, d.ctype (qualify quals base.nodes))] ↔ _
    rw [List.cons.injEq, Prod.mk.injEq, paramType_iff hg, d.path_iff hwd hg, Params.ok]
    simp
  | .cons quals base d rest =>
    obtain ⟨hw, hwr⟩ := Bool.and_eq_true_iff.1 hw
    obtain ⟨hg, hwd⟩ := Bool.and_eq_true_iff.1 hw
    show (d.named, paramType base d) :: rest.varlist =
      (d.named, d.ctype (qualify quals base.nodes)) :: rest.ctypes ↔ _
    rw [List.cons.injEq, Prod.mk.injEq, paramType_iff hg, d.path_iff hwd hg,
      rest.varlist_iff hwr, Params.ok]
    simp

end

/-! ## Deleting the identifier -/

/-- How many arrays and functions there are. -/
def composed (t : Chain) : Nat := t.countP fun n => n.shape ≠ .plain

theorem composed_append (s t : Chain) : composed (s ++ t) = composed s + composed t :=
  List.countP_append

theorem composed_pointers {t : Chain} (h : ∀ n ∈ t, ∃ q, n = .ptr q) : composed t = 0 := by
  rw [composed, List.countP_eq_zero]
  intro n hn
  obtain ⟨q, rfl⟩ := h n hn
  simp [Node.shape]

theorem Decl.composed_path (d : Decl) (rewritten : Bool) :
    composed (d.path rewritten) = composed d.cpath := by
  match d with
  | omitted | identifier _ => rfl
  | parens d => exact d.composed_path rewritten
  | pointer star stars d =>
    rw [path, cpath, composed_append, composed_append, d.composed_path rewritten, pointerNodes_eq,
      composed_pointers fun n hn => mem_pointerNodes (mem_starNodes hn),
      composed_pointers fun n hn => mem_pointerNodes (List.mem_reverse.1 hn)]
  | array d _ | funcIds d _ =>
    rw [path, cpath, composed_append, composed_append, d.composed_path rewritten]
  | func d _ _ =>
    rw [path, cpath, composed_append, composed_append, d.composed_path rewritten]
    rfl

theorem composed_qualify (list : List Qualifier) (t : Chain) :
    composed (qualify list t) = composed t := by
  fun_induction qualify list t <;> simp_all [composed, Node.shape]

theorem Decl.delete_parens {d : Decl} (h : ∀ name, d ≠ identifier name) (hn : d.named = true) :
    (parens d).delete = parens d.delete := by
  cases d with
  | omitted => cases hn
  | identifier name => exact absurd rfl (h name)
  | parens d =>
    have hd : (parens d).delete ≠ omitted := by
      rw [delete]
      split <;> nofun
    rw [delete]
    split
    · contradiction
    · rfl
  | _ => rfl

theorem Decl.bareParens_parens {d : Decl} (h : ∀ name, d ≠ identifier name) :
    (parens d).bareParens = d.bareParens := by
  cases d with
  | identifier name => exact absurd rfl (h name)
  | _ => rfl

/-- The parentheses around the identifier become a function; all else stays. -/
theorem Decl.cpath_delete {d : Decl} (hn : d.named = true) :
    (d.bareParens = false → d.delete.cpath = d.cpath) ∧
    (d.bareParens = true → composed d.delete.cpath = composed d.cpath + 1) := by
  -- what is behind an added node stays as well
  have hstep : ∀ {e : Decl} {ns : Chain}, ((e.bareParens = false → e.delete.cpath = e.cpath) ∧
      (e.bareParens = true → composed e.delete.cpath = composed e.cpath + 1)) →
      (e.bareParens = false → e.delete.cpath ++ ns = e.cpath ++ ns) ∧
      (e.bareParens = true → composed (e.delete.cpath ++ ns) = composed (e.cpath ++ ns) + 1) := by
    rintro e ns ⟨hno, hyes⟩
    refine ⟨fun h => by rw [hno h], fun h => ?_⟩
    rw [composed_append, composed_append, hyes h]
    omega
  have hparens : ∀ {e : Decl}, (∀ name, e ≠ identifier name) → e.named = true →
      ((e.bareParens = false → e.delete.cpath = e.cpath) ∧
        (e.bareParens = true → composed e.delete.cpath = composed e.cpath + 1)) →
      ((parens e).bareParens = false → (parens e).delete.cpath = (parens e).cpath) ∧
        ((parens e).bareParens = true →
          composed (parens e).delete.cpath = composed (parens e).cpath + 1) := by
    intro e he hen h
    rw [delete_parens he hen, bareParens_parens he]
    exact h
  match d with
  | identifier _ => exact ⟨fun _ => rfl, nofun⟩
  | parens (identifier _) => exact ⟨nofun, fun _ => rfl⟩
  | parens (parens d) =>
    exact hparens (e := parens d) (fun _ => nofun) hn (cpath_delete (d := parens d) hn)
  | parens (pointer star stars d) =>
    exact hparens (e := pointer star stars d) (fun _ => nofun) hn
      (cpath_delete (d := pointer star stars d) hn)
  | parens (array d dim) =>
    exact hparens (e := array d dim) (fun _ => nofun) hn (cpath_delete (d := array d dim) hn)
  | parens (funcIds d ids) =>
    exact hparens (e := funcIds d ids) (fun _ => nofun) hn (cpath_delete (d := funcIds d ids) hn)
  | parens (func d params ellipsis) =>
    exact hparens (e := func d params ellipsis) (fun _ => nofun) hn
      (cpath_delete (d := func d params ellipsis) hn)
  | pointer star stars d => exact hstep (cpath_delete (d := d) hn)
  | array d dim => exact hstep (cpath_delete (d := d) hn)
  | funcIds d ids => exact hstep (cpath_delete (d := d) hn)
  | func d params ellipsis => exact hstep (cpath_delete (d := d) hn)

theorem Decl.delete_direct (d : Decl) (h : d.direct = true) : d.delete.direct = true := by
  cases d with
  | parens d =>
    rw [delete]
    split <;> rfl
  | pointer star stars d => exact h
  | _ => rfl

theorem Decl.delete_wellFormed {d : Decl} (h : d.wellFormed = true) :
    d.delete.wellFormed = true := by
  match d with
  | omitted | identifier _ => rfl
  | parens d =>
    have hd := delete_wellFormed (d := d) h
    rw [delete]
    split
    · rfl
    · exact hd
  | pointer _ _ d | array d _ | funcIds d _ =>
    obtain ⟨hdirect, hd⟩ := Bool.and_eq_true_iff.1 h
    exact Bool.and_eq_true_iff.2 ⟨d.delete_direct hdirect, delete_wellFormed hd⟩
  | func d params ellipsis =>
    obtain ⟨hd, hparams⟩ := Bool.and_eq_true_iff.1 h
    obtain ⟨hdirect, hd⟩ := Bool.and_eq_true_iff.1 hd
    exact Bool.and_eq_true_iff.2 ⟨Bool.and_eq_true_iff.2
      ⟨d.delete_direct hdirect, delete_wellFormed hd⟩, hparams⟩

/-! ## The types -/

theorem declaredType_iff {d : Decl} (hw : d.wellFormed = true) (hn : d.named = true)
    (is_typedef : Bool) (quals : List Qualifier) (base : BaseType) :
    declaredType is_typedef base d = d.ctype (qualify quals base.nodes) ↔
      qualify quals base.nodes = base.nodes ∧ d.ok true ∧
        (is_typedef = true ∨ isVoid (d.ctype base.nodes) = false) := by
  have hg : (d.named || d.abstract) = true := by rw [hn, Bool.true_or]
  rw [declaredType, varType_named hn, d.ctype_eq, d.ctype_eq, ← d.path_iff hw hg]
  split
  · rename_i hv
    obtain ⟨hv, ht⟩ := Bool.and_eq_true_iff.1 hv
    refine ⟨fun he => absurd he (int_ne hv quals), ?_⟩
    rintro ⟨-, -, htypedef | hne⟩
    · rw [htypedef] at ht
      cases ht
    · rw [hne] at hv
      cases hv
  · rename_i hv
    have hvoid : is_typedef = true ∨ isVoid (d.cpath ++ base.nodes) = false := by
      cases is_typedef with
      | true => exact .inl rfl
      | false => exact .inr (by simpa using hv)
    rw [path_type_iff]
    constructor
    · rintro ⟨hp, hq⟩
      exact ⟨hq, hp, hvoid⟩
    · rintro ⟨hq, hp, -⟩
      exact ⟨hp, hq⟩

theorem typeName_iff {d : Decl} (hw : d.wellFormed = true) (hn : d.named = true)
    (ha : d.delete.abstract = true) (quals : List Qualifier) (base : BaseType) :
    typeName base d.delete = d.ctype (qualify quals base.nodes) ↔
      qualify quals base.nodes = base.nodes ∧ d.bareParens = false ∧ d.delete.ok false := by
  have hg : (d.delete.named || d.delete.abstract) = true := by rw [ha, Bool.or_true]
  obtain ⟨hsame, hmore⟩ := Decl.cpath_delete hn
  rw [typeName, ciPushTypes_eq, Decl.abstractDeclarator_eq ha, d.ctype_eq,
    ← d.delete.path_iff (Decl.delete_wellFormed hw) hg]
  cases hb : d.bareParens with
  | true =>
    refine ⟨fun he => ?_, fun h => Bool.noConfusion h.2.1⟩
    -- there is one function more than in C's chain
    have hcount := congrArg composed he
    rw [composed_append, composed_append, composed_qualify, Decl.composed_path, hmore hb] at hcount
    omega
  | false =>
    rw [← hsame hb, path_type_iff]
    constructor
    · rintro ⟨hp, hq⟩
      exact ⟨hq, rfl, hp⟩
    · rintro ⟨hq, -, hp⟩
      exact ⟨hp, hq⟩

def int : BaseType := ⟨[.base .TY_INT], nofun, rfl⟩

/-- `int *(*x)[3]` -/
def pointerToArray : Decl :=
  .pointer [] [] (.array (.parens (.pointer [] [] (.identifier "x"))) (some 3))

/-- `int *const *x`: the qualifier is on the other star. -/
def constPointer : Decl := .pointer [.QU_CONST] [[]] (.identifier "x")

end ups_rules.declarators
