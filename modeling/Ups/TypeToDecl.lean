-- A type as a C declaration (ci_type_to_decl, param_types and qualifiers_to_string in
-- ci_types.c). The text is built from the inside out, and read back it is the type again but
-- for the ellipses of its functions.
import Ups.AbstractDecls

open abstract_decls

namespace ups_rules.type_to_decl

/-! ## The pure model -/

inductive Dimtype where
  | DT_CONSTANT | DT_FPREL | DT_APREL | DT__UNKNOWN
deriving DecidableEq

structure Dim where
  di_htype : Dimtype
  di_high : Int

/-- The codes that `ci_basetype_name` has a tag for. -/
inductive Tagged where
  | TY_U_STRUCT | TY_STRUCT | TY_UNION | TY_U_UNION | TY_ENUM | TY_U_ENUM

inductive BaseCode where
  | tagged (ty_code : Tagged) (ae_tag : Option Text)
  | TY_UNKNOWN (ty_name : Option Text)
  | other (ty_name : Text)

mutual
/-- A `type_t`. Every node may have a typedef name and qualifiers. -/
inductive CType where
  /-- A null pointer. -/
  | missing
  | DT_PTR_TO (ty_typedef : Option Text) (ty_qualifiers : Quals) (ty_base : CType)
  | DT_FUNC_RETURNING (ty_typedef : Option Text) (ty_qualifiers : Quals) (ty_funcret : FuncRet)
    (ty_base : CType)
  | DT_ARRAY_OF (ty_typedef : Option Text) (ty_qualifiers : Quals) (ty_dim : Dim) (ty_base : CType)
  | TY_NOTYPE (ty_typedef : Option Text) (ty_qualifiers : Quals) (ty_name : Text) (ty_base : CType)
  | TY_BITFIELD (ty_typedef : Option Text) (ty_qualifiers : Quals) (bf_width : Int)
  | basic (ty_typedef : Option Text) (ty_qualifiers : Quals) (code : BaseCode)

/-- A `funcret_t`. -/
inductive FuncRet where
  | mk (fr_is_old_style fr_is_variadic : Bool) (fr_params : Vars)

/-- The parameters of a function, by their types. -/
inductive Vars where
  | nil
  | cons (va_type : CType) (va_next : Vars)
end

def Tagged.tagtype : Tagged → Text
  | .TY_U_STRUCT => "undefined struct".toList
  | .TY_STRUCT => "struct".toList
  | .TY_UNION => "union".toList
  | .TY_U_UNION => "undefined union".toList
  | .TY_ENUM => "enum".toList
  | .TY_U_ENUM => "undefined enum".toList

def ciBasetypeName : BaseCode → Text
  | .tagged code (some tag) => code.tagtype ++ ' ' :: tag
  | .tagged code none => "(unnamed) ".toList ++ code.tagtype
  | .TY_UNKNOWN (some name) => "(unknown) ".toList ++ name
  | .TY_UNKNOWN none => "unknown type".toList
  | .other name => name

def qualifiersToString (q : Quals) : Text :=
  (if q.const then "const ".toList else []) ++ (if q.volatile then "volatile ".toList else []) ++
    (if q.packed then "packed ".toList else [])

/-- `%ld` -/
def formatLong (i : Int) : Text :=
  if i < 0 then '-' :: Nat.toDigits 10 i.natAbs else Nat.toDigits 10 i.natAbs

/-- `type->ty_typedef->td_name` when the typedef is not resolved. -/
def typedefName (resolve_typedefs : Bool) (ty_typedef : Option Text) : Option Text :=
  if resolve_typedefs then none else ty_typedef

/-- The end of `ci_type_to_decl` for a type with a name. -/
def declare (q : Quals) (name str : Text) : Text :=
  qualifiersToString q ++ name ++ (if str = [] then [] else ' ' :: str)

def asizestr (dim : Dim) : Text :=
  if dim.di_htype ≠ .DT_CONSTANT then [] else formatLong (dim.di_high + 1)

/-- `"(%s)"` after a pointer. -/
def enclose (last_was_ptr : Bool) (str : Text) : Text :=
  if last_was_ptr then '(' :: (str ++ [')']) else str

mutual
/-- `ci_type_to_decl` from a turn of its loop on. -/
def typeToDecl : CType → Bool → Text → Bool → Text
  | .missing, _, str, _ => str ++ "\x7b?\x7d".toList
  | .DT_PTR_TO td q base, resolve_typedefs, str, _ =>
    match typedefName resolve_typedefs td with
    | some name => declare q name str
    | none => typeToDecl base resolve_typedefs ('*' :: (qualifiersToString q ++ str)) true
  | .DT_FUNC_RETURNING td q fr base, resolve_typedefs, str, last_was_ptr =>
    match typedefName resolve_typedefs td with
    | some name => declare q name str
    | none => typeToDecl base resolve_typedefs (enclose last_was_ptr str ++ paramTypes fr) false
  | .DT_ARRAY_OF td q dim base, resolve_typedefs, str, last_was_ptr =>
    match typedefName resolve_typedefs td with
    | some name => declare q name str
    | none =>
      typeToDecl base resolve_typedefs
        (enclose last_was_ptr str ++ '[' :: (asizestr dim ++ [']'])) false
  | .TY_NOTYPE td q name base, resolve_typedefs, str, _ =>
    match typedefName resolve_typedefs td with
    | some name => declare q name str
    | none =>
      match base with
      | .missing => declare q name str
      | _ => typeToDecl base resolve_typedefs [] false
  | .TY_BITFIELD _ _ width, _, str, _ => "int ".toList ++ str ++ ':' :: formatLong width
  | .basic td q code, resolve_typedefs, str, _ =>
    declare q ((typedefName resolve_typedefs td).getD (ciBasetypeName code)) str

def paramTypes : FuncRet → Text
  | .mk true _ _ => "()".toList
  | .mk false _ .nil => "(void)".toList
  | .mk false _ params => '(' :: ((joinParams params []).drop 2 ++ [')'])

/-- The loop of `param_types`. -/
def joinParams : Vars → Text → Text
  | .nil, str => str
  | .cons type next, str => joinParams next (str ++ ", ".toList ++ typeToDecl type false [] false)
end

def ciTypeToDecl (type : CType) (resolve_typedefs : Bool) : Text :=
  typeToDecl type resolve_typedefs [] false

/-! ## What the printed types are -/

def tokenWord : Token → Option Text
  | .word w => some w
  | _ => none

/-- A word that can be part of a name. -/
def plainWord (w : Text) : Bool := (Quals.none.add w).isNone && w ≠ "...".toList

/-- The base type with this name, if the name is made of words. -/
def namedType (q : Quals) (name : Text) : Option Ty :=
  let ws := (lex [] name).filterMap tokenWord
  if lex [] name = ws.map .word ∧ ws ≠ [] ∧ ws.all plainWord then some (.named q ws) else none

/-- Bounds that are no constants are not printed. -/
def boundOf (dim : Dim) : Option (Option Nat) :=
  if dim.di_htype ≠ .DT_CONSTANT then some none
  else if 0 ≤ dim.di_high + 1 then some (some (dim.di_high + 1).toNat)
  else none

/-- A parameter of type void is not a parameter. -/
def paramType : Ty → Option Ty
  | .named ⟨false, false, false⟩ [['v', 'o', 'i', 'd']] => none
  | t => some t

mutual
/-- The type that is built from a named base type by pointers with qualifiers, arrays and
functions. -/
def denote : CType → Bool → Option Ty
  | .missing, _ => none
  | .DT_PTR_TO td q base, resolve_typedefs =>
    match typedefName resolve_typedefs td with
    | some name => namedType q name
    | none => (denote base resolve_typedefs).map (.ptr q)
  | .DT_FUNC_RETURNING td q fr base, resolve_typedefs =>
    match typedefName resolve_typedefs td with
    | some name => namedType q name
    | none =>
      if q = .none then
        (denoteParams fr).bind fun params => (denote base resolve_typedefs).map (.func params)
      else none
  | .DT_ARRAY_OF td q dim base, resolve_typedefs =>
    match typedefName resolve_typedefs td with
    | some name => namedType q name
    | none =>
      if q = .none then
        (boundOf dim).bind fun bound => (denote base resolve_typedefs).map (.array bound)
      else none
  | .TY_NOTYPE td q _ _, resolve_typedefs =>
    (typedefName resolve_typedefs td).bind (namedType q)
  | .TY_BITFIELD _ _ _, _ => none
  | .basic td q code, resolve_typedefs =>
    namedType q ((typedefName resolve_typedefs td).getD (ciBasetypeName code))

def denoteParams : FuncRet → Option Params
  | .mk true _ _ => some .unspecified
  | .mk false variadic params => (denoteVars params).map (.list · variadic)

def denoteVars : Vars → Option Tys
  | .nil => some .nil
  | .cons type next =>
    ((denote type false).bind paramType).bind fun t => (denoteVars next).map (.cons t)
end

/-! ## The text in tokens -/

theorem lex_qualifiers (q : Quals) (text : Text) :
    lex [] (qualifiersToString q ++ text) = q.tokens ++ lex [] text := by
  obtain ⟨c, v, p⟩ := q
  cases c <;> cases v <;> cases p <;>
    simp [qualifiersToString, Quals.tokens, lex, breaking, ofWord]

theorem lex_declare (q : Quals) (name str : Text) :
    lex [] (declare q name str) = q.tokens ++ lex [] name ++ lex [] str := by
  unfold declare
  rw [List.append_assoc, lex_qualifiers, List.append_assoc]
  congr 1
  split
  case isTrue h => simp [h, lex, ofWord]
  case isFalse => simpa using lex_append [] name str (c := ' ') _ rfl

theorem lex_toDigits (n : Nat) : lex [] (Nat.toDigits 10 n) = [.word (Nat.toDigits 10 n)] := by
  have hplain : ∀ c ∈ Nat.toDigits 10 n, breaking c = none := by
    intro c hc
    have hdigit := Nat.isDigit_of_mem_toDigits (by decide) (by decide) hc
    unfold breaking
    split <;> simp_all
  rw [lex_of_plain _ _ hplain, List.nil_append, ofWord, if_neg Nat.toDigits_ne_nil]

theorem lex_asizestr {dim : Dim} {bound : Option Nat} (h : boundOf dim = some bound) :
    lex [] (asizestr dim) = boundTokens bound := by
  unfold boundOf at h
  unfold asizestr
  split at h
  case isTrue hc =>
    cases h
    simp [hc, lex, ofWord, boundTokens]
  case isFalse hc =>
    rw [if_neg hc]
    split at h
    case isTrue hpos =>
      cases h
      have habs : (dim.di_high + 1).natAbs = (dim.di_high + 1).toNat := by omega
      unfold formatLong
      rw [if_neg (by omega), habs, lex_toDigits]
      rfl
    case isFalse => cases h

/-! ## The loop -/

theorem add_of_plain {w : Text} (h : plainWord w = true) (q : Quals) : q.add w = none := by
  simp only [plainWord, Bool.and_eq_true, Option.isNone_iff_eq_none] at h
  have hnone := h.1
  unfold Quals.add at hnone ⊢
  split at hnone
  · cases hnone
  · split at hnone
    · cases hnone
    · split at hnone
      · cases hnone
      · simp_all

theorem isDecl_of_named {q : Quals} {name str : Text} {t : Ty} {f : Ty → Ty}
    (h : namedType q name = some t) (hf : Declares (lex [] str) f) :
    IsDecl (lex [] (declare q name str)) (f t.fixed) := by
  unfold namedType at h
  dsimp only at h
  split at h
  case isFalse => cases h
  case isTrue hname =>
    obtain ⟨hlex, hne, hplain⟩ := hname
    cases h
    rw [List.all_eq_true] at hplain
    refine ⟨q, _, _, f, by rw [lex_declare, ← hlex], ⟨hne, ?_, ?_⟩, hf, rfl⟩
    · intro w hw q'
      exact add_of_plain (hplain w hw) q'
    · intro w hw
      have hw' := hplain w hw
      simp only [plainWord, Bool.and_eq_true, decide_eq_true_eq] at hw'
      exact hw'.2

/-- What the loop knows of the text so far, after a type that was a pointer or was not. -/
structure Built (ts : List Token) (last_was_ptr : Bool) (f : Ty → Ty) : Prop where
  declares : Declares ts f
  direct : last_was_ptr = false → Direct ts f
  star : last_was_ptr = true → ∃ ts', ts = .star :: ts'

theorem Built.start : Built (lex [] []) false id where
  declares := Direct.nil.declares
  direct := fun _ => .nil
  star := fun h => by cases h

theorem built_of_direct {ts : List Token} {f : Ty → Ty} (h : Direct ts f) : Built ts false f where
  declares := h.declares
  direct := fun _ => h
  star := fun h => by cases h

section
variable {str : Text} {last_was_ptr : Bool} {f : Ty → Ty}

theorem Built.ptr (h : Built (lex [] str) last_was_ptr f) (q : Quals) :
    Built (lex [] ('*' :: (qualifiersToString q ++ str))) true (fun t => f (.ptr q t)) := by
  rw [lex_cons _ [.star] rfl, lex_qualifiers]
  exact {
    declares := h.declares.ptr q
    direct := fun h => by cases h
    star := fun _ => ⟨_, rfl⟩ }

/-- Parentheses make a pointer ready for a suffix. -/
theorem Built.enclosed (h : Built (lex [] str) last_was_ptr f) :
    Direct (lex [] (enclose last_was_ptr str)) f := by
  unfold enclose
  cases last_was_ptr with
  | false => exact h.direct rfl
  | true =>
    obtain ⟨ts, hts⟩ := h.star rfl
    have hdecl := h.declares
    rw [hts] at hdecl
    have hlex : lex [] ('(' :: (str ++ [')'])) = .lpar :: (lex [] str ++ [.rpar]) := by
      rw [lex_cons _ [.lpar] rfl, lex_append _ _ _ [.rpar] rfl]
      simp [lex, ofWord]
    rw [if_pos rfl, hlex, hts]
    exact hdecl.group

theorem Built.array (h : Built (lex [] str) last_was_ptr f) {dim : Dim} {bound : Option Nat}
    (hbound : boundOf dim = some bound) :
    Built (lex [] (enclose last_was_ptr str ++ '[' :: (asizestr dim ++ [']']))) false
      (fun t => f (.array bound t)) := by
  have hlex : lex [] ('[' :: (asizestr dim ++ [']'])) =
      .lbrack :: (boundTokens bound ++ [.rbrack]) := by
    rw [lex_cons _ [.lbrack] rfl, lex_append _ _ _ [.rbrack] rfl,
      lex_asizestr hbound]
    simp [lex, ofWord]
  have happend := lex_append [] (enclose last_was_ptr str) (asizestr dim ++ [']'])
    (c := '[') [.lbrack] rfl
  rw [lex_cons _ [.lbrack] rfl] at hlex
  rw [happend, List.append_assoc, hlex]
  exact built_of_direct (h.enclosed.array bound)

theorem built_func {params : Text} {ps : Params}
    (hparams : Direct (lex [] (enclose last_was_ptr str) ++ lex [] ('(' :: params))
      (fun t => f (.func ps t))) :
    Built (lex [] (enclose last_was_ptr str ++ '(' :: params)) false
      (fun t => f (.func ps t)) := by
  rw [lex_append _ _ _ [.lpar] rfl, List.append_assoc]
  rw [lex_cons _ [.lpar] rfl] at hparams
  exact built_of_direct hparams

end

/-! ## Parameter lists -/

theorem joinParams_append (params : Vars) (str : Text) :
    joinParams params str = str ++ joinParams params [] := by
  match params with
  | .nil => simp [joinParams]
  | .cons type next =>
    rw [joinParams, joinParams, joinParams_append next (str ++ _ ++ _),
      joinParams_append next ([] ++ _ ++ _)]
    simp

theorem joinParams_cons (type : CType) (next : Vars) :
    (joinParams (.cons type next) []).drop 2 =
      ciTypeToDecl type false ++ joinParams next [] := by
  rw [joinParams, joinParams_append]
  rfl

theorem paramType_eq {t t' : Ty} (h : paramType t = some t') : t' = t := by
  unfold paramType at h
  split at h
  · cases h
  · exact (Option.some.inj h).symm

theorem paramList_of_paramType {t : Ty} (h : paramType t = some t) (ts : Tys) :
    paramList (.cons t.fixed ts) false = .list (.cons t.fixed ts) false := by
  unfold paramList
  split
  case h_2 => rfl
  case h_1 heq _ =>
    obtain ⟨hvoid, -⟩ := (Tys.cons.injEq ..).mp heq
    cases t with
    | named q name =>
      rw [Ty.fixed] at hvoid
      rw [hvoid] at h
      cases h
    | ptr q t => cases hvoid
    | array bound t => cases hvoid
    | func ps t => cases hvoid

/-- The word void alone. -/
theorem isDecl_void : IsDecl [.word "void".toList] (.named .none ["void".toList]) := by
  refine ⟨.none, ["void".toList], [], id, rfl, ⟨by simp, ?_, ?_⟩, Direct.nil.declares, rfl⟩
  · intro w hw q
    rw [List.mem_singleton.mp hw]
    rfl
  · intro w hw
    rw [List.mem_singleton.mp hw]
    decide

mutual
theorem typeToDecl_spec : (type : CType) → ∀ {resolve_typedefs : Bool} {t : Ty},
    denote type resolve_typedefs = some t → ∀ {str : Text} {last_was_ptr : Bool} {f : Ty → Ty},
      Built (lex [] str) last_was_ptr f →
      IsDecl (lex [] (typeToDecl type resolve_typedefs str last_was_ptr)) (f t.fixed)
  | .missing, _, _, h, _, _, _, _ => by cases h
  | .DT_PTR_TO td q base, resolve_typedefs, t, h, str, last_was_ptr, f, hbuilt => by
    rw [denote] at h
    rw [typeToDecl]
    cases hname : typedefName resolve_typedefs td with
    | some name =>
      rw [hname] at h
      exact isDecl_of_named h hbuilt.declares
    | none =>
      rw [hname] at h
      obtain ⟨t', ht', rfl⟩ := Option.map_eq_some_iff.mp h
      exact typeToDecl_spec base ht' (hbuilt.ptr q)
  | .DT_FUNC_RETURNING td q fr base, resolve_typedefs, t, h, str, last_was_ptr, f, hbuilt => by
    rw [denote] at h
    rw [typeToDecl]
    cases hname : typedefName resolve_typedefs td with
    | some name =>
      rw [hname] at h
      exact isDecl_of_named h hbuilt.declares
    | none =>
      rw [hname] at h
      dsimp only at h ⊢
      split at h
      case isFalse => cases h
      case isTrue =>
        obtain ⟨ps, hps, h⟩ := Option.bind_eq_some_iff.mp h
        obtain ⟨t', ht', rfl⟩ := Option.map_eq_some_iff.mp h
        obtain ⟨text, htext, hparams⟩ := paramTypes_spec fr hps
        rw [htext]
        exact typeToDecl_spec base ht' (built_func (hparams hbuilt.enclosed))
  | .DT_ARRAY_OF td q dim base, resolve_typedefs, t, h, str, last_was_ptr, f, hbuilt => by
    rw [denote] at h
    rw [typeToDecl]
    cases hname : typedefName resolve_typedefs td with
    | some name =>
      rw [hname] at h
      exact isDecl_of_named h hbuilt.declares
    | none =>
      rw [hname] at h
      dsimp only at h ⊢
      split at h
      case isFalse => cases h
      case isTrue =>
        obtain ⟨bound, hbound, h⟩ := Option.bind_eq_some_iff.mp h
        obtain ⟨t', ht', rfl⟩ := Option.map_eq_some_iff.mp h
        exact typeToDecl_spec base ht' (hbuilt.array hbound)
  | .TY_NOTYPE td q name base, resolve_typedefs, t, h, str, last_was_ptr, f, hbuilt => by
    rw [denote] at h
    obtain ⟨name', hname, h⟩ := Option.bind_eq_some_iff.mp h
    simp only [typeToDecl, hname]
    exact isDecl_of_named h hbuilt.declares
  | .TY_BITFIELD _ _ _, _, _, h, _, _, _, _ => by cases h
  | .basic td q code, resolve_typedefs, t, h, str, last_was_ptr, f, hbuilt => by
    rw [denote] at h
    rw [typeToDecl]
    exact isDecl_of_named h hbuilt.declares
termination_by type => sizeOf type

theorem paramTypes_spec : (fr : FuncRet) → ∀ {ps : Params}, denoteParams fr = some ps →
    ∃ text, paramTypes fr = '(' :: text ∧ ∀ {ts : List Token} {f : Ty → Ty}, Direct ts f →
      Direct (ts ++ lex [] ('(' :: text)) (fun t => f (.func ps.fixed t))
  | .mk true _ _, ps, h => by
    rw [denoteParams] at h
    cases h
    exact ⟨_, rfl, fun hdirect => hdirect.unspecified⟩
  | .mk false variadic .nil, ps, h => by
    rw [denoteParams, denoteVars] at h
    cases h
    exact ⟨_, rfl, fun hdirect => hdirect.func (.last isDecl_void)⟩
  | .mk false variadic (.cons type next), ps, h => by
    rw [denoteParams] at h
    obtain ⟨types, htypes, rfl⟩ := Option.map_eq_some_iff.mp h
    have hlist := joinParams_spec type next htypes
    refine ⟨_, rfl, fun hdirect => ?_⟩
    rw [lex_cons _ [.lpar] rfl]
    obtain ⟨t, ht, htypes⟩ := Option.bind_eq_some_iff.mp htypes
    obtain ⟨t', -, hparam⟩ := Option.bind_eq_some_iff.mp ht
    obtain rfl := paramType_eq hparam
    obtain ⟨types', -, rfl⟩ := Option.map_eq_some_iff.mp htypes
    have hfunc := hdirect.func hlist
    rw [Tys.fixed, paramList_of_paramType hparam] at hfunc
    exact hfunc
termination_by fr => sizeOf fr

theorem joinParams_spec : (type : CType) → (next : Vars) → ∀ {types : Tys},
    denoteVars (.cons type next) = some types →
      ListsParams (lex [] ((joinParams (.cons type next) []).drop 2 ++ [')'])) types.fixed false
  | type, .nil, types, h => by
    rw [denoteVars, denoteVars] at h
    obtain ⟨t, ht, h⟩ := Option.bind_eq_some_iff.mp h
    obtain ⟨t', ht', hparam⟩ := Option.bind_eq_some_iff.mp ht
    obtain rfl := paramType_eq hparam
    cases h
    have hdecl := typeToDecl_spec type ht' Built.start
    rw [joinParams_cons, joinParams, List.append_nil, lex_append _ _ _ [.rpar] rfl]
    simpa [lex, ofWord, ciTypeToDecl, Tys.fixed] using ListsParams.last hdecl
  | type, .cons type' next, types, h => by
    rw [denoteVars] at h
    obtain ⟨t, ht, h⟩ := Option.bind_eq_some_iff.mp h
    obtain ⟨t', ht', hparam⟩ := Option.bind_eq_some_iff.mp ht
    obtain rfl := paramType_eq hparam
    obtain ⟨types', htypes', rfl⟩ := Option.map_eq_some_iff.mp h
    have hdecl := typeToDecl_spec type ht' Built.start
    have hrest := joinParams_spec type' next htypes'
    have hjoin : joinParams (.cons type' next) [] =
        ',' :: ' ' :: (joinParams (.cons type' next) []).drop 2 := by
      rw [joinParams_cons, joinParams, joinParams_append]
      rfl
    rw [joinParams_cons, hjoin, List.append_assoc, List.cons_append, List.cons_append,
      lex_append _ _ _ [.comma] rfl, lex_cons _ [] rfl]
    simpa [ciTypeToDecl, Tys.fixed] using ListsParams.cons hdecl hrest
termination_by type next => sizeOf type + sizeOf next
end

/-- The text is read as the type without its ellipses. -/
theorem readDecl_ciTypeToDecl {type : CType} {resolve_typedefs : Bool} {t : Ty}
    (h : denote type resolve_typedefs = some t) :
    readDecl (ciTypeToDecl type resolve_typedefs) = some t.fixed :=
  (typeToDecl_spec type h Built.start).readDecl

def charType (q : Quals) : CType := .basic none q (.other "char".toList)

def intType : CType := .basic none .none (.other "int".toList)

/-- `const char *(*)[3]` -/
def rows : CType :=
  .DT_PTR_TO none .none (.DT_ARRAY_OF none .none ⟨.DT_CONSTANT, 2⟩
    (.DT_PTR_TO none .none (charType ⟨true, false, false⟩)))

def rowsTy : Ty :=
  .ptr .none (.array (some 3) (.ptr .none (.named ⟨true, false, false⟩ ["char".toList])))

/-- `int (*)(const char *, ...)` -/
def printfPtr : CType :=
  .DT_PTR_TO none .none (.DT_FUNC_RETURNING none .none
    (.mk false true (.cons (.DT_PTR_TO none .none (charType ⟨true, false, false⟩)) .nil)) intType)

end ups_rules.type_to_decl
