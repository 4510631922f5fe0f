-- Abstract declarations of C, such as "const char *(*)[3]": the types they denote, and a
-- reader by recursive descent, in which the suffixes of a declarator bind tighter than its
-- pointers.
import Mathlib.Data.List.Basic
import Mathlib.Tactic.Common

namespace abstract_decls

/-! ## Types -/

abbrev Text := List Char

structure Quals where
  const : Bool
  volatile : Bool
  packed : Bool
deriving DecidableEq

def Quals.none : Quals := ⟨false, false, false⟩

mutual
/-- What a declaration denotes. The words of a name are those of its specifiers. -/
inductive Ty where
  | named (quals : Quals) (name : List Text)
  | ptr (quals : Quals) (target : Ty)
  | array (bound : Option Nat) (elem : Ty)
  | func (params : Params) (returning : Ty)

inductive Params where
  | unspecified
  | list (types : Tys) (variadic : Bool)

inductive Tys where
  | nil
  | cons (head : Ty) (tail : Tys)
end

mutual
/-- The type without its ellipses. -/
def Ty.fixed : Ty → Ty
  | .named q name => .named q name
  | .ptr q t => .ptr q t.fixed
  | .array n t => .array n t.fixed
  | .func ps t => .func ps.fixed t.fixed

def Params.fixed : Params → Params
  | .unspecified => .unspecified
  | .list ts _ => .list ts.fixed false

def Tys.fixed : Tys → Tys
  | .nil => .nil
  | .cons t ts => .cons t.fixed ts.fixed
end

mutual
/-- No function of the type takes further arguments. -/
def Ty.Fixed : Ty → Prop
  | .named _ _ => True
  | .ptr _ t => t.Fixed
  | .array _ t => t.Fixed
  | .func ps t => ps.Fixed ∧ t.Fixed

def Params.Fixed : Params → Prop
  | .unspecified => True
  | .list ts variadic => variadic = false ∧ ts.Fixed

def Tys.Fixed : Tys → Prop
  | .nil => True
  | .cons t ts => t.Fixed ∧ ts.Fixed
end

mutual
theorem Ty.fixed_eq_iff : (t : Ty) → (t.fixed = t ↔ t.Fixed)
  | .named q name => by simp [Ty.fixed, Ty.Fixed]
  | .ptr q t => by simp [Ty.fixed, Ty.Fixed, t.fixed_eq_iff]
  | .array n t => by simp [Ty.fixed, Ty.Fixed, t.fixed_eq_iff]
  | .func ps t => by simp [Ty.fixed, Ty.Fixed, t.fixed_eq_iff, ps.fixed_eq_iff]

theorem Params.fixed_eq_iff : (ps : Params) → (ps.fixed = ps ↔ ps.Fixed)
  | .unspecified => by simp [Params.fixed, Params.Fixed]
  | .list ts variadic => by
    cases variadic <;> simp [Params.fixed, Params.Fixed, ts.fixed_eq_iff]

theorem Tys.fixed_eq_iff : (ts : Tys) → (ts.fixed = ts ↔ ts.Fixed)
  | .nil => by simp [Tys.fixed, Tys.Fixed]
  | .cons t ts => by simp [Tys.fixed, Tys.Fixed, t.fixed_eq_iff, ts.fixed_eq_iff]
end

/-! ## Tokens -/

inductive Token where
  | word (w : Text)
  | star
  | lpar
  | rpar
  | lbrack
  | rbrack
  | comma
deriving DecidableEq

/-- The tokens of a character that ends a word: a blank has none. -/
def breaking : Char → Option (List Token)
  | ' ' => some []
  | '*' => some [.star]
  | '(' => some [.lpar]
  | ')' => some [.rpar]
  | '[' => some [.lbrack]
  | ']' => some [.rbrack]
  | ',' => some [.comma]
  | _ => none

def ofWord (w : Text) : List Token := if w = [] then [] else [.word w]

/-- The tokens of a text that follows the part `cur` of a word. -/
def lex (cur : Text) : Text → List Token
  | [] => ofWord cur
  | c :: cs =>
    match breaking c with
    | some ts => ofWord cur ++ ts ++ lex [] cs
    | none => lex (cur ++ [c]) cs

theorem lex_append (cur a b : Text) {c : Char} (ts : List Token) (h : breaking c = some ts) :
    lex cur (a ++ c :: b) = lex cur a ++ ts ++ lex [] b := by
  induction a generalizing cur with
  | nil => simp [lex, h]
  | cons d a ih =>
    rw [List.cons_append, lex, lex]
    split
    · rw [ih]
      simp
    · rw [ih]

theorem lex_cons (b : Text) {c : Char} (ts : List Token) (h : breaking c = some ts) :
    lex [] (c :: b) = ts ++ lex [] b := by
  simpa [lex, ofWord] using lex_append [] [] b ts h

/-- A text without breaking characters is part of one word. -/
theorem lex_of_plain (cur w : Text) (h : ∀ c ∈ w, breaking c = none) :
    lex cur w = ofWord (cur ++ w) := by
  induction w generalizing cur with
  | nil => simp [lex]
  | cons c w ih =>
    simp only [List.mem_cons, forall_eq_or_imp] at h
    rw [lex, h.1]
    dsimp only
    rw [ih _ h.2]
    simp

/-! ## Reading -/

/-- The qualifiers with the one that a word is. -/
def Quals.add (q : Quals) (w : Text) : Option Quals :=
  if w = "const".toList then some { q with const := true }
  else if w = "volatile".toList then some { q with volatile := true }
  else if w = "packed".toList then some { q with packed := true }
  else .none

def readQuals (q : Quals) : List Token → Quals × List Token
  | .word w :: ts =>
    match q.add w with
    | some q' => readQuals q' ts
    | .none => (q, .word w :: ts)
  | ts => (q, ts)

/-- The specifiers: qualifiers and the words of a name in any order. -/
def readSpecs (q : Quals) (name : List Text) : List Token → Quals × List Text × List Token
  | .word w :: ts =>
    match q.add w with
    | some q' => readSpecs q' name ts
    | .none => readSpecs q (name ++ [w]) ts
  | ts => (q, name, ts)

/-- Whether a parenthesis before these tokens is around a declarator. -/
def groups : List Token → Bool
  | .star :: _ | .lpar :: _ | .lbrack :: _ => true
  | _ => false

def readBound (w : Text) : Option Nat :=
  if w ≠ [] ∧ w.all Char.isDigit then some (Nat.ofDigitChars 10 w 0) else .none

/-- The parameter list `(void)` has no parameters. -/
def paramList : Tys → Bool → Params
  | .cons (.named ⟨false, false, false⟩ [['v', 'o', 'i', 'd']]) .nil, false => .list .nil false
  | ts, variadic => .list ts variadic

mutual
/-- A declarator, as what it makes of the type before it, and the tokens behind it. -/
def readDeclarator : Nat → List Token → Option ((Ty → Ty) × List Token)
  | 0, _ => .none
  | n + 1, .star :: ts =>
    let (q, ts) := readQuals .none ts
    (readDeclarator n ts).map fun (f, ts) => (fun t => f (.ptr q t), ts)
  | n + 1, .lpar :: ts =>
    if groups ts then
      match readDeclarator n ts with
      | some (f, .rpar :: ts) => (readSuffixes n ts).map fun (g, ts) => (fun t => f (g t), ts)
      | _ => .none
    else readSuffixes n (.lpar :: ts)
  | n + 1, ts => readSuffixes n ts

/-- The bounds and parameter lists behind a declarator. -/
def readSuffixes : Nat → List Token → Option ((Ty → Ty) × List Token)
  | 0, _ => .none
  | n + 1, .lbrack :: .rbrack :: ts =>
    (readSuffixes n ts).map fun (g, ts) => (fun t => .array .none (g t), ts)
  | n + 1, .lbrack :: .word w :: .rbrack :: ts =>
    match readBound w with
    | some bound => (readSuffixes n ts).map fun (g, ts) => (fun t => .array (some bound) (g t), ts)
    | .none => .none
  | n + 1, .lpar :: .rpar :: ts =>
    (readSuffixes n ts).map fun (g, ts) => (fun t => .func .unspecified (g t), ts)
  | n + 1, .lpar :: ts =>
    match readParams n ts with
    | some (types, variadic, ts) =>
      (readSuffixes n ts).map fun (g, ts) =>
        (fun t => .func (paramList types variadic) (g t), ts)
    | .none => .none
  | _ + 1, ts => some (id, ts)

/-- The declarations of a parameter list, up to its end. -/
def readParams : Nat → List Token → Option (Tys × Bool × List Token)
  | 0, _ => .none
  | n + 1, ts =>
    let (q, name, ts) := readSpecs .none [] ts
    if name = [] then .none
    else
      match readDeclarator n ts with
      | some (f, .rpar :: ts) => some (.cons (f (.named q name)) .nil, false, ts)
      | some (f, .comma :: ts) =>
        if ts.take 2 = [.word "...".toList, .rpar] then
          some (.cons (f (.named q name)) .nil, true, ts.drop 2)
        else
          (readParams n ts).map fun (types, variadic, ts) =>
            (.cons (f (.named q name)) types, variadic, ts)
      | _ => .none
end

/-- The type that a text declares. -/
def readDecl (text : Text) : Option Ty :=
  let (q, name, ts) := readSpecs .none [] (lex [] text)
  if name = [] then .none
  else
    match readDeclarator (2 * ts.length + 2) ts with
    | some (f, []) => some (f (.named q name))
    | _ => .none

/-! ## What is read -/

/-- With enough fuel for its tokens. -/
def ReadsDeclarator (ts : List Token) (f : Ty → Ty) (rest : List Token) : Prop :=
  ∀ n, 2 * ts.length + 2 ≤ n → readDeclarator n ts = some (f, rest)

def ReadsSuffixes (ts : List Token) (g : Ty → Ty) (rest : List Token) : Prop :=
  ∀ n, 2 * ts.length + 1 ≤ n → readSuffixes n ts = some (g, rest)

def ReadsParams (ts : List Token) (types : Tys) (variadic : Bool) (rest : List Token) : Prop :=
  ∀ n, 2 * ts.length + 1 ≤ n → readParams n ts = some (types, variadic, rest)

/-- What may stand behind a declaration. -/
def Ends : List Token → Prop
  | [] | .rpar :: _ | .comma :: _ => True
  | _ => False

/-- No declarator begins with these tokens; suffixes may. -/
def Follows : List Token → Prop
  | .star :: _ => False
  | .lpar :: ts => groups ts = false
  | _ => True

def NoWord : List Token → Prop
  | .word _ :: _ => False
  | _ => True

/-- The tokens are a declarator. -/
structure Declares (ts : List Token) (f : Ty → Ty) : Prop where
  noWord : ∀ rest, Ends rest → NoWord (ts ++ rest)
  reads : ∀ rest, Ends rest → ReadsDeclarator (ts ++ rest) f rest

/-- The tokens are a declarator that suffixes can be added to. -/
structure Direct (ts : List Token) (f : Ty → Ty) : Prop where
  noWord : ∀ rest, NoWord rest → NoWord (ts ++ rest)
  reads : ∀ rest g rest', Follows rest → ReadsSuffixes rest g rest' →
    ReadsDeclarator (ts ++ rest) (fun t => f (g t)) rest'

section
variable {ts rest rest' : List Token} {f g : Ty → Ty}

theorem ReadsSuffixes.of_ends (h : Ends rest) : ReadsSuffixes rest id rest := by
  intro n hn
  obtain ⟨n, rfl⟩ : ∃ k, n = k + 1 := ⟨n - 1, by omega⟩
  match rest, h with
  | [], _ => rfl
  | .rpar :: _, _ => rfl
  | .comma :: _, _ => rfl

theorem Ends.follows (h : Ends rest) : Follows rest := by
  match rest, h with
  | [], _ => trivial
  | .rpar :: _, _ => trivial
  | .comma :: _, _ => trivial

theorem Ends.noWord (h : Ends rest) : NoWord rest := by
  match rest, h with
  | [], _ => trivial
  | .rpar :: _, _ => trivial
  | .comma :: _, _ => trivial

/-- Tokens that no declarator begins with are suffixes of the empty declarator. -/
theorem readDeclarator_of_follows (h : Follows rest) (n : Nat) :
    readDeclarator (n + 1) rest = readSuffixes n rest := by
  match rest, h with
  | [], _ => rfl
  | .lpar :: ts, h =>
    simp only [Follows] at h
    simp [readDeclarator, h]
  | .rpar :: _, _ => rfl
  | .lbrack :: _, _ => rfl
  | .rbrack :: _, _ => rfl
  | .comma :: _, _ => rfl
  | .word _ :: _, _ => rfl

theorem Direct.nil : Direct [] id where
  noWord := fun _ h => h
  reads := by
    intro rest g rest' hfollows hsuffixes n hn
    obtain ⟨n, rfl⟩ : ∃ k, n = k + 1 := ⟨n - 1, by omega⟩
    rw [List.nil_append] at hn ⊢
    rw [readDeclarator_of_follows hfollows]
    exact hsuffixes n (by omega)

theorem Direct.declares (h : Direct ts f) : Declares ts f where
  noWord := fun rest hends => h.noWord rest hends.noWord
  reads := fun rest hends => h.reads rest id rest hends.follows (.of_ends hends)

/-- The tokens of qualifiers. -/
def Quals.tokens (q : Quals) : List Token :=
  (if q.const then [.word "const".toList] else []) ++
    (if q.volatile then [.word "volatile".toList] else []) ++
    (if q.packed then [.word "packed".toList] else [])

theorem length_tokens_le (q : Quals) (ts : List Token) : ts.length ≤ (q.tokens ++ ts).length := by
  simp

theorem readQuals_of_noWord (q : Quals) (h : NoWord ts) : readQuals q ts = (q, ts) := by
  match ts, h with
  | [], _ => rfl
  | .star :: _, _ => rfl
  | .lpar :: _, _ => rfl
  | .rpar :: _, _ => rfl
  | .lbrack :: _, _ => rfl
  | .rbrack :: _, _ => rfl
  | .comma :: _, _ => rfl

theorem readQuals_tokens (q : Quals) (h : NoWord ts) :
    readQuals .none (q.tokens ++ ts) = (q, ts) := by
  obtain ⟨c, v, p⟩ := q
  have hstop (q : Quals) := readQuals_of_noWord q h
  cases c <;> cases v <;> cases p <;>
    simp [Quals.tokens, Quals.none, readQuals, Quals.add, hstop]

/-- A pointer is what the declarator behind it is applied to. -/
theorem Declares.ptr (h : Declares ts f) (q : Quals) :
    Declares (.star :: (q.tokens ++ ts)) (fun t => f (.ptr q t)) where
  noWord := fun _ _ => trivial
  reads := by
    intro rest hends n hn
    obtain ⟨n, rfl⟩ : ∃ k, n = k + 1 := ⟨n - 1, by omega⟩
    have hlen := length_tokens_le q (ts ++ rest)
    rw [List.cons_append, List.append_assoc] at hn ⊢
    rw [List.length_cons] at hn
    rw [readDeclarator, readQuals_tokens q (h.noWord rest hends)]
    dsimp only
    rw [h.reads rest hends n (by omega)]
    rfl

/-- Parentheses around a declarator that begins with a star. -/
theorem Declares.group (h : Declares (.star :: ts) f) :
    Direct (.lpar :: (.star :: ts ++ [.rpar])) f where
  noWord := fun _ _ => trivial
  reads := by
    intro rest g rest' hfollows hsuffixes n hn
    obtain ⟨n, rfl⟩ : ∃ k, n = k + 1 := ⟨n - 1, by omega⟩
    have hinner := h.reads (.rpar :: rest) trivial n (by
      simp only [List.length_cons, List.length_append, List.cons_append] at hn ⊢
      simp only [List.length_nil] at hn
      omega)
    have houter := hsuffixes n (by
      simp only [List.length_cons, List.length_append, List.cons_append] at hn
      omega)
    simp only [List.cons_append, List.append_assoc, List.nil_append] at hinner ⊢
    simp only [readDeclarator, groups, if_true, hinner, houter]
    rfl

/-- A bound, read in the brackets. -/
def boundTokens : Option Nat → List Token
  | .none => []
  | some n => [.word (Nat.toDigits 10 n)]

theorem readBound_toDigits (n : Nat) : readBound (Nat.toDigits 10 n) = some n := by
  have hdigits : (Nat.toDigits 10 n).all Char.isDigit = true := by
    rw [List.all_eq_true]
    intro c hc
    exact Nat.isDigit_of_mem_toDigits (by decide) (by decide) hc
  unfold readBound
  rw [if_pos ⟨Nat.toDigits_ne_nil, hdigits⟩, Nat.ofDigitChars_ten_toDigits]

theorem ReadsSuffixes.array (h : ReadsSuffixes rest g rest') (bound : Option Nat) :
    ReadsSuffixes (.lbrack :: (boundTokens bound ++ .rbrack :: rest))
      (fun t => .array bound (g t)) rest' := by
  intro n hn
  obtain ⟨n, rfl⟩ : ∃ k, n = k + 1 := ⟨n - 1, by omega⟩
  simp only [List.length_cons, List.length_append] at hn
  have hrest := h n (by omega)
  cases bound with
  | none =>
    simp only [boundTokens, List.nil_append, readSuffixes, hrest]
    rfl
  | some bound =>
    simp only [boundTokens, List.cons_append, List.nil_append, readSuffixes,
      readBound_toDigits, hrest]
    rfl

theorem ReadsSuffixes.unspecified (h : ReadsSuffixes rest g rest') :
    ReadsSuffixes (.lpar :: .rpar :: rest) (fun t => .func .unspecified (g t)) rest' := by
  intro n hn
  obtain ⟨n, rfl⟩ : ∃ k, n = k + 1 := ⟨n - 1, by omega⟩
  simp only [List.length_cons] at hn
  simp only [readSuffixes, h n (by omega)]
  rfl

/-- The tokens of a parameter list without its opening parenthesis: they begin with a word. -/
structure ListsParams (ts : List Token) (types : Tys) (variadic : Bool) : Prop where
  word : ∃ w ts', ts = .word w :: ts' ∧ w ≠ "...".toList
  reads : ∀ rest, ReadsParams (ts ++ rest) types variadic rest

theorem ReadsSuffixes.func {types : Tys} {variadic : Bool} (h : ReadsSuffixes rest g rest')
    (hparams : ListsParams ts types variadic) :
    ReadsSuffixes (.lpar :: (ts ++ rest)) (fun t => .func (paramList types variadic) (g t))
      rest' := by
  intro n hn
  obtain ⟨n, rfl⟩ : ∃ k, n = k + 1 := ⟨n - 1, by omega⟩
  simp only [List.length_cons, List.length_append] at hn
  have hreads := hparams.reads rest n (by
    rw [List.length_append]
    omega)
  obtain ⟨w, ts', rfl, -⟩ := hparams.word
  rw [List.cons_append] at hreads ⊢
  rw [readSuffixes]
  · rw [hreads]
    dsimp only
    rw [h n (by omega)]
    rfl
  · intro ts h
    cases h

theorem Direct.suffix {suffix : List Token} {s : Ty → Ty} (h : Direct ts f)
    (hword : ∀ rest, NoWord (suffix ++ rest)) (hfollows : ∀ rest, Follows (suffix ++ rest))
    (hsuffix : ∀ rest g rest', ReadsSuffixes rest g rest' →
      ReadsSuffixes (suffix ++ rest) (fun t => s (g t)) rest') :
    Direct (ts ++ suffix) (fun t => f (s t)) where
  noWord := by
    intro rest _
    rw [List.append_assoc]
    exact h.noWord _ (hword rest)
  reads := by
    intro rest g rest' _ hsuffixes
    rw [List.append_assoc]
    exact h.reads _ _ _ (hfollows rest) (hsuffix rest g rest' hsuffixes)

theorem Direct.array (h : Direct ts f) (bound : Option Nat) :
    Direct (ts ++ .lbrack :: (boundTokens bound ++ [.rbrack])) (fun t => f (.array bound t)) := by
  apply h.suffix
  · intro _
    trivial
  · intro _
    trivial
  · intro rest g rest' hsuffixes
    simpa using hsuffixes.array bound

theorem Direct.unspecified (h : Direct ts f) :
    Direct (ts ++ [.lpar, .rpar]) (fun t => f (.func .unspecified t)) := by
  apply h.suffix
  · intro _
    trivial
  · intro _
    rfl
  · intro rest g rest' hsuffixes
    exact hsuffixes.unspecified

theorem Direct.func {params : List Token} {types : Tys} {variadic : Bool} (h : Direct ts f)
    (hparams : ListsParams params types variadic) :
    Direct (ts ++ .lpar :: params) (fun t => f (.func (paramList types variadic) t)) := by
  obtain ⟨w, ts', hword, -⟩ := hparams.word
  apply h.suffix
  · intro _
    trivial
  · intro _
    rw [hword]
    rfl
  · intro rest g rest' hsuffixes
    exact hsuffixes.func hparams

/-! ## Declarations -/

/-- The words of a name that can stand among specifiers. -/
structure GoodName (name : List Text) : Prop where
  ne_nil : name ≠ []
  plain : ∀ w ∈ name, ∀ q : Quals, q.add w = .none
  notDots : ∀ w ∈ name, w ≠ "...".toList

/-- The tokens declare this type. -/
def IsDecl (ts : List Token) (t : Ty) : Prop :=
  ∃ q name ts' f, ts = q.tokens ++ name.map .word ++ ts' ∧ GoodName name ∧ Declares ts' f ∧
    f (.named q name) = t

theorem readSpecs_of_noWord (q : Quals) (name : List Text) (h : NoWord ts) :
    readSpecs q name ts = (q, name, ts) := by
  match ts, h with
  | [], _ => rfl
  | .star :: _, _ => rfl
  | .lpar :: _, _ => rfl
  | .rpar :: _, _ => rfl
  | .lbrack :: _, _ => rfl
  | .rbrack :: _, _ => rfl
  | .comma :: _, _ => rfl

theorem readSpecs_name (q : Quals) (name name' : List Text) (h : NoWord ts)
    (hplain : ∀ w ∈ name', ∀ q : Quals, q.add w = .none) :
    readSpecs q name (name'.map .word ++ ts) = (q, name ++ name', ts) := by
  induction name' generalizing name with
  | nil => simpa using readSpecs_of_noWord q name h
  | cons w name' ih =>
    simp only [List.mem_cons, forall_eq_or_imp] at hplain
    rw [List.map_cons, List.cons_append, readSpecs, hplain.1 q]
    dsimp only
    rw [ih (name ++ [w]) hplain.2]
    simp

theorem readSpecs_tokens (q : Quals) {name : List Text} (h : NoWord ts)
    (hplain : ∀ w ∈ name, ∀ q : Quals, q.add w = .none) :
    readSpecs .none [] (q.tokens ++ name.map .word ++ ts) = (q, name, ts) := by
  have hname (q : Quals) := readSpecs_name q [] name h hplain
  simp only [List.nil_append] at hname
  obtain ⟨c, v, p⟩ := q
  cases c <;> cases v <;> cases p <;>
    simp [Quals.tokens, Quals.none, readSpecs, Quals.add, hname]

/-- A declaration begins with a word. -/
theorem IsDecl.word {t : Ty} (h : IsDecl ts t) :
    ∃ w ts', ts = .word w :: ts' ∧ w ≠ "...".toList := by
  obtain ⟨⟨c, v, p⟩, name, ts', f, rfl, hname, -, -⟩ := h
  rcases name with _ | ⟨w, name⟩
  · exact absurd rfl hname.ne_nil
  · have hw := hname.notDots w List.mem_cons_self
    cases c <;> cases v <;> cases p
    · exact ⟨w, _, rfl, hw⟩
    all_goals exact ⟨_, _, rfl, by decide⟩

/-- The specifiers and the declarator of a declaration in front of what ends it. -/
theorem IsDecl.reads {t : Ty} (h : IsDecl ts t) (rest : List Token) (hends : Ends rest) :
    ∃ q name ts' f, readSpecs .none [] (ts ++ rest) = (q, name, ts') ∧ name ≠ [] ∧
      ts'.length < (ts ++ rest).length ∧ ReadsDeclarator ts' f rest ∧ f (.named q name) = t := by
  obtain ⟨q, name, ts', f, rfl, hname, hdecl, rfl⟩ := h
  refine ⟨q, name, ts' ++ rest, f, ?_, hname.ne_nil, ?_, hdecl.reads rest hends, rfl⟩
  · rw [List.append_assoc]
    exact readSpecs_tokens q (hdecl.noWord rest hends) hname.plain
  · have hpos := List.length_pos_iff.mpr hname.ne_nil
    simp only [List.length_append, List.length_map]
    omega

theorem ListsParams.last {t : Ty} (h : IsDecl ts t) :
    ListsParams (ts ++ [.rpar]) (.cons t .nil) false where
  word := by
    obtain ⟨w, ts', rfl, hw⟩ := h.word
    exact ⟨w, _, rfl, hw⟩
  reads := by
    intro rest n hn
    obtain ⟨n, rfl⟩ : ∃ k, n = k + 1 := ⟨n - 1, by omega⟩
    obtain ⟨q, name, ts', f, hspecs, hname, hlen, hdecl, rfl⟩ := h.reads (.rpar :: rest) trivial
    rw [List.append_assoc, List.cons_append, List.nil_append] at hn ⊢
    rw [readParams, hspecs]
    dsimp only
    rw [if_neg hname, hdecl n (by omega)]

theorem ListsParams.cons {t : Ty} {params : List Token} {types : Tys} {variadic : Bool}
    (h : IsDecl ts t) (hparams : ListsParams params types variadic) :
    ListsParams (ts ++ .comma :: params) (.cons t types) variadic where
  word := by
    obtain ⟨w, ts', rfl, hw⟩ := h.word
    exact ⟨w, _, rfl, hw⟩
  reads := by
    intro rest n hn
    obtain ⟨n, rfl⟩ : ∃ k, n = k + 1 := ⟨n - 1, by omega⟩
    obtain ⟨q, name, ts', f, hspecs, hname, hlen, hdecl, rfl⟩ :=
      h.reads (.comma :: (params ++ rest)) trivial
    have hrest := hparams.reads rest n (by
      simp only [List.length_append, List.length_cons] at hn ⊢
      omega)
    obtain ⟨w, params, rfl, hw⟩ := hparams.word
    have hdots : ¬ (.word w :: params ++ rest).take 2 = [.word "...".toList, .rpar] := by
      intro htake
      apply hw
      simpa using (List.cons.inj htake).1
    rw [List.append_assoc, List.cons_append] at hn ⊢
    rw [readParams, hspecs]
    dsimp only
    rw [if_neg hname, hdecl n (by omega)]
    dsimp only
    rw [if_neg hdots, hrest]
    rfl

theorem IsDecl.readDecl {text : Text} {t : Ty} (h : IsDecl (lex [] text) t) :
    readDecl text = some t := by
  obtain ⟨q, name, ts', f, hspecs, hname, -, hdecl, rfl⟩ := h.reads [] trivial
  rw [List.append_nil] at hspecs
  unfold abstract_decls.readDecl
  rw [hspecs]
  dsimp only
  rw [if_neg hname, hdecl _ (Nat.le_refl _)]

end

/-- The suffixes of a declarator bind tighter than its star. -/
example : readDecl "const char *(*)(int, ...)".toList = some (.ptr .none (.func
    (.list (.cons (.named .none ["int".toList]) .nil) true)
    (.ptr .none (.named ⟨true, false, false⟩ ["char".toList])))) := rfl

end abstract_decls
