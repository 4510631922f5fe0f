-- Quoting of a word of a command line (arg_quote.c): quotes go, and metacharacters that are not
-- quoted become patterns, in a buffer that is kept from call to call.
import Mathlib.Algebra.Ring.Int.Defs
import Mathlib.Algebra.Ring.Nat
import Mathlib.Data.List.Basic
import Mathlib.Logic.Function.Basic
import Mathlib.Tactic.Common

namespace ups_rules.arg_quote

/-! ## The pure model -/

abbrev Byte := BitVec 8

def byte (c : Char) : Byte := BitVec.ofNat 8 c.toNat

def backslash : Byte := 92#8
def singleQuote : Byte := 39#8
def doubleQuote : Byte := 34#8
def openBrace : Byte := 123#8
def closeBrace : Byte := 125#8

def SEQMAPSIZE : Nat := 128 / 7 + 1

/-- The most that `translate_globchar` puts out. -/
def MAX_TG_LEN : Nat := SEQMAPSIZE + 1

def PAT_STAR : Byte := 1#8
def PAT_QUERY : Byte := 2#8
def PAT_SEQ : Byte := 3#8
def PAT_OPENBR : Byte := 4#8
def PAT_CLOSEBR : Byte := 5#8
def PAT_COMMA : Byte := 6#8
def PAT_TWIDDLE : Byte := 7#8

/-- Where in the buffer a byte was stored, and how large the buffer was then. -/
structure Store where
  index : Int
  size : Nat

structure Buffer where
  obuf : Int → Byte
  obuf_size : Nat
  stores : List Store

def Buffer.store (b : Buffer) (index : Int) (c : Byte) : Buffer :=
  { b with
    obuf := Function.update b.obuf index c
    stores := ⟨index, b.obuf_size⟩ :: b.stores }

/-- `SETSEQ`; C rounds towards zero, and a shift takes its count modulo 32. -/
def Buffer.setSeq (b : Buffer) (s i : Int) : Buffer :=
  b.store (s + i.tdiv 7)
    (b.obuf (s + i.tdiv 7) ||| (1#32 <<< (i.tmod 7 % 32).toNat).setWidth 8)

/-- All from one number to another. -/
def between (low high : Int) : List Int :=
  (List.range (high + 1 - low).toNat).map fun i : Nat => low + i

/-- The loop of `compile_seq`: the characters that it sets, each a signed `char`, and where it stops.
The byte before the list is `prev`, and behind it are NULs. -/
def seqMembers (prev : Byte) : List Byte → List Int × List Byte
  | [] => ([], [])
  | [c] =>
    if c = byte ']' ∨ c = 0#8 then ([], [c])
    else if c = byte '-' then (between (prev.toInt + 1) 0, [])
    else ([c.toInt], [])
  | c :: d :: rest =>
    if c = byte ']' ∨ c = 0#8 then ([], c :: d :: rest)
    else if c = byte '-' ∧ d ≠ byte ']' then
      let r := seqMembers d rest
      (between (prev.toInt + 1) d.toInt ++ r.1, r.2)
    else if c = backslash ∧ d ≠ 0#8 then
      let r := seqMembers d rest
      (d.toInt :: r.1, r.2)
    else
      let r := seqMembers c (d :: rest)
      (c.toInt :: r.1, r.2)

/-- What the set at `s` means: whether it is the complement, its characters, and what stands behind
it, if it is closed. -/
def seqOf (s : List Byte) : Bool × List Int × Option (List Byte) :=
  let negated := s.head? == some (byte '^')
  let r := if negated then seqMembers (byte '^') s.tail else seqMembers (byte '[') s
  (negated, r.1, if r.2.head? = some (byte ']') then some r.2.tail else none)

def compileSeq (b : Buffer) (buf : Int) (s : List Byte) : Option (List Byte) × Buffer :=
  let b := (List.range SEQMAPSIZE).reverse.foldl (fun b (i : Nat) => b.store (buf + i) 128#8) b
  let (negated, members, rest) := seqOf s
  let b := members.foldl (fun b (i : Int) => b.setSeq buf i) b
  match rest with
  | none => (none, b)
  | some rest =>
    (some rest, if negated then
      (List.range SEQMAPSIZE).foldl
        (fun b (i : Nat) => b.store (buf + i) (b.obuf (buf + i) ^^^ 127#8)) b
    else b)

/-- The place in the text and in the buffer, unless there is an error, and `*p_brace_level`. -/
structure Translation where
  place : Except String (List Byte × Nat)
  brace_level : Int
  buffer : Buffer

def translateGlobchar (b : Buffer) (c : Byte) (src : List Byte) (dst : Nat) (brace_level : Int) :
    Translation :=
  if c = byte '[' then
    let b := b.store dst PAT_SEQ
    if src[1]? = some (byte ']') then ⟨.error "empty [] pair", brace_level, b⟩
    else match compileSeq b (dst + 1 : Nat) src with
      | (none, b) => ⟨.error "unmatched [", brace_level, b⟩
      | (some src, b) => ⟨.ok (src, dst + 1 + SEQMAPSIZE), brace_level, b⟩
  else if c = byte ']' then ⟨.ok (src, dst + 1), brace_level, b.store dst (byte ']')⟩
  else if c = byte ',' then
    ⟨.ok (src, dst + 1), brace_level, b.store dst (if 0 < brace_level then PAT_COMMA else byte ',')⟩
  else if c = openBrace then ⟨.ok (src, dst + 1), brace_level + 1, b.store dst PAT_OPENBR⟩
  else if c = closeBrace then
    let b := b.store dst PAT_CLOSEBR
    if brace_level - 1 < 0 then ⟨.error "unmatched \x7d", brace_level - 1, b⟩
    else ⟨.ok (src, dst + 1), brace_level - 1, b⟩
  else if c = byte '?' then ⟨.ok (src, dst + 1), brace_level, b.store dst PAT_QUERY⟩
  else if c = byte '*' then ⟨.ok (src, dst + 1), brace_level, b.store dst PAT_STAR⟩
  else if c = byte '~' then ⟨.ok (src, dst + 1), brace_level, b.store dst PAT_TWIDDLE⟩
  else ⟨.error "unknown glob char in tg", brace_level, b⟩

/-- The metacharacters that are to be converted; for another one `translate_globchar` panics. -/
structure GlobChars where
  chars : List Byte
  legal : ∀ c ∈ chars, c ∈ "[]~\x7b,\x7d*?".toList.map byte

/-- The variables of the loop that say how the text is read. -/
structure Control where
  iptr : List Byte
  quotec : Byte
  just_had_backslash : Bool
  brace_level : Int

/-- The buffer grows when `optr` is `olim`. -/
def Buffer.grow (b : Buffer) (optr : Nat) : Buffer :=
  if optr = b.obuf_size - (MAX_TG_LEN + 1) then { b with obuf_size := b.obuf_size * 2 } else b

structure LoopEnd where
  error : Option String
  control : Control
  optr : Nat
  buffer : Buffer

/-- The loop of `arg_do_quoting`, for at most so many turns. -/
def quoteLoop (special_chars glob_chars : List Byte) : Nat → Control → Nat → Buffer → LoopEnd
  | 0, c, optr, b => ⟨none, c, optr, b⟩
  | fuel + 1, c, optr, b =>
    match c.iptr with
    | [] => ⟨none, c, optr, b⟩
    | ch :: rest =>
      if ch = 0#8 then ⟨none, c, optr, b⟩
      else
        let b := b.grow optr
        if c.just_had_backslash then
          quoteLoop special_chars glob_chars fuel
            { c with iptr := rest, just_had_backslash := false } (optr + 1) (b.store optr ch)
        else if ch = backslash then
          quoteLoop special_chars glob_chars fuel { c with iptr := rest, just_had_backslash := true }
            optr b
        else if ch = c.quotec then
          quoteLoop special_chars glob_chars fuel { c with iptr := rest, quotec := 0#8 } optr b
        else if c.quotec = 0#8 ∧ (ch = singleQuote ∨ ch = doubleQuote) then
          quoteLoop special_chars glob_chars fuel { c with iptr := rest, quotec := ch } optr b
        else if c.quotec = 0#8 ∧ ch ∈ special_chars then ⟨none, c, optr, b⟩
        else if c.quotec = 0#8 ∧ ch ∈ glob_chars then
          let t := translateGlobchar b ch rest optr c.brace_level
          match t.place with
          | .error message =>
            ⟨some message, { c with brace_level := t.brace_level }, optr, t.buffer⟩
          | .ok (src, dst) =>
            quoteLoop special_chars glob_chars fuel
              { c with iptr := src, brace_level := t.brace_level } dst t.buffer
        else
          quoteLoop special_chars glob_chars fuel { c with iptr := rest } (optr + 1) (b.store optr ch)

def specialChars (no_special_chars : Bool) : List Byte :=
  if no_special_chars then [] else ";&()|^<>\n \t".toList.map byte

def illegalChars : List Byte := ";&()|^".toList.map byte

/-- A call; `text` are the bytes from `*p_s` on, also those behind its NUL. -/
structure Call where
  text : List Byte
  glob_chars : GlobChars
  no_special_chars : Bool

def Call.start (call : Call) : Control := ⟨call.text, 0#8, false, 0⟩

/-- What is left of the text, or an error. The word is in the buffer. -/
def argDoQuoting (b : Buffer) (call : Call) : Except String (List Byte) × Buffer :=
  let b := if b.obuf_size = 0 then { b with obuf_size := 64 } else b
  let r := quoteLoop (specialChars call.no_special_chars) call.glob_chars.chars call.text.length
    call.start 0 b
  let b := r.buffer.store r.optr 0#8
  let res : Except String (List Byte) :=
    match r.error with
    | some message => .error message
    | none =>
      if 0 < r.control.brace_level then .error "unmatched \x7b"
      else if r.control.quotec ≠ 0#8 then
        .error ("unmatched '" ++ toString (Char.ofNat r.control.quotec.toNat) ++ "'")
      else if r.control.just_had_backslash then .error "missing character following '\\'"
      else match r.control.iptr with
        | [] => .ok []
        | ch :: rest =>
          if ch ∈ illegalChars then
            .error ("'" ++ toString (Char.ofNat ch.toNat) ++ "' illegal in command line")
          else .ok (ch :: rest)
  (res, b)

def run (b : Buffer) : List Call → Buffer
  | [] => b
  | call :: calls => run (argDoQuoting b call).2 calls

/-- `static char *obuf; static size_t obuf_size = 0` -/
def initial (garbage : Int → Byte) : Buffer := ⟨garbage, 0, []⟩

/-! ## What the text puts out -/

/-- A turn of the loop goes on by so many bytes in the buffer. Of the bytes from there on it stores
`extent`, and none that is more than `-low` before. -/
structure Piece where
  advance : Nat
  extent : Nat
  low : Int

def plain : Piece := ⟨1, 1, 0⟩

/-- The bytes of a set are stored in front of its map for the characters from 128 on. -/
def lowOf (members : List Int) : Int := (members.map fun i => 1 + i.tdiv 7).foldr min 0

/-- What a metacharacter puts out, and the text and the level behind it, unless there is an error. -/
def globPiece (c : Byte) (src : List Byte) (brace_level : Int) :
    Piece × Option (List Byte × Int) :=
  if c = byte '[' then
    if src[1]? = some (byte ']') then (⟨0, 1, 0⟩, none)
    else match seqOf src with
      | (_, members, none) => (⟨0, MAX_TG_LEN, lowOf members⟩, none)
      | (_, members, some rest) => (⟨MAX_TG_LEN, MAX_TG_LEN, lowOf members⟩, some (rest, brace_level))
  else if c = openBrace then (plain, some (src, brace_level + 1))
  else if c = closeBrace then
    if brace_level - 1 < 0 then (⟨0, 1, 0⟩, none) else (plain, some (src, brace_level - 1))
  else (plain, some (src, brace_level))

/-- What the next turn puts out, and how the one behind it starts, if there is one. -/
def nextPiece (special_chars glob_chars : List Byte) (c : Control) :
    Option (Piece × Option Control) :=
  match c.iptr with
  | [] => none
  | ch :: rest =>
    if ch = 0#8 then none
    else if c.just_had_backslash then
      some (plain, some { c with iptr := rest, just_had_backslash := false })
    else if ch = backslash then
      some (⟨0, 0, 0⟩, some { c with iptr := rest, just_had_backslash := true })
    else if ch = c.quotec then some (⟨0, 0, 0⟩, some { c with iptr := rest, quotec := 0#8 })
    else if c.quotec = 0#8 ∧ (ch = singleQuote ∨ ch = doubleQuote) then
      some (⟨0, 0, 0⟩, some { c with iptr := rest, quotec := ch })
    else if c.quotec = 0#8 ∧ ch ∈ special_chars then some (⟨0, 0, 0⟩, none)
    else if c.quotec = 0#8 ∧ ch ∈ glob_chars then
      let p := globPiece ch rest c.brace_level
      some (p.1, p.2.map fun q => { c with iptr := q.1, brace_level := q.2 })
    else some (plain, some { c with iptr := rest })

/-- What the text of a call puts out, turn by turn. -/
def pieces (special_chars glob_chars : List Byte) : Nat → Control → List Piece
  | 0, _ => []
  | fuel + 1, c =>
    match nextPiece special_chars glob_chars c with
    | none => []
    | some (x, none) => [x]
    | some (x, some c) => x :: pieces special_chars glob_chars fuel c

def Call.pieces (call : Call) : List Piece :=
  arg_quote.pieces (specialChars call.no_special_chars) call.glob_chars.chars call.text.length
    call.start

/-- How many bytes are in the buffer when the turns start, when there are `p` at first. -/
def heads (p : Nat) : List Piece → List Nat
  | [] => []
  | x :: xs => p :: heads (p + x.advance) xs

/-- How large the buffer has to be for all that is stored, and for the NUL. -/
def need (p : Nat) : List Piece → Nat
  | [] => p + 1
  | x :: xs => max (p + x.extent) (need (p + x.advance) xs)

/-- The size after the turns. -/
def sizeAfter (size : Nat) (heads : List Nat) : Nat :=
  heads.foldl (fun size p => if p = size - (MAX_TG_LEN + 1) then size * 2 else size) size

/-- As often as the buffer of this size is to be doubled before it has what is needed, a turn starts
where that is done. -/
def Fits (size p : Nat) (xs : List Piece) : Prop :=
  ∃ j, (∀ i < j, size * 2 ^ i - (MAX_TG_LEN + 1) ∈ heads p xs) ∧ need p xs ≤ size * 2 ^ j

/-- The size that the buffer has when a call starts. -/
def sizeBefore (size : Nat) : Nat := if size = 0 then 64 else size

/-- Every call fits the buffer that the ones before it leave. -/
def EachFits (size : Nat) : List Call → Prop
  | [] => True
  | call :: calls => Fits (sizeBefore size) 0 call.pieces ∧
      EachFits (sizeAfter (sizeBefore size) (heads 0 call.pieces)) calls

/-- No set stores in front of the buffer. -/
def Behind (p : Nat) : List Piece → Prop
  | [] => True
  | x :: xs => 0 ≤ p + x.low ∧ Behind (p + x.advance) xs

/-! ## Stores -/

/-- A part of the run stores what the piece says, from the place `p` on. -/
structure Writes (b b' : Buffer) (p : Nat) (x : Piece) : Prop where
  size : b'.obuf_size = b.obuf_size
  stores : ∃ new, b'.stores = new ++ b.stores ∧
    ((∀ st ∈ new, st.index < st.size) ↔ (0 < x.extent → p + x.extent ≤ b.obuf_size)) ∧
    ((∀ st ∈ new, 0 ≤ st.index) ↔ 0 ≤ p + x.low)

section
variable {b b' : Buffer} {p : Nat} {x : Piece} {c : Byte} {src : List Byte} {brace_level : Int}

theorem writes_of (new : List Store) (hsize : b'.obuf_size = b.obuf_size)
    (hnew : b'.stores = new ++ b.stores) (hnone : x.extent = 0 → new = [])
    (hall : ∀ st ∈ new, st.size = b.obuf_size ∧ st.index < p + x.extent ∧ p + x.low ≤ st.index)
    (htop : 0 < x.extent → ∃ st ∈ new, st.index + 1 = p + x.extent)
    (hlow : x.low = 0 ∨ ∃ st ∈ new, st.index = p + x.low) : Writes b b' p x := by
  refine ⟨hsize, new, hnew, ⟨fun h hpos => ?_, fun h st hst => ?_⟩, fun h => ?_, fun h st hst => ?_⟩
  · obtain ⟨st, hst, htop⟩ := htop hpos
    have hlt := h st hst
    have hsize' := (hall st hst).1
    omega
  · rcases Nat.eq_zero_or_pos x.extent with hzero | hpos
    · rw [hnone hzero] at hst
      cases hst
    · obtain ⟨hsize', hlt, -⟩ := hall st hst
      have hroom := h hpos
      omega
  · rcases hlow with hzero | ⟨st, hst, heq⟩
    · omega
    · rw [← heq]
      exact h st hst
  · have hle := (hall st hst).2.2
    omega

theorem writes_none (b : Buffer) (p : Nat) : Writes b b p ⟨0, 0, 0⟩ :=
  writes_of [] rfl (List.nil_append _).symm (fun _ => rfl) (fun _ h => nomatch h)
    (fun h => absurd h (Nat.lt_irrefl 0)) (.inl rfl)

theorem writes_store (b : Buffer) (p advance : Nat) (c : Byte) :
    Writes b (b.store p c) p ⟨advance, 1, 0⟩ := by
  refine writes_of [⟨p, b.obuf_size⟩] rfl rfl (fun h => absurd h Nat.one_ne_zero) ?_ ?_ (.inl rfl)
  · intro st hst
    rw [List.mem_singleton.1 hst]
    refine ⟨rfl, ?_, ?_⟩
    · dsimp only
      omega
    · dsimp only
      omega
  · exact fun _ => ⟨_, List.mem_singleton_self _, rfl⟩

/-- A run of stores, one for each element of a list. -/
theorem foldl_stores {α : Type} (f : α → Int) (g : Buffer → α → Byte) (l : List α) (b : Buffer) :
    (l.foldl (fun b i => b.store (f i) (g b i)) b).obuf_size = b.obuf_size ∧
      ∃ new, (l.foldl (fun b i => b.store (f i) (g b i)) b).stores = new ++ b.stores ∧
        (∀ st ∈ new, st.size = b.obuf_size ∧ ∃ i ∈ l, st.index = f i) ∧
        ∀ i ∈ l, ∃ st ∈ new, st.index = f i := by
  induction l generalizing b with
  | nil =>
    exact ⟨rfl, [], rfl, fun _ h => absurd h List.not_mem_nil, fun _ h => absurd h List.not_mem_nil⟩
  | cons a l ih =>
    obtain ⟨hsize, new, hnew, hall, hevery⟩ := ih (b.store (f a) (g b a))
    refine ⟨hsize, new ++ [⟨f a, b.obuf_size⟩], ?_, fun st hst => ?_, fun i hi => ?_⟩
    · rw [List.foldl_cons, hnew, List.append_assoc]
      rfl
    · rcases List.mem_append.1 hst with hst | hst
      · obtain ⟨hsize', i, hi, heq⟩ := hall st hst
        exact ⟨hsize', i, List.mem_cons_of_mem a hi, heq⟩
      · rw [List.mem_singleton.1 hst]
        exact ⟨rfl, a, List.mem_cons_self, rfl⟩
    · rcases List.mem_cons.1 hi with rfl | hi
      · exact ⟨_, List.mem_append_right _ (List.mem_singleton_self _), rfl⟩
      · obtain ⟨st, hst, heq⟩ := hevery i hi
        exact ⟨st, List.mem_append_left _ hst, heq⟩

theorem toInt_le (c : Byte) : c.toInt ≤ 127 := by
  have hlt : c.toInt < 2 ^ 7 := BitVec.toInt_lt
  omega

theorem le_of_mem_between {low high i : Int} (h : i ∈ between low high) : i ≤ high := by
  obtain ⟨k, hk, rfl⟩ := List.mem_map.1 h
  have := List.mem_range.1 hk
  omega

theorem mem_seqMembers_le (prev : Byte) (s : List Byte) : ∀ i ∈ (seqMembers prev s).1, i ≤ 127 := by
  induction hn : s.length using Nat.strongRecOn generalizing prev s with
  | ind n ih =>
    subst hn
    intro i hi
    match s with
    | [] => exact absurd hi List.not_mem_nil
    | [c] =>
      rw [seqMembers] at hi
      split_ifs at hi
      · exact absurd hi List.not_mem_nil
      · have := le_of_mem_between hi
        omega
      · rw [List.mem_singleton.1 hi]
        exact toInt_le c
    | c :: d :: rest =>
      simp only [List.length_cons] at ih
      rw [seqMembers] at hi
      split_ifs at hi
      · exact absurd hi List.not_mem_nil
      · rcases List.mem_append.1 hi with hi | hi
        · exact Int.le_trans (le_of_mem_between hi) (toInt_le d)
        · exact ih rest.length (by omega) d rest rfl i hi
      · rcases List.mem_cons.1 hi with rfl | hi
        · exact toInt_le d
        · exact ih rest.length (by omega) d rest rfl i hi
      · rcases List.mem_cons.1 hi with rfl | hi
        · exact toInt_le c
        · exact ih (rest.length + 1) (by omega) c (d :: rest) rfl i hi

theorem mem_seqOf_le (s : List Byte) : ∀ i ∈ (seqOf s).2.1, i ≤ 127 := by
  unfold seqOf
  dsimp only
  split
  · exact mem_seqMembers_le _ _
  · exact mem_seqMembers_le _ _

theorem lowOf_le {members : List Int} {i : Int} (h : i ∈ members) : lowOf members ≤ 1 + i.tdiv 7 := by
  induction members with
  | nil => cases h
  | cons a members ih =>
    unfold lowOf at ih ⊢
    rw [List.map_cons, List.foldr_cons]
    rcases List.mem_cons.1 h with rfl | h
    · exact Int.min_le_left _ _
    · exact Int.le_trans (Int.min_le_right _ _) (ih h)

theorem lowOf_nonpos (members : List Int) : lowOf members ≤ 0 := by
  induction members with
  | nil => exact Int.le_refl 0
  | cons a members ih =>
    unfold lowOf at ih ⊢
    rw [List.map_cons, List.foldr_cons]
    exact Int.le_trans (Int.min_le_right _ _) ih

theorem lowOf_reached (members : List Int) :
    lowOf members = 0 ∨ ∃ i ∈ members, lowOf members = 1 + i.tdiv 7 := by
  induction members with
  | nil => exact .inl rfl
  | cons a members ih =>
    unfold lowOf at ih ⊢
    rw [List.map_cons, List.foldr_cons]
    rcases Int.le_total (1 + a.tdiv 7) ((members.map fun i => 1 + i.tdiv 7).foldr min 0) with h | h
    · exact .inr ⟨a, List.mem_cons_self, Int.min_eq_left h⟩
    · rw [Int.min_eq_right h]
      exact ih.imp_right fun ⟨i, hi, heq⟩ => ⟨i, List.mem_cons_of_mem a hi, heq⟩


/-- The one buffer is the other with these stores. -/
structure Stored (b b' : Buffer) (new : List Store) : Prop where
  size : b'.obuf_size = b.obuf_size
  stores : b'.stores = new ++ b.stores

theorem Stored.append {b b' b'' : Buffer} {new new' : List Store} (h : Stored b b' new)
    (h' : Stored b' b'' new') : Stored b b'' (new' ++ new) :=
  ⟨h'.size.trans h.size, by rw [h'.stores, h.stores, List.append_assoc]⟩

/-- The stores of a pass over the map. -/
theorem map_stores (l : List Nat) (hl : ∀ i, i ∈ l ↔ i < SEQMAPSIZE) (g : Buffer → Nat → Byte)
    (b : Buffer) (buf : Int) :
    ∃ new, Stored b (l.foldl (fun b (i : Nat) => b.store (buf + i) (g b i)) b) new ∧
      (∀ st ∈ new, st.size = b.obuf_size ∧ st.index < buf + SEQMAPSIZE ∧ buf ≤ st.index) ∧
      ∃ st ∈ new, st.index + 1 = buf + SEQMAPSIZE := by
  obtain ⟨hsize, new, hnew, hall, hevery⟩ := foldl_stores (fun i : Nat => buf + i) g l b
  refine ⟨new, ⟨hsize, hnew⟩, fun st hst => ?_, ?_⟩
  · obtain ⟨hsize', i, hi, heq⟩ := hall st hst
    have hlt := (hl i).1 hi
    rw [heq]
    exact ⟨hsize', by omega, by omega⟩
  · obtain ⟨st, hst, heq⟩ := hevery (SEQMAPSIZE - 1) ((hl _).2 (by decide))
    refine ⟨st, hst, ?_⟩
    rw [heq]
    unfold SEQMAPSIZE
    omega

theorem tdiv_lt {i : Int} (h : i ≤ 127) : i.tdiv 7 < SEQMAPSIZE := by
  have hle : i.tdiv 7 ≤ (127 : Int).tdiv 7 := Int.tdiv_le_tdiv (by decide) h
  exact Int.lt_of_le_of_lt hle (by decide)

/-- The stores of the characters of a set. -/
theorem members_stores (members : List Int) (hle : ∀ i ∈ members, i ≤ 127) (b : Buffer) (buf : Int) :
    ∃ new, Stored b (members.foldl (fun b (i : Int) => b.setSeq buf i) b) new ∧
      (∀ st ∈ new, st.size = b.obuf_size ∧ st.index < buf + SEQMAPSIZE ∧
        buf - 1 + lowOf members ≤ st.index) ∧
      (lowOf members = 0 ∨ ∃ st ∈ new, st.index = buf - 1 + lowOf members) := by
  obtain ⟨hsize, new, hnew, hall, hevery⟩ := foldl_stores (fun i : Int => buf + i.tdiv 7)
    (fun b i => b.obuf (buf + i.tdiv 7) ||| (1#32 <<< (i.tmod 7 % 32).toNat).setWidth 8) members b
  refine ⟨new, ⟨hsize, hnew⟩, fun st hst => ?_, ?_⟩
  · obtain ⟨hsize', i, hi, heq⟩ := hall st hst
    have hlt := tdiv_lt (hle i hi)
    have hlow := lowOf_le hi
    rw [heq]
    exact ⟨hsize', by omega, by omega⟩
  · rcases lowOf_reached members with hzero | ⟨i, hi, heq⟩
    · exact .inl hzero
    · obtain ⟨st, hst, hat⟩ := hevery i hi
      exact .inr ⟨st, hst, by omega⟩

theorem compileSeq_stores (b : Buffer) (buf : Int) (s : List Byte) :
    (compileSeq b buf s).1 = (seqOf s).2.2 ∧
      ∃ new, Stored b (compileSeq b buf s).2 new ∧
        (∀ st ∈ new, st.size = b.obuf_size ∧ st.index < buf + SEQMAPSIZE ∧
          buf - 1 + lowOf (seqOf s).2.1 ≤ st.index) ∧
        (∃ st ∈ new, st.index + 1 = buf + SEQMAPSIZE) ∧
        (lowOf (seqOf s).2.1 = 0 ∨ ∃ st ∈ new, st.index = buf - 1 + lowOf (seqOf s).2.1) := by
  have hle := mem_seqOf_le s
  unfold compileSeq
  generalize seqOf s = m at hle ⊢
  obtain ⟨negated, members, rest⟩ := m
  dsimp only at hle ⊢
  have hnonpos := lowOf_nonpos members
  obtain ⟨new₁, hstored₁, hall₁, htop⟩ := map_stores (List.range SEQMAPSIZE).reverse
    (fun i => by rw [List.mem_reverse, List.mem_range]) (fun _ _ => 128#8) b buf
  generalize (List.range SEQMAPSIZE).reverse.foldl (fun b (i : Nat) => b.store (buf + i) 128#8) b
    = b₁ at hstored₁
  obtain ⟨new₂, hstored₂, hall₂, hlow⟩ := members_stores members hle b₁ buf
  generalize members.foldl (fun b (i : Int) => b.setSeq buf i) b₁ = b₂ at hstored₂
  -- the pass over the map of a complement may be missing
  have hfinish : ∀ b₃ new₃, Stored b₂ b₃ new₃ →
      (∀ st ∈ new₃, st.size = b₂.obuf_size ∧ st.index < buf + SEQMAPSIZE ∧ buf ≤ st.index) →
      ∃ new, Stored b b₃ new ∧
        (∀ st ∈ new, st.size = b.obuf_size ∧ st.index < buf + SEQMAPSIZE ∧
          buf - 1 + lowOf members ≤ st.index) ∧
        (∃ st ∈ new, st.index + 1 = buf + SEQMAPSIZE) ∧
        (lowOf members = 0 ∨ ∃ st ∈ new, st.index = buf - 1 + lowOf members) := by
    intro b₃ new₃ hstored₃ hall₃
    refine ⟨_, (hstored₁.append hstored₂).append hstored₃, fun st hst => ?_, ?_, ?_⟩
    · rcases List.mem_append.1 hst with hst | hst
      · obtain ⟨hsize, hlt, hge⟩ := hall₃ st hst
        exact ⟨by rw [hsize, hstored₂.size, hstored₁.size], hlt, by omega⟩
      rcases List.mem_append.1 hst with hst | hst
      · obtain ⟨hsize, hlt, hge⟩ := hall₂ st hst
        exact ⟨by rw [hsize, hstored₁.size], hlt, hge⟩
      · obtain ⟨hsize, hlt, hge⟩ := hall₁ st hst
        exact ⟨hsize, hlt, by omega⟩
    · obtain ⟨st, hst, heq⟩ := htop
      exact ⟨st, List.mem_append_right _ (List.mem_append_right _ hst), heq⟩
    · refine hlow.imp_right fun ⟨st, hst, heq⟩ => ⟨st, ?_, heq⟩
      exact List.mem_append_right _ (List.mem_append_left _ hst)
  have hnothing := hfinish b₂ [] ⟨rfl, (List.nil_append _).symm⟩ fun _ h => absurd h List.not_mem_nil
  cases rest with
  | none => exact ⟨rfl, hnothing⟩
  | some rest =>
    refine ⟨rfl, ?_⟩
    cases negated with
    | false => exact hnothing
    | true =>
      obtain ⟨new₃, hstored₃, hall₃, -⟩ := map_stores (List.range SEQMAPSIZE)
        (fun _ => List.mem_range) (fun b i => b.obuf (buf + i) ^^^ 127#8) b₂ buf
      exact hfinish _ new₃ hstored₃ hall₃

/-! ## Turns of the loop -/

/-- What a metacharacter stores, and where it leaves the text and the buffer. -/
structure Translates (t : Translation) (b : Buffer) (dst : Nat) (p : Piece × Option (List Byte × Int)) :
    Prop where
  writes : Writes b t.buffer dst p.1
  extent : p.1.extent ≤ MAX_TG_LEN
  failed : p.2 = none → p.1.advance = 0 ∧ ∃ message, t.place = .error message
  goes : ∀ q, p.2 = some q → t.place = .ok (q.1, dst + p.1.advance) ∧ t.brace_level = q.2

/-- A metacharacter that is one byte in the buffer. -/
theorem translates_store (b : Buffer) (dst : Nat) (c : Byte) (src : List Byte) (brace_level : Int) :
    Translates ⟨.ok (src, dst + 1), brace_level, b.store dst c⟩ b dst
      (plain, some (src, brace_level)) where
  writes := writes_store b dst 1 c
  extent := Nat.le_add_left 1 SEQMAPSIZE
  failed := fun h => nomatch h
  goes := fun q h => by
    cases h
    exact ⟨rfl, rfl⟩

/-- One that is in error stays in the buffer. -/
theorem translates_error (b : Buffer) (dst : Nat) (c : Byte) (message : String) (brace_level : Int) :
    Translates ⟨.error message, brace_level, b.store dst c⟩ b dst (⟨0, 1, 0⟩, none) where
  writes := writes_store b dst 0 c
  extent := Nat.le_add_left 1 SEQMAPSIZE
  failed := fun _ => ⟨rfl, message, rfl⟩
  goes := fun _ h => nomatch h

theorem writes_seq (b : Buffer) (dst advance : Nat) (src : List Byte) :
    Writes b (compileSeq (b.store dst PAT_SEQ) (dst + 1 : Nat) src).2 dst
      ⟨advance, MAX_TG_LEN, lowOf (seqOf src).2.1⟩ := by
  obtain ⟨-, new, hstored, hall, ⟨top, hmem, htop⟩, hlow⟩ :=
    compileSeq_stores (b.store dst PAT_SEQ) (dst + 1 : Nat) src
  have hnonpos := lowOf_nonpos (seqOf src).2.1
  have hmax : MAX_TG_LEN = SEQMAPSIZE + 1 := rfl
  refine writes_of (new ++ [⟨dst, b.obuf_size⟩]) hstored.size ?_ (fun h => nomatch h)
    (fun st hst => ?_) (fun _ => ⟨top, List.mem_append_left _ hmem, ?_⟩) ?_
  · rw [hstored.stores, List.append_assoc]
    rfl
  · rcases List.mem_append.1 hst with hst | hst
    · obtain ⟨hsize, hlt, hge⟩ := hall st hst
      dsimp only
      exact ⟨hsize, by omega, by omega⟩
    · rw [List.mem_singleton.1 hst]
      dsimp only
      exact ⟨rfl, by omega, by omega⟩
  · dsimp only
    omega
  · refine hlow.imp_right fun ⟨st, hst, heq⟩ => ⟨st, List.mem_append_left _ hst, ?_⟩
    dsimp only
    omega

theorem translateGlobchar_translates (b : Buffer) (c : Byte) (src : List Byte) (dst : Nat)
    (brace_level : Int) (hlegal : c ∈ "[]~\x7b,\x7d*?".toList.map byte) :
    Translates (translateGlobchar b c src dst brace_level) b dst (globPiece c src brace_level) := by
  have hone : c = byte '[' ∨ c = byte ']' ∨ c = byte '~' ∨ c = openBrace ∨ c = byte ',' ∨
      c = closeBrace ∨ c = byte '*' ∨ c = byte '?' := by
    simpa [byte, openBrace, closeBrace] using hlegal
  unfold globPiece translateGlobchar
  rcases hone with rfl | rfl | rfl | rfl | rfl | rfl | rfl | rfl
  · rw [if_pos rfl, if_pos rfl]
    split_ifs
    · exact translates_error b dst _ _ brace_level
    · have hwrites := fun advance => writes_seq b dst advance src
      have hplace := (compileSeq_stores (b.store dst PAT_SEQ) (dst + 1 : Nat) src).1
      dsimp only
      generalize compileSeq (b.store dst PAT_SEQ) (dst + 1 : Nat) src = r at hwrites hplace
      generalize seqOf src = m at hwrites hplace
      obtain ⟨place, b'⟩ := r
      obtain ⟨negated, members, rest⟩ := m
      dsimp only at hplace
      subst hplace
      cases place with
      | none => exact ⟨hwrites 0, Nat.le_refl _, fun _ => ⟨rfl, _, rfl⟩, fun _ h => nomatch h⟩
      | some rest =>
        refine ⟨hwrites MAX_TG_LEN, Nat.le_refl _, (fun h => nomatch h), fun q h => ?_⟩
        cases h
        exact ⟨rfl, rfl⟩
  · exact translates_store b dst _ src brace_level
  · exact translates_store b dst _ src brace_level
  · exact translates_store b dst _ src (brace_level + 1)
  · exact translates_store b dst _ src brace_level
  · change Translates (if brace_level - 1 < 0 then _ else _) b dst
      (if brace_level - 1 < 0 then _ else _)
    split_ifs
    · exact translates_error b dst _ _ (brace_level - 1)
    · exact translates_store b dst _ src (brace_level - 1)
  · exact translates_store b dst _ src brace_level
  · exact translates_store b dst _ src brace_level

/-- A turn of the loop: there is none, or it is the last, or the loop goes on. -/
inductive Turn (special_chars glob_chars : List Byte) (c : Control) (optr : Nat) (b : Buffer) : Prop
  | stops (next : nextPiece special_chars glob_chars c = none)
      (loop : ∀ fuel, quoteLoop special_chars glob_chars (fuel + 1) c optr b = ⟨none, c, optr, b⟩)
  | ends (x : Piece) (error : Option String) (c' : Control) (b' : Buffer)
      (next : nextPiece special_chars glob_chars c = some (x, none))
      (writes : Writes (b.grow optr) b' optr x) (extent : x.extent ≤ MAX_TG_LEN)
      (advance : x.advance = 0) (stays : c'.iptr = c.iptr)
      (special : error = none → ∃ ch rest, c.iptr = ch :: rest ∧ ch ∈ special_chars)
      (loop : ∀ fuel, quoteLoop special_chars glob_chars (fuel + 1) c optr b =
        ⟨error, c', optr, b'⟩)
  | goes (x : Piece) (c' : Control) (b' : Buffer)
      (next : nextPiece special_chars glob_chars c = some (x, some c'))
      (writes : Writes (b.grow optr) b' optr x) (extent : x.extent ≤ MAX_TG_LEN)
      (loop : ∀ fuel, quoteLoop special_chars glob_chars (fuel + 1) c optr b =
        quoteLoop special_chars glob_chars fuel c' (optr + x.advance) b')

theorem turn (special_chars : List Byte) (glob_chars : GlobChars) (c : Control) (optr : Nat)
    (b : Buffer) : Turn special_chars glob_chars.chars c optr b := by
  obtain ⟨iptr, quotec, just_had_backslash, brace_level⟩ := c
  cases iptr with
  | nil => exact .stops rfl fun _ => rfl
  | cons ch rest =>
    have hplain := writes_store (b.grow optr) optr 1 ch
    have hquote := writes_none (b.grow optr) optr
    by_cases hnul : ch = 0#8
    · exact .stops (by simp only [nextPiece, if_pos hnul])
        fun _ => by simp only [quoteLoop, if_pos hnul]
    by_cases hafter : just_had_backslash
    · refine .goes plain ⟨rest, quotec, false, brace_level⟩ _ ?_ hplain (by decide) fun _ => ?_
      · simp only [nextPiece, if_neg hnul, if_pos hafter]
      · simp only [quoteLoop, if_neg hnul, if_pos hafter, plain]
    by_cases hbackslash : ch = backslash
    · refine .goes ⟨0, 0, 0⟩ ⟨rest, quotec, true, brace_level⟩ _ ?_ hquote (by decide) fun _ => ?_
      · simp only [nextPiece, if_neg hnul, if_neg hafter, if_pos hbackslash]
      · simp only [quoteLoop, if_neg hnul, if_neg hafter, if_pos hbackslash, Nat.add_zero]
    by_cases hend : ch = quotec
    · refine .goes ⟨0, 0, 0⟩ ⟨rest, 0#8, just_had_backslash, brace_level⟩ _ ?_ hquote (by decide)
        fun _ => ?_
      · simp only [nextPiece, if_neg hnul, if_neg hafter, if_neg hbackslash, if_pos hend]
      · simp only [quoteLoop, if_neg hnul, if_neg hafter, if_neg hbackslash, if_pos hend,
          Nat.add_zero]
    by_cases hstart : quotec = 0#8 ∧ (ch = singleQuote ∨ ch = doubleQuote)
    · refine .goes ⟨0, 0, 0⟩ ⟨rest, ch, just_had_backslash, brace_level⟩ _ ?_ hquote (by decide)
        fun _ => ?_
      · simp only [nextPiece, if_neg hnul, if_neg hafter, if_neg hbackslash, if_neg hend,
          if_pos hstart]
      · simp only [quoteLoop, if_neg hnul, if_neg hafter, if_neg hbackslash, if_neg hend,
          if_pos hstart, Nat.add_zero]
    by_cases hspecial : quotec = 0#8 ∧ ch ∈ special_chars
    · refine .ends ⟨0, 0, 0⟩ none ⟨ch :: rest, quotec, just_had_backslash, brace_level⟩ _ ?_ hquote
        (by decide) rfl rfl (fun _ => ⟨ch, rest, rfl, hspecial.2⟩) fun _ => ?_
      · simp only [nextPiece, if_neg hnul, if_neg hafter, if_neg hbackslash, if_neg hend,
          if_neg hstart, if_pos hspecial]
      · simp only [quoteLoop, if_neg hnul, if_neg hafter, if_neg hbackslash, if_neg hend,
          if_neg hstart, if_pos hspecial]
    by_cases hglob : quotec = 0#8 ∧ ch ∈ glob_chars.chars
    · have hnext : nextPiece special_chars glob_chars.chars
          ⟨ch :: rest, quotec, just_had_backslash, brace_level⟩ =
          some ((globPiece ch rest brace_level).1, (globPiece ch rest brace_level).2.map fun q =>
            ⟨q.1, quotec, just_had_backslash, q.2⟩) := by
        simp only [nextPiece, if_neg hnul, if_neg hafter, if_neg hbackslash, if_neg hend,
          if_neg hstart, if_neg hspecial, if_pos hglob]
      have ht := translateGlobchar_translates (b.grow optr) ch rest optr brace_level
        (glob_chars.legal ch hglob.2)
      cases hq : (globPiece ch rest brace_level).2 with
      | none =>
        obtain ⟨hadvance, message, hplace⟩ := ht.failed hq
        rw [hq] at hnext
        refine .ends _ (some message) ⟨ch :: rest, quotec, just_had_backslash,
          (translateGlobchar (b.grow optr) ch rest optr brace_level).brace_level⟩ _ hnext ht.writes
          ht.extent hadvance rfl (fun h => nomatch h) fun _ => ?_
        simp only [quoteLoop, if_neg hnul, if_neg hafter, if_neg hbackslash, if_neg hend,
          if_neg hstart, if_neg hspecial, if_pos hglob, hplace]
      | some q =>
        obtain ⟨hplace, hlevel⟩ := ht.goes q hq
        rw [hq] at hnext
        refine .goes _ _ _ hnext ht.writes ht.extent fun _ => ?_
        simp only [quoteLoop, if_neg hnul, if_neg hafter, if_neg hbackslash, if_neg hend,
          if_neg hstart, if_neg hspecial, if_pos hglob, hplace, hlevel]
    · refine .goes plain ⟨rest, quotec, just_had_backslash, brace_level⟩ _ ?_ hplain (by decide)
        fun _ => ?_
      · simp only [nextPiece, if_neg hnul, if_neg hafter, if_neg hbackslash, if_neg hend,
          if_neg hstart, if_neg hspecial, if_neg hglob]
      · simp only [quoteLoop, if_neg hnul, if_neg hafter, if_neg hbackslash, if_neg hend,
          if_neg hstart, if_neg hspecial, if_neg hglob, plain]

end

/-! ## The loop -/

/-- All the turns store inside the buffer, which may grow as they start. -/
def InRoom (size p : Nat) : List Piece → Prop
  | [] => True
  | x :: xs =>
    let size := sizeAfter size [p]
    (0 < x.extent → p + x.extent ≤ size) ∧ InRoom size (p + x.advance) xs

/-- How many bytes are in the buffer at the end. -/
def last (p : Nat) (xs : List Piece) : Nat := xs.foldl (fun p x => p + x.advance) p

theorem grow_size (b : Buffer) (optr : Nat) :
    (b.grow optr).obuf_size = sizeAfter b.obuf_size [optr] := by
  unfold Buffer.grow
  rw [apply_ite Buffer.obuf_size]
  rfl

theorem grow_stores (b : Buffer) (optr : Nat) : (b.grow optr).stores = b.stores := by
  unfold Buffer.grow
  rw [apply_ite Buffer.stores, ite_self]

theorem extent_le (special_chars : List Byte) (glob_chars : GlobChars) (fuel : Nat) (c : Control) :
    ∀ x ∈ pieces special_chars glob_chars.chars fuel c, x.extent ≤ MAX_TG_LEN := by
  induction fuel generalizing c with
  | zero => exact fun _ h => absurd h List.not_mem_nil
  | succ fuel ih =>
    intro x hx
    rw [pieces] at hx
    -- where the turn starts does not matter for what it puts out
    rcases turn special_chars glob_chars c 0 (initial fun _ => 0#8) with
      ⟨hnext⟩ | ⟨y, _, _, _, hnext, _, hextent⟩ | ⟨y, c', _, hnext, _, hextent⟩
    · rw [hnext] at hx
      exact absurd hx List.not_mem_nil
    · rw [hnext] at hx
      rw [List.mem_singleton.1 hx]
      exact hextent
    · rw [hnext] at hx
      rcases List.mem_cons.1 hx with rfl | hx
      · exact hextent
      · exact ih c' x hx

/-- What the loop stores. -/
structure Loops (b : Buffer) (optr : Nat) (xs : List Piece) (r : LoopEnd) : Prop where
  place : r.optr = last optr xs
  size : r.buffer.obuf_size = sizeAfter b.obuf_size (heads optr xs)
  stores : ∃ new, r.buffer.stores = new ++ b.stores ∧
    ((∀ st ∈ new, st.index < st.size) ↔ InRoom b.obuf_size optr xs) ∧
    ((∀ st ∈ new, 0 ≤ st.index) ↔ Behind optr xs)

theorem loops_nil (b : Buffer) (optr : Nat) (error : Option String) (c : Control) :
    Loops b optr [] ⟨error, c, optr, b⟩ :=
  ⟨rfl, rfl, [], rfl, iff_of_true (fun _ h => absurd h List.not_mem_nil) trivial,
    iff_of_true (fun _ h => absurd h List.not_mem_nil) trivial⟩

theorem Loops.cons {b b' : Buffer} {optr : Nat} {x : Piece} {xs : List Piece} {r : LoopEnd}
    (hwrites : Writes (b.grow optr) b' optr x) (h : Loops b' (optr + x.advance) xs r) :
    Loops b optr (x :: xs) r := by
  obtain ⟨hsize, new, hnew, hroom, hbehind⟩ := hwrites
  obtain ⟨hplace, hsize', new', hnew', hroom', hbehind'⟩ := h
  rw [grow_size] at hsize hroom
  rw [grow_stores] at hnew
  rw [hsize] at hsize' hroom'
  refine ⟨hplace, hsize', new' ++ new, ?_, ?_, ?_⟩
  · rw [hnew', hnew, List.append_assoc]
  · rw [List.forall_mem_append, hroom', hroom, and_comm]
    rfl
  · rw [List.forall_mem_append, hbehind', hbehind, and_comm]
    rfl

theorem quoteLoop_loops (special_chars : List Byte) (glob_chars : GlobChars) (fuel : Nat)
    (c : Control) (optr : Nat) (b : Buffer) :
    Loops b optr (pieces special_chars glob_chars.chars fuel c)
      (quoteLoop special_chars glob_chars.chars fuel c optr b) := by
  induction fuel generalizing c optr b with
  | zero => exact loops_nil b optr none c
  | succ fuel ih =>
    rw [pieces]
    rcases turn special_chars glob_chars c optr b with ⟨hnext, hloop⟩ |
      ⟨x, error, c', b', hnext, hwrites, -, hadvance, -, -, hloop⟩ |
      ⟨x, c', b', hnext, hwrites, -, hloop⟩
    · rw [hnext, hloop]
      exact loops_nil b optr none c
    · rw [hnext, hloop]
      refine Loops.cons hwrites ?_
      rw [hadvance]
      exact loops_nil b' optr error c'
    · rw [hnext, hloop]
      exact Loops.cons hwrites (ih c' (optr + x.advance) b')

/-! ## Room -/

theorem le_of_mem_heads {p q : Nat} {xs : List Piece} (h : q ∈ heads p xs) : p ≤ q := by
  induction xs generalizing p with
  | nil => cases h
  | cons x xs ih =>
    rcases List.mem_cons.1 h with rfl | h
    · exact Nat.le_refl q
    · exact Nat.le_trans (Nat.le_add_right p x.advance) (ih h)

/-- The buffer does not grow any more when the place where it does is passed. -/
theorem fits_of_lt {size p : Nat} {xs : List Piece} (h : size - (MAX_TG_LEN + 1) < p) :
    Fits size p xs ↔ need p xs ≤ size := by
  constructor
  · rintro ⟨j, hheads, hneed⟩
    cases j with
    | zero => exact Nat.le_trans hneed (Nat.le_of_eq (Nat.mul_one size))
    | succ j =>
      have hmem := hheads 0 (Nat.zero_lt_succ j)
      rw [Nat.pow_zero, Nat.mul_one] at hmem
      exact absurd (le_of_mem_heads hmem) (Nat.not_le_of_lt h)
  · intro hneed
    exact ⟨0, fun i hi => absurd hi (Nat.not_lt_zero i), Nat.le_trans hneed
      (Nat.le_of_eq (Nat.mul_one size).symm)⟩

theorem lt_need (p : Nat) (xs : List Piece) : p < need p xs := by
  induction xs generalizing p with
  | nil => exact Nat.lt_succ_self p
  | cons x xs ih =>
    exact Nat.lt_of_le_of_lt (Nat.le_add_right p x.advance)
      (Nat.lt_of_lt_of_le (ih (p + x.advance)) (Nat.le_max_right _ _))

/-- The turn that starts where the buffer grows. -/
theorem fits_grow {size : Nat} {x : Piece} {xs : List Piece} (hsize : MAX_TG_LEN + 1 < size)
    (hextent : x.extent ≤ MAX_TG_LEN) :
    Fits size (size - (MAX_TG_LEN + 1)) (x :: xs) ↔
      Fits (size * 2) (size - (MAX_TG_LEN + 1) + x.advance) xs := by
  have hpow : ∀ i, size * 2 * 2 ^ i = size * 2 ^ (i + 1) := fun i => by
    rw [Nat.pow_succ', Nat.mul_assoc]
  have hge : ∀ i, size ≤ size * 2 ^ i := fun i => Nat.le_mul_of_pos_right _ (Nat.two_pow_pos i)
  constructor
  · rintro ⟨j, hheads, hneed⟩
    have hneed' := Nat.le_trans (Nat.le_max_right _ _) hneed
    cases j with
    | zero =>
      refine ⟨0, fun i hi => absurd hi (Nat.not_lt_zero i), ?_⟩
      rw [hpow]
      have hdouble := hge 0
      omega
    | succ j =>
      refine ⟨j, fun i hi => ?_, ?_⟩
      · have hmem := hheads (i + 1) (Nat.succ_lt_succ hi)
        have hdouble := Nat.le_mul_of_pos_right (size * 2) (Nat.two_pow_pos i)
        rw [← hpow] at hmem
        rcases List.mem_cons.1 hmem with heq | hmem
        · omega
        · exact hmem
      · rw [hpow]
        exact hneed'
  · rintro ⟨j, hheads, hneed⟩
    refine ⟨j + 1, fun i hi => ?_, ?_⟩
    · cases i with
      | zero =>
        rw [Nat.pow_zero, Nat.mul_one]
        exact List.mem_cons_self
      | succ i =>
        rw [← hpow]
        exact List.mem_cons_of_mem _ (hheads i (Nat.lt_of_succ_lt_succ hi))
    · rw [hpow] at hneed
      have hroom := hge (j + 1)
      exact Nat.max_le.2 ⟨by omega, hneed⟩

/-- A turn that starts before. -/
theorem fits_before {size p : Nat} {x : Piece} {xs : List Piece}
    (h : p < size - (MAX_TG_LEN + 1)) (hextent : x.extent ≤ MAX_TG_LEN) :
    Fits size p (x :: xs) ↔ Fits size (p + x.advance) xs := by
  have hge : ∀ i, size ≤ size * 2 ^ i := fun i => Nat.le_mul_of_pos_right _ (Nat.two_pow_pos i)
  constructor
  · rintro ⟨j, hheads, hneed⟩
    refine ⟨j, fun i hi => ?_, Nat.le_trans (Nat.le_max_right _ _) hneed⟩
    rcases List.mem_cons.1 (hheads i hi) with heq | hmem
    · have hle := hge i
      omega
    · exact hmem
  · rintro ⟨j, hheads, hneed⟩
    refine ⟨j, fun i hi => List.mem_cons_of_mem _ (hheads i hi), Nat.max_le.2 ⟨?_, hneed⟩⟩
    have hle := hge j
    omega

theorem sizeAfter_single (size p : Nat) :
    sizeAfter size [p] = if p = size - (MAX_TG_LEN + 1) then size * 2 else size := rfl

/-- Every turn and the NUL are in room just when the buffer is doubled as often as it has to be. -/
theorem inRoom_iff {size p : Nat} {xs : List Piece} (hsize : MAX_TG_LEN + 1 < size)
    (hextent : ∀ x ∈ xs, x.extent ≤ MAX_TG_LEN) :
    InRoom size p xs ∧ last p xs < sizeAfter size (heads p xs) ↔ Fits size p xs := by
  induction xs generalizing size p with
  | nil =>
    constructor
    · rintro ⟨-, hlast⟩
      exact ⟨0, fun i hi => absurd hi (Nat.not_lt_zero i),
        Nat.le_trans hlast (Nat.le_of_eq (Nat.mul_one size).symm)⟩
    · rintro ⟨j, hheads, hneed⟩
      cases j with
      | zero => exact ⟨trivial, Nat.le_trans hneed (Nat.le_of_eq (Nat.mul_one size))⟩
      | succ j => exact absurd (hheads 0 (Nat.zero_lt_succ j)) List.not_mem_nil
  | cons x xs ih =>
    have hx := hextent x List.mem_cons_self
    have hstep : (InRoom size p (x :: xs) ∧ last p (x :: xs) < sizeAfter size (heads p (x :: xs))) ↔
        (0 < x.extent → p + x.extent ≤ sizeAfter size [p]) ∧
          Fits (sizeAfter size [p]) (p + x.advance) xs := by
      have hgrown : MAX_TG_LEN + 1 < sizeAfter size [p] := by
        rw [sizeAfter_single]
        split_ifs
        · omega
        · exact hsize
      rw [← ih hgrown fun y hy => hextent y (List.mem_cons_of_mem x hy), ← and_assoc]
      rfl
    rw [hstep, sizeAfter_single]
    rcases Nat.lt_trichotomy p (size - (MAX_TG_LEN + 1)) with hlt | rfl | hgt
    · rw [if_neg (Nat.ne_of_lt hlt), fits_before hlt hx]
      exact and_iff_right fun _ => by omega
    · rw [if_pos rfl, fits_grow hsize hx]
      exact and_iff_right fun _ => by omega
    · rw [if_neg (Nat.ne_of_gt hgt), fits_of_lt hgt,
        fits_of_lt (Nat.lt_of_lt_of_le hgt (Nat.le_add_right p x.advance)), need, Nat.max_le]
      have hadvance := lt_need (p + x.advance) xs
      constructor
      · rintro ⟨hroom, hneed⟩
        refine ⟨?_, hneed⟩
        rcases Nat.eq_zero_or_pos x.extent with hzero | hpos
        · omega
        · exact hroom hpos
      · exact fun ⟨hroom, hneed⟩ => ⟨fun _ => hroom, hneed⟩

/-! ## Calls -/

theorem seqMembers_length (prev : Byte) (s : List Byte) :
    (seqMembers prev s).2.length ≤ s.length := by
  induction hn : s.length using Nat.strongRecOn generalizing prev s with
  | ind n ih =>
    subst hn
    match s with
    | [] => exact Nat.le_refl 0
    | [c] =>
      rw [seqMembers]
      split_ifs
      · exact Nat.le_refl 1
      · exact Nat.zero_le 1
      · exact Nat.zero_le 1
    | c :: d :: rest =>
      simp only [List.length_cons] at ih
      have hskip := ih rest.length (by omega) d rest rfl
      have hone := ih (rest.length + 1) (by omega) c (d :: rest) rfl
      rw [seqMembers, List.length_cons, List.length_cons]
      split_ifs
      · exact Nat.le_refl _
      · exact Nat.le_trans hskip (by omega)
      · exact Nat.le_trans hskip (by omega)
      · exact Nat.le_trans hone (by omega)

theorem seqOf_length {s rest : List Byte} (h : (seqOf s).2.2 = some rest) :
    rest.length ≤ s.length := by
  unfold seqOf at h
  dsimp only at h
  have hmembers : (if s.head? == some (byte '^') then seqMembers (byte '^') s.tail
      else seqMembers (byte '[') s).2.length ≤ s.length := by
    split
    · exact Nat.le_trans (seqMembers_length _ _) (by rw [List.length_tail]; omega)
    · exact seqMembers_length _ _
  split_ifs at h hmembers with hclosed
  all_goals
    cases h
    rw [List.length_tail]
    omega

theorem globPiece_length {c : Byte} {src : List Byte} {brace_level : Int} {q : List Byte × Int}
    (h : (globPiece c src brace_level).2 = some q) : q.1.length ≤ src.length := by
  unfold globPiece at h
  have hseq := @seqOf_length src
  generalize seqOf src = m at h hseq
  obtain ⟨negated, members, rest⟩ := m
  cases rest with
  | none =>
    dsimp only at h
    split_ifs at h <;> cases h <;> exact Nat.le_refl _
  | some rest =>
    dsimp only at h
    split_ifs at h <;> cases h <;> first | exact hseq rfl | exact Nat.le_refl _

theorem nextPiece_length {special_chars glob_chars : List Byte} {c c' : Control} {x : Piece}
    (h : nextPiece special_chars glob_chars c = some (x, some c')) :
    c'.iptr.length < c.iptr.length := by
  obtain ⟨iptr, quotec, just_had_backslash, brace_level⟩ := c
  cases iptr with
  | nil => cases h
  | cons ch rest =>
    have hglob := @globPiece_length ch rest brace_level
    simp only [nextPiece] at h
    generalize globPiece ch rest brace_level = p at h hglob
    obtain ⟨y, next⟩ := p
    cases next with
    | none => split_ifs at h <;> cases h <;> exact Nat.lt_succ_self _
    | some q =>
      have hq := hglob rfl
      split_ifs at h <;> cases h <;> first | exact Nat.lt_succ_self _ | exact Nat.lt_succ_of_le hq

/-- The loop comes to its end: as many turns as there are bytes are enough. -/
theorem quoteLoop_fuel (special_chars : List Byte) (glob_chars : GlobChars) {fuel : Nat}
    {c : Control} (h : c.iptr.length ≤ fuel) (optr : Nat) (b : Buffer) :
    quoteLoop special_chars glob_chars.chars (fuel + 1) c optr b =
      quoteLoop special_chars glob_chars.chars fuel c optr b := by
  induction fuel generalizing c optr b with
  | zero =>
    have hnil := List.eq_nil_of_length_eq_zero (Nat.le_zero.1 h)
    simp only [quoteLoop, hnil]
  | succ fuel ih =>
    rcases turn special_chars glob_chars c optr b with ⟨-, hloop⟩ | ⟨_, _, _, _, _, _, _, _, _, _, hloop⟩ |
      ⟨x, c', b', hnext, -, -, hloop⟩
    · rw [hloop, hloop]
    · rw [hloop, hloop]
    · rw [hloop, hloop]
      exact ih (by have := nextPiece_length hnext; omega) _ _

theorem quoteLoop_length (special_chars : List Byte) (glob_chars : GlobChars) (fuel : Nat)
    (c : Control) (optr : Nat) (b : Buffer) :
    (quoteLoop special_chars glob_chars.chars fuel c optr b).control.iptr.length ≤ c.iptr.length := by
  induction fuel generalizing c optr b with
  | zero => exact Nat.le_refl _
  | succ fuel ih =>
    rcases turn special_chars glob_chars c optr b with ⟨-, hloop⟩ |
      ⟨_, _, c', _, _, _, _, _, hstays, _, hloop⟩ | ⟨x, c', b', hnext, -, -, hloop⟩
    · exact Nat.le_of_eq (congrArg (fun r => r.control.iptr.length) (hloop fuel))
    · rw [hloop]
      exact Nat.le_of_eq (congrArg List.length hstays)
    · rw [hloop]
      exact Nat.le_trans (ih c' _ b') (Nat.le_of_lt (nextPiece_length hnext))

/-- A call takes some of the text, unless that starts with white space or a redirection. -/
theorem argDoQuoting_length {b : Buffer} {call : Call} {rest : List Byte}
    (h : (argDoQuoting b call).1 = .ok rest) :
    rest.length ≤ call.text.length ∧
      ∀ ch s, call.text = ch :: s → ch ≠ 0#8 → ch ∉ "<>\n \t".toList.map byte →
        rest.length < call.text.length := by
  unfold argDoQuoting at h
  dsimp only at h
  generalize (if b.obuf_size = 0 then { b with obuf_size := 64 } else b) = b₀ at h
  have hlength := quoteLoop_length (specialChars call.no_special_chars) call.glob_chars
    call.text.length call.start 0 b₀
  generalize hr : quoteLoop (specialChars call.no_special_chars) call.glob_chars.chars
    call.text.length call.start 0 b₀ = r at h hlength
  have hrest : r.error = none ∧ r.control.iptr = rest ∧
      ∀ ch s, rest = ch :: s → ch ∉ illegalChars := by
    obtain ⟨error, ⟨iptr, quotec, just_had_backslash, brace_level⟩, optr, b'⟩ := r
    cases error with
    | some message => cases h
    | none =>
      dsimp only at h
      split_ifs at h
      cases iptr with
      | nil =>
        cases h
        exact ⟨rfl, rfl, fun _ _ h => nomatch h⟩
      | cons ch iptr =>
        dsimp only at h
        split_ifs at h with hillegal
        cases h
        refine ⟨rfl, rfl, fun _ _ h => ?_⟩
        cases h
        exact hillegal
  obtain ⟨herror, rfl, hillegal⟩ := hrest
  refine ⟨hlength, fun ch s htext hnul hother => ?_⟩
  rw [htext, List.length_cons] at hr
  rcases turn (specialChars call.no_special_chars) call.glob_chars call.start 0 b₀ with ⟨hnext, -⟩ |
    ⟨_, error, c', _, _, _, _, _, hstays, hspecial, hloop⟩ | ⟨x, c', b', hnext, -, -, hloop⟩
  · simp only [nextPiece, Call.start, htext, if_neg hnul] at hnext
    split_ifs at hnext
  · rw [hloop] at hr
    subst hr
    obtain ⟨ch', rest, hiptr, hmem⟩ := hspecial herror
    have hstart : call.start.iptr = ch :: s := htext
    obtain ⟨rfl, -⟩ := List.cons.inj (hiptr.symm.trans hstart)
    exfalso
    cases hflag : call.no_special_chars with
    | true =>
      rw [hflag] at hmem
      exact List.not_mem_nil hmem
    | false =>
      rw [hflag] at hmem
      have hsplit : specialChars false = illegalChars ++ "<>\n \t".toList.map byte := rfl
      rw [hsplit] at hmem
      rcases List.mem_append.1 hmem with hmem | hmem
      · exact hillegal _ _ (hstays.trans hiptr) hmem
      · exact hother hmem
  · rw [hloop] at hr
    have hlt := nextPiece_length hnext
    have hle := quoteLoop_length (specialChars call.no_special_chars) call.glob_chars s.length c'
      (0 + x.advance) b'
    rw [hr] at hle
    exact Nat.lt_of_le_of_lt hle hlt

theorem le_sizeAfter (size : Nat) (places : List Nat) : size ≤ sizeAfter size places := by
  induction places generalizing size with
  | nil => exact Nat.le_refl size
  | cons p places ih =>
    have hone : size ≤ sizeAfter size [p] := by
      rw [sizeAfter_single]
      split_ifs
      · omega
      · exact Nat.le_refl size
    exact Nat.le_trans hone (ih _)

/-- What a call stores. -/
theorem argDoQuoting_stores (b : Buffer) (call : Call)
    (hsize : MAX_TG_LEN + 1 < sizeBefore b.obuf_size) :
    (argDoQuoting b call).2.obuf_size =
        sizeAfter (sizeBefore b.obuf_size) (heads 0 call.pieces) ∧
      ∃ new, (argDoQuoting b call).2.stores = new ++ b.stores ∧
        ((∀ st ∈ new, st.index < st.size) ↔ Fits (sizeBefore b.obuf_size) 0 call.pieces) ∧
        ((∀ st ∈ new, 0 ≤ st.index) ↔ Behind 0 call.pieces) := by
  unfold argDoQuoting
  dsimp only
  have hstart : (if b.obuf_size = 0 then { b with obuf_size := 64 } else b).obuf_size =
      sizeBefore b.obuf_size := by
    rw [apply_ite Buffer.obuf_size]
    rfl
  have hnone : (if b.obuf_size = 0 then { b with obuf_size := 64 } else b).stores = b.stores := by
    rw [apply_ite Buffer.stores, ite_self]
  generalize (if b.obuf_size = 0 then { b with obuf_size := 64 } else b) = b₀ at hstart hnone
  obtain ⟨hplace, hend, new, hnew, hroom, hbehind⟩ := quoteLoop_loops
    (specialChars call.no_special_chars) call.glob_chars call.text.length call.start 0 b₀
  have hfits := inRoom_iff (p := 0) hsize
    (extent_le (specialChars call.no_special_chars) call.glob_chars call.text.length call.start)
  generalize quoteLoop (specialChars call.no_special_chars) call.glob_chars.chars call.text.length
    call.start 0 b₀ = r at hplace hend hnew
  rw [hstart] at hend hroom
  refine ⟨hend, ⟨r.optr, r.buffer.obuf_size⟩ :: new, ?_, ?_, ?_⟩
  · rw [← hnone, List.cons_append, ← hnew]
    rfl
  · rw [List.forall_mem_cons, hroom, hplace, hend, Int.ofNat_lt, and_comm]
    exact hfits
  · rw [List.forall_mem_cons, hbehind]
    exact and_iff_right (Int.natCast_nonneg r.optr)

theorem run_stores (calls : List Call) (b : Buffer)
    (hsize : MAX_TG_LEN + 1 < sizeBefore b.obuf_size) :
    ∃ new, (run b calls).stores = new ++ b.stores ∧
      ((∀ st ∈ new, st.index < st.size) ↔ EachFits b.obuf_size calls) ∧
      ((∀ st ∈ new, 0 ≤ st.index) ↔ ∀ call ∈ calls, Behind 0 call.pieces) := by
  induction calls generalizing b with
  | nil =>
    exact ⟨[], rfl, iff_of_true (fun _ h => absurd h List.not_mem_nil) trivial,
      iff_of_true (fun _ h => absurd h List.not_mem_nil) fun _ h => absurd h List.not_mem_nil⟩
  | cons call calls ih =>
    obtain ⟨hafter, new, hnew, hfits, hbehind⟩ := argDoQuoting_stores b call hsize
    have hlarge : MAX_TG_LEN + 1 < sizeBefore (argDoQuoting b call).2.obuf_size := by
      have hle := le_sizeAfter (sizeBefore b.obuf_size) (heads 0 call.pieces)
      unfold sizeBefore
      split_ifs
      · decide
      · rw [hafter]
        exact Nat.lt_of_lt_of_le hsize hle
    obtain ⟨new', hnew', hfits', hbehind'⟩ := ih _ hlarge
    refine ⟨new' ++ new, ?_, ?_, ?_⟩
    · rw [run, hnew', hnew, List.append_assoc]
    · rw [List.forall_mem_append, hfits', hfits, hafter, and_comm]
      rfl
    · rw [List.forall_mem_append, hbehind', hbehind, List.forall_mem_cons, and_comm]

/-- Just when in every call, as often as the buffer is too small for all that is put out, some turn
starts where it is doubled, every byte is stored before the end of the buffer. And just when no set
stores in front of it, every byte is stored behind the start. -/
theorem quoting_stays_in_the_buffer (garbage : Int → Byte) (calls : List Call) :
    ((∀ st ∈ (run (initial garbage) calls).stores, st.index < st.size) ↔ EachFits 0 calls) ∧
      ((∀ st ∈ (run (initial garbage) calls).stores, 0 ≤ st.index) ↔
        ∀ call ∈ calls, Behind 0 call.pieces) := by
  obtain ⟨new, hnew, hfits, hbehind⟩ := run_stores calls (initial garbage)
    (show MAX_TG_LEN + 1 < 64 by decide)
  rw [hnew]
  have hempty : (initial garbage).stores = [] := rfl
  rw [hempty, List.append_nil]
  exact ⟨hfits, hbehind⟩

/-- All that `arg_lparse` lets be converted. -/
def allGlobChars : GlobChars := ⟨"[]~\x7b,\x7d*?".toList.map byte, fun _ h => h⟩

/-- A set that starts one byte before the place where the buffer grows goes past it. -/
def jumpingCall : Call :=
  ⟨List.replicate 42 (byte 'a') ++ "[bc]aaa".toList.map byte, allGlobChars, false⟩

/-- The last characters of a word behind a set go past the end. -/
theorem quoting_runs_past_the_end :
    ∃ st ∈ (run (initial fun _ => 0#8) [jumpingCall]).stores, (st.size : Int) ≤ st.index := by
  decide +kernel

end ups_rules.arg_quote
