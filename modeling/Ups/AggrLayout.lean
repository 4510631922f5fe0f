-- Struct and union layout: the addresses of the members, and the size and alignment that come out.
import Ups.Packing
import Mathlib.Data.List.Zip

namespace ups_rules.aggr_layout

open packing

/-- `TY_STRUCT` and `TY_UNION` -/
inductive AggrCode where
  | STRUCT | UNION
deriving DecidableEq

inductive BasicCode where
  | CHAR | UCHAR | SHORT | USHORT | INT | UINT | LONG | ULONG | LONGLONG | ULONGLONG
  | FLOAT | DOUBLE | ENUM | U_ENUM | PTR_TO
deriving DecidableEq

mutual

/-- A complete type of objects. An array has the elements `0 .. di_high`. -/
inductive CType where
  | basic (ty_code : BasicCode)
  | array (di_high : Nat) (ty_base : CType)
  | aggr (ty_code : AggrCode) (ae_aggr_members : List Member)

/-- The type of a member. The last kind is all that `is_incomplete_type` finds. -/
inductive Member where
  | object (va_type : CType)
  | bitfield (bf_type : BasicCode) (bf_width : Int)
  | incomplete (va_name : String)

end

/-- The value of an unsigned long as an int. -/
def toInt (n : Nat) : Int := (BitVec.ofNat 32 n).toInt

/-- The value of a long. -/
def toLong (n : Int) : Int := (BitVec.ofInt 64 n).toInt

/-- `pad` is at most the alignment. -/
def ciAlignAddr (addr alignment : Nat) : Nat :=
  let pad := alignment - addr % alignment
  if pad = alignment then addr else (addr + pad) % 2 ^ 64

/-- What `ci_typesize` and `ci_type_alignment` say of a member's type. -/
inductive Shape where
  | object (size : Int) (alignment : Nat)
  | bitfield (bf_width : Int)
  | incomplete (va_name : String)

structure Bits where
  bf_offset : Int
  bf_width : Int
deriving DecidableEq

/-- What is written into a member, or NULL as the bitfield of an object. -/
structure Var where
  va_addr : Nat
  ty_bitfield : Option Bits
deriving DecidableEq

/-- A fresh variable has the address 0, and a fresh bitfield type the offset 0. -/
def Shape.fresh : Shape → Var
  | .bitfield bf_width => ⟨0, some ⟨0, bf_width⟩⟩
  | _ => ⟨0, none⟩

/-- The next offset in the word of the previous member. -/
def nextOffset : Option Var → Int
  | some ⟨_, some bf⟩ => bf.bf_offset + bf.bf_width
  | _ => 32

/-- With `INT_ALIGN` for the alignment and words of 32 bits. -/
def setBitfieldAddr (bf_width : Int) (prev : Option Var) (addr : Nat) : Var × Nat × List String :=
  if bf_width < 0 ∨ 32 < bf_width then
    ((Shape.bitfield bf_width).fresh, addr, [s!"Illegal bitfield width {bf_width}"])
  else
    let offset := nextOffset prev
    let v : Var :=
      if bf_width = 0 ∨ 32 < offset + bf_width then ⟨ciAlignAddr addr 4, some ⟨0, bf_width⟩⟩
      else ⟨(prev.map Var.va_addr).getD 0, some ⟨offset, bf_width⟩⟩
    let bf_offset := (v.ty_bitfield.map Bits.bf_offset).getD 0
    (v, ((v.va_addr + (bf_offset + bf_width + 7).tdiv 8) % 2 ^ 64).toNat, [])

/-- The variables of the loop. -/
structure Loop where
  prev : Option Var
  max_addr : Nat
  max_alignment : Nat

def Loop.start : Loop := { prev := none, max_addr := 0, max_alignment := 1 }

/-- One member: what is written into it, the loop's variables, and the messages. -/
def addMember (typecode : AggrCode) (s : Loop) : Shape → Var × Loop × List String
  | .bitfield bf_width =>
    let illegal := if typecode ≠ .STRUCT then ["Bitfield illegal in union"] else []
    let (v, addr, diags) := setBitfieldAddr bf_width s.prev s.max_addr
    (v, ⟨some v, max s.max_addr addr, max s.max_alignment 4⟩, illegal ++ diags)
  | .incomplete va_name =>
    let what := match typecode with
      | .STRUCT => "struct"
      | .UNION => "union"
    let v := (Shape.incomplete va_name).fresh
    (v, { s with prev := some v }, [s!"Incomplete type for {what} member {va_name}"])
  | .object size alignment =>
    let va_addr := match typecode with
      | .STRUCT => ciAlignAddr s.max_addr alignment
      | .UNION => 0
    let v : Var := ⟨va_addr, none⟩
    let addr := ((va_addr + size) % 2 ^ 64).toNat
    (v, ⟨some v, max s.max_addr addr, max s.max_alignment alignment⟩, [])

def addMembers (typecode : AggrCode) (s : Loop) : List Shape → List Var × Loop × List String
  | [] => ([], s, [])
  | m :: ms =>
    let (v, s', diags) := addMember typecode s m
    let (vs, s'', rest) := addMembers typecode s' ms
    (v :: vs, s'', diags ++ rest)

structure AggrDef where
  ae_size : Int
  ae_alignment : Nat
  ae_aggr_members : List Var
  diags : List String
deriving DecidableEq

/-- The part of `ci_build_aggr_or_enum_def` that lays out the members. -/
def layOut (typecode : AggrCode) (members : List Shape) : AggrDef :=
  let (vs, s, diags) := addMembers typecode .start members
  { ae_size := toInt (ciAlignAddr s.max_addr s.max_alignment)
    ae_alignment := s.max_alignment
    ae_aggr_members := vs
    diags := diags }

/-- An enumeration has the size of a `typecode_t`, which is an int. -/
def BasicCode.size : BasicCode → Int
  | CHAR | UCHAR => 1
  | SHORT | USHORT => 2
  | INT | UINT | FLOAT | ENUM | U_ENUM => 4
  | LONG | ULONG | LONGLONG | ULONGLONG | DOUBLE | PTR_TO => 8

/-- `DOUBLE_ALIGN` is the size of a float, and `WORD_ALIGN` that of a long. -/
def BasicCode.alignment : BasicCode → Nat
  | CHAR | UCHAR => 1
  | SHORT | USHORT => 2
  | INT | UINT | FLOAT | DOUBLE => 4
  | LONG | ULONG | LONGLONG | ULONGLONG | ENUM | U_ENUM | PTR_TO => 8

mutual

def ciTypesize : CType → Int
  | .basic ty_code => ty_code.size
  | .array di_high ty_base => toLong ((di_high + 1) * ciTypesize ty_base)
  | .aggr ty_code members => (layOut ty_code (shapes members)).ae_size

def ciTypeAlignment : CType → Nat
  | .basic ty_code => ty_code.alignment
  | .array _ ty_base => ciTypeAlignment ty_base
  | .aggr ty_code members => (layOut ty_code (shapes members)).ae_alignment

def Member.shape : Member → Shape
  | .object va_type => .object (ciTypesize va_type) (ciTypeAlignment va_type)
  | .bitfield _ bf_width => .bitfield bf_width
  | .incomplete va_name => .incomplete va_name

def shapes : List Member → List Shape
  | [] => []
  | m :: ms => m.shape :: shapes ms

end

def ciBuildAggrDef (typecode : AggrCode) (members : List Member) : AggrDef :=
  layOut typecode (shapes members)

example : ciBuildAggrDef .STRUCT [.object (.basic .CHAR), .bitfield .INT 3, .bitfield .INT 30,
    .object (.array 2 (.basic .SHORT))] =
      { ae_size := 20, ae_alignment := 4, diags := [], ae_aggr_members :=
        [⟨0, none⟩, ⟨4, some ⟨0, 3⟩⟩, ⟨8, some ⟨0, 30⟩⟩, ⟨12, none⟩] } := by decide

/-! ## What the members need -/

/-- The slots of a struct's members follow one another, those of a union's are all at the start. -/
def AggrCode.choose : AggrCode → Cursor → Need → Slot
  | STRUCT => Cursor.next 4
  | UNION => fun _ _ => ⟨0, 0⟩

mutual

/-- The bytes of an object, however many. -/
def CType.need : CType → Nat
  | .basic ty_code => ty_code.size.toNat
  | .array di_high ty_base => (di_high + 1) * ty_base.need
  | .aggr ty_code members =>
    roundUp (ciTypeAlignment (.aggr ty_code members)) (final ty_code.choose ⟨0, none⟩ (needs members)).top

def Member.need : Member → Need
  | .object va_type => .object va_type.need (ciTypeAlignment va_type)
  | .bitfield _ bf_width => .field bf_width.toNat
  | .incomplete _ => .object 0 1

def needs : List Member → List Need
  | [] => []
  | m :: ms => m.need :: needs ms

end

mutual

/-- The messages about the definitions of a type. -/
def CType.diags : CType → List String
  | .basic _ => []
  | .array _ ty_base => ty_base.diags
  | .aggr ty_code members => membersDiags members ++ (ciBuildAggrDef ty_code members).diags

def Member.diags : Member → List String
  | .object va_type => va_type.diags
  | _ => []

def membersDiags : List Member → List String
  | [] => []
  | m :: ms => m.diags ++ membersDiags ms

end

def Member.alignment : Member → Nat
  | .object va_type => ciTypeAlignment va_type
  | .bitfield .. => 4
  | .incomplete _ => 1

def Var.offset (v : Var) : Int := (v.ty_bitfield.map Bits.bf_offset).getD 0

/-- The first bit of a member, counted from the start of the aggregate. -/
def Var.start (v : Var) : Int := 8 * v.va_addr + v.offset

def Var.stop (v : Var) (m : Member) : Int := v.start + m.need.bits

/-- What a layout has to be. -/
structure LaidOut (typecode : AggrCode) (members : List Member) (d : AggrDef) : Prop where
  complete : d.ae_aggr_members.length = members.length
  aligned : ∀ x ∈ members.zip d.ae_aggr_members, x.1.alignment ∣ x.2.va_addr
  apart : typecode = .STRUCT →
    (members.zip d.ae_aggr_members).Pairwise fun x y => x.2.stop x.1 ≤ y.2.start
  together : typecode = .UNION → ∀ x ∈ members.zip d.ae_aggr_members, x.2.start = 0
  inside : ∀ x ∈ members.zip d.ae_aggr_members, x.2.stop x.1 ≤ 8 * d.ae_size
  multiple : (d.ae_alignment : Int) ∣ d.ae_size
  greatest : d.ae_alignment = (members.map Member.alignment).foldr max 1
  divides : ∀ m ∈ members, m.alignment ∣ d.ae_alignment

/-! ## Alignments -/

theorem max_dvd_eight {a b : Nat} (ha : a ∣ 8) (hb : b ∣ 8) :
    max a b ∣ 8 ∧ a ∣ max a b ∧ b ∣ max a b := by
  have hall : ∀ a < 9, ∀ b < 9, a ∣ 8 → b ∣ 8 → max a b ∣ 8 ∧ a ∣ max a b ∧ b ∣ max a b := by decide
  exact hall a (Nat.lt_succ_of_le (Nat.le_of_dvd (by decide) ha)) b
    (Nat.lt_succ_of_le (Nat.le_of_dvd (by decide) hb)) ha hb

def Shape.alignment : Shape → Nat
  | .object _ alignment => alignment
  | .bitfield _ => 4
  | .incomplete _ => 1

theorem Member.shape_alignment (m : Member) : m.shape.alignment = m.alignment := by
  cases m <;> rfl

theorem shapes_eq (ms : List Member) : shapes ms = ms.map Member.shape := by
  induction ms with
  | nil => rfl
  | cons m ms ih => rw [shapes, ih, List.map_cons]

theorem needs_eq (ms : List Member) : needs ms = ms.map Member.need := by
  induction ms with
  | nil => rfl
  | cons m ms ih => rw [needs, ih, List.map_cons]

theorem addMember_alignment (typecode : AggrCode) {s : Loop} (hs : 0 < s.max_alignment) (m : Shape) :
    (addMember typecode s m).2.1.max_alignment = max s.max_alignment m.alignment := by
  cases m with
  | object size alignment => rfl
  | bitfield bf_width => rfl
  | incomplete va_name => exact (Nat.max_eq_left hs).symm

theorem addMembers_alignment (typecode : AggrCode) {s : Loop} (hs : 0 < s.max_alignment)
    (ms : List Shape) : (addMembers typecode s ms).2.1.max_alignment =
      max s.max_alignment ((ms.map Shape.alignment).foldr max 1) := by
  induction ms generalizing s with
  | nil => exact (Nat.max_eq_left hs).symm
  | cons m ms ih =>
    have hstep := addMember_alignment typecode hs m
    show (addMembers typecode (addMember typecode s m).2.1 ms).2.1.max_alignment = _
    rw [ih (by omega), hstep, List.map_cons, List.foldr_cons, Nat.max_assoc]

theorem one_le_foldr_max (l : List Nat) : 1 ≤ l.foldr max 1 := by
  induction l with
  | nil => exact Nat.le_refl 1
  | cons a l ih => exact ih.trans (Nat.le_max_right ..)

theorem build_alignment (typecode : AggrCode) (members : List Member) :
    (ciBuildAggrDef typecode members).ae_alignment = (members.map Member.alignment).foldr max 1 := by
  have h := addMembers_alignment typecode (s := .start) Nat.one_pos (shapes members)
  rw [shapes_eq, List.map_map, show Shape.alignment ∘ Member.shape = Member.alignment from
    funext Member.shape_alignment, ← shapes_eq] at h
  exact h.trans (Nat.max_eq_right (one_le_foldr_max _))

theorem foldr_max_dvd {l : List Nat} (h : ∀ a ∈ l, a ∣ 8) :
    l.foldr max 1 ∣ 8 ∧ ∀ a ∈ l, a ∣ l.foldr max 1 := by
  induction l with
  | nil => exact ⟨by decide, nofun⟩
  | cons a l ih =>
    obtain ⟨ha, hl⟩ := List.forall_mem_cons.1 h
    obtain ⟨hmax, hall⟩ := ih hl
    obtain ⟨h8, hleft, hright⟩ := max_dvd_eight ha hmax
    exact ⟨h8, List.forall_mem_cons.2 ⟨hleft, fun b hb => (hall b hb).trans hright⟩⟩

mutual

theorem ciTypeAlignment_dvd : ∀ t : CType, ciTypeAlignment t ∣ 8
  | .basic ty_code => by cases ty_code <;> decide
  | .array _ ty_base => ciTypeAlignment_dvd ty_base
  | .aggr ty_code members => by
    have hall := alignments_dvd members
    show (ciBuildAggrDef ty_code members).ae_alignment ∣ 8
    rw [build_alignment]
    exact (foldr_max_dvd (by simpa using hall)).1

theorem Member.alignment_dvd : ∀ m : Member, m.alignment ∣ 8
  | .object va_type => ciTypeAlignment_dvd va_type
  | .bitfield .. => ⟨2, rfl⟩
  | .incomplete _ => one_dvd 8

theorem alignments_dvd : ∀ ms : List Member, ∀ m ∈ ms, m.alignment ∣ 8
  | [] => nofun
  | m :: ms => List.forall_mem_cons.2 ⟨m.alignment_dvd, alignments_dvd ms⟩

end

/-! ## The members in their slots -/

/-- What set no message. -/
def Shape.Legal (typecode : AggrCode) : Shape → Prop
  | .object .. => True
  | .bitfield bf_width => typecode = .STRUCT ∧ 0 ≤ bf_width ∧ bf_width ≤ 32
  | .incomplete _ => False

theorem setBitfieldAddr_legal (bf_width : Int) (prev : Option Var) (addr : Nat) :
    (setBitfieldAddr bf_width prev addr).2.2 = [] ↔ 0 ≤ bf_width ∧ bf_width ≤ 32 := by
  unfold setBitfieldAddr
  by_cases h : bf_width < 0 ∨ 32 < bf_width
  · rw [if_pos h]
    exact iff_of_false nofun (by omega)
  · rw [if_neg h]
    exact iff_of_true rfl (by omega)

theorem addMember_legal (typecode : AggrCode) (s : Loop) (m : Shape) :
    (addMember typecode s m).2.2 = [] ↔ m.Legal typecode := by
  cases m with
  | object size alignment => exact iff_of_true rfl trivial
  | incomplete va_name => exact iff_of_false nofun id
  | bitfield bf_width =>
    refine List.append_eq_nil_iff.trans (and_congr ?_ (setBitfieldAddr_legal ..))
    cases typecode <;> simp

theorem addMembers_legal (typecode : AggrCode) (s : Loop) (ms : List Shape) :
    (addMembers typecode s ms).2.2 = [] ↔ ∀ m ∈ ms, m.Legal typecode := by
  induction ms generalizing s with
  | nil => exact iff_of_true rfl nofun
  | cons m ms ih =>
    rw [List.forall_mem_cons, ← addMember_legal typecode s m, ← ih (addMember typecode s m).2.1]
    exact List.append_eq_nil_iff

/-- The word that the next bitfield may go into. -/
def lastWord : Option Var → Option Slot
  | some ⟨va_addr, some bf⟩ => some ⟨va_addr, (bf.bf_offset + bf.bf_width).toNat⟩
  | _ => none

/-- The loop's variables are those of the unbounded packing. -/
structure Agrees (s : Loop) (c : Cursor) : Prop where
  top : s.max_addr = c.top
  word : lastWord s.prev = c.word
  offset : 0 ≤ nextOffset s.prev

/-- A member in its slot. -/
def varAt : Need → Slot → Var
  | .object .., s => ⟨s.addr, none⟩
  | .field width, s => ⟨s.addr, some ⟨s.offset, width⟩⟩

theorem varAt_start (n : Need) {s : Slot} (h : s.Fits 4 n) : (varAt n s).start = s.start := by
  cases n with
  | object size align =>
    obtain ⟨-, h⟩ := h
    simp [varAt, Var.start, Var.offset, Slot.start, h]
  | field width => simp [varAt, Var.start, Var.offset, Slot.start]

theorem ciAlignAddr_eq {addr alignment : Nat} (ha : alignment ∣ 8) (h : addr < 2 ^ 32) :
    ciAlignAddr addr alignment = roundUp alignment addr := by
  have hpos : 0 < alignment := Nat.pos_of_dvd_of_pos ha (by decide)
  have hle : alignment ≤ 8 := Nat.le_of_dvd (by decide) ha
  have hmod := Nat.mod_lt addr hpos
  rw [roundUp_eq hpos, ciAlignAddr]
  by_cases hz : addr % alignment = 0
  · rw [if_pos (by omega), if_pos hz]
  · rw [if_neg (by omega), if_neg hz]
    exact Nat.mod_eq_of_lt (by omega)

variable {typecode : AggrCode} {s : Loop} {c : Cursor}

theorem Shape.Legal.need {m : Member} (h : m.shape.Legal typecode) : m.need.Sound 4 := by
  cases m with
  | object va_type => exact Nat.pos_of_dvd_of_pos (ciTypeAlignment_dvd va_type) (by decide)
  | bitfield bf_type bf_width =>
    obtain ⟨-, h0, h32⟩ := h
    show bf_width.toNat ≤ 32
    omega
  | incomplete va_name => exact h.elim

theorem choose_fits (hc : c.Sound 4) {m : Member} (h : m.shape.Legal typecode) :
    (typecode.choose c m.need).Fits 4 m.need := by
  cases typecode with
  | STRUCT => exact (Cursor.next_fits (by decide) hc h.need).1
  | UNION =>
    cases m with
    | object va_type => exact ⟨Nat.dvd_zero _, rfl⟩
    | bitfield bf_type bf_width => exact absurd h.1 (by decide)
    | incomplete va_name => exact h.elim

theorem lastWord_none {prev : Option Var} (h : lastWord prev = none) : nextOffset prev = 32 := by
  rcases prev with _ | ⟨va_addr, _ | bf⟩
  · rfl
  · rfl
  · cases h

theorem lastWord_some {prev : Option Var} {w : Slot} (h : lastWord prev = some w)
    (h0 : 0 ≤ nextOffset prev) : nextOffset prev = w.offset ∧ (prev.map Var.va_addr).getD 0 = w.addr := by
  rcases prev with _ | ⟨va_addr, _ | bf⟩
  · cases h
  · cases h
  · obtain rfl := Option.some.inj h
    exact ⟨(Int.toNat_of_nonneg h0).symm, rfl⟩

/-- The choice between the word of the previous bitfield and a new one. -/
theorem bitfield_var (width : Nat) (hag : Agrees s c) (htop : c.top < 2 ^ 31) :
    (if (width : Int) = 0 ∨ 32 < nextOffset s.prev + width then
        (⟨ciAlignAddr s.max_addr 4, some ⟨0, width⟩⟩ : Var)
      else ⟨(s.prev.map Var.va_addr).getD 0, some ⟨nextOffset s.prev, width⟩⟩) =
      varAt (.field width) (c.next 4 (.field width)) := by
  have hfresh : ciAlignAddr s.max_addr 4 = roundUp 4 c.top := by
    rw [hag.top, ciAlignAddr_eq ⟨2, rfl⟩ (by omega)]
  unfold Cursor.next
  rcases hword : c.word with _ | w
  · have hnext := lastWord_none (hag.word.trans hword)
    rw [if_pos (by omega), hfresh]
    rfl
  · obtain ⟨hnext, haddr⟩ := lastWord_some (hag.word.trans hword) hag.offset
    simp only
    by_cases hnew : width = 0 ∨ 8 * 4 < w.offset + width
    · rw [if_pos (by omega), if_pos hnew, hfresh]
      rfl
    · rw [if_neg (by omega), if_neg hnew, hnext, haddr]
      rfl

/-- The address behind the last bit. -/
theorem bits_end {addr offset width : Nat} (haddr : addr < 2 ^ 32) (hbits : offset + width ≤ 32) :
    ((addr + ((offset : Int) + width + 7).tdiv 8) % 2 ^ 64).toNat = (8 * addr + offset + width + 7) / 8 := by
  rw [show (offset : Int) + width + 7 = ((offset + width + 7 : Nat) : Int) by omega,
    show (8 : Int) = ((8 : Nat) : Int) from rfl, ← Int.ofNat_tdiv]
  omega

theorem next_lt (htop : c.top < 2 ^ 31) (hc : c.Sound 4) (width : Nat) :
    (c.next 4 (.field width)).addr < 2 ^ 32 := by
  have hround := roundUp_lt (a := 4) (by decide) c.top
  unfold Cursor.next
  rcases hword : c.word with _ | w
  · show roundUp 4 c.top < 2 ^ 32
    omega
  · have hfree := hc.free_le
    rw [Cursor.free, hword] at hfree
    have : 8 * w.addr + w.offset ≤ 8 * c.top := hfree
    simp only
    split
    · show roundUp 4 c.top < 2 ^ 32
      omega
    · omega

theorem setBitfieldAddr_eq {bf_width : Int} (h : 0 ≤ bf_width ∧ bf_width ≤ 32) (hag : Agrees s c)
    (hc : c.Sound 4) (htop : c.top < 2 ^ 31) :
    setBitfieldAddr bf_width s.prev s.max_addr =
      (varAt (.field bf_width.toNat) (c.next 4 (.field bf_width.toNat)),
        ((c.next 4 (.field bf_width.toNat)).stop (.field bf_width.toNat) + 7) / 8, []) := by
  obtain ⟨width, rfl⟩ := Int.eq_ofNat_of_zero_le h.1
  have hwidth : width ≤ 32 := by omega
  have hfits := (Cursor.next_fits (n := .field width) (by decide) hc hwidth).1
  unfold setBitfieldAddr
  rw [if_neg (by omega), Int.toNat_natCast]
  simp only [bitfield_var width hag htop]
  refine congrArg (Prod.mk _) (congrArg (Prod.mk · []) ?_)
  exact bits_end (next_lt htop hc width) hfits.2

/-- A size that fits into an int is computed as it is. -/
def Member.Exact : Member → Prop
  | .object va_type => va_type.need < 2 ^ 31 → ciTypesize va_type = va_type.need
  | _ => True

/-- The address of a member never depends on its own size. -/
theorem addMember_var {m : Member} (hm : m.shape.Legal typecode) (hag : Agrees s c)
    (hc : c.Sound 4) (htop : c.top < 2 ^ 31) :
    (addMember typecode s m.shape).1 = varAt m.need (typecode.choose c m.need) := by
  cases m with
  | incomplete va_name => exact hm.elim
  | object va_type =>
    cases typecode with
    | STRUCT =>
      have htop32 : c.top < 2 ^ 32 := by omega
      have halign := ciAlignAddr_eq (ciTypeAlignment_dvd va_type) htop32
      show (⟨ciAlignAddr s.max_addr _, none⟩ : Var) = _
      rw [hag.top, halign]
      rfl
    | UNION => rfl
  | bitfield bf_type bf_width =>
    obtain ⟨rfl, hwidth⟩ := hm
    show (setBitfieldAddr bf_width s.prev s.max_addr).1 = _
    rw [setBitfieldAddr_eq hwidth hag hc htop]
    rfl

theorem addMember_agrees {m : Member} (hm : m.shape.Legal typecode) (hexact : m.Exact)
    (hag : Agrees s c) (hc : c.Sound 4)
    (htop : (c.put (typecode.choose c m.need) m.need).top < 2 ^ 31) :
    Agrees (addMember typecode s m.shape).2.1 (c.put (typecode.choose c m.need) m.need) := by
  have hmono := c.top_le_put (typecode.choose c m.need) m.need
  have hvar := addMember_var hm hag hc (by omega)
  cases m with
  | incomplete va_name => exact hm.elim
  | object va_type =>
    have haddr : (addMember typecode s (Member.object va_type).shape).1.va_addr =
        (typecode.choose c (Member.object va_type).need).addr := congrArg Var.va_addr hvar
    obtain ⟨-, hoffset⟩ := choose_fits hc hm
    generalize typecode.choose c (Member.object va_type).need = slot at haddr htop hoffset
    have hlast : (slot.stop (Member.object va_type).need + 7) / 8 = slot.addr + va_type.need := by
      show (8 * slot.addr + slot.offset + 8 * va_type.need + 7) / 8 = _
      omega
    have hneed : slot.addr + va_type.need < 2 ^ 31 :=
      (hlast.symm.trans_le (Nat.le_max_right ..)).trans_lt htop
    refine ⟨?_, rfl, show (0 : Int) ≤ 32 by decide⟩
    show max s.max_addr ((((addMember typecode s (Member.object va_type).shape).1.va_addr : Int) +
      ciTypesize va_type) % 2 ^ 64).toNat = max c.top _
    rw [haddr, hexact (by omega), hag.top, hlast]
    congr 1
    omega
  | bitfield bf_type bf_width =>
    obtain ⟨rfl, hwidth⟩ := hm
    have hset := setBitfieldAddr_eq hwidth hag hc (by omega)
    have hword : (addMember .STRUCT s (Member.bitfield bf_type bf_width).shape).2.1.prev =
        some (varAt _ (c.next 4 (.field bf_width.toNat))) := congrArg some hvar
    refine ⟨?_, ?_, ?_⟩
    · show max s.max_addr (setBitfieldAddr bf_width s.prev s.max_addr).2.1 = _
      rw [hset, hag.top]
      rfl
    · rw [hword]
      rfl
    · rw [hword]
      exact Int.natCast_nonneg (_ + _)

/-! ## All members -/

theorem addMembers_agrees {ms : List Member} (hms : ∀ m ∈ ms, m.shape.Legal typecode)
    (hexact : ∀ m ∈ ms, m.Exact) (hag : Agrees s c) (hc : c.Sound 4)
    (htop : (final typecode.choose c (needs ms)).top < 2 ^ 31) :
    (addMembers typecode s (shapes ms)).1 =
        List.zipWith varAt (needs ms) (slots typecode.choose c (needs ms)) ∧
      Agrees (addMembers typecode s (shapes ms)).2.1 (final typecode.choose c (needs ms)) := by
  induction ms generalizing s c with
  | nil => exact ⟨rfl, hag⟩
  | cons m ms ih =>
    obtain ⟨hm, hms⟩ := List.forall_mem_cons.1 hms
    obtain ⟨hme, hexact⟩ := List.forall_mem_cons.1 hexact
    have hput := (top_le_final typecode.choose _ (needs ms)).trans_lt htop
    have htop' := (c.top_le_put (typecode.choose c m.need) m.need).trans_lt hput
    have hstep := addMember_agrees hm hme hag hc hput
    obtain ⟨hvars, hlast⟩ := ih hms hexact hstep (Cursor.put_sound (choose_fits hc hm)) htop
    exact ⟨List.cons_eq_cons.2 ⟨addMember_var hm hag hc htop', hvars⟩, hlast⟩

/-- Once the members take more than an int can say, one of them ends behind every int. -/
theorem addMembers_outside {ms : List Member} (hms : ∀ m ∈ ms, m.shape.Legal typecode)
    (hexact : ∀ m ∈ ms, m.Exact) (hag : Agrees s c) (hc : c.Sound 4) (htop : c.top < 2 ^ 31)
    (hout : 2 ^ 31 ≤ (final typecode.choose c (needs ms)).top) :
    ∃ x ∈ ms.zip (addMembers typecode s (shapes ms)).1, 8 * (2 ^ 31 - 1) < x.2.stop x.1 := by
  induction ms generalizing s c with
  | nil => exact absurd hout (Nat.not_le_of_lt htop)
  | cons m ms ih =>
    obtain ⟨hm, hms⟩ := List.forall_mem_cons.1 hms
    obtain ⟨hme, hexact⟩ := List.forall_mem_cons.1 hexact
    have hfits := choose_fits hc hm
    rcases Nat.lt_or_ge (c.put (typecode.choose c m.need) m.need).top (2 ^ 31) with hput | hput
    · have hstep := addMember_agrees hm hme hag hc hput
      obtain ⟨x, hx, hstop⟩ := ih hms hexact hstep (Cursor.put_sound hfits) hput hout
      exact ⟨x, List.mem_cons_of_mem _ hx, hstop⟩
    · refine ⟨(m, (addMember typecode s m.shape).1), List.mem_cons_self, ?_⟩
      have hstop : 8 * (2 ^ 31 - 1) < (typecode.choose c m.need).stop m.need := by
        rcases le_max_iff.1 hput with h | h
        all_goals omega
      show 8 * (2 ^ 31 - 1) < (addMember typecode s m.shape).1.start + m.need.bits
      rw [addMember_var hm hag hc htop, varAt_start _ hfits]
      rw [Slot.stop] at hstop
      omega

/-- The packing of a whole definition. -/
def packed (typecode : AggrCode) (members : List Member) : Cursor :=
  final typecode.choose ⟨0, none⟩ (needs members)

theorem start_agrees : Agrees .start ⟨0, none⟩ := ⟨rfl, rfl, show (0 : Int) ≤ 32 by decide⟩

theorem start_sound : (⟨0, none⟩ : Cursor).Sound 4 := ⟨Nat.le_refl _, nofun⟩

theorem build_legal {members : List Member} :
    (ciBuildAggrDef typecode members).diags = [] ↔ ∀ m ∈ members, m.shape.Legal typecode := by
  refine (addMembers_legal typecode .start (shapes members)).trans ?_
  rw [shapes_eq]
  simp

theorem need_eq (typecode : AggrCode) (members : List Member) : (CType.aggr typecode members).need =
    roundUp (ciBuildAggrDef typecode members).ae_alignment (packed typecode members).top := rfl

theorem build_alignment_dvd (typecode : AggrCode) (members : List Member) :
    (ciBuildAggrDef typecode members).ae_alignment ∣ 8 :=
  ciTypeAlignment_dvd (.aggr typecode members)

/-- The recorded size, while the members end where an int can say. -/
theorem build_size {members : List Member} (hms : ∀ m ∈ members, m.shape.Legal typecode)
    (hexact : ∀ m ∈ members, m.Exact) (htop : (packed typecode members).top < 2 ^ 31) :
    (ciBuildAggrDef typecode members).ae_size = toInt (CType.aggr typecode members).need := by
  obtain ⟨-, hlast⟩ := addMembers_agrees hms hexact start_agrees start_sound htop
  have htop32 : (packed typecode members).top < 2 ^ 32 := by omega
  have halign := ciAlignAddr_eq (build_alignment_dvd typecode members) htop32
  rw [need_eq, ← halign]
  show toInt (ciAlignAddr (addMembers typecode .start (shapes members)).2.1.max_addr _) = _
  rw [hlast.top]
  rfl

theorem toInt_eq {n : Nat} (h : n < 2 ^ 31) : toInt n = n := by
  rw [toInt, BitVec.toInt_ofNat', Int.bmod_eq_of_le] <;> omega

mutual

theorem ciTypesize_eq : ∀ t : CType, t.diags = [] → t.need < 2 ^ 31 → ciTypesize t = t.need
  | .basic ty_code, _, _ => by cases ty_code <;> rfl
  | .array di_high ty_base, hdiags, hneed => by
    have hneed' : (di_high + 1) * ty_base.need < 2 ^ 31 := hneed
    have hbase : ty_base.need ≤ (di_high + 1) * ty_base.need := Nat.le_mul_of_pos_left _ (by omega)
    have ih := ciTypesize_eq ty_base hdiags (by omega)
    show toLong ((di_high + 1) * ciTypesize ty_base) = (((di_high + 1) * ty_base.need : Nat) : Int)
    rw [ih, toLong, BitVec.toInt_ofInt]
    have : ((di_high : Int) + 1) * ty_base.need = (((di_high + 1) * ty_base.need : Nat) : Int) := by
      push_cast
      rfl
    rw [this, Int.bmod_eq_of_le] <;> omega
  | .aggr ty_code members, hdiags, hneed => by
    obtain ⟨hmembers, hbuild⟩ := List.append_eq_nil_iff.1 hdiags
    have hexact := membersExact members hmembers
    have htop : (packed ty_code members).top < 2 ^ 31 :=
      (le_roundUp (Nat.pos_of_dvd_of_pos (build_alignment_dvd ..) (by decide)) _).trans_lt hneed
    exact (build_size (build_legal.1 hbuild) hexact htop).trans (toInt_eq hneed)

theorem Member.exact : ∀ m : Member, m.diags = [] → m.Exact
  | .object va_type, hdiags => ciTypesize_eq va_type hdiags
  | .bitfield .., _ => trivial
  | .incomplete _, _ => trivial

theorem membersExact : ∀ ms : List Member, membersDiags ms = [] → ∀ m ∈ ms, m.Exact
  | [], _ => nofun
  | m :: ms, hdiags => by
    obtain ⟨hm, hms⟩ := List.append_eq_nil_iff.1 hdiags
    exact List.forall_mem_cons.2 ⟨m.exact hm, membersExact ms hms⟩

end

/-! ## The layout -/

theorem addMembers_length (typecode : AggrCode) (s : Loop) (ms : List Shape) :
    (addMembers typecode s ms).1.length = ms.length := by
  induction ms generalizing s with
  | nil => rfl
  | cons m ms ih => exact congrArg (· + 1) (ih _)

theorem zip_varAt (ms : List Member) (l : List Slot) :
    ms.zip (List.zipWith varAt (needs ms) l) = (ms.zip l).map fun x => (x.1, varAt x.1.need x.2) := by
  induction ms generalizing l with
  | nil => rfl
  | cons m ms ih =>
    cases l with
    | nil => rfl
    | cons s l => exact congrArg _ (ih l)

theorem zip_needs (ms : List Member) (l : List Slot) :
    (needs ms).zip l = (ms.zip l).map fun x => (x.1.need, x.2) := by
  rw [needs_eq, List.zip_map_left]
  rfl

theorem slots_fit {ms : List Member} (hms : ∀ m ∈ ms, m.shape.Legal typecode) (hc : c.Sound 4) :
    ∀ x ∈ ms.zip (slots typecode.choose c (needs ms)), x.2.Fits 4 x.1.need := by
  induction ms generalizing c with
  | nil => nofun
  | cons m ms ih =>
    obtain ⟨hm, hms⟩ := List.forall_mem_cons.1 hms
    have hfits := choose_fits hc hm
    exact List.forall_mem_cons.2 ⟨hfits, ih hms (Cursor.put_sound hfits)⟩

theorem slots_union (c : Cursor) (ns : List Need) :
    ∀ s ∈ slots AggrCode.UNION.choose c ns, s = ⟨0, 0⟩ := by
  induction ns generalizing c with
  | nil => nofun
  | cons n ns ih => exact List.forall_mem_cons.2 ⟨rfl, ih _⟩

theorem fits_aligned {m : Member} {s : Slot} (hm : m.shape.Legal typecode)
    (h : s.Fits 4 m.need) : m.alignment ∣ (varAt m.need s).va_addr := by
  cases m with
  | object va_type => exact h.1
  | bitfield bf_type bf_width => exact h.1
  | incomplete va_name => exact hm.elim

/-- The members of a definition with the slots that they are in. -/
theorem build_zip {members : List Member} (hms : ∀ m ∈ members, m.shape.Legal typecode)
    (hexact : ∀ m ∈ members, m.Exact) (htop : (packed typecode members).top < 2 ^ 31) :
    members.zip (ciBuildAggrDef typecode members).ae_aggr_members =
      (members.zip (slots typecode.choose ⟨0, none⟩ (needs members))).map fun x =>
        (x.1, varAt x.1.need x.2) := by
  have hvars : (ciBuildAggrDef typecode members).ae_aggr_members = _ :=
    (addMembers_agrees hms hexact start_agrees start_sound htop).1
  rw [hvars, zip_varAt]

theorem laidOut_of_lt {members : List Member} (hms : ∀ m ∈ members, m.shape.Legal typecode)
    (hexact : ∀ m ∈ members, m.Exact) (h : (CType.aggr typecode members).need < 2 ^ 31) :
    LaidOut typecode members (ciBuildAggrDef typecode members) := by
  have hpos : 0 < (ciBuildAggrDef typecode members).ae_alignment :=
    Nat.pos_of_dvd_of_pos (build_alignment_dvd ..) (by decide)
  have htop : (packed typecode members).top ≤ (CType.aggr typecode members).need := le_roundUp hpos _
  have hsize := (build_size hms hexact (htop.trans_lt h)).trans (toInt_eq h)
  have hzip := build_zip hms hexact (htop.trans_lt h)
  have hfits := slots_fit hms start_sound
  have hstart : ∀ x ∈ members.zip (slots typecode.choose ⟨0, none⟩ (needs members)),
      (varAt x.1.need x.2).start = x.2.start := fun x hx => varAt_start _ (hfits x hx)
  constructor
  case complete =>
    exact (addMembers_length ..).trans (by rw [shapes_eq, List.length_map])
  case aligned =>
    rw [hzip, List.forall_mem_map]
    exact fun x hx => fits_aligned (hms _ (List.of_mem_zip hx).1) (hfits x hx)
  case apart =>
    rintro rfl
    have hneeds : ∀ n ∈ needs members, n.Sound 4 := by
      rw [needs_eq]
      exact List.forall_mem_map.2 fun m hm => (hms m hm).need
    have hapart := (slots_apart (by decide) _ start_sound hneeds).2
    rw [zip_needs, List.pairwise_map] at hapart
    rw [hzip, List.pairwise_map]
    refine hapart.imp_of_mem fun hx hy hle => ?_
    rw [Var.stop, hstart _ hx, hstart _ hy]
    exact_mod_cast hle
  case together =>
    rintro rfl
    rw [hzip, List.forall_mem_map]
    intro x hx
    rw [hstart x hx, slots_union _ _ _ (List.of_mem_zip hx).2]
    rfl
  case inside =>
    rw [hzip, List.forall_mem_map]
    intro x hx
    have hstop := stop_le_final typecode.choose ⟨0, none⟩ (needs members)
    rw [zip_needs, List.forall_mem_map] at hstop
    have hle : x.2.stop x.1.need ≤ 8 * (packed typecode members).top := hstop x hx
    rw [Slot.stop] at hle
    show (varAt x.1.need x.2).start + x.1.need.bits ≤ _
    rw [hstart x hx, hsize]
    omega
  case multiple =>
    rw [hsize]
    exact Int.natCast_dvd_natCast.2 (dvd_roundUp ..)
  case greatest => exact build_alignment typecode members
  case divides =>
    intro m hm
    rw [build_alignment]
    exact (foldr_max_dvd (by simpa using alignments_dvd members)).2 _ (List.mem_map_of_mem hm)

theorem lt_of_laidOut {members : List Member} (hms : ∀ m ∈ members, m.shape.Legal typecode)
    (hexact : ∀ m ∈ members, m.Exact)
    (h : LaidOut typecode members (ciBuildAggrDef typecode members)) :
    (CType.aggr typecode members).need < 2 ^ 31 := by
  have hdvd := build_alignment_dvd typecode members
  have hpos := Nat.pos_of_dvd_of_pos hdvd (by decide)
  have hint : (ciBuildAggrDef typecode members).ae_size < 2 ^ 31 := BitVec.toInt_lt
  rcases Nat.lt_or_ge (packed typecode members).top (2 ^ 31) with htop | htop
  · -- the end is rounded up to 2 ^ 31 at most, which is negative as an int
    have hle : (CType.aggr typecode members).need ≤ 2 ^ 31 :=
      roundUp_le hpos (hdvd.trans ⟨2 ^ 28, rfl⟩) htop.le
    refine lt_of_le_of_ne hle fun heq => ?_
    have hsize := build_size hms hexact htop
    rw [heq] at hsize
    have hneg : (ciBuildAggrDef typecode members).ae_size = -2 ^ 31 := hsize.trans (by decide)
    cases members with
    | nil => cases typecode <;> exact absurd heq (by decide)
    | cons m ms =>
      have hstop := h.inside (m, (addMember typecode .start m.shape).1) List.mem_cons_self
      have hm := hms m List.mem_cons_self
      have hvar := addMember_var hm start_agrees start_sound (by decide)
      have hstart := varAt_start _ (choose_fits start_sound hm)
      change (addMember typecode .start m.shape).1.start + m.need.bits ≤ _ at hstop
      rw [hvar, hstart, hneg] at hstop
      omega
  · obtain ⟨x, hx, hstop⟩ := addMembers_outside hms hexact start_agrees start_sound (by decide) htop
    have := h.inside x hx
    omega

end ups_rules.aggr_layout
