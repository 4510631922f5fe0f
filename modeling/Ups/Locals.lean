-- Where the compiler puts the automatic variables and the parameters of a function
-- (set_var_addrs, set_parameter_addrs and set_local_addrs in ci_compile.c), and that two
-- variables that are live together have no byte in common.
import Mathlib.Data.List.Pairwise
import Mathlib.Tactic.Linarith

namespace ups_rules.locals

/-! ## Types -/

/-- The types that an assignment stores, by their typecodes. -/
inductive Scalar where
  | TY_CHAR | TY_UCHAR | TY_SHORT | TY_USHORT | TY_INT | TY_UINT | TY_BOOLEAN | TY_ENUM | TY_U_ENUM
  | TY_LONG | TY_ULONG | TY_LONGLONG | TY_ULONGLONG | TY_FLOAT | TY_DOUBLE | DT_PTR_TO
deriving DecidableEq

/-- A struct or union whose members are known. Its alignment is the greatest of theirs. -/
structure AggrDef where
  ae_size : Nat
  ae_alignment : Nat
  alignment_dvd : ae_alignment ∣ 8

/-- The types of variables. The size of an array is `di_high + 1`. -/
inductive CType where
  | scalar (s : Scalar)
  | aggregate (ae : AggrDef)
  | array (base : CType) (size : Nat)

def Scalar.size : Scalar → Nat
  | .TY_CHAR | .TY_UCHAR => 1
  | .TY_SHORT | .TY_USHORT => 2
  | .TY_INT | .TY_UINT | .TY_BOOLEAN | .TY_ENUM | .TY_U_ENUM | .TY_FLOAT => 4
  | .TY_LONG | .TY_ULONG | .TY_LONGLONG | .TY_ULONGLONG | .TY_DOUBLE | .DT_PTR_TO => 8

def Scalar.alignment : Scalar → Nat
  | .TY_CHAR | .TY_UCHAR => 1
  | .TY_SHORT | .TY_USHORT => 2
  | .TY_INT | .TY_UINT | .TY_BOOLEAN | .TY_FLOAT | .TY_DOUBLE => 4
  | .TY_ENUM | .TY_U_ENUM | .TY_LONG | .TY_ULONG | .TY_LONGLONG | .TY_ULONGLONG | .DT_PTR_TO => 8

def ciTypesize : CType → Nat
  | .scalar s => s.size
  | .aggregate ae => ae.ae_size
  | .array base size => size * ciTypesize base

def ciTypeAlignment : CType → Nat
  | .scalar s => s.alignment
  | .aggregate ae => ae.ae_alignment
  | .array base _ => ciTypeAlignment base

def ciAlignAddr (addr alignment : Nat) : Nat :=
  let pad := alignment - addr % alignment
  if pad = alignment then addr else addr + pad

def ciAlignAddrForType (addr : Nat) (type : CType) : Nat :=
  ciAlignAddr addr (ciTypeAlignment type)

/-! ## Variables -/

/-- The classes that the layout tells apart. -/
inductive VarClass where
  | CL_AUTO | CL_ARG | other
deriving DecidableEq

structure Var where
  va_class : VarClass
  va_type : CType

/-- A variable with its address, which counts from the frame pointer in the end. -/
structure Placed where
  va_type : CType
  va_addr : Int

/-- A block_t with its inner blocks and the blocks behind it. -/
inductive Blocks (α : Type) where
  | null
  | block (bl_vars : List α) (bl_blocks bl_next : Blocks α)

/-- A function has one outer block, which holds its parameters and outermost variables. -/
structure Func where
  returns_aggregate : Bool
  bl_vars : List Var
  bl_blocks : Blocks Var

/-! ## The layout -/

/-- A parameter is filled up to a stack word, whose low bytes it has. -/
def fillUp (doing_params : Bool) (tsize : Nat) : Nat :=
  if doing_params && decide (tsize < 8) then 8 - tsize else 0

/-- The loop of `set_var_addrs`: the variables that it gives addresses to, and where the next one
goes. -/
def setVarAddrs (doing_params : Bool) : List Var → Nat → List Placed × Nat
  | [], stack_addr => ([], stack_addr)
  | v :: vs, stack_addr =>
    if doing_params ≠ decide (v.va_class = .CL_ARG) then setVarAddrs doing_params vs stack_addr
    else if v.va_class = .other then setVarAddrs doing_params vs stack_addr
    else
      let tsize := ciTypesize v.va_type
      let va_addr := ciAlignAddrForType stack_addr v.va_type
      let (rest, stack_addr) :=
        setVarAddrs doing_params vs (va_addr + tsize + fillUp doing_params tsize)
      ({ va_type := v.va_type, va_addr := va_addr } :: rest, stack_addr)

/-- The maximum over the blocks starts with the base address. -/
def assignLocalAddrs : Blocks Var → Nat → Blocks Placed × Nat
  | .null, base_addr => (.null, base_addr)
  | .block bl_vars bl_blocks bl_next, base_addr =>
    let (vars, addr) := setVarAddrs false bl_vars base_addr
    let (blocks, addr) := assignLocalAddrs bl_blocks addr
    let (next, max_addr) := assignLocalAddrs bl_next base_addr
    (.block vars blocks next, max addr max_addr)

/-- The parameters, and where they end. -/
def setParameterAddrs (f : Func) : List Placed × Nat :=
  setVarAddrs true f.bl_vars (3 * 8 + if f.returns_aggregate then 8 else 0)

def Placed.adjust (delta : Int) (v : Placed) : Placed := { v with va_addr := v.va_addr + delta }

def adjustLocalAddrs (delta : Int) : Blocks Placed → Blocks Placed
  | .null => .null
  | .block bl_vars bl_blocks bl_next =>
    .block (bl_vars.map (Placed.adjust delta)) (adjustLocalAddrs delta bl_blocks)
      (adjustLocalAddrs delta bl_next)

/-- `stack_addr` is made a multiple of the size of a stack word. -/
def roundUp (stack_addr : Nat) : Nat :=
  if stack_addr % 8 ≠ 0 then stack_addr + (8 - stack_addr % 8) else stack_addr

/-- The variables of the function, and the size of the frame, `tx_sp`. -/
def setLocalAddrs (f : Func) : Blocks Placed × Nat :=
  let (blocks, addr) := assignLocalAddrs (.block f.bl_vars f.bl_blocks .null) 0
  (adjustLocalAddrs (-(roundUp addr : Int)) blocks, roundUp addr)

/-! ## What a layout is for -/

def Blocks.all {α : Type} : Blocks α → List α
  | .null => []
  | .block bl_vars bl_blocks bl_next => bl_vars ++ bl_blocks.all ++ bl_next.all

/-- The variables of the same block and of nested ones are live together. `R` holds of every two
of them, the one declared first on the left. -/
def LiveTogether {α : Type} (R : α → α → Prop) : Blocks α → Prop
  | .null => True
  | .block bl_vars bl_blocks bl_next =>
    bl_vars.Pairwise R ∧ (∀ v ∈ bl_vars, ∀ w ∈ bl_blocks.all, R v w) ∧
      LiveTogether R bl_blocks ∧ LiveTogether R bl_next

/-- The address behind the last byte. -/
def Placed.limit (v : Placed) : Int := v.va_addr + ciTypesize v.va_type

def Placed.Aligned (v : Placed) : Prop := (ciTypeAlignment v.va_type : Int) ∣ v.va_addr

/-- The second variable begins behind the first. -/
def Before (v w : Placed) : Prop := v.limit ≤ w.va_addr

/-! ## Alignment -/

theorem ciTypeAlignment_dvd (t : CType) : ciTypeAlignment t ∣ 8 := by
  induction t with
  | scalar s => cases s <;> decide
  | aggregate ae => exact ae.alignment_dvd
  | array base size ih => exact ih

theorem le_ciAlignAddr (addr alignment : Nat) : addr ≤ ciAlignAddr addr alignment := by
  unfold ciAlignAddr
  dsimp only
  split
  · exact le_refl addr
  · exact Nat.le_add_right _ _

theorem dvd_ciAlignAddr (addr : Nat) {alignment : Nat} (h : alignment ∣ 8) :
    alignment ∣ ciAlignAddr addr alignment := by
  have hpos : 0 < alignment := Nat.pos_of_dvd_of_pos h (by decide)
  have hlt := Nat.mod_lt addr hpos
  have hdiv := Nat.div_add_mod addr alignment
  unfold ciAlignAddr
  dsimp only
  split
  case isTrue heq =>
    exact Nat.dvd_of_mod_eq_zero (by omega)
  case isFalse hne =>
    have hsum : addr + (alignment - addr % alignment) = alignment * (addr / alignment + 1) := by
      rw [Nat.mul_add, Nat.mul_one]
      omega
    rw [hsum]
    exact Nat.dvd_mul_right _ _

theorem le_roundUp (n : Nat) : n ≤ roundUp n := by
  unfold roundUp
  split <;> omega

theorem dvd_roundUp (n : Nat) : 8 ∣ roundUp n := by
  unfold roundUp
  split <;> omega

/-! ## Variables one behind the other -/

/-- Variables that lie between two addresses, one behind the other. -/
structure Laid (a e : Nat) (ps : List Placed) : Prop where
  le : a ≤ e
  within : ∀ p ∈ ps, (a : Int) ≤ p.va_addr ∧ p.limit ≤ e
  aligned : ∀ p ∈ ps, p.Aligned
  ordered : ps.Pairwise Before

theorem setVarAddrs_laid (doing_params : Bool) (vs : List Var) (a : Nat) :
    Laid a (setVarAddrs doing_params vs a).2 (setVarAddrs doing_params vs a).1 := by
  induction vs generalizing a with
  | nil => exact ⟨le_refl a, by simp [setVarAddrs], by simp [setVarAddrs], .nil⟩
  | cons v vs ih =>
    unfold setVarAddrs
    split
    · exact ih a
    split
    · exact ih a
    dsimp only
    generalize hstart : ciAlignAddrForType a v.va_type = start
    generalize hfill : fillUp doing_params (ciTypesize v.va_type) = fill
    have hle : a ≤ start := hstart ▸ le_ciAlignAddr a _
    have hdvd : ciTypeAlignment v.va_type ∣ start :=
      hstart ▸ dvd_ciAlignAddr a (ciTypeAlignment_dvd v.va_type)
    have hrest := ih (start + ciTypesize v.va_type + fill)
    have hend := hrest.le
    refine ⟨by omega, ?_, ?_, ?_⟩
    · intro p hp
      rcases List.mem_cons.mp hp with rfl | hp
      · simp only [Placed.limit]
        omega
      · have := hrest.within p hp
        omega
    · intro p hp
      rcases List.mem_cons.mp hp with rfl | hp
      · exact Int.natCast_dvd_natCast.mpr hdvd
      · exact hrest.aligned p hp
    · refine .cons ?_ hrest.ordered
      intro p hp
      have := (hrest.within p hp).1
      simp only [Before, Placed.limit]
      omega

/-! ## Blocks -/

section
variable {α β : Type} {R S : α → α → Prop}

theorem LiveTogether.imp_mem {t : Blocks α} (h : LiveTogether R t)
    (himp : ∀ v ∈ t.all, ∀ w ∈ t.all, R v w → S v w) : LiveTogether S t := by
  induction t with
  | null => trivial
  | block vars blocks next ihb ihn =>
    obtain ⟨hvars, hinner, hblocks, hnext⟩ := h
    simp only [Blocks.all, List.mem_append] at himp
    refine ⟨hvars.imp_of_mem ?_, ?_, ihb hblocks ?_, ihn hnext ?_⟩
    · exact fun hv hw => himp _ (.inl (.inl hv)) _ (.inl (.inl hw))
    · exact fun v hv w hw => himp v (.inl (.inl hv)) w (.inl (.inr hw)) (hinner v hv w hw)
    · exact fun v hv w hw => himp v (.inl (.inr hv)) w (.inl (.inr hw))
    · exact fun v hv w hw => himp v (.inr hv) w (.inr hw)

theorem LiveTogether.and {t : Blocks α} (hr : LiveTogether R t) (hs : LiveTogether S t) :
    LiveTogether (fun v w => R v w ∧ S v w) t := by
  induction t with
  | null => trivial
  | block vars blocks next ihb ihn =>
    exact ⟨hr.1.and hs.1, fun v hv w hw => ⟨hr.2.1 v hv w hw, hs.2.1 v hv w hw⟩,
      ihb hr.2.2.1 hs.2.2.1, ihn hr.2.2.2 hs.2.2.2⟩

end

/-- Blocks whose variables lie between two addresses. -/
structure LaidBlocks (a e : Nat) (t : Blocks Placed) : Prop where
  le : a ≤ e
  within : ∀ p ∈ t.all, (a : Int) ≤ p.va_addr ∧ p.limit ≤ e
  aligned : ∀ p ∈ t.all, p.Aligned
  ordered : LiveTogether Before t

/-- The blocks inside a block begin behind its variables; the next block begins where it did. -/
theorem assignLocalAddrs_laid (t : Blocks Var) (a : Nat) :
    LaidBlocks a (assignLocalAddrs t a).2 (assignLocalAddrs t a).1 := by
  induction t generalizing a with
  | null => exact ⟨le_refl a, by simp [assignLocalAddrs, Blocks.all],
      by simp [assignLocalAddrs, Blocks.all], trivial⟩
  | block vars blocks next ihb ihn =>
    have hvars := setVarAddrs_laid false vars a
    have hblocks := ihb (setVarAddrs false vars a).2
    have hnext := ihn a
    have hle := hvars.le
    have hle' := hblocks.le
    simp only [assignLocalAddrs]
    refine ⟨by omega, ?_, ?_, hvars.ordered, ?_, hblocks.ordered, hnext.ordered⟩
    · intro p hp
      simp only [Blocks.all, List.mem_append] at hp
      rcases hp with (hp | hp) | hp
      · have := hvars.within p hp
        omega
      · have := hblocks.within p hp
        omega
      · have := hnext.within p hp
        omega
    · intro p hp
      simp only [Blocks.all, List.mem_append] at hp
      rcases hp with (hp | hp) | hp
      · exact hvars.aligned p hp
      · exact hblocks.aligned p hp
      · exact hnext.aligned p hp
    · intro v hv w hw
      have := (hvars.within v hv).2
      have := (hblocks.within w hw).1
      simp only [Before]
      omega

/-! ## The frame -/

theorem all_adjustLocalAddrs (delta : Int) (t : Blocks Placed) :
    (adjustLocalAddrs delta t).all = t.all.map (Placed.adjust delta) := by
  induction t with
  | null => rfl
  | block vars blocks next ihb ihn => simp [adjustLocalAddrs, Blocks.all, ihb, ihn]

theorem liveTogether_adjust {R : Placed → Placed → Prop} (delta : Int) {t : Blocks Placed}
    (h : LiveTogether (fun v w => R (v.adjust delta) (w.adjust delta)) t) :
    LiveTogether R (adjustLocalAddrs delta t) := by
  induction t with
  | null => trivial
  | block vars blocks next ihb ihn =>
    obtain ⟨hvars, hinner, hblocks, hnext⟩ := h
    refine ⟨List.pairwise_map.mpr hvars, ?_, ihb hblocks, ihn hnext⟩
    rw [all_adjustLocalAddrs]
    intro v hv w hw
    obtain ⟨v', hv', rfl⟩ := List.mem_map.mp hv
    obtain ⟨w', hw', rfl⟩ := List.mem_map.mp hw
    exact hinner v' hv' w' hw'

/-- What is right about the frame of every function. -/
structure FrameLaid (size : Nat) (t : Blocks Placed) : Prop where
  size_dvd : 8 ∣ size
  within : ∀ p ∈ t.all, -(size : Int) ≤ p.va_addr ∧ p.limit ≤ 0
  aligned : ∀ p ∈ t.all, p.Aligned
  ordered : LiveTogether Before t

theorem setLocalAddrs_laid (f : Func) : FrameLaid (setLocalAddrs f).2 (setLocalAddrs f).1 := by
  have hlaid := assignLocalAddrs_laid (.block f.bl_vars f.bl_blocks .null) 0
  unfold setLocalAddrs
  dsimp only
  generalize (assignLocalAddrs (.block f.bl_vars f.bl_blocks .null) 0).1 = t at hlaid ⊢
  generalize (assignLocalAddrs (.block f.bl_vars f.bl_blocks .null) 0).2 = e at hlaid ⊢
  have hle := le_roundUp e
  have hdvd := dvd_roundUp e
  refine ⟨hdvd, ?_, ?_, ?_⟩
  · rw [all_adjustLocalAddrs]
    intro p hp
    obtain ⟨p', hp', rfl⟩ := List.mem_map.mp hp
    have := hlaid.within p' hp'
    simp only [Placed.adjust, Placed.limit] at this ⊢
    omega
  · rw [all_adjustLocalAddrs]
    intro p hp
    obtain ⟨p', hp', rfl⟩ := List.mem_map.mp hp
    have hsize : (ciTypeAlignment p'.va_type : Int) ∣ (roundUp e : Int) :=
      Int.natCast_dvd_natCast.mpr ((ciTypeAlignment_dvd p'.va_type).trans hdvd)
    exact Int.dvd_add (hlaid.aligned p' hp') (Int.dvd_neg.mpr hsize)
  · apply liveTogether_adjust
    refine hlaid.ordered.imp_mem ?_
    intro v _ w _ h
    simp only [Before, Placed.adjust, Placed.limit] at h ⊢
    omega

theorem setParameterAddrs_laid (f : Func) :
    Laid (3 * 8 + if f.returns_aggregate then 8 else 0) (setParameterAddrs f).2
      (setParameterAddrs f).1 := setVarAddrs_laid true f.bl_vars _

end ups_rules.locals
