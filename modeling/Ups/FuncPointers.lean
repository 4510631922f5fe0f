-- The words that stand for the address of a function. The compiler stores the index of the
-- function (short_form in ci_compile_expr.c), the loader puts the number of the file above it
-- (xc_load.c), and OC_CALL_INDIRECT takes the two apart (xc_machine.c).
import Ups.CodeText

open le_bytes
open ups_rules.machine
open ups_rules.opcodes
open ups_rules.execute
open ups_rules.code_text
open ups_rules.proc_opcodes

namespace ups_rules.func_pointers

/-! ## The pure model -/

/-- `none` is a panic. -/
def shortForm (func_index : Int) : Option Word :=
  let res := BitVec.ofInt 16 func_index
  if res.toInt = func_index then some (res.setWidth 64) else none

/-- `(cf - cftab) << 16` for the file `n`. -/
def fileBits (n : Nat) : Word := BitVec.ofNat 64 n <<< 16

/-- `load_text` for a constant in the text. -/
def relocText (text : Mem 64) (loc : Word) (n : Nat) : Mem 64 :=
  store text loc 4 (BitVec.ofNat 64 (load text loc 4) ||| fileBits n)

/-- `load_text` for a word of the data, and `ci_load` for one of the external data. -/
def relocData (mem : Mem 64) (loc : Word) (n : Nat) : Mem 64 :=
  store mem loc 8 (loadWord mem loc ||| fileBits n)

/-- What `OC_CONSTPUSH_L` pushes of a constant that was emitted as `res` and relocated. -/
def textPointer (text : Mem 64) (loc : Word) (n : Nat) (res : Word) : Word :=
  BitVec.ofNat 64 (load (relocText (store text loc 4 res) loc n) loc 4)

/-- What is read of a data word that was initialised with `res` and relocated. -/
def dataPointer (mem : Mem 64) (loc : Word) (n : Nat) (res : Word) : Word :=
  loadWord (relocData (store mem loc 8 res) loc n) loc

/-- `&cftab[n]` -/
def fileAt (env : Env) (n : Nat) : Word :=
  env.cftab + BitVec.ofNat 64 n * BitVec.ofNat 64 codefileSize

/-! ## What function pointers are for -/

/-- A word stored for the address of the function `func_index` of the file `n`. -/
inductive IsPointer (n : Nat) (func_index : Int) : Word → Prop where
  | text (mem : Mem 64) (loc res : Word) (h : shortForm func_index = some res) :
    IsPointer n func_index (textPointer mem loc n res)
  | data (mem : Mem 64) (loc res : Word) (h : shortForm func_index = some res) :
    IsPointer n func_index (dataPointer mem loc n res)

/-- A call of the function `func_index` of the file `fcf`, which is loaded first. -/
def enter (env : Env) (fcf : Word) (func_index : Int) (m : Machine) : Outcome :=
  match ensureLoaded env fcf m with
  | none => .quit .CI_ER_LOADFAULT m
  | some m => funcCall env m fcf func_index

/-- The operand of the direct call that the compiler emits is at the text pointer. -/
def AtDirectCall (func_index : Int) (s : OpSize) (m : Machine) : Prop :=
  s = formFor (BitVec.ofInt 64 func_index) ∧
    readBytes m.text m.pc s.nbytes = leBytes s.nbytes (BitVec.ofInt 64 func_index).toNat

/-- In a program of `ncf` files a pointer calls the function that a direct call from its file
calls, and two pointers are equal when they are to the same function of the same file. -/
structure PointersDecode (env : Env) (ncf : Nat) : Prop where
  indirect : ∀ n < ncf, ∀ func_index (m : Machine), IsPointer n func_index (m.slot 0) →
    execOp env .OC_CALL_INDIRECT m = enter env (fileAt env n) func_index m.pop
  direct : ∀ n < ncf, ∀ func_index s (m : Machine), (shortForm func_index).isSome →
    AtDirectCall func_index s m → m.cf = fileAt env n →
    execOp env (.OC_CALL s) m = funcCall env (past m s) (fileAt env n) func_index
  distinct : ∀ n < ncf, ∀ n' < ncf, ∀ func_index func_index' w w', IsPointer n func_index w →
    IsPointer n' func_index' w' → (w = w' ↔ n = n' ∧ func_index = func_index')

/-! ## The word of a pointer -/

section
variable {func_index : Int} {res : Word} {n : Nat}

theorem shortForm_eq (h : shortForm func_index = some res) :
    (BitVec.ofInt 16 func_index).toInt = func_index ∧
      res.toNat = (BitVec.ofInt 16 func_index).toNat := by
  unfold shortForm at h
  dsimp only at h
  split at h
  case isTrue heq =>
    refine ⟨heq, ?_⟩
    have hlt := (BitVec.ofInt 16 func_index).isLt
    rw [← Option.some.inj h, BitVec.toNat_setWidth]
    omega
  case isFalse => cases h

/-- The index and the number of the file have no bit in common. -/
theorem or_fileBits (hres : res.toNat < 65536) (hn : n < 2 ^ 48) :
    (res ||| fileBits n).toNat = 65536 * n + res.toNat := by
  have hbits : (fileBits n).toNat = 2 ^ 16 * n := by
    unfold fileBits
    rw [BitVec.toNat_shiftLeft, BitVec.toNat_ofNat, Nat.shiftLeft_eq]
    omega
  rw [BitVec.toNat_or, hbits, Nat.or_comm, ← Nat.two_pow_add_eq_or_of_lt hres]

theorem dataPointer_toNat (mem : Mem 64) (loc : Word) (hres : res.toNat < 65536)
    (hn : n < 2 ^ 48) : (dataPointer mem loc n res).toNat = 65536 * n + res.toNat := by
  unfold dataPointer relocData
  simp only [loadWord_store]
  exact or_fileBits hres hn

/-- A constant in the text keeps four bytes. -/
theorem textPointer_toNat (mem : Mem 64) (loc : Word) (hres : res.toNat < 65536)
    (hn : n < 2 ^ 48) :
    (textPointer mem loc n res).toNat = 65536 * (n % 65536) + res.toNat := by
  have hload : BitVec.ofNat 64 (load (store mem loc 4 res) loc 4) = res := by
    rw [load_store _ _ _ _ (by omega)]
    apply BitVec.eq_of_toNat_eq
    rw [BitVec.toNat_ofNat]
    omega
  unfold textPointer relocText
  rw [hload, load_store _ _ _ _ (by omega), or_fileBits hres hn, BitVec.toNat_ofNat]
  omega

/-- With a file number of two bytes every pointer is the number and the index. -/
theorem IsPointer.toNat {w : Word} (h : IsPointer n func_index w) (hn : n < 65536) :
    w.toNat = 65536 * n + (BitVec.ofInt 16 func_index).toNat ∧
      (BitVec.ofInt 16 func_index).toInt = func_index := by
  have hlt := (BitVec.ofInt 16 func_index).isLt
  cases h with
  | text mem loc res h =>
    obtain ⟨hint, hres⟩ := shortForm_eq h
    refine ⟨?_, hint⟩
    rw [textPointer_toNat mem loc (by omega) (by omega), hres, Nat.mod_eq_of_lt hn]
  | data mem loc res h =>
    obtain ⟨hint, hres⟩ := shortForm_eq h
    refine ⟨?_, hint⟩
    rw [dataPointer_toNat mem loc (by omega) (by omega), hres]

/-- `addr >> 16` and `(short)addr` -/
theorem IsPointer.decode {w : Word} (h : IsPointer n func_index w) (hn : n < 65536) :
    w >>> 16 = BitVec.ofNat 64 n ∧ (w.setWidth 16).toInt = func_index := by
  obtain ⟨hw, hint⟩ := h.toNat hn
  have hlt := (BitVec.ofInt 16 func_index).isLt
  constructor
  · apply BitVec.eq_of_toNat_eq
    rw [BitVec.toNat_ushiftRight, Nat.shiftRight_eq_div_pow, hw, BitVec.toNat_ofNat]
    omega
  · have hlow : w.setWidth 16 = BitVec.ofInt 16 func_index := by
      apply BitVec.eq_of_toNat_eq
      rw [BitVec.toNat_setWidth, hw]
      omega
    rw [hlow, hint]

/-- The relocated constant is what its instruction pushes. -/
theorem execOp_constpush (env : Env) (m : Machine) (mem : Mem 64)
    (h : m.text = relocText (store mem m.pc 4 res) m.pc n) :
    execOp env (.OC_CONSTPUSH .L) m = .next ((past m .L).push (textPointer mem m.pc n res)) := by
  simp [execOp, operand, Machine.get, OpSize.nbytes, h, textPointer]

theorem execOp_call_indirect (env : Env) (m : Machine) :
    execOp env .OC_CALL_INDIRECT m =
      enter env (env.cftab + (m.slot 0 >>> 16) * BitVec.ofNat 64 codefileSize)
        ((m.slot 0).setWidth 16).toInt m.pop := rfl

/-! ## The operand of a direct call -/

/-- An operand is never cut: the form of the opcode is chosen by its size. -/
theorem toNat_lt_formFor (v : Word) : v.toNat < 256 ^ (formFor v).nbytes := by
  have hlt := v.isLt
  unfold formFor
  split
  case isTrue h => simpa [OpSize.nbytes, BitVec.le_def, Nat.lt_succ_iff] using h
  split
  case isTrue h => simpa [OpSize.nbytes, BitVec.le_def, Nat.lt_succ_iff] using h
  split
  case isTrue h => simpa [OpSize.nbytes, BitVec.le_def, Nat.lt_succ_iff] using h
  case isFalse => simpa [OpSize.nbytes] using hlt

theorem operand_of_emitted {m : Machine} {v : Word}
    (h : readBytes m.text m.pc (formFor v).nbytes = leBytes (formFor v).nbytes v.toNat) :
    operand m (formFor v) = v := by
  unfold operand Machine.get load
  rw [h, ofLeBytes_leBytes, Nat.mod_eq_of_lt (toNat_lt_formFor v)]
  simp

theorem toCInt_ofInt {a : Int} (h : -2 ^ 31 ≤ a ∧ a < 2 ^ 31) : toCInt (BitVec.ofInt 64 a) = a := by
  unfold toCInt
  rw [BitVec.toInt_setWidth, BitVec.toNat_ofInt]
  simp only [Int.bmod_def]
  omega

end

/-! ## The law -/

/-- Function pointers decode as long as the program has not more files than two bytes count. -/
theorem pointers_decode_in_a_program_of_65536_files (env : Env) (ncf : Nat) :
    PointersDecode env ncf ↔ ncf ≤ 65536 := by
  constructor
  · intro h
    by_contra hmany
    have hshort : shortForm 1 = some 1#64 := by decide
    have hsame : textPointer (fun _ => 0#8) 0#64 65536 1#64 =
        textPointer (fun _ => 0#8) 0#64 0 1#64 := by
      apply BitVec.eq_of_toNat_eq
      rw [textPointer_toNat _ _ (by decide) (by omega), textPointer_toNat _ _ (by decide) (by omega)]
    have := (h.distinct 65536 (by omega) 0 (by omega) 1 1 _ _ (.text _ _ _ hshort)
      (.text _ _ _ hshort)).mp hsame
    omega
  · intro hfew
    refine ⟨?_, ?_, ?_⟩
    · intro n hn func_index m hp
      obtain ⟨hfile, hindex⟩ := hp.decode (by omega)
      rw [execOp_call_indirect, hfile, hindex]
      rfl
    · intro n hn func_index s m hshort hat hcf
      obtain ⟨rfl, hbytes⟩ := hat
      obtain ⟨res, hres⟩ := Option.isSome_iff_exists.mp hshort
      have hrange := BitVec.toInt_lt (x := BitVec.ofInt 16 func_index)
      have hrange' := BitVec.le_toInt (BitVec.ofInt 16 func_index)
      rw [(shortForm_eq hres).1] at hrange hrange'
      have hint : toCInt (BitVec.ofInt 64 func_index) = func_index := toCInt_ofInt (by omega)
      simp only [execOp, operand_of_emitted hbytes, hint, hcf]
    · intro n hn n' hn' func_index func_index' w w' hw hw'
      obtain ⟨hv, hint⟩ := hw.toNat (by omega)
      obtain ⟨hv', hint'⟩ := hw'.toNat (by omega)
      have hlt := (BitVec.ofInt 16 func_index).isLt
      have hlt' := (BitVec.ofInt 16 func_index').isLt
      constructor
      · intro heq
        rw [heq] at hv
        have hlow : BitVec.ofInt 16 func_index = BitVec.ofInt 16 func_index' :=
          BitVec.eq_of_toNat_eq (by omega)
        refine ⟨by omega, ?_⟩
        rw [← hint, ← hint', hlow]
      · rintro ⟨rfl, rfl⟩
        exact BitVec.eq_of_toNat_eq (by rw [hv, hv'])

/-- The constant of a function of the file 65536 is the one of the same function of the file 0. -/
theorem a_pointer_into_the_last_of_65537_files_is_one_into_the_first :
    ¬ ∀ env ncf, PointersDecode env ncf := by
  intro h
  have hshort : shortForm 1 = some 1#64 := by decide
  have hsame : textPointer (fun _ => 0#8) 0#64 65536 1#64 =
      textPointer (fun _ => 0#8) 0#64 0 1#64 := by
    apply BitVec.eq_of_toNat_eq
    rw [textPointer_toNat _ _ (by decide) (by omega), textPointer_toNat _ _ (by decide) (by omega)]
  have := ((h quietEnv 65537).distinct 65536 (by omega) 0 (by omega) 1 1 _ _
    (.text _ _ _ hshort) (.text _ _ _ hshort)).mp hsame
  omega

end ups_rules.func_pointers
