-- What is left of an edit buffer when a block cannot be read: the block counts as read.
import Ups.LbufEdits

namespace ups_rules.lbuf

variable {env : Env} {b b' : Bufdata} {α β : Type}

/-! ## A failed read -/

/-- Nothing is lost by a call that could not read a block: the buffer has the same text and length,
and the next call that needs the block reads it. -/
structure NothingLost (file : List Byte) (env : Env) (b b' : Bufdata) (bl : Nat) : Prop where
  text : ∀ s, Represents file b s → Represents file b' s
  buflen : b'.buflen = b.buflen
  again : needText env b' bl = readText env b' bl

/-- A block that could not be read has a text nevertheless. -/
def Marks (m : Except Stop α) : Prop :=
  ∀ b bl, m = .error (.read_failed b bl) → (b.heap bl).text ≠ none

theorem marks_ok (a : α) : Marks (.ok a : Except Stop α) := by
  intro b bl h
  cases h

theorem marks_panicked (text : String) : Marks (.error (.panicked text) : Except Stop α) := by
  intro b bl h
  cases h

theorem marks_null_pointer : Marks (.error .null_pointer : Except Stop α) := by
  intro b bl h
  cases h

theorem marks_out_of_fuel : Marks (.error .out_of_fuel : Except Stop α) := by
  intro b bl h
  cases h

theorem Marks.bind {m : Except Stop α} {f : α → Except Stop β} (hm : Marks m)
    (hf : ∀ a, Marks (f a)) : Marks (m >>= f) := by
  cases m with
  | error e =>
    intro b bl h
    cases h
    exact hm b bl rfl
  | ok a => exact hf a

theorem marks_ite {c : Prop} [Decidable c] {m1 m2 : Except Stop α} (h1 : Marks m1)
    (h2 : Marks m2) : Marks (if c then m1 else m2) := by
  by_cases hc : c
  · rw [if_pos hc]
    exact h1
  · rw [if_neg hc]
    exact h2

theorem marks_textOf (bl : Nat) : Marks (b.textOf bl) := by
  unfold Bufdata.textOf
  cases (b.heap bl).text with
  | none => exact marks_null_pointer
  | some text => exact marks_ok text

/-- The text is set before the read. -/
theorem marks_readText (bl : Nat) : Marks (readText env b bl) := by
  unfold readText
  dsimp only
  intro b' bl' h
  by_cases hread : (env.read_func b.reads (b.heap bl).file_offset (b.heap bl).blocklen
      (allocText env b bl)).1 = true
  · rw [if_pos hread] at h
    cases h
  · rw [if_neg hread] at h
    cases h
    dsimp only
    rw [setBlock_heap_self]
    exact Option.some_ne_none _

theorem marks_needText (bl : Nat) : Marks (needText env b bl) := by
  unfold needText
  cases (b.heap bl).text with
  | none => exact marks_readText bl
  | some text => exact marks_ok b

/-! ## The calls -/

theorem marks_makeBlock (wanted pos : Nat) (prev bl : Option Nat) :
    Marks (makeBlock env b wanted pos prev bl) := by
  cases bl with
  | some bl => exact marks_ok _
  | none => exact marks_ite (marks_ok _) (marks_ite (marks_panicked _) (marks_ok _))

theorem marks_getBlockLoop (wanted fuel pos : Nat) (prev bl : Option Nat) :
    Marks (getBlockLoop env wanted fuel b pos prev bl) := by
  induction fuel generalizing b pos prev bl with
  | zero => exact marks_out_of_fuel
  | succ fuel ih =>
    apply (marks_makeBlock wanted pos prev bl).bind
    rintro ⟨b1, bl1⟩
    cases bl1 with
    | none => exact marks_ok _
    | some bl1 => exact marks_ite (marks_ok _) (ih _ _ _)

theorem marks_getBlock (wanted : Nat) : Marks (getBlock env b wanted) := by
  unfold getBlock
  apply (marks_getBlockLoop _ _ _ _ _).bind
  rintro ⟨b1, pos, prev, bl⟩
  cases bl with
  | none => exact marks_ok _
  | some bl => exact (marks_needText bl).bind fun _ => marks_ok _

theorem marks_setAllFileOffsets : Marks (setAllFileOffsets env b) := by
  apply marks_ite (marks_ok b)
  exact (marks_getBlock _).bind fun _ => marks_ok _

theorem marks_lbufGetBytes (pos : Nat) : Marks (lbufGetBytes env b pos) := by
  apply marks_ite (marks_ok _)
  apply (marks_getBlock pos).bind
  rintro ⟨b1, prev, bl, off⟩
  cases bl with
  | none => exact marks_null_pointer
  | some bl => exact (marks_textOf bl).bind fun _ => marks_ok _

theorem marks_lbufGetBytesBefore (pos : Nat) : Marks (lbufGetBytesBefore env b pos) := by
  apply marks_ite (marks_ok _)
  apply (marks_getBlock (pos - 1)).bind
  rintro ⟨b1, prev, bl, off⟩
  cases bl with
  | none => exact marks_null_pointer
  | some bl => exact (marks_textOf bl).bind fun _ => marks_ok _

theorem marks_zapWithin (prev bl : Option Nat) (off zap : Nat) :
    Marks (zapWithin b prev bl off zap) := by
  apply marks_ite (marks_ok _)
  cases bl with
  | none => exact marks_null_pointer
  | some bl =>
    have hcut : Marks (cutBlock b bl off zap) :=
      marks_ite (marks_ok _) ((marks_textOf bl).bind fun _ => marks_ok _)
    exact hcut.bind fun _ => marks_ok _

theorem marks_zapBlocks (fuel : Nat) (prev bl : Option Nat) (zap : Nat) :
    Marks (zapBlocks fuel b prev bl zap) := by
  induction fuel generalizing b bl zap with
  | zero => exact marks_out_of_fuel
  | succ fuel ih =>
    cases bl with
    | none => exact marks_ok _
    | some bl => exact marks_ite (marks_ok _) (ih _ _)

theorem marks_zapFront (bl : Option Nat) (zap : Nat) : Marks (zapFront env b bl zap) := by
  apply marks_ite (marks_ok b)
  cases bl with
  | none => exact marks_null_pointer
  | some bl =>
    exact (marks_needText bl).bind fun b1 => (marks_textOf bl).bind fun _ => marks_ok _

theorem marks_lbufDelete (pos zap : Nat) : Marks (lbufDelete env b pos zap) := by
  apply marks_setAllFileOffsets.bind
  intro b1
  apply marks_ite (marks_panicked _)
  apply (marks_getBlock pos).bind
  rintro ⟨b2, prev, bl, off⟩
  apply (marks_zapWithin prev bl off zap).bind
  rintro ⟨b3, prev, bl, zap⟩
  apply (marks_zapBlocks _ prev bl zap).bind
  rintro ⟨b4, bl, zap⟩
  apply (marks_zapFront bl zap).bind
  intro b5
  exact marks_ite (marks_ok _) (marks_panicked _)

theorem marks_transfer (bl off : Nat) (src : List Byte) : Marks (transfer b bl off src) := by
  apply marks_ite (marks_ok _)
  apply marks_ite (marks_panicked _)
  exact (marks_textOf bl).bind fun _ => marks_ok _

theorem marks_fillBlock (bl : Nat) (instext residue : List Byte) :
    Marks (fillBlock b bl instext residue) := by
  apply (marks_transfer bl _ instext).bind
  rintro ⟨b1, instext⟩
  exact (marks_transfer bl _ residue).bind fun _ => marks_ok _

theorem marks_takeResidue (bl off : Nat) : Marks (takeResidue b bl off) :=
  marks_ite (marks_ok _) ((marks_textOf bl).bind fun _ => marks_ok _)

theorem marks_insertBlocks (spare fuel : Nat) (prev bl : Option Nat)
    (instext residue : List Byte) :
    Marks (insertBlocks env spare fuel b prev bl instext residue) := by
  induction fuel generalizing b prev bl instext residue with
  | zero => exact marks_out_of_fuel
  | succ fuel ih =>
    apply marks_ite (marks_ok _)
    apply (marks_fillBlock _ instext residue).bind
    rintro ⟨b1, instext, residue⟩
    exact ih _ _ _ _

theorem marks_insertFront (bl : Option Nat) (instext residue : List Byte) :
    Marks (insertFront env b bl instext residue) := by
  apply marks_ite (marks_ok _)
  cases bl with
  | none => exact marks_panicked _
  | some bl =>
    dsimp only
    cases (b.heap bl).next with
    | none => exact marks_panicked _
    | some next =>
      apply (marks_needText next).bind
      intro b1
      apply (marks_transfer next 0 instext).bind
      rintro ⟨b2, rest⟩
      exact (marks_transfer next _ residue).bind fun _ => marks_ok _

theorem marks_insertRest (prev bl : Option Nat) (instext residue : List Byte) (expected : Nat) :
    Marks (insertRest env b prev bl instext residue expected) := by
  apply (marks_insertBlocks _ _ prev bl instext residue).bind
  rintro ⟨b1, bl, instext, residue⟩
  apply (marks_insertFront bl instext residue).bind
  rintro ⟨b2, instext, residue⟩
  exact marks_ite (marks_ok _) (marks_panicked _)

theorem marks_lbufInsert (pos : Nat) (instext : List Byte) :
    Marks (lbufInsert env b pos instext) := by
  apply marks_setAllFileOffsets.bind
  intro b1
  apply (marks_getBlock _).bind
  rintro ⟨b2, prev, bl, off⟩
  dsimp only
  obtain ⟨bl, off⟩ := backUp (forgetPlace b2 (min pos b1.buflen)) prev bl off
  cases bl with
  | none => exact marks_insertRest _ _ _ _ _
  | some bl =>
    apply marks_ite
    · apply (marks_needText bl).bind
      intro b3
      exact (marks_transfer bl off instext).bind fun _ => marks_ok _
    · apply (marks_takeResidue bl off).bind
      rintro ⟨b3, residue⟩
      apply (marks_needText bl).bind
      intro b4
      apply (marks_fillBlock bl instext residue).bind
      rintro ⟨b5, instext, residue⟩
      exact marks_insertRest _ _ _ _ _

theorem marks_exec (op : Op) : Marks (exec env b op) := by
  cases op with
  | insert pos instext => exact (marks_lbufInsert pos instext).bind fun _ => marks_ok _
  | delete pos zapcount => exact (marks_lbufDelete pos zapcount).bind fun _ => marks_ok _
  | get_bytes pos => exact marks_lbufGetBytes pos
  | get_bytes_before pos => exact marks_lbufGetBytesBefore pos

/-! ## The law -/

/-- A call that could not read a block has always lost something: the block counts as read. -/
theorem a_failed_read_is_never_repeated {env : Env} {file : List Byte} {b b' : Bufdata} {op : Op}
    {bl : Nat} (h : exec env b op = .error (.read_failed b' bl)) :
    ¬NothingLost file env b b' bl := by
  intro hlost
  obtain ⟨text, htext⟩ := Option.ne_none_iff_exists'.mp (marks_exec op b' bl h)
  have hagain := hlost.again
  unfold needText at hagain
  rw [htext] at hagain
  dsimp only [readText] at hagain
  by_cases hread : (env.read_func b'.reads (b'.heap bl).file_offset (b'.heap bl).blocklen
      (allocText env b' bl)).1 = true
  · rw [if_pos hread] at hagain
    have hreads := congrArg Bufdata.reads (Except.ok.inj hagain)
    exact absurd hreads (Nat.ne_of_lt (Nat.lt_succ_self _))
  · rw [if_neg hread] at hagain
    cases hagain

/-- Of two reads the second one fails. -/
def failingEnv (file : List Byte) : Env where
  read_func := fun n off len buf => (n == 0, (file.drop off).take len ++ buf.drop len)
  junk := fun _ _ => 0

/-- How long the buffer is after a call that could not read a block. -/
def buflenAfter (r : Except Stop (Bufdata × Option (List Byte))) : Option Nat :=
  match r with
  | .error (.read_failed b _) => some b.buflen
  | _ => none

theorem exists_failure {r : Except Stop (Bufdata × Option (List Byte))} {n : Nat}
    (h : buflenAfter r = some n) : ∃ b bl, r = .error (.read_failed b bl) ∧ b.buflen = n := by
  unfold buflenAfter at h
  split at h
  · cases h
    exact ⟨_, _, rfl, rfl⟩
  · cases h

theorem the_second_block_cannot_be_read :
    ∃ b' bl, exec (failingEnv [1, 2, 3, 4]) (createLbufBuffer 4 2) (.delete 0 3) =
        .error (.read_failed b' bl) ∧
      ¬NothingLost [1, 2, 3, 4] (failingEnv [1, 2, 3, 4]) (createLbufBuffer 4 2) b' bl := by
  obtain ⟨b', bl, hfail, -⟩ := exists_failure (n := 2)
    (show buflenAfter (exec (failingEnv [1, 2, 3, 4]) (createLbufBuffer 4 2) (.delete 0 3)) =
      some 2 by decide)
  exact ⟨b', bl, hfail, a_failed_read_is_never_repeated hfail⟩

/-- Three of four bytes in blocks of two are deleted. The first block is gone when the second
one cannot be read. -/
theorem half_of_a_deletion_is_done :
    ¬ ∀ (env : Env) (file s : List Byte) (blocksize : Nat) (b b' : Bufdata) (op : Op) (bl : Nat),
      Reaches env file blocksize b s → Allowed s op →
      exec env b op = .error (.read_failed b' bl) → NothingLost file env b b' bl := by
  intro h
  obtain ⟨b', bl, hfail, hbuflen⟩ := exists_failure (n := 2)
    (show buflenAfter (exec (failingEnv [1, 2, 3, 4]) (createLbufBuffer 4 2) (.delete 0 3)) =
      some 2 by decide)
  have hallowed : Allowed [1, 2, 3, 4] (.delete 0 3) := by
    show 0 + 3 ≤ 4
    omega
  have hlost := (h _ _ _ _ _ b' _ bl Reaches.create hallowed hfail).buflen
  rw [hbuflen] at hlost
  cases hlost

end ups_rules.lbuf
