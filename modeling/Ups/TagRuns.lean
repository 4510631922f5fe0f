-- Runs of the parser over tags: where every step keeps the rules, the code does what C says.
import Mathlib.Data.List.Forall2
import Mathlib.Data.List.Nodup
import Ups.TagScopes

namespace ups_rules.tag_scopes

/-- The type of a definition in the terms of C. -/
def ctype (ae : AggrOrEnumDef) : CType :=
  ⟨ae.ty_code.kind, if ae.ae_is_complete then some ae.ae_members else none⟩

/-- The typecode for a kind of type. -/
def codeOf (kind : Kind) (complete : Bool) : Typecode :=
  if complete then kind.defined else kind.undefined

theorem codeOf_kind (kind : Kind) (complete : Bool) : (codeOf kind complete).kind = kind := by
  cases complete <;> cases kind <;> rfl

/-- Each definition has a type of its own, and an incomplete one has no members. -/
structure Inv (st : State) : Prop where
  bound : ∀ defs ∈ st.blocks, ∀ ae ∈ defs, ae.ae_type < st.ntypes
  nodup : (st.blocks.flatten.map AggrOrEnumDef.ae_type).Nodup
  codes : ∀ defs ∈ st.blocks, ∀ ae ∈ defs, ae.ty_code = codeOf ae.ty_code.kind ae.ae_is_complete
  blank : ∀ defs ∈ st.blocks, ∀ ae ∈ defs, ae.ae_is_complete = false → ae.ae_members = []

/-- The code's blocks are the scopes of C, with the same types and the same errors. -/
structure Sim (st : State) (c : CState) : Prop where
  inv : Inv st
  scopes : List.Forall₂ (fun defs scope => ∀ tag, (findTag defs tag).map AggrOrEnumDef.ae_type =
    scope tag) st.blocks c.scopes
  types : ∀ defs ∈ st.blocks, ∀ ae ∈ defs, c.types ae.ae_type = some (ctype ae)
  ntypes : c.ntypes = st.ntypes
  errors : c.errors = st.errors.map fun e => .redefinition e.tag

/-- Both stop, or both go on alike. -/
def Matches {α : Type} (r : Option (State × α)) (s : Option (CState × α)) : Prop :=
  Option.Rel (fun x y => Sim x.1 y.1 ∧ x.2 = y.2) r s

variable {st st' : State} {c : CState} {defs : List AggrOrEnumDef}
  {blocks blocks' : List (List AggrOrEnumDef)} {scopes : List (String → Option Nat)} {tag : String}
  {ae : AggrOrEnumDef} {depth : Nat} {kind : Kind} {members : List String} {id : Identifier}

theorem findTag_mem (h : findTag defs tag = some ae) : ae ∈ defs := List.mem_of_find?_eq_some h

/-- Where a tag is found, and that it is not found further in. -/
theorem lookupTag_spec (h : List.Forall₂ (fun defs scope => ∀ tag,
      (findTag defs tag).map AggrOrEnumDef.ae_type = scope tag) blocks scopes) (tag : String) :
    match lookupTag blocks tag with
    | none => visible scopes tag = none ∧ visible (scopes.take 1) tag = none
    | some (depth, ae) => (∃ defs ∈ blocks, ae ∈ defs) ∧ visible scopes tag = some ae.ae_type ∧
      visible (scopes.take 1) tag = if depth = 0 then some ae.ae_type else none := by
  induction h with
  | nil => exact ⟨rfl, rfl⟩
  | @cons defs scope blocks scopes hhead hrest ih =>
    have htag := hhead tag
    rw [lookupTag]
    cases hfind : findTag defs tag with
    | some ae =>
      rw [hfind] at htag
      refine ⟨⟨defs, List.mem_cons_self, findTag_mem hfind⟩, ?_, ?_⟩
      · rw [visible, ← htag]
        rfl
      · rw [List.take_succ_cons, visible, ← htag]
        rfl
    | none =>
      rw [hfind] at htag
      have hone : visible ((scope :: scopes).take 1) tag = none := by
        rw [List.take_succ_cons, visible, ← htag]
        rfl
      have hall : visible (scope :: scopes) tag = visible scopes tag := by
        rw [visible, ← htag]
        rfl
      rw [hone, hall]
      cases hrec : lookupTag blocks tag with
      | none =>
        rw [hrec] at ih
        exact ⟨ih.1, rfl⟩
      | some r =>
        rw [hrec] at ih
        obtain ⟨⟨defs', hdefs', hae⟩, hvis, -⟩ := ih
        exact ⟨⟨defs', List.mem_cons_of_mem _ hdefs', hae⟩, hvis, rfl⟩

/-! ## New types and changed ones -/

theorem makeDef_matches (h : Sim st c) (kind : Kind) (id : Option Identifier) (complete : Bool)
    (members : List String) (hblank : complete = false → members = []) :
    Matches (makeDef st (codeOf kind complete) id complete members)
      (c.declare (id.map Identifier.id_name)
        ⟨kind, if complete then some members else none⟩) := by
  have hscopes := h.scopes
  rw [makeDef, CState.declare]
  cases hb : st.blocks with
  | nil =>
    rw [hb] at hscopes
    cases hs : c.scopes with
    | nil => exact Option.Rel.none
    | cons scope scopes =>
      rw [hs] at hscopes
      cases hscopes
  | cons defs blocks =>
    rw [hb] at hscopes
    cases hs : c.scopes with
    | nil =>
      rw [hs] at hscopes
      cases hscopes
    | cons scope scopes =>
      rw [hs, List.forall₂_cons] at hscopes
      dsimp only
      rw [h.ntypes]
      set ae : AggrOrEnumDef := (⟨id.map Identifier.id_name, st.ntypes, codeOf kind complete, false,
        none, []⟩ : AggrOrEnumDef).assign (codeOf kind complete) id complete members with hae
      have hmem : ∀ defs' ∈ (ae :: defs) :: blocks, ∀ x ∈ defs',
          x = ae ∨ ∃ d ∈ st.blocks, x ∈ d := by
        intro defs' hdefs' x hx
        rw [hb]
        rcases List.mem_cons.mp hdefs' with rfl | hdefs'
        · rcases List.mem_cons.mp hx with rfl | hx
          · exact Or.inl rfl
          · exact Or.inr ⟨defs, List.mem_cons_self, hx⟩
        · exact Or.inr ⟨defs', List.mem_cons_of_mem _ hdefs', hx⟩
      have hctype : ctype ae = ⟨kind, if complete then some members else none⟩ := by
        rw [ctype]
        exact congrArg (CType.mk · _) (codeOf_kind kind complete)
      refine Option.Rel.some ⟨⟨⟨?_, ?_, ?_, ?_⟩, ?_, ?_, rfl, h.errors⟩, rfl⟩
      · intro defs' hdefs' x hx
        rcases hmem defs' hdefs' x hx with rfl | ⟨d, hd, hx⟩
        · exact Nat.lt_succ_self _
        · exact Nat.lt_succ_of_lt (h.inv.bound d hd x hx)
      · have hnodup := h.inv.nodup
        rw [hb] at hnodup
        refine List.nodup_cons.mpr ⟨?_, hnodup⟩
        intro hmap
        obtain ⟨x, hx, hid⟩ := List.mem_map.mp hmap
        have hflat : x ∈ (defs :: blocks).flatten := hx
        obtain ⟨d, hd, hx⟩ := List.mem_flatten.mp hflat
        have hlt := h.inv.bound d (hb ▸ hd) x hx
        rw [hid] at hlt
        exact Nat.lt_irrefl st.ntypes hlt
      · intro defs' hdefs' x hx
        rcases hmem defs' hdefs' x hx with rfl | ⟨d, hd, hx⟩
        · exact congrArg (codeOf · complete) (codeOf_kind kind complete).symm
        · exact h.inv.codes d hd x hx
      · intro defs' hdefs' x hx
        rcases hmem defs' hdefs' x hx with rfl | ⟨d, hd, hx⟩
        · exact hblank
        · exact h.inv.blank d hd x hx
      · refine List.Forall₂.cons ?_ hscopes.2
        intro tag
        cases id with
        | none => exact hscopes.1 tag
        | some id =>
          by_cases htag : tag = id.id_name
          · subst htag
            simp [findTag, hae, AggrOrEnumDef.assign]
          · have hne : ae.ae_tag ≠ some tag := fun hc => htag (Option.some.inj hc).symm
            rw [Option.map_some]
            dsimp only
            rw [Function.update_of_ne htag, ← hscopes.1 tag, findTag, List.find?_cons_of_neg]
            · rfl
            · simpa using hne
      · intro defs' hdefs' x hx
        rcases hmem defs' hdefs' x hx with rfl | ⟨d, hd, hx⟩
        · exact (Function.update_self ..).trans (congrArg some hctype.symm)
        · have hne : x.ae_type ≠ st.ntypes := Nat.ne_of_lt (h.inv.bound d hd x hx)
          exact (Function.update_of_ne hne ..).trans (h.types d hd x hx)

theorem findTag_map {f : AggrOrEnumDef → AggrOrEnumDef} (hf : ∀ ae, (f ae).ae_tag = ae.ae_tag)
    (defs : List AggrOrEnumDef) (tag : String) :
    findTag (defs.map f) tag = (findTag defs tag).map f := by
  rw [findTag, List.find?_map, findTag]
  congr 2
  funext ae
  exact congrArg (fun t : Option String => decide (t = some tag)) (hf ae)

/-- The definition with type `t` gets the members, or stays without. -/
theorem updateDef_sim (h : Sim st c) (kind : Kind) (id : Identifier) (complete : Bool)
    (members : List String) {t : Nat} {types : Nat → Option CType} {f : AggrOrEnumDef → AggrOrEnumDef}
    (hf : f = fun ae => ae.assign (codeOf kind complete) (some id) complete members)
    (hblank : complete = false → members = [])
    (htypes : types = Function.update c.types t
      (some ⟨kind, if complete then some members else none⟩)) :
    Sim { st with blocks := updateDef st.blocks t f } { c with types := types } := by
  subst hf
  set f := fun ae : AggrOrEnumDef => ae.assign (codeOf kind complete) (some id) complete members
    with hf
  set g := fun ae : AggrOrEnumDef => if ae.ae_type = t then f ae else ae with hg
  have htag : ∀ ae, (g ae).ae_tag = ae.ae_tag := by
    intro ae
    rw [hg]
    dsimp only
    split
    · rfl
    · rfl
  have htype : ∀ ae, (g ae).ae_type = ae.ae_type := by
    intro ae
    rw [hg]
    dsimp only
    split
    · rfl
    · rfl
  have hmem : ∀ defs ∈ updateDef st.blocks t f, ∀ x ∈ defs, ∃ d ∈ st.blocks, ∃ y ∈ d, x = g y := by
    intro defs hdefs x hx
    obtain ⟨d, hd, rfl⟩ := List.mem_map.mp hdefs
    obtain ⟨y, hy, rfl⟩ := List.mem_map.mp hx
    exact ⟨d, hd, y, hy, rfl⟩
  have hself : ∀ y, y.ae_type = t → g y = f y := fun y hy => if_pos hy
  have hother : ∀ y, y.ae_type ≠ t → g y = y := fun y hy => if_neg hy
  refine ⟨⟨?_, ?_, ?_, ?_⟩, ?_, ?_, h.ntypes, h.errors⟩
  · intro defs hdefs x hx
    obtain ⟨d, hd, y, hy, rfl⟩ := hmem defs hdefs x hx
    rw [htype]
    exact h.inv.bound d hd y hy
  · have hflat : ((updateDef st.blocks t f).flatten.map AggrOrEnumDef.ae_type) =
        st.blocks.flatten.map AggrOrEnumDef.ae_type := by
      have hmap : (updateDef st.blocks t f).flatten = st.blocks.flatten.map g :=
        List.map_flatten.symm
      rw [hmap, List.map_map]
      exact List.map_congr_left fun ae _ => htype ae
    exact hflat ▸ h.inv.nodup
  · intro defs hdefs x hx
    obtain ⟨d, hd, y, hy, rfl⟩ := hmem defs hdefs x hx
    by_cases hyt : y.ae_type = t
    · rw [hself y hyt]
      exact congrArg (codeOf · complete) (codeOf_kind kind complete).symm
    · rw [hother y hyt]
      exact h.inv.codes d hd y hy
  · intro defs hdefs x hx
    obtain ⟨d, hd, y, hy, rfl⟩ := hmem defs hdefs x hx
    by_cases hyt : y.ae_type = t
    · rw [hself y hyt]
      exact hblank
    · rw [hother y hyt]
      exact h.inv.blank d hd y hy
  · apply List.forall₂_map_left_iff.mpr
    refine h.scopes.imp ?_
    intro defs scope hscope tag
    rw [← hscope tag, findTag_map htag, Option.map_map]
    exact congrArg (fun k => (findTag defs tag).map k) (funext htype)
  · intro defs hdefs x hx
    obtain ⟨d, hd, y, hy, rfl⟩ := hmem defs hdefs x hx
    dsimp only
    rw [htype, htypes]
    by_cases hyt : y.ae_type = t
    · rw [hself y hyt, hyt, Function.update_self]
      exact congrArg (fun k => some (CType.mk k _)) (codeOf_kind kind complete).symm
    · rw [hother y hyt, Function.update_of_ne hyt]
      exact h.types d hd y hy

/-! ## The steps -/

theorem ctype_incomplete (h : ae.ae_is_complete = false) : ctype ae = ⟨ae.ty_code.kind, none⟩ := by
  rw [ctype, h]
  rfl

theorem ctype_complete (h : ae.ae_is_complete = true) :
    ctype ae = ⟨ae.ty_code.kind, some ae.ae_members⟩ := by
  rw [ctype, h]
  rfl

/-- A tag that is used with its kind. -/
theorem use_eq {t : Nat} {m : Option (List String)} (h : c.types t = some ⟨kind, m⟩) (tag : String) :
    c.use kind tag t = (c, t) := by
  rw [CState.use, h]
  exact if_pos rfl

/-- A type that is assigned what it has already. -/
theorem update_same {t : Nat} {type : Option CType} (h : c.types t = type) :
    c.types = Function.update c.types t type := by
  rw [← h, Function.update_eq_self]

theorem reference_matches (h : Sim st c) (hkeeps : (Op.reference kind id).keeps st) :
    Matches (ciBuildAggrOrEnumDef st kind.undefined (some id) false [] false)
      (c.reference kind id) := by
  have hmake := makeDef_matches h kind (some id) false [] fun _ => rfl
  have hlookup := lookupTag_spec h.scopes id.id_name
  rw [Op.keeps] at hkeeps
  rw [ciBuildAggrOrEnumDef, CState.reference]
  dsimp only
  cases hfound : lookupTag st.blocks id.id_name with
  | none =>
    rw [hfound] at hlookup
    have hvis : visible (if id.id_semi_follows then c.scopes.take 1 else c.scopes) id.id_name =
        none := by
      split
      · exact hlookup.2
      · exact hlookup.1
    rw [hvis]
    exact hmake
  | some r =>
    obtain ⟨depth, ae⟩ := r
    rw [hfound] at hlookup hkeeps
    obtain ⟨⟨defs, hdefs, hae⟩, hvis, hone⟩ := hlookup
    have htype := h.types defs hdefs ae hae
    dsimp only at hkeeps ⊢
    by_cases hnew : id.id_semi_follows = true ∧ depth ≠ 0
    · -- a tag of an outer block is hidden
      rw [if_pos hnew] at hkeeps
      rw [if_pos hnew.1, hone, if_neg hnew.2, if_pos hkeeps]
      simp only [hnew.2, hnew.1]
      exact hmake
    · rw [if_neg hnew] at hkeeps
      have hsee : visible (if id.id_semi_follows then c.scopes.take 1 else c.scopes) id.id_name =
          some ae.ae_type := by
        split
        · rename_i hsemi
          have hdepth : depth = 0 := by
            by_contra hc
            exact hnew ⟨hsemi, hc⟩
          rw [hone, if_pos hdepth]
        · exact hvis
      rw [hsee]
      dsimp only
      rw [ctype, hkeeps] at htype
      rw [use_eq htype]
      have hstay : Matches (some (st, ae.ae_type)) (some (c, ae.ae_type)) :=
        Option.Rel.some ⟨h, rfl⟩
      by_cases hcomplete : ae.ae_is_complete = true
      · rw [if_pos hcomplete]
        by_cases hdepth : depth = 0
        · simpa [hdepth] using hstay
        · have hsemi : id.id_semi_follows = false := by
            by_contra hc
            exact hnew ⟨eq_true_of_ne_false hc, hdepth⟩
          simpa [hdepth, hsemi] using hstay
      · rw [if_neg hcomplete]
        by_cases hdepth : depth = 0
        · simpa [hdepth] using hstay
        · rw [if_neg fun hc => hdepth hc.1]
          rw [if_neg hcomplete] at htype
          refine Option.Rel.some ⟨?_, rfl⟩
          exact updateDef_sim h kind id false [] rfl (fun _ => rfl) (update_same htype)

theorem defineBegin_matches (h : Sim st c) (hkeeps : (Op.define_begin kind id).keeps st) :
    Matches (ciBuildAggrOrEnumDef st kind.undefined (some id) false [] true)
      (c.defineBegin kind id) := by
  have hmake : Matches (makeDef st kind.undefined (some id) false [])
      (c.declare (some id.id_name) ⟨kind, none⟩) :=
    makeDef_matches h kind (some id) false [] fun _ => rfl
  have hlookup := lookupTag_spec h.scopes id.id_name
  rw [Op.keeps] at hkeeps
  rw [ciBuildAggrOrEnumDef, CState.defineBegin]
  dsimp only
  cases hfound : lookupTag st.blocks id.id_name with
  | none =>
    rw [hfound] at hlookup
    rw [hlookup.2]
    exact hmake
  | some r =>
    obtain ⟨depth, ae⟩ := r
    rw [hfound] at hlookup hkeeps
    obtain ⟨⟨defs, hdefs, hae⟩, -, hone⟩ := hlookup
    have htype := h.types defs hdefs ae hae
    dsimp only at hkeeps ⊢
    have hstay : Matches (some (st, ae.ae_type)) (some (c, ae.ae_type)) := Option.Rel.some ⟨h, rfl⟩
    rw [hone]
    by_cases hdepth : depth = 0
    · rw [if_pos hdepth]
      dsimp only
      by_cases hcomplete : ae.ae_is_complete = true
      · rw [ctype_complete hcomplete] at htype
        rw [htype]
        simpa [hcomplete, hdepth] using hstay
      · have hkind : ae.ty_code.kind = kind := (hkeeps.resolve_left hcomplete).2
        rw [ctype_incomplete (eq_false_of_ne_true hcomplete), hkind] at htype
        rw [htype]
        dsimp only
        rw [use_eq htype]
        simpa [hcomplete, hdepth] using hstay
    · -- the tag of an outer block is complete, and is hidden
      have hcomplete : ae.ae_is_complete = true :=
        hkeeps.resolve_right fun hc => hdepth hc.1
      rw [if_neg hdepth]
      dsimp only
      simpa [hcomplete, hdepth] using hmake

theorem defineEnd_matches (h : Sim st c) (hkeeps : (Op.define_end kind id members).keeps st) :
    Matches (ciBuildAggrOrEnumDef st kind.defined (some id) true members false)
      (c.defineEnd kind id members) := by
  have hmake : ∀ {st c}, Sim st c → Matches (makeDef st kind.defined (some id) true members)
      (c.declare (some id.id_name) ⟨kind, some members⟩) :=
    fun h => makeDef_matches h kind (some id) true members nofun
  have hlookup := lookupTag_spec h.scopes id.id_name
  rw [Op.keeps] at hkeeps
  rw [ciBuildAggrOrEnumDef, CState.defineEnd]
  dsimp only
  cases hfound : lookupTag st.blocks id.id_name with
  | none =>
    rw [hfound] at hlookup
    rw [hlookup.2]
    exact hmake h
  | some r =>
    obtain ⟨depth, ae⟩ := r
    rw [hfound] at hlookup hkeeps
    obtain ⟨⟨defs, hdefs, hae⟩, -, hone⟩ := hlookup
    have htype := h.types defs hdefs ae hae
    dsimp only at hkeeps ⊢
    rw [hone]
    by_cases hdepth : depth = 0
    · rw [if_pos hdepth]
      dsimp only
      by_cases hcomplete : ae.ae_is_complete = true
      · -- a redefinition: both report it
        rw [ctype_complete hcomplete] at htype
        rw [htype]
        have herror : Sim { st with errors := st.errors ++
            [⟨id.id_name, id.id_lexinfo, ae.ae_lexinfo⟩] }
            (c.error (.redefinition id.id_name)) := by
          refine ⟨⟨h.inv.bound, h.inv.nodup, h.inv.codes, h.inv.blank⟩, h.scopes, h.types, h.ntypes,
            ?_⟩
          rw [List.map_append, ← h.errors]
          rfl
        simpa [hcomplete, hdepth] using hmake herror
      · -- the definition completes the type
        have hkind : ae.ty_code.kind = kind := (hkeeps.resolve_left hcomplete).2
        rw [ctype_incomplete (eq_false_of_ne_true hcomplete), hkind] at htype
        rw [htype]
        dsimp only
        rw [use_eq htype, if_neg hcomplete, if_neg fun hc => Bool.false_ne_true hc.2]
        refine Option.Rel.some ⟨?_, rfl⟩
        exact updateDef_sim h kind id true members rfl nofun rfl
    · have hcomplete : ae.ae_is_complete = true :=
        hkeeps.resolve_right fun hc => hdepth hc.1
      rw [if_neg hdepth]
      dsimp only
      simpa [hcomplete, hdepth] using hmake h

theorem Matches.map {α β : Type} {r : Option (State × α)} {s : Option (CState × α)}
    (h : Matches r s) (f : α → β) :
    Matches (r.map fun x => (x.1, f x.2)) (s.map fun x => (x.1, f x.2)) := by
  cases h with
  | none => exact Option.Rel.none
  | some hxy => exact Option.Rel.some ⟨hxy.1, congrArg f hxy.2⟩

/-- One step: what the tag denotes and what is reported is as in C. -/
theorem exec_step (h : Sim st c) {op : Op} (hkeeps : op.keeps st) :
    Matches (op.exec st) (op.cExec c) := by
  cases op with
  | start_block =>
    have hmem : ∀ defs ∈ [] :: st.blocks, ∀ ae ∈ defs, defs ∈ st.blocks := by
      intro defs hdefs ae hae
      rcases List.mem_cons.mp hdefs with rfl | hdefs
      · exact absurd hae List.not_mem_nil
      · exact hdefs
    refine Option.Rel.some ⟨⟨⟨?_, h.inv.nodup, ?_, ?_⟩, ?_, ?_, h.ntypes, h.errors⟩, rfl⟩
    · exact fun defs hdefs ae hae => h.inv.bound defs (hmem defs hdefs ae hae) ae hae
    · exact fun defs hdefs ae hae => h.inv.codes defs (hmem defs hdefs ae hae) ae hae
    · exact fun defs hdefs ae hae => h.inv.blank defs (hmem defs hdefs ae hae) ae hae
    · exact List.Forall₂.cons (fun _ => rfl) h.scopes
    · exact fun defs hdefs ae hae => h.types defs (hmem defs hdefs ae hae) ae hae
  | end_block =>
    have hscopes := h.scopes
    have hinv := h.inv
    have htypes := h.types
    obtain ⟨blocks, ntypes, errors⟩ := st
    obtain ⟨scopes, types, ntypes', errors'⟩ := c
    cases hscopes with
    | nil => exact Option.Rel.none
    | cons hhead hrest =>
      rename_i defs scope blocks scopes
      have hsub : ∀ d ∈ blocks, d ∈ defs :: blocks := fun d hd => List.mem_cons_of_mem _ hd
      refine Option.Rel.some ⟨⟨⟨?_, ?_, ?_, ?_⟩, hrest, ?_, h.ntypes, h.errors⟩, rfl⟩
      · exact fun d hd => hinv.bound d (hsub d hd)
      · have hnodup := hinv.nodup
        dsimp only at hnodup
        rw [List.flatten_cons, List.map_append] at hnodup
        exact (List.nodup_append.mp hnodup).2.1
      · exact fun d hd => hinv.codes d (hsub d hd)
      · exact fun d hd => hinv.blank d (hsub d hd)
      · exact fun d hd => htypes d (hsub d hd)
  | reference kind id => exact (reference_matches h hkeeps).map some
  | define_begin kind id => exact (defineBegin_matches h hkeeps).map fun _ => none
  | define_end kind id members => exact (defineEnd_matches h hkeeps).map some
  | anonymous kind members =>
    have hmake := makeDef_matches h kind none true members nofun
    exact hmake.map some

/-! ## Runs -/

theorem exec_run {ops : List Op} (h : Sim st c) (hkeeps : Keeps st ops) :
    Matches (exec st ops) (cExec c ops) := by
  induction ops generalizing st c with
  | nil => exact Option.Rel.some ⟨h, rfl⟩
  | cons op ops ih =>
    have hstep := exec_step h hkeeps.1
    have hrest := hkeeps.2
    rw [exec, cExec]
    generalize op.exec st = r at hstep hrest
    generalize op.cExec c = s at hstep
    cases hstep with
    | none => exact Option.Rel.none
    | some hrs =>
      obtain ⟨hsim, htype⟩ := hrs
      dsimp only
      rw [htype]
      exact (ih hsim hrest).map _

theorem sim_start : Sim .start .start := by
  have hmem : ∀ defs ∈ State.start.blocks, ∀ ae ∈ defs, False := by
    intro defs hdefs ae hae
    rw [List.mem_singleton.mp hdefs] at hae
    exact List.not_mem_nil hae
  refine ⟨⟨?_, List.nodup_nil, ?_, ?_⟩, ?_, ?_, rfl, rfl⟩
  · exact fun defs hdefs ae hae => (hmem defs hdefs ae hae).elim
  · exact fun defs hdefs ae hae => (hmem defs hdefs ae hae).elim
  · exact fun defs hdefs ae hae => (hmem defs hdefs ae hae).elim
  · exact List.Forall₂.cons (fun _ => rfl) List.Forall₂.nil
  · exact fun defs hdefs ae hae => (hmem defs hdefs ae hae).elim

/-! ## The outer blocks -/

/-- What is to be seen of the tags of a block: all but the place where one was last met. -/
def sight (defs : List AggrOrEnumDef) : List AggrOrEnumDef :=
  defs.map fun ae => { ae with ae_lexinfo := none }

theorem makeDef_blocks {typecode : Typecode} {oid : Option Identifier} {complete : Bool} {t : Nat}
    (h : makeDef st typecode oid complete members = some (st', t)) :
    ∃ ae defs blocks, st.blocks = defs :: blocks ∧ st'.blocks = (ae :: defs) :: blocks := by
  rw [makeDef] at h
  cases hb : st.blocks with
  | nil =>
    rw [hb] at h
    cases h
  | cons defs blocks =>
    rw [hb] at h
    cases h
    exact ⟨_, defs, blocks, rfl, rfl⟩

/-- All that a tag does to the blocks: nothing, a new definition in front, or a change in place. -/
theorem build_cases {typecode : Typecode} {oid : Option Identifier} {complete isdef : Bool} {t : Nat}
    (h : ciBuildAggrOrEnumDef st typecode oid complete members isdef = some (st', t)) :
    st'.blocks = st.blocks ∨
      (∃ ae defs blocks, st.blocks = defs :: blocks ∧ st'.blocks = (ae :: defs) :: blocks) ∨
      ∃ id depth ae, oid = some id ∧ lookupTag st.blocks id.id_name = some (depth, ae) ∧
        ae.ae_is_complete = false ∧ (depth = 0 → complete = true) ∧
        st'.blocks = updateDef st.blocks ae.ae_type fun ae =>
          ae.assign typecode (some id) complete members := by
  cases oid with
  | none => exact Or.inr (Or.inl (makeDef_blocks h))
  | some id =>
    rw [ciBuildAggrOrEnumDef] at h
    dsimp only at h
    cases hfound : lookupTag st.blocks id.id_name with
    | none =>
      rw [hfound] at h
      exact Or.inr (Or.inl (makeDef_blocks h))
    | some r =>
      obtain ⟨depth, ae⟩ := r
      rw [hfound] at h
      dsimp only at h
      split at h
      · split at h
        · cases h
          exact Or.inl rfl
        · split at h
          · have hmake := makeDef_blocks h
            exact Or.inr (Or.inl hmake)
          · split at h
            · exact Or.inr (Or.inl (makeDef_blocks h))
            · split at h
              · exact Or.inr (Or.inl (makeDef_blocks h))
              · cases h
                exact Or.inl rfl
      · rename_i hcomplete
        split at h
        · cases h
          exact Or.inl rfl
        · rename_i hnew
          cases h
          refine Or.inr (Or.inr ⟨id, depth, ae, rfl, hfound, eq_false_of_ne_true hcomplete, ?_, rfl⟩)
          intro hdepth
          by_contra hc
          exact hnew ⟨hdepth, by simpa using hc⟩

theorem lookupTag_mem (h : lookupTag blocks tag = some (depth, ae)) :
    (∃ d ∈ blocks, ae ∈ d) ∧ (depth = 0 → ∃ d rest, blocks = d :: rest ∧ ae ∈ d) := by
  induction blocks generalizing depth with
  | nil => cases h
  | cons d blocks ih =>
    rw [lookupTag] at h
    cases hfind : findTag d tag with
    | some ae' =>
      rw [hfind] at h
      cases h
      have hae := findTag_mem hfind
      exact ⟨⟨d, List.mem_cons_self, hae⟩, fun _ => ⟨d, blocks, rfl, hae⟩⟩
    | none =>
      rw [hfind] at h
      obtain ⟨r, hr, heq⟩ := Option.map_eq_some_iff.mp h
      cases heq
      obtain ⟨⟨d', hd', hae⟩, -⟩ := ih hr
      exact ⟨⟨d', List.mem_cons_of_mem _ hd', hae⟩, fun hc => absurd hc (Nat.succ_ne_zero _)⟩

/-- Only the definition itself has its type. -/
theorem Inv.eq_of_type (h : Inv st) {x y : AggrOrEnumDef} (hx : ∃ d ∈ st.blocks, x ∈ d)
    (hy : ∃ d ∈ st.blocks, y ∈ d) (hxy : x.ae_type = y.ae_type) : x = y :=
  List.inj_on_of_nodup_map h.nodup (List.mem_flatten.mpr hx) (List.mem_flatten.mpr hy) hxy

theorem sight_congr {g : AggrOrEnumDef → AggrOrEnumDef}
    (h : ∀ d ∈ blocks, ∀ x ∈ d, { g x with ae_lexinfo := none } = { x with ae_lexinfo := none }) :
    (blocks.map (List.map g)).map sight = blocks.map sight := by
  rw [List.map_map]
  apply List.map_congr_left
  intro d hd
  rw [Function.comp_apply, sight, sight, List.map_map]
  exact List.map_congr_left (h d hd)

/-- What a change in place does to the blocks behind the current one. -/
theorem updateDef_outer (h : Inv st) (hb : st.blocks = defs :: blocks)
    {f : AggrOrEnumDef → AggrOrEnumDef} (hae : ∃ d ∈ st.blocks, ae ∈ d)
    (hsame : ae ∉ defs → { f ae with ae_lexinfo := none } = { ae with ae_lexinfo := none }) :
    ∃ defs' blocks', updateDef st.blocks ae.ae_type f = defs' :: blocks' ∧
      blocks'.map sight = blocks.map sight := by
  rw [hb]
  refine ⟨_, _, rfl, sight_congr ?_⟩
  intro d hd x hx
  dsimp only
  have hxst : ∃ d ∈ st.blocks, x ∈ d := ⟨d, hb ▸ List.mem_cons_of_mem _ hd, hx⟩
  by_cases htype : x.ae_type = ae.ae_type
  · rw [if_pos htype]
    obtain rfl := h.eq_of_type hxst hae htype
    apply hsame
    intro hdefs
    have hnodup := h.nodup
    rw [hb, List.flatten_cons, List.map_append] at hnodup
    have hx1 : x.ae_type ∈ defs.map AggrOrEnumDef.ae_type := List.mem_map_of_mem hdefs
    have hx2 : x.ae_type ∈ blocks.flatten.map AggrOrEnumDef.ae_type :=
      List.mem_map_of_mem (List.mem_flatten.mpr ⟨d, hd, hx⟩)
    exact (List.nodup_append.mp hnodup).2.2 _ hx1 _ hx2 rfl
  · rw [if_neg htype]

theorem build_outer (h : Inv st) (hb : st.blocks = defs :: blocks) {typecode : Typecode}
    {oid : Option Identifier} {complete isdef : Bool} {t : Nat}
    (hsame : ∀ id depth ae, oid = some id → lookupTag st.blocks id.id_name = some (depth, ae) →
      ae.ae_is_complete = false → depth ≠ 0 →
      { ae.assign typecode (some id) complete members with ae_lexinfo := none } =
        { ae with ae_lexinfo := none })
    (hbuild : ciBuildAggrOrEnumDef st typecode oid complete members isdef = some (st', t)) :
    ∃ defs' blocks', st'.blocks = defs' :: blocks' ∧ blocks'.map sight = blocks.map sight := by
  rcases build_cases hbuild with hstay | ⟨ae, defs', blocks', hb', hnew⟩ |
    ⟨id, depth, ae, hid, hfound, hincomplete, -, hupdate⟩
  · exact ⟨defs, blocks, hstay.trans hb, rfl⟩
  · rw [hb] at hb'
    obtain ⟨rfl, rfl⟩ := List.cons.inj hb'
    exact ⟨_, blocks, hnew, rfl⟩
  · obtain ⟨hae, hzero⟩ := lookupTag_mem hfound
    rw [hupdate]
    apply updateDef_outer h hb hae
    intro hnot
    apply hsame id depth ae hid hfound hincomplete
    intro hc
    obtain ⟨d, rest, hd, hmem⟩ := hzero hc
    rw [hb] at hd
    obtain ⟨rfl, -⟩ := List.cons.inj hd
    exact hnot hmem

/-- A tag of an outer block is changed by nothing but a reference that says what it is already. -/
theorem step_outer (h : Inv st) {op : Op} (hkeeps : op.keeps st) (hstart : op ≠ .start_block)
    (hend : op ≠ .end_block) (hb : st.blocks = defs :: blocks) {t : Option Nat}
    (hstep : op.exec st = some (st', t)) :
    ∃ defs' blocks', st'.blocks = defs' :: blocks' ∧ blocks'.map sight = blocks.map sight := by
  have hdefine : ∀ {kind : Kind} {depth : Nat} {ae : AggrOrEnumDef}, ae.ae_is_complete = false →
      depth ≠ 0 → ¬(ae.ae_is_complete = true ∨ (depth = 0 ∧ ae.ty_code.kind = kind)) := by
    rintro kind depth ae hincomplete hne (hc | hc)
    · rw [hincomplete] at hc
      cases hc
    · exact hne hc.1
  cases op with
  | start_block => exact absurd rfl hstart
  | end_block => exact absurd rfl hend
  | reference kind id =>
    obtain ⟨r, hr, heq⟩ := Option.map_eq_some_iff.mp hstep
    cases heq
    refine build_outer h hb ?_ hr
    intro id' depth ae hid hfound hincomplete hne
    obtain rfl := Option.some.inj hid
    rw [Op.keeps, hfound] at hkeeps
    dsimp only at hkeeps
    have hkind : ae.ty_code.kind = kind := by
      split at hkeeps
      · rw [hincomplete] at hkeeps
        cases hkeeps
      · exact hkeeps
    obtain ⟨⟨d, hd, hmem⟩, -⟩ := lookupTag_mem hfound
    have hcode : ae.ty_code = codeOf ae.ty_code.kind ae.ae_is_complete := h.codes d hd ae hmem
    have hblank := h.blank d hd ae hmem hincomplete
    rw [hkind, hincomplete] at hcode
    obtain ⟨tag, type, code, complete, lexinfo, members⟩ := ae
    dsimp only at hcode hblank hincomplete
    subst hcode hblank hincomplete
    rfl
  | define_begin kind id =>
    obtain ⟨r, hr, heq⟩ := Option.map_eq_some_iff.mp hstep
    cases heq
    refine build_outer h hb ?_ hr
    intro id' depth ae hid hfound hincomplete hne
    obtain rfl := Option.some.inj hid
    rw [Op.keeps, hfound] at hkeeps
    exact absurd hkeeps (hdefine hincomplete hne)
  | define_end kind id members =>
    obtain ⟨r, hr, heq⟩ := Option.map_eq_some_iff.mp hstep
    cases heq
    refine build_outer h hb ?_ hr
    intro id' depth ae hid hfound hincomplete hne
    obtain rfl := Option.some.inj hid
    rw [Op.keeps, hfound] at hkeeps
    exact absurd hkeeps (hdefine hincomplete hne)
  | anonymous kind members =>
    obtain ⟨r, hr, heq⟩ := Option.map_eq_some_iff.mp hstep
    cases heq
    refine build_outer h hb ?_ hr
    intro id depth ae hid
    cases hid

/-- Within `n` blocks, the operations close these and those they open. -/
def Balanced : Nat → List Op → Prop
  | n, [] => n = 0
  | n, op :: ops =>
    match op with
    | .start_block => Balanced (n + 1) ops
    | .end_block => 0 < n ∧ Balanced (n - 1) ops
    | _ => Balanced n ops

theorem run_outer {ops : List Op} {n : Nat} (hsim : Sim st c) (hkeeps : Keeps st ops)
    (hbal : Balanced n ops) {front : List (List AggrOrEnumDef)} (hb : st.blocks = front ++ blocks)
    (hfront : front.length = n + 1) {ts : List (Option Nat)} (hrun : exec st ops = some (st', ts)) :
    ∃ defs' blocks', st'.blocks = defs' :: blocks' ∧ blocks'.map sight = blocks.map sight := by
  induction ops generalizing st c n front blocks ts with
  | nil =>
    cases hrun
    obtain rfl : n = 0 := hbal
    obtain ⟨defs, rfl⟩ := List.length_eq_one_iff.mp hfront
    exact ⟨defs, blocks, hb, rfl⟩
  | cons op ops ih =>
    have hstep := exec_step hsim hkeeps.1
    have hrest := hkeeps.2
    rw [exec] at hrun
    cases hr : op.exec st with
    | none =>
      rw [hr] at hrun
      cases hrun
    | some r =>
      obtain ⟨st1, t⟩ := r
      rw [hr] at hrun hrest hstep
      obtain ⟨r2, hrun2, heq⟩ := Option.map_eq_some_iff.mp hrun
      obtain ⟨st2, ts2⟩ := r2
      cases heq
      generalize op.cExec c = s at hstep
      cases hstep with
      | some hrs =>
        have hsim1 := hrs.1
        have hother : op ≠ .start_block → op ≠ .end_block → Balanced n ops →
            ∃ defs' blocks', st'.blocks = defs' :: blocks' ∧
              blocks'.map sight = blocks.map sight := by
          intro hstart hend hbal'
          cases front with
          | nil => cases hfront
          | cons defs front =>
            rw [List.cons_append] at hb
            obtain ⟨defs1, blocks1, hb1, hsight⟩ := step_outer hsim.inv hkeeps.1 hstart hend hb hr
            rw [List.map_append] at hsight
            obtain ⟨front2, blocks2, rfl, hsight1, hsight2⟩ := List.map_eq_append_iff.mp hsight
            have hlen : (defs1 :: front2).length = n + 1 := by
              have hl := congrArg List.length hsight1
              rw [List.length_map, List.length_map] at hl
              rw [← hfront, List.length_cons, List.length_cons, hl]
            obtain ⟨defs', blocks', hb', hsight'⟩ := ih hsim1 hrest hbal' hb1 hlen hrun2
            exact ⟨defs', blocks', hb', hsight'.trans hsight2⟩
        cases op with
        | start_block =>
          cases hr
          have hb1 : [] :: st.blocks = ([] :: front) ++ blocks := congrArg _ hb
          exact ih hsim1 hrest hbal hb1 (congrArg _ hfront) hrun2
        | end_block =>
          obtain ⟨hn, hbal⟩ := hbal
          cases front with
          | nil => cases hfront
          | cons defs front =>
            rw [Op.exec, hb] at hr
            cases hr
            exact ih hsim1 hrest hbal rfl (by rw [List.length_cons] at hfront; omega) hrun2
        | reference kind id => exact hother (by simp) (by simp) hbal
        | define_begin kind id => exact hother (by simp) (by simp) hbal
        | define_end kind id members => exact hother (by simp) (by simp) hbal
        | anonymous kind members => exact hother (by simp) (by simp) hbal

theorem exec_append (st : State) (ops ops' : List Op) :
    exec st (ops ++ ops') = (exec st ops).bind fun r =>
      (exec r.1 ops').map fun r' => (r'.1, r.2 ++ r'.2) := by
  induction ops generalizing st with
  | nil =>
    rw [List.nil_append, exec, Option.bind_some]
    cases exec st ops' <;> rfl
  | cons op ops ih =>
    rw [List.cons_append, exec, exec]
    cases op.exec st with
    | none => rfl
    | some r =>
      dsimp only
      rw [ih]
      cases exec r.1 ops with
      | none => rfl
      | some r1 =>
        rw [Option.map_some, Option.bind_some, Option.bind_some, Option.map_map]
        rfl

theorem Keeps.split {ops ops' : List Op} (h : Keeps st (ops ++ ops')) :
    Keeps st ops ∧ ∀ st1 ts, exec st ops = some (st1, ts) → Keeps st1 ops' := by
  induction ops generalizing st with
  | nil =>
    refine ⟨trivial, ?_⟩
    intro st1 ts hrun
    cases hrun
    exact h
  | cons op ops ih =>
    obtain ⟨hop, hrest⟩ := h
    rw [Keeps, exec]
    cases hr : op.exec st with
    | none =>
      refine ⟨⟨hop, trivial⟩, ?_⟩
      intro st1 ts hrun
      cases hrun
    | some r =>
      rw [hr] at hrest
      obtain ⟨hops, hops'⟩ := ih hrest
      refine ⟨⟨hop, hops⟩, ?_⟩
      intro st1 ts hrun
      obtain ⟨r1, hr1, heq⟩ := Option.map_eq_some_iff.mp hrun
      cases heq
      exact hops' r1.1 r1.2 hr1

/-- Where no step finds an incomplete tag of an outer block in its way or a tag of the wrong kind,
the tags denote what they denote in C, with the same errors and the same types, and after a block
the tags are those before it. -/
theorem tags_follow_scopes (ops : List Op) (hkeeps : Keeps .start ops) :
    Matches (exec .start ops) (cExec .start ops) ∧
      ∀ before inner, ops = before ++ (.start_block :: inner ++ [.end_block]) → Balanced 0 inner →
        ∀ st0 ts0 st ts, exec .start before = some (st0, ts0) → exec .start ops = some (st, ts) →
          st.blocks.map sight = st0.blocks.map sight := by
  refine ⟨exec_run sim_start hkeeps, ?_⟩
  rintro before inner rfl hbal st0 ts0 st ts hbefore hrun
  obtain ⟨hkeeps0, hkeeps1⟩ := hkeeps.split
  have hsim := exec_run sim_start hkeeps0
  rw [exec_append, hbefore, Option.bind_some] at hrun
  rw [hbefore] at hsim
  generalize cExec CState.start before = c at hsim
  cases hsim with
  | some hsim =>
    -- the block is opened
    obtain ⟨r, hr, heq⟩ := Option.map_eq_some_iff.mp hrun
    cases heq
    rw [List.cons_append, exec] at hr
    obtain ⟨r1, hr1, heq⟩ := Option.map_eq_some_iff.mp hr
    cases heq
    have hkeeps2 := (hkeeps1 st0 ts0 hbefore).2
    obtain ⟨hkeepsi, -⟩ := Keeps.split hkeeps2
    have hopen := exec_step hsim.1 (show Op.keeps st0 .start_block from trivial)
    rw [exec_append] at hr1
    obtain ⟨r2, hr2, hend⟩ := Option.bind_eq_some_iff.mp hr1
    generalize Op.cExec _ .start_block = c2 at hopen
    cases hopen with
    | some hopen =>
      have hb : ([] :: st0.blocks) = [[]] ++ st0.blocks := rfl
      obtain ⟨defs', blocks', hb', hsight⟩ := run_outer hopen.1 hkeepsi hbal hb rfl hr2
      -- and closed
      obtain ⟨r3, hr3, heq⟩ := Option.map_eq_some_iff.mp hend
      cases heq
      rw [exec, Op.exec, hb'] at hr3
      cases hr3
      exact hsight

/-- A struct in a block, with the name of a complete one outside. -/
def hidden : List Op :=
  [.define_begin .struct ⟨"s", 1, false⟩, .define_end .struct ⟨"s", 1, false⟩ ["x"], .start_block,
    .define_begin .struct ⟨"s", 2, false⟩, .define_end .struct ⟨"s", 2, false⟩ ["y"], .end_block,
    .reference .struct ⟨"s", 3, false⟩]

theorem hidden_follows : Keeps .start hidden ∧
    Matches (exec .start hidden) (cExec .start hidden) := by
  have hkeeps : Keeps .start hidden :=
    ⟨trivial, Or.inr ⟨rfl, rfl⟩, trivial, Or.inl rfl, Or.inr ⟨rfl, rfl⟩, trivial, rfl, trivial⟩
  exact ⟨hkeeps, (tags_follow_scopes hidden hkeeps).1⟩

/-- `struct s; { struct s { int x; } v; }` and a use of the outer `s`. -/
def outerIncomplete : List Op :=
  [.reference .struct ⟨"s", 1, true⟩, .start_block, .define_begin .struct ⟨"s", 2, false⟩,
    .define_end .struct ⟨"s", 2, false⟩ ["x"], .end_block, .reference .struct ⟨"s", 3, false⟩]

/-- `struct s { int x; }; union s *p;` -/
def wrongKind : List Op :=
  [.define_begin .struct ⟨"s", 1, false⟩, .define_end .struct ⟨"s", 1, false⟩ ["x"],
    .reference .union ⟨"s", 2, false⟩]

/-- The inner definition completes the outer type, and a wrong kind is not reported. -/
theorem inner_definition_completes_outer :
    (exec .start outerIncomplete).map Prod.snd =
        some [some 0, none, none, some 0, none, some 0] ∧
      (cExec .start outerIncomplete).map Prod.snd =
        some [some 0, none, none, some 1, none, some 0] ∧
      (exec .start wrongKind).map (fun r => r.1.errors) = some [] ∧
      (cExec .start wrongKind).map (fun r => r.1.errors) = some [.wrong_kind "s"] := by
  decide

end ups_rules.tag_scopes
