import PropTables.Proofs.Expansion

/-! Aliases and interfaces without parameters are transparent: a table is made of a type as it is made
of the type with their names written out. A name is followed where it stands, in the context of what is
put for it; following it uses one reference up, which the bound does not feel. -/

namespace PropTables

open Relation

/-- Two errors of one kind, or one failure that nothing catches. -/
inductive Failure.SameKind : Failure → Failure → Prop
  | conversion {e e' : ConversionError} (h : e.kind = e'.kind) : SameKind (.conversion e) (.conversion e')
  | uncaught {u : Uncaught} : SameKind (.uncaught u) (.uncaught u)

structure Traced.SameOutcome {α : Type} (x y : Traced α) : Prop where
  ok : ∀ a, x.result = .ok a ↔ y.result = .ok a
  error : ∀ e e', x.result = .error e → y.result = .error e' → e.SameKind e'

theorem Failure.SameKind.refl (e : Failure) : e.SameKind e := by
  cases e with
  | conversion => exact .conversion rfl
  | uncaught => exact .uncaught

theorem Failure.SameKind.trans {e₁ e₂ e₃ : Failure} (h : e₁.SameKind e₂) (h' : e₂.SameKind e₃) :
    e₁.SameKind e₃ := by
  cases h with
  | conversion h =>
    cases h' with
    | conversion h' => exact .conversion (h.trans h')
  | uncaught => exact h'

theorem Traced.Agrees.sameOutcome {α : Type} {x y : Traced α}
    (h : x.Agrees Failure.never Failure.SameKind y) : x.SameOutcome y := by
  obtain ⟨hok, herror⟩ := Agree.never_iff.1 h
  exact ⟨hok, herror⟩

abbrev Scope.Exposes (scope : Scope) : TypeExpr → TypeExpr → Prop :=
  ReflTransGen scope.Shows

namespace Setting

/-- No name that is a member of a union stands for a literal type, and none that is the argument of a
spread stands for an exact type. -/
structure HidesNothing (s : Setting) (scope : Scope) (t : TypeExpr) : Prop where
  literal : ∀ loc ts u v, scope.Exposes t (.union loc ts) → u ∈ ts → TransGen scope.Inlines u v →
    v.literal? = none
  exact : ∀ o p v, scope.Exposes t (.object o) → .spread p ∈ o.members →
    TransGen scope.Inlines p.argument v → s.isExact v = false

section

variable {s : Setting} {scope : Scope} {e : TypeExpr → TypeExpr} {t u : TypeExpr} {c c₀ : Context}
  {n : ℕ} {name : String}

theorem HidesNothing.shows (h : s.HidesNothing scope t) (hu : scope.Shows t u) :
    s.HidesNothing scope u :=
  ⟨fun loc ts v w hv => h.literal loc ts v w (.head hu hv),
    fun o p v hv => h.exact o p v (.head hu hv)⟩

theorem literal?_mapChildren (f : TypeExpr → TypeExpr) (t : TypeExpr) :
    (t.mapChildren f).literal? = t.literal? := by
  cases t <;> rfl

theorem isExact_mapChildren (s : Setting) (f : TypeExpr → TypeExpr) (t : TypeExpr) :
    s.isExact (t.mapChildren f) = s.isExact t := by
  cases t with
  | reference loc qs name ts => cases qs <;> cases ts <;> rfl
  | _ => rfl

theorem mapChildren_of_literal? {f : TypeExpr → TypeExpr} (h : t.literal? ≠ none) :
    t.mapChildren f = t := by
  cases t with
  | primitive | number | boolean | string => rfl
  | _ => exact (h rfl).elim

theorem form_of_inlines (s : Setting) (h : TransGen scope.Inlines t u) :
    t.literal? = none ∧ s.isExact t = false := by
  obtain ⟨v, hv, _⟩ := TransGen.head'_iff.1 h
  obtain ⟨loc, name, rfl, _⟩ := Scope.Inlines.eq_reference hv
  exact ⟨rfl, rfl⟩

theorem HidesNothing.respects (ha : scope.Acyclic) (he : scope.IsExpansion e)
    (h : s.HidesNothing scope t) : s.Respects (fun u v => v = e u) t := by
  constructor
  · rintro loc ts rfl u hu _ rfl
    obtain ⟨v, hv, hform⟩ := he.exists_form ha u
    rw [hform, literal?_mapChildren]
    rcases reflTransGen_iff_eq_or_transGen.1 hv with rfl | hv
    · -- The type stands for itself: if it is a literal, writing it out leaves it as it is.
      exact ⟨rfl, fun hl => by rw [mapChildren_of_literal? hl]⟩
    · rw [h.literal loc ts u v .refl hu hv, (form_of_inlines s hv).1]
      exact ⟨rfl, fun hl => (hl rfl).elim⟩
  · rintro o p rfl hp _ rfl
    obtain ⟨v, hv, hform⟩ := he.exists_form ha p.argument
    rw [hform, isExact_mapChildren]
    rcases reflTransGen_iff_eq_or_transGen.1 hv with rfl | hv
    · rfl
    · rw [h.exact o p v .refl hp hv, (form_of_inlines s hv).2]

def AtTop (s : Setting) (c₀ : Context) (c c' : Context) : Prop :=
  (c = c' ∧ s.Roams c₀ c) ∧ c.scope.inner = [] ∧ c.scope = c₀.scope ∧ c.replacement = none

theorem AtTop.congruence : Context.Congruence (s.AtTop c₀) where
  file h := Roams.congruence.file h.1
  replacement h := Roams.congruence.replacement h.1
  origin h := Roams.congruence.origin h.1
  depth h := Roams.congruence.depth h.1
  isFieldValue h := Roams.congruence.isFieldValue h.1
  nested h := ⟨Roams.congruence.nested h.1, h.2.1, h.2.2.1, rfl⟩
  fieldValue h := ⟨Roams.congruence.fieldValue h.1, h.2.1, h.2.2.1, rfl⟩
  spread h := ⟨Roams.congruence.spread h.1, h.2.1, h.2.2.1, rfl⟩
  indexed h := ⟨Roams.congruence.indexed h.1, h.2.1, h.2.2.1, rfl⟩

theorem body_eq_self (hscope : c.scope.inner = []) (hr : c.replacement = none) : c.body [] = c := by
  obtain ⟨⟨inner, base, file⟩, depth, isFieldValue, replacement, origin⟩ := c
  cases hscope
  cases hr
  rfl

theorem follow_declared (s : Setting) (hu : c.scope.declared? name = some u)
    (hscope : c.scope.inner = []) (hr : c.replacement = none) :
    ∃ b, c.scope.lookup name = some b ∧
      ∀ n use, s.follow (n + 1) b use c = s.convert (s.follow n) u c := by
  unfold Scope.declared? at hu
  split at hu
  next a file hb =>
    split at hu
    next hparams =>
      cases hu
      refine ⟨_, hb, fun n use => ?_⟩
      show s.convert (s.follow n) a.right (c.body a.params) = _
      rw [List.isEmpty_iff.1 hparams, body_eq_self hscope hr]
    next => cases hu
  next i file hb =>
    split at hu
    next hparams =>
      cases hu
      refine ⟨_, hb, fun n use => ?_⟩
      show s.convert (s.follow n) (.object i.body) (c.body i.params) = _
      rw [List.isEmpty_iff.1 hparams, body_eq_self hscope hr]
    next => cases hu
  next => cases hu

theorem mirrors_expansion (hstable : s.Stable c₀ n) (ha : c₀.scope.Acyclic)
    (he : c₀.scope.IsExpansion e) (t : TypeExpr) (ht : s.HidesNothing c₀.scope t) :
    s.Mirrors s (s.follow n) (s.follow n) (s.AtTop c₀) Failure.never Failure.SameKind t (e t) := by
  -- The induction is on what writing out shows: a part of the type, or what is put for its name.
  induction t using ha.induction with
  | step t ihChild ihInlines =>
    cases hi : c₀.scope.inlined? t with
    | none =>
      rw [he.kept t hi]
      have hplace (loc : Position) : SamePlace (s.AtTop c₀) Failure.SameKind loc loc :=
        fun _ _ _ _ => .conversion rfl
      have hlayer := s.resembles_mapChildren hplace e t
      refine mirrors_of_resembles .refl AtTop.congruence hlayer (ht.respects ha he)
        (fun _ _ _ _ _ _ _ _ => .conversion rfl) ?_ fun u v hu hv => ?_
      · rintro loc loc' name rfl hu c c' hc
        cases hu
        rw [hc.1.1]
        exact Agree.refl .refl _
      · rw [hv]
        exact ihChild u hu (ht.shows (.inl hu))
    | some u =>
      intro c c' hc
      obtain ⟨loc, name, rfl, hu⟩ := Scope.Inlines.eq_reference hi
      have ih := ihInlines u hi (ht.shows (.inr hi)) c c' hc
      obtain ⟨⟨_, hroams⟩, hinner, hscope, hr⟩ := hc
      rw [← hscope] at hu
      obtain ⟨b, hb, hfollow⟩ := follow_declared s hu hinner hr
      -- What is put for the name is converted with one reference less than the name is.
      have hstep := hstable b ⟨loc, name⟩ c hroams (hroams.bound hb)
      rw [hfollow] at hstep
      have hname : s.convert (s.follow n) (.reference loc [] name []) c =
          s.follow n b ⟨loc, name⟩ c := by
        rw [convert, convertName, hb]
      rw [hname, he.inlined _ u hi]
      exact (hstep.mono (fun _ => id) fun _ _ h => h ▸ .refl _).trans (fun _ _ _ => .trans) ih

end

/-- There is one way to write out all names of aliases and interfaces without parameters, and a table
is made of a type at the top level of the module exactly as of the type with these names written out. -/
theorem convertTable_expansion (s : Setting) (hl : s.library.Faithful) (m : Module)
    (ha : (Scope.ofModule m).Acyclic) :
    (∃! e, (Scope.ofModule m).IsExpansion e) ∧
    ∀ e, (Scope.ofModule m).IsExpansion e →
      (∀ t u, (e t).Within u → (Scope.ofModule m).inlined? u = none) ∧
      ∀ t origin, s.HidesNothing (.ofModule m) t →
        (s.convertTable t (.ofModule m) origin).SameOutcome
          (s.convertTable (e t) (.ofModule m) origin) := by
  obtain ⟨e₀, he₀⟩ := ha.exists_isExpansion
  refine ⟨⟨e₀, he₀, fun e he => ha.isExpansion_unique he he₀⟩, fun e he => ⟨fun t u hu => ?_, ?_⟩⟩
  · exact he.inlined?_eq_none ha t u hu
  intro t origin ht
  refine Traced.Agrees.sameOutcome ?_
  let c₀ : Context := ⟨.ofModule m, 0, false, none, origin <|> (Scope.ofModule m).file⟩
  have htop : s.AtTop c₀ c₀ c₀ :=
    ⟨⟨rfl, List.mem_cons_self, nofun, min_le_right _ _, rfl⟩, rfl, rfl, rfl⟩
  have hconvert := mirrors_expansion (s.stable_referenceBound hl c₀) ha he t ht c₀ c₀ htop
  refine hconvert.bind fun v _ => ?_
  split
  · exact .ok _
  · exact .error (.conversion rfl)

def sizeType : TypeExpr :=
  .primitive ⟨1, 13⟩ .number

def sizedBody (size : TypeExpr) : ObjectType TypeExpr :=
  ⟨⟨2, 15⟩, [.property ⟨⟨2, 16⟩, .ofString "size", "size", size, false, false, .none⟩], [], [],
    false, []⟩

def sizeName : TypeExpr :=
  .reference ⟨2, 22⟩ [] "Size" []

def sizedName : TypeExpr :=
  .reference ⟨3, 10⟩ [] "Sized" []

def sizedModule : Module :=
  ⟨[.statement (.declaration (.typeAlias ⟨⟨1, 1⟩, "Size", [], sizeType⟩)),
    .statement (.declaration (.interface ⟨⟨2, 1⟩, "Sized", [], sizedBody sizeName⟩))],
    some "/src/main.js"⟩

theorem declared?_sizedModule {name : String} {t : TypeExpr}
    (h : (Scope.ofModule sizedModule).declared? name = some t) :
    name = "Size" ∧ t = sizeType ∨ name = "Sized" ∧ t = .object (sizedBody sizeName) := by
  obtain ⟨b, hb⟩ := Scope.exists_lookup_of_declared? h
  have hmem : (name, b) ∈ (Scope.ofModule sizedModule).base := Scope.mem_base_of_lookup rfl hb
  rcases List.mem_cons.1 hmem with hmem | hmem
  · cases hmem
    exact .inl ⟨rfl, (Option.some.inj h).symm⟩
  · cases List.mem_singleton.1 hmem
    exact .inr ⟨rfl, (Option.some.inj h).symm⟩

theorem eq_of_child_sizedBody {size t : TypeExpr} (h : (TypeExpr.object (sizedBody size)).Child t) :
    t = size := by
  cases h with
  | property hp =>
    cases List.mem_singleton.1 hp
    rfl
  | spread hp => cases List.mem_singleton.1 hp
  | indexerKey hi | indexerValue hi => cases hi
  | callParam hk | callResult hk => cases hk

theorem not_child_name {loc : Position} {name : String} {t : TypeExpr} :
    ¬ (TypeExpr.reference loc [] name []).Child t := by
  intro h
  cases h
  contradiction

theorem exposes_sizedModule {t : TypeExpr} (h : (Scope.ofModule sizedModule).Exposes sizedName t) :
    t = sizedName ∨ t = .object (sizedBody sizeName) ∨ t = sizeName ∨ t = sizeType := by
  induction h with
  | refl => exact .inl rfl
  | @tail t u _ hu ih =>
    rcases hu with hu | hu
    · rcases ih with rfl | rfl | rfl | rfl
      · exact (not_child_name hu).elim
      · exact .inr (.inr (.inl (eq_of_child_sizedBody hu)))
      · exact (not_child_name hu).elim
      · cases hu
    · obtain ⟨_, name, _, hname⟩ := Scope.Inlines.eq_reference hu
      rcases declared?_sizedModule hname with ⟨_, rfl⟩ | ⟨_, rfl⟩
      · exact .inr (.inr (.inr rfl))
      · exact .inr (.inl rfl)

theorem acyclic_sizedModule : (Scope.ofModule sizedModule).Acyclic := by
  have refers {name name' : String} (h : (Scope.ofModule sizedModule).Refers name name') :
      name = "Sized" ∧ name' = "Size" := by
    obtain ⟨t, loc, ht, hwithin, _⟩ := h
    rcases declared?_sizedModule ht with ⟨_, rfl⟩ | ⟨rfl, rfl⟩
    · rcases hwithin.cases_head with h | ⟨_, h, _⟩
      · cases h
      · cases h
    · rcases hwithin.cases_head with h | ⟨u, hu, hrest⟩
      · cases h
      · rw [eq_of_child_sizedBody hu] at hrest
        rcases hrest.cases_head with h | ⟨_, h, _⟩
        · cases h
          exact ⟨rfl, rfl⟩
        · exact (not_child_name h).elim
  intro name h
  obtain ⟨_, hfirst, _⟩ := TransGen.head'_iff.1 h
  obtain ⟨_, _, hlast⟩ := TransGen.tail'_iff.1 h
  have hname := (refers hfirst).1
  have hname' := (refers hlast).2
  exact absurd (hname.symm.trans hname') (by decide)

theorem convertTable_expansion_sized :
    let s : Setting := ⟨.default, .default, .ofTable .none [] .default⟩
    ∃ e table, (Scope.ofModule sizedModule).IsExpansion e ∧
      e sizedName = .object (sizedBody sizeType) ∧
      (s.convertTable sizedName (.ofModule sizedModule) none).result = .ok table ∧
      (s.convertTable (.object (sizedBody sizeType)) (.ofModule sizedModule) none).result =
        .ok table := by
  intro s
  obtain ⟨⟨e, he, _⟩, hall⟩ :=
    convertTable_expansion s (Library.Faithful.ofTable .none [] .default) sizedModule acyclic_sizedModule
  have hname : e sizedName = .object (sizedBody sizeType) := by
    have hsize : e sizeName = sizeType := (he.inlined sizeName sizeType rfl).trans (he.kept _ rfl)
    rw [he.inlined sizedName (.object (sizedBody sizeName)) rfl, he.kept _ rfl]
    show TypeExpr.object (sizedBody (e sizeName)) = _
    rw [hsize]
  have hhides : s.HidesNothing (.ofModule sizedModule) sizedName := by
    refine ⟨fun loc ts u v h => ?_, fun o p v h hp => ?_⟩
    · rcases exposes_sizedModule h with h | h | h | h <;> cases h
    · rcases exposes_sizedModule h with h | h | h | h <;> cases h
      cases List.mem_singleton.1 hp
  have houtcome := (hall e he).2 sizedName none hhides
  rw [hname] at houtcome
  exact ⟨e, _, he, hname, rfl, (houtcome.ok _).1 rfl⟩

end Setting

end PropTables
