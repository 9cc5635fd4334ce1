import PropTables.Proofs.Imports

/-! Which class a table asks for. A class is named as the origin knows it, by its own name or by the
local name of an import; the invariant is that the name kept on the way is bound in the origin and
leads to whatever the way has come to. -/

namespace PropTables

def Context.top (m : Module) (depth : Int) (isFieldValue : Bool) : Context :=
  ⟨.ofModule m, depth, isFieldValue, none, m.file⟩

namespace Setting

def Known (s : Setting) (m m' : Module) : Prop :=
  m' = m ∨ s.library.Offers m'

structure Located (s : Setting) (m : Module) (c : Context) : Prop where
  origin : c.origin = m.file
  root : ∃ m', s.Known m m' ∧ c.scope.root = .ofModule m'
  inner : ∀ f ∈ c.scope.inner, ∀ e ∈ f, ∃ p, e.2.referent = .parameter p

def Names (s : Setting) (m : Module) (name : String) (b : Binding) : Prop :=
  ∃ b', (Scope.ofModule m).lookup name = some b' ∧ Relation.ReflTransGen s.library.ImportStep b' b

/-- The calls of a conversion for the origin: a type has no name of its own yet, and the name that
comes along with a binding leads to that binding. -/
inductive OnBehalf (s : Setting) (m : Module) : Call → Prop
  | type (hc : s.Located m c) (hr : c.replacement = none) : OnBehalf s m (.type n t c)
  | binding (hc : s.Located m c)
      (hb : (∃ p, b.referent = .parameter p) ∨ ∃ name, (name, b) ∈ c.scope.base)
      (hr : ∀ name, c.replacement = some name → s.Names m name b) :
    OnBehalf s m (.binding n b use c)

section

variable {s : Setting} {m : Module} {x y : Call} {n : Nat} {c c' : Context} {t t' : TypeExpr}
  {b : Binding} {name : String} {use : Use} {v : Converted}

theorem Located.file_of_mem (h : s.Located m c) (hb : (name, b) ∈ c.scope.base) :
    ∃ m', s.Known m m' ∧ (name, b) ∈ (Scope.ofModule m').base ∧ b.file = m'.file := by
  obtain ⟨m', hm', hroot⟩ := h.root
  have hbase : c.scope.root.base = (Scope.ofModule m').base := congrArg Scope.base hroot
  change (name, b) ∈ c.scope.root.base at hb
  rw [hbase] at hb
  exact ⟨m', hm', hb, Scope.file_of_mem_ofModule hb⟩

theorem Located.lookup (h : s.Located m c) (hb : c.scope.lookup name = some b) :
    (∃ p, b.referent = .parameter p) ∨ (name, b) ∈ c.scope.base := by
  rcases Scope.lookup_cases hb with ⟨f, hf, hmem⟩ | hb
  · exact .inl (h.inner f hf _ hmem)
  · have hmem := Scope.mem_base_of_lookup rfl hb
    exact .inr hmem

theorem Located.body (h : s.Located m c) (params : List TypeParameter) :
    s.Located m (c.body params) := by
  refine ⟨h.origin, ?_, fun f hf e he => ?_⟩
  · rw [Context.root_body]
    exact h.root
  · obtain ⟨p, rfl⟩ := Scope.mem_withParams hf he
    exact ⟨p, rfl⟩

theorem Located.part (h : s.Located m c) (hp : s.Part c t t' c') : s.Located m c' := by
  obtain ⟨hscope, horigin, _⟩ := hp.context_eq
  exact ⟨horigin ▸ h.origin, hscope ▸ h.root, hscope ▸ h.inner⟩

section Origin

variable (hl : s.library.Faithful) (hm : m.BindsApart)
  (ho : ∀ m', s.library.Offers m' → m'.file = m.file → m' = m)

include ho in
theorem Located.eq_origin (h : s.Located m c) (hb : (name, b) ∈ c.scope.base)
    (hf : b.file = c.origin) : (name, b) ∈ (Scope.ofModule m).base ∧ b.file = m.file := by
  obtain ⟨m', hm', hmem, hfile⟩ := h.file_of_mem hb
  have horigin := hf.trans h.origin
  rcases hm' with rfl | hoffers
  · exact ⟨hmem, hfile⟩
  · rw [ho m' hoffers (hfile.symm.trans horigin)] at hmem
    exact ⟨hmem, horigin⟩

include hl hm ho in
theorem OnBehalf.step (hx : s.OnBehalf m x) (h : s.Step x y) : s.OnBehalf m y := by
  cases h with
  | part hp =>
    cases hx with
    | type hc hr => exact .type (hc.part hp) (hp.context_eq.2.2 hr)
  | lookup hb =>
    cases hx with
    | type hc hr =>
      refine .binding hc ((hc.lookup hb).imp_right fun h => ⟨_, h⟩) fun name h => ?_
      exact nomatch hr.symm.trans h
  | typeAlias =>
    cases hx with
    | binding hc => exact .type (hc.body _) rfl
  | interface =>
    cases hx with
    | binding hc => exact .type (hc.body _) rfl
  | @import_ i file r n use c hr =>
    cases hx with
    | binding hc hb hrep =>
      obtain ⟨m', name', hoffers, hscope, hmem⟩ := Library.resolveImport_eq_ok hl hr
      have himport : s.library.ImportStep ⟨.import_ i, file⟩ r.binding := .mk hr
      refine .binding ⟨hc.origin, ⟨m', .inr hoffers, ?_⟩, ?_⟩ (.inr ⟨name', hmem⟩) fun name h => ?_
      · simp only [Context.through, hscope]
        rfl
      · simp only [Context.through, hscope]
        rintro _ ⟨⟩
      · simp only [Context.through] at h
        split at h
        -- The origin's own import gives the name; a name from before goes one import further.
        next hown =>
          cases h
          rcases hb with ⟨p, hp⟩ | ⟨name, hb⟩
          · cases hp
          · obtain ⟨hmem, hfile⟩ := hc.eq_origin ho hb hown.2
            cases Scope.name?_of_mem_ofModule hmem
            exact ⟨_, Scope.lookup_ofModule hm hmem, .single himport⟩
        next =>
          obtain ⟨b', hlookup, hreach⟩ := hrep name h
          exact ⟨b', hlookup, hreach.tail himport⟩

include hl hm ho in
theorem OnBehalf.reaches (hx : s.OnBehalf m x) (h : s.Reaches x y) : s.OnBehalf m y := by
  induction h with
  | refl => exact hx
  | tail _ hstep ih => exact ih.step hl hm ho hstep

include hl hm ho in
theorem OnBehalf.instanceOf {k : ClassDeclaration} {file : Option String}
    (hx : s.OnBehalf m (.binding n b use c)) (hv : s.Yields (.binding n b use c) v)
    (hk : Relation.ReflTransGen s.library.ImportStep b ⟨.class_ k, file⟩) :
    ∃ name, v = .required (s.vocabulary.call "instanceOf" (.named name)) ∧
      s.Names m name ⟨.class_ k, file⟩ := by
  -- The induction is on the imports that are left, and the invariant takes the name along.
  induction hk using Relation.ReflTransGen.head_induction_on generalizing n c with
  | refl =>
    cases hx with
    | binding hc hb hr =>
      cases rule_of_yields hv with
      | replacedClass hname => exact ⟨_, rfl, hr _ hname⟩
      | ownClass _ hf =>
        rcases hb with ⟨p, hp⟩ | ⟨name, hb⟩
        · cases hp
        · obtain ⟨hmem, hfile⟩ := hc.eq_origin ho hb hf
          have hname : k.name = some name := Scope.name?_of_mem_ofModule hmem
          refine ⟨name, ?_, _, Scope.lookup_ofModule hm hmem, .refl⟩
          rw [hname]
          rfl
  | head hstep _ ih =>
    cases hstep with
    | mk hr =>
      cases rule_of_yields hv with
      | import_ hr' hw =>
        rw [Except.ok.inj (hr'.symm.trans hr)] at hw
        exact ih (hx.step hl hm ho (.import_ hr)) hw

end Origin

end

theorem OnBehalf.top (s : Setting) (m : Module) (n : Nat) (t : TypeExpr) (depth : Int)
    (isFieldValue : Bool) : s.OnBehalf m (.type n t (.top m depth isFieldValue)) :=
  .type ⟨rfl, ⟨m, .inl rfl, rfl⟩, fun _ hf => nomatch hf⟩ rfl

/-- In the conversion of a type, as in that of a table, a reference that leads to a class becomes a
test for a name of the origin. From there the name leads to the same class of the same file. -/
theorem instanceOf_names_class (s : Setting) (m : Module) (hl : s.library.Faithful)
    (hm : m.BindsApart) (ho : ∀ m', s.library.Offers m' → m'.file = m.file → m' = m)
    {bound : Nat} {t : TypeExpr} {depth : Int} {isFieldValue : Bool} {v : Converted}
    (hv : (s.convert (s.follow bound) t (.top m depth isFieldValue)).result = .ok v)
    {n : Nat} {loc : Position} {name : String} {c : Context} {b : Binding} {k : ClassDeclaration}
    {file : Option String}
    (hx : s.Reaches (.type bound t (.top m depth isFieldValue))
      (.type n (.reference loc [] name []) c))
    (hb : c.scope.lookup name = some b) (hk : s.library.EndsAt b ⟨.class_ k, file⟩) :
    ∃ own b', (s.convert (s.follow n) (.reference loc [] name []) c).result =
        .ok (.required (s.vocabulary.call "instanceOf" (.named own))) ∧
      (Scope.ofModule m).lookup own = some b' ∧
      ∀ e, s.library.EndsAt b' e ↔ e = ⟨.class_ k, file⟩ := by
  have hcall := (OnBehalf.top s m bound t depth isFieldValue).reaches hl hm ho hx
  obtain ⟨w, hrun⟩ := hx.yields (v := v) hv
  cases rule_of_yields hrun with
  | bound hb' hw =>
    rw [Option.some.inj (hb'.symm.trans hb)] at hw
    obtain ⟨own, rfl, b', hlookup, hreach⟩ :=
      (hcall.step hl hm ho (.lookup hb)).instanceOf hl hm ho hw hk.1
    have hend : s.library.EndsAt b' ⟨.class_ k, file⟩ := ⟨hreach, hk.2⟩
    exact ⟨own, b', hrun, hlookup, fun e => ⟨fun he => hend.unique he, fun he => he ▸ hend⟩⟩
  | unboundFunction hb' | unboundObject hb' => exact nomatch hb.symm.trans hb'

def widgetModule : Module :=
  ⟨[.exportDefault ⟨1, 1⟩ (.class_ ⟨⟨1, 16⟩, some "Widget", [], none, none, []⟩)],
    some "/widget.js"⟩

def formModule : Module :=
  let source := Text.ofString "./widget.js"
  ⟨[.statement (.import_ ⟨⟨1, 1⟩, source, .value, [⟨⟨1, 8⟩, "W", some "default", source, .value⟩]⟩)],
    some "/form.js"⟩

def widgetLibrary : Library :=
  .ofModules [("/widget.js", widgetModule)]

theorem instanceOf_names_class_widget :
    let s : Setting := ⟨.default, .default, widgetLibrary⟩
    ∃ own b', (s.convert (s.follow 3) (.reference ⟨2, 4⟩ [] "W" []) (.top formModule 1 true)).result =
        .ok (.required (s.vocabulary.call "instanceOf" (.named own))) ∧
      (Scope.ofModule formModule).lookup own = some b' ∧
      ∀ e, s.library.EndsAt b' e ↔
        e = ⟨.class_ ⟨⟨1, 16⟩, some "Widget", [], none, none, []⟩, some "/widget.js"⟩ := by
  intro s
  have hl : widgetLibrary.Faithful := by
    refine .ofHoldings (.ofModules fun m hm => ?_)
    cases List.mem_singleton.1 hm
    rfl
  have ho : ∀ m', widgetLibrary.Offers m' → m'.file = formModule.file → m' = formModule := by
    rintro m' ⟨path, -, hm⟩ hfile
    obtain ⟨e, he, hm⟩ := Library.mem_ofModules hm
    cases List.mem_singleton.1 he
    cases congrArg LoadedModule.source hm
    exact absurd hfile (by decide)
  have hstep : widgetLibrary.ImportStep
      ⟨.import_ ⟨⟨1, 8⟩, "W", some "default", .ofString "./widget.js", .value⟩, some "/form.js"⟩
      ⟨.class_ ⟨⟨1, 16⟩, some "Widget", [], none, none, []⟩, some "/widget.js"⟩ :=
    .mk (r := ⟨_, .ofModule widgetModule⟩) rfl
  have hv : (s.convert (s.follow 3) (.reference ⟨2, 4⟩ [] "W" []) (.top formModule 1 true)).result =
      .ok (.required (s.vocabulary.call "instanceOf" (.named "W"))) := rfl
  exact instanceOf_names_class s formModule hl (by decide) ho hv .refl rfl ⟨.single hstep, nofun⟩

end Setting

end PropTables
