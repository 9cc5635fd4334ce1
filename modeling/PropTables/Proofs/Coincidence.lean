import PropTables.Library.Holdings
import PropTables.Proofs.Agreement

/-! Lexical scoping. What a type converts to is settled by the meaning of the names in it. The type
parameters around a reference do not come along to what the reference stands for. -/

namespace PropTables

def Scope.within (scope : Scope) (params : List (List TypeParameter)) : Scope :=
  params.foldl Scope.withParams scope

@[simp] theorem Scope.root_within (scope : Scope) (params : List (List TypeParameter)) :
    (scope.within params).root = scope.root := by
  unfold within
  induction params generalizing scope with
  | nil => rfl
  | cons ps params ih => rw [List.foldl_cons, ih, root_withParams]

theorem Scope.root_eq_iff {scope scope' : Scope} :
    scope.root = scope'.root ↔ scope.base = scope'.base ∧ scope.file = scope'.file := by
  simp only [root, mk.injEq, true_and]

namespace Setting

variable {s : Setting} {scope scope' : Scope} {c c' : Context}

theorem body_congr (hroot : scope.root = scope'.root) (c : Context) (params : List TypeParameter) :
    { c with scope := scope }.body params = { c with scope := scope' }.body params := by
  simp only [Context.body, hroot]

theorem follow_congr (s : Setting) (hroot : scope.root = scope'.root) (n : ℕ) (b : Binding)
    (use : Use) (c : Context) :
    s.follow n b use { c with scope := scope } = s.follow n b use { c with scope := scope' } := by
  have hfile : scope.file = scope'.file := (Scope.root_eq_iff.1 hroot).2
  have hfail (fault : ConversionFault) (loc : Position) :
      ({ c with scope := scope }.fail fault loc : Traced Converted) =
        { c with scope := scope' }.fail fault loc := by
    simp only [Context.fail, hfile]
  cases n with
  | zero => rfl
  | succ n =>
    obtain ⟨referent, file⟩ := b
    cases referent with
    | typeAlias a =>
      exact congrArg (s.convert (s.follow n) a.right) (body_congr hroot c a.params)
    | interface i =>
      exact congrArg (s.convertObject (s.follow n) i.body) (body_congr hroot c i.params)
    | class_ k => simp only [follow, convertClass, hfail]
    | import_ i => rfl
    | function d => exact hfail _ _
    | variable_ v => exact hfail _ _
    | parameter p => exact hfail _ _

def Rescoped (scope scope' : Scope) (c c' : Context) : Prop :=
  c.scope = scope ∧ c' = { c with scope := scope' }

theorem Rescoped.congruence (hroot : scope.root = scope'.root) :
    Context.Congruence (Rescoped scope scope') where
  file := by
    rintro c _ ⟨rfl, rfl⟩
    exact (Scope.root_eq_iff.1 hroot).2
  replacement := by
    rintro c _ ⟨rfl, rfl⟩
    rfl
  origin := by
    rintro c _ ⟨rfl, rfl⟩
    rfl
  depth := by
    rintro c _ ⟨rfl, rfl⟩
    rfl
  isFieldValue := by
    rintro c _ ⟨rfl, rfl⟩
    rfl
  nested := by
    rintro c _ ⟨rfl, rfl⟩
    exact ⟨rfl, rfl⟩
  fieldValue := by
    rintro c _ ⟨rfl, rfl⟩
    exact ⟨rfl, rfl⟩
  spread := by
    rintro c _ ⟨rfl, rfl⟩
    exact ⟨rfl, rfl⟩
  indexed := by
    rintro c _ ⟨rfl, rfl⟩
    exact ⟨rfl, rfl⟩

theorem mirrors_of_lookups (s : Setting) (hroot : scope.root = scope'.root) (n : ℕ) (t : TypeExpr)
    (h : ∀ loc name, t.Within (.reference loc [] name []) → scope.lookup name = scope'.lookup name) :
    s.Mirrors s (s.follow n) (s.follow n) (Rescoped scope scope') Failure.never Eq t t := by
  -- The induction is on the type. Names are all that a conversion looks up in its scope, and behind
  -- a name the two scopes are one.
  have hR := Rescoped.congruence hroot
  induction t using TypeExpr.child_induction with
  | step t ih =>
    refine mirrors_of_parts .refl hR Eq.refl ?_ fun u hu =>
      ih u hu fun loc name hname => h loc name (.head hu hname)
    rintro loc name rfl c c' ⟨rfl, rfl⟩
    refine convertName_agrees .refl hR Eq.refl ⟨rfl, rfl⟩ (h loc name .refl) fun b _ => ?_
    have hfollow := s.follow_congr hroot n b ⟨loc, name⟩ c
    exact hfollow ▸ Agree.refl Eq.refl _

/-- In two scopes within declarations of one module that bind the names in a type alike, the type
converts alike, and so does an indexer with such values; other parts of a module say nothing of names.
Whatever a name is bound to is converted without regard to the type parameters in force where the name
stands. -/
theorem convertNode_coincidence (s : Setting) (base : Scope) (outer outer' : List (List TypeParameter))
    (c : Context) :
    (∀ node : Node,
      (∀ t ∈ node.type?, ∀ loc name, t.Within (.reference loc [] name []) →
        (base.within outer).lookup name = (base.within outer').lookup name) →
      (s.convertNode node { c with scope := base.within outer }).result =
        (s.convertNode node { c with scope := base.within outer' }).result) ∧
    ∀ n b use, s.follow n b use { c with scope := base.within outer } =
      s.follow n b use { c with scope := base.within outer' } := by
  have hroot : (base.within outer).root = (base.within outer').root := by
    rw [Scope.root_within, Scope.root_within]
  have hbound : s.referenceBound { c with scope := base.within outer } =
      s.referenceBound { c with scope := base.within outer' } := by
    have hbase : (base.within outer).base = (base.within outer').base := (Scope.root_eq_iff.1 hroot).1
    simp only [referenceBound, hbase]
  refine ⟨fun node h => Agree.eq ?_, fun n b use => s.follow_congr hroot n b use c⟩
  refine convertNode_agrees .refl (Rescoped.congruence hroot) Eq.refl node hbound (fun t ht => ?_)
    ⟨rfl, rfl⟩
  exact mirrors_of_lookups s hroot _ t (h t ht)

theorem eq_of_within_name {loc loc' : Position} {name name' : String}
    (h : (TypeExpr.reference loc [] name []).Within (.reference loc' [] name' [])) : name' = name := by
  rcases h.cases_head with h | ⟨u, hu, _⟩
  · cases h
    rfl
  · cases hu with
    | argument ht => cases ht

def boxModule : Module :=
  ⟨[.statement (.declaration (.typeAlias ⟨⟨1, 1⟩, "Box", [], .object
      ⟨⟨1, 12⟩, [.property ⟨⟨1, 13⟩, .ofString "value", "value", .reference ⟨1, 20⟩ [] "T" [], false,
        false, .none⟩], [], [], false, []⟩⟩)),
    .statement (.declaration (.typeAlias ⟨⟨2, 1⟩, "T", [], .primitive ⟨2, 10⟩ .number⟩))],
    some "/src/main.js"⟩

theorem convertNode_coincidence_box :
    let s : Setting := ⟨.default, .default, .ofTable .none [] .default⟩
    let base : Scope := .ofModule boxModule
    let box : Node := .type (.reference ⟨3, 9⟩ [] "Box" [])
    let c : Context := ⟨base, 0, false, none, some "/src/main.js"⟩
    let inner : Context := { c with scope := base.within [[⟨⟨3, 6⟩, "T"⟩]] }
    (∀ t ∈ box.type?, ∀ loc name, t.Within (.reference loc [] name []) →
      (base.within []).lookup name = (base.within [[⟨⟨3, 6⟩, "T"⟩]]).lookup name) ∧
    (s.convertNode box { c with scope := base.within [] }).result = (s.convertNode box inner).result ∧
    (s.convertNode box inner).result =
      .ok (.required (.object [⟨"value", (s.vocabulary.member "number").require, false, .none⟩] .none)) := by
  intro s base box c inner
  have hlookup : ∀ t ∈ box.type?, ∀ loc name, t.Within (.reference loc [] name []) →
      (base.within []).lookup name = (base.within [[⟨⟨3, 6⟩, "T"⟩]]).lookup name := by
    rintro t ⟨⟩ loc name h
    rw [eq_of_within_name h]
    rfl
  exact ⟨hlookup, (convertNode_coincidence s base [] [[⟨⟨3, 6⟩, "T"⟩]] c).1 box hlookup, rfl⟩

end Setting

end PropTables
