import PropTables.Proofs.Rules

/-! Two conversions side by side. If they agree on the types that a type is made of, they agree on the
type, in any two contexts that the rules do not tell apart and up to what counts as the same
failure. They may differ in the kinds of types that are allowed. -/

namespace PropTables

/-- Two results are the same, up to failures that count as alike. Where the first of them is a failure
that counts as lost, nothing is asked of the second. -/
inductive Agree {α : Type} (lost : Failure → Prop) (alike : Failure → Failure → Prop) :
    Except Failure α → Except Failure α → Prop
  | ok (a : α) : Agree lost alike (.ok a) (.ok a)
  | error {e e' : Failure} (h : alike e e') : Agree lost alike (.error e) (.error e')
  | lost {e : Failure} (h : lost e) (r : Except Failure α) : Agree lost alike (.error e) r

abbrev Traced.Agrees {α : Type} (lost : Failure → Prop) (alike : Failure → Failure → Prop)
    (x y : Traced α) : Prop :=
  Agree lost alike x.result y.result

def Failure.never (_ : Failure) : Prop :=
  False

section

variable {α β : Type} {lost : Failure → Prop} {alike : Failure → Failure → Prop}

theorem Agree.refl (ha : ∀ e, alike e e) (r : Except Failure α) : Agree lost alike r r := by
  cases r with
  | ok a => exact .ok a
  | error e => exact .error (ha e)

theorem Agree.mono {lost' : Failure → Prop} {alike' : Failure → Failure → Prop}
    {r r' : Except Failure α} (hl : ∀ e, lost e → lost' e) (ha : ∀ e e', alike e e' → alike' e e')
    (h : Agree lost alike r r') : Agree lost' alike' r r' := by
  cases h with
  | ok a => exact .ok a
  | error h => exact .error (ha _ _ h)
  | lost h => exact .lost (hl _ h) _

theorem Agree.trans {r₁ r₂ r₃ : Except Failure α}
    (ha : ∀ e₁ e₂ e₃, alike e₁ e₂ → alike e₂ e₃ → alike e₁ e₃)
    (h : Agree Failure.never alike r₁ r₂) (h' : Agree Failure.never alike r₂ r₃) :
    Agree Failure.never alike r₁ r₃ := by
  cases h with
  | ok a => exact h'
  | lost h => exact h.elim
  | error h =>
    cases h' with
    | error h' => exact .error (ha _ _ _ h h')
    | lost h' => exact h'.elim

theorem Agree.never_iff {r r' : Except Failure α} :
    Agree Failure.never alike r r' ↔
      (∀ a, r = .ok a ↔ r' = .ok a) ∧ ∀ e e', r = .error e → r' = .error e' → alike e e' := by
  constructor
  · intro h
    cases h with
    | ok a => exact ⟨fun _ => Iff.rfl, fun _ _ h => nomatch h⟩
    | lost h => exact h.elim
    | error h =>
      refine ⟨fun _ => iff_of_false (nomatch ·) (nomatch ·), fun _ _ he he' => ?_⟩
      cases he
      cases he'
      exact h
  · rintro ⟨hok, herror⟩
    cases r with
    | ok a =>
      rw [(hok a).1 rfl]
      exact .ok a
    | error e =>
      cases r' with
      | ok a => cases (hok a).2 rfl
      | error e' => exact .error (herror e e' rfl rfl)

theorem Agree.eq {r r' : Except Failure α} (h : Agree Failure.never Eq r r') : r = r' := by
  cases h with
  | ok a => rfl
  | error h => rw [h]
  | lost h => exact h.elim

theorem Traced.Agrees.bind {x y : Traced α} {k k' : α → Traced β} (h : x.Agrees lost alike y)
    (hk : ∀ a, x.result = .ok a → (k a).Agrees lost alike (k' a)) :
    (x >>= k).Agrees lost alike (y >>= k') := by
  show Agree lost alike (x >>= k).result (y >>= k').result
  rw [result_bind, result_bind]
  unfold Traced.Agrees at h
  generalize x.result = r at h hk
  generalize y.result = r' at h
  cases h with
  | ok a => exact hk a rfl
  | error h => exact .error h
  | lost h => exact .lost h _

theorem Traced.Agrees.map {x y : Traced α} {k : α → β} (h : x.Agrees lost alike y) :
    (x >>= fun a => pure (k a)).Agrees lost alike (y >>= fun a => pure (k a)) :=
  h.bind fun a _ => .ok (k a)

end

/-- The rules keep the relation between contexts and cannot tell related contexts apart, but for what
their scopes bind. -/
structure Context.Congruence (R : Context → Context → Prop) : Prop where
  file : ∀ {c c'}, R c c' → c.scope.file = c'.scope.file
  replacement : ∀ {c c'}, R c c' → c.replacement = c'.replacement
  origin : ∀ {c c'}, R c c' → c.origin = c'.origin
  depth : ∀ {c c'}, R c c' → (c.depth = 0 ↔ c'.depth = 0)
  isFieldValue : ∀ {c c'}, R c c' → c.isFieldValue = c'.isFieldValue
  nested : ∀ {c c'}, R c c' → R c.nested c'.nested
  fieldValue : ∀ {c c'}, R c c' → R c.fieldValue c'.fieldValue
  spread : ∀ {c c'}, R c c' → R c.spread c'.spread
  indexed : ∀ {c c'}, R c c' → R c.indexed c'.indexed

inductive Member.Resembles (At : Position → Position → Prop) (P : TypeExpr → TypeExpr → Prop) :
    Member TypeExpr → Member TypeExpr → Prop
  | property {loc loc' : Position} {key : Text} {written : String} {value value' : TypeExpr}
    {optional quoted : Bool} {notes : Notes} (h : P value value') :
    Resembles At P (.property ⟨loc, key, written, value, optional, quoted, notes⟩)
      (.property ⟨loc', key, written, value', optional, quoted, notes⟩)
  | spread {loc loc' : Position} {argument argument' : TypeExpr} {notes : Notes} (hloc : At loc loc')
    (h : P argument argument') :
    Resembles At P (.spread ⟨loc, argument, notes⟩) (.spread ⟨loc', argument', notes⟩)

inductive Indexer.Resembles (At : Position → Position → Prop) (P : TypeExpr → TypeExpr → Prop) :
    Indexer TypeExpr → Indexer TypeExpr → Prop
  | mk {loc loc' : Position} {name name' : Option String} {key key' value value' : TypeExpr}
    (hloc : At loc loc') (h : P value value') :
    Resembles At P ⟨loc, name, key, value⟩ ⟨loc', name', key', value'⟩

/-- Types of the same form at places in the one relation, with parts in the other. The parts without
a meaning at runtime are left out: those of function types, tuples and call signatures, the first
argument of a checked type, what an indexer says of its keys, and whether an object type is exact. -/
inductive Setting.Resembles (s : Setting) (At : Position → Position → Prop)
    (P : TypeExpr → TypeExpr → Prop) : TypeExpr → TypeExpr → Prop
  | primitive {loc loc' : Position} {p : Primitive} (hloc : At loc loc') :
    Resembles s At P (.primitive loc p) (.primitive loc' p)
  | number {loc loc' : Position} {value : Number} {raw : String} :
    Resembles s At P (.number loc value raw) (.number loc' value raw)
  | boolean {loc loc' : Position} {value : Bool} :
    Resembles s At P (.boolean loc value) (.boolean loc' value)
  | string {loc loc' : Position} {value : Text} {raw : String} :
    Resembles s At P (.string loc value raw) (.string loc' value raw)
  | function {loc loc' : Position} {params params' : List (FunctionParam TypeExpr)}
    {result result' : TypeExpr} :
    Resembles s At P (.function loc params result) (.function loc' params' result')
  | nullable {loc loc' : Position} {t u : TypeExpr} (hloc : At loc loc') (h : P t u) :
    Resembles s At P (.nullable loc t) (.nullable loc' u)
  | array {loc loc' : Position} {t u : TypeExpr} (h : P t u) :
    Resembles s At P (.array loc t) (.array loc' u)
  | arrayOf {loc loc' : Position} {t u : TypeExpr} (h : P t u) :
    Resembles s At P (.array loc t) (.reference loc' [] "Array" [u])
  | ofArray {loc loc' : Position} {t u : TypeExpr} (h : P t u) :
    Resembles s At P (.reference loc [] "Array" [t]) (.array loc' u)
  | tuple {loc loc' : Position} {ts us : List TypeExpr} :
    Resembles s At P (.tuple loc ts) (.tuple loc' us)
  | object {o o' : ObjectType TypeExpr} (hloc : At o.loc o'.loc)
    (members : List.Forall₂ (Member.Resembles At P) o.members o'.members)
    (indexers : List.Forall₂ (Indexer.Resembles At P) o.indexers o'.indexers)
    (calls : List.Forall₂ (fun k k' => At k.loc k'.loc) o.calls o'.calls)
    (leading : o.leading = o'.leading) :
    Resembles s At P (.object o) (.object o')
  | reference {loc loc' : Position} {qs : List String} {name : String} {ts us : List TypeExpr}
    (hloc : At loc loc') (h : List.Forall₂ P ts us) :
    Resembles s At P (.reference loc qs name ts) (.reference loc' qs name us)
  | checkedBy {loc loc' : Position} {t u : TypeExpr} {ts us : List TypeExpr} (hloc : At loc loc')
    (hmeant : ts ≠ [] ∨ s.generic s.options.checkedByName = .checkedBy)
    (h : List.Forall₂ P ts us) :
    Resembles s At P (.reference loc [] s.options.checkedByName (t :: ts))
      (.reference loc' [] s.options.checkedByName (u :: us))
  | union {loc loc' : Position} {ts us : List TypeExpr} (h : List.Forall₂ P ts us) :
    Resembles s At P (.union loc ts) (.union loc' us)
  | intersection {loc loc' : Position} {ts us : List TypeExpr} (h : List.Forall₂ P ts us) :
    Resembles s At P (.intersection loc ts) (.intersection loc' us)

theorem forall₂_imp_mem {α β : Type} {P Q : α → β → Prop} {as : List α} {bs : List β}
    (h : List.Forall₂ P as bs) (hi : ∀ a ∈ as, ∀ b, P a b → Q a b) : List.Forall₂ Q as bs := by
  induction h with
  | nil => exact .nil
  | cons h _ ih =>
    exact .cons (hi _ List.mem_cons_self _ h) (ih fun a ha => hi a (List.mem_cons_of_mem _ ha))

namespace Setting

def SamePlace (R : Context → Context → Prop) (alike : Failure → Failure → Prop)
    (loc loc' : Position) : Prop :=
  ∀ (f : ConversionFault) c c', R c c' →
    alike (.conversion (f.error loc c.scope.file)) (.conversion (f.error loc' c'.scope.file))

/-- Settings that differ in nothing but the kinds of types that they allow. Where the first of them
alone does not allow a type, its failure counts as lost. -/
structure Kin (s s' : Setting) (lost : Failure → Prop) : Prop where
  vocabulary : s'.vocabulary = s.vocabulary
  library : s'.library = s.library
  generic : ∀ name, s'.generic name = s.generic name
  isExact : ∀ t, s'.isExact t = s.isExact t
  disallows : ∀ t, s'.disallows t = s.disallows t ∨
    s'.disallows t = none ∧ ∃ d, s.disallows t = some d ∧
      ∀ loc file, lost (.conversion ((ConversionFault.disallowed d).error loc file))

theorem Kin.refl {s : Setting} {lost : Failure → Prop} : s.Kin s lost :=
  ⟨rfl, rfl, fun _ => rfl, fun _ => rfl, fun _ => .inl rfl⟩

structure Respects (s : Setting) (P : TypeExpr → TypeExpr → Prop) (t : TypeExpr) : Prop where
  union : ∀ loc ts, t = .union loc ts → ∀ u ∈ ts, ∀ v, P u v →
    v.literal? = u.literal? ∧ (u.literal? ≠ none → s.disallows v = s.disallows u)
  spread : ∀ o p, t = .object o → .spread p ∈ o.members → ∀ v, P p.argument v →
    s.isExact v = s.isExact p.argument

section

variable {s s' : Setting} {f g : Follow} {P : TypeExpr → TypeExpr → Prop} {R : Context → Context → Prop}
  {lost : Failure → Prop} {alike : Failure → Failure → Prop} {c c' : Context}

def Mirrors (s s' : Setting) (f g : Follow) (R : Context → Context → Prop) (lost : Failure → Prop)
    (alike : Failure → Failure → Prop) (t u : TypeExpr) : Prop :=
  ∀ c c', R c c' → (s.convert f t c).Agrees lost alike (s'.convert g u c')

variable (hs : s.Kin s' lost) (hR : Context.Congruence R) (ha : ∀ e, alike e e)

include hR ha in
theorem SamePlace.refl (loc : Position) : SamePlace R alike loc loc := by
  intro f c c' hc
  rw [hR.file hc]
  exact ha _

theorem SamePlace.fail_agrees {α : Type} {loc loc' : Position} (h : SamePlace R alike loc loc')
    (hc : R c c') (fault : ConversionFault) :
    (c.fail fault loc : Traced α).Agrees lost alike (c'.fail fault loc') :=
  .error (h fault c c' hc)

include hR ha in
theorem fail_agrees {α : Type} (hc : R c c') (fault : ConversionFault) (loc : Position) :
    (c.fail fault loc : Traced α).Agrees lost alike (c'.fail fault loc) :=
  (SamePlace.refl hR ha loc).fail_agrees hc fault

theorem disallows_primitive (s : Setting) (p : Primitive) (loc loc' : Position) :
    s.disallows (.primitive loc' p) = s.disallows (.primitive loc p) := by
  cases p <;> rfl

include hs in
theorem requireAllowed_agrees {t u : TypeExpr} (hplace : SamePlace R alike t.loc u.loc)
    (h : s.disallows u = s.disallows t) (hc : R c c') :
    (s.requireAllowed t c).Agrees lost alike (s'.requireAllowed u c') := by
  unfold requireAllowed
  rcases hs.disallows u with hu | ⟨hu, d, hd, hlost⟩
  · rw [hu, h]
    split
    · exact hplace.fail_agrees hc _
    · exact .ok ()
  · rw [hu, ← h, hd]
    exact .lost (hlost _ _) _

include hs in
theorem requireAllowed_forM_agrees {ts us : List TypeExpr}
    (h : List.Forall₂ (fun t u => SamePlace R alike t.loc u.loc ∧ s.disallows u = s.disallows t) ts us)
    (hc : R c c') :
    (ts.forM (s.requireAllowed · c)).Agrees lost alike (us.forM (s'.requireAllowed · c')) := by
  induction h with
  | nil => exact .ok ()
  | cons h _ ih => exact (requireAllowed_agrees hs h.1 h.2 hc).bind fun _ _ => ih

theorem convertAll_agrees {ts us : List TypeExpr}
    (h : List.Forall₂ (s.Mirrors s' f g R lost alike) ts us) (hc : R c c') :
    (s.convertAll f ts c).Agrees lost alike (s'.convertAll g us c') := by
  induction h with
  | nil => exact .ok []
  | cons h _ ih => exact (h c c' hc).bind fun _ _ => ih.map

include hR in
theorem convertMerged_agrees {ts us : List TypeExpr}
    (h : List.Forall₂
      (fun t u => SamePlace R alike t.loc u.loc ∧ s.Mirrors s' f g R lost alike t u) ts us)
    (hc : R c c') :
    (s.convertMerged f ts c).Agrees lost alike (s'.convertMerged g us c') := by
  induction h with
  | nil => exact .ok []
  | @cons t u ts us h _ ih =>
    refine (h.2 c.nested c'.nested (hR.nested hc)).bind fun v _ => ?_
    split
    · exact ih.map
    · exact h.1.fail_agrees hc _

include hs hR in
theorem convertIndexer_agrees {i i' : Indexer TypeExpr}
    (h : s.Mirrors s' f g R lost alike i.value i'.value) (hc : R c c') :
    (s.convertIndexer f i c).Agrees lost alike (s'.convertIndexer g i' c') := by
  obtain ⟨_, _, _, value⟩ := i
  obtain ⟨_, _, _, value'⟩ := i'
  simp only [convertIndexer, hs.vocabulary]
  exact (h _ _ (hR.indexed hc)).map

section

variable {t : TypeExpr} (ht : s.Respects P t)
  (ih : ∀ u v, t.Child u → P u v → s.Mirrors s' f g R lost alike u v)

include hs hR ht ih in
theorem convertMember_agrees {o : ObjectType TypeExpr} (ho : t = .object o) {m m' : Member TypeExpr}
    (hm : m ∈ o.members) (h : m.Resembles (SamePlace R alike) P m') (hc : R c c') :
    (s.convertMember f m c).Agrees lost alike (s'.convertMember g m' c') := by
  subst ho
  cases h with
  | property h => exact (ih _ _ (.property hm) h _ _ (hR.fieldValue hc)).map
  | spread hloc h =>
    refine (ih _ _ (.spread hm) h _ _ (hR.spread hc)).bind fun v _ => ?_
    dsimp only
    rw [hs.isExact, ht.spread _ _ rfl hm _ h]
    split
    · exact .ok _
    · exact hloc.fail_agrees hc _

theorem convertMembers_agrees {ms ms' : List (Member TypeExpr)}
    (h : List.Forall₂
      (fun m m' => (s.convertMember f m c).Agrees lost alike (s'.convertMember g m' c')) ms ms') :
    (s.convertMembers f ms c).Agrees lost alike (s'.convertMembers g ms' c') := by
  induction h with
  | nil => exact .ok []
  | cons h _ ih => exact h.bind fun _ _ => ih.map

include hs hR ht ih in
theorem convertObject_agrees {o o' : ObjectType TypeExpr} (ho : t = .object o)
    (hloc : SamePlace R alike o.loc o'.loc)
    (members : List.Forall₂ (Member.Resembles (SamePlace R alike) P) o.members o'.members)
    (indexers : List.Forall₂ (Indexer.Resembles (SamePlace R alike) P) o.indexers o'.indexers)
    (calls : List.Forall₂ (fun k k' => SamePlace R alike k.loc k'.loc) o.calls o'.calls)
    (leading : o.leading = o'.leading) (hc : R c c') :
    (s.convertObject f o c).Agrees lost alike (s'.convertObject g o' c') := by
  have hmembers := convertMembers_agrees (forall₂_imp_mem members fun m hm m' h =>
    convertMember_agrees hs hR ht ih ho hm h hc)
  subst ho
  obtain ⟨loc, ms, is, ks, ex, comments⟩ := o
  obtain ⟨loc', ms', is', ks', ex', comments'⟩ := o'
  cases leading
  cases calls with
  | cons h _ => exact h.fail_agrees hc _
  | nil =>
    cases indexers with
    | nil =>
      simp only [convertObject_of_members, hR.depth hc, hs.vocabulary]
      exact hmembers.map
    | cons hi hrest =>
      cases members with
      | cons =>
        cases hrest with
        | nil => exact hloc.fail_agrees hc _
        | cons => exact hloc.fail_agrees hc _
      | nil =>
        cases hrest with
        | cons h _ =>
          cases h with
          | mk h => exact h.fail_agrees hc _
        | nil =>
          cases hi with
          | mk _ h =>
            simp only [convertObject_of_indexer]
            exact convertIndexer_agrees hs hR (ih _ _ (.indexerValue List.mem_cons_self) h) hc

end

include hs hR in
theorem convertReference_agrees {loc loc' : Position} {name : String} {ts us : List TypeExpr}
    (hloc : SamePlace R alike loc loc') (hts : ts ≠ [])
    (h : List.Forall₂ (s.Mirrors s' f g R lost alike) ts us) (hc : R c c') :
    (s.convert f (.reference loc [] name ts) c).Agrees lost alike
      (s'.convert g (.reference loc' [] name us) c') := by
  match h with
  | .nil => exact (hts rfl).elim
  | .cons ha .nil =>
    rw [convert, convert, hs.generic, hs.vocabulary]
    cases s.generic name with
    | array => exact (ha _ _ (hR.nested hc)).map
    | exact => exact ha _ _ hc
    | checkedBy => exact hloc.fail_agrees hc _
    | hasDefault =>
      simp only [hR.isFieldValue hc]
      split
      · exact (ha _ _ hc).map
      · exact hloc.fail_agrees hc _
    | unknown => exact hloc.fail_agrees hc _
  | .cons _ (.cons hb .nil) =>
    rw [convert, convert, hs.generic]
    cases s.generic name with
    | checkedBy => exact hb _ _ hc
    | _ => exact hloc.fail_agrees hc _
  | .cons _ (.cons _ (.cons _ hrest)) =>
    simp only [convert, List.length_cons, hrest.length_eq, hs.generic]
    cases s.generic name with
    | _ => exact hloc.fail_agrees hc _

include hs in
theorem convertChecked_agrees {loc loc' : Position} {t u : TypeExpr} {ts us : List TypeExpr}
    (hloc : SamePlace R alike loc loc')
    (hmeant : ts ≠ [] ∨ s.generic s.options.checkedByName = .checkedBy)
    (h : List.Forall₂ (s.Mirrors s' f g R lost alike) ts us) (hc : R c c') :
    (s.convert f (.reference loc [] s.options.checkedByName (t :: ts)) c).Agrees lost alike
      (s'.convert g (.reference loc' [] s.options.checkedByName (u :: us)) c') := by
  match h with
  | .nil =>
    rw [convert, convert, hs.generic, hmeant.resolve_left (· rfl)]
    exact hloc.fail_agrees hc _
  | .cons hb .nil =>
    rw [convert, convert, hs.generic]
    cases s.generic s.options.checkedByName with
    | checkedBy => exact hb _ _ hc
    | _ => exact hloc.fail_agrees hc _
  | .cons _ (.cons _ hrest) =>
    simp only [convert, List.length_cons, hrest.length_eq, hs.generic]
    cases s.generic s.options.checkedByName with
    | _ => exact hloc.fail_agrees hc _

theorem mapM_literal?_eq {ts us : List TypeExpr}
    (h : List.Forall₂ (fun t u => u.literal? = t.literal?) ts us) :
    us.mapM TypeExpr.literal? = ts.mapM TypeExpr.literal? := by
  induction h with
  | nil => rfl
  | cons h _ ih => simp only [List.mapM_cons, h, ih]

include hs hR in
/-- One layer of the comparison: what holds for the types that a type is made of holds for the
type. -/
theorem mirrors_of_resembles {t u : TypeExpr} (h : s.Resembles (SamePlace R alike) P t u)
    (ht : s.Respects P t)
    (hplace : ∀ v w, t.Child v → P v w → SamePlace R alike v.loc w.loc)
    (hnames : ∀ loc loc' name, t = .reference loc [] name [] → u = .reference loc' [] name [] →
      ∀ c c', R c c' →
        (s.convertName f ⟨loc, name⟩ c).Agrees lost alike (s'.convertName g ⟨loc', name⟩ c'))
    (ih : ∀ v w, t.Child v → P v w → s.Mirrors s' f g R lost alike v w) :
    s.Mirrors s' f g R lost alike t u := by
  intro c c' hc
  have hgeneric : s.generic "Array" = .array := if_pos rfl
  cases h with
  | primitive hloc =>
    rw [convert, convert, hs.vocabulary]
    exact (requireAllowed_agrees hs hloc (disallows_primitive s _ _ _) hc).map
  | number | boolean | string | function | tuple =>
    rw [convert, convert, hs.vocabulary]
    exact .ok _
  | @nullable loc loc' t u hloc h =>
    have hallowed : (s.requireAllowed (.nullable loc t) c).Agrees lost alike
        (s'.requireAllowed (.nullable loc' u) c') := requireAllowed_agrees hs hloc rfl hc
    rw [convert, convert, hR.isFieldValue hc, hs.vocabulary]
    refine hallowed.bind fun _ _ => ?_
    exact (ih _ _ .nullable h _ _ (hR.nested hc)).map
  | array h =>
    rw [convert, convert, hs.vocabulary]
    exact (ih _ _ .array h _ _ (hR.nested hc)).map
  | arrayOf h =>
    rw [convert, convert, hs.generic, hgeneric, hs.vocabulary]
    exact (ih _ _ .array h _ _ (hR.nested hc)).map
  | ofArray h =>
    rw [convert, convert, hgeneric, hs.vocabulary]
    exact (ih _ _ (.argument List.mem_cons_self) h _ _ (hR.nested hc)).map
  | object hloc members indexers calls leading =>
    exact convertObject_agrees hs hR ht ih rfl hloc members indexers calls leading hc
  | @reference loc loc' qs name ts us hloc h =>
    cases qs with
    | cons q qs => exact hloc.fail_agrees hc _
    | nil =>
      by_cases hts : ts = []
      · subst hts
        cases h
        exact hnames _ _ _ rfl rfl c c' hc
      · refine convertReference_agrees hs hR hloc hts ?_ hc
        exact forall₂_imp_mem h fun v hv w => ih v w (.argument hv)
  | checkedBy hloc hmeant h =>
    refine convertChecked_agrees hs hloc hmeant ?_ hc
    exact forall₂_imp_mem h fun v hv w => ih v w (.argument (List.mem_cons_of_mem _ hv))
  | @union loc loc' ts us h =>
    -- The choice between the two forms of a union is made before its types are converted.
    have hliterals := mapM_literal?_eq <|
      forall₂_imp_mem h fun v hv w hvw => (ht.union loc ts rfl v hv w hvw).1
    rw [convert, convert, hliterals, hs.vocabulary]
    cases hl : ts.mapM TypeExpr.literal? with
    | some values =>
      refine (requireAllowed_forM_agrees hs (forall₂_imp_mem h fun v hv w hvw => ?_) hc).map
      refine ⟨hplace v w (.union hv) hvw, (ht.union loc ts rfl v hv w hvw).2 fun hnone => ?_⟩
      obtain ⟨_, _, hliteral⟩ := forall₂_mem_left (forall₂_of_mapM_eq_some hl) hv
      rw [hnone] at hliteral
      cases hliteral
    | none =>
      refine (convertAll_agrees ?_ (hR.nested hc)).map
      exact forall₂_imp_mem h fun v hv w => ih v w (.union hv)
  | intersection h =>
    rw [convert, convert, hs.vocabulary]
    simp only [hR.depth hc]
    split
    · refine (convertMerged_agrees hR ?_ hc).map
      exact forall₂_imp_mem h fun v hv w hvw =>
        ⟨hplace v w (.intersection hv) hvw, ih v w (.intersection hv) hvw⟩
    · refine (convertAll_agrees ?_ (hR.nested hc)).map
      exact forall₂_imp_mem h fun v hv w => ih v w (.intersection hv)

theorem resembles_mapChildren {At : Position → Position → Prop} (hAt : ∀ loc, At loc loc)
    (φ : TypeExpr → TypeExpr) (t : TypeExpr) :
    s.Resembles At (fun u v => v = φ u) t (t.mapChildren φ) := by
  have hparts (ts : List TypeExpr) : List.Forall₂ (fun u v => v = φ u) ts (ts.map φ) :=
    List.forall₂_map_right_iff.2 (List.forall₂_same.2 fun _ _ => rfl)
  cases t with
  | primitive loc => exact .primitive (hAt loc)
  | number => exact .number
  | boolean => exact .boolean
  | string => exact .string
  | function => exact .function
  | tuple => exact .tuple
  | nullable loc => exact .nullable (hAt loc) rfl
  | array => exact .array rfl
  | reference loc qs name ts => exact .reference (hAt loc) (hparts ts)
  | union loc ts => exact .union (hparts ts)
  | intersection loc ts => exact .intersection (hparts ts)
  | object o =>
    refine .object (hAt _) (List.forall₂_map_right_iff.2 (List.forall₂_same.2 ?_))
      (List.forall₂_map_right_iff.2 (List.forall₂_same.2 fun i _ => .mk (hAt _) rfl))
      (List.forall₂_map_right_iff.2 (List.forall₂_same.2 fun k _ => hAt _)) rfl
    rintro (p | p) _
    · exact .property rfl
    · exact .spread (hAt _) rfl

include hs hR ha in
theorem mirrors_of_parts {t : TypeExpr}
    (hname : ∀ loc name, t = .reference loc [] name [] → ∀ c c', R c c' →
      (s.convertName f ⟨loc, name⟩ c).Agrees lost alike (s'.convertName g ⟨loc, name⟩ c'))
    (ih : ∀ u, t.Child u → s.Mirrors s' f g R lost alike u u) : s.Mirrors s' f g R lost alike t t := by
  have hlayer := s.resembles_mapChildren (SamePlace.refl hR ha) id t
  rw [TypeExpr.mapChildren_id] at hlayer
  have hrespects : s.Respects (fun u v => v = id u) t :=
    ⟨fun _ _ _ u _ v hv => ⟨congrArg _ hv, fun _ => congrArg _ hv⟩, fun _ _ _ _ v hv => congrArg _ hv⟩
  refine mirrors_of_resembles hs hR hlayer hrespects (fun u v _ hv => ?_) ?_ fun u v hu hv => ?_
  · rw [hv]
    exact SamePlace.refl hR ha _
  · intro loc loc' name ht hu
    obtain ⟨rfl⟩ : loc = loc' := by injection ht.symm.trans hu
    exact hname loc name ht
  · rw [hv]
    exact ih u hu

include hs hR ha in
/-- Two ways to follow references that agree on all names give conversions that agree. -/
theorem convert_agrees
    (hname : ∀ loc name c c', R c c' →
      (s.convertName f ⟨loc, name⟩ c).Agrees lost alike (s'.convertName g ⟨loc, name⟩ c'))
    (t : TypeExpr) : s.Mirrors s' f g R lost alike t t := by
  induction t using TypeExpr.child_induction with
  | step t ih => exact mirrors_of_parts hs hR ha (fun loc name _ => hname loc name) ih

include hs hR ha in
theorem convertName_agrees {use : Use} (hc : R c c')
    (hlookup : c.scope.lookup use.name = c'.scope.lookup use.name)
    (h : ∀ b, c.scope.lookup use.name = some b → (f b use c).Agrees lost alike (g b use c')) :
    (s.convertName f use c).Agrees lost alike (s'.convertName g use c') := by
  unfold convertName
  rw [← hlookup, hs.vocabulary]
  split
  next b hb => exact h b hb
  next =>
    split
    · exact .ok _
    · exact .ok _
    · exact fail_agrees hR ha hc _ _

include hs hR ha in
theorem convertClass_agrees {k : ClassDeclaration} {file : Option String} {use : Use} (hc : R c c') :
    (s.convertClass k file use c).Agrees lost alike (s'.convertClass k file use c') := by
  unfold convertClass
  dsimp only
  rw [hs.vocabulary, hR.replacement hc, hR.origin hc]
  split
  · exact .ok _
  · split
    · exact .ok _
    · exact fail_agrees hR ha hc _ _

include hs hR ha in
theorem follow_succ_agrees {n m : Nat}
    (hbody : ∀ params c c', R c c' → R (c.body params) (c'.body params))
    (hname : ∀ loc name c c', R c c' →
      (s.convertName (s.follow n) ⟨loc, name⟩ c).Agrees lost alike
        (s'.convertName (s'.follow m) ⟨loc, name⟩ c'))
    {b : Binding} {use : Use} (hc : R c c')
    (himport : ∀ i r, b.referent = .import_ i →
      (s.library.resolveImport i b.file).result = .ok r →
      (s.follow n r.binding use (c.through i b.file r.scope)).Agrees lost alike
        (s'.follow m r.binding use (c'.through i b.file r.scope))) :
    (s.follow (n + 1) b use c).Agrees lost alike (s'.follow (m + 1) b use c') := by
  obtain ⟨referent, file⟩ := b
  have hconvert := convert_agrees hs hR ha hname
  cases referent with
  | typeAlias a => exact hconvert a.right _ _ (hbody a.params c c' hc)
  | interface i => exact hconvert (.object i.body) _ _ (hbody i.params c c' hc)
  | class_ k => exact convertClass_agrees hs hR ha hc
  | import_ i =>
    have hresolve : (s.library.resolveImport i file).Agrees lost alike
        (s'.library.resolveImport i file) := by
      rw [hs.library]
      exact Agree.refl ha _
    exact hresolve.bind fun r hr => himport i r rfl hr
  | function d => exact fail_agrees hR ha hc _ _
  | variable_ v => exact fail_agrees hR ha hc _ _
  | parameter p => exact fail_agrees hR ha hc _ _

include hs hR ha in
theorem convertNode_agrees (node : Node) (hbound : s.referenceBound c = s'.referenceBound c')
    (h : ∀ t ∈ node.type?, s.Mirrors s' (s.follow (s.referenceBound c)) (s'.follow (s.referenceBound c))
      R lost alike t t) (hc : R c c') :
    (s.convertNode node c).Agrees lost alike (s'.convertNode node c') := by
  cases node with
  | type t =>
    unfold convertNode convertType
    rw [← hbound]
    exact h t rfl c c' hc
  | indexer i =>
    unfold convertNode
    rw [← hbound]
    exact convertIndexer_agrees hs hR (h i.value rfl) hc
  | member m =>
    cases m with
    | property p => exact fail_agrees hR ha hc _ _
    | spread p => exact fail_agrees hR ha hc _ _
  | call k => exact fail_agrees hR ha hc _ _
  | other form loc => exact fail_agrees hR ha hc _ _

end

end Setting

end PropTables
