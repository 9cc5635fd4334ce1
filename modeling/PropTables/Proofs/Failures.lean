import PropTables.Proofs.Rules

/-! The ways in which calls fail: each by itself, at a place of its own, or because of a call that it
makes. A failure of a conversion is a failure by itself of a call that the conversion reaches. -/

namespace PropTables

namespace Traced

theorem bind_eq_error {α β : Type} {x : Traced α} {f : α → Traced β} {e : Failure} :
    (x >>= f).result = .error e ↔
      x.result = .error e ∨ ∃ a, x.result = .ok a ∧ (f a).result = .error e := by
  rw [result_bind]
  cases x.result with
  | error e' =>
    show (Except.error e' : Except Failure β) = .error e ↔ _
    constructor
    · rintro ⟨⟩
      exact .inl rfl
    · rintro (⟨⟨⟩⟩ | ⟨_, ⟨⟩, _⟩)
      rfl
  | ok a =>
    constructor
    · intro h
      exact .inr ⟨a, rfl, h⟩
    · rintro (h | ⟨_, ha, h⟩)
      · cases h
      · cases ha
        exact h

theorem not_pure_eq_error {α : Type} {a : α} {e : Failure} : (pure a : Traced α).result ≠ .error e :=
  nofun

theorem bind_pure_eq_error {α β : Type} {x : Traced α} {f : α → β} {e : Failure} :
    (x >>= fun a => pure (f a)).result = .error e ↔ x.result = .error e := by
  rw [bind_eq_error]
  refine or_iff_left ?_
  rintro ⟨_, _, h⟩
  cases h

theorem exists_of_foldlM_eq_error {α β : Type} {f : β → α → Traced β} {as : List α} {b : β}
    {e : Failure} (h : (as.foldlM f b).result = .error e) :
    ∃ b' a, a ∈ as ∧ (f b' a).result = .error e := by
  induction as generalizing b with
  | nil => exact (not_pure_eq_error h).elim
  | cons a as ih =>
    rw [List.foldlM_cons, bind_eq_error] at h
    rcases h with h | ⟨b', _, h⟩
    · exact ⟨b, a, List.mem_cons_self, h⟩
    · obtain ⟨b', a', ha', h⟩ := ih h
      exact ⟨b', a', List.mem_cons_of_mem a ha', h⟩

end Traced

namespace Library

def Aborts (l : Library) (e : Failure) : Prop :=
  ∃ specifier importer a, l.load specifier importer = .error a ∧ e = .uncaught (.load a)

inductive Misses (l : Library) (i : ImportSpecifier) (importer : Option String) :
    ConversionFault → Prop
  | typeof (h : i.kind = .typeof) : Misses l i importer (.typeofImport i.binds)
  | wholeModule (h : i.imported = none) : Misses l i importer (.namespaceImport i.binds)
  | unloadable (h : l.load i.source importer = .ok (.error f)) : Misses l i importer (.unloadable f)
  | notExported (hn : i.imported = some name) (hm : l.load i.source importer = .ok (.ok m))
    (h : (l.exportOf m name).result = .ok none) : Misses l i importer (.notExported i.source name)
  | undeclared {inner : String} (hn : i.imported = some name) (hm : l.load i.source importer = .ok (.ok m))
    (h : (l.exportOf m name).result = .ok (some (m', inner)))
    (hr : m'.flat.referent? inner = none) : Misses l i importer (.exportUndeclared i.source name inner)

variable {l : Library} {m : LoadedModule} {importer : Option String} {e : Failure}

theorem consult_eq_error {specifier : Text} (h : (l.consult specifier importer).result = .error e) :
    l.Aborts e := by
  unfold consult at h
  split at h <;> cases h
  next a ha => exact ⟨specifier, importer, a, ha, rfl⟩

theorem consult_result {specifier : Text} {r : Except LoadFault LoadedModule}
    (h : (l.consult specifier importer).result = .ok r) : l.load specifier importer = .ok r := by
  unfold consult at h
  split at h
  next => cases h
  next hl =>
    cases h
    exact hl
  next hl =>
    cases h
    exact hl

theorem findExport_eq_error {name : String} {depth : Nat} {seen : List String}
    (h : (l.findExport name depth seen m).result = .error e) : l.Aborts e := by
  induction depth generalizing seen m with
  | zero => cases h
  | succ depth ih =>
    unfold findExport at h
    split at h
    · cases h
    split at h
    · cases h
    split at h
    · cases h
    obtain ⟨found, source, _, h⟩ := Traced.exists_of_foldlM_eq_error h
    split at h
    · cases h
    · rcases Traced.bind_eq_error.1 h with h | ⟨target, _, h⟩
      · exact consult_eq_error h
      · cases target with
        | error => cases h
        | ok target => exact ih h

theorem exportOf_eq_error {name : String} (h : (l.exportOf m name).result = .error e) : l.Aborts e :=
  findExport_eq_error (Traced.bind_pure_eq_error.1 h)

theorem resolveImport_eq_error {i : ImportSpecifier}
    (h : (l.resolveImport i importer).result = .error e) :
    l.Aborts e ∨ ∃ f, l.Misses i importer f ∧ e = .conversion (f.error i.loc importer) := by
  unfold resolveImport at h
  dsimp only at h
  -- one case for each way to miss an export, and one for each load that ends everything
  split at h
  next hk =>
    cases h
    exact .inr ⟨_, .typeof hk, rfl⟩
  split at h
  next hn =>
    cases h
    exact .inr ⟨_, .wholeModule hn, rfl⟩
  next name hn =>
    rcases Traced.bind_eq_error.1 h with h | ⟨r, hr, h⟩
    · exact .inl (consult_eq_error h)
    have hload := consult_result hr
    cases r with
    | error f =>
      cases h
      exact .inr ⟨_, .unloadable hload, rfl⟩
    | ok loaded =>
      rcases Traced.bind_eq_error.1 h with h | ⟨found, hfound, h⟩
      · exact .inl (exportOf_eq_error h)
      split at h
      · cases h
        exact .inr ⟨_, .notExported hn hload hfound, rfl⟩
      next m' inner =>
        split at h
        next hr =>
          cases h
          exact .inr ⟨_, .undeclared hn hload hfound hr, rfl⟩
        next => cases h

end Library

namespace Setting

def Fails (s : Setting) (x : Call) (e : Failure) : Prop :=
  (s.run x).result = .error e

inductive Raises (s : Setting) : Call → ConversionFault → Position → Prop
  | disallowed (h : s.disallows t = some d) : Raises s (.type n t c) (.disallowed d) t.loc
  | literal (ht : t ∈ types) (h : s.disallows t = some d) :
    Raises s (.type n (.union loc types) c) (.disallowed d) t.loc
  | qualified :
    Raises s (.type n (.reference loc (q :: qs) name args) c)
      (.qualified (".".intercalate (q :: qs ++ [name]))) loc
  | undeclared (hb : c.scope.lookup name = none) :
    Raises s (.type n (.reference loc [] name []) c) (.undeclared name) loc
  | unknownGeneric (hg : s.generic name = .unknown) :
    Raises s (.type n (.reference loc [] name (a :: as)) c) (.unknownGeneric name) loc
  | argumentCount (hg : expected ≠ (a :: as).length) :
    Raises s (.type n (.reference loc [] name (a :: as)) c)
      (.argumentCount name expected (a :: as).length) loc
  | misplacedDefault (hg : s.generic name = .hasDefault) (hc : c.isFieldValue = false) :
    Raises s (.type n (.reference loc [] name [a]) c) (.misplacedDefault name) loc
  | intersectionOfOther (ht : t ∈ types) :
    Raises s (.type n (.intersection loc types) c) .intersectionOfOther t.loc
  | callSignature :
    Raises s (.type n (.object ⟨loc, members, indexers, k :: ks, ex, leading⟩) c) .callSignature k.loc
  | indexerWithMembers :
    Raises s (.type n (.object ⟨loc, m :: ms, i :: is, [], ex, leading⟩) c) .indexerWithMembers loc
  | severalIndexers :
    Raises s (.type n (.object ⟨loc, [], i :: j :: is, [], ex, leading⟩) c) .severalIndexers j.loc
  | spreadOfOther (hp : .spread p ∈ members) :
    Raises s (.type n (.object ⟨loc, members, [], [], ex, leading⟩) c) .spreadOfOther p.loc
  | foreignClass (hr : c.replacement = none) (hf : file ≠ c.origin) :
    Raises s (.binding (n + 1) ⟨.class_ k, file⟩ use c)
      (.foreignClass (k.name.getD defaultName) file c.origin) use.loc
  | function :
    Raises s (.binding (n + 1) ⟨.function d, file⟩ use c) (.function d.name) use.loc
  | variable_ :
    Raises s (.binding (n + 1) ⟨.variable_ d, file⟩ use c) (.variable_ d.name) use.loc
  | parameter :
    Raises s (.binding (n + 1) ⟨.parameter p, file⟩ use c) (.typeParameter p.name) use.loc

/-- The call fails without a call that it makes: at a fault in its own file, at an import, or because
too many references have been followed. -/
inductive FailsAt (s : Setting) : Call → Failure → Prop
  | raised (h : s.Raises x f loc) : FailsAt s x (.conversion (f.error loc x.context.scope.file))
  | import_ (h : (s.library.resolveImport i file).result = .error e) :
    FailsAt s (.binding (n + 1) ⟨.import_ i, file⟩ use c) e
  | endless : FailsAt s (.binding 0 b use c) (.uncaught .endless)

section

variable {s : Setting} {n : Nat} {c : Context} {e : Failure}

theorem eq_of_fail {α : Type} {f : ConversionFault} {loc : Position}
    (h : (c.fail f loc : Traced α).result = .error e) :
    e = .conversion (f.error loc c.scope.file) := by
  cases h
  rfl

theorem requireAllowed_eq_error {t : TypeExpr}
    (h : (s.requireAllowed t c).result = .error e) :
    ∃ d, s.disallows t = some d ∧ e = .conversion ((ConversionFault.disallowed d).error t.loc c.scope.file) := by
  unfold requireAllowed at h
  cases hd : s.disallows t with
  | none =>
    rw [hd] at h
    cases h
  | some d =>
    rw [hd] at h
    exact ⟨d, rfl, eq_of_fail h⟩

theorem requireAllowed_forM_eq_error {types : List TypeExpr}
    (h : (types.forM (s.requireAllowed · c)).result = .error e) :
    ∃ t ∈ types, ∃ d, s.disallows t = some d ∧
      e = .conversion ((ConversionFault.disallowed d).error t.loc c.scope.file) := by
  induction types with
  | nil => cases h
  | cons t ts ih =>
    rw [List.forM_eq_forM, List.forM_cons, Traced.bind_eq_error] at h
    rcases h with h | ⟨_, _, h⟩
    · exact ⟨t, List.mem_cons_self, requireAllowed_eq_error h⟩
    · obtain ⟨t', ht', h⟩ := ih h
      exact ⟨t', List.mem_cons_of_mem t ht', h⟩

theorem convertAll_eq_error {types : List TypeExpr}
    (h : (s.convertAll (s.follow n) types c).result = .error e) :
    ∃ t ∈ types, s.Fails (.type n t c) e := by
  induction types with
  | nil => cases h
  | cons t ts ih =>
    rw [convertAll, Traced.bind_eq_error] at h
    rcases h with h | ⟨_, _, h⟩
    · exact ⟨t, List.mem_cons_self, h⟩
    · obtain ⟨t', ht', h⟩ := ih (Traced.bind_pure_eq_error.1 h)
      exact ⟨t', List.mem_cons_of_mem t ht', h⟩

theorem convertMerged_eq_error {types : List TypeExpr}
    (h : (s.convertMerged (s.follow n) types c).result = .error e) :
    ∃ t ∈ types, s.Fails (.type n t c.nested) e ∨
      e = .conversion (ConversionFault.intersectionOfOther.error t.loc c.scope.file) := by
  induction types with
  | nil => cases h
  | cons t ts ih =>
    rw [convertMerged, Traced.bind_eq_error] at h
    rcases h with h | ⟨_, _, h⟩
    · exact ⟨t, List.mem_cons_self, .inl h⟩
    · split at h
      · obtain ⟨t', ht', h⟩ := ih (Traced.bind_pure_eq_error.1 h)
        exact ⟨t', List.mem_cons_of_mem t ht', h⟩
      · exact ⟨t, List.mem_cons_self, .inr (eq_of_fail h)⟩

theorem convertMembers_eq_error {members : List (Member TypeExpr)}
    (h : (s.convertMembers (s.follow n) members c).result = .error e) :
    (∃ p, .property p ∈ members ∧ s.Fails (.type n p.value c.fieldValue) e) ∨
    ∃ p, .spread p ∈ members ∧ (s.Fails (.type n p.argument c.spread) e ∨
      e = .conversion (ConversionFault.spreadOfOther.error p.loc c.scope.file)) := by
  induction members with
  | nil => cases h
  | cons m ms ih =>
    rw [convertMembers, Traced.bind_eq_error] at h
    rcases h with h | ⟨_, _, h⟩
    · cases m with
      | property p => exact .inl ⟨p, List.mem_cons_self, Traced.bind_pure_eq_error.1 h⟩
      | spread p =>
        refine .inr ⟨p, List.mem_cons_self, ?_⟩
        rcases Traced.bind_eq_error.1 h with h | ⟨_, _, h⟩
        · exact .inl h
        · split at h
          · cases h
          · exact .inr (eq_of_fail h)
    · rcases ih (Traced.bind_pure_eq_error.1 h) with ⟨p, hp, h⟩ | ⟨p, hp, h⟩
      · exact .inl ⟨p, List.mem_cons_of_mem m hp, h⟩
      · exact .inr ⟨p, List.mem_cons_of_mem m hp, h⟩

def FailsFirst (s : Setting) (x : Call) (e : Failure) : Prop :=
  s.FailsAt x e ∨ ∃ y, s.Step x y ∧ s.Fails y e

theorem Part.failsFirst {t t' : TypeExpr} {c' : Context} (hp : s.Part c t t' c')
    (h : s.Fails (.type n t' c') e) : s.FailsFirst (.type n t c) e :=
  .inr ⟨_, .part hp, h⟩

theorem Raises.failsFirst {x : Call} {f : ConversionFault} {loc : Position} (h : s.Raises x f loc)
    (he : e = .conversion (f.error loc x.context.scope.file)) : s.FailsFirst x e := by
  subst he
  exact .inl (.raised h)

theorem failsFirst_object {o : ObjectType TypeExpr} (h : s.Fails (.type n (.object o) c) e) :
    s.FailsFirst (.type n (.object o) c) e := by
  obtain ⟨loc, members, indexers, calls, ex, leading⟩ := o
  match calls, indexers with
  | k :: ks, _ => exact Raises.callSignature.failsFirst (eq_of_fail h)
  | [], [] =>
    change (s.convertObject (s.follow n) ⟨loc, members, [], [], ex, leading⟩ c).result = _ at h
    rw [convertObject_of_members, Traced.bind_pure_eq_error] at h
    rcases convertMembers_eq_error h with ⟨p, hp, h⟩ | ⟨p, hp, h | h⟩
    · exact (Part.property hp).failsFirst h
    · exact (Part.spread hp).failsFirst h
    · exact (Raises.spreadOfOther hp).failsFirst h
  | [], [i] =>
    cases members with
    | nil =>
      have hvalue : s.Fails (.type n i.value c.indexed) e := by
        obtain ⟨iloc, name, key, value⟩ := i
        exact Traced.bind_pure_eq_error.1 h
      exact Part.indexer.failsFirst hvalue
    | cons m ms => exact Raises.indexerWithMembers.failsFirst (eq_of_fail h)
  | [], i :: j :: is =>
    cases members with
    | nil => exact Raises.severalIndexers.failsFirst (eq_of_fail h)
    | cons m ms => exact Raises.indexerWithMembers.failsFirst (eq_of_fail h)

theorem failsFirst_reference {loc : Position} {name : String} {args : List TypeExpr}
    (h : s.Fails (.type n (.reference loc [] name args) c) e) :
    s.FailsFirst (.type n (.reference loc [] name args) c) e := by
  change (s.convert (s.follow n) (.reference loc [] name args) c).result = .error e at h
  match args with
  | [] =>
    simp only [convert, convertName] at h
    split at h
    next b hb => exact .inr ⟨_, .lookup hb, h⟩
    next hb =>
      split at h
      · cases h
      · cases h
      · exact (Raises.undeclared hb).failsFirst (eq_of_fail h)
  | [a] =>
    rw [convert] at h
    cases hg : s.generic name <;> simp only [hg] at h
    case array => exact (Part.arrayOf hg).failsFirst (Traced.bind_pure_eq_error.1 h)
    case exact => exact (Part.exact hg).failsFirst h
    case checkedBy => exact (Raises.argumentCount (by simp)).failsFirst (eq_of_fail h)
    case hasDefault =>
      split at h
      next hc => exact (Part.hasDefault hg hc).failsFirst (Traced.bind_pure_eq_error.1 h)
      next hc =>
        exact (Raises.misplacedDefault hg (Bool.eq_false_of_not_eq_true hc)).failsFirst (eq_of_fail h)
    case unknown => exact (Raises.unknownGeneric hg).failsFirst (eq_of_fail h)
  | [_, b] =>
    rw [convert] at h
    cases hg : s.generic name <;> simp only [hg] at h
    case checkedBy => exact (Part.checkedBy hg).failsFirst h
    case unknown => exact (Raises.unknownGeneric hg).failsFirst (eq_of_fail h)
    all_goals exact (Raises.argumentCount (by simp)).failsFirst (eq_of_fail h)
  | _ :: _ :: _ :: rest =>
    simp only [convert] at h
    cases hg : s.generic name <;> simp only [hg] at h
    case unknown => exact (Raises.unknownGeneric hg).failsFirst (eq_of_fail h)
    all_goals exact (Raises.argumentCount (by simp)).failsFirst (eq_of_fail h)

theorem failsFirst_type {t : TypeExpr} (h : s.Fails (.type n t c) e) :
    s.FailsFirst (.type n t c) e := by
  have h' : (s.convert (s.follow n) t c).result = .error e := h
  match t with
  | .primitive loc p =>
    rw [convert, Traced.bind_pure_eq_error] at h'
    obtain ⟨d, hd, he⟩ := requireAllowed_eq_error h'
    exact (Raises.disallowed hd).failsFirst he
  | .number .. | .boolean .. | .string .. | .function .. | .tuple .. => cases h'
  | .nullable loc inner =>
    rw [convert, Traced.bind_eq_error] at h'
    rcases h' with h' | ⟨_, _, h'⟩
    · obtain ⟨d, hd, he⟩ := requireAllowed_eq_error h'
      exact (Raises.disallowed hd).failsFirst he
    · exact Part.nullable.failsFirst (Traced.bind_pure_eq_error.1 h')
  | .array loc element =>
    rw [convert, Traced.bind_pure_eq_error] at h'
    exact Part.array.failsFirst h'
  | .object o => exact failsFirst_object h
  | .reference loc (q :: qs) name args => exact Raises.qualified.failsFirst (eq_of_fail h')
  | .reference loc [] name args => exact failsFirst_reference h
  | .union loc types =>
    rw [convert] at h'
    cases hl : types.mapM TypeExpr.literal? with
    | some values =>
      rw [hl] at h'
      obtain ⟨t, ht, d, hd, he⟩ := requireAllowed_forM_eq_error (Traced.bind_pure_eq_error.1 h')
      exact (Raises.literal ht hd).failsFirst he
    | none =>
      rw [hl] at h'
      obtain ⟨t, ht, h'⟩ := convertAll_eq_error (Traced.bind_pure_eq_error.1 h')
      exact (Part.union hl ht).failsFirst h'
  | .intersection loc types =>
    rw [convert] at h'
    split at h'
    · obtain ⟨t, ht, h' | h'⟩ := convertMerged_eq_error (Traced.bind_pure_eq_error.1 h')
      · exact (Part.intersection ht).failsFirst h'
      · exact (Raises.intersectionOfOther ht).failsFirst h'
    · obtain ⟨t, ht, h'⟩ := convertAll_eq_error (Traced.bind_pure_eq_error.1 h')
      exact (Part.intersection ht).failsFirst h'

theorem failsFirst_binding {b : Binding} {use : Use} (h : s.Fails (.binding n b use c) e) :
    s.FailsFirst (.binding n b use c) e := by
  obtain ⟨referent, file⟩ := b
  cases n with
  | zero =>
    cases h
    exact .inl .endless
  | succ n =>
    cases referent with
    | typeAlias a => exact .inr ⟨_, .typeAlias, h⟩
    | interface i => exact .inr ⟨_, .interface, h⟩
    | import_ i =>
      rcases Traced.bind_eq_error.1 h with h | ⟨r, hr, h⟩
      · exact .inl (.import_ h)
      · exact .inr ⟨_, .import_ hr, h⟩
    | class_ k =>
      change (s.convertClass k file use c).result = .error e at h
      unfold convertClass at h
      dsimp only at h
      split at h
      · cases h
      next hr =>
        split at h
        · cases h
        next hf => exact (Raises.foreignClass hr hf).failsFirst (eq_of_fail h)
    | function d => exact Raises.function.failsFirst (eq_of_fail h)
    | variable_ d => exact Raises.variable_.failsFirst (eq_of_fail h)
    | parameter p => exact Raises.parameter.failsFirst (eq_of_fail h)

/-- What fails goes back to a call that fails by itself. -/
theorem exists_failsAt {x : Call} (h : s.Fails x e) : ∃ y, s.Reaches x y ∧ s.FailsAt y e := by
  induction x using call_induction with
  | step x ih =>
    have hfirst : s.FailsFirst x e := by
      cases x with
      | type => exact failsFirst_type h
      | binding => exact failsFirst_binding h
    rcases hfirst with h | ⟨y, hstep, h⟩
    · exact ⟨x, .refl, h⟩
    · obtain ⟨z, hreach, hz⟩ := ih y hstep h
      exact ⟨z, .head hstep hreach, hz⟩

end

end Setting

end PropTables
