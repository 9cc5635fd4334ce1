import PropTables.Proofs.Bound

/-! Parts of a type without a meaning at runtime. Two types that differ in nothing else convert alike:
both to the same validator, or neither, with one thing said of it. -/

namespace PropTables

inductive Failure.SameMessage : Failure → Failure → Prop
  | conversion {e e' : ConversionError} (hkind : e.kind = e'.kind) (hmessage : e.message = e'.message) :
    SameMessage (.conversion e) (.conversion e')
  | uncaught {u : Uncaught} : SameMessage (.uncaught u) (.uncaught u)

theorem Failure.SameMessage.refl (e : Failure) : e.SameMessage e := by
  cases e with
  | conversion => exact .conversion rfl rfl
  | uncaught => exact .uncaught

namespace Setting

/-- The two types differ, at any depth, in parts without a meaning at runtime and in places only. -/
inductive Alike (s : Setting) : TypeExpr → TypeExpr → Prop
  | mk {t u : TypeExpr} (h : s.Resembles (fun _ _ => True) (Alike s) t u) : Alike s t u

variable {s : Setting} {t u : TypeExpr} {c c' : Context}

theorem Alike.resembles (h : s.Alike t u) : s.Resembles (fun _ _ => True) s.Alike t u := by
  cases h with
  | mk h => exact h

theorem Alike.literal?_eq (h : s.Alike t u) : u.literal? = t.literal? := by
  cases h.resembles with
  | @primitive _ _ p => cases p <;> rfl
  | number | boolean | string | function | nullable | array | arrayOf | ofArray | tuple | object | reference | checkedBy | union
  | intersection => rfl

theorem Alike.disallows_eq (h : s.Alike t u) : s.disallows u = s.disallows t := by
  cases h.resembles with
  | primitive => exact disallows_primitive s _ _ _
  | number | boolean | string | function | nullable | array | arrayOf | ofArray | tuple | object
  | reference | checkedBy | union | intersection => rfl

/-- An array is never taken for an exact type, however it is written. -/
theorem Alike.isExact_eq (hexact : s.options.exactName ≠ "Array") (h : s.Alike t u) :
    s.isExact u = s.isExact t := by
  have hname : ("Array" == s.options.exactName) = false := beq_eq_false_iff_ne.2 hexact.symm
  cases h.resembles with
  | arrayOf => exact hname
  | ofArray => exact hname.symm
  | @reference _ _ qs _ _ _ _ hargs =>
    cases qs with
    | cons => rfl
    | nil => cases hargs <;> rfl
  | primitive | number | boolean | string | function | nullable | array | tuple | object | checkedBy
  | union | intersection => rfl

theorem Alike.respects (hexact : s.options.exactName ≠ "Array") (t : TypeExpr) :
    s.Respects s.Alike t :=
  ⟨fun _ _ _ _ _ _ h => ⟨h.literal?_eq, fun _ => h.disallows_eq⟩, fun _ _ _ _ _ h => h.isExact_eq hexact⟩

theorem follow_place (s : Setting) (n : ℕ) (b : Binding) (loc loc' : Position) (name : String)
    (c : Context) :
    (s.follow n b ⟨loc, name⟩ c).Agrees Failure.never Failure.SameMessage
      (s.follow n b ⟨loc', name⟩ c) := by
  have hfail (fault : ConversionFault) :
      (c.fail fault loc : Traced Converted).Agrees Failure.never Failure.SameMessage
        (c.fail fault loc') :=
    .error (.conversion rfl rfl)
  induction n generalizing b c with
  | zero => exact .error .uncaught
  | succ n ih =>
    obtain ⟨referent, file⟩ := b
    cases referent with
    | typeAlias | interface => exact Agree.refl .refl _
    | class_ k =>
      unfold follow convertClass
      dsimp only
      split
      · exact .ok _
      · split
        · exact .ok _
        · exact hfail _
    | import_ i =>
      have hresolve : (s.library.resolveImport i file).Agrees Failure.never Failure.SameMessage
          (s.library.resolveImport i file) := Agree.refl .refl _
      exact hresolve.bind fun r _ => ih r.binding _ fun _ => .error (.conversion rfl rfl)
    | function | variable_ | parameter => exact hfail _

theorem convertName_place (s : Setting) (n : ℕ) (loc loc' : Position) (name : String) (c : Context) :
    (s.convertName (s.follow n) ⟨loc, name⟩ c).Agrees Failure.never Failure.SameMessage
      (s.convertName (s.follow n) ⟨loc', name⟩ c) := by
  unfold convertName
  dsimp only
  split
  · exact s.follow_place n _ loc loc' name c
  · split
    · exact .ok _
    · exact .ok _
    · exact .error (.conversion rfl rfl)

theorem Alike.mirrors (hexact : s.options.exactName ≠ "Array") (n : ℕ) (h : s.Alike t u) :
    s.Mirrors s (s.follow n) (s.follow n) Eq Failure.never Failure.SameMessage t u := by
  -- The induction is on the first type; each layer compares the parts that the rules convert.
  have hplace : SamePlace Eq Failure.SameMessage = fun _ _ => True := by
    funext loc loc'
    exact propext ⟨fun _ => trivial, fun _ _ _ _ _ => .conversion rfl rfl⟩
  induction t using TypeExpr.child_induction generalizing u with
  | step t ih =>
    have hlayer := h.resembles
    rw [← hplace] at hlayer
    refine mirrors_of_resembles .refl eq_congruence hlayer (Alike.respects hexact t) (fun v w _ _ => ?_) ?_
      fun v w hv hvw => ih v hv hvw
    · rw [hplace]
      trivial
    · rintro loc loc' name - - c _ rfl
      exact s.convertName_place n loc loc' name c

/-- Types that differ in parts without a meaning at runtime only convert to the same, in every context;
where they do not convert, the errors are of one kind and have one message. -/
theorem convertType_alike (s : Setting) (hexact : s.options.exactName ≠ "Array") {t u : TypeExpr}
    (h : s.Alike t u) (c : Context) :
    (∀ v, (s.convertType t c).result = .ok v ↔ (s.convertType u c).result = .ok v) ∧
    ∀ e e', (s.convertType t c).result = .error e → (s.convertType u c).result = .error e' →
      e.SameMessage e' :=
  Agree.never_iff.1 (h.mirrors hexact _ c c rfl)

def keyed (key : String) (value : TypeExpr) : Member TypeExpr :=
  .property ⟨⟨1, 1⟩, .ofString key, key, value, false, false, .none⟩

def careless : TypeExpr :=
  let missing : TypeExpr := .reference ⟨1, 9⟩ [] "Missing" []
  .object ⟨⟨1, 1⟩,
    [keyed "run" (.function ⟨1, 8⟩ [⟨⟨1, 9⟩, none, missing, false, false⟩] missing),
      keyed "rows" (.reference ⟨2, 8⟩ [] "Array" [.tuple ⟨2, 14⟩ [missing]]),
      keyed "size" (.reference ⟨3, 8⟩ [] "CheckedBy" [missing, .primitive ⟨3, 27⟩ .number])],
    [], [], true, []⟩

def careful : TypeExpr :=
  .object ⟨⟨1, 1⟩,
    [keyed "run" (.function ⟨1, 8⟩ [] (.primitive ⟨1, 14⟩ .void)),
      keyed "rows" (.array ⟨1, 26⟩ (.tuple ⟨1, 26⟩ [])),
      keyed "size" (.reference ⟨1, 38⟩ [] "CheckedBy"
        [.primitive ⟨1, 48⟩ .any, .primitive ⟨1, 53⟩ .number])],
    [], [], false, []⟩

theorem alike_careless (v : Vocabulary) (l : Library) :
    Alike ⟨.default, v, l⟩ careless careful := by
  refine ⟨.object trivial (.cons (.property ⟨.function⟩) (.cons (.property ⟨.ofArray ⟨.tuple⟩⟩)
    (.cons (.property ⟨?_⟩) .nil))) .nil .nil rfl⟩
  exact .checkedBy trivial (.inl (List.cons_ne_nil _ _)) (.cons ⟨.primitive trivial⟩ .nil)

theorem convertType_alike_careless :
    let s : Setting := ⟨.default, .default, .ofTable .none [] .default⟩
    let c : Context := ⟨.empty, 0, false, none, none⟩
    s.options.exactName ≠ "Array" ∧ s.Alike careless careful ∧
    ∃ v, (s.convertType careful c).result = .ok v ∧ (s.convertType careless c).result = .ok v := by
  intro s c
  have hexact : s.options.exactName ≠ "Array" := by decide
  have halike : s.Alike careless careful := alike_careless _ _
  exact ⟨hexact, halike, _, rfl, ((convertType_alike s hexact halike c).1 _).2 rfl⟩

end Setting

end PropTables
