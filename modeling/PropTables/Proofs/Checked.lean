import PropTables.Proofs.Outcomes

/-! The checks on the way of a conversion find nothing. The kind that is kept with a binding is that of its
node: in the frames of parameters and of modules alike, and behind every import. Nothing but literals is
encoded. -/

namespace PropTables

variable {s : Setting} {mishap : Mishap → Failure} {c c₀ : Context}

theorem Scope.kind_eq {scope : Scope} {name : String} {b : Binding}
    (hinner : ∀ f ∈ scope.inner, ∀ e ∈ f, ∃ p, e.2.referent = .parameter p)
    (hb : scope.lookup name = some b) : scope.kind name = b.referent.kind := by
  unfold Scope.lookup Scope.frames at hb
  rw [List.findSome?_append] at hb
  unfold Scope.kind
  cases hfound : scope.inner.findSome? (·.lookup name) with
  | some b' =>
    rw [hfound] at hb
    cases hb
    obtain ⟨f, hf, hlookup⟩ := List.exists_of_findSome?_eq_some hfound
    obtain ⟨p, hp⟩ := hinner f hf _ (Frame.mem_of_lookup hlookup)
    dsimp only at hp ⊢
    rw [hp]
    rfl
  | none =>
    rw [hfound] at hb
    have hbase : scope.base.lookup name = some b := by
      simpa using hb
    rw [hbase]

namespace TypeExpr

theorem isSome_literal? (t : TypeExpr) : t.literal?.isSome = t.isLiteral := by
  cases t with
  | primitive _ p => cases p <;> rfl
  | _ => rfl

theorem exists_literals_iff {types : List TypeExpr} :
    (∃ values, types.mapM literal? = some values) ↔ types.all isLiteral = true := by
  induction types with
  | nil => exact ⟨fun _ => rfl, fun _ => ⟨[], rfl⟩⟩
  | cons t ts ih =>
    rw [List.all_cons, Bool.and_eq_true, ← ih, ← isSome_literal?, Option.isSome_iff_exists]
    simp only [List.mapM_cons, Option.bind_eq_bind, Option.bind_eq_some_iff, Option.pure_def,
      Option.some.injEq]
    constructor
    · rintro ⟨_, v, hv, vs, hvs, _⟩
      exact ⟨⟨v, hv⟩, vs, hvs⟩
    · rintro ⟨⟨v, hv⟩, vs, hvs⟩
      exact ⟨_, v, hv, vs, hvs, rfl⟩

end TypeExpr

namespace Setting

theorem encode_eq {t : TypeExpr} {v : Validator} (h : t.literal? = some v) :
    s.encode mishap t c = s.requireAllowed t c >>= fun _ => pure v := by
  unfold encode
  rw [h]

theorem convertLiterals_eq {types : List TypeExpr} {values : List Validator}
    (h : types.mapM TypeExpr.literal? = some values) :
    s.convertLiterals mishap types c =
      types.forM (s.requireAllowed · c) >>= fun _ => pure (.required (s.vocabulary.oneOf values)) := by
  have hvalues := forall₂_of_mapM_eq_some h
  have hencode : types.mapM (s.encode mishap · c) =
      types.forM (s.requireAllowed · c) >>= fun _ => pure values := by
    clear h
    induction hvalues with
    | nil => rfl
    | cons hv _ ih =>
      simp only [List.mapM_cons, encode_eq hv, ih, List.forM_eq_forM, List.forM_cons, bind_assoc,
        pure_bind]
  unfold convertLiterals
  rw [hencode, bind_assoc]
  simp only [pure_bind]

theorem convert_of_isLiteral {f : Follow} {t : TypeExpr} (h : t.isLiteral = true) :
    s.convert f t c = s.convertLiterals mishap [t] c := by
  rw [← TypeExpr.isSome_literal?, Option.isSome_iff_exists] at h
  obtain ⟨v, hv⟩ := h
  have hall : [t].mapM TypeExpr.literal? = some [v] := by
    simp only [List.mapM_cons, List.mapM_nil, hv, Option.pure_def, Option.bind_eq_bind,
      Option.bind_some]
  rw [convertLiterals_eq hall]
  match t with
  | .primitive loc p => cases p <;> cases hv <;> simp [convert, Vocabulary.primitive]
  | .number .. | .boolean .. | .string .. =>
    cases hv
    rfl

/-- A union encodes its members if they are literals, and nothing else. -/
theorem convert_union {f : Follow} {loc : Position} {types : List TypeExpr} :
    s.convert f (.union loc types) c =
      if types.all TypeExpr.isLiteral then s.convertLiterals mishap types c
      else do return .required (s.vocabulary.oneOfType (← s.convertAll f types c.nested)) := by
  rw [convert]
  split
  next values hl =>
    rw [if_pos (TypeExpr.exists_literals_iff.1 ⟨values, hl⟩), convertLiterals_eq hl]
  next hl =>
    refine (if_neg fun hall => ?_).symm
    obtain ⟨values, h⟩ := TypeExpr.exists_literals_iff.2 hall
    rw [hl] at h
    cases h

def FollowsAlike (s : Setting) (mishap : Mishap → Failure) (c₀ : Context) (n : ℕ) : Prop :=
  ∀ b use c, s.Roams c₀ c →
    (s.followChecked mishap n b.referent.kind b use c).Agrees Failure.never Eq (s.follow n b use c)

theorem FollowsAlike.convert {n : ℕ} (h : s.FollowsAlike mishap c₀ n) (t : TypeExpr)
    (hc : s.Roams c₀ c) :
    (s.convert (s.lookupChecked mishap n) t c).Agrees Failure.never Eq (s.convert (s.follow n) t c) := by
  refine convert_agrees .refl Roams.congruence Eq.refl ?_ t c c ⟨rfl, hc⟩
  rintro loc name c _ ⟨rfl, hc⟩
  refine convertName_agrees .refl Roams.congruence Eq.refl ⟨rfl, hc⟩ rfl fun b hb => ?_
  rw [lookupChecked, Scope.kind_eq hc.inner hb]
  exact h b _ c hc

theorem followsAlike (hl : s.library.Faithful) (n : ℕ) : s.FollowsAlike mishap c₀ n := by
  induction n with
  | zero => exact fun b use c _ => .refl Eq.refl _
  | succ n ih =>
    rintro ⟨referent, file⟩ use c hc
    cases referent with
    | typeAlias a => exact ih.convert a.right (hc.body a.params)
    | interface i => exact ih.convert (.object i.body) (hc.body i.params)
    | import_ i =>
      have hresolve : (s.library.resolveImport i file).Agrees Failure.never Eq
          (s.library.resolveImport i file) := .refl Eq.refl _
      exact hresolve.bind fun r hr => ih r.binding use _ (hc.through hl hr).1
    | class_ | function | variable_ | parameter => exact .refl Eq.refl _

theorem convertNode_checked (hl : s.library.Faithful) (hc : c.scope.Built) (n : Node) :
    (s.convertNodeChecked mishap n c).result = (s.convertNode n c).result := by
  have hroams : s.Roams c c := roams_self hc
  have hfollows : s.FollowsAlike mishap c (s.referenceBound c) := followsAlike hl _
  cases n with
  | type t => exact (hfollows.convert t hroams).eq
  | indexer i =>
    have hvalue := hfollows.convert i.value (Roams.congruence.indexed ⟨rfl, hroams⟩).2
    cases i
    exact hvalue.map.eq
  | member | call | other => rfl

/-- Where no alias, interface or import leads back to itself, a conversion ends with a value, with an
error about types, or at a module whose load ends everything; the checks on its way change nothing,
whatever would come of them. -/
theorem convert_outcome (s : Setting) (hl : s.library.Faithful) (n : Node)
    (hn : ∀ form loc, n ≠ .other form loc) (c : Context) (hc : c.scope.Built)
    (hfree : ∀ t ∈ n.type?, s.CycleFree (.type t c.scope)) :
    (s.Outcome (s.convertNode n c).result ∧
      ∀ t origin, n = .type t → s.Outcome (s.convertTable t c.scope origin).result) ∧
    (∀ e, (s.convertNode n c).result = .error (.conversion e) ∨
        (∃ t origin, n = .type t ∧
          (s.convertTable t c.scope origin).result = .error (.conversion e)) →
      e.kind ≠ .missingType ∧ (e.isResolution = true ↔ e.kind = .missingReference)) ∧
    ∀ mishap,
      (s.convertNodeChecked mishap n c).result = (s.convertNode n c).result ∧
      ∀ f c, (∀ t, t.isLiteral = true → s.convert f t c = s.convertLiterals mishap [t] c) ∧
        ∀ loc types, s.convert f (.union loc types) c =
          if types.all TypeExpr.isLiteral then s.convertLiterals mishap types c
          else do return .required (s.vocabulary.oneOfType (← s.convertAll f types c.nested)) := by
  have hnode : s.Outcome (s.convertNode n c).result := outcome_convertNode hl hn hc hfree
  have htable (t : TypeExpr) (origin : Option String) (ht : n = .type t) :
      s.Outcome (s.convertTable t c.scope origin).result := by
    subst ht
    exact outcome_convertTable origin hl hc (hfree t rfl)
  refine ⟨⟨hnode, htable⟩, fun e he => ⟨?_, decide_eq_true_iff⟩, fun mishap => ⟨?_, fun f c => ⟨?_, ?_⟩⟩⟩
  · rcases he with he | ⟨t, origin, ht, he⟩
    · exact hnode.kind_ne he
    · exact (htable t origin ht).kind_ne he
  · exact convertNode_checked hl hc n
  · exact fun t ht => convert_of_isLiteral ht
  · exact fun loc types => convert_union

theorem cycleFree_function :
    (⟨.default, .default, functionLibrary⟩ : Setting).CycleFree
      (.type (.reference ⟨3, 14⟩ [] "f" []) (.ofModule (importingModule "f"))) := by
  refine .of_acc ⟨_, fun y hy => ?_⟩
  cases hy with
  | part hp => cases hp
  | lookup hb =>
    cases hb
    refine ⟨_, fun z hz => ?_⟩
    cases hz with
    | import_ hr =>
      cases hr
      exact ⟨_, nofun⟩

theorem convert_outcome_function :
    let s : Setting := ⟨.default, .default, functionLibrary⟩
    let c : Context := ⟨.ofModule (importingModule "f"), 0, false, none, some "/src/main.js"⟩
    let n : Node := .type (.reference ⟨3, 14⟩ [] "f" [])
    s.library.Faithful ∧ c.scope.Built ∧ (∀ t ∈ n.type?, s.CycleFree (.type t c.scope)) ∧
      s.Outcome (s.convertNode n c).result ∧
      ∃ e, (s.convertNode n c).result = .error (.conversion e) ∧ e.kind ≠ .missingType := by
  intro s c n
  have hbuilt : c.scope.Built := .ofModule _
  have hfree : ∀ t ∈ n.type?, s.CycleFree (.type t c.scope) := by
    rintro _ ⟨⟩
    exact cycleFree_function
  have houtcome := convert_outcome s functionLibrary_faithful n nofun c hbuilt hfree
  have herror : (s.convertNode n c).result = .error (.conversion
      ((ConversionFault.function "f").error ⟨3, 14⟩ functionModule.file)) := rfl
  exact ⟨functionLibrary_faithful, hbuilt, hfree, houtcome.1.1, _, herror,
    (houtcome.2.1 _ (.inl herror)).1⟩

end Setting

end PropTables
