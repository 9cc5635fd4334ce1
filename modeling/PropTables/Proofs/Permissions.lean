import PropTables.Proofs.Bound
import PropTables.Proofs.TableShape

/-! Kinds of types that options rule out. Two conversions that differ in what is ruled out go on side by
side up to the first type that one of them refuses; where all three kinds are ruled out, nothing in a
result stands for a missing value. -/

namespace PropTables

def ConvertOptions.allows (o : ConvertOptions) : Disallowable → Bool
  | .null => o.allowNull
  | .void => o.allowVoid
  | .maybe => o.allowMaybe

/-- The first options differ from the second in the kinds of types that they allow at most, and allow
none that the second do not. -/
structure ConvertOptions.AllowsNoMore (o o' : ConvertOptions) : Prop where
  rest : { o with allowNull := o'.allowNull, allowVoid := o'.allowVoid, allowMaybe := o'.allowMaybe } = o'
  allows : ∀ d, o.allows d = true → o'.allows d = true

def Failure.IsRefusal (o o' : ConvertOptions) (e : Failure) : Prop :=
  ∃ err d, e = .conversion err ∧ err.kind = .unsupportedType ∧
    err.message = (ConversionFault.disallowed d).message ∧ o.allows d = false ∧ o'.allows d = true

def TypeExpr.permission? : TypeExpr → Option Disallowable
  | primitive _ .null => some .null
  | primitive _ .void => some .void
  | nullable .. => some .maybe
  | _ => none

namespace Setting

section

variable {s s' : Setting} {lost : Failure → Prop} {o : ConvertOptions} {n : ℕ} {c : Context}

theorem disallows_eq (s : Setting) (t : TypeExpr) :
    s.disallows t = t.permission?.bind fun d => if s.options.allows d then none else some d := by
  cases t with
  | primitive loc p => cases p <;> rfl
  | _ => rfl

theorem kin_of_allowsNoMore (h : s.options.AllowsNoMore o) :
    s.Kin { s with options := o } (Failure.IsRefusal s.options o) := by
  have hnames : o.exactName = s.options.exactName ∧ o.checkedByName = s.options.checkedByName ∧
      o.hasDefaultName = s.options.hasDefaultName := by
    rw [← h.rest]
    exact ⟨rfl, rfl, rfl⟩
  obtain ⟨hexact, hchecked, hdefault⟩ := hnames
  refine ⟨rfl, rfl, fun name => ?_, fun t => ?_, fun t => ?_⟩
  · simp only [generic, hexact, hchecked, hdefault]
  · unfold isExact
    simp only [hexact]
  · rw [disallows_eq, disallows_eq]
    cases t.permission? with
    | none => exact .inl rfl
    | some d =>
      simp only [Option.bind_some]
      cases hs : s.options.allows d with
      | true =>
        rw [h.allows d hs]
        exact .inl rfl
      | false =>
        cases ho : o.allows d with
        | false => exact .inl rfl
        | true => exact .inr ⟨rfl, d, rfl, fun loc file => ⟨_, d, rfl, rfl, rfl, hs, ho⟩⟩

theorem follow_agrees_of_kin (hs : s.Kin s' lost) (n : ℕ) (b : Binding) (use : Use) (c : Context) :
    (s.follow n b use c).Agrees lost Eq (s'.follow n b use c) := by
  induction n generalizing b use c with
  | zero => exact .error rfl
  | succ n ih =>
    refine follow_succ_agrees hs eq_congruence Eq.refl (fun params _ _ hc => by rw [hc])
      (fun loc name c c' hc => ?_) rfl fun i r _ _ => ih _ _ _
    subst hc
    exact convertName_agrees hs eq_congruence Eq.refl rfl rfl fun b _ => ih b _ c

theorem convertType_agrees_of_kin (hs : s.Kin s' lost) (t : TypeExpr) (c : Context) :
    (s.convertType t c).Agrees lost Eq (s'.convertType t c) := by
  have hbound : s'.referenceBound c = s.referenceBound c := by
    simp only [referenceBound, hs.library]
  unfold convertType
  rw [hbound]
  refine convert_agrees hs eq_congruence Eq.refl (fun loc name c c' hc => ?_) t c c rfl
  subst hc
  exact convertName_agrees hs eq_congruence Eq.refl rfl rfl fun b _ =>
    follow_agrees_of_kin hs _ b _ c

end

end Setting

namespace Validator

def isMissing : Validator → Bool
  | literal .null _ _ => true
  | identifier "undefined" _ => true
  | _ => false

/-- No array in the expression has an item that stands for a missing value. -/
inductive Solid : Validator → Prop
  | identifier : Solid (.identifier name ns)
  | literal : Solid (.literal value raw ns)
  | member (h : Solid e) : Solid (.member e attr ns)
  | call (hf : Solid func) (hargs : ∀ e ∈ args, Solid e) : Solid (.call func args ns)
  | array (h : ∀ e ∈ items, Solid e) (hitems : ∀ e ∈ items, e.isMissing = false) :
    Solid (.array items ns)
  | object (h : ∀ f ∈ fields, Solid f.value) : Solid (.object fields ns)

namespace Solid

variable {e : Validator} {v : Vocabulary}

theorem of_occurs {table : Validator} {p : Site} (ht : table.Solid) (h : table.Occurs p e) :
    e.Solid ∧ (p = .item → e.isMissing = false) := by
  induction h with
  | table => exact ⟨ht, nofun⟩
  | base _ ih =>
    cases ih.1 with
    | member h => exact ⟨h, nofun⟩
  | callee _ ih =>
    cases ih.1 with
    | call hf => exact ⟨hf, nofun⟩
  | argument _ ha ih =>
    cases ih.1 with
    | call _ hargs => exact ⟨hargs _ ha, nofun⟩
  | item _ he ih =>
    cases ih.1 with
    | array h hitems => exact ⟨h _ he, fun _ => hitems _ he⟩
  | field _ hf ih =>
    cases ih.1 with
    | object h => exact ⟨h _ hf, nofun⟩

theorem withNotes (h : e.Solid) (n : Notes) : (e.withNotes n).Solid := by
  cases h with
  | identifier => exact .identifier
  | literal => exact .literal
  | member h => exact .member h
  | call hf hargs => exact .call hf hargs
  | array h hitems => exact .array h hitems
  | object h => exact .object h

theorem fields {fields : List (Field Validator)} {ns : Notes} (h : (Validator.object fields ns).Solid) :
    ∀ f ∈ fields, f.value.Solid := by
  cases h with
  | object h => exact h

theorem stripRequired (h : e.Solid) : e.stripRequired.Solid := by
  cases h with
  | member h =>
    rw [Validator.stripRequired]
    split
    · split
      · exact h
      · exact h.withNotes _
    · exact .member h
  | identifier => exact .identifier
  | literal => exact .literal
  | call hf hargs => exact .call hf hargs
  | array h hitems => exact .array h hitems
  | object h => exact .object h

theorem ofMember (v : Vocabulary) (attr : String) : (v.member attr).Solid :=
  .member .identifier

theorem ofCall (v : Vocabulary) (attr : String) (h : e.Solid) : (v.call attr e).Solid :=
  .call (ofMember v attr) fun _ he => List.mem_singleton.1 he ▸ h

theorem ofValues (v : Vocabulary) (attr : String) {values : List Validator}
    (h : ∀ e ∈ values, e.Solid ∧ e.isMissing = false) : (v.call attr (.array values .none)).Solid :=
  ofCall v attr (.array (fun e he => (h e he).1) fun e he => (h e he).2)

end Solid

end Validator

namespace Setting

section

variable {s : Setting} {n : ℕ} {c : Context} {x : Call} {v : Converted} {t : TypeExpr}

theorem permission?_of_literal? {e : Validator} (h : t.literal? = some e) :
    e.Solid ∧ (e.isMissing = true → t.permission? ≠ none) := by
  unfold TypeExpr.literal? at h
  split at h <;> cases h
  · exact ⟨.literal, fun _ => nofun⟩
  · exact ⟨.identifier, fun _ => nofun⟩
  all_goals exact ⟨.literal, nofun⟩

theorem permission?_eq_none (h : ∀ d, s.options.allows d = false) (ht : s.disallows t = none) :
    t.permission? = none := by
  rw [disallows_eq] at ht
  cases hp : t.permission? with
  | none => rfl
  | some d => simp [hp, h d] at ht

theorem disallows_of_requireAllowed {types : List TypeExpr} {u : Unit}
    (h : (types.forM (s.requireAllowed · c)).result = .ok u) (ht : t ∈ types) :
    s.disallows t = none := by
  induction types with
  | nil => cases ht
  | cons t' ts ih =>
    rw [List.forM_eq_forM, List.forM_cons, Traced.bind_eq_ok] at h
    obtain ⟨_, hhead, htail⟩ := h
    rcases List.mem_cons.1 ht with rfl | ht
    · exact requireAllowed_eq_ok.1 hhead
    · exact ih htail ht

theorem disallows_of_literals {loc : Position} {types : List TypeExpr} {values : List Validator}
    (hl : types.mapM TypeExpr.literal? = some values)
    (h : s.Yields (.type n (.union loc types) c) v) (ht : t ∈ types) : s.disallows t = none := by
  change (s.convert (s.follow n) (.union loc types) c).result = .ok v at h
  rw [convert, hl, Traced.bind_eq_ok] at h
  obtain ⟨_, hallowed, _⟩ := h
  exact disallows_of_requireAllowed hallowed ht

theorem FieldRule.solid {members : List (Member TypeExpr)} {e : Validator}
    (h : s.FieldRule n c members e)
    (property : ∀ p, .property p ∈ members → ∀ w, s.Yields (.type n p.value c.fieldValue) w →
      w.expr.Solid)
    (spread : ∀ p, .spread p ∈ members → ∀ w, s.Yields (.type n p.argument c.spread) w →
      w.expr.Solid) :
    e.Solid := by
  cases h with
  | plain hp hw => exact property _ hp _ hw
  | marked hp hw => exact .member (property _ hp _ hw)
  | kept hp hw he hf => exact (he ▸ spread _ hp _ hw).fields _ hf
  | stripped hp hw he hf => exact ((he ▸ spread _ hp _ hw).fields _ hf).stripRequired

theorem solid_of_yields (h : ∀ d, s.options.allows d = false) (hv : s.Yields x v) :
    v.expr.Solid ∧ v.expr.isMissing = false := by
  induction x using call_induction (s := s) generalizing v with
  | step x ih =>
    cases rule_of_yields hv with
    | @primitive loc p _ _ ha =>
      have hp := permission?_eq_none h ha
      cases p with
      | null | void => cases hp
      | _ => exact ⟨.ofMember _ _, rfl⟩
    | number | boolean | string =>
      refine ⟨.ofValues _ _ fun e he => ?_, rfl⟩
      rw [List.mem_singleton.1 he]
      exact ⟨.literal, rfl⟩
    | function | tuple | unboundFunction | unboundObject => exact ⟨.ofMember _ _, rfl⟩
    | maybe ha | nullable ha =>
      -- No nullable type is allowed.
      exact nomatch permission?_eq_none h ha
    | array hw => exact ⟨.ofCall _ _ (ih _ (.part .array) hw).1, rfl⟩
    | arrayOf hg hw => exact ⟨.ofCall _ _ (ih _ (.part (.arrayOf hg)) hw).1, rfl⟩
    | indexer hw => exact ⟨.ofCall _ _ (ih _ (.part .indexer) hw).1, rfl⟩
    | exact hg hw => exact ih _ (.part (.exact hg)) hw
    | checkedBy hg hw => exact ih _ (.part (.checkedBy hg)) hw
    | hasDefault hg hf hw =>
      have hs := ih _ (.part (.hasDefault hg hf)) hw
      exact hs
    | literals hl =>
      refine ⟨.ofValues _ _ fun e he => ?_, rfl⟩
      obtain ⟨t, ht, hliteral⟩ := forall₂_mem_right (forall₂_of_mapM_eq_some hl) he
      obtain ⟨hsolid, hmissing⟩ := permission?_of_literal? hliteral
      have hp := permission?_eq_none h (disallows_of_literals hl hv ht)
      exact ⟨hsolid, Bool.eq_false_of_not_eq_true fun hm => hmissing hm hp⟩
    | union hl hvs =>
      refine ⟨.ofValues _ _ fun e he => ?_, rfl⟩
      obtain ⟨t, ht, w, hw, rfl⟩ := forall₂_mem_right hvs he
      exact ih _ (.part (.union hl ht)) hw
    | intersection hd hvs =>
      refine ⟨.call .identifier fun e he => ?_, rfl⟩
      obtain ⟨t, ht, w, hw, rfl⟩ := forall₂_mem_right hvs he
      exact (ih _ (.part (.intersection ht)) hw).1
    | merged hd hvs =>
      refine ⟨.object fun f hf => ?_, rfl⟩
      obtain ⟨t, ht, group, ⟨notes, w, hw, he⟩, hf⟩ := forall₂_mem_flatten hvs hf
      have hs := (ih _ (.part (.intersection ht)) hw).1
      rw [he] at hs
      exact hs.fields f hf
    | table hd hms =>
      refine ⟨.object fun f hf => ?_, rfl⟩
      refine (fieldRule_of_mem hms hf).solid (fun p hp w hw => ?_) (fun p hp w hw => ?_)
      · exact (ih _ (.part (.property hp)) hw).1
      · exact (ih _ (.part (.spread hp)) hw).1
    | shape hd hms =>
      refine ⟨.ofCall _ _ (.object fun f hf => ?_), rfl⟩
      refine (fieldRule_of_mem hms hf).solid (fun p hp w hw => ?_) (fun p hp w hw => ?_)
      · exact (ih _ (.part (.property hp)) hw).1
      · exact (ih _ (.part (.spread hp)) hw).1
    | bound hb hw => exact ih _ (.lookup hb) hw
    | typeAlias hw => exact ih _ .typeAlias hw
    | interface hw => exact ih _ .interface hw
    | import_ hr hw => exact ih _ (.import_ hr) hw
    | replacedClass | ownClass => exact ⟨.ofCall _ _ .identifier, rfl⟩

end

/-- To rule out kinds of types removes results and does nothing else: what converts still, converts to
the same, and what does not convert any more meets a type that is ruled out now. Where null types, void
types and nullable types are all ruled out, no value that is allowed stands for a missing one. -/
theorem convertType_permissions (s : Setting) :
    (∀ o, s.options.AllowsNoMore o → ∀ t c v,
      ((s.convertType t c).result = .ok v →
        (convertType { s with options := o } t c).result = .ok v) ∧
      ∀ e, (convertType { s with options := o } t c).result = .ok v →
        (s.convertType t c).result = .error e → e.IsRefusal s.options o) ∧
    ((∀ d, s.options.allows d = false) → ∀ t c v, (s.convertType t c).result = .ok v →
      ∀ e, v.expr.Occurs .item e →
        (∀ raw ns, e ≠ .literal .null raw ns) ∧ ∀ ns, e ≠ .identifier "undefined" ns) := by
  refine ⟨fun o ho t c v => ?_, fun hnone t c v hv e he => ?_⟩
  · have hagree := convertType_agrees_of_kin (kin_of_allowsNoMore ho) t c
    unfold Traced.Agrees at hagree
    generalize (s.convertType t c).result = r at hagree
    generalize (convertType { s with options := o } t c).result = r' at hagree
    cases hagree with
    | ok a => exact ⟨id, fun e _ h => nomatch h⟩
    | error h => exact ⟨nofun, nofun⟩
    | lost h =>
      refine ⟨nofun, fun e _ he => ?_⟩
      cases he
      exact h
  · have hsolid := (solid_of_yields (x := .type _ t c) hnone hv).1
    have hmissing := (hsolid.of_occurs he).2 rfl
    constructor
    · rintro raw ns rfl
      cases hmissing
    · rintro ns rfl
      cases hmissing

def strictOptions : ConvertOptions :=
  { ConvertOptions.default with allowNull := false, allowVoid := false, allowMaybe := false }

theorem convertType_permissions_strict :
    let s : Setting := ⟨strictOptions, .default, .ofTable .none [] .default⟩
    let c : Context := ⟨.empty, 0, false, none, none⟩
    let flag : TypeExpr := .union ⟨1, 1⟩ [.boolean ⟨1, 1⟩ true, .boolean ⟨1, 8⟩ false]
    let size : TypeExpr := .nullable ⟨1, 1⟩ (.primitive ⟨1, 2⟩ .number)
    s.options.AllowsNoMore .default ∧ (∀ d, s.options.allows d = false) ∧
    (∃ v, (s.convertType flag c).result = .ok v ∧
      (convertType { s with options := .default } flag c).result = .ok v ∧
      (∃ e, v.expr.Occurs .item e) ∧
      ∀ e, v.expr.Occurs .item e → ∀ ns, e ≠ .identifier "undefined" ns) ∧
    ∃ v e, (convertType { s with options := .default } size c).result = .ok v ∧
      (s.convertType size c).result = .error e ∧ e.IsRefusal s.options .default := by
  intro s c flag size
  have hless : s.options.AllowsNoMore .default := ⟨rfl, fun d hd => by cases d <;> cases hd⟩
  have hnone : ∀ d, s.options.allows d = false := fun d => by cases d <;> rfl
  obtain ⟨hlockstep, hsolid⟩ := convertType_permissions s
  refine ⟨hless, hnone, ⟨_, rfl, (hlockstep _ hless flag c _).1 rfl, ?_, fun e he => ?_⟩, ?_⟩
  · exact ⟨_, .item (.argument .table List.mem_cons_self) List.mem_cons_self⟩
  · exact (hsolid hnone flag c _ rfl e he).2
  · exact ⟨_, _, rfl, rfl, (hlockstep _ hless size c _).2 _ rfl rfl⟩

end Setting

end PropTables
