import PropTables.Proofs.Calls
import PropTables.Proofs.Traced

/-! The rules by which calls succeed: one for each form of type, member and binding. What a call gives
is told by the results of the calls that it makes, so that no later proof opens the conversion. -/

namespace PropTables

@[simp] theorem Context.result_fail {α : Type} (c : Context) (f : ConversionFault) (loc : Position) :
    (c.fail f loc : Traced α).result = .error (.conversion (f.error loc c.scope.file)) := rfl

namespace Setting

inductive MemberRule (s : Setting) (n : Nat) (c : Context) :
    Member TypeExpr → List (Field Validator) → Prop
  | property (h : s.Yields (.type n p.value c.fieldValue) w) :
    MemberRule s n c (.property p)
      [⟨p.written, if !p.optional && w.requirement == .required then w.expr.require else w.expr,
        p.quoted, p.notes⟩]
  | spread (h : s.Yields (.type n p.argument c.spread) w) (hw : w.expr = .object fields notes) :
    MemberRule s n c (.spread p)
      (Field.surround p.notes
        (if s.isExact p.argument then fields else fields.map Field.stripRequired))

def Expresses (s : Setting) (n : Nat) (c : Context) (t : TypeExpr) (e : Validator) : Prop :=
  ∃ w, s.Yields (.type n t c) w ∧ w.expr = e

def Tabulates (s : Setting) (n : Nat) (c : Context) (t : TypeExpr) (fields : List (Field Validator)) :
    Prop :=
  ∃ notes, s.Expresses n c t (.object fields notes)

inductive Rule (s : Setting) : Call → Converted → Prop
  | primitive (ha : s.disallows (.primitive loc p) = none) :
    Rule s (.type n (.primitive loc p) c) (.required (s.vocabulary.primitive p))
  | number : Rule s (.type n (.number loc a raw) c) (.required (s.vocabulary.oneOf [.number a raw]))
  | boolean : Rule s (.type n (.boolean loc a) c) (.required (s.vocabulary.oneOf [.boolean a]))
  | string : Rule s (.type n (.string loc a raw) c) (.required (s.vocabulary.oneOf [.string a raw]))
  | function : Rule s (.type n (.function loc ps r) c) (.required (s.vocabulary.member "func"))
  | tuple : Rule s (.type n (.tuple loc ts) c) (.required (s.vocabulary.member "array"))
  | maybe (ha : s.disallows (.nullable loc t) = none) (hc : c.isFieldValue = true)
      (h : s.Yields (.type n t c.nested) w) :
    Rule s (.type n (.nullable loc t) c) (.optional w.expr)
  | nullable (ha : s.disallows (.nullable loc t) = none) (hc : c.isFieldValue = false)
      (h : s.Yields (.type n t c.nested) w) :
    Rule s (.type n (.nullable loc t) c)
      (.required (s.vocabulary.oneOf [.null, .undefined, w.expr]))
  | array (h : s.Yields (.type n t c.nested) w) :
    Rule s (.type n (.array loc t) c) (.required (s.vocabulary.call "arrayOf" w.expr))
  | arrayOf (hg : s.generic name = .array) (h : s.Yields (.type n t c.nested) w) :
    Rule s (.type n (.reference loc [] name [t]) c)
      (.required (s.vocabulary.call "arrayOf" w.expr))
  | exact (hg : s.generic name = .exact) (h : s.Yields (.type n t c) v) :
    Rule s (.type n (.reference loc [] name [t]) c) v
  | checkedBy (hg : s.generic name = .checkedBy) (h : s.Yields (.type n t c) v) :
    Rule s (.type n (.reference loc [] name [u, t]) c) v
  | hasDefault (hg : s.generic name = .hasDefault) (hc : c.isFieldValue = true)
      (h : s.Yields (.type n t c) w) :
    Rule s (.type n (.reference loc [] name [t]) c) (.optional w.expr)
  | bound (hb : c.scope.lookup name = some b) (h : s.Yields (.binding n b ⟨loc, name⟩ c) v) :
    Rule s (.type n (.reference loc [] name []) c) v
  | unboundFunction (hb : c.scope.lookup "Function" = none) :
    Rule s (.type n (.reference loc [] "Function" []) c) (.required (s.vocabulary.member "func"))
  | unboundObject (hb : c.scope.lookup "Object" = none) :
    Rule s (.type n (.reference loc [] "Object" []) c) (.required (s.vocabulary.member "object"))
  | literals (hl : types.mapM TypeExpr.literal? = some values) :
    Rule s (.type n (.union loc types) c) (.required (s.vocabulary.oneOf values))
  | union (hl : types.mapM TypeExpr.literal? = none)
      (h : List.Forall₂ (s.Expresses n c.nested) types values) :
    Rule s (.type n (.union loc types) c) (.required (s.vocabulary.oneOfType values))
  | intersection (hd : c.depth ≠ 0) (h : List.Forall₂ (s.Expresses n c.nested) types values) :
    Rule s (.type n (.intersection loc types) c) (.required (s.vocabulary.allOf values))
  | merged (hd : c.depth = 0) (h : List.Forall₂ (s.Tabulates n c.nested) types groups) :
    Rule s (.type n (.intersection loc types) c) (.required (.object groups.flatten .none))
  | table (hd : c.depth = 0) (h : List.Forall₂ (s.MemberRule n c) members groups) :
    Rule s (.type n (.object ⟨loc, members, [], [], ex, leading⟩) c)
      (.required (.object groups.flatten ⟨leading, []⟩))
  | shape (hd : c.depth ≠ 0) (h : List.Forall₂ (s.MemberRule n c) members groups) :
    Rule s (.type n (.object ⟨loc, members, [], [], ex, leading⟩) c)
      (.required (s.vocabulary.call "shape" (.object groups.flatten ⟨leading, []⟩)))
  | indexer (h : s.Yields (.type n i.value c.indexed) w) :
    Rule s (.type n (.object ⟨loc, [], [i], [], ex, leading⟩) c)
      (.required (s.vocabulary.call "objectOf" w.expr))
  | typeAlias (h : s.Yields (.type n a.right (c.body a.params)) v) :
    Rule s (.binding (n + 1) ⟨.typeAlias a, file⟩ use c) v
  | interface (h : s.Yields (.type n (.object i.body) (c.body i.params)) v) :
    Rule s (.binding (n + 1) ⟨.interface i, file⟩ use c) v
  | import_ (hr : (s.library.resolveImport i file).result = .ok r)
      (h : s.Yields (.binding n r.binding use (c.through i file r.scope)) v) :
    Rule s (.binding (n + 1) ⟨.import_ i, file⟩ use c) v
  | replacedClass (hc : c.replacement = some name) :
    Rule s (.binding (n + 1) ⟨.class_ k, file⟩ use c)
      (.required (s.vocabulary.call "instanceOf" (.named name)))
  | ownClass (hc : c.replacement = none) (hf : file = c.origin) :
    Rule s (.binding (n + 1) ⟨.class_ k, file⟩ use c)
      (.required (s.vocabulary.call "instanceOf" (.named (k.name.getD defaultName))))

section Inversion

variable {s : Setting} {n : Nat} {c : Context}

theorem requireAllowed_eq_ok {t : TypeExpr} {u : Unit} :
    (s.requireAllowed t c).result = .ok u ↔ s.disallows t = none := by
  unfold requireAllowed
  cases s.disallows t <;> simp

theorem convertAll_eq_ok {types : List TypeExpr} {values : List Validator}
    (h : (s.convertAll (s.follow n) types c).result = .ok values) :
    List.Forall₂ (s.Expresses n c) types values := by
  induction types generalizing values with
  | nil =>
    rw [convertAll, Traced.pure_eq_ok] at h
    subst h
    exact .nil
  | cons t ts ih =>
    simp only [convertAll, Traced.bind_eq_ok, Traced.pure_eq_ok] at h
    obtain ⟨w, hw, vs, hvs, rfl⟩ := h
    exact .cons ⟨w, hw, rfl⟩ (ih hvs)

theorem convertMerged_eq_ok {types : List TypeExpr} {fields : List (Field Validator)}
    (h : (s.convertMerged (s.follow n) types c).result = .ok fields) :
    ∃ groups, List.Forall₂ (s.Tabulates n c.nested) types groups ∧ fields = groups.flatten := by
  induction types generalizing fields with
  | nil =>
    rw [convertMerged, Traced.pure_eq_ok] at h
    exact ⟨[], .nil, h.symm⟩
  | cons t ts ih =>
    simp only [convertMerged, Traced.bind_eq_ok] at h
    obtain ⟨w, hw, h⟩ := h
    split at h
    next group notes he =>
      simp only [Traced.bind_eq_ok, Traced.pure_eq_ok] at h
      obtain ⟨rest, hrest, rfl⟩ := h
      obtain ⟨groups, hgroups, rfl⟩ := ih hrest
      exact ⟨group :: groups, .cons ⟨notes, w, hw, he⟩ hgroups, rfl⟩
    next => simp at h

theorem convertMember_eq_ok {m : Member TypeExpr} {fields : List (Field Validator)}
    (h : (s.convertMember (s.follow n) m c).result = .ok fields) : s.MemberRule n c m fields := by
  cases m with
  | property p =>
    simp only [convertMember, Traced.bind_eq_ok, Traced.pure_eq_ok] at h
    obtain ⟨w, hw, rfl⟩ := h
    exact .property hw
  | spread p =>
    simp only [convertMember, Traced.bind_eq_ok] at h
    obtain ⟨w, hw, h⟩ := h
    split at h
    next group notes he =>
      rw [Traced.pure_eq_ok] at h
      subst h
      exact .spread hw he
    next => simp at h

theorem convertMembers_eq_ok {members : List (Member TypeExpr)} {fields : List (Field Validator)}
    (h : (s.convertMembers (s.follow n) members c).result = .ok fields) :
    ∃ groups, List.Forall₂ (s.MemberRule n c) members groups ∧ fields = groups.flatten := by
  induction members generalizing fields with
  | nil =>
    rw [convertMembers, Traced.pure_eq_ok] at h
    exact ⟨[], .nil, h.symm⟩
  | cons m ms ih =>
    simp only [convertMembers, Traced.bind_eq_ok, Traced.pure_eq_ok] at h
    obtain ⟨group, hgroup, rest, hrest, rfl⟩ := h
    obtain ⟨groups, hgroups, rfl⟩ := ih hrest
    exact ⟨group :: groups, .cons (convertMember_eq_ok hgroup) hgroups, rfl⟩

theorem convertObject_of_members (s : Setting) (f : Follow) (loc : Position)
    (members : List (Member TypeExpr)) (ex : Bool) (leading : List String) (c : Context) :
    s.convertObject f ⟨loc, members, [], [], ex, leading⟩ c = do
      let fields ← s.convertMembers f members c
      let literal := Validator.object fields ⟨leading, []⟩
      return .required (if c.depth = 0 then literal else s.vocabulary.call "shape" literal) :=
  rfl

theorem convertObject_of_indexer (s : Setting) (f : Follow) (loc : Position) (i : Indexer TypeExpr)
    (ex : Bool) (leading : List String) (c : Context) :
    s.convertObject f ⟨loc, [], [i], [], ex, leading⟩ c = s.convertIndexer f i c :=
  rfl

theorem convertIndexer_eq_ok {i : Indexer TypeExpr} {v : Converted}
    (h : (s.convertIndexer (s.follow n) i c).result = .ok v) :
    ∃ w, s.Yields (.type n i.value c.indexed) w ∧
      .required (s.vocabulary.call "objectOf" w.expr) = v := by
  cases i
  simp only [convertIndexer, Traced.bind_eq_ok, Traced.pure_eq_ok] at h
  exact h

theorem convertObject_eq_ok {o : ObjectType TypeExpr} {v : Converted}
    (h : (s.convertObject (s.follow n) o c).result = .ok v) : s.Rule (.type n (.object o) c) v := by
  obtain ⟨loc, members, indexers, calls, ex, leading⟩ := o
  match calls, indexers with
  | _ :: _, _ => exact nomatch h
  | [], [] =>
    simp only [convertObject_of_members, Traced.bind_eq_ok, Traced.pure_eq_ok] at h
    obtain ⟨fields, hfields, rfl⟩ := h
    obtain ⟨groups, hgroups, rfl⟩ := convertMembers_eq_ok hfields
    split
    next hd => exact .table hd hgroups
    next hd => exact .shape hd hgroups
  | [], [i] =>
    cases members with
    | nil =>
      obtain ⟨w, hw, rfl⟩ := convertIndexer_eq_ok h
      exact .indexer hw
    | cons m ms => exact nomatch h
  | [], _ :: _ :: _ => cases members <;> exact nomatch h

theorem convertReference_eq_ok {loc : Position} {name : String} {args : List TypeExpr}
    {v : Converted} (h : s.Yields (.type n (.reference loc [] name args) c) v) :
    s.Rule (.type n (.reference loc [] name args) c) v := by
  change (s.convert (s.follow n) (.reference loc [] name args) c).result = .ok v at h
  match args with
  | [] =>
    simp only [convert, convertName] at h
    split at h
    next b hb => exact .bound hb h
    next hb =>
      split at h
      next =>
        rw [Traced.pure_eq_ok] at h
        subst h
        exact .unboundFunction hb
      next =>
        rw [Traced.pure_eq_ok] at h
        subst h
        exact .unboundObject hb
      next => simp at h
  | [a] =>
    rw [convert] at h
    cases hg : s.generic name <;> simp only [hg] at h
    case array =>
      simp only [Traced.bind_eq_ok, Traced.pure_eq_ok] at h
      obtain ⟨w, hw, rfl⟩ := h
      exact .arrayOf hg hw
    case exact => exact .exact hg h
    case hasDefault =>
      split at h
      next hc =>
        simp only [Traced.bind_eq_ok, Traced.pure_eq_ok] at h
        obtain ⟨w, hw, rfl⟩ := h
        exact .hasDefault hg hc hw
      next => simp at h
    all_goals simp at h
  | [_, b] =>
    rw [convert] at h
    cases hg : s.generic name <;> simp only [hg] at h
    case checkedBy => exact .checkedBy hg h
    all_goals simp at h
  | _ :: _ :: _ :: _ =>
    simp only [convert] at h
    cases hg : s.generic name <;> simp [hg] at h

theorem convert_eq_ok {t : TypeExpr} {v : Converted} (h : s.Yields (.type n t c) v) :
    s.Rule (.type n t c) v := by
  have h' : (s.convert (s.follow n) t c).result = .ok v := h
  match t with
  | .primitive loc p =>
    simp only [convert, Traced.bind_eq_ok, Traced.pure_eq_ok, requireAllowed_eq_ok] at h'
    obtain ⟨_, ha, rfl⟩ := h'
    exact .primitive ha
  | .number .. | .boolean .. | .string .. | .function .. | .tuple .. =>
    rw [convert, Traced.pure_eq_ok] at h'
    subst h'
    constructor
  | .nullable loc inner =>
    simp only [convert, Traced.bind_eq_ok, Traced.pure_eq_ok, requireAllowed_eq_ok] at h'
    obtain ⟨_, ha, w, hw, rfl⟩ := h'
    split
    next hc => exact .maybe ha hc hw
    next hc => exact .nullable ha (Bool.eq_false_of_not_eq_true hc) hw
  | .array loc element =>
    simp only [convert, Traced.bind_eq_ok, Traced.pure_eq_ok] at h'
    obtain ⟨w, hw, rfl⟩ := h'
    exact .array hw
  | .object o => exact convertObject_eq_ok h'
  | .reference loc (q :: qs) name args => simp [convert] at h'
  | .reference loc [] name args => exact convertReference_eq_ok h
  | .union loc types =>
    rw [convert] at h'
    cases hl : types.mapM TypeExpr.literal? with
    | some values =>
      simp only [hl, Traced.bind_eq_ok, Traced.pure_eq_ok] at h'
      obtain ⟨_, _, rfl⟩ := h'
      exact .literals hl
    | none =>
      simp only [hl, Traced.bind_eq_ok, Traced.pure_eq_ok] at h'
      obtain ⟨values, hvalues, rfl⟩ := h'
      exact .union hl (convertAll_eq_ok hvalues)
  | .intersection loc types =>
    rw [convert] at h'
    split at h'
    next hd =>
      simp only [Traced.bind_eq_ok, Traced.pure_eq_ok] at h'
      obtain ⟨fields, hfields, rfl⟩ := h'
      obtain ⟨groups, hgroups, rfl⟩ := convertMerged_eq_ok hfields
      exact .merged hd hgroups
    next hd =>
      simp only [Traced.bind_eq_ok, Traced.pure_eq_ok] at h'
      obtain ⟨values, hvalues, rfl⟩ := h'
      exact .intersection hd (convertAll_eq_ok hvalues)

theorem follow_eq_ok {b : Binding} {use : Use} {v : Converted}
    (h : s.Yields (.binding n b use c) v) : s.Rule (.binding n b use c) v := by
  obtain ⟨referent, file⟩ := b
  cases n with
  | zero => exact nomatch h
  | succ n =>
    cases referent with
    | typeAlias a => exact .typeAlias h
    | interface i => exact .interface h
    | import_ i =>
      obtain ⟨r, hr, h⟩ := Traced.bind_eq_ok.1 h
      exact .import_ hr h
    | class_ k =>
      change (s.convertClass k file use c).result = .ok v at h
      unfold convertClass at h
      split at h
      next name hc =>
        rw [Traced.pure_eq_ok] at h
        subst h
        exact .replacedClass hc
      next hc =>
        split at h
        next hf =>
          rw [Traced.pure_eq_ok] at h
          subst h
          exact .ownClass hc hf
        next => simp at h
    | function f => exact nomatch h
    | variable_ d => exact nomatch h
    | parameter p => exact nomatch h

theorem rule_of_yields {x : Call} {v : Converted} (h : s.Yields x v) : s.Rule x v := by
  cases x with
  | type => exact convert_eq_ok h
  | binding => exact follow_eq_ok h

theorem convertTable_eq_ok {t : TypeExpr} {scope : Scope} {origin : Option String}
    {table : Validator} (h : (s.convertTable t scope origin).result = .ok table) :
    ∃ v fields notes, s.Yields (s.tableCall t scope origin) v ∧ v.expr = .object fields notes ∧
      table = .object fields notes := by
  obtain ⟨v, hv, h⟩ := Traced.bind_eq_ok.1 h
  split at h
  next fields notes he =>
    rw [Traced.pure_eq_ok] at h
    exact ⟨v, fields, notes, hv, he, h.symm⟩
  next => simp at h

end Inversion

theorem Part.yields {s : Setting} {n : Nat} {c c' : Context} {t t' : TypeExpr} {v : Converted}
    (h : s.Part c t t' c') (hv : s.Yields (.type n t c) v) : ∃ w, s.Yields (.type n t' c') w := by
  have hrule := rule_of_yields hv
  -- A part is converted in the premises of each rule that gives a value to the type it is in.
  cases h with
  | nullable | array | indexer => cases hrule <;> exact ⟨_, ‹_›⟩
  | arrayOf hg | exact hg | hasDefault hg =>
    cases hrule with
    | arrayOf hg' hw | exact hg' hw | hasDefault hg' _ hw =>
      rw [hg] at hg'
      cases hg' <;> exact ⟨_, hw⟩
  | checkedBy hg =>
    cases hrule with
    | checkedBy _ hw => exact ⟨v, hw⟩
  | union hl ht =>
    cases hrule with
    | literals hl' => exact nomatch hl.symm.trans hl'
    | union _ hvs =>
      obtain ⟨_, _, w, hw, _⟩ := forall₂_mem_left hvs ht
      exact ⟨w, hw⟩
  | intersection ht =>
    cases hrule with
    | intersection _ hvs =>
      obtain ⟨_, _, w, hw, _⟩ := forall₂_mem_left hvs ht
      exact ⟨w, hw⟩
    | merged _ hvs =>
      obtain ⟨_, _, _, w, hw, _⟩ := forall₂_mem_left hvs ht
      exact ⟨w, hw⟩
  | property hp =>
    cases hrule with
    | table _ hgs | shape _ hgs =>
      obtain ⟨_, _, hm⟩ := forall₂_mem_left hgs hp
      cases hm with
      | property hw => exact ⟨_, hw⟩
  | spread hp =>
    cases hrule with
    | table _ hgs | shape _ hgs =>
      obtain ⟨_, _, hm⟩ := forall₂_mem_left hgs hp
      cases hm with
      | spread hw => exact ⟨_, hw⟩

theorem Step.yields {s : Setting} {x y : Call} {v : Converted} (h : s.Step x y)
    (hv : s.Yields x v) : ∃ w, s.Yields y w := by
  cases h with
  | part h => exact h.yields hv
  | lookup hb =>
    cases rule_of_yields hv with
    | bound hb' hw =>
      rw [Option.some.inj (hb.symm.trans hb')]
      exact ⟨v, hw⟩
    | unboundFunction hb' | unboundObject hb' => exact nomatch hb.symm.trans hb'
  | import_ hr =>
    cases rule_of_yields hv with
    | import_ hr' hw =>
      rw [Except.ok.inj (hr.symm.trans hr')]
      exact ⟨v, hw⟩
  | typeAlias =>
    cases rule_of_yields hv with
    | typeAlias hw => exact ⟨v, hw⟩
  | interface =>
    cases rule_of_yields hv with
    | interface hw => exact ⟨v, hw⟩

theorem Reaches.yields {s : Setting} {x y : Call} {v : Converted} (h : s.Reaches x y)
    (hv : s.Yields x v) : ∃ w, s.Yields y w := by
  induction h with
  | refl => exact ⟨v, hv⟩
  | tail _ hstep ih =>
    obtain ⟨w, hw⟩ := ih
    exact hstep.yields hw

end Setting

end PropTables
