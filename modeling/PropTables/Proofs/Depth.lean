import PropTables.Proofs.Bound

/-! What the depth is for. All positive depths are alike. At depth zero an object type becomes an
object literal, and at depth one the shape of that literal; so it is where references, and the escape
hatches that pass on what they hold, lead to an object type. -/

namespace PropTables

open Relation

def Context.atDepth (d : Int) (c : Context) : Context :=
  { c with depth := d }

theorem Context.level_atDepth {d : Int} (hd : 1 ≤ d) (c : Context) :
    (c.atDepth d).Level (c.atDepth 1) := by
  refine ⟨rfl, ?_, rfl, rfl, rfl⟩
  show min d 1 = min 1 1
  omega

inductive Stage where
  | type (t : TypeExpr) (scope : Scope)
  | binding (b : Binding) (scope : Scope)

namespace Setting

/-- A step from a name, an import, an alias or an interface to what it stands for, or out of an escape
hatch to the type that it passes on. -/
inductive PassStep (s : Setting) : Stage → Stage → Prop
  | exact (hg : s.generic name = .exact) :
    PassStep s (.type (.reference loc [] name [t]) scope) (.type t scope)
  | checkedBy (hg : s.generic name = .checkedBy) :
    PassStep s (.type (.reference loc [] name [u, t]) scope) (.type t scope)
  | lookup (hb : scope.lookup name = some b) :
    PassStep s (.type (.reference loc [] name []) scope) (.binding b scope)
  | typeAlias :
    PassStep s (.binding ⟨.typeAlias a, file⟩ scope) (.type a.right (scope.root.withParams a.params))
  | interface :
    PassStep s (.binding ⟨.interface i, file⟩ scope)
      (.type (.object i.body) (scope.root.withParams i.params))
  | import_ (hr : (s.library.resolveImport i file).result = .ok r) :
    PassStep s (.binding ⟨.import_ i, file⟩ scope) (.binding r.binding r.scope)

def LeadsToObject (s : Setting) (t : TypeExpr) (scope : Scope) : Prop :=
  ∃ o scope', ReflTransGen s.PassStep (.type t scope) (.type (.object o) scope') ∧
    o.indexers = [] ∧ o.calls = []

/-- A table and the shape of the same table, or one failure twice. -/
inductive ShapeOf (s : Setting) : Except Failure Converted → Except Failure Converted → Prop
  | ok (fields : List (Field Validator)) (notes : Notes) :
    ShapeOf s (.ok (.required (.object fields notes)))
      (.ok (.required (s.vocabulary.call "shape" (.object fields notes))))
  | error (e : Failure) : ShapeOf s (.error e) (.error e)

def convertStage (s : Setting) (n : Nat) (use : Use) : Stage → Context → Int → Traced Converted
  | .type t scope, c, d => s.convert (s.follow n) t (Context.atDepth d { c with scope })
  | .binding b scope, c, d => s.follow n b use (Context.atDepth d { c with scope })

def Shapes (s : Setting) (x : Stage) : Prop :=
  ∀ n use c, s.ShapeOf (s.convertStage n use x c 0).result (s.convertStage n use x c 1).result

section

variable {s : Setting} {n : ℕ} {c c' : Context} {x y : Stage}

theorem ShapeOf.iff {r r' : Except Failure Converted} (h : s.ShapeOf r r') :
    (∀ fields notes, r = .ok (.required (.object fields notes)) ↔
      r' = .ok (.required (s.vocabulary.call "shape" (.object fields notes)))) ∧
    ((¬ ∃ fields notes, r = .ok (.required (.object fields notes))) →
      ∃ e, r = .error e ∧ r' = .error e) := by
  cases h with
  | ok fields notes =>
    refine ⟨fun fields' notes' => ?_, fun h => (h ⟨fields, notes, rfl⟩).elim⟩
    simp [Converted.required, Vocabulary.call, Validator.apply]
  | error e => exact ⟨fun _ _ => iff_of_false nofun nofun, fun _ => ⟨e, rfl, rfl⟩⟩

theorem convertMember_agrees_of_level (s : Setting) (n : ℕ) (m : Member TypeExpr)
    (hvalue : c.fieldValue.Level c'.fieldValue) (hspread : c.spread.Level c'.spread) :
    (s.convertMember (s.follow n) m c).Agrees Failure.never Eq
      (s.convertMember (s.follow n) m c') := by
  cases m with
  | property p => exact (s.convert_agrees_of_level n p.value hvalue).map
  | spread p =>
    refine (s.convert_agrees_of_level n p.argument hspread).bind fun v _ => ?_
    split
    · exact .ok _
    · exact fail_agrees Context.Level.congruence Eq.refl hspread .spreadOfOther p.loc

theorem convertFields_agrees (hbound : s.referenceBound c = s.referenceBound c') (h : c.Level c')
    (node : Node) : (s.convertFields node c).Agrees Failure.never Eq (s.convertFields node c') := by
  have hfail (fault : ConversionFault) (loc : Position) :
      (c.fail fault loc : Traced (List (Field Validator))).Agrees Failure.never Eq
        (c'.fail fault loc) :=
    fail_agrees Context.Level.congruence Eq.refl h fault loc
  cases node with
  | member m =>
    unfold convertFields
    rw [hbound]
    exact s.convertMember_agrees_of_level _ m (Context.Level.congruence.fieldValue h)
      (Context.Level.congruence.spread h)
  | type | indexer | call | other => exact hfail _ _

theorem convertMembers_atDepth (s : Setting) (n : ℕ) (members : List (Member TypeExpr))
    (c : Context) :
    (s.convertMembers (s.follow n) members (c.atDepth 0)).result =
      (s.convertMembers (s.follow n) members (c.atDepth 1)).result := by
  -- The value of a property is below the table at both depths, and a spread starts again at zero.
  have hvalue : (c.atDepth 0).fieldValue.Level (c.atDepth 1).fieldValue := ⟨rfl, rfl, rfl, rfl, rfl⟩
  have hspread : (c.atDepth 0).spread.Level (c.atDepth 1).spread := ⟨rfl, rfl, rfl, rfl, rfl⟩
  refine (convertMembers_agrees (List.forall₂_same.2 fun m _ => ?_)).eq
  exact s.convertMember_agrees_of_level n m hvalue hspread

theorem shapes_object {o : ObjectType TypeExpr} {scope : Scope} (hi : o.indexers = [])
    (hc : o.calls = []) : s.Shapes (.type (.object o) scope) := by
  obtain ⟨loc, members, indexers, calls, ex, leading⟩ := o
  cases hi
  cases hc
  intro n use c
  simp only [convertStage, convert, convertObject_of_members, Traced.result_bind]
  rw [s.convertMembers_atDepth]
  cases (s.convertMembers (s.follow n) members (Context.atDepth 1 { c with scope })).result with
  | error e => exact .error e
  | ok fields => exact .ok fields ⟨leading, []⟩

theorem convertStage_zero (s : Setting) (b : Binding) (scope : Scope) (use : Use) (c : Context) :
    ∃ e, ∀ d, (s.convertStage 0 use (.binding b scope) c d).result = .error e :=
  ⟨.uncaught .endless, fun _ => rfl⟩

theorem PassStep.convertStage_eq (h : s.PassStep x y) (n : ℕ) (use : Use) (c : Context) :
    (∃ e, ∀ d, (s.convertStage n use x c d).result = .error e) ∨
    ∃ m use' c', ∀ d, (s.convertStage n use x c d).result =
      (s.convertStage m use' y c' d).result := by
  cases h with
  | exact hg =>
    refine .inr ⟨n, use, c, fun d => ?_⟩
    simp only [convertStage, convert, hg]
  | checkedBy hg =>
    refine .inr ⟨n, use, c, fun d => ?_⟩
    simp only [convertStage, convert, hg]
  | @lookup b loc name scope hb =>
    refine .inr ⟨n, ⟨loc, name⟩, c, fun d => ?_⟩
    simp only [convertStage, convert, convertName, Context.atDepth, hb]
  | @typeAlias a file scope =>
    cases n with
    | zero => exact .inl (s.convertStage_zero _ scope use c)
    | succ n => exact .inr ⟨n, use, { c with replacement := none }, fun d => rfl⟩
  | @interface i file scope =>
    cases n with
    | zero => exact .inl (s.convertStage_zero _ scope use c)
    | succ n => exact .inr ⟨n, use, { c with replacement := none }, fun d => rfl⟩
  | @import_ i file r scope hr =>
    cases n with
    | zero => exact .inl (s.convertStage_zero _ scope use c)
    | succ n =>
      refine .inr ⟨n, use, c.through i file r.scope, fun d => ?_⟩
      show (s.followImport (s.follow n) i file use _).result = _
      rw [followImport, Traced.result_bind, hr]
      rfl

theorem PassStep.shapes (h : s.PassStep x y) (hy : s.Shapes y) : s.Shapes x := by
  intro n use c
  rcases h.convertStage_eq n use c with ⟨e, he⟩ | ⟨m, use', c', hc⟩
  · rw [he, he]
    exact .error e
  · rw [hc, hc]
    exact hy m use' c'

theorem shapes_of_leadsToObject {t : TypeExpr} {scope : Scope} (h : s.LeadsToObject t scope) :
    s.Shapes (.type t scope) := by
  obtain ⟨o, scope', hsteps, hi, hc⟩ := h
  generalize hx : Stage.type t scope = x at hsteps
  clear hx
  induction hsteps using ReflTransGen.head_induction_on with
  | refl => exact shapes_object hi hc
  | head hstep _ ih => exact hstep.shapes ih

end

/-- All positive depths are alike. An object type of properties and spreads, and a chain of references
and passing hatches that leads to one, is an object literal at depth zero if and only if it is the
shape of this literal at depth one; where it is not, there is one error at both depths. -/
theorem convert_depth (s : Setting) :
    (∀ node (c : Context) d, 1 ≤ d →
      (s.convertNode node (c.atDepth d)).result = (s.convertNode node (c.atDepth 1)).result ∧
      (s.convertFields node (c.atDepth d)).result = (s.convertFields node (c.atDepth 1)).result) ∧
    ∀ t (c : Context), s.LeadsToObject t c.scope →
      (∀ fields notes,
        (s.convertType t (c.atDepth 0)).result = .ok (.required (.object fields notes)) ↔
        (s.convertType t (c.atDepth 1)).result =
          .ok (.required (s.vocabulary.call "shape" (.object fields notes)))) ∧
      ((¬ ∃ fields notes,
          (s.convertType t (c.atDepth 0)).result = .ok (.required (.object fields notes))) →
        ∃ e, (s.convertType t (c.atDepth 0)).result = .error e ∧
          (s.convertType t (c.atDepth 1)).result = .error e) := by
  refine ⟨fun node c d hd => ?_, fun t c h => ?_⟩
  · -- The bound on references that is set at the start is the same at both depths.
    have hlevel := Context.level_atDepth hd c
    have hbound : s.referenceBound (c.atDepth d) = s.referenceBound (c.atDepth 1) := by
      have hnat : (-d).toNat = (-1 : Int).toNat := by omega
      exact congrArg (fun k => _ * (2 * (2 + k)) + 1) hnat
    have hnode := convertNode_agrees .refl Context.Level.congruence Eq.refl node hbound
      (fun t _ _ _ hc => s.convert_agrees_of_level _ t hc) hlevel
    exact ⟨hnode.eq, (convertFields_agrees hbound hlevel node).eq⟩
  · have hshape := shapes_of_leadsToObject h (s.referenceBound (c.atDepth 0)) ⟨t.loc, ""⟩ c
    change s.ShapeOf (s.convertType t (c.atDepth 0)).result (s.convertType t (c.atDepth 1)).result
      at hshape
    exact hshape.iff

def rowScope : Scope :=
  let id : Member TypeExpr :=
    .property ⟨⟨1, 21⟩, .ofString "id", "id", .primitive ⟨1, 25⟩ .number, false, false, .none⟩
  let right : TypeExpr := .reference ⟨1, 12⟩ [] "$Exact" [.object ⟨⟨1, 19⟩, [id], [], [], false, []⟩]
  ⟨[], [("Row", ⟨.typeAlias ⟨⟨1, 1⟩, "Row", [], right⟩, none⟩)], none⟩

theorem convert_depth_rowScope :
    let s : Setting := ⟨.default, .default, .ofTable .none [] .default⟩
    let c : Context := ⟨rowScope, 7, false, none, none⟩
    let row : TypeExpr := .reference ⟨2, 1⟩ [] "Row" []
    (1 : Int) ≤ 7 ∧ s.LeadsToObject row c.scope ∧
    ∃ fields notes,
      (s.convertType row (c.atDepth 0)).result = .ok (.required (.object fields notes)) ∧
      (s.convertType row (c.atDepth 1)).result =
        .ok (.required (s.vocabulary.call "shape" (.object fields notes))) ∧
      (s.convertNode (.type row) (c.atDepth 7)).result =
        .ok (.required (s.vocabulary.call "shape" (.object fields notes))) := by
  intro s c row
  have hleads : s.LeadsToObject row c.scope :=
    ⟨_, _, .head (.lookup rfl) (.head .typeAlias (.head (.exact rfl) .refl)), rfl, rfl⟩
  obtain ⟨hpositive, hzero⟩ := convert_depth s
  have hshape := ((hzero row c hleads).1 _ _).1 rfl
  refine ⟨by decide, hleads, _, _, rfl, hshape, ?_⟩
  exact (hpositive (.type row) c 7 (by decide)).1.trans hshape

end Setting

end PropTables
