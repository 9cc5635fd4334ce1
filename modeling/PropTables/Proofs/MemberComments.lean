import PropTables.Proofs.Flattening

/-! Comments of the members of an object type. A spread has no field of its own, so its comments go to
the first and the last field that it makes; where it makes none, they have no place. -/

namespace PropTables

open Relation

/-- Members of an object type with their comments, and those of a spread with the members that it
brings in. -/
inductive Outline where
  | nil
  | property (notes : Notes) (rest : Outline)
  | spread (notes : Notes) (inner rest : Outline)

namespace Outline

def comments : Outline → List String
  | nil => []
  | property n rest => n.leading ++ n.trailing ++ rest.comments
  | spread n inner rest => n.leading ++ inner.comments ++ n.trailing ++ rest.comments

def properties : Outline → Nat
  | nil => 0
  | property _ rest => rest.properties + 1
  | spread _ inner rest => inner.properties + rest.properties

/-- The comments without those of spreads that bring in no property. -/
def placed : Outline → List String
  | nil => []
  | property n rest => n.leading ++ n.trailing ++ rest.placed
  | spread n inner rest =>
    (if inner.properties = 0 then [] else n.leading ++ inner.placed ++ n.trailing) ++ rest.placed

end Outline

namespace Field

def comments (f : Field Validator) : List String :=
  f.notes.leading ++ f.notes.trailing

theorem comments_unmarked (exact : Bool) (fields : List (Field Validator)) :
    (if exact then fields else fields.map stripRequired).flatMap comments = fields.flatMap comments := by
  cases exact with
  | true => rfl
  | false => exact List.flatMap_map ..

theorem length_unmarked (exact : Bool) (fields : List (Field Validator)) :
    (if exact then fields else fields.map stripRequired).length = fields.length := by
  cases exact with
  | true => rfl
  | false => exact List.length_map _

theorem length_surround (n : Notes) (fields : List (Field Validator)) :
    (surround n fields).length = fields.length :=
  (sameEntry_surround n fields).length_eq.symm

theorem comments_surround (n : Notes) (fields : List (Field Validator)) :
    (surround n fields).flatMap comments =
      if fields.length = 0 then [] else n.leading ++ fields.flatMap comments ++ n.trailing := by
  match fields with
  | [] => rfl
  | [f] => simp [surround, comments, Notes.before, Notes.after]
  | f :: g :: fs =>
    obtain ⟨init, last, hsplit⟩ : ∃ init last, g :: fs = init ++ [last] :=
      ⟨_, _, (List.dropLast_append_getLast (List.cons_ne_nil g fs)).symm⟩
    simp only [surround, hsplit, List.dropLast_concat, List.getLast?_concat]
    simp [comments, Notes.before, Notes.after]

end Field

namespace Setting

inductive Outlines (s : Setting) : List (Member TypeExpr) → Scope → Outline → Prop
  | nil : Outlines s [] scope .nil
  | property (h : Outlines s ms scope rest) :
    Outlines s (.property p :: ms) scope (.property p.notes rest)
  | spread (hsteps : ReflTransGen s.PassStep (.type p.argument scope) (.type (.object o) scope'))
      (hi : o.indexers = []) (hcalls : o.calls = []) (ho : Outlines s o.members scope' spreads)
      (h : Outlines s ms scope rest) :
    Outlines s (.spread p :: ms) scope (.spread p.notes spreads rest)

section

variable {s : Setting} {n : ℕ} {c : Context} {x y : Stage} {use : Use} {v : Converted}

theorem convertStage_of_passSteps {d : Int} (h : ReflTransGen s.PassStep x y)
    (hx : (s.convertStage n use x c d).result = .ok v) :
    ∃ m use' c', (s.convertStage m use' y c' d).result = .ok v := by
  induction h using ReflTransGen.head_induction_on generalizing n use c with
  | refl => exact ⟨n, use, c, hx⟩
  | head hstep _ ih =>
    rcases hstep.convertStage_eq n use c with ⟨e, he⟩ | ⟨m, use', c', hc⟩
    · rw [he] at hx
      cases hx
    · exact ih ((hc d).symm.trans hx)

/-- At depth zero a name that leads to an object type gives the fields of its members. -/
theorem Yields.members {t : TypeExpr} {o : ObjectType TypeExpr} {scope : Scope}
    (h : s.Yields (.type n t c) v) (hdepth : c.depth = 0)
    (hsteps : ReflTransGen s.PassStep (.type t c.scope) (.type (.object o) scope))
    (hi : o.indexers = []) (hcalls : o.calls = []) :
    ∃ m c' groups, c'.scope = scope ∧ List.Forall₂ (s.MemberRule m c') o.members groups ∧
      v.expr = .object groups.flatten ⟨o.leading, []⟩ := by
  have hstage : (s.convertStage n ⟨t.loc, ""⟩ (.type t c.scope) c c.depth).result = .ok v := h
  rw [hdepth] at hstage
  obtain ⟨m, use', c', hend⟩ := convertStage_of_passSteps hsteps hstage
  obtain ⟨loc, members, indexers, calls, ex, leading⟩ := o
  cases hi
  cases hcalls
  have hyields : s.Yields (.type m (.object ⟨loc, members, [], [], ex, leading⟩)
      (Context.atDepth 0 { c' with scope })) v := hend
  cases rule_of_yields hyields with
  | table _ hgroups => exact ⟨m, _, _, rfl, hgroups, rfl⟩
  | shape hd => exact absurd rfl hd

theorem Outlines.fields {ms : List (Member TypeExpr)} {scope : Scope} {outline : Outline}
    {groups : List (List (Field Validator))} (h : s.Outlines ms scope outline)
    (hgroups : List.Forall₂ (s.MemberRule n c) ms groups) (hscope : c.scope = scope) :
    groups.flatten.flatMap Field.comments = outline.placed ∧
      groups.flatten.length = outline.properties := by
  induction h generalizing n c groups with
  | nil =>
    cases hgroups
    exact ⟨rfl, rfl⟩
  | property _ ih =>
    cases hgroups with
    | cons hfields hgroups =>
      obtain ⟨hcomments, hlength⟩ := ih hgroups hscope
      cases hfields with
      | property _ =>
        simp only [List.flatten_cons, List.flatMap_append, List.length_append, hcomments, hlength]
        exact ⟨by simp [Outline.placed, Field.comments], Nat.add_comm ..⟩
  | @spread scope o scope' inner ms rest p hsteps hi hcalls _ _ ihinner ih =>
    cases hgroups with
    | cons hfields hgroups =>
      obtain ⟨hcomments, hlength⟩ := ih hgroups hscope
      cases hfields with
      | @spread w fields notes _ hw hexpr =>
        obtain ⟨m, c', groups', hscope', hgroups', hobject⟩ := hw.members rfl (hscope ▸ hsteps) hi hcalls
        obtain ⟨hinner, hcount⟩ := ihinner hgroups' hscope'
        obtain ⟨rfl, -⟩ : fields = groups'.flatten ∧ notes = ⟨o.leading, []⟩ := by
          simpa using hexpr.symm.trans hobject
        simp only [List.flatten_cons, List.flatMap_append, List.length_append, Field.comments_surround,
          Field.length_surround, Field.comments_unmarked, Field.length_unmarked, hinner, hcount,
          hcomments, hlength, Outline.placed, Outline.properties, and_self]

end

/-- No member's comment is lost, repeated or moved: the fields of an object type that is converted at
depth zero have the comments of its members in their order, except for those of a spread that makes no
field. -/
theorem comments_of_members (s : Setting) (o : ObjectType TypeExpr) (c : Context) (outline : Outline)
    (v : Converted) (hi : o.indexers = []) (hcalls : o.calls = [])
    (houtline : s.Outlines o.members c.scope outline) (hdepth : c.depth = 0)
    (h : (s.convertType (.object o) c).result = .ok v) :
    ∃ fields notes, v.expr = .object fields notes ∧
      fields.flatMap Field.comments = outline.placed := by
  have hyields : s.Yields (.type (s.referenceBound c) (.object o) c) v := h
  obtain ⟨m, c', groups, hscope, hgroups, hexpr⟩ := hyields.members hdepth .refl hi hcalls
  exact ⟨_, _, hexpr, (houtline.fields hgroups hscope).1⟩

def commentedScope : Scope :=
  let id : Member TypeExpr :=
    .property ⟨⟨2, 24⟩, .ofString "id", "id", .primitive ⟨2, 28⟩ .number, false, false,
      ⟨["/* one */"], ["/* two */"]⟩⟩
  ⟨[], [("Empty", ⟨.typeAlias ⟨⟨1, 1⟩, "Empty", [], .object ⟨⟨1, 14⟩, [], [], [], false, []⟩⟩, none⟩),
    ("Base", ⟨.typeAlias ⟨⟨2, 1⟩, "Base", [], .object ⟨⟨2, 13⟩, [id], [], [], false, []⟩⟩, none⟩)], none⟩

theorem comments_of_nested_spreads :
    let s : Setting := ⟨.default, .default, .ofTable .none [] .default⟩
    let c : Context := ⟨commentedScope, 0, false, none, none⟩
    let base : Member TypeExpr :=
      .spread ⟨⟨3, 30⟩, .reference ⟨3, 33⟩ [] "Base" [], ⟨["/* four */"], []⟩⟩
    let inner : ObjectType TypeExpr := ⟨⟨3, 17⟩, [base], [], [], false, []⟩
    let o : ObjectType TypeExpr :=
      ⟨⟨3, 1⟩, [.spread ⟨⟨3, 14⟩, .object inner, ⟨["/* three */"], ["/* five */"]⟩⟩], [], [], false, []⟩
    ∃ outline v, s.Outlines o.members c.scope outline ∧ c.depth = 0 ∧
      (s.convertType (.object o) c).result = .ok v ∧
      ∃ fields notes, v.expr = .object fields notes ∧
        fields.flatMap Field.comments = outline.placed ∧
        outline.placed = ["/* three */", "/* four */", "/* one */", "/* two */", "/* five */"] := by
  intro s c base inner o
  let id : Notes := ⟨["/* one */"], ["/* two */"]⟩
  let outline : Outline :=
    .spread ⟨["/* three */"], ["/* five */"]⟩ (.spread ⟨["/* four */"], []⟩ (.property id .nil) .nil) .nil
  have houtline : s.Outlines o.members c.scope outline :=
    .spread .refl rfl rfl
      (.spread (.head (.lookup rfl) (.single .typeAlias)) rfl rfl (.property .nil) .nil) .nil
  have hrun : ∃ v, (s.convertType (.object o) c).result = .ok v := ⟨_, rfl⟩
  obtain ⟨v, hrun⟩ := hrun
  obtain ⟨fields, notes, hexpr, hcomments⟩ :=
    comments_of_members s o c outline v rfl rfl houtline rfl hrun
  exact ⟨outline, v, houtline, rfl, hrun, fields, notes, hexpr, hcomments, rfl⟩

/-- The type `{a: number, /* none */ ...Empty}`, whose comment is lost. -/
theorem comment_of_empty_spread_lost :
    let s : Setting := ⟨.default, .default, .ofTable .none [] .default⟩
    let c : Context := ⟨commentedScope, 0, false, none, none⟩
    let a : Member TypeExpr :=
      .property ⟨⟨3, 2⟩, .ofString "a", "a", .primitive ⟨3, 5⟩ .number, false, false, .none⟩
    let empty : Member TypeExpr :=
      .spread ⟨⟨4, 12⟩, .reference ⟨4, 15⟩ [] "Empty" [], ⟨["/* none */"], []⟩⟩
    let o : ObjectType TypeExpr := ⟨⟨3, 1⟩, [a, empty], [], [], false, []⟩
    ∃ outline fields notes, s.Outlines o.members c.scope outline ∧
      (s.convertType (.object o) c).result = .ok (.required (.object fields notes)) ∧
      fields.flatMap Field.comments ≠ outline.comments := by
  intro s c a empty o
  have houtline : s.Outlines o.members c.scope
      (.property .none (.spread ⟨["/* none */"], []⟩ .nil .nil)) :=
    .property (.spread (.head (.lookup rfl) (.single .typeAlias)) rfl rfl .nil .nil)
  exact ⟨_, _, _, houtline, rfl, by decide⟩

end Setting

end PropTables
