import PropTables.Library.Holdings
import PropTables.Proofs.Rules

/-! The shape of tables. A conversion at depth zero may build an object literal in a wrong place, but
then its result is no object literal; at any other depth no literal stands in a wrong place. -/

namespace PropTables

namespace Validator

/-- Where in a table an expression stands. -/
inductive Site where
  | table
  | fieldValue
  | base
  | callee
  | argument (func : Validator) (args : List Validator)
  | item

inductive Occurs (table : Validator) : Site → Validator → Prop
  | table : Occurs table .table table
  | base (h : Occurs table p (.member e attr n)) : Occurs table .base e
  | callee (h : Occurs table p (.call func args n)) : Occurs table .callee func
  | argument (h : Occurs table p (.call func args n)) (ha : e ∈ args) :
    Occurs table (.argument func args) e
  | item (h : Occurs table p (.array items n)) (he : e ∈ items) : Occurs table .item e
  | field (h : Occurs table p (.object fields n)) (hf : f ∈ fields) :
    Occurs table .fieldValue f.value

theorem stripRequired_of_not_isRequired {e : Validator} (h : e.isRequired = false) :
    e.stripRequired = e := by
  cases e with
  | member => simp_all [isRequired, stripRequired]
  | _ => rfl

end Validator

inductive Slot where
  | unmarked
  | field

/-- The expressions that may stand in a table, by the validator library's vocabulary. `joined` says
of what a combination may be built. -/
inductive Vocabulary.Shaped (v : Vocabulary) (joined : List Validator → Prop) :
    Slot → Validator → Prop
  | constant : Shaped v joined .unmarked (.literal value raw .none)
  | undefined : Shaped v joined .unmarked .undefined
  | member (ha : attr ≠ Validator.requiredMark) : Shaped v joined .unmarked (v.member attr)
  | collection (ha : attr ∈ ["arrayOf", "objectOf"]) (h : Shaped v joined .unmarked e) :
    Shaped v joined .unmarked (v.call attr e)
  | shape (h : ∀ f ∈ fields, Shaped v joined .field f.value) :
    Shaped v joined .unmarked (v.call "shape" (.object fields notes))
  | instanceOf : Shaped v joined .unmarked (v.call "instanceOf" (.named name))
  | choice (ha : attr ∈ ["oneOf", "oneOfType"]) (h : ∀ e ∈ items, Shaped v joined .unmarked e) :
    Shaped v joined .unmarked (v.call attr (.array items .none))
  | combination (hj : joined args) (h : ∀ e ∈ args, Shaped v joined .unmarked e) :
    Shaped v joined .unmarked (v.allOf args)
  | plain (h : Shaped v joined .unmarked e) : Shaped v joined .field e
  | marked (h : Shaped v joined .unmarked e) : Shaped v joined .field e.require

namespace Vocabulary.Shaped

variable {v : Vocabulary} {joined : List Validator → Prop} {e : Validator}

theorem isRequired_eq_false (h : v.Shaped joined .unmarked e) : e.isRequired = false := by
  cases h with
  | member ha => simpa [Vocabulary.member, Validator.named, Validator.access, Validator.isRequired]
  | _ => rfl

theorem not_object (h : v.Shaped joined .unmarked e) {fields : List (Field Validator)}
    {notes : Notes} : e ≠ .object fields notes := by
  rintro rfl
  cases h

theorem stripRequired (h : v.Shaped joined .field e) :
    v.Shaped joined .field e.stripRequired := by
  cases h with
  | plain h =>
    rw [Validator.stripRequired_of_not_isRequired h.isRequired_eq_false]
    exact .plain h
  | marked h =>
    rw [Validator.stripRequired_require]
    exact .plain h

theorem primitive (p : Primitive) : v.Shaped joined .unmarked (v.primitive p) := by
  have single {e : Validator} (h : v.Shaped joined .unmarked e) :
      v.Shaped joined .unmarked (v.oneOf [e]) :=
    .choice (by simp) (by simpa)
  cases p with
  | null => exact single .constant
  | void => exact single .undefined
  | _ => exact .member (by decide)

theorem literal {t : TypeExpr} (h : t.literal? = some e) : v.Shaped joined .unmarked e := by
  unfold TypeExpr.literal? at h
  split at h <;> cases h
  case h_2 => exact .undefined
  all_goals exact .constant

end Vocabulary.Shaped

inductive Vocabulary.Fits (v : Vocabulary) (joined : List Validator → Prop) :
    Validator.Site → Validator → Prop
  | table (h : ∀ f ∈ fields, v.Shaped joined .field f.value) :
    Fits v joined .table (.object fields notes)
  | field (h : v.Shaped joined .field e) : Fits v joined .fieldValue e
  | unmarked (h : v.Shaped joined .unmarked e) : Fits v joined p e
  | name : Fits v joined p (.identifier name notes)
  | callee (ha : attr ≠ Validator.requiredMark) : Fits v joined .callee (v.member attr)
  | shape (h : ∀ f ∈ fields, v.Shaped joined .field f.value) :
    Fits v joined (.argument (v.member "shape") [.object fields notes]) (.object fields notes)
  | choice (h : ∀ e ∈ items, v.Shaped joined .unmarked e) : Fits v joined p (.array items .none)

namespace Vocabulary.Fits

open Validator (Site Occurs)

variable {v : Vocabulary} {joined : List Validator → Prop} {p : Site} {e : Validator}

theorem base {attr : String} {ns : Notes} (h : v.Fits joined p (.member e attr ns)) :
    v.Fits joined .base e := by
  cases h with
  | field h =>
    cases h with
    | plain h => cases h; exact .name
    | marked h => exact .unmarked h
  | unmarked h => cases h; exact .name
  | callee => exact .name

theorem shaped_call {func : Validator} {args : List Validator} {ns : Notes}
    (h : v.Fits joined p (.call func args ns)) : v.Shaped joined .unmarked (.call func args ns) := by
  cases h with
  | field h =>
    cases h with
    | plain h => exact h
  | unmarked h => exact h

theorem of_occurs {table : Validator} (ht : v.Fits joined .table table) (h : table.Occurs p e) :
    v.Fits joined p e := by
  induction h with
  | table => exact ht
  | base _ ih => exact ih.base
  | callee _ ih =>
    cases ih.shaped_call with
    | collection ha | choice ha =>
      exact .callee (by rintro rfl; exact absurd ha (by decide))
    | shape | instanceOf => exact .callee (by decide)
    | combination => exact .name
  | argument _ ha ih =>
    cases ih.shaped_call with
    | collection _ h => exact .unmarked (List.mem_singleton.1 ha ▸ h)
    | shape h => cases List.mem_singleton.1 ha; exact .shape h
    | instanceOf => cases List.mem_singleton.1 ha; exact .name
    | choice _ h => cases List.mem_singleton.1 ha; exact .choice h
    | combination _ h => exact .unmarked (h _ ha)
  | item _ he ih =>
    cases ih with
    | field h => cases h with | plain h => cases h
    | unmarked h => cases h
    | choice h => exact .unmarked (h _ he)
  | field _ hf ih =>
    cases ih with
    | table h | shape h => exact .field (h _ hf)
    | field h => cases h with | plain h => cases h
    | unmarked h => cases h

end Vocabulary.Fits

theorem Field.mem_surround {n : Notes} {fs : List (Field Validator)} {f : Field Validator}
    (h : f ∈ Field.surround n fs) : ∃ g ∈ fs, g.value = f.value := by
  match fs with
  | [] => simp [surround] at h
  | [g] =>
    rw [surround, List.mem_singleton] at h
    exact ⟨g, by simp, by rw [h]⟩
  | g :: g' :: gs =>
    simp only [surround, List.mem_cons, List.mem_append, Option.mem_toList, Option.map_eq_some_iff] at h
    rcases h with rfl | h | ⟨l, hl, rfl⟩
    · exact ⟨g, by simp, rfl⟩
    · exact ⟨f, List.mem_cons_of_mem _ (List.dropLast_subset _ h), rfl⟩
    · exact ⟨l, List.mem_cons_of_mem _ (List.mem_of_getLast? hl), rfl⟩

namespace Setting

inductive FieldRule (s : Setting) (n : Nat) (c : Context) (members : List (Member TypeExpr)) :
    Validator → Prop
  | plain (hp : .property p ∈ members) (h : s.Yields (.type n p.value c.fieldValue) w) :
    FieldRule s n c members w.expr
  | marked (hp : .property p ∈ members) (h : s.Yields (.type n p.value c.fieldValue) w) :
    FieldRule s n c members w.expr.require
  | kept (hp : .spread p ∈ members) (h : s.Yields (.type n p.argument c.spread) w)
    (he : w.expr = .object fields notes) (hf : f ∈ fields) : FieldRule s n c members f.value
  | stripped (hp : .spread p ∈ members) (h : s.Yields (.type n p.argument c.spread) w)
    (he : w.expr = .object fields notes) (hf : f ∈ fields) :
    FieldRule s n c members f.value.stripRequired

theorem fieldRule_of_mem {s : Setting} {n : Nat} {c : Context} {members : List (Member TypeExpr)}
    {groups : List (List (Field Validator))} {f : Field Validator}
    (hms : List.Forall₂ (s.MemberRule n c) members groups) (hf : f ∈ groups.flatten) :
    s.FieldRule n c members f.value := by
  obtain ⟨m, hm, group, hrule, hf⟩ := forall₂_mem_flatten hms hf
  cases hrule with
  | property hw =>
    cases List.mem_singleton.1 hf
    dsimp only
    split
    · exact .marked hm hw
    · exact .plain hm hw
  | spread hw he =>
    obtain ⟨g, hg, hvalue⟩ := Field.mem_surround hf
    rw [← hvalue]
    split at hg
    · exact .kept hm hw he hg
    · obtain ⟨f', hf', rfl⟩ := List.mem_map.1 hg
      exact .stripped hm hw he hf'

def Joined (s : Setting) (x : Call) (args : List Validator) : Prop :=
  ∃ n loc types c, s.Reaches x (.type n (.intersection loc types) c) ∧ c.depth ≠ 0 ∧
    List.Forall₂ (s.Expresses n c.nested) types args

inductive TableCall (s : Setting) (x : Call) : Validator → List Validator → Prop
  | collection (ha : attr ∈ ["arrayOf", "objectOf"]) : TableCall s x (s.vocabulary.member attr) [e]
  | shape : TableCall s x (s.vocabulary.member "shape") [.object fields notes]
  | instanceOf : TableCall s x (s.vocabulary.member "instanceOf") [.identifier name notes]
  | choice (ha : attr ∈ ["oneOf", "oneOfType"]) :
    TableCall s x (s.vocabulary.member attr) [.array items notes]
  | combination (hj : s.Joined x args) : TableCall s x (.named s.vocabulary.allName) args

section

variable {s : Setting} {x y : Call} {n : Nat} {c : Context} {depth : Int} {v : Converted}

theorem Step.depth_nonneg (h : s.Step x y) (hx : 0 ≤ x.context.depth) : 0 ≤ y.context.depth := by
  cases h with
  | part h =>
    cases h with
    | property | indexer => exact Int.le_add_one hx
    | spread => exact le_rfl
    | _ => exact hx
  | _ => exact hx

structure Sound (s : Setting) (x : Call) (depth : Int) (e : Validator) : Prop where
  below (hd : depth ≠ 0) : s.vocabulary.Shaped (s.Joined x) .unmarked e
  fields {fields : List (Field Validator)} {notes : Notes} (he : e = .object fields notes)
    {f : Field Validator} (hf : f ∈ fields) : s.vocabulary.Shaped (s.Joined x) .field f.value

theorem Sound.of_shaped {e : Validator} (h : s.vocabulary.Shaped (s.Joined x) .unmarked e) :
    s.Sound x depth e :=
  ⟨fun _ => h, fun he => (h.not_object he).elim⟩

theorem Sound.of_call {func : Validator} {args : List Validator} {ns : Notes}
    (h : depth ≠ 0 → s.vocabulary.Shaped (s.Joined x) .unmarked (.call func args ns)) :
    s.Sound x depth (.call func args ns) :=
  ⟨h, nofun⟩

theorem FieldRule.shaped {members : List (Member TypeExpr)} {e : Validator} (hc : 0 ≤ c.depth)
    (h : s.FieldRule n c members e)
    (property : ∀ p, .property p ∈ members → ∀ w, s.Yields (.type n p.value c.fieldValue) w →
      s.Sound x c.fieldValue.depth w.expr)
    (spread : ∀ p, .spread p ∈ members → ∀ w, s.Yields (.type n p.argument c.spread) w →
      s.Sound x c.spread.depth w.expr) :
    s.vocabulary.Shaped (s.Joined x) .field e := by
  have hd : c.fieldValue.depth ≠ 0 := (Int.lt_add_one_of_le hc).ne'
  cases h with
  | plain hp hw => exact .plain ((property _ hp _ hw).below hd)
  | marked hp hw => exact .marked ((property _ hp _ hw).below hd)
  | kept hp hw he hf => exact (spread _ hp _ hw).fields he hf
  | stripped hp hw he hf => exact ((spread _ hp _ hw).fields he hf).stripRequired

theorem Reaches.depth_nonneg (h : s.Reaches x y) (hx : 0 ≤ x.context.depth) :
    0 ≤ y.context.depth := by
  induction h with
  | refl => exact hx
  | tail _ hstep ih => exact hstep.depth_nonneg ih

theorem sound_of_reaches (hx : 0 ≤ x.context.depth) (hr : s.Reaches x y) (hv : s.Yields y v) :
    s.Sound x y.context.depth v.expr := by
  induction y using call_induction (s := s) generalizing v with
  | step y ih =>
    have hc := hr.depth_nonneg hx
    -- A step from `y` is reached from `x` as well, so its depth cannot be negative.
    replace ih {z w} (h : s.Step y z) (hw : s.Yields z w) : s.Sound x z.context.depth w.expr :=
      ih z h (hr.tail h) hw
    cases rule_of_yields hv with
    | primitive => exact .of_shaped (.primitive _)
    | number | boolean | string =>
      exact .of_shaped (.choice (by simp) fun e he => List.mem_singleton.1 he ▸ .constant)
    | function | tuple | unboundFunction | unboundObject => exact .of_shaped (.member (by decide))
    | maybe _ _ hw => exact ⟨(ih (.part .nullable) hw).below, (ih (.part .nullable) hw).fields⟩
    | nullable _ _ hw =>
      refine .of_call fun hd => .choice (by simp) fun e he => ?_
      simp only [List.mem_cons, List.not_mem_nil, or_false] at he
      rcases he with rfl | rfl | rfl
      · exact .constant
      · exact .undefined
      · exact (ih (.part .nullable) hw).below hd
    | array hw =>
      exact .of_call fun hd => .collection (by simp) ((ih (.part .array) hw).below hd)
    | arrayOf hg hw =>
      exact .of_call fun hd => .collection (by simp) ((ih (.part (.arrayOf hg)) hw).below hd)
    | indexer hw =>
      have hs := ih (.part .indexer) hw
      exact .of_call fun _ => .collection (by simp) (hs.below (Int.lt_add_one_of_le hc).ne')
    | exact hg hw =>
      have hs := ih (.part (.exact hg)) hw
      exact hs
    | checkedBy hg hw =>
      have hs := ih (.part (.checkedBy hg)) hw
      exact hs
    | hasDefault hg hf hw =>
      have hs := ih (.part (.hasDefault hg hf)) hw
      exact hs
    | literals hl =>
      refine .of_shaped (.choice (by simp) fun e he => ?_)
      obtain ⟨t, _, ht⟩ := forall₂_mem_right (forall₂_of_mapM_eq_some hl) he
      exact .literal ht
    | union hl hvs =>
      refine .of_call fun hd => .choice (by simp) fun e he => ?_
      obtain ⟨t, ht, w, hw, rfl⟩ := forall₂_mem_right hvs he
      exact (ih (.part (.union hl ht)) hw).below hd
    | intersection hd hvs =>
      refine .of_call fun hd => .combination ⟨_, _, _, _, hr, hd, hvs⟩ fun e he => ?_
      obtain ⟨t, ht, w, hw, rfl⟩ := forall₂_mem_right hvs he
      exact (ih (.part (.intersection ht)) hw).below hd
    | merged hd hvs =>
      refine ⟨fun h => (h hd).elim, fun he f hf => ?_⟩
      cases he
      obtain ⟨t, ht, group, ⟨notes, w, hw, he⟩, hf⟩ := forall₂_mem_flatten hvs hf
      exact (ih (.part (.intersection ht)) hw).fields he hf
    | table hd hms =>
      refine ⟨fun h => (h hd).elim, fun he f hf => ?_⟩
      cases he
      refine (fieldRule_of_mem hms hf).shaped hc (fun p hp w hw => ?_) (fun p hp w hw => ?_)
      · exact ih (.part (.property hp)) hw
      · exact ih (.part (.spread hp)) hw
    | shape hd hms =>
      refine .of_call fun _ => .shape fun f hf => ?_
      refine (fieldRule_of_mem hms hf).shaped hc (fun p hp w hw => ?_) (fun p hp w hw => ?_)
      · exact ih (.part (.property hp)) hw
      · exact ih (.part (.spread hp)) hw
    | bound hb hw =>
      have hs := ih (.lookup hb) hw
      exact hs
    | typeAlias hw =>
      have hs := ih .typeAlias hw
      exact hs
    | interface hw =>
      have hs := ih .interface hw
      exact hs
    | import_ hi hw =>
      have hs := ih (.import_ hi) hw
      exact hs
    | replacedClass | ownClass => exact .of_shaped .instanceOf

theorem fits_of_convertTable {t : TypeExpr} {scope : Scope} {origin : Option String}
    {table : Validator} (h : (s.convertTable t scope origin).result = .ok table) :
    s.vocabulary.Fits (s.Joined (s.tableCall t scope origin)) .table table := by
  obtain ⟨v, fields, notes, hv, he, rfl⟩ := convertTable_eq_ok h
  have hs := sound_of_reaches (x := s.tableCall t scope origin) le_rfl .refl hv
  exact .table fun f hf => hs.fields he hf

theorem tableCall_of_shaped {func : Validator} {args : List Validator} {ns : Notes}
    (h : s.vocabulary.Shaped (s.Joined x) .unmarked (.call func args ns)) :
    s.TableCall x func args := by
  cases h with
  | collection ha => exact .collection ha
  | shape => exact .shape
  | instanceOf => exact .instanceOf
  | choice ha => exact .choice ha
  | combination hj => exact .combination hj

end

/-- Everywhere in a table, a mark is the outermost node of a field's value and marks nothing that is
marked; an object literal is the table itself or what `shape` is called with; and a call is one of
the vocabulary's. -/
theorem convertTable_shape (s : Setting) (t : TypeExpr) (scope : Scope) (origin : Option String)
    {table e : Validator} {p : Validator.Site}
    (h : (s.convertTable t scope origin).result = .ok table) (he : table.Occurs p e) :
    (∀ inner ns, e = .member inner Validator.requiredMark ns →
      p = .fieldValue ∧ inner.isRequired = false) ∧
    (∀ fields ns, e = .object fields ns →
      p = .table ∨ p = .argument (s.vocabulary.member "shape") [e]) ∧
    (∀ func args ns, e = .call func args ns →
      s.TableCall (s.tableCall t scope origin) func args) := by
  have hf := (fits_of_convertTable h).of_occurs he
  refine ⟨?_, ?_, ?_⟩
  · rintro inner ns rfl
    cases hf with
    | field h =>
      cases h with
      | plain h => cases h; contradiction
      | marked h => exact ⟨rfl, h.isRequired_eq_false⟩
    | unmarked h => cases h; contradiction
    | callee ha => contradiction
  · rintro fields ns rfl
    cases hf with
    | table => exact .inl rfl
    | field h =>
      cases h with
      | plain h => exact (h.not_object rfl).elim
    | unmarked h => exact (h.not_object rfl).elim
    | shape => exact .inr rfl
  · rintro func args ns rfl
    exact tableCall_of_shaped hf.shaped_call

def rowType : TypeExpr :=
  let property (name : String) (value : TypeExpr) : Member TypeExpr :=
    .property ⟨⟨1, 2⟩, .ofString name, name, value, false, false, .none⟩
  let object (members : List (Member TypeExpr)) : TypeExpr :=
    .object ⟨⟨1, 1⟩, members, [], [], false, []⟩
  object
    [.spread ⟨⟨1, 2⟩, object [property "size" (.primitive ⟨1, 9⟩ .number)], .none⟩,
      property "row" (.intersection ⟨1, 7⟩
        [object [property "id" (.primitive ⟨1, 3⟩ .number)], .tuple ⟨1, 5⟩ []])]

theorem convertTable_shape_rowType :
    ∃ table value, (Setting.convertTable ⟨.default, .default, .ofTable .none [] .default⟩
        rowType .empty none).result = .ok table ∧
      table.Occurs .fieldValue value ∧ value.isRequired = true ∧
      (∀ inner ns, value = .member inner Validator.requiredMark ns → inner.isRequired = false) := by
  refine ⟨.object [_, ⟨"row", _, _, _⟩] _, _, rfl,
    .field .table (List.mem_cons_of_mem _ List.mem_cons_self), rfl, fun inner ns h => ?_⟩
  exact ((convertTable_shape ⟨.default, .default, .ofTable .none [] .default⟩ rowType .empty none rfl
    (.field .table (List.mem_cons_of_mem _ List.mem_cons_self))).1 inner ns h).2

end Setting

end PropTables
