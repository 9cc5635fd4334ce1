import PropTables.Proofs.Flattening
import PropTables.Proofs.LegibleTexts
import PropTables.Proofs.SpelledSources
import PropTables.Proofs.TableNames

/-! Tables of types that can be written can be read back. Everything that a conversion of such a type
meets can be written too, and each rule makes an expression that is told from its words out of such
expressions. -/

namespace PropTables

open Spelling

namespace Field

theorem Keyed.of_sameEntry {f g : Field Validator} (hf : f.Keyed) (h : f.SameEntry g) : g.Keyed where
  quoted hq := h.key ▸ hf.quoted (h.quoted.trans hq)
  bare hq := h.key ▸ hf.bare (h.quoted.trans hq)

end Field

namespace Validator

variable {names : CharacterNames} {v : Validator}

theorem Legible.withNotes (h : v.Legible names) (n : Notes) : (v.withNotes n).Legible names := by
  cases h with
  | identifier h => exact .identifier h
  | member h ha => exact .member h ha
  | call hf ha => exact .call hf ha
  | array hi hn => exact .array hi hn
  | object hk hv => exact .object hk hv

theorem Legible.require (h : v.Legible names) : v.require.Legible names :=
  .member h (isName_of_isToken (by decide))

theorem Legible.stripRequired (h : v.Legible names) : v.stripRequired.Legible names := by
  cases h with
  | member h ha =>
    rw [Validator.stripRequired]
    split
    · split
      · exact h
      · exact h.withNotes _
    · exact .member h ha
  | identifier h => exact .identifier h
  | call hf ha => exact .call hf ha
  | array hi hn => exact .array hi hn
  | object hk hv => exact .object hk hv

variable (names : CharacterNames) in
inductive Listed : Validator → Prop
  | constant (h : Constant.WrittenAs names c raw) : Listed (.literal c (some raw) ns)
  | undefined : Listed (.identifier "undefined" ns)
  | expr (h : Legible names e) (hn : ¬ e.IsName) : Listed e

theorem Legible.list {items : List Validator} {ns : Notes} (h : ∀ v ∈ items, v.Listed names) :
    (Validator.array items ns).Legible names := by
  refine .array (fun v hv hc => ?_) fun name ns' hv => ?_
  · cases h v hv with
    | constant h => exact (hc ⟨_, _, _, rfl, h⟩).elim
    | undefined => exact .identifier (isName_of_isToken (by decide))
    | expr h => exact h
  · cases h _ hv with
    | undefined => rfl
    | expr _ hn => exact (hn ⟨_, _, rfl⟩).elim

theorem Legible.groups {groups : List (List (Field Validator))} {ns : Notes}
    (h : ∀ group ∈ groups, ∀ f ∈ group, f.Keyed ∧ f.value.Legible names) :
    (Validator.object groups.flatten ns).Legible names := by
  have fields (f) (hf : f ∈ groups.flatten) : f.Keyed ∧ f.value.Legible names := by
    obtain ⟨group, hgroup, hf⟩ := List.mem_flatten.1 hf
    exact h group hgroup f hf
  exact .object (fun f hf => (fields f hf).1) fun f hf => (fields f hf).2

end Validator

open Validator

structure Vocabulary.Spelled (v : Vocabulary) : Prop where
  namespaceName : IsName v.namespaceName
  allName : IsName v.allName

namespace Vocabulary.Spelled

variable {names : CharacterNames} {v : Vocabulary} (h : v.Spelled) {attr : String} {e : Validator}
  {values : List Validator}

include h

theorem member (ha : IsToken .name attr) : (v.member attr).Legible names :=
  .member (.identifier h.namespaceName) (isName_of_isToken ha)

theorem call (ha : IsToken .name attr) (he : e.Legible names) : (v.call attr e).Legible names :=
  .call (h.member ha) (List.forall_mem_singleton.2 he)

theorem oneOf (hvs : ∀ e ∈ values, e.Listed names) : (v.oneOf values).Legible names :=
  h.call (by decide) (.list hvs)

theorem oneOfType (hvs : ∀ e ∈ values, e.Listed names) : (v.oneOfType values).Legible names :=
  h.call (by decide) (.list hvs)

theorem allOf (hvs : ∀ e ∈ values, e.Legible names) : (v.allOf values).Legible names :=
  .call (.identifier h.allName) hvs

theorem primitive (p : Primitive) : (v.primitive p).Legible names := by
  cases p with
  | null => exact h.oneOf (List.forall_mem_singleton.2 (.constant .null))
  | void => exact h.oneOf (List.forall_mem_singleton.2 .undefined)
  | _ => exact h.member (by decide)

end Vocabulary.Spelled

theorem TypeExpr.Spelled.listed {names : CharacterNames} {t : TypeExpr} {e : Validator}
    (h : t.Spelled names) (he : t.literal? = some e) : e.Listed names := by
  cases h with
  | @primitive _ p => cases p <;> cases he <;> first | exact .constant .null | exact .undefined
  | boolean =>
    cases he
    exact .constant .boolean
  | number h hv =>
    cases he
    exact .constant (.number h hv)
  | string h hv =>
    cases he
    exact .constant (.text h hv)
  | _ => cases he

def Scope.Spelled (names : CharacterNames) (s : Scope) : Prop :=
  ∀ f ∈ s.frames, ∀ e ∈ f, e.2.referent.Spelled names

namespace Scope

theorem Spelled.lookup {s : Scope} {name : String} {b : Binding} (h : s.Spelled names)
    (hb : s.lookup name = some b) : b.referent.Spelled names := by
  obtain ⟨f, hf, he⟩ := Scope.mem_of_lookup hb
  exact h f hf _ he

theorem Spelled.ofModule {m : Module} (h : m.Spelled names) : (Scope.ofModule m).Spelled names := by
  intro f hf e he
  cases List.mem_singleton.1 hf
  exact h.referent he

theorem Spelled.withParams {s : Scope} (h : s.Spelled names) (params : List TypeParameter) :
    (s.root.withParams params).Spelled names := by
  intro f hf e he
  rcases List.mem_append.1 hf with hf | hf
  · obtain ⟨p, rfl⟩ := Scope.mem_withParams hf he
    trivial
  · refine h f (List.mem_append_right _ ?_) e he
    have hbase : (s.root.withParams params).base = s.base := by
      unfold Scope.withParams
      split <;> rfl
    rwa [hbase] at hf

end Scope

structure Context.Spelled (names : CharacterNames) (c : Context) : Prop where
  scope : c.scope.Spelled names
  replacement : ∀ n ∈ c.replacement, IsName n

def Call.Spelled (names : CharacterNames) : Call → Prop
  | .type _ t c => t.Spelled names ∧ c.Spelled names
  | .binding _ b _ c => b.referent.Spelled names ∧ c.Spelled names

def Library.Spelled (names : CharacterNames) (l : Library) : Prop :=
  ∀ m, l.Offers m → m.Spelled names

theorem Context.Spelled.body {c : Context} (h : c.Spelled names) (params : List TypeParameter) :
    (c.body params).Spelled names :=
  ⟨h.scope.withParams params, nofun⟩

section Calls

variable {names : CharacterNames} {s : Setting} {x y : Call} {n : Nat} {c c' : Context}
  {t t' : TypeExpr}

theorem Setting.Part.spelled (h : s.Part c t t' c') (hc : c.Spelled names) : c'.Spelled names := by
  cases h with
  | exact | checkedBy | hasDefault => exact hc
  | _ => exact ⟨hc.scope, nofun⟩

theorem Call.Spelled.step (hf : s.library.Faithful) (hl : s.library.Spelled names)
    (hx : x.Spelled names) (h : s.Step x y) : y.Spelled names := by
  cases h with
  | part hp => exact ⟨hx.1.child hp.child, hp.spelled hx.2⟩
  | lookup hb => exact ⟨hx.2.scope.lookup hb, hx.2⟩
  | typeAlias => exact ⟨hx.1, hx.2.body _⟩
  | interface => exact ⟨hx.1, hx.2.body _⟩
  | @import_ i file r n use c hr =>
    obtain ⟨m, name, hoffers, hscope, hmem⟩ := Library.resolveImport_eq_ok hf hr
    have hm := hl m hoffers
    rw [hscope] at hmem
    refine ⟨hm.referent hmem, ?_, fun n hn => ?_⟩
    · simp only [Context.through, hscope]
      exact .ofModule hm
    · simp only [Context.through] at hn
      split at hn
      · cases hn
        exact hx.1
      · exact hx.2.replacement n hn

end Calls

namespace Setting

variable {names : CharacterNames} {s : Setting} {x : Call} {v : Converted} {n : Nat} {c : Context}

theorem MemberRule.legible {m : Member TypeExpr} {fields : List (Field Validator)}
    (h : s.MemberRule n c m fields) (hm : m.Spelled names)
    (property : ∀ p, m = .property p → ∀ w, s.Yields (.type n p.value c.fieldValue) w →
      w.expr.Legible names)
    (spread : ∀ p, m = .spread p → ∀ w, s.Yields (.type n p.argument c.spread) w →
      w.expr.Legible names) :
    ∀ f ∈ fields, f.Keyed ∧ f.value.Legible names := by
  cases h with
  | @property _ p hw =>
    have hvalue := property p rfl _ hw
    refine List.forall_mem_singleton.2 ⟨⟨fun hq => (hm.quoted hq).1, fun hq => (hm.bare hq).1⟩, ?_⟩
    dsimp only
    split
    · exact hvalue.require
    · exact hvalue
  | @spread _ _ _ p hw he =>
    have hobject := spread p rfl _ hw
    rw [he] at hobject
    cases hobject with
    | object hk hv =>
      intro f hf
      obtain ⟨g, hg, hfg⟩ := forall₂_mem_right (Field.sameEntry_surround _ _) hf
      rw [← hfg.value]
      split at hg
      · exact ⟨(hk g hg).of_sameEntry hfg, hv g hg⟩
      · obtain ⟨g', hg', rfl⟩ := List.mem_map.1 hg
        have hkeyed : g'.stripRequired.Keyed := ⟨(hk g' hg').quoted, (hk g' hg').bare⟩
        exact ⟨hkeyed.of_sameEntry hfg, (hv g' hg').stripRequired⟩

theorem MemberRule.legible_object {members : List (Member TypeExpr)}
    {groups : List (List (Field Validator))} {notes : Notes}
    (hms : List.Forall₂ (s.MemberRule n c) members groups) (hm : ∀ m ∈ members, m.Spelled names)
    (property : ∀ p, .property p ∈ members → ∀ w, s.Yields (.type n p.value c.fieldValue) w →
      w.expr.Legible names)
    (spread : ∀ p, .spread p ∈ members → ∀ w, s.Yields (.type n p.argument c.spread) w →
      w.expr.Legible names) :
    (Validator.object groups.flatten notes).Legible names := by
  refine .groups fun group hgroup => ?_
  obtain ⟨m, hmem, hrule⟩ := forall₂_mem_right hms hgroup
  refine hrule.legible (hm m hmem) (fun p hp w hw => ?_) (fun p hp w hw => ?_)
  · exact property p (hp ▸ hmem) w hw
  · exact spread p (hp ▸ hmem) w hw

section Legibility

variable (hv : s.vocabulary.Spelled) (hf : s.library.Faithful) (hl : s.library.Spelled names)

include hv hf hl in
/-- A result is legible if the results of its parts are, and it is never a name. -/
theorem legible_of_yields (hx : x.Spelled names) (h : s.Yields x v) :
    v.expr.Legible names ∧ ¬ v.expr.IsName := by
  refine ⟨?_, (namesOnly_of_reaches .refl h).notName⟩
  induction x using call_induction (s := s) generalizing v with
  | step x ih =>
    replace ih {z w} (hstep : s.Step x z) (hw : s.Yields z w) : w.expr.Legible names :=
      ih z hstep (hx.step hf hl hstep) hw
    have listed {z w} (hstep : s.Step x z) (hw : s.Yields z w) : w.expr.Listed names :=
      .expr (ih hstep hw) (namesOnly_of_reaches .refl hw).notName
    cases rule_of_yields h with
    | @primitive _ p => exact hv.primitive p
    | number | boolean | string => exact hv.oneOf (List.forall_mem_singleton.2 (hx.1.listed rfl))
    | function | tuple | unboundFunction | unboundObject => exact hv.member (by decide)
    | maybe _ _ hw =>
      have hlegible := ih (.part .nullable) hw
      exact hlegible
    | nullable _ _ hw =>
      refine hv.oneOf fun e he => ?_
      simp only [List.mem_cons, List.not_mem_nil, or_false] at he
      rcases he with rfl | rfl | rfl
      · exact .constant .null
      · exact .undefined
      · exact listed (.part .nullable) hw
    | array hw => exact hv.call (by decide) (ih (.part .array) hw)
    | arrayOf hg hw => exact hv.call (by decide) (ih (.part (.arrayOf hg)) hw)
    | indexer hw => exact hv.call (by decide) (ih (.part .indexer) hw)
    | exact hg hw => exact ih (.part (.exact hg)) hw
    | checkedBy hg hw => exact ih (.part (.checkedBy hg)) hw
    | hasDefault hg hc hw =>
      have hlegible := ih (.part (.hasDefault hg hc)) hw
      exact hlegible
    | bound hb hw => exact ih (.lookup hb) hw
    | literals hvalues =>
      refine hv.oneOf fun e he => ?_
      obtain ⟨t, ht, he⟩ := forall₂_mem_right (forall₂_of_mapM_eq_some hvalues) he
      exact (hx.1.child (.union ht)).listed he
    | union hvalues hvs =>
      refine hv.oneOfType fun e he => ?_
      obtain ⟨t, ht, w, hw, rfl⟩ := forall₂_mem_right hvs he
      exact listed (.part (.union hvalues ht)) hw
    | intersection hd hvs =>
      refine hv.allOf fun e he => ?_
      obtain ⟨t, ht, w, hw, rfl⟩ := forall₂_mem_right hvs he
      exact ih (.part (.intersection ht)) hw
    | merged hd hvs =>
      refine .groups fun group hgroup f hf => ?_
      obtain ⟨t, ht, notes, w, hw, he⟩ := forall₂_mem_right hvs hgroup
      have hobject := ih (.part (.intersection ht)) hw
      rw [he] at hobject
      cases hobject with
      | object hk hv => exact ⟨hk f hf, hv f hf⟩
    | table hd hms =>
      refine MemberRule.legible_object hms ?_ (fun p hp w hw => ?_) (fun p hp w hw => ?_)
      · cases hx.1 with
        | object hms => exact hms
      · exact ih (.part (.property hp)) hw
      · exact ih (.part (.spread hp)) hw
    | shape hd hms =>
      refine hv.call (by decide)
        (MemberRule.legible_object hms ?_ (fun p hp w hw => ?_) (fun p hp w hw => ?_))
      · cases hx.1 with
        | object hms => exact hms
      · exact ih (.part (.property hp)) hw
      · exact ih (.part (.spread hp)) hw
    | typeAlias hw => exact ih .typeAlias hw
    | interface hw => exact ih .interface hw
    | import_ hi hw => exact ih (.import_ hi) hw
    | replacedClass hc => exact hv.call (by decide) (.identifier (hx.2.replacement _ hc))
    | @ownClass c file k n use hc ho =>
      refine hv.call (by decide) (.identifier ?_)
      cases hk : k.name with
      | none => exact isName_of_isToken (by decide)
      | some n => exact hx.1 n hk

include hv hf hl in
theorem legible_of_convertTable {t : TypeExpr} {scope : Scope} {origin : Option String}
    {table : Validator} (ht : t.Spelled names) (hscope : scope.Spelled names)
    (h : (s.convertTable t scope origin).result = .ok table) : table.Legible names := by
  obtain ⟨v, fields, notes, hyields, he, rfl⟩ := convertTable_eq_ok h
  have hx : (s.tableCall t scope origin).Spelled names := ⟨ht, hscope, nofun⟩
  have hlegible := (legible_of_yields hv hf hl hx hyields).1
  rw [he] at hlegible
  exact hlegible

end Legibility

end Setting

def Module.IsRead (names : CharacterNames) (m : Module) : Prop :=
  ∃ source file, ofSource names source file = .ok m

def Scope.IsRead (names : CharacterNames) (s : Scope) : Prop :=
  ∀ f ∈ s.frames, ∀ e ∈ f, (∃ p, e.2.referent = .parameter p) ∨
    ∃ m : Module, m.IsRead names ∧
      ∃ name b, (name, b) ∈ (Scope.ofModule m).base ∧ b.referent = e.2.referent

structure Library.IsRead (names : CharacterNames) (l : Library) : Prop where
  faithful : l.Faithful
  offers : ∀ m, l.Offers m → m.IsRead names

theorem Module.IsRead.spelled {m : Module} (h : m.IsRead names) : m.Spelled names := by
  obtain ⟨source, file, h⟩ := h
  exact spelled_of_ofSource h

theorem Scope.IsRead.spelled {s : Scope} (h : s.IsRead names) : s.Spelled names := by
  intro f hf e he
  rcases h f hf e he with ⟨p, hp⟩ | ⟨m, hm, name, b, hb, heq⟩
  · rw [hp]
    trivial
  · exact heq ▸ hm.spelled.referent hb

theorem Scope.isRead_ofModule {m : Module} (h : m.IsRead names) : (Scope.ofModule m).IsRead names := by
  intro f hf e he
  cases List.mem_singleton.1 hf
  exact .inr ⟨m, h, e.1, e.2, he, rfl⟩

namespace Library

theorem isRead_of_readEntry {path source : String} {m : LoadedModule}
    (h : Holdings.readEntry names path source = .ok m) : m.source.IsRead names := by
  obtain ⟨read, hread, rfl⟩ := Holdings.readEntry_eq_ok.1 h
  exact ⟨source, _, hread⟩

theorem isRead_ofTable (names : CharacterNames) (sources : List (String × String))
    (o : ResolutionOptions) : (Library.ofTable names sources o).IsRead names := by
  refine ⟨.ofHoldings (.ofTable names sources o), ?_⟩
  rintro m ⟨path, -, hm⟩
  obtain ⟨path', hm⟩ := Holdings.mem_modules.1 hm
  obtain ⟨e, hmem, hr⟩ := Option.map_eq_some_iff.1 hm
  obtain ⟨x, -, rfl⟩ := List.mem_map.1 (List.mem_of_find?_eq_some hmem)
  exact isRead_of_readEntry hr

theorem isRead_ofTree (names : CharacterNames) (t : FileTree) (o : ResolutionOptions) :
    (Library.ofTree names t o).IsRead names := by
  refine ⟨.ofHoldings (.ofTree names t o), ?_⟩
  rintro m ⟨path, -, hm⟩
  obtain ⟨path', hm⟩ := Holdings.mem_modules.1 hm
  obtain ⟨e, hmem, hr⟩ := Option.map_eq_some_iff.1 hm
  obtain ⟨f, -, he⟩ := List.mem_filterMap.1 (List.mem_of_find?_eq_some hmem)
  obtain ⟨p, -, he⟩ := Option.bind_eq_some_iff.1 he
  cases he
  unfold Holdings.fileEntry at hr
  split at hr
  · cases hr
  · cases hr
  · exact isRead_of_readEntry hr

end Library

namespace Validator

variable (names : CharacterNames) in
/-- The expression is a table that is generated for a type of a module that is read from a source. -/
inductive Generated : Validator → Prop
  | mk {s : Setting} {m : Module} (hn : IsToken .name s.vocabulary.namespaceName)
    (ha : IsToken .name s.vocabulary.allName) (hl : s.library.IsRead names) (hm : m.IsRead names)
    (ht : m.Writes (.type t)) (hscope : scope.IsRead names)
    (h : (s.convertTable t scope origin).result = .ok v) : Generated v

variable {names : CharacterNames} {v w : Validator}

theorem Generated.legible (h : v.Generated names) : v.Legible names := by
  cases h with
  | mk hn ha hl hm ht hscope h =>
    exact Setting.legible_of_convertTable ⟨isName_of_isToken hn, isName_of_isToken ha⟩ hl.faithful
      (fun m hoffers => (hl.offers m hoffers).spelled) (hm.spelled.writes ht) hscope.spelled h

/-- Generated tables have the same text on one line exactly if they are the same up to comments. -/
theorem render_eq_iff_same (hv : v.Generated names) (hw : w.Generated names) :
    v.render none = w.render none ↔ v.same w = true :=
  ⟨hv.legible.same_of_line_eq hw.legible, hv.legible.line_eq_of_same⟩

def aliasTable (source : String) : Option Validator := do
  let m ← (Module.ofSource .none source none).toOption
  match m.items with
  | [.statement (.declaration (.typeAlias a))] =>
    let s : Setting := ⟨.default, .default, .ofTable .none [] .default⟩
    (s.convertTable a.right (.ofModule m) none).result.toOption
  | _ => none

theorem eq_ok_of_toOption {ε α : Type} {x : Except ε α} {a : α} (h : x.toOption = some a) :
    x = .ok a := by
  cases x with
  | error => cases h
  | ok => exact congrArg Except.ok (Option.some.inj h)

theorem Generated.of_aliasTable {source : String} (h : aliasTable source = some v) :
    v.Generated .none := by
  obtain ⟨m, hm, h⟩ := Option.bind_eq_some_iff.1 h
  have hread : m.IsRead .none := ⟨source, none, eq_ok_of_toOption hm⟩
  dsimp only at h
  split at h
  next a hitems =>
    have hmem : .statement (.declaration (.typeAlias a)) ∈ m.items := by
      rw [hitems]
      exact List.mem_singleton_self _
    have hname : IsToken .name Vocabulary.default.namespaceName := by decide
    have hall : IsToken .name Vocabulary.default.allName := by decide
    exact .mk hname hall (Library.isRead_ofTable .none [] .default) hread
      (Module.writes_of_declares hmem .statement .typeAlias) (Scope.isRead_ofModule hread)
      (eq_ok_of_toOption h)
  next => cases h

theorem render_eq_iff_same_of_sources :
    let source := "type T = \x7b'a, b': 'x, y', c?: 1 | -0.5\x7d"
    let source' := "type T = \x7b /* first */ 'a, b' : 'x, y', // last\n c?: 1 | -0.5\x7d;"
    ∃ v w, aliasTable source = some v ∧ aliasTable source' = some w ∧
      (v.render none = w.render none ↔ v.same w = true) := by
  intro source source'
  obtain ⟨v, hv⟩ := Option.isSome_iff_exists.1 (by decide +kernel : (aliasTable source).isSome)
  obtain ⟨w, hw⟩ := Option.isSome_iff_exists.1 (by decide +kernel : (aliasTable source').isSome)
  exact ⟨v, w, hv, hw, render_eq_iff_same (.of_aliasTable hv) (.of_aliasTable hw)⟩

end Validator

end PropTables
