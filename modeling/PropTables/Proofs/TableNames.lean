import PropTables.Proofs.ClassNames
import PropTables.Proofs.Mentions

/-! The names that stand in a table. Members are taken of the name of the validators only, the only
name that is called is that of their combination, and the names that `instanceOf` is called with are
those of classes as the origin knows them. -/

namespace PropTables

inductive Validator.Tests : Validator → String → Prop
  | here (ha : .identifier name ns ∈ args) :
    Tests (.call (.member e "instanceOf" ns') args ns'') name
  | base (h : Tests e name) : Tests (.member e attr ns) name
  | callee (h : Tests func name) : Tests (.call func args ns) name
  | argument (ha : e ∈ args) (h : Tests e name) : Tests (.call func args ns) name
  | item (he : e ∈ items) (h : Tests e name) : Tests (.array items ns) name
  | field (hf : f ∈ fields) (h : Tests f.value name) : Tests (.object fields ns) name

/-- The expression names nothing but the libraries, each as it is used, and the classes of `P`. -/
structure Vocabulary.Clean (v : Vocabulary) (P : String → Prop) (e : Validator) : Prop where
  accesses : ∀ name, e.accesses name = true → name = v.namespaceName
  calls : ∀ name, e.calls name = true → name = v.allName
  tests : ∀ name, e.Tests name → P name

def Validator.IsName (e : Validator) : Prop :=
  ∃ name notes, e = .identifier name notes

namespace Validator

theorem IsName.of_isNamed {e : Validator} {name : String} (h : e.isNamed name = true) : e.IsName := by
  cases e with
  | identifier n notes => exact ⟨n, notes, rfl⟩
  | _ => cases h

theorem tests_withNotes {e : Validator} {n : Notes} {name : String}
    (h : (e.withNotes n).Tests name) : e.Tests name := by
  cases e with
  | identifier => cases h
  | literal => cases h
  | member =>
    cases h with
    | base h => exact .base h
  | call =>
    cases h with
    | here ha => exact .here ha
    | callee h => exact .callee h
    | argument ha h => exact .argument ha h
  | array =>
    cases h with
    | item he h => exact .item he h
  | object =>
    cases h with
    | field hf h => exact .field hf h

end Validator

namespace Vocabulary.Clean

variable {v : Vocabulary} {P : String → Prop} {e : Validator} {notes : Notes}

theorem name (v : Vocabulary) (P : String → Prop) (n : String) (notes : Notes) :
    v.Clean P (.identifier n notes) :=
  ⟨nofun, nofun, nofun⟩

theorem constant (v : Vocabulary) (P : String → Prop) (c : Constant) (raw : Option String) :
    v.Clean P (.literal c raw notes) :=
  ⟨nofun, nofun, nofun⟩

theorem withNotes (h : v.Clean P e) (n : Notes) : v.Clean P (e.withNotes n) := by
  refine ⟨fun name ha => ?_, fun name hc => ?_, fun name ht => h.tests name (Validator.tests_withNotes ht)⟩
  · rw [Validator.accesses_withNotes] at ha
    exact h.accesses name ha
  · rw [Validator.calls_withNotes] at hc
    exact h.calls name hc

theorem of_member {attr : String} (h : v.Clean P (.member e attr notes)) : v.Clean P e := by
  refine ⟨fun name ha => h.accesses name ?_, h.calls, fun name ht => h.tests name (.base ht)⟩
  rw [Validator.accesses, ha, Bool.or_true]

theorem stripRequired (h : v.Clean P e) : v.Clean P e.stripRequired := by
  cases e with
  | member inner attr notes =>
    rw [Validator.stripRequired]
    split
    · split
      · exact h.of_member
      · exact h.of_member.withNotes _
    · exact h
  | _ => exact h

theorem require (h : v.Clean P e) (he : ¬ e.IsName) : v.Clean P e.require := by
  refine ⟨fun name ha => ?_, h.calls, fun name ht => ?_⟩
  · rw [Validator.require, Validator.accesses, Bool.or_eq_true] at ha
    rcases ha with ha | ha
    · exact (he (.of_isNamed ha)).elim
    · exact h.accesses name ha
  · cases ht with
    | base ht => exact h.tests name ht

theorem array {items : List Validator} (h : ∀ e ∈ items, v.Clean P e) :
    v.Clean P (.array items notes) := by
  refine ⟨fun name ha => ?_, fun name hc => ?_, fun name ht => ?_⟩
  · obtain ⟨e, he, ha⟩ := Validator.accessesAny_eq_true.1 ha
    exact (h e he).accesses name ha
  · obtain ⟨e, he, hc⟩ := Validator.callsAny_eq_true.1 hc
    exact (h e he).calls name hc
  · cases ht with
    | item he ht => exact (h _ he).tests name ht

theorem object {fields : List (Field Validator)} :
    v.Clean P (.object fields notes) ↔ ∀ f ∈ fields, v.Clean P f.value := by
  constructor
  · intro h f hf
    exact ⟨fun name ha => h.accesses name (Validator.accessesField_eq_true.2 ⟨f, hf, ha⟩),
      fun name hc => h.calls name (Validator.callsField_eq_true.2 ⟨f, hf, hc⟩),
      fun name ht => h.tests name (.field hf ht)⟩
  · intro h
    refine ⟨fun name ha => ?_, fun name hc => ?_, fun name ht => ?_⟩
    · obtain ⟨f, hf, ha⟩ := Validator.accessesField_eq_true.1 ha
      exact (h f hf).accesses name ha
    · obtain ⟨f, hf, hc⟩ := Validator.callsField_eq_true.1 hc
      exact (h f hf).calls name hc
    · cases ht with
      | field hf ht => exact (h _ hf).tests name ht

theorem member (v : Vocabulary) (P : String → Prop) (attr : String) : v.Clean P (v.member attr) := by
  refine ⟨fun name ha => ?_, nofun, fun name ht => ?_⟩
  · have hname : (v.namespaceName == name) = true := by
      simpa [Vocabulary.member, Validator.named, Validator.access, Validator.accesses,
        Validator.isNamed] using ha
    exact (beq_iff_eq.1 hname).symm
  · cases ht with
    | base ht => cases ht

theorem call {func : Validator} {args : List Validator} (hf : v.Clean P func)
    (hargs : ∀ e ∈ args, v.Clean P e) (hname : ∀ name ns, func = .identifier name ns → name = v.allName)
    (hclass : ∀ e ns name ns', func = .member e "instanceOf" ns → .identifier name ns' ∈ args →
      P name) : v.Clean P (.call func args notes) := by
  refine ⟨fun name ha => ?_, fun name hc => ?_, fun name ht => ?_⟩
  · rw [Validator.accesses, Bool.or_eq_true] at ha
    rcases ha with ha | ha
    · exact hf.accesses name ha
    · obtain ⟨e, he, ha⟩ := Validator.accessesAny_eq_true.1 ha
      exact (hargs e he).accesses name ha
  · rw [Validator.calls, Bool.or_eq_true, Bool.or_eq_true] at hc
    rcases hc with (hc | hc) | hc
    · cases func with
      | identifier n ns =>
        have hn : n = name := beq_iff_eq.1 hc
        exact hn ▸ hname n ns rfl
      | _ => cases hc
    · exact hf.calls name hc
    · obtain ⟨e, he, hc⟩ := Validator.callsAny_eq_true.1 hc
      exact (hargs e he).calls name hc
  · cases ht with
    | here ha => exact hclass _ _ _ _ rfl ha
    | callee ht => exact hf.tests name ht
    | argument ha ht => exact (hargs _ ha).tests name ht

theorem memberCall {attr : String} (ha : attr ≠ "instanceOf") (h : v.Clean P e) :
    v.Clean P (v.call attr e) := by
  refine call (member v P attr) (fun e' he => List.mem_singleton.1 he ▸ h) nofun ?_
  rintro _ _ _ _ ⟨⟩
  exact (ha rfl).elim

theorem instanceOf {name : String} (h : P name) : v.Clean P (v.call "instanceOf" (.named name)) := by
  refine call (member v P _) (fun e he => ?_) nofun fun _ _ n ns' _ hn => ?_
  · rw [List.mem_singleton.1 he]
    exact .name v P name .none
  · cases List.mem_singleton.1 hn
    exact h

theorem allOf {types : List Validator} (h : ∀ e ∈ types, v.Clean P e) : v.Clean P (v.allOf types) := by
  refine call (.name v P _ _) h ?_ nofun
  rintro name ns ⟨⟩
  rfl

theorem oneOf {values : List Validator} (h : ∀ e ∈ values, v.Clean P e) :
    v.Clean P (v.oneOf values) :=
  memberCall (by decide) (.array h)

theorem primitive (v : Vocabulary) (P : String → Prop) (p : Primitive) :
    v.Clean P (v.primitive p) := by
  cases p with
  | null => exact oneOf fun e he => List.mem_singleton.1 he ▸ .constant v P _ _
  | void => exact oneOf fun e he => List.mem_singleton.1 he ▸ .name v P _ _
  | _ => exact member v P _

theorem literal {t : TypeExpr} (h : t.literal? = some e) : v.Clean P e := by
  unfold TypeExpr.literal? at h
  split at h <;> cases h
  case h_2 => exact .name v P _ _
  all_goals exact .constant v P _ _

end Vocabulary.Clean

namespace Setting

inductive ClassCall : Call → String → Prop
  | replaced (hc : c.replacement = some name) : ClassCall (.binding n ⟨.class_ k, file⟩ use c) name
  | own (hc : c.replacement = none) (hf : file = c.origin) :
    ClassCall (.binding n ⟨.class_ k, file⟩ use c) (k.name.getD defaultName)

def TestsClass (s : Setting) (x : Call) (name : String) : Prop :=
  ∃ y, s.Reaches x y ∧ ClassCall y name

structure NamesOnly (s : Setting) (x : Call) (e : Validator) : Prop where
  clean : s.vocabulary.Clean (s.TestsClass x) e
  notName : ¬ e.IsName

section

variable {s : Setting} {x y : Call} {v : Converted} {n : Nat} {c : Context}

theorem FieldRule.clean {members : List (Member TypeExpr)} {e : Validator}
    (h : s.FieldRule n c members e)
    (property : ∀ p, .property p ∈ members → ∀ w, s.Yields (.type n p.value c.fieldValue) w →
      s.NamesOnly x w.expr)
    (spread : ∀ p, .spread p ∈ members → ∀ w, s.Yields (.type n p.argument c.spread) w →
      s.NamesOnly x w.expr) :
    s.vocabulary.Clean (s.TestsClass x) e := by
  cases h with
  | plain hp hw => exact (property _ hp _ hw).clean
  | marked hp hw => exact (property _ hp _ hw).clean.require (property _ hp _ hw).notName
  | kept hp hw he hf => exact Vocabulary.Clean.object.1 (he ▸ (spread _ hp _ hw).clean) _ hf
  | stripped hp hw he hf =>
    exact (Vocabulary.Clean.object.1 (he ▸ (spread _ hp _ hw).clean) _ hf).stripRequired

/-- A result names what its parts name, and what its own rule writes down. -/
theorem namesOnly_of_reaches (hr : s.Reaches x y) (hv : s.Yields y v) : s.NamesOnly x v.expr := by
  induction y using call_induction (s := s) generalizing v with
  | step y ih =>
    replace ih {z w} (h : s.Step y z) (hw : s.Yields z w) : s.NamesOnly x w.expr :=
      ih z h (hr.tail h) hw
    have all {n : Nat} {c : Context} {types : List TypeExpr} {values : List Validator}
        (hvs : List.Forall₂ (s.Expresses n c) types values)
        (ht : ∀ t ∈ types, ∀ w, s.Yields (.type n t c) w → s.NamesOnly x w.expr) :
        ∀ e ∈ values, s.vocabulary.Clean (s.TestsClass x) e := by
      intro e he
      obtain ⟨t, hmem, w, hw, rfl⟩ := forall₂_mem_right hvs he
      exact (ht t hmem w hw).clean
    cases rule_of_yields hv with
    | @primitive _ p =>
      refine ⟨.primitive _ _ p, ?_⟩
      rintro ⟨_, _, h⟩
      cases p <;> cases h
    | number | boolean | string =>
      exact ⟨.oneOf fun e he => List.mem_singleton.1 he ▸ .constant _ _ _ _, nofun⟩
    | function | tuple | unboundFunction | unboundObject => exact ⟨.member _ _ _, nofun⟩
    | maybe _ _ hw => exact ⟨(ih (.part .nullable) hw).clean, (ih (.part .nullable) hw).notName⟩
    | nullable _ _ hw =>
      refine ⟨.oneOf fun e he => ?_, nofun⟩
      simp only [List.mem_cons, List.not_mem_nil, or_false] at he
      rcases he with rfl | rfl | rfl
      · exact .constant _ _ _ _
      · exact .name _ _ _ _
      · exact (ih (.part .nullable) hw).clean
    | array hw => exact ⟨.memberCall (by decide) (ih (.part .array) hw).clean, nofun⟩
    | arrayOf hg hw => exact ⟨.memberCall (by decide) (ih (.part (.arrayOf hg)) hw).clean, nofun⟩
    | indexer hw => exact ⟨.memberCall (by decide) (ih (.part .indexer) hw).clean, nofun⟩
    | exact hg hw => exact ih (.part (.exact hg)) hw
    | checkedBy hg hw => exact ih (.part (.checkedBy hg)) hw
    | hasDefault hg hf hw =>
      have hnames := ih (.part (.hasDefault hg hf)) hw
      exact ⟨hnames.clean, hnames.notName⟩
    | bound hb hw => exact ih (.lookup hb) hw
    | literals hl =>
      refine ⟨.oneOf fun e he => ?_, nofun⟩
      obtain ⟨t, _, ht⟩ := forall₂_mem_right (forall₂_of_mapM_eq_some hl) he
      exact .literal ht
    | union hl hvs =>
      have hclean := all hvs fun t ht w hw => ih (.part (.union hl ht)) hw
      exact ⟨.memberCall (by decide) (.array hclean), nofun⟩
    | intersection hd hvs =>
      exact ⟨.allOf (all hvs fun t ht w hw => ih (.part (.intersection ht)) hw), nofun⟩
    | merged hd hvs =>
      refine ⟨Vocabulary.Clean.object.2 fun f hf => ?_, nofun⟩
      obtain ⟨t, ht, group, ⟨notes, w, hw, he⟩, hf⟩ := forall₂_mem_flatten hvs hf
      have hclean := (ih (.part (.intersection ht)) hw).clean
      rw [he, Vocabulary.Clean.object] at hclean
      exact hclean f hf
    | table hd hms =>
      refine ⟨Vocabulary.Clean.object.2 fun f hf => ?_, nofun⟩
      refine (fieldRule_of_mem hms hf).clean (fun p hp w hw => ?_) (fun p hp w hw => ?_)
      · exact ih (.part (.property hp)) hw
      · exact ih (.part (.spread hp)) hw
    | shape hd hms =>
      refine ⟨.memberCall (by decide) (Vocabulary.Clean.object.2 fun f hf => ?_), nofun⟩
      refine (fieldRule_of_mem hms hf).clean (fun p hp w hw => ?_) (fun p hp w hw => ?_)
      · exact ih (.part (.property hp)) hw
      · exact ih (.part (.spread hp)) hw
    | typeAlias hw => exact ih .typeAlias hw
    | interface hw => exact ih .interface hw
    | import_ hi hw => exact ih (.import_ hi) hw
    | replacedClass hc => exact ⟨.instanceOf ⟨_, hr, .replaced hc⟩, nofun⟩
    | ownClass hc hf => exact ⟨.instanceOf ⟨_, hr, .own hc hf⟩, nofun⟩

theorem clean_of_convertTable {t : TypeExpr} {scope : Scope} {origin : Option String}
    {table : Validator} (h : (s.convertTable t scope origin).result = .ok table) :
    s.vocabulary.Clean (s.TestsClass (s.tableCall t scope origin)) table := by
  obtain ⟨v, fields, notes, hv, he, rfl⟩ := convertTable_eq_ok h
  have hnames := namesOnly_of_reaches .refl hv
  rw [he] at hnames
  exact hnames.clean

end

inductive Bears (s : Setting) (m : Module) : Call → Prop
  | type (hc : s.Located m c) (hr : c.replacement = none) : Bears s m (.type n t c)
  | binding (hc : s.Located m c)
      (hb : (∃ p, b.referent = .parameter p) ∨ ∃ name, (name, b) ∈ c.scope.base)
      (hr : ∀ name, c.replacement = some name → ∃ b', (name, b') ∈ (Scope.ofModule m).base) :
    Bears s m (.binding n b use c)

section

variable {s : Setting} {m : Module} {x y : Call} (hl : s.library.Faithful)
  (ho : ∀ m', s.library.Offers m' → m'.file = m.file → m' = m)

include hl ho in
theorem Bears.step (hx : s.Bears m x) (h : s.Step x y) : s.Bears m y := by
  cases h with
  | part hp =>
    cases hx with
    | type hc hr => exact .type (hc.part hp) (hp.context_eq.2.2 hr)
  | lookup hb =>
    cases hx with
    | type hc hr =>
      refine .binding hc ((hc.lookup hb).imp_right fun h => ⟨_, h⟩) fun name h => ?_
      exact nomatch hr.symm.trans h
  | typeAlias =>
    cases hx with
    | binding hc => exact .type (hc.body _) rfl
  | interface =>
    cases hx with
    | binding hc => exact .type (hc.body _) rfl
  | @import_ i file r n use c hr =>
    cases hx with
    | binding hc hb hrep =>
      obtain ⟨m', name', hoffers, hscope, hmem⟩ := Library.resolveImport_eq_ok hl hr
      have hlocated : s.Located m (c.through i file r.scope) := by
        refine ⟨hc.origin, ⟨m', .inr hoffers, ?_⟩, ?_⟩
        · simp only [Context.through, hscope]
          rfl
        · simp only [Context.through, hscope]
          rintro _ ⟨⟩
      refine .binding hlocated (.inr ⟨name', hmem⟩) fun name h => ?_
      -- a name is only set by an import of the origin, and the origin binds it
      simp only [Context.through] at h
      split at h
      next hown =>
        cases h
        rcases hb with ⟨p, hp⟩ | ⟨name, hb⟩
        · cases hp
        · obtain ⟨hmem, _⟩ := hc.eq_origin ho hb hown.2
          cases Scope.name?_of_mem_ofModule hmem
          exact ⟨_, hmem⟩
      next => exact hrep name h

include hl ho in
theorem Bears.reaches (hx : s.Bears m x) (h : s.Reaches x y) : s.Bears m y := by
  induction h with
  | refl => exact hx
  | tail _ hstep ih => exact ih.step hl ho hstep

include ho in
theorem Bears.bound {name : String} (hx : s.Bears m x) (h : ClassCall x name) :
    ∃ b, (name, b) ∈ (Scope.ofModule m).base := by
  cases h with
  | replaced hc =>
    cases hx with
    | binding _ _ hr => exact hr name hc
  | @own file n k use c hc hf =>
    cases hx with
    | binding hlocated hb _ =>
      rcases hb with ⟨p, hp⟩ | ⟨name, hb⟩
      · cases hp
      · obtain ⟨hmem, _⟩ := hlocated.eq_origin ho hb hf
        have hname : k.name = some name := Scope.name?_of_mem_ofModule hmem
        rw [hname, Option.getD_some]
        exact ⟨_, hmem⟩

include hl ho in
theorem bound_of_tests {t : TypeExpr} {table : Validator} {name : String}
    (h : (s.convertTable t (.ofModule m) m.file).result = .ok table) (ht : table.Tests name) :
    ∃ b, (name, b) ∈ (Scope.ofModule m).base := by
  obtain ⟨y, hr, hy⟩ := (clean_of_convertTable h).tests name ht
  have hbears : s.Bears m (s.tableCall t (.ofModule m) m.file) := by
    refine .type ⟨?_, ⟨m, .inl rfl, rfl⟩, nofun⟩ rfl
    show (m.file <|> m.file) = m.file
    cases m.file <;> rfl
  exact (hbears.reaches hl ho hr).bound ho hy

end

end Setting

end PropTables
