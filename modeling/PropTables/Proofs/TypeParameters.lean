import PropTables.Proofs.FixedNames
import PropTables.Proofs.Imports

/-! Type parameters. Throughout the right side of an alias and the body of an interface they hide the
names of the module, and a use of one ends the transformation. The annotation of a field of a generic
class is converted among the module's names alone, where its parameters hide nothing. -/

namespace PropTables

def Referent.params : Referent → List TypeParameter
  | typeAlias a => a.params
  | interface i => i.params
  | class_ k => k.params
  | _ => []

namespace Setting

inductive PartStep (s : Setting) : Call → Call → Prop
  | mk (h : s.Part c t t' c') : PartStep s (.type n t c) (.type n t' c')

abbrev Inside (s : Setting) : Call → Call → Prop :=
  Relation.ReflTransGen s.PartStep

/-- The name is that of a type parameter where it stands, and following it is an unsupported type,
however many references may be followed. -/
def IsParameterUse (s : Setting) (loc : Position) (name : String) (c : Context) : Prop :=
  (∃ p file, c.scope.lookup name = some ⟨.parameter p, file⟩) ∧
  ∃ f, f.kind = .unsupportedType ∧
    ∀ n, (s.convert (s.follow (n + 1)) (.reference loc [] name []) c).result =
      .error (.conversion (ConversionFault.error f loc c.scope.file))

end Setting

namespace Module

def setting (m : Module) (options : ConvertOptions) (h : HostOptions) (l : Library) : Setting :=
  ⟨options, h.vocabulary (m.takenNames (.ofModule m)), l⟩

inductive FieldCall (m : Module) (s : Setting) (h : HostOptions) : ClassDeclaration → Call → Prop
  | mk (hk : k ∈ m.classes) (hs : k.superclass = some base)
      (hb : (Scope.ofModule m).isComponentBase h.componentSource base = true)
      (hf : field ∈ h.fields) (hp : k.property? (.ofString field.1) = some (i, p))
      (ht : p.ascription = some t) :
    FieldCall m s h k (s.tableCall t (.ofModule m) m.file)

inductive Body (m : Module) (s : Setting) (h : HostOptions) : Referent → Call → Prop
  | field (hx : m.FieldCall s h k x) : Body m s h (.class_ k) x
  | typeAlias {file : Option String} (hx : m.FieldCall s h k x)
      (hy : s.Reaches x (.binding (n + 1) ⟨.typeAlias a, file⟩ use c)) :
    Body m s h (.typeAlias a) (.type n a.right (c.body a.params))
  | interface {file : Option String} (hx : m.FieldCall s h k x)
      (hy : s.Reaches x (.binding (n + 1) ⟨.interface i, file⟩ use c)) :
    Body m s h (.interface i) (.type n (.object i.body) (c.body i.params))

end Module

section

variable {s : Setting} {m : Module} {h : HostOptions} {l : Library} {options : ConvertOptions}
  {x y : Call} {n : Nat} {c : Context} {k : ClassDeclaration} {d : Referent} {loc : Position}
  {name : String}

theorem Setting.Inside.reaches (hi : s.Inside x y) : s.Reaches x y := by
  refine Relation.ReflTransGen.mono ?_ _ _ hi
  rintro _ _ ⟨hp⟩
  exact .part hp

theorem Setting.Inside.scope_eq (hi : s.Inside x y) : y.context.scope = x.context.scope := by
  induction hi with
  | refl => rfl
  | tail _ hstep ih =>
    cases hstep with
    | mk hp => exact hp.context_eq.1.trans ih

theorem Scope.lookup_withParams (scope : Scope) {params : List TypeParameter}
    (hname : ∃ p ∈ params, p.name = name) :
    ∃ p, (scope.withParams params).lookup name = some ⟨.parameter p, scope.file⟩ := by
  obtain ⟨p, hp, rfl⟩ := hname
  have hne : params.isEmpty = false := List.isEmpty_eq_false_iff.2 (List.ne_nil_of_mem hp)
  let frame : Frame := params.map fun q => (q.name, ⟨.parameter q, scope.file⟩)
  have hmem : (p.name, ⟨.parameter p, scope.file⟩) ∈ frame := List.mem_map.2 ⟨p, hp, rfl⟩
  obtain ⟨b, hb⟩ := Frame.exists_lookup hmem
  obtain ⟨q, _, hq⟩ := List.mem_map.1 (Frame.mem_of_lookup hb)
  refine ⟨q, ?_⟩
  rw [Scope.withParams, if_neg (by simp [hne]), Scope.lookup_child, hb, ← (Prod.mk.inj hq).2]
  rfl

theorem Scope.ne_parameter_of_lookup_ofModule {b : Binding}
    (hb : (Scope.ofModule m).lookup name = some b) (p : TypeParameter) :
    b.referent ≠ .parameter p := by
  intro hp
  have hname := Scope.name?_of_mem_ofModule (Scope.mem_base_of_lookup rfl hb)
  rw [hp] at hname
  cases hname

theorem Setting.isParameterUse_of_lookup {p : TypeParameter} {file : Option String}
    (hb : c.scope.lookup name = some ⟨.parameter p, file⟩) : s.IsParameterUse loc name c := by
  refine ⟨⟨p, file, hb⟩, .typeParameter p.name, rfl, fun n => ?_⟩
  simp only [convert, convertName, hb]
  rfl

theorem Setting.IsParameterUse.not_yields (hu : s.IsParameterUse loc name c) {v : Converted} :
    ¬ s.Yields (.type n (.reference loc [] name []) c) v := by
  intro hv
  obtain ⟨⟨p, file, hb⟩, f, _, hf⟩ := hu
  cases n with
  | zero =>
    change (s.convert (s.follow 0) (.reference loc [] name []) c).result = .ok v at hv
    rw [convert, convertName, hb] at hv
    cases hv
  | succ n => cases hv.symm.trans (hf n)

theorem Module.FieldCall.yields {r : TransformResult}
    (hr : (m.transform options h l).result = .ok r)
    (hx : m.FieldCall (m.setting options h l) h k x) :
    ∃ v, (m.setting options h l).Yields x v := by
  cases hx with
  | @mk base field i p t hk hs hb hf hp ht =>
    have hmem : ⟨k, field, i, p⟩ ∈ m.typedFields h :=
      Module.mem_typedFields.2 ⟨hk, ⟨base, hs, hb⟩, hf, hp⟩
    obtain ⟨_, hinsertion⟩ := exists_insertion_of_transform_eq_ok hr hmem
      (h.vocabulary (m.takenNames (.ofModule m)))
    obtain ⟨t', table, hascription, htable, _⟩ := TypedField.insertion_eq_ok.1 hinsertion
    cases ht.symm.trans hascription
    obtain ⟨v, _, _, hv, _⟩ := Setting.convertTable_eq_ok htable
    exact ⟨v, hv⟩

theorem Module.Body.reached (hb : m.Body s h d x) :
    ∃ k y, m.FieldCall s h k y ∧ s.Reaches y x := by
  cases hb with
  | field hx => exact ⟨_, _, hx, .refl⟩
  | typeAlias hx hy => exact ⟨_, _, hx, hy.tail .typeAlias⟩
  | interface hx hy => exact ⟨_, _, hx, hy.tail .interface⟩

theorem Module.Body.scope (hb : m.Body s h d x) :
    (∃ k, d = .class_ k ∧ x.context.scope = .ofModule m) ∨
    ((∀ k, d ≠ .class_ k) ∧ ∃ scope : Scope, x.context.scope = scope.withParams d.params) := by
  cases hb with
  | field hx =>
    cases hx
    exact .inl ⟨_, rfl, rfl⟩
  | typeAlias | interface => exact .inr ⟨nofun, _, rfl⟩

end

/-- A name that is a parameter of the declaration around it is converted as a parameter in aliases and
interfaces, which ends the transformation, and never in the fields of a class, where it is looked up
among the names of the module. -/
theorem Module.isParameterUse_iff (m : Module) (options : ConvertOptions) (h : HostOptions)
    (l : Library) {d : Referent} {body : Call} (hb : m.Body (m.setting options h l) h d body)
    {n : Nat} {loc : Position} {name : String} {c : Context}
    (hi : (m.setting options h l).Inside body (.type n (.reference loc [] name []) c))
    (hname : ∃ p ∈ d.params, p.name = name) :
    ((m.setting options h l).IsParameterUse loc name c ↔ ∀ k, d ≠ .class_ k) ∧
    ((∀ k, d ≠ .class_ k) → ∀ r, (m.transform options h l).result ≠ .ok r) ∧
    (∀ k, d = .class_ k → c.scope.lookup name = (Scope.ofModule m).lookup name) := by
  have hscope : c.scope = body.context.scope := hi.scope_eq
  rcases hb.scope with ⟨k, hk, hbody⟩ | ⟨hk, scope, hbody⟩
  · -- The field of a class: its scope is the module's, which binds no parameter.
    have hclass : ¬ ∀ k, d ≠ .class_ k := fun hne => hne k hk
    rw [hbody] at hscope
    refine ⟨⟨?_, fun hne => (hclass hne).elim⟩, fun hne => (hclass hne).elim, fun _ _ => ?_⟩
    · rintro ⟨⟨p, file, hlookup⟩, _⟩
      rw [hscope] at hlookup
      exact (Scope.ne_parameter_of_lookup_ofModule hlookup p rfl).elim
    · rw [hscope]
  · obtain ⟨p, hlookup⟩ := Scope.lookup_withParams scope hname
    rw [← hbody, ← hscope] at hlookup
    have huse : (m.setting options h l).IsParameterUse loc name c :=
      Setting.isParameterUse_of_lookup hlookup
    refine ⟨⟨fun _ => hk, fun _ => huse⟩, fun _ r hr => ?_, fun k hd => (hk k hd).elim⟩
    obtain ⟨_, _, hfield, hreach⟩ := hb.reached
    obtain ⟨v, hv⟩ := hfield.yields hr
    obtain ⟨w, hw⟩ := Setting.Reaches.yields (hreach.trans hi.reaches) hv
    exact huse.not_yields hw

def valueType (line column : Nat) : TypeExpr :=
  .object ⟨⟨line, column⟩, [.property ⟨⟨line, column + 1⟩, .ofString "value", "value",
    .reference ⟨line, column + 8⟩ [] "T" [], false, false, .none⟩], [], [], false, []⟩

def pairAlias : TypeAlias :=
  ⟨⟨2, 1⟩, "Pair", [⟨⟨2, 11⟩, "T"⟩], valueType 2 16⟩

def boxClass (props : TypeExpr) : ClassDeclaration :=
  ⟨⟨3, 1⟩, some "Box", [⟨⟨3, 11⟩, "T"⟩], some (.member ⟨3, 22⟩ (.name ⟨3, 22⟩ "React") "Component"),
    none, [.property ⟨⟨4, 3⟩, .ofString "props", some props, none, false, false, false⟩]⟩

def boxModule (props : TypeExpr) : Module :=
  ⟨[.statement (.declaration (.typeAlias ⟨⟨1, 1⟩, "T", [], .primitive ⟨1, 10⟩ .number⟩)),
    .statement (.declaration (.typeAlias pairAlias)),
    .statement (.declaration (.class_ (boxClass props)))], some "/src/main.js"⟩

theorem boxModule_fieldCall (s : Setting) (props : TypeExpr) :
    (boxModule props).FieldCall s .default (boxClass props)
      (s.tableCall props (.ofModule (boxModule props)) (some "/src/main.js")) :=
  .mk List.mem_cons_self rfl rfl List.mem_cons_self rfl rfl

theorem Module.isParameterUse_iff_pair :
    let m := boxModule (.reference ⟨4, 10⟩ [] "Pair" [])
    let s := m.setting .default .default (.ofTable .none [] .default)
    ∃ loc c, s.IsParameterUse loc "T" c ∧
      ∀ r, (m.transform .default .default (.ofTable .none [] .default)).result ≠ .ok r := by
  intro m s
  have hb : m.Body s .default (.typeAlias pairAlias) (.type _ (valueType 2 16) _) :=
    .typeAlias (boxModule_fieldCall s _) (.head (.lookup rfl) .refl)
  obtain ⟨hiff, hfails, _⟩ := Module.isParameterUse_iff m .default .default (.ofTable .none [] .default) hb
    (.head (.mk (.property List.mem_cons_self)) .refl) ⟨_, List.mem_cons_self, rfl⟩
  exact ⟨_, _, hiff.2 nofun, hfails nofun⟩

/-- In the props of `Box<T>` the name `T` is that of the alias, and a table is made of it. -/
theorem Module.not_isParameterUse_box :
    let m := boxModule (valueType 4 10)
    let s := m.setting .default .default (.ofTable .none [] .default)
    ∃ body n loc c a file, m.Body s .default (.class_ (boxClass (valueType 4 10))) body ∧
      s.Inside body (.type n (.reference loc [] "T" []) c) ∧
      (∃ p ∈ (boxClass (valueType 4 10)).params, p.name = "T") ∧
      c.scope.lookup "T" = some ⟨.typeAlias a, file⟩ ∧ ¬ s.IsParameterUse loc "T" c ∧
      ∃ r, (m.transform .default .default (.ofTable .none [] .default)).result = .ok r := by
  intro m s
  refine ⟨_, _, _, _, _, _, .field (boxModule_fieldCall s _),
    .head (.mk (.property List.mem_cons_self)) .refl, ⟨_, List.mem_cons_self, rfl⟩, rfl, ?_, _, rfl⟩
  rintro ⟨⟨p, file, hp⟩, _⟩
  cases hp

end PropTables
