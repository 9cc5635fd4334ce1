import PropTables.Proofs.ModuleNames
import PropTables.Proofs.TypeParts

/-! The nodes of a module that errors are about, and what a module's scope has to do with them: every
declaration that it binds is written in the module, and every import is a specifier that is written
there, of an import or of an export from another module. -/

namespace PropTables

inductive Expr.Annotates : Expr → TypeExpr → Prop
  | param (hp : p ∈ params) (ht : p.ascription = some t) : Annotates (.arrow loc params) t
  | member (h : Annotates e t) : Annotates (.member loc e attr) t
  | callee (h : Annotates e t) : Annotates (.call loc e args) t
  | argument (ha : e ∈ args) (h : Annotates e t) : Annotates (.call loc func args) t
  | keyed (he : .keyed kloc key e ∈ entries) (h : Annotates e t) : Annotates (.object loc entries) t
  | spread (he : .spread sloc e ∈ entries) (h : Annotates e t) : Annotates (.object loc entries) t
  | item (he : e ∈ items) (h : Annotates e t) : Annotates (.array loc items) t

inductive Declaration.Annotates : Declaration → TypeExpr → Prop
  | typeAlias : Annotates (.typeAlias a) a.right
  | interface : Annotates (.interface i) (.object i.body)
  | superclass (hs : k.superclass = some e) (h : e.Annotates t) : Annotates (.class_ k) t
  | superArgument (hs : k.superArgs = some ts) (ht : t ∈ ts) : Annotates (.class_ k) t
  | field (hp : .property p ∈ k.body) (ht : p.ascription = some t) : Annotates (.class_ k) t
  | fieldValue (hp : .property p ∈ k.body) (hv : p.value = some (.source e)) (h : e.Annotates t) :
    Annotates (.class_ k) t
  | methodParam (hm : .method d ∈ k.body) (hp : p ∈ d.params) (ht : p.ascription = some t) :
    Annotates (.class_ k) t
  | methodResult (hm : .method d ∈ k.body) (ht : d.result = some t) : Annotates (.class_ k) t
  | param (hp : p ∈ f.params) (ht : p.ascription = some t) : Annotates (.function f) t
  | result (ht : f.result = some t) : Annotates (.function f) t
  | variable_ (hd : d ∈ v.declarators) (ht : d.ascription = some t) : Annotates (.binding v) t
  | initial (hd : d ∈ v.declarators) (he : d.init = some e) (h : e.Annotates t) :
    Annotates (.binding v) t

namespace Item

inductive Declares : Item → Declaration → Prop
  | statement : Declares (.statement (.declaration d)) d
  | exported : Declares (.exportDeclaration loc d) d
  | defaultClass : Declares (.exportDefault loc (.class_ k)) (.class_ k)
  | defaultFunction : Declares (.exportDefault loc (.function f)) (.function f)

inductive Evaluates : Item → Expr → Prop
  | target : Evaluates (.statement (.assignment loc e value)) e
  | value : Evaluates (.statement (.assignment loc target e)) e
  | statement : Evaluates (.statement (.expression loc e)) e
  | default : Evaluates (.exportDefault loc (.expression e)) e

end Item

/-- A node that an error can be about, with as much of what is around it as tells why. -/
inductive FaultSite where
  | type (t : TypeExpr)
  | branch (types : List TypeExpr) (t : TypeExpr)
  | spread (p : Spread TypeExpr)
  | indexer (o : ObjectType TypeExpr) (i : Indexer TypeExpr)
  | call (o : ObjectType TypeExpr) (k : CallSignature TypeExpr)
  | imported (i : ImportSpecifier)
  | reexported (source : Text) (kind : ImportKind) (e : ExportSpecifier)
  | property (p : ClassProperty)

namespace FaultSite

def loc : FaultSite → Position
  | type t | branch _ t => t.loc
  | spread p => p.loc
  | indexer _ i => i.loc
  | call _ k => k.loc
  | imported i => i.loc
  | reexported _ _ e => e.loc
  | property p => p.loc

def import? : FaultSite → Option ImportSpecifier
  | imported i => some i
  | reexported source kind e => some (e.toImport source kind)
  | _ => none

theorem loc_of_import? {x : FaultSite} {i : ImportSpecifier} (h : x.import? = some i) : x.loc = i.loc := by
  cases x with
  | imported | reexported =>
    cases h
    rfl
  | _ => cases h

end FaultSite

namespace Module

def Annotates (m : Module) (t : TypeExpr) : Prop :=
  ∃ i ∈ m.items, (∃ d, i.Declares d ∧ d.Annotates t) ∨ ∃ e, i.Evaluates e ∧ e.Annotates t

inductive Writes (m : Module) : FaultSite → Prop
  | type (h : m.Annotates t) (hu : t.Within u) : Writes m (.type u)
  | branch (h : Writes m (.type (.intersection loc types))) (ht : t ∈ types) :
    Writes m (.branch types t)
  | spread (h : Writes m (.type (.object o))) (hp : .spread p ∈ o.members) : Writes m (.spread p)
  | indexer (h : Writes m (.type (.object o))) (hi : i ∈ o.indexers) : Writes m (.indexer o i)
  | call (h : Writes m (.type (.object o))) (hk : k ∈ o.calls) : Writes m (.call o k)
  | imported (hd : .statement (.import_ d) ∈ m.items) (hi : i ∈ d.specifiers) : Writes m (.imported i)
  | reexported (hd : .exportNamed d ∈ m.items) (hs : d.source = some source)
    (he : e ∈ d.specifiers) : Writes m (.reexported source d.kind e)
  | property (hk : k ∈ m.classes) (hp : .property p ∈ k.body) : Writes m (.property p)

variable {m : Module} {t u : TypeExpr} {name : String} {b : Binding}

theorem Writes.child (h : m.Writes (.type t)) (hu : t.Child u) : m.Writes (.type u) := by
  cases h with
  | type ha ht => exact .type ha (ht.tail hu)

theorem writes_of_declares {i : Item} {d : Declaration} (hi : i ∈ m.items) (hd : i.Declares d)
    (ht : d.Annotates t) : m.Writes (.type t) :=
  .type ⟨i, hi, .inl ⟨d, hd, ht⟩⟩ .refl

theorem writes_field {k : ClassDeclaration} {p : ClassProperty} (hk : k ∈ m.classes)
    (hp : .property p ∈ k.body) (ht : p.ascription = some t) : m.Writes (.type t) := by
  obtain ⟨i, hi, hclass⟩ := List.mem_filterMap.1 hk
  have hd : i.Declares (.class_ k) := by
    unfold Item.class? at hclass
    split at hclass
    · cases hclass
      exact .statement
    · cases hclass
      exact .defaultClass
    · cases hclass
      exact .exported
    · cases hclass
  exact writes_of_declares hi hd (.field hp ht)

end Module

def Module.Backs (m : Module) : Referent → Prop
  | .typeAlias a => m.Writes (.type a.right)
  | .interface i => m.Writes (.type (.object i.body))
  | .import_ i => ∃ x, m.Writes x ∧ x.import? = some i
  | _ => True

namespace Module

variable {m : Module} {name : String} {r : Referent} {b : Binding}

theorem backs_of_declares {i : Item} {d : Declaration} (hi : i ∈ m.items) (hd : i.Declares d)
    (hr : (name, r) ∈ d.binds) : m.Backs r := by
  cases d with
  | typeAlias a =>
    cases List.mem_singleton.1 hr
    exact writes_of_declares hi hd .typeAlias
  | interface j =>
    cases List.mem_singleton.1 hr
    exact writes_of_declares hi hd .interface
  | class_ k =>
    obtain ⟨_, _, h⟩ := List.mem_map.1 hr
    cases h
    trivial
  | function f =>
    cases List.mem_singleton.1 hr
    trivial
  | binding v =>
    obtain ⟨_, _, h⟩ := List.mem_map.1 hr
    cases h
    trivial

theorem backs_of_mem_own {i : Item} (hi : i ∈ m.items) (hr : (name, r) ∈ i.own) : m.Backs r := by
  cases i with
  | exportNamed | exportAll => cases hr
  | exportDeclaration loc d => exact backs_of_declares hi .exported hr
  | exportDefault loc d =>
    cases d with
    | class_ k => exact backs_of_declares hi .defaultClass hr
    | function f => exact backs_of_declares hi .defaultFunction hr
    | expression => cases hr
  | statement st =>
    cases st with
    | assignment | expression => cases hr
    | declaration d => exact backs_of_declares hi .statement hr
    | import_ d =>
      obtain ⟨s, hs, h⟩ := List.mem_map.1 hr
      cases h
      exact ⟨.imported s, .imported hi hs, rfl⟩

theorem backs_of_mem_madeUp {i : Item} (hi : i ∈ m.items) (hr : (name, r) ∈ i.madeUp) :
    m.Backs r := by
  unfold Item.madeUp at hr
  split at hr
  next d =>
    split at hr
    next source hs =>
      obtain ⟨e, he, h⟩ := List.mem_map.1 hr
      cases h
      exact ⟨.reexported source d.kind e, .reexported hi hs he, rfl⟩
    next => cases hr
  next =>
    split at hr
    · cases List.mem_singleton.1 hr
      trivial
    · cases hr
  next => cases hr
  next =>
    cases List.mem_singleton.1 hr
    trivial
  next => cases hr

theorem backs_of_mem_ofModule (h : (name, b) ∈ (Scope.ofModule m).base) : m.Backs b.referent := by
  obtain ⟨e, he, h⟩ := List.mem_map.1 h
  cases h
  rcases (mem_binds_ofModule m).1 he with he | he
  · obtain ⟨i, hi, hr⟩ := List.mem_flatMap.1 he
    exact backs_of_mem_own hi hr
  · obtain ⟨i, hi, hr⟩ := List.mem_flatMap.1 he
    exact backs_of_mem_madeUp hi hr

end Module

end PropTables
