import PropTables.Proofs.ClassNames
import PropTables.Proofs.Failures
import PropTables.Proofs.Sites
import PropTables.Proofs.TypeParameters

/-! Where errors say that they are. A call stands in a module that the library knows, and so does the
reference that a binding was reached from; an error is at a node of one of them. The one exception is a
reference that leads through imports to something that is no type: the error has the position of the
reference and the file that it leads to. -/

namespace PropTables

open Relation

def ConversionFault.reference? : ConversionFault → Option String
  | undeclared name | typeParameter name | variable_ name | function name | foreignClass name _ _ =>
    some name
  | _ => none

/-- The fault is found at the node, in a module of the given file. -/
inductive Setting.Concerns (s : Setting) (file : Option String) : ConversionFault → FaultSite → Prop
  | disallowed (h : s.disallows t = some d) : Concerns s file (.disallowed d) (.type t)
  | qualified :
    Concerns s file (.qualified (".".intercalate (q :: qs ++ [name])))
      (.type (.reference loc (q :: qs) name args))
  | reference (hf : f.reference? = some name) :
    Concerns s file f (.type (.reference loc [] name []))
  | unknownGeneric (hg : s.generic name = .unknown) :
    Concerns s file (.unknownGeneric name) (.type (.reference loc [] name (a :: as)))
  | argumentCount (hn : expected ≠ (a :: as).length) :
    Concerns s file (.argumentCount name expected (a :: as).length)
      (.type (.reference loc [] name (a :: as)))
  | misplacedDefault (hg : s.generic name = .hasDefault) :
    Concerns s file (.misplacedDefault name) (.type (.reference loc [] name [a]))
  | intersectionOfOther : Concerns s file .intersectionOfOther (.branch types t)
  | callSignature (hk : o.calls = k :: ks) : Concerns s file .callSignature (.call o k)
  | indexerWithMembers (hm : o.members ≠ []) (hi : o.indexers ≠ []) :
    Concerns s file .indexerWithMembers (.type (.object o))
  | severalIndexers (hi : o.indexers = i :: j :: js) : Concerns s file .severalIndexers (.indexer o j)
  | spreadOfOther : Concerns s file .spreadOfOther (.spread p)
  | noTable : Concerns s file .noTable (.type t)
  | import_ (hi : x.import? = some i) (hf : s.library.Misses i file f) : Concerns s file f x
  | missingType (hp : p.key = .ofString field) (ht : p.ascription = none) :
    Concerns s file (.missingType field) (.property p)

/-- The fault is that a reference leads to what is bound there, which is no type or no type that can be
named. -/
inductive ConversionFault.Blames : ConversionFault → Binding → Prop
  | function : Blames (.function d.name) ⟨.function d, file⟩
  | variable_ : Blames (.variable_ v.name) ⟨.variable_ v, file⟩
  | foreignClass : Blames (.foreignClass (k.name.getD defaultName) file origin) ⟨.class_ k, file⟩

theorem ConversionFault.Blames.reference? {f : ConversionFault} {b : Binding} {name : String}
    (h : f.Blames b) (hn : b.referent.name? = some name) : f.reference? = some name := by
  cases h with
  | function | variable_ => exact hn
  | @foreignClass _ _ k =>
    have hk : k.name = some name := hn
    simp only [ConversionFault.reference?, hk, Option.getD_some]

/-- An error is reported where its node is, in a module that the conversion for `m` knows; or it blames
what a reference leads to through imports, at the reference's position in the other module's file. -/
inductive Setting.Reported (s : Setting) (m : Module) : ConversionError → Prop
  | here (hk : s.Known m holder) (hx : holder.Writes x) (hf : s.Concerns holder.file f x) :
    Reported s m (f.error x.loc holder.file)
  | there {f : ConversionFault} (hk : s.Known m holder) (hx : holder.Writes (.type (.reference loc [] name [])))
    (hb : (Scope.ofModule holder).lookup name = some b) (hd : TransGen s.library.ImportStep b d)
    (hf : f.Blames d) : Reported s m (f.error loc d.file)

namespace Setting

structure Stands (s : Setting) (m holder : Module) (c : Context) : Prop where
  known : s.Known m holder
  root : c.scope.root = .ofModule holder
  inner : ∀ f ∈ c.scope.inner, ∀ e ∈ f, ∃ p : TypeParameter, e.1 = p.name ∧ e.2.referent = .parameter p

inductive Written (s : Setting) (m : Module) : Call → Prop
  | type (hc : s.Stands m holder c) (ht : holder.Writes (.type t)) : Written s m (.type n t c)
  | parameter (hp : b.referent = .parameter p) (hc : s.Stands m holder c)
    (hu : holder.Writes (.type (.reference use.loc [] p.name []))) : Written s m (.binding n b use c)
  | binding (hk : s.Known m holder) (hu : holder.Writes (.type (.reference use.loc [] use.name [])))
    (hb₀ : (Scope.ofModule holder).lookup use.name = some b₀)
    (hsteps : ReflTransGen s.library.ImportStep b₀ b) (hc : s.Stands m target c)
    (hb : (name, b) ∈ (Scope.ofModule target).base) : Written s m (.binding n b use c)

section

variable {s : Setting} {m holder : Module} {c c' : Context} {t t' : TypeExpr} {x y : Call}
  {name : String} {b : Binding} {e : ConversionError}

theorem Stands.file (h : s.Stands m holder c) : c.scope.file = holder.file :=
  congrArg Scope.file h.root

theorem Stands.part (h : s.Stands m holder c) (hp : s.Part c t t' c') : s.Stands m holder c' := by
  obtain ⟨hscope, _⟩ := hp.context_eq
  exact ⟨h.known, hscope ▸ h.root, hscope ▸ h.inner⟩

theorem Stands.body (h : s.Stands m holder c) (params : List TypeParameter) :
    s.Stands m holder (c.body params) := by
  refine ⟨h.known, ?_, fun f hf e he => ?_⟩
  · rw [Context.root_body]
    exact h.root
  · obtain ⟨p, rfl⟩ := Scope.mem_withParams hf he
    exact ⟨p, rfl, rfl⟩

theorem Stands.lookup (h : s.Stands m holder c) (hb : c.scope.lookup name = some b) :
    (∃ p : TypeParameter, name = p.name ∧ b.referent = .parameter p) ∨
      (Scope.ofModule holder).lookup name = some b := by
  rcases Scope.lookup_cases hb with ⟨f, hf, hmem⟩ | hb
  · exact .inl (h.inner f hf _ hmem)
  · rw [h.root] at hb
    exact .inr hb

theorem Written.step (hl : s.library.Faithful) (h : s.Written m x) (hstep : s.Step x y) :
    s.Written m y := by
  cases hstep with
  | part hp =>
    cases h with
    | type hc ht => exact .type (hc.part hp) (ht.child hp.child)
  | lookup hb =>
    cases h with
    | type hc ht =>
      rcases hc.lookup hb with ⟨p, rfl, hp⟩ | hb
      · exact .parameter hp hc ht
      · exact .binding hc.known ht hb .refl hc (Scope.mem_base_of_lookup rfl hb)
  | import_ hr =>
    cases h with
    | parameter hp => cases hp
    | binding hk hu hb₀ hsteps hc hb =>
      obtain ⟨target, name, htarget, hscope, hmem⟩ := Library.resolveImport_eq_ok hl hr
      rw [hscope] at hmem
      -- The reference stays where it is written; only the module of the binding is another one.
      refine .binding hk hu hb₀ (hsteps.tail ⟨hr⟩) ⟨.inr htarget, ?_, ?_⟩ hmem
      · simp only [Context.through, hscope]
        rfl
      · intro f hf
        simp only [Context.through, hscope] at hf
        cases hf
  | typeAlias =>
    cases h with
    | parameter hp => cases hp
    | binding _ _ _ _ hc hb => exact .type (hc.body _) (Module.backs_of_mem_ofModule hb)
  | interface =>
    cases h with
    | parameter hp => cases hp
    | binding _ _ _ _ hc hb => exact .type (hc.body _) (Module.backs_of_mem_ofModule hb)

theorem Written.reaches (hl : s.library.Faithful) (h : s.Written m x) (hr : s.Reaches x y) :
    s.Written m y := by
  induction hr with
  | refl => exact h
  | tail _ hstep ih => exact ih.step hl hstep

theorem reported_of_raises_type {n : Nat} {f : ConversionFault} {loc : Position}
    (hc : s.Stands m holder c) (ht : holder.Writes (.type t)) (h : s.Raises (.type n t c) f loc) :
    s.Reported m (f.error loc c.scope.file) := by
  rw [hc.file]
  cases h with
  | disallowed h => exact .here hc.known ht (.disallowed h)
  | literal hmem h => exact .here hc.known (ht.child (.union hmem)) (.disallowed h)
  | qualified => exact .here hc.known ht .qualified
  | undeclared hb => exact .here hc.known ht (.reference rfl)
  | unknownGeneric hg => exact .here hc.known ht (.unknownGeneric hg)
  | argumentCount hn => exact .here hc.known ht (.argumentCount hn)
  | misplacedDefault hg => exact .here hc.known ht (.misplacedDefault hg)
  | intersectionOfOther hmem => exact .here hc.known (.branch ht hmem) .intersectionOfOther
  | callSignature => exact .here hc.known (.call ht List.mem_cons_self) (.callSignature rfl)
  | indexerWithMembers =>
    exact .here hc.known ht (.indexerWithMembers (List.cons_ne_nil _ _) (List.cons_ne_nil _ _))
  | severalIndexers =>
    have hsite := ht.indexer (List.mem_cons_of_mem _ List.mem_cons_self)
    exact .here hc.known hsite (.severalIndexers rfl)
  | spreadOfOther hp => exact .here hc.known (.spread ht hp) .spreadOfOther

theorem Written.reported_of_raises {n : Nat} {use : Use} {f : ConversionFault} {loc : Position}
    (h : s.Written m (.binding n b use c)) (hr : s.Raises (.binding n b use c) f loc) :
    s.Reported m (f.error loc c.scope.file) := by
  cases h with
  | parameter hp hc hu =>
    rw [hc.file]
    cases hr with
    | parameter =>
      cases hp
      exact .here hc.known hu (.reference rfl)
    | _ => cases hp
  | binding hk hu hb₀ hsteps hc hb =>
    have hfile : b.file = c.scope.file := (Scope.file_of_mem_ofModule hb).trans hc.file.symm
    obtain ⟨hblames, rfl⟩ : f.Blames b ∧ loc = use.loc := by
      cases hr with
      | parameter => cases Scope.name?_of_mem_ofModule hb
      | foreignClass => exact ⟨.foreignClass, rfl⟩
      | function => exact ⟨.function, rfl⟩
      | variable_ => exact ⟨.variable_, rfl⟩
    rw [← hfile]
    rcases reflTransGen_iff_eq_or_transGen.1 hsteps with rfl | hsteps
    · have hmem := Scope.mem_base_of_lookup rfl hb₀
      rw [Scope.file_of_mem_ofModule hmem]
      exact .here hk hu (.reference (hblames.reference? (Scope.name?_of_mem_ofModule hmem)))
    · exact .there hk hu hb₀ hsteps hblames

theorem Written.reported (h : s.Written m x) (he : s.FailsAt x (.conversion e)) :
    s.Reported m e := by
  cases he with
  | raised hr =>
    cases h with
    | type hc ht => exact reported_of_raises_type hc ht hr
    | parameter hp hc hu => exact (Written.parameter hp hc hu).reported_of_raises hr
    | binding hk hu hb₀ hsteps hc hb =>
      exact (Written.binding hk hu hb₀ hsteps hc hb).reported_of_raises hr
  | import_ hr =>
    cases h with
    | parameter hp => cases hp
    | binding _ _ _ _ hc hb =>
      obtain ⟨_, _, _, _, ⟨⟩⟩ | ⟨f, hmisses, ⟨⟩⟩ := Library.resolveImport_eq_error hr
      obtain ⟨x, hx, himport⟩ := Module.backs_of_mem_ofModule hb
      have hfile := Scope.file_of_mem_ofModule hb
      dsimp only at hfile
      subst hfile
      rw [← FaultSite.loc_of_import? himport]
      exact .here hc.known hx (.import_ himport hmisses)

theorem convertTable_reported {origin : Option String} (hl : s.library.Faithful)
    (ht : m.Writes (.type t))
    (h : (s.convertTable t (.ofModule m) origin).result = .error (.conversion e)) :
    s.Reported m e := by
  rcases Traced.bind_eq_error.1 h with h | ⟨v, _, h⟩
  · obtain ⟨y, hreach, hy⟩ := exists_failsAt (x := s.tableCall t (.ofModule m) origin) h
    have hstands : s.Stands m m (s.tableCall t (.ofModule m) origin).context :=
      ⟨.inl rfl, rfl, nofun⟩
    exact ((Written.type hstands ht).reaches hl hreach).reported hy
  · split at h
    · cases h
    · cases h
      exact .here (.inl rfl) ht .noTable

end

end Setting

theorem TypedField.reported {s : Setting} {m : Module} {h : HostOptions} {f : TypedField}
    {e : ConversionError} (hl : s.library.Faithful) (hf : f ∈ m.typedFields h)
    (he : (f.insertion s (.ofModule m)).result = .error (.conversion e)) :
    s.Reported m e := by
  obtain ⟨hk, _, _, hfound⟩ := Module.mem_typedFields.1 hf
  obtain ⟨hget, hkey⟩ := ClassDeclaration.property?_eq_some hfound
  have hmem : .property f.property ∈ f.owner.body := List.mem_of_getElem? hget
  have htable := Traced.bind_pure_eq_error.1 he
  unfold TypedField.table at htable
  split at htable
  next ht =>
    cases htable
    exact .here (.inl rfl) (.property hk hmem) (.missingType hkey ht)
  next t ht => exact Setting.convertTable_reported hl (Module.writes_field hk hmem ht) htable

theorem Module.transform_reported {m : Module} {options : ConvertOptions} {h : HostOptions}
    {l : Library} {e : ConversionError} (hl : l.Faithful)
    (he : (m.transform options h l).result = .error (.conversion e)) :
    (m.setting options h l).Reported m e := by
  obtain ⟨before, f, after, heq, _, hf⟩ := exists_first_of_transform_eq_error he
  have hmem : f ∈ m.typedFields h := by
    rw [heq]
    exact List.mem_append_right before List.mem_cons_self
  exact TypedField.reported (s := m.setting options h l) hl hmem (hf _)

/-- Every error is reported, of a conversion for an annotation of the module and of the transformation:
where its node is, unless it blames what a reference leads to through imports. -/
theorem Setting.errors_reported (s : Setting) (hl : s.library.Faithful) (m : Module) :
    (∀ t origin e, m.Writes (.type t) →
      (s.convertTable t (.ofModule m) origin).result = .error (.conversion e) → s.Reported m e) ∧
    ∀ h e, (m.transform s.options h s.library).result = .error (.conversion e) →
      (m.setting s.options h s.library).Reported m e :=
  ⟨fun _ _ _ ht he => convertTable_reported hl ht he, fun _ _ he => Module.transform_reported hl he⟩

def importingModule (name : String) : Module :=
  let source := Text.ofString "./other"
  let props : TypeExpr := .object ⟨⟨3, 10⟩, [.property ⟨⟨3, 11⟩, .ofString "a", "a",
    .reference ⟨3, 14⟩ [] name [], false, false, .none⟩], [], [], false, []⟩
  ⟨[.statement (.import_ ⟨⟨1, 1⟩, source, .value, [⟨⟨1, 9⟩, name, some name, source, .value⟩]⟩),
    .statement (.declaration (.class_ ⟨⟨2, 1⟩, some "Foo", [],
      some (.member ⟨2, 19⟩ (.name ⟨2, 19⟩ "React") "Component"), none,
      [.property ⟨⟨3, 3⟩, .ofString "props", some props, none, false, false, false⟩]⟩))],
    some "/src/main.js"⟩

def functionModule : Module :=
  ⟨[.exportDeclaration ⟨1, 1⟩ (.function ⟨⟨1, 8⟩, "f", [], none⟩)], some "/src/other.js"⟩

theorem functionModule_not_writes (x : FaultSite) : ¬ functionModule.Writes x := by
  have types (t : TypeExpr) : ¬ functionModule.Writes (.type t) := by
    rintro (⟨⟨i, hi, h⟩, _⟩)
    cases List.mem_singleton.1 hi
    rcases h with ⟨d, hd, ht⟩ | ⟨e, he, _⟩
    · cases hd
      cases ht with
      | param hp => cases hp
      | result ht => cases ht
    · cases he
  intro hx
  cases hx with
  | type h hu => exact types _ (.type h hu)
  | branch h | spread h | indexer h | call h => exact types _ h
  | imported hd | reexported hd => cases List.mem_singleton.1 hd
  | property hk => cases hk

def functionLibrary : Library :=
  .ofModules [("/src/other.js", functionModule)]

theorem functionLibrary_faithful : functionLibrary.Faithful := by
  refine .ofHoldings (.ofModules fun m hm => ?_)
  cases List.mem_singleton.1 hm
  rfl

theorem Setting.errors_reported_notExported :
    let m := importingModule "g"
    ∃ e, (m.transform .default .default functionLibrary).result = .error (.conversion e) ∧
      e.span = .atPosition ⟨1, 9⟩ m.file ∧
      (m.setting .default .default functionLibrary).Reported m e := by
  intro m
  have he : (m.transform .default .default functionLibrary).result = .error (.conversion
      ((ConversionFault.notExported (.ofString "./other") "g").error ⟨1, 9⟩ m.file)) := rfl
  exact ⟨_, he, rfl, (Setting.errors_reported ⟨.default, .default, functionLibrary⟩
    functionLibrary_faithful m).2 .default _ he⟩

/-- The function `f` is no type, and the error gives the position of the reference to it in the file
of the function, in which there is no node. -/
theorem Setting.not_errors_reported_here :
    let m := importingModule "f"
    let s := m.setting .default .default functionLibrary
    ∃ e, (m.transform .default .default functionLibrary).result = .error (.conversion e) ∧
      e.span = .atPosition ⟨3, 14⟩ functionModule.file ∧
      ∀ holder x, s.Known m holder → holder.file = e.span.file → ¬ holder.Writes x := by
  intro m s
  refine ⟨(ConversionFault.function "f").error ⟨3, 14⟩ functionModule.file, rfl, rfl, ?_⟩
  intro holder x hk hfile
  rcases hk with rfl | ⟨path, _, hm⟩
  · exact absurd hfile (by decide)
  · obtain ⟨e, he, hm⟩ := Library.mem_ofModules hm
    cases List.mem_singleton.1 he
    cases congrArg LoadedModule.source hm
    exact functionModule_not_writes x

end PropTables
