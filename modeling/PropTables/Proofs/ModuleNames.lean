import PropTables.Proofs.Imports

/-! The names of a module. Setting the exports aside keeps the names that the items bind as they are
written, and makes up names: one for every name that is exported from another module, and one for a
default export without a name. In the module's scope both kinds count alike. -/

namespace PropTables

namespace Item

def own : Item → List (String × Referent)
  | statement s => s.binds
  | exportDeclaration _ d => d.binds
  | exportDefault _ (.class_ c) => (Declaration.class_ c).binds
  | exportDefault _ (.function f) => (Declaration.function f).binds
  | exportDefault _ (.expression _) | exportNamed _ | exportAll .. => []

/-- The names that an item binds for the sake of its exports only. -/
def madeUp : Item → List (String × Referent)
  | exportNamed e =>
    match e.source with
    | some source => e.specifiers.map fun s => (s.exported, .import_ (s.toImport source e.kind))
    | none => []
  | exportDefault _ (.class_ c) =>
    if c.name.isNone then [(defaultName, .class_ { c with name := some defaultName })] else []
  | exportDefault _ (.expression (.name ..)) => []
  | exportDefault loc (.expression e) => [(defaultName, .variable_ ⟨loc, defaultName, none, some e⟩)]
  | _ => []

theorem binds_statements (i : Item) : i.statements.flatMap Statement.binds = i.own ++ i.madeUp := by
  cases i with
  | statement s => simp [statements, own, madeUp]
  | exportDeclaration loc d => simp [statements, own, madeUp, Statement.binds]
  | exportAll => rfl
  | exportNamed e =>
    cases hs : e.source with
    | none => simp [statements, own, madeUp, hs]
    | some source =>
      simp only [statements, own, madeUp, hs, List.flatMap_cons, List.flatMap_nil, List.append_nil,
        List.nil_append, Statement.binds, List.map_map]
      rfl
  | exportDefault loc d =>
    cases d with
    | function f => rfl
    | expression e => cases e <;> rfl
    | class_ c =>
      obtain ⟨loc, name, params, superclass, superArgs, body⟩ := c
      cases name <;> rfl

end Item

namespace Module

def own (m : Module) : List (String × Referent) :=
  m.items.flatMap Item.own

def madeUp (m : Module) : List (String × Referent) :=
  m.items.flatMap Item.madeUp

def ownOf (m : Module) (name : String) : List (String × Referent) :=
  m.own.filter (·.1 == name)

def madeUpOf (m : Module) (name : String) : List (String × Referent) :=
  m.madeUp.filter (·.1 == name)

variable (m : Module) {name : String}

theorem binds_ofModule :
    (FlatModule.ofModule m).binds = m.items.flatMap fun i => i.own ++ i.madeUp := by
  unfold FlatModule.binds FlatModule.ofModule
  rw [List.flatMap_assoc]
  congr 1
  funext i
  exact i.binds_statements

theorem mem_binds_ofModule {e : String × Referent} :
    e ∈ (FlatModule.ofModule m).binds ↔ e ∈ m.own ∨ e ∈ m.madeUp := by
  rw [binds_ofModule, own, madeUp]
  simp only [List.mem_flatMap, List.mem_append]
  constructor
  · rintro ⟨i, hi, he | he⟩
    · exact .inl ⟨i, hi, he⟩
    · exact .inr ⟨i, hi, he⟩
  · rintro (⟨i, hi, he⟩ | ⟨i, hi, he⟩)
    · exact ⟨i, hi, .inl he⟩
    · exact ⟨i, hi, .inr he⟩

theorem filter_eq_nil_of_not_mem {l : List (String × Referent)} (h : name ∉ l.map (·.1)) :
    l.filter (·.1 == name) = [] := by
  rw [List.filter_eq_nil_iff]
  intro e he hname
  exact h (List.mem_map.2 ⟨e, he, beq_iff_eq.1 hname⟩)

theorem filter_binds :
    (FlatModule.ofModule m).binds.filter (·.1 == name) =
      m.items.flatMap fun i => i.own.filter (·.1 == name) ++ i.madeUp.filter (·.1 == name) := by
  rw [binds_ofModule, List.filter_flatMap]
  simp only [List.filter_append]

theorem filter_binds_of_not_madeUp (h : name ∉ m.madeUp.map (·.1)) :
    (FlatModule.ofModule m).binds.filter (·.1 == name) = m.ownOf name := by
  rw [filter_binds, ownOf, own, List.filter_flatMap]
  refine List.flatMap_congr fun i hi => ?_
  have hi : name ∉ i.madeUp.map (·.1) := fun hname =>
    h (List.map_subset _ (fun _ he => List.mem_flatMap.2 ⟨i, hi, he⟩) hname)
  rw [filter_eq_nil_of_not_mem hi, List.append_nil]

theorem filter_binds_of_not_own (h : name ∉ m.own.map (·.1)) :
    (FlatModule.ofModule m).binds.filter (·.1 == name) = m.madeUpOf name := by
  rw [filter_binds, madeUpOf, madeUp, List.filter_flatMap]
  refine List.flatMap_congr fun i hi => ?_
  have hi : name ∉ i.own.map (·.1) := fun hname =>
    h (List.map_subset _ (fun _ he => List.mem_flatMap.2 ⟨i, hi, he⟩) hname)
  rw [filter_eq_nil_of_not_mem hi, List.nil_append]

theorem lookup_ofModule :
    (Scope.ofModule m).lookup name =
      ((FlatModule.ofModule m).binds.filter (·.1 == name)).getLast?.map fun e => ⟨e.2, m.file⟩ := by
  have hframe : (Scope.ofModule m).lookup name = (Scope.ofModule m).base.lookup name := by
    simp only [Scope.lookup, Scope.frames, Scope.ofModule, Scope.ofFlatModule, List.nil_append,
      List.findSome?_cons, List.findSome?_nil]
    cases Frame.lookup _ name <;> rfl
  rw [hframe, Frame.lookup, ← List.head?_filter, List.filter_reverse, List.head?_reverse]
  simp only [Scope.ofModule, Scope.ofFlatModule, List.filter_map, List.getLast?_map, Option.map_map]
  rfl

theorem exists_lookup_ofModule_iff :
    (∃ b, (Scope.ofModule m).lookup name = some b) ↔
      name ∈ m.own.map (·.1) ∨ name ∈ m.madeUp.map (·.1) := by
  have hsome : (∃ b, (Scope.ofModule m).lookup name = some b) ↔
      ∃ e ∈ (FlatModule.ofModule m).binds, e.1 = name := by
    rw [lookup_ofModule, ← Option.isSome_iff_exists, Option.isSome_map, List.getLast?_isSome,
      Ne, List.filter_eq_nil_iff]
    simp
  rw [hsome]
  simp only [mem_binds_ofModule, List.mem_map]
  constructor
  · rintro ⟨e, he | he, hname⟩
    · exact .inl ⟨e, he, hname⟩
    · exact .inr ⟨e, he, hname⟩
  · rintro (⟨e, he, hname⟩ | ⟨e, he, hname⟩)
    · exact ⟨e, .inl he, hname⟩
    · exact ⟨e, .inr he, hname⟩

/-- The module's scope binds the names that its items bind as they are written, and besides them the
made-up names. A name that is not made up stands for the one item that binds it; a made-up name that
no item binds as it is written stands for the one export it is made up for. -/
theorem scope_binds_written_and_madeUp (m : Module) (name : String) :
    ((∃ b, (Scope.ofModule m).lookup name = some b) ↔
      name ∈ m.own.map (·.1) ∨ name ∈ m.madeUp.map (·.1)) ∧
    (name ∉ m.madeUp.map (·.1) → ∀ r, m.ownOf name = [(name, r)] →
      (Scope.ofModule m).lookup name = some ⟨r, m.file⟩) ∧
    (name ∉ m.own.map (·.1) → ∀ r, m.madeUpOf name = [(name, r)] →
      (Scope.ofModule m).lookup name = some ⟨r, m.file⟩) := by
  refine ⟨m.exists_lookup_ofModule_iff, fun hname r hr => ?_, fun hname r hr => ?_⟩
  · rw [lookup_ofModule, filter_binds_of_not_madeUp m hname, hr]
    rfl
  · rw [lookup_ofModule, filter_binds_of_not_own m hname, hr]
    rfl

def sizeAlias : TypeAlias :=
  ⟨⟨1, 1⟩, "Size", [], .primitive ⟨1, 13⟩ .number⟩

def sizeModule (exported : String) : Module :=
  ⟨[.statement (.declaration (.typeAlias sizeAlias)),
    .exportNamed ⟨⟨2, 1⟩, [⟨⟨2, 9⟩, "Area", exported⟩, ⟨⟨2, 23⟩, "Row", "Row"⟩],
      some (.ofString "./m"), .value⟩], some "/src/main.js"⟩

theorem scope_binds_written_and_madeUp_extent :
    let m := sizeModule "Extent"
    "Size" ∉ m.madeUp.map (·.1) ∧ m.ownOf "Size" = [("Size", .typeAlias sizeAlias)] ∧
      (Scope.ofModule m).lookup "Size" = some ⟨.typeAlias sizeAlias, some "/src/main.js"⟩ := by
  intro m
  have hname : "Size" ∉ m.madeUp.map (·.1) := by decide
  obtain ⟨_, hown, _⟩ := scope_binds_written_and_madeUp m "Size"
  exact ⟨hname, rfl, hown hname _ rfl⟩

/-- The alias alone is written under the name `Size`, and the scope gives the name to an import; `Row`
is written nowhere, and the scope binds it. -/
theorem not_scope_binds_written_only :
    let m := sizeModule "Size"
    m.ownOf "Size" = [("Size", .typeAlias sizeAlias)] ∧
    (Scope.ofModule m).lookup "Size" =
      some ⟨.import_ ⟨⟨2, 9⟩, "Size", some "Area", .ofString "./m", .value⟩, some "/src/main.js"⟩ ∧
    "Row" ∉ m.own.map (·.1) ∧ ∃ b, (Scope.ofModule m).lookup "Row" = some b :=
  ⟨rfl, rfl, by decide, _, rfl⟩

end Module

end PropTables
