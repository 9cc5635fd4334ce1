import PropTables.Proofs.FixedNames
import PropTables.Proofs.TableNames

/-! The imports that a transformation adds: one for each library that a table uses and for no other,
under names that nothing else has. -/

namespace PropTables

def TransformResult.addedNames (r : TransformResult) : List String :=
  r.addedImports.flatMap fun d => d.specifiers.map (·.binds)

namespace LibraryNames

theorem exists_pending_iff {l : LibraryNames} {source : Text} {name : String} :
    (∃ d ∈ l.pending, d.BindsDefault source name) ↔ (source, name) ∈ l.given := by
  unfold pending
  constructor
  · rintro ⟨d, hd, hbinds⟩
    obtain ⟨g, hg, rfl⟩ := List.mem_map.1 hd
    obtain ⟨hsource, hname⟩ := (bindsDefault_importOf g.1 g.2).unique hbinds
    rwa [← hsource, ← hname]
  · intro h
    exact ⟨_, List.mem_map_of_mem h, bindsDefault_importOf source name⟩

theorem sources_pending (l : LibraryNames) : l.pending.map (·.source) = l.given.map (·.1) := by
  unfold pending
  rw [List.map_map]
  rfl

theorem names_pending (l : LibraryNames) :
    (l.pending.flatMap fun d => d.specifiers.map (·.binds)) = l.given.map (·.2) := by
  unfold pending
  rw [List.flatMap_map]
  exact List.map_eq_flatMap.symm

end LibraryNames

def Validator.Uses (e : Validator) (name : String) : LibraryRole → Prop
  | .validators => e.accesses name = true
  | .combination => e.calls name = true

theorem Vocabulary.mentions_iff {v : Vocabulary} {role : LibraryRole} {e : Validator} :
    v.Mentions role e ↔ e.Uses (v.name role) role := by
  cases role <;> rfl

def Vocabulary.rename (v : Vocabulary) (role : LibraryRole) (name : String) : Vocabulary :=
  match role with
  | .validators => { v with namespaceName := name }
  | .combination => { v with allName := name }

theorem HostOptions.Agrees.rename {h : HostOptions} {v : Vocabulary} {names : LibraryNames}
    {role : LibraryRole} (hv : h.Agrees v names) (hr : ¬ h.Asked names role) (name : String) :
    h.Agrees (v.rename role name) names := by
  intro role' name' hmem
  have hne : role' ≠ role := by
    rintro rfl
    exact hr ⟨name', hmem⟩
  rw [← hv role' name' hmem]
  cases role <;> cases role' <;> first | rfl | exact (hne rfl).elim

namespace Module

variable {m : Module} {options : ConvertOptions} {h : HostOptions} {l : Library}
  {groups : List (List Insertion)} {names : LibraryNames} {v : Vocabulary}

theorem Converts.convertTable (hc : m.Converts options h l groups names) (hv : h.Agrees v names)
    {t : Insertion} (ht : t ∈ groups.flatten) :
    ∃ a, (Setting.convertTable ⟨options, v, l⟩ a (.ofModule m) m.file).result = .ok t.table.table := by
  obtain ⟨f, _, hf⟩ := forall₂_mem_right (hc.typedFields hv) ht
  obtain ⟨a, table, _, htable, rfl⟩ := TypedField.insertion_eq_ok.1 hf
  exact ⟨a, htable⟩

theorem Converts.name_eq (hc : m.Converts options h l groups names) (hv : h.Agrees v names)
    {t : Insertion} (ht : t ∈ groups.flatten) {role : LibraryRole} {name : String}
    (huse : t.table.table.Uses name role) : name = v.name role := by
  obtain ⟨a, ha⟩ := hc.convertTable hv ht
  have hclean := Setting.clean_of_convertTable ha
  cases role with
  | validators => exact hclean.accesses name huse
  | combination => exact hclean.calls name huse

theorem Converts.asked (hc : m.Converts options h l groups names) {t : Insertion}
    (ht : t ∈ groups.flatten) {role : LibraryRole} {name : String}
    (huse : t.table.table.Uses name role) : h.Asked names role := by
  obtain ⟨v, hv⟩ := hc.consistent.exists_agrees
  by_contra hr
  have hother : name = (v.rename role (name ++ "_")).name role :=
    hc.name_eq (hv.rename hr (name ++ "_")) ht huse
  have hname : (v.rename role (name ++ "_")).name role = name ++ "_" := by
    cases role <;> rfl
  rw [hname] at hother
  have hempty : "_" = "" := String.append_eq_left_iff.1 hother.symm
  exact absurd hempty (by decide)

theorem Converts.given_iff (hc : m.Converts options h l groups names)
    (hs : h.propTypesSource ≠ h.allSource) (role : LibraryRole) (name : String) :
    (h.source role, name) ∈ names.given ↔ ∃ t ∈ groups.flatten, t.table.table.Uses name role := by
  obtain ⟨v, hv⟩ := hc.consistent.exists_agrees
  constructor
  · intro hmem
    obtain ⟨t, ht, hm⟩ := hc.mentions hs v hv role ⟨name, hmem⟩
    rw [Vocabulary.mentions_iff, hv role name hmem] at hm
    exact ⟨t, ht, hm⟩
  · rintro ⟨t, ht, huse⟩
    obtain ⟨name', hmem⟩ := hc.asked ht huse
    rw [hc.name_eq hv ht huse, hv role name' hmem]
    exact hmem

theorem Converts.given_eq_nil (hc : m.Converts options h l groups names)
    (hs : h.propTypesSource ≠ h.allSource) (hnil : groups.flatten = []) : names.given = [] := by
  refine List.eq_nil_iff_forall_not_mem.2 fun g hg => ?_
  obtain ⟨role, hrole⟩ := hc.consistent.asked g hg
  have hmem : (h.source role, g.2) ∈ names.given := hrole ▸ hg
  obtain ⟨t, ht, _⟩ := (hc.given_iff hs role g.2).1 hmem
  rw [hnil] at ht
  cases ht

theorem Converts.addedImports_insert (hc : m.Converts options h l groups names)
    (hs : h.propTypesSource ≠ h.allSource) :
    (m.insert groups names.pending).addedImports = names.pending := by
  rcases m.insert_cases groups names.pending with ⟨hnil, heq⟩ | ⟨_, _, heq, _⟩
  · rw [heq, LibraryNames.pending, hc.given_eq_nil hs hnil]
    rfl
  · exact heq

theorem Converts.free_given (hc : m.Converts options h l groups names) {name : String}
    (hmem : name ∈ names.given.map (·.2)) :
    (∀ b, (name, b) ∉ (Scope.ofModule m).base) ∧ ∀ k ∈ m.classes, k.name ≠ some name := by
  have hfree := hc.consistent.free name hmem
  refine ⟨fun b hb => hfree ?_, fun k hk hname => hfree ?_⟩
  · exact List.mem_append_left _ (List.mem_map_of_mem (f := Prod.fst) hb)
  · exact List.mem_append_right _ (List.mem_filterMap.2 ⟨k, hk, hname⟩)

/-- A library is imported under the names that tables use it by. -/
theorem Converts.exists_pending_iff (hc : m.Converts options h l groups names)
    (hs : h.propTypesSource ≠ h.allSource) (role : LibraryRole) (name : String) :
    (∃ d ∈ names.pending, d.BindsDefault (h.source role) name) ↔
      ∃ g ∈ groups.flatten.map (·.table), g.table.Uses name role := by
  rw [LibraryNames.exists_pending_iff, hc.given_iff hs role name]
  simp only [List.mem_map, exists_exists_and_eq_and]

/-- A transformation imports the validators if a table takes a member of their local name, and their
combination if a table calls its local name. There is no other import and no library is imported twice.
The local names differ from each other, from the names that the module binds, from those of its
classes, and, if the library has the module itself under the module's path, from those of the classes
that the tables test. -/
theorem addedImports_exact (m : Module) (options : ConvertOptions) (h : HostOptions) (l : Library)
    (hs : h.propTypesSource ≠ h.allSource) {r : TransformResult}
    (hr : (m.transform options h l).result = .ok r) :
    (∀ name, (∃ d ∈ r.addedImports, d.BindsDefault h.propTypesSource name) ↔
      ∃ g ∈ r.components, g.table.accesses name = true) ∧
    (∀ name, (∃ d ∈ r.addedImports, d.BindsDefault h.allSource name) ↔
      ∃ g ∈ r.components, g.table.calls name = true) ∧
    (∀ d ∈ r.addedImports, ∃ name, d.BindsDefault h.propTypesSource name ∨
      d.BindsDefault h.allSource name) ∧
    (r.addedImports.map (·.source)).Nodup ∧
    r.addedNames.Nodup ∧
    (∀ name ∈ r.addedNames, (∀ b, (name, b) ∉ (Scope.ofModule m).base) ∧
      ∀ k ∈ m.classes, k.name ≠ some name) ∧
    (l.Faithful → (∀ m', l.Offers m' → m'.file = m.file → m' = m) →
      ∀ name ∈ r.addedNames, ∀ g ∈ r.components, ¬ g.table.Tests name) := by
  obtain ⟨groups, names, hc, rfl⟩ := converts_of_transform hr
  have hadded := hc.addedImports_insert hs
  have hnames : (m.insert groups names.pending).addedNames = names.given.map (·.2) := by
    rw [TransformResult.addedNames, hadded, LibraryNames.names_pending]
  rw [hadded, components_insert, hnames]
  refine ⟨hc.exists_pending_iff hs .validators, hc.exists_pending_iff hs .combination,
    fun d hd => ?_, ?_, hc.consistent.names, fun name hmem => hc.free_given hmem, ?_⟩
  · obtain ⟨⟨source, name⟩, hg, rfl⟩ := List.mem_map.1 hd
    obtain ⟨role, hrole⟩ := hc.consistent.asked _ hg
    change source = h.source role at hrole
    subst hrole
    cases role with
    | validators => exact ⟨name, .inl (LibraryNames.bindsDefault_importOf _ name)⟩
    | combination => exact ⟨name, .inr (LibraryNames.bindsDefault_importOf _ name)⟩
  · rw [LibraryNames.sources_pending]
    exact hc.consistent.sources
  · intro hl ho name hmem g hg htests
    -- a class that a table tests is bound in the module under the name that it is tested by
    obtain ⟨t, ht, rfl⟩ := List.mem_map.1 hg
    obtain ⟨v, hv⟩ := hc.consistent.exists_agrees
    obtain ⟨a, ha⟩ := hc.convertTable hv ht
    obtain ⟨b, hb⟩ := Setting.bound_of_tests hl ho ha htests
    exact (hc.free_given hmem).1 b hb

def takenModule : Module :=
  let props : TypeExpr := .object ⟨⟨3, 10⟩, [.property ⟨⟨3, 11⟩, .ofString "a", "a",
    .reference ⟨3, 14⟩ [] "_PropTypes" [], false, false, .none⟩], [], [], false, []⟩
  ⟨[.statement (.declaration (.class_ ⟨⟨1, 1⟩, some "_PropTypes", [], none, none, []⟩)),
    .statement (.declaration (.class_ ⟨⟨2, 1⟩, some "Foo", [],
      some (.member ⟨2, 19⟩ (.name ⟨2, 19⟩ "React") "Component"), none,
      [.property ⟨⟨3, 3⟩, .ofString "props", some props, none, false, false, false⟩]⟩))],
    some "/src/main.js"⟩

theorem addedImports_exact_taken :
    ∃ r, (takenModule.transform .default .default (.ofTable .none [] .default)).result = .ok r ∧
      r.addedNames = ["_PropTypes2"] ∧ (∃ g ∈ r.components, g.table.Tests "_PropTypes") ∧
      ∀ name ∈ r.addedNames, ∀ g ∈ r.components, ¬ g.table.Tests name := by
  have hs : HostOptions.default.propTypesSource ≠ HostOptions.default.allSource := by decide
  have ho : ∀ m', (Library.ofTable .none [] .default).Offers m' → m'.file = takenModule.file →
      m' = takenModule := by
    rintro m' ⟨path, _, hm⟩
    cases hm
  refine ⟨_, rfl, rfl, ⟨_, List.mem_cons_self, ?_⟩, ?_⟩
  · exact .field List.mem_cons_self (.base (.here (List.mem_singleton_self (Validator.named "_PropTypes"))))
  · obtain ⟨_, _, _, _, _, _, htests⟩ := addedImports_exact takenModule .default .default
      (.ofTable .none [] .default) hs rfl
    exact htests (.ofTable .none [] .default) ho

end Module

end PropTables
