import PropTables.Proofs.TypedFields

/-! Names that are chosen on the way are as good as names that are fixed in advance: whether a field
converts, and which error there is, does not depend on names at all, and the tables are those of
conversions that know the names from the start. -/

namespace PropTables

/-- The vocabulary has the local names of the imports. For a library that is not imported it may have
any name. -/
def HostOptions.Serves (h : HostOptions) (v : Vocabulary) (imports : List ImportDeclaration) : Prop :=
  ∀ d ∈ imports, ∀ role, d.source = h.source role → ∀ i ∈ d.specifiers, i.binds = v.name role

theorem HostOptions.serves_pending {h : HostOptions} {v : Vocabulary} {names : LibraryNames} :
    h.Serves v names.pending ↔ h.Agrees v names := by
  constructor
  · intro hv role name hmem
    have himport : LibraryNames.importOf (h.source role) name ∈ names.pending :=
      List.mem_map_of_mem (f := fun g => LibraryNames.importOf g.1 g.2) hmem
    exact (hv _ himport role rfl _ (List.mem_singleton_self _)).symm
  · intro hv d hd role hsource i hi
    obtain ⟨⟨source, name⟩, hmem, rfl⟩ := List.mem_map.1 hd
    cases List.mem_singleton.1 hi
    change source = h.source role at hsource
    subst hsource
    exact (hv role name hmem).symm

section

variable {options : ConvertOptions} {h : HostOptions} {l : Library} {scope : Scope} {f : TypedField}
  {v w : Vocabulary} {e : Failure}

theorem TypedField.insertion_outcomes (h : HostOptions) (f : TypedField) (options : ConvertOptions)
    (l : Library) (scope : Scope) (v w : Vocabulary) :
    ((∃ e, (f.insertion ⟨options, v, l⟩ scope).result = .error e ∧
      (f.insertion ⟨options, w, l⟩ scope).result = .error e) ∨
    ∃ a b, (f.insertion ⟨options, v, l⟩ scope).result = .ok a ∧
      (f.insertion ⟨options, w, l⟩ scope).result = .ok b) := by
  have beside (v : Vocabulary) := (OpenSetting.convertField_matches (l := .ofTaken []) (v := v)
    (h.openSetting_asks options l) scope f).outcome
  have hv : Outcome h v _ _ _ _ (f.insertion ⟨options, v, l⟩ scope).result := beside v
  have hw : Outcome h w _ _ _ _ (f.insertion ⟨options, w, l⟩ scope).result := beside w
  generalize (f.insertion ⟨options, v, l⟩ scope).result = result at hv
  generalize (f.insertion ⟨options, w, l⟩ scope).result = result' at hw
  generalize ((h.openSetting options l).convertField scope f (.ofTaken [])).1.result = run at hv hw
  cases hv with
  | error e =>
    cases hw
    exact .inl ⟨e, rfl, rfl⟩
  | ok ha =>
    cases hw
    exact .inr ⟨_, _, rfl, rfl⟩

theorem TypedField.insertion_eq_error (h : HostOptions) (w : Vocabulary)
    (he : (f.insertion ⟨options, v, l⟩ scope).result = .error e) :
    (f.insertion ⟨options, w, l⟩ scope).result = .error e := by
  rcases f.insertion_outcomes h options l scope v w with ⟨e', hv, hw⟩ | ⟨a, _, hv, _⟩
  · rw [he] at hv
    cases hv
    exact hw
  · rw [he] at hv
    cases hv

theorem TypedField.exists_insertion (h : HostOptions) (w : Vocabulary)
    (hv : ∃ t, (f.insertion ⟨options, v, l⟩ scope).result = .ok t) :
    ∃ t, (f.insertion ⟨options, w, l⟩ scope).result = .ok t := by
  obtain ⟨t, ht⟩ := hv
  rcases f.insertion_outcomes h options l scope v w with ⟨e, he, _⟩ | ⟨_, t', _, ht'⟩
  · rw [ht] at he
    cases he
  · exact ⟨t', ht'⟩

theorem TypedField.insertion_eq_ok {s : Setting} {t : Insertion} :
    (f.insertion s scope).result = .ok t ↔
      ∃ a table, f.property.ascription = some a ∧
        (s.convertTable a scope scope.file).result = .ok table ∧ t = ⟨f.index, f.generated table⟩ := by
  unfold insertion TypedField.table
  simp only [Traced.bind_eq_ok, Traced.pure_eq_ok]
  cases f.property.ascription with
  | none =>
    constructor
    · rintro ⟨_, htable, _⟩
      cases htable
    · rintro ⟨_, _, ht, _⟩
      cases ht
  | some a =>
    constructor
    · rintro ⟨table, htable, rfl⟩
      exact ⟨a, table, rfl, htable, rfl⟩
    · rintro ⟨_, table, ⟨⟩, htable, rfl⟩
      exact ⟨table, htable, rfl⟩

theorem TypedField.table_eq_error {s : Setting} (he : (f.insertion s scope).result = .error e) :
    (f.table s scope).result = .error e :=
  Traced.bind_pure_eq_error.1 he

theorem TypedField.convertTable_eq_error {s : Setting} {a : TypeExpr}
    (ha : f.property.ascription = some a) (he : (f.insertion s scope).result = .error e) :
    (s.convertTable a scope scope.file).result = .error e := by
  have htable := TypedField.table_eq_error he
  rwa [TypedField.table, ha] at htable

theorem TypedField.eq_missingType {s : Setting} (ha : f.property.ascription = none)
    (he : (f.insertion s scope).result = .error e) :
    e = .conversion ((ConversionFault.missingType f.field.1).error f.property.loc scope.file) := by
  have htable := TypedField.table_eq_error he
  rw [TypedField.table, ha] at htable
  cases htable
  rfl

end

namespace Module

variable {m : Module} {options : ConvertOptions} {h : HostOptions} {l : Library} {e : Failure}
  {r : TransformResult}

theorem insert_cases (m : Module) (groups : List (List Insertion)) (added : List ImportDeclaration) :
    (groups.flatten = [] ∧ m.insert groups added = ⟨m, [], []⟩) ∨
    (groups.flatten ≠ [] ∧ (m.insert groups added).components = groups.flatten.map (·.table) ∧
      (m.insert groups added).addedImports = added ∧
      (m.insert groups added).result = ⟨added.map (fun d => .statement (.import_ d)) ++
        List.zipWith (fun i ts => Item.insert ts i) m.items groups, m.file⟩) := by
  unfold insert
  by_cases hnil : groups.flatten = []
  · refine .inl ⟨hnil, ?_⟩
    rw [hnil]
    rfl
  · have htables : (groups.flatten.map (·.table)).isEmpty = false := by simpa using hnil
    refine .inr ⟨hnil, ?_⟩
    simp only [htables]
    exact ⟨rfl, rfl, rfl⟩

theorem components_insert (m : Module) (groups : List (List Insertion))
    (added : List ImportDeclaration) :
    (m.insert groups added).components = groups.flatten.map (·.table) := by
  rcases m.insert_cases groups added with ⟨hnil, heq⟩ | ⟨_, heq, _, _⟩
  · rw [heq, hnil]
    rfl
  · exact heq

theorem Converts.typedFields {groups : List (List Insertion)} {names : LibraryNames} {v : Vocabulary}
    (hc : m.Converts options h l groups names) (hv : h.Agrees v names) :
    List.Forall₂ (fun f t => (f.insertion ⟨options, v, l⟩ (.ofModule m)).result = .ok t)
      (m.typedFields h) groups.flatten := by
  have hitems := hc.items v hv
  rw [typedFields_eq]
  clear hc hv
  generalize m.items = items at hitems ⊢
  induction hitems with
  | nil => exact .nil
  | cons hi _ ih =>
    rw [List.flatMap_cons, List.flatten_cons]
    exact List.rel_append hi ih

theorem exists_first_of_transform_eq_error
    (he : (m.transform options h l).result = .error e) :
    ∃ before f after, m.typedFields h = before ++ f :: after ∧
      (∀ f' ∈ before, ∀ v, ∃ t, (f'.insertion ⟨options, v, l⟩ (.ofModule m)).result = .ok t) ∧
      ∀ v, (f.insertion ⟨options, v, l⟩ (.ofModule m)).result = .error e := by
  have hrun := transform_eq_error.1 he
  obtain ⟨_, hout⟩ := m.convertItems_outcome options h l .default
  rw [hrun] at hout
  have hitems : (m.insertions h ⟨options, .default, l⟩).result = .error e := by
    generalize (m.insertions h ⟨options, .default, l⟩).result = result at hout
    cases hout
    rfl
  have hfields : ((m.typedFields h).mapM fun f : TypedField =>
      f.insertion ⟨options, .default, l⟩ (.ofModule m)).result = .error e := by
    rw [mapM_typedFields]
    exact Traced.bind_pure_eq_error.2 hitems
  obtain ⟨before, f, after, heq, hf, hbefore⟩ := Traced.exists_first_of_mapM_eq_error hfields
  refine ⟨before, f, after, heq, fun f' hf' v => ?_, fun v => ?_⟩
  · exact TypedField.exists_insertion h v (hbefore f' hf')
  · exact TypedField.insertion_eq_error h v hf

theorem exists_insertion_of_transform_eq_ok (hr : (m.transform options h l).result = .ok r)
    {f : TypedField} (hf : f ∈ m.typedFields h) (v : Vocabulary) :
    ∃ t, (f.insertion ⟨options, v, l⟩ (.ofModule m)).result = .ok t := by
  obtain ⟨groups, names, hc, _⟩ := converts_of_transform hr
  obtain ⟨w, hw⟩ := hc.consistent.exists_agrees
  obtain ⟨t, _, ht⟩ := forall₂_mem_left (hc.typedFields hw) hf
  exact TypedField.exists_insertion h v ⟨t, ht⟩

theorem exists_transform_iff (v : Vocabulary) :
    (∃ r, (m.transform options h l).result = .ok r) ↔
      ∀ f ∈ m.typedFields h, ∃ t, (f.insertion ⟨options, v, l⟩ (.ofModule m)).result = .ok t := by
  constructor
  · rintro ⟨r, hr⟩ f hf
    exact exists_insertion_of_transform_eq_ok hr hf v
  · intro hall
    cases hresult : (m.transform options h l).result with
    | ok r => exact ⟨r, rfl⟩
    | error e =>
      -- the first field that fails does so with every vocabulary, with this one too
      obtain ⟨before, f, after, heq, _, hf⟩ := exists_first_of_transform_eq_error hresult
      have hmem : f ∈ m.typedFields h := by
        rw [heq]
        exact List.mem_append_right before List.mem_cons_self
      obtain ⟨t, ht⟩ := hall f hmem
      cases (hf v).symm.trans ht

/-- The tables of a transformation are those of its fields with the names of the imports. -/
theorem components_of_transform (hr : (m.transform options h l).result = .ok r) :
    (∃ v, h.Serves v r.addedImports) ∧
      ∀ v, h.Serves v r.addedImports → List.Forall₂
        (fun f g => ∃ i, (f.insertion ⟨options, v, l⟩ (.ofModule m)).result = .ok ⟨i, g⟩)
        (m.typedFields h) r.components := by
  obtain ⟨groups, names, hc, rfl⟩ := converts_of_transform hr
  obtain ⟨w, hw⟩ := hc.consistent.exists_agrees
  have tables {v : Vocabulary} (hv : h.Agrees v names) : List.Forall₂
      (fun f g => ∃ i, (f.insertion ⟨options, v, l⟩ (.ofModule m)).result = .ok ⟨i, g⟩)
      (m.typedFields h) (groups.flatten.map (·.table)) := by
    rw [List.forall₂_map_right_iff]
    exact (hc.typedFields hv).imp fun f t ht => ⟨t.index, ht⟩
  rcases m.insert_cases groups names.pending with ⟨hnil, heq⟩ | ⟨_, hcomponents, hadded, _⟩
  · -- no table: whatever the names of the run, there is no typed field
    have hnone := tables hw
    rw [hnil, List.map_nil, List.forall₂_nil_right_iff] at hnone
    rw [heq, hnone]
    exact ⟨⟨w, nofun⟩, fun _ _ => .nil⟩
  · rw [hadded, hcomponents]
    exact ⟨⟨w, HostOptions.serves_pending.2 hw⟩, fun v hv => tables (HostOptions.serves_pending.1 hv)⟩

/-- The transformation succeeds if every typed field has an annotation that converts, with whatever
names. Its tables are those of the annotations by themselves, with the local names of the imports that
it adds. It fails as the first of the fields that fail. -/
theorem transform_eq_conversions (m : Module) (options : ConvertOptions) (h : HostOptions)
    (l : Library) :
    let convert (v : Vocabulary) (t : TypeExpr) : Traced Validator :=
      Setting.convertTable ⟨options, v, l⟩ t (.ofModule m) m.file
    (∀ v, (∃ r, (m.transform options h l).result = .ok r) ↔
      ∀ f ∈ m.typedFields h, ∃ t table, f.property.ascription = some t ∧
        (convert v t).result = .ok table) ∧
    (∀ r, (m.transform options h l).result = .ok r →
      (∃ v, h.Serves v r.addedImports) ∧
      ∀ v, h.Serves v r.addedImports → List.Forall₂ (fun f g => ∃ t table,
        f.property.ascription = some t ∧ (convert v t).result = .ok table ∧ g = {
          className := f.owner.name.getD "default"
          field := f.field.1
          staticField := f.field.2
          table := table
          loc := f.property.loc }) (m.typedFields h) r.components) ∧
    ∀ e, (m.transform options h l).result = .error e →
      ∃ before f after, m.typedFields h = before ++ f :: after ∧
        (∀ f' ∈ before, ∀ v, ∃ t table, f'.property.ascription = some t ∧
          (convert v t).result = .ok table) ∧
        (f.property.ascription = none → e = .conversion
          ((ConversionFault.missingType f.field.1).error f.property.loc m.file)) ∧
        ∀ t, f.property.ascription = some t → ∀ v, (convert v t).result = .error e := by
  intro convert
  have insertion_iff (f : TypedField) (v : Vocabulary) :
      (∃ t, (f.insertion ⟨options, v, l⟩ (.ofModule m)).result = .ok t) ↔
        ∃ t table, f.property.ascription = some t ∧ (convert v t).result = .ok table := by
    constructor
    · rintro ⟨_, ht⟩
      obtain ⟨t, table, hascription, htable, _⟩ := TypedField.insertion_eq_ok.1 ht
      exact ⟨t, table, hascription, htable⟩
    · rintro ⟨t, table, hascription, htable⟩
      exact ⟨_, TypedField.insertion_eq_ok.2 ⟨t, table, hascription, htable, rfl⟩⟩
  refine ⟨fun v => ?_, fun r hr => ?_, fun e he => ?_⟩
  · rw [exists_transform_iff v]
    exact forall₂_congr fun f _ => insertion_iff f v
  · obtain ⟨hserves, htables⟩ := components_of_transform hr
    refine ⟨hserves, fun v hv => (htables v hv).imp ?_⟩
    rintro f g ⟨i, hi⟩
    obtain ⟨t, table, hascription, htable, hinsertion⟩ := TypedField.insertion_eq_ok.1 hi
    cases hinsertion
    exact ⟨t, table, hascription, htable, rfl⟩
  · obtain ⟨before, f, after, heq, hbefore, hf⟩ := exists_first_of_transform_eq_error he
    refine ⟨before, f, after, heq, fun f' hf' v => (insertion_iff f' v).1 (hbefore f' hf' v), ?_, ?_⟩
    · exact fun hnone => TypedField.eq_missingType hnone (hf .default)
    · exact fun t ht v => TypedField.convertTable_eq_error ht (hf v)

end Module

end PropTables
