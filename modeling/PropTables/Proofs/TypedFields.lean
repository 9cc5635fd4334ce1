import PropTables.Proofs.Failures
import PropTables.Proofs.OnDemand

/-! The typed fields of a module. All of them are converted in one run, in which names are handed on
from one field to the next. The result is that of converting every field by itself, with the names
that the run ends with. -/

namespace PropTables

namespace Traced

theorem mapM_eq_ok {α β : Type} {f : α → Traced β} {as : List α} {bs : List β} :
    (as.mapM f).result = .ok bs ↔ List.Forall₂ (fun a b => (f a).result = .ok b) as bs := by
  refine ⟨forall₂_of_mapM_eq_ok, fun h => ?_⟩
  induction h with
  | nil => rfl
  | cons hab _ ih =>
    rw [List.mapM_cons, bind_eq_ok]
    refine ⟨_, hab, ?_⟩
    rw [bind_eq_ok]
    exact ⟨_, ih, rfl⟩

theorem exists_first_of_mapM_eq_error {α β : Type} {f : α → Traced β} {as : List α} {e : Failure}
    (h : (as.mapM f).result = .error e) :
    ∃ before a after, as = before ++ a :: after ∧ (f a).result = .error e ∧
      ∀ a' ∈ before, ∃ b, (f a').result = .ok b := by
  induction as with
  | nil => exact (not_pure_eq_error h).elim
  | cons a as ih =>
    rw [List.mapM_cons, bind_eq_error] at h
    rcases h with h | ⟨b, hb, h⟩
    · exact ⟨[], a, as, rfl, h, nofun⟩
    · obtain ⟨before, a', after, rfl, ha', hbefore⟩ := ih (bind_pure_eq_error.1 h)
      refine ⟨a :: before, a', after, rfl, ha', fun a'' hmem => ?_⟩
      rcases List.mem_cons.1 hmem with rfl | hmem
      · exact ⟨b, hb⟩
      · exact hbefore a'' hmem

theorem mapM_flatMap {α β γ : Type} (g : β → Traced γ) (f : α → List β) (as : List α) :
    (as.flatMap f).mapM g = (as.mapM fun a => (f a).mapM g) >>= fun groups => pure groups.flatten := by
  induction as with
  | nil => rfl
  | cons a as ih =>
    simp only [List.flatMap_cons, List.mapM_append, List.mapM_cons, ih, bind_assoc, pure_bind,
      List.flatten_cons]

end Traced

def TypedField.table (f : TypedField) (s : Setting) (scope : Scope) : Traced Validator :=
  match f.property.ascription with
  | none => .fail (.missingType f.field.1) f.property.loc scope.file
  | some t => s.convertTable t scope scope.file

def TypedField.insertion (f : TypedField) (s : Setting) (scope : Scope) : Traced Insertion := do
  return ⟨f.index, f.generated (← f.table s scope)⟩

def Item.insertions (i : Item) (h : HostOptions) (s : Setting) (scope : Scope) :
    Traced (List Insertion) :=
  (i.typedFields h scope).mapM (·.insertion s scope)

def Module.insertions (m : Module) (h : HostOptions) (s : Setting) : Traced (List (List Insertion)) :=
  m.items.mapM (·.insertions h s (.ofModule m))

def Module.typedFields (m : Module) (h : HostOptions) : List TypedField :=
  m.classes.flatMap (·.typedFields h (.ofModule m))

theorem ClassDeclaration.property?_eq_some {k : ClassDeclaration} {name : Text} {i : Nat}
    {p : ClassProperty} (h : k.property? name = some (i, p)) :
    k.body[i]? = some (.property p) ∧ p.key = name := by
  obtain ⟨⟨member, j⟩, hmem, hfound⟩ := List.exists_of_findSome?_eq_some h
  have hget := List.mem_zipIdx_iff_getElem?.1 hmem
  cases member with
  | method => cases hfound
  | property q =>
    dsimp only at hfound hget
    split at hfound
    next hq =>
      cases hfound
      exact ⟨hget, hq.1⟩
    next => cases hfound

theorem ClassDeclaration.mem_typedFields {k : ClassDeclaration} {h : HostOptions} {scope : Scope}
    {f : TypedField} :
    f ∈ k.typedFields h scope ↔
      (∃ base, k.superclass = some base ∧ scope.isComponentBase h.componentSource base = true) ∧
      f.owner = k ∧ f.field ∈ h.fields ∧
        k.property? (.ofString f.field.1) = some (f.index, f.property) := by
  unfold typedFields
  cases k.superclass with
  | none => simp
  | some base =>
    by_cases hbase : scope.isComponentBase h.componentSource base = true
    · rw [Option.map_some, Option.getD_some, if_pos hbase, List.mem_filterMap]
      simp only [Option.map_eq_some_iff]
      constructor
      · rintro ⟨field, hfield, ⟨index, property⟩, hfound, rfl⟩
        exact ⟨⟨base, rfl, hbase⟩, rfl, hfield, hfound⟩
      · rintro ⟨_, rfl, hfield, hfound⟩
        exact ⟨f.field, hfield, (f.index, f.property), hfound, rfl⟩
    · simp [hbase]

theorem Module.mem_typedFields {m : Module} {h : HostOptions} {f : TypedField} :
    f ∈ m.typedFields h ↔ f.owner ∈ m.classes ∧
      (∃ base, f.owner.superclass = some base ∧
        (Scope.ofModule m).isComponentBase h.componentSource base = true) ∧
      f.field ∈ h.fields ∧ f.owner.property? (.ofString f.field.1) = some (f.index, f.property) := by
  unfold typedFields
  rw [List.mem_flatMap]
  constructor
  · rintro ⟨k, hk, hf⟩
    obtain ⟨hbase, rfl, hfield, hfound⟩ := ClassDeclaration.mem_typedFields.1 hf
    exact ⟨hk, hbase, hfield, hfound⟩
  · rintro ⟨hk, hbase, hfield, hfound⟩
    exact ⟨f.owner, hk, ClassDeclaration.mem_typedFields.2 ⟨hbase, rfl, hfield, hfound⟩⟩

namespace Aspect

def insertion (v : Vocabulary) : Aspect Insertion :=
  ⟨fun _ _ => True, fun role t => v.Mentions role t.table.table⟩

def insertions (v : Vocabulary) : Aspect (List Insertion) :=
  ⟨fun _ _ => True, fun role ts => ∃ t ∈ ts, v.Mentions role t.table.table⟩

def groups (v : Vocabulary) : Aspect (List (List Insertion)) :=
  ⟨fun _ _ => True, fun role gs => ∃ t ∈ gs.flatten, v.Mentions role t.table.table⟩

end Aspect

theorem HostOptions.openSetting_asks (h : HostOptions) (options : ConvertOptions) (l : Library) :
    (h.openSetting options l).Asks h :=
  fun _ => rfl

namespace OpenSetting

open Naming (Matches)

variable {h : HostOptions} {v : Vocabulary} {o : OpenSetting} {l : LibraryNames}

theorem convertField_matches (ho : o.Asks h) (scope : Scope) (f : TypedField) :
    Matches h v (.insertion v) l l (o.convertField scope f) (f.insertion (o.close v) scope) := by
  unfold convertField TypedField.insertion TypedField.table
  cases f.property.ascription with
  | none => exact ⟨.refl, .error _⟩
  | some t =>
    have htable := convertTable_matches ho v t scope scope.file l
    exact htable.map (fun _ _ _ => trivial) (fun _ => rfl) fun _ _ hm => hm

theorem convertItem_matches (ho : o.Asks h) (scope : Scope) (i : Item) (l : LibraryNames) :
    Matches h v (.insertions v) l l (o.convertItem h scope i) (i.insertions h (o.close v) scope) := by
  refine .mapM trivial (fun _ _ _ _ _ _ => trivial) (fun role t ts hm => ?_)
    (fun f _ l => convertField_matches ho scope f) l
  rcases hm with hm | ⟨t', ht', hm⟩
  · exact ⟨t, List.mem_cons_self, hm⟩
  · exact ⟨t', List.mem_cons_of_mem t ht', hm⟩

end OpenSetting

namespace Module

variable {m : Module} {options : ConvertOptions} {h : HostOptions} {l : Library} {v : Vocabulary}
  {r : TransformResult} {e : Failure}

theorem typedFields_eq (m : Module) (h : HostOptions) :
    m.typedFields h = m.items.flatMap fun i : Item => i.typedFields h (.ofModule m) := by
  unfold typedFields classes
  induction m.items with
  | nil => rfl
  | cons i items ih =>
    rw [List.flatMap_cons, ← ih, List.filterMap_cons]
    cases hclass : i.class? with
    | none => simp [Item.typedFields, hclass]
    | some k => simp [Item.typedFields, hclass]

/-- The run over the items beside the conversions with the names of a vocabulary. -/
theorem convertItems_outcome (m : Module) (options : ConvertOptions) (h : HostOptions) (l : Library)
    (v : Vocabulary) :
    let start := LibraryNames.ofTaken (m.takenNames (.ofModule m))
    let run := m.convertItems options h l
    h.NamesReach start run.2 ∧ Outcome h v (.groups v) start run.2 run.1.result
      (m.insertions h ⟨options, v, l⟩).result := by
  intro start run
  have hmatches : Naming.Matches h v (.groups v) start start
      (m.items.mapM ((h.openSetting options l).convertItem h (.ofModule m)))
      (m.insertions h ⟨options, v, l⟩) := by
    refine .mapM trivial (fun _ _ _ _ _ _ => trivial) (fun role g gs hm => ?_)
      (fun i _ => OpenSetting.convertItem_matches (h.openSetting_asks options l) _ i) start
    rcases hm with ⟨t, ht, hm⟩ | ⟨t, ht, hm⟩
    · exact ⟨t, List.mem_flatten_of_mem List.mem_cons_self ht, hm⟩
    · have hflatten : t ∈ (g :: gs).flatten := List.mem_append_right g ht
      exact ⟨t, hflatten, hm⟩
  exact ⟨hmatches.reaches, hmatches.outcome⟩

theorem mapM_typedFields {s : Setting} :
    (m.typedFields h).mapM (·.insertion s (.ofModule m)) =
      m.insertions h s >>= fun groups => pure groups.flatten := by
  rw [typedFields_eq, Traced.mapM_flatMap]
  rfl

theorem transform_eq_ok :
    (m.transform options h l).result = .ok r ↔
      ∃ groups, (m.convertItems options h l).1.result = .ok groups ∧
        m.insert groups (m.convertItems options h l).2.pending = r := by
  unfold transform
  rw [Traced.bind_eq_ok]
  simp only [Traced.pure_eq_ok]

theorem transform_eq_error :
    (m.transform options h l).result = .error e ↔
      (m.convertItems options h l).1.result = .error e := by
  unfold transform
  exact Traced.bind_pure_eq_error

structure Converts (m : Module) (options : ConvertOptions) (h : HostOptions) (l : Library)
    (groups : List (List Insertion)) (names : LibraryNames) : Prop where
  consistent : h.Consistent (m.takenNames (.ofModule m)) names
  items (v : Vocabulary) (hv : h.Agrees v names) :
    List.Forall₂ (fun i ts => List.Forall₂
      (fun f t => (f.insertion ⟨options, v, l⟩ (.ofModule m)).result = .ok t)
      (Item.typedFields i h (.ofModule m)) ts) m.items groups
  mentions (hs : h.propTypesSource ≠ h.allSource) (v : Vocabulary) (hv : h.Agrees v names)
    (role : LibraryRole) (hr : h.Asked names role) :
    ∃ t ∈ groups.flatten, v.Mentions role t.table.table

theorem converts_of_transform (hr : (m.transform options h l).result = .ok r) :
    ∃ groups names, m.Converts options h l groups names ∧ r = m.insert groups names.pending := by
  obtain ⟨groups, hgroups, rfl⟩ := transform_eq_ok.1 hr
  have hreach : h.NamesReach (.ofTaken (m.takenNames (.ofModule m))) (m.convertItems options h l).2 :=
    (m.convertItems_outcome options h l .default).1
  refine ⟨groups, (m.convertItems options h l).2, ⟨?_, fun v hv => ?_, fun hs v hv role hasked => ?_⟩,
    rfl⟩
  · exact (h.consistent_ofTaken _).reaches hreach
  · obtain ⟨_, hout⟩ := m.convertItems_outcome options h l v
    rw [hgroups] at hout
    generalize hresult : (m.insertions h ⟨options, v, l⟩).result = result at hout
    cases hout with
    | ok ha =>
      rw [← ha.same hv] at hresult
      exact (Traced.mapM_eq_ok.1 hresult).imp fun i ts hi => Traced.mapM_eq_ok.1 hi
  · obtain ⟨_, hout⟩ := m.convertItems_outcome options h l v
    rw [hgroups] at hout
    generalize (m.insertions h ⟨options, v, l⟩).result = result at hout
    cases hout with
    | ok ha =>
      rcases ha.mentions hs hv hasked with ⟨_, hnone⟩ | hm
      · cases hnone
      · exact hm

end Module

end PropTables
