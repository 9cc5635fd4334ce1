import Mathlib.Data.List.Nodup
import PropTables.Library.Holdings
import PropTables.Proofs.Rules

/-! What an import leads to: a name of one of the library's modules, in the scope of that module. The
modules of a faithful library are those that reading their own paths gives; so are the ones in tables
and files, whatever has been put, read or remembered. -/

namespace PropTables

theorem Module.file_of_ofSource {names : CharacterNames} {source : String} {file : Option String}
    {m : Module} (h : Module.ofSource names source file = .ok m) : m.file = file := by
  unfold Module.ofSource at h
  dsimp only at h
  split at h
  · cases h
  next items _ =>
    cases hr : (items.mapM id).run ⟨(Lexing.ofSource source).comments, names⟩ with
    | error e => rw [hr] at h; cases h
    | ok read => rw [hr] at h; cases h; rfl

def LoadedModule.StandsAt (m : LoadedModule) (path : String) : Prop :=
  m = .ofModule path m.source ∧ m.source.file = some path

theorem LoadedModule.StandsAt.path_eq {m : LoadedModule} {path : String} (h : m.StandsAt path) :
    m.path = path :=
  congrArg LoadedModule.path h.1

theorem LoadedModule.StandsAt.own {m : LoadedModule} {path : String} (h : m.StandsAt path) :
    m.StandsAt m.path :=
  h.path_eq.symm ▸ h

namespace Holdings

structure Faithful (h : Holdings) : Prop where
  shelf : ∀ path m, (path, .ok m) ∈ h.shelf → m.StandsAt path
  cached : ∀ m ∈ h.cached, m.StandsAt m.path

variable {names : CharacterNames} {h : Holdings} {m : LoadedModule} {path : String}

theorem readEntry_eq_ok {source : String} : readEntry names path source = .ok m ↔
    ∃ read, Module.ofSource names source (some path) = .ok read ∧ m = .ofModule path read := by
  unfold readEntry
  cases Module.ofSource names source (some path) with
  | error f => simp
  | ok read => simp [eq_comm]

theorem standsAt_of_readEntry {source : String} (hm : readEntry names path source = .ok m) :
    m.StandsAt path := by
  obtain ⟨read, hread, rfl⟩ := readEntry_eq_ok.1 hm
  exact ⟨rfl, Module.file_of_ofSource hread⟩

theorem Faithful.ofTable (names : CharacterNames) (sources : List (String × String))
    (o : ResolutionOptions) : (Holdings.ofTable names sources o).Faithful := by
  refine ⟨fun path m hm => ?_, fun m hm => ?_⟩
  · obtain ⟨e, _, he⟩ := List.mem_map.1 hm
    obtain ⟨rfl, hread⟩ := Prod.mk.inj he
    exact standsAt_of_readEntry hread
  · cases hm

theorem Faithful.ofTree (names : CharacterNames) (t : FileTree) (o : ResolutionOptions) :
    (Holdings.ofTree names t o).Faithful := by
  refine ⟨fun path m hm => ?_, fun m hm => ?_⟩
  · obtain ⟨e, _, he⟩ := List.mem_filterMap.1 hm
    obtain ⟨p, _, he⟩ := Option.bind_eq_some_iff.1 he
    obtain ⟨rfl, hread⟩ := Prod.mk.inj (Option.some.inj he)
    unfold fileEntry at hread
    split at hread
    · cases hread
    · cases hread
    · exact standsAt_of_readEntry hread
  · cases hm

def ofModules (ms : List (String × Module)) : Holdings :=
  ⟨.none, .table, .default, ms.map fun m => (m.1, .ok (.ofModule m.1 m.2)), []⟩

theorem Faithful.ofModules {ms : List (String × Module)} (h : ∀ m ∈ ms, m.2.file = some m.1) :
    (Holdings.ofModules ms).Faithful := by
  refine ⟨fun path m hm => ?_, fun m hm => ?_⟩
  · obtain ⟨e, he, hm⟩ := List.mem_map.1 hm
    cases hm
    exact ⟨rfl, h e he⟩
  · cases hm

theorem Faithful.put (hf : h.Faithful) (path source : String) : (h.put path source).Faithful := by
  unfold Holdings.put
  split
  next =>
    refine ⟨fun p m hm => ?_, hf.cached⟩
    rcases List.mem_append.1 hm with hm | hm
    · exact hf.shelf p m (List.mem_of_mem_filter hm)
    · obtain ⟨rfl, hm⟩ := Prod.mk.inj (List.mem_singleton.1 hm)
      exact standsAt_of_readEntry hm.symm
  next tree _ => exact ⟨(Faithful.ofTree h.names (tree.put _ source) h.resolution).shelf, hf.cached⟩

theorem Faithful.standsAt_of_onShelf? (hf : h.Faithful) (hm : h.onShelf? path = some (.ok m)) :
    m.StandsAt path := by
  obtain ⟨⟨p, r⟩, hmem, hr⟩ := Option.map_eq_some_iff.1 hm
  cases hr
  have hp : p = path := by simpa using List.find?_some hmem
  exact hp ▸ hf.shelf p m (List.mem_of_find?_eq_some hmem)

theorem Faithful.standsAt_of_module? (hf : h.Faithful) (hm : h.module? path = some (.ok m)) :
    m.StandsAt path := by
  unfold module? at hm
  split at hm
  next m' hfound =>
    cases hm
    have hp : m.path = path := by simpa using List.find?_some hfound
    exact hp ▸ hf.cached _ (List.mem_of_find?_eq_some hfound)
  next => exact hf.standsAt_of_onShelf? hm

theorem mem_remember {ms : List LoadedModule} (hm : m ∈ (h.remember ms).cached) :
    m ∈ h.cached ∨ ∃ path, h.onShelf? path = some (.ok m) := by
  let Kept (cached : List LoadedModule) : Prop :=
    ∀ m ∈ cached, m ∈ h.cached ∨ ∃ path, h.onShelf? path = some (.ok m)
  suffices hkept : Kept (h.remember ms).cached from hkept m hm
  have start : Kept h.cached := fun m hm => .inl hm
  refine List.foldlRecOn ms _ start fun cached hcached m' _ => ?_
  split
  · exact hcached
  · intro m hm
    rcases List.mem_append.1 hm with hm | hm
    · exact hcached m hm
    · obtain ⟨r, hr, hm⟩ := Option.bind_eq_some_iff.1 (Option.mem_toList.1 hm)
      cases r with
      | error => cases hm
      | ok =>
        cases hm
        exact .inr ⟨_, hr⟩

theorem Faithful.remember (hf : h.Faithful) (ms : List LoadedModule) : (h.remember ms).Faithful := by
  refine ⟨hf.shelf, fun m hm => ?_⟩
  rcases mem_remember hm with hm | ⟨path, hpath⟩
  · exact hf.cached m hm
  · exact (hf.standsAt_of_onShelf? hpath).own

end Holdings

namespace Library

/-- Every module of the library is what reading its path gives. -/
def Faithful (l : Library) : Prop :=
  ∀ m ∈ l.modules, m.StandsAt m.path

def PathsApart (l : Library) : Prop :=
  ∀ m ∈ l.modules, ∀ m' ∈ l.modules, m.path = m'.path → m = m'

def Offers (l : Library) (m : Module) : Prop :=
  ∃ path, m.file = some path ∧ .ofModule path m ∈ l.modules

theorem Faithful.offers {l : Library} (hl : l.Faithful) {m : LoadedModule} (h : m ∈ l.modules) :
    l.Offers m.source := by
  obtain ⟨hm, hfile⟩ := hl m h
  exact ⟨m.path, hfile, hm ▸ h⟩

theorem Faithful.ofHoldings {h : Holdings} (hf : h.Faithful) : h.library.Faithful := by
  intro m hm
  obtain ⟨path, hm⟩ := Holdings.mem_modules.1 hm
  exact (hf.standsAt_of_module? hm).own

theorem PathsApart.ofHoldings {h : Holdings} (hf : h.Faithful) : h.library.PathsApart := by
  intro m hm m' hm' hpath
  obtain ⟨path, hm⟩ := Holdings.mem_modules.1 hm
  obtain ⟨path', hm'⟩ := Holdings.mem_modules.1 hm'
  rw [(hf.standsAt_of_module? hm).path_eq, (hf.standsAt_of_module? hm').path_eq] at hpath
  subst hpath
  rw [hm] at hm'
  cases hm'
  rfl

theorem Faithful.ofTable (names : CharacterNames) (sources : List (String × String))
    (o : ResolutionOptions) : (Library.ofTable names sources o).Faithful :=
  .ofHoldings (.ofTable names sources o)

theorem Faithful.ofTree (names : CharacterNames) (t : FileTree) (o : ResolutionOptions) :
    (Library.ofTree names t o).Faithful :=
  .ofHoldings (.ofTree names t o)

def ofModules (ms : List (String × Module)) : Library :=
  (Holdings.ofModules ms).library

theorem mem_ofModules {ms : List (String × Module)} {m : LoadedModule} (hm : m ∈ (ofModules ms).modules) :
    ∃ e ∈ ms, m = .ofModule e.1 e.2 := by
  obtain ⟨path, hm⟩ := Holdings.mem_modules.1 hm
  obtain ⟨_, hfound, hentry⟩ := Option.map_eq_some_iff.1 hm
  obtain ⟨e, he, rfl⟩ := List.mem_map.1 (List.mem_of_find?_eq_some hfound)
  cases hentry
  exact ⟨e, he, rfl⟩

section

variable {l : Library} {m m' : LoadedModule} {importer : Option String}

theorem consult_eq_ok {specifier : Text} (h : (l.consult specifier importer).result = .ok (.ok m)) :
    m ∈ l.modules := by
  unfold consult at h
  split at h <;> cases h
  next hload => exact l.mem_modules hload

theorem findExport_eq_ok {name : String} {depth : Nat} {seen : List String}
    {found : List String × Option (LoadedModule × String)}
    (h : (l.findExport name depth seen m).result = .ok found) (hm : m ∈ l.modules) :
    ∀ target inner, found.2 = some (target, inner) → target ∈ l.modules := by
  induction depth generalizing seen m found with
  | zero =>
    cases h
    rintro _ _ ⟨⟩
  | succ depth ih =>
    unfold findExport at h
    split at h
    · cases h
      rintro _ _ ⟨⟩
    split at h
    · cases h
      rintro _ _ ⟨⟩
      exact hm
    split at h
    · cases h
      rintro _ _ ⟨⟩
    let P (found : List String × Option (LoadedModule × String)) : Prop :=
      ∀ target inner, found.2 = some (target, inner) → target ∈ l.modules
    have start : P (m.path :: seen, none) := by
      rintro _ _ ⟨⟩
    refine Traced.foldlM_induction (P := P) ?_ start h
    intro found source found' hfound hstep
    split at hstep
    · rw [Traced.pure_eq_ok] at hstep
      exact hstep ▸ hfound
    · rw [Traced.bind_eq_ok] at hstep
      obtain ⟨target, htarget, hstep⟩ := hstep
      cases target with
      | error e =>
        cases hstep
        exact hfound
      | ok target => exact ih hstep (consult_eq_ok htarget)

theorem exportOf_eq_ok {name inner : String} (h : (l.exportOf m name).result = .ok (some (m', inner)))
    (hm : m ∈ l.modules) : m' ∈ l.modules := by
  obtain ⟨⟨seen, found⟩, hfound, h⟩ := Traced.bind_eq_ok.1 h
  cases h
  exact findExport_eq_ok hfound hm _ _ rfl

theorem resolveImport_eq_ok (hl : l.Faithful) {i : ImportSpecifier} {r : Resolved}
    (h : (l.resolveImport i importer).result = .ok r) :
    ∃ m name, l.Offers m ∧ r.scope = .ofModule m ∧ (name, r.binding) ∈ r.scope.base := by
  unfold resolveImport at h
  dsimp only at h
  split at h
  · cases h
  split at h
  · cases h
  obtain ⟨loaded, hloaded, h⟩ := Traced.bind_eq_ok.1 h
  cases loaded with
  | error e => cases h
  | ok loaded =>
    obtain ⟨found, hfound, h⟩ := Traced.bind_eq_ok.1 h
    split at h
    · cases h
    next m inner =>
      split at h
      · cases h
      next referent href =>
        cases h
        have hm := exportOf_eq_ok hfound (consult_eq_ok hloaded)
        obtain ⟨⟨name, referent'⟩, hmem, hr⟩ := Option.map_eq_some_iff.1 href
        cases hr
        have hstands := hl m hm
        refine ⟨m.source, name, hl.offers hm, ?_, ?_⟩
        · rw [hstands.1]
          rfl
        · have hmem := List.mem_of_find?_eq_some hmem
          rw [hstands.1] at hmem ⊢
          exact List.mem_map.2 ⟨_, hmem, rfl⟩

inductive ImportStep (l : Library) : Binding → Binding → Prop
  | mk (hr : (l.resolveImport i file).result = .ok r) :
    ImportStep l ⟨.import_ i, file⟩ r.binding

/-- The imports that start at a binding end at one that is no import. -/
def EndsAt (l : Library) (b e : Binding) : Prop :=
  Relation.ReflTransGen l.ImportStep b e ∧ ∀ i, e.referent ≠ .import_ i

theorem ImportStep.rightUnique : Relator.RightUnique l.ImportStep := by
  intro b b₁ b₂ h₁ h₂
  cases h₁ with
  | mk hr₁ =>
    cases h₂ with
    | mk hr₂ => rw [Except.ok.inj (hr₁.symm.trans hr₂)]

theorem EndsAt.not_importStep {b e e' : Binding} (h : l.EndsAt b e) : ¬ l.ImportStep e e' := by
  intro hstep
  cases hstep with
  | mk => exact h.2 _ rfl

theorem EndsAt.unique {b e e' : Binding} (h : l.EndsAt b e) (h' : l.EndsAt b e') : e' = e :=
  eq_of_reflTransGen ImportStep.rightUnique h.1 h'.1 (fun _ => h.not_importStep)
    fun _ => h'.not_importStep

end

end Library

def Referent.name? : Referent → Option String
  | typeAlias a => some a.name
  | interface i => some i.name
  | class_ c => c.name
  | function f => some f.name
  | variable_ v => some v.name
  | import_ s => some s.binds
  | parameter _ => none

def Module.BindsApart (m : Module) : Prop :=
  ((Scope.ofModule m).base.map (·.1)).Nodup

instance (m : Module) : Decidable m.BindsApart :=
  inferInstanceAs (Decidable (List.Nodup _))

section

variable {m : Module} {name : String} {b : Binding} {scope : Scope}

theorem Frame.mem_of_lookup {f : Frame} (h : f.lookup name = some b) : (name, b) ∈ f := by
  obtain ⟨⟨key, b'⟩, hfind, hb⟩ := Option.map_eq_some_iff.1 h
  have hkey := List.find?_some hfind
  rw [beq_iff_eq] at hkey
  cases hkey
  cases hb
  exact List.mem_reverse.1 (List.mem_of_find?_eq_some hfind)

theorem Frame.exists_lookup {f : Frame} (h : (name, b) ∈ f) : ∃ b', f.lookup name = some b' := by
  cases hl : f.lookup name with
  | some b' => exact ⟨b', rfl⟩
  | none =>
    rw [Frame.lookup, Option.map_eq_none_iff, List.find?_eq_none] at hl
    exact (hl _ (List.mem_reverse.2 h) (beq_self_eq_true name)).elim

theorem Frame.lookup_of_mem {f : Frame} (hf : (f.map (·.1)).Nodup) (h : (name, b) ∈ f) :
    f.lookup name = some b := by
  obtain ⟨b', hl⟩ := Frame.exists_lookup h
  have hinj := List.inj_on_of_nodup_map hf h (Frame.mem_of_lookup hl) rfl
  rw [hl, (Prod.mk.inj hinj).2]

theorem Scope.mem_of_lookup (h : scope.lookup name = some b) :
    ∃ f ∈ scope.frames, (name, b) ∈ f := by
  obtain ⟨f, hf, hl⟩ := List.exists_of_findSome?_eq_some h
  exact ⟨f, hf, Frame.mem_of_lookup hl⟩

theorem Scope.mem_base_of_lookup (hi : scope.inner = []) (h : scope.lookup name = some b) :
    (name, b) ∈ scope.base := by
  obtain ⟨f, hf, hmem⟩ := Scope.mem_of_lookup h
  rw [Scope.frames, hi, List.nil_append] at hf
  rw [List.mem_singleton.1 hf] at hmem
  exact hmem

theorem Scope.lookup_cases (h : scope.lookup name = some b) :
    (∃ f ∈ scope.inner, (name, b) ∈ f) ∨ scope.root.lookup name = some b := by
  unfold Scope.lookup Scope.frames at h ⊢
  rw [List.findSome?_append] at h
  cases hinner : scope.inner.findSome? (·.lookup name) with
  | none =>
    rw [hinner] at h
    exact .inr h
  | some b' =>
    rw [hinner] at h
    cases h
    obtain ⟨f, hf, hlookup⟩ := List.exists_of_findSome?_eq_some hinner
    exact .inl ⟨f, hf, Frame.mem_of_lookup hlookup⟩

theorem Scope.mem_withParams {params : List TypeParameter} {f : Frame} {e : String × Binding}
    (hf : f ∈ (scope.root.withParams params).inner) (he : e ∈ f) :
    ∃ p : TypeParameter, e = (p.name, ⟨.parameter p, scope.file⟩) := by
  unfold Scope.withParams at hf
  split at hf
  · cases hf
  · cases List.mem_singleton.1 hf
    obtain ⟨p, _, rfl⟩ := List.mem_map.1 he
    exact ⟨p, rfl⟩

theorem Scope.lookup_ofModule (hm : m.BindsApart) (h : (name, b) ∈ (Scope.ofModule m).base) :
    (Scope.ofModule m).lookup name = some b := by
  have hl := Frame.lookup_of_mem hm h
  simp only [Scope.lookup, Scope.frames, Scope.ofModule, Scope.ofFlatModule, List.nil_append,
    List.findSome?_cons, List.findSome?_nil] at hl ⊢
  rw [hl]

theorem Scope.file_of_mem_ofModule (h : (name, b) ∈ (Scope.ofModule m).base) : b.file = m.file := by
  obtain ⟨_, _, h⟩ := List.mem_map.1 h
  cases h
  rfl

theorem Declaration.name?_of_mem_binds {d : Declaration} {r : Referent} (h : (name, r) ∈ d.binds) :
    r.name? = some name := by
  cases d with
  | class_ c =>
    obtain ⟨n, hn, h⟩ := List.mem_map.1 h
    cases h
    exact Option.mem_toList.1 hn
  | binding v =>
    obtain ⟨_, _, h⟩ := List.mem_map.1 h
    cases h
    rfl
  | typeAlias | interface | function =>
    cases List.mem_singleton.1 h
    rfl

theorem FlatModule.name?_of_mem_binds {f : FlatModule} {r : Referent} (h : (name, r) ∈ f.binds) :
    r.name? = some name := by
  obtain ⟨st, _, h⟩ := List.mem_flatMap.1 h
  cases st with
  | declaration d => exact Declaration.name?_of_mem_binds h
  | import_ d =>
    obtain ⟨_, _, h⟩ := List.mem_map.1 h
    cases h
    rfl
  | assignment | expression => cases h

theorem Scope.name?_of_mem_ofModule (h : (name, b) ∈ (Scope.ofModule m).base) :
    b.referent.name? = some name := by
  obtain ⟨_, hmem, h⟩ := List.mem_map.1 h
  cases h
  exact FlatModule.name?_of_mem_binds hmem

end

end PropTables
