import PropTables.CommandLine.Run
import PropTables.Proofs.Imports

/-! The files of one run are independent. The modules that earlier files have loaded stay in the holdings,
but a loaded module is the one that would be loaded again, so that the library behind them stays the same
and each file gives what it gives by itself. -/

namespace PropTables

namespace Holdings

variable {h base : Holdings} {m : LoadedModule} {path : String}

/-- The holdings are the first ones, but for modules that have been loaded since and are on the shelf. -/
structure Continues (base h : Holdings) : Prop where
  start : { h with cached := [] } = base
  cached : ∀ m ∈ h.cached, base.onShelf? m.path = some (.ok m)

theorem Continues.names_eq (hc : base.Continues h) : h.names = base.names := by
  rw [← hc.start]

theorem Continues.onShelf?_eq (hc : base.Continues h) (path : String) :
    base.onShelf? path = h.onShelf? path := by
  rw [← hc.start]
  rfl

theorem Continues.module?_eq (hc : base.Continues h) (path : String) :
    h.module? path = base.onShelf? path := by
  unfold module?
  split
  next m hm =>
    have hpath : m.path = path := by simpa using List.find?_some hm
    rw [← hpath, hc.cached m (List.mem_of_find?_eq_some hm)]
  next => exact (hc.onShelf?_eq path).symm

theorem Continues.refl (hbase : base.cached = []) : base.Continues base := by
  refine ⟨?_, fun m hm => ?_⟩
  · rw [← hbase]
  · rw [hbase] at hm
    cases hm

/-- A loaded module is what a fresh load gives. -/
theorem Continues.library_eq (hc : base.Continues h) : h.library = base.library := by
  have hbase : base.Continues base := .refl (by rw [← hc.start])
  have hmodule (path : String) : h.module? path = base.module? path :=
    (hc.module?_eq path).trans (hbase.module?_eq path).symm
  refine Library.ext ?_ ?_
  · funext specifier importer
    have hresolve : h.resolve specifier importer = base.resolve specifier importer := by
      rw [← hc.start]
      rfl
    show h.load specifier importer = base.load specifier importer
    simp only [load, hresolve, hmodule]
    rw [← hc.start]
    rfl
  · have hnone : (h.cached.map (·.path)).filter (fun path => (h.onShelf? path).isNone) = [] := by
      refine List.filter_eq_nil_iff.2 fun path hpath => ?_
      obtain ⟨m, hm, rfl⟩ := List.mem_map.1 hpath
      rw [← hc.onShelf?_eq, hc.cached m hm]
      simp
    show h.modules = base.modules
    simp only [modules, paths, hmodule, hnone]
    rw [← hc.start]
    rfl

theorem Faithful.onShelf?_path (hf : h.Faithful) (hm : h.onShelf? path = some (.ok m)) :
    h.onShelf? m.path = some (.ok m) := by
  rw [(hf.standsAt_of_onShelf? hm).path_eq, hm]

theorem Continues.remember (hf : base.Faithful) (hc : base.Continues h) (ms : List LoadedModule) :
    base.Continues (h.remember ms) := by
  refine ⟨hc.start, fun m hm => ?_⟩
  rcases mem_remember hm with hm | ⟨path, hpath⟩
  · exact hc.cached m hm
  · rw [← hc.onShelf?_eq] at hpath
    exact hf.onShelf?_path hpath

end Holdings

namespace Findings

@[simp] theorem append_nil (f : Findings) : f.append ⟨[], []⟩ = f := by
  simp only [append, List.append_nil]

def concat (fs : List Findings) : Findings :=
  ⟨fs.flatMap (·.components), fs.flatMap (·.diagnostics)⟩

theorem exitCode_eq_one {f : Findings} : f.exitCode = 1 ↔ f.failed = true := by
  unfold exitCode
  split <;> simp [*]

theorem failed_concat {fs : List Findings} : (concat fs).failed = true ↔ ∃ g ∈ fs, g.failed = true := by
  simp only [failed, concat, List.any_eq_true, List.mem_flatMap]
  constructor
  · rintro ⟨d, ⟨g, hg, hd⟩, h⟩
    exact ⟨g, hg, d, hd, h⟩
  · rintro ⟨g, hg, d, hd, h⟩
    exact ⟨d, ⟨g, hg, hd⟩, h⟩

/-- Either the file is no module or has a type without a table, and this is all that is said of it, or
nothing is wrong with it. -/
def AllOrNothing (f : Findings) : Prop :=
  f.exitCode = 0 ∧ f.diagnostics = [] ∨ f.exitCode = 1 ∧ f.components = [] ∧ ∃ d, f.diagnostics = [d]

end Findings

namespace Command

variable {names : CharacterNames} {t : FileTree} {options : ConvertOptions} {base h : Holdings}
  {path : String}

/-- What a file gives does not depend on what has been loaded. -/
theorem ofSource_congr (hc : base.Continues h) (t : FileTree) (options : ConvertOptions)
    (path : String) :
    Prod.fst <$> ofSource t options h path = Prod.fst <$> ofSource t options base path := by
  unfold ofSource
  rw [hc.names_eq, hc.library_eq]
  cases t.readModule base.names path with
  | error a => rfl
  | ok read =>
    cases read with
    | error d => rfl
    | ok m =>
      dsimp only
      split <;> rfl

theorem severity_of_readModule {d : Diagnostic} (hread : t.readModule names path = .ok (.error d)) :
    d.severity = "error" := by
  unfold FileTree.readModule at hread
  dsimp only at hread
  split at hread
  · cases hread
    rfl
  · cases hread
  · split at hread <;> cases hread
    rfl

theorem ofSource_eq_ok {f : Findings} {h' : Holdings} (hs : ofSource t options h path = .ok (f, h')) :
    (h' = h ∨ ∃ ms, h' = h.remember ms) ∧
      ((∃ components, f = ⟨components, []⟩) ∨ ∃ d, f = ⟨[], [d]⟩ ∧ d.severity = "error") := by
  unfold ofSource at hs
  dsimp only at hs
  split at hs
  · cases hs
  next hread =>
    cases hs
    exact ⟨.inl rfl, .inr ⟨_, rfl, severity_of_readModule hread⟩⟩
  · split at hs <;> cases hs
    · exact ⟨.inr ⟨_, rfl⟩, .inr ⟨_, rfl, rfl⟩⟩
    · exact ⟨.inr ⟨_, rfl⟩, .inl ⟨_, rfl⟩⟩

theorem ofSource_continues (hf : base.Faithful) (hc : base.Continues h) {f : Findings} {h' : Holdings}
    (hs : ofSource t options h path = .ok (f, h')) : base.Continues h' := by
  rcases (ofSource_eq_ok hs).1 with rfl | ⟨ms, rfl⟩
  · exact hc
  · exact hc.remember hf ms

theorem ofSource_allOrNothing {f : Findings} {h' : Holdings}
    (hs : ofSource t options h path = .ok (f, h')) : f.AllOrNothing := by
  rcases (ofSource_eq_ok hs).2 with ⟨components, rfl⟩ | ⟨d, rfl, hd⟩
  · exact .inl ⟨rfl, rfl⟩
  · refine .inr ⟨Findings.exitCode_eq_one.2 ?_, rfl, d, rfl⟩
    simp [Findings.failed, hd]

theorem ofSources_eq (hf : base.Faithful) (hc : base.Continues h) (t : FileTree)
    (options : ConvertOptions) (paths : List String) :
    ofSources t options h paths =
      Findings.concat <$> paths.mapM fun path => Prod.fst <$> ofSource t options base path := by
  -- The induction is on the files; every one of them leaves holdings that go on from the first.
  induction paths generalizing h with
  | nil => rfl
  | cons path paths ih =>
    have hfirst := ofSource_congr hc t options path
    rw [ofSources, List.mapM_cons, ← hfirst]
    cases hs : ofSource t options h path with
    | error e => rfl
    | ok r =>
      obtain ⟨f, h'⟩ := r
      have hrest := ih (ofSource_continues hf hc hs)
      generalize (paths.mapM fun path => Prod.fst <$> ofSource t options base path) = rest at hrest ⊢
      show (do return f.append (← ofSources t options h' paths)) = Findings.concat <$> (do return f :: (← rest))
      rw [hrest]
      cases rest with
      | error e => rfl
      | ok fs => rfl

theorem ofArguments_single (names : CharacterNames) (t : FileTree) (a : Arguments) (path : String) :
    ofArguments names t { a with sources := [path] } =
      Prod.fst <$> ofSource t a.options (.ofTree names t a.options.resolution) path := by
  show ofSources t a.options (.ofTree names t a.options.resolution) [path] = _
  rw [ofSources]
  generalize ofSource t a.options (.ofTree names t a.options.resolution) path = r
  cases r with
  | error e => rfl
  | ok r =>
    obtain ⟨f, h⟩ := r
    show Except.ok (f.append ⟨[], []⟩) = Except.ok f
    rw [Findings.append_nil]

/-- A run over several files gives what the runs over each of them give, one after another, and ends
early where one of them does. Its exit code is 1 if that of one of them is. A file that fails gives one
diagnostic and nothing else. -/
theorem ofArguments_independent (names : CharacterNames) (t : FileTree) (a : Arguments) :
    let alone (path : String) := ofArguments names t { a with sources := [path] }
    ofArguments names t a = Findings.concat <$> a.sources.mapM alone ∧
    ∀ f, ofArguments names t a = .ok f →
      ∃ fs, List.Forall₂ (fun path g => alone path = .ok g) a.sources fs ∧
        f.components = fs.flatMap (·.components) ∧ f.diagnostics = fs.flatMap (·.diagnostics) ∧
        (f.exitCode = 1 ↔ ∃ g ∈ fs, g.exitCode = 1) ∧ ∀ g ∈ fs, g.AllOrNothing := by
  intro alone
  let base := Holdings.ofTree names t a.options.resolution
  have halone : (fun path => Prod.fst <$> ofSource t a.options base path) = alone := by
    funext path
    exact (ofArguments_single names t a path).symm
  have hall : ofArguments names t a = Findings.concat <$> a.sources.mapM alone := by
    rw [← halone]
    exact ofSources_eq (.ofTree names t a.options.resolution) (.refl rfl) t a.options a.sources
  refine ⟨hall, fun f hf => ?_⟩
  rw [hall] at hf
  cases hfs : a.sources.mapM alone with
  | error e =>
    rw [hfs] at hf
    cases hf
  | ok fs =>
    rw [hfs] at hf
    cases hf
    have hforall := forall₂_of_mapM_eq_ok hfs
    refine ⟨fs, hforall, rfl, rfl, ?_, fun g hg => ?_⟩
    · simp only [Findings.exitCode_eq_one]
      exact Findings.failed_concat
    · obtain ⟨path, _, hg⟩ := forall₂_mem_right hforall hg
      rw [← halone] at hg
      dsimp only at hg
      cases hs : ofSource t a.options base path with
      | error e =>
        rw [hs] at hg
        cases hg
      | ok r =>
        rw [hs] at hg
        cases hg
        exact ofSource_allOrNothing hs

def rowFiles : FileTree :=
  (FileTree.bare [.ofString "work"]).put (.ofString "row.js")
    ("import React from 'react';\nclass Row extends React.Component \x7b\n" ++
      "  props: \x7bsize: number\x7d;\n\x7d\n")

def rowArguments : Arguments :=
  ⟨["missing.js", "row.js"], true, [], false, false, false, "HasDefaultProp", "CheckedBy"⟩

theorem ofArguments_independent_row :
    ∃ f fs, ofArguments .none rowFiles rowArguments = .ok f ∧ f.exitCode = 1 ∧ f.components.length = 1 ∧
      List.Forall₂ (fun path g => ofArguments .none rowFiles { rowArguments with sources := [path] } = .ok g)
        ["missing.js", "row.js"] fs ∧
      f.components = fs.flatMap (·.components) ∧ ∀ g ∈ fs, g.AllOrNothing := by
  have hrun : ((ofArguments .none rowFiles rowArguments).toOption.map fun f =>
      (f.exitCode, f.components.length)) = some (1, 1) := by
    decide +kernel
  cases hf : ofArguments .none rowFiles rowArguments with
  | error e =>
    rw [hf] at hrun
    cases hrun
  | ok f =>
    rw [hf] at hrun
    obtain ⟨hexit, hcomponents⟩ := Prod.mk.inj (Option.some.inj hrun)
    obtain ⟨fs, hfs, hall, _, _, hnothing⟩ := (ofArguments_independent .none rowFiles rowArguments).2 f hf
    exact ⟨f, fs, rfl, hexit, hcomponents, hfs, hall, hnothing⟩

/-- An alias that refers to itself ends the run, before the file behind it is looked at. -/
example :
    let files := rowFiles.put (.ofString "tree.js")
      ("import React from 'react';\ntype Tree = \x7bleft: Tree\x7d;\n" ++
        "class Oak extends React.Component \x7b\n  props: Tree;\n\x7d\n")
    (ofArguments .none files { rowArguments with sources := ["tree.js", "row.js"] }).map
      Findings.exitCode = .error .endless := by
  decide +kernel

end Command

end PropTables
