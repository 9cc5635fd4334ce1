import PropTables.Proofs.FileIndependence
import PropTables.Proofs.NormalPaths

/-! Runs of loads. A module that is kept is the one that its path would give again, so that no load tells
what has been loaded before. Which module a load gives is said by the table alone. -/

namespace PropTables

namespace LoadRequest

def importingFile (r : LoadRequest) : String :=
  (r.importer.filter (· ≠ "")).getD "/"

def joined (r : LoadRequest) : Text :=
  Path.join (Path.directory (.ofString r.importingFile)) r.specifier

end LoadRequest

namespace Holdings

variable {h base : Holdings} {m : LoadedModule} {path : String}

section Runs

theorem Continues.keep (hf : base.Faithful) (hc : base.Continues h)
    (hm : h.module? path = some (.ok m)) : base.Continues (h.keep m) := by
  unfold Holdings.keep
  split
  next => exact hc
  next =>
    refine ⟨hc.start, fun m' hm' => ?_⟩
    rcases List.mem_append.1 hm' with hm' | hm'
    · exact hc.cached m' hm'
    · rw [hc.module?_eq] at hm
      rw [List.mem_singleton.1 hm']
      exact hf.onShelf?_path hm

theorem Continues.loadNext (hf : base.Faithful) (hc : base.Continues h) (r : LoadRequest) :
    (h.loadNext r).1 = base.load r.specifier r.importer ∧ base.Continues (h.loadNext r).2 := by
  have hload : h.load r.specifier r.importer = base.load r.specifier r.importer := by
    show h.library.load r.specifier r.importer = _
    rw [hc.library_eq]
    rfl
  unfold Holdings.loadNext
  split
  next m hm =>
    obtain ⟨path, -, hmodule⟩ := load_eq_ok.1 hm
    refine ⟨?_, hc.keep hf hmodule⟩
    rw [← hload, hm]
  next => exact ⟨hload, hc⟩

theorem Continues.loads_eq (hf : base.Faithful) (hc : base.Continues h) (rs : List LoadRequest) :
    h.loads rs = rs.map fun r => base.load r.specifier r.importer := by
  induction rs generalizing h with
  | nil => rfl
  | cons r rs ih =>
    obtain ⟨hanswer, hnext⟩ := hc.loadNext hf r
    show (h.loadNext r).1 :: (h.loadNext r).2.loads rs = _
    rw [hanswer, ih hnext]
    rfl

end Runs

section Tables

variable {names : CharacterNames} {sources : List (String × String)} {o : ResolutionOptions} {r : LoadRequest}

theorem directory_ofTable (r : LoadRequest) :
    (ofTable names sources o).directory r.importer = Path.directory (.ofString r.importingFile) := by
  have hroot : Path.directory (.ofString "/") = [Path.slash] := by decide
  unfold directory LoadRequest.importingFile
  cases r.importer.filter (· ≠ "") with
  | none => exact hroot.symm
  | some file => rfl

theorem onShelf?_ofTable (path : String) :
    (ofTable names sources o).onShelf? path = (sources.lookup path).map (readEntry names path) := by
  show ((sources.map fun s => (s.1, readEntry names s.1 s.2)).find? (·.1 == path)).map (·.2) = _
  induction sources with
  | nil => rfl
  | cons s sources ih =>
    obtain ⟨key, source⟩ := s
    rw [List.map_cons, List.find?_cons, List.lookup_cons]
    by_cases hpath : key = path
    · subst hpath
      rw [beq_self_eq_true]
      rfl
    · rw [beq_false_of_ne hpath, beq_false_of_ne (Ne.symm hpath)]
      exact ih

theorem isSome_lookup_iff :
    (sources.lookup path).isSome ↔ ∃ s ∈ sources, s.1 = path := by
  induction sources with
  | nil => simp
  | cons s sources ih =>
    obtain ⟨key, source⟩ := s
    rw [List.lookup_cons, List.exists_mem_cons_iff]
    by_cases hkey : path = key
    · rw [hkey, beq_self_eq_true]
      simp
    · rw [beq_false_of_ne hkey]
      simp only [Ne.symm hkey, false_or]
      exact ih

theorem find?_ofTable {candidate : Text} : (ofTable names sources o).find? candidate = some path ↔
    candidate = .ofString path ∧ ∃ s ∈ sources, s.1 = path := by
  have hshelf (p : String) : ((ofTable names sources o).onShelf? p).isSome ↔ ∃ s ∈ sources, s.1 = p := by
    rw [onShelf?_ofTable, Option.isSome_map]
    exact isSome_lookup_iff
  show (candidate.toString?.bind fun p =>
    if ((ofTable names sources o).onShelf? p).isSome then some p else none) = some path ↔ _
  rw [Option.bind_eq_some_iff]
  constructor
  · rintro ⟨p, hp, hfound⟩
    split at hfound
    next hsome =>
      cases hfound
      exact ⟨Text.toString?_eq_some_iff.1 hp, (hshelf path).1 hsome⟩
    next => cases hfound
  · rintro ⟨rfl, hmem⟩
    refine ⟨path, Text.toString?_ofString path, ?_⟩
    rw [if_pos ((hshelf path).2 hmem)]

theorem find?_ofTable_eq_none {candidate : Text} : (ofTable names sources o).find? candidate = none ↔
    ∀ s ∈ sources, Text.ofString s.1 ≠ candidate := by
  rw [Option.eq_none_iff_forall_ne_some]
  constructor
  · intro h s hs hcandidate
    exact h s.1 (find?_ofTable.2 ⟨hcandidate.symm, s, hs, rfl⟩)
  · intro h path hfound
    obtain ⟨hcandidate, s, hs, rfl⟩ := find?_ofTable.1 hfound
    exact h s hs hcandidate.symm

def FirstIn (sources : List (String × String)) (candidates : List Text) (path : String) : Prop :=
  (∃ s ∈ sources, s.1 = path) ∧ ∃ before after, candidates = before ++ .ofString path :: after ∧
    ∀ candidate ∈ before, ∀ s ∈ sources, Text.ofString s.1 ≠ candidate

theorem findSome?_ofTable (candidates : List Text) :
    candidates.findSome? (ofTable names sources o).find? = some path ↔ FirstIn sources candidates path := by
  simp only [List.findSome?_eq_some_iff, find?_ofTable, find?_ofTable_eq_none]
  constructor
  · rintro ⟨before, candidate, after, hsplit, ⟨rfl, hmem⟩, hbefore⟩
    exact ⟨hmem, before, after, hsplit, hbefore⟩
  · rintro ⟨hmem, before, after, hsplit, hbefore⟩
    exact ⟨before, _, after, hsplit, ⟨rfl, hmem⟩, hbefore⟩

theorem resolve_eq_ok : h.resolve r.specifier r.importer = .ok path ↔
    Path.isRelative r.specifier ∧ (h.resolution.candidates (Path.normal
      (Path.join (h.directory r.importer) r.specifier))).findSome? h.find? = some path := by
  unfold resolve
  dsimp only
  split
  next hrelative =>
    cases (h.resolution.candidates _).findSome? h.find? with
    | none => simp
    | some found => simp [hrelative]
  next hrelative => simp [hrelative]

theorem resolve_ofTable : (ofTable names sources o).resolve r.specifier r.importer = .ok path ↔
    Path.isRelative r.specifier ∧ ∃ b, Path.NormalOf r.joined b ∧
      FirstIn sources (o.candidates b) path := by
  have hjoined : Path.join ((ofTable names sources o).directory r.importer) r.specifier = r.joined := by
    rw [directory_ofTable, LoadRequest.joined]
  simp only [resolve_eq_ok, hjoined, findSome?_ofTable, Path.normalOf_iff, exists_eq_left]
  exact Iff.rfl

/-- Which module a load from a table gives: what is read from the first candidate that the table has. -/
theorem load_ofTable : (ofTable names sources o).load r.specifier r.importer = .ok (.ok m) ↔
    Path.isRelative r.specifier ∧ ∃ b path source read, Path.NormalOf r.joined b ∧
      FirstIn sources (o.candidates b) path ∧ sources.lookup path = some source ∧
      Module.ofSource names source (some path) = .ok read ∧ m = .ofModule path read := by
  have hmodule (path : String) : (ofTable names sources o).module? path = some (.ok m) ↔
      ∃ source read, sources.lookup path = some source ∧
        Module.ofSource names source (some path) = .ok read ∧ m = .ofModule path read := by
    have hshelf : (ofTable names sources o).module? path = (ofTable names sources o).onShelf? path := rfl
    rw [hshelf, onShelf?_ofTable, Option.map_eq_some_iff]
    simp only [readEntry_eq_ok]
    exact exists_congr fun source => (exists_and_left ..).symm
  rw [load_eq_ok]
  simp only [resolve_ofTable, hmodule]
  constructor
  · rintro ⟨path, ⟨hrelative, b, hb, hfirst⟩, source, read, hread⟩
    exact ⟨hrelative, b, path, source, read, hb, hfirst, hread⟩
  · rintro ⟨hrelative, b, path, source, read, hb, hfirst, hread⟩
    exact ⟨path, ⟨hrelative, b, hb, hfirst⟩, source, read, hread⟩

/-- Loads from a table, one after another, give what they give each by itself, whether others fail or
not. A load that succeeds gives what is read at the first path that is in the table: the normal path
that the specifier stands for, that path with an extension, or an index file below it. So two specifiers
that stand for one normal path give one module. -/
theorem loads_ofTable (names : CharacterNames) (sources : List (String × String))
    (o : ResolutionOptions) (requests : List LoadRequest) :
    let fresh := ofTable names sources o
    fresh.loads requests = requests.map (fun r => fresh.load r.specifier r.importer) ∧
    (∀ (r : LoadRequest) (m : LoadedModule), fresh.load r.specifier r.importer = .ok (.ok m) ↔
      Path.isRelative r.specifier ∧ ∃ b path source read, Path.NormalOf r.joined b ∧
        FirstIn sources (b :: o.extensions.map (b ++ ·) ++ o.indexNames.flatMap fun index =>
          o.extensions.map fun extension => Path.join b (index ++ extension)) path ∧
        sources.lookup path = some source ∧ Module.ofSource names source (some path) = .ok read ∧
        m = .ofModule path read) ∧
    ∀ (r r' : LoadRequest) (b : Text), Path.isRelative r.specifier → Path.isRelative r'.specifier →
      Path.NormalOf r.joined b → Path.NormalOf r'.joined b →
      ∀ m, fresh.load r.specifier r.importer = .ok (.ok m) ↔
        fresh.load r'.specifier r'.importer = .ok (.ok m) := by
  intro fresh
  refine ⟨?_, fun r m => load_ofTable, ?_⟩
  · exact (Continues.refl rfl).loads_eq (.ofTable names sources o) requests
  · intro r r' b hrelative hrelative' hb hb' m
    rw [Path.normalOf_iff] at hb hb'
    simp only [fresh, load_ofTable, Path.normalOf_iff, ← hb, ← hb', hrelative, hrelative']

/-- An index file under two specifiers, and under one that leads nowhere in between. -/
example :
    let fresh := ofTable .none [("/src/dir/index.js", "export type Size = number;\n")] .default
    (fresh.loads [⟨.ofString "./dir", some "/src/row.js"⟩, ⟨.ofString "./dir", some "/lib/row.js"⟩,
      ⟨.ofString "../src/./dir", some "/lib/row.js"⟩]).map
        (fun answer => answer.toOption.bind fun loaded => loaded.toOption.map (·.path)) =
      [some "/src/dir/index.js", none, some "/src/dir/index.js"] := by
  decide +kernel

end Tables

end Holdings

end PropTables
