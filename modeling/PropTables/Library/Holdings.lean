import PropTables.Library.Basic

/-!
Libraries from a table of sources or from files. A specifier is turned into the first candidate path
at which there is a module. Once a module has been loaded it stays as it was, also when its file
changes.
-/

namespace PropTables

inductive Place where
  | table
  | files (t : FileTree)

inductive ReadFault where
  | file (f : FileFault)
  | undecodable
  | source (f : SourceFault)

structure Holdings where
  names : CharacterNames
  place : Place
  resolution : ResolutionOptions
  /-- What reading each path gives. -/
  shelf : List (String × Except ReadFault LoadedModule)
  /-- The modules that have been loaded. -/
  cached : List LoadedModule

namespace Holdings

def readEntry (names : CharacterNames) (path source : String) : Except ReadFault LoadedModule :=
  match Module.ofSource names source (some path) with
  | .error f => .error (.source f)
  | .ok m => .ok (.ofModule path m)

def ofTable (names : CharacterNames) (sources : List (String × String))
    (resolution : ResolutionOptions) : Holdings :=
  ⟨names, .table, resolution, sources.map fun s => (s.1, readEntry names s.1 s.2), []⟩

def fileEntry (names : CharacterNames) (path : String) :
    Except FileFault Contents → Except ReadFault LoadedModule
  | .error f => .error (.file f)
  | .ok .undecodable => .error .undecodable
  | .ok (.text source) => readEntry names path source

def treeEntry (names : CharacterNames) (t : FileTree) (place : List Text) :
    Option (String × Except ReadFault LoadedModule) := do
  let path ← (FileTree.absolute place).toString?
  return (path, fileEntry names path (t.open_ place))

def ofTree (names : CharacterNames) (t : FileTree) (resolution : ResolutionOptions) : Holdings :=
  ⟨names, .files t, resolution, t.files.filterMap fun f => treeEntry names t f.1, []⟩

def put (h : Holdings) (path source : String) : Holdings :=
  match h.place with
  | .table =>
    let entry := (path, readEntry h.names path source)
    { h with shelf := h.shelf.filter (·.1 != path) ++ [entry] }
  | .files t =>
    let t := t.put (.ofString path) source
    { ofTree h.names t h.resolution with cached := h.cached }

def onShelf? (h : Holdings) (path : String) : Option (Except ReadFault LoadedModule) :=
  (h.shelf.find? (·.1 == path)).map (·.2)

def directory (h : Holdings) (importer : Option String) : Text :=
  match h.place, importer.filter (· ≠ "") with
  | .table, some file => Path.directory (.ofString file)
  | .table, none => [Path.slash]
  | .files _, some file => Path.parent (.ofString file)
  | .files t, none => FileTree.absolute t.current

def importerName (h : Holdings) (importer : Option String) : String :=
  (importer.filter (· ≠ "")).getD (match h.place with | .table => "/" | .files _ => ".")

def find? (h : Holdings) (candidate : Text) : Option String := do
  let path ← match h.place with
    | .table => candidate.toString?
    | .files t =>
      (t.locate candidate).toOption.bind fun place => (FileTree.absolute place).toString?
  if (h.onShelf? path).isSome then some path else none

def resolve (h : Holdings) (specifier : Text) (importer : Option String) :
    Except LoadFault String :=
  if Path.isRelative specifier then
    let base := Path.normal (Path.join (h.directory importer) specifier)
    match (h.resolution.candidates base).findSome? h.find? with
    | some path => .ok path
    | none => .error (.notFound specifier (h.importerName importer))
  else .error (.notRelative specifier)

/-- The module at a path: as it was loaded before, or as it is on the shelf. -/
def module? (h : Holdings) (path : String) : Option (Except ReadFault LoadedModule) :=
  match h.cached.find? (·.path == path) with
  | some m => some (.ok m)
  | none => h.onShelf? path

def load (h : Holdings) (specifier : Text) (importer : Option String) : LoadAnswer :=
  match h.resolve specifier importer with
  | .error f => .ok (.error f)
  | .ok path =>
    match h.module? path with
    | some (.ok m) => .ok (.ok m)
    | some (.error (.file f)) => .ok (.error (.unreadable path f))
    | some (.error (.source (.refused r))) => .ok (.error (.refused path r))
    | some (.error (.source (.literal f))) => .error (.literal f)
    | some (.error .undecodable) => .error .undecodable
    | none => .ok (.error (.notFound specifier (h.importerName importer)))

def keep (h : Holdings) (m : LoadedModule) : Holdings :=
  if h.cached.any (·.path == m.path) then h else { h with cached := h.cached ++ [m] }

def loadNext (h : Holdings) (r : LoadRequest) : LoadAnswer × Holdings :=
  match h.load r.specifier r.importer with
  | .ok (.ok m) => (.ok (.ok m), h.keep m)
  | failed => (failed, h)

def loads : Holdings → List LoadRequest → List LoadAnswer
  | _, [] => []
  | h, r :: rs =>
    let (answer, next) := h.loadNext r
    answer :: next.loads rs

/-- Keeps the modules at the paths of these as they are now. -/
def remember (h : Holdings) (ms : List LoadedModule) : Holdings :=
  let keep (cached : List LoadedModule) (m : LoadedModule) :=
    if cached.any (·.path == m.path) then cached
    else cached ++ ((h.onShelf? m.path).bind Except.toOption).toList
  { h with cached := ms.foldl keep h.cached }

def paths (h : Holdings) : List String :=
  h.shelf.map (·.1) ++ (h.cached.map (·.path)).filter fun path => (h.onShelf? path).isNone

def modules (h : Holdings) : List LoadedModule :=
  h.paths.filterMap fun path => (h.module? path).bind Except.toOption

variable {h : Holdings} {m : LoadedModule} {path : String}

theorem mem_paths {r : Except ReadFault LoadedModule} (hr : h.module? path = some r) :
    path ∈ h.paths := by
  cases hs : h.onShelf? path with
  | some entry =>
    obtain ⟨⟨key, _⟩, hmem, -⟩ := Option.map_eq_some_iff.1 hs
    have hkey : key = path := by simpa using List.find?_some hmem
    exact List.mem_append_left _ (hkey ▸ List.mem_map_of_mem (List.mem_of_find?_eq_some hmem))
  | none =>
    unfold module? at hr
    split at hr
    next m hfound =>
      have hpath : m.path = path := by simpa using List.find?_some hfound
      refine List.mem_append_right _ (List.mem_filter.2 ⟨?_, by rw [hs]; rfl⟩)
      exact hpath ▸ List.mem_map_of_mem (List.mem_of_find?_eq_some hfound)
    next =>
      rw [hs] at hr
      cases hr

theorem mem_modules : m ∈ h.modules ↔ ∃ path, h.module? path = some (.ok m) := by
  constructor
  · intro hm
    obtain ⟨path, -, hread⟩ := List.mem_filterMap.1 hm
    obtain ⟨r, hr, hread⟩ := Option.bind_eq_some_iff.1 hread
    cases r with
    | error => cases hread
    | ok =>
      cases hread
      exact ⟨path, hr⟩
  · rintro ⟨path, hm⟩
    refine List.mem_filterMap.2 ⟨path, mem_paths hm, ?_⟩
    rw [hm]
    rfl

theorem load_eq_ok {specifier : Text} {importer : Option String} :
    h.load specifier importer = .ok (.ok m) ↔
      ∃ path, h.resolve specifier importer = .ok path ∧ h.module? path = some (.ok m) := by
  unfold load
  cases h.resolve specifier importer with
  | error f => simp
  | ok path =>
    dsimp only
    constructor
    · intro hm
      refine ⟨path, rfl, ?_⟩
      split at hm <;> cases hm
      assumption
    · rintro ⟨p, hp, hm⟩
      cases hp
      rw [hm]

def library (h : Holdings) : Library where
  load := h.load
  modules := h.modules
  mem_modules hm := by
    obtain ⟨path, _, hm⟩ := load_eq_ok.1 hm
    exact mem_modules.2 ⟨path, hm⟩

end Holdings

namespace Library

def ofTable (names : CharacterNames) (sources : List (String × String))
    (resolution : ResolutionOptions) : Library :=
  (Holdings.ofTable names sources resolution).library

def ofTree (names : CharacterNames) (t : FileTree) (resolution : ResolutionOptions) : Library :=
  (Holdings.ofTree names t resolution).library

end Library

end PropTables
