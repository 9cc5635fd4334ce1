import PropTables.CommandLine.Arguments
import PropTables.Component.Transform
import PropTables.Library.Holdings

/-!
The command: it generates the tables of each source file by itself, and prints them and what went
wrong.
-/

namespace PropTables

def Refusal.toDiagnostic (r : Refusal) (file : String) : Diagnostic :=
  ⟨r.message, none, some "parser", "error",
    ⟨some file, some r.loc.line, some r.loc.column, none, none⟩, []⟩

def FileFault.toDiagnostic (f : FileFault) (file : String) : Diagnostic :=
  ⟨"cannot read file: " ++ f.message (quoted file), none, some "load", "error",
    .inFile (some file), []⟩

def FileTree.readModule (t : FileTree) (names : CharacterNames) (path : String) :
    Except LoadAbort (Except Diagnostic Module) :=
  let file := ((Path.plain (.ofString path)).toString?).getD path
  match t.read (.ofString file) with
  | .error f => .ok (.error (f.toDiagnostic file))
  | .ok .undecodable => .error .undecodable
  | .ok (.text source) =>
    match Module.ofSource names source (some file) with
    | .error (.refused r) => .ok (.error (r.toDiagnostic file))
    | .error (.literal f) => .error (.literal f)
    | .ok m => .ok (.ok m)

structure Findings where
  components : List (String × GeneratedTable)
  diagnostics : List Diagnostic

namespace Findings

def append (a b : Findings) : Findings :=
  ⟨a.components ++ b.components, a.diagnostics ++ b.diagnostics⟩

def failed (f : Findings) : Bool :=
  f.diagnostics.any (·.severity == "error")

def exitCode (f : Findings) : Nat :=
  if f.failed then 1 else 0

def tableJson (file : String) (t : GeneratedTable) : Json :=
  .object
    [("file", .string file), ("class", .string t.className), ("field", .string t.field),
     ("static_field", .string t.staticField), ("line", .integer t.loc.line),
     ("column", .integer t.loc.column), ("table", .string (t.render none))]

def toJson (f : Findings) : Json :=
  .object
    [("exit_code", .integer f.exitCode),
     ("components", .array (f.components.map fun c => tableJson c.1 c.2)),
     ("diagnostics", .array (f.diagnostics.map Diagnostic.toJson))]

def tableText (file : String) (t : GeneratedTable) : String :=
  file ++ ":" ++ toString t.loc.line ++ ":" ++ toString t.loc.column ++ ": " ++ t.className ++
    "\n" ++ t.render (some 2)

end Findings

structure CommandOutput where
  exitCode : Nat
  stdout : String
  stderr : String

namespace Command

/-- What one source file gives, and the holdings with the modules that were loaded for it. They stay
loaded if the file fails. -/
def ofSource (t : FileTree) (options : ConvertOptions) (h : Holdings) (path : String) :
    Except Uncaught (Findings × Holdings) :=
  let file := ((Path.plain (.ofString path)).toString?).getD path
  match t.readModule h.names path with
  | .error a => .error (.load a)
  | .ok (.error d) => .ok (⟨[], [d]⟩, h)
  | .ok (.ok m) =>
    let transformed := m.transform options .default h.library
    let h := h.remember transformed.visited
    match transformed.result with
    | .error (.uncaught u) => .error u
    | .error (.conversion e) => .ok (⟨[], [e.toDiagnostic]⟩, h)
    | .ok r => .ok (⟨r.components.map fun c => (file, c), []⟩, h)

/-- What the sources give, in their order, each with the modules that were loaded before. What nothing
catches ends everything. -/
def ofSources (t : FileTree) (options : ConvertOptions) :
    Holdings → List String → Except Uncaught Findings
  | _, [] => return ⟨[], []⟩
  | h, path :: paths => do
    let (found, h) ← ofSource t options h path
    return found.append (← ofSources t options h paths)

def ofArguments (names : CharacterNames) (t : FileTree) (a : Arguments) :
    Except Uncaught Findings :=
  ofSources t a.options (.ofTree names t a.options.resolution) a.sources

def lines (ls : List String) : String :=
  String.join (ls.map (· ++ "\n"))

def output (json : Bool) (f : Findings) : CommandOutput :=
  if json then ⟨f.exitCode, lines [f.toJson.render], ""⟩
  else ⟨f.exitCode, lines (f.components.map fun c => Findings.tableText c.1 c.2),
    lines (f.diagnostics.map Diagnostic.format)⟩

def run (names : CharacterNames) (t : FileTree) (a : Arguments) :
    Except Uncaught CommandOutput :=
  (output a.json) <$> ofArguments names t a

end Command

end PropTables
