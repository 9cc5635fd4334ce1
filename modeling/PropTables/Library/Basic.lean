import PropTables.Library.FileTree
import PropTables.Names.Scope
import PropTables.Syntax.Read
import PropTables.Text.Quoted

/-!
Libraries: what imports can reach. All that is known of a library is what each load gives, and a list
of modules that every module it gives is among.
-/

namespace PropTables

structure LoadedModule where
  path : String
  source : Module
  flat : FlatModule
  scope : Scope

def LoadedModule.ofModule (path : String) (m : Module) : LoadedModule :=
  let flat := FlatModule.ofModule m
  ⟨path, m, flat, .ofFlatModule flat⟩

inductive LoadFault where
  | notRelative (specifier : Text)
  | notFound (specifier : Text) (importer : String)
  | refused (path : String) (r : Refusal)
  | unreadable (path : String) (f : FileFault)

def LoadFault.message : LoadFault → String
  | notRelative specifier => "only relative imports can be followed, got " ++ specifier.quoted
  | notFound specifier importer => "cannot find module " ++ specifier.quoted ++ " from " ++ importer
  | refused path r => "cannot parse module " ++ path ++ ": " ++ r.message
  | unreadable path f => "cannot read module " ++ path ++ ": " ++ f.message (quoted path)

/-- What ends whatever needs a file, without being a fault of the load. -/
inductive LoadAbort where
  | literal (f : LiteralFault)
  | undecodable
deriving DecidableEq, Repr

def LoadAbort.message : LoadAbort → String
  | literal f => f.message
  | undecodable => "a file does not hold a text"

abbrev LoadAnswer := Except LoadAbort (Except LoadFault LoadedModule)

structure LoadRequest where
  specifier : Text
  importer : Option String

structure Library where
  load : (specifier : Text) → (importer : Option String) → LoadAnswer
  modules : List LoadedModule
  mem_modules : ∀ {specifier importer m}, load specifier importer = .ok (.ok m) → m ∈ modules

namespace Library

@[ext]
theorem ext {l l' : Library} (hload : l.load = l'.load) (hmodules : l.modules = l'.modules) :
    l = l' := by
  cases l
  cases l'
  cases hload
  cases hmodules
  rfl

def nameCount (l : Library) : Nat :=
  (l.modules.flatMap (·.scope.base)).length

end Library

end PropTables
