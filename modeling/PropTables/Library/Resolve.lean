import PropTables.Library.Traced

/-!
Following an import to what it stands for in another module.
-/

namespace PropTables

structure Resolved where
  binding : Binding
  scope : Scope

namespace Library

/-- Looks for an export in a module and then in those it exports everything of, in their order and
depth first. `seen` holds the modules that have been searched; a star never exports a default. No
search is nested deeper than there are modules. -/
def findExport (l : Library) (name : String) :
    (depth : Nat) → (seen : List String) → LoadedModule →
      Traced (List String × Option (LoadedModule × String))
  | 0, seen, _ => pure (seen, none)
  | depth + 1, seen, m =>
    if seen.contains m.path then pure (seen, none)
    else match m.flat.export? name with
      | some e => pure (m.path :: seen, some (m, e.inner))
      | none =>
        if name = "default" then pure (m.path :: seen, none)
        else m.flat.stars.foldlM
          (fun found source =>
            if found.2.isSome then pure found
            else do
              match ← l.consult source m.flat.file with
              | .error _ => pure found
              | .ok target => l.findExport name depth found.1 target)
          (m.path :: seen, none)

def exportOf (l : Library) (m : LoadedModule) (name : String) :
    Traced (Option (LoadedModule × String)) :=
  (·.2) <$> l.findExport name (l.modules.length + 1) [] m

def resolveImport (l : Library) (s : ImportSpecifier) (importer : Option String) :
    Traced Resolved :=
  let fail (f : ConversionFault) : Traced Resolved := .fail f s.loc importer
  if s.kind = .typeof then fail (.typeofImport s.binds)
  else match s.imported with
    | none => fail (.namespaceImport s.binds)
    | some name => do
      match ← l.consult s.source importer with
      | .error f => fail (.unloadable f)
      | .ok loaded =>
        match ← l.exportOf loaded name with
        | none => fail (.notExported s.source name)
        | some (m, inner) =>
          match m.flat.referent? inner with
          | none => fail (.exportUndeclared s.source name inner)
          | some referent => pure ⟨⟨referent, m.flat.file⟩, m.scope⟩

end Library

end PropTables
