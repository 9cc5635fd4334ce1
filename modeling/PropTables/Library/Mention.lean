import PropTables.Library.FileTree
import PropTables.Syntax.Read

/-!
What a file mentions: the paths at which the modules may be that it imports or exports from. A file
tree that holds everything mentioned in its files, and in those in turn, holds all that following
the imports can reach.
-/

namespace PropTables

def Item.sources : Item → List Text
  | statement (.import_ d) => [d.source]
  | exportNamed e => e.source.toList
  | exportAll _ source => [source]
  | _ => []

namespace FileTree

/-- The paths that the file at a path mentions. There are none if it is no module. The file of an
argument keeps its path, that of an import gets the one without links. -/
def mentioned (t : FileTree) (names : CharacterNames) (o : ResolutionOptions) (path : Text) :
    List Text :=
  match t.locate path, t.read path with
  | .ok place, .ok (.text source) =>
    match Module.ofSource names source none with
    | .ok m =>
      ((m.items.flatMap Item.sources).filter Path.isRelative).flatMap fun s =>
        [Path.parent path, absolute place.dropLast].flatMap fun directory =>
          o.candidates (Path.normal (Path.join directory s))
    | .error _ => []
  | _, _ => []

end FileTree

end PropTables
