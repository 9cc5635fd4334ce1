import PropTables.Library.Path

/-!
Files in directories. Nothing exists but the given files, links and directories, the working
directory, and the directories that lead to one of them. A path is followed part by part, and a link
on it is replaced by the path that it holds; a place at which all parts have been followed is the
same for all paths that lead to it.
-/

namespace PropTables

structure FileFault where
  number : Nat
  reason : String
deriving DecidableEq, Repr

namespace FileFault

def missing : FileFault := ⟨2, "No such file or directory"⟩
def denied : FileFault := ⟨13, "Permission denied"⟩
def throughFile : FileFault := ⟨20, "Not a directory"⟩
def isDirectory : FileFault := ⟨21, "Is a directory"⟩
def tooManyLinks : FileFault := ⟨40, "Too many levels of symbolic links"⟩

def message (path : String) (f : FileFault) : String :=
  "[Errno " ++ toString f.number ++ "] " ++ f.reason ++ ": " ++ path

end FileFault

/-- The bytes of a file, which need not be a text. -/
inductive Contents where
  | text (s : String)
  | undecodable

structure FileTree where
  /-- The parts of the absolute path of the working directory, which is on no link. -/
  current : List Text
  directories : List (List Text)
  links : List (List Text × Text)
  files : List (List Text × Contents)
  /-- The files that cannot be opened and the directories that cannot be passed. -/
  refusals : List (List Text × FileFault)

namespace FileTree

def bare (current : List Text) : FileTree :=
  ⟨current, [], [], [], []⟩

def contents? (t : FileTree) (parts : List Text) : Option Contents :=
  (t.files.find? (·.1 == parts)).map (·.2)

def link? (t : FileTree) (parts : List Text) : Option Text :=
  (t.links.find? (·.1 == parts)).map (·.2)

def refusal? (t : FileTree) (parts : List Text) : Option FileFault :=
  (t.refusals.find? (·.1 == parts)).map (·.2)

def isDirectory (t : FileTree) (parts : List Text) : Bool :=
  (t.current :: t.directories).any parts.isPrefixOf ||
    (t.files.map (·.1) ++ t.links.map (·.1)).any fun place =>
      parts.isPrefixOf place && parts.length < place.length

def origin (place : List Text) (path : Text) : List Text :=
  if Path.isAbsolute path then [] else place

def pass (t : FileTree) (place : List Text) : Except FileFault Unit :=
  if (t.contents? place).isSome then .error .throughFile
  else if !t.isDirectory place then .error .missing
  else match t.refusal? place with
    | some f => .error f
    | none => .ok ()

/-- Walks from a place along the parts of a path, up to the first link. It ends with the path in the
link and the parts behind it, if there is one. -/
def stride (t : FileTree) :
    (place : List Text) → List Text → Except FileFault (List Text × Option (Text × List Text))
  | place, [] => .ok (place, none)
  | place, p :: ps => do
    t.pass place
    let next := Path.enter place p
    match t.link? next with
    | some target => return (place, some (target, ps))
    | none => stride t next ps

/-- Walks along the parts of a path and of the links on it, of which there may be so many. -/
def walk (t : FileTree) : (links : Nat) → (place : List Text) → List Text →
    Except FileFault (List Text)
  | links, place, parts => do
    match ← t.stride place parts, links with
    | (place, none), _ => return place
    | (_, some _), 0 => .error .tooManyLinks
    | (place, some (target, rest)), links + 1 =>
      walk t links (origin place target) (Path.parts target ++ rest)

def linkLimit : Nat := 40

def locate (t : FileTree) (path : Text) : Except FileFault (List Text) := do
  let place ← t.walk linkLimit (origin t.current path) (Path.parts path)
  if (t.contents? place).isSome then return place
  else if t.isDirectory place then .error ((t.refusal? place).getD .isDirectory)
  else .error .missing

def unifyLines : List Char → List Char
  | '\r' :: '\n' :: r => '\n' :: unifyLines r
  | '\r' :: r => '\n' :: unifyLines r
  | c :: r => c :: unifyLines r
  | [] => []

def Contents.unified : Contents → Contents
  | .text s => .text (String.ofList (unifyLines s.toList))
  | .undecodable => .undecodable

def open_ (t : FileTree) (place : List Text) : Except FileFault Contents :=
  match t.refusal? place, t.contents? place with
  | some f, _ => .error f
  | none, some c => .ok (Contents.unified c)
  | none, none => .error .missing

def read (t : FileTree) (path : Text) : Except FileFault Contents := do
  t.open_ (← t.locate path)

def absolute (parts : List Text) : Text :=
  Path.slash :: Path.joined parts

def put (t : FileTree) (path : Text) (s : String) : FileTree :=
  let parts := t.current ++ Path.plainParts path
  { t with files := t.files.filter (·.1 != parts) ++ [(parts, .text s)] }

end FileTree

end PropTables
