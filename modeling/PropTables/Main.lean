import PropTables.CommandLine.Run
import PropTables.Library.Mention

/-!
The command as a program. It brings together the files that a run can look at, and leaves the rest
to the run.
-/

namespace PropTables

namespace FileFault

def known : List FileFault :=
  [missing, denied, throughFile, isDirectory, tooManyLinks]

def ofNumber (number : UInt32) (reason : String) : FileFault :=
  let number := min number.toNat (-number).toNat
  (known.find? (·.number == number)).getD ⟨number, reason⟩

def ofError : IO.Error → FileFault
  | .interrupted _ number reason | .noFileOrDirectory _ number reason => ofNumber number reason
  | .alreadyExists _ number reason | .invalidArgument _ number reason
  | .permissionDenied _ number reason | .resourceExhausted _ number reason
  | .inappropriateType _ number reason | .noSuchThing _ number reason => ofNumber number reason
  | .otherError number reason | .resourceBusy number reason | .resourceVanished number reason
  | .unsupportedOperation number reason | .hardwareFault number reason
  | .unsatisfiedConstraints number reason | .illegalOperation number reason
  | .protocolError number reason | .timeExpired number reason => ofNumber number reason
  | .unexpectedEof => ⟨5, "Input/output error"⟩
  | .userError reason => ⟨5, reason⟩

end FileFault

namespace FileTree

def isKnown (t : FileTree) (place : List Text) : Bool :=
  t.isDirectory place || (t.contents? place).isSome || (t.link? place).isSome

/-- Adds what the file system holds at a place in a known directory, if it holds anything there. The
path in a link is replaced by the one without links; a link that leads to itself stays so. -/
def lookAt (t : FileTree) (place : List Text) : IO FileTree := do
  if t.isKnown place then return t
  match (absolute place).toString? with
  | none => return t
  | some path =>
    match ← (IO.FS.realPath path).toBaseIO, ← (IO.FS.readBinFile path).toBaseIO with
    | .error _, .ok _ => return t
    | .error _, .error e =>
      let f := FileFault.ofError e
      if f = .tooManyLinks then return { t with links := (place, absolute place) :: t.links }
      else if f = .denied then return { t with refusals := (place.dropLast, f) :: t.refusals }
      else return t
    | .ok real, read =>
      if real.toString ≠ path then
        return { t with links := (place, .ofString real.toString) :: t.links }
      else if ← real.isDir then return { t with directories := place :: t.directories }
      else match read with
        | .error e =>
          return { t with
            files := (place, .undecodable) :: t.files
            refusals := (place, .ofError e) :: t.refusals }
        | .ok bytes =>
          let contents := ((String.fromUTF8? bytes).map Contents.text).getD .undecodable
          return { t with files := (place, contents) :: t.files }

def lookAlong (t : FileTree) (links : Nat) (place : List Text) : List Text → IO FileTree
  | [] => return t
  | p :: ps => do
    let next := Path.enter place p
    let t ← t.lookAt next
    match t.link? next, links with
    | none, links => t.lookAlong links next ps
    | some _, 0 => return t
    | some target, links + 1 =>
      t.lookAlong links (origin place target) (Path.parts target ++ ps)
termination_by parts => (links, parts.length)

/-- Looks at paths, at those that their files mention, and so on. -/
partial def explore (t : FileTree) (names : CharacterNames) (o : ResolutionOptions)
    (seen : List Text) : List Text → IO FileTree
  | [] => return t
  | path :: pending => do
    if seen.contains path then t.explore names o seen pending
    else
      let t ← t.lookAlong linkLimit (origin t.current path) (Path.parts path)
      t.explore names o (path :: seen) (t.mentioned names o path ++ pending)

end FileTree

def Arguments.fileTree (a : Arguments) (names : CharacterNames) : IO FileTree := do
  let current := Path.plainParts (.ofString (← IO.currentDir).toString)
  FileTree.explore (.bare current) names a.options.resolution []
    (a.sources.map fun s => Path.plain (.ofString s))

def Command.execute (names : CharacterNames) (args : List String) : IO UInt32 := do
  match Arguments.read args with
  | .help =>
    IO.print Arguments.usage
    return 0
  | .refuse =>
    IO.eprint Arguments.usage
    return 2
  | .run a =>
    match Command.run names (← a.fileTree names) a with
    | .error u =>
      IO.eprintln u.message
      return 1
    | .ok output =>
      IO.print output.stdout
      IO.eprint output.stderr
      return output.exitCode.toUInt32

end PropTables

-- the names of characters are not at hand, so that an escape by name is malformed
def main (args : List String) : IO UInt32 :=
  PropTables.Command.execute .none args
