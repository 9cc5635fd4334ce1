import PropTables.Conversion.Options
import PropTables.Text.DecimalDigit

/-!
The arguments of the command. Sources stand together; options may stand before and after them. A
long option may be cut short as long as it stays unambiguous, and its value may follow `=`. Flags of
one letter may share an argument.
-/

namespace PropTables

inductive Flag where
  | help
  | json
  | verbose
  | noNull
  | noVoid
  | noNullable
deriving DecidableEq, Repr

inductive Setter where
  | extension
  | hasDefaultName
  | checkedByName
deriving DecidableEq, Repr

inductive Switch where
  | flag (f : Flag)
  | setter (s : Setter)
deriving DecidableEq, Repr

structure Arguments where
  sources : List String
  json : Bool
  extensions : List String
  noNull : Bool
  noVoid : Bool
  noNullable : Bool
  hasDefaultName : String
  checkedByName : String

def Arguments.usage : String :=
  "usage: prop-tables [-h] [--json] [-v] [--extension EXTENSION] [--no-null-types]\n" ++
  "                   [--no-void-types] [--no-nullable-types]\n" ++
  "                   [--has-default-name NAME] [--checked-by-name NAME]\n" ++
  "                   source [source ...]\n"

inductive Request where
  | run (a : Arguments)
  | help
  | refuse

namespace Switch

def spellings : List (String × Switch) :=
  [("-h", .flag .help), ("--help", .flag .help), ("--json", .flag .json),
   ("-v", .flag .verbose), ("--verbose", .flag .verbose), ("--extension", .setter .extension),
   ("--no-null-types", .flag .noNull), ("--no-void-types", .flag .noVoid),
   ("--no-nullable-types", .flag .noNullable), ("--has-default-name", .setter .hasDefaultName),
   ("--checked-by-name", .setter .checkedByName)]

def ofSpelling? (s : String) : Option Switch :=
  (spellings.find? (·.1 == s)).map (·.2)

end Switch

def Flag.ofLetter? (letter : Char) : Option Flag :=
  match Switch.ofSpelling? (String.ofList ['-', letter]) with
  | some (.flag f) => some f
  | _ => none

/-- An argument by its form. A long option may bring a value with it, and a short flag may bring
others with it: there are none if something is attached to it that is no flag. -/
inductive ArgumentForm where
  | plain (s : String)
  | separator
  | long (o : Switch) (value : Option String)
  | short (f : Flag) (attached : Option (List Flag))
  | unknown

namespace ArgumentForm

def isNegativeNumber (cs : List Char) : Bool :=
  match cs with
  | '-' :: r =>
    let number := if r.getLast? = some '\n' then r.dropLast else r
    let whole := number.takeWhile isDecimalDigit
    match number.drop whole.length with
    | [] => !whole.isEmpty
    | '.' :: places => !places.isEmpty && places.all isDecimalDigit
    | _ => false
  | _ => false

def splitValue (cs : List Char) : String × Option String :=
  let name := cs.takeWhile (· ≠ '=')
  (String.ofList name,
    if name.length < cs.length then some (String.ofList (cs.drop (name.length + 1))) else none)

def abbreviated (cs : List Char) : Option ArgumentForm :=
  let (name, value) := splitValue cs
  match Switch.spellings.filter fun s => name.toList.isPrefixOf s.1.toList with
  | [s] => some (.long s.2 value)
  | _ => none

def isAmbiguous (cs : List Char) : Bool :=
  1 < (Switch.spellings.filter fun s => (splitValue cs).1.toList.isPrefixOf s.1.toList).length

def attachedFlags : List Char → Option (List Flag)
  | [] => some []
  | ['='] => none
  | '=' :: letters => letters.mapM Flag.ofLetter?
  | letters => letters.mapM Flag.ofLetter?

def ofText (s : String) : Option ArgumentForm :=
  let cs := s.toList
  let otherwise : ArgumentForm :=
    if isNegativeNumber cs ∨ cs.contains ' ' then .plain s else .unknown
  match cs with
  | '-' :: '-' :: [] => some .separator
  | '-' :: '-' :: _ =>
    match Switch.ofSpelling? (splitValue cs).1 with
    | some o => some (.long o (splitValue cs).2)
    | none =>
      if isAmbiguous cs then none else some ((abbreviated cs).getD otherwise)
  | '-' :: letter :: attached =>
    match Flag.ofLetter? letter with
    | some f => some (.short f (attachedFlags attached))
    | none => some otherwise
  | _ => some (.plain s)

def ofTexts : List String → Option (List ArgumentForm)
  | [] => some []
  | s :: rest => do
    match ← ofText s with
    | .separator => return .separator :: rest.map .plain
    | f => return f :: (← ofTexts rest)

end ArgumentForm

namespace Arguments

def initial : Arguments := ⟨[], false, [], false, false, false, "HasDefaultProp", "CheckedBy"⟩

def setFlag (a : Arguments) : Flag → Arguments
  | .json => { a with json := true }
  | .noNull => { a with noNull := true }
  | .noVoid => { a with noVoid := true }
  | .noNullable => { a with noNullable := true }
  | .help | .verbose => a

def setValue (a : Arguments) (value : String) : Setter → Arguments
  | .extension => { a with extensions := a.extensions ++ [value] }
  | .hasDefaultName => { a with hasDefaultName := value }
  | .checkedByName => { a with checkedByName := value }

/-- What is left to do once an argument list is known to be refused: the help is shown all the same
if the rest asks for it. -/
def refuseUnlessHelp : Request → Request
  | .help => .help
  | _ => .refuse

inductive Stage where
  | before
  | among
  | after
deriving DecidableEq

def Stage.next : Stage → Stage
  | before => before
  | _ => after

def readForms (a : Arguments) : Stage → List ArgumentForm → Request
  | .before, [] => .refuse
  | _, [] => .run a
  | .after, .plain _ :: rest => refuseUnlessHelp (readForms a .after rest)
  | _, .plain s :: rest => readForms { a with sources := a.sources ++ [s] } .among rest
  | .after, .separator :: _ => .refuse
  | stage, .separator :: rest => readForms a stage rest
  | stage, .unknown :: rest => refuseUnlessHelp (readForms a stage.next rest)
  | stage, .long (.flag f) none :: rest =>
    if f = .help then .help else readForms (a.setFlag f) stage.next rest
  | _, .long (.flag _) (some _) :: _ => .refuse
  | stage, .long (.setter s) (some value) :: rest => readForms (a.setValue value s) stage.next rest
  | stage, .long (.setter s) none :: .plain value :: rest =>
    readForms (a.setValue value s) stage.next rest
  | _, .long (.setter _) none :: _ => .refuse
  | stage, .short f (some fs) :: rest =>
    if (f :: fs).contains .help then .help
    else readForms ((f :: fs).foldl setFlag a) stage.next rest
  | _, .short _ none :: _ => .refuse

def read (args : List String) : Request :=
  match ArgumentForm.ofTexts args with
  | none => .refuse
  | some forms => readForms initial .before forms

def options (a : Arguments) : ConvertOptions where
  hasDefaultName := a.hasDefaultName
  checkedByName := a.checkedByName
  exactName := ConvertOptions.default.exactName
  allowNull := !a.noNull
  allowVoid := !a.noVoid
  allowMaybe := !a.noNullable
  resolution :=
    { ResolutionOptions.default with
      extensions := if a.extensions.isEmpty then ResolutionOptions.defaultExtensions
        else a.extensions.map .ofString }

end Arguments

end PropTables
