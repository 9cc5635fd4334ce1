import PropTables.Report.Span
import PropTables.Text.Json

/-!
Diagnostics: messages with a place, for people to read and as JSON.
-/

namespace PropTables

structure Diagnostic where
  message : String
  code : Option String
  phase : Option String
  severity : String
  span : Span
  notes : List String
deriving DecidableEq, Repr

namespace Diagnostic

def format (d : Diagnostic) : String :=
  let code := match d.code.filter (· ≠ "") with
    | some c => "[" ++ c ++ "] "
    | none => ""
  d.span.describe ++ ": " ++ d.severity ++ ": " ++ code ++ d.message

def toJson (d : Diagnostic) : Json :=
  let number (n : Option Nat) := Json.optional (fun n : Nat => .integer n) n
  .object
    [("phase", .optional .string d.phase), ("code", .optional .string d.code),
     ("message", .string d.message), ("severity", .string d.severity),
     ("file", .optional .string d.span.file), ("line", number d.span.line),
     ("column", number d.span.column), ("notes", .array (d.notes.map .string))]

end Diagnostic

end PropTables
