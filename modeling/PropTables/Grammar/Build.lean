import PropTables.Number.Basic
import PropTables.Source.Lexeme
import PropTables.Syntax.Fault
import PropTables.Syntax.Notes
import PropTables.Text.Literal

/-!
Building the meaning of what has been read. It starts once all tokens are read, knows the comments
of the whole text and the names of characters, and stops at the first fault.
-/

namespace PropTables

structure Surroundings where
  comments : List Comment
  names : CharacterNames

abbrev Build (α : Type) := ReaderT Surroundings (Except SourceFault) α

namespace Build

theorem run_bind_eq_ok {a : Build β} {f : β → Build α} {around : Surroundings} {y : α} :
    (a >>= f).run around = .ok y ↔ ∃ x, a.run around = .ok x ∧ (f x).run around = .ok y := by
  rw [ReaderT.run_bind]
  cases a.run around with
  | error e => simp [Bind.bind, Except.bind]
  | ok x => simp [Bind.bind, Except.bind]

def structureFault (fault : StructureFault) (loc : Position) : Build α :=
  throw (.refused (.structure_ fault loc))

def stringValue (t : Token) : Build Text := do
  match Text.ofLiteral? (← read).names t.text with
  | some text => return text
  | none => throw (.literal .malformedString)

def numberValue (t : Token) : Build Number :=
  match Number.ofLiteral? t.text with
  | some n => return n
  | none => throw (.literal .oversizedInteger)

def keyText (t : Token) : Build Text :=
  if t.terminal = .string then stringValue t else return Text.ofString t.text

def commentsBetween (lo hi : Position) : Build (List String) := do
  let around ← read
  return (around.comments.filter fun c =>
    lo.upTo c.extent.start && c.extent.start.before hi).map (·.text)

end Build

namespace Notes

/-- The comments of the members of an object. A comment between two members belongs to the first if
it starts on the line where that one ends, and to the second otherwise; one after the last member
belongs to it. `gap` is where the text between the members goes on, and `follows` says that a member
ends there. -/
def ofMembers (comments : List Comment) (close : Position) :
    (follows : Bool) → (gap : Position) → List Extent → List Notes
  | _, _, [] => []
  | follows, gap, m :: ms =>
    let isLast := ms.isEmpty
    let next := (ms.head?.map (·.start)).getD close
    let leads (p : Position) : Bool :=
      gap.upTo p && p.before m.start && !(follows && p.line == gap.line)
    let trails (p : Position) : Bool :=
      m.stop.upTo p && p.before next && (isLast || p.line == m.stop.line)
    let texts (p : Position → Bool) : List String :=
      (comments.filter fun c => p c.extent.start).map (·.text)
    ⟨texts leads, texts trails⟩ :: ofMembers comments close true m.stop ms

def ofObject (comments : List Comment) (object : Extent) (members : List Extent) : List Notes :=
  let inside := comments.filter fun c =>
    object.start.before c.extent.start && c.extent.stop.upTo object.stop
  ofMembers inside object.stop false object.start members

end Notes

end PropTables
