import PropTables.Report.Fault

/-!
Computations that read modules. Their results do not depend on what has been read before; the trace
of the modules that were read is kept beside them.
-/

namespace PropTables

/-- What ends a run of the whole program: a file that cannot be loaded at all, or references that
lead on without end. -/
inductive Uncaught where
  | load (a : LoadAbort)
  | endless
deriving DecidableEq, Repr

def Uncaught.message : Uncaught → String
  | load a => a.message
  | endless => "maximum recursion depth exceeded"

inductive Failure where
  | conversion (e : ConversionError)
  | uncaught (u : Uncaught)
deriving DecidableEq, Repr

/-- A computation that reads modules on its way. Whatever its result, it tells which ones. -/
structure Traced (α : Type) where
  visited : List LoadedModule
  result : Except Failure α

namespace Traced

def ofResult (r : Except Failure α) : Traced α := ⟨[], r⟩

def bind (x : Traced α) (f : α → Traced β) : Traced β :=
  match x.result with
  | .error e => ⟨x.visited, .error e⟩
  | .ok a => ⟨x.visited ++ (f a).visited, (f a).result⟩

instance : Monad Traced where
  pure a := ofResult (.ok a)
  bind := bind

def fail (f : ConversionFault) (loc : Position) (file : Option String) : Traced α :=
  ofResult (.error (.conversion (f.error loc file)))

def abort (u : Uncaught) : Traced α :=
  ofResult (.error (.uncaught u))

@[simp] theorem result_pure (a : α) : (pure a : Traced α).result = .ok a := rfl

@[simp] theorem result_bind (x : Traced α) (f : α → Traced β) :
    (x >>= f).result = x.result >>= fun a => (f a).result := by
  show (bind x f).result = _
  unfold bind
  cases x.result <;> rfl

end Traced

def Library.consult (l : Library) (specifier : Text) (importer : Option String) :
    Traced (Except LoadFault LoadedModule) :=
  match l.load specifier importer with
  | .error a => .abort (.load a)
  | .ok (.error f) => pure (.error f)
  | .ok (.ok m) => ⟨[m], .ok (.ok m)⟩

end PropTables
