import PropTables.Conversion.Checks
import PropTables.Proofs.Cycles
import PropTables.Proofs.ErrorPlaces

/-! How a conversion can end. Besides its own errors there are only those of a load that ends everything:
without cycles there is an end to the references, and none of the checks on the way finds anything. -/

namespace PropTables

/-- The faults of the types themselves. The others are about a part of a module that is no type, and a
field without a type. -/
def ConversionFault.OfTypes : ConversionFault → Prop
  | noConversion _ | noFields _ | missingType _ => False
  | _ => True

theorem ConversionFault.OfTypes.kind_ne {f : ConversionFault} (h : f.OfTypes) :
    f.kind ≠ .missingType := by
  intro hk
  cases f <;> cases hk
  exact h

theorem Library.Misses.ofTypes {l : Library} {i : ImportSpecifier} {importer : Option String}
    {f : ConversionFault} (h : l.Misses i importer f) : f.OfTypes := by
  cases h <;> trivial

inductive Scope.Built : Scope → Prop
  | ofModule (m : Module) : Built (.ofModule m)
  | withParams {scope : Scope} (h : scope.Built) (params : List TypeParameter) :
    Built (scope.withParams params)

theorem Scope.Built.inner {scope : Scope} (h : scope.Built) :
    ∀ f ∈ scope.inner, ∀ e ∈ f, ∃ p, e.2.referent = .parameter p := by
  induction h with
  | ofModule m => exact nofun
  | withParams h params ih =>
    intro f hf
    unfold Scope.withParams at hf
    split at hf
    · exact ih f hf
    rcases List.mem_cons.1 hf with rfl | hf
    · intro e he
      obtain ⟨p, _, rfl⟩ := List.mem_map.1 he
      exact ⟨p, rfl⟩
    · exact ih f hf

namespace Setting

/-- How a conversion ends: with a value, with an error about types, or at a module whose load ends
everything. -/
inductive Outcome {α : Type} (s : Setting) : Except Failure α → Prop
  | value (a : α) : Outcome s (.ok a)
  | error {f : ConversionFault} {loc : Position} {file : Option String} (hf : f.OfTypes) :
    Outcome s (.error (.conversion (f.error loc file)))
  | aborted {a : LoadAbort} {specifier : Text} {importer : Option String}
    (h : s.library.load specifier importer = .error a) : Outcome s (.error (.uncaught (.load a)))

section

variable {α β : Type} {s : Setting} {c c₀ : Context} {t : TypeExpr}

theorem Outcome.bind {x : Traced α} {f : α → Traced β} (hx : s.Outcome x.result)
    (hf : ∀ a, s.Outcome (f a).result) : s.Outcome (x >>= f).result := by
  rw [Traced.result_bind]
  generalize x.result = r at hx
  cases hx with
  | value a => exact hf a
  | error hf => exact .error hf
  | aborted h => exact .aborted h

theorem Outcome.kind_ne {r : Except Failure α} {e : ConversionError} (h : s.Outcome r)
    (hr : r = .error (.conversion e)) : e.kind ≠ .missingType := by
  cases h with
  | value | aborted => cases hr
  | error hf =>
    cases hr
    exact hf.kind_ne

theorem Raises.ofTypes {x : Call} {f : ConversionFault} {loc : Position} (h : s.Raises x f loc) :
    f.OfTypes := by
  cases h <;> trivial

theorem outcome_of_failsAt {x : Call} {e : Failure} (h : s.FailsAt x e) (hb : x.bound ≠ 0) :
    s.Outcome (.error e : Except Failure α) := by
  cases h with
  | raised h => exact .error h.ofTypes
  | endless => exact (hb rfl).elim
  | import_ h =>
    rcases Library.resolveImport_eq_error h with ⟨_, _, _, hload, rfl⟩ | ⟨f, hmisses, rfl⟩
    · exact .aborted hload
    · exact .error hmisses.ofTypes

theorem roams_self (h : c.scope.Built) : s.Roams c c :=
  ⟨List.mem_cons_self, h.inner, min_le_left _ _, rfl⟩

theorem outcome_convert (hl : s.library.Faithful) (hfree : s.CycleFree (.type t c.scope))
    (hc : s.Roams c₀ c) : s.Outcome (s.convert (s.follow (s.referenceBound c₀)) t c).result := by
  cases hr : (s.convert (s.follow (s.referenceBound c₀)) t c).result with
  | ok v => exact .value v
  | error e =>
    obtain ⟨y, hreach, hy⟩ := exists_failsAt (x := .type _ t c) hr
    exact outcome_of_failsAt hy (hfree.bound_pos hl hc hreach)

theorem outcome_convertNode {n : Node} (hl : s.library.Faithful) (hn : ∀ form loc, n ≠ .other form loc)
    (hc : c.scope.Built) (hfree : ∀ t ∈ n.type?, s.CycleFree (.type t c.scope)) :
    s.Outcome (s.convertNode n c).result := by
  have hroams : s.Roams c c := roams_self hc
  cases n with
  | type t => exact outcome_convert hl (hfree t rfl) hroams
  | member m => cases m <;> exact .error trivial
  | call k => exact .error trivial
  | other form loc => exact (hn form loc rfl).elim
  | indexer i =>
    have hvalue := outcome_convert (c := c.indexed) hl (hfree i.value rfl)
      (Roams.congruence.indexed ⟨rfl, hroams⟩).2
    cases i
    exact hvalue.bind fun v => .value _

theorem outcome_convertTable {scope : Scope} (origin : Option String) (hl : s.library.Faithful)
    (hc : scope.Built) (hfree : s.CycleFree (.type t scope)) :
    s.Outcome (s.convertTable t scope origin).result := by
  let c : Context := ⟨scope, 0, false, none, origin <|> scope.file⟩
  have hvalue : s.Outcome (s.convertType t c).result :=
    outcome_convert (c := c) hl hfree (roams_self hc)
  refine hvalue.bind fun v => ?_
  split
  · exact .value _
  · exact .error trivial

end

end Setting

end PropTables
