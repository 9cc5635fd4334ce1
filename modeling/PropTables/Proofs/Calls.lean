import Mathlib.Data.Prod.Lex
import Mathlib.Logic.Relator
import PropTables.Conversion.Node
import PropTables.Proofs.TypeParts

/-! The calls that a conversion makes, as a relation between calls. A statement about everything that
a conversion meets on its way is a statement about the calls that its first call reaches. -/

namespace PropTables

theorem eq_of_reflTransGen {α : Type} {r : α → α → Prop} (hr : Relator.RightUnique r) {a b c : α}
    (hb : Relation.ReflTransGen r a b) (hc : Relation.ReflTransGen r a c) (endB : ∀ d, ¬ r b d)
    (endC : ∀ d, ¬ r c d) : c = b := by
  have stay {x y : α} (hx : ∀ d, ¬ r x d) (h : Relation.ReflTransGen r x y) : y = x := by
    rcases h.cases_head with h | ⟨d, hd, _⟩
    · exact h.symm
    · exact (hx d hd).elim
  rcases Relation.ReflTransGen.total_of_right_unique hr hb hc with h | h
  · exact stay endB h
  · exact (stay endC h).symm

def Context.through (c : Context) (i : ImportSpecifier) (file : Option String) (scope : Scope) :
    Context :=
  { c with
    scope
    replacement := if c.replacement.isNone ∧ file = c.origin then some i.binds else c.replacement }

@[simp] theorem Context.root_body (c : Context) (params : List TypeParameter) :
    (c.body params).scope.root = c.scope.root := by
  simp only [Context.body, Scope.root_withParams, Scope.root_root]

/-- A call of the rule for a type, or of the rule for what a name is bound to. The bound is the
number of references that may still be followed one after another. -/
inductive Call where
  | type (bound : Nat) (t : TypeExpr) (c : Context)
  | binding (bound : Nat) (b : Binding) (use : Use) (c : Context)

def Call.context : Call → Context
  | type _ _ c | binding _ _ _ c => c

namespace Setting

def run (s : Setting) : Call → Traced Converted
  | .type bound t c => s.convert (s.follow bound) t c
  | .binding bound b use c => s.follow bound b use c

def Yields (s : Setting) (x : Call) (v : Converted) : Prop :=
  (s.run x).result = .ok v

def tableCall (s : Setting) (t : TypeExpr) (scope : Scope) (origin : Option String) : Call :=
  let c : Context := ⟨scope, 0, false, none, origin <|> scope.file⟩
  .type (s.referenceBound c) t c

inductive Part (s : Setting) (c : Context) : TypeExpr → TypeExpr → Context → Prop
  | nullable : Part s c (.nullable loc t) t c.nested
  | array : Part s c (.array loc t) t c.nested
  | arrayOf (hg : s.generic name = .array) : Part s c (.reference loc [] name [t]) t c.nested
  | exact (hg : s.generic name = .exact) : Part s c (.reference loc [] name [t]) t c
  | checkedBy (hg : s.generic name = .checkedBy) : Part s c (.reference loc [] name [u, t]) t c
  | hasDefault (hg : s.generic name = .hasDefault) (hc : c.isFieldValue = true) :
    Part s c (.reference loc [] name [t]) t c
  | union (hl : types.mapM TypeExpr.literal? = none) (ht : t ∈ types) :
    Part s c (.union loc types) t c.nested
  | intersection (ht : t ∈ types) : Part s c (.intersection loc types) t c.nested
  | property (hp : .property p ∈ members) :
    Part s c (.object ⟨loc, members, [], [], ex, leading⟩) p.value c.fieldValue
  | spread (hp : .spread p ∈ members) :
    Part s c (.object ⟨loc, members, [], [], ex, leading⟩) p.argument c.spread
  | indexer : Part s c (.object ⟨loc, [], [i], [], ex, leading⟩) i.value c.indexed

/-- The calls that a call makes, as long as none of them fails. -/
inductive Step (s : Setting) : Call → Call → Prop
  | part (h : s.Part c t t' c') : Step s (.type n t c) (.type n t' c')
  | lookup (hb : c.scope.lookup name = some b) :
    Step s (.type n (.reference loc [] name []) c) (.binding n b ⟨loc, name⟩ c)
  | import_ (hr : (s.library.resolveImport i file).result = .ok r) :
    Step s (.binding (n + 1) ⟨.import_ i, file⟩ use c)
      (.binding n r.binding use (c.through i file r.scope))
  | typeAlias : Step s (.binding (n + 1) ⟨.typeAlias a, file⟩ use c) (.type n a.right (c.body a.params))
  | interface :
    Step s (.binding (n + 1) ⟨.interface i, file⟩ use c) (.type n (.object i.body) (c.body i.params))

abbrev Reaches (s : Setting) : Call → Call → Prop :=
  Relation.ReflTransGen s.Step

theorem Part.child {s : Setting} {c c' : Context} {t t' : TypeExpr} (h : s.Part c t t' c') :
    t.Child t' := by
  cases h with
  | nullable => exact .nullable
  | array => exact .array
  | arrayOf | exact | hasDefault => exact .argument (List.mem_singleton_self _)
  | checkedBy => exact .argument (List.mem_cons_of_mem _ (List.mem_singleton_self _))
  | union _ ht => exact .union ht
  | intersection ht => exact .intersection ht
  | property hp => exact .property hp
  | spread hp => exact .spread hp
  | indexer => exact .indexerValue (List.mem_singleton_self _)

theorem Part.context_eq {s : Setting} {c c' : Context} {t t' : TypeExpr} (h : s.Part c t t' c') :
    c'.scope = c.scope ∧ c'.origin = c.origin ∧ (c.replacement = none → c'.replacement = none) := by
  cases h with
  | exact | checkedBy | hasDefault => exact ⟨rfl, rfl, id⟩
  | _ => exact ⟨rfl, rfl, fun _ => rfl⟩

end Setting

noncomputable def Call.rank : Call → Nat ×ₗ Nat
  | .type bound t _ => toLex (2 * bound + 1, sizeOf t)
  | .binding bound _ _ _ => toLex (2 * bound, 0)

namespace Setting

theorem Step.rank_lt {s : Setting} {x y : Call} (h : s.Step x y) : y.rank < x.rank := by
  cases h with
  | part h => exact Prod.Lex.toLex_lt_toLex.2 (.inr ⟨rfl, h.child.sizeOf_lt⟩)
  | lookup | import_ | typeAlias | interface =>
    -- A lookup leaves the bound as it is; it is told from a type at that bound by the odd numbers.
    refine Prod.Lex.toLex_lt_toLex.2 (.inl ?_)
    simp only
    omega

/-- Induction along the calls: what holds of a call if it holds of all that it calls, holds of every
call. -/
theorem call_induction {s : Setting} {P : Call → Prop}
    (step : ∀ x, (∀ y, s.Step x y → P y) → P x) (x : Call) : P x := by
  have wf : WellFounded fun x y : Call => x.rank < y.rank := InvImage.wf Call.rank wellFounded_lt
  induction x using wf.induction with
  | _ x ih => exact step x fun y h => ih y h.rank_lt

end Setting

end PropTables
