import Mathlib.Data.List.Perm.Subperm
import PropTables.Proofs.Depth

/-! References without a cycle. Along a chain of calls every alias, interface and import is met once, so
there are never more references in a row than there are names, and the bound on them is not reached. -/

namespace PropTables

open Relation

def Call.stage : Call → Stage
  | .type _ t c => .type t c.scope
  | .binding _ b _ c => .binding b c.scope.root

def Call.bound : Call → ℕ
  | .type n _ _ => n
  | .binding n _ _ _ => n

namespace Setting

inductive Unfolds (s : Setting) : Stage → Stage → Prop
  | part (h : s.Part c t u c') : Unfolds s (.type t scope) (.type u scope)
  | lookup (hb : scope.lookup name = some b) :
    Unfolds s (.type (.reference loc [] name []) scope) (.binding b scope.root)
  | typeAlias :
    Unfolds s (.binding ⟨.typeAlias a, file⟩ scope) (.type a.right (scope.root.withParams a.params))
  | interface :
    Unfolds s (.binding ⟨.interface i, file⟩ scope)
      (.type (.object i.body) (scope.root.withParams i.params))
  | import_ (hr : (s.library.resolveImport i file).result = .ok r) :
    Unfolds s (.binding ⟨.import_ i, file⟩ scope) (.binding r.binding r.scope.root)

/-- No alias, interface or import that a type leads to leads back to itself. -/
def CycleFree (s : Setting) (x : Stage) : Prop :=
  ∀ y, ReflTransGen s.Unfolds x y → ¬ TransGen s.Unfolds y y

section

variable {s : Setting} {x y start : Call} {c c' c₀ : Context} {t u : TypeExpr} {scope : Scope} {b : Binding}

theorem CycleFree.of_acc {x : Stage} (h : Acc (fun y x => s.Unfolds x y) x) : s.CycleFree x := by
  have loop (y : Stage) (hy : Acc (TransGen fun y x => s.Unfolds x y) y) :
      ¬ TransGen (fun y x => s.Unfolds x y) y y := by
    induction hy with
    | intro y _ ih => exact fun hyy => ih y hyy hyy
  intro y hreach
  have hacc : Acc (fun y x => s.Unfolds x y) y := by
    induction hreach with
    | refl => exact h
    | tail _ hstep ih => exact ih.inv hstep
  exact fun hcycle => loop y hacc.transGen (transGen_swap.1 hcycle)

theorem Step.unfolds (h : s.Step x y) : s.Unfolds x.stage y.stage := by
  cases h with
  | part hp =>
    rw [Call.stage, Call.stage, hp.context_eq.1]
    exact .part hp
  | lookup hb => exact .lookup hb
  | typeAlias => exact .typeAlias
  | interface => exact .interface
  | import_ hr => exact .import_ hr

theorem Part.roams (h : s.Part c t u c') (hc : s.Roams c₀ c) : s.Roams c₀ c' := by
  have hcongruence : Context.Congruence fun c c' => c = c' ∧ s.Roams c₀ c := Roams.congruence
  cases h with
  | nullable | array | arrayOf | union | intersection => exact (hcongruence.nested ⟨rfl, hc⟩).2
  | exact | checkedBy | hasDefault => exact hc
  | property => exact (hcongruence.fieldValue ⟨rfl, hc⟩).2
  | spread => exact (hcongruence.spread ⟨rfl, hc⟩).2
  | indexer => exact (hcongruence.indexed ⟨rfl, hc⟩).2

def Wanders (s : Setting) (c₀ : Context) : Call → Prop
  | .type _ _ c => s.Roams c₀ c
  | .binding _ b _ c => s.Roams c₀ c ∧ Bound c b

theorem Step.wanders (hl : s.library.Faithful) (h : s.Step x y) (hx : s.Wanders c₀ x) :
    s.Wanders c₀ y := by
  cases h with
  | part hp => exact hp.roams hx
  | lookup hb => exact ⟨hx, Roams.bound hx hb⟩
  | typeAlias => exact hx.1.body _
  | interface => exact hx.1.body _
  | import_ hr => exact hx.1.through hl hr

/-- The stages of the references that have been followed, each before the next one. -/
structure Trail (s : Setting) (c₀ : Context) (start y : Call) (followed : List Stage) : Prop where
  reached : ∀ x ∈ followed, ReflTransGen s.Unfolds start.stage x
  leads : ∀ x ∈ followed, TransGen s.Unfolds x y.stage
  nodup : followed.Nodup
  bindings : followed ⊆ (s.bindings c₀).map fun p => .binding p.1 p.2
  bound : y.bound + followed.length = start.bound

variable {followed : List Stage}

theorem Trail.step (h : s.Trail c₀ start x followed) (hstep : s.Step x y) (hb : y.bound = x.bound) :
    s.Trail c₀ start y followed :=
  ⟨h.reached, fun z hz => (h.leads z hz).tail hstep.unfolds, h.nodup, h.bindings, hb ▸ h.bound⟩

/-- A reference that is followed has not been followed before. -/
theorem Trail.follow (hfree : s.CycleFree start.stage)
    (h : s.Trail c₀ start x followed) (hreach : s.Reaches start x) (hstep : s.Step x y)
    (hbinding : x.stage ∈ (s.bindings c₀).map fun p => Stage.binding p.1 p.2)
    (hb : y.bound + 1 = x.bound) : s.Trail c₀ start y (x.stage :: followed) := by
  have hreached : ReflTransGen s.Unfolds start.stage x.stage :=
    hreach.lift Call.stage fun _ _ h => h.unfolds
  refine ⟨?_, ?_, List.nodup_cons.2 ⟨fun hmem => ?_, h.nodup⟩, ?_, ?_⟩
  · exact List.forall_mem_cons.2 ⟨hreached, h.reached⟩
  · exact List.forall_mem_cons.2
      ⟨.single hstep.unfolds, fun z hz => (h.leads z hz).tail hstep.unfolds⟩
  · exact hfree _ (h.reached _ hmem) (h.leads _ hmem)
  · exact List.cons_subset.2 ⟨hbinding, h.bindings⟩
  · rw [← h.bound, ← hb, List.length_cons]
    omega

theorem Roams.mem_bindings (h : s.Roams c₀ c) (hb : Bound c b)
    (hnot : ∀ p, b.referent ≠ .parameter p) :
    Stage.binding b c.scope.root ∈ (s.bindings c₀).map fun p => Stage.binding p.1 p.2 := by
  rcases hb with ⟨p, hp⟩ | ⟨name, hmem⟩
  · exact absurd hp (hnot p)
  · exact List.mem_map.2 ⟨(b, c.scope.root),
      List.mem_flatMap.2 ⟨_, h.root, List.mem_map.2 ⟨_, hmem, rfl⟩⟩, rfl⟩

theorem exists_trail (hl : s.library.Faithful)
    (hfree : s.CycleFree start.stage)
    (hstart : s.Wanders c₀ start) (h : s.Reaches start x) :
    s.Wanders c₀ x ∧ ∃ followed, s.Trail c₀ start x followed := by
  induction h with
  | refl => exact ⟨hstart, [], nofun, nofun, .nil, List.nil_subset _, rfl⟩
  | tail hreach hstep ih =>
    obtain ⟨hwanders, followed, htrail⟩ := ih
    refine ⟨hstep.wanders hl hwanders, ?_⟩
    cases hstep with
    | part hp => exact ⟨_, htrail.step (.part hp) rfl⟩
    | lookup hb => exact ⟨_, htrail.step (.lookup hb) rfl⟩
    | typeAlias =>
      have hbinding := hwanders.1.mem_bindings hwanders.2 nofun
      exact ⟨_, htrail.follow hfree hreach .typeAlias hbinding rfl⟩
    | interface =>
      have hbinding := hwanders.1.mem_bindings hwanders.2 nofun
      exact ⟨_, htrail.follow hfree hreach .interface hbinding rfl⟩
    | import_ hr =>
      have hbinding := hwanders.1.mem_bindings hwanders.2 nofun
      exact ⟨_, htrail.follow hfree hreach (.import_ hr) hbinding rfl⟩

theorem length_bindings_lt (s : Setting) (c₀ : Context) :
    (s.bindings c₀).length < s.referenceBound c₀ := by
  rw [← length_places, places, List.length_map, List.length_product, List.length_product]
  have hdepths : 0 < (depths c₀).length := by
    rw [depths, List.length_map, List.length_range]
    omega
  have htwo : 0 < [true, false].length * (depths c₀).length := Nat.mul_pos (by decide) hdepths
  exact Nat.lt_succ_of_le (Nat.le_mul_of_pos_right _ htwo)

/-- Without a cycle the bound on references is never reached. -/
theorem CycleFree.bound_pos (hl : s.library.Faithful) (hfree : s.CycleFree (.type t c.scope))
    (hc : s.Roams c₀ c) (h : s.Reaches (.type (s.referenceBound c₀) t c) x) : x.bound ≠ 0 := by
  intro hzero
  have hstart : s.CycleFree (Call.type (s.referenceBound c₀) t c).stage := hfree
  obtain ⟨-, followed, htrail⟩ := exists_trail hl hstart hc h
  have hlength : followed.length = s.referenceBound c₀ := by
    have hbound := htrail.bound
    rwa [hzero, Nat.zero_add] at hbound
  have hle := (List.Nodup.subperm htrail.nodup htrail.bindings).length_le
  rw [hlength, List.length_map] at hle
  exact absurd hle (Nat.not_le.2 (s.length_bindings_lt c₀))

end

end Setting

end PropTables
