import Mathlib.Order.WellFoundedSet
import PropTables.Proofs.Bound

/-! Types with the names of aliases and interfaces written out. Where these do not refer to themselves
there is one way to write out a type, and no such name is left in the result. -/

namespace PropTables

open Relation

namespace Scope

def declared? (scope : Scope) (name : String) : Option TypeExpr :=
  match scope.lookup name with
  | some ⟨.typeAlias a, _⟩ => if a.params.isEmpty then some a.right else none
  | some ⟨.interface i, _⟩ => if i.params.isEmpty then some (.object i.body) else none
  | _ => none

def inlined? (scope : Scope) : TypeExpr → Option TypeExpr
  | .reference _ [] name [] => scope.declared? name
  | _ => none

def Inlines (scope : Scope) (t u : TypeExpr) : Prop :=
  scope.inlined? t = some u

/-- A way to write out types: what is put for a name is written out in turn, and every other type has
its parts written out. -/
structure IsExpansion (scope : Scope) (e : TypeExpr → TypeExpr) : Prop where
  inlined : ∀ t u, scope.Inlines t u → e t = e u
  kept : ∀ t, scope.inlined? t = none → e t = t.mapChildren e

def Refers (scope : Scope) (name name' : String) : Prop :=
  ∃ t loc, scope.declared? name = some t ∧ t.Within (.reference loc [] name' []) ∧
    (scope.declared? name').isSome

def Acyclic (scope : Scope) : Prop :=
  ∀ name, ¬ TransGen scope.Refers name name

def Shows (scope : Scope) (t u : TypeExpr) : Prop :=
  t.Child u ∨ scope.Inlines t u

variable {scope : Scope} {e e' : TypeExpr → TypeExpr} {t u : TypeExpr} {name : String}

theorem Inlines.eq_reference (h : scope.Inlines t u) :
    ∃ loc name, t = .reference loc [] name [] ∧ scope.declared? name = some u := by
  unfold Inlines inlined? at h
  split at h
  next loc name => exact ⟨loc, name, rfl, h⟩
  next => cases h

theorem exists_lookup_of_declared? (h : scope.declared? name = some t) :
    ∃ b, scope.lookup name = some b := by
  cases hb : scope.lookup name with
  | some b => exact ⟨b, rfl⟩
  | none =>
    unfold declared? at h
    rw [hb] at h
    cases h

theorem finite_declared (scope : Scope) : {name | (scope.declared? name).isSome}.Finite := by
  refine (List.finite_toSet (scope.frames.flatMap (·.map (·.1)))).subset fun name hname => ?_
  obtain ⟨t, ht⟩ := Option.isSome_iff_exists.1 hname
  obtain ⟨b, hb⟩ := exists_lookup_of_declared? ht
  obtain ⟨f, hf, hmem⟩ := Scope.mem_of_lookup hb
  exact List.mem_flatMap.2 ⟨f, hf, List.mem_map.2 ⟨_, hmem, rfl⟩⟩

namespace Acyclic

theorem wellFounded_refers (ha : scope.Acyclic) :
    WellFounded fun name' name => scope.Refers name name' := by
  have hirrefl : Std.Irrefl fun name' name => TransGen scope.Refers name name' := ⟨ha⟩
  have htrans : IsTrans String fun name' name => TransGen scope.Refers name name' :=
    ⟨fun _ _ _ h h' => h'.trans h⟩
  have horder : IsStrictOrder String fun name' name => TransGen scope.Refers name name' := ⟨⟩
  -- Only names that stand for something are referred to, and there are finitely many of these.
  have hwf := Set.wellFoundedOn_iff.1 (scope.finite_declared.wellFoundedOn
    (r := fun name' name => TransGen scope.Refers name name'))
  refine Subrelation.wf (fun {name' name} h => ?_) hwf
  obtain ⟨t, loc, ht, hwithin, hname'⟩ := h
  have hname : (scope.declared? name).isSome := by rw [ht]; rfl
  exact ⟨.single ⟨t, loc, ht, hwithin, hname'⟩, hname', hname⟩

theorem wellFounded_shows (ha : scope.Acyclic) : WellFounded fun u t => scope.Shows t u := by
  -- First for what stands behind a name: a name in it is below the name that it stands behind.
  have behind (name : String) : ∀ t, scope.declared? name = some t →
      ∀ u, t.Within u → Acc (fun u t => scope.Shows t u) u := by
    induction name using ha.wellFounded_refers.induction with
    | _ name ih =>
      intro t ht u
      induction u using TypeExpr.child_induction with
      | step u ihu =>
        intro hu
        refine Acc.intro u fun v hv => ?_
        rcases hv with hv | hv
        · exact ihu v hv (hu.tail hv)
        · obtain ⟨loc, name', rfl, hbehind⟩ := hv.eq_reference
          have hname' : (scope.declared? name').isSome := by rw [hbehind]; rfl
          exact ih name' ⟨t, loc, ht, hu, hname'⟩ v hbehind v .refl
  refine ⟨fun t => ?_⟩
  induction t using TypeExpr.child_induction with
  | step t ih =>
    refine Acc.intro t fun u hu => ?_
    rcases hu with hu | hu
    · exact ih u hu
    · obtain ⟨_, name, rfl, hbehind⟩ := hu.eq_reference
      exact behind name u hbehind u .refl

theorem induction (ha : scope.Acyclic) {P : TypeExpr → Prop}
    (step : ∀ t, (∀ u, t.Child u → P u) → (∀ u, scope.Inlines t u → P u) → P t) (t : TypeExpr) :
    P t := by
  induction t using ha.wellFounded_shows.induction with
  | _ t ih => exact step t (fun u hu => ih u (.inl hu)) fun u hu => ih u (.inr hu)

open Classical in
noncomputable def expandLayer (scope : Scope) (t : TypeExpr)
    (rest : ∀ u, scope.Shows t u → TypeExpr) : TypeExpr :=
  match h : scope.inlined? t with
  | some u => rest u (.inr h)
  | none => t.mapChildren fun u => if hu : t.Child u then rest u (.inl hu) else u

theorem exists_isExpansion (ha : scope.Acyclic) : ∃ e, scope.IsExpansion e := by
  refine ⟨ha.wellFounded_shows.fix (expandLayer scope), fun t u hu => ?_, fun t ht => ?_⟩
  · rw [WellFounded.fix_eq, expandLayer]
    split
    next u' hu' => rw [Option.some.inj (hu.symm.trans hu')]
    next hu' => exact nomatch hu.symm.trans hu'
  · rw [WellFounded.fix_eq, expandLayer]
    split
    next u' hu' => exact nomatch ht.symm.trans hu'
    next => exact TypeExpr.mapChildren_congr fun u hu => dif_pos hu

theorem isExpansion_unique (ha : scope.Acyclic) (h : scope.IsExpansion e)
    (h' : scope.IsExpansion e') : e = e' := by
  funext t
  induction t using ha.induction with
  | step t ihChild ihInlines =>
    cases hi : scope.inlined? t with
    | some u => rw [h.inlined t u hi, h'.inlined t u hi, ihInlines u hi]
    | none => rw [h.kept t hi, h'.kept t hi, TypeExpr.mapChildren_congr ihChild]

end Acyclic

theorem inlined?_mapChildren (scope : Scope) (f : TypeExpr → TypeExpr) (t : TypeExpr) :
    scope.inlined? (t.mapChildren f) = none ↔ scope.inlined? t = none := by
  cases t with
  | reference loc qs name ts =>
    cases qs with
    | cons => exact Iff.rfl
    | nil => cases ts <;> exact Iff.rfl
  | _ => exact Iff.rfl

namespace IsExpansion

theorem inlined?_eq_none (ha : scope.Acyclic) (h : scope.IsExpansion e) (t u : TypeExpr)
    (hu : (e t).Within u) : scope.inlined? u = none := by
  induction t using ha.induction generalizing u with
  | step t ihChild ihInlines =>
    cases hi : scope.inlined? t with
    | some v =>
      rw [h.inlined t v hi] at hu
      exact ihInlines v hi u hu
    | none =>
      rw [h.kept t hi] at hu
      rcases hu.cases_head with rfl | ⟨v, hv, hu⟩
      · exact (inlined?_mapChildren scope e t).2 hi
      · obtain ⟨w, hw, rfl⟩ := hv.of_mapChildren
        exact ihChild w hw u hu

theorem exists_form (ha : scope.Acyclic) (h : scope.IsExpansion e) (t : TypeExpr) :
    ∃ u, ReflTransGen scope.Inlines t u ∧ e t = u.mapChildren e := by
  induction t using ha.induction with
  | step t _ ih =>
    cases hi : scope.inlined? t with
    | some v =>
      obtain ⟨u, hu, he⟩ := ih v hi
      exact ⟨u, .head hi hu, (h.inlined t v hi).trans he⟩
    | none => exact ⟨t, .refl, h.kept t hi⟩

end IsExpansion

end Scope

end PropTables
