import Mathlib.Data.List.Forall2
import PropTables.Library.Traced

/-! Computations that read modules, by their results. A sequence of them succeeds if each of them does,
and a pass over a list is a relation between the list and the results. -/

namespace PropTables

theorem forall₂_mem_left {α β : Type} {R : α → β → Prop} {as : List α} {bs : List β} {a : α}
    (h : List.Forall₂ R as bs) (ha : a ∈ as) : ∃ b ∈ bs, R a b := by
  induction h with
  | nil => simp at ha
  | @cons _ b _ _ hab _ ih =>
    rcases List.mem_cons.1 ha with rfl | ha
    · exact ⟨b, List.mem_cons_self, hab⟩
    · obtain ⟨b', hb', hr⟩ := ih ha
      exact ⟨b', List.mem_cons_of_mem _ hb', hr⟩

theorem forall₂_mem_right {α β : Type} {R : α → β → Prop} {as : List α} {bs : List β} {b : β}
    (h : List.Forall₂ R as bs) (hb : b ∈ bs) : ∃ a ∈ as, R a b :=
  forall₂_mem_left h.flip hb

theorem forall₂_mem_flatten {α β : Type} {R : α → List β → Prop} {as : List α} {groups : List (List β)}
    {b : β} (h : List.Forall₂ R as groups) (hb : b ∈ groups.flatten) :
    ∃ a ∈ as, ∃ group, R a group ∧ b ∈ group := by
  obtain ⟨group, hgroup, hb⟩ := List.mem_flatten.1 hb
  obtain ⟨a, ha, hr⟩ := forall₂_mem_right h hgroup
  exact ⟨a, ha, group, hr, hb⟩

theorem forall₂_of_mapM_eq_some {α β : Type} {f : α → Option β} {as : List α} {bs : List β}
    (h : as.mapM f = some bs) : List.Forall₂ (fun a b => f a = some b) as bs := by
  induction as generalizing bs with
  | nil =>
    cases h
    exact .nil
  | cons a as ih =>
    simp only [List.mapM_cons, Option.bind_eq_bind, Option.bind_eq_some_iff, Option.pure_def,
      Option.some.injEq] at h
    obtain ⟨b, hb, bs, hbs, rfl⟩ := h
    exact .cons hb (ih hbs)

theorem forall₂_of_mapM_eq_ok {α β ε : Type} {f : α → Except ε β} {as : List α} {bs : List β}
    (h : as.mapM f = .ok bs) : List.Forall₂ (fun a b => f a = .ok b) as bs := by
  induction as generalizing bs with
  | nil =>
    cases h
    exact .nil
  | cons a as ih =>
    rw [List.mapM_cons] at h
    cases ha : f a with
    | error e =>
      rw [ha] at h
      cases h
    | ok b =>
      cases has : as.mapM f with
      | error e =>
        rw [ha, has] at h
        cases h
      | ok bs' =>
        rw [ha, has] at h
        cases h
        exact .cons ha (ih has)

namespace Traced

theorem bind_eq_ok {α β : Type} {x : Traced α} {f : α → Traced β} {b : β} :
    (x >>= f).result = .ok b ↔ ∃ a, x.result = .ok a ∧ (f a).result = .ok b := by
  rw [result_bind]
  cases x.result with
  | error e => exact ⟨fun h => (nomatch h), fun ⟨_, h, _⟩ => (nomatch h)⟩
  | ok a => exact ⟨fun h => ⟨a, rfl, h⟩, fun ⟨_, ha, h⟩ => by cases ha; exact h⟩

theorem result_bind_pure {α β : Type} (x : Traced α) (f : α → β) :
    (x >>= fun a => pure (f a)).result = x.result.map f := by
  rw [result_bind]
  cases x.result <;> rfl

theorem pure_eq_ok {α : Type} {a b : α} : (pure a : Traced α).result = .ok b ↔ a = b := by
  simp

instance : LawfulMonad Traced := by
  refine .mk' Traced (fun x => ?_) (fun a f => ?_) (fun x f g => ?_)
  · change Traced.bind x (fun a => pure (id a)) = x
    obtain ⟨visited, result⟩ := x
    cases result with
    | error e => rfl
    | ok a => exact congrArg (Traced.mk · _) (List.append_nil visited)
  · exact congrArg (Traced.mk · _) (List.nil_append _)
  · change Traced.bind (Traced.bind x f) g = Traced.bind x fun a => Traced.bind (f a) g
    obtain ⟨visited, result⟩ := x
    cases result with
    | error e => rfl
    | ok a =>
      simp only [Traced.bind]
      cases (f a).result with
      | error e => rfl
      | ok b => exact congrArg (Traced.mk · _) (List.append_assoc ..)

theorem forall₂_of_mapM_eq_ok {α β : Type} {f : α → Traced β} {as : List α} {bs : List β}
    (h : (as.mapM f).result = .ok bs) : List.Forall₂ (fun a b => (f a).result = .ok b) as bs := by
  induction as generalizing bs with
  | nil =>
    rw [List.mapM_nil, pure_eq_ok] at h
    subst h
    exact .nil
  | cons a as ih =>
    simp only [List.mapM_cons, bind_eq_ok, pure_eq_ok] at h
    obtain ⟨b, hb, bs, hbs, rfl⟩ := h
    exact .cons hb (ih hbs)

theorem foldlM_induction {α β : Type} {f : β → α → Traced β} {P : β → Prop}
    (step : ∀ b a b', P b → (f b a).result = .ok b' → P b') {as : List α} {b b' : β} (hb : P b)
    (h : (as.foldlM f b).result = .ok b') : P b' := by
  induction as generalizing b with
  | nil =>
    rw [List.foldlM_nil, pure_eq_ok] at h
    exact h ▸ hb
  | cons a as ih =>
    rw [List.foldlM_cons, bind_eq_ok] at h
    obtain ⟨b₁, hstep, h⟩ := h
    exact ih (step b a b₁ hb hstep) h

theorem bind_congr {α β : Type} {x : Traced α} {f g : α → Traced β}
    (h : ∀ a, x.result = .ok a → f a = g a) : x >>= f = x >>= g := by
  show Traced.bind x f = Traced.bind x g
  unfold Traced.bind
  split
  next => rfl
  next a ha => rw [h a ha]

theorem foldlM_congr {α β : Type} {f g : β → α → Traced β} {P : β → Prop}
    (same : ∀ b a, P b → f b a = g b a)
    (keeps : ∀ b a b', P b → (f b a).result = .ok b' → P b') {as : List α} {b : β} (hb : P b) :
    as.foldlM f b = as.foldlM g b := by
  induction as generalizing b with
  | nil => rfl
  | cons a as ih =>
    rw [List.foldlM_cons, List.foldlM_cons, ← same b a hb]
    exact bind_congr fun b' hb' => ih (keeps b a b' hb hb')

end Traced

end PropTables
