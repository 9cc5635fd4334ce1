import Mathlib.Data.List.Induction
import Mathlib.Logic.Relation
import PropTables.Library.Path

/-! Normal paths. The parts of a path that lead nowhere are left out one after another, until nothing is
left to leave out. Every order of doing so ends with the same parts, and these are the parts that the
path is normalised to. -/

namespace PropTables.Path

variable {rooted : Bool} {ps qs rs : List Text} {p path base : Text}

def Blank (p : Text) : Prop :=
  p = [] ∨ p = here

def Named (p : Text) : Prop :=
  ¬ Blank p ∧ p ≠ up

/-- One step of leaving out parts that lead nowhere: a blank part, a name with the way back behind it, or
the way up from the root. -/
inductive Shortens (rooted : Bool) : List Text → List Text → Prop
  | blank (before after : List Text) {p : Text} (hp : Blank p) :
    Shortens rooted (before ++ p :: after) (before ++ after)
  | back (before after : List Text) {p : Text} (hp : Named p) :
    Shortens rooted (before ++ p :: up :: after) (before ++ after)
  | aboveRoot (after : List Text) (hrooted : rooted = true) : Shortens rooted (up :: after) after

def Short (rooted : Bool) (ps : List Text) : Prop :=
  ∀ qs, ¬ Shortens rooted ps qs

/-- What is left of a path when no more parts can be left out of it. -/
def NormalOf (path base : Text) : Prop :=
  ∃ qs, Relation.ReflTransGen (Shortens (0 < rootSlashes path)) (parts path) qs ∧
    Short (0 < rootSlashes path) qs ∧ base = ofPlainParts (rootSlashes path) qs

theorem pushPart_blank (hp : Blank p) (done : List Text) : pushPart rooted done p = done :=
  if_pos hp

theorem pushPart_named (hp : Named p) (done : List Text) : pushPart rooted done p = p :: done := by
  have hblank : ¬ (p = [] ∨ p = here) := hp.1
  unfold pushPart
  rw [if_neg hblank, if_pos hp.2]

theorem pushPart_up_nil : pushPart rooted [] up = if rooted then [] else [up] :=
  rfl

theorem pushPart_up_cons (done : List Text) :
    pushPart rooted (p :: done) up = if p = up then up :: p :: done else done :=
  rfl

theorem Shortens.foldl_eq (h : Shortens rooted ps qs) :
    ps.foldl (pushPart rooted) [] = qs.foldl (pushPart rooted) [] := by
  cases h with
  | blank before after hp =>
    rw [List.foldl_append, List.foldl_append, List.foldl_cons, pushPart_blank hp]
  | back before after hp =>
    rw [List.foldl_append, List.foldl_append, List.foldl_cons, List.foldl_cons, pushPart_named hp,
      pushPart_up_cons, if_neg hp.2]
  | aboveRoot after hrooted =>
    rw [List.foldl_cons, pushPart_up_nil, if_pos hrooted]

theorem Shortens.length_lt (h : Shortens rooted ps qs) : qs.length < ps.length := by
  cases h with
  | blank before after =>
    simp only [List.length_append, List.length_cons]
    omega
  | back before after =>
    simp only [List.length_append, List.length_cons]
    omega
  | aboveRoot => exact Nat.lt_succ_self _

theorem Shortens.append_right (h : Shortens rooted ps qs) (rs : List Text) :
    Shortens rooted (ps ++ rs) (qs ++ rs) := by
  cases h with
  | blank before after hp =>
    simp only [List.append_assoc, List.cons_append]
    exact .blank before (after ++ rs) hp
  | back before after hp =>
    simp only [List.append_assoc, List.cons_append]
    exact .back before (after ++ rs) hp
  | aboveRoot _ hrooted => exact .aboveRoot (qs ++ rs) hrooted

theorem Short.of_append_right (h : Short rooted (ps ++ rs)) : Short rooted ps :=
  fun _ hqs => h _ (hqs.append_right rs)

theorem Short.last_not_blank (h : Short rooted (ps ++ [p])) : ¬ Blank p :=
  fun hp => h _ (.blank ps [] hp)

theorem Short.foldl_eq (h : Short rooted ps) : ps.foldl (pushPart rooted) [] = ps.reverse := by
  induction ps using List.reverseRecOn with
  | nil => rfl
  | append_singleton ps p ih =>
    have hpushed := ih h.of_append_right
    rw [List.foldl_append, hpushed, List.reverse_append]
    show pushPart rooted ps.reverse p = p :: ps.reverse
    by_cases hup : p = up
    · subst hup
      -- before it there is nothing to go back from
      cases ps using List.reverseRecOn with
      | nil =>
        have hrooted : ¬ rooted = true := fun hrooted => h _ (.aboveRoot [] hrooted)
        rw [List.reverse_nil, pushPart_up_nil, if_neg hrooted]
      | append_singleton qs q =>
        have hq : q = up := by
          by_contra hne
          have hblank := h.of_append_right.last_not_blank
          rw [List.append_assoc] at h
          exact h _ (.back qs [] ⟨hblank, hne⟩)
        rw [List.reverse_append, hq]
        exact (pushPart_up_cons _).trans (if_pos rfl)
    · exact pushPart_named ⟨h.last_not_blank, hup⟩ _

theorem foldl_eq_of_reaches (h : Relation.ReflTransGen (Shortens rooted) ps qs) :
    ps.foldl (pushPart rooted) [] = qs.foldl (pushPart rooted) [] := by
  induction h with
  | refl => rfl
  | tail _ hstep ih => exact ih.trans hstep.foldl_eq

theorem exists_short (rooted : Bool) (ps : List Text) :
    ∃ qs, Relation.ReflTransGen (Shortens rooted) ps qs ∧ Short rooted qs := by
  -- The induction is on the number of parts, of which every step leaves out some.
  induction hn : ps.length using Nat.strongRecOn generalizing ps with
  | ind n ih =>
    by_cases hshort : Short rooted ps
    · exact ⟨ps, .refl, hshort⟩
    · unfold Short at hshort
      push Not at hshort
      obtain ⟨qs, hstep⟩ := hshort
      obtain ⟨rs, hreaches, hrs⟩ := ih _ (hn ▸ hstep.length_lt) qs rfl
      exact ⟨rs, .head hstep hreaches, hrs⟩

theorem reaches_short_iff : Relation.ReflTransGen (Shortens rooted) ps qs ∧ Short rooted qs ↔
    qs = (ps.foldl (pushPart rooted) []).reverse := by
  have unique {qs : List Text} (hreaches : Relation.ReflTransGen (Shortens rooted) ps qs)
      (hshort : Short rooted qs) : qs = (ps.foldl (pushPart rooted) []).reverse := by
    rw [foldl_eq_of_reaches hreaches, hshort.foldl_eq, List.reverse_reverse]
  constructor
  · exact fun h => unique h.1 h.2
  · intro h
    obtain ⟨rs, hreaches, hshort⟩ := exists_short rooted ps
    have hrs := unique hreaches hshort
    rw [h, ← hrs]
    exact ⟨hreaches, hshort⟩

/-- A path has one normal path, the one that is computed. -/
theorem normalOf_iff : NormalOf path base ↔ base = normal path := by
  have hnormal : normal path = ofPlainParts (rootSlashes path)
      ((parts path).foldl (pushPart (0 < rootSlashes path)) []).reverse := rfl
  constructor
  · rintro ⟨qs, hreaches, hshort, rfl⟩
    rw [hnormal, reaches_short_iff.1 ⟨hreaches, hshort⟩]
  · rintro rfl
    obtain ⟨hreaches, hshort⟩ := reaches_short_iff.2 rfl
    exact ⟨_, hreaches, hshort, hnormal⟩

end PropTables.Path
