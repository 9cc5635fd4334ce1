import PropTables.Proofs.LibraryNames
import PropTables.Proofs.TableShape
import PropTables.Validator.Compare

/-! Which libraries an expression mentions. A mark on a field's value may be taken off again when the
field is spread into another object, so what is kept of a value is what it mentions without its
marks. -/

namespace PropTables

namespace Validator

def core : Validator → Validator
  | member inner attr notes => if attr == requiredMark then core inner else member inner attr notes
  | e => e

@[simp] theorem core_require (e : Validator) : e.require.core = e.core := by
  simp [require, core]

theorem accesses_withNotes (name : String) (n : Notes) (e : Validator) :
    (e.withNotes n).accesses name = e.accesses name := by
  cases e <;> rfl

theorem calls_withNotes (name : String) (n : Notes) (e : Validator) :
    (e.withNotes n).calls name = e.calls name := by
  cases e <;> rfl

theorem accessesAny_eq_true {name : String} {es : List Validator} :
    accessesAny name es = true ↔ ∃ e ∈ es, e.accesses name = true := by
  induction es with
  | nil => simp [accessesAny]
  | cons e es ih => simp [accessesAny, ih]

theorem callsAny_eq_true {name : String} {es : List Validator} :
    callsAny name es = true ↔ ∃ e ∈ es, e.calls name = true := by
  induction es with
  | nil => simp [callsAny]
  | cons e es ih => simp [callsAny, ih]

theorem accessesField_eq_true {name : String} {fields : List (Field Validator)} :
    accessesField name fields = true ↔ ∃ f ∈ fields, f.value.accesses name = true := by
  induction fields with
  | nil => simp [accessesField]
  | cons f fields ih =>
    obtain ⟨key, value, quoted, notes⟩ := f
    simp [accessesField, accessesIn, ih]

theorem callsField_eq_true {name : String} {fields : List (Field Validator)} :
    callsField name fields = true ↔ ∃ f ∈ fields, f.value.calls name = true := by
  induction fields with
  | nil => simp [callsField]
  | cons f fields ih =>
    obtain ⟨key, value, quoted, notes⟩ := f
    simp [callsField, callsIn, ih]

end Validator

namespace Vocabulary

open Validator (core)

def Mentions (v : Vocabulary) : LibraryRole → Validator → Prop
  | .validators, e => e.accesses v.namespaceName = true
  | .combination, e => e.calls v.allName = true

/-- The expression mentions the library, and still does so when marks are taken off: off the
expression itself, or off the values of an object literal's fields. -/
def Keeps (v : Vocabulary) (role : LibraryRole) : Validator → Prop
  | .object fields _ => ∃ f ∈ fields, v.Mentions role f.value.core
  | e => v.Mentions role e.core

variable {v : Vocabulary} {role : LibraryRole} {e : Validator} {notes : Notes}

theorem mentions_withNotes : v.Mentions role (e.withNotes notes) ↔ v.Mentions role e := by
  cases role with
  | validators => rw [Mentions, Mentions, Validator.accesses_withNotes]
  | combination => rw [Mentions, Mentions, Validator.calls_withNotes]

theorem mentions_member {attr : String} (h : v.Mentions role e) :
    v.Mentions role (.member e attr notes) := by
  cases role with
  | validators =>
    rw [Mentions] at h ⊢
    simp [Validator.accesses, h]
  | combination => exact h

theorem mentions_call {func : Validator} {args : List Validator}
    (h : v.Mentions role func ∨ ∃ e ∈ args, v.Mentions role e) :
    v.Mentions role (.call func args notes) := by
  cases role with
  | validators =>
    simp only [Mentions, Validator.accesses, Bool.or_eq_true, Validator.accessesAny_eq_true]
    exact h
  | combination =>
    simp only [Mentions, Validator.calls, Bool.or_eq_true, Validator.callsAny_eq_true]
    exact h.imp_left .inr

theorem mentions_array {items : List Validator} :
    v.Mentions role (.array items notes) ↔ ∃ e ∈ items, v.Mentions role e := by
  cases role with
  | validators => exact Validator.accessesAny_eq_true
  | combination => exact Validator.callsAny_eq_true

theorem mentions_object {fields : List (Field Validator)} :
    v.Mentions role (.object fields notes) ↔ ∃ f ∈ fields, v.Mentions role f.value := by
  cases role with
  | validators => exact Validator.accessesField_eq_true
  | combination => exact Validator.callsField_eq_true

theorem mentions_of_core (h : v.Mentions role e.core) : v.Mentions role e := by
  induction e using Validator.core.induct with
  | case1 inner attr notes hmark ih =>
    rw [core, if_pos hmark] at h
    exact mentions_member (ih h)
  | case2 inner attr notes hmark =>
    rw [core, if_neg hmark] at h
    exact h
  | case3 e hmember =>
    cases e with
    | member inner attr notes => exact (hmember inner attr notes rfl).elim
    | _ => exact h

theorem Keeps.core (h : v.Keeps role e) : v.Mentions role e.core := by
  cases e with
  | object fields notes =>
    obtain ⟨f, hf, h⟩ := h
    exact mentions_object.2 ⟨f, hf, mentions_of_core h⟩
  | _ => exact h

theorem Keeps.mentions (h : v.Keeps role e) : v.Mentions role e :=
  mentions_of_core h.core

theorem mentions_core_stripRequired :
    v.Mentions role e.stripRequired.core ↔ v.Mentions role e.core := by
  cases e with
  | member inner attr notes =>
    by_cases hmark : attr == Validator.requiredMark
    · have hcore : (Validator.member inner attr notes).core = inner.core := by
        rw [Validator.core, if_pos hmark]
      rw [hcore, Validator.stripRequired, if_pos hmark]
      split
      · rfl
      · cases inner with
        | member inner' attr' notes' =>
          simp only [Validator.withNotes, Validator.core]
          split
          · rfl
          · exact mentions_withNotes (e := .member inner' attr' notes')
        | _ => exact mentions_withNotes
    · rw [Validator.stripRequired, if_neg hmark]
  | _ => rfl

theorem mentions_member_namespace (v : Vocabulary) (attr : String) :
    v.Mentions .validators (v.member attr) := by
  simp [Mentions, member, Validator.named, Validator.access, Validator.accesses, Validator.isNamed]

theorem keeps_member {attr : String} (ha : attr ≠ Validator.requiredMark) :
    v.Keeps .validators (v.member attr) := by
  have hcore : (v.member attr).core = v.member attr := by
    simp [member, Validator.named, Validator.access, Validator.core, ha]
  show v.Mentions .validators (v.member attr).core
  rw [hcore]
  exact v.mentions_member_namespace attr

theorem keeps_call {attr : String} (h : role = .validators ∨ v.Mentions role e) :
    v.Keeps role (v.call attr e) := by
  refine mentions_call ?_
  rcases h with rfl | h
  · exact .inl (v.mentions_member_namespace attr)
  · exact .inr ⟨e, List.mem_singleton_self e, h⟩

theorem keeps_allOf {types : List Validator}
    (h : role = .combination ∨ ∃ e ∈ types, v.Mentions role e) : v.Keeps role (v.allOf types) := by
  rcases h with rfl | h
  · simp [Keeps, core, Mentions, allOf, Validator.named, Validator.apply, Validator.calls,
      Validator.isNamed]
  · exact mentions_call (.inr h)

end Vocabulary

theorem Field.values_surround (n : Notes) (fs : List (Field Validator)) :
    (Field.surround n fs).map (·.value) = fs.map (·.value) := by
  match fs with
  | [] => rfl
  | [f] => rfl
  | f :: g :: gs =>
    have hne : g :: gs ≠ [] := List.cons_ne_nil g gs
    have hlast : (g :: gs).dropLast ++ [(g :: gs).getLast hne] = g :: gs :=
      List.dropLast_append_getLast hne
    have hvalues := congrArg (List.map Field.value) hlast
    rw [List.map_append, List.map_singleton] at hvalues
    simp only [surround, List.getLast?_eq_some_getLast hne, Option.map_some, Option.toList_some,
      List.map_cons, List.map_append, List.map_nil]
    rw [hvalues, List.map_cons]

end PropTables
