import PropTables.Proofs.WordRuns
import PropTables.Validator.Render

/-! What names, keys, constants and comments are written with, and how the comments of a table are
read. Those before a field or a brace are closed by an end of line or a blank behind each of them.
Those behind a field share one line, and a line comment takes the rest of it along: they are closed
by the end of the line if no comment behind a line comment goes on in the next one. -/

namespace PropTables

namespace Spelling

def IsName (text : String) : Prop :=
  ∃ k : Terminal, k.isWord = true ∧
    LexemeClass.recognise text.toList = some (.token k, text.length)

def IsValue (text : String) : Prop :=
  ∃ k : Terminal, k.isValue = true ∧
    LexemeClass.recognise text.toList = some (.token k, text.length)

def IsComment (text : String) : Prop :=
  LexemeClass.recognise text.toList = some (.comment, text.length)

instance (text : String) : Decidable (IsComment text) :=
  inferInstanceAs (Decidable (_ = _))

end Spelling

open Spelling

theorem Spelling.IsValue.exists_token {text : String} (h : IsValue text) :
    ∃ k : Terminal, k.isValue = true ∧
      LexemeClass.recognise text.toList = some (.token k, text.toList.length) := by
  obtain ⟨k, hk, h⟩ := h
  exact ⟨k, hk, by rw [h, String.length_toList]⟩

theorem Spelling.IsValue.exists_words {text : String} (h : IsValue text) :
    ∃ ws, Open text.toList ws ∧ ws ≠ [] ∧ ∀ w ∈ ws, w.1.endsField = false := by
  obtain ⟨k, hk, h⟩ := h.exists_token
  exact Open.value hk h

def Notes.EndOnLine (n : Notes) : Prop :=
  n.trailing.Pairwise fun c d => "//".toList <+: c.toList → '\n' ∉ d.toList

instance (n : Notes) : Decidable n.EndOnLine :=
  inferInstanceAs (Decidable (List.Pairwise _ _))

section Comments

theorem startsWith_slashes_iff (text : String) :
    text.startsWith "//" = true ↔ ∃ r, text.toList = '/' :: '/' :: r := by
  rw [String.startsWith_string_iff]
  exact exists_congr fun r => eq_comm

theorem comment_cases {text : String} (h : IsComment text) :
    (text.startsWith "//" = true ∧ ∃ r, text.toList = '/' :: '/' :: r ∧ '\n' ∉ r) ∨
      text.startsWith "//" = false ∧ Closed text.toList [] := by
  have hne := ne_nil_of_recognise h
  unfold IsComment at h
  rw [← String.length_toList] at h
  cases LexemeClass.shows_of_recognise h with
  | comment h =>
    rcases Pattern.comment_eq_some h with ⟨r, hr, hn⟩ | ⟨⟨r, hr⟩, hclosed⟩
    · exact .inl ⟨(startsWith_slashes_iff text).2 ⟨r, hr⟩, r, hr, hn⟩
    · refine .inr ⟨?_, .blockComment hne hclosed⟩
      rw [Bool.eq_false_iff, Ne, startsWith_slashes_iff]
      rintro ⟨r', hr'⟩
      rw [hr] at hr'
      cases hr'

theorem Closed.comment_line {text : String} (h : IsComment text) :
    Closed (text.toList ++ ['\n']) [] := by
  rcases comment_cases h with ⟨-, r, hr, hn⟩ | ⟨-, hclosed⟩
  · rw [hr, List.cons_append, List.cons_append]
    exact .lineComment hn
  · exact hclosed.append (.blank (b := '\n') rfl)

theorem Closed.blanks_text (n : Nat) : Closed (Validator.blanks n).toList [] := by
  rw [Validator.blanks, String.toList_ofList]
  refine .blanks fun c hc => ?_
  rw [List.eq_of_mem_replicate hc]
  rfl

theorem Closed.openingComments {cs : List String} (h : ∀ c ∈ cs, IsComment c) (margin : Nat) :
    Closed (Validator.openingComments margin cs).toList [] := by
  rw [Validator.openingComments, String.toList_join]
  induction cs with
  | nil => exact .nil
  | cons c cs ih =>
    rw [List.map_cons, List.flatMap_cons]
    have hc := h c List.mem_cons_self
    refine Closed.append (v := []) (w := []) ?_ (ih fun c hc => h c (List.mem_cons_of_mem _ hc))
    have hline := Closed.comment_line hc
    rcases comment_cases hc with ⟨hs, -⟩ | ⟨hs, hclosed⟩
    · rw [if_pos hs, String.toList_append, String.toList_append]
      exact hline.append (.blanks_text margin)
    · rw [if_neg (by simp [hs]), String.toList_append]
      exact hclosed.append (.blank (b := ' ') rfl)

theorem trailingComments_toList (cs : List String) :
    (Validator.trailingComments cs).toList = cs.flatMap fun c => ' ' :: c.toList := by
  unfold Validator.trailingComments
  cases cs with
  | nil => rfl
  | cons c cs =>
    rw [if_neg (by simp), String.toList_append, String.toList_intercalate]
    induction cs generalizing c with
    | nil => simp
    | cons d cs ih =>
      rw [List.map_cons, List.map_cons, List.intercalate_cons_cons, List.flatMap_cons, ← ih d]
      simp

theorem Closed.trailingComments {n : Notes} (h : ∀ c ∈ n.trailing, IsComment c) (he : n.EndOnLine) :
    Closed ((Validator.trailingComments n.trailing).toList ++ ['\n']) [] := by
  rw [trailingComments_toList]
  unfold Notes.EndOnLine at he
  generalize n.trailing = cs at h he
  induction cs with
  | nil => exact .blank (b := '\n') rfl
  | cons c cs ih =>
    rw [List.pairwise_cons] at he
    rw [List.flatMap_cons, List.cons_append, List.cons_append]
    refine .blank_cons rfl ?_
    rcases comment_cases (h c List.mem_cons_self) with ⟨hs, r, hr, hn⟩ | ⟨-, hclosed⟩
    · -- everything up to the end of the line belongs to this comment
      rw [hr, List.append_assoc, List.cons_append, List.cons_append, ← List.append_assoc]
      refine .lineComment fun hmem => ?_
      rw [List.mem_append, List.mem_flatMap] at hmem
      rcases hmem with hmem | ⟨d, hd, hmem⟩
      · exact hn hmem
      · exact he.1 d hd (String.startsWith_string_iff.1 hs) (by simpa using hmem)
    · rw [List.append_assoc]
      exact hclosed.append (ih (fun c hc => h c (List.mem_cons_of_mem _ hc)) he.2)

end Comments

def rowsText (rows : List String) : List Char :=
  rows.flatMap fun row => row.toList ++ ['\n']

section Rows

theorem rowsText_append (xs ys : List String) : rowsText (xs ++ ys) = rowsText xs ++ rowsText ys :=
  List.flatMap_append

theorem intercalate_toList_cons (x : String) (rows : List String) (z : String) :
    ("\n".intercalate (x :: rows ++ [z])).toList =
      x.toList ++ '\n' :: (rowsText rows ++ z.toList) := by
  rw [String.toList_intercalate]
  induction rows generalizing x with
  | nil => simp [rowsText]
  | cons y rows ih =>
    have hrest := ih y
    rw [List.cons_append, List.map_cons, List.cons_append, List.map_cons,
      List.intercalate_cons_cons, ← List.map_cons, ← List.cons_append, hrest]
    simp [rowsText]

theorem Closed.commentRows {cs : List String} (h : ∀ c ∈ cs, IsComment c) (margin : Nat) :
    Closed (rowsText (cs.map (Validator.blanks margin ++ ·))) [] := by
  induction cs with
  | nil => exact .nil
  | cons c cs ih =>
    have hline := Closed.comment_line (h c List.mem_cons_self)
    have hrest := ih fun c hc => h c (List.mem_cons_of_mem _ hc)
    have hrow := (Closed.blanks_text margin).append (hline.append hrest)
    simpa [rowsText] using hrow

end Rows

end PropTables
