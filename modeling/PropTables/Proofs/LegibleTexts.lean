import PropTables.Proofs.Rendering
import PropTables.Proofs.UniqueReading

/-! The one-line text of a legible expression has the words of the expression. So two of them have the
same text only if they are the same, and expressions that are the same have the same text, since every
constant keeps its spelling. -/

namespace PropTables

open Spelling
open List (Forall₂)

def StopsOrTakes (r : List Char) : Prop :=
  ∀ c ∈ r.head?, c = '.' ∨ c ∈ stoppers

def Firm (t : List Char) (words : List Word) : Prop :=
  ∀ r ws, StopsOrTakes r → Reads r ws → Reads (t ++ r) (words ++ ws)

theorem Validator.fieldLines_eq_map (fs : List (Field Validator)) :
    fieldLines fs = fs.map fieldLine := by
  induction fs with
  | nil => rfl
  | cons f fs ih => rw [fieldLines, ih, List.map_cons]

section Texts

variable {t : List Char} {v w : List Word} {name : String}

theorem Firm.open (h : Firm t w) : Open t w :=
  fun r ws hr hreads => h r ws (fun c hc => .inr (hr c hc)) hreads

theorem Closed.firm (h : Closed t w) : Firm t w :=
  fun r ws _ hreads => h r ws hreads

theorem Firm.word (h : Spelling.IsName name) : Firm name.toList [nameWord name] := by
  intro r ws hr hreads
  have htoken := h.isToken
  rw [IsToken, ← String.length_toList] at htoken
  have hends : ∀ c ∈ r.head?, Pattern.continuesName c = false := by
    intro c hc
    rcases hr c hc with rfl | hc
    · decide
    · have hall : stoppers.all (!Pattern.continuesName ·) = true := by decide
      simpa using List.all_eq_true.1 hall c hc
  have hword := LexemeClass.recognise_word (Terminal.isWord_ofWord name) htoken hends
  have hread := Reads.token hword (ne_nil_of_recognise htoken) hreads
  rwa [String.ofList_toList] at hread

theorem Firm.access (hv : Firm t v) (h : Spelling.IsName name) :
    Firm (t ++ '.' :: name.toList) (v ++ [Mark.dot.word] ++ [nameWord name]) := by
  intro r ws hr hreads
  have hname := Firm.word h r ws hr hreads
  obtain ⟨k, hk, htoken⟩ := h
  rw [← String.length_toList] at htoken
  obtain ⟨c, cs, hcs⟩ := List.exists_cons_of_ne_nil (ne_nil_of_recognise htoken)
  rw [hcs] at htoken hname
  obtain ⟨hc, hnumber⟩ := Pattern.number_eq_none_of_word hk htoken
  have hdot : LexemeClass.recognise ('.' :: c :: (cs ++ r)) = some (.token (.mark .dot), 1) :=
    LexemeClass.recognise_dot (by rintro rfl; revert hc; decide) (hnumber _).2
  have hmark := Reads.token (t := ['.']) hdot (by simp) hname
  have hall := hv _ _ (by simp [StopsOrTakes]) hmark
  rw [hcs]
  simpa [Mark.word, Mark.spelling] using hall

theorem open_listText {ι : Type} {items : List ι} {text : ι → String} {words : ι → List Word}
    (h : ∀ x ∈ items, Open (text x).toList (words x)) :
    Open (Validator.listText (items.map text)).toList (separated (items.map words)) := by
  cases items with
  | nil => exact Closed.nil.open
  | cons x items =>
    have hrows := Open.rows Closed.separator
      ⟨',', rfl, by decide⟩ fun y hy => h y (List.mem_cons_of_mem _ hy)
    have hall := (h x List.mem_cons_self).append hrows.1 hrows.2
    rw [Validator.listText, List.map_cons, intercalate_cons, List.map_cons, separated,
      List.flatMap_map, List.flatMap_map]
    exact hall

end Texts

theorem Constant.WrittenAs.open {names : CharacterNames} {c : Constant} {raw : String} (h : c.WrittenAs names raw) :
    Open raw.toList [(c.terminal, raw)] := by
  refine .token ?_ h.isToken
  cases c <;> rfl

namespace Field.Keyed

variable {f : Field Validator}

theorem isToken (h : f.Keyed) : f.keyWord.1.isValue = true ∧ IsToken f.keyWord.1 f.key := by
  unfold Field.keyWord
  split
  next hq => exact ⟨rfl, h.quoted hq⟩
  next hq =>
    exact ⟨Terminal.isValue_of_isWord (Terminal.isWord_ofWord _), (h.bare (by simpa using hq)).isToken⟩

theorem open_key (h : f.Keyed) : Open f.key.toList [f.keyWord] := by
  have hword : f.keyWord = (f.keyWord.1, f.key) := by
    unfold Field.keyWord
    split <;> rfl
  rw [hword]
  exact .token h.isToken.1 h.isToken.2

theorem open_field (h : f.Keyed) (hv : Open f.value.line.toList f.value.words) :
    Open (Validator.fieldLine f).toList (Validator.wordsOfField f) := by
  have hcolon := h.open_key.append_closed (by decide) Closed.colon
  rw [fieldLine_toList, Validator.wordsOfField_eq]
  exact hcolon.append_open hv

theorem isValue (h : f.Keyed) : IsValue f.key :=
  ⟨f.keyWord.1, h.isToken.1, h.isToken.2⟩

end Field.Keyed

namespace Validator

variable {names : CharacterNames} {v w : Validator}

theorem Legible.firm (hv : v.Legible names) : Firm v.line.toList v.words := by
  induction hv with
  | identifier h => exact .word h
  | @member value attr _ _ ha ih =>
    have htext : (value.line ++ "." ++ attr).toList = value.line.toList ++ '.' :: attr.toList := by
      simp
    rw [line, words_member, htext]
    exact ih.access ha
  | @call func args _ _ _ ihf iha =>
    have hparens := Closed.parens (open_listText fun v hv => (iha v hv).open)
    have hcall := ihf.open.append_closed (by decide) hparens
    rw [line, words, wordsOfAll_eq, lines_eq_map]
    simpa [enclosed] using hcall.firm
  | @array items _ hi _ ih =>
    have hitem (v : Validator) (hv : v ∈ items) : Open v.line.toList v.words := by
      by_cases hc : v.IsConstant names
      · obtain ⟨c, raw, notes, rfl, hraw⟩ := hc
        -- A number is not firm, since a dot behind it would be read with it.
        exact hraw.open
      · exact (ih v hv hc).open
    have hbrackets := Closed.brackets (open_listText hitem)
    rw [line, words, wordsOfAll_eq, lines_eq_map]
    simpa [enclosed] using hbrackets.firm
  | @object fields notes hk _ ih =>
    have hopen := open_listText fun f hf => (hk f hf).open_field (ih f hf).open
    have hbrace : Closed ['\x7d'] [Mark.closeBrace.word] := .mark (m := .closeBrace) (by decide)
    have hbody := hopen.append_closed (by decide) hbrace
    have hobject := Closed.brace (by simp) ?_ hbody
    · rw [line_object_toList, words, wordsOfFields_eq, fieldLines_eq_map]
      exact hobject.firm
    · cases fields with
      | nil => decide
      | cons f fs =>
        obtain ⟨k, hvalue, hkey⟩ := (hk f List.mem_cons_self).isValue.exists_token
        have hbar := head?_ne_bar_of_value hvalue hkey
        rw [List.head?_append, ← fieldLines_eq_map, listText_fieldLines_head? (hk f List.mem_cons_self).isValue]
        cases hc : f.key.toList.head? with
        | none => simp
        | some c => rwa [hc] at hbar

theorem Legible.words_line (hv : v.Legible names) :
    (Lexing.ofSource v.line).stuck = none ∧ (Lexing.ofSource v.line).words = v.words :=
  Lexing.ofSource_of_reads hv.firm.open.reads

theorem Legible.same_of_line_eq (hv : v.Legible names) (hw : w.Legible names)
    (h : v.line = w.line) : v.same w = true := by
  have hwords : v.words = w.words := by
    rw [← hv.words_line.2, h, hw.words_line.2]
  have hready : Ready [] := nofun
  have hend : [] ++ v.words = [] ++ w.words := by rw [hwords]
  exact (hv.readsFromEnd hw hready hready hend).2

theorem map_eq_of_same {α : Type} {R : α → α → Prop} {text : α → String} {xs ys : List α}
    (h : Forall₂ R xs ys) (htext : ∀ x ∈ xs, ∀ y, R x y → text x = text y) :
    xs.map text = ys.map text := by
  induction h with
  | nil => rfl
  | cons hxy _ ih =>
    rw [List.map_cons, List.map_cons, htext _ List.mem_cons_self _ hxy,
      ih fun x hx => htext x (List.mem_cons_of_mem _ hx)]

theorem Legible.line_eq_of_same (hv : v.Legible names) (h : v.same w = true) : v.line = w.line := by
  induction hv generalizing w with
  | identifier =>
    cases w <;> simp [same] at h
    rw [line, line, h]
  | member _ _ ih =>
    cases w <;> simp [same] at h
    rw [line, line, ih h.1, h.2]
  | call _ _ ihf iha =>
    cases w <;> simp [same] at h
    rw [line, line, lines_eq_map, lines_eq_map, ihf h.1,
      map_eq_of_same (sameAll_iff.1 h.2) fun v hv _ hvw => iha v hv hvw]
  | array _ _ ih =>
    cases w <;> simp [same] at h
    rw [line, line, lines_eq_map, lines_eq_map, map_eq_of_same (sameAll_iff.1 h) fun v hv w hvw => ?_]
    by_cases hc : v.IsConstant names
    · obtain ⟨c, raw, notes, rfl, -⟩ := hc
      cases w <;> simp [same] at hvw
      rw [line, line, ← hvw.2]
      rfl
    · exact ih v hv hc hvw
  | object _ _ ih =>
    cases w <;> simp [same] at h
    rw [line, line, fieldLines_eq_map, fieldLines_eq_map,
      map_eq_of_same (sameFields_iff.1 h) fun f hf g hfg => ?_]
    obtain ⟨hkey, hvalue, -⟩ := sameField_iff.1 hfg
    rw [← String.toList_inj, fieldLine_toList, fieldLine_toList, hkey, ih f hf hvalue]

end Validator

end PropTables
