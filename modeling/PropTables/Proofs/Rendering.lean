import PropTables.Proofs.Spelling
import PropTables.Proofs.TableShape

/-! The text with broken object literals has the tokens of the text on one line, but for the commas
before closing braces. Every part of both texts is closed, up to a run at its end that both have in
common, so the parts are compared one by one. -/

namespace PropTables

open Spelling

structure Field.Spelled (f : Field Validator) : Prop where
  key : IsValue f.key
  leading : ∀ c ∈ f.notes.leading, IsComment c
  trailing : ∀ c ∈ f.notes.trailing, IsComment c

inductive Validator.Spelled : Validator → Prop
  | identifier (h : IsName name) : Spelled (.identifier name ns)
  | member (h : Spelled value) (ha : IsName attr) : Spelled (.member value attr ns)
  | call (hf : Spelled func) (ha : ∀ v ∈ args, Spelled v) : Spelled (.call func args ns)
  | literal (h : IsValue (literalText value raw)) : Spelled (.literal value raw ns)
  | array (h : ∀ v ∈ items, Spelled v) : Spelled (.array items ns)
  | object (hn : ∀ c ∈ ns.leading, IsComment c) (hf : ∀ f ∈ fields, f.Spelled)
    (hv : ∀ f ∈ fields, Spelled f.value) : Spelled (.object fields ns)

/-- The comments behind every field end on its line, once there is a line comment among them. -/
def Validator.EndsLines (v : Validator) : Prop :=
  ∀ p fields notes, v.Occurs p (.object fields notes) → ∀ f ∈ fields, f.notes.EndOnLine

/-- The words without each comma that is directly before a closing brace. -/
def withoutFinalCommas : List (Terminal × String) → List (Terminal × String)
  | [] => []
  | w :: ws =>
    if w.1 = .mark .comma ∧ ws.head?.map Prod.fst = some (.mark .closeBrace) then
      withoutFinalCommas ws
    else w :: withoutFinalCommas ws

def Trims (first second : List (Terminal × String)) : Prop :=
  ∀ ws, withoutFinalCommas (first ++ ws) = second ++ withoutFinalCommas ws

def Begins (ws : List (Terminal × String)) : Prop :=
  ∃ w rest, ws = w :: rest ∧ w.1 ≠ .mark .closeBrace

section Words

variable {v v' w w' : List (Terminal × String)}

theorem withoutFinalCommas_cons {w : Terminal × String} (hw : w.1 ≠ .mark .comma)
    (ws : List (Terminal × String)) :
    withoutFinalCommas (w :: ws) = w :: withoutFinalCommas ws := by
  rw [withoutFinalCommas, if_neg (fun h => hw h.1)]

theorem withoutFinalCommas_comma {ws : List (Terminal × String)} (hb : Begins ws) :
    withoutFinalCommas (Mark.comma.word :: ws) = Mark.comma.word :: withoutFinalCommas ws := by
  obtain ⟨w, rest, rfl, hw⟩ := hb
  rw [withoutFinalCommas, if_neg]
  rintro ⟨-, h⟩
  exact hw (by simpa using h)

theorem withoutFinalCommas_final (ws : List (Terminal × String)) :
    withoutFinalCommas (Mark.comma.word :: Mark.closeBrace.word :: ws) =
      withoutFinalCommas (Mark.closeBrace.word :: ws) := by
  rw [withoutFinalCommas, if_pos ⟨rfl, rfl⟩]

theorem Trims.nil : Trims [] [] :=
  fun _ => rfl

theorem Trims.append (hv : Trims v' v) (hw : Trims w' w) : Trims (v' ++ w') (v ++ w) := by
  intro ws
  rw [List.append_assoc, hv, hw, List.append_assoc]

theorem Trims.word {x : Terminal × String} (hx : x.1 ≠ .mark .comma) : Trims [x] [x] :=
  fun ws => withoutFinalCommas_cons hx ws

theorem Trims.same (h : ∀ x ∈ w, x.1.endsField = false) : Trims w w := by
  induction w with
  | nil => exact .nil
  | cons x w ih =>
    have hx : x.1 ≠ .mark .comma := by
      intro hc
      simp [hc, Terminal.endsField] at h
    exact (Trims.word hx).append (ih fun y hy => h y (List.mem_cons_of_mem _ hy))

theorem Begins.append (h : Begins v) (w : List (Terminal × String)) : Begins (v ++ w) := by
  obtain ⟨x, rest, rfl, hx⟩ := h
  exact ⟨x, rest ++ w, rfl, hx⟩

theorem Begins.of_endsField (hne : w ≠ []) (h : ∀ x ∈ w, x.1.endsField = false) : Begins w := by
  obtain ⟨x, w, rfl⟩ := List.exists_cons_of_ne_nil hne
  refine ⟨x, w, rfl, fun hc => ?_⟩
  simp [hc, Terminal.endsField] at h

theorem Trims.comma (hb : Begins w') (hw : Trims w' w) :
    Trims (Mark.comma.word :: w') (Mark.comma.word :: w) := by
  intro ws
  rw [List.cons_append, withoutFinalCommas_comma (hb.append ws), hw, List.cons_append]

theorem Trims.words_eq (h : Trims w' w) : withoutFinalCommas w' = w := by
  have hnil := h []
  rwa [List.append_nil, withoutFinalCommas, List.append_nil] at hnil

end Words

/-- The flat and the broken text of an expression: closed texts with words that are the same but for
commas, and then one run that ends both. -/
inductive Alike : List Char → List Char → Prop
  | mk (ha : Closed a w) (hb : Closed b w') (ht : ∀ c ∈ t, Pattern.inRun c = true)
    (hw : Trims w' w) (hs : Begins w' ∨ w' = [] ∧ t ≠ []) : Alike (a ++ t) (b ++ t)

namespace Alike

variable {a b t : List Char} {w w' : List (Terminal × String)}

theorem closed (ha : Closed a w) (hb : Closed b w') (hw : Trims w' w) (hs : Begins w') :
    Alike a b := by
  have h := Alike.mk (t := []) ha hb (by simp) hw (.inl hs)
  rwa [List.append_nil, List.append_nil] at h

theorem run (ht : ∀ c ∈ t, Pattern.inRun c = true) (hne : t ≠ []) : Alike t t :=
  .mk .nil .nil ht .nil (.inr ⟨rfl, hne⟩)

theorem append_run (h : Alike a b) (ht : ∀ c ∈ t, Pattern.inRun c = true) :
    Alike (a ++ t) (b ++ t) := by
  cases h with
  | @mk a w b w' t' ha hb ht' hw hs =>
    rw [List.append_assoc, List.append_assoc]
    refine .mk ha hb (fun c hc => ?_) hw (hs.imp_right fun ⟨hnil, hne⟩ => ⟨hnil, by simp [hne]⟩)
    rw [List.mem_append] at hc
    exact hc.elim (ht' c) (ht c)

theorem exists_open (h : Alike a b) : ∃ w w', Open a w ∧ Open b w' ∧ Trims w' w ∧ Begins w' := by
  cases h with
  | @mk a w b w' t ha hb ht hw hs =>
    obtain ⟨v, hv, hne, hends⟩ := Open.run ht
    have htrims := hw.append (.same hends)
    refine ⟨w ++ v, w' ++ v, ha.append_open hv, hb.append_open hv, htrims, ?_⟩
    rcases hs with hs | ⟨rfl, ht⟩
    · exact hs.append v
    · exact .of_endsField (hne ht) hends

theorem value {text : String} (h : IsValue text) : Alike text.toList text.toList := by
  obtain ⟨k, hk, h⟩ := h.exists_token
  rcases run_or_closed_of_value hk h with hrun | ⟨w, hw, hends⟩
  · exact run hrun (ne_nil_of_recognise h)
  · have hall : ∀ x ∈ [w], x.1.endsField = false := by simpa using hends
    exact closed hw hw (.same hall) (.of_endsField (by simp) hall)

end Alike

section Lists

variable {vs : List Validator} {flat broken : Validator → String}

theorem Validator.lines_eq_map (vs : List Validator) : lines vs = vs.map line := by
  induction vs with
  | nil => rfl
  | cons v vs ih => rw [lines, ih, List.map_cons]

theorem Validator.prettyItems_eq_map (n level : Nat) (vs : List Validator) :
    prettyItems n level vs = vs.map (pretty n level) := by
  induction vs with
  | nil => rfl
  | cons v vs ih => rw [prettyItems, ih, List.map_cons]

theorem listText_toList_cons (x y : String) (xs : List String) :
    (Validator.listText (x :: y :: xs)).toList =
      x.toList ++ ',' :: ' ' :: (Validator.listText (y :: xs)).toList := by
  simp [Validator.listText]

theorem listText_toList_singleton (x : String) : (Validator.listText [x]).toList = x.toList := by
  simp [Validator.listText]

theorem Closed.separator : Closed [',', ' '] [Mark.comma.word] :=
  (Closed.mark (m := .comma) (by decide)).append (.blank (b := ' ') rfl)

theorem Open.separated {s t : List Char} {v w : List (Terminal × String)} (hs : Open s v)
    (ht : Open t w) : Open (s ++ ',' :: ' ' :: t) (v ++ Mark.comma.word :: w) := by
  have h := (hs.append_closed (by decide) Closed.separator).append_open ht
  rwa [List.append_assoc, List.append_assoc] at h

theorem exists_words_listText
    (h : ∀ v ∈ vs, Alike (flat v).toList (broken v).toList) :
    ∃ w w', Open (Validator.listText (vs.map flat)).toList w ∧
      Open (Validator.listText (vs.map broken)).toList w' ∧ Trims w' w ∧ (vs ≠ [] → Begins w') := by
  induction vs with
  | nil => exact ⟨[], [], Closed.nil.open, Closed.nil.open, .nil, by simp⟩
  | cons v vs ih =>
    obtain ⟨w, w', hopen, hopen', htrims, hbegins⟩ := (h v List.mem_cons_self).exists_open
    obtain ⟨ws, ws', hrest, hrest', htrims', hbegins'⟩ :=
      ih fun v hv => h v (List.mem_cons_of_mem _ hv)
    cases vs with
    | nil =>
      refine ⟨w, w', ?_, ?_, htrims, fun _ => hbegins⟩
      · rwa [List.map_cons, List.map_nil, listText_toList_singleton]
      · rwa [List.map_cons, List.map_nil, listText_toList_singleton]
    | cons u us =>
      -- the comma stays, for the member behind it does not start with a closing brace
      have hcomma := htrims.append (htrims'.comma (hbegins' (by simp)))
      refine ⟨_, _, ?_, ?_, hcomma, fun _ => hbegins.append _⟩
      · rw [List.map_cons, List.map_cons, listText_toList_cons]
        exact hopen.separated hrest
      · rw [List.map_cons, List.map_cons, listText_toList_cons]
        exact hopen'.separated hrest'

theorem Closed.parens {t : List Char} {w : List (Terminal × String)} (ht : Open t w) :
    Closed ('(' :: (t ++ [')'])) (Mark.openParen.word :: (w ++ [Mark.closeParen.word])) :=
  (Closed.mark (m := .openParen) (by decide)).append
    (ht.append_closed (by decide) (.mark (m := .closeParen) (by decide)))

theorem Closed.brackets {t : List Char} {w : List (Terminal × String)} (ht : Open t w) :
    Closed ('[' :: (t ++ [']'])) (Mark.openBracket.word :: (w ++ [Mark.closeBracket.word])) :=
  (Closed.mark (m := .openBracket) (by decide)).append
    (ht.append_closed (by decide) (.mark (m := .closeBracket) (by decide)))

theorem Alike.call {f g : List Char} (hf : Alike f g)
    (h : ∀ v ∈ vs, Alike (flat v).toList (broken v).toList) :
    Alike (f ++ '(' :: ((Validator.listText (vs.map flat)).toList ++ [')']))
      (g ++ '(' :: ((Validator.listText (vs.map broken)).toList ++ [')'])) := by
  obtain ⟨w, w', hopen, hopen', htrims, hbegins⟩ := hf.exists_open
  obtain ⟨ws, ws', hargs, hargs', htrims', -⟩ := exists_words_listText h
  have hparens : Trims (Mark.openParen.word :: (ws' ++ [Mark.closeParen.word]))
      (Mark.openParen.word :: (ws ++ [Mark.closeParen.word])) :=
    (Trims.word (by simp)).append (htrims'.append (.word (by simp)))
  exact .closed (hopen.append_closed (by decide) (.parens hargs))
    (hopen'.append_closed (by decide) (.parens hargs')) (htrims.append hparens) (hbegins.append _)

theorem Alike.array (h : ∀ v ∈ vs, Alike (flat v).toList (broken v).toList) :
    Alike ('[' :: ((Validator.listText (vs.map flat)).toList ++ [']']))
      ('[' :: ((Validator.listText (vs.map broken)).toList ++ [']'])) := by
  obtain ⟨ws, ws', hitems, hitems', htrims, -⟩ := exists_words_listText h
  have hbrackets : Trims (Mark.openBracket.word :: (ws' ++ [Mark.closeBracket.word]))
      (Mark.openBracket.word :: (ws ++ [Mark.closeBracket.word])) :=
    (Trims.word (by simp)).append (htrims.append (.word (by simp)))
  exact .closed (.brackets hitems) (.brackets hitems') hbrackets ⟨_, _, rfl, by simp⟩

end Lists

section Fields

variable {f : Field Validator} {fs : List (Field Validator)} {n level : Nat}

theorem Closed.colon : Closed [':', ' '] [Mark.colon.word] :=
  (Closed.mark (m := .colon) (by decide)).append (.blank (b := ' ') rfl)

theorem fieldLine_toList (f : Field Validator) :
    (Validator.fieldLine f).toList = f.key.toList ++ [':', ' '] ++ f.value.line.toList := by
  obtain ⟨key, value, quoted, notes⟩ := f
  simp [Validator.fieldLine]

theorem rowsText_prettyField (n level : Nat) (f : Field Validator) :
    rowsText (Validator.prettyField n level f) =
      rowsText (f.notes.leading.map (Validator.blanks (n * (level + 1)) ++ ·)) ++
        ((Validator.blanks (n * (level + 1))).toList ++ (f.key.toList ++ [':', ' ']) ++
          ((f.value.pretty n (level + 1)).toList ++
            ',' :: ((Validator.trailingComments f.notes.trailing).toList ++ ['\n']))) := by
  obtain ⟨key, value, quoted, notes⟩ := f
  rw [Validator.prettyField, rowsText_append]
  simp [rowsText]

theorem exists_words_field (hf : f.Spelled) (he : f.notes.EndOnLine)
    (hv : Alike f.value.line.toList (f.value.pretty n (level + 1)).toList) :
    ∃ w w', Open (Validator.fieldLine f).toList w ∧
      Closed (rowsText (Validator.prettyField n level f)) (w' ++ [Mark.comma.word]) ∧
      Trims w' w ∧ Begins w' := by
  obtain ⟨k, hkey, hne, hends⟩ := hf.key.exists_words
  obtain ⟨w, w', hopen, hopen', htrims, -⟩ := hv.exists_open
  have hcolon := hkey.append_closed (by decide) Closed.colon
  have htail : Closed (',' :: ((Validator.trailingComments f.notes.trailing).toList ++ ['\n']))
      [Mark.comma.word] :=
    (Closed.mark (m := .comma) (by decide)).append (.trailingComments hf.trailing he)
  have hmargin := Closed.blanks_text (n * (level + 1))
  have hrow := (hmargin.append hcolon).append (hopen'.append_closed (by decide) htail)
  have hrows := (Closed.commentRows hf.leading (n * (level + 1))).append hrow
  have hwords := ((Trims.same hends).append (.word (x := Mark.colon.word) (by simp))).append htrims
  refine ⟨_, _, ?_, ?_, hwords, ?_⟩
  · rw [fieldLine_toList]
    exact hcolon.append_open hopen
  · rw [rowsText_prettyField, List.append_assoc _ w' _]
    exact hrows
  · exact ((Begins.of_endsField hne hends).append _).append _

theorem exists_words_fields (hne : fs ≠ []) (hf : ∀ f ∈ fs, f.Spelled)
    (he : ∀ f ∈ fs, f.notes.EndOnLine)
    (hv : ∀ f ∈ fs, Alike f.value.line.toList (f.value.pretty n (level + 1)).toList) :
    ∃ w w', Open (Validator.listText (Validator.fieldLines fs)).toList w ∧
      Closed (rowsText (Validator.prettyFields n level fs)) (w' ++ [Mark.comma.word]) ∧
      Trims w' w ∧ Begins w' := by
  induction fs with
  | nil => exact (hne rfl).elim
  | cons f fs ih =>
    obtain ⟨w, w', hopen, hclosed, htrims, hbegins⟩ := exists_words_field
      (hf f List.mem_cons_self) (he f List.mem_cons_self) (hv f List.mem_cons_self)
    rw [Validator.fieldLines, Validator.prettyFields, rowsText_append]
    cases fs with
    | nil =>
      refine ⟨w, w', ?_, ?_, htrims, hbegins⟩
      · rwa [Validator.fieldLines, listText_toList_singleton]
      · simpa [Validator.prettyFields, rowsText] using hclosed
    | cons g gs =>
      obtain ⟨ws, ws', hrest, hrest', htrims', hbegins'⟩ := ih (by simp)
        (fun f h => hf f (List.mem_cons_of_mem _ h)) (fun f h => he f (List.mem_cons_of_mem _ h))
        (fun f h => hv f (List.mem_cons_of_mem _ h))
      have hcomma := htrims.append (htrims'.comma hbegins')
      refine ⟨_, _, ?_, ?_, hcomma, hbegins.append _⟩
      · rw [Validator.fieldLines] at hrest ⊢
        rw [listText_toList_cons]
        exact hopen.separated hrest
      · have hrows := hclosed.append hrest'
        simpa using hrows

theorem listText_fieldLines_head? (hf : IsValue f.key) (fs : List (Field Validator)) :
    (Validator.listText (Validator.fieldLines (f :: fs))).toList.head? = f.key.toList.head? := by
  have hne : f.key.toList ≠ [] := by
    obtain ⟨k, -, hk⟩ := hf
    exact ne_nil_of_recognise hk
  obtain ⟨c, cs, hc⟩ := List.exists_cons_of_ne_nil hne
  rw [Validator.fieldLines]
  cases fs with
  | nil => rw [Validator.fieldLines, listText_toList_singleton, fieldLine_toList, hc]; rfl
  | cons g gs => rw [Validator.fieldLines, listText_toList_cons, fieldLine_toList, hc]; rfl

end Fields

section Objects

variable {fields : List (Field Validator)} {notes : Notes} {n level : Nat}

theorem Closed.emptyBraces :
    Closed ['\x7b', '\x7d'] [Mark.openBrace.word, Mark.closeBrace.word] :=
  .brace (by simp) (by decide) (.mark (m := .closeBrace) (by decide))

theorem line_object_toList (fields : List (Field Validator)) (notes : Notes) :
    (Validator.object fields notes).line.toList =
      '\x7b' :: ((Validator.listText (Validator.fieldLines fields)).toList ++ ['\x7d']) := by
  rw [Validator.line, String.toList_append, String.toList_append]
  rfl

theorem prettyFields_ne_nil (f : Field Validator) (fs : List (Field Validator)) :
    Validator.prettyFields n level (f :: fs) ≠ [] := by
  obtain ⟨key, value, quoted, notes⟩ := f
  simp [Validator.prettyFields, Validator.prettyField]

theorem pretty_object_nil_toList (notes : Notes) :
    (Validator.pretty n level (.object [] notes)).toList =
      (Validator.openingComments (n * level) notes.leading).toList ++ ['\x7b', '\x7d'] := by
  have hbraces : "\x7b\x7d".toList = ['\x7b', '\x7d'] := by decide
  simp [Validator.pretty, Validator.prettyFields, hbraces]

theorem pretty_object_toList (f : Field Validator) (fs : List (Field Validator)) (notes : Notes) :
    (Validator.pretty n level (.object (f :: fs) notes)).toList =
      (Validator.openingComments (n * level) notes.leading).toList ++
        '\x7b' :: '\n' :: (rowsText (Validator.prettyFields n level (f :: fs)) ++
          ((Validator.blanks (n * level)).toList ++ ['\x7d'])) := by
  rw [Validator.pretty, String.toList_append]
  split
  case h_1 h => exact (prettyFields_ne_nil f fs h).elim
  case h_2 rows _ =>
    rw [intercalate_toList_cons, String.toList_append]
    rfl

theorem Alike.object (hn : ∀ c ∈ notes.leading, IsComment c) (hf : ∀ f ∈ fields, f.Spelled)
    (he : ∀ f ∈ fields, f.notes.EndOnLine)
    (hv : ∀ f ∈ fields, Alike f.value.line.toList (f.value.pretty n (level + 1)).toList) :
    Alike (Validator.object fields notes).line.toList
      ((Validator.object fields notes).pretty n level).toList := by
  -- An object literal is closed by its brace, and its last comma is the one before that brace.
  have hopening := Closed.openingComments hn (n * level)
  cases fields with
  | nil =>
    have hbroken := hopening.append Closed.emptyBraces
    have htrims : Trims [Mark.openBrace.word, Mark.closeBrace.word]
        [Mark.openBrace.word, Mark.closeBrace.word] :=
      (Trims.word (by simp)).append (.word (by simp))
    rw [line_object_toList, pretty_object_nil_toList]
    exact .closed Closed.emptyBraces hbroken htrims ⟨_, _, rfl, by simp⟩
  | cons f fs =>
    obtain ⟨w, w', hopen, hclosed, htrims, hbegins⟩ := exists_words_fields (by simp) hf he hv
    have hbrace : Closed ['\x7d'] [Mark.closeBrace.word] := .mark (m := .closeBrace) (by decide)
    have hflat : Closed (Validator.object (f :: fs) notes).line.toList
        (Mark.openBrace.word :: (w ++ [Mark.closeBrace.word])) := by
      obtain ⟨k, hk, hkey⟩ := (hf f List.mem_cons_self).key.exists_token
      have hbar := head?_ne_bar_of_value hk hkey
      rw [line_object_toList]
      refine .brace (by simp) ?_ (hopen.append_closed (by decide) hbrace)
      rw [List.head?_append, listText_fieldLines_head? (hf f List.mem_cons_self).key fs]
      cases hc : f.key.toList.head? with
      | none => simp
      | some c => rwa [hc] at hbar
    have hbroken : Closed ((Validator.object (f :: fs) notes).pretty n level).toList
        (Mark.openBrace.word :: (w' ++ [Mark.comma.word, Mark.closeBrace.word])) := by
      have hlast := (Closed.blanks_text (n * level)).append hbrace
      have hrows := Closed.blank_cons (b := '\n') rfl (hclosed.append hlast)
      have hbody := hopening.append (.brace (by simp) (by simp) hrows)
      rw [pretty_object_toList]
      simpa using hbody
    refine .closed hflat hbroken (fun ws => ?_) ⟨_, _, rfl, by simp⟩
    -- the comma behind the last field is the one before the brace
    rw [List.cons_append, withoutFinalCommas_cons (by simp), List.append_assoc, htrims,
      List.cons_append, List.cons_append, List.nil_append, withoutFinalCommas_final,
      withoutFinalCommas_cons (by simp), List.cons_append, List.append_assoc]
    rfl

end Objects

namespace Validator

theorem Occurs.trans {table e v : Validator} {p q : Site} (he : table.Occurs q e)
    (h : e.Occurs p v) : ∃ p', table.Occurs p' v := by
  induction h with
  | table => exact ⟨q, he⟩
  | base _ ih =>
    obtain ⟨_, ih⟩ := ih
    exact ⟨_, .base ih⟩
  | callee _ ih =>
    obtain ⟨_, ih⟩ := ih
    exact ⟨_, .callee ih⟩
  | argument _ ha ih =>
    obtain ⟨_, ih⟩ := ih
    exact ⟨_, .argument ih ha⟩
  | item _ hi ih =>
    obtain ⟨_, ih⟩ := ih
    exact ⟨_, .item ih hi⟩
  | field _ hf ih =>
    obtain ⟨_, ih⟩ := ih
    exact ⟨_, .field ih hf⟩

theorem EndsLines.of_occurs {v e : Validator} {p : Site} (h : v.EndsLines) (he : v.Occurs p e) :
    e.EndsLines := by
  intro q fields notes ho
  obtain ⟨q', ho'⟩ := he.trans ho
  exact h q' fields notes ho'

/-- The invariant of both texts, at every level of indentation. -/
theorem alike {v : Validator} (hv : v.Spelled) (he : v.EndsLines) (n level : Nat) :
    Alike v.line.toList (v.pretty n level).toList := by
  induction hv generalizing level with
  | identifier h =>
    obtain ⟨k, hk, h⟩ := h
    exact .value ⟨k, Terminal.isValue_of_isWord hk, h⟩
  | @member _ attr _ _ ha ih =>
    obtain ⟨k, hk, ha⟩ := ha
    rw [← String.length_toList] at ha
    have hrun := run_of_word hk ha
    -- behind a number the dot may belong to it, so both only make the run longer
    have htext (x : String) : (x ++ "." ++ attr).toList = x.toList ++ '.' :: attr.toList := by
      simp
    rw [line, pretty, htext, htext]
    refine (ih (he.of_occurs (.base .table)) level).append_run fun c hc => ?_
    rcases List.mem_cons.1 hc with rfl | hc
    · decide
    · exact hrun c hc
  | call _ _ ihf iha =>
    have hfunc := ihf (he.of_occurs (.callee .table)) level
    have hargs := fun v hv => iha v hv (he.of_occurs (.argument .table hv)) level
    have hcall := hfunc.call hargs
    rw [line, pretty, lines_eq_map, prettyItems_eq_map]
    simpa using hcall
  | literal h => exact .value h
  | array _ ih =>
    have hitems := fun v hv => ih v hv (he.of_occurs (.item .table hv)) level
    have harray := Alike.array hitems
    rw [line, pretty, lines_eq_map, prettyItems_eq_map]
    simpa using harray
  | object hn hf _ ih =>
    exact .object hn hf (he _ _ _ .table)
      fun f hmem => ih f hmem (he.of_occurs (.field .table hmem)) (level + 1)

/-- Broken into lines, an expression has the tokens that it has on one line, but for the commas
before closing braces. -/
theorem words_render {v : Validator} (hv : v.Spelled) (he : v.EndsLines) (n : Nat) :
    (Lexing.ofSource (v.render none)).stuck = none ∧
      (Lexing.ofSource (v.render (some n))).stuck = none ∧
      withoutFinalCommas (Lexing.ofSource (v.render (some n))).words =
        (Lexing.ofSource (v.render none)).words := by
  obtain ⟨w, w', hopen, hopen', htrims, -⟩ := (alike hv he n 0).exists_open
  obtain ⟨hflat, hwords⟩ := Lexing.ofSource_of_reads hopen.reads
  obtain ⟨hbroken, hwords'⟩ := Lexing.ofSource_of_reads hopen'.reads
  refine ⟨hflat, hbroken, ?_⟩
  calc withoutFinalCommas (Lexing.ofSource (v.pretty n 0)).words
    _ = withoutFinalCommas w' := by rw [hwords']
    _ = w := htrims.words_eq
    _ = (Lexing.ofSource v.line).words := hwords.symm

def remarked (trailing : List String) : Validator :=
  .object [⟨"a", .named "string", false, ⟨[], trailing⟩⟩] .none

theorem remarked_spelled {trailing : List String} (h : ∀ c ∈ trailing, IsComment c) :
    (remarked trailing).Spelled := by
  have hname : IsName "string" := ⟨.name, rfl, by decide⟩
  have hkey : IsValue "a" := ⟨.name, rfl, by decide⟩
  refine .object (by simp [Notes.none]) (fun f hf => ?_) (fun f hf => ?_)
  · rw [List.mem_singleton.1 hf]
    exact ⟨hkey, by simp, h⟩
  · rw [List.mem_singleton.1 hf]
    exact .identifier hname

theorem remarked_endsLines {trailing : List String} (h : Notes.EndOnLine ⟨[], trailing⟩) :
    (remarked trailing).EndsLines := by
  have parts {p : Site} {e : Validator} (he : (remarked trailing).Occurs p e) :
      e = remarked trailing ∨ e = .named "string" := by
    induction he with
    | table => exact .inl rfl
    | base _ ih => rcases ih with ih | ih <;> cases ih
    | callee _ ih => rcases ih with ih | ih <;> cases ih
    | argument _ _ ih => rcases ih with ih | ih <;> cases ih
    | item _ _ ih => rcases ih with ih | ih <;> cases ih
    | field _ hf ih =>
      rcases ih with ih | ih <;> cases ih
      rw [List.mem_singleton.1 hf]
      exact .inr rfl
  intro p fields notes ho f hf
  rcases parts ho with he | he <;> cases he
  rw [List.mem_singleton.1 hf]
  exact h

theorem words_render_remarked :
    let v := remarked ["/* one\n two */", "// three"]
    v.Spelled ∧ v.EndsLines ∧ (Lexing.ofSource (v.render none)).stuck = none ∧
      (Lexing.ofSource (v.render (some 2))).stuck = none ∧
      withoutFinalCommas (Lexing.ofSource (v.render (some 2))).words =
        (Lexing.ofSource (v.render none)).words := by
  intro v
  have hs : v.Spelled := remarked_spelled (by decide)
  have he : v.EndsLines := remarked_endsLines (by decide)
  exact ⟨hs, he, words_render hs he 2⟩

/-- A line comment takes the start of the next comment along, and the rest of that one becomes
code. -/
theorem words_render_ne_swallowed :
    let v := remarked ["// one", "/* two\n three */"]
    v.Spelled ∧ withoutFinalCommas (Lexing.ofSource (v.render (some 2))).words ≠
      (Lexing.ofSource (v.render none)).words := by
  intro v
  exact ⟨remarked_spelled (by decide), by decide⟩

end Validator

end PropTables
