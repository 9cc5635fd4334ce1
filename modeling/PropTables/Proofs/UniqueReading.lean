import Mathlib.Data.List.Induction
import PropTables.Proofs.TableShape
import PropTables.Proofs.TokenTexts
import PropTables.Validator.Compare

/-! Expressions whose words leave no doubt about them. Their names and keys are single tokens, and
constants stand in arrays only, where the one bare name is not spelled like any of them. The words of
such an expression are read from their end: the last word tells its form, and what stands before the
expression is where its first word would go on with it. -/

namespace PropTables

open Spelling
open List (Forall₂)

def nameWord (text : String) : Word :=
  (.ofWord text, text)

@[simp] theorem nameWord_ne_mark (text : String) (m : Mark) : nameWord text ≠ m.word := by
  intro h
  have hword := Terminal.isWord_ofWord text
  rw [show Terminal.ofWord text = .mark m from congrArg Prod.fst h] at hword
  cases hword

@[simp] theorem mark_ne_nameWord (text : String) (m : Mark) : m.word ≠ nameWord text :=
  (nameWord_ne_mark text m).symm

theorem nameWord_inj {text text' : String} (h : nameWord text = nameWord text') : text = text' :=
  congrArg Prod.snd h

@[simp] theorem Mark.word_inj {m m' : Mark} : m.word = m'.word ↔ m = m' := by
  refine ⟨fun h => ?_, congrArg word⟩
  cases congrArg Prod.fst h
  rfl

theorem Spelling.IsName.isToken {text : String} (h : IsName text) : IsToken (.ofWord text) text := by
  obtain ⟨k, hk, h⟩ := h
  rw [← String.length_toList] at h
  obtain ⟨c, cs, hcs⟩ := List.exists_cons_of_ne_nil (ne_nil_of_recognise h)
  rw [hcs] at h
  obtain ⟨hc, hnumber⟩ := Pattern.number_eq_none_of_word hk h
  have hrun : Pattern.inRun c = true := by simp [Pattern.inRun, Pattern.continuesName, hc]
  have hname := h
  rw [LexemeClass.recognise_eq_of_run hrun, (hnumber cs).1, Pattern.name, if_pos hc] at hname
  simp only [Option.map_none, Option.map_some, Option.none_or, Option.some_or, Option.some.injEq,
    Prod.mk.injEq, LexemeClass.token.injEq] at hname
  obtain ⟨hword, hlen⟩ := hname
  rw [hlen, List.take_length, ← hcs, String.ofList_toList] at hword
  rw [IsToken, ← String.length_toList, hcs, h, hword]

section Numbers

theorem Binary64.magnitude_ofParts {negative : Bool} {m : Nat} (h : m < signBit) :
    (ofParts negative m).magnitude = m := by
  have hbit : signBit = 2 ^ 63 := by decide
  rw [hbit] at h
  rw [magnitude, ofParts, UInt64.toNat_ofNat', hbit]
  split <;> omega

theorem Binary64.isNaN_ofDecimal (negative : Bool) (x : Decimal) :
    (ofDecimal negative x).isNaN = false := by
  have hlt : infinityBits < signBit := by decide
  have hle {m : Nat} (h : m ≤ infinityBits) : (ofParts negative m).isNaN = false := by
    rw [isNaN, magnitude_ofParts (h.trans_lt hlt)]
    simpa using h
  unfold ofDecimal
  refine hle ?_
  split
  · exact Nat.zero_le _
  · split
    · exact le_rfl
    · exact min_le_left _ _

theorem Number.sameValue_self_of_ofLiteral? {literal : String} {n : Number}
    (h : ofLiteral? literal = some n) : n.sameValue n = true := by
  cases n with
  | integer n => simp [sameValue]
  | float x =>
    have hx : ∃ negative d, x = Binary64.ofDecimal negative d := by
      simp only [ofLiteral?] at h
      split at h
      · cases h
        exact ⟨_, _, rfl⟩
      · simp at h
    obtain ⟨negative, d, rfl⟩ := hx
    simp [sameValue, Binary64.isNaN_ofDecimal]

end Numbers

namespace Constant

def terminal : Constant → Terminal
  | null | boolean _ => .name
  | number _ => .number
  | text _ => .string

variable (names : CharacterNames) in
inductive WrittenAs : Constant → String → Prop
  | null : WrittenAs .null "null"
  | boolean : WrittenAs (.boolean b) (if b then "true" else "false")
  | number (h : IsToken .number raw) (hv : Number.ofLiteral? raw = some n) :
    WrittenAs (.number n) raw
  | text (h : IsToken .string raw) (hv : Text.ofLiteral? names raw = some t) : WrittenAs (.text t) raw

theorem WrittenAs.isToken {names : CharacterNames} {c : Constant} {raw : String} (h : c.WrittenAs names raw) :
    IsToken c.terminal raw := by
  cases h with
  | null => exact (by decide : IsToken .name "null")
  | @boolean b => cases b <;> decide
  | number h => exact h
  | text h => exact h

end Constant

structure Field.Keyed (f : Field Validator) : Prop where
  quoted : f.quoted = true → IsToken .string f.key
  bare : f.quoted = false → IsName f.key

namespace Validator

def IsConstant (names : CharacterNames) (v : Validator) : Prop :=
  ∃ c raw notes, v = .literal c (some raw) notes ∧ c.WrittenAs names raw

variable (names : CharacterNames) in
/-- The expressions that can be told from their words. -/
inductive Legible : Validator → Prop
  | identifier (h : Spelling.IsName name) : Legible (.identifier name ns)
  | member (h : Legible value) (ha : Spelling.IsName attr) : Legible (.member value attr ns)
  | call (hf : Legible func) (ha : ∀ v ∈ args, Legible v) : Legible (.call func args ns)
  | array (hi : ∀ v ∈ items, ¬ v.IsConstant names → Legible v)
    (hn : ∀ name ns', .identifier name ns' ∈ items → name = "undefined") : Legible (.array items ns)
  | object (hk : ∀ f ∈ fields, f.Keyed) (hv : ∀ f ∈ fields, Legible f.value) :
    Legible (.object fields ns)

end Validator

def separated : List (List Word) → List Word
  | [] => []
  | ws :: wss => ws ++ wss.flatMap (Mark.comma.word :: ·)

def enclosed (opening : Mark) (wss : List (List Word)) (closing : Mark) : List Word :=
  opening.word :: separated wss ++ [closing.word]

namespace Validator

mutual

def words : Validator → List Word
  | identifier name _ => [nameWord name]
  | member value attr _ => words value ++ [Mark.dot.word, nameWord attr]
  | call func args _ => words func ++ enclosed .openParen (wordsOfAll args) .closeParen
  | literal value raw _ => [(value.terminal, literalText value raw)]
  | array items _ => enclosed .openBracket (wordsOfAll items) .closeBracket
  | object fields _ => enclosed .openBrace (wordsOfFields fields) .closeBrace

def wordsOfAll : List Validator → List (List Word)
  | [] => []
  | v :: vs => words v :: wordsOfAll vs

def wordsOfFields : List (Field Validator) → List (List Word)
  | [] => []
  | f :: fs => wordsOfField f :: wordsOfFields fs

def wordsOfField : Field Validator → List Word
  | ⟨key, value, quoted, _⟩ =>
    (if quoted then (.string, key) else nameWord key) :: Mark.colon.word :: words value

end

end Validator

def Field.keyWord (f : Field Validator) : Word :=
  if f.quoted then (.string, f.key) else nameWord f.key

section Lists

variable {f g : Field Validator} {vs ws : List Validator} {fs gs : List (Field Validator)}

theorem Validator.wordsOfAll_eq (vs : List Validator) : wordsOfAll vs = vs.map words := by
  induction vs with
  | nil => rfl
  | cons v vs ih => rw [wordsOfAll, ih, List.map_cons]

theorem Validator.wordsOfField_eq (f : Field Validator) :
    wordsOfField f = f.keyWord :: Mark.colon.word :: f.value.words := by
  cases f
  rw [wordsOfField]
  rfl

theorem Validator.wordsOfFields_eq (fs : List (Field Validator)) :
    wordsOfFields fs = fs.map wordsOfField := by
  induction fs with
  | nil => rfl
  | cons f fs ih => rw [wordsOfFields, ih, List.map_cons]

theorem Validator.sameAll_iff : sameAll vs ws = true ↔ Forall₂ (fun v w => v.same w = true) vs ws := by
  induction vs generalizing ws with
  | nil => cases ws <;> simp [sameAll]
  | cons v vs ih => cases ws <;> simp [sameAll, ih]

theorem Validator.sameField_iff :
    sameField f g = true ↔ f.key = g.key ∧ f.value.same g.value = true ∧ f.quoted = g.quoted := by
  cases f
  cases g
  simp [sameField, and_assoc]

theorem Validator.sameFields_iff :
    sameFields fs gs = true ↔ Forall₂ (fun f g => sameField f g = true) fs gs := by
  induction fs generalizing gs with
  | nil => cases gs <;> simp [sameFields]
  | cons f fs ih => cases gs <;> simp [sameFields, ih]

theorem Field.keyWord_inj (h : f.keyWord = g.keyWord) : f.key = g.key ∧ f.quoted = g.quoted := by
  have differ (text text' : String) : nameWord text ≠ (.string, text') := by
    intro h
    have hword := Terminal.isWord_ofWord text
    rw [show Terminal.ofWord text = .string from congrArg Prod.fst h] at hword
    cases hword
  have hkey : f.key = g.key := by
    have htext := congrArg Prod.snd h
    unfold keyWord at htext
    split at htext <;> split at htext <;> exact htext
  refine ⟨hkey, ?_⟩
  unfold keyWord at h
  cases hf : f.quoted <;> cases hg : g.quoted <;> simp only [hf, hg] at h
  · rfl
  · exact (differ _ _ h).elim
  · exact (differ _ _ h.symm).elim
  · rfl

end Lists

section Reading

variable {α : Type} {l l' : List Word}

/-- An expression can start behind these words: they do not end with the dot of a member access. -/
def Ready (l : List Word) : Prop :=
  l.getLast? ≠ some Mark.dot.word

def endsExpression (w : Word) : Bool :=
  match w.1 with
  | .mark .closeParen | .mark .closeBracket | .mark .closeBrace => true
  | .mark _ => false
  | _ => true

def openings : List Mark :=
  [.openParen, .openBracket, .openBrace]

/-- The words of a value can be told from those before it, and tell the value. -/
def ReadsFromEnd (words : α → List Word) (R : α → α → Prop) (x y : α) : Prop :=
  ∀ ⦃l l' : List Word⦄, Ready l → Ready l' → l ++ words x = l' ++ words y → l = l' ∧ R x y

theorem Ready.concat {w : Word} (h : w ≠ Mark.dot.word) : Ready (l ++ [w]) := by
  simpa [Ready] using h

def leadIn (opening : Mark) (wss : List (List Word)) : List Word :=
  if wss = [] then [opening.word] else opening.word :: (separated wss ++ [Mark.comma.word])

theorem separated_concat (opening : Mark) (wss : List (List Word)) (ws : List Word) :
    opening.word :: separated (wss ++ [ws]) = leadIn opening wss ++ ws := by
  cases wss <;> simp [separated, leadIn]

theorem Ready.leadIn {opening : Mark} (ho : opening ∈ openings) (wss : List (List Word)) :
    Ready (l ++ leadIn opening wss) := by
  unfold PropTables.leadIn
  split
  · refine .concat fun h => ?_
    rw [Mark.word_inj.1 h] at ho
    revert ho
    decide
  · rw [← List.cons_append, ← List.append_assoc]
    exact .concat (by decide)

theorem leadIn_inj {o o' : Mark} (ho : o ∈ openings) (ho' : o' ∈ openings)
    {wss wss' : List (List Word)} (h : l ++ leadIn o wss = l' ++ leadIn o' wss') :
    (wss = [] ∧ wss' = [] ∧ l = l' ∧ o = o') ∨
      l ++ o.word :: separated wss = l' ++ o'.word :: separated wss' := by
  have hcomma {m : Mark} (hm : m ∈ openings) : m.word ≠ Mark.comma.word := by
    intro h
    rw [Mark.word_inj.1 h] at hm
    revert hm
    decide
  unfold leadIn at h
  split at h <;> split at h
  case isTrue.isTrue hn hn' =>
    obtain ⟨hl, hw⟩ := List.append_inj' h rfl
    cases Mark.word_inj.1 (List.singleton_inj.1 hw)
    exact .inl ⟨hn, hn', hl, rfl⟩
  case isTrue.isFalse =>
    rw [← List.cons_append, ← List.append_assoc] at h
    exact (hcomma ho (List.singleton_inj.1 (List.append_inj' h rfl).2)).elim
  case isFalse.isTrue =>
    rw [← List.cons_append, ← List.append_assoc] at h
    exact (hcomma ho' (List.singleton_inj.1 (List.append_inj' h rfl).2).symm).elim
  case isFalse.isFalse =>
    rw [← List.cons_append, ← List.cons_append, ← List.append_assoc, ← List.append_assoc] at h
    exact .inr (List.append_inj' h rfl).1

theorem separated_unique {words : α → List Word} {R : α → α → Prop} {xs ys : List α} {o o' : Mark}
    (ho : o ∈ openings) (ho' : o' ∈ openings)
    (hends : ∀ x, ∃ w ∈ (words x).getLast?, endsExpression w = true)
    (hreads : ∀ x ∈ xs, ∀ y ∈ ys, ReadsFromEnd words R x y)
    (h : l ++ o.word :: separated (xs.map words) = l' ++ o'.word :: separated (ys.map words)) :
    l = l' ∧ o = o' ∧ Forall₂ R xs ys := by
  -- The items between commas are read from the last one to the mark before the first one.
  -- the mark before the items is no last word of an item
  have apart {p q : List Word} {m m' : Mark} {x : α} {zs : List α} (hm : m ∈ openings)
      (h : p ++ [m.word] = q ++ m'.word :: separated ((zs ++ [x]).map words)) : False := by
    obtain ⟨w, hw, hwends⟩ := hends x
    have hlast := congrArg List.getLast? h
    rw [List.map_append, List.map_singleton, separated_concat, List.getLast?_concat,
      ← List.append_assoc, List.getLast?_append, hw, Option.some_or, Option.some.injEq] at hlast
    rw [← hlast] at hwends
    revert hm hwends
    cases m <;> decide
  induction xs using List.reverseRecOn generalizing ys with
  | nil =>
    rcases ys.eq_nil_or_concat' with rfl | ⟨ys, y, rfl⟩
    · obtain ⟨rfl, hw⟩ := List.append_inj' h rfl
      cases Mark.word_inj.1 (List.singleton_inj.1 hw)
      exact ⟨rfl, rfl, .nil⟩
    · exact (apart ho h).elim
  | append_singleton xs x ih =>
    rcases ys.eq_nil_or_concat' with rfl | ⟨ys, y, rfl⟩
    · exact (apart ho' h.symm).elim
    · rw [List.map_append, List.map_append, List.map_singleton, List.map_singleton,
        separated_concat, separated_concat, ← List.append_assoc, ← List.append_assoc] at h
      obtain ⟨hlead, hxy⟩ := hreads x (by simp) y (by simp) (.leadIn ho _) (.leadIn ho' _) h
      rcases leadIn_inj ho ho' hlead with ⟨hxs, hys, hl, hopen⟩ | hrest
      · rw [List.map_eq_nil_iff] at hxs hys
        subst hxs hys
        exact ⟨hl, hopen, .cons hxy .nil⟩
      · obtain ⟨hl, hopen, hall⟩ := ih
          (fun x hx y hy => hreads x (by simp [hx]) y (by simp [hy])) hrest
        exact ⟨hl, hopen, List.rel_append hall (.cons hxy .nil)⟩

end Reading

theorem endsExpression_nameWord (text : String) : endsExpression (nameWord text) = true := by
  have hword := Terminal.isWord_ofWord text
  unfold endsExpression nameWord
  cases h : Terminal.ofWord text with
  | mark m =>
    rw [h] at hword
    cases hword
  | _ => rfl

namespace Constant

variable {names : CharacterNames} {c d : Constant} {raw : String}

theorem WrittenAs.unique (hc : c.WrittenAs names raw) (hd : d.WrittenAs names raw)
    (h : c.terminal = d.terminal) : c = d := by
  have htrue : "true" ≠ "null" ∧ "false" ≠ "null" ∧ "true" ≠ "false" := by decide
  cases hc with
  | null =>
    generalize hraw : "null" = raw at hd
    cases hd with
    | null => rfl
    | @boolean b => cases b <;> simp at hraw
    | _ => cases h
  | @boolean b =>
    generalize hraw : (if b then "true" else "false") = raw at hd
    cases hd with
    | null => cases b <;> simp at hraw
    | @boolean b' => cases b <;> cases b' <;> simp at hraw ⊢
    | _ => cases h
  | number _ hv =>
    cases hd with
    | number _ hv' => rw [Option.some.inj (hv.symm.trans hv')]
    | _ => cases h
  | text _ hv =>
    cases hd with
    | text _ hv' => rw [Option.some.inj (hv.symm.trans hv')]
    | _ => cases h

theorem WrittenAs.sameValue_self (h : c.WrittenAs names raw) : c.sameValue c = true := by
  cases h with
  | number h hv => exact Number.sameValue_self_of_ofLiteral? hv
  | _ => simp [Constant.sameValue, Constant.number?, Number.sameValue]

theorem WrittenAs.ne_undefined (h : c.WrittenAs names raw) :
    (c.terminal, raw) ≠ nameWord "undefined" := by
  have hword : nameWord "undefined" = (.name, "undefined") := by decide
  rw [hword]
  cases h with
  | null => decide
  | @boolean b => cases b <;> decide
  | number | text => nofun

end Constant

namespace Validator

variable {names : CharacterNames} {v w : Validator}

def closing : Validator → Word
  | identifier name _ => nameWord name
  | member _ attr _ => nameWord attr
  | call .. => Mark.closeParen.word
  | literal value raw _ => (value.terminal, literalText value raw)
  | array .. => Mark.closeBracket.word
  | object .. => Mark.closeBrace.word

theorem words_member (v : Validator) (attr : String) (notes : Notes) :
    (member v attr notes).words = v.words ++ [Mark.dot.word] ++ [nameWord attr] := by
  rw [words, List.append_assoc]
  rfl

theorem getLast?_words (v : Validator) : v.words.getLast? = some v.closing := by
  cases v with
  | identifier | literal => rfl
  | member => rw [words_member, List.getLast?_concat, closing]
  | call => rw [words, enclosed, ← List.append_assoc, List.getLast?_concat, closing]
  | array | object => rw [words, enclosed, List.getLast?_concat, closing]

theorem endsExpression_closing (v : Validator) : endsExpression v.closing = true := by
  cases v with
  | identifier | member => exact endsExpression_nameWord _
  | literal value => cases value <;> rfl
  | _ => rfl

theorem ends_words (v : Validator) : ∃ w ∈ v.words.getLast?, endsExpression w = true :=
  ⟨v.closing, v.getLast?_words, v.endsExpression_closing⟩

theorem ends_wordsOfField (f : Field Validator) :
    ∃ w ∈ (wordsOfField f).getLast?, endsExpression w = true := by
  obtain ⟨w, hw, hends⟩ := ends_words f.value
  refine ⟨w, ?_, hends⟩
  rw [Option.mem_def] at hw
  rw [wordsOfField_eq, List.getLast?_cons, List.getLast?_cons, hw]
  rfl

theorem closing_eq {l l' : List Word} (h : l ++ v.words = l' ++ w.words) : v.closing = w.closing := by
  have hlast := congrArg List.getLast? h
  rw [List.getLast?_append, List.getLast?_append, getLast?_words, getLast?_words] at hlast
  exact Option.some.inj hlast

theorem not_ready_of_member {l l' : List Word} {x : Word} {attr : String} {notes : Notes}
    (h : l ++ [x] = l' ++ (member v attr notes).words) : ¬ Ready l := by
  rw [words_member, ← List.append_assoc, ← List.append_assoc] at h
  have hdot := (List.append_inj' h rfl).1
  exact fun hl => hl (by rw [hdot, List.getLast?_concat])

theorem constant_apart {l l' : List Word} {c : Constant} {raw : String} (hc : c.WrittenAs names raw)
    (hl : Ready l) (hw : w.Legible names)
    (hn : ∀ name ns, w = .identifier name ns → name = "undefined")
    (h : l ++ [(c.terminal, raw)] = l' ++ w.words) : False := by
  have hlast := congrArg List.getLast? h
  rw [List.getLast?_concat, List.getLast?_append, getLast?_words, Option.some_or, Option.some.injEq]
    at hlast
  cases hw with
  | @identifier name ns =>
    cases hn name ns rfl
    exact hc.ne_undefined hlast
  | member => exact not_ready_of_member h hl
  | _ => cases c <;> cases congrArg Prod.fst hlast

theorem item_readsFromEnd (hv : ¬ v.IsConstant names → v.Legible names)
    (hw : ¬ w.IsConstant names → w.Legible names)
    (hn : ∀ name ns, v = .identifier name ns → name = "undefined")
    (hn' : ∀ name ns, w = .identifier name ns → name = "undefined")
    (h : ¬ v.IsConstant names → w.Legible names → ReadsFromEnd words (fun v w => v.same w = true) v w) :
    ReadsFromEnd words (fun v w => v.same w = true) v w := by
  intro l l' hl hl' heq
  by_cases hcv : v.IsConstant names <;> by_cases hcw : w.IsConstant names
  · obtain ⟨c, raw, ns, rfl, hc⟩ := hcv
    obtain ⟨d, raw', ns', rfl, hd⟩ := hcw
    obtain ⟨rfl, hword⟩ := List.append_inj' heq rfl
    obtain ⟨hterminal, htext⟩ := Prod.mk.inj (List.singleton_inj.1 hword)
    obtain rfl : raw = raw' := htext
    obtain rfl := hc.unique hd hterminal
    exact ⟨rfl, by simp [same, hc.sameValue_self]⟩
  · obtain ⟨c, raw, ns, rfl, hc⟩ := hcv
    exact (constant_apart hc hl (hw hcw) hn' heq).elim
  · obtain ⟨d, raw, ns, rfl, hd⟩ := hcw
    exact (constant_apart hd hl' (hv hcv) hn heq.symm).elim
  · exact h hcv (hw hcw) hl hl' heq

theorem field_readsFromEnd {f g : Field Validator}
    (h : ReadsFromEnd words (fun v w => v.same w = true) f.value g.value) :
    ReadsFromEnd wordsOfField (fun f g => sameField f g = true) f g := by
  intro l l' hl hl' heq
  have hsplit (l : List Word) (f : Field Validator) :
      l ++ wordsOfField f = l ++ [f.keyWord] ++ [Mark.colon.word] ++ f.value.words := by
    simp [wordsOfField_eq]
  rw [hsplit, hsplit] at heq
  obtain ⟨hkeys, hvalue⟩ := h (.concat (by decide)) (.concat (by decide)) heq
  obtain ⟨rfl, hkey⟩ := List.append_inj' (List.append_inj' hkeys rfl).1 rfl
  obtain ⟨hkey, hquoted⟩ := Field.keyWord_inj (List.singleton_inj.1 hkey)
  exact ⟨rfl, sameField_iff.2 ⟨hkey, hvalue, hquoted⟩⟩

/-- Legible expressions are told from the words before them, and are the same if their words are. -/
theorem Legible.readsFromEnd (hv : v.Legible names) (hw : w.Legible names) :
    ReadsFromEnd words (fun v w => v.same w = true) v w := by
  induction hv generalizing w with
  | identifier =>
    intro l l' hl hl' h
    have hclosing := closing_eq h
    cases hw with
    | identifier =>
      obtain ⟨rfl, hword⟩ := List.append_inj' h rfl
      exact ⟨rfl, by simp [same, nameWord_inj (List.singleton_inj.1 hword)]⟩
    | member => exact (not_ready_of_member h hl).elim
    | _ => simp [closing] at hclosing
  | member _ _ ih =>
    intro l l' hl hl' h
    have hclosing := closing_eq h
    cases hw with
    | identifier => exact (not_ready_of_member h.symm hl').elim
    | member hvalue' =>
      rw [words_member, words_member, ← List.append_assoc, ← List.append_assoc, ← List.append_assoc,
        ← List.append_assoc] at h
      obtain ⟨h, hattr⟩ := List.append_inj' h rfl
      obtain ⟨hl, hsame⟩ := ih hvalue' hl hl' (List.append_inj' h rfl).1
      exact ⟨hl, by simp [same, hsame, nameWord_inj (List.singleton_inj.1 hattr)]⟩
    | _ => simp [closing] at hclosing
  | call _ _ ihf iha =>
    intro l l' hl hl' h
    have hclosing := closing_eq h
    cases hw with
    | call hf' ha' =>
      rw [words, words, wordsOfAll_eq, wordsOfAll_eq, enclosed, enclosed, ← List.append_assoc,
        ← List.append_assoc, ← List.append_assoc, ← List.append_assoc] at h
      obtain ⟨hfunc, -, hargs⟩ := separated_unique (by decide) (by decide) ends_words
        (fun x hx y hy => iha x hx (ha' y hy)) (List.append_inj' h rfl).1
      obtain ⟨hl, hsame⟩ := ihf hf' hl hl' hfunc
      exact ⟨hl, by simp [same, hsame, sameAll_iff.2 hargs]⟩
    | _ => simp [closing] at hclosing
  | array hi hn ih =>
    intro l l' hl hl' h
    have hclosing := closing_eq h
    cases hw with
    | array hi' hn' =>
      rw [words, words, wordsOfAll_eq, wordsOfAll_eq, enclosed, enclosed, ← List.append_assoc,
        ← List.append_assoc] at h
      have hitem (x) (hx : x ∈ _) (y) (hy : y ∈ _) := item_readsFromEnd (hi x hx) (hi' y hy)
        (fun _ _ he => hn _ _ (he ▸ hx)) (fun _ _ he => hn' _ _ (he ▸ hy)) fun hc hy => ih x hx hc hy
      obtain ⟨hl, -, hitems⟩ := separated_unique (by decide) (by decide) ends_words hitem
        (List.append_inj' h rfl).1
      exact ⟨hl, by simp [same, sameAll_iff.2 hitems]⟩
    | _ => simp [closing] at hclosing
  | object _ _ ih =>
    intro l l' hl hl' h
    have hclosing := closing_eq h
    cases hw with
    | object _ hv' =>
      rw [words, words, wordsOfFields_eq, wordsOfFields_eq, enclosed, enclosed, ← List.append_assoc,
        ← List.append_assoc] at h
      obtain ⟨hl, -, hfields⟩ := separated_unique (by decide) (by decide) ends_wordsOfField
        (fun f hf g hg => field_readsFromEnd (ih f hf (hv' g hg))) (List.append_inj' h rfl).1
      exact ⟨hl, by simp [same, sameFields_iff.2 hfields]⟩
    | _ => simp [closing] at hclosing

end Validator

end PropTables
