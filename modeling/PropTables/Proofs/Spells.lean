import Mathlib.Data.List.Forall2
import PropTables.Proofs.Sources
import PropTables.Proofs.Printing

/-! Words that are read as a phrase. What is read has a given property, and where a phrase may end can
depend on the words behind it. -/

namespace PropTables

open List (Forall₂)
open Phrase (maybe)

def Cursor.words (c : Cursor) : List Word :=
  c.rest.map Token.word

abbrev Following := List Word → Prop

namespace Following

def free : Following :=
  fun _ => True

def quiet : Following :=
  fun ws => ∀ w ∈ ws.head?, w.1 ∉ [Terminal.mark .openBracket, .mark .ampersand, .mark .bar]

end Following

open Following (free quiet)

namespace Phrase

variable {F G : Following} {α β : Type} {a : Phrase Construct α} {b : Phrase Construct β}
  {ws vs : List Word} {P R : α → Prop} {Q : β → Prop}

/-- Where the words stand before others that may follow, they are read as the phrase, with a value of the
given kind. -/
def Spells (F : Following) (a : Phrase Construct α) (ws : List Word) (P : α → Prop) : Prop :=
  ∀ ⦃c us⦄, F us → c.words = ws ++ us → ∃ d v, a.Derives Written c d v ∧ d.words = us ∧ P v

namespace Spells

theorem mono (h : Spells F a ws P) (hP : ∀ v, P v → R v) : Spells F a ws R := by
  intro c us hF hc
  obtain ⟨d, v, hd, hrest, hv⟩ := h hF hc
  exact ⟨d, v, hd, hrest, hP v hv⟩

theorem before (h : Spells G a ws P) (hF : ∀ us, F us → G us) : Spells F a ws P :=
  fun _ us hus hc => h (hF us hus) hc

theorem token {ts : List Terminal} {w : Word} (h : w.1 ∈ ts) :
    Spells F (.token ts) [w] (fun t => t.word = w) := by
  intro c us _ hc
  obtain ⟨t, rest, hrest, ht, hus⟩ := List.map_eq_cons_iff.1 hc
  have hterminal : t.terminal = w.1 := congrArg Prod.fst ht
  exact ⟨⟨t.extent.stop, rest⟩, t, ⟨hterminal ▸ h, hrest, rfl⟩, hus, ht⟩

theorem mark (m : Mark) : Spells F (.mark m) [m.word] (fun t => t.word = m.word) :=
  token (List.mem_singleton_self _)

theorem map {f : α → β} (h : Spells F a ws P) :
    Spells F (f <$> a) ws (fun w => ∃ v, P v ∧ w = f v) := by
  intro c us hF hc
  obtain ⟨d, v, hd, hrest, hv⟩ := h hF hc
  exact ⟨d, f v, ⟨v, hd, rfl⟩, hrest, v, hv, rfl⟩

theorem both (ha : Spells G a ws P) (hb : Spells F b vs Q) (hG : ∀ us, F us → G (vs ++ us)) :
    Spells F (.both a b) (ws ++ vs) (fun x => P x.1 ∧ Q x.2) := by
  intro c us hF hc
  rw [List.append_assoc] at hc
  obtain ⟨e, x, hx, he, hP⟩ := ha (hG us hF) hc
  obtain ⟨d, y, hy, hd, hQ⟩ := hb hF he
  exact ⟨d, (x, y), ⟨e, hx, hy⟩, hd, hP, hQ⟩

theorem seqBefore {f : Phrase Construct (α → β)} {P : (α → β) → Prop} {Q : α → Prop}
    (hf : Spells G f ws P) (ha : Spells F a vs Q) (hG : ∀ us, F us → G (vs ++ us)) :
    Spells F (f <*> a) (ws ++ vs) (fun w => ∃ g v, P g ∧ Q v ∧ w = g v) :=
  (map (both hf ha hG)).mono fun _ ⟨x, ⟨hP, hQ⟩, hw⟩ => ⟨x.1, x.2, hP, hQ, hw⟩

theorem seq {f : Phrase Construct (α → β)} {P : (α → β) → Prop} {Q : α → Prop}
    (hf : Spells free f ws P) (ha : Spells F a vs Q) :
    Spells F (f <*> a) (ws ++ vs) (fun w => ∃ g v, P g ∧ Q v ∧ w = g v) :=
  seqBefore hf ha fun _ _ => trivial

theorem seqLeftBefore (ha : Spells G a ws P) (hb : Spells F b vs Q)
    (hG : ∀ us, F us → G (vs ++ us)) : Spells F (a <* b) (ws ++ vs) P :=
  (map (both ha hb hG)).mono fun _ ⟨_, ⟨hP, _⟩, hw⟩ => hw ▸ hP

theorem seqLeft (ha : Spells free a ws P) (hb : Spells F b vs Q) :
    Spells F (a <* b) (ws ++ vs) P :=
  seqLeftBefore ha hb fun _ _ => trivial

theorem seqRight (ha : Spells free a ws P) (hb : Spells F b vs Q) :
    Spells F (a *> b) (ws ++ vs) Q :=
  (map (both ha hb fun _ _ => trivial)).mono fun _ ⟨_, ⟨_, hQ⟩, hw⟩ => hw ▸ hQ

theorem closed {m : Mark} (ha : Spells quiet a ws P) (hm : m ∉ [.openBracket, .ampersand, .bar]) :
    Spells F (a <* .mark m) (ws ++ [m.word]) P := by
  have hquiet (us : List Word) : quiet (m.word :: us) := by
    intro w hw
    cases hw
    simpa using hm
  exact seqLeftBefore ha (mark m) fun us _ => hquiet us

theorem orLeft {b : Phrase Construct α} (h : Spells F a ws P) : Spells F (a <|> b) ws P := by
  intro c us hF hc
  obtain ⟨d, v, hd, hv⟩ := h hF hc
  exact ⟨d, v, .inl hd, hv⟩

theorem orRight {b : Phrase Construct α} (h : Spells F b ws P) : Spells F (a <|> b) ws P := by
  intro c us hF hc
  obtain ⟨d, v, hd, hv⟩ := h hF hc
  exact ⟨d, v, .inr hd, hv⟩

theorem maybeNone : Spells F (maybe a) [] (· = none) :=
  fun c _ _ hc => ⟨c, _, .inl ⟨rfl, rfl⟩, hc, rfl⟩

theorem maybeSome (h : Spells F a ws P) : Spells F (maybe a) ws (fun o => ∃ v, P v ∧ o = some v) := by
  intro c us hF hc
  obtain ⟨d, v, hd, hrest, hv⟩ := h hF hc
  exact ⟨d, _, .inr ⟨v, rfl, hd⟩, hrest, v, hv, rfl⟩

theorem absent : Spells F (.present a) [] (· = false) :=
  (map maybeNone).mono fun _ ⟨_, ho, hw⟩ => by rw [hw, ho, Option.isSome_none]

theorem present (h : Spells F a ws P) : Spells F (.present a) ws (· = true) :=
  (map (maybeSome h)).mono fun _ ⟨_, ⟨_, _, ho⟩, hw⟩ => by rw [hw, ho, Option.isSome_some]

theorem spanned (h : Spells F a ws P) : Spells F (.spanned a) ws (fun v => P v.2) := by
  intro c us hF hc
  obtain ⟨d, v, hd, hrest, hv⟩ := h hF hc
  exact ⟨d, (⟨c.start, d.last⟩, v), ⟨hd, rfl⟩, hrest, hv⟩

theorem call {n : Construct α} (h : Spells F n.rule ws P)
    (hends : ∀ ts : List Token, F (ts.map Token.word) → n.greedy ts) : Spells F (.call n) ws P := by
  intro c us hF hc
  obtain ⟨d, v, hd, hrest, hv⟩ := h hF hc
  exact ⟨d, v, written_iff.2 ⟨hends d.rest (by rwa [← hrest] at hF), hd⟩, hrest, hv⟩

section Rows

variable {ι : Type} {item : ι → List Word} {P : ι → α → Prop} {items : List ι}

theorem many (h : ∀ x ∈ items, Spells free a (item x) (P x)) :
    Spells free (.many a) (items.flatMap item) (Forall₂ P items) := by
  induction items with
  | nil => exact fun c _ _ hc => ⟨c, [], .nil, hc, .nil⟩
  | cons x items ih =>
    intro c us _ hc
    rw [List.flatMap_cons, List.append_assoc] at hc
    obtain ⟨e, v, hv, he, hP⟩ := h x List.mem_cons_self trivial hc
    obtain ⟨d, vs, hvs, hd, hPs⟩ := ih (fun y hy => h y (List.mem_cons_of_mem _ hy)) trivial he
    exact ⟨d, v :: vs, .cons hv hvs, hd, .cons hP hPs⟩

theorem list {x : ι} {w : Word} {Q : β → Prop} (hw : ∀ us, quiet (w :: us))
    (hb : Spells free b [w] Q) (h : ∀ y ∈ x :: items, Spells quiet a (item y) (P y)) :
    Spells quiet (.list a b) (item x ++ items.flatMap fun y => w :: item y)
      (Forall₂ P (x :: items)) := by
  -- behind an item there is a separator, or what follows the whole
  have hquiet (items : List ι) : ∀ us, quiet us → quiet ((items.flatMap fun y => w :: item y) ++ us) := by
    cases items with
    | nil => exact fun _ hus => hus
    | cons y items => exact fun us _ => hw _
  have hrest : ∀ {c us}, quiet us → c.words = (items.flatMap fun y => w :: item y) ++ us →
      ∃ d vs, Continues (a.Derives Written) (b.Derives Written) c d vs ∧ d.words = us ∧
        Forall₂ P items vs := by
    have hitems := fun y hy => h y (List.mem_cons_of_mem _ hy)
    clear h
    induction items with
    | nil => exact fun {c us} _ hc => ⟨c, [], .nil, hc, .nil⟩
    | cons y items ih =>
      intro c us hus hc
      rw [List.flatMap_cons, List.append_assoc, List.cons_append] at hc
      obtain ⟨e, s, hs, he, -⟩ := hb trivial hc
      obtain ⟨f, v, hv, hf, hP⟩ := hitems y List.mem_cons_self (hquiet items us hus) he
      obtain ⟨d, vs, hvs, hd, hPs⟩ := ih (fun y hy => hitems y (List.mem_cons_of_mem _ hy)) hus hf
      exact ⟨d, v :: vs, .cons hs hv hvs, hd, .cons hP hPs⟩
  intro c us hus hc
  rw [List.append_assoc] at hc
  obtain ⟨e, v, hv, he, hP⟩ := h x List.mem_cons_self (hquiet items us hus) hc
  obtain ⟨d, vs, hvs, hd, hPs⟩ := hrest hus he
  exact ⟨d, v :: vs, ⟨e, v, vs, hv, hvs, rfl⟩, hd, .cons hP hPs⟩

end Rows

end Spells

def Shows (F : Following) (a : Phrase Construct α) (text : List Char) (P : α → Prop) : Prop :=
  ∃ ws, Open text ws ∧ Spells F a ws P

namespace Shows

variable {ι : Type} {text : ι → String} {P : ι → α → Prop} {items : List ι}

theorem mono {text : List Char} {P R : α → Prop} (h : Shows F a text P) (hP : ∀ v, P v → R v) :
    Shows F a text R :=
  let ⟨ws, hopen, h⟩ := h
  ⟨ws, hopen, h.mono hP⟩

theorem list {Q : β → Prop} (hb : Spells free b [Mark.comma.word] Q) (hne : items ≠ [])
    (h : ∀ x ∈ items, Shows quiet a (text x).toList (P x)) :
    Shows quiet (.list a b) (commas (items.map text)).toList (Forall₂ P items) := by
  choose! words hopen hspells using h
  obtain ⟨x, items, rfl⟩ := List.exists_cons_of_ne_nil hne
  have hcomma : Closed ", ".toList [Mark.comma.word] := .mark_blank .comma
  obtain ⟨hstops, hrest⟩ := Open.rows hcomma ⟨',', rfl, by decide⟩ fun y (hy : y ∈ items) =>
    hopen y (List.mem_cons_of_mem _ hy)
  refine ⟨words x ++ items.flatMap fun y => Mark.comma.word :: words y, ?_, ?_⟩
  · rw [commas, List.map_cons, intercalate_cons, List.flatMap_map]
    exact (hopen x List.mem_cons_self).append hstops hrest
  · exact .list (fun us w hw => by cases hw; decide) hb hspells

theorem orNone {c : Phrase Construct (List α)}
    (h : items ≠ [] → Shows quiet c (commas (items.map text)).toList (Forall₂ P items)) :
    Shows quiet ((Option.getD · []) <$> maybe c) (commas (items.map text)).toList
      (Forall₂ P items) := by
  by_cases hne : items = []
  · subst hne
    refine ⟨[], Closed.nil.open, (Spells.map .maybeNone).mono ?_⟩
    rintro _ ⟨_, rfl, rfl⟩
    exact .nil
  · obtain ⟨ws, hopen, hspells⟩ := h hne
    refine ⟨ws, hopen, (Spells.map (.maybeSome hspells)).mono ?_⟩
    rintro _ ⟨_, ⟨vs, hvs, rfl⟩, rfl⟩
    exact hvs

theorem listOrNone {Q : β → Prop} (hb : Spells free b [Mark.comma.word] Q)
    (h : ∀ x ∈ items, Shows quiet a (text x).toList (P x)) :
    Shows quiet (.listOrNone a b) (commas (items.map text)).toList (Forall₂ P items) :=
  orNone fun hne => list hb hne h

theorem operands {m : Mark} {x : ι} (h : ∀ y ∈ x :: items, Shows free a (text y).toList (P y)) :
    ∃ ws vs, Open ((" " ++ m.spelling ++ " ").intercalate ((x :: items).map text)).toList (ws ++ vs) ∧
      Spells free a ws (P x) ∧ Spells free (.many (.mark m *> a)) vs (Forall₂ P items) := by
  choose! words hopen hspells using h
  have hmark : Closed (" " ++ m.spelling ++ " ").toList [m.word] := by
    simp only [String.toList_append]
    exact .blank_cons rfl (.mark_blank m)
  obtain ⟨hstops, hrest⟩ := Open.rows hmark ⟨' ', by simp, by decide⟩ fun y (hy : y ∈ items) =>
    hopen y (List.mem_cons_of_mem _ hy)
  refine ⟨words x, items.flatMap fun y => m.word :: words y, ?_, hspells x List.mem_cons_self, ?_⟩
  · rw [List.map_cons, intercalate_cons, List.flatMap_map]
    exact (hopen x List.mem_cons_self).append hstops hrest
  · refine .many fun y hy => ?_
    exact (Spells.mark m).seqRight (hspells y (List.mem_cons_of_mem _ hy))

end Shows

end Phrase

end PropTables
