import Mathlib.Data.List.Forall2
import PropTables.Proofs.Derivations
import PropTables.Proofs.Lexemes

/-! Tokens with the same words in other places. Whatever is derived from the one is derived from the
other, with a value that differs from the first one only as the tokens do. -/

namespace PropTables

variable {N : Type → Type} {α β γ : Type}

def Cursor.Echoes (c c' : Cursor) : Prop :=
  c.rest.map Token.word = c'.rest.map Token.word

abbrev Matching (N : Type → Type) : Type 1 :=
  ⦃α : Type⦄ → N α → α → α → Prop

namespace Phrase

def Matches (V : Matching N) : {α : Type} → Phrase N α → α → α → Prop
  | _, .empty, _, _ => True
  | _, .token _, t, u => t.word = u.word
  | _, .call n, v, w => V n v w
  | _, .both a b, v, w => a.Matches V v.1 w.1 ∧ b.Matches V v.2 w.2
  | _, .either a b, v, w => a.Matches V v w ∨ b.Matches V v w
  | _, .maybe a, v, w => Option.Rel (a.Matches V) v w
  | _, .many a, v, w => List.Forall₂ (a.Matches V) v w
  | _, .list a _, v, w => List.Forall₂ (a.Matches V) v w
  | _, .map f a, v, w => ∃ x y, a.Matches V x y ∧ v = f x ∧ w = f y
  | _, .spanned a, v, w => a.Matches V v.2 w.2

section Forms

variable {V : Matching N} {a : Phrase N α} {b : Phrase N β}

@[simp] theorem matches_token {ts : List Terminal} {t u : Token} :
    (token ts : Phrase N Token).Matches V t u ↔ t.word = u.word := Iff.rfl

@[simp] theorem matches_mark {m : Mark} {t u : Token} :
    (mark m : Phrase N Token).Matches V t u ↔ t.word = u.word := Iff.rfl

@[simp] theorem matches_keyword {k : Keyword} {t u : Token} :
    (keyword k : Phrase N Token).Matches V t u ↔ t.word = u.word := Iff.rfl

@[simp] theorem matches_call {n : N α} {v w : α} : (call n).Matches V v w ↔ V n v w := Iff.rfl

@[simp] theorem matches_map {f : α → β} {v w : β} :
    (f <$> a).Matches V v w ↔ ∃ x y, a.Matches V x y ∧ v = f x ∧ w = f y := Iff.rfl

@[simp] theorem matches_seq {f : Phrase N (α → β)} {v w : β} :
    (f <*> a).Matches V v w ↔
      ∃ g h x y, f.Matches V g h ∧ a.Matches V x y ∧ v = g x ∧ w = h y :=
  ⟨fun ⟨p, q, ⟨hf, ha⟩, hv, hw⟩ => ⟨p.1, q.1, p.2, q.2, hf, ha, hv, hw⟩,
    fun ⟨g, h, x, y, hf, ha, hv, hw⟩ => ⟨(g, x), (h, y), ⟨hf, ha⟩, hv, hw⟩⟩

@[simp] theorem matches_seqLeft {v w : α} :
    (a <* b).Matches V v w ↔ a.Matches V v w ∧ ∃ x y, b.Matches V x y :=
  ⟨fun ⟨p, q, ⟨ha, hb⟩, hv, hw⟩ => ⟨hv ▸ hw ▸ ha, p.2, q.2, hb⟩,
    fun ⟨ha, x, y, hb⟩ => ⟨(v, x), (w, y), ⟨ha, hb⟩, rfl, rfl⟩⟩

@[simp] theorem matches_seqRight {v w : β} :
    (a *> b).Matches V v w ↔ (∃ x y, a.Matches V x y) ∧ b.Matches V v w :=
  ⟨fun ⟨p, q, ⟨ha, hb⟩, hv, hw⟩ => ⟨⟨p.1, q.1, ha⟩, hv ▸ hw ▸ hb⟩,
    fun ⟨⟨x, y, ha⟩, hb⟩ => ⟨(x, v), (y, w), ⟨ha, hb⟩, rfl, rfl⟩⟩

@[simp] theorem matches_orElse {a b : Phrase N α} {v w : α} :
    (a <|> b).Matches V v w ↔ a.Matches V v w ∨ b.Matches V v w := Iff.rfl

@[simp] theorem matches_maybe {v w : Option α} :
    (maybe a).Matches V v w ↔ Option.Rel (a.Matches V) v w := Iff.rfl

@[simp] theorem matches_many {v w : List α} :
    (many a).Matches V v w ↔ List.Forall₂ (a.Matches V) v w := Iff.rfl

@[simp] theorem matches_list {v w : List α} :
    (list a b).Matches V v w ↔ List.Forall₂ (a.Matches V) v w := Iff.rfl

@[simp] theorem matches_spanned {v w : Extent × α} :
    (spanned a).Matches V v w ↔ a.Matches V v.2 w.2 := Iff.rfl

@[simp] theorem matches_listOrNone {v w : List α} :
    (listOrNone a b).Matches V v w ↔ List.Forall₂ (a.Matches V) v w := by
  refine ⟨?_, fun h => ⟨some v, some w, .some h, rfl, rfl⟩⟩
  rintro ⟨x, y, hxy, rfl, rfl⟩
  cases hxy with
  | none => exact .nil
  | some h => exact h

@[simp] theorem matches_present {v w : Bool} :
    (present a).Matches V v w ↔ v = w ∧ (v = true → ∃ x y, a.Matches V x y) := by
  constructor
  · rintro ⟨x, y, hxy, rfl, rfl⟩
    cases hxy with
    | none => exact ⟨rfl, nofun⟩
    | some h => exact ⟨rfl, fun _ => ⟨_, _, h⟩⟩
  · rintro ⟨rfl, h⟩
    cases v with
    | false => exact ⟨none, none, .none, rfl, rfl⟩
    | true =>
      obtain ⟨x, y, hxy⟩ := h rfl
      exact ⟨some x, some y, .some hxy, rfl, rfl⟩

end Forms

end Phrase

namespace Cursor

variable {c c' d : Cursor} {t : Token} {ts : List Terminal}

theorem Takes.reread (h : c.Takes ts t d) (hc : c.Echoes c') :
    ∃ d' u, c'.Takes ts u d' ∧ d.Echoes d' ∧ t.word = u.word := by
  obtain ⟨hterminal, hrest, -⟩ := h
  have hwords : c'.rest.map Token.word = t.word :: d.rest.map Token.word := by
    rw [← hc, hrest, List.map_cons]
  obtain ⟨u, us, hus, hu, hrest'⟩ := List.map_eq_cons_iff.1 hwords
  have hsame : t.terminal = u.terminal := congrArg Prod.fst hu.symm
  exact ⟨⟨u.extent.stop, us⟩, u, ⟨hsame ▸ hterminal, hus, rfl⟩, hrest'.symm, hu.symm⟩

end Cursor

section Rereading

variable {D D' : Derivability N} {V : Matching N} {R R' : Cursor → Cursor → α → Prop}
  {S S' : Cursor → Cursor → β → Prop} {P : α → α → Prop} {Q : β → β → Prop} {c c' d : Cursor}

def Rereads (R R' : Cursor → Cursor → α → Prop) (P : α → α → Prop) : Prop :=
  ∀ ⦃c d v⦄, R c d v → ∀ ⦃c'⦄, c.Echoes c' → ∃ d' w, R' c' d' w ∧ d.Echoes d' ∧ P v w

theorem Repeats.reread (hR : Rereads R R' P) :
    Rereads (Repeats R) (Repeats R') (List.Forall₂ P) := by
  intro c d xs h
  induction h with
  | nil => exact fun c' hc => ⟨c', [], .nil, hc, .nil⟩
  | cons hx _ ih =>
    intro c' hc
    obtain ⟨e', y, hy, he, hP⟩ := hR hx hc
    obtain ⟨d', ys, hys, hd, hPs⟩ := ih he
    exact ⟨d', y :: ys, .cons hy hys, hd, .cons hP hPs⟩

theorem Continues.reread (hR : Rereads R R' P) (hS : Rereads S S' Q) :
    Rereads (Continues R S) (Continues R' S') (List.Forall₂ P) := by
  intro c d xs h
  induction h with
  | nil => exact fun c' hc => ⟨c', [], .nil, hc, .nil⟩
  | last hs =>
    intro c' hc
    obtain ⟨d', s', hs', hd, -⟩ := hS hs hc
    exact ⟨d', [], .last hs', hd, .nil⟩
  | cons hs hx _ ih =>
    intro c' hc
    obtain ⟨e', s', hs', he, -⟩ := hS hs hc
    obtain ⟨f', y, hy, hf, hP⟩ := hR hx he
    obtain ⟨d', ys, hys, hd, hPs⟩ := ih hf
    exact ⟨d', y :: ys, .cons hs' hy hys, hd, .cons hP hPs⟩

theorem Phrase.Derives.reread (hD : ∀ ⦃γ : Type⦄ (n : N γ), Rereads (D n) (D' n) (V n))
    (a : Phrase N α) : Rereads (a.Derives D) (a.Derives D') (a.Matches V) := by
  induction a with
  | empty =>
    rintro c d v rfl c' hc
    exact ⟨c', v, rfl, hc, trivial⟩
  | token ts => exact fun c d v h c' hc => Cursor.Takes.reread h hc
  | call n => exact hD n
  | both a b iha ihb =>
    rintro c d v ⟨e, ha, hb⟩ c' hc
    obtain ⟨e', x, hx, he, hxy⟩ := iha ha hc
    obtain ⟨d', y, hy, hd, hyz⟩ := ihb hb he
    exact ⟨d', (x, y), ⟨e', hx, hy⟩, hd, hxy, hyz⟩
  | either a b iha ihb =>
    rintro c d v (h | h) c' hc
    · obtain ⟨d', w, hw, hd, hvw⟩ := iha h hc
      exact ⟨d', w, .inl hw, hd, .inl hvw⟩
    · obtain ⟨d', w, hw, hd, hvw⟩ := ihb h hc
      exact ⟨d', w, .inr hw, hd, .inr hvw⟩
  | maybe a iha =>
    rintro c d v (⟨rfl, rfl⟩ | ⟨x, rfl, h⟩) c' hc
    · exact ⟨c', none, .inl ⟨rfl, rfl⟩, hc, .none⟩
    · obtain ⟨d', w, hw, hd, hvw⟩ := iha h hc
      exact ⟨d', some w, .inr ⟨w, rfl, hw⟩, hd, .some hvw⟩
  | many a iha => exact Repeats.reread iha
  | list a s iha ihs =>
    rintro c d v ⟨e, x, xs, hx, hxs, rfl⟩ c' hc
    obtain ⟨e', y, hy, he, hxy⟩ := iha hx hc
    obtain ⟨d', ys, hys, hd, hxys⟩ := Continues.reread iha ihs hxs he
    exact ⟨d', y :: ys, ⟨e', y, ys, hy, hys, rfl⟩, hd, .cons hxy hxys⟩
  | map f a iha =>
    rintro c d v ⟨x, hx, rfl⟩ c' hc
    obtain ⟨d', y, hy, hd, hxy⟩ := iha hx hc
    exact ⟨d', f y, ⟨y, hy, rfl⟩, hd, x, y, hxy, rfl, rfl⟩
  | spanned a iha =>
    rintro c d ⟨extent, v⟩ ⟨h, -⟩ c' hc
    obtain ⟨d', w, hw, hd, hvw⟩ := iha h hc
    exact ⟨d', (⟨c'.start, d'.last⟩, w), ⟨hw, rfl⟩, hd, hvw⟩

theorem Rules.Derives.reread {rules : Rules N} {ends : Endings N}
    (hends : ∀ ⦃γ : Type⦄ (n : N γ) (ts us : List Token), ts.map Token.word = us.map Token.word →
      ends n ts → ends n us)
    (step : ∀ ⦃γ : Type⦄ (n : N γ) v w, (rules n).Matches V v w → V n v w) (n : N α) :
    Rereads (rules.Derives ends n) (rules.Derives ends n) (V n) := by
  intro c d v h
  refine h.induction (P := fun _ m c d x => ∀ ⦃c'⦄, c.Echoes c' →
    ∃ d' w, rules.Derives ends m c' d' w ∧ d.Echoes d' ∧ V m x w) ?_
  intro γ m c d x hend h c' hc
  obtain ⟨d', w, hw, hd, hvw⟩ :=
    Phrase.Derives.reread (fun _ _ _ _ _ h => h.2) (rules m) h hc
  exact ⟨d', w, Rules.derives_iff.2 ⟨hends m _ _ hd hend, hw⟩, hd, step m x w hvw⟩

end Rereading

end PropTables
