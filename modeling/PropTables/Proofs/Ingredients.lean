import PropTables.Proofs.Derivations

/-! What values are made of. A value that a grammar derives from tokens is put together from some of
these tokens as its phrase says, so a property of all the tokens leads to one of the value. -/

namespace PropTables

variable {N : Type → Type} {α β : Type} {F : Token → Prop}

abbrev Meaning (N : Type → Type) : Type 1 :=
  ⦃α : Type⦄ → N α → α → Prop

namespace Phrase

def MadeOf (F : Token → Prop) (V : Meaning N) : {α : Type} → Phrase N α → α → Prop
  | _, .empty, _ => True
  | _, .token ts, t => t.terminal ∈ ts ∧ F t
  | _, .call n, v => V n v
  | _, .both a b, v => a.MadeOf F V v.1 ∧ b.MadeOf F V v.2
  | _, .either a b, v => a.MadeOf F V v ∨ b.MadeOf F V v
  | _, .maybe a, v => ∀ x ∈ v, a.MadeOf F V x
  | _, .many a, v => ∀ x ∈ v, a.MadeOf F V x
  | _, .list a _, v => ∀ x ∈ v, a.MadeOf F V x
  | _, .map f a, v => ∃ x, a.MadeOf F V x ∧ v = f x
  | _, .spanned a, v => a.MadeOf F V v.2

section Forms

variable {V : Meaning N} {a : Phrase N α} {b : Phrase N β}

@[simp] theorem madeOf_token {ts : List Terminal} {t : Token} :
    (token ts : Phrase N Token).MadeOf F V t ↔ t.terminal ∈ ts ∧ F t := Iff.rfl

@[simp] theorem madeOf_mark {m : Mark} {t : Token} :
    (mark m : Phrase N Token).MadeOf F V t ↔ t.terminal ∈ [.mark m] ∧ F t := Iff.rfl

@[simp] theorem madeOf_keyword {k : Keyword} {t : Token} :
    (keyword k : Phrase N Token).MadeOf F V t ↔ t.terminal ∈ [.keyword k] ∧ F t := Iff.rfl

@[simp] theorem madeOf_call {n : N α} {v : α} : (call n).MadeOf F V v ↔ V n v := Iff.rfl

@[simp] theorem madeOf_map {f : α → β} {v : β} :
    (f <$> a).MadeOf F V v ↔ ∃ x, a.MadeOf F V x ∧ v = f x := Iff.rfl

@[simp] theorem madeOf_seq {f : Phrase N (α → β)} {v : β} :
    (f <*> a).MadeOf F V v ↔ ∃ g x, f.MadeOf F V g ∧ a.MadeOf F V x ∧ v = g x :=
  ⟨fun ⟨p, ⟨hf, ha⟩, hv⟩ => ⟨p.1, p.2, hf, ha, hv⟩,
    fun ⟨g, x, hf, ha, hv⟩ => ⟨(g, x), ⟨hf, ha⟩, hv⟩⟩

@[simp] theorem madeOf_seqLeft {v : α} :
    (a <* b).MadeOf F V v ↔ a.MadeOf F V v ∧ ∃ x, b.MadeOf F V x :=
  ⟨fun ⟨p, ⟨ha, hb⟩, hv⟩ => ⟨hv ▸ ha, p.2, hb⟩, fun ⟨ha, x, hb⟩ => ⟨(v, x), ⟨ha, hb⟩, rfl⟩⟩

@[simp] theorem madeOf_seqRight {v : β} :
    (a *> b).MadeOf F V v ↔ (∃ x, a.MadeOf F V x) ∧ b.MadeOf F V v :=
  ⟨fun ⟨p, ⟨ha, hb⟩, hv⟩ => ⟨⟨p.1, ha⟩, hv ▸ hb⟩, fun ⟨⟨x, ha⟩, hb⟩ => ⟨(x, v), ⟨ha, hb⟩, rfl⟩⟩

@[simp] theorem madeOf_orElse {a b : Phrase N α} {v : α} :
    (a <|> b).MadeOf F V v ↔ a.MadeOf F V v ∨ b.MadeOf F V v := Iff.rfl

@[simp] theorem madeOf_maybe {v : Option α} :
    (maybe a).MadeOf F V v ↔ ∀ x ∈ v, a.MadeOf F V x := Iff.rfl

@[simp] theorem madeOf_many {v : List α} :
    (many a).MadeOf F V v ↔ ∀ x ∈ v, a.MadeOf F V x := Iff.rfl

@[simp] theorem madeOf_list {v : List α} :
    (list a b).MadeOf F V v ↔ ∀ x ∈ v, a.MadeOf F V x := Iff.rfl

@[simp] theorem madeOf_spanned {v : Extent × α} :
    (spanned a).MadeOf F V v ↔ a.MadeOf F V v.2 := Iff.rfl

@[simp] theorem madeOf_listOrNone {v : List α} :
    (listOrNone a b).MadeOf F V v ↔ ∀ x ∈ v, a.MadeOf F V x := by
  refine ⟨?_, fun h => ⟨some v, fun y hy => Option.mem_some_iff.1 hy ▸ h, rfl⟩⟩
  rintro ⟨x, h, rfl⟩
  cases x with
  | none => exact nofun
  | some xs => exact h xs rfl

@[simp] theorem madeOf_present {v : Bool} :
    (present a).MadeOf F V v ↔ (v = true → ∃ x, a.MadeOf F V x) := by
  constructor
  · rintro ⟨x, h, rfl⟩ hsome
    obtain ⟨y, rfl⟩ := Option.isSome_iff_exists.1 hsome
    exact ⟨y, h y rfl⟩
  · intro h
    cases v with
    | false => exact ⟨none, nofun, rfl⟩
    | true =>
      obtain ⟨x, hx⟩ := h rfl
      exact ⟨some x, fun y hy => Option.mem_some_iff.1 hy ▸ hx, rfl⟩

end Forms

end Phrase

section Derivations

variable {D : Derivability N} {V : Meaning N} {R : Cursor → Cursor → α → Prop}
  {S : Cursor → Cursor → β → Prop} {P : α → Prop} {Q : β → Prop} {tokens : List Token}

def Uses (tokens : List Token) (R : Cursor → Cursor → α → Prop) (P : α → Prop) : Prop :=
  ∀ ⦃c d v⦄, R c d v → c.rest ⊆ tokens → d.rest ⊆ tokens ∧ P v

theorem Repeats.uses (hR : Uses tokens R P) : Uses tokens (Repeats R) fun xs => ∀ x ∈ xs, P x := by
  intro c d xs h
  induction h with
  | nil => exact fun hc => ⟨hc, nofun⟩
  | cons hx _ ih =>
    intro hc
    obtain ⟨he, hP⟩ := hR hx hc
    obtain ⟨hd, hPs⟩ := ih he
    exact ⟨hd, List.forall_mem_cons.2 ⟨hP, hPs⟩⟩

theorem Continues.uses (hR : Uses tokens R P) (hS : Uses tokens S Q) :
    Uses tokens (Continues R S) fun xs => ∀ x ∈ xs, P x := by
  intro c d xs h
  induction h with
  | nil => exact fun hc => ⟨hc, nofun⟩
  | last hs => exact fun hc => ⟨(hS hs hc).1, nofun⟩
  | cons hs hx _ ih =>
    intro hc
    obtain ⟨hf, hP⟩ := hR hx (hS hs hc).1
    obtain ⟨hd, hPs⟩ := ih hf
    exact ⟨hd, List.forall_mem_cons.2 ⟨hP, hPs⟩⟩

theorem Cursor.Takes.uses {c d : Cursor} {ts : List Terminal} {t : Token} (h : c.Takes ts t d)
    (hc : c.rest ⊆ tokens) : d.rest ⊆ tokens ∧ t.terminal ∈ ts ∧ t ∈ tokens := by
  obtain ⟨hterminal, hrest, -⟩ := h
  rw [hrest, List.cons_subset] at hc
  exact ⟨hc.2, hterminal, hc.1⟩

theorem Phrase.Derives.uses (hF : ∀ t ∈ tokens, F t)
    (hD : ∀ ⦃γ : Type⦄ (n : N γ), Uses tokens (D n) (V n)) (a : Phrase N α) :
    Uses tokens (a.Derives D) (a.MadeOf F V) := by
  induction a with
  | empty =>
    rintro c d v rfl hc
    exact ⟨hc, trivial⟩
  | token ts =>
    intro c d t h hc
    obtain ⟨hd, hterminal, hmem⟩ := Cursor.Takes.uses h hc
    exact ⟨hd, hterminal, hF t hmem⟩
  | call n => exact hD n
  | both a b iha ihb =>
    rintro c d v ⟨e, ha, hb⟩ hc
    obtain ⟨he, hv⟩ := iha ha hc
    obtain ⟨hd, hw⟩ := ihb hb he
    exact ⟨hd, hv, hw⟩
  | either a b iha ihb =>
    rintro c d v (h | h) hc
    · exact (iha h hc).imp_right .inl
    · exact (ihb h hc).imp_right .inr
  | maybe a iha =>
    rintro c d v (⟨rfl, rfl⟩ | ⟨x, rfl, h⟩) hc
    · exact ⟨hc, nofun⟩
    · exact (iha h hc).imp_right fun hx y hy => Option.mem_some_iff.1 hy ▸ hx
  | many a iha => exact Repeats.uses iha
  | list a s iha ihs =>
    rintro c d v ⟨e, x, xs, hx, hxs, rfl⟩ hc
    obtain ⟨he, hP⟩ := iha hx hc
    obtain ⟨hd, hPs⟩ := Continues.uses iha ihs hxs he
    exact ⟨hd, List.forall_mem_cons.2 ⟨hP, hPs⟩⟩
  | map f a iha =>
    rintro c d v ⟨x, hx, rfl⟩ hc
    exact (iha hx hc).imp_right fun h => ⟨x, h, rfl⟩
  | spanned a iha =>
    rintro c d v ⟨h, -⟩ hc
    exact iha h hc

theorem Rules.Derives.uses {rules : Rules N} {ends : Endings N} (hF : ∀ t ∈ tokens, F t)
    (step : ∀ ⦃γ : Type⦄ (n : N γ) v, (rules n).MadeOf F V v → V n v) (n : N α) :
    Uses tokens (rules.Derives ends n) (V n) := by
  intro c d v h
  refine h.induction (P := fun _ m c d x => c.rest ⊆ tokens → d.rest ⊆ tokens ∧ V m x) ?_
  intro γ m c d x _ h hc
  exact (Phrase.Derives.uses hF (fun _ _ _ _ _ h => h.2) (rules m) h hc).imp_right (step m x)

end Derivations

end PropTables
