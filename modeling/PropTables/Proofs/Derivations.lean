import PropTables.Grammar.Reading

/-! Derivations by a grammar. A phrase is derived between two cursors if the tokens between them can be
taken apart as it says, whatever the token behind them; a nonterminal is derived by a tree of finite
height. Where a nonterminal may end can be restricted by the tokens that are left. -/

namespace PropTables

variable {N : Type → Type} {α β : Type}

def Cursor.Takes (c : Cursor) (ts : List Terminal) (t : Token) (d : Cursor) : Prop :=
  t.terminal ∈ ts ∧ c.rest = t :: d.rest ∧ d.last = t.extent.stop

theorem Cursor.Takes.start_eq {c d : Cursor} {ts : List Terminal} {t : Token}
    (h : c.Takes ts t d) : c.start = t.start := by
  simp [Cursor.start, h.2.1]

theorem Cursor.Takes.mono {c d : Cursor} {ts us : List Terminal} {t : Token}
    (h : c.Takes ts t d) (hsub : ts ⊆ us) : c.Takes us t d :=
  ⟨hsub h.1, h.2⟩

def Perhaps (R : Cursor → Cursor → α → Prop) (c d : Cursor) (v : Option α) : Prop :=
  (v = none ∧ c = d) ∨ ∃ x, v = some x ∧ R c d x

inductive Repeats (R : Cursor → Cursor → α → Prop) : Cursor → Cursor → List α → Prop
  | nil : Repeats R c c []
  | cons (hx : R c e x) (hxs : Repeats R e d xs) : Repeats R c d (x :: xs)

/-- What follows the first item of a list: separators with an item behind each of them but maybe the
last. -/
inductive Continues (R : Cursor → Cursor → α → Prop) (S : Cursor → Cursor → β → Prop) :
    Cursor → Cursor → List α → Prop
  | nil : Continues R S c c []
  | last (hs : S c d s) : Continues R S c d []
  | cons (hs : S c e s) (hx : R e f x) (hxs : Continues R S f d xs) : Continues R S c d (x :: xs)

section Repetition

variable {R R' : Cursor → Cursor → α → Prop} {S S' : Cursor → Cursor → β → Prop} {c d e : Cursor}
  {xs ys : List α}

theorem Repeats.mono (h : ∀ c d x, R c d x → R' c d x) (hxs : Repeats R c d xs) :
    Repeats R' c d xs := by
  induction hxs with
  | nil => exact .nil
  | cons hx _ ih => exact .cons (h _ _ _ hx) ih

theorem Repeats.map {f : α → β} {R : Cursor → Cursor → α → Prop} {S : Cursor → Cursor → β → Prop}
    (h : ∀ c d x, R c d x → S c d (f x)) (hxs : Repeats R c d xs) : Repeats S c d (xs.map f) := by
  induction hxs with
  | nil => exact .nil
  | cons hx _ ih => exact .cons (h _ _ _ hx) ih

theorem Continues.mono (h : ∀ c d x, R c d x → R' c d x) (hs : ∀ c d x, S c d x → S' c d x)
    (hxs : Continues R S c d xs) : Continues R' S' c d xs := by
  induction hxs with
  | nil => exact .nil
  | last hx => exact .last (hs _ _ _ hx)
  | cons hx hy _ ih => exact .cons (hs _ _ _ hx) (h _ _ _ hy) ih

theorem Repeats.choose {Q : Prop}
    (hxs : Repeats (fun c d x => ∃ w, R c d w ∧ (Q → w = x)) c d xs) :
    ∃ ws, Repeats R c d ws ∧ (Q → ws = xs) := by
  induction hxs with
  | nil => exact ⟨[], .nil, fun _ => rfl⟩
  | cons hx _ ih =>
    obtain ⟨w, hw, hq⟩ := hx
    obtain ⟨ws, hws, hqs⟩ := ih
    exact ⟨w :: ws, .cons hw hws, fun q => by rw [hq q, hqs q]⟩

theorem Continues.choose {Q : Prop}
    (hxs : Continues (fun c d x => ∃ w, R c d w ∧ (Q → w = x)) (fun c d y => ∃ w, S c d w ∧ (Q → w = y))
      c d xs) :
    ∃ ws, Continues R S c d ws ∧ (Q → ws = xs) := by
  induction hxs with
  | nil => exact ⟨[], .nil, fun _ => rfl⟩
  | last hs =>
    obtain ⟨_, hs, _⟩ := hs
    exact ⟨[], .last hs, fun _ => rfl⟩
  | cons hs hx _ ih =>
    obtain ⟨_, hs, _⟩ := hs
    obtain ⟨w, hw, hq⟩ := hx
    obtain ⟨ws, hws, hqs⟩ := ih
    exact ⟨w :: ws, .cons hs hw hws, fun q => by rw [hq q, hqs q]⟩

theorem Repeats.within {R : Nat → Cursor → Cursor → α → Prop}
    (hxs : Repeats (fun c d x => ∃ k, R k c d x) c d xs)
    (raise : ∀ {k k' c d x}, k ≤ k' → R k c d x → R k' c d x) : ∃ k, Repeats (R k) c d xs := by
  induction hxs with
  | nil => exact ⟨0, .nil⟩
  | cons hx _ ih =>
    obtain ⟨k, hx⟩ := hx
    obtain ⟨k', hxs⟩ := ih
    exact ⟨max k k', .cons (raise (Nat.le_max_left ..) hx)
      (hxs.mono fun _ _ _ => raise (Nat.le_max_right ..))⟩

theorem Continues.within {R : Nat → Cursor → Cursor → α → Prop} {S : Nat → Cursor → Cursor → β → Prop}
    (hxs : Continues (fun c d x => ∃ k, R k c d x) (fun c d y => ∃ k, S k c d y) c d xs)
    (raise : ∀ {k k' c d x}, k ≤ k' → R k c d x → R k' c d x)
    (raiseS : ∀ {k k' c d y}, k ≤ k' → S k c d y → S k' c d y) :
    ∃ k, Continues (R k) (S k) c d xs := by
  induction hxs with
  | nil => exact ⟨0, .nil⟩
  | last hs => exact hs.imp fun _ => .last
  | cons hs hx _ ih =>
    obtain ⟨k₁, hs⟩ := hs
    obtain ⟨k₂, hx⟩ := hx
    obtain ⟨k₃, hxs⟩ := ih
    exact ⟨max k₁ (max k₂ k₃), .cons (raiseS (by omega) hs) (raise (by omega) hx)
      (hxs.mono (fun _ _ _ => raise (by omega)) (fun _ _ _ => raiseS (by omega)))⟩

end Repetition

theorem exists_perhaps {R : Cursor → Cursor → α → Prop} {c : Cursor}
    {K : Cursor → Option α → Prop} :
    (∃ e x, Perhaps R c e x ∧ K e x) ↔ K c none ∨ ∃ e x, R c e x ∧ K e (some x) := by
  constructor
  · rintro ⟨e, _, ⟨rfl, rfl⟩ | ⟨x, rfl, hx⟩, hk⟩
    · exact .inl hk
    · exact .inr ⟨e, x, hx, hk⟩
  · rintro (hk | ⟨e, x, hx, hk⟩)
    · exact ⟨c, none, .inl ⟨rfl, rfl⟩, hk⟩
    · exact ⟨e, some x, .inr ⟨x, rfl, hx⟩, hk⟩

theorem exists_repeats {R : Cursor → Cursor → α → Prop} {c : Cursor}
    {K : Cursor → List α → Prop} :
    (∃ d xs, Repeats R c d xs ∧ K d xs) ↔
      K c [] ∨ ∃ e x, R c e x ∧ ∃ d xs, Repeats R e d xs ∧ K d (x :: xs) := by
  constructor
  · rintro ⟨d, _, _ | ⟨hx, hxs⟩, hk⟩
    · exact .inl hk
    · exact .inr ⟨_, _, hx, d, _, hxs, hk⟩
  · rintro (hk | ⟨e, x, hx, d, xs, hxs, hk⟩)
    · exact ⟨c, [], .nil, hk⟩
    · exact ⟨d, x :: xs, .cons hx hxs, hk⟩

abbrev Derivability (N : Type → Type) : Type 1 :=
  ⦃α : Type⦄ → N α → Cursor → Cursor → α → Prop

def Phrase.Derives (D : Derivability N) : {α : Type} → Phrase N α → Cursor → Cursor → α → Prop
  | _, .empty, c, d, _ => c = d
  | _, .token ts, c, d, t => c.Takes ts t d
  | _, .call n, c, d, v => D n c d v
  | _, .both a b, c, d, v => ∃ e, a.Derives D c e v.1 ∧ b.Derives D e d v.2
  | _, .either a b, c, d, v => a.Derives D c d v ∨ b.Derives D c d v
  | _, .maybe a, c, d, v => Perhaps (a.Derives D) c d v
  | _, .many a, c, d, v => Repeats (a.Derives D) c d v
  | _, .list a s, c, d, v =>
    ∃ e x xs, a.Derives D c e x ∧ Continues (a.Derives D) (s.Derives D) e d xs ∧ v = x :: xs
  | _, .map f a, c, d, v => ∃ x, a.Derives D c d x ∧ v = f x
  | _, .spanned a, c, d, v => a.Derives D c d v.2 ∧ v.1 = ⟨c.start, d.last⟩

namespace Phrase

section Forms

variable {D : Derivability N} {c d : Cursor} {a : Phrase N α} {b : Phrase N β}

theorem derives_call {n : N α} {v : α} : (call n).Derives D c d v ↔ D n c d v := Iff.rfl

theorem derives_pure {v w : α} : (pure v : Phrase N α).Derives D c d w ↔ c = d ∧ w = v :=
  ⟨fun ⟨_, h, hv⟩ => ⟨h, hv⟩, fun ⟨h, hv⟩ => ⟨(), h, hv⟩⟩

theorem derives_seq {f : Phrase N (α → β)} {v : β} :
    (f <*> a).Derives D c d v ↔
      ∃ g e x, f.Derives D c e g ∧ a.Derives D e d x ∧ v = g x :=
  ⟨fun ⟨p, ⟨e, hf, ha⟩, hv⟩ => ⟨p.1, e, p.2, hf, ha, hv⟩,
    fun ⟨g, e, x, hf, ha, hv⟩ => ⟨(g, x), ⟨e, hf, ha⟩, hv⟩⟩

theorem derives_seqLeft {v : α} :
    (a <* b).Derives D c d v ↔ ∃ e x, a.Derives D c e v ∧ b.Derives D e d x :=
  ⟨fun ⟨p, ⟨e, ha, hb⟩, hv⟩ => ⟨e, p.2, hv ▸ ha, hb⟩, fun ⟨e, x, ha, hb⟩ => ⟨(v, x), ⟨e, ha, hb⟩, rfl⟩⟩

theorem derives_seqRight {v : β} :
    (a *> b).Derives D c d v ↔ ∃ e x, a.Derives D c e x ∧ b.Derives D e d v :=
  ⟨fun ⟨p, ⟨e, ha, hb⟩, hv⟩ => ⟨e, p.1, ha, hv ▸ hb⟩, fun ⟨e, x, ha, hb⟩ => ⟨(x, v), ⟨e, ha, hb⟩, rfl⟩⟩

theorem derives_orElse {a b : Phrase N α} {v : α} :
    (a <|> b).Derives D c d v ↔ a.Derives D c d v ∨ b.Derives D c d v := Iff.rfl

theorem derives_listOrNone {v : List α} :
    (listOrNone a b).Derives D c d v ↔ (v = [] ∧ c = d) ∨ (list a b).Derives D c d v := by
  constructor
  · rintro ⟨_, ⟨rfl, h⟩ | ⟨x, rfl, h⟩, rfl⟩
    · exact .inl ⟨rfl, h⟩
    · exact .inr h
  · rintro (⟨rfl, h⟩ | h)
    · exact ⟨none, .inl ⟨rfl, h⟩, rfl⟩
    · exact ⟨some v, .inr ⟨v, rfl, h⟩, rfl⟩

end Forms

def Then (D : Derivability N) (p : Phrase N α) (c : Cursor) (K : Cursor → α → Prop) : Prop :=
  ∃ e x, p.Derives D c e x ∧ K e x

section Sequences

variable {D : Derivability N} {c d : Cursor} {a : Phrase N α} {b : Phrase N β}

theorem derives_iff_then {v : α} : a.Derives D c d v ↔ a.Then D c fun e x => e = d ∧ x = v := by
  simp [Then]

theorem then_call {n : N α} {K : Cursor → α → Prop} :
    (call n).Then D c K ↔ ∃ e x, D n c e x ∧ K e x := Iff.rfl

@[simp] theorem then_token {ts : List Terminal} {K : Cursor → Token → Prop} :
    (token ts : Phrase N Token).Then D c K ↔ ∃ e t, c.Takes ts t e ∧ K e t := Iff.rfl

@[simp] theorem then_mark {m : Mark} {K : Cursor → Token → Prop} :
    (mark m : Phrase N Token).Then D c K ↔ ∃ e t, c.Takes [.mark m] t e ∧ K e t := Iff.rfl

@[simp] theorem then_keyword {k : Keyword} {K : Cursor → Token → Prop} :
    (keyword k : Phrase N Token).Then D c K ↔ ∃ e t, c.Takes [.keyword k] t e ∧ K e t := Iff.rfl

@[simp] theorem then_pure {v : α} {K : Cursor → α → Prop} :
    (pure v : Phrase N α).Then D c K ↔ K c v := by
  simp only [Then, derives_pure]
  constructor
  · rintro ⟨_, _, ⟨rfl, rfl⟩, hk⟩
    exact hk
  · exact fun hk => ⟨c, v, ⟨rfl, rfl⟩, hk⟩

@[simp] theorem then_map {f : α → β} {K : Cursor → β → Prop} :
    (f <$> a).Then D c K ↔ a.Then D c fun e x => K e (f x) := by
  constructor
  · rintro ⟨e, _, ⟨x, hx, rfl⟩, hk⟩
    exact ⟨e, x, hx, hk⟩
  · rintro ⟨e, x, hx, hk⟩
    exact ⟨e, f x, ⟨x, hx, rfl⟩, hk⟩

@[simp] theorem then_seq {f : Phrase N (α → β)} {K : Cursor → β → Prop} :
    (f <*> a).Then D c K ↔ f.Then D c fun e g => a.Then D e fun d x => K d (g x) := by
  simp only [Then, derives_seq]
  constructor
  · rintro ⟨d, _, ⟨g, e, x, hg, hx, rfl⟩, hk⟩
    exact ⟨e, g, hg, d, x, hx, hk⟩
  · rintro ⟨e, g, hg, d, x, hx, hk⟩
    exact ⟨d, g x, ⟨g, e, x, hg, hx, rfl⟩, hk⟩

@[simp] theorem then_seqLeft {K : Cursor → α → Prop} :
    (a <* b).Then D c K ↔ a.Then D c fun e x => b.Then D e fun d _ => K d x := by
  simp only [Then, derives_seqLeft]
  constructor
  · rintro ⟨d, x, ⟨e, y, hx, hy⟩, hk⟩
    exact ⟨e, x, hx, d, y, hy, hk⟩
  · rintro ⟨e, x, hx, d, y, hy, hk⟩
    exact ⟨d, x, ⟨e, y, hx, hy⟩, hk⟩

@[simp] theorem then_seqRight {K : Cursor → β → Prop} :
    (a *> b).Then D c K ↔ a.Then D c fun e _ => b.Then D e K := by
  simp only [Then, derives_seqRight]
  constructor
  · rintro ⟨d, y, ⟨e, x, hx, hy⟩, hk⟩
    exact ⟨e, x, hx, d, y, hy, hk⟩
  · rintro ⟨e, x, hx, d, y, hy, hk⟩
    exact ⟨d, y, ⟨e, x, hx, hy⟩, hk⟩

@[simp] theorem then_orElse {a b : Phrase N α} {K : Cursor → α → Prop} :
    (a <|> b).Then D c K ↔ a.Then D c K ∨ b.Then D c K := by
  simp only [Then, derives_orElse, or_and_right, exists_or]

@[simp] theorem then_spanned {K : Cursor → Extent × α → Prop} :
    (spanned a).Then D c K ↔ a.Then D c fun e x => K e (⟨c.start, e.last⟩, x) := by
  constructor
  · rintro ⟨e, ⟨_, x⟩, ⟨hx, rfl⟩, hk⟩
    exact ⟨e, x, hx, hk⟩
  · rintro ⟨e, x, hx, hk⟩
    exact ⟨e, (_, x), ⟨hx, rfl⟩, hk⟩

@[simp] theorem then_maybe {K : Cursor → Option α → Prop} :
    (maybe a).Then D c K ↔
      ∃ e x, Perhaps (fun c d x => a.Then D c fun e y => e = d ∧ y = x) c e x ∧ K e x := by
  simp only [← derives_iff_then]
  exact Iff.rfl

theorem then_maybe_or {K : Cursor → Option α → Prop} :
    (maybe a).Then D c K ↔ K c none ∨ a.Then D c fun e x => K e (some x) :=
  exists_perhaps

@[simp] theorem then_many {K : Cursor → List α → Prop} :
    (many a).Then D c K ↔
      ∃ e xs, Repeats (fun c d x => a.Then D c fun e y => e = d ∧ y = x) c e xs ∧ K e xs := by
  simp only [← derives_iff_then]
  exact Iff.rfl

theorem then_many_or {K : Cursor → List α → Prop} :
    (many a).Then D c K ↔ K c [] ∨ a.Then D c fun e x =>
      ∃ d xs, Repeats (fun c d x => a.Then D c fun e y => e = d ∧ y = x) e d xs ∧ K d (x :: xs) := by
  simp only [← derives_iff_then]
  exact exists_repeats

@[simp] theorem then_list {K : Cursor → List α → Prop} :
    (list a b).Then D c K ↔ a.Then D c fun e x =>
      ∃ f xs, Continues (fun c d x => a.Then D c fun e y => e = d ∧ y = x)
        (fun c d x => b.Then D c fun e y => e = d ∧ y = x) e f xs ∧ K f (x :: xs) := by
  simp only [← derives_iff_then]
  constructor
  · rintro ⟨f, _, ⟨e, x, xs, hx, hxs, rfl⟩, hk⟩
    exact ⟨e, x, hx, f, xs, hxs, hk⟩
  · rintro ⟨e, x, hx, f, xs, hxs, hk⟩
    exact ⟨f, x :: xs, ⟨e, x, xs, hx, hxs, rfl⟩, hk⟩

@[simp] theorem then_present {K : Cursor → Bool → Prop} :
    (present a).Then D c K ↔ (maybe a).Then D c fun e x => K e x.isSome := then_map

@[simp] theorem then_listOrNone {K : Cursor → List α → Prop} :
    (listOrNone a b).Then D c K ↔ (maybe (list a b)).Then D c fun e x => K e (x.getD []) := then_map

theorem then_or {K L : Cursor → α → Prop} :
    (a.Then D c fun e x => K e x ∨ L e x) ↔ a.Then D c K ∨ a.Then D c L := by
  simp only [Then, and_or_left, exists_or]

end Sequences

theorem Derives.mono {D E : Derivability N} (h : ∀ ⦃γ : Type⦄ (n : N γ) c d v, D n c d v → E n c d v)
    {p : Phrase N α} {c d : Cursor} {v : α} (hp : p.Derives D c d v) : p.Derives E c d v := by
  induction p generalizing c d with
  | empty | token => exact hp
  | call n => exact h n c d v hp
  | both a b iha ihb =>
    obtain ⟨e, ha, hb⟩ := hp
    exact ⟨e, iha ha, ihb hb⟩
  | either a b iha ihb => exact hp.imp iha ihb
  | maybe a iha =>
    exact hp.imp_right fun ⟨x, hx, ha⟩ => ⟨x, hx, iha ha⟩
  | many a iha => exact Repeats.mono (fun _ _ _ => iha) hp
  | list a s iha ihs =>
    obtain ⟨e, x, xs, hx, hxs, hv⟩ := hp
    exact ⟨e, x, xs, iha hx, hxs.mono (fun _ _ _ => iha) (fun _ _ _ => ihs), hv⟩
  | map f a iha =>
    obtain ⟨x, ha, hv⟩ := hp
    exact ⟨x, iha ha, hv⟩
  | spanned a iha => exact ⟨iha hp.1, hp.2⟩

theorem Derives.choose {D : Derivability N} {Q : Prop} {p : Phrase N α} {c d : Cursor} {v : α}
    (hp : p.Derives (fun _ n c d v => ∃ w, D n c d w ∧ (Q → w = v)) c d v) :
    ∃ w, p.Derives D c d w ∧ (Q → w = v) := by
  induction p generalizing c d with
  | empty | token => exact ⟨v, hp, fun _ => rfl⟩
  | call n => exact hp
  | both a b iha ihb =>
    obtain ⟨e, ha, hb⟩ := hp
    obtain ⟨x, hx, hqx⟩ := iha ha
    obtain ⟨y, hy, hqy⟩ := ihb hb
    exact ⟨(x, y), ⟨e, hx, hy⟩, fun q => Prod.ext (hqx q) (hqy q)⟩
  | either a b iha ihb =>
    rcases hp with ha | hb
    · exact (iha ha).imp fun _ h => ⟨.inl h.1, h.2⟩
    · exact (ihb hb).imp fun _ h => ⟨.inr h.1, h.2⟩
  | maybe a iha =>
    rcases hp with h | ⟨x, rfl, ha⟩
    · exact ⟨v, .inl h, fun _ => rfl⟩
    · obtain ⟨w, hw, hq⟩ := iha ha
      exact ⟨some w, .inr ⟨w, rfl, hw⟩, fun q => congrArg some (hq q)⟩
  | many a iha => exact (Repeats.mono (fun _ _ _ => iha) hp).choose
  | list a s iha ihs =>
    obtain ⟨e, x, xs, hx, hxs, rfl⟩ := hp
    obtain ⟨w, hw, hq⟩ := iha hx
    obtain ⟨ws, hws, hqs⟩ := (hxs.mono (fun _ _ _ => iha) fun _ _ _ => ihs).choose
    exact ⟨w :: ws, ⟨e, w, ws, hw, hws, rfl⟩, fun q => by rw [hq q, hqs q]⟩
  | map f a iha =>
    obtain ⟨x, ha, rfl⟩ := hp
    obtain ⟨w, hw, hq⟩ := iha ha
    exact ⟨f w, ⟨w, hw, rfl⟩, fun q => congrArg f (hq q)⟩
  | spanned a iha =>
    obtain ⟨w, hw, hq⟩ := iha hp.1
    exact ⟨(v.1, w), ⟨hw, hp.2⟩, fun q => Prod.ext rfl (hq q)⟩

end Phrase

abbrev Rules (N : Type → Type) : Type 1 :=
  ⦃α : Type⦄ → N α → Phrase N α

abbrev Endings (N : Type → Type) : Type 1 :=
  ⦃α : Type⦄ → N α → List Token → Prop

namespace Rules

def anywhere : Endings N := fun _ _ _ => True

def DerivesWithin (rules : Rules N) (ends : Endings N) : (height : Nat) → Derivability N
  | 0, _, _, _, _, _ => False
  | height + 1, _, n, c, d, v =>
    ends n d.rest ∧ (rules n).Derives (DerivesWithin rules ends height) c d v

def Derives (rules : Rules N) (ends : Endings N) : Derivability N :=
  fun _ n c d v => ∃ height, rules.DerivesWithin ends height n c d v

variable {rules : Rules N} {ends : Endings N} {c d : Cursor} {v : α} {n : N α}

theorem DerivesWithin.mono {height height' : Nat} (hle : height ≤ height')
    (h : rules.DerivesWithin ends height n c d v) : rules.DerivesWithin ends height' n c d v := by
  induction height generalizing height' α c d with
  | zero => exact h.elim
  | succ height ih =>
    obtain ⟨left, rfl⟩ : ∃ k, height' = k + 1 := ⟨height' - 1, by omega⟩
    refine ⟨h.1, Phrase.Derives.mono ?_ h.2⟩
    intro _ m c d v hm
    exact ih (Nat.le_of_succ_le_succ hle) hm

theorem exists_height {p : Phrase N α} (hp : p.Derives (rules.Derives ends) c d v) :
    ∃ height, p.Derives (rules.DerivesWithin ends height) c d v := by
  have raise {γ : Type} {q : Phrase N γ} {c d : Cursor} {x : γ} {k k' : Nat} (hle : k ≤ k')
      (h : q.Derives (rules.DerivesWithin ends k) c d x) :
      q.Derives (rules.DerivesWithin ends k') c d x :=
    h.mono fun _ m c d v hm => hm.mono hle
  induction p generalizing c d with
  | empty | token => exact ⟨0, hp⟩
  | call n => exact hp
  | both a b iha ihb =>
    obtain ⟨e, ha, hb⟩ := hp
    obtain ⟨k, ha⟩ := iha ha
    obtain ⟨k', hb⟩ := ihb hb
    exact ⟨max k k', e, raise (Nat.le_max_left ..) ha, raise (Nat.le_max_right ..) hb⟩
  | either a b iha ihb =>
    rcases hp with ha | hb
    · exact (iha ha).imp fun _ => .inl
    · exact (ihb hb).imp fun _ => .inr
  | maybe a iha =>
    rcases hp with h | ⟨x, hx, ha⟩
    · exact ⟨0, .inl h⟩
    · exact (iha ha).imp fun _ h => .inr ⟨x, hx, h⟩
  | many a iha => exact (Repeats.mono (fun _ _ _ => iha) hp).within raise
  | list a s iha ihs =>
    obtain ⟨e, x, xs, hx, hxs, rfl⟩ := hp
    obtain ⟨k, hx⟩ := iha hx
    obtain ⟨k', hxs⟩ := (hxs.mono (fun _ _ _ => iha) fun _ _ _ => ihs).within raise raise
    exact ⟨max k k', e, x, xs, raise (Nat.le_max_left ..) hx,
      hxs.mono (fun _ _ _ => raise (Nat.le_max_right ..)) (fun _ _ _ => raise (Nat.le_max_right ..)),
      rfl⟩
  | map f a iha =>
    obtain ⟨x, ha, hv⟩ := hp
    exact (iha ha).imp fun _ h => ⟨x, h, hv⟩
  | spanned a iha => exact (iha hp.1).imp fun _ h => ⟨h, hp.2⟩

theorem derives_iff : rules.Derives ends n c d v ↔
    ends n d.rest ∧ (rules n).Derives (rules.Derives ends) c d v := by
  constructor
  · rintro ⟨_ | height, h⟩
    · exact h.elim
    · exact ⟨h.1, h.2.mono fun _ m c d v hm => ⟨height, hm⟩⟩
  · rintro ⟨hends, h⟩
    obtain ⟨height, h⟩ := exists_height h
    exact ⟨height + 1, hends, h⟩

theorem Derives.induction {P : Derivability N}
    (step : ∀ ⦃γ : Type⦄ (m : N γ) c d x, ends m d.rest →
      (rules m).Derives (fun _ k c d y => rules.Derives ends k c d y ∧ P k c d y) c d x → P m c d x)
    (h : rules.Derives ends n c d v) : P n c d v := by
  obtain ⟨height, h⟩ := h
  induction height generalizing α c d with
  | zero => exact h.elim
  | succ height ih =>
    exact step n c d v h.1 (h.2.mono fun _ m c d v hm => ⟨⟨height, hm⟩, ih hm⟩)

theorem Derives.anywhere (h : rules.Derives ends n c d v) : rules.Derives anywhere n c d v :=
  h.induction (P := rules.Derives Rules.anywhere) fun _ _ _ _ _ _ h =>
    derives_iff.2 ⟨trivial, h.mono fun _ _ _ _ _ h => h.2⟩

end Rules

end PropTables
