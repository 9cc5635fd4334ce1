import PropTables.Proofs.Intervals

/-! The pieces of a text that the parts of a derivation fill. A part starts where its first token does,
and its piece goes on to where the next token starts. -/

namespace PropTables

variable {N : Type → Type} {α β : Type} {F : Token → Prop} {c d e : Cursor}

def Cursor.Leads (tokens : List Token) (c d : Cursor) (R : Position → Position → Prop) : Prop :=
  c.On tokens → d.On tokens ∧ R c.start d.start

namespace Phrase

def Fills (F : Token → Prop) (V : Location N) :
    {α : Type} → Phrase N α → Position → Position → α → Prop
  | _, .empty, p, q, _ => p = q
  | _, .token ts, p, q, t => t.terminal ∈ ts ∧ F t ∧ t.start = p ∧ p < q
  | _, .call n, p, q, v => V n p q v
  | _, .both a b, p, q, v => ∃ m, a.Fills F V p m v.1 ∧ b.Fills F V m q v.2
  | _, .either a b, p, q, v => a.Fills F V p q v ∨ b.Fills F V p q v
  | _, .maybe a, p, q, v => Optional (a.Fills F V) p q v
  | _, .many a, p, q, v => Row (a.Fills F V) p q v
  | _, .list a _, p, q, v => Row (a.Fills F V) p q v
  | _, .map f a, p, q, v => ∃ x, a.Fills F V p q x ∧ v = f x
  | _, .spanned a, p, q, v => v.1.start = p ∧ a.Fills F V p q v.2

variable {V : Location N} {v : α} {p q : Position}

theorem Fills.le (hV : ∀ ⦃γ : Type⦄ (m : N γ) p q x, V m p q x → p ≤ q) {a : Phrase N α}
    (h : a.Fills F V p q v) : p ≤ q := by
  induction a generalizing p q with
  | empty => exact Eq.le h
  | token ts => exact h.2.2.2.le
  | call n => exact hV n p q v h
  | both a b iha ihb =>
    obtain ⟨m, ha, hb⟩ := h
    exact (iha ha).trans (ihb hb)
  | either a b iha ihb => exact h.elim iha ihb
  | maybe a => exact h.1
  | many a iha => exact Row.le (fun _ _ _ => iha) h
  | list a s iha => exact Row.le (fun _ _ _ => iha) h
  | map f a iha => exact h.elim fun _ h => iha h.1
  | spanned a iha => exact iha h.2

section Forms

variable {a : Phrase N α} {b : Phrase N β}

@[simp] theorem fills_token {ts : List Terminal} {t : Token} :
    (token ts : Phrase N Token).Fills F V p q t ↔ t.terminal ∈ ts ∧ F t ∧ t.start = p ∧ p < q :=
  Iff.rfl

@[simp] theorem fills_mark {m : Mark} {t : Token} :
    (mark m : Phrase N Token).Fills F V p q t ↔ t.terminal ∈ [.mark m] ∧ F t ∧ t.start = p ∧ p < q :=
  Iff.rfl

@[simp] theorem fills_keyword {k : Keyword} {t : Token} :
    (keyword k : Phrase N Token).Fills F V p q t ↔
      t.terminal ∈ [.keyword k] ∧ F t ∧ t.start = p ∧ p < q :=
  Iff.rfl

@[simp] theorem fills_call {n : N α} {v : α} : (call n).Fills F V p q v ↔ V n p q v := Iff.rfl

@[simp] theorem fills_map {f : α → β} {v : β} :
    (f <$> a).Fills F V p q v ↔ ∃ x, a.Fills F V p q x ∧ v = f x := Iff.rfl

@[simp] theorem fills_seq {f : Phrase N (α → β)} {v : β} :
    (f <*> a).Fills F V p q v ↔
      ∃ m g x, f.Fills F V p m g ∧ a.Fills F V m q x ∧ v = g x :=
  ⟨fun ⟨y, ⟨m, hf, ha⟩, hv⟩ => ⟨m, y.1, y.2, hf, ha, hv⟩,
    fun ⟨m, g, x, hf, ha, hv⟩ => ⟨(g, x), ⟨m, hf, ha⟩, hv⟩⟩

@[simp] theorem fills_seqLeft {v : α} :
    (a <* b).Fills F V p q v ↔ ∃ m y, a.Fills F V p m v ∧ b.Fills F V m q y :=
  ⟨fun ⟨y, ⟨m, ha, hb⟩, hv⟩ => ⟨m, y.2, hv ▸ ha, hb⟩, fun ⟨m, y, ha, hb⟩ => ⟨(v, y), ⟨m, ha, hb⟩, rfl⟩⟩

@[simp] theorem fills_seqRight {v : β} :
    (a *> b).Fills F V p q v ↔ ∃ m x, a.Fills F V p m x ∧ b.Fills F V m q v :=
  ⟨fun ⟨x, ⟨m, ha, hb⟩, hv⟩ => ⟨m, x.1, ha, hv ▸ hb⟩, fun ⟨m, x, ha, hb⟩ => ⟨(x, v), ⟨m, ha, hb⟩, rfl⟩⟩

@[simp] theorem fills_orElse {a b : Phrase N α} {v : α} :
    (a <|> b).Fills F V p q v ↔ a.Fills F V p q v ∨ b.Fills F V p q v := Iff.rfl

@[simp] theorem fills_maybe {v : Option α} :
    (maybe a).Fills F V p q v ↔ Optional (a.Fills F V) p q v := Iff.rfl

@[simp] theorem fills_many {v : List α} :
    (many a).Fills F V p q v ↔ Row (a.Fills F V) p q v := Iff.rfl

@[simp] theorem fills_list {v : List α} :
    (list a b).Fills F V p q v ↔ Row (a.Fills F V) p q v := Iff.rfl

@[simp] theorem fills_spanned {v : Extent × α} :
    (spanned a).Fills F V p q v ↔ v.1.start = p ∧ a.Fills F V p q v.2 := Iff.rfl

@[simp] theorem fills_present {v : Bool} :
    (present a).Fills F V p q v ↔ ∃ x, Optional (a.Fills F V) p q x ∧ v = x.isSome := Iff.rfl

@[simp] theorem fills_listOrNone {v : List α} :
    (listOrNone a b).Fills F V p q v ↔
      ∃ x, Optional (Row (a.Fills F V)) p q x ∧ v = x.getD [] := Iff.rfl

end Forms

end Phrase

section Derivations

variable {ends : Position → Prop} {tokens : List Token} {D : Derivability N} {V : Location N}
  {R S : Position → Position → Prop} {P : Position → Position → α → Prop} {v : α} {n : N α}

namespace Cursor

theorem Leads.refl (h : ∀ p, R p p) : c.Leads tokens c R :=
  fun hc => ⟨hc, h c.start⟩

theorem Leads.mono (h : c.Leads tokens d R) (hRS : ∀ p q, R p q → S p q) : c.Leads tokens d S :=
  fun hc => (h hc).imp_right (hRS _ _)

theorem Leads.trans (hce : c.Leads tokens e R) (hed : e.Leads tokens d S) :
    c.Leads tokens d fun p q => ∃ m, R p m ∧ S m q := by
  intro hc
  obtain ⟨he, hR⟩ := hce hc
  exact (hed he).imp_right fun hS => ⟨e.start, hR, hS⟩

theorem Takes.leads {ts : List Terminal} {t : Token} (ho : Ordered ends tokens)
    (hF : ∀ t ∈ tokens, F t) (h : c.Takes ts t d) :
    c.Leads tokens d fun p q => t.terminal ∈ ts ∧ F t ∧ t.start = p ∧ p < q := by
  intro hc
  have hd := h.on hc
  have hmem : t ∈ tokens := hc.mem (by simp [h.2.1])
  have hlt : t.start < d.start := (ho.each t hmem).2.1.trans_le (h.2.2 ▸ hd.last_le_start ho)
  exact ⟨hd, h.1, hF t hmem, h.start_eq.symm, h.start_eq ▸ hlt⟩

end Cursor

theorem Repeats.leads {I : Cursor → Cursor → α → Prop} {xs : List α}
    (hI : ∀ c d x, I c d x → c.Leads tokens d fun p q => P p q x) (h : Repeats I c d xs) :
    c.Leads tokens d fun p q => Row P p q xs := by
  induction h with
  | nil => exact .refl fun p => .nil le_rfl
  | cons hx _ ih =>
    exact ((hI _ _ _ hx).trans ih).mono fun p q ⟨m, hx, hxs⟩ => .cons le_rfl hx hxs

theorem Continues.leads {I : Cursor → Cursor → α → Prop} {J : Cursor → Cursor → β → Prop}
    {xs : List α} (hI : ∀ c d x, I c d x → c.Leads tokens d fun p q => P p q x)
    (hJ : ∀ c d x, J c d x → c.Leads tokens d fun p q => p ≤ q) (h : Continues I J c d xs) :
    c.Leads tokens d fun p q => Row P p q xs := by
  induction h with
  | nil => exact .refl fun p => .nil le_rfl
  | last hs => exact (hJ _ _ _ hs).mono fun p q h => .nil h
  | cons hs hx _ ih =>
    refine ((hJ _ _ _ hs).trans ((hI _ _ _ hx).trans ih)).mono ?_
    exact fun p q ⟨_, hgap, _, hx, hxs⟩ => .cons hgap hx hxs

theorem Phrase.Derives.leads (ho : Ordered ends tokens) (hF : ∀ t ∈ tokens, F t)
    (hV : ∀ ⦃γ : Type⦄ (m : N γ) p q x, V m p q x → p ≤ q)
    (hD : ∀ ⦃γ : Type⦄ (m : N γ) c d x, D m c d x → c.Leads tokens d fun p q => V m p q x)
    {a : Phrase N α} (h : a.Derives D c d v) :
    c.Leads tokens d fun p q => a.Fills F V p q v := by
  induction a generalizing c d with
  | empty =>
    obtain rfl : c = d := h
    exact .refl fun _ => rfl
  | token ts => exact Cursor.Takes.leads ho hF h
  | call n => exact hD n c d v h
  | both a b iha ihb =>
    obtain ⟨e, ha, hb⟩ := h
    exact (iha ha).trans (ihb hb)
  | either a b iha ihb =>
    rcases h with h | h
    · exact (iha h).mono fun _ _ => .inl
    · exact (ihb h).mono fun _ _ => .inr
  | maybe a iha =>
    rcases h with ⟨rfl, rfl⟩ | ⟨x, rfl, h⟩
    · exact .refl fun _ => ⟨le_rfl, nofun⟩
    · exact (iha h).mono fun _ _ h => ⟨h.le hV, fun y hy => Option.mem_some_iff.1 hy ▸ h⟩
  | many a iha => exact Repeats.leads (fun _ _ _ => iha) h
  | list a s iha ihs =>
    obtain ⟨e, x, xs, hx, hxs, rfl⟩ := h
    have hrest : e.Leads tokens d fun p q => Row (a.Fills F V) p q xs :=
      hxs.leads (fun _ _ _ => iha) fun _ _ _ hs => (ihs hs).mono fun _ _ => Fills.le hV
    exact ((iha hx).trans hrest).mono fun _ _ ⟨_, hx, hxs⟩ => .cons le_rfl hx hxs
  | map f a iha =>
    obtain ⟨x, hx, rfl⟩ := h
    exact (iha hx).mono fun _ _ h => ⟨x, h, rfl⟩
  | spanned a iha =>
    obtain ⟨h, hextent⟩ := h
    exact fun hc => (iha h hc).imp_right fun h => ⟨congrArg Extent.start hextent, h⟩

theorem Rules.Derives.leads {rules : Rules N} {between : Endings N} (ho : Ordered ends tokens)
    (hF : ∀ t ∈ tokens, F t) (hV : ∀ ⦃γ : Type⦄ (m : N γ) p q x, V m p q x → p ≤ q)
    (step : ∀ ⦃γ : Type⦄ (m : N γ) p q x, (rules m).Fills F V p q x → V m p q x)
    (h : rules.Derives between n c d v) : c.Leads tokens d fun p q => V n p q v := by
  refine h.induction (P := fun _ m c d x => c.Leads tokens d fun p q => V m p q x) ?_
  intro γ m c d x _ h
  exact (h.leads ho hF hV fun _ _ _ _ _ h => h.2).mono fun p q => step m p q x

end Derivations

end PropTables
