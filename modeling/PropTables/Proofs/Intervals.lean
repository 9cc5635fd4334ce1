import PropTables.Proofs.Derivations
import PropTables.Proofs.TextOrder

/-! Where the parts of a derivation lie in the text. A phrase that is derived from tokens in the order
of a text lies in an interval of it, and its parts lie in intervals of that one, one after another. -/

namespace PropTables

variable {N : Type → Type} {α β : Type} {c d e : Cursor}

/-- The tokens of a text in its order. Each takes up some of the text and ends where a piece of the
text may end. -/
structure Ordered (ends : Position → Prop) (tokens : List Token) : Prop where
  first : ends .first
  each : ∀ t ∈ tokens, .first ≤ t.start ∧ t.start < t.extent.stop ∧ ends t.extent.stop
  pairwise : tokens.Pairwise fun t u => t.extent.Precedes u.extent

def Cursor.On (tokens : List Token) (c : Cursor) : Prop :=
  ∃ taken, tokens = taken ++ c.rest ∧ c.last = (taken.getLast?.map (·.extent.stop)).getD .first

def Cursor.Traces (tokens : List Token) (c d : Cursor) (R : Position → Position → Prop) : Prop :=
  c.On tokens → d.On tokens ∧ c.last ≤ d.last ∧ c.start ≤ d.start ∧
    ∀ p ≤ c.start, R p (max p d.last)

inductive Row (R : Position → Position → α → Prop) : Position → Position → List α → Prop
  | nil (h : p ≤ q) : Row R p q []
  | cons (hgap : p ≤ p') (hx : R p' m x) (hxs : Row R m q xs) : Row R p q (x :: xs)

theorem Row.imp {R S : Position → Position → α → Prop} {p q : Position} {xs : List α}
    (hRS : ∀ p q x, R p q x → S p q x) (h : Row R p q xs) : Row S p q xs := by
  induction h with
  | nil h => exact .nil h
  | cons hgap hx _ ih => exact .cons hgap (hRS _ _ _ hx) ih

theorem Row.mono {R : Position → Position → α → Prop} {p p' q q' : Position} {xs : List α}
    (h : Row R p q xs) (hp : p' ≤ p) (hq : q ≤ q') : Row R p' q' xs := by
  induction h generalizing p' with
  | nil h => exact .nil (hp.trans (h.trans hq))
  | cons hgap hx _ ih => exact .cons (hp.trans hgap) hx (ih le_rfl hq)

theorem Row.le {R : Position → Position → α → Prop} {p q : Position} {xs : List α}
    (hR : ∀ p q x, R p q x → p ≤ q) (h : Row R p q xs) : p ≤ q := by
  induction h with
  | nil h => exact h
  | cons hgap hx _ ih => exact hgap.trans ((hR _ _ _ hx).trans ih)

def Optional (R : Position → Position → α → Prop) (p q : Position) (x : Option α) : Prop :=
  p ≤ q ∧ ∀ y ∈ x, R p q y

theorem Optional.row {R : Position → Position → α → Prop} {p q : Position} {xs : Option (List α)}
    (h : Optional (Row R) p q xs) : Row R p q (xs.getD []) := by
  cases xs with
  | none => exact .nil h.1
  | some xs => exact h.2 xs rfl

@[simp] theorem exists_optional {R : Position → Position → α → Prop} {p q : Position} :
    (∃ x, Optional R p q x) ↔ p ≤ q :=
  ⟨fun ⟨_, h⟩ => h.1, fun h => ⟨none, h, fun _ hy => by cases hy⟩⟩

@[simp] theorem exists_start {p q : Position} : (∃ t : Token, p ≤ t.start ∧ t.start < q) ↔ p < q :=
  ⟨fun ⟨_, hp, hq⟩ => hp.trans_lt hq, fun h => ⟨⟨.name, "", ⟨p, q⟩⟩, le_rfl, h⟩⟩

abbrev Location (N : Type → Type) : Type 1 :=
  ⦃α : Type⦄ → N α → Position → Position → α → Prop

namespace Phrase

def Lies (ends : Position → Prop) (V : Location N) :
    {α : Type} → Phrase N α → Position → Position → α → Prop
  | _, .empty, p, q, _ => p ≤ q
  | _, .token _, p, q, t => p ≤ t.start ∧ t.start < q
  | _, .call n, p, q, v => V n p q v
  | _, .both a b, p, q, v => ∃ m, a.Lies ends V p m v.1 ∧ b.Lies ends V m q v.2
  | _, .either a b, p, q, v => a.Lies ends V p q v ∨ b.Lies ends V p q v
  | _, .maybe a, p, q, v => (v = none ∧ p ≤ q) ∨ ∃ x, v = some x ∧ a.Lies ends V p q x
  | _, .many a, p, q, v => Row (a.Lies ends V) p q v
  | _, .list a _, p, q, v => Row (a.Lies ends V) p q v
  | _, .map f a, p, q, v => ∃ x, a.Lies ends V p q x ∧ v = f x
  | _, .spanned a, p, q, v =>
    a.Lies ends V p q v.2 ∧ p ≤ v.1.start ∧ ends v.1.stop ∧
      a.Lies ends V v.1.start (max v.1.start v.1.stop) v.2 ∧ (v.1.start < v.1.stop → v.1.stop ≤ q)

end Phrase

section Cursors

variable {ends : Position → Prop} {tokens : List Token} {R S : Position → Position → Prop}
  {ts : List Terminal} {t : Token}

namespace Cursor

theorem On.mem (h : c.On tokens) (ht : t ∈ c.rest) : t ∈ tokens := by
  obtain ⟨taken, rfl, _⟩ := h
  exact List.mem_append_right _ ht

theorem On.ends_last (ho : Ordered ends tokens) (h : c.On tokens) : ends c.last := by
  obtain ⟨taken, rfl, hlast⟩ := h
  rw [hlast]
  cases hu : taken.getLast? with
  | none => exact ho.first
  | some u =>
    have hmem := List.mem_of_getLast? hu
    exact (ho.each u (List.mem_append_left _ hmem)).2.2

theorem On.last_le (ho : Ordered ends tokens) (h : c.On tokens) (ht : t ∈ c.rest) :
    c.last ≤ t.start := by
  obtain ⟨taken, rfl, hlast⟩ := h
  rw [hlast]
  cases hu : taken.getLast? with
  | none => exact (ho.each t (List.mem_append_right _ ht)).1
  | some u =>
    have hmem := List.mem_of_getLast? hu
    exact (List.pairwise_append.1 ho.pairwise).2.2 u hmem t ht

theorem On.last_le_start (ho : Ordered ends tokens) (h : c.On tokens) : c.last ≤ c.start := by
  unfold start
  cases hrest : c.rest with
  | nil => exact le_rfl
  | cons t ts => exact h.last_le ho (by simp [hrest])

theorem Takes.on (h : c.Takes ts t d) (hc : c.On tokens) : d.On tokens := by
  obtain ⟨_, hrest, hlast⟩ := h
  obtain ⟨taken, rfl, _⟩ := hc
  exact ⟨taken ++ [t], by simp [hrest], by simp [hlast]⟩

theorem Traces.refl (h : ∀ {p q}, p ≤ q → R p q) : c.Traces tokens c R :=
  fun hc => ⟨hc, le_rfl, le_rfl, fun p _ => h (le_max_left p _)⟩

theorem Traces.mono (h : c.Traces tokens d R) (hRS : ∀ p q, R p q → S p q) :
    c.Traces tokens d S := by
  intro hc
  obtain ⟨hd, hlast, hstart, hR⟩ := h hc
  exact ⟨hd, hlast, hstart, fun p hp => hRS _ _ (hR p hp)⟩

theorem Traces.trans (ho : Ordered ends tokens) (hce : c.Traces tokens e R)
    (hed : e.Traces tokens d S) : c.Traces tokens d fun p q => ∃ m, R p m ∧ S m q := by
  intro hc
  obtain ⟨he, hlast, hstart, hR⟩ := hce hc
  obtain ⟨hd, hlast', hstart', hS⟩ := hed he
  refine ⟨hd, hlast.trans hlast', hstart.trans hstart', fun p hp => ⟨max p e.last, hR p hp, ?_⟩⟩
  have hle : max p e.last ≤ e.start := max_le (hp.trans hstart) (he.last_le_start ho)
  have hmax : max (max p e.last) d.last = max p d.last := by
    rw [max_assoc, max_eq_right hlast']
  exact hmax ▸ hS _ hle

theorem Takes.traces (ho : Ordered ends tokens) (h : c.Takes ts t d) :
    c.Traces tokens d fun p q => p ≤ t.start ∧ t.start < q := by
  intro hc
  have hd := h.on hc
  have hmem : t ∈ c.rest := by simp [h.2.1]
  have hlast := hc.last_le ho hmem
  have hlt := (ho.each t (hc.mem hmem)).2.1
  have hstart := h.start_eq
  have hstop : d.last = t.extent.stop := h.2.2
  refine ⟨hd, ?_, ?_, fun p hp => ⟨hstart ▸ hp, hlt.trans_le (hstop ▸ le_max_right _ _)⟩⟩
  · rw [hstop]
    exact hlast.trans hlt.le
  · rw [hstart]
    exact hlt.le.trans (hstop ▸ hd.last_le_start ho)

end Cursor

variable {I : Cursor → Cursor → α → Prop} {J : Cursor → Cursor → β → Prop}
  {P : Position → Position → α → Prop} {xs : List α}

theorem Repeats.traces (ho : Ordered ends tokens)
    (hI : ∀ c d x, I c d x → c.Traces tokens d fun p q => P p q x)
    (h : Repeats I c d xs) : c.Traces tokens d fun p q => Row P p q xs := by
  induction h with
  | nil => exact Cursor.Traces.refl .nil
  | cons hx _ ih =>
    exact ((hI _ _ _ hx).trans ho ih).mono fun p q ⟨m, hx, hxs⟩ => .cons le_rfl hx hxs

theorem Continues.traces (ho : Ordered ends tokens)
    (hI : ∀ c d x, I c d x → c.Traces tokens d fun p q => P p q x)
    (hJ : ∀ c d x, J c d x → c.Traces tokens d fun p q => p ≤ q) (h : Continues I J c d xs) :
    c.Traces tokens d fun p q => Row P p q xs := by
  induction h with
  | nil => exact Cursor.Traces.refl .nil
  | last hs => exact (hJ _ _ _ hs).mono fun p q h => .nil h
  | cons hs hx _ ih =>
    refine ((hJ _ _ _ hs).trans ho ((hI _ _ _ hx).trans ho ih)).mono ?_
    exact fun p q ⟨_, hgap, _, hx, hxs⟩ => .cons hgap hx hxs

end Cursors

section Derivations

variable {ends : Position → Prop} {tokens : List Token} {D : Derivability N} {V : Location N} {v : α} {n : N α}

namespace Phrase

theorem Lies.le (hV : ∀ ⦃γ : Type⦄ (m : N γ) p q x, V m p q x → p ≤ q) {a : Phrase N α}
    {p q : Position} (h : a.Lies ends V p q v) : p ≤ q := by
  induction a generalizing p q with
  | empty => exact h
  | token ts => exact h.1.trans h.2.le
  | call n => exact hV n p q v h
  | both a b iha ihb =>
    obtain ⟨m, ha, hb⟩ := h
    exact (iha ha).trans (ihb hb)
  | either a b iha ihb => exact h.elim iha ihb
  | maybe a iha => exact h.elim And.right fun ⟨_, _, ha⟩ => iha ha
  | many a iha => exact Row.le (fun _ _ _ => iha) h
  | list a s iha ihs => exact Row.le (fun _ _ _ => iha) h
  | map f a iha => exact h.elim fun _ h => iha h.1
  | spanned a iha => exact iha h.1

section Forms

variable {p q : Position} {a : Phrase N α} {b : Phrase N β}

@[simp] theorem lies_token {ts : List Terminal} {t : Token} :
    (token ts : Phrase N Token).Lies ends V p q t ↔ p ≤ t.start ∧ t.start < q := Iff.rfl

@[simp] theorem lies_mark {m : Mark} {t : Token} :
    (mark m : Phrase N Token).Lies ends V p q t ↔ p ≤ t.start ∧ t.start < q := Iff.rfl

@[simp] theorem lies_keyword {k : Keyword} {t : Token} :
    (keyword k : Phrase N Token).Lies ends V p q t ↔ p ≤ t.start ∧ t.start < q := Iff.rfl

@[simp] theorem lies_call {n : N α} {v : α} : (call n).Lies ends V p q v ↔ V n p q v := Iff.rfl

@[simp] theorem lies_map {f : α → β} {v : β} :
    (f <$> a).Lies ends V p q v ↔ ∃ x, a.Lies ends V p q x ∧ v = f x := Iff.rfl

@[simp] theorem lies_seq {f : Phrase N (α → β)} {v : β} :
    (f <*> a).Lies ends V p q v ↔
      ∃ m g x, f.Lies ends V p m g ∧ a.Lies ends V m q x ∧ v = g x :=
  ⟨fun ⟨y, ⟨m, hf, ha⟩, hv⟩ => ⟨m, y.1, y.2, hf, ha, hv⟩,
    fun ⟨m, g, x, hf, ha, hv⟩ => ⟨(g, x), ⟨m, hf, ha⟩, hv⟩⟩

@[simp] theorem lies_seqLeft {v : α} :
    (a <* b).Lies ends V p q v ↔ ∃ m y, a.Lies ends V p m v ∧ b.Lies ends V m q y :=
  ⟨fun ⟨y, ⟨m, ha, hb⟩, hv⟩ => ⟨m, y.2, hv ▸ ha, hb⟩, fun ⟨m, y, ha, hb⟩ => ⟨(v, y), ⟨m, ha, hb⟩, rfl⟩⟩

@[simp] theorem lies_seqRight {v : β} :
    (a *> b).Lies ends V p q v ↔ ∃ m x, a.Lies ends V p m x ∧ b.Lies ends V m q v :=
  ⟨fun ⟨x, ⟨m, ha, hb⟩, hv⟩ => ⟨m, x.1, ha, hv ▸ hb⟩, fun ⟨m, x, ha, hb⟩ => ⟨(x, v), ⟨m, ha, hb⟩, rfl⟩⟩

@[simp] theorem lies_orElse {a b : Phrase N α} {v : α} :
    (a <|> b).Lies ends V p q v ↔ a.Lies ends V p q v ∨ b.Lies ends V p q v := Iff.rfl

@[simp] theorem lies_maybe {v : Option α} :
    (maybe a).Lies ends V p q v ↔
      (v = none ∧ p ≤ q) ∨ ∃ x, v = some x ∧ a.Lies ends V p q x := Iff.rfl

theorem lies_maybe_iff (hV : ∀ ⦃γ : Type⦄ (m : N γ) p q x, V m p q x → p ≤ q) {v : Option α} :
    (maybe a).Lies ends V p q v ↔ Optional (a.Lies ends V) p q v := by
  rw [lies_maybe]
  constructor
  · rintro (⟨rfl, h⟩ | ⟨x, rfl, h⟩)
    · exact ⟨h, fun y hy => by cases hy⟩
    · exact ⟨h.le hV, fun y hy => Option.mem_some_iff.1 hy ▸ h⟩
  · intro h
    cases v with
    | none => exact .inl ⟨rfl, h.1⟩
    | some x => exact .inr ⟨x, rfl, h.2 x rfl⟩

@[simp] theorem lies_present {v : Bool} :
    (present a).Lies ends V p q v ↔
      ∃ x, (maybe a).Lies ends V p q x ∧ v = x.isSome := Iff.rfl

@[simp] theorem lies_many {v : List α} :
    (many a).Lies ends V p q v ↔ Row (a.Lies ends V) p q v := Iff.rfl

@[simp] theorem lies_list {v : List α} :
    (list a b).Lies ends V p q v ↔ Row (a.Lies ends V) p q v := Iff.rfl

@[simp] theorem lies_listOrNone {v : List α} :
    (listOrNone a b).Lies ends V p q v ↔ Row (a.Lies ends V) p q v := by
  constructor
  · rintro ⟨_, ⟨rfl, h⟩ | ⟨x, rfl, h⟩, rfl⟩
    · exact .nil h
    · exact h
  · exact fun h => ⟨some v, .inr ⟨v, rfl, h⟩, rfl⟩

theorem Lies.of_spanned {v : Extent × α} (h : (spanned a).Lies ends V p q v)
    (hlt : ∀ p q, a.Lies ends V p q v.2 → p < q) :
    p ≤ v.1.start ∧ a.Lies ends V v.1.start v.1.stop v.2 ∧ v.1.stop ≤ q ∧ ends v.1.stop := by
  obtain ⟨-, hstart, hends, hlies, hstop⟩ := h
  have hmax := hlt _ _ hlies
  rw [lt_sup_iff, or_iff_right (lt_irrefl _)] at hmax
  rw [max_eq_right hmax.le] at hlies
  exact ⟨hstart, hlies, hstop hmax, hends⟩

end Forms

/-- What is derived from tokens in the order of a text lies in an interval of it. -/
theorem Derives.traces (ho : Ordered ends tokens)
    (hV : ∀ ⦃γ : Type⦄ (m : N γ) p q x, V m p q x → p ≤ q)
    (hD : ∀ ⦃γ : Type⦄ (m : N γ) c d x, D m c d x → c.Traces tokens d fun p q => V m p q x)
    {a : Phrase N α} (h : a.Derives D c d v) :
    c.Traces tokens d fun p q => a.Lies ends V p q v := by
  induction a generalizing c d with
  | empty =>
    obtain rfl : c = d := h
    exact Cursor.Traces.refl fun h => h
  | token ts => exact Cursor.Takes.traces ho h
  | call n => exact hD n c d v h
  | both a b iha ihb =>
    obtain ⟨e, ha, hb⟩ := h
    exact (iha ha).trans ho (ihb hb)
  | either a b iha ihb =>
    rcases h with h | h
    · exact (iha h).mono fun _ _ => .inl
    · exact (ihb h).mono fun _ _ => .inr
  | maybe a iha =>
    rcases h with ⟨rfl, rfl⟩ | ⟨x, rfl, h⟩
    · exact Cursor.Traces.refl fun h => .inl ⟨rfl, h⟩
    · exact (iha h).mono fun _ _ h => .inr ⟨x, rfl, h⟩
  | many a iha => exact Repeats.traces ho (fun _ _ _ => iha) h
  | list a s iha ihs =>
    obtain ⟨e, x, xs, hx, hxs, rfl⟩ := h
    have hrest : e.Traces tokens d fun p q => Row (a.Lies ends V) p q xs :=
      hxs.traces ho (fun _ _ _ => iha) fun _ _ _ hs => (ihs hs).mono fun _ _ => Lies.le hV
    exact ((iha hx).trans ho hrest).mono fun _ _ ⟨_, hx, hxs⟩ => .cons le_rfl hx hxs
  | map f a iha =>
    obtain ⟨x, hx, rfl⟩ := h
    exact (iha hx).mono fun _ _ h => ⟨x, h, rfl⟩
  | spanned a iha =>
    obtain ⟨h, hextent⟩ := h
    intro hc
    obtain ⟨hd, hlast, hstart, hlies⟩ := iha h hc
    -- The extent runs from the cursor to the last token taken, and the value lies from either start.
    refine ⟨hd, hlast, hstart, fun p hp => ?_⟩
    simp only [Lies, hextent]
    exact ⟨hlies p hp, hp, hd.ends_last ho, hlies c.start le_rfl, fun _ => le_max_right _ _⟩

end Phrase

theorem Rules.Derives.traces {rules : Rules N} {between : Endings N} (ho : Ordered ends tokens)
    (hV : ∀ ⦃γ : Type⦄ (m : N γ) p q x, V m p q x → p ≤ q)
    (step : ∀ ⦃γ : Type⦄ (m : N γ) c d x, rules.Derives between m c d x → c.On tokens →
      ∀ p q, (rules m).Lies ends V p q x → V m p q x)
    (h : rules.Derives between n c d v) : c.Traces tokens d fun p q => V n p q v := by
  refine h.induction (P := fun _ m c d x => c.Traces tokens d fun p q => V m p q x) ?_
  intro γ m c d x hend h hc
  have hm : rules.Derives between m c d x :=
    Rules.derives_iff.2 ⟨hend, h.mono fun _ _ _ _ _ h => h.1⟩
  exact (h.traces ho hV fun _ _ _ _ _ h => h.2).mono (step m c d x hm hc) hc

end Derivations

end PropTables
