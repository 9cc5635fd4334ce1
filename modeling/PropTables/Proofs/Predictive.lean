import PropTables.Proofs.Derivations

/-! Grammars whose derivations the next token settles. Choices between phrases that start with different
terminals, and repetitions that end before a terminal that starts no more of them, leave one way to
derive a sequence of tokens; reading goes that way, and the bound on its depth is never too small. -/

namespace PropTables

def Terminal.all : List Terminal :=
  [.name, .string, .number, .template, .operator] ++ Keyword.all.map .keyword ++ Mark.all.map .mark

theorem Terminal.mem_all (t : Terminal) : t ∈ all := by
  rcases t with _ | _ | _ | _ | _ | k | m
  iterate 5 decide
  · cases k <;> decide
  · cases m <;> decide

def Terminal.apart (p q : Terminal → Bool) : Bool :=
  all.all fun t => !(p t && q t)

def Terminal.within (p q : Terminal → Bool) : Bool :=
  all.all fun t => !p t || q t

theorem Terminal.apart_iff {p q : Terminal → Bool} :
    apart p q = true ↔ ∀ t, q t = true → p t = false := by
  simp [apart, List.all_eq_true, mem_all, Decidable.or_iff_not_imp_right]

theorem Terminal.within_iff {p q : Terminal → Bool} :
    within p q = true ↔ ∀ t, p t = true → q t = true := by
  simp [within, List.all_eq_true, mem_all, Decidable.or_iff_not_imp_left]

variable {N : Type → Type} {α β : Type}

/-- What may follow a nonterminal, and how many nonterminals open in it before the first token. -/
structure Lookahead (N : Type → Type) where
  follow : ⦃α : Type⦄ → N α → List Terminal
  level : ⦃α : Type⦄ → N α → Nat

def Next (p : Terminal → Bool) (ts : List Token) : Prop :=
  ∀ t ∈ ts.head?, p t.terminal = true

def Cursor.Advances (c d : Cursor) (p : Terminal → Bool) : Prop :=
  d.rest.length < c.rest.length ∧ ∃ t ∈ c.rest.head?, p t.terminal = true

namespace Phrase

def opens (g : Grammar N) (look : Lookahead N) : {α : Type} → Phrase N α → Nat
  | _, empty => 0
  | _, token _ => 0
  | _, call n => look.level n + 1
  | _, both a b => max (a.opens g look) (if a.nullable g then b.opens g look else 0)
  | _, either a b => max (a.opens g look) (b.opens g look)
  | _, maybe a => a.opens g look
  | _, many a => a.opens g look
  | _, list a _ => a.opens g look
  | _, map _ a => a.opens g look
  | _, spanned a => a.opens g look

/-- The next token settles every choice in a phrase that the given terminals may follow. -/
def settled (g : Grammar N) (look : Lookahead N) :
    {α : Type} → Phrase N α → (after : Terminal → Bool) → Bool
  | _, empty, _ => true
  | _, token _, _ => true
  | _, call n, after => Terminal.within after (look.follow n).contains
  | _, both a b, after =>
    a.settled g look (fun t => b.startsWith g t || (b.nullable g && after t)) &&
      b.settled g look after
  | _, either a b, after =>
    !a.nullable g && Terminal.apart (a.startsWith g) (b.startsWith g) &&
      (!b.nullable g || Terminal.apart (a.startsWith g) after) &&
      a.settled g look after && b.settled g look after
  | _, maybe a, after =>
    !a.nullable g && Terminal.apart (a.startsWith g) after && a.settled g look after
  | _, many a, after =>
    !a.nullable g && Terminal.apart (a.startsWith g) after &&
      a.settled g look fun t => a.startsWith g t || after t
  | _, list a s, after =>
    !a.nullable g && !s.nullable g && Terminal.apart (a.startsWith g) after &&
      Terminal.apart (s.startsWith g) after &&
      a.settled g look (fun t => s.startsWith g t || after t) &&
      s.settled g look fun t => a.startsWith g t || after t
  | _, map _ a, after => a.settled g look after
  | _, spanned a, after => a.settled g look after

end Phrase

def Grammar.settles (g : Grammar N) (look : Lookahead N) (n : N α) : Bool :=
  Terminal.within ((g.rule n).startsWith g) (g.first n).contains &&
    (!(g.rule n).nullable g || g.nullable n) &&
    decide ((g.rule n).opens g look ≤ look.level n) && decide (look.level n < chainBound) &&
    (g.rule n).settled g look (look.follow n).contains

def Grammar.Predictive (g : Grammar N) (look : Lookahead N) : Prop :=
  ∀ ⦃α : Type⦄ (n : N α), g.settles look n = true

def Grammar.Starts (g : Grammar N) (D : Derivability N) : Prop :=
  ∀ ⦃α : Type⦄ (n : N α) c d v, D n c d v →
    c = d ∧ g.nullable n = true ∨ c.Advances d (g.first n).contains

theorem Next.mono {p q : Terminal → Bool} {ts : List Token} (h : ∀ t, p t = true → q t = true)
    (hp : Next p ts) : Next q ts :=
  fun t ht => h _ (hp t ht)

theorem Cursor.Advances.mono {p q : Terminal → Bool} {c d : Cursor}
    (h : ∀ t, p t = true → q t = true) (hp : c.Advances d p) : c.Advances d q := by
  obtain ⟨hlt, t, ht, hpt⟩ := hp
  exact ⟨hlt, t, ht, h _ hpt⟩

theorem Cursor.Advances.followed {p : Terminal → Bool} {c d e : Cursor} (h : c.Advances e p)
    (hle : d.rest.length ≤ e.rest.length) : c.Advances d p :=
  ⟨Nat.lt_of_le_of_lt hle h.1, h.2⟩

theorem Cursor.Advances.next {p : Terminal → Bool} {c d : Cursor} (h : c.Advances d p) :
    Next p c.rest := by
  obtain ⟨_, t, ht, hpt⟩ := h
  intro t' ht'
  rwa [Option.mem_unique ht' ht]

theorem Cursor.Advances.atTerminal {p q : Terminal → Bool} {c d : Cursor} (h : c.Advances d p)
    (hpq : ∀ t, p t = true → q t = true) : c.atTerminal q = true := by
  obtain ⟨_, t, ht, hpt⟩ := h
  unfold Cursor.atTerminal
  cases hrest : c.rest with
  | nil => simp [hrest] at ht
  | cons t' ts =>
    simp only [hrest, List.head?_cons, Option.mem_def, Option.some.injEq] at ht
    exact hpq _ (ht ▸ hpt)

theorem Next.before {p after : Terminal → Bool} {c d : Cursor} (hd : Next after d.rest)
    (h : c = d ∨ c.Advances d p) : Next (fun t => p t || after t) c.rest := by
  rcases h with rfl | hadv
  · exact hd.mono fun t ht => by simp [ht]
  · exact hadv.next.mono fun t ht => by simp [ht]

theorem Next.not_atTerminal {p q : Terminal → Bool} {c : Cursor} (h : Next p c.rest)
    (hpq : ∀ t, p t = true → q t = false) : c.atTerminal q = false := by
  unfold Cursor.atTerminal
  cases hrest : c.rest with
  | nil => rfl
  | cons t ts => exact hpq _ (h t (by simp [hrest]))

namespace Phrase

variable {g : Grammar N} {look : Lookahead N} {D : Derivability N} {after : Terminal → Bool}
  {c d e : Cursor}

theorem repeats_starts {R : Cursor → Cursor → α → Prop} {p : Terminal → Bool} {xs : List α}
    (hR : ∀ c d x, R c d x → c.Advances d p) (h : Repeats R c d xs) :
    c = d ∨ c.Advances d p := by
  induction h with
  | nil => exact .inl rfl
  | cons hx _ ih =>
    refine .inr ((hR _ _ _ hx).followed ?_)
    rcases ih with rfl | ⟨hlt, _⟩
    · exact Nat.le_refl _
    · exact Nat.le_of_lt hlt

theorem continues_starts {R : Cursor → Cursor → α → Prop} {S : Cursor → Cursor → β → Prop}
    {p q : Terminal → Bool} {xs : List α} (hR : ∀ c d x, R c d x → c.Advances d p)
    (hS : ∀ c d x, S c d x → c.Advances d q) (h : Continues R S c d xs) :
    c = d ∨ c.Advances d q := by
  induction h with
  | nil => exact .inl rfl
  | last hs => exact .inr (hS _ _ _ hs)
  | cons hs hx _ ih =>
    have hlt := (hR _ _ _ hx).1
    refine .inr ((hS _ _ _ hs).followed ?_)
    rcases ih with rfl | ⟨hlt', _⟩
    · exact Nat.le_of_lt hlt
    · exact Nat.le_of_lt (Nat.lt_trans hlt' hlt)

theorem Derives.starts {p : Phrase N α} {v : α} (hD : g.Starts D) (hs : p.settled g look after = true)
    (hp : p.Derives D c d v) :
    c = d ∧ p.nullable g = true ∨ c.Advances d (p.startsWith g) := by
  induction p generalizing c d after with
  | empty => exact .inl ⟨hp, rfl⟩
  | token ts =>
    obtain ⟨ht, hrest, _⟩ := hp
    exact .inr ⟨by simp [hrest], v, by simp [hrest], List.contains_iff_mem.2 ht⟩
  | call n => exact hD n c d v hp
  | both a b iha ihb =>
    obtain ⟨e, ha, hb⟩ := hp
    rw [settled, Bool.and_eq_true] at hs
    rcases iha hs.1 ha with ⟨rfl, hna⟩ | hadv
    · rcases ihb hs.2 hb with ⟨rfl, hnb⟩ | hadv
      · exact .inl ⟨rfl, by simp [nullable, hna, hnb]⟩
      · exact .inr (hadv.mono fun t ht => by simp [startsWith, hna, ht])
    · have hle : d.rest.length ≤ e.rest.length := by
        rcases ihb hs.2 hb with ⟨rfl, _⟩ | ⟨hlt, _⟩
        · exact Nat.le_refl _
        · exact Nat.le_of_lt hlt
      exact .inr ((hadv.followed hle).mono fun t ht => by simp [startsWith, ht])
  | either a b iha ihb =>
    simp only [settled, Bool.and_eq_true] at hs
    rcases hp with ha | hb
    · rcases iha hs.1.2 ha with ⟨rfl, hna⟩ | hadv
      · exact .inl ⟨rfl, by simp [nullable, hna]⟩
      · exact .inr (hadv.mono fun t ht => by simp [startsWith, ht])
    · rcases ihb hs.2 hb with ⟨rfl, hnb⟩ | hadv
      · exact .inl ⟨rfl, by simp [nullable, hnb]⟩
      · exact .inr (hadv.mono fun t ht => by simp [startsWith, ht])
  | maybe a iha =>
    simp only [settled, Bool.and_eq_true] at hs
    rcases hp with ⟨_, rfl⟩ | ⟨x, _, ha⟩
    · exact .inl ⟨rfl, rfl⟩
    · exact (iha hs.2 ha).imp_left fun h => ⟨h.1, rfl⟩
  | many a iha =>
    simp only [settled, Bool.and_eq_true, Bool.not_eq_true'] at hs
    obtain ⟨⟨hna, -⟩, hsa⟩ := hs
    have item : ∀ c d x, a.Derives D c d x → c.Advances d (a.startsWith g) := fun c d x hx =>
      (iha hsa hx).resolve_left fun h => by simp [hna] at h
    exact (repeats_starts item hp).imp_left fun h => ⟨h, rfl⟩
  | list a s iha ihs =>
    obtain ⟨e, x, xs, hx, hxs, _⟩ := hp
    simp only [settled, Bool.and_eq_true, Bool.not_eq_true'] at hs
    obtain ⟨⟨⟨⟨⟨hna, hns⟩, -⟩, -⟩, hsa⟩, hss⟩ := hs
    have item : ∀ c d x, a.Derives D c d x → c.Advances d (a.startsWith g) := fun c d x hx =>
      (iha hsa hx).resolve_left fun h => by simp [hna] at h
    have separator : ∀ c d x, s.Derives D c d x → c.Advances d (s.startsWith g) := fun c d x hx =>
      (ihs hss hx).resolve_left fun h => by simp [hns] at h
    refine .inr ((item _ _ _ hx).followed ?_)
    rcases continues_starts item separator hxs with rfl | ⟨hlt, _⟩
    · exact Nat.le_refl _
    · exact Nat.le_of_lt hlt
  | map f a iha =>
    obtain ⟨x, ha, _⟩ := hp
    exact iha hs ha
  | spanned a iha => exact iha hs hp.1

theorem Derives.advances {p : Phrase N α} {v : α} (hD : g.Starts D)
    (hs : p.settled g look after = true) (hn : p.nullable g = false) (hp : p.Derives D c d v) :
    c.Advances d (p.startsWith g) :=
  (hp.starts hD hs).resolve_left fun h => by simp [hn] at h

theorem Derives.next {p : Phrase N α} {v : α} (hD : g.Starts D) (hs : p.settled g look after = true)
    (hp : p.Derives D c d v) (hd : Next after d.rest) :
    Next (fun t => p.startsWith g t || (p.nullable g && after t)) c.rest := by
  rcases hp.starts hD hs with ⟨rfl, hn⟩ | hadv
  · exact hd.mono fun t ht => by simp [hn, ht]
  · exact hadv.next.mono fun t ht => by simp [ht]

theorem repeats_followed {R : Cursor → Cursor → α → Prop} {p : Terminal → Bool} {xs : List α}
    (hR : ∀ c d x, R c d x → c.Advances d p) (hd : Next after d.rest) (h : Repeats R c d xs) :
    Repeats (fun c d x => R c d x ∧ Next (fun t => p t || after t) d.rest) c d xs := by
  induction h with
  | nil => exact .nil
  | cons hx hxs ih => exact .cons ⟨hx, hd.before (repeats_starts hR hxs)⟩ (ih hd)

theorem continues_followed {R : Cursor → Cursor → α → Prop} {S : Cursor → Cursor → β → Prop}
    {p q : Terminal → Bool} {xs : List α} (hR : ∀ c d x, R c d x → c.Advances d p)
    (hS : ∀ c d x, S c d x → c.Advances d q) (hd : Next after d.rest) (h : Continues R S c d xs) :
    Continues (fun c d x => R c d x ∧ Next (fun t => q t || after t) d.rest)
      (fun c d x => S c d x ∧ Next (fun t => p t || after t) d.rest) c d xs := by
  induction h with
  | nil => exact .nil
  | last hs => exact .last ⟨hs, hd.mono fun t ht => by simp [ht]⟩
  | cons hs hx hxs ih =>
    refine .cons ⟨hs, (hR _ _ _ hx).next.mono fun t ht => by simp [ht]⟩ ⟨hx, ?_⟩ (ih hd)
    exact hd.before (continues_starts hR hS hxs)

theorem Derives.followed {p : Phrase N α} {v : α} (hD : g.Starts D)
    (hs : p.settled g look after = true) (hp : p.Derives D c d v) (hd : Next after d.rest) :
    p.Derives (fun _ n c d v => D n c d v ∧ Next (look.follow n).contains d.rest) c d v := by
  induction p generalizing c d after with
  | empty | token => exact hp
  | call n => exact ⟨hp, hd.mono (Terminal.within_iff.1 hs)⟩
  | both a b iha ihb =>
    obtain ⟨e, ha, hb⟩ := hp
    rw [settled, Bool.and_eq_true] at hs
    exact ⟨e, iha hs.1 ha (hb.next hD hs.2 hd), ihb hs.2 hb hd⟩
  | either a b iha ihb =>
    simp only [settled, Bool.and_eq_true] at hs
    exact hp.imp (fun ha => iha hs.1.2 ha hd) fun hb => ihb hs.2 hb hd
  | maybe a iha =>
    simp only [settled, Bool.and_eq_true] at hs
    exact hp.imp_right fun ⟨x, hx, ha⟩ => ⟨x, hx, iha hs.2 ha hd⟩
  | many a iha =>
    simp only [settled, Bool.and_eq_true, Bool.not_eq_true'] at hs
    obtain ⟨⟨hna, -⟩, hsa⟩ := hs
    exact Repeats.mono (fun c d x hx => iha hsa hx.1 hx.2)
      (repeats_followed (fun _ _ _ hx => hx.advances hD hsa hna) hd hp)
  | list a s iha ihs =>
    obtain ⟨e, x, xs, hx, hxs, hv⟩ := hp
    simp only [settled, Bool.and_eq_true, Bool.not_eq_true'] at hs
    obtain ⟨⟨⟨⟨⟨hna, hns⟩, -⟩, -⟩, hsa⟩, hss⟩ := hs
    have item (c d x) (hx : a.Derives D c d x) := hx.advances hD hsa hna
    have separator (c d x) (hx : s.Derives D c d x) := hx.advances hD hss hns
    refine ⟨e, x, xs, iha hsa hx (hd.before (continues_starts item separator hxs)), ?_, hv⟩
    exact (continues_followed item separator hd hxs).mono
      (fun c d x hx => iha hsa hx.1 hx.2) fun c d x hx => ihs hss hx.1 hx.2
  | map f a iha =>
    obtain ⟨x, ha, hv⟩ := hp
    exact ⟨x, iha hs ha hd, hv⟩
  | spanned a iha => exact ⟨iha hs hp.1 hd, hp.2⟩

end Phrase

/-- A bound on depth suffices: there are fewer tokens than some number, or not more and no more
nonterminals open before the next one than some other. -/
def Fits (tokens levels : Nat) (c : Cursor) (opens : Nat) : Prop :=
  c.rest.length < tokens ∨ c.rest.length = tokens ∧ opens ≤ levels

theorem Fits.mono {tokens levels opens opens' : Nat} {c e : Cursor} (h : Fits tokens levels c opens)
    (hle : e.rest.length ≤ c.rest.length) (ho : opens' ≤ opens) : Fits tokens levels e opens' := by
  unfold Fits at *
  omega

theorem Fits.later {tokens levels opens opens' : Nat} {c e : Cursor} (h : Fits tokens levels c opens)
    (hlt : e.rest.length < c.rest.length) : Fits tokens levels e opens' := by
  unfold Fits at *
  omega

namespace Reader

variable {a : Reader α} {s : Reader β} {R : Cursor → Cursor → α → Prop}
  {S : Cursor → Cursor → β → Prop} {p q : Terminal → Bool} {c d : Cursor} {xs : List α}

theorem token_eq_ok {ts : List Terminal} {t : Token} (h : c.Takes ts t d) :
    token ts c = .ok (t, d) := by
  obtain ⟨last, rest⟩ := c
  obtain ⟨ht, rfl, hlast⟩ := h
  simp [token, ht, ← hlast]

theorem many_eq_ok (hR : ∀ c' d x, c'.rest.length ≤ c.rest.length → R c' d x →
      c'.Advances d p ∧ a c' = .ok (x, d))
    (h : Repeats R c d xs) (hend : d.atTerminal p = false) {rounds : Nat}
    (hrounds : c.rest.length ≤ rounds) : many p a rounds c = .ok (xs, d) := by
  induction h generalizing rounds with
  | nil => cases rounds <;> simp [many, hend]
  | @cons c e x d xs hx _ ih =>
    obtain ⟨hadv, hread⟩ := hR _ _ _ (Nat.le_refl _) hx
    have hlt := hadv.1
    obtain ⟨rounds, rfl⟩ : ∃ k, rounds = k + 1 := ⟨rounds - 1, by omega⟩
    have hrest := ih (fun c' d x hle => hR c' d x (by omega)) hend
      (show e.rest.length ≤ rounds by omega)
    rw [many, if_pos (hadv.atTerminal fun _ => id), hread]
    simp [hrest, bind, Except.bind, pure, Except.pure]

theorem afterItem_eq_ok
    (hR : ∀ c' d x, c'.rest.length < c.rest.length → R c' d x →
      c'.Advances d p ∧ a c' = .ok (x, d))
    (hS : ∀ c' d x, c'.rest.length ≤ c.rest.length → S c' d x →
      c'.Advances d q ∧ s c' = .ok (x, d))
    (h : Continues R S c d xs) (hp : d.atTerminal p = false) (hq : d.atTerminal q = false)
    {rounds : Nat} (hrounds : c.rest.length ≤ rounds) :
    afterItem q p a s rounds c = .ok (xs, d) := by
  induction h generalizing rounds with
  | nil => cases rounds <;> simp [afterItem, hq]
  | last hs =>
    obtain ⟨hadv, hread⟩ := hS _ _ _ (Nat.le_refl _) hs
    have hlt := hadv.1
    obtain ⟨rounds, rfl⟩ : ∃ k, rounds = k + 1 := ⟨rounds - 1, by omega⟩
    rw [afterItem, if_pos (hadv.atTerminal fun _ => id), hread]
    simp [hp, bind, Except.bind, pure, Except.pure]
  | @cons c e _ f _ _ _ hs hx _ ih =>
    obtain ⟨hadv, hread⟩ := hS _ _ _ (Nat.le_refl _) hs
    have hlt := hadv.1
    obtain ⟨hadv', hread'⟩ := hR _ _ _ hlt hx
    have hlt' := hadv'.1
    obtain ⟨rounds, rfl⟩ : ∃ k, rounds = k + 1 := ⟨rounds - 1, by omega⟩
    have hrest := ih (fun c' d x hle => hR c' d x (by omega)) (fun c' d x hle => hS c' d x (by omega))
      hp hq
      (show f.rest.length ≤ rounds by omega)
    rw [afterItem, if_pos (hadv.atTerminal fun _ => id), hread]
    simp [hadv'.atTerminal fun _ => id, hread', hrest, bind, Except.bind, pure, Except.pure]

theorem bind_eq_ok {ε γ δ : Type} {x : Except ε γ} {f : γ → Except ε δ} {y : δ} :
    x >>= f = .ok y ↔ ∃ z, x = .ok z ∧ f z = .ok y := by
  cases x <;> simp [bind, Except.bind]

theorem takes_of_token {ts : List Terminal} {t : Token} (h : token ts c = .ok (t, d)) :
    c.Takes ts t d := by
  obtain ⟨last, _ | ⟨t', rest⟩⟩ := c
  · cases h
  · simp only [token] at h
    split at h
    · next ht =>
      obtain ⟨rfl, rfl⟩ := Prod.mk.inj (Except.ok.inj h)
      exact ⟨List.contains_iff_mem.1 ht, rfl, rfl⟩
    · cases h

theorem repeats_of_many (hR : ∀ c d x, a c = .ok (x, d) → R c d x) {rounds : Nat}
    (h : many p a rounds c = .ok (xs, d)) : Repeats R c d xs := by
  induction rounds generalizing c xs with
  | zero =>
    obtain ⟨rfl, rfl⟩ := Prod.mk.inj (Except.ok.inj h)
    exact .nil
  | succ rounds ih =>
    rw [many] at h
    split at h
    · obtain ⟨⟨x, e⟩, hx, h⟩ := bind_eq_ok.1 h
      obtain ⟨⟨ys, f⟩, hys, h⟩ := bind_eq_ok.1 h
      obtain ⟨rfl, rfl⟩ := Prod.mk.inj (Except.ok.inj h)
      exact .cons (hR _ _ _ hx) (ih hys)
    · obtain ⟨rfl, rfl⟩ := Prod.mk.inj (Except.ok.inj h)
      exact .nil

theorem continues_of_afterItem (hR : ∀ c d x, a c = .ok (x, d) → R c d x)
    (hS : ∀ c d x, s c = .ok (x, d) → S c d x) {rounds : Nat}
    (h : afterItem q p a s rounds c = .ok (xs, d)) : Continues R S c d xs := by
  induction rounds generalizing c xs with
  | zero =>
    obtain ⟨rfl, rfl⟩ := Prod.mk.inj (Except.ok.inj h)
    exact .nil
  | succ rounds ih =>
    rw [afterItem] at h
    split at h
    · obtain ⟨⟨y, e⟩, hy, h⟩ := bind_eq_ok.1 h
      dsimp only at h
      split at h
      · obtain ⟨⟨x, f⟩, hx, h⟩ := bind_eq_ok.1 h
        obtain ⟨⟨ys, f'⟩, hys, h⟩ := bind_eq_ok.1 h
        obtain ⟨rfl, rfl⟩ := Prod.mk.inj (Except.ok.inj h)
        exact .cons (hS _ _ _ hy) (hR _ _ _ hx) (ih hys)
      · obtain ⟨rfl, rfl⟩ := Prod.mk.inj (Except.ok.inj h)
        exact .last (hS _ _ _ hy)
    · obtain ⟨rfl, rfl⟩ := Prod.mk.inj (Except.ok.inj h)
      exact .nil

end Reader

section

variable {g : Grammar N} {look : Lookahead N} {D : Derivability N} {after : Terminal → Bool}
  {nonterminal : {β : Type} → N β → Reader β} {c d : Cursor} {v : α} {n : N α}

theorem Phrase.Derives.read_eq_ok {p : Phrase N α} {tokens levels : Nat} (hD : g.Starts D)
    (hs : p.settled g look after = true)
    (hread : ∀ ⦃γ : Type⦄ (n : N γ) c d v, D n c d v → Fits tokens levels c (look.level n + 1) →
      nonterminal n c = .ok (v, d))
    (hp : p.Derives D c d v) (hd : Next after d.rest) (hfit : Fits tokens levels c (p.opens g look)) :
    p.read g nonterminal c = .ok (v, d) := by
  induction p generalizing c d after with
  | empty =>
    cases hp
    rfl
  | token ts => exact Reader.token_eq_ok hp
  | call n => exact hread n c d v hp hfit
  | both a b iha ihb =>
    obtain ⟨e, ha, hb⟩ := hp
    rw [settled, Bool.and_eq_true] at hs
    have hnext := hb.next hD hs.2 hd
    have hfirst := iha hs.1 ha hnext (hfit.mono (Nat.le_refl _) (Nat.le_max_left ..))
    -- The second part is read at the depth of the first only if the first has taken no token.
    have hsecond : Fits tokens levels e (b.opens g look) := by
      rcases ha.starts hD hs.1 with ⟨rfl, hna⟩ | hadv
      · exact hfit.mono (Nat.le_refl _) (by rw [opens, hna, if_pos rfl]; exact Nat.le_max_right ..)
      · exact hfit.later hadv.1
    change Reader.both _ _ c = _
    simp [Reader.both, hfirst, ihb hs.2 hb hd hsecond, bind, Except.bind, pure, Except.pure]
  | either a b iha ihb =>
    simp only [settled, Bool.and_eq_true, Bool.not_eq_true', Bool.or_eq_true] at hs
    obtain ⟨⟨⟨⟨hna, hapart⟩, hafter⟩, hsa⟩, hsb⟩ := hs
    change (if c.atTerminal (a.startsWith g) then _ else _) = _
    rcases hp with ha | hb
    · rw [if_pos ((ha.advances hD hsa hna).atTerminal fun _ => id)]
      exact iha hsa ha hd (hfit.mono (Nat.le_refl _) (Nat.le_max_left ..))
    · have hnot : c.atTerminal (a.startsWith g) = false := by
        rcases hb.starts hD hsb with ⟨rfl, hnb⟩ | hadv
        · exact hd.not_atTerminal (Terminal.apart_iff.1 (hafter.resolve_left (by simp [hnb])))
        · exact hadv.next.not_atTerminal (Terminal.apart_iff.1 hapart)
      rw [if_neg (by simp [hnot])]
      exact ihb hsb hb hd (hfit.mono (Nat.le_refl _) (Nat.le_max_right ..))
  | maybe a iha =>
    simp only [settled, Bool.and_eq_true, Bool.not_eq_true'] at hs
    obtain ⟨⟨hna, hapart⟩, hsa⟩ := hs
    change (if c.atTerminal (a.startsWith g) then _ else _) = _
    rcases hp with ⟨rfl, rfl⟩ | ⟨x, rfl, ha⟩
    · rw [if_neg (by simp [hd.not_atTerminal (Terminal.apart_iff.1 hapart)])]
    · rw [if_pos ((ha.advances hD hsa hna).atTerminal fun _ => id)]
      simp [Reader.map, iha hsa ha hd hfit, bind, Except.bind, pure, Except.pure]
  | many a iha =>
    simp only [settled, Bool.and_eq_true, Bool.not_eq_true'] at hs
    obtain ⟨⟨hna, hapart⟩, hsa⟩ := hs
    have item (c d x) (hx : a.Derives D c d x) := hx.advances hD hsa hna
    change Reader.many _ _ c.rest.length c = _
    refine Reader.many_eq_ok (fun c' d x hle hx => ⟨item _ _ _ hx.1, ?_⟩)
      (repeats_followed item hd hp) (hd.not_atTerminal (Terminal.apart_iff.1 hapart)) (Nat.le_refl _)
    exact iha hsa hx.1 hx.2 (hfit.mono hle (Nat.le_refl _))
  | list a s iha ihs =>
    obtain ⟨e, x, xs, hx, hxs, rfl⟩ := hp
    simp only [settled, Bool.and_eq_true, Bool.not_eq_true'] at hs
    obtain ⟨⟨⟨⟨⟨hna, hns⟩, hapart⟩, hapart'⟩, hsa⟩, hss⟩ := hs
    have item (c d x) (hx : a.Derives D c d x) := hx.advances hD hsa hna
    have separator (c d x) (hx : s.Derives D c d x) := hx.advances hD hss hns
    have hnext := hd.before (continues_starts item separator hxs)
    -- Everything behind the first item is read with fewer tokens left.
    have hlt := (item _ _ _ hx).1
    have hfirst := iha hsa hx hnext hfit
    have hrest : Reader.afterItem (s.startsWith g) (a.startsWith g) (a.read g nonterminal)
        (s.read g nonterminal) e.rest.length e = .ok (xs, d) := by
      refine Reader.afterItem_eq_ok (fun c' d x hle hx => ⟨item _ _ _ hx.1, ?_⟩)
        (fun c' d x hle hx => ⟨separator _ _ _ hx.1, ?_⟩) (continues_followed item separator hd hxs)
        (hd.not_atTerminal (Terminal.apart_iff.1 hapart))
        (hd.not_atTerminal (Terminal.apart_iff.1 hapart')) (Nat.le_refl _)
      · exact iha hsa hx.1 hx.2 (hfit.later (by omega))
      · exact ihs hss hx.1 hx.2 (hfit.later (by omega))
    simp [Phrase.read, hfirst, hrest, bind, Except.bind, pure, Except.pure]
  | map f a iha =>
    obtain ⟨x, ha, rfl⟩ := hp
    change Reader.map f _ c = _
    simp [Reader.map, iha hs ha hd hfit, bind, Except.bind, pure, Except.pure]
  | spanned a iha =>
    obtain ⟨ha, hv⟩ := hp
    change Reader.spanned _ c = _
    simp [Reader.spanned, iha hs ha hd hfit, bind, Except.bind, pure, Except.pure, ← hv]

theorem Grammar.Predictive.parts (hg : g.Predictive look) (n : N α) :
    (∀ t, (g.rule n).startsWith g t = true → (g.first n).contains t = true) ∧
      ((g.rule n).nullable g = true → g.nullable n = true) ∧
      (g.rule n).opens g look ≤ look.level n ∧ look.level n < chainBound ∧
      (g.rule n).settled g look (look.follow n).contains = true := by
  have h := hg n
  simp only [settles, Bool.and_eq_true, decide_eq_true_eq, Terminal.within_iff] at h
  obtain ⟨⟨⟨⟨hfirst, hnull⟩, hopens⟩, hlevel⟩, hs⟩ := h
  refine ⟨hfirst, fun hn => ?_, hopens, hlevel, hs⟩
  simpa [hn] using hnull

theorem Grammar.Predictive.starts (hg : g.Predictive look) (ends : Endings N) :
    g.Starts (Rules.Derives (fun _ => g.rule) ends) := by
  intro α n c d v h
  refine h.induction (P := fun _ n c d _ =>
    c = d ∧ g.nullable n = true ∨ c.Advances d (g.first n).contains) ?_
  intro α n c d v _ h
  obtain ⟨hfirst, hnull, _, _, hs⟩ := hg.parts n
  have hstarts := h.starts (fun _ n c d v h => h.2) hs
  exact hstarts.imp (fun ⟨hc, hn⟩ => ⟨hc, hnull hn⟩) fun hadv => hadv.mono hfirst

theorem Grammar.Predictive.followed (hg : g.Predictive look)
    (h : Rules.Derives (fun _ => g.rule) Rules.anywhere n c d v)
    (hd : Next (look.follow n).contains d.rest) :
    Rules.Derives (fun _ => g.rule) (fun _ n => Next (look.follow n).contains) n c d v := by
  refine h.induction (P := fun _ n c d v => Next (look.follow n).contains d.rest →
    Rules.Derives (fun _ => g.rule) (fun _ n => Next (look.follow n).contains) n c d v) ?_ hd
  intro α n c d v _ h hd
  obtain ⟨_, _, _, _, hs⟩ := hg.parts n
  have hfollowed := h.followed (fun _ n c d v h => hg.starts _ n c d v h.1) hs hd
  exact Rules.derives_iff.2 ⟨hd, hfollowed.mono fun _ n c d v h => h.1.2 h.2⟩

theorem Grammar.Predictive.readWithin_eq_ok (hg : g.Predictive look)
    (h : Rules.Derives (fun _ => g.rule) (fun _ n => Next (look.follow n).contains) n c d v)
    {depth : Nat} (hdepth : chainBound * c.rest.length + look.level n < depth) :
    g.readWithin depth n c = .ok (v, d) := by
  refine h.induction (P := fun _ n c d v => ∀ depth,
    chainBound * c.rest.length + look.level n < depth → g.readWithin depth n c = .ok (v, d)) ?_ _ hdepth
  intro α n c d v hd h depth hdepth
  obtain ⟨_, _, hopens, _, hs⟩ := hg.parts n
  obtain ⟨depth, rfl⟩ : ∃ k, depth = k + 1 := ⟨depth - 1, by omega⟩
  refine h.read_eq_ok (fun _ n c d v h => hg.starts _ n c d v h.1) hs (fun γ m c' d' w hm hfit => ?_)
    hd (show Fits c.rest.length (look.level n) c _ from .inr ⟨rfl, hopens⟩)
  refine hm.2 depth ?_
  have hlevel := (hg.parts m).2.2.2.1
  have hbound : chainBound = 16 := rfl
  unfold Fits at hfit
  rw [hbound] at hdepth hlevel ⊢
  rcases hfit with hlt | ⟨heq, hle⟩ <;> omega

theorem Phrase.derives_of_read {p : Phrase N α}
    (hread : ∀ ⦃γ : Type⦄ (n : N γ) c d v, nonterminal n c = .ok (v, d) → D n c d v)
    (h : p.read g nonterminal c = .ok (v, d)) : p.Derives D c d v := by
  induction p generalizing c d with
  | empty =>
    obtain ⟨_, rfl⟩ := Prod.mk.inj (Except.ok.inj h)
    rfl
  | token ts => exact Reader.takes_of_token h
  | call n => exact hread n c d v h
  | both a b iha ihb =>
    obtain ⟨⟨x, e⟩, ha, h⟩ := Reader.bind_eq_ok.1 h
    obtain ⟨⟨y, f⟩, hb, h⟩ := Reader.bind_eq_ok.1 h
    obtain ⟨rfl, rfl⟩ := Prod.mk.inj (Except.ok.inj h)
    exact ⟨e, iha ha, ihb hb⟩
  | either a b iha ihb =>
    change (if c.atTerminal (a.startsWith g) then _ else _) = _ at h
    split at h
    · exact .inl (iha h)
    · exact .inr (ihb h)
  | maybe a iha =>
    change (if c.atTerminal (a.startsWith g) then _ else _) = _ at h
    split at h
    · obtain ⟨⟨x, e⟩, ha, h⟩ := Reader.bind_eq_ok.1 h
      obtain ⟨rfl, rfl⟩ := Prod.mk.inj (Except.ok.inj h)
      exact .inr ⟨x, rfl, iha ha⟩
    · obtain ⟨rfl, rfl⟩ := Prod.mk.inj (Except.ok.inj h)
      exact .inl ⟨rfl, rfl⟩
  | many a iha => exact Reader.repeats_of_many (fun c d x => iha) h
  | list a s iha ihs =>
    obtain ⟨⟨x, e⟩, ha, h⟩ := Reader.bind_eq_ok.1 h
    obtain ⟨⟨xs, f⟩, hxs, h⟩ := Reader.bind_eq_ok.1 h
    obtain ⟨rfl, rfl⟩ := Prod.mk.inj (Except.ok.inj h)
    exact ⟨e, x, xs, iha ha, Reader.continues_of_afterItem (fun c d x => iha) (fun c d x => ihs) hxs,
      rfl⟩
  | map f a iha =>
    obtain ⟨⟨x, e⟩, ha, h⟩ := Reader.bind_eq_ok.1 h
    obtain ⟨rfl, rfl⟩ := Prod.mk.inj (Except.ok.inj h)
    exact ⟨x, iha ha, rfl⟩
  | spanned a iha =>
    obtain ⟨⟨x, e⟩, ha, h⟩ := Reader.bind_eq_ok.1 h
    obtain ⟨rfl, rfl⟩ := Prod.mk.inj (Except.ok.inj h)
    exact ⟨iha ha, rfl⟩

theorem Grammar.derives_of_readWithin {depth : Nat} (h : g.readWithin depth n c = .ok (v, d)) :
    Rules.Derives (fun _ => g.rule) Rules.anywhere n c d v := by
  induction depth generalizing α c d with
  | zero => cases h
  | succ depth ih =>
    exact Rules.derives_iff.2 ⟨trivial, Phrase.derives_of_read (fun _ n c d v h => ih h) h⟩

/-- Reading all tokens by a predictive grammar gives exactly what the grammar derives from them. -/
theorem Grammar.Predictive.read_eq_ok_iff (hg : g.Predictive look) {tokens : List Token} :
    g.read n tokens = .ok v ↔
      ∃ last, Rules.Derives (fun _ => g.rule) Rules.anywhere n ⟨.first, tokens⟩ ⟨last, []⟩ v := by
  unfold read
  constructor
  · intro h
    split at h
    · cases h
    · next hok =>
      obtain rfl := Except.ok.inj h
      exact ⟨_, derives_of_readWithin hok⟩
    · cases h
  · rintro ⟨last, h⟩
    have hend : Next (look.follow n).contains ([] : List Token) := fun t ht => by cases ht
    have hdepth : chainBound * tokens.length + look.level n < chainBound * (tokens.length + 1) := by
      have := (hg.parts n).2.2.2.1
      rw [Nat.mul_succ]
      omega
    rw [hg.readWithin_eq_ok (hg.followed h hend) hdepth]

end

end PropTables
