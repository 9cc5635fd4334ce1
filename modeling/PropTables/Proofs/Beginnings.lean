import PropTables.Proofs.Following

/-! Beginnings of derivations. Where reading fails, the tokens before that place can be completed: every
nonterminal derives some tokens, and those that are still open can be closed by them. -/

namespace PropTables

variable {N : Type → Type} {α β : Type}

/-- The tokens are derived wherever they stand. The value may depend on the place. -/
def Accepts (R : Cursor → Cursor → α → Prop) (u : List Token) : Prop :=
  ∀ last more, ∃ e v, R ⟨last, u ++ more⟩ ⟨e, more⟩ v

def Portable (R : Cursor → Cursor → α → Prop) : Prop :=
  ∀ ⦃c d v⦄, R c d v → ∃ u, c.rest = u ++ d.rest ∧ Accepts R u

/-- The tokens up to a cursor are the beginning of something derived. -/
def Opens (R : Cursor → Cursor → α → Prop) (c d : Cursor) : Prop :=
  ∃ u w, c.rest = u ++ d.rest ∧ Accepts R (u ++ w)

section Acceptance

variable {R R' : Cursor → Cursor → α → Prop} {S S' : Cursor → Cursor → β → Prop} {c d e : Cursor}
  {u w : List Token}

theorem accepts_nil {v : α} (h : ∀ c, R c c v) : Accepts R [] :=
  fun last more => ⟨last, v, h ⟨last, more⟩⟩

theorem Accepts.imp (hu : Accepts R u) (h : ∀ {c d v}, R c d v → ∃ w, S c d w) : Accepts S u := by
  intro last more
  obtain ⟨e, v, hv⟩ := hu last more
  exact ⟨e, h hv⟩

theorem accepts_token {ts : List Terminal} {t : Token} (ht : t.terminal ∈ ts) :
    Accepts (fun c d t => c.Takes ts t d) [t] :=
  fun _ _ => ⟨_, t, ht, rfl, rfl⟩

theorem Accepts.append {T : Cursor → Cursor → γ → Prop} (hu : Accepts R u) (hw : Accepts S w)
    (h : ∀ {c e d x y}, R c e x → S e d y → ∃ z, T c d z) : Accepts T (u ++ w) := by
  intro last more
  obtain ⟨e, x, hx⟩ := hu last (w ++ more)
  obtain ⟨d, y, hy⟩ := hw e more
  rw [← List.append_assoc] at hx
  exact ⟨d, h hx hy⟩

def Listed (R : Cursor → Cursor → α → Prop) (S : Cursor → Cursor → β → Prop) (c d : Cursor)
    (xs : List α) : Prop :=
  ∃ e x ys, R c e x ∧ Continues R S e d ys ∧ xs = x :: ys

theorem exists_listed {x : α} {ys : List α} (hx : R c e x) (hys : Continues R S e d ys) :
    ∃ xs, Listed R S c d xs :=
  ⟨_, e, x, ys, hx, hys, rfl⟩

theorem exists_continues {y : β} {xs : List α} (hy : S c e y) (hxs : Listed R S e d xs) :
    ∃ xs, Continues R S c d xs := by
  obtain ⟨f, x, ys, hx, hys, -⟩ := hxs
  exact ⟨_, .cons hy hx hys⟩

theorem exists_repeats_cons {x : α} {xs : List α} (hx : R c e x) (hxs : Repeats R e d xs) :
    ∃ xs, Repeats R c d xs :=
  ⟨_, .cons hx hxs⟩

theorem accepts_repeats_nil : Accepts (Repeats R) [] :=
  accepts_nil fun _ => .nil

theorem accepts_continues_nil : Accepts (Continues R S) [] :=
  accepts_nil fun _ => .nil

theorem Portable.repeats (hR : Portable R) : Portable (Repeats R) := by
  intro c d xs h
  induction h with
  | nil => exact ⟨[], rfl, accepts_repeats_nil⟩
  | cons hx _ ih =>
    obtain ⟨u, hu, hacc⟩ := hR hx
    obtain ⟨w, hw, hacc'⟩ := ih
    exact ⟨u ++ w, by rw [hu, hw, List.append_assoc], hacc.append hacc' exists_repeats_cons⟩

theorem Portable.continues (hR : Portable R) (hS : Portable S) : Portable (Continues R S) := by
  intro c d xs h
  induction h with
  | nil => exact ⟨[], rfl, accepts_continues_nil⟩
  | last hs =>
    obtain ⟨u, hu, hacc⟩ := hS hs
    exact ⟨u, hu, hacc.imp fun h => ⟨[], .last h⟩⟩
  | cons hs hx _ ih =>
    obtain ⟨u, hu, hacc⟩ := hS hs
    obtain ⟨w, hw, hacc'⟩ := hR hx
    obtain ⟨w', hw', hacc''⟩ := ih
    have hlisted : Accepts (Listed R S) (w ++ w') := hacc'.append hacc'' exists_listed
    exact ⟨u ++ (w ++ w'), by rw [hu, hw, hw', List.append_assoc, List.append_assoc],
      hacc.append hlisted exists_continues⟩

theorem opens_of_accepts (h : Accepts R u) : Opens R c c :=
  ⟨[], u, rfl, h⟩

theorem Opens.imp (ho : Opens R c d) (h : ∀ {c d v}, R c d v → ∃ w, S c d w) : Opens S c d := by
  obtain ⟨u, w, hu, hacc⟩ := ho
  exact ⟨u, w, hu, hacc.imp h⟩

theorem Opens.before {T : Cursor → Cursor → γ → Prop} (ho : Opens R c d) (hw : Accepts S w)
    (h : ∀ {c e d x y}, R c e x → S e d y → ∃ z, T c d z) : Opens T c d := by
  obtain ⟨u, w', hu, hacc⟩ := ho
  refine ⟨u, w' ++ w, hu, ?_⟩
  rw [← List.append_assoc]
  exact hacc.append hw h

theorem Opens.after {T : Cursor → Cursor → γ → Prop} {x : α} (ho : Opens S e d) (hR : Portable R)
    (hx : R c e x) (h : ∀ {c e d x y}, R c e x → S e d y → ∃ z, T c d z) : Opens T c d := by
  obtain ⟨u, hu, hacc⟩ := hR hx
  obtain ⟨u', w, hu', hacc'⟩ := ho
  refine ⟨u ++ u', w, by rw [hu, hu', List.append_assoc], ?_⟩
  rw [List.append_assoc]
  exact hacc.append hacc' h

end Acceptance

section Derivations

variable {D : Derivability N} {c d e : Cursor} {u : List Token}

namespace Phrase

theorem exists_both {a : Phrase N α} {b : Phrase N β} {x : α} {y : β} (ha : a.Derives D c e x)
    (hb : b.Derives D e d y) : ∃ v, (both a b).Derives D c d v :=
  ⟨(x, y), e, ha, hb⟩

theorem exists_spanned {a : Phrase N α} {x : α} (ha : a.Derives D c d x) :
    ∃ v, (spanned a).Derives D c d v :=
  ⟨(_, x), ha, rfl⟩

theorem Derives.portable (hD : ∀ ⦃γ : Type⦄ (n : N γ), Portable (D n)) (p : Phrase N α) :
    Portable (p.Derives D) := by
  induction p with
  | empty =>
    rintro c d v rfl
    exact ⟨[], rfl, accepts_nil (v := ()) fun _ => rfl⟩
  | token ts =>
    rintro c d t ⟨ht, hrest, -⟩
    exact ⟨[t], hrest, accepts_token ht⟩
  | call n => exact hD n
  | both a b iha ihb =>
    rintro c d v ⟨e, ha, hb⟩
    obtain ⟨u, hu, hacc⟩ := iha ha
    obtain ⟨w, hw, hacc'⟩ := ihb hb
    exact ⟨u ++ w, by rw [hu, hw, List.append_assoc], hacc.append hacc' exists_both⟩
  | either a b iha ihb =>
    rintro c d v (ha | hb)
    · exact (iha ha).imp fun _ h => ⟨h.1, h.2.imp fun h => ⟨_, .inl h⟩⟩
    · exact (ihb hb).imp fun _ h => ⟨h.1, h.2.imp fun h => ⟨_, .inr h⟩⟩
  | maybe a iha =>
    rintro c d v (⟨-, rfl⟩ | ⟨x, -, ha⟩)
    · exact ⟨[], rfl, accepts_nil fun _ => .inl ⟨rfl, rfl⟩⟩
    · exact (iha ha).imp fun _ h => ⟨h.1, h.2.imp fun h => ⟨_, .inr ⟨_, rfl, h⟩⟩⟩
  | many a iha => exact iha.repeats
  | list a s iha ihs =>
    rintro c d v ⟨e, x, xs, hx, hxs, -⟩
    obtain ⟨u, hu, hacc⟩ := iha hx
    obtain ⟨w, hw, hacc'⟩ := iha.continues ihs hxs
    exact ⟨u ++ w, by rw [hu, hw, List.append_assoc], hacc.append hacc' exists_listed⟩
  | map f a iha =>
    rintro c d v ⟨x, ha, -⟩
    exact (iha ha).imp fun _ h => ⟨h.1, h.2.imp fun h => ⟨_, _, h, rfl⟩⟩
  | spanned a iha =>
    rintro c d v ⟨ha, -⟩
    exact (iha ha).imp fun _ h => ⟨h.1, h.2.imp exists_spanned⟩

end Phrase

theorem Rules.Derives.portable {rules : Rules N} (n : N α) :
    Portable (rules.Derives Rules.anywhere n) := by
  intro c d v h
  refine h.induction (P := fun _ m c d _ =>
    ∃ u, c.rest = u ++ d.rest ∧ Accepts (rules.Derives Rules.anywhere m) u) ?_
  intro γ m c d x _ h
  have hportable : ∀ ⦃δ : Type⦄ (k : N δ), Portable fun c d y =>
      rules.Derives Rules.anywhere k c d y ∧
        ∃ u, c.rest = u ++ d.rest ∧ Accepts (rules.Derives Rules.anywhere k) u := by
    rintro δ k c d y ⟨-, u, hu, hacc⟩
    refine ⟨u, hu, fun last more => ?_⟩
    obtain ⟨e, z, hz⟩ := hacc last more
    exact ⟨e, z, hz, u, rfl, hacc⟩
  obtain ⟨u, hu, hacc⟩ := Phrase.Derives.portable hportable (rules m) h
  exact ⟨u, hu, hacc.imp fun hy =>
    ⟨_, Rules.derives_iff.2 ⟨trivial, hy.mono fun _ _ _ _ _ h => h.1⟩⟩⟩

end Derivations

namespace Phrase

def hasTerminals : {α : Type} → Phrase N α → Bool
  | _, empty => true
  | _, token ts => !ts.isEmpty
  | _, call _ => true
  | _, both a b => a.hasTerminals && b.hasTerminals
  | _, either a b => a.hasTerminals && b.hasTerminals
  | _, maybe a => a.hasTerminals
  | _, many a => a.hasTerminals
  | _, list a s => a.hasTerminals && s.hasTerminals
  | _, map _ a => a.hasTerminals
  | _, spanned a => a.hasTerminals

def productive (known : {β : Type} → N β → Bool) : {α : Type} → Phrase N α → Bool
  | _, empty => true
  | _, token ts => !ts.isEmpty
  | _, call n => known n
  | _, both a b => a.productive known && b.productive known
  | _, either a b => a.productive known || b.productive known
  | _, maybe _ => true
  | _, many _ => true
  | _, list a _ => a.productive known
  | _, map _ a => a.productive known
  | _, spanned a => a.productive known

variable {D : Derivability N} {known : {β : Type} → N β → Bool} {p : Phrase N α}

theorem exists_accepts_of_productive
    (hknown : ∀ ⦃γ : Type⦄ (n : N γ), known n = true → ∃ u, Accepts (D n) u)
    (h : p.productive known = true) : ∃ u, Accepts (p.Derives D) u := by
  induction p with
  | empty => exact ⟨[], accepts_nil (v := ()) fun _ => rfl⟩
  | token ts =>
    cases ts with
    | nil => simp [productive] at h
    | cons t ts => exact ⟨_, accepts_token (t := ⟨t, "", .first, .first⟩) (List.mem_cons_self ..)⟩
  | call n => exact hknown n h
  | both a b iha ihb =>
    rw [productive, Bool.and_eq_true] at h
    obtain ⟨u, hu⟩ := iha h.1
    obtain ⟨w, hw⟩ := ihb h.2
    exact ⟨u ++ w, hu.append hw exists_both⟩
  | either a b iha ihb =>
    rw [productive, Bool.or_eq_true] at h
    rcases h with ha | hb
    · exact (iha ha).imp fun _ h => h.imp fun h => ⟨_, .inl h⟩
    · exact (ihb hb).imp fun _ h => h.imp fun h => ⟨_, .inr h⟩
  | maybe a => exact ⟨[], accepts_nil fun _ => .inl ⟨rfl, rfl⟩⟩
  | many a => exact ⟨[], accepts_repeats_nil⟩
  | list a s iha => exact (iha h).imp fun _ h => h.imp fun h => exists_listed h .nil
  | map f a iha => exact (iha h).imp fun _ h => h.imp fun h => ⟨_, _, h, rfl⟩
  | spanned a iha => exact (iha h).imp fun _ h => h.imp exists_spanned

theorem productive_of_hasTerminals (hknown : ∀ ⦃γ : Type⦄ (n : N γ), known n = true)
    (h : p.hasTerminals = true) : p.productive known = true := by
  induction p with
  | empty | maybe | many => rfl
  | token ts => exact h
  | call n => exact hknown n
  | both a b iha ihb =>
    simp only [hasTerminals, Bool.and_eq_true] at h
    simp [productive, iha h.1, ihb h.2]
  | either a b iha ihb =>
    simp only [hasTerminals, Bool.and_eq_true] at h
    simp [productive, iha h.1]
  | list a s iha =>
    simp only [hasTerminals, Bool.and_eq_true] at h
    exact iha h.1
  | map f a iha => exact iha h
  | spanned a iha => exact iha h

end Phrase

namespace Grammar

def productiveWithin (g : Grammar N) : (height : Nat) → {α : Type} → N α → Bool
  | 0, _, _ => false
  | height + 1, _, n => (g.rule n).productive (g.productiveWithin height)

def Productive (g : Grammar N) (height : Nat) : Prop :=
  ∀ ⦃α : Type⦄ (n : N α), g.productiveWithin height n = true ∧ (g.rule n).hasTerminals = true

abbrev Generates (g : Grammar N) : Derivability N :=
  Rules.Derives (fun _ => g.rule) Rules.anywhere

variable {g : Grammar N} {height : Nat}

theorem exists_accepts_of_productiveWithin {n : N α} (h : g.productiveWithin height n = true) :
    ∃ u, Accepts (g.Generates n) u := by
  induction height generalizing α with
  | zero => cases h
  | succ height ih =>
    obtain ⟨u, hu⟩ := Phrase.exists_accepts_of_productive (fun _ m hm => ih hm) h
    exact ⟨u, hu.imp fun h => ⟨_, Rules.derives_iff.2 ⟨trivial, h⟩⟩⟩

theorem Productive.exists_accepts (hg : g.Productive height) {p : Phrase N α}
    (h : p.hasTerminals = true) : ∃ u, Accepts (p.Derives g.Generates) u := by
  have hproductive : p.productive (g.productiveWithin height) = true :=
    Phrase.productive_of_hasTerminals (fun _ n => (hg n).1) h
  exact Phrase.exists_accepts_of_productive (fun _ _ => exists_accepts_of_productiveWithin) hproductive

end Grammar

namespace Reader

/-- What a reader gives is derived, and where it fails something is open. -/
structure Sound (a : Reader α) (R : Cursor → Cursor → α → Prop) : Prop where
  derives : ∀ ⦃c d x⦄, a c = .ok (x, d) → R c d x
  opens : ∀ ⦃c d⦄, a c = .error d → Opens R c d

variable {a : Reader α} {s : Reader β} {R : Cursor → Cursor → α → Prop}
  {S : Cursor → Cursor → β → Prop} {p q : Terminal → Bool} {c d : Cursor} {rounds : Nat}

theorem bind_eq_error {ε γ δ : Type} {x : Except ε γ} {f : γ → Except ε δ} {e : ε} :
    x >>= f = .error e ↔ x = .error e ∨ ∃ z, x = .ok z ∧ f z = .error e := by
  cases x <;> simp [bind, Except.bind]

theorem Sound.opens_many (ha : a.Sound R) (hR : Portable R) (h : many p a rounds c = .error d) :
    Opens (Repeats R) c d := by
  induction rounds generalizing c with
  | zero => cases h
  | succ rounds ih =>
    rw [many] at h
    split at h
    · rcases bind_eq_error.1 h with h | ⟨⟨x, e⟩, hx, h⟩
      · exact (ha.opens h).before accepts_repeats_nil exists_repeats_cons
      · rcases bind_eq_error.1 h with h | ⟨_, -, h⟩
        · exact (ih h).after hR (ha.derives hx) exists_repeats_cons
        · cases h
    · cases h

theorem Sound.opens_afterItem (ha : a.Sound R) (hs : s.Sound S) (hR : Portable R)
    (hS : Portable S) (h : afterItem q p a s rounds c = .error d) :
    Opens (Continues R S) c d := by
  induction rounds generalizing c with
  | zero => cases h
  | succ rounds ih =>
    rw [afterItem] at h
    split at h
    · rcases bind_eq_error.1 h with h | ⟨⟨y, e⟩, hy, h⟩
      · exact (hs.opens h).imp fun h => ⟨[], .last h⟩
      · dsimp only at h
        split at h
        · have hlisted : Opens (Listed R S) e d := by
            rcases bind_eq_error.1 h with h | ⟨⟨x, f⟩, hx, h⟩
            · exact (ha.opens h).before accepts_continues_nil exists_listed
            · rcases bind_eq_error.1 h with h | ⟨_, -, h⟩
              · exact (ih h).after hR (ha.derives hx) exists_listed
              · cases h
          exact hlisted.after hS (hs.derives hy) exists_continues
        · cases h
    · cases h

end Reader

section Reading

variable {g : Grammar N} {height : Nat} {nonterminal : {β : Type} → N β → Reader β}

theorem Phrase.opens_of_read {p : Phrase N α} {c d : Cursor} (hg : g.Productive height)
    (hread : ∀ ⦃γ : Type⦄ (n : N γ), (nonterminal n).Sound (g.Generates n))
    (hp : p.hasTerminals = true) (h : p.read g nonterminal c = .error d) :
    Opens (p.Derives g.Generates) c d := by
  have portable {γ : Type} (q : Phrase N γ) : Portable (q.Derives g.Generates) :=
    Derives.portable (fun _ n => Rules.Derives.portable n) q
  have derives {γ : Type} {q : Phrase N γ} {c d : Cursor} {x : γ}
      (h : q.read g nonterminal c = .ok (x, d)) : q.Derives g.Generates c d x :=
    derives_of_read (fun _ n _ _ _ h => (hread n).derives h) h
  induction p generalizing c d with
  | empty => cases h
  | token ts =>
    obtain ⟨u, hu⟩ := hg.exists_accepts hp
    have hd : c = d := by
      obtain ⟨last, _ | ⟨t, rest⟩⟩ := c
      · exact Except.error.inj h
      · change (if _ then _ else _) = _ at h
        split at h
        · cases h
        · exact Except.error.inj h
    exact hd ▸ opens_of_accepts hu
  | call n => exact (hread n).opens h
  | both a b iha ihb =>
    rw [hasTerminals, Bool.and_eq_true] at hp
    rcases Reader.bind_eq_error.1 h with h | ⟨⟨x, e⟩, hx, h⟩
    · obtain ⟨w, hw⟩ := hg.exists_accepts hp.2
      exact (iha hp.1 h).before hw exists_both
    · rcases Reader.bind_eq_error.1 h with h | ⟨_, -, h⟩
      · exact (ihb hp.2 h).after (portable a) (derives hx) exists_both
      · cases h
  | either a b iha ihb =>
    rw [hasTerminals, Bool.and_eq_true] at hp
    change (if c.atTerminal (a.startsWith g) then _ else _) = _ at h
    split at h
    · exact (iha hp.1 h).imp fun h => ⟨_, .inl h⟩
    · exact (ihb hp.2 h).imp fun h => ⟨_, .inr h⟩
  | maybe a iha =>
    change (if c.atTerminal (a.startsWith g) then _ else _) = _ at h
    split at h
    · rcases Reader.bind_eq_error.1 h with h | ⟨_, -, h⟩
      · exact (iha hp h).imp fun h => ⟨_, .inr ⟨_, rfl, h⟩⟩
      · cases h
    · cases h
  | many a iha =>
    exact Reader.Sound.opens_many ⟨fun _ _ _ => derives, fun _ _ => iha hp⟩ (portable a) h
  | list a s iha ihs =>
    rw [hasTerminals, Bool.and_eq_true] at hp
    rcases Reader.bind_eq_error.1 h with h | ⟨⟨x, e⟩, hx, h⟩
    · exact (iha hp.1 h).before accepts_continues_nil exists_listed
    · rcases Reader.bind_eq_error.1 h with h | ⟨_, -, h⟩
      · have hrest : Opens (Continues (a.Derives g.Generates) (s.Derives g.Generates)) e d :=
          Reader.Sound.opens_afterItem ⟨fun _ _ _ => derives, fun _ _ => iha hp.1⟩
            ⟨fun _ _ _ => derives, fun _ _ => ihs hp.2⟩ (portable a) (portable s) h
        exact hrest.after (portable a) (derives hx) exists_listed
      · cases h
  | map f a iha =>
    rcases Reader.bind_eq_error.1 h with h | ⟨_, -, h⟩
    · exact (iha hp h).imp fun h => ⟨_, _, h, rfl⟩
    · cases h
  | spanned a iha =>
    rcases Reader.bind_eq_error.1 h with h | ⟨_, -, h⟩
    · exact (iha hp h).imp exists_spanned
    · cases h

theorem Grammar.Productive.sound_readWithin (hg : g.Productive height) (depth : Nat) (n : N α) :
    Reader.Sound (g.readWithin depth n) (g.Generates n) := by
  -- Reading is sound even where the bound on its depth ends it.
  refine ⟨fun _ _ _ => derives_of_readWithin, ?_⟩
  induction depth generalizing α with
  | zero =>
    intro c d h
    obtain rfl := Except.error.inj h
    obtain ⟨u, hu⟩ := exists_accepts_of_productiveWithin (hg n).1
    exact opens_of_accepts hu
  | succ depth ih =>
    intro c d h
    have hopens := Phrase.opens_of_read hg (fun _ n => ⟨fun _ _ _ => derives_of_readWithin, ih n⟩)
      (hg n).2 h
    exact hopens.imp fun h => ⟨_, Rules.derives_iff.2 ⟨trivial, h⟩⟩

theorem Grammar.read_eq_error_iff {n : N α} {tokens rest : List Token} :
    g.read n tokens = .error rest ↔
      ∃ d : Cursor, d.rest = rest ∧
        (g.readWithin (chainBound * (tokens.length + 1)) n ⟨.first, tokens⟩ = .error d ∨
          rest ≠ [] ∧
            ∃ v, g.readWithin (chainBound * (tokens.length + 1)) n ⟨.first, tokens⟩ = .ok (v, d)) := by
  unfold read
  cases h : g.readWithin (chainBound * (tokens.length + 1)) n ⟨.first, tokens⟩ with
  | error c => simp
  | ok x =>
    obtain ⟨v, last, _ | ⟨t, ts⟩⟩ := x
    · simp
    · simp only [Except.error.injEq, Except.ok.injEq, Prod.mk.injEq, reduceCtorEq, false_or]
      constructor
      · rintro rfl
        exact ⟨_, rfl, List.cons_ne_nil t ts, v, rfl, rfl⟩
      · rintro ⟨_, rfl, -, _, rfl, rfl⟩
        rfl

/-- The tokens before the place where reading fails can be completed to tokens that are read. -/
theorem Grammar.Predictive.exists_read_of_error {look : Lookahead N} (hg : g.Predictive look)
    (hp : g.Productive height) {n : N α} {tokens rest : List Token}
    (h : g.read n tokens = .error rest) :
    ∃ u, tokens = u ++ rest ∧ ∃ more v, g.read n (u ++ more) = .ok v := by
  have reads {u : List Token} (hu : Accepts (g.Generates n) u) : ∃ v, g.read n u = .ok v := by
    obtain ⟨last, v, hv⟩ := hu .first []
    rw [List.append_nil] at hv
    exact ⟨v, hg.read_eq_ok_iff.2 ⟨last, hv⟩⟩
  obtain ⟨d, rfl, h | ⟨-, v, h⟩⟩ := read_eq_error_iff.1 h
  · obtain ⟨u, w, hu, hacc⟩ := (hp.sound_readWithin _ n).opens h
    exact ⟨u, hu, w, reads hacc⟩
  · obtain ⟨u, hu, hacc⟩ := Rules.Derives.portable n (derives_of_readWithin h)
    obtain ⟨w, hw⟩ := reads hacc
    exact ⟨u, hu, [], w, by rwa [List.append_nil]⟩

end Reading

namespace Language

theorem productive : grammar.Productive 6 := by
  intro α n
  cases n <;> decide +kernel

end Language

end PropTables
