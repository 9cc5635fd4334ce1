import PropTables.Proofs.Foresight
import PropTables.Proofs.SourcePlaces

/-! Sources that are refused. The fault is at the first token with which the tokens before it begin no
sentence of the grammar; if there is none, it is at the character at which no token starts, or at the
end. -/

namespace PropTables

def IsSentence (tokens : List Token) : Prop :=
  ∃ items, Sentence Rules.anywhere tokens items

def BeginsSentence (tokens : List Token) : Prop :=
  ∃ more, IsSentence (tokens ++ more)

variable {tokens before after rest u w : List Token} {t t' : Token} {items : List (Build Item)}

theorem IsSentence.of_read (h : Language.grammar.read .items tokens = .ok items) : IsSentence tokens :=
  exists_read_iff.1 ⟨items, h⟩

theorem IsSentence.begins (h : IsSentence tokens) : BeginsSentence tokens :=
  ⟨[], by rwa [List.append_nil]⟩

theorem BeginsSentence.of_append (h : BeginsSentence (u ++ w)) : BeginsSentence u := by
  obtain ⟨more, h⟩ := h
  exact ⟨w ++ more, by rwa [← List.append_assoc]⟩

theorem BeginsSentence.of_cons (h : BeginsSentence (u ++ t :: w)) : BeginsSentence (u ++ [t]) :=
  .of_append (w := w) (by rwa [List.append_assoc, List.singleton_append])

/-- The tokens begin a sentence up to the given one, and not with it. -/
structure WrongAt (tokens before : List Token) (t : Token) (after : List Token) : Prop where
  split : tokens = before ++ t :: after
  begins : BeginsSentence before
  wrong : ¬ BeginsSentence (before ++ [t])

section Reading

open PropTables.Language (grammar predictive productive)

/-- Reading stops behind tokens that begin a sentence. -/
theorem begins_of_read_error (h : grammar.read .items tokens = .error rest) :
    ∃ u, tokens = u ++ rest ∧ BeginsSentence u := by
  obtain ⟨u, hu, more, items, hitems⟩ := predictive.exists_read_of_error productive h
  exact ⟨u, hu, more, .of_read hitems⟩

theorem wrongAt_of_read_error (h : grammar.read .items tokens = .error (t :: after)) :
    ∃ before, WrongAt tokens before t after := by
  obtain ⟨u, rfl, hu⟩ := begins_of_read_error h
  refine ⟨u, rfl, hu, fun ⟨more, hmore⟩ => ?_⟩
  rw [List.append_assoc, List.singleton_append] at hmore
  obtain ⟨items, hitems⟩ := exists_read_iff.2 hmore
  rw [predictive.read_eq_error_of_prefix h more] at hitems
  cases hitems

theorem WrongAt.unique {before' after' : List Token} (h : WrongAt tokens before t after)
    (h' : WrongAt tokens before' t' after') : before = before' ∧ t :: after = t' :: after' := by
  obtain ⟨rfl, hbegins, hwrong⟩ := h
  obtain ⟨hsplit, hbegins', hwrong'⟩ := h'
  obtain ⟨_ | ⟨x, xs⟩, hl, hr⟩ | ⟨_ | ⟨x, xs⟩, hl, hr⟩ := List.append_eq_append_iff.1 hsplit
  · exact ⟨by simpa using hl.symm, by simpa using hr⟩
  · obtain ⟨rfl, -⟩ := List.cons.inj hr
    exact absurd (hl ▸ hbegins').of_cons hwrong
  · exact ⟨by simpa using hl, by simpa using hr.symm⟩
  · obtain ⟨rfl, -⟩ := List.cons.inj hr
    exact absurd (hl ▸ hbegins).of_cons hwrong'

theorem WrongAt.not_begins (h : WrongAt tokens before t after) : ¬ BeginsSentence tokens := by
  obtain ⟨rfl, -, hwrong⟩ := h
  exact fun hall => hwrong hall.of_cons

theorem read_eq_error_cons_iff :
    grammar.read .items tokens = .error (t :: after) ↔ ∃ before, WrongAt tokens before t after := by
  refine ⟨wrongAt_of_read_error, fun ⟨before, h⟩ => ?_⟩
  cases hread : grammar.read .items tokens with
  | ok items => exact absurd (IsSentence.of_read hread).begins h.not_begins
  | error unread =>
    cases unread with
    | nil =>
      obtain ⟨u, hu, hbegins⟩ := begins_of_read_error hread
      rw [List.append_nil] at hu
      exact absurd (hu ▸ hbegins) h.not_begins
    | cons t' after' =>
      obtain ⟨before', h'⟩ := wrongAt_of_read_error hread
      rw [(h.unique h').2]

theorem read_eq_error_nil_iff :
    grammar.read .items tokens = .error [] ↔ BeginsSentence tokens ∧ ¬ IsSentence tokens := by
  constructor
  · intro h
    obtain ⟨u, rfl, hbegins⟩ := begins_of_read_error h
    rw [List.append_nil] at h ⊢
    refine ⟨hbegins, fun hsentence => ?_⟩
    obtain ⟨items, hitems⟩ := exists_read_iff.2 hsentence
    rw [h] at hitems
    cases hitems
  · rintro ⟨hbegins, hsentence⟩
    cases hread : grammar.read .items tokens with
    | ok items => exact absurd (IsSentence.of_read hread) hsentence
    | error unread =>
      cases unread with
      | nil => rfl
      | cons t after =>
        obtain ⟨before, h⟩ := wrongAt_of_read_error hread
        exact absurd hbegins h.not_begins

theorem not_read_error_cons_iff :
    (∀ t after, grammar.read .items tokens ≠ .error (t :: after)) ↔ BeginsSentence tokens := by
  constructor
  · intro h
    cases hread : grammar.read .items tokens with
    | ok items => exact (IsSentence.of_read hread).begins
    | error unread =>
      cases unread with
      | nil => exact (read_eq_error_nil_iff.1 hread).1
      | cons t after => exact absurd hread (h t after)
  · intro h t after hread
    obtain ⟨before, hwrong⟩ := wrongAt_of_read_error hread
    exact hwrong.not_begins h

end Reading

theorem Ordered.split_unique {ends : Position → Prop} {before' after' : List Token}
    (h : Ordered ends tokens) (hsplit : tokens = before ++ t :: after)
    (hsplit' : tokens = before' ++ t' :: after') (hstart : t.start = t'.start) : before = before' ∧ t = t' := by
  have hlt {u v : List Token} (huv : tokens = u ++ v) : ∀ x ∈ u, ∀ y ∈ v, x.start < y.start := by
    subst huv
    intro x hx y hy
    have hpair := List.pairwise_append.1 h.pairwise
    exact (h.each x (List.mem_append_left v hx)).2.1.trans_le (hpair.2.2 x hx y hy)
  obtain ⟨_ | ⟨x, xs⟩, hl, hr⟩ | ⟨_ | ⟨x, xs⟩, hl, hr⟩ := List.append_eq_append_iff.1 (hsplit ▸ hsplit')
  · exact ⟨by simpa using hl.symm, (List.cons.inj hr).1⟩
  · obtain ⟨rfl, -⟩ := List.cons.inj hr
    exact absurd hstart (hlt hsplit' t (by simp [hl]) t' (by simp)).ne
  · exact ⟨by simpa using hl, (List.cons.inj hr).1.symm⟩
  · obtain ⟨rfl, -⟩ := List.cons.inj hr
    exact absurd hstart (hlt hsplit t' (by simp [hl]) t (by simp)).ne'

namespace Module

variable {l : Lexing} {source text : String} {file : Option String} {c : Char} {p : Position}

theorem readTokens_eq_unexpectedToken_iff :
    readTokens l = .error (.unexpectedToken text p) ↔
      ∃ before t after, WrongAt l.tokens before t after ∧ t.text = text ∧ t.start = p := by
  have hread : readTokens l = .error (.unexpectedToken text p) ↔
      ∃ t after, Language.grammar.read .items l.tokens = .error (t :: after) ∧ t.text = text ∧
        t.start = p := by
    unfold readTokens
    split
    next unread h =>
      rw [h]
      rcases unread with _ | ⟨t, after⟩
      · rcases hstuck : l.stuck with _ | ⟨c, q⟩ <;> simp [refusal, hstuck]
      · simp [refusal]
    next items h =>
      rcases hstuck : l.stuck with _ | ⟨c, q⟩ <;> simp [refusal, hstuck, h]
  simp only [hread, read_eq_error_cons_iff]
  constructor
  · rintro ⟨t, after, ⟨before, h⟩, ht⟩
    exact ⟨before, t, after, h, ht⟩
  · rintro ⟨before, t, after, h, ht⟩
    exact ⟨t, after, ⟨before, h⟩, ht⟩

theorem readTokens_eq_unexpectedCharacter_iff :
    readTokens l = .error (.unexpectedCharacter c p) ↔
      l.stuck = some (c, p) ∧ BeginsSentence l.tokens := by
  rw [← not_read_error_cons_iff]
  unfold readTokens
  split
  next unread h =>
    rw [h]
    rcases unread with _ | ⟨t, after⟩
    · rcases hstuck : l.stuck with _ | ⟨c', q⟩ <;> simp [refusal, hstuck]
    · simp [refusal]
  next items h =>
    rcases hstuck : l.stuck with _ | ⟨c', q⟩ <;> simp [refusal, hstuck, h]

theorem readTokens_eq_unexpectedEnd_iff :
    readTokens l = .error (.unexpectedEnd p) ↔
      p = (l.tokens.getLast?.map (·.start)).getD .first ∧ l.stuck = none ∧
        BeginsSentence l.tokens ∧ ¬ IsSentence l.tokens := by
  rw [← read_eq_error_nil_iff]
  unfold readTokens
  split
  next unread h =>
    rw [h]
    rcases unread with _ | ⟨t, after⟩
    · rcases hstuck : l.stuck with _ | ⟨c', q⟩ <;> simp [refusal, hstuck, eq_comm]
    · simp [refusal]
  next items h =>
    rcases hstuck : l.stuck with _ | ⟨c', q⟩ <;> simp [refusal, hstuck, h]

theorem ofSource_eq_refused_iff {r : Refusal} (hr : ¬ (SourceFault.refused r).OfMeaning) :
    ofSource names source file = .error (.refused r) ↔ readTokens (Lexing.ofSource source) = .error r := by
  simp only [ofSource]
  cases h : readTokens (Lexing.ofSource source) with
  | error r' => simp
  | ok items =>
    have hread : Language.grammar.read .items (Lexing.ofSource source).tokens = .ok items := by
      unfold readTokens at h
      split at h
      · cases h
      · next hread =>
        split at h <;> cases h
        exact hread
    have hyields := items_sit (read_eq_ok_iff.1 hread)
    cases hrun : (items.mapM id).run ⟨(Lexing.ofSource source).comments, names⟩ with
    | ok xs => simp [hrun]
    | error e =>
      have hne : e ≠ .refused r := fun he => hr (he ▸ hyields.blames hrun)
      simp [hrun, hne]

/-- Where a source is refused: at a token exactly if the tokens before it begin a sentence and do not
with it, at a character exactly if no token starts there and the tokens before it begin a sentence, and
at the end exactly if the tokens reach to it and begin a sentence without being one. -/
theorem refused_at_first_wrong_place (source : String) (file : Option String) :
    (∀ before t after, (Lexing.ofSource source).tokens = before ++ t :: after →
      (ofSource names source file = .error (.refused (.unexpectedToken t.text t.start)) ↔
        BeginsSentence before ∧ ¬ BeginsSentence (before ++ [t]))) ∧
    (∀ text p, ofSource names source file = .error (.refused (.unexpectedToken text p)) →
      ∃ t ∈ (Lexing.ofSource source).tokens, t.text = text ∧ t.start = p) ∧
    (∀ c p, ofSource names source file = .error (.refused (.unexpectedCharacter c p)) ↔
      (Lexing.ofSource source).stuck = some (c, p) ∧
        BeginsSentence (Lexing.ofSource source).tokens) ∧
    ∀ p, ofSource names source file = .error (.refused (.unexpectedEnd p)) ↔
      p = ((Lexing.ofSource source).tokens.getLast?.map (·.start)).getD .first ∧
        (Lexing.ofSource source).stuck = none ∧ BeginsSentence (Lexing.ofSource source).tokens ∧
        ¬ IsSentence (Lexing.ofSource source).tokens := by
  refine ⟨fun before t after hsplit => ?_, fun text p h => ?_, fun c p => ?_, fun p => ?_⟩
  · rw [ofSource_eq_refused_iff id, readTokens_eq_unexpectedToken_iff]
    constructor
    · rintro ⟨before', t', after', h, -, hstart⟩
      obtain ⟨rfl, rfl⟩ := (Lexing.ordered_ofSource source).split_unique h.split hsplit hstart
      exact ⟨h.begins, h.wrong⟩
    · rintro ⟨hbegins, hwrong⟩
      exact ⟨before, t, after, ⟨hsplit, hbegins, hwrong⟩, rfl, rfl⟩
  · rw [ofSource_eq_refused_iff id, readTokens_eq_unexpectedToken_iff] at h
    obtain ⟨before, t, after, h, ht⟩ := h
    exact ⟨t, by simp [h.split], ht⟩
  · rw [ofSource_eq_refused_iff id, readTokens_eq_unexpectedCharacter_iff]
  · rw [ofSource_eq_refused_iff id, readTokens_eq_unexpectedEnd_iff]

theorem refused_at_second_equals_sign :
    let tokens := (Lexing.ofSource "type A = = B").tokens
    ofSource .none "type A = = B" none = .error (.refused (.unexpectedToken "=" ⟨1, 10⟩)) ∧
      BeginsSentence (tokens.take 3) ∧ ¬ BeginsSentence (tokens.take 4) := by
  intro tokens
  have hlength : 3 < tokens.length := by decide +kernel
  have hsplit : tokens = tokens.take 3 ++ tokens[3] :: tokens.drop 4 := by
    rw [← List.drop_eq_getElem_cons hlength, List.take_append_drop]
  have hsign : tokens[3].text = "=" ∧ tokens[3].start = ⟨1, 10⟩ := by
    decide +kernel +revert
  have hread : ofSource .none "type A = = B" none = .error (.refused (.unexpectedToken "=" ⟨1, 10⟩)) := by
    have hfault : (ofSource .none "type A = = B" none).map (fun _ => ()) =
        .error (.refused (.unexpectedToken "=" ⟨1, 10⟩)) := by
      decide +kernel
    cases hsource : ofSource .none "type A = = B" none with
    | error e =>
      rw [hsource] at hfault
      cases hfault
      rfl
    | ok m =>
      rw [hsource] at hfault
      cases hfault
  have hwrong := ((refused_at_first_wrong_place "type A = = B" none).1 _ _ _ hsplit).1
    (by rw [hsign.1, hsign.2, hread])
  refine ⟨hread, hwrong.1, ?_⟩
  rw [List.take_succ_eq_append_getElem hlength]
  exact hwrong.2

end Module

end PropTables
