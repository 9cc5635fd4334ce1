import PropTables.Proofs.TextOrder
import PropTables.Proofs.WordRuns

/-! Where a lexeme ends is settled by the text up to that place. What follows it decides only whether it
goes on. -/

namespace PropTables

/-- What is recognised at the start of a text lies in the text, is recognised in every part of it that
starts the text and is long enough, and still starts a lexeme when the text goes on. -/
structure Settled {α : Type} (size : α → Nat) (p : List Char → Option α) : Prop where
  le : ∀ ⦃cs x⦄, p cs = some x → size x ≤ cs.length
  restrict : ∀ ⦃s r x⦄, p (s ++ r) = some x → size x ≤ s.length → p s = some x
  grows : ∀ ⦃s⦄ r, (p s).isSome → (p (s ++ r)).isSome

namespace Settled

variable {α β : Type} {size : α → Nat} {p q : List Char → Option α}

theorem or (hp : Settled size p) (hq : Settled size q) :
    Settled size fun cs => (p cs).or (q cs) where
  le cs x h := by
    rcases Option.or_eq_some_iff.1 h with h | ⟨-, h⟩
    · exact hp.le h
    · exact hq.le h
  restrict s r x h hx := by
    rcases Option.or_eq_some_iff.1 h with h | ⟨hnone, h⟩
    · exact Option.or_eq_some_iff.2 (.inl (hp.restrict h hx))
    · refine Option.or_eq_some_iff.2 (.inr ⟨?_, hq.restrict h hx⟩)
      by_contra hsome
      have hgrown := hp.grows r (Option.isSome_iff_ne_none.2 hsome)
      rw [hnone] at hgrown
      cases hgrown
  grows s r h := by
    rw [Option.isSome_or, Bool.or_eq_true] at h ⊢
    exact h.imp (hp.grows r) (hq.grows r)

theorem map {size' : β → Nat} {f : List Char → α → β} (hp : Settled size p)
    (hsize : ∀ cs x, size' (f cs x) = size x)
    (hf : ∀ s r x, size x ≤ s.length → f (s ++ r) x = f s x) :
    Settled size' fun cs => (p cs).map (f cs) where
  le cs y h := by
    obtain ⟨x, hx, rfl⟩ := Option.map_eq_some_iff.1 h
    rw [hsize]
    exact hp.le hx
  restrict s r y h hy := by
    obtain ⟨x, hx, rfl⟩ := Option.map_eq_some_iff.1 h
    rw [hsize] at hy
    rw [hp.restrict hx hy, Option.map_some, hf s r x hy]
  grows s r h := by
    rw [Option.isSome_map] at h ⊢
    exact hp.grows r h

end Settled

namespace Pattern

def behind (d : Char) (p : List Char → Option Nat) : List Char → Option Nat
  | [] => none
  | c :: r => if c = d then (p r).map (· + 1) else none

theorem behind_eq_none {c d : Char} (hc : c ≠ d) (p : List Char → Option Nat) (cs : List Char) :
    behind d p (c :: cs) = none :=
  if_neg hc

theorem settled_behind (d : Char) {p : List Char → Option Nat} (hp : Settled id p) :
    Settled id (behind d p) where
  le cs n h := by
    cases cs with
    | nil => cases h
    | cons c cs =>
      rw [behind] at h
      split at h
      · obtain ⟨m, hm, rfl⟩ := Option.map_eq_some_iff.1 h
        exact Nat.succ_le_succ (hp.le hm)
      · cases h
  restrict s r n h hn := by
    cases s with
    | nil =>
      -- a match takes the character at least
      rw [List.nil_append] at h
      cases r with
      | nil => cases h
      | cons c r =>
        rw [behind] at h
        split at h
        · obtain ⟨m, -, rfl⟩ := Option.map_eq_some_iff.1 h
          simp at hn
        · cases h
    | cons c s =>
      rw [List.cons_append, behind] at h
      rw [behind]
      split at h
      case isTrue hc =>
        obtain ⟨m, hm, rfl⟩ := Option.map_eq_some_iff.1 h
        rw [if_pos hc, hp.restrict hm (Nat.le_of_succ_le_succ hn), Option.map_some]
      case isFalse => cases h
  grows s r h := by
    cases s with
    | nil => cases h
    | cons c s =>
      rw [behind] at h
      rw [List.cons_append, behind]
      split at h
      case isTrue hc =>
        rw [if_pos hc, Option.isSome_map]
        rw [Option.isSome_map] at h
        exact hp.grows r h
      case isFalse => cases h

theorem takeWhile_restrict {p : Char → Bool} {s r : List Char}
    (h : ((s ++ r).takeWhile p).length ≤ s.length) : (s ++ r).takeWhile p = s.takeWhile p := by
  rw [List.takeWhile_append] at h ⊢
  split at h
  case isTrue hall =>
    have hnil : r.takeWhile p = [] := by
      rw [List.length_append] at h
      exact List.length_eq_zero_iff.1 (by omega)
    rw [if_pos hall, hnil, List.append_nil]
    exact ((List.takeWhile_prefix p).eq_of_length hall).symm
  case isFalse hall => rw [if_neg hall]

theorem length_takeWhile_le_append (p : Char → Bool) (s r : List Char) :
    (s.takeWhile p).length ≤ ((s ++ r).takeWhile p).length := by
  rw [List.takeWhile_append]
  split
  case isTrue h => rw [List.length_append]; omega
  case isFalse => exact le_rfl

theorem settled_takeWhile (p : Char → Bool) :
    Settled id fun cs => some (cs.takeWhile p).length where
  le cs n h := by
    cases h
    exact (List.takeWhile_prefix p).length_le
  restrict s r n h hn := by
    cases h
    rw [takeWhile_restrict hn]
  grows _ _ _ := rfl

theorem settled_run (p : Char → Bool) : Settled id (run p) where
  le cs n h := by
    simp only [run] at h
    split at h <;> cases h
    exact (List.takeWhile_prefix p).length_le
  restrict s r n h hn := by
    simp only [run] at h ⊢
    split at h <;> cases h
    next hpos =>
    have heq := takeWhile_restrict hn
    rw [heq] at hpos ⊢
    rw [if_pos hpos]
  grows s r h := by
    simp only [run] at h ⊢
    split at h
    case isTrue hpos =>
      rw [if_pos (hpos.trans_le (length_takeWhile_le_append p s r))]
      rfl
    case isFalse => cases h

theorem settled_name : Settled id name where
  le cs n h := (RunTo.name h).le
  restrict s r n h hn := by
    cases s with
    | nil => exact absurd (name_pos h) (Nat.not_lt.2 hn)
    | cons c s =>
      rw [List.cons_append, name] at h
      rw [name]
      split at h <;> cases h
      next hc =>
      rw [id, List.length_cons, Nat.add_comm] at hn
      rw [if_pos hc, takeWhile_restrict (Nat.le_of_succ_le_succ hn)]
  grows s r h := by
    cases s with
    | nil => cases h
    | cons c s =>
      rw [name] at h
      rw [List.cons_append, name]
      split at h
      case isTrue hc =>
        rw [if_pos hc]
        rfl
      case isFalse => cases h

theorem blockEnd_pos {cs : List Char} {n : Nat} (h : blockEnd cs = some n) : 1 < n := by
  induction cs using blockEnd.induct generalizing n with
  | case1 => cases h
  | case2 cs =>
    cases h
    exact Nat.one_lt_two
  | case3 c cs hend ih =>
    rw [blockEnd.eq_3 _ _ hend, Option.map_eq_some_iff] at h
    obtain ⟨m, hm, rfl⟩ := h
    exact (ih hm).trans (Nat.lt_succ_self m)

theorem settled_blockEnd : Settled id blockEnd where
  le cs n h := by
    induction cs using blockEnd.induct generalizing n with
    | case1 => cases h
    | case2 cs =>
      cases h
      simp
    | case3 c cs hend ih =>
      rw [blockEnd.eq_3 _ _ hend, Option.map_eq_some_iff] at h
      obtain ⟨m, hm, rfl⟩ := h
      exact Nat.succ_le_succ (ih _ hm)
  restrict s r n h hn := by
    induction s using blockEnd.induct generalizing n with
    | case1 => exact absurd (blockEnd_pos h) (by simp at hn; omega)
    | case2 cs => exact h
    | case3 c cs hend ih =>
      -- The two characters that end a comment do not stand astride the two texts: the comment would
      -- be longer than the first.
      have hend' : ∀ r', c = '*' → cs ++ r = '/' :: r' → False := by
        intro r' hc hr
        cases cs with
        | nil =>
          subst hc
          rw [List.cons_append, hr] at h
          cases h
          simp at hn
        | cons d cs =>
          cases hr
          exact hend cs hc rfl
      rw [List.cons_append, blockEnd.eq_3 _ _ hend', Option.map_eq_some_iff] at h
      obtain ⟨m, hm, rfl⟩ := h
      rw [blockEnd.eq_3 _ _ hend, ih _ hm (Nat.le_of_succ_le_succ hn), Option.map_some]
  grows s r h := by
    obtain ⟨n, h⟩ := Option.isSome_iff_exists.1 h
    rw [blockEnd_append h]
    rfl

theorem ne_backslash {c : Char} {cs : List Char} (h₀ : c = '\\' → cs = [] → False)
    (h₁ : ∀ d ds, c = '\\' → cs = d :: ds → False) : c ≠ '\\' := by
  intro hc
  cases cs with
  | nil => exact h₀ hc rfl
  | cons d ds => exact h₁ d ds hc rfl

theorem quotedRest_le {q : Char} {lines : Bool} {cs : List Char} {n : Nat}
    (h : quotedRest q lines cs = some n) : 0 < n ∧ n ≤ cs.length := by
  induction cs using quotedRest.induct q lines generalizing n with
  | case1 | case2 | case3 => cases h
  | case4 c cs hc ih =>
    rw [quotedRest, if_neg hc, Option.map_eq_some_iff] at h
    obtain ⟨m, hm, rfl⟩ := h
    exact ⟨by omega, Nat.add_le_add_right (ih hm).2 2⟩
  | case5 cs h₀ h₁ =>
    rw [quotedRest_cons (ne_backslash h₀ h₁), if_pos rfl] at h
    cases h
    simp
  | case6 c cs h₀ h₁ hq hl =>
    rw [quotedRest_cons (ne_backslash h₀ h₁), if_neg hq, if_pos hl] at h
    cases h
  | case7 c cs h₀ h₁ hq hl ih =>
    rw [quotedRest_cons (ne_backslash h₀ h₁), if_neg hq, if_neg hl, Option.map_eq_some_iff] at h
    obtain ⟨m, hm, rfl⟩ := h
    exact ⟨by omega, Nat.succ_le_succ (ih hm).2⟩

theorem quotedRest_restrict {q : Char} {lines : Bool} {s r : List Char} {n : Nat}
    (h : quotedRest q lines (s ++ r) = some n) (hn : n ≤ s.length) :
    quotedRest q lines s = some n := by
  induction s using quotedRest.induct q lines generalizing n with
  | case1 => exact absurd (quotedRest_le h).1 (Nat.not_lt.2 hn)
  | case2 =>
    cases r with
    | nil => exact h
    | cons c r =>
      -- the backslash takes a character with it that is not in the text
      rw [List.singleton_append, quotedRest] at h
      split at h
      · cases h
      · obtain ⟨m, -, rfl⟩ := Option.map_eq_some_iff.1 h
        simp at hn
  | case3 cs => cases h
  | case4 c cs hc ih =>
    rw [List.cons_append, List.cons_append, quotedRest, if_neg hc, Option.map_eq_some_iff] at h
    obtain ⟨m, hm, rfl⟩ := h
    rw [quotedRest, if_neg hc, ih hm (Nat.le_of_add_le_add_right hn), Option.map_some]
  | case5 cs h₀ h₁ =>
    rw [List.cons_append, quotedRest_cons (ne_backslash h₀ h₁), if_pos rfl] at h
    rw [quotedRest_cons (ne_backslash h₀ h₁), if_pos rfl, h]
  | case6 c cs h₀ h₁ hq hl =>
    rw [List.cons_append, quotedRest_cons (ne_backslash h₀ h₁), if_neg hq, if_pos hl] at h
    cases h
  | case7 c cs h₀ h₁ hq hl ih =>
    rw [List.cons_append, quotedRest_cons (ne_backslash h₀ h₁), if_neg hq, if_neg hl,
      Option.map_eq_some_iff] at h
    obtain ⟨m, hm, rfl⟩ := h
    rw [quotedRest_cons (ne_backslash h₀ h₁), if_neg hq, if_neg hl,
      ih hm (Nat.le_of_add_le_add_right hn), Option.map_some]

theorem settled_quotedRest (q : Char) (lines : Bool) : Settled id (quotedRest q lines) where
  le cs n h := (quotedRest_le h).2
  restrict s r n h hn := quotedRest_restrict h hn
  grows s r h := by
    obtain ⟨n, h⟩ := Option.isSome_iff_exists.1 h
    rw [quotedRest_append h]
    rfl

theorem comment_eq (cs : List Char) : comment cs =
    behind '/' (fun cs => (behind '/' (fun cs => some (cs.takeWhile (· ≠ '\n')).length) cs).or
      (behind '*' blockEnd cs)) cs := by
  unfold comment
  split
  case h_1 r => simp [behind, Nat.add_comm 2]
  case h_2 r => simp [behind, Function.comp_def]
  case h_3 hline hblock =>
    cases cs with
    | nil => rfl
    | cons c cs =>
      rw [behind]
      split
      case isTrue hc =>
        subst hc
        cases cs with
        | nil => rfl
        | cons d cs =>
          have hslash : d ≠ '/' := by
            rintro rfl
            exact hline cs rfl
          have hstar : d ≠ '*' := by
            rintro rfl
            exact hblock cs rfl
          simp [behind, hslash, hstar]
      case isFalse => rfl

theorem settled_comment : Settled id comment := by
  have h : comment = _ := funext comment_eq
  rw [h]
  exact settled_behind _ ((settled_behind _ (settled_takeWhile _)).or
    (settled_behind _ settled_blockEnd))

theorem string_eq (cs : List Char) : string cs =
    (behind '"' (quotedRest '"' false) cs).or (behind '\'' (quotedRest '\'' false) cs) := by
  unfold string
  split
  case h_1 r => simp [behind]
  case h_2 r => simp [behind]
  case h_3 hdouble hsingle =>
    cases cs with
    | nil => rfl
    | cons c cs =>
      have hd : c ≠ '"' := by
        rintro rfl
        exact hdouble cs rfl
      have hs : c ≠ '\'' := by
        rintro rfl
        exact hsingle cs rfl
      simp [behind, hd, hs]

theorem settled_string : Settled id string := by
  have h : string = _ := funext string_eq
  rw [h]
  exact (settled_behind _ (settled_quotedRest _ _)).or (settled_behind _ (settled_quotedRest _ _))

theorem template_eq (cs : List Char) :
    template cs = behind '\x60' (quotedRest '\x60' true) cs := by
  unfold template
  split
  case h_1 r => simp [behind]
  case h_2 hquote =>
    cases cs with
    | nil => rfl
    | cons c cs =>
      have hc : c ≠ '\x60' := by
        rintro rfl
        exact hquote cs rfl
      simp [behind, hc]

theorem settled_template : Settled id template := by
  have h : template = _ := funext template_eq
  rw [h]
  exact settled_behind _ (settled_quotedRest _ _)

section Numbers

variable {s r : List Char} {n : Nat}

theorem digits_restrict (h : digits (s ++ r) ≤ s.length) : digits (s ++ r) = digits s :=
  congrArg List.length (takeWhile_restrict h)

theorem digits_le_append (s r : List Char) : digits s ≤ digits (s ++ r) :=
  length_takeWhile_le_append _ s r

theorem unsigned_restrict (h : unsigned (s ++ r) = some n) (hn : n ≤ s.length) :
    unsigned s = some n := by
  have hpos := unsigned_pos h
  have hdigits : digits (s ++ r) ≤ s.length := by
    rw [unsigned_eq] at h
    split at h <;> split at h
    · cases h
      omega
    · omega
    · cases h
      omega
    · cases h
  rw [unsigned_eq, digits_restrict hdigits] at h
  rw [unsigned_eq]
  have hle := digits_le s
  have hdrop : (s ++ r).drop (digits s) = s.drop (digits s) ++ r :=
    List.drop_append_of_le_length hle
  rcases hle.lt_or_eq with hlt | hall
  · -- the digits of the text end within it, so what follows them is the same
    obtain ⟨c, t, ht⟩ := List.exists_cons_of_ne_nil (List.drop_eq_nil_iff.not.2 hlt.not_ge)
    have htail : (s ++ r).drop (digits s + 1) = s.drop (digits s + 1) ++ r :=
      List.drop_append_of_le_length hlt
    rw [htail, hdrop, ht, List.cons_append, List.head?_cons] at h
    rw [ht, List.head?_cons]
    split at h
    case isTrue hdot =>
      have hfraction : digits (s.drop (digits s + 1) ++ r) ≤ (s.drop (digits s + 1)).length := by
        rw [List.length_drop]
        split at h
        · cases h
          omega
        · split at h <;> cases h
          omega
      rw [digits_restrict hfraction] at h
      rw [if_pos hdot, h]
    case isFalse hdot => rw [if_neg hdot, h]
  · -- the text is digits alone, and a dot behind it would make the number longer than it
    have hnil : s.drop (digits s) = [] := List.drop_eq_nil_iff.2 hall.ge
    rw [hnil, List.head?_nil, if_neg nofun]
    split at h
    case isTrue =>
      split at h
      · cases h
        omega
      · split at h <;> cases h
        omega
    case isFalse => exact h

theorem unsigned_isSome (cs : List Char) : (unsigned cs).isSome ↔
    0 < digits cs ∨ cs.head? = some '.' ∧ 0 < digits (cs.drop 1) := by
  rw [unsigned_eq]
  by_cases hd : 0 < digits cs
  · simp only [hd, if_true, true_or, iff_true]
    split <;> rfl
  · simp only [Nat.eq_zero_of_not_pos hd, List.drop_zero, Nat.zero_add, lt_irrefl, if_false,
      false_or]
    split
    · split <;> simp_all
    · simp_all

theorem settled_unsigned : Settled id unsigned where
  le cs n h := (RunTo.unsigned h).le
  restrict s r n h hn := unsigned_restrict h hn
  grows s r h := by
    rw [unsigned_isSome] at h ⊢
    rcases h with h | ⟨hdot, h⟩
    · exact .inl (h.trans_le (digits_le_append s r))
    · cases s with
      | nil => cases hdot
      | cons c s => exact .inr ⟨hdot, h.trans_le (digits_le_append s r)⟩

theorem exponent_cons (c d : Char) : ∃ k ≤ 1, ∀ s, exponent (c :: d :: s) =
    if (c = 'e' ∨ c = 'E') ∧ 0 < digits ((d :: s).drop k) then 1 + k + digits ((d :: s).drop k)
    else 0 :=
  ⟨if d = '-' ∨ d = '+' then 1 else 0, by split <;> simp, fun s => by simp [exponent]⟩

theorem exponent_eq_zero {cs : List Char} (h : exponent cs ≤ 1) : exponent cs = 0 := by
  cases cs with
  | nil => rfl
  | cons c cs =>
    simp only [exponent] at h ⊢
    generalize (if cs.head? = some '-' ∨ cs.head? = some '+' then 1 else 0) = k at h ⊢
    split at h
    · omega
    · next hno => rw [if_neg hno]

theorem drop_cons_append {c : Char} {i : Nat} (hi : i ≤ s.length + 1) :
    (c :: (s ++ r)).drop i = (c :: s).drop i ++ r := by
  rw [← List.cons_append, List.drop_append_of_le_length hi]

theorem exponent_restrict (h : exponent (s ++ r) ≤ s.length) : exponent (s ++ r) = exponent s := by
  match s with
  | [] => exact Nat.eq_zero_of_le_zero h
  | [c] =>
    have hnone : exponent [c] = 0 := by simp [exponent, digits]
    rw [hnone, exponent_eq_zero h]
  | c :: d :: s =>
    obtain ⟨k, hk, heq⟩ := exponent_cons c d
    rw [List.cons_append, List.cons_append, heq] at h ⊢
    rw [heq]
    have hdrop : (d :: (s ++ r)).drop k = (d :: s).drop k ++ r :=
      drop_cons_append (hk.trans (Nat.le_add_left 1 _))
    have hlen : ((d :: s).drop k).length = s.length + 1 - k := by simp
    rw [hdrop] at h ⊢
    by_cases hc : c = 'e' ∨ c = 'E'
    · have hle : digits ((d :: s).drop k ++ r) ≤ ((d :: s).drop k).length := by
        simp only [hc, true_and, List.length_cons] at h
        split at h <;> omega
      rw [digits_restrict hle]
    · rw [if_neg fun h => hc h.1, if_neg fun h => hc h.1]

theorem number_cons (c : Char) : ∃ k ≤ 1, ∀ s, number (c :: s) =
    (unsigned ((c :: s).drop k)).map fun n => k + n + exponent ((c :: s).drop (k + n)) :=
  ⟨if c = '-' then 1 else 0, by split <;> simp, fun s => by simp [number]⟩

theorem settled_number : Settled id number where
  le cs n h := (RunTo.number h).le
  restrict s r n h hn := by
    cases s with
    | nil => exact absurd (number_pos h) (Nat.not_lt.2 hn)
    | cons c s =>
      obtain ⟨k, hk, heq⟩ := number_cons c
      rw [List.cons_append, heq, Option.map_eq_some_iff] at h
      obtain ⟨m, hm, rfl⟩ := h
      rw [id, List.length_cons] at hn
      have hlen (i : Nat) : ((c :: s).drop i).length = s.length + 1 - i := by simp
      rw [drop_cons_append (by omega)] at hm
      rw [drop_cons_append (by omega)] at hn ⊢
      rw [heq, unsigned_restrict hm (by rw [hlen]; omega), Option.map_some,
        exponent_restrict (by rw [hlen]; omega)]
  grows s r h := by
    cases s with
    | nil => simp [number, unsigned, digits] at h
    | cons c s =>
      obtain ⟨k, hk, heq⟩ := number_cons c
      have hdrop : (c :: (s ++ r)).drop k = (c :: s).drop k ++ r :=
        drop_cons_append (hk.trans (Nat.le_add_left 1 _))
      rw [heq, Option.isSome_map] at h
      rw [List.cons_append, heq, Option.isSome_map, hdrop]
      exact settled_unsigned.grows r h

end Numbers

theorem prefix_restrict {t s r : List Char} (h : t <+: s ++ r) (ht : t.length ≤ s.length) : t <+: s :=
  List.prefix_of_prefix_length_le h (List.prefix_append s r) ht

theorem settled_mark : Settled Prod.snd mark where
  le cs x h := by
    obtain ⟨hlen, hpre⟩ := mark_eq_some (m := x.1) (n := x.2) h
    rw [hlen, ← String.length_toList]
    exact hpre.length_le
  restrict s r x h hx := by
    rw [mark, Option.map_eq_some_iff] at h ⊢
    obtain ⟨m, hm, rfl⟩ := h
    refine ⟨m, ?_, rfl⟩
    rw [List.find?_eq_some_iff_append] at hm ⊢
    obtain ⟨hpre, before, after, hall, hbefore⟩ := hm
    have hgrow {m : Mark} (hm : m.spelling.toList.isPrefixOf s = true) :
        m.spelling.toList.isPrefixOf (s ++ r) = true :=
      List.isPrefixOf_iff_prefix.2 ((List.isPrefixOf_iff_prefix.1 hm).trans (List.prefix_append s r))
    refine ⟨?_, before, after, hall, fun m' hm' => ?_⟩
    · rw [List.isPrefixOf_iff_prefix] at hpre ⊢
      exact prefix_restrict hpre (by rwa [String.length_toList])
    · have hnot := hbefore m' hm'
      simp only [Bool.not_eq_true'] at hnot ⊢
      by_contra hpre'
      rw [hgrow (by simpa using hpre')] at hnot
      cases hnot
  grows s r h := by
    rw [mark, Option.isSome_map, List.find?_isSome] at h ⊢
    obtain ⟨m, hm, hpre⟩ := h
    rw [List.isPrefixOf_iff_prefix] at hpre
    exact ⟨m, hm, List.isPrefixOf_iff_prefix.2 (hpre.trans (List.prefix_append s r))⟩

end Pattern

namespace LexemeClass

open Pattern

/-- The first lexeme of a text is the first lexeme of every part of the text that starts it and holds the
lexeme. -/
theorem settled_recognise : Settled Prod.snd recognise := by
  have as {p : List Char → Option Nat} (hp : Settled id p) (c : LexemeClass) :
      Settled Prod.snd fun cs => (p cs).map (c, ·) :=
    hp.map (fun _ _ => rfl) fun _ _ _ _ => rfl
  have word : Settled Prod.snd fun cs => (name cs).map fun n =>
      (LexemeClass.token (Terminal.ofWord (String.ofList (cs.take n))), n) :=
    settled_name.map (fun _ _ => rfl) fun s r n hn => by
      simp only [List.take_append_of_le_length (show n ≤ s.length from hn)]
  have mark : Settled Prod.snd fun cs => (mark cs).map fun x =>
      (LexemeClass.token (.mark x.1), x.2) :=
    settled_mark.map (fun _ _ => rfl) fun _ _ _ _ => rfl
  have h : recognise = _ := funext recognise_eq
  rw [h]
  exact (as settled_comment _).or ((as settled_number _).or ((as settled_string _).or (word.or
    ((as settled_template _).or ((as (settled_run _) _).or ((as (settled_run _) _).or mark))))))

end LexemeClass

end PropTables
