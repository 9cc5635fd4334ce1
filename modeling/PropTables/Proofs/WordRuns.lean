import PropTables.Proofs.Lexemes

/-! Runs of the characters of names and numbers. A member access on a number has no blank in it, and
then the dot may belong to the number: `1.x` is a number and a name. What follows a run is none of
its characters, so the tokens of a run are its own. -/

namespace PropTables

namespace Pattern

def inRun (c : Char) : Bool :=
  continuesName c || isDecimalDigit c || c == '.' || c == '-' || c == '+'

theorem takeWhile_append_of_stops {p : Char → Bool} (hp : (stoppers.all fun c => !p c) = true)
    (cs : List Char) {r : List Char} (hr : Stops r) :
    (cs ++ r).takeWhile p = cs.takeWhile p := by
  have hnil : r.takeWhile p = [] := by
    cases r with
    | nil => rfl
    | cons c r =>
      have hc := List.all_eq_true.1 hp c (hr c rfl)
      rw [List.takeWhile_cons_of_neg (by simpa using hc)]
  rw [List.takeWhile_append, hnil, List.append_nil]
  split
  case isTrue h => exact ((List.takeWhile_prefix p).eq_of_length h).symm
  case isFalse => rfl

section Stops

variable {cs r : List Char}

theorem digits_append_of_stops (cs : List Char) (hr : Stops r) : digits (cs ++ r) = digits cs := by
  rw [digits, takeWhile_append_of_stops (by decide) cs hr, digits]

theorem digits_le (cs : List Char) : digits cs ≤ cs.length :=
  (List.takeWhile_prefix _).length_le

theorem head?_ne_of_stops (hr : Stops r) {c : Char} (hc : c ∉ stoppers) : r.head? ≠ some c :=
  fun h => hc (hr c h)

theorem head?_append_of_stops (cs : List Char) (hr : Stops r) {c : Char} (hc : c ∉ stoppers) :
    (cs ++ r).head? = some c ↔ cs.head? = some c := by
  cases cs with
  | nil => simpa using head?_ne_of_stops hr hc
  | cons d cs => simp

theorem unsigned_eq (cs : List Char) :
    unsigned cs =
      if (cs.drop (digits cs)).head? = some '.' then
        if 0 < digits cs then some (digits cs + 1 + digits (cs.drop (digits cs + 1)))
        else if 0 < digits (cs.drop (digits cs + 1)) then
          some (1 + digits (cs.drop (digits cs + 1)))
        else none
      else if 0 < digits cs then some (digits cs) else none := by
  have htail : cs.drop (digits cs + 1) = (cs.drop (digits cs)).tail := by
    rw [List.tail_drop]
  rw [unsigned, htail]
  cases cs.drop (digits cs) with
  | nil => rfl
  | cons c r =>
    by_cases hc : c = '.'
    · subst hc
      rfl
    · simp only [List.head?_cons, Option.some.injEq, hc, if_false]
      split
      case h_1 h => cases h; exact (hc rfl).elim
      case h_2 => rfl

theorem unsigned_append_of_stops (cs : List Char) (hr : Stops r) :
    unsigned (cs ++ r) = unsigned cs := by
  have hdrop : (cs ++ r).drop (digits cs) = cs.drop (digits cs) ++ r :=
    List.drop_append_of_le_length (digits_le cs)
  rw [unsigned_eq, unsigned_eq cs, digits_append_of_stops cs hr, hdrop]
  simp only [head?_append_of_stops _ hr (by decide : '.' ∉ stoppers)]
  split
  case isFalse => rfl
  case isTrue h =>
    have hlen : digits cs + 1 ≤ cs.length := by
      rw [List.head?_drop, List.getElem?_eq_some_iff] at h
      obtain ⟨hlt, _⟩ := h
      exact hlt
    rw [List.drop_append_of_le_length hlen, digits_append_of_stops _ hr]

theorem exponent_append_of_stops (cs : List Char) (hr : Stops r) :
    exponent (cs ++ r) = exponent cs := by
  cases cs with
  | nil =>
    cases r with
    | nil => rfl
    | cons c r =>
      have he : ¬ (c = 'e' ∨ c = 'E') := by
        have hc := hr c rfl
        rintro (rfl | rfl) <;> revert hc <;> decide
      simp only [List.nil_append, exponent, he, false_and, if_false]
  | cons c cs =>
    rw [List.cons_append, exponent, exponent]
    simp only [head?_append_of_stops cs hr (by decide : '-' ∉ stoppers),
      head?_append_of_stops cs hr (by decide : '+' ∉ stoppers)]
    -- the sign is within the text, so its digits are looked for in the same place
    have hsign : (if cs.head? = some '-' ∨ cs.head? = some '+' then 1 else 0) ≤ cs.length := by
      cases cs with
      | nil => simp
      | cons => split <;> simp
    rw [List.drop_append_of_le_length hsign, digits_append_of_stops _ hr]

end Stops

/-- The first characters of the text, as many as the count says, form a run. -/
structure RunTo (cs : List Char) (n : Nat) : Prop where
  le : n ≤ cs.length
  chars : ∀ c ∈ cs.take n, inRun c = true

namespace RunTo

variable {cs : List Char} {m n : Nat}

theorem zero (cs : List Char) : RunTo cs 0 :=
  ⟨Nat.zero_le _, by simp⟩

theorem one {c : Char} (h : cs.head? = some c) (hc : inRun c = true) : RunTo cs 1 := by
  cases cs with
  | nil => cases h
  | cons d cs =>
    cases h
    exact ⟨by simp, by simpa using hc⟩

theorem add (hm : RunTo cs m) (hn : RunTo (cs.drop m) n) : RunTo cs (m + n) := by
  obtain ⟨hm, hmc⟩ := hm
  obtain ⟨hn, hnc⟩ := hn
  rw [List.length_drop] at hn
  refine ⟨by omega, fun c hc => ?_⟩
  rw [List.take_add, List.mem_append] at hc
  exact hc.elim (hmc c) (hnc c)

theorem of_takeWhile {p : Char → Bool} (hp : ∀ c, p c = true → inRun c = true) (cs : List Char) :
    RunTo cs (cs.takeWhile p).length := by
  have hpre := List.takeWhile_prefix (l := cs) p
  refine ⟨hpre.length_le, fun c hc => ?_⟩
  rw [← List.prefix_iff_eq_take.1 hpre] at hc
  exact hp c (List.mem_takeWhile_imp hc)

theorem digits (cs : List Char) : RunTo cs (digits cs) :=
  of_takeWhile (fun c hc => by simp [inRun, hc]) cs

theorem sign {P : Prop} [Decidable P] (h : P → ∃ c, cs.head? = some c ∧ inRun c = true) :
    RunTo cs (if P then 1 else 0) := by
  split
  case isTrue hP =>
    obtain ⟨c, hc, hrun⟩ := h hP
    exact .one hc hrun
  case isFalse => exact .zero cs

theorem unsigned (h : unsigned cs = some n) : RunTo cs n := by
  have dotted (hd : (cs.drop (Pattern.digits cs)).head? = some '.') :
      RunTo cs (Pattern.digits cs + 1 + Pattern.digits (cs.drop (Pattern.digits cs + 1))) :=
    ((digits cs).add (.one hd (by decide))).add (digits _)
  rw [unsigned_eq] at h
  split at h
  case isTrue hd =>
    have hrun := dotted hd
    split at h
    · cases h; exact hrun
    split at h
    case isTrue hz _ =>
      cases h
      rwa [Nat.eq_zero_of_not_pos hz, Nat.zero_add] at hrun ⊢
    case isFalse => cases h
  case isFalse =>
    split at h
    · cases h; exact digits cs
    · cases h

theorem exponent (cs : List Char) : RunTo cs (exponent cs) := by
  cases cs with
  | nil => exact .zero []
  | cons c r =>
    have hsign : RunTo r (if r.head? = some '-' ∨ r.head? = some '+' then 1 else 0) := by
      refine sign fun h => ?_
      rcases h with h | h
      · exact ⟨_, h, by decide⟩
      · exact ⟨_, h, by decide⟩
    rw [Pattern.exponent]
    generalize (if r.head? = some '-' ∨ r.head? = some '+' then 1 else 0) = k at hsign ⊢
    split
    case isTrue h =>
      have hc : inRun c = true := by
        rcases h.1 with rfl | rfl <;> decide
      have hfirst : RunTo (c :: r) 1 := one rfl hc
      rw [Nat.add_assoc]
      exact hfirst.add (hsign.add (digits _))
    case isFalse => exact .zero _

theorem number (h : number cs = some n) : RunTo cs n := by
  rw [Pattern.number, Option.map_eq_some_iff] at h
  obtain ⟨k, hk, rfl⟩ := h
  have hsign : RunTo cs (if cs.head? = some '-' then 1 else 0) :=
    sign fun h => ⟨_, h, by decide⟩
  exact (hsign.add (unsigned hk)).add (exponent _)

end RunTo

theorem unsigned_pos {cs : List Char} {n : Nat} (h : unsigned cs = some n) : 0 < n := by
  rw [unsigned_eq] at h
  split at h <;> split at h
  · cases h; omega
  · split at h <;> cases h; omega
  · cases h; assumption
  · cases h

theorem number_pos {cs : List Char} {n : Nat} (h : number cs = some n) : 0 < n := by
  rw [number, Option.map_eq_some_iff] at h
  obtain ⟨k, hk, rfl⟩ := h
  have := unsigned_pos hk
  omega

theorem name_pos {cs : List Char} {n : Nat} (h : name cs = some n) : 0 < n := by
  rw [name.eq_def] at h
  split at h
  · cases h
  · split at h <;> cases h
    omega

theorem number_append_of_stops (cs : List Char) {r : List Char} (hr : Stops r) :
    number (cs ++ r) = number cs := by
  have hsign : RunTo cs (if cs.head? = some '-' then 1 else 0) :=
    .sign fun h => ⟨_, h, by decide⟩
  rw [number, number]
  simp only [head?_append_of_stops cs hr (by decide : '-' ∉ stoppers)]
  -- each part ends within the text, and the next one starts where it ends
  rw [List.drop_append_of_le_length hsign.le, unsigned_append_of_stops _ hr]
  cases hk : unsigned (cs.drop (if cs.head? = some '-' then 1 else 0)) with
  | none => rfl
  | some k =>
    have hrun := hsign.add (.unsigned hk)
    simp only [Option.map_some]
    rw [List.drop_append_of_le_length hrun.le, exponent_append_of_stops _ hr]

theorem name_append_of_stops {cs r : List Char} (hcs : cs ≠ []) (hr : Stops r) :
    name (cs ++ r) = name cs := by
  obtain ⟨c, cs, rfl⟩ := List.exists_cons_of_ne_nil hcs
  rw [List.cons_append, name, name, takeWhile_append_of_stops (by decide) cs hr]

theorem operator_append_of_stops (cs : List Char) {r : List Char} (hr : Stops r) :
    operator (cs ++ r) = operator cs := by
  unfold operator run
  rw [takeWhile_append_of_stops (by decide) cs hr]

theorem isPrefixOf_append_of_head {s : List Char} {r : List Char}
    (hs : ∀ c ∈ s, r.head? ≠ some c) (cs : List Char) :
    s.isPrefixOf (cs ++ r) = s.isPrefixOf cs := by
  induction s generalizing cs with
  | nil => rfl
  | cons d s ih =>
    cases cs with
    | nil =>
      cases r with
      | nil => rfl
      | cons c r =>
        have hdc : d ≠ c := by
          rintro rfl
          exact hs d List.mem_cons_self rfl
        simp [List.isPrefixOf, hdc]
    | cons c cs =>
      rw [List.cons_append, List.isPrefixOf, List.isPrefixOf,
        ih (fun c hc => hs c (List.mem_cons_of_mem _ hc))]

section Run

variable {c : Char} {cs r : List Char}

theorem isPrefixOf_eq_false {d : Char} (hd : inRun d = false) (hc : inRun c = true)
    (s cs : List Char) : (d :: s).isPrefixOf (c :: cs) = false := by
  have hdc : d ≠ c := by
    rintro rfl
    simp [hd] at hc
  simp [List.isPrefixOf, hdc]

theorem mark_append_of_stops (hc : inRun c = true) (cs : List Char) (hr : Stops r) :
    mark (c :: cs ++ r) = mark (c :: cs) := by
  -- a mark with a character that ends runs starts with none of a run
  have h (m : Mark) :
      m.spelling.toList.isPrefixOf (c :: cs ++ r) = m.spelling.toList.isPrefixOf (c :: cs) := by
    cases hm : m.spelling.toList.any (stoppers.contains ·) with
    | false =>
      refine isPrefixOf_append_of_head (fun d hd => head?_ne_of_stops hr ?_) (c :: cs)
      simpa using List.any_eq_false.1 hm d hd
    | true =>
      obtain ⟨d, s, hs, hd⟩ : ∃ d s, m.spelling.toList = d :: s ∧ inRun d = false := by
        cases m <;> first | exact ⟨_, _, rfl, rfl⟩ | exact absurd hm (by decide)
      rw [hs, List.cons_append, isPrefixOf_eq_false hd hc, isPrefixOf_eq_false hd hc]
  simp only [mark, h]

theorem RunTo.name {n : Nat} (h : name cs = some n) : RunTo cs n := by
  cases cs with
  | nil => cases h
  | cons c cs =>
    rw [Pattern.name] at h
    split at h
    case isTrue hc =>
      cases h
      have hrun : inRun c = true := by simp [inRun, continuesName, hc]
      exact (RunTo.one rfl hrun).add (.of_takeWhile (fun c hc => by simp [inRun, hc]) cs)
    case isFalse => cases h

theorem mark_eq_some {m : Mark} {n : Nat} (h : mark cs = some (m, n)) :
    n = m.spelling.length ∧ m.spelling.toList <+: cs := by
  rw [mark, Option.map_eq_some_iff] at h
  obtain ⟨m', hm, h⟩ := h
  cases h
  exact ⟨rfl, List.isPrefixOf_iff_prefix.1 (by simpa using List.find?_some hm)⟩

theorem isDecimalDigit_of_isDigit (hc : c.isDigit = true) : isDecimalDigit c = true := by
  have hlt : c.toNat < 128 := by
    simp only [Char.isDigit, ge_iff_le, Bool.and_eq_true, decide_eq_true_eq] at hc
    have := UInt32.le_iff_toNat_le.1 hc.2
    simp only [Char.toNat]
    exact Nat.lt_of_le_of_lt this (by decide)
  simp [isDecimalDigit, decimalDigit?, hlt, hc]

theorem number_isSome (hc : isDecimalDigit c = true) (cs : List Char) :
    (number (c :: cs)).isSome := by
  have hminus : c ≠ '-' := by
    rintro rfl
    revert hc
    decide
  have hdigits : 0 < digits (c :: cs) := by
    simp [digits, hc]
  have hunsigned : (unsigned (c :: cs)).isSome := by
    rw [unsigned_eq]
    simp only [hdigits, if_true]
    split <;> rfl
  simpa [number, hminus] using hunsigned

theorem operator_isSome (hc : isOperator c = true) (cs : List Char) :
    (operator (c :: cs)).isSome := by
  simp [operator, run, hc]

theorem operator_eq_some {n : Nat} (h : operator cs = some n) : 0 < n ∧ n ≤ cs.length := by
  simp only [operator, run] at h
  split at h
  case isTrue hpos =>
    cases h
    exact ⟨hpos, (List.takeWhile_prefix _).length_le⟩
  case isFalse => cases h

theorem exists_token_of_run (hc : inRun c = true) (cs : List Char) :
    (number (c :: cs)).isSome ∨ (name (c :: cs)).isSome ∨ (operator (c :: cs)).isSome ∨
      (mark (c :: cs)).isSome := by
  simp only [inRun, continuesName, Bool.or_eq_true, beq_iff_eq] at hc
  rcases hc with ((((hc | hc) | hc) | rfl) | rfl) | rfl
  · exact .inr (.inl (by simp [name, hc]))
  · exact .inl (number_isSome (isDecimalDigit_of_isDigit hc) cs)
  · exact .inl (number_isSome hc cs)
  · refine .inr (.inr (.inr ?_))
    rw [mark, Option.isSome_map, List.find?_isSome]
    exact ⟨.dot, by decide, rfl⟩
  · exact .inr (.inr (.inl (operator_isSome (by decide) cs)))
  · exact .inr (.inr (.inl (operator_isSome (by decide) cs)))

theorem not_started (hc : inRun c = true) (cs : List Char) :
    comment (c :: cs) = none ∧ string (c :: cs) = none ∧ template (c :: cs) = none ∧
      blank (c :: cs) = none := by
  have other {d : Char} (hd : inRun d = false) : c ≠ d := by
    rintro rfl
    simp [hd] at hc
  have h₁ := other (d := '/') (by decide)
  have h₂ := other (d := '"') (by decide)
  have h₃ := other (d := '\'') (by decide)
  have h₄ := other (d := '\x60') (by decide)
  refine ⟨?_, ?_, ?_, blank_eq_none ?_ cs⟩
  · unfold comment
    split <;> simp_all
  · unfold string
    split <;> simp_all
  · unfold template
    split <;> simp_all
  · cases hb : isBlank c with
    | false => rfl
    | true =>
      simp only [isBlank, Bool.or_eq_true, beq_iff_eq] at hb
      rcases hb with (((rfl | rfl) | rfl) | rfl) | rfl <;> revert hc <;> decide

end Run

end Pattern

open Pattern

def Terminal.endsField : Terminal → Bool
  | .mark .comma | .mark .closeBrace => true
  | _ => false

namespace LexemeClass

theorem endsField_of_isWord {k : Terminal} (h : k.isWord = true) : k.endsField = false := by
  cases k <;> first | rfl | cases h

theorem recognise_eq_of_run {c : Char} (hc : inRun c = true) (cs : List Char) :
    recognise (c :: cs) =
      ((number (c :: cs)).map ((.token .number, ·))).or
      (((name (c :: cs)).map fun n =>
        (.token (Terminal.ofWord (String.ofList ((c :: cs).take n))), n)).or
      (((operator (c :: cs)).map ((.token .operator, ·))).or
      ((mark (c :: cs)).map fun x => (.token (.mark x.1), x.2)))) := by
  obtain ⟨hcomment, hstring, htemplate, hblank⟩ := not_started hc cs
  simp only [recognise_eq, hcomment, hstring, htemplate, hblank, Option.map_none, Option.none_or]

theorem recognise_append_of_stops {c : Char} (hc : inRun c = true) (cs : List Char) {r : List Char}
    (hr : Stops r) : recognise (c :: cs ++ r) = recognise (c :: cs) := by
  have hname : ((name (c :: cs)).map fun n =>
        (LexemeClass.token (Terminal.ofWord (String.ofList ((c :: cs ++ r).take n))), n)) =
      (name (c :: cs)).map fun n =>
        (LexemeClass.token (Terminal.ofWord (String.ofList ((c :: cs).take n))), n) := by
    refine Option.map_congr fun n hn => ?_
    rw [List.take_append_of_le_length (RunTo.name hn).le]
  have happ : c :: cs ++ r = c :: (cs ++ r) := rfl
  rw [happ, recognise_eq_of_run hc, recognise_eq_of_run hc, ← happ, number_append_of_stops _ hr,
    name_append_of_stops (by simp) hr, operator_append_of_stops _ hr, mark_append_of_stops hc cs hr,
    hname]

theorem endsField_of_mark {c : Char} {cs : List Char} {m : Mark} (hc : inRun c = true)
    (h : m.spelling.toList <+: c :: cs) : (Terminal.mark m).endsField = false := by
  cases hm : (Terminal.mark m).endsField with
  | false => rfl
  | true =>
    have hhead : m.spelling.toList.head? = some ',' ∨ m.spelling.toList.head? = some '\x7d' := by
      revert hm
      cases m <;> decide
    obtain ⟨t, ht⟩ := h
    have hfirst := congrArg List.head? ht
    rw [List.head?_append, List.head?_cons] at hfirst
    rcases hhead with hhead | hhead <;>
      (rw [hhead, Option.some_or] at hfirst; cases hfirst; revert hc; decide)

theorem recognise_run {cs : List Char} (hcs : cs ≠ []) (h : ∀ c ∈ cs, inRun c = true) :
    ∃ k n, recognise cs = some (.token k, n) ∧ 0 < n ∧ n ≤ cs.length ∧ k.endsField = false := by
  obtain ⟨c, cs, rfl⟩ := List.exists_cons_of_ne_nil hcs
  have hc := h c List.mem_cons_self
  have hsome : (recognise (c :: cs)).isSome := by
    rw [recognise_eq_of_run hc]
    simpa only [Option.isSome_or, Option.isSome_map, Bool.or_eq_true] using
      exists_token_of_run hc cs
  obtain ⟨⟨k, n⟩, hk⟩ := Option.isSome_iff_exists.1 hsome
  obtain ⟨hcomment, hstring, htemplate, hblank⟩ := not_started hc cs
  cases shows_of_recognise hk with
  | comment h => simp [hcomment] at h
  | string h => simp [hstring] at h
  | template h => simp [htemplate] at h
  | blank h => simp [hblank] at h
  | number h => exact ⟨_, n, hk, number_pos h, (RunTo.number h).le, rfl⟩
  | word h hw => exact ⟨_, n, hk, name_pos h, (RunTo.name h).le, endsField_of_isWord hw⟩
  | operator h =>
    obtain ⟨hpos, hle⟩ := operator_eq_some h
    exact ⟨_, n, hk, hpos, hle, rfl⟩
  | @mark m _ h =>
    obtain ⟨rfl, hpre⟩ := mark_eq_some h
    have hpos := List.length_pos_iff.2 m.spelling_ne_nil
    have hle := hpre.length_le
    rw [String.length_toList] at hpos hle
    exact ⟨_, _, hk, hpos, hle, endsField_of_mark hc hpre⟩

end LexemeClass

theorem Open.run {t : List Char} (h : ∀ c ∈ t, inRun c = true) :
    ∃ ws, Open t ws ∧ (t ≠ [] → ws ≠ []) ∧ ∀ w ∈ ws, w.1.endsField = false := by
  -- behind the first token of a run there is a shorter run
  induction hn : t.length using Nat.strong_induction_on generalizing t with
  | _ n ih =>
    subst hn
    by_cases ht : t = []
    · subst ht
      exact ⟨[], Closed.nil.open, by simp, by simp⟩
    obtain ⟨k, n, hk, hpos, hle, hends⟩ := LexemeClass.recognise_run ht h
    have hdrop : ∀ c ∈ t.drop n, inRun c = true := fun c hc => h c (List.mem_of_mem_drop hc)
    obtain ⟨ws, hopen, -, hws⟩ := ih (t.drop n).length (by rw [List.length_drop]; omega) hdrop rfl
    refine ⟨(k, String.ofList (t.take n)) :: ws, ?_, by simp, by simpa [hends] using hws⟩
    intro r vs hstop hr
    have hrec : LexemeClass.recognise (t.take n ++ (t.drop n ++ r)) =
        some (.token k, (t.take n).length) := by
      rw [← List.append_assoc, List.take_append_drop, List.length_take_of_le hle]
      obtain ⟨c, t, rfl⟩ := List.exists_cons_of_ne_nil ht
      rw [LexemeClass.recognise_append_of_stops (h c List.mem_cons_self) t hstop, hk]
    have htake : t.take n ≠ [] := by
      rw [← List.length_pos_iff, List.length_take_of_le hle]
      exact hpos
    have hreads := Reads.token hrec htake (hopen r vs hstop hr)
    rwa [← List.append_assoc, List.take_append_drop] at hreads

def Terminal.isValue : Terminal → Bool
  | .name | .keyword _ | .number | .string | .template => true
  | .operator | .mark _ => false

theorem Terminal.isValue_of_isWord {k : Terminal} (h : k.isWord = true) : k.isValue = true := by
  cases k <;> first | rfl | cases h

section Values

variable {t : List Char} {k : Terminal}

theorem Pattern.RunTo.all (h : RunTo t t.length) : ∀ c ∈ t, inRun c = true := by
  have hc := h.chars
  rwa [List.take_length] at hc

theorem run_of_word (hk : k.isWord = true)
    (h : LexemeClass.recognise t = some (.token k, t.length)) : ∀ c ∈ t, inRun c = true := by
  cases LexemeClass.shows_of_recognise h with
  | word h => exact (RunTo.name h).all
  | _ => cases hk

theorem run_or_closed_of_value (hk : k.isValue = true)
    (h : LexemeClass.recognise t = some (.token k, t.length)) :
    (∀ c ∈ t, inRun c = true) ∨ ∃ w, Closed t [w] ∧ w.1.endsField = false := by
  cases LexemeClass.shows_of_recognise h with
  | number h => exact .inl (RunTo.number h).all
  | string h => exact .inr ⟨_, .string h, rfl⟩
  | word h => exact .inl (RunTo.name h).all
  | template h => exact .inr ⟨_, .template h, rfl⟩
  | operator | mark => cases hk

theorem ne_nil_of_recognise {c : LexemeClass} {n : Nat} (h : LexemeClass.recognise t = some (c, n)) :
    t ≠ [] := by
  rintro rfl
  cases h

theorem Open.value (hk : k.isValue = true)
    (h : LexemeClass.recognise t = some (.token k, t.length)) :
    ∃ ws, Open t ws ∧ ws ≠ [] ∧ ∀ w ∈ ws, w.1.endsField = false := by
  rcases run_or_closed_of_value hk h with hrun | ⟨w, hw, hends⟩
  · obtain ⟨ws, hopen, hne, hws⟩ := Open.run hrun
    exact ⟨ws, hopen, hne (ne_nil_of_recognise h), hws⟩
  · exact ⟨[w], hw.open, by simp, by simpa using hends⟩

theorem head?_ne_bar_of_value (hk : k.isValue = true)
    (h : LexemeClass.recognise t = some (.token k, t.length)) : t.head? ≠ some '|' := by
  intro hbar
  obtain ⟨r, rfl⟩ : ∃ r, t = '|' :: r := by
    cases t with
    | nil => cases hbar
    | cons c r => cases hbar; exact ⟨r, rfl⟩
  have hmark : LexemeClass.recognise ('|' :: r) =
      (mark ('|' :: r)).map fun x => (.token (.mark x.1), x.2) := rfl
  rw [hmark, Option.map_eq_some_iff] at h
  obtain ⟨m, -, h⟩ := h
  rw [Prod.mk.injEq, LexemeClass.token.injEq] at h
  rw [← h.1] at hk
  cases hk

end Values

end PropTables
