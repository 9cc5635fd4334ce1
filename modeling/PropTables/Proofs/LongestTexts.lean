import Mathlib.Computability.Language
import PropTables.Proofs.Settled

/-! The texts that lexemes are made of, as languages, and the readers of lexemes. Each reader takes the longest
text of its language that the source goes on with. -/

open scoped Computability

namespace PropTables

namespace Texts

open Pattern (startsName continuesName)

def exactly (text : String) : Language Char :=
  {text.toList}

def oneOf (p : Char → Bool) : Language Char :=
  {t | ∃ c, p c = true ∧ t = [c]}

def someOf (p : Char → Bool) : Language Char :=
  oneOf p * (oneOf p)∗

def upTo (stop : List Char) : Language Char :=
  {t | stop <:+ t ∧ ¬ stop <:+: t.dropLast}

def comment : Language Char :=
  exactly "//" * (oneOf (· ≠ '\n'))∗ + exactly "/*" * upTo ['*', '/']

def unsigned : Language Char :=
  someOf isDecimalDigit * (1 + exactly "." * (oneOf isDecimalDigit)∗) +
    exactly "." * someOf isDecimalDigit

def exponent : Language Char :=
  (exactly "e" + exactly "E") * (1 + exactly "-" + exactly "+") * someOf isDecimalDigit

def number : Language Char :=
  (1 + exactly "-") * unsigned * (1 + exponent)

def quotedPiece (quote : Char) (lines : Bool) : Language Char :=
  oneOf (fun c => c ≠ quote && c ≠ '\\' && (lines || c ≠ '\n')) + exactly "\\" * oneOf (· ≠ '\n')

def quoted (quote : Char) (lines : Bool) : Language Char :=
  {[quote]} * ((quotedPiece quote lines)∗ * {[quote]})

def word : Language Char :=
  oneOf startsName * (oneOf continuesName)∗

section Members

variable {p : Char → Bool} {t : List Char}

theorem mem_oneOf_star : t ∈ (oneOf p)∗ ↔ ∀ c ∈ t, p c = true := by
  rw [Language.mem_kstar]
  constructor
  · rintro ⟨pieces, rfl, h⟩ c hc
    obtain ⟨piece, hpiece, hc⟩ := List.mem_flatten.1 hc
    obtain ⟨d, hd, rfl⟩ := h piece hpiece
    rwa [List.mem_singleton.1 hc]
  · intro h
    refine ⟨t.map ([·]), by rw [← List.flatMap_def, List.flatMap_singleton'], fun piece hpiece => ?_⟩
    obtain ⟨c, hc, rfl⟩ := List.mem_map.1 hpiece
    exact ⟨c, h c hc, rfl⟩

theorem mem_oneOf_mul {L : Language Char} :
    t ∈ oneOf p * L ↔ ∃ c u, t = c :: u ∧ p c = true ∧ u ∈ L := by
  rw [Language.mem_mul]
  constructor
  · rintro ⟨_, ⟨c, hc, rfl⟩, u, hu, rfl⟩
    exact ⟨c, u, rfl, hc, hu⟩
  · rintro ⟨c, u, rfl, hc, hu⟩
    exact ⟨[c], ⟨c, hc, rfl⟩, u, hu, rfl⟩

theorem mem_someOf : t ∈ someOf p ↔ t ≠ [] ∧ ∀ c ∈ t, p c = true := by
  rw [someOf, mem_oneOf_mul]
  simp only [mem_oneOf_star]
  constructor
  · rintro ⟨c, u, rfl, hc, hu⟩
    exact ⟨List.cons_ne_nil c u, List.forall_mem_cons.2 ⟨hc, hu⟩⟩
  · rintro ⟨hne, h⟩
    obtain ⟨c, u, rfl⟩ := List.exists_cons_of_ne_nil hne
    exact ⟨c, u, rfl, List.forall_mem_cons.1 h⟩

theorem take_takeWhile_mem (p : Char → Bool) (cs : List Char) :
    (cs.takeWhile p).length ≤ cs.length ∧ cs.take (cs.takeWhile p).length ∈ (oneOf p)∗ := by
  have hstart := List.takeWhile_prefix (l := cs) p
  rw [← List.prefix_iff_eq_take.1 hstart, mem_oneOf_star]
  exact ⟨hstart.length_le, fun c hc => List.mem_takeWhile_imp hc⟩

theorem singleton_mul_singleton (t u : List Char) :
    ({t} * {u} : Language Char) = {t ++ u} :=
  Set.image2_singleton

section UpTo

variable {stop u : List Char} {c : Char}

theorem nil_not_mem_upTo (hstop : stop ≠ []) : [] ∉ upTo stop :=
  fun h => hstop (List.suffix_nil.1 h.1)

theorem cons_mem_upTo (hstop : stop ≠ []) :
    c :: u ∈ upTo stop ↔ c :: u = stop ∨ u ∈ upTo stop ∧ ¬ stop <+: c :: u := by
  have hdrop (h : stop <:+ u) : (c :: u).dropLast = c :: u.dropLast :=
    List.dropLast_cons_of_ne_nil fun hu => hstop (List.suffix_nil.1 (hu ▸ h))
  constructor
  · rintro ⟨hends, hnowhere⟩
    rcases List.suffix_cons_iff.1 hends with rfl | hu
    · exact .inl rfl
    · rw [hdrop hu, List.infix_cons_iff, not_or] at hnowhere
      refine .inr ⟨⟨hu, hnowhere.2⟩, fun hstart => hnowhere.1 ?_⟩
      -- the end of the text is no part of the prefix, so it does not matter
      refine List.prefix_of_prefix_length_le hstart (hdrop hu ▸ List.dropLast_prefix _) ?_
      have hlen := hu.length_le
      have hpos := List.length_pos_iff.2 hstop
      rw [List.length_cons, List.length_dropLast]
      omega
  · rintro (rfl | ⟨⟨hu, hnowhere⟩, hnot⟩)
    · refine ⟨List.suffix_rfl, fun hinside => ?_⟩
      have hlen := hinside.length_le
      rw [List.length_dropLast, List.length_cons] at hlen
      omega
    · refine ⟨hu.trans (List.suffix_cons c u), ?_⟩
      rw [hdrop hu, List.infix_cons_iff, not_or]
      exact ⟨fun hstart => hnot (hstart.trans (hdrop hu ▸ List.dropLast_prefix _)), hnowhere⟩

end UpTo

theorem mem_quotedPiece {quote : Char} {lines : Bool} : t ∈ quotedPiece quote lines ↔
    (∃ c, t = [c] ∧ c ≠ '\\' ∧ c ≠ quote ∧ ¬ (c = '\n' ∧ !lines)) ∨
      ∃ c, t = ['\\', c] ∧ c ≠ '\n' := by
  rw [quotedPiece, Language.mem_add, Language.mem_mul]
  refine or_congr (exists_congr fun c => ?_) ⟨?_, ?_⟩
  · cases lines <;> simp <;> tauto
  · rintro ⟨_, rfl, _, ⟨c, hc, rfl⟩, rfl⟩
    exact ⟨c, rfl, by simpa using hc⟩
  · rintro ⟨c, rfl, hc⟩
    exact ⟨_, rfl, [c], ⟨c, by simpa using hc, rfl⟩, rfl⟩

theorem append_mem_star_mul {L M : Language Char} {u : List Char} (ht : t ∈ L) (hu : u ∈ L∗ * M) :
    t ++ u ∈ L∗ * M := by
  obtain ⟨_, ⟨pieces, rfl, hpieces⟩, m, hm, rfl⟩ := Language.mem_mul.1 hu
  rw [← List.append_assoc, ← List.flatten_cons]
  refine Language.append_mem_mul (Language.join_mem_kstar ?_) hm
  exact List.forall_mem_cons.2 ⟨ht, hpieces⟩

end Members

end Texts

/-- The reader takes the longest text of the language that the characters start with. -/
structure Finds (L : Language Char) (p : List Char → Option Nat) : Prop where
  mem ⦃cs n⦄ : p cs = some n → n ≤ cs.length ∧ cs.take n ∈ L
  longest ⦃t⦄ (r) : t ∈ L → ∃ n, p (t ++ r) = some n ∧ t.length ≤ n

namespace Finds

variable {L M : Language Char} {p q : List Char → Option Nat}

theorem or (hp : Finds L p) (hq : Finds M q) (hapart : ∀ cs, (p cs).isSome → q cs = none) :
    Finds (L + M) fun cs => (p cs).or (q cs) where
  mem cs n h := by
    rcases Option.or_eq_some_iff.1 h with h | ⟨-, h⟩
    · exact ⟨(hp.mem h).1, .inl (hp.mem h).2⟩
    · exact ⟨(hq.mem h).1, .inr (hq.mem h).2⟩
  longest t r h := by
    rcases h with h | h
    · obtain ⟨n, hn, hle⟩ := hp.longest r h
      exact ⟨n, by rw [hn, Option.some_or], hle⟩
    · obtain ⟨n, hn, hle⟩ := hq.longest r h
      have hnone : p (t ++ r) = none := by
        by_contra hsome
        rw [hapart _ (Option.isSome_iff_ne_none.2 hsome)] at hn
        cases hn
      exact ⟨n, by rw [hnone, hn, Option.none_or], hle⟩

theorem behind (d : Char) (hp : Finds L p) : Finds ({[d]} * L) (Pattern.behind d p) where
  mem cs n h := by
    cases cs with
    | nil => cases h
    | cons c cs =>
      rw [Pattern.behind] at h
      split at h
      case isTrue hc =>
        obtain ⟨m, hm, rfl⟩ := Option.map_eq_some_iff.1 h
        obtain ⟨hle, hmem⟩ := hp.mem hm
        subst hc
        exact ⟨Nat.succ_le_succ hle, Language.mem_mul.2 ⟨[c], rfl, _, hmem, rfl⟩⟩
      case isFalse => cases h
  longest t r h := by
    obtain ⟨_, rfl, u, hu, rfl⟩ := Language.mem_mul.1 h
    obtain ⟨n, hn, hle⟩ := hp.longest r hu
    refine ⟨n + 1, ?_, Nat.succ_le_succ hle⟩
    rw [List.append_assoc, List.singleton_append, Pattern.behind, if_pos rfl, hn, Option.map_some]

theorem behind_or {d e : Char} (hde : d ≠ e) (hp : Finds L p) (hq : Finds M q) :
    Finds ({[d]} * L + {[e]} * M) fun cs => (Pattern.behind d p cs).or (Pattern.behind e q cs) := by
  refine (hp.behind d).or (hq.behind e) fun cs hsome => ?_
  cases cs with
  | nil => rfl
  | cons c cs =>
    by_cases hc : c = d
    · exact Pattern.behind_eq_none (hc ▸ hde) q cs
    · rw [Pattern.behind_eq_none hc] at hsome
      cases hsome

theorem takeWhile (p : Char → Bool) :
    Finds (Texts.oneOf p)∗ fun cs => some (cs.takeWhile p).length where
  mem cs n h := by
    cases h
    exact Texts.take_takeWhile_mem p cs
  longest t r h := by
    refine ⟨_, rfl, ?_⟩
    rw [List.takeWhile_append_of_pos (Texts.mem_oneOf_star.1 h), List.length_append]
    exact Nat.le_add_right _ _

theorem run (p : Char → Bool) : Finds (Texts.someOf p) (Pattern.run p) where
  mem cs n h := by
    simp only [Pattern.run] at h
    split at h <;> cases h
    next hpos =>
    obtain ⟨hle, hmem⟩ := Texts.take_takeWhile_mem p cs
    refine ⟨hle, Texts.mem_someOf.2 ⟨?_, Texts.mem_oneOf_star.1 hmem⟩⟩
    rw [← List.length_pos_iff, List.length_take_of_le hle]
    exact hpos
  longest t r h := by
    obtain ⟨hne, hall⟩ := Texts.mem_someOf.1 h
    obtain ⟨n, hn, hle⟩ := (takeWhile p).longest r (Texts.mem_oneOf_star.2 hall)
    cases hn
    have hpos := (List.length_pos_iff.2 hne).trans_le hle
    exact ⟨_, by rw [Pattern.run, if_pos hpos], hle⟩

theorem name : Finds Texts.word Pattern.name where
  mem cs n h := by
    cases cs with
    | nil => cases h
    | cons c cs =>
      rw [Pattern.name] at h
      split at h <;> cases h
      next hc =>
      obtain ⟨hle, hmem⟩ := Texts.take_takeWhile_mem Pattern.continuesName cs
      rw [Nat.add_comm, List.take_succ_cons]
      exact ⟨Nat.succ_le_succ hle, Texts.mem_oneOf_mul.2 ⟨c, _, rfl, hc, hmem⟩⟩
  longest t r h := by
    obtain ⟨c, u, rfl, hc, hu⟩ := Texts.mem_oneOf_mul.1 h
    obtain ⟨n, hn, hle⟩ := (takeWhile Pattern.continuesName).longest r hu
    cases hn
    refine ⟨_, by rw [List.cons_append, Pattern.name, if_pos hc], ?_⟩
    rw [List.length_cons, Nat.add_comm]
    exact Nat.add_le_add_left hle 1

theorem blockEnd : Finds (Texts.upTo ['*', '/']) Pattern.blockEnd where
  mem cs n h := by
    refine ⟨Pattern.settled_blockEnd.le h, ?_⟩
    induction cs using Pattern.blockEnd.induct generalizing n with
    | case1 => cases h
    | case2 cs =>
      cases h
      exact (Texts.cons_mem_upTo (List.cons_ne_nil _ _)).2 (.inl rfl)
    | case3 c cs hend ih =>
      rw [Pattern.blockEnd.eq_3 _ _ hend, Option.map_eq_some_iff] at h
      obtain ⟨m, hm, rfl⟩ := h
      rw [List.take_succ_cons, Texts.cons_mem_upTo (List.cons_ne_nil _ _)]
      refine .inr ⟨ih m hm, fun hstart => ?_⟩
      -- an end in what is taken is an end in the characters, and there is none here
      have hclosed := hstart.trans (List.cons_prefix_cons.2 ⟨rfl, List.take_prefix m cs⟩)
      obtain ⟨rfl, r, rfl⟩ := List.cons_prefix_cons.1 hclosed
      exact hend r rfl rfl
  longest t r h := by
    refine ⟨t.length, ?_, le_rfl⟩
    induction t with
    | nil => exact absurd h (Texts.nil_not_mem_upTo (List.cons_ne_nil _ _))
    | cons c u ih =>
      rcases (Texts.cons_mem_upTo (List.cons_ne_nil _ _)).1 h with hall | ⟨hu, hnot⟩
      · rw [hall]
        rfl
      · have hend : ∀ r', c = '*' → u ++ r = '/' :: r' → False := by
          rintro r' rfl hr
          cases u with
          | nil => exact Texts.nil_not_mem_upTo (List.cons_ne_nil _ _) hu
          | cons d v =>
            cases hr
            exact hnot ⟨v, rfl⟩
        rw [List.cons_append, Pattern.blockEnd.eq_3 _ _ hend, ih hu, Option.map_some,
          List.length_cons]

theorem quotedRest {quote : Char} (hquote : quote ≠ '\\') (lines : Bool) :
    Finds ((Texts.quotedPiece quote lines)∗ * {[quote]}) (Pattern.quotedRest quote lines) where
  mem cs n h := by
    refine ⟨(Pattern.quotedRest_le h).2, ?_⟩
    induction cs using Pattern.quotedRest.induct quote lines generalizing n with
    | case1 | case2 | case3 => cases h
    | case4 c cs hc ih =>
      rw [Pattern.quotedRest, if_neg hc, Option.map_eq_some_iff] at h
      obtain ⟨m, hm, rfl⟩ := h
      have hpiece : ['\\', c] ∈ Texts.quotedPiece quote lines :=
        Texts.mem_quotedPiece.2 (.inr ⟨c, rfl, hc⟩)
      exact Texts.append_mem_star_mul hpiece (ih m hm)
    | case5 cs h₀ h₁ =>
      rw [Pattern.quotedRest_cons (Pattern.ne_backslash h₀ h₁), if_pos rfl] at h
      cases h
      exact Language.append_mem_mul (Language.nil_mem_kstar _) rfl
    | case6 c cs h₀ h₁ hq hl =>
      rw [Pattern.quotedRest_cons (Pattern.ne_backslash h₀ h₁), if_neg hq, if_pos hl] at h
      cases h
    | case7 c cs h₀ h₁ hq hl ih =>
      have hslash := Pattern.ne_backslash h₀ h₁
      rw [Pattern.quotedRest_cons hslash, if_neg hq, if_neg hl, Option.map_eq_some_iff] at h
      obtain ⟨m, hm, rfl⟩ := h
      have hpiece : [c] ∈ Texts.quotedPiece quote lines :=
        Texts.mem_quotedPiece.2 (.inl ⟨c, rfl, hslash, hq, hl⟩)
      exact Texts.append_mem_star_mul hpiece (ih m hm)
  longest t r h := by
    obtain ⟨_, ⟨pieces, rfl, hpieces⟩, _, rfl, rfl⟩ := Language.mem_mul.1 h
    clear h
    refine ⟨_, ?_, le_rfl⟩
    induction pieces with
    | nil => exact (Pattern.quotedRest_cons hquote r).trans (if_pos rfl)
    | cons a pieces ih =>
      obtain ⟨ha, hpieces⟩ := List.forall_mem_cons.1 hpieces
      have hrest := ih hpieces
      rw [List.flatten_cons, List.append_assoc a]
      generalize pieces.flatten ++ [quote] = u at hrest
      rcases Texts.mem_quotedPiece.1 ha with ⟨c, rfl, hslash, hq, hl⟩ | ⟨c, rfl, hc⟩
      · rw [List.append_assoc, List.singleton_append, Pattern.quotedRest_cons hslash, if_neg hq,
          if_neg hl, hrest]
        rfl
      · have hstep : Pattern.quotedRest quote lines ('\\' :: c :: (u ++ r)) = _ :=
          Pattern.quotedRest.eq_3 quote lines c (u ++ r)
        rw [if_neg hc, hrest] at hstep
        exact hstep

theorem string : Finds (Texts.quoted '"' false + Texts.quoted '\'' false) Pattern.string := by
  have h : Pattern.string = _ := funext Pattern.string_eq
  rw [h]
  exact behind_or (by decide) (quotedRest (by decide) false) (quotedRest (by decide) false)

theorem template : Finds (Texts.quoted '\x60' true) Pattern.template := by
  have h : Pattern.template = _ := funext Pattern.template_eq
  rw [h]
  exact (quotedRest (by decide) true).behind '\x60'

theorem comment : Finds Texts.comment Pattern.comment := by
  have h : Pattern.comment = _ := funext Pattern.comment_eq
  have hopened := behind_or (d := '/') (e := '*') (by decide) (takeWhile (· ≠ '\n')) blockEnd
  have htexts : {['/']} * ({['/']} * (Texts.oneOf (· ≠ '\n'))∗ + {['*']} * Texts.upTo ['*', '/']) =
      Texts.comment := by
    rw [mul_add, ← mul_assoc, ← mul_assoc, Texts.singleton_mul_singleton, Texts.singleton_mul_singleton]
    rfl
  rw [h, ← htexts]
  exact hopened.behind '/'

section Numbers

open Pattern (digits)

variable {cs ds s r : List Char}

theorem digits_append (hd : ∀ c ∈ ds, isDecimalDigit c = true) (r : List Char) :
    digits (ds ++ r) = ds.length + digits r := by
  rw [digits, List.takeWhile_append_of_pos hd, List.length_append, digits]

theorem exists_digits (cs : List Char) :
    ∃ ds s, cs = ds ++ s ∧ (∀ c ∈ ds, isDecimalDigit c = true) ∧ digits s = 0 := by
  have hsplit := List.takeWhile_append_dropWhile (p := isDecimalDigit) (l := cs)
  have hd : ∀ c ∈ cs.takeWhile isDecimalDigit, isDecimalDigit c = true :=
    fun c hc => List.mem_takeWhile_imp hc
  refine ⟨_, _, hsplit.symm, hd, ?_⟩
  have hlen := digits_append hd (cs.dropWhile isDecimalDigit)
  rw [hsplit, digits] at hlen
  omega

theorem unsigned_append (hd : ∀ c ∈ ds, isDecimalDigit c = true) (hs : digits s = 0) :
    Pattern.unsigned (ds ++ s) =
      if s.head? = some '.' then
        if ds ≠ [] then some (ds.length + 1 + digits s.tail)
        else if 0 < digits s.tail then some (1 + digits s.tail) else none
      else if ds ≠ [] then some ds.length else none := by
  have hdigits : digits (ds ++ s) = ds.length := by rw [digits_append hd, hs, Nat.add_zero]
  have htail : (ds ++ s).drop (ds.length + 1) = s.tail := by
    rw [← List.drop_drop, List.drop_left, List.drop_one]
  rw [Pattern.unsigned_eq, hdigits, List.drop_left, htail]
  simp only [← List.length_pos_iff]

theorem unsigned_append_dot (hd : ∀ c ∈ ds, isDecimalDigit c = true) (s : List Char) :
    Pattern.unsigned (ds ++ '.' :: s) =
      if ds ≠ [] then some (ds.length + 1 + digits s)
      else if 0 < digits s then some (1 + digits s) else none := by
  have hs : digits ('.' :: s) = 0 := rfl
  have hdot : ('.' :: s).head? = some '.' := rfl
  rw [unsigned_append hd hs, if_pos hdot, List.tail_cons]

theorem take_digits_mem (cs : List Char) :
    digits cs ≤ cs.length ∧ cs.take (digits cs) ∈ (Texts.oneOf isDecimalDigit)∗ :=
  Texts.take_takeWhile_mem isDecimalDigit cs

theorem take_digits_mem_someOf (h : 0 < digits cs) :
    cs.take (digits cs) ∈ Texts.someOf isDecimalDigit :=
  ((run isDecimalDigit).mem (if_pos h)).2

theorem unsigned : Finds Texts.unsigned Pattern.unsigned where
  mem cs n h := by
    obtain ⟨ds, s, rfl, hd, hs⟩ := exists_digits cs
    by_cases hdot : s.head? = some '.'
    · obtain ⟨g, rfl⟩ := List.head?_eq_some_iff.1 hdot
      obtain ⟨hle, hmem⟩ := take_digits_mem g
      rw [unsigned_append_dot hd] at h
      split at h
      case isTrue hne =>
        cases h
        rw [Nat.add_assoc, Nat.add_comm 1, List.take_length_add_append, List.take_succ_cons]
        refine ⟨by simpa using hle, .inl ?_⟩
        refine Language.append_mem_mul (Texts.mem_someOf.2 ⟨hne, hd⟩) (.inr ?_)
        exact Language.mem_mul.2 ⟨_, rfl, _, hmem, rfl⟩
      case isFalse hnil =>
        obtain rfl : ds = [] := not_not.1 hnil
        split at h <;> cases h
        next hpos =>
        rw [Nat.add_comm, List.nil_append, List.take_succ_cons]
        refine ⟨Nat.succ_le_succ hle, .inr ?_⟩
        exact Language.mem_mul.2 ⟨_, rfl, _, take_digits_mem_someOf hpos, rfl⟩
    · rw [unsigned_append hd hs, if_neg hdot] at h
      split at h <;> cases h
      next hne =>
      refine ⟨by simp, .inl (Language.mem_mul.2 ⟨ds, Texts.mem_someOf.2 ⟨hne, hd⟩, [], .inl rfl, ?_⟩)⟩
      rw [List.append_nil, List.take_left]
  longest t r h := by
    rcases h with h | h
    · obtain ⟨ds, hds, f, hf, rfl⟩ := Language.mem_mul.1 h
      obtain ⟨hne, hd⟩ := Texts.mem_someOf.1 hds
      rcases hf with rfl | hf
      · -- more digits may follow, and a fraction
        obtain ⟨es, s, rfl, he, hs⟩ := exists_digits r
        have hde : ∀ c ∈ ds ++ es, isDecimalDigit c = true := List.forall_mem_append.2 ⟨hd, he⟩
        have hne' : ds ++ es ≠ [] := by simp [hne]
        rw [List.append_nil, ← List.append_assoc, unsigned_append hde hs, if_pos hne', if_pos hne',
          List.length_append]
        split
        · exact ⟨_, rfl, by omega⟩
        · exact ⟨_, rfl, by omega⟩
      · obtain ⟨_, rfl, g, hg, rfl⟩ := Language.mem_mul.1 hf
        have hcs : ds ++ (".".toList ++ g) ++ r = ds ++ '.' :: (g ++ r) := List.append_assoc _ _ _
        have hg := digits_append (Texts.mem_oneOf_star.1 hg) r
        refine ⟨ds.length + 1 + digits (g ++ r), ?_, ?_⟩
        · rw [hcs, unsigned_append_dot hd, if_pos hne]
        · rw [hg, List.length_append, List.length_append]
          simp
          omega
    · obtain ⟨_, rfl, g, hg, rfl⟩ := Language.mem_mul.1 h
      obtain ⟨hne, hg⟩ := Texts.mem_someOf.1 hg
      have hg := digits_append hg r
      have hpos := List.length_pos_iff.2 hne
      have hcs : ".".toList ++ g ++ r = [] ++ '.' :: (g ++ r) := rfl
      refine ⟨1 + digits (g ++ r), ?_, ?_⟩
      · rw [hcs, unsigned_append_dot (by simp), if_neg (by simp), if_pos (by omega)]
      · rw [hg, List.length_append]
        exact Nat.add_le_add_left (Nat.le_add_right _ _) 1

theorem head?_append_ne {P : Char → Prop} {t : List Char} {d : Char} (hne : t ≠ [])
    (ht : ∀ c ∈ t, P c) (hd : ¬ P d) (r : List Char) : (t ++ r).head? ≠ some d := by
  obtain ⟨c, t, rfl⟩ := List.exists_cons_of_ne_nil hne
  intro hhead
  obtain rfl : c = d := Option.some.inj hhead
  exact hd (ht c List.mem_cons_self)

theorem take_minus (cs : List Char) :
    ∃ k, (if cs.head? = some '-' then 1 else 0) = k ∧ k ≤ cs.length ∧
      cs.take k ∈ 1 + Texts.exactly "-" := by
  by_cases hcs : cs.head? = some '-'
  · obtain ⟨u, rfl⟩ := List.head?_eq_some_iff.1 hcs
    exact ⟨1, rfl, by simp, .inr rfl⟩
  · exact ⟨0, if_neg hcs, Nat.zero_le _, .inl rfl⟩

theorem minus_append {k u : List Char} (hk : k ∈ 1 + Texts.exactly "-")
    (hu : u.head? ≠ some '-') : (if (k ++ u).head? = some '-' then 1 else 0) = k.length := by
  rcases hk with rfl | rfl
  · exact if_neg hu
  · rfl

theorem take_sign (cs : List Char) :
    ∃ k, (if cs.head? = some '-' ∨ cs.head? = some '+' then 1 else 0) = k ∧ k ≤ cs.length ∧
      cs.take k ∈ 1 + Texts.exactly "-" + Texts.exactly "+" := by
  by_cases hcs : cs.head? = some '-' ∨ cs.head? = some '+'
  · refine ⟨1, if_pos hcs, ?_⟩
    rcases hcs with hcs | hcs <;> obtain ⟨u, rfl⟩ := List.head?_eq_some_iff.1 hcs
    · exact ⟨by simp, .inl (.inr rfl)⟩
    · exact ⟨by simp, .inr rfl⟩
  · exact ⟨0, if_neg hcs, Nat.zero_le _, .inl (.inl rfl)⟩

theorem sign_append {k u : List Char} (hk : k ∈ 1 + Texts.exactly "-" + Texts.exactly "+")
    (hminus : u.head? ≠ some '-') (hplus : u.head? ≠ some '+') :
    (if (k ++ u).head? = some '-' ∨ (k ++ u).head? = some '+' then 1 else 0) = k.length := by
  rcases hk with (rfl | rfl) | rfl
  · exact if_neg (not_or.2 ⟨hminus, hplus⟩)
  · rfl
  · rfl

theorem exists_of_mem_exponent {t : List Char} (h : t ∈ Texts.exponent) :
    ∃ c sign ds, t = c :: (sign ++ ds) ∧ (c = 'e' ∨ c = 'E') ∧
      sign ∈ 1 + Texts.exactly "-" + Texts.exactly "+" ∧ ds ∈ Texts.someOf isDecimalDigit := by
  rw [Texts.exponent, mul_assoc] at h
  obtain ⟨_, hletter, _, hrest, rfl⟩ := Language.mem_mul.1 h
  obtain ⟨sign, hsign, ds, hds, rfl⟩ := Language.mem_mul.1 hrest
  rcases hletter with rfl | rfl
  · exact ⟨'e', sign, ds, rfl, .inl rfl, hsign, hds⟩
  · exact ⟨'E', sign, ds, rfl, .inr rfl, hsign, hds⟩

theorem exponent : Finds (1 + Texts.exponent) fun cs => some (Pattern.exponent cs) where
  mem cs n h := by
    cases h
    cases cs with
    | nil => exact ⟨le_rfl, .inl rfl⟩
    | cons c r =>
      obtain ⟨k, hk, hle, hsign⟩ := take_sign r
      simp only [Pattern.exponent, hk]
      split
      case isTrue h =>
        obtain ⟨hc, hpos⟩ := h
        have hdigits := (take_digits_mem (r.drop k)).1
        rw [List.length_drop] at hdigits
        have hletter : [c] ∈ Texts.exactly "e" + Texts.exactly "E" := by
          rcases hc with rfl | rfl
          · exact .inl rfl
          · exact .inr rfl
        rw [Nat.add_assoc, Nat.add_comm, List.take_succ_cons, List.take_add]
        refine ⟨by rw [List.length_cons]; omega, .inr ?_⟩
        rw [Texts.exponent, mul_assoc]
        refine Language.append_mem_mul hletter (Language.append_mem_mul hsign ?_)
        exact take_digits_mem_someOf hpos
      case isFalse => exact ⟨Nat.zero_le _, .inl rfl⟩
  longest t r h := by
    refine ⟨_, rfl, ?_⟩
    rcases h with rfl | h
    · exact Nat.zero_le _
    · obtain ⟨c, k, ds, rfl, hc, hk, hds⟩ := exists_of_mem_exponent h
      obtain ⟨hne, hds⟩ := Texts.mem_someOf.1 hds
      have hdigits := digits_append hds r
      have hpos := List.length_pos_iff.2 hne
      have hsign := sign_append hk (head?_append_ne hne hds (by decide) r)
        (head?_append_ne hne hds (by decide) r)
      have hcs : c :: (k ++ ds) ++ r = c :: (k ++ (ds ++ r)) := by simp
      rw [hcs]
      simp only [Pattern.exponent, hsign, List.drop_left]
      rw [if_pos ⟨hc, by omega⟩, hdigits]
      simp
      omega

theorem chars_of_mem_unsigned {t : List Char} (h : t ∈ Texts.unsigned) :
    t ≠ [] ∧ ∀ c ∈ t, isDecimalDigit c = true ∨ c = '.' := by
  have dotted {g : List Char} (hg : ∀ c ∈ g, isDecimalDigit c = true) :
      ∀ c ∈ '.' :: g, isDecimalDigit c = true ∨ c = '.' :=
    List.forall_mem_cons.2 ⟨.inr rfl, fun c hc => .inl (hg c hc)⟩
  rcases h with h | h
  · obtain ⟨ds, hds, f, hf, rfl⟩ := Language.mem_mul.1 h
    obtain ⟨hne, hds⟩ := Texts.mem_someOf.1 hds
    refine ⟨by simp [hne], List.forall_mem_append.2 ⟨fun c hc => .inl (hds c hc), ?_⟩⟩
    rcases hf with rfl | hf
    · exact nofun
    · obtain ⟨_, rfl, g, hg, rfl⟩ := Language.mem_mul.1 hf
      exact dotted (Texts.mem_oneOf_star.1 hg)
  · obtain ⟨_, rfl, g, hg, rfl⟩ := Language.mem_mul.1 h
    exact ⟨List.cons_ne_nil _ _, dotted (Texts.mem_someOf.1 hg).2⟩

theorem unsigned_append_exponent {u e : List Char} (hu : u ∈ Texts.unsigned)
    (he : e ∈ Texts.exponent) (r : List Char) :
    Pattern.unsigned (u ++ (e ++ r)) = some u.length := by
  obtain ⟨n, hn, hle⟩ := unsigned.longest (e ++ r) hu
  rcases hle.eq_or_lt with rfl | hlt
  · exact hn
  · exfalso
    obtain ⟨c, sign, ds, rfl, hc, -, -⟩ := exists_of_mem_exponent he
    obtain ⟨m, rfl⟩ := Nat.exists_eq_add_of_lt hlt
    have hmem := (unsigned.mem hn).2
    rw [Nat.add_assoc, List.take_length_add_append, List.cons_append, List.take_succ_cons] at hmem
    have hchar := (chars_of_mem_unsigned hmem).2 c (by simp)
    rcases hc with rfl | rfl <;> revert hchar <;> decide

theorem number : Finds Texts.number Pattern.number where
  mem cs n h := by
    obtain ⟨m, hm, rfl⟩ := Option.map_eq_some_iff.1 h
    obtain ⟨k, hk, hle, hsign⟩ := take_minus cs
    rw [hk] at hm ⊢
    obtain ⟨hle', hunsigned⟩ := unsigned.mem hm
    obtain ⟨hle'', hexponent⟩ := exponent.mem
      (rfl : some (Pattern.exponent (cs.drop (k + m))) = _)
    rw [List.length_drop] at hle' hle''
    refine ⟨by omega, ?_⟩
    rw [List.take_add, List.take_add]
    exact Language.append_mem_mul (Language.append_mem_mul hsign hunsigned) hexponent
  longest t r h := by
    obtain ⟨_, h', e, he, rfl⟩ := Language.mem_mul.1 h
    obtain ⟨k, hk, u, hu, rfl⟩ := Language.mem_mul.1 h'
    obtain ⟨hne, hchars⟩ := chars_of_mem_unsigned hu
    have hcs : k ++ u ++ e ++ r = k ++ (u ++ (e ++ r)) := by simp
    have hsign := minus_append hk (head?_append_ne hne hchars (by decide) (e ++ r))
    have hnumber {n : Nat} (hn : Pattern.unsigned (u ++ (e ++ r)) = some n) :
        Pattern.number (k ++ (u ++ (e ++ r))) =
          some (k.length + n + Pattern.exponent ((u ++ (e ++ r)).drop n)) := by
      simp only [Pattern.number, hsign]
      rw [List.drop_left, hn, Option.map_some, List.drop_length_add_append]
    rcases he with rfl | he
    · obtain ⟨n, hn, hle⟩ := unsigned.longest ([] ++ r) hu
      refine ⟨_, by rw [hcs, hnumber hn], ?_⟩
      rw [List.append_nil, List.length_append]
      omega
    · have hn := unsigned_append_exponent hu he r
      obtain ⟨n, hexponent, hle⟩ := exponent.longest r (.inr he)
      cases hexponent
      refine ⟨_, by rw [hcs, hnumber hn, List.drop_left], ?_⟩
      rw [List.length_append, List.length_append]
      exact Nat.add_le_add_left hle _

end Numbers

end Finds

end PropTables
