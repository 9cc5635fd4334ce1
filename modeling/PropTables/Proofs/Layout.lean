import PropTables.Proofs.ConstructEchoes
import PropTables.Proofs.Settled

/-! Layout says nothing. Where a token ends, blanks and comments may be put in that start with a blank:
no token is cut or joined by them, and so the program is the same up to places and comments. -/

namespace PropTables

inductive Layout : List Char → Prop
  | nil : Layout []
  | blank (hb : Pattern.isBlank b = true) (h : Layout t) : Layout (b :: t)
  | block (hc : Pattern.blockEnd c = some c.length) (h : Layout t) :
      Layout ('/' :: '*' :: (c ++ t))
  | line (hc : '\n' ∉ c) (h : Layout t) : Layout ('/' :: '/' :: (c ++ '\n' :: t))

structure Gap (t : List Char) : Prop where
  blank : ∃ b r, t = b :: r ∧ Pattern.isBlank b = true
  layout : Layout t

theorem Layout.closed {t : List Char} (h : Layout t) : Closed t [] := by
  induction h with
  | nil => exact .nil
  | blank hb _ ih => exact Closed.blank_cons hb ih
  | @block c t hc _ ih =>
    have hcomment : Closed ('/' :: '*' :: c) [] := by
      refine .blockComment (List.cons_ne_nil _ _) fun r => ?_
      rw [List.cons_append, List.cons_append, Pattern.comment, Pattern.blockEnd_append hc]
      rfl
    exact hcomment.append ih
  | @line c t hc _ ih =>
    have hline := (Closed.lineComment hc).append ih
    rwa [List.cons_append, List.cons_append, List.append_assoc, List.singleton_append] at hline

theorem Gap.closed {t : List Char} (h : Gap t) : Closed t [] :=
  h.layout.closed

/-- A slash and a star that are tokens of their own. With a `*/` further on they would start a comment. -/
def Lexeme.SlashStar (x y : Lexeme) : Prop :=
  x.class_ = .token .operator ∧ x.text = "/" ∧ y.class_ = .token (.mark .star)

instance (x y : Lexeme) : Decidable (x.SlashStar y) :=
  inferInstanceAs (Decidable (_ ∧ _ ∧ _))

section Blanks

open Pattern

variable {s r : List Char} {b : Char} {k : LexemeClass} {n : Nat}

theorem isBlank_cases (hb : isBlank b = true) : b ∈ [' ', '\t', '\x0c', '\r', '\n'] := by
  simpa [isBlank, or_assoc] using hb

theorem stops_of_blank (hb : isBlank b = true) : Stops (b :: r) := by
  intro c hc
  cases hc
  exact List.mem_append_right ['(', ')', '[', ']', '\x7b', '\x7d', ',', ':', '<', '>', '?']
    (isBlank_cases hb)

theorem mark_append_of_blank (hb : isBlank b = true) (s : List Char) :
    mark (s ++ b :: r) = mark s := by
  have hspelling (m : Mark) (c : Char) (hc : c ∈ m.spelling.toList) : isBlank c = false := by
    have hall : m.spelling.toList.all (!isBlank ·) = true := by cases m <;> decide
    simpa using List.all_eq_true.1 hall c hc
  have h (m : Mark) : m.spelling.toList.isPrefixOf (s ++ b :: r) = m.spelling.toList.isPrefixOf s := by
    refine isPrefixOf_append_of_head (fun c hc hbc => ?_) s
    cases hbc
    simp [hspelling m b hc] at hb
  simp only [mark, h]

theorem recognise_slash_star {s : List Char} (h : blockEnd s = none) :
    LexemeClass.recognise ('/' :: '*' :: s) = some (.token .operator, 1) := by
  have hoperator : LexemeClass.recognise ('/' :: '*' :: s) =
      ((comment ('/' :: '*' :: s)).map (.comment, ·)).or (some (.token .operator, 1)) := by
    cases hcomment : comment ('/' :: '*' :: s) <;> simp only [LexemeClass.recognise, hcomment] <;> rfl
  rw [hoperator, comment, h]
  rfl

theorem ne_of_blank (hb : isBlank b = true) {c : Char} (hc : isBlank c = false) : b ≠ c := by
  rintro rfl
  simp [hc] at hb

theorem comment_append_of_blank (hb : isBlank b = true)
    (h : LexemeClass.recognise s = some (k, n)) (hlast : k = .comment → n ≠ s.length)
    (hslash : ∀ u, s = '/' :: '*' :: u → k ≠ .token .operator) :
    comment (s ++ b :: r) = comment s := by
  cases s with
  | nil => cases h
  | cons c s =>
    by_cases hc : c = '/'
    case neg => rw [List.cons_append, comment_eq, comment_eq, behind_eq_none hc, behind_eq_none hc]
    subst hc
    cases s with
    | nil =>
      have hone := ne_of_blank hb (c := '/') (by decide)
      have hstar := ne_of_blank hb (c := '*') (by decide)
      simp [comment_eq, behind, hone, hstar]
    | cons d u =>
      by_cases hd : d = '/'
      · subst hd
        have hcomment : comment ('/' :: '/' :: u) = some (2 + (u.takeWhile (· ≠ '\n')).length) := rfl
        rw [LexemeClass.recognise_comment hcomment] at h
        cases h
        -- the line ends within the text, or the comment would take up all of it
        have hends : ¬ (u.takeWhile (· ≠ '\n')).length = u.length := by
          intro hall
          refine hlast rfl ?_
          rw [hall, List.length_cons, List.length_cons, Nat.add_comm]
        rw [List.cons_append, List.cons_append, comment, comment, List.takeWhile_append,
          if_neg hends]
      by_cases hd' : d = '*'
      · subst hd'
        cases hu : blockEnd u with
        | none =>
          rw [recognise_slash_star hu] at h
          cases h
          exact absurd rfl (hslash u rfl)
        | some m =>
          rw [List.cons_append, List.cons_append, comment, comment, blockEnd_append hu, hu]
      · simp [comment_eq, behind, hd, hd']

theorem string_append_of_recognised (h : LexemeClass.recognise s = some (k, n)) (r : List Char) :
    string (s ++ r) = string s := by
  cases hs : string s with
  | some m => exact string_append hs r
  | none =>
    cases s with
    | nil => cases h
    | cons c u =>
      -- nothing else starts with a quote
      have hquote : c ≠ '"' ∧ c ≠ '\'' := by
        constructor
        all_goals
          rintro rfl
          simp only [LexemeClass.recognise, hs] at h
          cases h
      rw [List.cons_append, string_eq, behind_eq_none hquote.1, behind_eq_none hquote.2]
      rfl

theorem template_append_of_recognised (h : LexemeClass.recognise s = some (k, n)) (r : List Char) :
    template (s ++ r) = template s := by
  cases hs : template s with
  | some m => exact template_append hs r
  | none =>
    cases s with
    | nil => cases h
    | cons c u =>
      have hquote : c ≠ '\x60' := by
        rintro rfl
        simp only [LexemeClass.recognise, hs] at h
        cases h
      rw [List.cons_append, template_eq, behind_eq_none hquote]

theorem blank_append_of_recognised (h : LexemeClass.recognise s = some (k, n)) 
    (hlast : k = .blank → n ≠ s.length) (r : List Char) :
    blank (s ++ r) = blank s := by
  cases s with
  | nil => cases h
  | cons c u =>
    cases hc : isBlank c with
    | false => rw [List.cons_append, blank_eq_none hc, blank_eq_none hc]
    | true =>
      rw [LexemeClass.recognise_blank hc] at h
      cases h
      have hends : ¬ (u.takeWhile isBlank).length = u.length := by
        intro hall
        exact hlast rfl (by rw [hall, List.length_cons, Nat.add_comm])
      rw [List.cons_append, blank_cons hc, blank_cons hc, List.takeWhile_append, if_neg hends]

theorem recognise_append_of_blank (hb : isBlank b = true)
    (h : LexemeClass.recognise s = some (k, n)) (hlast : n = s.length → ∃ t, k = .token t)
    (hslash : ∀ u, s = '/' :: '*' :: u → k ≠ .token .operator) :
    LexemeClass.recognise (s ++ b :: r) = some (k, n) := by
  have hstops : Stops (b :: r) := stops_of_blank hb
  have hne : s ≠ [] := ne_nil_of_recognise h
  have hcomment := comment_append_of_blank (r := r) hb h
    (fun hk hn => by obtain ⟨t, ht⟩ := hlast hn; simp [hk] at ht) hslash
  have hblank := blank_append_of_recognised h
    (fun hk hn => by obtain ⟨t, ht⟩ := hlast hn; simp [hk] at ht) (b :: r)
  have hname : ((name s).map fun m =>
        (LexemeClass.token (Terminal.ofWord (String.ofList ((s ++ b :: r).take m))), m)) =
      (name s).map fun m =>
        (LexemeClass.token (Terminal.ofWord (String.ofList (s.take m))), m) := by
    refine Option.map_congr fun m hm => ?_
    simp only [List.take_append_of_le_length (show m ≤ s.length from settled_name.le hm)]
  rw [← h]
  simp only [LexemeClass.recognise, hcomment, number_append_of_stops s hstops,
    string_append_of_recognised h, name_append_of_stops hne hstops, hname,
    template_append_of_recognised h, operator_append_of_stops s hstops, hblank,
    mark_append_of_blank hb]

/-- What is recognised at the start of a text that is split behind it is recognised as well when a gap is put
in there. -/
theorem recognise_insert {g : List Char} (hg : Gap g) {t : List Char}
    (h : LexemeClass.recognise (t ++ (s ++ r)) = some (k, t.length)) (hlast : s = [] → ∃ x, k = .token x)
    (hslash : ∀ v, t ++ (s ++ r) = '/' :: '*' :: v → k ≠ .token .operator) :
    LexemeClass.recognise (t ++ (s ++ (g ++ r))) = some (k, t.length) := by
  obtain ⟨b, g, rfl, hb⟩ := hg.blank
  rw [← List.append_assoc] at h hslash
  have hs : LexemeClass.recognise (t ++ s) = some (k, t.length) :=
    LexemeClass.settled_recognise.restrict h (by simp)
  rw [← List.append_assoc]
  refine recognise_append_of_blank hb hs (fun hlen => hlast ?_) fun v hv => hslash (v ++ r) ?_
  · simpa using hlen
  · rw [hv]
    rfl

end Blanks

theorem Reads.lexeme {k : LexemeClass} {t r : List Char} {l : Lexing} {e : Extent}
    {stuck : Option (Char × Position)} (h : LexemeClass.recognise (t ++ r) = some (k, t.length))
    (ht : t ≠ []) (hr : Reads r l.words) :
    Reads (t ++ r) (Lexing.words ⟨⟨k, String.ofList t, e⟩ :: l.lexemes, stuck⟩) := by
  cases k with
  | comment => exact .skip h (.inr rfl) ht hr
  | blank => exact .skip h (.inl rfl) ht hr
  | token k => exact .token h ht hr

namespace Lexing

variable {steps : Nat} {p : Position} {s r : List Char}

theorem exists_scan_cons {c : Char} (hstuck : (scan (steps + 1) p (c :: r)).stuck = none) :
    ∃ k t u, c :: r = t ++ u ∧ t ≠ [] ∧ LexemeClass.recognise (t ++ u) = some (k, t.length) ∧
      (scan steps (p.advance t) u).stuck = none ∧
      scan (steps + 1) p (c :: r) = 
        ⟨⟨k, String.ofList t, p, p.advance t⟩ :: (scan steps (p.advance t) u).lexemes, none⟩ := by
  cases hrec : LexemeClass.recognise (c :: r) with
  | none =>
    rw [scan, hrec] at hstuck
    cases hstuck
  | some x =>
    obtain ⟨k, n⟩ := x
    have hle : n ≤ (c :: r).length := LexemeClass.settled_recognise.le hrec
    have hlen : ((c :: r).take n).length = n := List.length_take_of_le hle
    rw [scan, hrec] at hstuck ⊢
    have hne : (c :: r).take n ≠ [] := by
      rw [← List.length_pos_iff, hlen]
      exact recognise_pos hrec
    refine ⟨k, (c :: r).take n, (c :: r).drop n, (List.take_append_drop _ _).symm, hne, ?_, hstuck, ?_⟩
    · rw [List.take_append_drop, hlen, hrec]
    · simp only at hstuck ⊢
      rw [hstuck]

theorem reads_of_scan (hs : s.length ≤ steps) (hstuck : (scan steps p s).stuck = none) :
    Reads s (scan steps p s).words := by
  induction steps generalizing p s with
  | zero =>
    obtain rfl : s = [] := List.length_eq_zero_iff.1 (Nat.le_zero.1 hs)
    exact .done
  | succ steps ih =>
    cases s with
    | nil => exact .done
    | cons c s =>
      obtain ⟨k, t, u, hsplit, ht, hrec, hrest, hscan⟩ := exists_scan_cons hstuck
      have hlen := congrArg List.length hsplit
      rw [List.length_append] at hlen
      have hpos := List.length_pos_iff.2 ht
      rw [hscan, hsplit]
      exact .lexeme hrec ht (ih (by omega) hrest)

theorem prefix_of_advance_lt {s t u : List Char} (hs : s <+: u) (ht : t <+: u)
    (h : p.advance t < p.advance s) : ∃ a as, s = t ++ a :: as := by
  rcases List.prefix_or_prefix_of_prefix hs ht with ⟨v, rfl⟩ | ⟨v, rfl⟩
  · rw [Position.advance_append] at h
    exact absurd (Position.le_advance _ v) h.not_ge
  · cases v with
    | nil =>
      rw [List.append_nil] at h
      exact absurd h (lt_irrefl _)
    | cons a as => exact ⟨a, as, rfl⟩

theorem eq_of_advance_eq {s t u : List Char} (hs : s <+: u) (ht : t <+: u)
    (h : p.advance s = p.advance t) : s = t := by
  rcases List.prefix_or_prefix_of_prefix hs ht with ⟨v, rfl⟩ | ⟨v, rfl⟩
  · rw [Position.advance_append] at h
    cases v with
    | nil => rw [List.append_nil]
    | cons a v => exact absurd h (Position.lt_advance _ (List.cons_ne_nil a v)).ne
  · rw [Position.advance_append] at h
    cases v with
    | nil => rw [List.append_nil]
    | cons a v => exact absurd h (Position.lt_advance _ (List.cons_ne_nil a v)).ne'

theorem slash_not_operator {k : LexemeClass} {t u : List Char} {e : Extent}
    (h : LexemeClass.recognise (t ++ u) = some (k, t.length)) (hu : u.length ≤ steps)
    (hstuck : (scan steps p u).stuck = none)
    (hslash : (⟨k, String.ofList t, e⟩ :: (scan steps p u).lexemes).IsChain
      fun x y => ¬ x.SlashStar y) (v : List Char) (hv : t ++ u = '/' :: '*' :: v) :
    k ≠ .token .operator := by
  rintro rfl
  have hend : Pattern.blockEnd v = none := by
    cases hend : Pattern.blockEnd v with
    | none => rfl
    | some m =>
      have hcomment : Pattern.comment (t ++ u) = some (m + 2) := by
        rw [hv, Pattern.comment, hend]
        rfl
      rw [LexemeClass.recognise_comment hcomment] at h
      cases h
  have hone := h
  rw [hv, recognise_slash_star hend, Option.some.injEq, Prod.mk.injEq] at hone
  obtain ⟨a, rfl⟩ := List.length_eq_one_iff.1 hone.2.symm
  rw [List.singleton_append, List.cons.injEq] at hv
  obtain ⟨rfl, rfl⟩ := hv
  obtain ⟨steps, rfl⟩ : ∃ n, steps = n + 1 := ⟨steps - 1, by simp at hu; omega⟩
  obtain ⟨k, t, w, hsplit, -, hrec, -, hscan⟩ := exists_scan_cons hstuck
  have hstar : LexemeClass.recognise ('*' :: v) = some (.token (.mark .star), 1) := rfl
  rw [← hsplit, hstar, Option.some.injEq, Prod.mk.injEq] at hrec
  obtain ⟨rfl, -⟩ := hrec
  rw [hscan, List.isChain_cons_cons] at hslash
  exact hslash.1 ⟨rfl, rfl, rfl⟩

theorem reads_insert {g cs : List Char} (hg : Gap g) (hcs : cs.length ≤ steps)
    (hsplit : cs = s ++ r) (hstuck : (scan steps p cs).stuck = none)
    (hslash : (scan steps p cs).lexemes.IsChain fun x y => ¬ x.SlashStar y)
    (hplace : ∃ t ∈ (scan steps p cs).tokens, t.extent.stop = p.advance s) :
    Reads (s ++ (g ++ r)) (scan steps p cs).words := by
  induction steps generalizing p s cs with
  | zero =>
    obtain rfl : cs = [] := List.length_eq_zero_iff.1 (Nat.le_zero.1 hcs)
    obtain ⟨t, ht, -⟩ := hplace
    cases ht
  | succ steps ih =>
    obtain ⟨token, htoken, hstop⟩ := hplace
    cases cs with
    | nil => cases htoken
    | cons c cs =>
      obtain ⟨k, t, u, htu, ht, hrec, hrest, hscan⟩ := exists_scan_cons hstuck
      have hlen := congrArg List.length htu
      rw [List.length_append] at hlen
      have hpos := List.length_pos_iff.2 ht
      have hu : u.length ≤ steps := by omega
      rw [hscan] at htoken hslash ⊢
      have hoperator := slash_not_operator hrec hu hrest hslash
      have hs : s <+: c :: cs := ⟨r, hsplit.symm⟩
      have ht' : t <+: c :: cs := ⟨u, htu.symm⟩
      obtain ⟨x, hx, hxtoken⟩ := List.mem_filterMap.1 htoken
      obtain ⟨hclass, hextent⟩ := token?_eq_some hxtoken
      rw [hextent] at hstop
      rcases List.mem_cons.1 hx with rfl | hx
      · -- the gap is behind the first lexeme, which is a token
        obtain rfl : t = s := eq_of_advance_eq ht' hs hstop
        obtain rfl : u = r := List.append_cancel_left (htu.symm.trans hsplit)
        refine .lexeme (recognise_insert (s := []) hg hrec (fun _ => ⟨_, hclass⟩) hoperator) ht ?_
        exact hg.closed _ _ (reads_of_scan hu hrest)
      · have hlt : p.advance t < p.advance s := by
          rw [← hstop]
          obtain ⟨hstart, hlt⟩ := (scan_ordered _ _ _).1 x hx
          exact hstart.trans_lt hlt
        obtain ⟨a, as, rfl⟩ := prefix_of_advance_lt hs ht' hlt
        have hcancel : t ++ u = t ++ (a :: as ++ r) := by
          rw [← List.append_assoc]
          exact htu.symm.trans hsplit
        obtain rfl := List.append_cancel_left hcancel
        rw [List.append_assoc]
        refine .lexeme (recognise_insert hg hrec nofun hoperator) ht ?_
        refine ih hu rfl hrest (List.isChain_of_isChain_cons hslash) ?_
        exact ⟨token, List.mem_filterMap.2 ⟨x, hx, hxtoken⟩, by
          rw [hextent, hstop, Position.advance_append]⟩

end Lexing

namespace Module

/-- A gap behind any token of a program, or before the first one, changes nothing but places and comments.
The program has no slash and star that are tokens of their own. -/
theorem same_with_gap {before after gap : String} {file : Option String} {m : Module}
    (h : ofSource names (before ++ after) file = .ok m)
    (hslash : (Lexing.ofSource (before ++ after)).lexemes.IsChain fun x y => ¬ x.SlashStar y)
    (hgap : Gap gap.toList)
    (hplace : before = "" ∨ ∃ t ∈ (Lexing.ofSource (before ++ after)).tokens,
      t.extent.stop = .advance .first before.toList) :
    ∃ m', ofSource names (before ++ gap ++ after) file = .ok m' ∧ plain m' = plain m := by
  have hstuck := (ofSource_eq_ok_iff.1 h).1
  have hsplit : (before ++ after).toList = before.toList ++ after.toList := String.toList_append
  have hlen : (before ++ after).toList.length ≤ (before ++ after).length :=
    Nat.le_of_eq String.length_toList
  have hreads : Reads (before.toList ++ (gap.toList ++ after.toList))
      (Lexing.ofSource (before ++ after)).words := by
    rcases hplace with rfl | hplace
    · have hwhole := Lexing.reads_of_scan hlen hstuck
      rw [hsplit] at hwhole
      exact hgap.closed _ _ hwhole
    · exact Lexing.reads_insert hgap hlen hsplit hstuck hslash hplace
  have hsource : (before ++ gap ++ after).toList =
      before.toList ++ (gap.toList ++ after.toList) := by
    rw [String.toList_append, String.toList_append, List.append_assoc]
  obtain ⟨hstuck', hwords⟩ := Lexing.ofSource_of_reads (hsource ▸ hreads)
  exact ofSource_of_words h hstuck' hwords.symm

theorem same_with_gap_of_comments :
    ∃ m m', ofSource .none "type A = \x7b|b: ?-1[]|\x7d" none = .ok m ∧
      ofSource .none "type A = \x7b| /* \x7b*/\n// |\x7d\nb: ?-1[]|\x7d" none = .ok m' ∧ plain m' = plain m := by
  have hok : (ofSource .none ("type A = \x7b|" ++ "b: ?-1[]|\x7d") none).toOption.isSome := by decide +kernel
  obtain ⟨m, hm⟩ := exists_eq_ok hok
  have hgap : Gap " /* \x7b*/\n// |\x7d\n".toList :=
    ⟨⟨' ', _, rfl, rfl⟩, .blank rfl (.block (c := " \x7b*/".toList) (by decide)
      (.blank (b := '\n') rfl (.line (c := " |\x7d".toList) (by decide) .nil)))⟩
  obtain ⟨m', hm', hplain⟩ := same_with_gap hm (by decide +kernel) hgap (.inr (by decide +kernel))
  exact ⟨m, m', hm, hm', hplain⟩

end Module

end PropTables
