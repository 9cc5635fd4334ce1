import PropTables.Proofs.Spelling

/-! Texts that are made of tokens: which of them keep their tokens where they stand one after another. -/

namespace PropTables

open Spelling

abbrev Word := Terminal × String

def Spelling.IsToken (k : Terminal) (text : String) : Prop :=
  LexemeClass.recognise text.toList = some (.token k, text.length)

instance (k : Terminal) (text : String) : Decidable (IsToken k text) :=
  inferInstanceAs (Decidable (_ = _))

section Texts

variable {s t : List Char} {v w : List Word}

theorem Open.append (hs : Open s v) (hstop : Stops t) (ht : Open t w) : Open (s ++ t) (v ++ w) := by
  intro r ws hr hreads
  rw [List.append_assoc, List.append_assoc]
  refine hs _ _ ?_ (ht r ws hr hreads)
  cases t with
  | nil => exact hr
  | cons c t => exact hstop

theorem Closed.anyMark {m : Mark} (h : m ∉ [.dot, .equals, .openBrace, .bar]) :
    Closed m.spelling.toList [m.word] := by
  have hr (r : List Char) : LexemeClass.recognise (m.spelling.toList ++ r) =
      some (.token (.mark m), m.spelling.toList.length) := by
    cases m <;> first | rfl | simp at h
  have closed := token m.spelling_ne_nil hr
  rwa [String.ofList_toList] at closed

theorem Closed.mark_blank (m : Mark) : Closed (m.spelling.toList ++ [' ']) [m.word] := by
  intro r ws hr
  have hrec : LexemeClass.recognise (m.spelling.toList ++ ' ' :: r) =
      some (.token (.mark m), m.spelling.toList.length) := by
    cases m <;> rfl
  have hreads := Reads.token hrec m.spelling_ne_nil (Closed.blank (b := ' ') rfl r ws hr)
  rw [String.ofList_toList] at hreads
  rwa [List.append_assoc]

theorem Pattern.number_eq_none_of_word {k : Terminal} {c : Char} {cs : List Char} {n : Nat}
    (hk : k.isWord = true) (h : LexemeClass.recognise (c :: cs) = some (.token k, n)) :
    startsName c = true ∧ ∀ r, number (c :: r) = none ∧ digits (c :: r) = 0 := by
  cases LexemeClass.shows_of_recognise h with
  | word hname =>
    rw [name] at hname
    split at hname
    case isFalse => cases hname
    case isTrue hc =>
    have hrun : inRun c = true := by simp [inRun, continuesName, hc]
    have hdigit : isDecimalDigit c = false := by
      by_contra hdigit
      obtain ⟨n, hn⟩ := Option.isSome_iff_exists.1 (number_isSome (by simpa using hdigit) cs)
      rw [LexemeClass.recognise_eq_of_run hrun, hn] at h
      cases h
      cases hk
    have other {d : Char} (hd : startsName d = false) : c ≠ d := by
      rintro rfl
      simp [hc] at hd
    have hminus := other (d := '-') (by decide)
    have hdot := other (d := '.') (by decide)
    refine ⟨hc, fun r => ?_⟩
    have hzero : digits (c :: r) = 0 := by simp [digits, hdigit]
    have hunsigned : unsigned (c :: r) = none := by
      rw [unsigned_eq, hzero]
      simp [hdot]
    exact ⟨by simp [number, hminus, hunsigned], hzero⟩
  | _ => cases hk

theorem LexemeClass.recognise_word {k : Terminal} {t r : List Char} (hk : k.isWord = true)
    (h : recognise t = some (.token k, t.length)) (hr : ∀ c ∈ r.head?, Pattern.continuesName c = false) :
    recognise (t ++ r) = some (.token k, t.length) := by
  obtain ⟨c, cs, rfl⟩ := List.exists_cons_of_ne_nil (ne_nil_of_recognise h)
  obtain ⟨hc, hnumber⟩ := Pattern.number_eq_none_of_word hk h
  have hrun : Pattern.inRun c = true := by simp [Pattern.inRun, Pattern.continuesName, hc]
  have hname (r : List Char) :
      Pattern.name (c :: r) = some (1 + (r.takeWhile Pattern.continuesName).length) := by
    rw [Pattern.name, if_pos hc]
  rw [recognise_eq_of_run hrun, (hnumber cs).1, hname] at h
  simp only [Option.map_none, Option.map_some, Option.none_or, Option.some_or, Option.some.injEq,
    Prod.mk.injEq, LexemeClass.token.injEq] at h
  obtain ⟨hword, hlen⟩ := h
  have hall : (cs.takeWhile Pattern.continuesName).length = cs.length := by
    rw [List.length_cons] at hlen
    omega
  have hnil : r.takeWhile Pattern.continuesName = [] := by
    cases r with
    | nil => rfl
    | cons d r => rw [List.takeWhile_cons_of_neg (by simp [hr d rfl])]
  have happend : (cs ++ r).takeWhile Pattern.continuesName = cs := by
    rw [List.takeWhile_append, if_pos hall, hnil, List.append_nil]
  rw [List.cons_append, recognise_eq_of_run hrun, (hnumber _).1, hname, happend]
  simp only [Option.map_none, Option.map_some, Option.none_or, Option.some_or, List.length_cons,
    Nat.add_comm 1]
  rw [← List.cons_append, ← List.length_cons (a := c), List.take_left]
  rw [hlen, List.take_length] at hword
  rw [hword]

theorem Open.token {k : Terminal} {text : String} (hk : k.isValue = true) (h : IsToken k text) :
    Open text.toList [(k, text)] := by
  rw [IsToken, ← String.length_toList] at h
  have hne := ne_nil_of_recognise h
  have hrun (hrun : ∀ c ∈ text.toList, Pattern.inRun c = true) : Open text.toList [(k, text)] := by
    intro r ws hr hreads
    have hrec : LexemeClass.recognise (text.toList ++ r) = some (.token k, text.toList.length) := by
      obtain ⟨c, cs, hcs⟩ := List.exists_cons_of_ne_nil hne
      rw [hcs] at hrun h ⊢
      rw [LexemeClass.recognise_append_of_stops (hrun c List.mem_cons_self) cs hr, h]
    have htoken := Reads.token hrec hne hreads
    rwa [String.ofList_toList] at htoken
  have hclosed (h : Closed text.toList [(k, String.ofList text.toList)]) :
      Open text.toList [(k, text)] := by
    rw [String.ofList_toList] at h
    exact h.open
  cases LexemeClass.shows_of_recognise h with
  | number h => exact hrun (Pattern.RunTo.number h).all
  | word h => exact hrun (Pattern.RunTo.name h).all
  | string h => exact hclosed (.string h)
  | template h => exact hclosed (.template h)
  | operator | mark => cases hk

theorem LexemeClass.recognise_dot {c : Char} {r : List Char} (hc : c ≠ '.')
    (hdigits : Pattern.digits (c :: r) = 0) :
    recognise ('.' :: c :: r) = some (.token (.mark .dot), 1) := by
  have hzero : Pattern.digits ('.' :: c :: r) = 0 := rfl
  have hnumber : Pattern.number ('.' :: c :: r) = none := by
    have hunsigned : Pattern.unsigned ('.' :: c :: r) = none := by
      rw [Pattern.unsigned_eq, hzero]
      simp [hdigits]
    simp [Pattern.number, hunsigned]
  have hmark : Pattern.mark ('.' :: c :: r) = some (.dot, 1) := by
    have hlen : ".".length = 1 := by decide
    simp [Pattern.mark, Mark.all, Mark.spelling, hc.symm, hlen]
  rw [recognise_eq_of_run (by decide), hnumber, hmark]
  rfl

theorem Open.path {n : String} {path : List String} (hn : IsToken .name n)
    (hpath : ∀ p ∈ path, IsToken .name p) :
    Open (n.toList ++ path.flatMap fun p => '.' :: p.toList)
      ((.name, n) :: path.flatMap fun p => [Mark.dot.word, (.name, p)]) := by
  induction path generalizing n with
  | nil =>
    rw [List.flatMap_nil, List.flatMap_nil, List.append_nil]
    exact .token rfl hn
  | cons p path ih =>
    intro r ws hr hreads
    have hrest := ih (hpath p List.mem_cons_self)
      (fun q hq => hpath q (List.mem_cons_of_mem _ hq)) r ws hr hreads
    have hp := hpath p List.mem_cons_self
    rw [IsToken, ← String.length_toList] at hp hn
    obtain ⟨c, cs, hcs⟩ := List.exists_cons_of_ne_nil (ne_nil_of_recognise hp)
    rw [hcs] at hp
    obtain ⟨hc, hnumber⟩ := Pattern.number_eq_none_of_word rfl hp
    -- the dot starts neither a number nor the mark of three dots
    have hdot (r : List Char) :
        LexemeClass.recognise ('.' :: c :: r) = some (.token (.mark .dot), 1) :=
      LexemeClass.recognise_dot (by rintro rfl; revert hc; decide) (hnumber r).2
    have hmark : Reads ('.' :: (p.toList ++ path.flatMap (fun p => '.' :: p.toList) ++ r)) 
        (Mark.dot.word :: ((.name, p) :: path.flatMap (fun p => [Mark.dot.word, (.name, p)]) ++ ws)) := by
      rw [hcs] at hrest ⊢
      exact .token (t := ['.']) (hdot _) (by simp) hrest
    have hname := Reads.token (LexemeClass.recognise_word rfl hn
      (r := '.' :: (p.toList ++ path.flatMap (fun p => '.' :: p.toList) ++ r)) (by
        intro d hd
        cases hd
        decide)) (ne_nil_of_recognise hn) hmark
    rw [String.ofList_toList] at hname
    simpa using hname

theorem intercalate_cons (separator text : String) (texts : List String) :
    (separator.intercalate (text :: texts)).toList =
      text.toList ++ texts.flatMap fun t => separator.toList ++ t.toList := by
  rw [String.toList_intercalate]
  induction texts generalizing text with
  | nil => simp
  | cons t texts ih =>
    rw [List.map_cons, List.map_cons, List.intercalate_cons_cons, ← List.map_cons, ih t,
      List.flatMap_cons]
    simp only [List.append_assoc]

theorem Open.rows {ι : Type} {separator : List Char} {w : Word} {items : List ι}
    {text : ι → String} {words : ι → List Word} (hw : Closed separator [w])
    (hstop : ∃ c ∈ separator.head?, c ∈ stoppers)
    (h : ∀ x ∈ items, Open (text x).toList (words x)) :
    Stops (items.flatMap fun x => separator ++ (text x).toList) ∧
      Open (items.flatMap fun x => separator ++ (text x).toList)
        (items.flatMap fun x => w :: words x) := by
  obtain ⟨c, hc, hstop⟩ := hstop
  obtain ⟨separator, rfl⟩ : ∃ s, separator = c :: s := by
    cases separator with
    | nil => cases hc
    | cons d s =>
      cases hc
      exact ⟨s, rfl⟩
  induction items with
  | nil => exact ⟨nofun, Closed.nil.open⟩
  | cons x items ih =>
    obtain ⟨hstops, hrest⟩ := ih fun y hy => h y (List.mem_cons_of_mem _ hy)
    refine ⟨?_, ?_⟩
    · intro d hd
      cases hd
      exact hstop
    · have hx := (h x List.mem_cons_self).append hstops hrest
      have hall := hw.append_open hx
      rwa [← List.append_assoc] at hall

end Texts

end PropTables
