import Mathlib.Data.List.TakeWhile
import PropTables.Source.Lexeme

/-! Texts that keep their tokens wherever they stand. A text is closed if its tokens are the same
whatever follows it, and open if they are the same before a mark that ends names and numbers. Every
run of the characters of names and numbers is open: where it falls into tokens depends on nothing
behind it. -/

namespace PropTables

def Token.word (t : Token) : Terminal × String :=
  (t.terminal, t.text)

def Mark.word (m : Mark) : Terminal × String :=
  (.mark m, m.spelling)

theorem Mark.spelling_ne_nil (m : Mark) : m.spelling.toList ≠ [] := by
  cases m <;> decide

@[simp] theorem Mark.word_fst (m : Mark) : m.word.1 = .mark m := rfl

def Lexing.words (l : Lexing) : List (Terminal × String) :=
  l.tokens.map Token.word

/-- The text falls into lexemes up to its end, and the words are the tokens among them. -/
inductive Reads : List Char → List (Terminal × String) → Prop
  | done : Reads [] []
  | token (h : LexemeClass.recognise (t ++ r) = some (.token k, t.length)) (ht : t ≠ [])
      (hr : Reads r ws) : Reads (t ++ r) ((k, String.ofList t) :: ws)
  | skip (h : LexemeClass.recognise (t ++ r) = some (c, t.length))
      (hc : c = .blank ∨ c = .comment) (ht : t ≠ []) (hr : Reads r ws) : Reads (t ++ r) ws

namespace Lexing

variable {cs : List Char} {ws : List (Terminal × String)}

theorem exists_scan_append {t r : List Char} {c : LexemeClass} {steps : Nat} (p : Position)
    (h : LexemeClass.recognise (t ++ r) = some (c, t.length)) (ht : t ≠ [])
    (hs : (t ++ r).length ≤ steps) :
    ∃ left, r.length ≤ left ∧ scan steps p (t ++ r) =
      ⟨⟨c, String.ofList t, p, p.advance t⟩ :: (scan left (p.advance t) r).lexemes,
        (scan left (p.advance t) r).stuck⟩ := by
  obtain ⟨a, t, rfl⟩ := List.exists_cons_of_ne_nil ht
  rw [List.length_append, List.length_cons] at hs
  obtain ⟨left, rfl⟩ : ∃ n, steps = n + 1 := ⟨steps - 1, by omega⟩
  refine ⟨left, by omega, ?_⟩
  have hsplit : a :: (t ++ r) = (a :: t) ++ r := rfl
  rw [List.cons_append] at h ⊢
  rw [scan, h]
  simp only [hsplit, List.take_left, List.drop_left]

theorem scan_of_reads (h : Reads cs ws) :
    ∀ {steps : Nat} (p : Position), cs.length ≤ steps →
      (scan steps p cs).stuck = none ∧ (scan steps p cs).words = ws := by
  -- As many steps as there are characters go through the whole of a text that is read.
  induction h with
  | done =>
    intro steps p _
    cases steps <;> exact ⟨rfl, rfl⟩
  | token h ht _ ih =>
    intro steps p hs
    obtain ⟨left, hleft, hscan⟩ := exists_scan_append p h ht hs
    obtain ⟨hstuck, hwords⟩ := ih (p.advance _) hleft
    rw [hscan]
    exact ⟨hstuck, by rw [← hwords]; rfl⟩
  | skip h hc ht _ ih =>
    intro steps p hs
    obtain ⟨left, hleft, hscan⟩ := exists_scan_append p h ht hs
    obtain ⟨hstuck, hwords⟩ := ih (p.advance _) hleft
    rw [hscan]
    refine ⟨hstuck, ?_⟩
    rw [← hwords]
    rcases hc with rfl | rfl <;> rfl

theorem ofSource_of_reads {source : String} (h : Reads source.toList ws) :
    (ofSource source).stuck = none ∧ (ofSource source).words = ws :=
  scan_of_reads h .first (Nat.le_of_eq String.length_toList)

end Lexing

/-- The words are the tokens of the text, whatever follows it. -/
def Closed (t : List Char) (words : List (Terminal × String)) : Prop :=
  ∀ r ws, Reads r ws → Reads (t ++ r) (words ++ ws)

def stoppers : List Char :=
  ['(', ')', '[', ']', '\x7b', '\x7d', ',', ':', '<', '>', '?', ' ', '\t', '\x0c', '\r', '\n']

def Stops (r : List Char) : Prop :=
  ∀ c ∈ r.head?, c ∈ stoppers

/-- The words are the tokens of the text, if what follows ends names and numbers. -/
def Open (t : List Char) (words : List (Terminal × String)) : Prop :=
  ∀ r ws, Stops r → Reads r ws → Reads (t ++ r) (words ++ ws)

section Composition

variable {s t : List Char} {v w : List (Terminal × String)}

theorem Closed.nil : Closed [] [] :=
  fun _ _ hr => hr

theorem Closed.append (hs : Closed s v) (ht : Closed t w) : Closed (s ++ t) (v ++ w) := by
  intro r ws hr
  rw [List.append_assoc, List.append_assoc]
  exact hs _ _ (ht _ _ hr)

theorem Closed.open (h : Closed t w) : Open t w :=
  fun r ws _ hr => h r ws hr

theorem Closed.append_open (hs : Closed s v) (ht : Open t w) : Open (s ++ t) (v ++ w) := by
  intro r ws hstop hr
  rw [List.append_assoc, List.append_assoc]
  exact hs _ _ (ht _ _ hstop hr)

theorem Open.append_closed {c : Char} (hs : Open s v) (hc : c ∈ stoppers) (ht : Closed (c :: t) w) :
    Closed (s ++ c :: t) (v ++ w) := by
  intro r ws hr
  rw [List.append_assoc, List.append_assoc]
  exact hs _ _ (by simpa [Stops] using hc) (ht _ _ hr)

theorem Open.reads (h : Open t w) : Reads t w := by
  have hr := h [] [] (by simp [Stops]) .done
  rwa [List.append_nil, List.append_nil] at hr

end Composition

def Terminal.isWord : Terminal → Bool
  | .name | .keyword _ => true
  | _ => false

theorem Terminal.isWord_ofWord (word : String) : (ofWord word).isWord = true := by
  unfold ofWord
  split <;> rfl

open Pattern in
theorem LexemeClass.recognise_eq (cs : List Char) : recognise cs =
    ((Pattern.comment cs).map (comment, ·)).or
      (((number cs).map (token .number, ·)).or
        (((string cs).map (token .string, ·)).or
          (((name cs).map fun n => (token (Terminal.ofWord (String.ofList (cs.take n))), n)).or
            (((template cs).map (token .template, ·)).or
              (((operator cs).map (token .operator, ·)).or
                (((Pattern.blank cs).map (blank, ·)).or
                  ((mark cs).map fun x => (token (.mark x.1), x.2)))))))) := by
  simp only [recognise, Option.orElse_eq_orElse, Option.orElse_eq_or]

inductive LexemeClass.Shows (cs : List Char) : LexemeClass → Nat → Prop
  | comment (h : Pattern.comment cs = some n) : Shows cs .comment n
  | number (h : Pattern.number cs = some n) : Shows cs (.token .number) n
  | string (h : Pattern.string cs = some n) : Shows cs (.token .string) n
  | word (h : Pattern.name cs = some n) (hk : k.isWord = true) : Shows cs (.token k) n
  | template (h : Pattern.template cs = some n) : Shows cs (.token .template) n
  | operator (h : Pattern.operator cs = some n) : Shows cs (.token .operator) n
  | blank (h : Pattern.blank cs = some n) : Shows cs .blank n
  | mark (h : Pattern.mark cs = some (m, n)) : Shows cs (.token (.mark m)) n

theorem LexemeClass.shows_of_recognise {cs : List Char} {c : LexemeClass} {n : Nat}
    (h : recognise cs = some (c, n)) : Shows cs c n := by
  simp only [recognise_eq, Option.or_eq_some_iff, Option.map_eq_some_iff, Prod.mk.injEq] at h
  rcases h with ⟨_, h, rfl, rfl⟩ | ⟨_, h⟩
  · exact .comment h
  rcases h with ⟨_, h, rfl, rfl⟩ | ⟨_, h⟩
  · exact .number h
  rcases h with ⟨_, h, rfl, rfl⟩ | ⟨_, h⟩
  · exact .string h
  rcases h with ⟨_, h, rfl, rfl⟩ | ⟨_, h⟩
  · exact .word h (Terminal.isWord_ofWord _)
  rcases h with ⟨_, h, rfl, rfl⟩ | ⟨_, h⟩
  · exact .template h
  rcases h with ⟨_, h, rfl, rfl⟩ | ⟨_, h⟩
  · exact .operator h
  rcases h with ⟨_, h, rfl, rfl⟩ | ⟨_, _, h, rfl, rfl⟩
  · exact .blank h
  · exact .mark h

namespace Pattern

theorem blockEnd_append {cs : List Char} {n : Nat} (h : blockEnd cs = some n) (r : List Char) :
    blockEnd (cs ++ r) = some n := by
  induction cs using blockEnd.induct generalizing n with
  | case1 => cases h
  | case2 cs => exact h
  | case3 c cs hend ih =>
    rw [blockEnd.eq_3 _ _ hend, Option.map_eq_some_iff] at h
    obtain ⟨n, h, rfl⟩ := h
    rw [List.cons_append, blockEnd.eq_3, ih h, Option.map_some]
    -- the end of the comment is not made up of its last character and the text behind it
    cases cs with
    | nil => cases h
    | cons d cs =>
      intro r' hc hd
      cases hd
      exact hend cs hc rfl

theorem quotedRest_cons {q c : Char} {lines : Bool} (hc : c ≠ '\\') (r : List Char) :
    quotedRest q lines (c :: r) =
      if c = q then some 1 else if c = '\n' ∧ !lines then none
      else (quotedRest q lines r).map (· + 1) :=
  quotedRest.eq_4 q lines c r (fun h => (hc h).elim) (fun _ _ h => (hc h).elim)

theorem quotedRest_append {q : Char} {lines : Bool} {cs : List Char} {n : Nat}
    (h : quotedRest q lines cs = some n) (r : List Char) :
    quotedRest q lines (cs ++ r) = some n := by
  have plain {c : Char} {cs : List Char} (h₀ : c = '\\' → cs = [] → False)
      (h₁ : ∀ d ds, c = '\\' → cs = d :: ds → False) : c ≠ '\\' := by
    intro hc
    cases cs with
    | nil => exact h₀ hc rfl
    | cons d ds => exact h₁ d ds hc rfl
  induction cs using quotedRest.induct q lines generalizing n with
  | case1 => cases h
  | case2 => cases h
  | case3 cs => cases h
  | case4 c cs hc ih =>
    rw [quotedRest, if_neg hc, Option.map_eq_some_iff] at h
    obtain ⟨n, h, rfl⟩ := h
    rw [List.cons_append, List.cons_append, quotedRest, if_neg hc, ih h, Option.map_some]
  | case5 cs h₀ h₁ =>
    rw [quotedRest_cons (plain h₀ h₁), if_pos rfl] at h
    rw [List.cons_append, quotedRest_cons (plain h₀ h₁), if_pos rfl, h]
  | case6 c cs h₀ h₁ hq hl =>
    rw [quotedRest_cons (plain h₀ h₁), if_neg hq, if_pos hl] at h
    cases h
  | case7 c cs h₀ h₁ hq hl ih =>
    rw [quotedRest_cons (plain h₀ h₁), if_neg hq, if_neg hl, Option.map_eq_some_iff] at h
    obtain ⟨n, h, rfl⟩ := h
    rw [List.cons_append, quotedRest_cons (plain h₀ h₁), if_neg hq, if_neg hl, ih h,
      Option.map_some]

theorem string_append {cs : List Char} {n : Nat} (h : string cs = some n) (r : List Char) :
    string (cs ++ r) = some n := by
  unfold string at h
  split at h
  case h_3 => cases h
  all_goals
    rw [Option.map_eq_some_iff] at h
    obtain ⟨n, h, rfl⟩ := h
    rw [List.cons_append, string, quotedRest_append h, Option.map_some]

theorem template_append {cs : List Char} {n : Nat} (h : template cs = some n) (r : List Char) :
    template (cs ++ r) = some n := by
  unfold template at h
  split at h
  · rw [Option.map_eq_some_iff] at h
    obtain ⟨n, h, rfl⟩ := h
    rw [List.cons_append, template, quotedRest_append h, Option.map_some]
  · cases h

theorem comment_eq_some {cs : List Char} (h : comment cs = some cs.length) :
    (∃ r, cs = '/' :: '/' :: r ∧ '\n' ∉ r) ∨
      (∃ r, cs = '/' :: '*' :: r) ∧ ∀ r, comment (cs ++ r) = some cs.length := by
  unfold comment at h
  split at h
  case h_1 r =>
    refine .inl ⟨r, rfl, fun hn => ?_⟩
    have hall : r.takeWhile (· ≠ '\n') = r := by
      refine (List.takeWhile_prefix _).eq_of_length ?_
      rw [Option.some.injEq, List.length_cons, List.length_cons] at h
      omega
    simpa using List.takeWhile_eq_self_iff.1 hall _ hn
  case h_2 r =>
    refine .inr ⟨⟨r, rfl⟩, fun s => ?_⟩
    rw [Option.map_eq_some_iff] at h
    obtain ⟨n, h, hn⟩ := h
    rw [List.cons_append, List.cons_append, comment, blockEnd_append h, Option.map_some, hn]
  case h_3 => cases h

theorem blank_cons {b : Char} (hb : isBlank b = true) (r : List Char) :
    blank (b :: r) = some (1 + (r.takeWhile isBlank).length) := by
  simp [blank, run, hb, Nat.add_comm]

theorem blank_eq_none {c : Char} (hc : isBlank c = false) (r : List Char) :
    blank (c :: r) = none := by
  simp [blank, run, hc]

end Pattern

namespace LexemeClass

theorem recognise_blank {b : Char} (hb : Pattern.isBlank b = true) (r : List Char) :
    recognise (b :: r) = some (.blank, 1 + (r.takeWhile Pattern.isBlank).length) := by
  have h : recognise (b :: r) = (Pattern.blank (b :: r)).map (.blank, ·) := by
    simp only [Pattern.isBlank, Bool.or_eq_true, beq_iff_eq] at hb
    rcases hb with (((rfl | rfl) | rfl) | rfl) | rfl <;> rfl
  rw [h, Pattern.blank_cons hb, Option.map_some]

theorem recognise_comment {cs : List Char} {n : Nat} (h : Pattern.comment cs = some n) :
    recognise cs = some (.comment, n) := by
  rw [recognise_eq, h, Option.map_some, Option.some_or]

theorem recognise_brace {c : Char} (hc : c ≠ '|') (r : List Char) :
    recognise ('\x7b' :: c :: r) = some (.token (.mark .openBrace), 1) := by
  have h : recognise ('\x7b' :: c :: r) =
      (Pattern.mark ('\x7b' :: c :: r)).map fun x => (.token (.mark x.1), x.2) := rfl
  have hfind : Pattern.mark ('\x7b' :: c :: r) = some (.openBrace, 1) := by
    have hlen : "\x7b".length = 1 := by decide
    simp [Pattern.mark, Mark.all, Mark.spelling, hc.symm, hlen]
  rw [h, hfind, Option.map_some]

theorem recognise_string {cs : List Char} {n : Nat} (h : Pattern.string cs = some n) :
    recognise cs = some (.token .string, n) := by
  have before : Pattern.comment cs = none ∧ Pattern.number cs = none := by
    unfold Pattern.string at h
    split at h
    · exact ⟨rfl, rfl⟩
    · exact ⟨rfl, rfl⟩
    · cases h
  simp only [recognise_eq, h, before, Option.map_some, Option.map_none, Option.some_or, Option.none_or]

theorem recognise_template {cs : List Char} {n : Nat} (h : Pattern.template cs = some n) :
    recognise cs = some (.token .template, n) := by
  have before : Pattern.comment cs = none ∧ Pattern.number cs = none ∧
      Pattern.string cs = none ∧ Pattern.name cs = none := by
    unfold Pattern.template at h
    split at h
    · exact ⟨rfl, rfl, rfl, rfl⟩
    · cases h
  simp only [recognise_eq, h, before, Option.map_some, Option.map_none, Option.some_or, Option.none_or]

end LexemeClass

theorem Reads.behind_blanks {cs : List Char} {ws : List (Terminal × String)} {n : Nat}
    (h : Reads cs ws) (hb : LexemeClass.recognise cs = some (.blank, n)) :
    ∃ t r, cs = t ++ r ∧ t.length = n ∧ Reads r ws := by
  cases h with
  | done => cases hb
  | token h =>
    rw [h] at hb
    cases hb
  | skip h hc _ hr =>
    rw [h] at hb
    cases hb
    exact ⟨_, _, rfl, rfl, hr⟩

namespace Closed

variable {t : List Char} {w : List (Terminal × String)}

theorem token {k : Terminal} (ht : t ≠ [])
    (h : ∀ r, LexemeClass.recognise (t ++ r) = some (.token k, t.length)) :
    Closed t [(k, String.ofList t)] :=
  fun r _ hr => .token (h r) ht hr

theorem string (h : Pattern.string t = some t.length) :
    Closed t [(.string, String.ofList t)] := by
  have ht : t ≠ [] := by
    rintro rfl
    cases h
  exact token ht fun r => LexemeClass.recognise_string (Pattern.string_append h r)

theorem template (h : Pattern.template t = some t.length) :
    Closed t [(.template, String.ofList t)] := by
  have ht : t ≠ [] := by
    rintro rfl
    cases h
  exact token ht fun r => LexemeClass.recognise_template (Pattern.template_append h r)

theorem mark {m : Mark} (h : m ∈ [.openParen, .closeParen, .openBracket, .closeBracket,
    .closeBrace, .comma, .colon]) : Closed m.spelling.toList [m.word] := by
  have hr (r : List Char) : LexemeClass.recognise (m.spelling.toList ++ r) =
      some (.token (.mark m), m.spelling.toList.length) := by
    simp only [List.mem_cons, List.not_mem_nil, or_false] at h
    rcases h with rfl | rfl | rfl | rfl | rfl | rfl | rfl <;> rfl
  have closed := token m.spelling_ne_nil hr
  rwa [String.ofList_toList] at closed

theorem brace (ht : t ≠ []) (hbar : t.head? ≠ some '|') (h : Closed t w) :
    Closed ('\x7b' :: t) (Mark.openBrace.word :: w) := by
  intro r ws hr
  obtain ⟨c, t, rfl⟩ := List.exists_cons_of_ne_nil ht
  have hc : c ≠ '|' := by
    rintro rfl
    exact hbar rfl
  exact .token (t := ['\x7b']) (LexemeClass.recognise_brace hc (t ++ r)) (by simp) (h r ws hr)

theorem blank {b : Char} (hb : Pattern.isBlank b = true) : Closed [b] [] := by
  intro r ws hr
  have hrun := LexemeClass.recognise_blank hb r
  have single (h : r.takeWhile Pattern.isBlank = []) : Reads ([b] ++ r) ([] ++ ws) := by
    rw [h] at hrun
    exact .skip hrun (.inl rfl) (by simp) hr
  cases r with
  | nil => exact single rfl
  | cons c r =>
    cases hc : Pattern.isBlank c with
    | false => exact single (by rw [List.takeWhile_cons, if_neg (by simp [hc])])
    | true =>
      -- the blanks behind it are one lexeme with it, and what was read behind them still is
      obtain ⟨t, r', hcr, hlen, hr'⟩ := hr.behind_blanks (LexemeClass.recognise_blank hc r)
      rw [List.takeWhile_cons_of_pos hc, List.length_cons, Nat.add_comm _ 1, ← hlen, hcr] at hrun
      rw [hcr]
      exact .skip (t := b :: t) (by rwa [List.length_cons, Nat.add_comm]) (.inl rfl) (by simp) hr'

theorem blank_cons {b : Char} (hb : Pattern.isBlank b = true) (h : Closed t w) :
    Closed (b :: t) w :=
  (blank hb).append h

theorem blanks (h : ∀ c ∈ t, Pattern.isBlank c = true) : Closed t [] := by
  induction t with
  | nil => exact .nil
  | cons b t ih =>
    exact blank_cons (h b List.mem_cons_self) (ih fun c hc => h c (List.mem_cons_of_mem _ hc))

theorem blockComment (ht : t ≠ []) (h : ∀ r, Pattern.comment (t ++ r) = some t.length) :
    Closed t [] :=
  fun r _ hr => .skip (LexemeClass.recognise_comment (h r)) (.inr rfl) ht hr

theorem lineComment (h : '\n' ∉ t) : Closed ('/' :: '/' :: (t ++ ['\n'])) [] := by
  have hall : ∀ r, (t ++ '\n' :: r).takeWhile (· ≠ '\n') = t := by
    intro r
    rw [List.takeWhile_append_of_pos (by grind), List.takeWhile_cons_of_neg (by simp),
      List.append_nil]
  intro r ws hr
  have hline := blank (b := '\n') rfl r ws hr
  have hrec : LexemeClass.recognise (('/' :: '/' :: t) ++ '\n' :: r) =
      some (.comment, ('/' :: '/' :: t).length) := by
    refine LexemeClass.recognise_comment ?_
    rw [List.cons_append, List.cons_append, Pattern.comment, hall, List.length_cons,
      List.length_cons, Nat.add_comm]
  have hskip := Reads.skip hrec (.inr rfl) (by simp) hline
  simpa using hskip

end Closed

end PropTables
