import PropTables.Proofs.FirstLexemes
import PropTables.Proofs.TextPlaces

/-! Passes over a source. A pass takes one lexeme after another and hands out those that it does not ignore.
Every pass stops at the same place, the lexemes up to there make up the source, and what a pass hands out are
those of the lexemes that it does not ignore. -/

namespace PropTables

def LexemeClass.isIgnored : LexemeClass → Bool
  | .comment | .blank => true
  | .token _ => false

def Token.lexeme (t : Token) : Lexeme :=
  ⟨.token t.terminal, t.text, t.extent⟩

def Comment.lexeme (c : Comment) : Lexeme :=
  ⟨.comment, c.text, c.extent⟩

def Lexeme.joined (ls : List Lexeme) : List Char :=
  ls.flatMap (·.text.toList)

theorem Lexeme.joined_cons (x : Lexeme) (ls : List Lexeme) :
    joined (x :: ls) = x.text.toList ++ joined ls :=
  List.flatMap_cons

theorem Position.Behind.eq {p q : Position} {before : List Char} (hp : p.Behind before)
    (hq : q.Behind before) : p = q := by
  obtain ⟨line, column⟩ := p
  obtain ⟨line', column'⟩ := q
  rw [Position.mk.injEq]
  exact ⟨hp.line.trans hq.line.symm, hp.column.trans hq.column.symm⟩

structure Extent.Before (a b : Extent) : Prop where
  apart : a.Precedes b
  left : a.start < a.stop
  right : b.start < b.stop

namespace Lexing

def hand (ignores : LexemeClass → Bool) (x : Lexeme) (l : Lexing) : Lexing :=
  if ignores x.class_ then l else ⟨x :: l.lexemes, l.stuck⟩

/-- A pass from a position over the characters from there on, up to their end or to a place where no lexeme
starts. -/
inductive Pass (ignores : LexemeClass → Bool) : Position → List Char → Lexing → Prop
  | ended {p : Position} : Pass ignores p [] ⟨[], none⟩
  | stuck {p : Position} {c : Char} {r : List Char} (h : LexemeClass.NoneStarts (c :: r)) :
      Pass ignores p (c :: r) ⟨[], some (c, p)⟩
  | lexeme {p : Position} {k : LexemeClass} {t r : List Char} {l : Lexing}
      (h : LexemeClass.First k t (t ++ r)) (hr : Pass ignores (p.advance t) r l) :
      Pass ignores p (t ++ r) (hand ignores ⟨k, String.ofList t, p, p.advance t⟩ l)

def without (ignores : LexemeClass → Bool) (l : Lexing) : Lexing :=
  ⟨l.lexemes.filter fun x => !ignores x.class_, l.stuck⟩

section Passes

variable {ignores : LexemeClass → Bool} {p : Position} {cs t r : List Char} {k : LexemeClass}
  {l l' : Lexing}

theorem without_nothing (l : Lexing) : l.without (fun _ => false) = l := by
  have hall : (l.lexemes.filter fun _ => !false) = l.lexemes := List.filter_eq_self.2 fun _ _ => rfl
  rw [without, hall]

theorem lexemes_hand_nothing (x : Lexeme) (l : Lexing) :
    (hand (fun _ => false) x l).lexemes = x :: l.lexemes :=
  rfl

theorem stuck_hand (x : Lexeme) (l : Lexing) : (hand ignores x l).stuck = l.stuck := by
  rw [hand]
  split <;> rfl

theorem without_cons (x : Lexeme) (l : Lexing) :
    without ignores ⟨x :: l.lexemes, l.stuck⟩ = hand ignores x (l.without ignores) := by
  rw [without, hand, List.filter_cons]
  cases ignores x.class_ <;> rfl

theorem pass_scan (ignores : LexemeClass → Bool) {steps : Nat} (p : Position) (h : cs.length ≤ steps) :
    Pass ignores p cs ((scan steps p cs).without ignores) := by
  -- on the number of characters, since a step of the pass goes over a lexeme of several
  induction hlen : cs.length using Nat.strong_induction_on generalizing cs steps p with
  | h n ih =>
    cases cs with
    | nil => cases steps <;> exact .ended
    | cons c r =>
      cases hrec : LexemeClass.recognise (c :: r) with
      | none =>
        obtain ⟨steps, rfl⟩ : ∃ n, steps = n + 1 := ⟨steps - 1, by simp at h; omega⟩
        rw [scan, hrec]
        exact .stuck (LexemeClass.recognise_eq_none_iff.1 hrec)
      | some x =>
        obtain ⟨k, m⟩ := x
        obtain ⟨hfirst, hle⟩ := LexemeClass.first_of_recognise hrec
        obtain ⟨t, u, hsplit, rfl⟩ : ∃ t u, c :: r = t ++ u ∧ t.length = m :=
          ⟨_, _, (List.take_append_drop m (c :: r)).symm, List.length_take_of_le hle⟩
        rw [hsplit] at h hlen hrec ⊢
        have ht := List.length_pos_iff.1 (recognise_pos hrec)
        obtain ⟨left, hleft, hscan⟩ := exists_scan_append p hrec ht h
        rw [hscan, without_cons]
        refine .lexeme (LexemeClass.recognise_append_iff.1 hrec) (ih u.length ?_ _ hleft rfl)
        have hpos := List.length_pos_iff.2 ht
        rw [← hlen, List.length_append]
        omega

namespace Pass

theorem of_nil (h : Pass ignores p [] l) : l = ⟨[], none⟩ := by
  generalize hcs : [] = cs at h
  cases h with
  | ended => rfl
  | stuck => cases hcs
  | lexeme h => exact absurd (List.append_eq_nil_iff.1 hcs.symm).1 h.ne_nil

theorem of_stuck {c : Char} (hnone : LexemeClass.NoneStarts (c :: r))
    (h : Pass ignores p (c :: r) l) : l = ⟨[], some (c, p)⟩ := by
  generalize hcs : c :: r = cs at h hnone
  cases h with
  | ended => cases hcs
  | stuck =>
    cases hcs
    rfl
  | lexeme h => exact absurd h.starts (hnone _ _ h.mem)

theorem of_first (hfirst : LexemeClass.First k t (t ++ r)) (h : Pass ignores p (t ++ r) l) :
    ∃ l', Pass ignores (p.advance t) r l' ∧
      l = hand ignores ⟨k, String.ofList t, p, p.advance t⟩ l' := by
  generalize hcs : t ++ r = cs at h hfirst
  cases h with
  | ended => exact absurd (List.append_eq_nil_iff.1 hcs).1 hfirst.ne_nil
  | stuck h => exact absurd hfirst.starts (h _ _ hfirst.mem)
  | lexeme h hr =>
    obtain ⟨rfl, rfl⟩ := hfirst.unique h
    obtain rfl := List.append_cancel_left hcs
    exact ⟨_, hr, rfl⟩

theorem eq (h : Pass ignores p cs l) (h' : Pass ignores p cs l') : l = l' := by
  induction h generalizing l' with
  | ended => exact h'.of_nil.symm
  | stuck h => exact (h'.of_stuck h).symm
  | lexeme h _ ih =>
    obtain ⟨l'', hl'', rfl⟩ := h'.of_first h
    rw [ih hl'']

end Pass

/-- Every pass over a source stops. It hands out the lexemes of the source less those that it ignores. -/
theorem pass_iff {source : String} :
    Pass ignores .first source.toList l ↔ l = (ofSource source).without ignores := by
  have hpass : Pass ignores .first source.toList ((ofSource source).without ignores) :=
    pass_scan ignores .first (Nat.le_of_eq String.length_toList)
  constructor
  · intro h
    exact h.eq hpass
  · rintro rfl
    exact hpass

end Passes

section Places

variable {p q : Position} {before cs : List Char} {l : Lexing}

theorem Pass.covers (h : Pass (fun _ => false) p cs l) (hp : p.Behind before) :
    ∃ unread, cs = Lexeme.joined l.lexemes ++ unread ∧ LexemeClass.NoneStarts unread ∧
      ∀ c q, l.stuck = some (c, q) ↔
        unread.head? = some c ∧ q.Behind (before ++ Lexeme.joined l.lexemes) := by
  induction h generalizing before with
  | ended => exact ⟨[], rfl, LexemeClass.recognise_eq_none_iff.1 rfl, by simp⟩
  | @stuck p c r h =>
    have hnothing : before ++ Lexeme.joined [] = before := List.append_nil before
    refine ⟨c :: r, rfl, h, fun d q => ?_⟩
    rw [Option.some.injEq, Prod.mk.injEq, List.head?_cons, Option.some.injEq, hnothing]
    refine and_congr_right fun _ => ⟨?_, hp.eq⟩
    rintro rfl
    exact hp
  | @lexeme p k t r l h _ ih =>
    obtain ⟨unread, hsplit, hnone, hstuck⟩ := ih (hp.advance t)
    rw [lexemes_hand_nothing, stuck_hand, Lexeme.joined_cons, String.toList_ofList,
      ← List.append_assoc before]
    refine ⟨unread, ?_, hnone, hstuck⟩
    rw [List.append_assoc, ← hsplit]

theorem Pass.places (h : Pass (fun _ => false) p cs l) (hp : p.Behind before) {ls rs : List Lexeme}
    {x : Lexeme} (hsplit : l.lexemes = ls ++ x :: rs) :
    x.text ≠ "" ∧ x.extent.start.Behind (before ++ Lexeme.joined ls) ∧
      x.extent.stop.Behind (before ++ Lexeme.joined (ls ++ [x])) := by
  induction h generalizing before ls with
  | ended | stuck => simp at hsplit
  | @lexeme p k t r l h _ ih =>
    rw [lexemes_hand_nothing] at hsplit
    cases ls with
    | nil =>
      obtain ⟨rfl, -⟩ := List.cons.inj hsplit
      have htext : Lexeme.joined ([] ++ [⟨k, String.ofList t, p, p.advance t⟩]) = t := by
        rw [List.nil_append, Lexeme.joined_cons, String.toList_ofList]
        exact List.append_nil t
      rw [htext]
      refine ⟨?_, ?_, hp.advance t⟩
      · simpa using h.ne_nil
      · rwa [Lexeme.joined, List.flatMap_nil, List.append_nil]
    | cons y ls =>
      obtain ⟨rfl, hrest⟩ := List.cons.inj hsplit
      obtain ⟨hne, hstart, hstop⟩ := ih (hp.advance t) hrest
      rw [List.cons_append, Lexeme.joined_cons, Lexeme.joined_cons, String.toList_ofList,
        ← List.append_assoc, ← List.append_assoc]
      exact ⟨hne, hstart, hstop⟩

end Places

section Handed

variable {l : Lexing}

theorem map_lexeme_tokens (l : Lexing) :
    l.tokens.map Token.lexeme = l.lexemes.filter fun x => !x.class_.isIgnored := by
  have hguard : (fun x : Lexeme => x.token?.map Token.lexeme) =
      Option.guard fun x => !x.class_.isIgnored := by
    funext x
    obtain ⟨k, text, extent⟩ := x
    cases k <;> rfl
  rw [tokens, List.map_filterMap, hguard, List.filterMap_eq_filter]

theorem map_lexeme_comments (l : Lexing) :
    l.comments.map Comment.lexeme = l.lexemes.filter fun x => x.class_ = .comment := by
  have hguard : (fun x : Lexeme => x.comment?.map Comment.lexeme) =
      Option.guard fun x => x.class_ = .comment := by
    funext x
    obtain ⟨k, text, extent⟩ := x
    cases k <;> rfl
  rw [comments, List.map_filterMap, hguard, List.filterMap_eq_filter]

theorem InOrder.comment_between (h : l.InOrder) {c : Comment} (hc : c ∈ l.comments) :
    ∃ before after, l.tokens = before ++ after ∧ (∀ t ∈ before, t.extent.Before c.extent) ∧
      ∀ t ∈ after, c.extent.Before t.extent := by
  obtain ⟨x, hx, hxc⟩ := List.mem_filterMap.1 hc
  obtain ⟨ls, rs, hsplit⟩ := List.append_of_mem hx
  obtain ⟨hclass, hextent⟩ := comment?_eq_some hxc
  have hpairwise := h.pairwise
  rw [hsplit, List.pairwise_append, List.pairwise_cons] at hpairwise
  obtain ⟨-, ⟨hbehind, -⟩, hbefore⟩ := hpairwise
  have hnone : x.token? = none := by
    unfold Lexeme.token?
    rw [hclass]
  refine ⟨ls.filterMap Lexeme.token?, rs.filterMap Lexeme.token?, ?_, ?_, ?_⟩
  · rw [tokens, hsplit, List.filterMap_append, List.filterMap_cons_none hnone]
  · intro t ht
    obtain ⟨y, hy, hyt⟩ := List.mem_filterMap.1 ht
    rw [(token?_eq_some hyt).2, hextent]
    have hmem : y ∈ l.lexemes := hsplit ▸ List.mem_append_left _ hy
    exact ⟨hbefore y hy x List.mem_cons_self, h.start_lt_stop y hmem, h.start_lt_stop x hx⟩
  · intro t ht
    obtain ⟨y, hy, hyt⟩ := List.mem_filterMap.1 ht
    rw [(token?_eq_some hyt).2, hextent]
    have hmem : y ∈ l.lexemes := hsplit ▸ List.mem_append_right _ (List.mem_cons_of_mem _ hy)
    exact ⟨hbehind y hy, h.start_lt_stop x hx, h.start_lt_stop y hmem⟩

end Handed

/-- Lexing loses nothing. Over every source both passes stop, each in one way: the one that ignores nothing with
all the lexemes, the one of the parser with the tokens. The lexemes are the source up to its end or to where no
lexeme starts, each of them takes up some of it, and its place is that of its characters. The tokens are the
lexemes less blanks and comments, and each comment stands between those before it and those behind it. -/
theorem loses_nothing (source : String) :
    let l := ofSource source
    (∀ l', Pass (fun _ => false) .first source.toList l' ↔ l' = l) ∧
    (∀ l', Pass LexemeClass.isIgnored .first source.toList l' ↔
      l' = ⟨l.tokens.map Token.lexeme, l.stuck⟩) ∧
    (∃ unread, source.toList = Lexeme.joined l.lexemes ++ unread ∧ LexemeClass.NoneStarts unread ∧
      ∀ c p, l.stuck = some (c, p) ↔
        unread.head? = some c ∧ p.Behind (Lexeme.joined l.lexemes)) ∧
    (∀ before x after, l.lexemes = before ++ x :: after →
      x.text ≠ "" ∧ x.extent.start.Behind (Lexeme.joined before) ∧
        x.extent.stop.Behind (Lexeme.joined (before ++ [x]))) ∧
    l.tokens.map Token.lexeme = l.lexemes.filter (fun x => !x.class_.isIgnored) ∧
    l.comments.map Comment.lexeme = l.lexemes.filter (fun x => x.class_ = .comment) ∧
    ∀ c ∈ l.comments, ∃ before after, l.tokens = before ++ after ∧
      (∀ t ∈ before, t.extent.Before c.extent) ∧ ∀ t ∈ after, c.extent.Before t.extent := by
  intro l
  have hpass : Pass (fun _ => false) .first source.toList l :=
    pass_iff.2 (without_nothing l).symm
  refine ⟨fun l' => ?_, fun l' => ?_, ?_, ?_, map_lexeme_tokens l, map_lexeme_comments l, ?_⟩
  · rw [pass_iff, without_nothing]
  · rw [pass_iff, without, map_lexeme_tokens]
  · exact hpass.covers Position.behind_first
  · intro before x after hsplit
    exact hpass.places Position.behind_first hsplit
  · intro c hc
    exact (inOrder_ofSource source).comment_between hc

-- a block comment goes over the line end, and the quote that nothing closes starts no lexeme
example : (ofSource "--1/* \n*/.5\x60").stuck = some ('\x60', ⟨2, 5⟩) ∧
    (ofSource "--1/* \n*/.5\x60").lexemes.map (fun x => (x.class_, x.text, x.extent.start)) =
      [(.token .operator, "--", ⟨1, 1⟩), (.token .number, "1", ⟨1, 3⟩),
        (.comment, "/* \n*/", ⟨1, 4⟩), (.token .number, ".5", ⟨2, 3⟩)] := by
  decide +kernel

end Lexing

end PropTables
