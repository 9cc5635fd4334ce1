import PropTables.Proofs.LongestTexts

/-! Which lexeme comes first. Every class has its texts and its turn, and the lexeme at a place is the longest
text there of the first class that has any. -/

namespace PropTables

namespace LexemeClass

open Pattern (isOperator isBlank)

def texts : LexemeClass → Language Char
  | .comment => Texts.comment
  | .blank => Texts.someOf isBlank
  | .token .name => {t | t ∈ Texts.word ∧ ∀ k : Keyword, t ≠ k.spelling.toList}
  | .token .string => Texts.quoted '"' false + Texts.quoted '\'' false
  | .token .number => Texts.number
  | .token .template => Texts.quoted '\x60' true
  | .token .operator => Texts.someOf isOperator
  | .token (.keyword k) => Texts.exactly k.spelling
  | .token (.mark m) => Texts.exactly m.spelling

def rank : LexemeClass → Nat
  | .comment => 0
  | .token .number => 1
  | .token .string => 2
  | .token .name | .token (.keyword _) => 3
  | .token .template => 4
  | .token .operator => 5
  | .blank => 6
  | .token (.mark _) => 7

/-- The characters start with the text, and it is the lexeme there: any other text of a lexeme that they start
with is of a later class, or of the same rank and not longer. -/
structure First (k : LexemeClass) (t cs : List Char) : Prop where
  mem : t ∈ k.texts
  starts : t <+: cs
  best : ∀ (k' : LexemeClass) (t' : List Char), t' ∈ k'.texts → t' <+: cs →
    k.rank < k'.rank ∨ k.rank = k'.rank ∧ t'.length ≤ t.length

def NoneStarts (cs : List Char) : Prop :=
  ∀ (k : LexemeClass) (t : List Char), t ∈ k.texts → ¬ t <+: cs

structure Picks (i j : Nat) (p : List Char → Option (LexemeClass × Nat)) : Prop where
  le : i ≤ j
  mem ⦃cs : List Char⦄ ⦃k : LexemeClass⦄ ⦃n : Nat⦄ : p cs = some (k, n) →
    k.rank < j ∧ n ≤ cs.length ∧ cs.take n ∈ k.texts
  best ⦃k : LexemeClass⦄ ⦃t⦄ (r : List Char) : t ∈ k.texts → i ≤ k.rank → k.rank < j →
    ∃ k' n, p (t ++ r) = some (k', n) ∧ (k'.rank < k.rank ∨ k'.rank = k.rank ∧ t.length ≤ n)

end LexemeClass

namespace Mark

theorem mem_all (m : Mark) : m ∈ all := by
  cases m <;> decide

theorem all_apart : all.Pairwise fun m m' => ¬ m.spelling.toList <+: m'.spelling.toList := by
  decide

theorem eq_of_spelling {m m' : Mark} (h : m.spelling.toList = m'.spelling.toList) : m = m' := by
  have hnodup : (all.map fun m => m.spelling.toList).Nodup := by decide
  exact List.inj_on_of_nodup_map hnodup (mem_all m) (mem_all m') h

end Mark

theorem Pattern.exists_mark {m : Mark} {cs : List Char} (h : m.spelling.toList <+: cs) :
    ∃ m', Pattern.mark cs = some (m', m'.spelling.length) ∧
      m.spelling.toList.length ≤ m'.spelling.length := by
  have hall := Mark.mem_all m
  have hm := List.isPrefixOf_iff_prefix.2 h
  have hsome : (Mark.all.find? fun m' => m'.spelling.toList.isPrefixOf cs).isSome :=
    List.find?_isSome.2 ⟨m, hall, hm⟩
  obtain ⟨m', hfind⟩ := Option.isSome_iff_exists.1 hsome
  refine ⟨m', by rw [Pattern.mark, hfind]; rfl, ?_⟩
  obtain ⟨hm', before, after, hsplit, hbefore⟩ := List.find?_eq_some_iff_append.1 hfind
  rw [← String.length_toList]
  rw [hsplit, List.mem_append, List.mem_cons] at hall
  rcases hall with hall | rfl | hall
  · have hnot := hbefore m hall
    rw [hm] at hnot
    cases hnot
  · exact le_rfl
  · -- a mark behind the one that is found does not start with it, so it is not longer
    have hapart := Mark.all_apart
    rw [hsplit, List.pairwise_append, List.pairwise_cons] at hapart
    by_contra hlt
    have hfound := List.isPrefixOf_iff_prefix.1 hm'
    refine hapart.2.1.1 m hall (List.prefix_of_prefix_length_le hfound h ?_)
    exact (Nat.lt_of_not_le hlt).le

namespace Terminal

theorem ofWord_eq_keyword_iff {word : String} {k : Keyword} :
    ofWord word = .keyword k ↔ word = k.spelling := by
  constructor
  · intro h
    unfold ofWord at h
    split at h <;> cases h
    next hfind =>
    have hspelled := List.find?_some hfind
    exact (beq_iff_eq.1 hspelled).symm
  · rintro rfl
    cases k <;> rfl

theorem ofWord_eq_name_iff {word : String} :
    ofWord word = .name ↔ ∀ k : Keyword, word ≠ k.spelling := by
  constructor
  · rintro h k hk
    rw [ofWord_eq_keyword_iff.2 hk] at h
    cases h
  · intro h
    unfold ofWord
    split
    next k hfind =>
      have hspelled := List.find?_some hfind
      exact absurd (beq_iff_eq.1 hspelled).symm (h k)
    next => rfl

end Terminal

namespace LexemeClass

variable {k k' : LexemeClass} {t cs : List Char}

theorem spelling_mem_word (k : Keyword) : k.spelling.toList ∈ Texts.word := by
  have h : Pattern.name k.spelling.toList = some k.spelling.toList.length := by cases k <;> rfl
  have hmem := (Finds.name.mem h).2
  rwa [List.take_length] at hmem

theorem mem_texts_word {k : Terminal} (hk : k.isWord = true) :
    t ∈ (token k).texts ↔ t ∈ Texts.word ∧ Terminal.ofWord (String.ofList t) = k := by
  have hspelled (k : Keyword) : t = k.spelling.toList ↔ String.ofList t = k.spelling := by
    rw [← String.toList_inj, String.toList_ofList]
  cases k with
  | name =>
    rw [Terminal.ofWord_eq_name_iff]
    simp only [ne_eq, ← hspelled]
    rfl
  | keyword k =>
    rw [Terminal.ofWord_eq_keyword_iff, ← hspelled]
    constructor
    · rintro rfl
      exact ⟨spelling_mem_word k, rfl⟩
    · exact And.right
  | _ => cases hk

theorem rank_word {k : Terminal} (hk : k.isWord = true) : (token k).rank = 3 := by
  cases k with
  | name | keyword => rfl
  | _ => cases hk

theorem rank_lt (k : LexemeClass) : k.rank < 8 := by
  fun_cases rank k <;> decide

theorem exists_word_of_rank (h : k.rank = 3) : ∃ x : Terminal, k = token x ∧ x.isWord = true := by
  fun_cases rank k <;> simp_all [rank, Terminal.isWord]

theorem exists_mark_of_rank (h : k.rank = 7) : ∃ m, k = token (.mark m) := by
  fun_cases rank k <;> simp_all [rank]

theorem eq_of_rank_eq (h : k.rank = k'.rank) (hword : k.rank ≠ 3) (hmark : k.rank ≠ 7) : k = k' := by
  fun_cases rank k <;> fun_cases rank k' <;> simp_all [rank]

namespace Picks

theorem or {i j m : Nat} {p q : List Char → Option (LexemeClass × Nat)} (hp : Picks i j p)
    (hq : Picks j m q) : Picks i m fun cs => (p cs).or (q cs) where
  le := hp.le.trans hq.le
  mem cs k n h := by
    rcases Option.or_eq_some_iff.1 h with h | ⟨-, h⟩
    · obtain ⟨hrank, hmem⟩ := hp.mem h
      exact ⟨hrank.trans_le hq.le, hmem⟩
    · exact hq.mem h
  best k t r h hi hm := by
    cases hfirst : p (t ++ r) with
    | some x =>
      refine ⟨x.1, x.2, by rw [Option.some_or], ?_⟩
      rcases lt_or_ge k.rank j with hj | hj
      · obtain ⟨k', n, hfound, hbest⟩ := hp.best r h hi hj
        rw [hfirst] at hfound
        cases hfound
        exact hbest
      · exact .inl ((hp.mem hfirst).1.trans_le hj)
    | none =>
      rcases lt_or_ge k.rank j with hj | hj
      · obtain ⟨k', n, hfound, -⟩ := hp.best r h hi hj
        rw [hfirst] at hfound
        cases hfound
      · simpa only [Option.none_or] using hq.best r h hj hm

theorem of_finds {k : LexemeClass} {p : List Char → Option Nat} (hp : Finds k.texts p)
    (hword : k.rank ≠ 3) (hmark : k.rank ≠ 7) :
    Picks k.rank (k.rank + 1) fun cs => (p cs).map (k, ·) where
  le := Nat.le_succ _
  mem cs k' n h := by
    obtain ⟨m, hm, heq⟩ := Option.map_eq_some_iff.1 h
    cases heq
    exact ⟨Nat.lt_succ_self _, hp.mem hm⟩
  best k' t r h hle hlt := by
    obtain rfl := eq_of_rank_eq (Nat.le_antisymm hle (Nat.le_of_lt_succ hlt)) hword hmark
    obtain ⟨n, hn, hlen⟩ := hp.longest r h
    exact ⟨k, n, by rw [hn, Option.map_some], .inr ⟨rfl, hlen⟩⟩

theorem word : Picks 3 4 fun cs => (Pattern.name cs).map fun n =>
    (token (Terminal.ofWord (String.ofList (cs.take n))), n) where
  le := Nat.le_succ _
  mem cs k n h := by
    obtain ⟨m, hm, heq⟩ := Option.map_eq_some_iff.1 h
    cases heq
    have hword := Terminal.isWord_ofWord (String.ofList (cs.take n))
    obtain ⟨hle, hmem⟩ := Finds.name.mem hm
    refine ⟨?_, hle, (mem_texts_word hword).2 ⟨hmem, rfl⟩⟩
    rw [rank_word hword]
    exact Nat.lt_succ_self 3
  best k t r h hle hlt := by
    have hrank : k.rank = 3 := Nat.le_antisymm (Nat.le_of_lt_succ hlt) hle
    obtain ⟨x, rfl, hx⟩ := exists_word_of_rank hrank
    obtain ⟨n, hn, hlen⟩ := Finds.name.longest r ((mem_texts_word hx).1 h).1
    refine ⟨_, n, by rw [hn, Option.map_some], .inr ⟨?_, hlen⟩⟩
    rw [hrank, rank_word (Terminal.isWord_ofWord _)]

theorem mark : Picks 7 8 fun cs => (Pattern.mark cs).map fun x => (token (.mark x.1), x.2) where
  le := Nat.le_succ _
  mem cs k n h := by
    obtain ⟨⟨m, n⟩, hm, heq⟩ := Option.map_eq_some_iff.1 h
    cases heq
    obtain ⟨hlen, hstart⟩ := Pattern.mark_eq_some hm
    rw [hlen, ← String.length_toList]
    exact ⟨Nat.lt_succ_self 7, hstart.length_le, (List.prefix_iff_eq_take.1 hstart).symm⟩
  best k t r h hle hlt := by
    obtain ⟨m, rfl⟩ := exists_mark_of_rank (Nat.le_antisymm (Nat.le_of_lt_succ hlt) hle)
    obtain rfl : t = m.spelling.toList := h
    obtain ⟨m', hfound, hle⟩ := Pattern.exists_mark (List.prefix_append m.spelling.toList r)
    exact ⟨token (.mark m'), m'.spelling.length, by rw [hfound, Option.map_some], .inr ⟨rfl, hle⟩⟩

theorem recognise : Picks 0 8 recognise := by
  have h : LexemeClass.recognise = _ := funext recognise_eq
  rw [h]
  have comment : Picks 0 1 _ := of_finds (k := .comment) Finds.comment nofun nofun
  have number : Picks 1 2 _ := of_finds (k := .token .number) Finds.number nofun nofun
  have string : Picks 2 3 _ := of_finds (k := .token .string) Finds.string nofun nofun
  have template : Picks 4 5 _ := of_finds (k := .token .template) Finds.template nofun nofun
  have operator : Picks 5 6 _ := of_finds (k := .token .operator) (Finds.run _) nofun nofun
  have blank : Picks 6 7 _ := of_finds (k := .blank) (Finds.run _) nofun nofun
  exact comment.or (number.or (string.or (word.or (template.or (operator.or (blank.or mark))))))

end Picks

namespace First

theorem eq_of_mem (hrank : k.rank = k'.rank) (h : t ∈ k.texts) (h' : t ∈ k'.texts) : k = k' := by
  by_cases hword : k.rank = 3
  · obtain ⟨x, rfl, hx⟩ := exists_word_of_rank hword
    obtain ⟨y, rfl, hy⟩ := exists_word_of_rank (hrank ▸ hword)
    rw [← ((mem_texts_word hx).1 h).2, ← ((mem_texts_word hy).1 h').2]
  by_cases hmark : k.rank = 7
  · obtain ⟨m, rfl⟩ := exists_mark_of_rank hmark
    obtain ⟨m', rfl⟩ := exists_mark_of_rank (hrank ▸ hmark)
    rw [Mark.eq_of_spelling (h.symm.trans h')]
  · exact eq_of_rank_eq hrank hword hmark

/-- There is one lexeme at a place at most. -/
theorem unique {t' : List Char} (h : First k t cs) (h' : First k' t' cs) : k = k' ∧ t = t' := by
  have hrank : k.rank = k'.rank := by
    have hle := h.best k' t' h'.mem h'.starts
    have hge := h'.best k t h.mem h.starts
    omega
  have hlen : t.length = t'.length := by
    have hle := h.best k' t' h'.mem h'.starts
    have hge := h'.best k t h.mem h.starts
    omega
  obtain rfl : t = t' := by
    have hstart := List.prefix_of_prefix_length_le h.starts h'.starts hlen.le
    exact hstart.eq_of_length hlen
  exact ⟨eq_of_mem hrank h.mem h'.mem, rfl⟩

end First

theorem first_of_recognise {n : Nat} (h : recognise cs = some (k, n)) :
    First k (cs.take n) cs ∧ n ≤ cs.length := by
  obtain ⟨-, hle, hmem⟩ := Picks.recognise.mem h
  refine ⟨⟨hmem, List.take_prefix n cs, fun k' t' h' hstart => ?_⟩, hle⟩
  obtain ⟨r, rfl⟩ := hstart
  obtain ⟨x, m, hfound, hbest⟩ := Picks.recognise.best r h' (Nat.zero_le _) (rank_lt k')
  rw [h] at hfound
  cases hfound
  rw [List.length_take_of_le hle]
  exact hbest

/-- What is recognised at the start of a text is the lexeme there. -/
theorem recognise_append_iff {r : List Char} :
    recognise (t ++ r) = some (k, t.length) ↔ First k t (t ++ r) := by
  constructor
  · intro h
    have hfirst := (first_of_recognise h).1
    rwa [List.take_left] at hfirst
  · intro h
    obtain ⟨x, m, hfound, -⟩ := Picks.recognise.best r h.mem (Nat.zero_le _) (rank_lt k)
    obtain ⟨hfirst, hle⟩ := first_of_recognise hfound
    obtain ⟨rfl, ht⟩ := h.unique hfirst
    have hlen := congrArg List.length ht
    rw [List.length_take_of_le hle] at hlen
    rw [hfound, hlen]

theorem recognise_eq_none_iff : recognise cs = none ↔ NoneStarts cs := by
  constructor
  · rintro h k t hmem ⟨r, rfl⟩
    obtain ⟨x, m, hfound, -⟩ := Picks.recognise.best r hmem (Nat.zero_le _) (rank_lt k)
    rw [h] at hfound
    cases hfound
  · intro h
    by_contra hsome
    obtain ⟨⟨k, n⟩, hfound⟩ := Option.ne_none_iff_exists'.1 hsome
    have hfirst := (first_of_recognise hfound).1
    exact h k _ hfirst.mem hfirst.starts

theorem First.ne_nil (h : First k t cs) : t ≠ [] := by
  obtain ⟨r, rfl⟩ := h.starts
  exact List.length_pos_iff.1 (Lexing.recognise_pos (recognise_append_iff.2 h))

end LexemeClass

end PropTables
