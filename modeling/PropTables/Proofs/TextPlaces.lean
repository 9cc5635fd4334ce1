import PropTables.Proofs.CommentPlaces
import PropTables.Proofs.SpelledTrees
import PropTables.Proofs.UniqueReading

/-! Where texts stand in a source. Lines are counted by the line feeds before a place, columns by the
characters since the last of them, and every token stands at its start. -/

namespace PropTables

structure Position.Behind (p : Position) (before : List Char) : Prop where
  line : p.line = before.count '\n' + 1
  column : p.column = (before.reverse.takeWhile (· ≠ '\n')).length + 1

def StandsAt (source : String) (p : Position) (text : String) : Prop :=
  ∃ before after, source.toList = before ++ text.toList ++ after ∧ p.Behind before

theorem Position.Behind.next {p : Position} {before : List Char} (h : p.Behind before) (c : Char) :
    (p.next c).Behind (before ++ [c]) := by
  obtain ⟨hline, hcolumn⟩ := h
  unfold Position.next
  split
  next hc =>
    subst hc
    exact ⟨by simp [hline], by simp⟩
  next hc => exact ⟨by simp [hline, hc], by simp [hcolumn, hc]⟩

theorem Position.Behind.advance {p : Position} {before : List Char} (h : p.Behind before)
    (cs : List Char) : (p.advance cs).Behind (before ++ cs) := by
  induction cs generalizing p before with
  | nil => simpa using h
  | cons c cs ih => simpa using ih (h.next c)

theorem Position.behind_first : Position.first.Behind [] :=
  ⟨rfl, rfl⟩

namespace Lexing

theorem standsAt_of_scan {source : String} (steps : Nat) (p : Position) (before cs : List Char)
    (hsource : source.toList = before ++ cs) (hp : p.Behind before) :
    ∀ x ∈ (scan steps p cs).lexemes, StandsAt source x.extent.start x.text := by
  induction steps generalizing p before cs with
  | zero => cases cs <;> exact nofun
  | succ steps ih =>
    cases cs with
    | nil => exact nofun
    | cons c r =>
      unfold scan
      split
      · exact nofun
      · next k n hk =>
        have hparts : before ++ (c :: r) = before ++ (c :: r).take n ++ (c :: r).drop n := by
          rw [List.append_assoc, List.take_append_drop]
        rintro x (_ | ⟨_, hx⟩)
        · exact ⟨before, (c :: r).drop n, by rw [hsource, String.toList_ofList, hparts], hp⟩
        · exact ih _ _ _ (hsource.trans hparts) (hp.advance _) x hx

theorem standsAt_of_mem_tokens {source : String} {t : Token} (h : t ∈ (ofSource source).tokens) :
    StandsAt source t.start t.text := by
  obtain ⟨x, hx, ht⟩ := List.mem_filterMap.1 h
  obtain ⟨k, hk⟩ : ∃ k, t = ⟨k, x.text, x.extent⟩ := by
    unfold Lexeme.token? at ht
    split at ht <;> cases ht
    exact ⟨_, rfl⟩
  subst hk
  exact standsAt_of_scan _ _ [] _ rfl Position.behind_first x hx

end Lexing

namespace Token

variable {t : Token}

theorem StandsAlone.text_keyword {k : Keyword} (h : t.StandsAlone) (hk : t.terminal = .keyword k) :
    t.text = k.spelling := by
  have hname : Spelling.IsName t.text := ⟨t.terminal, by rw [hk]; rfl, h⟩
  have hword : Terminal.ofWord t.text = .keyword k := by
    have htoken := hname.isToken.symm.trans (h.isToken hk)
    simpa using htoken
  unfold Terminal.ofWord at hword
  split at hword
  next k' hfind =>
    cases hword
    have hspelled := List.find?_some hfind
    exact (beq_iff_eq.1 hspelled).symm
  next => cases hword

theorem StandsAlone.text_mark {m : Mark} (h : t.StandsAlone) (hm : t.terminal = .mark m) :
    t.text = m.spelling := by
  cases LexemeClass.shows_of_recognise (h.isToken hm) with
  | mark h =>
    obtain ⟨m', hfind, heq⟩ := Option.map_eq_some_iff.1 h
    obtain ⟨rfl, hlen⟩ := Prod.mk.inj heq
    have hspelled := List.find?_some hfind
    have hprefix := List.isPrefixOf_iff_prefix.1 hspelled
    rw [← String.length_toList, ← String.length_toList] at hlen
    exact String.toList_inj.1 (List.IsPrefix.eq_of_length hprefix hlen).symm
  | word _ hk => cases hk

end Token

end PropTables
