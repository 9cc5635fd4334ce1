import Mathlib.Data.List.Pairwise
import Mathlib.Data.Prod.Lex
import Mathlib.Tactic.Order
import PropTables.Proofs.Lexemes

/-! The order of a text. Lexemes follow each other without overlap, and each takes up some of the
text. -/

namespace PropTables

namespace Position

instance : LinearOrder Position :=
  LinearOrder.lift' (fun p => toLex (p.line, p.column)) fun p q h => by
    cases p
    cases q
    simpa using congrArg ofLex h

theorem lt_iff {p q : Position} :
    p < q ↔ p.line < q.line ∨ p.line = q.line ∧ p.column < q.column :=
  Prod.Lex.toLex_lt_toLex

@[simp] theorem before_iff {p q : Position} : p.before q = true ↔ p < q := by
  simp [before, lt_iff]

@[simp] theorem upTo_iff {p q : Position} : p.upTo q = true ↔ p ≤ q := by
  rw [upTo, Bool.not_eq_true', ← Bool.not_eq_true, before_iff, not_lt]

theorem lt_next (p : Position) (c : Char) : p < p.next c := by
  rw [lt_iff, next]
  split <;> simp

theorem le_advance (p : Position) (cs : List Char) : p ≤ p.advance cs := by
  induction cs generalizing p with
  | nil => exact le_rfl
  | cons c cs ih => exact (lt_next p c).le.trans (ih _)

theorem lt_advance (p : Position) {cs : List Char} (h : cs ≠ []) : p < p.advance cs := by
  cases cs with
  | nil => exact absurd rfl h
  | cons c cs => exact (lt_next p c).trans_le (le_advance _ cs)

end Position

namespace Extent

def Precedes (a b : Extent) : Prop :=
  a.stop ≤ b.start

def ClearOf (a : Extent) (p : Position) : Prop :=
  a.stop ≤ p ∨ p ≤ a.start

end Extent

namespace Lexing

theorem Pattern.unsigned_pos {cs : List Char} {n : Nat} (h : Pattern.unsigned cs = some n) :
    0 < n := by
  simp only [Pattern.unsigned] at h
  split at h
  · split at h
    · cases h
      omega
    · split at h <;> cases h
      omega
  · split at h <;> cases h
    assumption

theorem recognise_pos {cs : List Char} {k : LexemeClass} {n : Nat}
    (h : LexemeClass.recognise cs = some (k, n)) : 0 < n := by
  cases LexemeClass.shows_of_recognise h with
  | comment h =>
    unfold Pattern.comment at h
    split at h
    · cases h
      omega
    · obtain ⟨m, -, rfl⟩ := Option.map_eq_some_iff.1 h
      omega
    · cases h
  | number h =>
    obtain ⟨m, hm, rfl⟩ := Option.map_eq_some_iff.1 h
    have := Pattern.unsigned_pos hm
    omega
  | string h =>
    unfold Pattern.string at h
    split at h
    · obtain ⟨m, -, rfl⟩ := Option.map_eq_some_iff.1 h
      omega
    · obtain ⟨m, -, rfl⟩ := Option.map_eq_some_iff.1 h
      omega
    · cases h
  | template h =>
    unfold Pattern.template at h
    split at h
    · obtain ⟨m, -, rfl⟩ := Option.map_eq_some_iff.1 h
      omega
    · cases h
  | word h =>
    unfold Pattern.name at h
    split at h
    · cases h
    · split at h <;> cases h
      omega
  | operator h | blank h =>
    simp only [Pattern.operator, Pattern.blank, Pattern.run] at h
    split at h <;> cases h
    assumption
  | mark h =>
    obtain ⟨m, hm, hmn⟩ := Option.map_eq_some_iff.1 h
    obtain ⟨rfl, rfl⟩ := Prod.mk.inj hmn
    exact List.length_pos_iff.2 (Mark.spelling_ne_nil m)

theorem scan_ordered (steps : Nat) (p : Position) (cs : List Char) :
    (∀ x ∈ (scan steps p cs).lexemes, p ≤ x.extent.start ∧ x.extent.start < x.extent.stop) ∧
      (scan steps p cs).lexemes.Pairwise fun x y => x.extent.Precedes y.extent := by
  induction steps generalizing p cs with
  | zero => cases cs <;> simp [scan]
  | succ steps ih =>
    cases cs with
    | nil => simp [scan]
    | cons c r =>
      unfold scan
      split
      · simp
      · next k n hk =>
        have htake : (c :: r).take n ≠ [] := by
          have hn := recognise_pos hk
          simp only [ne_eq, List.take_eq_nil_iff, reduceCtorEq, or_false]
          omega
        have hlt := Position.lt_advance p htake
        obtain ⟨hmem, hpair⟩ := ih (p.advance ((c :: r).take n)) ((c :: r).drop n)
        refine ⟨?_, List.pairwise_cons.2 ⟨fun y hy => (hmem y hy).1, hpair⟩⟩
        rintro x (_ | ⟨_, hx⟩)
        · exact ⟨le_rfl, hlt⟩
        · exact ⟨hlt.le.trans (hmem x hx).1, (hmem x hx).2⟩

variable {l : Lexing}

structure InOrder (l : Lexing) : Prop where
  start_lt_stop : ∀ x ∈ l.lexemes, x.extent.start < x.extent.stop
  pairwise : l.lexemes.Pairwise fun x y => x.extent.Precedes y.extent

theorem inOrder_ofSource (source : String) : (ofSource source).InOrder :=
  ⟨fun x hx => ((scan_ordered _ _ _).1 x hx).2, (scan_ordered _ _ _).2⟩

theorem first_le_of_mem {source : String} {x : Lexeme} (hx : x ∈ (ofSource source).lexemes) :
    .first ≤ x.extent.start :=
  ((scan_ordered _ _ _).1 x hx).1

theorem token?_eq_some {x : Lexeme} {t : Token} (h : x.token? = some t) :
    x.class_ = .token t.terminal ∧ t.extent = x.extent := by
  unfold Lexeme.token? at h
  split at h
  · next k hk =>
    obtain rfl := Option.some.inj h
    exact ⟨hk, rfl⟩
  · cases h

theorem comment?_eq_some {x : Lexeme} {c : Comment} (h : x.comment? = some c) :
    x.class_ = .comment ∧ c.extent = x.extent := by
  unfold Lexeme.comment? at h
  split at h
  · next hk =>
    obtain rfl := Option.some.inj h
    exact ⟨hk, rfl⟩
  · cases h

namespace InOrder

theorem tokens_pairwise (h : l.InOrder) :
    l.tokens.Pairwise fun t u => t.extent.Precedes u.extent := by
  refine h.pairwise.filterMap _ ?_
  intro x y hxy t ht u hu
  rw [(token?_eq_some ht).2, (token?_eq_some hu).2]
  exact hxy

theorem clear (h : l.InOrder) {c : Comment} {t : Token} (hc : c ∈ l.comments) (ht : t ∈ l.tokens) :
    c.extent.ClearOf t.extent.stop := by
  obtain ⟨x, hx, hxc⟩ := List.mem_filterMap.1 hc
  obtain ⟨y, hy, hyt⟩ := List.mem_filterMap.1 ht
  obtain ⟨hxclass, hxextent⟩ := comment?_eq_some hxc
  obtain ⟨hyclass, hyextent⟩ := token?_eq_some hyt
  have hne : x ≠ y := fun he => by simp [he, hyclass] at hxclass
  rw [hxextent, hyextent]
  let Apart (x y : Lexeme) : Prop := x.extent.Precedes y.extent ∨ y.extent.Precedes x.extent
  have hsymm : Std.Symm Apart := ⟨fun _ _ => Or.symm⟩
  have hapart : l.lexemes.Pairwise Apart := h.pairwise.imp Or.inl
  rcases hapart.forall hx hy hne with hxy | hyx
  · exact .inl (hxy.trans (h.start_lt_stop y hy).le)
  · exact .inr hyx

end InOrder

end Lexing

end PropTables
