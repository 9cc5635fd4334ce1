import PropTables.Proofs.Sources
import PropTables.Syntax.Read

/-! Every sentence of the plain grammar is read. A type that goes on behind one of its parts is read to
its end from there, so each part of a type is followed by the suffix that is read behind it. -/

namespace PropTables

open Phrase (mark keyword maybe many call listOrNone present spanned token list derives_iff_then)
open Nonterminal (suffix chain chainWithoutName nameSuffix)

variable {α : Type} {c d d' e f : Cursor} {v : TypeTree} {k : OperandChain} {s : OperandSuffix}

namespace Operand

def followed (o : Operand) (s : OperandSuffix) : OperandChain :=
  ⟨{ o with arrays := o.arrays + s.arrays }, s.others, s.groups⟩

theorem tree_of_base (start : Position) (base : Build TypeExpr) :
    Operand.tree ⟨[], start, base, 0⟩ = ⟨start, base⟩ := by
  simp [Operand.tree, Operand.position, Operand.build, Nat.repeat]

end Operand

section Suffixes

theorem parses_suffix_none : Parses suffix d d .none := by
  refine parses_iff.2 (derives_iff_then.2 ?_)
  simp
  exact ⟨d, [], .nil, .inr (.inr ⟨rfl, rfl⟩)⟩

theorem parses_suffix_brackets {t u : Token} (ht : c.Takes [.mark .openBracket] t e)
    (hu : e.Takes [.mark .closeBracket] u d) (hs : Parses suffix d d' s) :
    Parses suffix c d' ⟨s.arrays + 1, s.others, s.groups⟩ := by
  obtain ⟨_, f, more, ⟨xs, hxs, rfl⟩, hmore, rfl⟩ := Phrase.derives_seq.1 (parses_iff.1 hs)
  have hbrackets : (mark .openBracket *> mark .closeBracket).Derives Parses c d u :=
    Phrase.derives_seqRight.2 ⟨e, t, ht, hu⟩
  exact parses_iff.2 (Phrase.derives_seq.2
    ⟨_, f, more, ⟨u :: xs, .cons hbrackets hxs, rfl⟩, hmore, rfl⟩)

theorem parses_suffix_ampersand {t : Token} (ht : d.Takes [.mark .ampersand] t e)
    (hk : Parses chain e d' k) : Parses suffix d d' (.afterAmpersand k) := by
  refine parses_iff.2 (derives_iff_then.2 ?_)
  simp
  exact ⟨d, [], .nil, .inl ⟨e, ⟨t, ht⟩, d', k, hk, rfl, rfl⟩⟩

theorem parses_suffix_bar {t : Token} {lead : Option Token} (ht : d.Takes [.mark .bar] t e)
    (hlead : Marked .ampersand e f lead) (hk : Parses chain f d' k) :
    Parses suffix d d' (.afterBar lead k) := by
  refine parses_iff.2 (derives_iff_then.2 ?_)
  simp
  exact ⟨d, [], .nil, .inr (.inl ⟨e, ⟨t, ht⟩, f, lead, hlead, d', k, hk, rfl, rfl⟩)⟩

theorem suffix_eq_none (hd : Construct.greedy .arrowResult d.rest) (hs : Parses suffix d d' s) : s = .none := by
  have stops {m : Mark} {t : Token} {e : Cursor}
      (hm : Terminal.mark m ∈ [.mark .openBracket, .mark .ampersand, .mark .bar]) :
      ¬ d.Takes [.mark m] t e := fun ⟨ht, hrest, _⟩ => by
    rw [List.mem_singleton] at ht
    exact hd t (by simp [hrest]) (ht ▸ hm)
  have hs := derives_iff_then.1 (parses_iff.1 hs)
  simp at hs
  obtain ⟨_, xs, _ | ⟨⟨e, ⟨t, ht⟩, _⟩, _⟩, h⟩ := hs
  · rcases h with ⟨e, ⟨t, ht⟩, h⟩ | ⟨e, ⟨t, ht⟩, h⟩ | ⟨-, rfl⟩
    · exact absurd ht (stops (by simp))
    · exact absurd ht (stops (by simp))
    · rfl
  · exact absurd ht (stops (by simp))

theorem parses_type {bar lead : Option Token} (hbar : Marked .bar c e bar)
    (hlead : Marked .ampersand e f lead) (hk : Parses chain f d k) :
    Parses .type c d (.ofChain bar lead k) := by
  refine parses_iff.2 (derives_iff_then.2 ?_)
  simp [then_parses .typeWithoutName]
  rcases hbar with ⟨rfl, rfl⟩ | ⟨bar, rfl, hbar⟩
  · rcases hlead with ⟨rfl, rfl⟩ | ⟨lead, rfl, hlead⟩
    · have hk := derives_iff_then.1 (parses_iff.1 hk)
      simp at hk
      rcases hk with ⟨e, q, hq, _, k, hk', rfl, rfl⟩ | ⟨e, n, hn, _, s, hs, rfl, rfl⟩ |
        ⟨_, k, hk', rfl, rfl⟩
      · exact .inr (.inr (.inr (.inl ⟨e, q, hq, _, k, hk', rfl, rfl⟩)))
      · exact .inl ⟨e, n, hn, _, s, hs, rfl, rfl⟩
      · exact .inr (.inr (.inr (.inr ⟨_, k, hk', rfl, rfl⟩)))
    · exact .inr (.inr (.inl ⟨f, lead, hlead, d, k, hk, rfl, rfl⟩))
  · exact .inr (.inl ⟨e, bar, hbar, f, lead, hlead, d, k, hk, rfl, rfl⟩)

end Suffixes

section Types

variable (Q : Prop)

def AsOperand (c d : Cursor) (v : TypeTree) (p : Operand → Prop) : Prop :=
  ∀ d' s, Parses suffix d d' s →
    ∃ k, Parses chain c d' k ∧ (Q → ∃ o : Operand, o.tree = v ∧ o.position = c.start ∧ p o ∧ k = o.followed s)

abbrev AsBase (c d : Cursor) (v : TypeTree) : Prop :=
  AsOperand Q c d v fun o => o.maybes = []

def AsGroup (c d : Cursor) (v : TypeTree) : Prop :=
  ∀ d' s, Parses suffix d d' s →
    ∃ e lead k, Marked .ampersand c e lead ∧ Parses chain e d' k ∧
      (Q → s.arrays = 0 → s.others = [] → k.first.position = e.start ∧ k.groups = s.groups ∧
        OperandGroup.tree ⟨lead.map (·.start), k.first, k.others⟩ = v)

def AsType (c d : Cursor) (v : TypeTree) : Prop :=
  ∀ d' s, Parses suffix d d' s → ∃ v', Parses .type c d' v' ∧ (Q → s = .none → v' = v)

def AsResult (c d : Cursor) (v : TypeTree) : Prop :=
  ∀ d' s, Parses suffix d d' s → ∃ v', Parses .type c d' v' ∧ (Q → s = .none ∧ v' = v)

variable {Q}

theorem AsOperand.asGroup {p : Operand → Prop} (h : AsOperand Q c d v p) : AsGroup Q c d v := by
  intro d' s hs
  obtain ⟨k, hk, hq⟩ := h d' s hs
  refine ⟨c, none, k, .inl ⟨rfl, rfl⟩, hk, fun q harrays hothers => ?_⟩
  obtain ⟨o, rfl, hpos, -, rfl⟩ := hq q
  have hfirst : { o with arrays := o.arrays + s.arrays } = o := by rw [harrays]; rfl
  simp only [Operand.followed, hfirst, hothers]
  exact ⟨hpos, trivial, rfl⟩

theorem AsGroup.asType (h : AsGroup Q c d v) : AsType Q c d v := by
  intro d' s hs
  obtain ⟨e, lead, k, hlead, hk, hq⟩ := h d' s hs
  refine ⟨_, parses_type (.inl ⟨rfl, rfl⟩) hlead hk, fun q hnone => ?_⟩
  subst hnone
  obtain ⟨-, hgroups, htree⟩ := hq q rfl rfl
  rw [TypeTree.ofChain, hgroups]
  exact htree

theorem AsResult.asType (h : AsResult Q c d v) : AsType Q c d v := by
  intro d' s hs
  obtain ⟨v', hv, hq⟩ := h d' s hs
  exact ⟨v', hv, fun q _ => (hq q).2⟩

theorem AsType.parses (h : AsType Q c d v) : ∃ v', Parses .type c d v' ∧ (Q → v' = v) := by
  obtain ⟨v', hv, hq⟩ := h d .none parses_suffix_none
  exact ⟨v', hv, fun q => hq q rfl⟩

theorem AsType.asResult (h : AsType Q c d v) (hd : Q → Construct.greedy .arrowResult d.rest) :
    AsResult Q c d v := by
  intro d' s hs
  obtain ⟨v', hv, hq⟩ := h d' s hs
  refine ⟨v', hv, fun q => ?_⟩
  have hnone := suffix_eq_none (hd q) hs
  exact ⟨hnone, hq q hnone⟩

theorem AsOperand.question {q : Token} {p : Operand → Prop} (hq : c.Takes [.mark .question] q e)
    (h : AsOperand Q e d v p) : AsOperand Q c d (.nullable q.start v) fun _ => True := by
  intro d' s hs
  obtain ⟨k, hk, hv⟩ := h d' s hs
  have hchain : Parses chain c d' (k.question q) := by
    refine parses_iff.2 (derives_iff_then.2 ?_)
    simp
    exact .inl ⟨e, q, hq, d', k, hk, rfl, rfl⟩
  refine ⟨k.question q, hchain, fun hQ => ?_⟩
  obtain ⟨o, rfl, hpos, -, rfl⟩ := hv hQ
  have htree : Operand.tree { o with maybes := q.start :: o.maybes } = .nullable q.start o.tree :=
    question_tree (k := ⟨o, [], []⟩)
  exact ⟨_, htree, hq.start_eq.symm, trivial, rfl⟩

theorem AsBase.array {t u : Token} (h : AsBase Q c d v) (ht : d.Takes [.mark .openBracket] t e)
    (hu : e.Takes [.mark .closeBracket] u f) : AsBase Q c f (.array v) := by
  intro d' s hs
  obtain ⟨k, hk, hv⟩ := h d' _ (parses_suffix_brackets ht hu hs)
  refine ⟨k, hk, fun hQ => ?_⟩
  obtain ⟨o, rfl, hpos, hmaybes, rfl⟩ := hv hQ
  refine ⟨{ o with arrays := o.arrays + 1 }, ?_, hpos, hmaybes, ?_⟩
  · simp [Operand.tree, Operand.position, Operand.build, TypeTree.array, hmaybes, Nat.repeat]
  · simp [Operand.followed, Nat.add_assoc, Nat.add_comm 1]

theorem repeats_ampersand {vs : List TypeTree}
    (h : Repeats (Behind .ampersand fun c d v => AsOperand Q c d v fun _ => True) c d vs)
    (hs : Parses suffix d d' s) :
    ∃ s', Parses suffix c d' s' ∧ (Q → s.arrays = 0 → s.others = [] →
      s'.arrays = 0 ∧ s'.others.map Operand.tree = vs ∧ s'.groups = s.groups) := by
  induction h with
  | nil => exact ⟨s, hs, fun _ harrays hothers => ⟨harrays, by simp [hothers], rfl⟩⟩
  | cons hx _ ih =>
    obtain ⟨e, t, ht, hx⟩ := hx
    obtain ⟨s₁, hs₁, hq₁⟩ := ih hs
    obtain ⟨k, hk, hq₂⟩ := hx d' s₁ hs₁
    refine ⟨_, parses_suffix_ampersand ht hk, fun q harrays hothers => ⟨rfl, ?_, ?_⟩⟩
    · obtain ⟨harrays₁, hothers₁, -⟩ := hq₁ q harrays hothers
      obtain ⟨o, rfl, -, -, rfl⟩ := hq₂ q
      simp [OperandSuffix.afterAmpersand, Operand.followed, harrays₁, hothers₁]
    · obtain ⟨-, -, hgroups⟩ := hq₁ q harrays hothers
      obtain ⟨o, rfl, -, -, rfl⟩ := hq₂ q
      exact hgroups

theorem repeats_bar {vs : List TypeTree}
    (h : Repeats (Behind .bar fun c d v => AsGroup Q c d v) c d vs) (hs : Parses suffix d d' s) :
    ∃ s', Parses suffix c d' s' ∧ (Q → s = .none →
      s'.arrays = 0 ∧ s'.others = [] ∧ s'.groups.map OperandGroup.tree = vs) := by
  induction h with
  | nil => exact ⟨s, hs, fun _ hnone => by subst hnone; exact ⟨rfl, rfl, rfl⟩⟩
  | cons hx _ ih =>
    obtain ⟨e, t, ht, hx⟩ := hx
    obtain ⟨s₁, hs₁, hq₁⟩ := ih hs
    obtain ⟨f, lead, k, hlead, hk, hq₂⟩ := hx d' s₁ hs₁
    refine ⟨_, parses_suffix_bar ht hlead hk, fun q hnone => ⟨rfl, rfl, ?_⟩⟩
    obtain ⟨harrays, hothers, hgroups₁⟩ := hq₁ q hnone
    obtain ⟨-, hgroups, htree⟩ := hq₂ q harrays hothers
    simp [OperandSuffix.afterBar, htree, hgroups, hgroups₁]

theorem asGroup_of_operands {lead : Option Token} {vs : List TypeTree}
    (hlead : Marked .ampersand c e lead) (hv : AsOperand Q e f v fun _ => True)
    (hvs : Repeats (Behind .ampersand fun c d v => AsOperand Q c d v fun _ => True) f d vs) :
    AsGroup Q c d (TypeTree.joined .intersection c.start (v :: vs)) := by
  intro d' s hs
  obtain ⟨s₁, hs₁, hq₁⟩ := repeats_ampersand hvs hs
  obtain ⟨k, hk, hq₂⟩ := hv d' s₁ hs₁
  refine ⟨e, lead, k, hlead, hk, fun q harrays hothers => ?_⟩
  obtain ⟨harrays₁, rfl, hgroups⟩ := hq₁ q harrays hothers
  obtain ⟨o, rfl, hpos, -, rfl⟩ := hq₂ q
  have hfirst : { o with arrays := o.arrays + s₁.arrays } = o := by rw [harrays₁]; rfl
  simp only [Operand.followed, hfirst]
  exact ⟨hpos, hgroups, (joined_intersection hlead hpos).symm⟩

theorem asType_of_groups {bar : Option Token} {vs : List TypeTree}
    (hbar : Marked .bar c e bar) (hv : AsGroup Q e f v)
    (hvs : Repeats (Behind .bar fun c d v => AsGroup Q c d v) f d vs) :
    AsType Q c d (TypeTree.joined .union c.start (v :: vs)) := by
  intro d' s hs
  obtain ⟨s₁, hs₁, hq₁⟩ := repeats_bar hvs hs
  obtain ⟨g, lead, k, hlead, hk, hq₂⟩ := hv d' s₁ hs₁
  refine ⟨_, parses_type hbar hlead hk, fun q hnone => ?_⟩
  obtain ⟨harrays₁, hothers₁, rfl⟩ := hq₁ q hnone
  obtain ⟨hpos, hgroups, rfl⟩ := hq₂ q harrays₁ hothers₁
  rw [← hgroups]
  exact (joined_union hbar hlead hpos).symm

theorem asBase_of_chain {w : TypeTree} (hstart : w.start = c.start)
    (h : ∀ d' s, Parses suffix d d' s → Parses chain c d' (.ofBase w.start w.build s))
    (hw : Q → w = v) : AsBase Q c d v := by
  intro d' s hs
  refine ⟨_, h d' s hs, fun q => ⟨⟨[], w.start, w.build, 0⟩, ?_, hstart, rfl, ?_⟩⟩
  · rw [Operand.tree_of_base, ← hw q]
  · simp only [Operand.followed, Nat.zero_add]
    rfl

theorem parses_chain_of_nameless (h : (Language.rule chainWithoutName).Derives Parses c d k) :
    Parses chain c d k :=
  parses_iff.2 (.inr (.inr (parses_iff.2 h)))

end Types

namespace Construct

variable (Q : Prop)

def Completes : ⦃α : Type⦄ → Construct α → Cursor → Cursor → α → Prop
  | _, array, c, d, v | _, primary, c, d, v | _, parenType, c, d, v => AsBase Q c d v
  | _, nullable, c, d, v => AsOperand Q c d v fun _ => True
  | _, intersection, c, d, v => AsGroup Q c d v
  | _, union, c, d, v | _, type, c, d, v => AsType Q c d v
  | _, arrowResult, c, d, v => AsResult Q c d v
  | _, n, c, d, v => ∃ w, Image n c d w ∧ (Q → w = v)

variable {Q}

theorem Completes.image {n : Construct α} {v : α} (h : Completes Q n c d v) :
    ∃ w, Image n c d w ∧ (Q → w = v) := by
  cases n with
  | array | primary | parenType | nullable => exact (AsOperand.asGroup h).asType.parses
  | intersection => exact (AsGroup.asType h).parses
  | union | type => exact AsType.parses h
  | arrowResult => exact (AsResult.asType h).parses
  | _ => exact h

theorem completes_nullable (h : nullable.rule.Derives (Completes Q) c d v) :
    Completes Q nullable c d v := by
  rcases h with h | h
  · obtain ⟨_, e, v, ⟨q, hq, rfl⟩, hv, rfl⟩ := Phrase.derives_seq.1 h
    exact AsOperand.question hq hv
  · intro d' s hs
    obtain ⟨k, hk, hv⟩ := h d' s hs
    refine ⟨k, hk, fun q => ?_⟩
    obtain ⟨o, htree, hpos, -, hk⟩ := hv q
    exact ⟨o, htree, hpos, trivial, hk⟩

theorem completes_intersection (h : intersection.rule.Derives (Completes Q) c d v) :
    Completes Q intersection c d v := by
  simp [-existsAndEq, derives_iff_then, Phrase.then_call] at h
  obtain ⟨e, ⟨lead, hlead⟩, f, v, hv, _, vs, hvs, rfl, rfl⟩ := h
  refine asGroup_of_operands hlead hv (hvs.mono ?_)
  exact fun c d x ⟨e, ⟨t, ht⟩, hx⟩ => ⟨e, t, ht, hx⟩

theorem completes_union (h : union.rule.Derives (Completes Q) c d v) :
    Completes Q union c d v := by
  simp [-existsAndEq, derives_iff_then, Phrase.then_call] at h
  obtain ⟨e, ⟨bar, hbar⟩, f, v, hv, _, vs, hvs, rfl, rfl⟩ := h
  refine asType_of_groups hbar hv (hvs.mono ?_)
  exact fun c d x ⟨e, ⟨t, ht⟩, hx⟩ => ⟨e, t, ht, hx⟩

theorem completes_array (h : array.rule.Derives (Completes Q) c d v) :
    Completes Q array c d v := by
  simp [-existsAndEq, derives_iff_then, Phrase.then_call] at h
  rcases h with h | ⟨e, v, hv, f, ⟨t, ht⟩, _, ⟨u, hu⟩, rfl, rfl⟩
  · exact h
  · exact AsBase.array hv ht hu

theorem parses_functionParams {params : Option (List FunctionParamTree)}
    (h : Perhaps (Completes Q functionParams) c d params) :
    ∃ ps, Parses .functionParams c d ps ∧ (Q → ps = params.getD []) := by
  rcases h with ⟨rfl, rfl⟩ | ⟨_, rfl, ps, hps, hq⟩
  · exact ⟨[], parses_iff.2 (Phrase.derives_listOrNone.2 (.inl ⟨rfl, rfl⟩)), fun _ => rfl⟩
  · exact ⟨ps, parses_iff.2 (Phrase.derives_listOrNone.2 (.inr hps)), hq⟩

theorem completes_primary (h : primary.rule.Derives (Completes Q) c d v) :
    Completes Q primary c d v := by
  simp [-existsAndEq, derives_iff_then, Phrase.then_call] at h
  -- What stands alone as a primary type is also the start of a chain, with nothing behind it.
  rcases h with ⟨w, hnamed, hw⟩ | ⟨_, o, ⟨w, hobject, hw⟩, rfl, rfl⟩ |
    ⟨_, o, ⟨w, hexact, hw⟩, rfl, rfl⟩ | ⟨w, htuple, hw⟩ | hparen | ⟨_, t, hstring, rfl, rfl⟩ |
    ⟨_, t, hnumber, rfl, rfl⟩
  · simp [-existsAndEq, Image, derives_iff_then] at hnamed
    obtain ⟨e, n, hn, f, path, hpath, _, args, hargs, rfl, rfl⟩ := hnamed
    refine asBase_of_chain hn.start_eq.symm (fun d' s hs => ?_) hw
    refine parses_iff.2 (derives_iff_then.2 ?_)
    simp [then_parses nameSuffix]
    exact .inr (.inl ⟨e, n, hn, f, path, hpath, _, args, hargs, d', s, hs, rfl, rfl⟩)
  · have hstart : w.tree.start = c.start := by
      obtain ⟨members, ⟨_, hextent⟩, rfl⟩ := parses_iff.1 hobject
      exact congrArg Extent.start hextent
    refine asBase_of_chain hstart (fun d' s hs => ?_) fun q => by rw [hw q]
    refine parses_chain_of_nameless (.inr (.inr (.inl ?_)))
    exact Phrase.derives_seq.2 ⟨_, _, s, ⟨w, hobject, rfl⟩, hs, rfl⟩
  · have hstart : w.tree.start = c.start := by
      obtain ⟨members, ⟨_, hextent⟩, rfl⟩ := parses_iff.1 hexact
      exact congrArg Extent.start hextent
    refine asBase_of_chain hstart (fun d' s hs => ?_) fun q => by rw [hw q]
    refine parses_chain_of_nameless (.inr (.inr (.inr (.inl ?_))))
    exact Phrase.derives_seq.2 ⟨_, _, s, ⟨w, hexact, rfl⟩, hs, rfl⟩
  · simp [-existsAndEq, Image, derives_iff_then] at htuple
    obtain ⟨e, t, ht, f, elements, helements, _, hclose, rfl, rfl⟩ := htuple
    refine asBase_of_chain ht.start_eq.symm (fun d' s hs => ?_) hw
    refine parses_chain_of_nameless (derives_iff_then.2 ?_)
    simp [-existsAndEq, Language.tuple]
    exact .inr (.inr (.inr (.inr (.inl ⟨e, t, ht, f, elements, helements, _, hclose, d', s, hs, rfl, rfl⟩))))
  · exact hparen
  · refine asBase_of_chain hstring.start_eq.symm (fun d' s hs => ?_) fun _ => rfl
    exact parses_chain_of_nameless
      (.inl (Phrase.derives_seq.2 ⟨_, _, s, ⟨t, hstring, rfl⟩, hs, rfl⟩))
  · refine asBase_of_chain hnumber.start_eq.symm (fun d' s hs => ?_) fun _ => rfl
    exact parses_chain_of_nameless
      (.inr (.inl (Phrase.derives_seq.2 ⟨_, _, s, ⟨t, hnumber, rfl⟩, hs, rfl⟩)))

theorem completes_parenType (h : parenType.rule.Derives (Completes Q) c d v) :
    Completes Q parenType c d v := by
  simp [-existsAndEq, derives_iff_then, Phrase.then_call] at h
  obtain ⟨e, t, ht, f, params, hparams, g, ⟨u, hu⟩, _, result, hresult, rfl, rfl⟩ := h
  obtain ⟨ps, hps, hparams⟩ := parses_functionParams hparams
  have hparens {γ : Type} {F : Token → List FunctionParamTree → γ} :
      (F <$> mark .openParen <*> call .functionParams <* mark .closeParen).Derives Parses c g
        (F t ps) :=
    Phrase.derives_seqLeft.2 ⟨f, u, Phrase.derives_seq.2 ⟨_, e, ps, ⟨t, ht, rfl⟩, hps, rfl⟩, hu⟩
  rcases hresult with ⟨rfl, rfl⟩ | ⟨r, rfl, a, ⟨arrow, harrow⟩, hr⟩
  · refine asBase_of_chain (w := ⟨t.start, TypeTree.buildParenthesised t.start ps⟩) ht.start_eq.symm
      (fun d' s hs => ?_) fun q => by rw [hparams q]; rfl
    refine parses_chain_of_nameless (.inr (.inr (.inr (.inr (.inr ?_)))))
    refine Phrase.derives_seq.2 ⟨_, g, .inr s, hparens, .inr ⟨s, hs, rfl⟩, rfl⟩
  · intro d' s hs
    obtain ⟨r', hr', hq⟩ := hr d' s hs
    have hchain : Parses chain c d' (.single t.start (TypeTree.buildFunction t.start ps r')) := by
      refine parses_chain_of_nameless (.inr (.inr (.inr (.inr (.inr ?_)))))
      refine Phrase.derives_seq.2 ⟨_, g, .inl r', hparens, .inl ⟨r', ?_, rfl⟩, rfl⟩
      exact Phrase.derives_seqRight.2 ⟨a, arrow, harrow, hr'⟩
    refine ⟨_, hchain, fun q => ?_⟩
    obtain ⟨rfl, rfl⟩ := hq q
    rw [← hparams q]
    exact ⟨⟨[], t.start, _, 0⟩, Operand.tree_of_base _ _, ht.start_eq.symm, rfl, rfl⟩

theorem completes_of_not_operand {n : Construct α} {v : α} (hn : n.isOperand = false)
    (h : n.rule.Derives (Completes Q) c d v) : ∃ w, Image n c d w ∧ (Q → w = v) := by
  obtain ⟨w, hw, hq⟩ := Phrase.Derives.choose (h.mono fun _ _ _ _ _ h => h.image)
  exact ⟨w, readsAs_of_not_operand n hn hw, hq⟩

theorem completes {ends : Endings Construct} (hQ : Q → ∀ ⦃β : Type⦄ (n : Construct β) ts,
    ends n ts → greedy n ts) {n : Construct α} {v : α} (h : Rules.Derives rule ends n c d v) :
    Completes Q n c d v := by
  refine h.induction (P := Completes Q) ?_
  intro α n c d v hd h
  have h : n.rule.Derives (Completes Q) c d v := h.mono fun _ _ _ _ _ h => h.2
  cases n with
  | union => exact completes_union h
  | intersection => exact completes_intersection h
  | nullable => exact completes_nullable h
  | array => exact completes_array h
  | primary => exact completes_primary h
  | parenType => exact completes_parenType h
  | type => exact h
  | arrowResult => exact AsType.asResult h fun q => hQ q arrowResult d.rest hd
  | _ => exact completes_of_not_operand rfl h

end Construct

/-- The plain grammar derives all the tokens from its start, with the given items. -/
def Sentence (ends : Endings Construct) (tokens : List Token) (items : List (Build Item)) : Prop :=
  ∃ last, Rules.Derives Construct.rule ends .start ⟨.first, tokens⟩ ⟨last, []⟩ items

/-- What is read is what the plain grammar derives with results that extend as far as possible. -/
theorem read_eq_ok_iff {tokens : List Token} {items : List (Build Item)} :
    Language.grammar.read .items tokens = .ok items ↔ Sentence Construct.greedy tokens items := by
  refine ⟨written_of_read, ?_⟩
  rintro ⟨last, h⟩
  obtain ⟨items', h, hq⟩ := Construct.completes (Q := True) (fun _ _ _ _ h => h) h
  rw [hq trivial] at h
  exact Language.predictive.read_eq_ok_iff.2 ⟨last, h⟩

theorem exists_read_iff {tokens : List Token} :
    (∃ items, Language.grammar.read .items tokens = .ok items) ↔
      ∃ items, Sentence Rules.anywhere tokens items := by
  constructor
  · rintro ⟨items, h⟩
    obtain ⟨last, h⟩ := written_of_read h
    exact ⟨items, last, h.anywhere⟩
  · rintro ⟨items, last, h⟩
    obtain ⟨items', h, -⟩ := Construct.completes (Q := False) (fun q => q.elim) h
    exact ⟨items', Language.predictive.read_eq_ok_iff.2 ⟨last, h⟩⟩

namespace Module

variable {l : Lexing} {items : List (Build Item)}

theorem readTokens_eq_ok_iff (hl : l.stuck = none) :
    readTokens l = .ok items ↔ Language.grammar.read .items l.tokens = .ok items := by
  unfold readTokens
  cases h : Language.grammar.read .items l.tokens <;> simp [hl]

theorem refused_of_not_read (hl : l.stuck = none)
    (h : ∀ items, Language.grammar.read .items l.tokens ≠ .ok items) :
    (∃ text loc, readTokens l = .error (.unexpectedToken text loc)) ∨
      ∃ loc, readTokens l = .error (.unexpectedEnd loc) := by
  unfold readTokens
  cases hread : Language.grammar.read .items l.tokens with
  | ok items => exact absurd hread (h items)
  | error unread =>
    cases unread with
    | nil => exact .inr ⟨(l.tokens.getLast?.map (·.start)).getD .first, by simp [refusal, hl]⟩
    | cons t ts => exact .inl ⟨t.text, t.start, rfl⟩

/-- Tokens are accepted exactly if the plain grammar derives them. What they say is then what the
derivation says in which the results of function types extend as far as possible. -/
theorem accepts_exactly_sentences (l : Lexing) (hl : l.stuck = none) :
    ((∀ text loc, readTokens l ≠ .error (.unexpectedToken text loc)) ∧
        (∀ loc, readTokens l ≠ .error (.unexpectedEnd loc)) ↔
      ∃ items, Sentence Rules.anywhere l.tokens items) ∧
    (∀ items, readTokens l = .ok items ↔ Sentence Construct.greedy l.tokens items) ∧
    ∀ names source file items, Lexing.ofSource source = l →
      Sentence Construct.greedy l.tokens items →
        ofSource names source file = (⟨·, file⟩) <$> (items.mapM id).run ⟨l.comments, names⟩ := by
  refine ⟨?_, fun items => (readTokens_eq_ok_iff hl).trans read_eq_ok_iff, ?_⟩
  · rw [← exists_read_iff]
    constructor
    · rintro ⟨htoken, hend⟩
      refine Classical.byContradiction fun hnone => ?_
      rcases refused_of_not_read hl fun items h => hnone ⟨items, h⟩ with ⟨text, loc, h⟩ | ⟨loc, h⟩
      · exact htoken text loc h
      · exact hend loc h
    · rintro ⟨items, h⟩
      rw [← readTokens_eq_ok_iff hl] at h
      simp [h]
  · rintro names source file items rfl h
    rw [← read_eq_ok_iff, ← readTokens_eq_ok_iff hl] at h
    simp only [ofSource, h]
    rfl

theorem exists_eq_ok {ε α : Type} {x : Except ε α} (h : x.toOption.isSome) : ∃ a, x = .ok a := by
  cases x with
  | error e => cases h
  | ok a => exact ⟨a, rfl⟩

theorem exists_sentence_of_arrow_type :
    ∃ items, Sentence Construct.greedy (Lexing.ofSource "type A = () => B[]").tokens items ∧
      ofSource .none "type A = () => B[]" none =
        (⟨·, none⟩) <$>
          (items.mapM id).run ⟨(Lexing.ofSource "type A = () => B[]").comments, .none⟩ := by
  have hstuck : (Lexing.ofSource "type A = () => B[]").stuck = none := by decide +kernel
  have hok : (readTokens (Lexing.ofSource "type A = () => B[]")).toOption.isSome := by
    decide +kernel
  obtain ⟨items, hitems⟩ := Option.isSome_iff_exists.1 hok
  have hread : readTokens (Lexing.ofSource "type A = () => B[]") = .ok items := by
    cases h : readTokens (Lexing.ofSource "type A = () => B[]") with
    | error r => simp [h, Except.toOption] at hitems
    | ok items' => simpa [h, Except.toOption] using hitems
  have hsentence := ((accepts_exactly_sentences _ hstuck).2.1 items).1 hread
  exact ⟨items, hsentence,
    (accepts_exactly_sentences _ hstuck).2.2 .none _ none items rfl hsentence⟩

/-- A source is accepted exactly if its tokens are derived, up to its end, and what they say has a
meaning. -/
theorem ofSource_eq_ok_iff {names : CharacterNames} {source : String} {file : Option String}
    {m : Module} :
    ofSource names source file = .ok m ↔ (Lexing.ofSource source).stuck = none ∧ m.file = file ∧
      ∃ items, Sentence Construct.greedy (Lexing.ofSource source).tokens items ∧
        (items.mapM id).run ⟨(Lexing.ofSource source).comments, names⟩ = .ok m.items := by
  simp only [ofSource, readTokens, ← read_eq_ok_iff]
  cases hread : Language.grammar.read .items (Lexing.ofSource source).tokens with
  | error unread => simp
  | ok items =>
    cases hstuck : (Lexing.ofSource source).stuck with
    | some c => simp
    | none =>
      cases hrun : (items.mapM id).run ⟨(Lexing.ofSource source).comments, names⟩ with
      | error e => simp [hrun, Bind.bind, Except.bind]
      | ok built =>
        obtain ⟨mitems, mfile⟩ := m
        simp [hrun, Bind.bind, Except.bind, pure, Except.pure, and_comm, eq_comm]

end Module

end PropTables
