import PropTables.Proofs.Following
import PropTables.Proofs.Images

/-! What is read as a nonterminal, taken apart into constructs. A nonterminal that is the rest of a
construct gives one behind any beginning of it. -/

namespace PropTables

open Construct (greedy)
open Phrase (mark keyword maybe many call listOrNone present spanned token list derives_iff_then)
open Phrase (then_keyword then_list then_listOrNone then_many then_many_or then_map then_mark then_maybe
  then_maybe_or then_or then_orElse then_present then_pure then_seq then_seqLeft then_seqRight then_spanned
  then_token)

/-- How constructs are derived if the result of every function type extends as far as possible. -/
abbrev Written : Derivability Construct :=
  Rules.Derives Construct.rule greedy

variable {α : Type} {c d e : Cursor}

theorem written_iff {n : Construct α} {v : α} :
    Written n c d v ↔ greedy n d.rest ∧ n.rule.Derives Written c d v :=
  Rules.derives_iff

theorem greedy_of_not_operand {n : Construct α} (hn : ¬ n.isOperand) (ts : List Token) :
    greedy n ts := by
  cases n <;> trivial

theorem then_written (n : Construct α) (hn : ¬ n.isOperand) {K : Cursor → α → Prop} :
    (call n).Then Written c K ↔ n.rule.Then Written c K := by
  simp [Phrase.Then, Phrase.derives_call, written_iff, greedy_of_not_operand hn]

def Operand.tree (o : Operand) : TypeTree := ⟨o.position, o.build⟩

def Behind (m : Mark) (R : Cursor → Cursor → α → Prop) (c d : Cursor) (v : α) : Prop :=
  ∃ e t, c.Takes [.mark m] t e ∧ R e d v

abbrev Marked (m : Mark) : Cursor → Cursor → Option Token → Prop :=
  Perhaps fun c d t => c.Takes [.mark m] t d

def Chained (c d : Cursor) (k : OperandChain) : Prop :=
  k.first.position = c.start ∧ ∃ e f,
    Written .nullable c e k.first.tree ∧
    Repeats (Behind .ampersand fun c d o => Written .nullable c d (Operand.tree o)) e f k.others ∧
    Repeats (Behind .bar fun c d g => Written .intersection c d (OperandGroup.tree g)) f d k.groups

section Chains

variable {b f : Cursor} {k : OperandChain} {bar ampersand : Option Token} {o : Operand}
  {os : List Operand} {start : Position} {base : Build TypeExpr}

theorem Marked.start_eq {m : Mark} {t : Option Token} (h : Marked m c d t) :
    (t.map (·.start)).getD d.start = c.start := by
  rcases h with ⟨rfl, rfl⟩ | ⟨x, rfl, hx⟩
  · rfl
  · exact hx.start_eq.symm

theorem joined_intersection (hlead : Marked .ampersand c e ampersand) (hpos : o.position = e.start) :
    TypeTree.joined .intersection c.start (o.tree :: os.map Operand.tree) =
      OperandGroup.tree ⟨ampersand.map (·.start), o, os⟩ := by
  cases os with
  | nil => rfl
  | cons p ps =>
    have hstart : OperandGroup.position ⟨ampersand.map (·.start), o, p :: ps⟩ = c.start := by
      rw [OperandGroup.position, hpos, hlead.start_eq]
    simp [TypeTree.joined, OperandGroup.tree, hstart, Operand.tree, Function.comp_def]

theorem written_group (hlead : Marked .ampersand c e ampersand)
    (hpos : o.position = e.start) (ho : Written .nullable e f o.tree)
    (hos : Repeats (Behind .ampersand fun c d o => Written .nullable c d (Operand.tree o)) f d os) :
    Written .intersection c d (OperandGroup.tree ⟨ampersand.map (·.start), o, os⟩) := by
  refine written_iff.2 ⟨trivial, derives_iff_then.2 ?_⟩
  rw [← joined_intersection hlead hpos]
  simp [-existsAndEq]
  refine ⟨e, ⟨ampersand, hlead⟩, f, o.tree, ho, d, os.map Operand.tree, ?_, rfl, rfl⟩
  refine hos.map ?_
  rintro c d o ⟨e, t, ht, ho⟩
  exact ⟨e, ⟨t, ht⟩, d, o.tree, ho, rfl, rfl⟩

theorem joined_union (hbar : Marked .bar b f bar) (hlead : Marked .ampersand f c ampersand)
    (hpos : k.first.position = c.start) :
    TypeTree.joined .union b.start
        (OperandGroup.tree ⟨ampersand.map (·.start), k.first, k.others⟩ ::
          k.groups.map OperandGroup.tree) =
      .ofChain bar ampersand k := by
  have hstart : (bar.map (·.start)).getD
      (OperandGroup.position ⟨ampersand.map (·.start), k.first, k.others⟩) = b.start := by
    rw [OperandGroup.position, hpos, hlead.start_eq, hbar.start_eq]
  unfold TypeTree.ofChain
  cases hg : k.groups with
  | nil => rfl
  | cons g gs => simp [TypeTree.joined, hstart, Function.comp_def]

theorem Chained.written (hbar : Marked .bar b f bar) (hlead : Marked .ampersand f c ampersand)
    (hk : Chained c d k) : Written .type b d (.ofChain bar ampersand k) := by
  obtain ⟨hpos, e, g, hfirst, hothers, hgroups⟩ := hk
  have hgroup := written_group hlead hpos hfirst hothers
  refine written_iff.2 ⟨trivial, written_iff.2 ⟨trivial, derives_iff_then.2 ?_⟩⟩
  rw [← joined_union hbar hlead hpos]
  simp [-existsAndEq]
  refine ⟨f, ⟨bar, hbar⟩, g, _, hgroup, d, k.groups.map OperandGroup.tree, ?_, rfl, rfl⟩
  refine hgroups.map ?_
  rintro c d o ⟨e, t, ht, ho⟩
  exact ⟨e, ⟨t, ht⟩, d, o.tree, ho, rfl, rfl⟩

theorem question_tree {q : Token} :
    (k.question q).first.tree = TypeTree.nullable q.start k.first.tree := by
  simp [OperandChain.question, Operand.tree, Operand.position, Operand.build, TypeTree.nullable]

theorem Chained.question {q : Token} (hq : c.Takes [.mark .question] q e) (hk : Chained e d k) :
    Chained c d (k.question q) := by
  obtain ⟨hpos, f, g, hfirst, hrest⟩ := hk
  refine ⟨hq.start_eq.symm, f, g, written_iff.2 ⟨trivial, derives_iff_then.2 ?_⟩, hrest⟩
  rw [question_tree]
  simp
  exact .inl ⟨e, q, hq, f, k.first.tree, hfirst, rfl, rfl⟩

theorem repeat_succ_left {f : α → α} {n : Nat} {x : α} : Nat.repeat f (n + 1) x = Nat.repeat f n (f x) := by
  induction n with
  | zero => rfl
  | succ n ih => rw [Nat.repeat, ih, Nat.repeat]

theorem written_arrays {xs : List Token} (hbase : Written .array b c ⟨start, base⟩)
    (hxs : Repeats (Behind .openBracket fun c d t => c.Takes [.mark .closeBracket] t d) c d xs) :
    Written .array b d ⟨start, return Nat.repeat (.array start) xs.length (← base)⟩ := by
  induction hxs generalizing base with
  | nil => simpa [Nat.repeat] using hbase
  | @cons c e d x xs hx _ ih =>
    obtain ⟨f, t, ht, hx⟩ := hx
    have harray : Written .array b e ⟨start, return .array start (← base)⟩ := by
      refine written_iff.2 ⟨trivial, derives_iff_then.2 ?_⟩
      simp [-existsAndEq]
      exact .inr ⟨c, _, hbase, f, ⟨t, ht⟩, e, ⟨_, hx⟩, rfl, rfl⟩
    simpa [repeat_succ_left] using ih harray

theorem written_nullable {v : TypeTree} (h : Written .array c d v) : Written .nullable c d v :=
  written_iff.2 ⟨trivial, .inr h⟩

theorem written_array {v : TypeTree} (h : Written .primary c d v) : Written .array c d v :=
  written_iff.2 ⟨trivial, .inl h⟩

end Chains

namespace Nonterminal

def isOperand : Nonterminal α → Bool
  | nameSuffix | chain | chainWithoutName | suffix => true
  | _ => false

def source : ⦃α : Type⦄ → (r : Nonterminal α) → ¬ r.isOperand → Construct.Clause α
  | _, type, _ | _, typeWithoutName, _ => call .type
  | _, typeArgs, _ => call .typeArgs
  | _, functionParams, _ => Construct.orNone (call .functionParams)
  | _, functionParam, _ => call .functionParam
  | _, objectType, _ => call .objectType
  | _, exactObjectType, _ => call .exactObjectType
  | _, objectMembers, _ => Construct.orNone (call .objectMembers)
  | _, objectMember, _ => call .objectMember
  | _, expr, _ => call .expr
  | _, path, _ =>
    PathTree.mk <$> many (mark .dot *> call .name) <*> many (call .callArgs)
  | _, callArgs, _ => call .callArgs
  | _, objectEntry, _ => call .objectEntry
  | _, arrowBody, _ => call .arrowBody
  | _, block, _ => call .block
  | _, blockItem, _ => call .blockItem
  | _, params, _ => Construct.parameters
  | _, param, _ => call .anyParam
  | _, ascription, _ => call .ascription
  | _, initial, _ => call .initializer
  | _, typeParams, _ => call .typeParams
  | _, classDeclaration, _ => call .classDecl
  | _, classMember, _ => call .classMember
  | _, functionDeclaration, _ => call .functionDecl
  | _, aliasRest, _ =>
    AliasTree.mk <$> Construct.identifier <*> Construct.orNone (call .typeParams)
      <*> (mark .equals *> call .type) <* Construct.semicolon
  | _, declaration, _ =>
    (fun i => return .interface (← i)) <$> call .interfaceDecl
    <|> (fun c => return .class_ (← ClassTree.buildNamed c)) <$> call .classDecl
    <|> (fun f => return .function (← f)) <$> call .functionDecl
    <|> (fun v => return .binding (← v)) <$> call .variableDecl
  | _, importRest, _ =>
    (fun source loc => ImportTree.buildAll loc none [] source)
      <$> Construct.string <* Construct.semicolon
    <|> (fun kind specifiers source loc => ImportTree.buildAll loc kind specifiers source)
      <$> maybe (call .importKind) <*> call .importClause
      <*> (keyword .fromWord *> Construct.string) <* Construct.semicolon
  | _, importClause, _ => call .importClause
  | _, importNames, _ => call .namedImports
  | _, exportRest, _ =>
    (fun value loc => ItemTree.exportedDefault loc value)
      <$> (keyword .defaultWord *> call .defaultValue) <* Construct.semicolon
    <|> (fun source loc => ItemTree.exportedAll loc source)
      <$> (mark .star *> keyword .fromWord *> Construct.string) <* Construct.semicolon
    <|> (fun d loc => ItemTree.exported loc d) <$> call .declaration
    <|> (fun types specifiers source loc =>
        ExportClauseTree.build loc (if types then .type else .value) ⟨specifiers, source⟩)
      <$> present (keyword .typeWord) <*> call .exportClause
      <*> maybe (keyword .fromWord *> Construct.string) <* Construct.semicolon
  | _, exportClause, _ =>
    ExportClauseTree.mk <$> call .exportClause
      <*> maybe (keyword .fromWord *> Construct.string) <* Construct.semicolon
  | _, item, _ => call .item
  | _, items, _ => call .start

def Piece : ⦃α : Type⦄ → Nonterminal α → Cursor → Cursor → α → Prop
  | _, chain, c, d, k | _, chainWithoutName, c, d, k => Chained c d k
  | _, nameSuffix, c, d, s => ∀ b n, b.Takes [.name] n c → Chained b d (s.chain n)
  | _, suffix, c, d, s => ∀ b base, Written .array b c ⟨b.start, base⟩ →
    Chained b d (.ofBase b.start base s)
  | _, _, _, _, _ => False

def Means : Derivability Nonterminal := fun _ r c d v =>
  if h : r.isOperand then r.Piece c d v else (r.source h).Derives Written c d v

theorem means_iff {r : Nonterminal α} (h : ¬ r.isOperand) {v : α} :
    Means r c d v ↔ (r.source h).Derives Written c d v := by
  rw [Means, dif_neg h]

@[simp] theorem then_means {r : Nonterminal α} (h : ¬ r.isOperand) {K : Cursor → α → Prop} :
    (call r).Then Means c K ↔ (r.source h).Then Written c K := by
  simp only [Phrase.Then, Phrase.derives_call, means_iff h]

attribute [simp] isOperand source Construct.isOperand

def Sound (r : Nonterminal α) : Prop :=
  ∀ {c d : Cursor} {v : α} (h : ¬ r.isOperand),
    (Language.rule r).Derives Means c d v → (r.source h).Derives Written c d v

@[simp] theorem then_chain {K : Cursor → OperandChain → Prop} :
    (call chain).Then Means c K ↔ ∃ d k, Chained c d k ∧ K d k := Iff.rfl

@[simp] theorem then_chainWithoutName {K : Cursor → OperandChain → Prop} :
    (call chainWithoutName).Then Means c K ↔ ∃ d k, Chained c d k ∧ K d k := Iff.rfl

@[simp] theorem then_nameSuffix {K : Cursor → NameSuffix → Prop} :
    (call nameSuffix).Then Means c K ↔ ∃ d s, nameSuffix.Piece c d s ∧ K d s := Iff.rfl

@[simp] theorem then_suffix {K : Cursor → OperandSuffix → Prop} :
    (call suffix).Then Means c K ↔ ∃ d s, suffix.Piece c d s ∧ K d s := Iff.rfl

def Followed : Derivability Nonterminal := fun _ r c d v =>
  Next (Language.follow r).contains d.rest ∧ Means r c d v

theorem then_followed {r : Nonterminal α} {K : Cursor → α → Prop} :
    (call r).Then Followed c K ↔
      (call r).Then Means c fun d v => Next (Language.follow r).contains d.rest ∧ K d v := by
  simp only [Phrase.Then, Phrase.derives_call, Followed, and_assoc, and_left_comm]

theorem sound_suffix {s : OperandSuffix} (h : (Language.rule suffix).Derives Means c d s) :
    suffix.Piece c d s := by
  intro b base hbase
  simp only [Language.rule, derives_iff_then, then_seq, then_orElse, then_map, then_seqRight, then_chain,
    then_mark, exists_and_right, then_maybe, exists_eq_right_right, exists_eq_right, then_pure, then_many] at h
  obtain ⟨e, xs, hxs, h⟩ := h
  have hfirst := written_nullable (written_arrays hbase (hxs.mono (by
    rintro c d x ⟨e, ⟨t, ht⟩, hx⟩
    exact ⟨e, t, ht, hx⟩)))
  rcases h with ⟨f, ⟨t, ht⟩, _, k, hk, rfl, rfl⟩ |
    ⟨f, ⟨t, ht⟩, g, ampersand, hlead, _, k, hk, rfl, rfl⟩ | ⟨rfl, rfl⟩
  · obtain ⟨hpos, f', g, hnext, hothers, hgroups⟩ := hk
    exact ⟨rfl, e, g, hfirst, .cons ⟨f, t, ht, hnext⟩ hothers, hgroups⟩
  · obtain ⟨hpos, f', g', hnext, hothers, hgroups⟩ := hk
    exact ⟨rfl, e, e, hfirst, .nil, .cons ⟨f, t, ht, written_group hlead hpos hnext hothers⟩ hgroups⟩
  · exact ⟨rfl, e, e, hfirst, .nil, .nil⟩

theorem chained_of_primary {start : Position} {base : Build TypeExpr} {s : OperandSuffix}
    (hstart : start = c.start) (hp : Written .primary c e ⟨start, base⟩) (hs : suffix.Piece e d s) :
    Chained c d (.ofBase start base s) := by
  subst hstart
  exact hs c base (written_array hp)

theorem piece_none : suffix.Piece c c .none := by
  intro b base hbase
  have hfirst := written_nullable (written_arrays hbase .nil)
  exact ⟨rfl, c, c, hfirst, .nil, .nil⟩

theorem sound_nameSuffix {s : NameSuffix} (h : (Language.rule nameSuffix).Derives Means c d s) :
    nameSuffix.Piece c d s := by
  intro b n hn
  simp only [Language.rule, Language.dotted, derives_iff_then, then_seq, then_suffix, then_maybe,
    isOperand, Bool.false_eq_true, not_false_eq_true, then_means, source, then_map, then_many,
    then_seqRight, then_token, exists_eq_right_right, exists_eq_right, then_mark, exists_and_right] at h
  obtain ⟨e, path, hpath, f, args, hargs, _, s, hs, rfl, rfl⟩ := h
  have hgeneric : Written .genericType b f ⟨n.start, TypeTree.buildReference n path args⟩ := by
    refine written_iff.2 ⟨trivial, derives_iff_then.2 ?_⟩
    simp only [Construct.rule, Construct.identifier, then_seq, then_maybe, then_many, then_seqRight,
      then_token, exists_eq_right_right, exists_eq_right, then_mark, exists_and_right, then_map,
      TypeTree.mk.injEq]
    exact ⟨c, n, hn, e, path, hpath, f, args, hargs, rfl, rfl, rfl⟩
  have hprimary : Written .primary b f ⟨n.start, TypeTree.buildReference n path args⟩ :=
    written_iff.2 ⟨trivial, .inl hgeneric⟩
  exact chained_of_primary hn.start_eq.symm hprimary hs

theorem start_of_object {o : ObjectTree}
    (h : Written .objectType c d o ∨ Written .exactObjectType c d o) : o.tree.start = c.start := by
  rcases h with h | h
  · obtain ⟨_, members, ⟨_, hextent⟩, rfl⟩ := written_iff.1 h
    exact congrArg Extent.start hextent
  · obtain ⟨_, members, ⟨_, hextent⟩, rfl⟩ := written_iff.1 h
    exact congrArg Extent.start hextent

theorem sound_chainWithoutName {k : OperandChain}
    (h : (Language.rule chainWithoutName).Derives Followed c d k) : Chained c d k := by
  have weaken {p : Language.Rule OperandChain} (h : p.Derives Followed c d k) :
      p.Then Means c fun e x => e = d ∧ x = k :=
    derives_iff_then.1 (h.mono fun _ _ _ _ _ h => h.2)
  rcases h with hstring | hnumber | hobject | hexact | htuple | hparen
  · have h := weaken hstring
    simp only [Language.literal, then_seq, then_suffix, then_map, then_token] at h
    obtain ⟨e, t, ht, _, s, hs, rfl, rfl⟩ := h
    refine chained_of_primary ht.start_eq.symm (written_iff.2 ⟨trivial, derives_iff_then.2 ?_⟩) hs
    simp only [Construct.rule, Construct.string, then_orElse, then_map, TypeTree.mk.injEq, then_token]
    exact .inr (.inr (.inr (.inr (.inr (.inl ⟨e, t, ht, rfl, rfl, rfl⟩)))))
  · have h := weaken hnumber
    simp only [Language.literal, then_seq, then_suffix, then_map, then_token] at h
    obtain ⟨e, t, ht, _, s, hs, rfl, rfl⟩ := h
    refine chained_of_primary ht.start_eq.symm (written_iff.2 ⟨trivial, derives_iff_then.2 ?_⟩) hs
    simp only [Construct.rule, Construct.string, then_orElse, then_map, TypeTree.mk.injEq, then_token]
    exact .inr (.inr (.inr (.inr (.inr (.inr ⟨e, t, ht, rfl, rfl, rfl⟩)))))
  · have h := weaken hobject
    simp only [Language.objectOperand, then_seq, then_suffix, then_map, isOperand, Bool.false_eq_true,
      not_false_eq_true, then_means, source] at h
    obtain ⟨e, o, ho, _, s, hs, rfl, rfl⟩ := h
    refine chained_of_primary (start_of_object (.inl ho)) ?_ hs
    exact written_iff.2 ⟨trivial, .inr (.inl ⟨o, ho, rfl⟩)⟩
  · have h := weaken hexact
    simp only [Language.objectOperand, then_seq, then_suffix, then_map, isOperand, Bool.false_eq_true,
      not_false_eq_true, then_means, source] at h
    obtain ⟨e, o, ho, _, s, hs, rfl, rfl⟩ := h
    refine chained_of_primary (start_of_object (.inr ho)) ?_ hs
    exact written_iff.2 ⟨trivial, .inr (.inr (.inl ⟨o, ho, rfl⟩))⟩
  · have h := weaken htuple
    simp only [Language.tuple, bind_pure_comp, Language.comma, then_seq, then_suffix, then_seqLeft,
      then_mark, exists_and_right, then_listOrNone, then_maybe, then_list, isOperand, Bool.false_eq_true,
      not_false_eq_true, then_means, source, exists_eq_right_right, exists_eq_right, then_map] at h
    obtain ⟨e, t, ht, f, elements, helements, g, hclose, _, s, hs, rfl, rfl⟩ := h
    refine chained_of_primary ht.start_eq.symm (written_iff.2 ⟨trivial, ?_⟩) hs
    refine .inr (.inr (.inr (.inl (written_iff.2 ⟨trivial, derives_iff_then.2 ?_⟩))))
    simp only [Construct.rule, bind_pure_comp, Construct.comma, then_seqLeft, then_mark, exists_and_right,
      then_seq, then_listOrNone, then_maybe, then_list, exists_eq_right_right, exists_eq_right, then_map,
      TypeTree.mk.injEq]
    exact ⟨e, t, ht, f, elements, helements, g, hclose, rfl, rfl, rfl⟩
  · rw [derives_iff_then] at hparen
    simp only [Language.parenthesised, Language.choice, then_seq, then_orElse, then_map, then_seqRight,
      then_followed, isOperand, Bool.false_eq_true, not_false_eq_true, then_means, source, then_mark,
      exists_and_right, then_suffix, then_seqLeft, Construct.orNone, then_maybe] at hparen
    obtain ⟨e, t, ht, f, params, hparams, _, g, hclose, hrest⟩ := hparen
    rcases hrest with ⟨g', ⟨arrow, harrow⟩, e', result, hresult, hnext, rfl, rfl⟩ | ⟨_, s, hs, _, rfl, rfl⟩
    · -- Nothing that may follow the result could go on with it.
      refine chained_of_primary ht.start_eq.symm (written_iff.2 ⟨trivial, ?_⟩) piece_none
      refine .inr (.inr (.inr (.inr (.inl (written_iff.2 ⟨trivial, derives_iff_then.2 ?_⟩)))))
      simp only [Construct.rule, Construct.orNone, then_seq, then_maybe, then_seqRight, then_mark,
        exists_and_right, then_seqLeft, then_map]
      have hgreedy : greedy Construct.arrowResult e'.rest := fun u hu hmark => by
        have hfollow := hnext u hu
        simp only [List.contains_iff_mem] at hfollow
        revert hfollow hmark
        generalize u.terminal = terminal
        decide +revert
      have harrowResult : Written .arrowResult g' e' result := written_iff.2 ⟨hgreedy, hresult⟩
      exact ⟨e, t, ht, f, params, hparams, g, hclose, e', some result,
        .inr ⟨result, rfl, g', ⟨arrow, harrow⟩, e', result, harrowResult, rfl, rfl⟩, rfl, rfl⟩
    · refine chained_of_primary ht.start_eq.symm (written_iff.2 ⟨trivial, ?_⟩) hs
      refine .inr (.inr (.inr (.inr (.inl (written_iff.2 ⟨trivial, derives_iff_then.2 ?_⟩)))))
      simp only [Construct.rule, Construct.orNone, then_seq, then_maybe, then_seqRight, then_mark,
        exists_and_right, then_seqLeft, then_map]
      exact ⟨e, t, ht, f, params, hparams, g, hclose, g, none, .inl ⟨rfl, rfl⟩, rfl, rfl⟩

theorem sound_chain {k : OperandChain} (h : (Language.rule chain).Derives Means c d k) :
    Chained c d k := by
  simp [-existsAndEq, derives_iff_then] at h
  rcases h with ⟨e, q, hq, _, k, hk, rfl, rfl⟩ | ⟨e, n, hn, _, s, hs, rfl, rfl⟩ | hk
  · exact hk.question hq
  · exact hs c n hn
  · exact hk

theorem type_of_name {n : Token} {K : Cursor → TypeTree → Prop} (hn : c.Takes [.name] n e)
    (hs : (call nameSuffix).Then Means e fun d s => K d (s.tree n)) :
    (call Construct.type).Then Written c K := by
  obtain ⟨d, s, hs, hk⟩ := then_nameSuffix.1 hs
  exact ⟨d, s.tree n, (hs c n hn).written (.inl ⟨rfl, rfl⟩) (.inl ⟨rfl, rfl⟩), hk⟩

theorem sound_type : type.Sound := by
  intro c d v hr h
  simp [-existsAndEq, derives_iff_then] at h
  rcases h with ⟨e, n, hn, _, s, hs, rfl, rfl⟩ | h
  · exact (hs c n hn).written (.inl ⟨rfl, rfl⟩) (.inl ⟨rfl, rfl⟩)
  · exact derives_iff_then.2 h

theorem sound_typeWithoutName : typeWithoutName.Sound := by
  intro c d v hr h
  simp [-existsAndEq, derives_iff_then] at h
  rcases h with ⟨e, bar, hbar, f, ampersand, hlead, _, k, hk, rfl, rfl⟩ |
    ⟨e, t, ht, _, k, hk, rfl, rfl⟩ | ⟨e, q, hq, _, k, hk, rfl, rfl⟩ | ⟨_, k, hk, rfl, rfl⟩
  · exact hk.written (.inr ⟨bar, rfl, hbar⟩) hlead
  · exact hk.written (.inl ⟨rfl, rfl⟩) (.inr ⟨t, rfl, ht⟩)
  · exact (hk.question hq).written (.inl ⟨rfl, rfl⟩) (.inl ⟨rfl, rfl⟩)
  · exact hk.written (.inl ⟨rfl, rfl⟩) (.inl ⟨rfl, rfl⟩)

theorem sound_functionParam : functionParam.Sound := by
  intro c d v hr h
  refine written_iff.2 ⟨trivial, derives_iff_then.2 ?_⟩
  simp only [Language.rule, Language.paramBody, Language.restParam, Language.name, Language.choice,
    Language.typed, Language.colon, derives_iff_then, then_map, then_spanned, then_orElse, then_seqRight,
    then_seq, isOperand, Bool.false_eq_true, not_false_eq_true, then_means, source, then_mark,
    exists_and_right, then_nameSuffix, then_token, Construct.rule, Construct.isOperand, then_written
    .namedFunctionParam, Construct.located, Construct.identifier, Construct.typed, Construct.colon,
    then_present, then_maybe_or, Option.isSome_none, Option.isSome_some, then_written .restFunctionParam,
    Construct.label, then_seqLeft] at h ⊢
  rcases h with ⟨e, he, ⟨f, n, hn, h | h⟩ | h⟩ | ⟨e, n, hn, (h | h) | h⟩ | h
  · exact .inr (.inl ⟨e, he, .inr ⟨f, n, hn, h⟩⟩)
  · exact .inr (.inl ⟨e, he, .inl (type_of_name hn h)⟩)
  · exact .inr (.inl ⟨e, he, .inl h⟩)
  · exact .inl ⟨e, n, hn, .inr h⟩
  · exact .inl ⟨e, n, hn, .inl h⟩
  · exact .inr (.inr (type_of_name hn h))
  · exact .inr (.inr h)

theorem then_object_key {K : Cursor → Token → Prop} :
    (call Construct.objectKey).Then Written c K ↔
      ∃ e t, c.Takes (.string :: Language.words) t e ∧ K e t := by
  simp [then_written .objectKey, then_written .name, Cursor.Takes, or_and_right, exists_or, or_comm]

theorem sound_objectMember : objectMember.Sound := by
  intro c d v hr h
  refine written_iff.2 ⟨trivial, derives_iff_then.2 ?_⟩
  simp only [Language.rule, Language.keyedMember, Language.choice, Language.inParens, Language.typed,
    Language.colon, Language.indexer, Language.restParam, Language.name, derives_iff_then, then_orElse,
    then_seq, then_map, then_seqRight, isOperand, Bool.false_eq_true, not_false_eq_true, then_means,
    source, then_mark, exists_and_right, then_seqLeft, Construct.orNone, then_maybe_or, Option.getD_none,
    Option.getD_some, then_present, Option.isSome_none, Option.isSome_some, then_token, then_nameSuffix] at h
  simp only [Construct.rule, then_orElse, Construct.isOperand, Bool.false_eq_true, not_false_eq_true,
    then_written .objectProperty, Construct.typed, Construct.colon, then_seq, then_seqRight, then_mark,
    exists_and_right, then_present, then_maybe_or, Option.isSome_none, Option.isSome_some, then_map,
    then_object_key, then_written .methodProperty, Construct.functionParameters, Construct.inParens,
    Construct.orNone, then_seqLeft, Option.getD_none, Option.getD_some, then_written .spreadProperty,
    then_written .objectIndexer, Construct.label, Construct.identifier, then_token, then_written
    .callProperty]
  rcases h with ⟨e, key, hkey, h | h⟩ | h | ⟨e, he, ⟨f, n, hn, h | h⟩ | h⟩ | h
  · exact .inr (.inl ⟨e, key, hkey, h⟩)
  · exact .inl ⟨e, key, hkey, h⟩
  · exact .inr (.inr (.inl h))
  · exact .inr (.inr (.inr (.inl ⟨e, he, .inr ⟨f, n, hn, h⟩⟩)))
  · exact .inr (.inr (.inr (.inl ⟨e, he, .inl (type_of_name hn h)⟩)))
  · exact .inr (.inr (.inr (.inl ⟨e, he, .inl h⟩)))
  · exact .inr (.inr (.inr (.inr h)))

theorem sound_expr : expr.Sound := by
  intro c d v hr h
  refine written_iff.2 ⟨trivial, derives_iff_then.2 ?_⟩
  simp only [Language.rule, Language.string, Language.name, Language.choice, Language.arrowTail,
    Language.comma, derives_iff_then, then_orElse, then_map, then_token, then_seq, then_seqRight,
    isOperand, Bool.false_eq_true, not_false_eq_true, then_means, source, then_mark, exists_and_right,
    ↓then_many_or (a := call Construct.callArgs), then_many, then_seqLeft, then_listOrNone, then_maybe,
    then_list, exists_eq_right_right, exists_eq_right, then_spanned, Construct.parameters,
    Construct.inParens, Construct.orNone] at h
  simp only [Construct.rule, Construct.string, then_orElse, then_map, then_token, Construct.isOperand,
    Bool.false_eq_true, not_false_eq_true, then_written .memberExpr, Construct.identifier, then_seq,
    then_many, then_seqRight, then_mark, exists_and_right, then_written .callExpr, then_written
    .objectExpr, Construct.comma, then_seqLeft, then_listOrNone, then_maybe, then_list,
    exists_eq_right_right, exists_eq_right, then_written .arrayExpr, Construct.orNone, then_written .args,
    then_written .arrowExpr, Construct.located, then_spanned, then_written .arrowParams,
    Construct.parameters, Construct.inParens]
  rcases h with h | h | h | ⟨e, n, hn, h | ⟨f, attrs, hattrs, h | h⟩⟩ | h | h | h
  · exact .inl h
  · exact .inr (.inl h)
  · exact .inr (.inr (.inl h))
  · refine .inr (.inr (.inr (.inr (.inr (.inr (.inr (.inl ⟨e, n, hn, ?_⟩)))))))
    rw [hn.start_eq]
    exact h
  · exact .inr (.inr (.inr (.inl ⟨e, n, hn, f, attrs, hattrs, h⟩)))
  · exact .inr (.inr (.inr (.inr (.inl ⟨e, n, hn, f, attrs, hattrs, h⟩))))
  · exact .inr (.inr (.inr (.inr (.inr (.inl h)))))
  · exact .inr (.inr (.inr (.inr (.inr (.inr (.inl h))))))
  · exact .inr (.inr (.inr (.inr (.inr (.inr (.inr (.inr h)))))))

theorem sound_callArgs : callArgs.Sound := by
  intro c d v hr h
  refine written_iff.2 ⟨trivial, derives_iff_then.2 ?_⟩
  simpa [derives_iff_then, then_written .args] using h

theorem sound_objectEntry : objectEntry.Sound := by
  intro c d v hr h
  refine written_iff.2 ⟨trivial, derives_iff_then.2 ?_⟩
  simp [derives_iff_then, Phrase.then_maybe_or, -Phrase.then_maybe] at h
  simp [-existsAndEq, then_written .keyedEntry, then_written .shorthand, then_written .spreadEntry,
    then_object_key]
  rcases h with ⟨e, n, hn, h | h⟩ | ⟨e, key, hkey, h⟩ | h
  · exact .inr (.inl ⟨e, n, hn, h⟩)
  · exact .inl ⟨e, n, hn.mono (by simp [Language.words]), h⟩
  · refine .inl ⟨e, key, hkey.mono ?_, h⟩
    exact List.cons_subset_cons _ List.erase_subset
  · exact .inr (.inr h)

theorem sound_arrowBody : arrowBody.Sound := by
  intro c d v hr h
  refine written_iff.2 ⟨trivial, derives_iff_then.2 ?_⟩
  simp [derives_iff_then, ↓Phrase.then_many_or (a := call Construct.callArgs)] at h
  simp [then_written .memberExpr, then_written .callExpr]
  rcases h with h | ⟨e, hn, f, hattrs, rfl | h⟩ | h
  · exact .inl h
  · exact .inr (.inl ⟨e, hn, hattrs⟩)
  · exact .inr (.inr (.inl ⟨e, hn, f, hattrs, h⟩))
  · exact .inr (.inr (.inr h))

theorem sound_param : param.Sound := by
  intro c d v hr h
  refine written_iff.2 ⟨trivial, derives_iff_then.2 ?_⟩
  simp only [Language.rule, Language.restOrPattern, Language.name, derives_iff_then, then_map,
    then_spanned, then_orElse, then_seq, then_maybe, ↓existsAndEq, isOperand, Bool.false_eq_true,
    not_false_eq_true, then_means, source, true_and, then_seqRight, then_token, then_mark,
    exists_and_right, then_present, and_self, and_true] at h
  simp only [Construct.rule, then_orElse, Construct.isOperand, Bool.false_eq_true, not_false_eq_true,
    then_written .param, Construct.located, then_map, then_spanned, then_seq, then_maybe, ↓existsAndEq,
    true_and, then_present, then_mark, and_self, and_true, exists_and_right, then_written .paramTarget,
    Construct.identifier, then_token, then_written .restParam, then_seqRight]
  exact h.symm

theorem sound_typeParams : typeParams.Sound := by
  intro c d v hr h
  refine written_iff.2 ⟨trivial, derives_iff_then.2 ?_⟩
  simpa [derives_iff_then, then_written .typeParam] using h

theorem sound_classDeclaration : classDeclaration.Sound := by
  intro c d v hr h
  refine written_iff.2 ⟨trivial, derives_iff_then.2 ?_⟩
  simpa only [Construct.rule, Construct.identifier, Construct.orNone, then_seq, Construct.isOperand,
    Bool.false_eq_true, not_false_eq_true, then_written .classBody, then_seqLeft, then_mark, ↓existsAndEq,
    true_and, exists_and_right, then_seqRight, then_many, then_maybe, then_written .heritage, then_map,
    then_written .memberExpr, then_written .name, then_token, and_self, and_true, then_keyword,
    Language.rule, Language.name, Language.optionalTypeParams, Language.heritage, Language.dotted,
    Language.inBraces, derives_iff_then, isOperand, then_means, source] using h

theorem sound_classMember : classMember.Sound := by
  intro c d v hr h
  refine written_iff.2 ⟨trivial, derives_iff_then.2 ?_⟩
  simp only [Language.rule, Language.memberRest, Language.semicolon, Language.skip, derives_iff_then,
    then_map, then_spanned, then_seq, then_orElse, isOperand, Bool.false_eq_true, not_false_eq_true,
    then_means, source, then_maybe, Construct.parameters, Construct.inParens, Construct.orNone,
    then_seqLeft, then_mark, exists_and_right, then_seqRight, ↓existsAndEq, and_self, and_true, true_and,
    then_present, then_or, then_token, then_keyword] at h
  simp only [Construct.rule, then_orElse, Construct.isOperand, Bool.false_eq_true, not_false_eq_true,
    then_written .classProperty, Construct.located, Construct.semicolon, then_map, then_spanned,
    then_seqLeft, then_maybe, ↓existsAndEq, then_mark, and_self, and_true, true_and, exists_and_right,
    then_seq, then_present, then_written .memberName, then_token, then_keyword, then_written .classMethod,
    Construct.parameters, Construct.inParens, Construct.orNone, then_seqRight, ↓then_maybe_or (a := call
    Construct.typeParams), then_or]
  rcases h with h | h | h
  · exact .inr (.inr h)
  · exact .inr (.inl h)
  · exact .inl h

theorem sound_importClause : importClause.Sound := by
  intro c d v hr h
  refine written_iff.2 ⟨trivial, derives_iff_then.2 ?_⟩
  simpa only [Construct.rule, Construct.comma, then_orElse, then_seq, then_maybe, ↓existsAndEq,
    then_seqRight, Construct.isOperand, Bool.false_eq_true, not_false_eq_true, then_written
    .namespaceImport, Construct.identifier, then_map, then_token, true_and, then_keyword,
    exists_and_right, then_mark, then_written .importDefault, Language.rule, Language.name,
    Language.comma, Language.namespaceImport, derives_iff_then, isOperand, then_means, source] using h

theorem sound_importNames : importNames.Sound := by
  intro c d v hr h
  refine written_iff.2 ⟨trivial, derives_iff_then.2 ?_⟩
  simpa only [Construct.rule, Construct.comma, then_seqLeft, then_mark, ↓existsAndEq, true_and,
    exists_and_right, then_seqRight, then_listOrNone, then_maybe, then_list, Construct.isOperand,
    Bool.false_eq_true, not_false_eq_true, then_written .importSpec, Construct.identifier, then_map,
    then_spanned, then_seq, then_token, and_self, and_true, then_keyword, then_written .importName,
    then_written .importKind, Language.rule, Language.inBraces, Language.importSpecifier,
    Language.importKind, Language.newName, Language.name, Language.comma, derives_iff_then] using h

theorem sound_item : item.Sound := by
  intro c d v hr h
  refine written_iff.2 ⟨trivial, derives_iff_then.2 ?_⟩
  simp only [Language.rule, bind_pure_comp, Language.statement, Language.name, Language.dotted,
    Language.choice, Language.semicolon, Language.skip, derives_iff_then, then_orElse, then_seq,
    isOperand, Bool.false_eq_true, not_false_eq_true, then_means, source, Construct.string,
    Construct.semicolon, then_seqLeft, then_maybe, ↓existsAndEq, then_mark, and_self, and_true, true_and,
    exists_and_right, then_map, then_token, then_seqRight, then_keyword, then_present,
    Construct.identifier, Construct.orNone, then_many] at h
  simp only [Construct.rule, then_orElse, Construct.isOperand, Bool.false_eq_true, not_false_eq_true,
    then_written .importDecl, Construct.string, Construct.semicolon, then_seqLeft, then_maybe,
    ↓existsAndEq, then_mark, and_self, and_true, true_and, exists_and_right, then_seq, then_seqRight,
    then_token, then_keyword, then_map, then_written .exportDecl, then_present, then_written (c := c)
    .declaration, bind_pure_comp, then_written (c := c) .typeAlias, Construct.identifier,
    Construct.orNone, then_written .assignment, then_written .memberExpr, then_many, then_written .name,
    then_written .callStatement, then_written .callExpr]
  rcases h with ⟨e, t, ht, h | h⟩ | ⟨e, t, ht, h | h | h | h⟩ | h | h | ⟨e, n, hn, f, attrs, hattrs, h | h⟩
  · exact .inl (.inr ⟨e, t, ht, h⟩)
  · exact .inl (.inl ⟨e, t, ht, h⟩)
  · exact .inr (.inl (.inl ⟨e, t, ht, h⟩))
  · exact .inr (.inl (.inr (.inl ⟨e, t, ht, h⟩)))
  · exact .inr (.inl (.inr (.inr (.inl ⟨e, t, ht, h⟩))))
  · exact .inr (.inl (.inr (.inr (.inr ⟨e, t, ht, h⟩))))
  · exact .inr (.inr (.inl (.inl h)))
  · exact .inr (.inr (.inl (.inr h)))
  · refine .inr (.inr (.inr (.inl ⟨e, n, hn, f, attrs, hattrs, ?_⟩)))
    simpa only [Construct.rule, then_seqRight, then_mark, exists_and_right] using (then_written .initializer (by simp)).1 h
  · exact .inr (.inr (.inr (.inr ⟨e, n, hn, f, attrs, hattrs, h⟩)))

theorem sound_functionParams : functionParams.Sound := by
  intro c d v hr h
  simpa [derives_iff_then, then_written .functionParams] using h

theorem sound_objectMembers : objectMembers.Sound := by
  intro c d v hr h
  simpa [derives_iff_then, then_written .objectMembers, then_written .memberSeparator] using h

theorem sound_path : path.Sound := by
  intro c d v hr h
  simpa [derives_iff_then, then_written .name] using h

theorem sound_params : params.Sound := by
  intro c d v hr h
  simpa [derives_iff_then, then_written .params] using h

theorem sound_declaration : declaration.Sound := by
  intro c d v hr h
  simpa only [source, bind_pure_comp, derives_iff_then, then_orElse, then_map, Construct.isOperand,
    Bool.false_eq_true, not_false_eq_true, then_written .interfaceDecl, Construct.rule,
    Construct.identifier, Construct.orNone, then_seq, then_maybe, then_token, then_keyword, then_written
    .variableDecl, Construct.comma, Construct.semicolon, then_seqLeft, ↓existsAndEq, then_mark, and_self,
    and_true, true_and, exists_and_right, then_many, then_seqRight, then_written .declarator,
    Language.rule, Language.interfaceDeclaration, Language.name, Language.optionalTypeParams,
    Language.variableDeclaration, Language.declarator, Language.comma, Language.semicolon, Language.skip,
    isOperand, then_means] using h

theorem sound_importRest : importRest.Sound := by
  intro c d v hr h
  simpa [derives_iff_then, then_written .importKind, Language.importKind] using h

theorem sound_exportRest : exportRest.Sound := by
  intro c d v hr h
  simp only [Language.rule, Language.defaultExport, bind_pure_comp, Language.semicolon, Language.skip,
    Language.fromWord, Language.string, Language.choice, derives_iff_then, then_orElse, then_seqRight,
    then_seqLeft, then_map, then_maybe, ↓existsAndEq, then_mark, and_self, and_true, true_and,
    exists_and_right, isOperand, Bool.false_eq_true, not_false_eq_true, then_means, source, then_keyword,
    then_token, then_seq, Construct.identifier, Construct.orNone, Construct.semicolon, Construct.string] at h
  simp only [source, Construct.semicolon, Construct.string, derives_iff_then, then_orElse, then_seqLeft,
    then_maybe, ↓existsAndEq, then_mark, and_self, and_true, true_and, exists_and_right, then_map,
    then_seqRight, Construct.isOperand, Bool.false_eq_true, not_false_eq_true, then_written .defaultValue,
    Construct.rule, bind_pure_comp, then_keyword, then_token, then_written .declaration, then_written
    .typeAlias, Construct.identifier, Construct.orNone, then_seq, then_present, ↓then_maybe_or (a :=
    keyword .typeWord), Option.isSome_none, ↓reduceIte, Option.isSome_some]
  rcases h with h | h | ⟨e, t, ht, h | h⟩ | h | h
  · exact .inl h
  · exact .inr (.inl h)
  · exact .inr (.inr (.inl (.inl ⟨e, t, ht, h⟩)))
  · exact .inr (.inr (.inr (.inr ⟨e, ⟨t, ht⟩, h⟩)))
  · exact .inr (.inr (.inr (.inl h)))
  · exact .inr (.inr (.inl (.inr h)))

theorem sound_exportClause : exportClause.Sound := by
  intro c d v hr h
  simpa only [source, Construct.string, Construct.semicolon, derives_iff_then, then_seqLeft, then_maybe,
    ↓existsAndEq, then_mark, and_self, and_true, true_and, exists_and_right, then_seq, then_seqRight,
    then_token, then_keyword, then_map, Construct.isOperand, Bool.false_eq_true, not_false_eq_true,
    then_written .exportClause, Construct.rule, Construct.comma, then_listOrNone, then_list, then_written
    .exportSpec, then_written .name, Language.rule, Language.inBraces, Language.exportSpecifier,
    Language.comma, Language.fromWord, Language.string, Language.semicolon, Language.skip] using h

theorem sound (r : Nonterminal α) : r.Sound := by
  intro c d v hr h
  cases r with
  | type => exact sound_type hr h
  | typeWithoutName => exact sound_typeWithoutName hr h
  | functionParams => exact sound_functionParams hr h
  | functionParam => exact sound_functionParam hr h
  | objectMembers => exact sound_objectMembers hr h
  | objectMember => exact sound_objectMember hr h
  | expr => exact sound_expr hr h
  | path => exact sound_path hr h
  | callArgs => exact sound_callArgs hr h
  | objectEntry => exact sound_objectEntry hr h
  | arrowBody => exact sound_arrowBody hr h
  | params => exact sound_params hr h
  | param => exact sound_param hr h
  | typeParams => exact sound_typeParams hr h
  | classDeclaration => exact sound_classDeclaration hr h
  | classMember => exact sound_classMember hr h
  | declaration => exact sound_declaration hr h
  | importRest => exact sound_importRest hr h
  | importClause => exact sound_importClause hr h
  | importNames => exact sound_importNames hr h
  | exportRest => exact sound_exportRest hr h
  | exportClause => exact sound_exportClause hr h
  | item => exact sound_item hr h
  | aliasRest => exact derives_iff_then.2 (by simpa [derives_iff_then] using h)
  | typeArgs | objectType | exactObjectType | block | blockItem | ascription | initial
  | functionDeclaration | items =>
    refine written_iff.2 ⟨trivial, derives_iff_then.2 ?_⟩
    simpa [derives_iff_then] using h
  | nameSuffix | chain | chainWithoutName | suffix => exact absurd rfl hr

theorem means_of_parses {r : Nonterminal α} {v : α} (h : Parses r c d v)
    (hd : Next (Language.follow r).contains d.rest) : Means r c d v := by
  refine (Language.predictive.followed h hd).induction (P := Means) ?_
  intro α r c d v hd h
  have hmeans : (Language.rule r).Derives Means c d v := h.mono fun _ _ _ _ _ h => h.2
  have hfollowed : (Language.rule r).Derives Followed c d v :=
    h.mono fun _ _ _ _ _ h => ⟨(Rules.derives_iff.1 h.1).1, h.2⟩
  cases r with
  | nameSuffix => exact sound_nameSuffix hmeans
  | chain => exact sound_chain hmeans
  | chainWithoutName => exact sound_chainWithoutName hfollowed
  | suffix => exact sound_suffix hmeans
  | _ => exact (means_iff (by simp)).2 (sound _ (by simp) hmeans)

end Nonterminal

/-- Whatever is read is derived by the plain grammar, with results that extend as far as possible. -/
theorem written_of_read {tokens : List Token} {items : List (Build Item)}
    (h : Language.grammar.read .items tokens = .ok items) :
    ∃ last, Written .start ⟨.first, tokens⟩ ⟨last, []⟩ items := by
  obtain ⟨last, h⟩ := Language.predictive.read_eq_ok_iff.1 h
  have hend : Next (Language.follow Nonterminal.items).contains [] := fun t ht => by cases ht
  have hitems : ¬ Nonterminal.items.isOperand := by simp
  exact ⟨last, (Nonterminal.means_iff hitems).1 (Nonterminal.means_of_parses h hend)⟩

end PropTables
