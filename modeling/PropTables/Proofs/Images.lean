import Mathlib.Tactic.Simproc.ExistsAndEq
import PropTables.Proofs.Constructs

/-! Every construct as a phrase of the grammar that is read. What a construct is made of is read as its
phrase is; only the constructs that take types apart need more than a look at both rules. -/

namespace PropTables

open PropTables.Language (Rule)

abbrev Parses : Derivability Nonterminal :=
  Rules.Derives (fun _ => Language.rule) Rules.anywhere

variable {α : Type} {c d : Cursor}

theorem parses_iff {r : Nonterminal α} {v : α} :
    Parses r c d v ↔ (Language.rule r).Derives Parses c d v :=
  Rules.derives_iff.trans (and_iff_right trivial)

theorem then_parses (r : Nonterminal α) {K : Cursor → α → Prop} :
    (Phrase.call r).Then Parses c K ↔ (Language.rule r).Then Parses c K := by
  simp only [Phrase.Then, Phrase.derives_call, parses_iff]

attribute [simp] Language.rule Language.name Language.string Language.comma Language.colon Language.fromWord
  Language.semicolon Language.skip Language.choice Language.dotted Language.typed
  Language.inBraces Language.inParens Language.optionalTypeParams Language.arrowTail

namespace Construct

open Phrase (mark keyword maybe many call listOrNone present spanned token list derives_iff_then)
open Phrase (then_keyword then_list then_listOrNone then_many then_many_or then_map then_mark then_maybe
  then_maybe_or then_or then_orElse then_present then_seq then_seqLeft then_seqRight then_spanned
  then_token)

/-- The phrase that reads a construct. Where a construct is only part of what a nonterminal reads, it is
that nonterminal. -/
@[simp] def image : ⦃α : Type⦄ → Construct α → Rule α
  | _, start => call .items
  | _, item => call .item
  | _, importDecl =>
    (fun word rest => rest word.start) <$> keyword .importWord <*> call .importRest
  | _, importKind => Language.importKind
  | _, importClause => call .importClause
  | _, importDefault => .default_ <$> Language.name
  | _, namedImports => call .importNames
  | _, importSpec => Language.importSpecifier
  | _, importName => token [.name, .keyword .defaultWord]
  | _, namespaceImport => Language.namespaceImport
  | _, exportDecl =>
    (fun word rest => rest word.start) <$> keyword .exportWord <*> call .exportRest
  | _, defaultValue =>
    (fun c => return .class_ (← ClassTree.build c)) <$> call .classDeclaration
    <|> (fun f => return .function (← f)) <$> call .functionDeclaration
    <|> (fun e => return .expression (← e)) <$> call .expr
  | _, exportClause => Language.inBraces (listOrNone Language.exportSpecifier Language.comma)
  | _, exportSpec => Language.exportSpecifier
  | _, declaration =>
    (fun word a => return .typeAlias (← a.build word.start))
      <$> keyword .typeWord <*> call .aliasRest
    <|> call .declaration
  | _, typeAlias =>
    (fun word a => AliasTree.build word.start a) <$> keyword .typeWord <*> call .aliasRest
  | _, interfaceDecl =>
    (fun word n params body => buildInterface word.start n params body)
      <$> keyword .interfaceWord <*> Language.name <*> Language.optionalTypeParams
      <*> call .objectType
  | _, classDecl => call .classDeclaration
  | _, heritage =>
    (fun head attrs args => (PathTree.dotted head attrs, args))
      <$> Language.name <*> many (Language.dotted Language.words) <*> maybe (call .typeArgs)
  | _, functionDecl => call .functionDeclaration
  | _, variableDecl =>
    (fun word first others => buildVariables word (first :: others))
      <$> token [.keyword .constWord, .keyword .letWord, .keyword .varWord]
      <*> Language.declarator <*> many (Language.comma *> Language.declarator)
      <* Language.semicolon
  | _, declarator => Language.declarator
  | _, typeParams => call .typeParams
  | _, typeParam => TypeParameter.ofToken <$> Language.name
  | _, ascription => call .ascription
  | _, initializer => call .initial
  | _, classBody => Language.inBraces (many (call .classMember))
  | _, classMember | _, classProperty | _, classMethod => call .classMember
  | _, params => list (call .param) Language.comma
  | _, anyParam | _, param | _, restParam => call .param
  | _, paramTarget => some <$> Language.name <|> (fun _ => none) <$> call .block
  | _, assignment | _, callStatement => Language.statement
  | _, expr | _, objectExpr | _, arrayExpr | _, arrowExpr => call .expr
  | _, memberExpr => Prod.mk <$> Language.name <*> many (Language.dotted Language.words)
  | _, callExpr =>
    (fun n attrs first others => (n, ⟨attrs, first :: others⟩))
      <$> Language.name <*> many (Language.dotted Language.words) <*> call .callArgs
      <*> many (call .callArgs)
  | _, callArgs => call .callArgs
  | _, args => list (call .expr) Language.comma
  | _, objectEntry | _, keyedEntry | _, shorthand | _, spreadEntry => call .objectEntry
  | _, arrowParams =>
    (fun n => [⟨n.start, some n, none, false, false⟩]) <$> Language.name <|> call .params
  | _, arrowBody => call .arrowBody
  | _, type | _, union | _, intersection | _, nullable | _, array | _, primary | _, parenType | _, arrowResult =>
    call .type
  | _, genericType =>
    (fun n path args => ⟨n.start, TypeTree.buildReference n path args⟩)
      <$> Language.name <*> many (Language.dotted [.name]) <*> maybe (call .typeArgs)
  | _, typeArgs => call .typeArgs
  | _, tupleType =>
    (fun t elements => ⟨t.start, return .tuple t.start (← elements.mapM TypeTree.build)⟩)
      <$> mark .openBracket <*> listOrNone (call .type) Language.comma <* mark .closeBracket
  | _, functionParams => list (call .functionParam) Language.comma
  | _, functionParam | _, namedFunctionParam | _, restFunctionParam => call .functionParam
  | _, objectType => call .objectType
  | _, exactObjectType => call .exactObjectType
  | _, objectMembers =>
    list (spanned (call .objectMember)) (token [.mark .comma, .mark .semicolon])
  | _, memberSeparator => token [.mark .comma, .mark .semicolon]
  | _, objectMember | _, objectProperty | _, methodProperty | _, spreadProperty | _, objectIndexer
  | _, callProperty => call .objectMember
  | _, objectKey => token (.string :: Language.words)
  | _, name => token Language.words
  | _, memberName => token Language.memberKeys
  | _, block => call .block
  | _, blockItem => call .blockItem

def isOperand : Construct α → Bool
  | union | intersection | nullable | array | primary | parenType | arrowResult => true
  | _ => false

def Image : Derivability Construct := fun _ n => n.image.Derives Parses

@[simp] theorem then_image {n : Construct α} {K : Cursor → α → Prop} :
    (call n).Then Image c K ↔ n.image.Then Parses c K := Iff.rfl

def ReadsAs (n : Construct α) : Prop :=
  ∀ {c d : Cursor} {v : α}, n.rule.Derives Image c d v → n.image.Derives Parses c d v

theorem readsAs_item : item.ReadsAs := by
  intro c d v h
  refine parses_iff.2 (derives_iff_then.2 ?_)
  simpa [derives_iff_then, or_assoc] using h

theorem readsAs_importDecl : importDecl.ReadsAs := by
  intro c d v h
  simp only [rule, string, semicolon, derives_iff_then, then_orElse, then_seqLeft, then_maybe,
    ↓existsAndEq, then_mark, and_self, and_true, true_and, exists_and_right, then_seq, then_seqRight,
    then_token, then_keyword, then_image, image, then_map, then_parses .importRest, Language.rule,
    Language.string, Language.semicolon, Language.skip, Language.fromWord, and_or_left, exists_or] at h ⊢
  exact h.symm

theorem readsAs_importClause : importClause.ReadsAs := by
  intro c d v h
  refine parses_iff.2 (derives_iff_then.2 ?_)
  simpa [derives_iff_then, or_assoc] using h

theorem readsAs_exportDecl : exportDecl.ReadsAs := by
  intro c d v h
  simp only [rule, semicolon, string, derives_iff_then, then_orElse, then_seqLeft, then_maybe,
    ↓existsAndEq, then_mark, and_self, and_true, true_and, exists_and_right, then_seq, then_seqRight,
    then_image, image, bind_pure_comp, then_map, then_keyword, then_token, Language.inBraces,
    Language.comma, then_listOrNone, then_list, then_present, ↓then_maybe_or (a := keyword .typeWord),
    Option.isSome_none, Option.isSome_some, Bool.false_eq_true, ↓reduceIte, then_parses .exportRest,
    Language.rule, Language.defaultExport, Language.semicolon, Language.skip, Language.fromWord,
    Language.string, Language.choice, then_parses .exportClause] at h ⊢
  rcases h with ⟨e, t, ht, h⟩ | ⟨e, t, ht, h⟩ | ⟨e, t, ht, ⟨f, u, hu, h⟩ | h⟩ |
    ⟨e, t, ht, h | ⟨f, ⟨u, hu⟩, h⟩⟩
  · exact ⟨e, t, ht, .inl h⟩
  · exact ⟨e, t, ht, .inr (.inl h)⟩
  · exact ⟨e, t, ht, .inr (.inr (.inl ⟨f, u, hu, .inl h⟩))⟩
  · exact ⟨e, t, ht, .inr (.inr (.inr (.inr h)))⟩
  · exact ⟨e, t, ht, .inr (.inr (.inr (.inl h)))⟩
  · exact ⟨e, t, ht, .inr (.inr (.inl ⟨f, u, hu, .inr h⟩))⟩

theorem readsAs_declaration : declaration.ReadsAs := by
  intro c d v h
  simpa only [image, bind_pure_comp, derives_iff_then, then_orElse, then_seq, then_map, then_keyword,
    then_parses .declaration, Language.rule, Language.interfaceDeclaration, Language.name,
    Language.optionalTypeParams, Language.variableDeclaration, Language.comma, Language.semicolon,
    Language.skip, then_maybe, then_token, then_seqLeft, ↓existsAndEq, then_mark, and_self, and_true,
    true_and, exists_and_right, then_many, then_seqRight, rule, then_image] using h

theorem readsAs_typeAlias : typeAlias.ReadsAs := by
  intro c d v h
  simpa only [image, derives_iff_then, then_seq, then_parses .aliasRest, Language.rule, Language.name,
    Language.optionalTypeParams, Language.semicolon, Language.skip, then_seqLeft, then_map, then_maybe,
    ↓existsAndEq, then_mark, and_self, and_true, true_and, exists_and_right, then_seqRight, then_token,
    then_keyword, rule, identifier, orNone, semicolon, then_image] using h

theorem readsAs_interfaceDecl : interfaceDecl.ReadsAs := by
  intro c d v h
  simpa [derives_iff_then] using h

theorem readsAs_classDecl : classDecl.ReadsAs := by
  intro c d v h
  refine parses_iff.2 (derives_iff_then.2 ?_)
  simpa only [Language.rule, Language.name, Language.optionalTypeParams, Language.heritage,
    Language.dotted, Language.inBraces, then_seq, then_seqLeft, then_mark, ↓existsAndEq, true_and,
    exists_and_right, then_seqRight, then_many, then_maybe, then_token, and_self, and_true, then_map,
    then_keyword, exists_perhaps, Option.getD_none, Option.getD_some, or_assoc, rule, identifier, orNone,
    derives_iff_then, then_image, image] using h

theorem readsAs_heritage : heritage.ReadsAs := by
  intro c d v h
  simpa only [image, Language.name, Language.dotted, derives_iff_then, then_seq, then_maybe, ↓existsAndEq,
    true_and, then_many, then_seqRight, then_token, and_self, and_true, then_mark, exists_and_right,
    then_map, rule, then_image] using h

theorem readsAs_functionDecl : functionDecl.ReadsAs := by
  intro c d v h
  refine parses_iff.2 (derives_iff_then.2 ?_)
  simpa only [Language.rule, Language.name, Language.optionalTypeParams, then_seq, then_maybe, then_parses
    .params, Language.inParens, Language.comma, then_seqLeft, then_mark, exists_and_right, then_seqRight,
    then_listOrNone, then_list, ↓existsAndEq, and_self, and_true, true_and, then_map, then_token,
    then_keyword, rule, identifier, orNone, parameters, inParens, derives_iff_then, then_image, image] using h

theorem readsAs_variableDecl : variableDecl.ReadsAs := by
  intro c d v h
  simpa only [image, Language.comma, Language.semicolon, Language.skip, derives_iff_then, then_seqLeft,
    then_map, then_maybe, ↓existsAndEq, then_mark, and_self, and_true, true_and, exists_and_right,
    then_seq, then_many, then_seqRight, then_token, rule, comma, semicolon, then_image] using h

theorem readsAs_classProperty : classProperty.ReadsAs := by
  intro c d v h
  refine parses_iff.2 (derives_iff_then.2 ?_)
  simp only [rule, located, semicolon, derives_iff_then, then_map, then_spanned, then_seqLeft, then_maybe,
    ↓existsAndEq, then_mark, and_self, and_true, true_and, exists_and_right, then_seq, then_image, image,
    then_present, then_token, then_keyword, Language.rule, Language.memberRest, Language.semicolon,
    Language.skip, then_orElse, then_or] at h ⊢
  exact .inr (.inr h)

theorem readsAs_classMethod : classMethod.ReadsAs := by
  intro c d v h
  refine parses_iff.2 (derives_iff_then.2 ?_)
  simp only [rule, located, parameters, inParens, orNone, derives_iff_then, then_map, then_spanned,
    then_seq, then_image, image, then_maybe, then_seqLeft, then_mark, exists_and_right, then_seqRight,
    Language.comma, then_list, ↓existsAndEq, and_self, and_true, true_and, ↓then_maybe_or (a := call
    typeParams), then_or, then_token, then_present, then_keyword, Language.rule, Language.memberRest,
    Language.semicolon, Language.skip, then_orElse, then_parses .params, Language.inParens,
    then_listOrNone] at h ⊢
  exact h.elim (fun h => .inr (.inl h)) .inl

theorem readsAs_param : param.ReadsAs := by
  intro c d v h
  refine parses_iff.2 (derives_iff_then.2 ?_)
  simp only [rule, located, derives_iff_then, then_map, then_spanned, then_seq, then_maybe, ↓existsAndEq,
    then_image, image, true_and, then_present, then_mark, and_self, and_true, exists_and_right,
    Language.name, then_orElse, then_token, Language.rule, Language.restOrPattern, then_seqRight] at h ⊢
  exact .inr h

theorem readsAs_restParam : restParam.ReadsAs := by
  intro c d v h
  refine parses_iff.2 (derives_iff_then.2 ?_)
  simp only [rule, located, identifier, derives_iff_then, then_map, then_spanned, then_seq, then_maybe,
    ↓existsAndEq, then_image, image, true_and, then_seqRight, then_token, then_mark, exists_and_right,
    Language.rule, Language.restOrPattern, Language.name, then_orElse, then_present, and_self, and_true] at h ⊢
  exact .inl h

theorem readsAs_assignment : assignment.ReadsAs := by
  intro c d v h
  simp only [rule, semicolon, derives_iff_then, then_seqLeft, then_maybe, ↓existsAndEq, then_mark,
    and_self, and_true, true_and, exists_and_right, then_seq, then_seqRight, then_image, image, then_map,
    Language.name, Language.dotted, then_many, then_token, Language.statement, Language.choice,
    Language.semicolon, Language.skip, then_orElse, then_parses .initial, Language.rule, then_or] at h ⊢
  exact .inl h

theorem readsAs_callStatement : callStatement.ReadsAs := by
  intro c d v h
  simp only [rule, semicolon, derives_iff_then, then_seqLeft, then_maybe, ↓existsAndEq, then_mark,
    and_self, and_true, true_and, exists_and_right, then_map, then_image, image, Language.name,
    Language.dotted, then_seq, then_many, then_seqRight, then_token, Language.statement, Language.choice,
    Language.semicolon, Language.skip, then_orElse, then_or] at h ⊢
  exact .inr h

theorem readsAs_expr : expr.ReadsAs := by
  intro c d v h
  refine parses_iff.2 (derives_iff_then.2 ?_)
  simp only [rule, string, derives_iff_then, then_orElse, then_map, then_token, then_image, image,
    Language.name, Language.dotted, then_seq, then_many, then_seqRight, exists_eq_right_right,
    exists_eq_right, then_mark, exists_and_right, or_self] at h
  simp only [Language.rule, Language.string, Language.name, Language.choice, Language.arrowTail,
    Language.comma, then_orElse, then_map, then_token, then_seq, then_seqRight, then_mark,
    exists_and_right, then_parses .path, Language.dotted, ↓then_many_or (a := call Nonterminal.callArgs),
    then_many, exists_eq_right_right, exists_eq_right, then_seqLeft, then_listOrNone, then_maybe,
    then_list, then_spanned]
  rcases h with h | h | h | ⟨e, n, hn, f, attrs, hattrs, h⟩ | ⟨e, n, hn, f, attrs, hattrs, h⟩ | h
  · exact .inl h
  · exact .inr (.inl h)
  · exact .inr (.inr (.inl h))
  · exact .inr (.inr (.inr (.inl ⟨e, n, hn, .inr ⟨f, attrs, hattrs, .inl h⟩⟩)))
  · exact .inr (.inr (.inr (.inl ⟨e, n, hn, .inr ⟨f, attrs, hattrs, .inr h⟩⟩)))
  · simpa only [↓existsAndEq, true_and, Language.rule, Language.string, Language.name, Language.choice,
      Language.arrowTail, Language.comma, then_orElse, then_map, then_token, then_seq, then_seqRight,
      then_mark, exists_and_right, then_parses .path, Language.dotted, ↓then_many_or (a := call
      Nonterminal.callArgs), then_many, and_self, and_true, then_seqLeft, then_listOrNone, then_maybe,
      then_list, then_spanned] using
      (then_parses .expr).1 h

theorem readsAs_objectExpr : objectExpr.ReadsAs := by
  intro c d v h
  refine parses_iff.2 (derives_iff_then.2 ?_)
  simp only [rule, comma, derives_iff_then, then_seqLeft, then_mark, ↓existsAndEq, true_and,
    exists_and_right, then_seq, then_listOrNone, then_maybe, then_list, then_image, image, and_self,
    and_true, then_map, Language.rule, Language.string, Language.name, Language.choice,
    Language.arrowTail, Language.comma, then_orElse, then_token, then_seqRight, then_spanned] at h ⊢
  exact .inr (.inr (.inr (.inr (.inl h))))

theorem readsAs_arrayExpr : arrayExpr.ReadsAs := by
  intro c d v h
  refine parses_iff.2 (derives_iff_then.2 ?_)
  simp only [rule, orNone, derives_iff_then, then_seqLeft, then_mark, ↓existsAndEq, true_and,
    exists_and_right, then_seq, then_map, then_maybe, then_image, image, Language.comma, then_list,
    and_self, and_true, Language.rule, Language.string, Language.name, Language.choice,
    Language.arrowTail, then_orElse, then_token, then_seqRight, then_listOrNone, then_spanned] at h ⊢
  exact .inr (.inr (.inr (.inr (.inr (.inl h)))))

theorem readsAs_arrowExpr : arrowExpr.ReadsAs := by
  intro c d v h
  refine parses_iff.2 (derives_iff_then.2 ?_)
  simp only [rule, located, derives_iff_then, then_map, then_spanned, then_seq, then_seqRight, then_image,
    image, then_mark, exists_and_right, Language.name, then_orElse, then_token, Language.rule,
    Language.string, Language.choice, Language.arrowTail, Language.comma, ↓existsAndEq, true_and,
    then_seqLeft, then_listOrNone, then_maybe, then_list, and_self, and_true] at h ⊢
  rcases h with ⟨e, n, hn, f, hf, h⟩ | h
  · rw [hn.start_eq] at h
    exact .inr (.inr (.inr (.inl ⟨e, n, hn, .inl ⟨f, hf, h⟩⟩)))
  · exact .inr (.inr (.inr (.inr (.inr (.inr h)))))

theorem readsAs_callExpr : callExpr.ReadsAs := by
  intro c d v h
  simpa only [image, Language.name, Language.dotted, derives_iff_then, then_seq, then_many, ↓existsAndEq,
    true_and, then_seqRight, then_token, and_self, and_true, then_mark, exists_and_right, then_map, rule,
    then_image] using h

theorem readsAs_keyedEntry : keyedEntry.ReadsAs := by
  intro c d v h
  refine parses_iff.2 (derives_iff_then.2 ?_)
  simp [derives_iff_then, Phrase.then_maybe_or, -Phrase.then_maybe] at h ⊢
  obtain ⟨e, key, ⟨hkey, htake⟩, h⟩ := h
  by_cases hname : key.terminal = .name
  · exact .inl ⟨e, key, ⟨by simp [hname], htake⟩, .inr h⟩
  · refine .inr (.inl ⟨e, key, ⟨?_, htake⟩, h⟩)
    simpa [Language.words, hname] using hkey

theorem readsAs_shorthand : shorthand.ReadsAs := by
  intro c d v h
  refine parses_iff.2 (derives_iff_then.2 ?_)
  simp [-existsAndEq, derives_iff_then, Phrase.then_maybe_or, -Phrase.then_maybe] at h ⊢
  obtain ⟨e, n, hn, h⟩ := h
  exact .inl ⟨e, n, hn, .inl h⟩

theorem readsAs_spreadEntry : spreadEntry.ReadsAs := by
  intro c d v h
  refine parses_iff.2 (derives_iff_then.2 ?_)
  simp [derives_iff_then] at h ⊢
  exact .inr (.inr h)

theorem readsAs_arrowParams : arrowParams.ReadsAs := by
  intro c d v h
  simpa [derives_iff_then, then_parses .params] using h

theorem readsAs_arrowBody : arrowBody.ReadsAs := by
  intro c d v h
  refine parses_iff.2 (derives_iff_then.2 ?_)
  simp only [rule, derives_iff_then, and_true, then_orElse, then_image, image, then_map, Language.name,
    Language.dotted, then_seq, then_many, ↓existsAndEq, then_seqRight, then_token, and_self, then_mark,
    exists_and_right] at h
  simp only [Language.rule, Language.name, Language.skip, and_true, then_orElse, then_seq, then_parses
    .path, Language.dotted, ↓then_many_or (a := call Nonterminal.callArgs), ↓existsAndEq, then_map,
    then_many, then_seqRight, then_token, and_self, then_mark, exists_and_right]
  rcases h with h | ⟨e, hn, attrs, hattrs⟩ | ⟨e, hn, f, hattrs, h⟩ | h
  · exact .inl h
  · exact .inr (.inl ⟨e, hn, d, ⟨attrs, hattrs⟩, .inl rfl⟩)
  · exact .inr (.inl ⟨e, hn, f, hattrs, .inr h⟩)
  · exact .inr (.inr h)

theorem readsAs_objectKey : objectKey.ReadsAs := by
  intro c d v h
  simp [derives_iff_then] at h ⊢
  rcases h with h | h
  · exact h.mono (List.subset_cons_self ..)
  · exact h.mono (List.cons_subset_cons _ (List.nil_subset _))

theorem readsAs_namedFunctionParam : namedFunctionParam.ReadsAs := by
  intro c d v h
  refine parses_iff.2 (derives_iff_then.2 ?_)
  simp only [rule, located, identifier, typed, colon, derives_iff_then, then_map, then_spanned, then_seq,
    then_seqRight, then_image, image, then_mark, exists_and_right, then_present, ↓then_maybe_or (a := mark
    .question), Option.isSome_none, Option.isSome_some, then_token, Language.rule, Language.paramBody,
    Language.name, Language.choice, Language.typed, Language.colon, then_orElse] at h ⊢
  obtain ⟨e, n, hn, h⟩ := h
  exact .inr (.inl ⟨e, n, hn, .inl h.symm⟩)

theorem then_restParam {K : Cursor → Option Token × TypeTree → Prop} :
    Language.restParam.Then Parses c K ↔
      (maybe (token [.name] <* mark .colon)).Then Parses c fun e n =>
        (call .type).Then Parses e fun d t => K d (n, t) := by
  rw [Phrase.then_maybe_or, then_parses .type]
  simp [Language.restParam, Language.rule, and_or_left, exists_or, or_assoc]
  exact or_rotate

theorem readsAs_restFunctionParam : restFunctionParam.ReadsAs := by
  intro c d v h
  refine parses_iff.2 (derives_iff_then.2 ?_)
  simp only [rule, located, label, identifier, colon, derives_iff_then, then_map, then_spanned, then_seq,
    then_image, image, then_seqRight, then_maybe, then_seqLeft, then_mark, ↓existsAndEq, true_and,
    exists_and_right, then_token, and_true, Language.rule, Language.paramBody, Language.name,
    Language.choice, Language.typed, Language.colon, then_orElse, then_restParam] at h ⊢
  exact .inl h

theorem readsAs_functionParam : functionParam.ReadsAs := by
  intro c d v h
  simp [derives_iff_then] at h ⊢
  rcases h with h | h
  · exact h
  · rw [then_parses] at h ⊢
    simp [Language.paramBody] at h ⊢
    rcases h with ⟨e, n, hn, h⟩ | h
    · exact .inr (.inl ⟨e, n, hn, .inr h⟩)
    · exact .inr (.inr h)

theorem readsAs_objectProperty : objectProperty.ReadsAs := by
  intro c d v h
  refine parses_iff.2 (derives_iff_then.2 ?_)
  simp only [rule, typed, colon, derives_iff_then, then_seq, then_seqRight, then_image, image, then_mark,
    exists_and_right, then_present, then_maybe, ↓existsAndEq, and_self, and_true, then_map, then_token,
    Language.rule, Language.keyedMember, Language.choice, Language.inParens, Language.typed,
    Language.colon, then_orElse, then_seqLeft] at h ⊢
  obtain ⟨e, key, hkey, h⟩ := h
  exact .inl ⟨e, key, hkey, .inr h⟩

theorem readsAs_methodProperty : methodProperty.ReadsAs := by
  intro c d v h
  refine parses_iff.2 (derives_iff_then.2 ?_)
  simp only [rule, functionParameters, inParens, orNone, typed, colon, derives_iff_then, then_seq,
    then_seqRight, then_image, image, then_mark, exists_and_right, then_seqLeft, then_map, then_maybe,
    Language.comma, then_list, ↓existsAndEq, and_self, and_true, true_and, then_token, Language.rule,
    Language.keyedMember, Language.choice, Language.inParens, Language.typed, Language.colon, then_orElse,
    then_parses .functionParams, then_listOrNone, then_present] at h ⊢
  obtain ⟨e, key, hkey, h⟩ := h
  exact .inl ⟨e, key, hkey, .inl h⟩

theorem readsAs_spreadProperty : spreadProperty.ReadsAs := by
  intro c d v h
  refine parses_iff.2 (derives_iff_then.2 ?_)
  simp [derives_iff_then] at h ⊢
  exact .inr (.inl h)

theorem readsAs_objectIndexer : objectIndexer.ReadsAs := by
  intro c d v h
  refine parses_iff.2 (derives_iff_then.2 ?_)
  simp only [rule, label, identifier, colon, typed, derives_iff_then, then_seq, then_seqRight, then_image,
    image, then_mark, exists_and_right, then_seqLeft, then_map, then_maybe, ↓existsAndEq, true_and,
    then_token, and_true, Language.rule, Language.indexer, Language.typed, Language.colon,
    Language.inParens, then_orElse, then_restParam] at h ⊢
  exact .inr (.inr (.inl h))

theorem readsAs_callProperty : callProperty.ReadsAs := by
  intro c d v h
  refine parses_iff.2 (derives_iff_then.2 ?_)
  simp only [rule, functionParameters, inParens, orNone, typed, colon, derives_iff_then, then_seq,
    then_seqRight, then_image, image, then_mark, exists_and_right, then_map, then_seqLeft, then_maybe,
    Language.comma, then_list, ↓existsAndEq, and_self, and_true, true_and, Language.rule,
    Language.inParens, Language.typed, Language.colon, then_orElse, then_parses .functionParams,
    then_listOrNone] at h ⊢
  exact .inr (.inr (.inr h))

theorem readsAs_objectType : objectType.ReadsAs := by
  intro c d v h
  refine parses_iff.2 (derives_iff_then.2 ?_)
  simpa only [Language.rule, Language.inBraces, then_map, then_spanned, then_seqLeft, then_mark,
    ↓existsAndEq, true_and, exists_and_right, then_seqRight, then_parses .objectMembers, then_listOrNone,
    then_maybe, then_list, then_token, and_self, and_true, rule, orNone, derives_iff_then, then_image,
    image] using h

theorem readsAs_exactObjectType : exactObjectType.ReadsAs := by
  intro c d v h
  refine parses_iff.2 (derives_iff_then.2 ?_)
  simpa only [Language.rule, then_map, then_spanned, then_seqLeft, then_mark, ↓existsAndEq, true_and,
    exists_and_right, then_seqRight, then_parses .objectMembers, then_listOrNone, then_maybe, then_list,
    then_token, and_self, and_true, rule, orNone, derives_iff_then, then_image, image] using h

theorem readsAs_of_not_operand (n : Construct α) (hn : n.isOperand = false) : n.ReadsAs := by
  intro c d v h
  cases n with
  | item => exact readsAs_item h
  | importDecl => exact readsAs_importDecl h
  | importClause => exact readsAs_importClause h
  | exportDecl => exact readsAs_exportDecl h
  | declaration => exact readsAs_declaration h
  | typeAlias => exact readsAs_typeAlias h
  | interfaceDecl => exact readsAs_interfaceDecl h
  | classDecl => exact readsAs_classDecl h
  | heritage => exact readsAs_heritage h
  | functionDecl => exact readsAs_functionDecl h
  | variableDecl => exact readsAs_variableDecl h
  | classProperty => exact readsAs_classProperty h
  | classMethod => exact readsAs_classMethod h
  | param => exact readsAs_param h
  | restParam => exact readsAs_restParam h
  | assignment => exact readsAs_assignment h
  | callStatement => exact readsAs_callStatement h
  | expr => exact readsAs_expr h
  | callExpr => exact readsAs_callExpr h
  | objectExpr => exact readsAs_objectExpr h
  | arrayExpr => exact readsAs_arrayExpr h
  | arrowExpr => exact readsAs_arrowExpr h
  | keyedEntry => exact readsAs_keyedEntry h
  | shorthand => exact readsAs_shorthand h
  | spreadEntry => exact readsAs_spreadEntry h
  | arrowParams => exact readsAs_arrowParams h
  | arrowBody => exact readsAs_arrowBody h
  | objectKey => exact readsAs_objectKey h
  | functionParam => exact readsAs_functionParam h
  | namedFunctionParam => exact readsAs_namedFunctionParam h
  | restFunctionParam => exact readsAs_restFunctionParam h
  | objectType => exact readsAs_objectType h
  | exactObjectType => exact readsAs_exactObjectType h
  | objectProperty => exact readsAs_objectProperty h
  | methodProperty => exact readsAs_methodProperty h
  | spreadProperty => exact readsAs_spreadProperty h
  | objectIndexer => exact readsAs_objectIndexer h
  | callProperty => exact readsAs_callProperty h
  | classMember | anyParam => rcases h with h | h <;> exact h
  | objectEntry => rcases h with h | h | h <;> exact h
  | objectMember => rcases h with h | h | h | h | h <;> exact h
  | start | namedImports | typeParams | ascription | initializer | callArgs | typeArgs | block
  | blockItem => exact parses_iff.2 h
  | union | intersection | nullable | array | primary | parenType | arrowResult => cases hn
  | _ => exact h

end Construct

end PropTables
