import PropTables.Proofs.Ingredients
import PropTables.Proofs.Sentences
import PropTables.Proofs.SpelledTrees

/-! Every module that is read from a source is spelled: the annotations in it are types that can be
written, and the names that it binds are names. There is one lemma for each construct, from the
constructs that it is made of. -/

namespace PropTables

open Spelling
open Phrase (madeOf_call madeOf_keyword madeOf_listOrNone madeOf_many madeOf_map madeOf_mark madeOf_maybe
  madeOf_orElse madeOf_present madeOf_seq madeOf_seqLeft madeOf_seqRight madeOf_spanned madeOf_token)

namespace Construct

def Spelled (names : CharacterNames) : Meaning Construct
  | _, start, v => ∀ b ∈ v, b.Gives names (Item.Spelled names)
  | _, item, v | _, importDecl, v | _, exportDecl, v | _, assignment, v | _, callStatement, v =>
    v.Gives names (Item.Spelled names)
  | _, importClause, v | _, namedImports, v | _, namespaceImport, v => ∀ i ∈ v, i.Spelled
  | _, importDefault, v | _, importSpec, v => v.Spelled
  | _, defaultValue, v => v.Gives names (DefaultExport.Spelled names)
  | _, exportClause, v => ∀ s ∈ v, IsName s.exported
  | _, exportSpec, v => IsName v.exported
  | _, declaration, v => v.Gives names (Declaration.Spelled names)
  | _, typeAlias, v => v.Gives names (TypeAlias.Spelled names)
  | _, interfaceDecl, v => v.Gives names (InterfaceDeclaration.Spelled names)
  | _, classDecl, v => v.Spelled names
  | _, heritage, v => v.1.Spelled names ∧ ∀ ts ∈ v.2, ∀ t ∈ ts, t.Spelled names
  | _, functionDecl, v => v.Gives names (FunctionDeclaration.Spelled names)
  | _, variableDecl, v => v.Gives names fun x => Declaration.Spelled names (.binding x)
  | _, declarator, v => v.Gives names (VariableDeclarator.Spelled names)
  | _, ascription, v => v.Spelled names
  | _, classBody, v => ∀ b ∈ v, b.Gives names (ClassMember.Spelled names)
  | _, classMember, v | _, classProperty, v | _, classMethod, v =>
    v.Gives names (ClassMember.Spelled names)
  | _, params, v | _, arrowParams, v => ∀ p ∈ v, p.Spelled names
  | _, anyParam, v | _, param, v | _, restParam, v => v.Spelled names
  | _, initializer, v | _, expr, v | _, objectExpr, v | _, arrayExpr, v | _, arrowExpr, v =>
    v.Gives names (Expr.Spelled names)
  | _, callExpr, v => ∀ c ∈ v.2.calls, ∀ e ∈ c.2, e.Gives names (Expr.Spelled names)
  | _, callArgs, v => ∀ e ∈ v.2, e.Gives names (Expr.Spelled names)
  | _, args, v => ∀ e ∈ v, e.Gives names (Expr.Spelled names)
  | _, objectEntry, v | _, keyedEntry, v | _, shorthand, v | _, spreadEntry, v =>
    v.Gives names (ObjectEntry.Spelled names)
  | _, type, v | _, union, v | _, intersection, v | _, nullable, v | _, array, v | _, primary, v
  | _, genericType, v | _, tupleType, v | _, parenType, v | _, arrowResult, v => v.Spelled names
  | _, typeArgs, v => ∀ t ∈ v, t.Spelled names
  | _, functionParams, v => ∀ p ∈ v, p.Spelled names
  | _, functionParam, v | _, namedFunctionParam, v | _, restFunctionParam, v => v.Spelled names
  | _, objectType, v | _, exactObjectType, v => ∀ m ∈ v.members, m.2.Spelled names
  | _, objectMembers, v => ∀ m ∈ v, m.2.Spelled names
  | _, objectMember, v | _, objectProperty, v | _, methodProperty, v | _, spreadProperty, v
  | _, objectIndexer, v | _, callProperty, v => v.Spelled names
  | _, objectKey, t => t.IsKey
  | _, name, t | _, importName, t => t.IsWord
  | _, _, _ => True

variable {names : CharacterNames} {α : Type}

def IsSpelled (names : CharacterNames) (n : Construct α) : Prop :=
  ∀ v, (rule n).MadeOf Token.StandsAlone (Spelled names) v → Spelled names n v

theorem spelled_getD {P : α → Prop} {x : Option (List α)} (h : ∀ xs ∈ x, ∀ y ∈ xs, P y) :
    ∀ y ∈ x.getD [], P y := by
  cases x with
  | none => exact nofun
  | some xs => exact h xs rfl

theorem isToken_of_name {t : Token} (h : t.terminal = .name ∧ t.StandsAlone) :
    IsToken .name t.text :=
  h.2.isToken h.1

theorem isName_of_name {t : Token} (h : t.terminal = .name ∧ t.StandsAlone) : IsName t.text :=
  isName_of_isToken (isToken_of_name h)

section Declarations

theorem isSpelled_item : item.IsSpelled names := by
  intro v h
  simp at h
  rcases h with h | h | ⟨d, h, rfl⟩ | h | h
  · exact h
  · exact h
  · exact ItemTree.spelled_declaration h
  · exact h
  · exact h

theorem isSpelled_importDecl : importDecl.IsSpelled names := by
  intro v h
  simp only [rule, string, semicolon, madeOf_orElse, madeOf_seqLeft, madeOf_seq, madeOf_map,
    madeOf_keyword, List.mem_singleton, madeOf_maybe, Option.mem_def, madeOf_call, exists_and_left,
    ↓existsAndEq, and_true, madeOf_seqRight, madeOf_token, madeOf_mark] at h
  rcases h with ⟨⟨word, kind, specifiers, ⟨-, h⟩, source, -, rfl⟩, -⟩ | ⟨⟨word, -, source, -, rfl⟩, -⟩
  · exact ImportTree.spelled_all h
  · exact ImportTree.spelled_all (List.forall_mem_nil _)

theorem isSpelled_importClause : importClause.IsSpelled names := by
  intro v h
  simp at h
  rcases h with ⟨first, hfirst, more, hmore, rfl⟩ | h | h
  · refine List.forall_mem_cons.2 ⟨hfirst, spelled_getD fun xs hxs => ?_⟩
    exact (hmore xs hxs).2.elim id id
  · exact h
  · exact h

theorem isSpelled_importDefault : importDefault.IsSpelled names := by
  intro v h
  simp at h
  obtain ⟨n, h, rfl⟩ := h
  exact isName_of_name h

theorem isSpelled_namedImports : namedImports.IsSpelled names := by
  intro v h
  simp at h
  exact h.1.2

theorem isSpelled_importSpec : importSpec.IsSpelled names := by
  intro v h
  simp only [rule, identifier, madeOf_map, madeOf_spanned, madeOf_seq, madeOf_maybe, Option.mem_def,
    madeOf_call, exists_and_left, ↓existsAndEq, and_true, madeOf_seqRight, madeOf_keyword,
    List.mem_singleton, madeOf_token, Prod.exists, Prod.mk.injEq, true_and, exists_eq_right_right'] at h
  obtain ⟨extent, kind, imported, renamed, ⟨⟨-, himported⟩, hrenamed⟩, rfl⟩ := h
  exact ⟨himported.isName, fun t ht => isName_of_name (hrenamed t ht).2⟩

theorem isSpelled_importName : importName.IsSpelled names := by
  intro v h
  simp at h
  refine ⟨?_, h.2⟩
  rcases h.1 with hk | hk <;> rw [hk] <;> rfl

theorem isSpelled_namespaceImport : namespaceImport.IsSpelled names := by
  intro v h
  simp at h
  obtain ⟨n, h, rfl⟩ := h
  exact List.forall_mem_singleton.2 (isName_of_name h.2)

theorem isSpelled_exportDecl : exportDecl.IsSpelled names := by
  intro v h
  simp only [rule, semicolon, string, madeOf_orElse, madeOf_seqLeft, madeOf_seq, madeOf_map,
    madeOf_keyword, List.mem_singleton, madeOf_seqRight, madeOf_call, exists_and_left, ↓existsAndEq,
    and_true, madeOf_maybe, Option.mem_def, madeOf_mark, madeOf_token, madeOf_present] at h
  rcases h with ⟨⟨word, -, d, ⟨-, h⟩, rfl⟩, -⟩ | ⟨⟨word, -, source, -, rfl⟩, -⟩ |
    ⟨word, -, d, h, rfl⟩ | ⟨⟨word, types, specifiers, ⟨-, h⟩, source, -, rfl⟩, -⟩
  · exact ItemTree.spelled_exportedDefault h
  · exact ItemTree.spelled_exportedAll _ _
  · exact ItemTree.spelled_exported h
  · exact ExportClauseTree.spelled_build h

theorem isSpelled_defaultValue : defaultValue.IsSpelled names := by
  intro v h
  simp [-bind_pure_comp] at h
  rcases h with ⟨c, h, rfl⟩ | ⟨f, h, rfl⟩ | ⟨e, h, rfl⟩
  · exact (ClassTree.Spelled.build h).map fun _ hx => hx
  · exact Build.Gives.map h fun _ hx => hx
  · exact Build.Gives.map h fun _ hx => hx

theorem isSpelled_exportClause : exportClause.IsSpelled names := by
  intro v h
  simp at h
  exact h.1.2

theorem isSpelled_exportSpec : exportSpec.IsSpelled names := by
  intro v h
  simp at h
  obtain ⟨inner, hinner, exported, hexported, rfl⟩ := h
  cases exported with
  | none => exact Token.IsWord.isName hinner
  | some t => exact Token.IsWord.isName (hexported t rfl).2

theorem isSpelled_declaration : declaration.IsSpelled names := by
  intro v h
  simp [-bind_pure_comp] at h
  rcases h with ⟨a, h, rfl⟩ | ⟨i, h, rfl⟩ | ⟨c, h, rfl⟩ | ⟨f, h, rfl⟩ | ⟨x, h, rfl⟩
  · exact Build.Gives.map h fun _ hx => TypeAlias.Spelled.declaration hx
  · exact Build.Gives.map h fun _ hx => InterfaceDeclaration.Spelled.declaration hx
  · exact (ClassTree.Spelled.buildNamed h).map fun _ hx => hx.declaration
  · exact Build.Gives.map h fun _ hx => FunctionDeclaration.Spelled.declaration hx
  · exact Build.Gives.map h fun _ hx => hx

theorem isSpelled_typeAlias : typeAlias.IsSpelled names := by
  intro v h
  simp only [rule, identifier, orNone, semicolon, madeOf_seqLeft, madeOf_seq, madeOf_map, madeOf_keyword,
    List.mem_singleton, madeOf_token, exists_and_left, ↓existsAndEq, and_true, madeOf_maybe,
    Option.mem_def, madeOf_call, madeOf_seqRight, madeOf_mark] at h
  obtain ⟨⟨word, n, params, ⟨⟨-, hname⟩, -⟩, right, ⟨-, hright⟩, rfl⟩, -⟩ := h
  exact AliasTree.spelled_build (isName_of_name hname) hright

theorem isSpelled_interfaceDecl : interfaceDecl.IsSpelled names := by
  intro v h
  simp only [rule, identifier, orNone, madeOf_seq, madeOf_map, madeOf_keyword, List.mem_singleton,
    madeOf_token, exists_and_left, ↓existsAndEq, and_true, madeOf_maybe, Option.mem_def, madeOf_call] at h
  obtain ⟨word, n, params, ⟨⟨-, hname⟩, -⟩, body, hbody, rfl⟩ := h
  exact spelled_interface (isName_of_name hname) hbody

theorem isSpelled_classDecl : classDecl.IsSpelled names := by
  intro v h
  simp only [rule, identifier, orNone, madeOf_seq, madeOf_map, madeOf_keyword, List.mem_singleton,
    madeOf_maybe, Option.mem_def, madeOf_token, exists_and_left, ↓existsAndEq, and_true, madeOf_call,
    madeOf_seqRight, Prod.forall] at h
  obtain ⟨word, n, params, superclass, ⟨⟨⟨-, hname⟩, -⟩, hsuper⟩, body, hbody, rfl⟩ := h
  exact ⟨fun t ht => isName_of_name (hname t ht), fun s hs => (hsuper s.1 s.2 hs).2, hbody⟩

theorem isSpelled_heritage : heritage.IsSpelled names := by
  intro v h
  simp only [rule, madeOf_seq, madeOf_map, madeOf_call, Prod.exists, madeOf_maybe, Option.mem_def,
    exists_and_left, ↓existsAndEq, and_true] at h
  obtain ⟨head, attrs, -, args, hargs, rfl⟩ := h
  exact ⟨PathTree.spelled_dotted head attrs, hargs⟩

theorem isSpelled_functionDecl : functionDecl.IsSpelled names := by
  intro v h
  simp only [rule, identifier, orNone, parameters, inParens, madeOf_seq, madeOf_map, madeOf_keyword,
    List.mem_singleton, madeOf_token, exists_and_left, ↓existsAndEq, and_true, madeOf_maybe,
    Option.mem_def, madeOf_call, exists_and_right, madeOf_seqLeft, madeOf_seqRight, madeOf_mark] at h
  obtain ⟨word, n, params, result, ⟨⟨⟨⟨-, hname⟩, -⟩, ⟨-, hparams⟩, -⟩, hresult⟩, -, rfl⟩ := h
  exact spelled_functionDeclaration (isName_of_name hname) (spelled_getD hparams) hresult

theorem isSpelled_variableDecl : variableDecl.IsSpelled names := by
  intro v h
  simp only [rule, comma, semicolon, madeOf_seqLeft, madeOf_seq, madeOf_map, madeOf_token,
    List.mem_singleton, madeOf_call, exists_and_left, ↓existsAndEq, and_true, madeOf_many,
    madeOf_seqRight, madeOf_mark, madeOf_maybe, Option.mem_def] at h
  obtain ⟨⟨word, first, ⟨-, hfirst⟩, others, hothers, rfl⟩, -⟩ := h
  exact spelled_variables (List.forall_mem_cons.2 ⟨hfirst, fun d hd => (hothers d hd).2⟩)

theorem isSpelled_declarator : declarator.IsSpelled names := by
  intro v h
  simp only [rule, identifier, madeOf_seq, madeOf_map, madeOf_token, List.mem_singleton, madeOf_maybe,
    Option.mem_def, madeOf_call, exists_and_left, ↓existsAndEq, and_true] at h
  obtain ⟨n, ascription, ⟨hname, hascription⟩, init, hinit, rfl⟩ := h
  exact spelled_declarator (isName_of_name hname) hascription hinit

theorem isSpelled_ascription : ascription.IsSpelled names := by
  intro v h
  simp at h
  obtain ⟨colon, -, type, h, rfl⟩ := h
  exact h

theorem isSpelled_initializer : initializer.IsSpelled names := by
  intro v h
  simp at h
  exact h.2

theorem isSpelled_classBody : classBody.IsSpelled names := by
  intro v h
  simp at h
  exact h.1.2

theorem isSpelled_classMember : classMember.IsSpelled names := by
  intro v h
  simp at h
  exact h.elim id id

theorem isSpelled_classProperty : classProperty.IsSpelled names := by
  intro v h
  simp only [rule, located, semicolon, madeOf_map, madeOf_spanned, madeOf_seqLeft, madeOf_seq,
    madeOf_present, madeOf_keyword, List.mem_singleton, madeOf_call, exists_and_left, ↓existsAndEq,
    and_true, madeOf_mark, madeOf_maybe, Option.mem_def, Prod.exists] at h
  obtain ⟨extent, isStatic, key, optional, ascription, init, ⟨⟨⟨-, hascription⟩, hinit⟩, -⟩, rfl⟩ := h
  exact ClassTree.spelled_property hascription hinit

theorem isSpelled_classMethod : classMethod.IsSpelled names := by
  intro v h
  simp only [rule, located, parameters, inParens, orNone, madeOf_map, madeOf_spanned, madeOf_seq,
    madeOf_present, madeOf_keyword, List.mem_singleton, madeOf_call, exists_and_left, ↓existsAndEq,
    and_true, madeOf_maybe, Option.mem_def, exists_and_right, madeOf_seqLeft, madeOf_seqRight,
    madeOf_mark, Prod.exists] at h
  obtain ⟨extent, isStatic, key, params, result, ⟨⟨⟨-, ⟨-, hparams⟩, -⟩, hresult⟩, -⟩, rfl⟩ := h
  exact ClassTree.spelled_method (spelled_getD hparams) hresult

theorem isSpelled_anyParam : anyParam.IsSpelled names := by
  intro v h
  simp at h
  exact h.elim id id

theorem spelled_types {a : Option AscriptionTree} (h : ∀ x ∈ a, x.Spelled names) :
    ∀ t ∈ a.map AscriptionTree.type, t.Spelled names := by
  intro t ht
  obtain ⟨x, hx, rfl⟩ := Option.map_eq_some_iff.1 ht
  exact h x hx

theorem isSpelled_param : param.IsSpelled names := by
  intro v h
  simp only [rule, located, madeOf_map, madeOf_spanned, madeOf_seq, madeOf_call, madeOf_present,
    madeOf_mark, List.mem_singleton, exists_and_left, ↓existsAndEq, and_true, madeOf_maybe,
    Option.mem_def, exists_and_right, Prod.exists] at h
  obtain ⟨extent, n, optional, ascription, ⟨⟨-, hascription⟩, -⟩, rfl⟩ := h
  exact spelled_types hascription

theorem isSpelled_restParam : restParam.IsSpelled names := by
  intro v h
  simp only [rule, located, identifier, madeOf_map, madeOf_spanned, madeOf_seq, madeOf_seqRight,
    madeOf_mark, List.mem_singleton, madeOf_token, madeOf_maybe, Option.mem_def, madeOf_call,
    exists_and_left, ↓existsAndEq, and_true, Prod.exists] at h
  obtain ⟨extent, n, ascription, ⟨-, hascription⟩, rfl⟩ := h
  exact spelled_types hascription

end Declarations

section Expressions

theorem isSpelled_assignment : assignment.IsSpelled names := by
  intro v h
  simp only [rule, semicolon, madeOf_seqLeft, madeOf_seq, madeOf_map, madeOf_call, Prod.exists,
    madeOf_seqRight, madeOf_mark, List.mem_singleton, exists_and_left, ↓existsAndEq, and_true,
    madeOf_maybe, Option.mem_def] at h
  obtain ⟨⟨head, attrs, -, value, ⟨-, hvalue⟩, rfl⟩, -⟩ := h
  exact ItemTree.spelled_assignment hvalue

theorem isSpelled_callStatement : callStatement.IsSpelled names := by
  intro v h
  simp at h
  obtain ⟨⟨head, path, h, rfl⟩, -⟩ := h
  exact ItemTree.spelled_call h

theorem isSpelled_expr : expr.IsSpelled names := by
  intro v h
  simp at h
  rcases h with ⟨t, -, rfl⟩ | ⟨t, -, rfl⟩ | ⟨t, -, rfl⟩ | ⟨head, attrs, -, rfl⟩ | ⟨head, path, h, rfl⟩ |
    h | h | h
  · exact ExprTree.spelled_string t
  · exact ExprTree.spelled_number t
  · exact ExprTree.spelled_template t
  · exact .pure (PathTree.spelled_dotted head attrs)
  · exact PathTree.spelled_build h
  all_goals exact h

theorem isSpelled_callExpr : callExpr.IsSpelled names := by
  intro v h
  simp only [rule, madeOf_seq, madeOf_map, madeOf_call, Prod.exists, exists_and_left, ↓existsAndEq,
    and_true, madeOf_many, Prod.forall] at h
  obtain ⟨head, attrs, loc, args, ⟨-, hfirst⟩, others, hothers, rfl⟩ := h
  exact List.forall_mem_cons.2 ⟨hfirst, fun c hc => hothers c.1 c.2 hc⟩

theorem isSpelled_callArgs : callArgs.IsSpelled names := by
  intro v h
  simp only [rule, orNone, madeOf_seqLeft, madeOf_seq, madeOf_map, madeOf_mark, List.mem_singleton,
    madeOf_maybe, Option.mem_def, madeOf_call, exists_and_left, ↓existsAndEq, and_true] at h
  obtain ⟨⟨t, -, args, h, rfl⟩, -⟩ := h
  exact spelled_getD h

theorem isSpelled_objectExpr : objectExpr.IsSpelled names := by
  intro v h
  simp only [rule, comma, madeOf_seqLeft, madeOf_seq, madeOf_map, madeOf_mark, List.mem_singleton,
    madeOf_listOrNone, madeOf_call, exists_and_left, ↓existsAndEq, and_true] at h
  obtain ⟨⟨t, -, entries, h, rfl⟩, -⟩ := h
  exact ExprTree.spelled_object h

theorem isSpelled_objectEntry : objectEntry.IsSpelled names := by
  intro v h
  simp at h
  rcases h with h | h | h <;> exact h

theorem isSpelled_keyedEntry : keyedEntry.IsSpelled names := by
  intro v h
  simp at h
  obtain ⟨key, -, value, ⟨-, h⟩, rfl⟩ := h
  exact ExprTree.spelled_entry h

theorem isSpelled_shorthand : shorthand.IsSpelled names := by
  intro v h
  simp at h
  obtain ⟨n, -, rfl⟩ := h
  exact ExprTree.spelled_shorthand n

theorem isSpelled_spreadEntry : spreadEntry.IsSpelled names := by
  intro v h
  simp at h
  obtain ⟨t, -, value, h, rfl⟩ := h
  exact ExprTree.spelled_spread h

theorem isSpelled_arrayExpr : arrayExpr.IsSpelled names := by
  intro v h
  simp at h
  obtain ⟨⟨t, -, items, h, rfl⟩, -⟩ := h
  exact ExprTree.spelled_array (spelled_getD h)

theorem isSpelled_arrowExpr : arrowExpr.IsSpelled names := by
  intro v h
  simp only [rule, located, madeOf_map, madeOf_spanned, madeOf_seq, madeOf_call, madeOf_seqRight,
    madeOf_mark, List.mem_singleton, exists_and_left, ↓existsAndEq, and_true, exists_and_right,
    Prod.exists] at h
  obtain ⟨extent, params, ⟨h, -⟩, rfl⟩ := h
  exact ExprTree.spelled_arrow h

theorem isSpelled_arrowParams : arrowParams.IsSpelled names := by
  intro v h
  simp at h
  rcases h with ⟨n, -, rfl⟩ | ⟨⟨-, params, h, rfl⟩, -⟩
  · exact List.forall_mem_singleton.2 nofun
  · exact spelled_getD h

end Expressions

section Types

theorem isSpelled_union : union.IsSpelled names := by
  intro v h
  simp at h
  obtain ⟨extent, first, others, ⟨⟨-, hfirst⟩, hothers⟩, rfl⟩ := h
  exact TypeTree.spelled_joined (fun _ hlen h => .union hlen h) (List.cons_ne_nil _ _)
    (List.forall_mem_cons.2 ⟨hfirst, fun t ht => (hothers t ht).2⟩)

theorem isSpelled_intersection : intersection.IsSpelled names := by
  intro v h
  simp at h
  obtain ⟨extent, first, others, ⟨⟨-, hfirst⟩, hothers⟩, rfl⟩ := h
  exact TypeTree.spelled_joined (fun _ hlen h => .intersection hlen h) (List.cons_ne_nil _ _)
    (List.forall_mem_cons.2 ⟨hfirst, fun t ht => (hothers t ht).2⟩)

theorem isSpelled_nullable : nullable.IsSpelled names := by
  intro v h
  simp at h
  rcases h with ⟨q, -, t, h, rfl⟩ | h
  · exact TypeTree.Spelled.nullable h
  · exact h

theorem isSpelled_array : array.IsSpelled names := by
  intro v h
  simp at h
  rcases h with h | ⟨⟨⟨t, h, rfl⟩, -⟩, -⟩
  · exact h
  · exact TypeTree.Spelled.array h

theorem isSpelled_primary : primary.IsSpelled names := by
  intro v h
  simp at h
  rcases h with h | ⟨o, h, rfl⟩ | ⟨o, h, rfl⟩ | h | h | ⟨t, h, rfl⟩ | ⟨t, h, rfl⟩
  · exact h
  · exact ObjectTree.spelled_tree h
  · exact ObjectTree.spelled_tree h
  · exact h
  · exact h
  · exact TypeTree.spelled_string (h.2.isToken h.1)
  · exact TypeTree.spelled_number (h.2.isToken h.1)

theorem isSpelled_genericType : genericType.IsSpelled names := by
  intro v h
  simp at h
  obtain ⟨n, path, ⟨hname, hpath⟩, args, hargs, rfl⟩ := h
  exact TypeTree.spelled_reference (isToken_of_name hname)
    (fun p hp => isToken_of_name (hpath p hp).2) hargs

theorem isSpelled_typeArgs : typeArgs.IsSpelled names := by
  intro v h
  simp at h
  exact h.1.2

theorem isSpelled_tupleType : tupleType.IsSpelled names := by
  intro v h
  simp [-bind_pure_comp] at h
  obtain ⟨⟨t, -, elements, h, rfl⟩, -⟩ := h
  exact TypeTree.spelled_tuple h

theorem isSpelled_parenType : parenType.IsSpelled names := by
  intro v h
  simp only [rule, orNone, madeOf_seq, madeOf_seqLeft, madeOf_map, madeOf_mark, List.mem_singleton,
    madeOf_maybe, Option.mem_def, madeOf_call, exists_and_left, ↓existsAndEq, and_true, madeOf_seqRight] at h
  obtain ⟨t, params, ⟨⟨-, hparams⟩, -⟩, result, hresult, rfl⟩ := h
  exact TypeTree.spelled_parenthesised (spelled_getD hparams) fun r hr => (hresult r hr).2

theorem isSpelled_functionParam : functionParam.IsSpelled names := by
  intro v h
  simp at h
  rcases h with h | h | ⟨t, h, rfl⟩
  · exact h
  · exact h
  · exact ⟨nofun, nofun, h⟩

theorem isSpelled_namedFunctionParam : namedFunctionParam.IsSpelled names := by
  intro v h
  simp only [rule, located, identifier, typed, colon, madeOf_map, madeOf_spanned, madeOf_seq,
    madeOf_token, List.mem_singleton, madeOf_present, madeOf_mark, exists_and_left, ↓existsAndEq,
    and_true, madeOf_seqRight, madeOf_call, Prod.exists] at h
  obtain ⟨extent, n, optional, t, ⟨⟨hname, -⟩, -, htype⟩, rfl⟩ := h
  exact ⟨fun t ht => Option.mem_some_iff.1 ht ▸ isToken_of_name hname, fun _ => ⟨rfl, rfl⟩, htype⟩

theorem isSpelled_restFunctionParam : restFunctionParam.IsSpelled names := by
  intro v h
  simp only [rule, located, label, identifier, colon, madeOf_map, madeOf_spanned, madeOf_seq,
    madeOf_seqRight, madeOf_mark, List.mem_singleton, madeOf_maybe, Option.mem_def, madeOf_seqLeft,
    madeOf_token, madeOf_call, exists_and_left, ↓existsAndEq, and_true, Prod.exists] at h
  obtain ⟨extent, label, t, ⟨⟨-, hlabel⟩, htype⟩, rfl⟩ := h
  exact ⟨fun t ht => isToken_of_name (hlabel t ht).1, fun h => absurd h Bool.false_ne_true, htype⟩

theorem isSpelled_objectType : objectType.IsSpelled names := by
  intro v h
  simp at h
  obtain ⟨extent, members, ⟨⟨-, h⟩, -⟩, rfl⟩ := h
  exact spelled_getD h

theorem isSpelled_exactObjectType : exactObjectType.IsSpelled names := by
  intro v h
  simp at h
  obtain ⟨extent, members, ⟨⟨-, h⟩, -⟩, rfl⟩ := h
  exact spelled_getD h

theorem isSpelled_objectMember : objectMember.IsSpelled names := by
  intro v h
  simp at h
  rcases h with h | h | h | h | h <;> exact h

theorem isSpelled_objectProperty : objectProperty.IsSpelled names := by
  intro v h
  simp [-Bool.exists_bool] at h
  obtain ⟨key, optional, ⟨hkey, -⟩, value, ⟨-, hvalue⟩, rfl⟩ := h
  exact ⟨hkey, hvalue⟩

theorem isSpelled_methodProperty : methodProperty.IsSpelled names := by
  intro v h
  simp only [rule, functionParameters, inParens, orNone, typed, colon, madeOf_seq, madeOf_map,
    madeOf_call, madeOf_seqLeft, madeOf_seqRight, madeOf_mark, List.mem_singleton, madeOf_maybe,
    Option.mem_def, exists_and_left, ↓existsAndEq, and_true] at h
  obtain ⟨key, params, ⟨hkey, ⟨-, hparams⟩, -⟩, result, ⟨-, hresult⟩, rfl⟩ := h
  exact ⟨hkey, spelled_getD hparams, hresult⟩

theorem isSpelled_spreadProperty : spreadProperty.IsSpelled names := by
  intro v h
  simp at h
  obtain ⟨t, ⟨-, h⟩, rfl⟩ := h
  exact h

theorem isSpelled_objectIndexer : objectIndexer.IsSpelled names := by
  intro v h
  simp at h
  obtain ⟨label, key, ⟨⟨-, hlabel⟩, hkey, -⟩, value, ⟨-, hvalue⟩, rfl⟩ := h
  exact ⟨fun t ht => isToken_of_name (hlabel t ht).1, hkey, hvalue⟩

theorem isSpelled_callProperty : callProperty.IsSpelled names := by
  intro v h
  simp at h
  obtain ⟨params, ⟨⟨-, hparams⟩, -⟩, result, ⟨-, hresult⟩, rfl⟩ := h
  exact ⟨spelled_getD hparams, hresult⟩

theorem isSpelled_objectKey : objectKey.IsSpelled names := by
  intro v h
  simp at h
  rcases h with h | h
  · exact ⟨.inr h.1, h.2⟩
  · exact ⟨.inl h.1, h.2⟩

theorem isSpelled_name : name.IsSpelled names := by
  intro v h
  simp at h
  have word : ∀ k ∈ Language.words, k.isWord = true := by decide
  exact ⟨word _ h.1, h.2⟩

end Types

theorem isSpelled_all (n : Construct α) : n.IsSpelled names := by
  cases n with
  | item => exact isSpelled_item
  | importDecl => exact isSpelled_importDecl
  | importClause => exact isSpelled_importClause
  | importDefault => exact isSpelled_importDefault
  | namedImports => exact isSpelled_namedImports
  | importSpec => exact isSpelled_importSpec
  | importName => exact isSpelled_importName
  | namespaceImport => exact isSpelled_namespaceImport
  | exportDecl => exact isSpelled_exportDecl
  | defaultValue => exact isSpelled_defaultValue
  | exportClause => exact isSpelled_exportClause
  | exportSpec => exact isSpelled_exportSpec
  | declaration => exact isSpelled_declaration
  | typeAlias => exact isSpelled_typeAlias
  | interfaceDecl => exact isSpelled_interfaceDecl
  | classDecl => exact isSpelled_classDecl
  | heritage => exact isSpelled_heritage
  | functionDecl => exact isSpelled_functionDecl
  | variableDecl => exact isSpelled_variableDecl
  | declarator => exact isSpelled_declarator
  | ascription => exact isSpelled_ascription
  | initializer => exact isSpelled_initializer
  | classBody => exact isSpelled_classBody
  | classMember => exact isSpelled_classMember
  | classProperty => exact isSpelled_classProperty
  | classMethod => exact isSpelled_classMethod
  | anyParam => exact isSpelled_anyParam
  | param => exact isSpelled_param
  | restParam => exact isSpelled_restParam
  | assignment => exact isSpelled_assignment
  | callStatement => exact isSpelled_callStatement
  | expr => exact isSpelled_expr
  | callExpr => exact isSpelled_callExpr
  | callArgs => exact isSpelled_callArgs
  | objectExpr => exact isSpelled_objectExpr
  | objectEntry => exact isSpelled_objectEntry
  | keyedEntry => exact isSpelled_keyedEntry
  | shorthand => exact isSpelled_shorthand
  | spreadEntry => exact isSpelled_spreadEntry
  | arrayExpr => exact isSpelled_arrayExpr
  | arrowExpr => exact isSpelled_arrowExpr
  | arrowParams => exact isSpelled_arrowParams
  | union => exact isSpelled_union
  | intersection => exact isSpelled_intersection
  | nullable => exact isSpelled_nullable
  | array => exact isSpelled_array
  | primary => exact isSpelled_primary
  | genericType => exact isSpelled_genericType
  | typeArgs => exact isSpelled_typeArgs
  | tupleType => exact isSpelled_tupleType
  | parenType => exact isSpelled_parenType
  | functionParam => exact isSpelled_functionParam
  | namedFunctionParam => exact isSpelled_namedFunctionParam
  | restFunctionParam => exact isSpelled_restFunctionParam
  | objectType => exact isSpelled_objectType
  | exactObjectType => exact isSpelled_exactObjectType
  | objectMember => exact isSpelled_objectMember
  | objectProperty => exact isSpelled_objectProperty
  | methodProperty => exact isSpelled_methodProperty
  | spreadProperty => exact isSpelled_spreadProperty
  | objectIndexer => exact isSpelled_objectIndexer
  | callProperty => exact isSpelled_callProperty
  | objectKey => exact isSpelled_objectKey
  | name => exact isSpelled_name
  -- The others are another construct or a row of them, or nothing is asked of them.
  | start | params | args | type | arrowResult | functionParams | objectMembers => exact fun _ h => h
  | _ => exact fun _ _ => trivial

theorem Written.spelled {tokens : List Token} (hF : ∀ t ∈ tokens, t.StandsAlone) (n : Construct α) :
    Uses tokens (Written n) (Spelled names n) :=
  Rules.Derives.uses hF (fun _ n v h => isSpelled_all n v h) n

end Construct

theorem TypeExpr.Spelled.child {names : CharacterNames} {t u : TypeExpr} (h : t.Spelled names)
    (hu : t.Child u) : u.Spelled names := by
  cases hu with
  | param hp =>
    cases h with
    | function _ h _ => exact h _ hp
  | result =>
    cases h with
    | function _ _ hr => exact hr
  | nullable =>
    cases h with
    | nullable h => exact h
  | array =>
    cases h with
    | array h => exact h
  | tuple ht =>
    cases h with
    | tuple h => exact h _ ht
  | property hp =>
    cases h with
    | object _ hmembers => exact hmembers _ hp
  | spread hp =>
    cases h with
    | object _ hmembers => exact hmembers _ hp
  | indexerKey hi =>
    cases h with
    | object _ _ _ hkeys => exact hkeys _ hi
  | indexerValue hi =>
    cases h with
    | object _ _ _ _ hvalues => exact hvalues _ hi
  | callParam hk hp =>
    cases h with
    | object _ _ _ _ _ _ hparams => exact hparams _ hk _ hp
  | callResult hk =>
    cases h with
    | object _ _ _ _ _ _ _ hresults => exact hresults _ hk
  | argument ht =>
    cases h with
    | reference _ _ _ h => exact h _ ht
  | union ht =>
    cases h with
    | union _ h => exact h _ ht
  | intersection ht =>
    cases h with
    | intersection _ h => exact h _ ht

theorem TypeExpr.Spelled.within {names : CharacterNames} {t u : TypeExpr} (h : t.Spelled names)
    (hu : t.Within u) : u.Spelled names := by
  induction hu with
  | refl => exact h
  | tail _ hchild ih => exact ih.child hchild

def Referent.Spelled (names : CharacterNames) : Referent → Prop
  | .typeAlias a => a.right.Spelled names
  | .interface i => TypeExpr.Spelled names (.object i.body)
  | .class_ k => ∀ n ∈ k.name, IsName n
  | .import_ i => IsName i.binds
  | _ => True

namespace Module

def Spelled (names : CharacterNames) (m : Module) : Prop :=
  ∀ i ∈ m.items, i.Spelled names

variable {names : CharacterNames} {m : Module}

/-- Every module that is read from a source is like that. -/
theorem spelled_of_ofSource {source : String} {file : Option String}
    (h : ofSource names source file = .ok m) : m.Spelled names := by
  obtain ⟨-, -, items, ⟨last, hitems⟩, hrun⟩ := ofSource_eq_ok_iff.1 h
  have hspelled : Construct.Spelled names .start items :=
    (Construct.Written.spelled (fun _ => Lexing.standsAlone_of_mem_tokens) _ hitems
      (List.Subset.refl _)).2
  exact Build.Gives.all hspelled hrun

theorem Spelled.annotates {t : TypeExpr} (h : m.Spelled names) (ht : m.Annotates t) :
    t.Spelled names := by
  obtain ⟨i, hi, ⟨d, hd, ht⟩ | ⟨e, he, ht⟩⟩ := ht
  · exact (h i hi).declared d hd t ht
  · exact (h i hi).evaluated e he t ht

theorem Spelled.writes {t : TypeExpr} (h : m.Spelled names) (ht : m.Writes (.type t)) :
    t.Spelled names := by
  cases ht with
  | type ha hu => exact (h.annotates ha).within hu

theorem Spelled.isName_of_mem {name : String} {b : Binding} (h : m.Spelled names)
    (hb : (name, b) ∈ (Scope.ofModule m).base) : IsName name := by
  obtain ⟨e, he, heq⟩ := List.mem_map.1 hb
  cases heq
  obtain ⟨s, hs, he⟩ := List.mem_flatMap.1 he
  obtain ⟨i, hi, hs⟩ := List.mem_flatMap.1 hs
  exact (h i hi).binds s hs e he

theorem Spelled.referent {name : String} {b : Binding} (h : m.Spelled names)
    (hb : (name, b) ∈ (Scope.ofModule m).base) : b.referent.Spelled names := by
  have hbacks := backs_of_mem_ofModule hb
  have hname := Scope.name?_of_mem_ofModule hb
  obtain ⟨r, file⟩ := b
  cases r with
  | typeAlias => exact h.writes hbacks
  | interface => exact h.writes hbacks
  | class_ k => exact fun n hn => Option.some.inj (hn.symm.trans hname) ▸ h.isName_of_mem hb
  | import_ =>
    cases hname
    exact h.isName_of_mem hb
  | _ => trivial

end Module

end PropTables
