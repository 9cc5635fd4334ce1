import PropTables.Proofs.Echoes
import PropTables.Proofs.Rereading
import PropTables.Proofs.Sentences

/-! What is written as a construct of the grammar is, up to places and comments, the same for all tokens
with the same words. There is one lemma for each construct, from the constructs that it is made of. -/

namespace PropTables

open List (Forall₂)
open Phrase (matches_call matches_keyword matches_many matches_map matches_mark matches_maybe matches_orElse
  matches_present matches_seq matches_seqLeft matches_seqRight matches_spanned matches_token)

namespace Construct

def Echo : Matching Construct
  | _, start, v, w | _, classBody, v, w | _, args, v, w => Forall₂ Build.EchoedBy v w
  | _, item, v, w | _, importDecl, v, w | _, exportDecl, v, w | _, assignment, v, w
  | _, callStatement, v, w => Build.EchoedBy v w
  | _, defaultValue, v, w => v.EchoedBy w
  | _, declaration, v, w => v.EchoedBy w
  | _, typeAlias, v, w => v.EchoedBy w
  | _, interfaceDecl, v, w => v.EchoedBy w
  | _, functionDecl, v, w => v.EchoedBy w
  | _, variableDecl, v, w => v.EchoedBy w
  | _, declarator, v, w => v.EchoedBy w
  | _, classMember, v, w | _, classProperty, v, w | _, classMethod, v, w => v.EchoedBy w
  | _, objectEntry, v, w | _, keyedEntry, v, w | _, shorthand, v, w | _, spreadEntry, v, w =>
    v.EchoedBy w
  | _, initializer, v, w | _, expr, v, w | _, objectExpr, v, w | _, arrayExpr, v, w
  | _, arrowExpr, v, w => Build.EchoedBy v w
  | _, importKind, t, u | _, importName, t, u | _, objectKey, t, u | _, name, t, u
  | _, memberName, t, u | _, memberSeparator, t, u => t.word = u.word
  | _, importClause, v, w | _, namedImports, v, w | _, namespaceImport, v, w =>
    Forall₂ ImportTree.EchoedBy v w
  | _, importDefault, v, w | _, importSpec, v, w => v.EchoedBy w
  | _, exportClause, v, w => plain v = plain w
  | _, exportSpec, v, w => plain v = plain w
  | _, classDecl, v, w => v.EchoedBy w
  | _, heritage, v, w =>
    plain v.1 = plain w.1 ∧ Option.Rel (Forall₂ TypeTree.EchoedBy) v.2 w.2
  | _, typeParams, v, w => plain v = plain w
  | _, typeParam, v, w => plain v = plain w
  | _, ascription, v, w => v.EchoedBy w
  | _, params, v, w | _, arrowParams, v, w => Forall₂ ParamTree.EchoedBy v w
  | _, anyParam, v, w | _, param, v, w | _, restParam, v, w => v.EchoedBy w
  | _, paramTarget, v, w => v.map (·.text) = w.map (·.text)
  | _, memberExpr, v, w => v.1.word = w.1.word ∧ v.2.map (·.text) = w.2.map (·.text)
  | _, callExpr, v, w => v.1.word = w.1.word ∧ v.2.EchoedBy w.2
  | _, callArgs, v, w => Forall₂ Build.EchoedBy v.2 w.2
  | _, arrowBody, _, _ | _, block, _, _ | _, blockItem, _, _ => True
  | _, type, v, w | _, union, v, w | _, intersection, v, w | _, nullable, v, w | _, array, v, w
  | _, primary, v, w | _, genericType, v, w | _, tupleType, v, w | _, parenType, v, w
  | _, arrowResult, v, w => v.EchoedBy w
  | _, typeArgs, v, w => Forall₂ TypeTree.EchoedBy v w
  | _, functionParams, v, w => Forall₂ FunctionParamTree.EchoedBy v w
  | _, functionParam, v, w | _, namedFunctionParam, v, w | _, restFunctionParam, v, w =>
    v.EchoedBy w
  | _, objectType, v, w | _, exactObjectType, v, w => v.EchoedBy w
  | _, objectMembers, v, w => Forall₂ (fun m m' => m.2.EchoedBy m'.2) v w
  | _, objectMember, v, w | _, objectProperty, v, w | _, methodProperty, v, w
  | _, spreadProperty, v, w | _, objectIndexer, v, w | _, callProperty, v, w => v.EchoedBy w

variable {α : Type}

def Echoes (n : Construct α) : Prop :=
  ∀ ⦃v w⦄, (rule n).Matches Echo v w → Echo n v w

theorem map_eq_of_forall₂ {γ : Type} {R : α → α → Prop} {f : α → γ} {xs ys : List α}
    (h : Forall₂ R xs ys) (hf : ∀ ⦃x y⦄, R x y → f x = f y) : xs.map f = ys.map f := by
  induction h with
  | nil => rfl
  | cons hxy _ ih => rw [List.map_cons, List.map_cons, hf hxy, ih]

theorem map_eq_of_rel {γ : Type} {R : α → α → Prop} {f : α → γ} {x y : Option α}
    (h : Option.Rel R x y) (hf : ∀ ⦃x y⦄, R x y → f x = f y) : x.map f = y.map f := by
  cases h with
  | none => rfl
  | some hxy => exact congrArg some (hf hxy)

theorem plain_getD {γ : Type} [Plain γ] {x y : Option (List γ)}
    (h : Option.Rel (fun xs ys => plain xs = plain ys) x y) :
    plain (x.getD []) = plain (y.getD []) := by
  cases h with
  | none => rfl
  | some h => exact h

section Declarations

theorem echoes_item : item.Echoes := by
  intro v w h
  simp at h
  rcases h with h | h | ⟨_, _, h, rfl, rfl⟩ | h | h
  · exact h
  · exact h
  · exact Build.EchoedBy.map h fun _ _ hxy => congrArg (fun d => Item.statement (.declaration d)) hxy
  · exact h
  · exact h

theorem echoes_importDecl : importDecl.Echoes := by
  intro v w h
  simp only [rule, string, semicolon, matches_orElse, matches_seqLeft, matches_seq, matches_map,
    matches_keyword, matches_maybe, exists_and_left, ↓existsAndEq, and_true, matches_call,
    matches_seqRight, exists_apply_eq_apply', exists_const_iff, matches_token] at h
  rcases h with ⟨⟨_, _, _, _, _, _, ⟨⟨-, hkind⟩, hclause⟩, _, _, ⟨-, hsource⟩, rfl, rfl⟩, -⟩ |
    ⟨⟨_, _, -, _, _, hsource, rfl, rfl⟩, -⟩
  · exact ImportTree.echoedBy_all (map_eq_of_rel hkind fun _ _ h => h) hclause hsource
  · exact ImportTree.echoedBy_all rfl .nil hsource

theorem echoes_importClause : importClause.Echoes := by
  intro v w h
  simp only [rule, comma, matches_orElse, matches_seq, matches_map, matches_call, matches_maybe,
    exists_and_left, ↓existsAndEq, and_true] at h
  rcases h with ⟨_, _, hfirst, more, more', hmore, rfl, rfl⟩ | h
  · have hmore : Option.Rel (Forall₂ ImportTree.EchoedBy) more more' := by
      cases hmore with
      | none => exact .none
      | some h => exact .some (by simpa only [matches_orElse, matches_call, Echo, or_self] using (Phrase.matches_seqRight.1 h).2)
    exact .cons hfirst (forall₂_getD hmore)
  · simpa only [Echo, or_self] using h

theorem echoes_importDefault : importDefault.Echoes := by
  rintro v w ⟨_, _, h, rfl, rfl⟩
  exact h

theorem echoes_namedImports : namedImports.Echoes := by
  intro v w h
  simp at h
  exact h.1.2

theorem echoes_importSpec : importSpec.Echoes := by
  intro v w h
  simp only [rule, identifier, matches_map, matches_spanned, matches_seq, matches_maybe, matches_call,
    exists_and_left, ↓existsAndEq, and_true, Prod.exists, Prod.mk.injEq, true_and, exists_eq_right_right'] at h
  obtain ⟨_, _, _, _, _, _, _, _, ⟨⟨hkind, himported⟩, hrenamed⟩, rfl, rfl⟩ := h
  exact ⟨map_eq_of_rel hkind fun _ _ h => h, himported,
    map_eq_of_rel hrenamed fun _ _ h => Token.text_eq (Phrase.matches_seqRight.1 h).2⟩

theorem echoes_namespaceImport : namespaceImport.Echoes := by
  intro v w h
  simp at h
  obtain ⟨_, _, ⟨-, h⟩, rfl, rfl⟩ := h
  exact .cons h .nil

theorem echoes_exportDecl : exportDecl.Echoes := by
  intro v w h
  simp only [rule, semicolon, string, matches_orElse, matches_seqLeft, matches_seq, matches_map,
    matches_keyword, matches_seqRight, exists_apply_eq_apply', exists_const_iff, and_true, matches_call,
    exists_and_left, ↓existsAndEq, matches_maybe, matches_mark, and_self, matches_token, matches_present,
    true_and] at h
  rcases h with ⟨⟨_, _, -, _, _, ⟨-, h⟩, rfl, rfl⟩, -⟩ | ⟨⟨_, _, -, _, _, ⟨-, h⟩, rfl, rfl⟩, -⟩ |
    ⟨_, _, -, _, _, h, rfl, rfl⟩ | ⟨⟨_, _, _, _, _, ⟨-, h⟩, _, _, hsource, rfl, rfl⟩, -⟩
  · exact h.map fun x y hxy => congrArg (Item.exportDefault .first) hxy
  · refine (Build.stringValue_echoedBy h).map fun x y hxy => ?_
    exact congrArg (Item.exportAll .first) hxy
  · exact h.map fun x y hxy => congrArg (Item.exportDeclaration .first) hxy
  · exact ExportClauseTree.echoedBy h
      (map_eq_of_rel hsource fun _ _ h => (Phrase.matches_seqRight.1 h).2)

theorem echoes_defaultValue : defaultValue.Echoes := by
  intro v w h
  simp [-bind_pure_comp] at h
  rcases h with ⟨_, _, h, rfl, rfl⟩ | ⟨_, _, h, rfl, rfl⟩ | ⟨_, _, h, rfl, rfl⟩
  · exact h.build.map fun _ _ hxy => congrArg DefaultExport.class_ hxy
  · exact h.map fun _ _ hxy => congrArg DefaultExport.function hxy
  · exact h.map fun _ _ hxy => congrArg DefaultExport.expression hxy

theorem echoes_exportClause : exportClause.Echoes := by
  intro v w h
  simp at h
  exact map_eq_of_forall₂ h.1.2 fun _ _ h => h

theorem echoes_exportSpec : exportSpec.Echoes := by
  intro v w h
  simp at h
  obtain ⟨_, _, hinner, _, _, hexported, rfl, rfl⟩ := h
  exact ExportClauseTree.plain_specifier hinner
    (map_eq_of_rel hexported fun _ _ h => (Phrase.matches_seqRight.1 h).2)

theorem echoes_declaration : declaration.Echoes := by
  intro v w h
  simp only [rule, matches_orElse, matches_map, matches_call] at h
  rcases h with ⟨_, _, h, rfl, rfl⟩ | ⟨_, _, h, rfl, rfl⟩ | ⟨_, _, h, rfl, rfl⟩ |
    ⟨_, _, h, rfl, rfl⟩ | ⟨_, _, h, rfl, rfl⟩
  · exact h.map fun _ _ hxy => congrArg Declaration.typeAlias hxy
  · exact h.map fun _ _ hxy => congrArg Declaration.interface hxy
  · exact h.buildNamed.map fun _ _ hxy => congrArg Declaration.class_ hxy
  · exact h.map fun _ _ hxy => congrArg Declaration.function hxy
  · exact h.map fun _ _ hxy => congrArg Declaration.binding hxy

theorem echoes_typeAlias : typeAlias.Echoes := by
  intro v w h
  simp only [rule, identifier, orNone, semicolon, matches_seqLeft, matches_seq, matches_map,
    matches_keyword, matches_token, exists_and_left, ↓existsAndEq, and_true, matches_maybe,
    matches_seqRight, matches_mark, exists_apply_eq_apply', exists_const_iff, matches_call] at h
  obtain ⟨⟨_, _, _, _, _, _, ⟨⟨-, hname⟩, hparams⟩, _, _, ⟨-, hright⟩, rfl, rfl⟩, -⟩ := h
  exact echoedBy_alias hname (plain_getD hparams) hright

theorem echoes_interfaceDecl : interfaceDecl.Echoes := by
  intro v w h
  simp only [rule, identifier, orNone, matches_seq, matches_map, matches_keyword, matches_token,
    exists_and_left, ↓existsAndEq, and_true, matches_maybe, matches_call] at h
  obtain ⟨_, _, _, _, _, _, ⟨⟨-, hname⟩, hparams⟩, _, _, hbody, rfl, rfl⟩ := h
  exact echoedBy_interface hname (plain_getD hparams) hbody

theorem echoes_classDecl : classDecl.Echoes := by
  intro v w h
  simp only [rule, identifier, orNone, matches_seq, matches_map, matches_keyword, matches_maybe,
    exists_and_left, ↓existsAndEq, and_true, matches_call] at h
  obtain ⟨_, _, _, _, _, _, _, _, ⟨⟨⟨-, hname⟩, hparams⟩, hsuper⟩, _, _, hbody, rfl, rfl⟩ := h
  refine ⟨map_eq_of_rel hname fun _ _ h => Token.text_eq h, plain_getD hparams, ?_, ?_, hbody⟩
  · cases hsuper with
    | none => rfl
    | some h => exact congrArg some (Phrase.matches_seqRight.1 h).2.1
  · cases hsuper with
    | none => exact .none
    | some h => exact (Phrase.matches_seqRight.1 h).2.2

theorem echoes_heritage : heritage.Echoes := by
  intro v w h
  simp only [rule, matches_seq, matches_map, matches_call, Prod.exists, matches_maybe, exists_and_left,
    ↓existsAndEq, and_true] at h
  obtain ⟨_, _, _, _, ⟨hhead, hattrs⟩, _, _, hargs, rfl, rfl⟩ := h
  exact ⟨plain_dotted hhead hattrs, hargs⟩

theorem echoes_functionDecl : functionDecl.Echoes := by
  intro v w h
  simp only [rule, identifier, orNone, parameters, inParens, matches_seq, matches_map, matches_keyword,
    matches_token, exists_and_left, ↓existsAndEq, and_true, matches_maybe, exists_and_right,
    matches_seqLeft, matches_seqRight, matches_mark, exists_apply_eq_apply', exists_const_iff,
    matches_call] at h
  obtain ⟨_, _, _, _, _, _, _, _, ⟨⟨⟨⟨-, hname⟩, -⟩, ⟨-, hparams⟩, -⟩, hresult⟩, -, rfl, rfl⟩ := h
  exact echoedBy_functionDeclaration hname (forall₂_getD hparams) hresult

theorem echoes_variableDecl : variableDecl.Echoes := by
  intro v w h
  simp only [rule, comma, semicolon, matches_seqLeft, matches_seq, matches_map, matches_token,
    matches_call, exists_and_left, ↓existsAndEq, and_true, matches_many, matches_maybe] at h
  obtain ⟨⟨_, _, _, _, ⟨hword, hfirst⟩, _, _, hothers, rfl, rfl⟩, -⟩ := h
  exact echoedBy_variables hword
    (.cons hfirst (hothers.imp fun _ _ h => (Phrase.matches_seqRight.1 h).2))

theorem echoes_declarator : declarator.Echoes := by
  intro v w h
  simp only [rule, identifier, matches_seq, matches_map, matches_token, matches_maybe, exists_and_left,
    ↓existsAndEq, and_true] at h
  obtain ⟨_, _, _, _, ⟨hname, hascription⟩, _, _, hinit, rfl, rfl⟩ := h
  exact echoedBy_declarator hname hascription hinit

theorem echoes_typeParams : typeParams.Echoes := by
  intro v w h
  simp at h
  exact map_eq_of_forall₂ h.1.2 fun _ _ h => h

theorem echoes_typeParam : typeParam.Echoes := by
  rintro v w ⟨_, _, h, rfl, rfl⟩
  exact congrArg (TypeParameter.mk .first) (Token.text_eq h)

theorem echoes_ascription : ascription.Echoes := by
  intro v w h
  simp at h
  obtain ⟨_, _, -, _, _, h, rfl, rfl⟩ := h
  exact h

theorem echoes_initializer : initializer.Echoes := by
  intro v w h
  simp at h
  exact h.2

theorem echoes_classBody : classBody.Echoes := by
  intro v w h
  simp at h
  exact h.1.2

theorem echoes_classProperty : classProperty.Echoes := by
  intro v w h
  simp only [rule, located, semicolon, matches_map, matches_spanned, matches_seqLeft, matches_seq,
    matches_present, matches_keyword, exists_apply_eq_apply', exists_const_iff, and_true, ↓existsAndEq,
    true_and, matches_call, exists_and_left, matches_mark, matches_maybe, Prod.exists] at h
  obtain ⟨_, _, _, _, _, _, _, _, _, _, ⟨⟨⟨⟨⟨-, hkey⟩, -⟩, hascription⟩, hinit⟩, -⟩, rfl, rfl⟩ := h
  exact ClassTree.echoedBy_property hkey hascription hinit

theorem echoes_classMethod : classMethod.Echoes := by
  intro v w h
  simp only [rule, located, parameters, inParens, orNone, matches_map, matches_spanned, matches_seq,
    matches_present, matches_keyword, exists_apply_eq_apply', exists_const_iff, and_true, ↓existsAndEq,
    true_and, matches_call, exists_and_left, matches_maybe, exists_and_right, matches_seqLeft,
    matches_seqRight, matches_mark, Prod.exists] at h
  obtain ⟨_, _, _, _, _, _, _, _, _, ⟨⟨⟨⟨⟨-, hkey⟩, -⟩, ⟨-, hparams⟩, -⟩, hresult⟩, -⟩, rfl, rfl⟩ := h
  exact ClassTree.echoedBy_method hkey (forall₂_getD hparams) hresult

theorem rel_type {a a' : Option AscriptionTree} (h : Option.Rel AscriptionTree.EchoedBy a a') :
    Option.Rel TypeTree.EchoedBy (a.map AscriptionTree.type) (a'.map AscriptionTree.type) := by
  cases h with
  | none => exact .none
  | some h => exact .some h

theorem echoes_param : param.Echoes := by
  intro v w h
  simp only [rule, located, matches_map, matches_spanned, matches_seq, matches_call, matches_present,
    matches_mark, exists_apply_eq_apply', exists_const_iff, and_true, exists_and_left, ↓existsAndEq,
    true_and, matches_maybe, exists_and_right, Prod.exists] at h
  obtain ⟨_, _, _, _, _, _, _, ⟨⟨⟨hname, -⟩, hascription⟩, -⟩, rfl, rfl⟩ := h
  exact ⟨hname, rel_type hascription, rfl, rfl⟩

theorem echoes_restParam : restParam.Echoes := by
  intro v w h
  simp only [rule, located, identifier, matches_map, matches_spanned, matches_seq, matches_seqRight,
    matches_mark, exists_apply_eq_apply', exists_const_iff, and_true, matches_token, matches_maybe,
    exists_and_left, ↓existsAndEq, Prod.exists] at h
  obtain ⟨_, _, _, _, _, _, ⟨⟨-, hname⟩, hascription⟩, rfl, rfl⟩ := h
  exact ⟨congrArg some (Token.text_eq hname), rel_type hascription, rfl, rfl⟩

theorem echoes_paramTarget : paramTarget.Echoes := by
  intro v w h
  simp at h
  rcases h with ⟨_, _, h, rfl, rfl⟩ | ⟨-, rfl, rfl⟩
  · exact congrArg some (Token.text_eq h)
  · rfl

end Declarations

section Expressions

theorem echoes_assignment : assignment.Echoes := by
  intro v w h
  simp only [rule, semicolon, matches_seqLeft, matches_seq, matches_map, matches_call, Prod.exists,
    matches_seqRight, matches_mark, exists_apply_eq_apply', exists_const_iff, and_true, exists_and_left,
    ↓existsAndEq, matches_maybe] at h
  obtain ⟨⟨_, _, _, _, ⟨hhead, hattrs⟩, _, _, ⟨-, hvalue⟩, rfl, rfl⟩, -⟩ := h
  refine Build.EchoedBy.map hvalue fun x y hxy => ?_
  have htarget := plain_dotted hhead hattrs
  simp only [plain] at htarget hxy ⊢
  rw [htarget, hxy]

theorem echoes_callStatement : callStatement.Echoes := by
  intro v w h
  simp at h
  obtain ⟨⟨_, _, _, _, ⟨hhead, hpath⟩, rfl, rfl⟩, -⟩ := h
  exact (hpath.build hhead).map fun _ _ hxy =>
    congrArg (fun e => Item.statement (.expression .first e)) hxy

theorem echoes_expr : expr.Echoes := by
  intro v w h
  simp only [rule, string, matches_orElse, matches_map, matches_token, matches_call, Prod.exists] at h
  rcases h with ⟨_, _, h, rfl, rfl⟩ | ⟨_, _, h, rfl, rfl⟩ | ⟨_, _, h, rfl, rfl⟩ |
    ⟨_, _, _, _, ⟨hhead, hattrs⟩, rfl, rfl⟩ | ⟨_, _, _, _, ⟨hhead, hpath⟩, rfl, rfl⟩ | h
  · exact ExprTree.echoedBy_string h
  · exact ExprTree.echoedBy_number h
  · exact ExprTree.echoedBy_template h
  · exact .pure (plain_dotted hhead hattrs)
  · exact hpath.build hhead
  · simpa only [Echo, or_self] using h

theorem echoes_memberExpr : memberExpr.Echoes := by
  intro v w h
  simp at h
  obtain ⟨_, _, hhead, _, _, hattrs, rfl, rfl⟩ := h
  exact ⟨hhead,
    map_eq_of_forall₂ hattrs fun _ _ h => Token.text_eq (Phrase.matches_seqRight.1 h).2⟩

theorem echoes_callExpr : callExpr.Echoes := by
  intro v w h
  simp only [rule, matches_seq, matches_map, matches_call, Prod.exists, exists_and_left, ↓existsAndEq,
    and_true, matches_many] at h
  obtain ⟨_, _, _, _, _, _, _, _, ⟨⟨hhead, hattrs⟩, hfirst⟩, _, _, hothers, rfl, rfl⟩ := h
  exact ⟨hhead, hattrs, .cons hfirst hothers⟩

theorem echoes_callArgs : callArgs.Echoes := by
  intro v w h
  simp only [rule, orNone, matches_seqLeft, matches_seq, matches_map, matches_mark, matches_maybe,
    exists_and_left, ↓existsAndEq, and_true, exists_apply_eq_apply', exists_const_iff] at h
  obtain ⟨⟨_, _, -, _, _, h, rfl, rfl⟩, -⟩ := h
  exact forall₂_getD h

theorem echoes_objectExpr : objectExpr.Echoes := by
  intro v w h
  simp at h
  obtain ⟨⟨_, _, -, _, _, h, rfl, rfl⟩, -⟩ := h
  exact ExprTree.echoedBy_object h

theorem echoes_keyedEntry : keyedEntry.Echoes := by
  intro v w h
  simp at h
  obtain ⟨_, _, hkey, _, _, ⟨-, hvalue⟩, rfl, rfl⟩ := h
  exact ExprTree.echoedBy_entry hkey hvalue

theorem echoes_shorthand : shorthand.Echoes := by
  rintro v w ⟨_, _, h, rfl, rfl⟩
  exact ExprTree.echoedBy_shorthand h

theorem echoes_spreadEntry : spreadEntry.Echoes := by
  intro v w h
  simp at h
  obtain ⟨_, _, -, _, _, h, rfl, rfl⟩ := h
  exact ExprTree.echoedBy_spread h

theorem echoes_arrayExpr : arrayExpr.Echoes := by
  intro v w h
  simp at h
  obtain ⟨⟨_, _, -, _, _, h, rfl, rfl⟩, -⟩ := h
  exact ExprTree.echoedBy_array (forall₂_getD h)

theorem echoes_arrowExpr : arrowExpr.Echoes := by
  intro v w h
  simp only [rule, located, matches_map, matches_spanned, matches_seq, matches_call, matches_seqRight,
    matches_mark, exists_apply_eq_apply', exists_const_iff, and_true, exists_and_left, ↓existsAndEq,
    exists_and_right, Prod.exists] at h
  obtain ⟨_, _, _, _, ⟨h, -⟩, rfl, rfl⟩ := h
  exact ExprTree.echoedBy_arrow h

theorem echoes_arrowParams : arrowParams.Echoes := by
  intro v w h
  simp at h
  rcases h with ⟨_, _, h, rfl, rfl⟩ | ⟨⟨-, _, _, h, rfl, rfl⟩, -⟩
  · exact .cons ⟨congrArg some (Token.text_eq h), .none, rfl, rfl⟩ .nil
  · exact forall₂_getD h

end Expressions

section Types

theorem echoes_union : union.Echoes := by
  intro v w h
  simp only [rule, matches_map, matches_spanned, matches_seq, matches_seqRight, matches_maybe,
    matches_call, matches_many, exists_and_left, ↓existsAndEq, and_true, Prod.exists] at h
  obtain ⟨_, _, _, _, _, _, ⟨⟨-, hfirst⟩, hothers⟩, rfl, rfl⟩ := h
  refine TypeTree.echoedBy_joined (fun _ _ xs ys hxy => ?_)
    (.cons hfirst (hothers.imp fun _ _ h => (Phrase.matches_seqRight.1 h).2))
  rw [TypeExpr.plain_union, TypeExpr.plain_union, hxy]

theorem echoes_intersection : intersection.Echoes := by
  intro v w h
  simp only [rule, matches_map, matches_spanned, matches_seq, matches_seqRight, matches_maybe,
    matches_call, matches_many, exists_and_left, ↓existsAndEq, and_true, Prod.exists] at h
  obtain ⟨_, _, _, _, _, _, ⟨⟨-, hfirst⟩, hothers⟩, rfl, rfl⟩ := h
  refine TypeTree.echoedBy_joined (fun _ _ xs ys hxy => ?_)
    (.cons hfirst (hothers.imp fun _ _ h => (Phrase.matches_seqRight.1 h).2))
  rw [TypeExpr.plain_intersection, TypeExpr.plain_intersection, hxy]

theorem echoes_nullable : nullable.Echoes := by
  intro v w h
  simp at h
  rcases h with ⟨_, _, -, _, _, h, rfl, rfl⟩ | h
  · exact TypeTree.echoedBy_nullable h
  · exact h

theorem echoes_array : array.Echoes := by
  intro v w h
  simp at h
  rcases h with h | ⟨⟨_, _, h, rfl, rfl⟩, -⟩
  · exact h
  · exact TypeTree.echoedBy_array h

theorem echoes_primary : primary.Echoes := by
  intro v w h
  simp at h
  rcases h with h | ⟨_, _, h, rfl, rfl⟩ | ⟨_, _, h, rfl, rfl⟩ | h | h | ⟨_, _, h, rfl, rfl⟩ |
    ⟨_, _, h, rfl, rfl⟩
  · exact h
  · exact h.tree
  · exact h.tree
  · exact h
  · exact h
  · exact TypeTree.echoedBy_string h
  · exact TypeTree.echoedBy_number h

theorem echoes_genericType : genericType.Echoes := by
  intro v w h
  simp only [rule, identifier, matches_seq, matches_map, matches_token, matches_many, exists_and_left,
    ↓existsAndEq, and_true, matches_maybe] at h
  obtain ⟨_, _, _, _, ⟨hname, hpath⟩, _, _, hargs, rfl, rfl⟩ := h
  exact TypeTree.echoedBy_reference hname
    (map_eq_of_forall₂ hpath fun _ _ h => (Phrase.matches_seqRight.1 h).2) hargs

theorem echoes_typeArgs : typeArgs.Echoes := by
  intro v w h
  simp at h
  exact h.1.2

theorem echoes_tupleType : tupleType.Echoes := by
  intro v w h
  simp [-bind_pure_comp] at h
  obtain ⟨⟨_, _, -, _, _, h, rfl, rfl⟩, -⟩ := h
  exact TypeTree.echoedBy_tuple h

theorem echoes_parenType : parenType.Echoes := by
  intro v w h
  simp only [rule, orNone, matches_seq, matches_seqLeft, matches_map, matches_mark, matches_maybe,
    exists_and_left, ↓existsAndEq, and_true, exists_apply_eq_apply', exists_const_iff] at h
  obtain ⟨_, _, _, _, ⟨⟨-, hparams⟩, -⟩, result, result', hresult, rfl, rfl⟩ := h
  have hresult : Option.Rel TypeTree.EchoedBy result result' := by
    cases hresult with
    | none => exact .none
    | some h => exact .some (Phrase.matches_seqRight.1 h).2
  exact .parenthesised (forall₂_getD hparams) hresult

theorem echoes_functionParam : functionParam.Echoes := by
  intro v w h
  simp at h
  rcases h with h | h | ⟨_, _, h, rfl, rfl⟩
  · exact h
  · exact h
  · exact ⟨rfl, h, rfl, rfl⟩

theorem echoes_namedFunctionParam : namedFunctionParam.Echoes := by
  intro v w h
  simp only [rule, located, identifier, typed, colon, matches_map, matches_spanned, matches_seq,
    matches_token, matches_present, matches_mark, exists_apply_eq_apply', exists_const_iff, and_true,
    exists_and_left, ↓existsAndEq, true_and, matches_seqRight, matches_call, Prod.exists] at h
  obtain ⟨_, _, _, _, _, _, _, ⟨⟨hname, -⟩, -, htype⟩, rfl, rfl⟩ := h
  exact ⟨congrArg some (Token.text_eq hname), htype, rfl, rfl⟩

theorem label_eq {t u : Option Token} (h : label.Matches Echo t u) :
    t.map (·.text) = u.map (·.text) :=
  map_eq_of_rel h fun _ _ h => Token.text_eq (Phrase.matches_seqLeft.1 h).1

theorem echoes_restFunctionParam : restFunctionParam.Echoes := by
  intro v w h
  simp only [rule, located, label, identifier, colon, matches_map, matches_spanned, matches_seq,
    matches_seqRight, matches_mark, exists_apply_eq_apply', exists_const_iff, and_true, matches_maybe,
    matches_call, exists_and_left, ↓existsAndEq, Prod.exists] at h
  obtain ⟨_, _, _, _, _, _, ⟨⟨-, hname⟩, htype⟩, rfl, rfl⟩ := h
  exact ⟨label_eq hname, htype, rfl, rfl⟩

theorem echoes_objectType : objectType.Echoes := by
  intro v w h
  simp at h
  obtain ⟨_, _, _, _, ⟨⟨-, h⟩, -⟩, rfl, rfl⟩ := h
  exact ⟨rfl, forall₂_getD h⟩

theorem echoes_exactObjectType : exactObjectType.Echoes := by
  intro v w h
  simp at h
  obtain ⟨_, _, _, _, ⟨⟨-, h⟩, -⟩, rfl, rfl⟩ := h
  exact ⟨rfl, forall₂_getD h⟩

theorem echoes_objectProperty : objectProperty.Echoes := by
  intro v w h
  simp only [rule, typed, colon, matches_seq, matches_map, matches_call, matches_present, matches_mark,
    exists_apply_eq_apply', exists_const_iff, and_true, exists_and_left, ↓existsAndEq, true_and,
    matches_seqRight] at h
  obtain ⟨_, _, _, ⟨hkey, -⟩, _, _, ⟨-, hvalue⟩, rfl, rfl⟩ := h
  exact ⟨hkey, rfl, hvalue⟩

theorem echoes_methodProperty : methodProperty.Echoes := by
  intro v w h
  simp only [rule, functionParameters, inParens, orNone, typed, colon, matches_seq, matches_map,
    matches_call, matches_seqLeft, matches_seqRight, matches_mark, exists_apply_eq_apply',
    exists_const_iff, and_true, matches_maybe, exists_and_left, ↓existsAndEq] at h
  obtain ⟨_, _, _, _, ⟨hkey, ⟨-, hparams⟩, -⟩, _, _, ⟨-, hresult⟩, rfl, rfl⟩ := h
  exact ⟨hkey, forall₂_getD hparams, hresult⟩

theorem echoes_spreadProperty : spreadProperty.Echoes := by
  intro v w h
  simp at h
  obtain ⟨_, _, ⟨-, h⟩, rfl, rfl⟩ := h
  exact h

theorem echoes_objectIndexer : objectIndexer.Echoes := by
  intro v w h
  simp only [rule, label, identifier, colon, typed, matches_seq, matches_map, matches_seqRight,
    matches_mark, exists_apply_eq_apply', exists_const_iff, and_true, matches_maybe, matches_seqLeft,
    matches_call, exists_and_left, ↓existsAndEq] at h
  obtain ⟨_, _, _, _, ⟨⟨-, hname⟩, hkey, -⟩, _, _, ⟨-, hvalue⟩, rfl, rfl⟩ := h
  exact ⟨label_eq hname, hkey, hvalue⟩

theorem echoes_callProperty : callProperty.Echoes := by
  intro v w h
  simp at h
  obtain ⟨_, _, ⟨⟨-, hparams⟩, -⟩, _, _, ⟨-, hresult⟩, rfl, rfl⟩ := h
  exact ⟨forall₂_getD hparams, hresult⟩

end Types

theorem echoes (n : Construct α) : n.Echoes := by
  cases n with
  | item => exact echoes_item
  | importDecl => exact echoes_importDecl
  | importClause => exact echoes_importClause
  | importDefault => exact echoes_importDefault
  | namedImports => exact echoes_namedImports
  | importSpec => exact echoes_importSpec
  | namespaceImport => exact echoes_namespaceImport
  | exportDecl => exact echoes_exportDecl
  | defaultValue => exact echoes_defaultValue
  | exportClause => exact echoes_exportClause
  | exportSpec => exact echoes_exportSpec
  | declaration => exact echoes_declaration
  | typeAlias => exact echoes_typeAlias
  | interfaceDecl => exact echoes_interfaceDecl
  | classDecl => exact echoes_classDecl
  | heritage => exact echoes_heritage
  | functionDecl => exact echoes_functionDecl
  | variableDecl => exact echoes_variableDecl
  | declarator => exact echoes_declarator
  | typeParams => exact echoes_typeParams
  | typeParam => exact echoes_typeParam
  | ascription => exact echoes_ascription
  | initializer => exact echoes_initializer
  | classBody => exact echoes_classBody
  | classProperty => exact echoes_classProperty
  | classMethod => exact echoes_classMethod
  | param => exact echoes_param
  | restParam => exact echoes_restParam
  | paramTarget => exact echoes_paramTarget
  | assignment => exact echoes_assignment
  | callStatement => exact echoes_callStatement
  | expr => exact echoes_expr
  | memberExpr => exact echoes_memberExpr
  | callExpr => exact echoes_callExpr
  | callArgs => exact echoes_callArgs
  | objectExpr => exact echoes_objectExpr
  | keyedEntry => exact echoes_keyedEntry
  | shorthand => exact echoes_shorthand
  | spreadEntry => exact echoes_spreadEntry
  | arrayExpr => exact echoes_arrayExpr
  | arrowExpr => exact echoes_arrowExpr
  | arrowParams => exact echoes_arrowParams
  | union => exact echoes_union
  | intersection => exact echoes_intersection
  | nullable => exact echoes_nullable
  | array => exact echoes_array
  | primary => exact echoes_primary
  | genericType => exact echoes_genericType
  | typeArgs => exact echoes_typeArgs
  | tupleType => exact echoes_tupleType
  | parenType => exact echoes_parenType
  | functionParam => exact echoes_functionParam
  | namedFunctionParam => exact echoes_namedFunctionParam
  | restFunctionParam => exact echoes_restFunctionParam
  | objectType => exact echoes_objectType
  | exactObjectType => exact echoes_exactObjectType
  | objectProperty => exact echoes_objectProperty
  | methodProperty => exact echoes_methodProperty
  | spreadProperty => exact echoes_spreadProperty
  | objectIndexer => exact echoes_objectIndexer
  | callProperty => exact echoes_callProperty
  -- The others are another construct, one of several constructs, or a row of them.
  | start | params | args | functionParams | objectMembers => exact fun _ _ h => h
  | block | blockItem | arrowBody => exact fun _ _ _ => trivial
  | _ => exact fun v w h => by simpa [Echo] using h

theorem greedy_congr (n : Construct α) (ts us : List Token)
    (h : ts.map Token.word = us.map Token.word) (hends : greedy n ts) : greedy n us := by
  cases n with
  | arrowResult =>
    cases ts <;> cases us <;> simp at h
    · exact hends
    · rw [greedy] at hends ⊢
      simpa [Token.terminal_eq h.1] using hends
  | _ => trivial

theorem Written.reread (n : Construct α) : Rereads (Written n) (Written n) (Echo n) :=
  Rules.Derives.reread (fun _ => greedy_congr) (fun _ n _ _ h => echoes n h) n

end Construct

section Words

variable {tokens tokens' : List Token} {items : List (Build Item)}

theorem Sentence.reread (h : Sentence Construct.greedy tokens items)
    (hwords : tokens.map Token.word = tokens'.map Token.word) :
    ∃ items', Sentence Construct.greedy tokens' items' ∧ Forall₂ Build.EchoedBy items items' := by
  obtain ⟨last, h⟩ := h
  have hechoes : Cursor.Echoes ⟨.first, tokens⟩ ⟨.first, tokens'⟩ := hwords
  obtain ⟨⟨last', rest⟩, items', h', hrest, hitems⟩ := Construct.Written.reread .start h hechoes
  have hnil : rest = [] := by simpa [Cursor.Echoes] using hrest
  subst hnil
  exact ⟨items', ⟨last', h'⟩, hitems⟩

/-- What a source says, up to places and comments, depends on the words of its tokens alone. -/
theorem Module.ofSource_of_words {names : CharacterNames} {source source' : String} {file : Option String}
    {m : Module} (h : ofSource names source file = .ok m) (hstuck : (Lexing.ofSource source').stuck = none)
    (hwords : (Lexing.ofSource source).words = (Lexing.ofSource source').words) :
    ∃ m', ofSource names source' file = .ok m' ∧ plain m' = plain m := by
  obtain ⟨-, hfile, items, hsentence, hbuild⟩ := ofSource_eq_ok_iff.1 h
  obtain ⟨items', hsentence', hitems⟩ := hsentence.reread hwords
  obtain ⟨built, hbuild', hplain⟩ := Build.EchoedBy.all hitems _ _ _ _ hbuild
  refine ⟨⟨built, file⟩, ofSource_eq_ok_iff.2 ⟨hstuck, rfl, items', hsentence', hbuild'⟩, ?_⟩
  subst hfile
  exact congrArg (fun items => Module.mk items m.file) hplain.symm

end Words

end PropTables
