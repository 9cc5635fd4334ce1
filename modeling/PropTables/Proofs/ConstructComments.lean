import PropTables.Proofs.Sources
import PropTables.Proofs.TreeComments

/-! What is written as a construct of the grammar keeps comments of its own piece of the text. There is
one lemma for each construct, from the constructs that it is made of. -/

namespace PropTables

def ObjectTree.WrittenIn (tokens : List Token) (tree : ObjectTree) : Prop :=
  ∃ n ∈ [Construct.objectType, .exactObjectType], ∃ c d, c.On tokens ∧ Written n c d tree

namespace Construct

open Phrase (maybe call)
open Phrase (lies_call lies_keyword lies_listOrNone lies_many lies_map lies_mark lies_maybe lies_orElse
  lies_present lies_seq lies_seqLeft lies_seqRight lies_token)

def MemberLies (Occurs : ObjectTree → Prop) (p q : Position) (m : MemberTree) : Prop :=
  p < q ∧ m.Keeps Occurs p q

def MembersLie (Occurs : ObjectTree → Prop) (ends : Position → Prop) (p q : Position)
    (m : Extent × MemberTree) : Prop :=
  p ≤ m.1.start ∧ m.1.stop ≤ q ∧ ends m.1.stop ∧ MemberLies Occurs m.1.start m.1.stop m.2

def Kept (Occurs : ObjectTree → Prop) (ends : Position → Prop) : Location Construct
  | _, start, p, q, items => Row (Build.Keeps Occurs 0) p q items
  | _, item, p, q, b | _, importDecl, p, q, b | _, exportDecl, p, q, b | _, assignment, p, q, b
  | _, callStatement, p, q, b => b.Keeps Occurs 0 p q
  | _, defaultValue, p, q, b => b.Keeps Occurs 0 p q
  | _, declaration, p, q, b => b.Keeps Occurs 0 p q
  | _, typeAlias, p, q, b => b.Keeps Occurs 0 p q
  | _, interfaceDecl, p, q, b => b.Keeps Occurs 0 p q
  | _, functionDecl, p, q, b => b.Keeps Occurs 0 p q
  | _, variableDecl, p, q, b => b.Keeps Occurs 0 p q
  | _, declarator, p, q, b => b.Keeps Occurs 0 p q
  | _, classDecl, p, q, c => c.Keeps Occurs p q
  | _, heritage, p, q, s => objectsIn s.1 = 0 ∧ Optional (Row (TypeTree.Keeps Occurs)) p q s.2
  | _, ascription, p, q, a => a.Keeps Occurs p q
  | _, classBody, p, q, body => Row (Build.Keeps Occurs 0) p q body
  | _, classMember, p, q, b | _, classProperty, p, q, b | _, classMethod, p, q, b =>
    b.Keeps Occurs 0 p q
  | _, params, p, q, ps | _, arrowParams, p, q, ps => Row (ParamTree.Keeps Occurs) p q ps
  | _, anyParam, p, q, t | _, param, p, q, t | _, restParam, p, q, t => t.Keeps Occurs p q
  | _, initializer, p, q, e | _, expr, p, q, e | _, objectExpr, p, q, e | _, arrayExpr, p, q, e
  | _, arrowExpr, p, q, e => Build.Keeps Occurs 0 p q e
  | _, callExpr, p, q, c => Row (CallKeeps Occurs) p q c.2.calls
  | _, callArgs, p, q, c => CallKeeps Occurs p q c
  | _, args, p, q, es => Row (Build.Keeps Occurs 0) p q es
  | _, objectEntry, p, q, b | _, keyedEntry, p, q, b | _, shorthand, p, q, b
  | _, spreadEntry, p, q, b => b.Keeps Occurs 0 p q
  | _, type, p, q, t | _, union, p, q, t | _, intersection, p, q, t | _, nullable, p, q, t
  | _, array, p, q, t | _, primary, p, q, t | _, genericType, p, q, t | _, tupleType, p, q, t
  | _, parenType, p, q, t | _, arrowResult, p, q, t => t.Keeps Occurs p q
  | _, typeArgs, p, q, ts => Row (TypeTree.Keeps Occurs) p q ts
  | _, functionParams, p, q, ps => Row (FunctionParamTree.Keeps Occurs) p q ps
  | _, functionParam, p, q, t | _, namedFunctionParam, p, q, t | _, restFunctionParam, p, q, t =>
    t.Keeps Occurs p q
  | _, objectType, p, q, o | _, exactObjectType, p, q, o => o.Keeps Occurs ends p q
  | _, objectMembers, p, q, ms => Row (MembersLie Occurs ends) p q ms
  | _, objectMember, p, q, m | _, objectProperty, p, q, m | _, methodProperty, p, q, m
  | _, spreadProperty, p, q, m | _, objectIndexer, p, q, m | _, callProperty, p, q, m =>
    MemberLies Occurs p q m
  | _, _, p, q, _ => p ≤ q

variable {Occurs : ObjectTree → Prop} {ends : Position → Prop} {α : Type}

theorem Kept.le (n : Construct α) (p q : Position) (v : α) (h : Kept Occurs ends n p q v) :
    p ≤ q := by
  have hbuild {β : Type} [Annotated β] (p q : Position) (b : Build β) (h : b.Keeps Occurs 0 p q) :
      p ≤ q := h.le
  have htype (p q : Position) (t : TypeTree) (h : t.Keeps Occurs p q) : p ≤ q := h.lt.le
  have hcall (p q : Position) (c : Position × List ExprTree) (h : CallKeeps Occurs p q c) : p ≤ q :=
    Row.le hbuild h
  cases n with
  | start | classBody | args => exact Row.le hbuild h
  | callExpr => exact Row.le hcall h
  | callArgs => exact hcall _ _ _ h
  | classDecl => exact (ClassTree.Keeps.build h).le
  | heritage => exact h.2.1
  | ascription => exact (AscriptionTree.Keeps.lt h).le
  | params | arrowParams => exact Row.le (fun _ _ _ h => h.le) h
  | anyParam | param | restParam => exact ParamTree.Keeps.le h
  | type | union | intersection | nullable | array | primary | genericType | tupleType | parenType
  | arrowResult => exact htype _ _ _ h
  | typeArgs => exact Row.le htype h
  | functionParams => exact Row.le (fun _ _ t h => htype _ _ t.type h) h
  | functionParam | namedFunctionParam | restFunctionParam => exact htype _ _ _ h
  | objectType | exactObjectType => exact (ObjectTree.Keeps.tree h).lt.le
  | objectMembers => exact Row.le (fun _ _ _ h => h.1.trans (h.2.2.2.1.le.trans h.2.1)) h
  | objectMember | objectProperty | methodProperty | spreadProperty | objectIndexer | callProperty =>
    exact h.1.le
  | _ => first | exact hbuild _ _ _ h | exact h

theorem lies_maybe_kept {a : Clause α} {p q : Position} {v : Option α} :
    (maybe a).Lies ends (Kept Occurs ends) p q v ↔
      Optional (a.Lies ends (Kept Occurs ends)) p q v :=
  Phrase.lies_maybe_iff fun _ => Kept.le

def Keeps (Occurs : ObjectTree → Prop) (ends : Position → Prop) (n : Construct α) : Prop :=
  ∀ ⦃p q v⦄, (rule n).Lies ends (Kept Occurs ends) p q v → Kept Occurs ends n p q v

theorem lies_located {a : Clause (Position → α)} {p q : Position} {v : α}
    (h : (located a).Lies ends (Kept Occurs ends) p q v) :
    ∃ loc f, a.Lies ends (Kept Occurs ends) p q f ∧ v = f loc := by
  obtain ⟨x, h, rfl⟩ := h
  exact ⟨x.1.start, x.2, h.1, rfl⟩

theorem ascription_type {p q : Position} {a : Option AscriptionTree}
    (h : Optional (AscriptionTree.Keeps Occurs) p q a) :
    ∀ t ∈ a.map AscriptionTree.type, t.Keeps Occurs p q := by
  intro t ht
  obtain ⟨a, ha, rfl⟩ := Option.map_eq_some_iff.1 ht
  have hkeeps := h.2 a ha
  exact hkeeps.type.mono hkeeps.le_start le_rfl

section Declarations

theorem keeps_item : item.Keeps Occurs ends := by
  intro p q v h
  simp at h
  rcases h with h | h | ⟨d, h, rfl⟩ | h | h
  · exact h
  · exact h
  · exact Build.Keeps.map h fun _ => le_rfl
  · exact h
  · exact h

theorem keeps_importDecl : importDecl.Keeps Occurs ends := by
  intro p q v h
  have hle := h.le fun _ => Kept.le
  simp only [rule, string, semicolon, lies_orElse, lies_seqLeft, lies_seq, lies_map, lies_keyword,
    lies_maybe, lies_call, exists_and_left, ↓existsAndEq, and_true, lies_seqRight, lies_token,
    exists_and_right, exists_start, lies_mark] at h
  rcases h with ⟨_, ⟨_, _, _, _, _, _, _, _, -, rfl⟩, -⟩ | ⟨_, ⟨_, _, -, _, -, rfl⟩, -⟩
  all_goals exact .step hle fun _ => .step hle fun _ => .pure hle le_rfl

theorem keeps_exportDecl : exportDecl.Keeps Occurs ends := by
  intro p q v h
  have hle := h.le fun _ => Kept.le
  simp only [rule, semicolon, string, lies_orElse, lies_seqLeft, lies_seq, lies_map, lies_keyword,
    lies_seqRight, lies_call, exists_and_right, exists_start, exists_and_left, ↓existsAndEq, and_true,
    lies_maybe_kept, exists_optional, lies_mark, lies_token, lies_present] at h
  rcases h with ⟨m, ⟨m₁, t, ht, value, ⟨m₂, hm, h⟩, rfl⟩, hq⟩ | ⟨_, ⟨_, _, -, _, -, rfl⟩, -⟩ |
    ⟨m, t, ht, d, h, rfl⟩ | ⟨_, ⟨_, _, _, _, _, _, -, _, -, rfl⟩, -⟩
  · have hp : p ≤ m₂ := by order
    exact (Build.Keeps.mono h hp hq).map fun _ => le_rfl
  · exact keeps_literal hle fun _ => rfl
  · have hp : p ≤ m := by order
    exact (Build.Keeps.mono h hp le_rfl).map fun _ => le_rfl
  · exact keeps_literal hle fun _ => rfl

theorem keeps_defaultValue : defaultValue.Keeps Occurs ends := by
  intro p q v h
  simp [-bind_pure_comp] at h
  rcases h with ⟨c, h, rfl⟩ | ⟨f, h, rfl⟩ | ⟨e, h, rfl⟩
  · exact (ClassTree.Keeps.build h).map fun _ => le_rfl
  · exact Build.Keeps.map h fun _ => le_rfl
  · exact Build.Keeps.map h fun _ => le_rfl

theorem keeps_declaration : declaration.Keeps Occurs ends := by
  intro p q v h
  simp [-bind_pure_comp] at h
  rcases h with ⟨a, h, rfl⟩ | ⟨i, h, rfl⟩ | ⟨c, h, rfl⟩ | ⟨f, h, rfl⟩ | ⟨b, h, rfl⟩
  · exact Build.Keeps.map h fun _ => le_rfl
  · exact Build.Keeps.map h fun _ => le_rfl
  · exact (ClassTree.Keeps.buildNamed h).map fun _ => le_rfl
  · exact Build.Keeps.map h fun _ => le_rfl
  · exact Build.Keeps.map h fun _ => le_rfl

theorem keeps_typeAlias : typeAlias.Keeps Occurs ends := by
  intro p q v h
  simp only [rule, identifier, orNone, semicolon, lies_seqLeft, lies_seq, lies_map, lies_keyword,
    lies_token, exists_and_left, ↓existsAndEq, and_true, lies_maybe_kept, lies_seqRight, lies_mark,
    lies_call, exists_and_right, exists_start, exists_optional] at h
  obtain ⟨m, ⟨m₁, m₂, m₃, word, n, params, ⟨⟨hword, hn⟩, hparams⟩, right, ⟨m₄, hm, h⟩, rfl⟩, hq⟩ := h
  have hloc : word.start ≤ m₄ := by order [hparams.1]
  exact AliasTree.keeps_build hword.1 (TypeTree.Keeps.mono h hloc hq)

theorem keeps_interfaceDecl : interfaceDecl.Keeps Occurs ends := by
  intro p q v h
  simp only [rule, identifier, orNone, lies_seq, lies_map, lies_keyword, lies_token, exists_and_left,
    ↓existsAndEq, and_true, lies_maybe_kept, lies_call] at h
  obtain ⟨m, m₁, m₂, word, n, params, ⟨⟨hword, hn⟩, hparams⟩, body, h, rfl⟩ := h
  have hp : p ≤ m := by order [hparams.1]
  exact (PropTables.keeps_interface h).mono hp le_rfl

theorem keeps_classDecl : classDecl.Keeps Occurs ends := by
  intro p q v h
  simp only [rule, identifier, orNone, lies_seq, lies_map, lies_keyword, lies_maybe_kept, exists_and_left,
    ↓existsAndEq, and_true, lies_call] at h
  obtain ⟨m, m₁, m₂, m₃, word, n, params, superclass, ⟨⟨⟨hword, hn⟩, hparams⟩, hsuper⟩, body, hbody,
    rfl⟩ := h
  have hp : p ≤ m₁ := by order [hn.1, hparams.1]
  have hm : p ≤ m := hp.trans hsuper.1
  cases superclass with
  | none =>
    refine ⟨fun s hs => ?_, m, ⟨hm, fun ts hts => ?_⟩, hbody⟩
    · cases hs
    · cases hts
  | some s =>
    have hs := hsuper.2 s rfl
    simp only [lies_seqRight, lies_keyword, lies_call, exists_and_right, exists_start] at hs
    obtain ⟨m₄, hextends, hnone, hargs⟩ := hs
    refine ⟨fun s' hs => Option.mem_some_iff.1 hs ▸ hnone, m, ⟨hm, fun ts hts => ?_⟩, hbody⟩
    exact (hargs.2 ts hts).mono (hp.trans hextends.le) le_rfl

theorem keeps_heritage : heritage.Keeps Occurs ends := by
  intro p q v h
  simp only [rule, lies_seq, lies_map, lies_call, Prod.exists, lies_maybe_kept, exists_and_left,
    ↓existsAndEq, and_true] at h
  obtain ⟨m, head, attrs, hpath, args, hargs, rfl⟩ := h
  have hle : p ≤ m := Kept.le _ _ _ _ hpath
  exact ⟨objectsIn_dotted head attrs, hle.trans hargs.1, fun ts hts =>
    (hargs.2 ts hts).mono hle le_rfl⟩

theorem keeps_functionDecl : functionDecl.Keeps Occurs ends := by
  intro p q v h
  simp only [rule, identifier, orNone, parameters, inParens, lies_seq, lies_map, lies_keyword, lies_token,
    exists_and_left, ↓existsAndEq, and_true, lies_maybe_kept, exists_and_right, exists_optional,
    lies_seqLeft, lies_seqRight, lies_mark, exists_start, lies_call] at h
  obtain ⟨m, m₁, m₂, m₃, m₄, word, n, m₅, m₆, params, result, ⟨⟨⟨⟨hword, hn⟩, htypes⟩, ⟨hopen, hps⟩,
    hclose⟩, hresult⟩, ⟨_, hblock⟩, rfl⟩ := h
  have hp : p ≤ m₆ := by order
  have hbody : m ≤ q := Kept.le _ _ _ _ hblock
  exact (PropTables.keeps_function (hps.row.mono hp hclose.le) hresult).mono le_rfl hbody

theorem keeps_variableDecl : variableDecl.Keeps Occurs ends := by
  intro p q v h
  simp only [rule, comma, semicolon, lies_seqLeft, lies_seq, lies_map, lies_token, lies_call,
    exists_and_left, ↓existsAndEq, and_true, lies_many, lies_maybe_kept, exists_optional] at h
  obtain ⟨m, ⟨m₁, m₂, word, first, ⟨hword, hfirst⟩, others, hothers, rfl⟩, hq⟩ := h
  have hp : p ≤ m₂ := by order
  have hrest : Row (Build.Keeps Occurs 0) m₁ m others := hothers.imp fun p q b hb => by
    simp only [lies_seqRight, lies_mark, lies_call, exists_and_right, exists_start] at hb
    obtain ⟨m', hcomma, hb⟩ := hb
    exact Build.Keeps.mono hb hcomma.le le_rfl
  exact (keeps_variables (.cons le_rfl hfirst hrest)).mono hp hq

theorem keeps_declarator : declarator.Keeps Occurs ends := by
  intro p q v h
  simp only [rule, identifier, lies_seq, lies_map, lies_token, lies_maybe_kept, exists_and_left,
    ↓existsAndEq, and_true] at h
  obtain ⟨m, m₁, n, a, ⟨hn, ha⟩, init, hinit, rfl⟩ := h
  have hp : p ≤ m₁ := by order
  exact (PropTables.keeps_declarator ha hinit).mono hp le_rfl

theorem keeps_ascription : ascription.Keeps Occurs ends := by
  intro p q v h
  simp at h
  obtain ⟨m, t, ht, type, h, rfl⟩ := h
  exact ⟨ht.1, TypeTree.Keeps.mono h ht.2.le le_rfl⟩

theorem keeps_initializer : initializer.Keeps Occurs ends := by
  intro p q v h
  simp at h
  obtain ⟨m, hequals, h⟩ := h
  exact Build.Keeps.mono h hequals.le le_rfl

theorem keeps_classBody : classBody.Keeps Occurs ends := by
  intro p q v h
  simp at h
  obtain ⟨m, ⟨m', hopen, h⟩, hclose⟩ := h
  exact Row.mono h hopen.le hclose.le

theorem keeps_classMember : classMember.Keeps Occurs ends := by
  intro p q v h
  simp at h
  exact h.elim id id

theorem keeps_classProperty : classProperty.Keeps Occurs ends := by
  intro p q v h
  obtain ⟨loc, f, hf, rfl⟩ := lies_located h
  simp only [semicolon, lies_seqLeft, lies_seq, lies_map, lies_present, lies_maybe_kept, ↓existsAndEq,
    and_true, lies_call, exists_and_left, exists_optional] at hf
  obtain ⟨m, ⟨m₁, m₂, m₃, m₄, _, key, _, a, ⟨⟨⟨hstatic, hkey⟩, hquestion⟩, ha⟩, init, hinit, rfl⟩, hq⟩ :=
    hf
  have hname : m₄ ≤ m₃ := Kept.le _ _ _ _ hkey
  have hp : p ≤ m₂ := by order [hstatic.1, hquestion.1]
  exact (ClassTree.keeps_property ha hinit).mono hp hq

theorem keeps_classMethod : classMethod.Keeps Occurs ends := by
  intro p q v h
  obtain ⟨loc, f, hf, rfl⟩ := lies_located h
  simp only [parameters, inParens, orNone, lies_seq, lies_map, lies_present, lies_maybe_kept,
    ↓existsAndEq, and_true, lies_call, exists_and_left, exists_and_right, exists_optional, lies_seqLeft,
    lies_seqRight, lies_mark, exists_start] at hf
  obtain ⟨m, m₁, m₂, m₃, m₄, _, key, m₅, m₆, params, result, ⟨⟨⟨⟨hstatic, hkey⟩, htypes⟩,
    ⟨hopen, hparams⟩, hclose⟩, hresult⟩, ⟨_, hblock⟩, rfl⟩ := hf
  have hname : m₄ ≤ m₃ := Kept.le _ _ _ _ hkey
  have hp : p ≤ m₆ := by order [hstatic.1]
  have hbody : m ≤ q := Kept.le _ _ _ _ hblock
  exact (ClassTree.keeps_method (hparams.row.mono hp hclose.le) hresult).mono le_rfl hbody

theorem keeps_anyParam : anyParam.Keeps Occurs ends := by
  intro p q v h
  simp at h
  exact h.elim id id

theorem keeps_param : param.Keeps Occurs ends := by
  intro p q v h
  have hle := h.le fun _ => Kept.le
  obtain ⟨loc, f, hf, rfl⟩ := lies_located h
  simp only [lies_seq, lies_map, lies_call, lies_present, lies_maybe_kept, exists_and_left, ↓existsAndEq,
    and_true, exists_and_right, exists_optional] at hf
  obtain ⟨m, m₁, m₂, target, _, a, ⟨⟨htarget, hquestion⟩, ha⟩, hq, rfl⟩ := hf
  have hname : p ≤ m₂ := Kept.le _ _ _ _ htarget
  exact ⟨hle, fun t ht => (ascription_type ha t ht).mono (hname.trans hquestion.1) hq⟩

theorem keeps_restParam : restParam.Keeps Occurs ends := by
  intro p q v h
  have hle := h.le fun _ => Kept.le
  obtain ⟨loc, f, hf, rfl⟩ := lies_located h
  simp only [identifier, lies_seq, lies_map, lies_seqRight, lies_mark, lies_token, exists_and_right,
    exists_start, lies_maybe_kept, exists_and_left, ↓existsAndEq, and_true] at hf
  obtain ⟨m, n, ⟨m₁, hdots, hn⟩, a, ha, rfl⟩ := hf
  have hp : p ≤ m := by order
  exact ⟨hle, fun t ht => (ascription_type ha t ht).mono hp le_rfl⟩

theorem keeps_assignment : assignment.Keeps Occurs ends := by
  intro p q v h
  simp only [rule, semicolon, lies_seqLeft, lies_seq, lies_map, lies_call, Prod.exists, lies_seqRight,
    lies_mark, exists_and_right, exists_start, exists_and_left, ↓existsAndEq, and_true, lies_maybe_kept,
    exists_optional] at h
  obtain ⟨m, ⟨m₁, head, attrs, hpath, value, ⟨m₂, hequals, hvalue⟩, rfl⟩, hsemi⟩ := h
  have hp : p ≤ m₁ := Kept.le _ _ _ _ hpath
  have hassigned (x : Expr) : objectsIn
      (Item.statement (.assignment head.start (PathTree.dotted head attrs) x)) = objectsIn x := by
    change objectsIn (PathTree.dotted head attrs) + objectsIn x = objectsIn x
    rw [objectsIn_dotted, zero_add]
  have hvalue := Build.Keeps.mono hvalue (hp.trans hequals.le) hsemi
  exact hvalue.map fun x => (hassigned x).le

theorem keeps_callStatement : callStatement.Keeps Occurs ends := by
  intro p q v h
  simp [-Phrase.lies_maybe, lies_maybe_kept] at h
  obtain ⟨m, ⟨head, path, h, rfl⟩, hq⟩ := h
  have hpath := PathTree.keeps_build head h
  exact (hpath.mono le_rfl hq).map fun _ => le_rfl

end Declarations

section Expressions

theorem keeps_expr : expr.Keeps Occurs ends := by
  intro p q v h
  have hle := h.le fun _ => Kept.le
  simp at h
  rcases h with ⟨t, -, rfl⟩ | ⟨t, -, rfl⟩ | ⟨t, -, rfl⟩ | ⟨head, attrs, -, rfl⟩ | ⟨head, path, h, rfl⟩ |
    h | h | h
  · exact keeps_literal hle fun _ => rfl
  · exact keeps_literal hle fun _ => rfl
  · exact .pure hle le_rfl
  · exact .pure hle (objectsIn_dotted head attrs).le
  · exact PathTree.keeps_build head h
  · exact h
  · exact h
  · exact h

theorem keeps_callExpr : callExpr.Keeps Occurs ends := by
  intro p q v h
  simp only [rule, lies_seq, lies_map, lies_call, Prod.exists, exists_and_left, ↓existsAndEq, and_true,
    lies_many] at h
  obtain ⟨m, m₁, head, attrs, loc, args, ⟨hpath, hfirst⟩, others, hothers, rfl⟩ := h
  have hp : p ≤ m₁ := Kept.le _ _ _ _ hpath
  exact .cons hp hfirst hothers

theorem keeps_callArgs : callArgs.Keeps Occurs ends := by
  intro p q v h
  simp only [rule, orNone, lies_seqLeft, lies_seq, lies_map, lies_mark, lies_maybe_kept, exists_and_left,
    ↓existsAndEq, and_true, exists_start] at h
  obtain ⟨m, ⟨m₁, t, ht, args, hargs, rfl⟩, hclose⟩ := h
  have hp : p ≤ m₁ := by order
  exact hargs.row.mono hp hclose.le

theorem keeps_objectExpr : objectExpr.Keeps Occurs ends := by
  intro p q v h
  simp only [rule, comma, lies_seqLeft, lies_seq, lies_map, lies_mark, lies_listOrNone, exists_and_left,
    ↓existsAndEq, and_true, exists_start] at h
  obtain ⟨m, ⟨m₁, t, ht, entries, hentries, rfl⟩, hclose⟩ := h
  have hp : p ≤ m₁ := by order
  exact (ExprTree.keeps_object hentries).mono hp hclose.le

theorem keeps_objectEntry : objectEntry.Keeps Occurs ends := by
  intro p q v h
  simp at h
  rcases h with h | h | h <;> exact h

theorem keeps_keyedEntry : keyedEntry.Keeps Occurs ends := by
  intro p q v h
  simp at h
  obtain ⟨m, key, hkey, value, ⟨m₁, hcolon, hvalue⟩, rfl⟩ := h
  have hname : p ≤ m := Kept.le _ _ _ _ hkey
  exact (ExprTree.keeps_entry key hvalue).mono (hname.trans hcolon.le) le_rfl

theorem keeps_shorthand : shorthand.Keeps Occurs ends := by
  intro p q v h
  have hle := h.le fun _ => Kept.le
  simp at h
  obtain ⟨n, -, rfl⟩ := h
  exact ExprTree.keeps_shorthand n hle

theorem keeps_spreadEntry : spreadEntry.Keeps Occurs ends := by
  intro p q v h
  simp at h
  obtain ⟨m, t, ht, value, hvalue, rfl⟩ := h
  exact (ExprTree.keeps_spread t hvalue).mono (ht.1.trans ht.2.le) le_rfl

theorem keeps_arrayExpr : arrayExpr.Keeps Occurs ends := by
  intro p q v h
  simp only [rule, orNone, lies_seqLeft, lies_seq, lies_map, lies_mark, lies_maybe_kept, exists_and_left,
    ↓existsAndEq, and_true, exists_start] at h
  obtain ⟨m, ⟨m₁, t, ht, items, hitems, rfl⟩, hclose⟩ := h
  have hp : p ≤ m₁ := by order
  exact (ExprTree.keeps_array hitems.row).mono hp hclose.le

theorem keeps_arrowExpr : arrowExpr.Keeps Occurs ends := by
  intro p q v h
  obtain ⟨loc, f, hf, rfl⟩ := lies_located h
  simp only [lies_seq, lies_map, lies_call, lies_seqRight, lies_mark, exists_and_right, exists_start,
    exists_and_left, ↓existsAndEq, and_true] at hf
  obtain ⟨m, params, hparams, ⟨_, m₁, harrow, hbody⟩, rfl⟩ := hf
  have hle : m₁ ≤ q := Kept.le _ _ _ _ hbody
  exact (ExprTree.keeps_arrow hparams).mono le_rfl (harrow.le.trans hle)

theorem keeps_arrowParams : arrowParams.Keeps Occurs ends := by
  intro p q v h
  simp [-Phrase.lies_maybe, lies_maybe_kept] at h
  rcases h with ⟨n, hn, rfl⟩ | ⟨m, ⟨m₁, hopen, params, hparams, rfl⟩, hclose⟩
  · have hle : p ≤ q := by order
    exact .cons le_rfl ⟨hle, fun a ha => by cases ha⟩ (.nil le_rfl)
  · exact hparams.row.mono hopen.le hclose.le

end Expressions

section Types

theorem keeps_joined {a : Clause TypeTree} {sep : Mark}
    {build : Position → List TypeExpr → TypeExpr}
    (hbuild : ∀ start xs, objectsIn (build start xs) = objectsIn xs) {p q : Position}
    {v : Extent × List TypeTree}
    (ha : ∀ p q t, a.Lies ends (Kept Occurs ends) p q t → t.Keeps Occurs p q)
    (h : (Phrase.spanned (List.cons <$> (maybe (Phrase.mark sep) *> a)
      <*> Phrase.many (Phrase.mark sep *> a))).Lies ends (Kept Occurs ends) p q v) :
    (TypeTree.joined build v.1.start v.2).Keeps Occurs p q := by
  have hrow (p q : Position) (ts : List TypeTree) (h : (List.cons <$> (maybe (Phrase.mark sep) *> a)
      <*> Phrase.many (Phrase.mark sep *> a)).Lies ends (Kept Occurs ends) p q ts) :
      p < q ∧ Row (TypeTree.Keeps Occurs) p q ts := by
    simp [-Phrase.lies_maybe, lies_maybe_kept] at h
    obtain ⟨m, t, ⟨m₁, hlead, ht⟩, ts, hts, rfl⟩ := h
    have ht := ha _ _ _ ht
    have hrest : Row (TypeTree.Keeps Occurs) m q ts := hts.imp fun p q t h => by
      simp at h
      obtain ⟨m, hsep, h⟩ := h
      exact (ha _ _ _ h).mono hsep.le le_rfl
    exact ⟨hlead.trans_lt (ht.lt.trans_le (TypeTree.row_le hrest)), .cons hlead ht hrest⟩
  obtain ⟨hstart, h, hq, -⟩ := h.of_spanned fun p q h => (hrow p q _ h).1
  obtain ⟨hlt, hts⟩ := hrow _ _ _ h
  exact .joined hbuild hstart (hlt.trans_le hq) (hts.mono le_rfl hq)

theorem keeps_union : union.Keeps Occurs ends := by
  intro p q v h
  obtain ⟨x, h, rfl⟩ := h
  have hparts (p q : Position) (t : TypeTree) (h : Kept Occurs ends intersection p q t) :
      t.Keeps Occurs p q := h
  exact keeps_joined (a := call intersection) (fun _ _ => TypeExpr.objectsIn_union _) hparts h

theorem keeps_intersection : intersection.Keeps Occurs ends := by
  intro p q v h
  obtain ⟨x, h, rfl⟩ := h
  have hparts (p q : Position) (t : TypeTree) (h : Kept Occurs ends nullable p q t) :
      t.Keeps Occurs p q := h
  exact keeps_joined (a := call nullable) (fun _ _ => TypeExpr.objectsIn_intersection _) hparts h

theorem keeps_nullable : nullable.Keeps Occurs ends := by
  intro p q v h
  simp at h
  rcases h with ⟨m, t, ht, inner, h, rfl⟩ | h
  · exact .nullable ht.1 ht.2.le h
  · exact h

theorem keeps_array : array.Keeps Occurs ends := by
  intro p q v h
  simp at h
  rcases h with h | ⟨m, ⟨m₁, ⟨t, h, rfl⟩, hopen⟩, hclose⟩
  · exact h
  · exact (TypeTree.Keeps.array h).mono le_rfl (hopen.trans hclose).le

theorem keeps_primary : primary.Keeps Occurs ends := by
  intro p q v h
  simp at h
  rcases h with h | ⟨o, h, rfl⟩ | ⟨o, h, rfl⟩ | h | h | ⟨t, ht, rfl⟩ | ⟨t, ht, rfl⟩
  · exact h
  · exact ObjectTree.Keeps.tree h
  · exact ObjectTree.Keeps.tree h
  · exact h
  · exact h
  · exact .of_start ht.1 ht.2 (keeps_literal ht.2.le fun _ => by simp)
  · exact .of_start ht.1 ht.2 (keeps_literal ht.2.le fun _ => by simp)

theorem keeps_genericType : genericType.Keeps Occurs ends := by
  intro p q v h
  simp only [rule, identifier, lies_seq, lies_map, lies_token, lies_many, exists_and_left, ↓existsAndEq,
    and_true, lies_maybe_kept] at h
  obtain ⟨m, m₁, n, path, ⟨hn, hpath⟩, args, hargs, rfl⟩ := h
  have hm : m₁ ≤ m := hpath.le fun _ _ _ h => h.le fun _ => Kept.le
  have hloc : n.start ≤ m := hn.2.le.trans hm
  refine .of_start hn.1 (hn.2.trans_le (hm.trans hargs.1)) ?_
  exact TypeTree.keeps_reference n path (hloc.trans hargs.1) fun ts hts =>
    (hargs.2 ts hts).mono hloc le_rfl

theorem keeps_typeArgs : typeArgs.Keeps Occurs ends := by
  intro p q v h
  simp at h
  obtain ⟨m, ⟨m₁, hopen, h⟩, hclose⟩ := h
  exact Row.mono h hopen.le hclose.le

theorem keeps_tupleType : tupleType.Keeps Occurs ends := by
  intro p q v h
  simp [-bind_pure_comp] at h
  obtain ⟨m, ⟨m₁, t, ht, ts, h, rfl⟩, hclose⟩ := h
  have hts : Row (TypeTree.Keeps Occurs) t.start q ts := Row.mono h ht.2.le hclose.le
  have hlt : t.start < q := ht.2.trans_le ((TypeTree.row_le h).trans hclose.le)
  exact .tuple ht.1 hlt hts

theorem keeps_parenType : parenType.Keeps Occurs ends := by
  intro p q v h
  simp only [rule, orNone, lies_seq, lies_seqLeft, lies_map, lies_mark, lies_maybe_kept, exists_and_left,
    ↓existsAndEq, and_true, exists_start] at h
  obtain ⟨m, m₁, m₂, t, params, ⟨⟨ht, hparams⟩, hclose⟩, result, hresult, rfl⟩ := h
  have hlt : t.start < m := by order [hparams.1]
  refine TypeTree.keeps_parenthesised ht.1 hlt (hparams.row.mono ht.2.le hclose.le) ?_ hresult.1
  intro r hr
  have h := hresult.2 r hr
  simp only [lies_seqRight, lies_mark, lies_call, exists_and_right, exists_start] at h
  obtain ⟨m₃, harrow, h⟩ := h
  exact TypeTree.Keeps.mono h harrow.le le_rfl

theorem keeps_functionParam : functionParam.Keeps Occurs ends := by
  intro p q v h
  simp at h
  rcases h with h | h | ⟨t, h, rfl⟩ <;> exact h

theorem keeps_namedFunctionParam : namedFunctionParam.Keeps Occurs ends := by
  intro p q v h
  obtain ⟨loc, f, hf, rfl⟩ := lies_located h
  simp only [identifier, typed, colon, lies_seq, lies_map, lies_token, lies_present, lies_maybe_kept,
    exists_and_left, ↓existsAndEq, and_true, lies_seqRight, lies_mark, lies_call, exists_and_right,
    exists_start] at hf
  obtain ⟨m, m₁, n, _, ⟨hn, hquestion⟩, type, ⟨m₂, hcolon, htype⟩, rfl⟩ := hf
  have hp : p ≤ m₂ := by order [hquestion.1]
  exact TypeTree.Keeps.mono htype hp le_rfl

theorem keeps_restFunctionParam : restFunctionParam.Keeps Occurs ends := by
  intro p q v h
  obtain ⟨loc, f, hf, rfl⟩ := lies_located h
  simp only [label, identifier, colon, lies_seq, lies_map, lies_seqRight, lies_mark, lies_maybe_kept,
    exists_and_right, exists_start, lies_call, exists_and_left, ↓existsAndEq, and_true] at hf
  obtain ⟨m, _, ⟨m₁, hdots, hlabel⟩, type, htype, rfl⟩ := hf
  exact TypeTree.Keeps.mono htype (hdots.le.trans hlabel.1) le_rfl

end Types

section Objects

theorem row_members {p q : Position} {ms : List (Extent × MemberTree)}
    (h : Row (MembersLie Occurs ends) p q ms) :
    (∀ m ∈ ms, MembersLie Occurs ends p q m) ∧ (ms.map (·.1)).Pairwise Extent.Precedes := by
  induction h with
  | nil => exact ⟨fun m hm => (nomatch hm), .nil⟩
  | @cons p p' stop m q ms hgap hm hms ih =>
    obtain ⟨hstart, hstop, hends, hlies⟩ := hm
    have hle : stop ≤ q :=
      hms.le fun _ _ _ h => h.1.trans (h.2.2.2.1.le.trans h.2.1)
    have hp : p ≤ stop := hgap.trans (hstart.trans (hlies.1.le.trans hstop))
    constructor
    · rintro x (_ | ⟨_, hx⟩)
      · exact ⟨hgap.trans hstart, hstop.trans hle, hends, hlies⟩
      · obtain ⟨hx₁, hx₂⟩ := ih.1 x hx
        exact ⟨hp.trans hx₁, hx₂⟩
    · rw [List.map_cons, List.pairwise_cons, List.forall_mem_map]
      exact ⟨fun x hx => hstop.trans (ih.1 x hx).1, ih.2⟩

theorem keeps_braced {o : ObjectTree} {opening closing : Mark} {p q : Position} (ho : Occurs o)
    (h : (Phrase.spanned (Phrase.mark opening *> orNone (call objectMembers)
      <* Phrase.mark closing)).Lies ends (Kept Occurs ends) p q (o.extent, o.members)) :
    o.Keeps Occurs ends p q := by
  have hmembers (p q : Position) (h : (Phrase.mark opening *> orNone (call objectMembers)
      <* Phrase.mark closing).Lies ends (Kept Occurs ends) p q o.members) :
      p < q ∧ Row (MembersLie Occurs ends) p q o.members := by
    simp [-Phrase.lies_maybe, lies_maybe_kept] at h
    obtain ⟨m, ⟨m₁, hopen, ms, hms, heq⟩, hclose⟩ := h
    rw [heq]
    exact ⟨hopen.trans_le (hms.1.trans hclose.le), hms.row.mono hopen.le hclose.le⟩
  obtain ⟨hstart, h, hstop, -⟩ := h.of_spanned fun p q h => (hmembers p q h).1
  obtain ⟨hlt, hrow⟩ := hmembers _ _ h
  obtain ⟨hlie, hpairwise⟩ := row_members hrow
  refine ⟨ho, hstart, hlt, hstop, ⟨?_, hpairwise⟩, fun m hm => (hlie m hm).2.2.1,
    fun m hm => (hlie m hm).2.2.2.2⟩
  rw [List.forall_mem_map]
  exact fun m hm => ⟨(hlie m hm).1, (hlie m hm).2.2.2.1, (hlie m hm).2.1⟩

theorem keeps_objectMembers : objectMembers.Keeps Occurs ends := by
  intro p q v h
  refine Row.imp (fun p q m h => ?_) h
  obtain ⟨hstart, h, hstop, hends⟩ := h.of_spanned fun _ _ h => h.1
  exact ⟨hstart, hstop, hends, h⟩

theorem keeps_objectMember : objectMember.Keeps Occurs ends := by
  intro p q v h
  simp at h
  rcases h with h | h | h | h | h <;> exact h

theorem keeps_objectProperty : objectProperty.Keeps Occurs ends := by
  intro p q v h
  simp only [rule, typed, colon, lies_seq, lies_map, lies_call, lies_present, lies_maybe_kept,
    exists_and_left, ↓existsAndEq, and_true, lies_seqRight, lies_mark, exists_and_right, exists_start] at h
  obtain ⟨m, m₁, key, _, ⟨hkey, hquestion⟩, value, ⟨m₂, hcolon, h⟩, rfl⟩ := h
  have hname : p ≤ m₁ := Kept.le _ _ _ _ hkey
  have hvalue : value.Keeps Occurs p q :=
    TypeTree.Keeps.mono h (hname.trans (hquestion.1.trans hcolon.le)) le_rfl
  exact ⟨hvalue.lt, hvalue⟩

theorem keeps_methodProperty : methodProperty.Keeps Occurs ends := by
  intro p q v h
  simp only [rule, functionParameters, inParens, orNone, typed, colon, lies_seq, lies_map, lies_call,
    lies_seqLeft, lies_seqRight, lies_mark, lies_maybe_kept, exists_and_right, exists_start,
    exists_and_left, ↓existsAndEq, and_true] at h
  obtain ⟨m, m₁, key, m₂, m₃, params, ⟨hkey, ⟨hopen, hparams⟩, hclose⟩, result,
    ⟨m₄, hcolon, hresult⟩, rfl⟩ := h
  have hname : p ≤ m₁ := Kept.le _ _ _ _ hkey
  have hresult : result.Keeps Occurs m q := TypeTree.Keeps.mono hresult hcolon.le le_rfl
  have hlt : p < q := by order [hparams.1, hresult.lt]
  exact ⟨hlt, m, hparams.row.mono (hname.trans hopen.le) hclose.le, hresult⟩

theorem keeps_spreadProperty : spreadProperty.Keeps Occurs ends := by
  intro p q v h
  simp at h
  obtain ⟨t, ⟨m, hdots, h⟩, rfl⟩ := h
  have ht : t.Keeps Occurs p q := TypeTree.Keeps.mono h hdots.le le_rfl
  exact ⟨ht.lt, ht⟩

theorem keeps_objectIndexer : objectIndexer.Keeps Occurs ends := by
  intro p q v h
  simp only [rule, label, identifier, colon, typed, lies_seq, lies_map, lies_seqRight, lies_mark,
    lies_maybe_kept, exists_and_right, exists_start, lies_seqLeft, lies_call, exists_and_left,
    ↓existsAndEq, and_true] at h
  obtain ⟨m, m₁, _, key, ⟨⟨m₂, hopen, hlabel⟩, m₃, hkey, hclose⟩, value, ⟨m₄, hcolon, hvalue⟩, rfl⟩ := h
  have hkey : key.Keeps Occurs p m := TypeTree.Keeps.mono hkey (hopen.le.trans hlabel.1) hclose.le
  have hvalue : value.Keeps Occurs m q := TypeTree.Keeps.mono hvalue hcolon.le le_rfl
  exact ⟨hkey.lt.trans hvalue.lt, m, hkey, hvalue⟩

theorem keeps_callProperty : callProperty.Keeps Occurs ends := by
  intro p q v h
  simp only [rule, functionParameters, inParens, orNone, typed, colon, lies_seq, lies_map, lies_seqLeft,
    lies_seqRight, lies_mark, lies_maybe_kept, exists_and_right, exists_start, exists_and_left,
    ↓existsAndEq, and_true, lies_call] at h
  obtain ⟨m, m₁, m₂, params, ⟨⟨hopen, hparams⟩, hclose⟩, result, ⟨m₃, hcolon, hresult⟩, rfl⟩ := h
  have hresult : result.Keeps Occurs m q := TypeTree.Keeps.mono hresult hcolon.le le_rfl
  have hlt : p < q := by order [hparams.1, hresult.lt]
  exact ⟨hlt, m, hparams.row.mono hopen.le hclose.le, hresult⟩

end Objects

section Written

variable {tokens : List Token} {c d : Cursor} {v : α}

theorem keeps (n : Construct α) (h : Written n c d v) (hc : c.On tokens) {p q : Position}
    (hlies : (rule n).Lies ends (Kept (ObjectTree.WrittenIn tokens) ends) p q v) :
    Kept (ObjectTree.WrittenIn tokens) ends n p q v := by
  cases n with
  | start => exact hlies
  | item => exact keeps_item hlies
  | importDecl => exact keeps_importDecl hlies
  | exportDecl => exact keeps_exportDecl hlies
  | defaultValue => exact keeps_defaultValue hlies
  | declaration => exact keeps_declaration hlies
  | typeAlias => exact keeps_typeAlias hlies
  | interfaceDecl => exact keeps_interfaceDecl hlies
  | classDecl => exact keeps_classDecl hlies
  | heritage => exact keeps_heritage hlies
  | functionDecl => exact keeps_functionDecl hlies
  | variableDecl => exact keeps_variableDecl hlies
  | declarator => exact keeps_declarator hlies
  | ascription => exact keeps_ascription hlies
  | initializer => exact keeps_initializer hlies
  | classBody => exact keeps_classBody hlies
  | classMember => exact keeps_classMember hlies
  | classProperty => exact keeps_classProperty hlies
  | classMethod => exact keeps_classMethod hlies
  | params => exact hlies
  | anyParam => exact keeps_anyParam hlies
  | param => exact keeps_param hlies
  | restParam => exact keeps_restParam hlies
  | assignment => exact keeps_assignment hlies
  | callStatement => exact keeps_callStatement hlies
  | expr => exact keeps_expr hlies
  | callExpr => exact keeps_callExpr hlies
  | callArgs => exact keeps_callArgs hlies
  | args => exact hlies
  | objectExpr => exact keeps_objectExpr hlies
  | objectEntry => exact keeps_objectEntry hlies
  | keyedEntry => exact keeps_keyedEntry hlies
  | shorthand => exact keeps_shorthand hlies
  | spreadEntry => exact keeps_spreadEntry hlies
  | arrayExpr => exact keeps_arrayExpr hlies
  | arrowExpr => exact keeps_arrowExpr hlies
  | arrowParams => exact keeps_arrowParams hlies
  | type => exact hlies
  | union => exact keeps_union hlies
  | intersection => exact keeps_intersection hlies
  | nullable => exact keeps_nullable hlies
  | array => exact keeps_array hlies
  | primary => exact keeps_primary hlies
  | genericType => exact keeps_genericType hlies
  | typeArgs => exact keeps_typeArgs hlies
  | tupleType => exact keeps_tupleType hlies
  | parenType => exact keeps_parenType hlies
  | arrowResult => exact hlies
  | functionParams => exact hlies
  | functionParam => exact keeps_functionParam hlies
  | namedFunctionParam => exact keeps_namedFunctionParam hlies
  | restFunctionParam => exact keeps_restFunctionParam hlies
  | objectType =>
    obtain ⟨x, hlies, rfl⟩ := hlies
    exact keeps_braced ⟨objectType, by simp, c, d, hc, h⟩ hlies
  | exactObjectType =>
    obtain ⟨x, hlies, rfl⟩ := hlies
    exact keeps_braced ⟨exactObjectType, by simp, c, d, hc, h⟩ hlies
  | objectMembers => exact keeps_objectMembers hlies
  | objectMember => exact keeps_objectMember hlies
  | objectProperty => exact keeps_objectProperty hlies
  | methodProperty => exact keeps_methodProperty hlies
  | spreadProperty => exact keeps_spreadProperty hlies
  | objectIndexer => exact keeps_objectIndexer hlies
  | callProperty => exact keeps_callProperty hlies
  | _ => exact hlies.le fun _ => Kept.le

theorem traces_of_written (ho : Ordered ends tokens) {n : Construct α} (h : Written n c d v) :
    c.Traces tokens d fun p q => Kept (ObjectTree.WrittenIn tokens) ends n p q v :=
  Rules.Derives.traces ho (fun _ => Kept.le)
    (fun _ n _ _ _ h hc _ _ hlies => keeps n h hc hlies) h

end Written

end Construct

end PropTables
