import PropTables.Proofs.Filling
import PropTables.Proofs.ItemPlaces
import PropTables.Proofs.Sentences

/-! Everything in a module that is read from a source stands where it says. There is one lemma for each
construct of the grammar, from the constructs that it is made of. -/

namespace PropTables

variable {source : String} {α : Type} {p q m : Position} {t : Token}

abbrev OfSource (source : String) (t : Token) : Prop :=
  t ∈ (Lexing.ofSource source).tokens

namespace Construct

open Phrase (maybe call)
open Phrase (fills_call fills_keyword fills_listOrNone fills_many fills_map fills_mark fills_maybe
  fills_orElse fills_present fills_seq fills_seqLeft fills_seqRight fills_spanned fills_token)

def Sits (source : String) : Location Construct
  | _, start, p, q, items => Row (Build.Sits source .item) p q items
  | _, item, p, q, b | _, importDecl, p, q, b | _, exportDecl, p, q, b | _, assignment, p, q, b
  | _, callStatement, p, q, b => b.Sits source .item p q
  | _, importClause, p, q, is | _, namedImports, p, q, is | _, namespaceImport, p, q, is =>
    Row (ImportTree.Sits source p) p q is
  | _, importDefault, p, q, i => i.Sits source p p q
  | _, importSpec, p, q, i => p < q ∧ ∃ kind imported renamed, i = .named p kind imported renamed
  | _, defaultValue, p, q, b => b.Sits source DefaultExport.node p q
  | _, exportClause, p, q, ss => Row (fun p q s => SyntaxNode.Sits source p q (.exportSpecifier s)) p q ss
  | _, exportSpec, p, q, s => SyntaxNode.Sits source p q (.exportSpecifier s)
  | _, declaration, p, q, b => b.Sits source .declaration p q
  | _, typeAlias, p, q, b => b.Sits source (.declaration ∘ .typeAlias) p q
  | _, interfaceDecl, p, q, b => b.Sits source (.declaration ∘ .interface) p q
  | _, functionDecl, p, q, b => b.Sits source (.declaration ∘ .function) p q
  | _, variableDecl, p, q, b => b.Sits source (.declaration ∘ .binding) p q
  | _, classDecl, p, q, c => c.Sits source p q
  | _, heritage, p, q, s => ClassTree.HeritageSits source p q s
  | _, declarator, p, q, b => b.Sits source .declarator p q
  | _, typeParams, p, q, ps => Row (fun p q x => SyntaxNode.Sits source p q (.typeParameter x)) p q ps
  | _, typeParam, p, q, x => SyntaxNode.Sits source p q (.typeParameter x)
  | _, ascription, p, q, a => a.Sits source p q
  | _, classBody, p, q, bs => Row (Build.Sits source .classMember) p q bs
  | _, classMember, p, q, b | _, classProperty, p, q, b | _, classMethod, p, q, b =>
    b.Sits source .classMember p q
  | _, params, p, q, ts | _, arrowParams, p, q, ts => Row (ParamTree.Sits source) p q ts
  | _, anyParam, p, q, t | _, param, p, q, t | _, restParam, p, q, t => t.Sits source p q
  | _, initializer, p, q, e | _, expr, p, q, e | _, objectExpr, p, q, e | _, arrayExpr, p, q, e
  | _, arrowExpr, p, q, e => Build.Sits source .expr p q e
  | _, memberExpr, p, q, v =>
    v.1.start = p ∧ SyntaxNode.Sits source p q (.expr (PathTree.dotted v.1 v.2))
  | _, callExpr, p, q, v => v.1.start = p ∧ PathSits source p q v.1 v.2
  | _, callArgs, p, q, c => CallSits source p q c
  | _, args, p, q, es => Row (Build.Sits source .expr) p q es
  | _, objectEntry, p, q, b | _, keyedEntry, p, q, b | _, shorthand, p, q, b
  | _, spreadEntry, p, q, b => b.Sits source .entry p q
  | _, type, p, q, t | _, union, p, q, t | _, intersection, p, q, t | _, nullable, p, q, t
  | _, array, p, q, t | _, primary, p, q, t | _, genericType, p, q, t | _, tupleType, p, q, t
  | _, parenType, p, q, t | _, arrowResult, p, q, t => t.Sits source p q
  | _, typeArgs, p, q, ts => Row (TypeTree.Sits source) p q ts
  | _, functionParams, p, q, ts => Row (FunctionParamTree.Sits source) p q ts
  | _, functionParam, p, q, t | _, namedFunctionParam, p, q, t | _, restFunctionParam, p, q, t =>
    t.Sits source p q
  | _, objectType, p, q, o | _, exactObjectType, p, q, o => o.Sits source p q
  | _, objectMembers, p, q, ms => Row (MemberSits source) p q ms
  | _, objectMember, p, q, x | _, objectProperty, p, q, x | _, methodProperty, p, q, x
  | _, spreadProperty, p, q, x | _, objectIndexer, p, q, x | _, callProperty, p, q, x =>
    x.Sits source p q
  | _, block, p, q, _ | _, paramTarget, p, q, _ | _, memberName, p, q, _ => p < q
  | _, name, p, q, t | _, importName, p, q, t | _, objectKey, p, q, t => t.start = p ∧ t.Sits source p q
  | _, _, p, q, _ => p ≤ q

theorem Sits.le (n : Construct α) (p q : Position) (v : α) (h : Sits source n p q v) : p ≤ q := by
  have hbuild {β : Type} {f : β → SyntaxNode} (p q : Position) (b : Build β)
      (h : b.Sits source f p q) : p ≤ q := h.lt.le
  have htype (p q : Position) (t : TypeTree) (h : t.Sits source p q) : p ≤ q := h.lt.le
  have hparam (p q : Position) (t : ParamTree) (h : t.Sits source p q) : p ≤ q :=
    (h.le_loc.trans_lt h.loc_lt).le
  have hclause {lo : Position} (p q : Position) (i : ImportTree) (h : i.Sits source lo p q) : p ≤ q :=
    h.lt.le
  -- The constructs are taken together by the kind of value they have.
  cases n with
  | start | classBody | args => exact Row.le hbuild h
  | importClause | namedImports | namespaceImport => exact Row.le hclause h
  | importDefault => exact ImportTree.Sits.lt h |>.le
  | importSpec => exact h.1.le
  | exportClause | typeParams => exact Row.le (fun _ _ _ h => SyntaxNode.Sits.lt h |>.le) h
  | exportSpec | typeParam => exact SyntaxNode.Sits.lt h |>.le
  | classDecl => exact (ClassTree.Sits.le_loc h).trans (ClassTree.Sits.loc_lt h).le
  | heritage =>
    obtain ⟨m, he, hargs⟩ := h
    exact he.lt.le.trans hargs.1
  | ascription => exact htype _ _ _ h
  | params | arrowParams => exact Row.le hparam h
  | anyParam | param | restParam => exact hparam _ _ _ h
  | memberExpr => exact h.2.lt.le
  | callExpr => exact h.2.lt.le
  | callArgs => exact (CallSits.le_loc h).trans (CallSits.loc_lt h).le
  | type | union | intersection | nullable | array | primary | genericType | tupleType | parenType
  | arrowResult => exact htype _ _ _ h
  | typeArgs => exact Row.le htype h
  | functionParams => exact Row.le (fun _ _ _ h => FunctionParamTree.Sits.lt h |>.le) h
  | functionParam | namedFunctionParam | restFunctionParam => exact FunctionParamTree.Sits.lt h |>.le
  | objectType | exactObjectType => exact ObjectTree.Sits.lt h |>.le
  | objectMembers => exact Row.le (fun _ _ _ h => (ObjectTree.sits_lt h.2).le) h
  | objectMember | objectProperty | methodProperty | spreadProperty | objectIndexer | callProperty =>
    exact (ObjectTree.sits_lt h).le
  | block | paramTarget | memberName => exact LT.lt.le h
  | name | importName | objectKey => exact h.2.le_start.trans h.2.start_lt.le
  | _ => first | exact hbuild _ _ _ h | exact h

def Stands (source : String) (n : Construct α) : Prop :=
  ∀ ⦃p q v⦄, (rule n).Fills (OfSource source) (Sits source) p q v → Sits source n p q v

section Tokens

theorem sits_token (hp : p ≤ t.start) (hq : t.start < q) (h : OfSource source t) : t.Sits source p q :=
  ⟨hp, hq, Lexing.standsAt_of_mem_tokens h⟩

theorem stands_keyword {k : Keyword} {text : String} (hk : t.terminal = .keyword k)
    (h : OfSource source t) (htext : k.spelling = text) : StandsAt source t.start text := by
  rw [← htext, ← (Lexing.standsAlone_of_mem_tokens h).text_keyword hk]
  exact Lexing.standsAt_of_mem_tokens h

theorem stands_mark {m : Mark} {text : String} (hm : t.terminal = .mark m) (h : OfSource source t)
    (htext : m.spelling = text) : StandsAt source t.start text := by
  rw [← htext, ← (Lexing.standsAlone_of_mem_tokens h).text_mark hm]
  exact Lexing.standsAt_of_mem_tokens h

end Tokens

section Declarations

theorem stands_item : item.Stands source := by
  intro p q v h
  simp at h
  rcases h with h | h | ⟨d, h, rfl⟩ | h | h
  · exact h
  · exact h
  · exact ⟨Build.Sits.lt h, ItemTree.sits_declaration h⟩
  · exact h
  · exact h

theorem stands_importDecl : importDecl.Stands source := by
  intro p q v h
  simp only [rule, string, semicolon, fills_orElse, fills_seqLeft, fills_seq, fills_map, fills_keyword,
    List.mem_singleton, fills_maybe, exists_and_left, ↓existsAndEq, and_true, fills_call, fills_seqRight,
    fills_token, exists_and_right, true_and, exists_optional] at h
  rcases h with ⟨m, ⟨a, b, word, kind, is, text, colon, ⟨⟨⟨hword, hmem, rfl, hlt⟩, hkind⟩, his⟩,
      ⟨⟨-, -, hcolon⟩, -, -, htext⟩, rfl⟩, hq⟩ |
    ⟨m, ⟨word, text, ⟨hword, hmem, rfl, hlt⟩, ⟨-, -, htext⟩, rfl⟩, hq⟩
  · have his : Row (ImportTree.Sits source a) a colon.start is := his
    have hle : a ≤ colon.start := Sits.le importClause _ _ _ his
    have hlo : word.start < a := hlt.trans_le hkind.1
    have hend : colon.start ≤ q := by order
    exact ⟨hlo.trans_le (hle.trans hend),
      ImportTree.sits_all le_rfl hlo (hle.trans hend) (stands_keyword hword hmem rfl) (his.mono le_rfl hend)⟩
  · have hend : text.start ≤ q := by order
    exact ⟨hlt.trans_le hend,
      ImportTree.sits_all le_rfl hlt hend (stands_keyword hword hmem rfl) (.nil hend)⟩

theorem stands_importClause : importClause.Stands source := by
  intro p q v h
  simp at h
  rcases h with ⟨m, i, hi, more, hmore, rfl⟩ | h | h
  · refine Row.cons le_rfl hi ?_
    cases more with
    | none => exact .nil hmore.1
    | some is =>
      have his := hmore.2 is rfl
      simp at his
      obtain ⟨m', ⟨t, -, -, rfl, hcomma⟩, his⟩ := his
      have hp : p ≤ m' := (Sits.le importDefault _ _ _ hi).trans hcomma.le
      have his : Row (ImportTree.Sits source m') m' q is := his.elim id id
      exact (his.imp fun _ _ _ h => h.mono hp).mono hcomma.le le_rfl
  · exact h
  · exact h

theorem stands_importDefault : importDefault.Stands source := by
  intro p q v h
  simp at h
  obtain ⟨n, ⟨-, hmem, rfl, hlt⟩, rfl⟩ := h
  exact sits_token le_rfl hlt hmem

theorem stands_namedImports : namedImports.Stands source := by
  intro p q v h
  simp at h
  obtain ⟨close, ⟨m, ⟨t, hbrace, hmem, rfl, hlt⟩, is, his, rfl⟩, -, -, hclose⟩ := h
  -- Each specifier stands behind the brace.
  have hrow : ∀ {a b is}, t.start < a → Row (Sits source importSpec) a b is →
      Row (ImportTree.Sits source t.start) a b is := by
    intro a b is ha h
    induction h with
    | nil h => exact .nil h
    | cons hgap hx _ ih =>
      obtain ⟨hlt, kind, imported, renamed, rfl⟩ := hx
      exact .cons hgap ⟨le_rfl, hlt, t, hmem, hbrace, le_rfl, ha.trans_le hgap⟩
        (ih (ha.trans (hgap.trans_lt hlt)))
  exact (hrow hlt (Optional.row his)).mono hlt.le hclose.le

theorem stands_importSpec : importSpec.Stands source := by
  intro p q v h
  simp only [rule, identifier, fills_map, fills_spanned, fills_seq, fills_maybe, fills_call,
    exists_and_left, ↓existsAndEq, and_true, Prod.exists, Prod.mk.injEq, true_and, exists_eq_right_right',
    exists_and_right] at h
  obtain ⟨extent, kind, imported, renamed, ⟨rfl, m, ⟨a, hkind, -, hname⟩, hrenamed⟩, rfl⟩ := h
  have hlt : a < m := hname.le_start.trans_lt hname.start_lt
  exact ⟨hkind.1.trans_lt (hlt.trans_le hrenamed.1), kind, imported, renamed, rfl⟩

theorem stands_importName : importName.Stands source := by
  intro p q v h
  simp at h
  obtain ⟨-, hmem, rfl, hlt⟩ := h
  exact ⟨rfl, sits_token le_rfl hlt hmem⟩

theorem stands_namespaceImport : namespaceImport.Stands source := by
  intro p q v h
  simp at h
  obtain ⟨n, ⟨⟨word, ⟨star, -, -, rfl, hstar⟩, -, -, hword⟩, -, hmem, hlt⟩, rfl⟩ := h
  have hp : star.start ≤ n.start := by order
  exact .single (sits_token hp hlt hmem)

theorem stands_exportDecl : exportDecl.Stands source := by
  intro p q v h
  simp only [rule, semicolon, string, fills_orElse, fills_seqLeft, fills_seq, fills_map, fills_keyword,
    List.mem_singleton, fills_seqRight, fills_call, exists_and_right, exists_and_left, ↓existsAndEq,
    and_true, true_and, fills_maybe, exists_optional, fills_mark, fills_token, fills_present] at h
  rcases h with ⟨m, ⟨word, d, m', default_, ⟨hword, hmem, rfl, hlt⟩, ⟨⟨-, -, hdefault⟩, h⟩, rfl⟩, hq⟩ |
    ⟨m, ⟨word, text, from_, star, ⟨hword, hmem, rfl, hlt⟩, ⟨⟨⟨-, -, hstar⟩, -, -, hfrom⟩, -, -, htext⟩,
      rfl⟩, hq⟩ |
    ⟨m, word, ⟨hword, hmem, rfl, hlt⟩, d, h, rfl⟩ |
    ⟨m, ⟨a, b, m', word, types, ss, ⟨⟨⟨hword, hmem, rfl, hlt⟩, htypes⟩, hss⟩, text, htext, rfl⟩, hq⟩
  · have hd := Build.Sits.mono h (hlt.trans hdefault).le hq
    exact ⟨hd.lt, ItemTree.sits_exportedDefault le_rfl hd.lt (stands_keyword hword hmem rfl) hd⟩
  · have hend : word.start < q := by order
    exact ⟨hend, ItemTree.sits_exportedAll le_rfl hend (stands_keyword hword hmem rfl) text⟩
  · have hd := Build.Sits.mono h hlt.le le_rfl
    exact ⟨hd.lt, ItemTree.sits_exported le_rfl hd.lt (stands_keyword hword hmem rfl) hd⟩
  · have hclause : b ≤ a := Sits.le exportClause _ _ _ hss
    have hend : a ≤ q := by order [htext.1]
    have hstart : word.start < b := hlt.trans_le htypes.1
    have hlt : word.start < q := hstart.trans_le (hclause.trans hend)
    exact ⟨hlt, ExportClauseTree.sits_build le_rfl hlt (stands_keyword hword hmem rfl)
      (Row.mono hss hstart.le hend)⟩

theorem stands_defaultValue : defaultValue.Stands source := by
  intro p q v h
  simp [-bind_pure_comp] at h
  rcases h with ⟨c, h, rfl⟩ | ⟨f, h, rfl⟩ | ⟨e, h, rfl⟩
  · have hlt : p < q := (ClassTree.Sits.le_loc h).trans_lt (ClassTree.Sits.loc_lt h)
    exact ⟨hlt, (ClassTree.Sits.build h).map fun _ hx => hx⟩
  · exact ⟨Build.Sits.lt h, (Build.Sits.yields h).map fun _ hx => hx⟩
  · exact ⟨Build.Sits.lt h, (Build.Sits.yields h).map fun _ hx => hx⟩

theorem stands_exportClause : exportClause.Stands source := by
  intro p q v h
  simp at h
  obtain ⟨close, ⟨m, ⟨t, -, -, rfl, hlt⟩, ss, hss, rfl⟩, -, -, hclose⟩ := h
  exact (Optional.row hss).mono hlt.le hclose.le

theorem stands_exportSpec : exportSpec.Stands source := by
  intro p q v h
  simp at h
  obtain ⟨m, inner, ⟨rfl, h⟩, exported, hexported, rfl⟩ := h
  exact .of_leaf le_rfl (h.start_lt.trans_le hexported.1) nofun rfl rfl

theorem stands_declaration : declaration.Stands source := by
  intro p q v h
  simp [-bind_pure_comp] at h
  rcases h with ⟨a, h, rfl⟩ | ⟨i, h, rfl⟩ | ⟨c, h, rfl⟩ | ⟨f, h, rfl⟩ | ⟨b, h, rfl⟩
  · exact ⟨Build.Sits.lt h, (Build.Sits.yields h).map fun _ hx => hx⟩
  · exact ⟨Build.Sits.lt h, (Build.Sits.yields h).map fun _ hx => hx⟩
  · have hlt : p < q := (ClassTree.Sits.le_loc h).trans_lt (ClassTree.Sits.loc_lt h)
    exact ⟨hlt, (ClassTree.Sits.buildNamed h).map fun _ hx => hx⟩
  · exact ⟨Build.Sits.lt h, (Build.Sits.yields h).map fun _ hx => hx⟩
  · exact ⟨Build.Sits.lt h, (Build.Sits.yields h).map fun _ hx => hx⟩

theorem row_typeParams {ps : Option (List TypeParameter)}
    (h : Optional (Sits source typeParams) p q ps) :
    Row (SyntaxNode.Sits source) p q ((ps.getD []).map .typeParameter) :=
  Row.map (Optional.row h)

theorem stands_typeAlias : typeAlias.Stands source := by
  intro p q v h
  simp only [rule, identifier, orNone, semicolon, fills_seqLeft, fills_seq, fills_map, fills_keyword,
    List.mem_singleton, fills_token, exists_and_left, ↓existsAndEq, and_true, true_and, fills_maybe,
    fills_seqRight, fills_mark, fills_call, exists_and_right, exists_optional] at h
  obtain ⟨m, ⟨a, word, n, params, right, b, equals, ⟨⟨⟨hword, hmem, rfl, hlt⟩, -, -, hn⟩, hparams⟩,
    ⟨⟨-, -, hequals⟩, hright⟩, rfl⟩, hq⟩ := h
  have hend : word.start < q := by order [hparams.1, TypeTree.Sits.lt hright]
  exact ⟨hend, AliasTree.sits_build le_rfl hend (stands_keyword hword hmem rfl) (row_typeParams hparams)
    hright⟩

theorem stands_interfaceDecl : interfaceDecl.Stands source := by
  intro p q v h
  simp only [rule, identifier, orNone, fills_seq, fills_map, fills_keyword, List.mem_singleton,
    fills_token, exists_and_left, ↓existsAndEq, and_true, true_and, fills_maybe, fills_call] at h
  obtain ⟨m, a, word, n, params, ⟨⟨⟨hword, hmem, rfl, hlt⟩, -, -, hn⟩, hparams⟩, body, hbody, rfl⟩ := h
  have hend : word.start < q := by order [hparams.1, ObjectTree.Sits.lt hbody]
  exact ⟨hend, PropTables.sits_interface le_rfl hend (stands_keyword hword hmem rfl)
    (row_typeParams hparams) hbody⟩

theorem stands_classDecl : classDecl.Stands source := by
  intro p q v h
  simp only [rule, identifier, orNone, fills_seq, fills_map, fills_keyword, List.mem_singleton,
    fills_maybe, exists_and_left, ↓existsAndEq, and_true, fills_call] at h
  obtain ⟨m, a, b, c, word, n, params, superclass, ⟨⟨⟨⟨hword, hmem, rfl, hlt⟩, hn⟩, hparams⟩, hsuper⟩, body,
    hbody, rfl⟩ := h
  have hend : m ≤ q := Sits.le classBody _ _ _ hbody
  refine ⟨le_rfl, by order [hn.1, hparams.1, hsuper.1], stands_keyword hword hmem rfl,
    ⟨_, _, row_typeParams hparams⟩, ⟨a, m, hsuper.1, fun s hs => ?_⟩, ⟨_, _, hbody⟩⟩
  have h := hsuper.2 s hs
  simp only [fills_seqRight, fills_keyword, List.mem_singleton, fills_call, exists_and_right] at h
  obtain ⟨m', ⟨t, -, -, rfl, hextends⟩, m'', he, hargs⟩ := h
  exact ⟨m'', he.mono hextends.le le_rfl, hargs⟩

theorem stands_heritage : heritage.Stands source := by
  intro p q v h
  simp at h
  obtain ⟨m, head, attrs, ⟨-, he⟩, args, hargs, rfl⟩ := h
  exact ⟨m, he, hargs⟩

theorem stands_functionDecl : functionDecl.Stands source := by
  intro p q v h
  simp only [rule, identifier, orNone, parameters, inParens, fills_seq, fills_map, fills_keyword,
    List.mem_singleton, fills_token, exists_and_left, ↓existsAndEq, and_true, true_and, fills_maybe,
    exists_and_right, exists_optional, fills_seqLeft, fills_seqRight, fills_mark, fills_call] at h
  obtain ⟨m, a, b, word, n, close, c, params, result, ⟨⟨open_, ⟨⟨⟨hword, hmem, rfl, hlt⟩, -, -, hn⟩, htypes⟩,
    ⟨⟨-, -, hopen⟩, hparams⟩, -, -, hclose⟩, hresult⟩, ⟨_, hblock⟩, rfl⟩ := h
  have hend : m ≤ q := Sits.le block _ _ _ hblock
  have hlt : word.start < q := by order [hparams.1, hresult.1]
  exact ⟨hlt, PropTables.sits_functionDeclaration le_rfl hlt (stands_keyword hword hmem rfl)
    (Optional.row hparams) hresult⟩

theorem row_behind {mark : Mark} {n : Construct α} {xs : List α}
    (h : Row (Phrase.Fills (OfSource source) (Sits source) (Phrase.mark mark *> call n)) p q xs) :
    Row (Sits source n) p q xs := by
  induction h with
  | nil h => exact .nil h
  | cons hgap hx _ ih =>
    simp at hx
    obtain ⟨m, ⟨t, -, -, rfl, hlt⟩, hx⟩ := hx
    exact .cons (hgap.trans hlt.le) hx ih

theorem stands_variableDecl : variableDecl.Stands source := by
  intro p q v h
  simp only [rule, comma, semicolon, fills_seqLeft, fills_seq, fills_map, fills_token,
    fills_call, exists_and_left, ↓existsAndEq, and_true, fills_many, fills_maybe, exists_optional] at h
  obtain ⟨m, ⟨a, b, word, first, ⟨⟨-, -, rfl, hlt⟩, hfirst⟩, others, hothers, rfl⟩, hq⟩ := h
  have hrow : Row (Build.Sits source .declarator) word.start m (first :: others) :=
    .cons hlt.le hfirst (row_behind hothers)
  have hend : word.start < q := by order [Build.Sits.lt hfirst, Build.row_le (row_behind hothers)]
  exact ⟨hend, sits_variables le_rfl hend (hrow.mono le_rfl hq)⟩

theorem stands_declarator : declarator.Stands source := by
  intro p q v h
  simp only [rule, identifier, fills_seq, fills_map, fills_token, List.mem_singleton, fills_maybe,
    exists_and_left, ↓existsAndEq, and_true] at h
  obtain ⟨m, a, n, ascription, ⟨⟨-, hmem, rfl, hlt⟩, ha⟩, init, hinit, rfl⟩ := h
  have hend : n.start < q := by order [ha.1, hinit.1]
  exact ⟨hend, PropTables.sits_declarator (sits_token le_rfl hend hmem) ha hinit⟩

theorem stands_typeParams : typeParams.Stands source := by
  intro p q v h
  simp at h
  obtain ⟨close, ⟨m, ⟨t, -, -, rfl, hlt⟩, h⟩, -, -, hclose⟩ := h
  exact Row.mono h hlt.le hclose.le

theorem stands_typeParam : typeParam.Stands source := by
  intro p q v h
  simp at h
  obtain ⟨n, ⟨-, hmem, rfl, hlt⟩, rfl⟩ := h
  have hname := Lexing.standsAt_of_mem_tokens hmem
  exact .of_leaf le_rfl hlt (fun _ hs => Option.mem_some_iff.1 hs ▸ hname) rfl rfl

theorem stands_ascription : ascription.Stands source := by
  intro p q v h
  simp at h
  obtain ⟨m, t, ⟨-, -, rfl, hlt⟩, type, h, rfl⟩ := h
  exact TypeTree.Sits.mono h hlt.le le_rfl

theorem stands_initializer : initializer.Stands source := by
  intro p q v h
  simp at h
  obtain ⟨m, ⟨t, -, -, rfl, hlt⟩, h⟩ := h
  exact Build.Sits.mono h hlt.le le_rfl

theorem stands_classBody : classBody.Stands source := by
  intro p q v h
  simp at h
  obtain ⟨close, ⟨m, ⟨t, -, -, rfl, hlt⟩, h⟩, -, -, hclose⟩ := h
  exact Row.mono h hlt.le hclose.le

theorem stands_classMember : classMember.Stands source := by
  intro p q v h
  simp at h
  exact h.elim id id

theorem stands_classProperty : classProperty.Stands source := by
  intro p q v h
  simp only [rule, located, semicolon, fills_map, fills_spanned, fills_seqLeft, fills_seq, fills_present,
    ↓existsAndEq, and_true, fills_call, exists_and_left, fills_maybe, exists_optional, Prod.exists] at h
  obtain ⟨extent, m, a, b, c, d, isStatic, key, optional, ascription, init, ⟨rfl, ⟨⟨⟨⟨hstatic, hkey⟩,
    hoptional⟩, ha⟩, hinit⟩, hq⟩, rfl⟩ := h
  have hlt : d < c := hkey
  have hend : extent.start < q := by order [hstatic.1, hoptional.1, ha.1, hinit.1]
  exact ⟨hend, ClassTree.sits_property le_rfl hend ha hinit⟩

theorem stands_classMethod : classMethod.Stands source := by
  intro p q v h
  simp only [rule, located, parameters, inParens, orNone, fills_map, fills_spanned, fills_seq,
    fills_present, ↓existsAndEq, and_true, fills_call, exists_and_left, fills_maybe, exists_and_right,
    exists_optional, fills_seqLeft, fills_seqRight, fills_mark, List.mem_singleton, true_and, Prod.exists] at h
  obtain ⟨extent, m, a, b, c, isStatic, key, close, d, params, result, ⟨rfl, ⟨⟨open_, ⟨⟨hstatic, hkey⟩,
    htypes⟩, ⟨⟨-, -, hopen⟩, hparams⟩, -, -, hclose⟩, hresult⟩, _, hblock⟩, rfl⟩ := h
  have hlt : c < b := hkey
  have hbody : m < q := hblock
  have hend : extent.start < q := by order [hstatic.1, hparams.1, hresult.1]
  exact ⟨hend, ClassTree.sits_method le_rfl hend (Optional.row hparams) hresult⟩

theorem stands_anyParam : anyParam.Stands source := by
  intro p q v h
  simp at h
  exact h.elim id id

theorem ascription_sits {a : Option AscriptionTree} (h : Optional (AscriptionTree.Sits source) p q a) :
    ∀ t ∈ a.map AscriptionTree.type, t.Sits source p q := by
  intro t ht
  obtain ⟨a, ha, rfl⟩ := Option.map_eq_some_iff.1 ht
  exact h.2 a ha

theorem stands_param : param.Stands source := by
  intro p q v h
  simp only [rule, located, fills_map, fills_spanned, fills_seq, fills_call, fills_present,
    exists_and_left, ↓existsAndEq, and_true, fills_maybe, exists_and_right, exists_optional, Prod.exists] at h
  obtain ⟨extent, m, a, b, target, optional, ascription, ⟨rfl, ⟨⟨htarget, hoptional⟩, ha⟩, hq⟩, rfl⟩ := h
  have hlt : extent.start < b := htarget
  have hstart : extent.start < a := hlt.trans_le hoptional.1
  refine ⟨le_rfl, by order [ha.1], fun t ht => ?_⟩
  exact (ascription_sits ha t ht).mono hstart.le hq

theorem stands_restParam : restParam.Stands source := by
  intro p q v h
  simp only [rule, located, identifier, fills_map, fills_spanned, fills_seq, fills_seqRight, fills_mark,
    List.mem_singleton, fills_token, exists_and_right, ↓existsAndEq, true_and, fills_maybe,
    exists_and_left, and_true, Prod.exists] at h
  obtain ⟨extent, m, n, ascription, ⟨rfl, ⟨⟨t, -, -, -, hdots⟩, -, -, hn⟩, ha⟩, rfl⟩ := h
  have hstart : extent.start < m := hdots.trans hn
  refine ⟨le_rfl, hstart.trans_le ha.1, fun t ht => ?_⟩
  exact (ascription_sits ha t ht).mono hstart.le le_rfl

theorem stands_paramTarget : paramTarget.Stands source := by
  intro p q v h
  simp at h
  rcases h with ⟨n, ⟨-, -, rfl, hlt⟩, rfl⟩ | ⟨⟨_, h⟩, rfl⟩
  · exact hlt
  · exact h

theorem stands_memberName : memberName.Stands source :=
  fun _ _ _ h => h.2.2.2

theorem stands_block : block.Stands source := by
  intro p q v h
  simp at h
  obtain ⟨xs, close, ⟨m, ⟨t, -, -, rfl, hlt⟩, h⟩, -, -, hclose⟩ := h
  have hle : m ≤ close.start := h.le fun _ _ _ h => h.le fun _ => Sits.le
  exact hlt.trans_le (hle.trans hclose.le)

theorem stands_assignment : assignment.Stands source := by
  intro p q v h
  simp only [rule, semicolon, fills_seqLeft, fills_seq, fills_map, fills_call, Prod.exists,
    fills_seqRight, fills_mark, List.mem_singleton, exists_and_right, exists_and_left, ↓existsAndEq,
    and_true, true_and, fills_maybe, exists_optional] at h
  obtain ⟨m, ⟨head, attrs, value, a, equals, ⟨rfl, htarget⟩, ⟨⟨-, -, hlt⟩, hvalue⟩, rfl⟩, hq⟩ := h
  have hvalue : value.Sits source .expr equals.start q := Build.Sits.mono hvalue hlt.le hq
  exact ⟨htarget.lt.trans hvalue.lt, ItemTree.sits_assignment htarget rfl hvalue⟩

theorem stands_callStatement : callStatement.Stands source := by
  intro p q v h
  simp at h
  obtain ⟨m, ⟨head, path, ⟨rfl, h⟩, rfl⟩, hq⟩ := h
  exact Build.Sits.mono ⟨h.lt, ItemTree.sits_call rfl h⟩ le_rfl hq

end Declarations

section Expressions

theorem stands_expr : expr.Stands source := by
  intro p q v h
  simp at h
  rcases h with ⟨t, ⟨-, hmem, rfl, hlt⟩, rfl⟩ | ⟨t, ⟨-, hmem, rfl, hlt⟩, rfl⟩ |
    ⟨t, ⟨-, hmem, rfl, hlt⟩, rfl⟩ | ⟨head, attrs, h, rfl⟩ | ⟨head, path, h, rfl⟩ | h | h | h
  · exact ⟨hlt, ExprTree.sits_string (sits_token le_rfl hlt hmem)⟩
  · exact ⟨hlt, ExprTree.sits_number (sits_token le_rfl hlt hmem)⟩
  · exact ⟨hlt, ExprTree.sits_template (sits_token le_rfl hlt hmem)⟩
  · exact ⟨h.2.lt, .pure h.2⟩
  · exact ⟨h.2.lt, h.2.build⟩
  · exact h
  · exact h
  · exact h

theorem stands_memberExpr : memberExpr.Stands source := by
  intro p q v h
  simp at h
  obtain ⟨m, head, ⟨-, hmem, rfl, hlt⟩, attrs, hattrs, rfl⟩ := h
  have hrow : Row (Token.Sits source) m q attrs := (row_behind hattrs).imp fun _ _ _ h => h.2
  exact ⟨rfl, PathTree.sits_dotted (sits_token le_rfl hlt hmem) hrow⟩

theorem stands_callExpr : callExpr.Stands source := by
  intro p q v h
  simp only [rule, fills_seq, fills_map, fills_call, Prod.exists, exists_and_left, ↓existsAndEq, and_true,
    fills_many] at h
  obtain ⟨m, a, head, attrs, loc, args, ⟨⟨rfl, hhead⟩, hfirst⟩, others, hothers, rfl⟩ := h
  exact ⟨rfl, a, hhead, .cons le_rfl hfirst hothers⟩

theorem stands_callArgs : callArgs.Stands source := by
  intro p q v h
  simp only [rule, orNone, fills_seqLeft, fills_seq, fills_map, fills_mark, List.mem_singleton,
    fills_maybe, exists_and_left, ↓existsAndEq, and_true, true_and] at h
  obtain ⟨close, ⟨m, t, ⟨-, -, rfl, hlt⟩, args, hargs, rfl⟩, -, -, hclose⟩ := h
  exact ⟨le_rfl, by order [hargs.1], (Optional.row hargs).mono hlt.le hclose.le⟩

theorem stands_objectExpr : objectExpr.Stands source := by
  intro p q v h
  simp only [rule, comma, fills_seqLeft, fills_seq, fills_map, fills_mark, List.mem_singleton,
    fills_listOrNone, exists_and_left, ↓existsAndEq, and_true, true_and] at h
  obtain ⟨close, ⟨m, t, ⟨-, -, rfl, hlt⟩, entries, hentries, rfl⟩, -, -, hclose⟩ := h
  have hend : t.start < q := by order [hentries.1]
  exact ⟨hend, ExprTree.sits_object le_rfl hend ((Optional.row hentries).mono hlt.le hclose.le)⟩

theorem stands_objectEntry : objectEntry.Stands source := by
  intro p q v h
  simp at h
  rcases h with h | h | h <;> exact h

theorem stands_keyedEntry : keyedEntry.Stands source := by
  intro p q v h
  simp only [rule, colon, fills_seq, fills_map, fills_call, fills_seqRight, fills_mark,
    List.mem_singleton, exists_and_right, exists_and_left, ↓existsAndEq, and_true, true_and] at h
  obtain ⟨key, value, m, colon, ⟨rfl, hkey⟩, ⟨⟨-, -, hlt⟩, hvalue⟩, rfl⟩ := h
  have hm : key.start ≤ m := (hkey.start_lt.trans hlt).le
  exact ⟨hm.trans_lt (Build.Sits.lt hvalue), ExprTree.sits_entry le_rfl hm hvalue⟩

theorem stands_shorthand : shorthand.Stands source := by
  intro p q v h
  simp at h
  obtain ⟨n, ⟨-, hmem, rfl, hlt⟩, rfl⟩ := h
  exact ⟨hlt, ExprTree.sits_shorthand (sits_token le_rfl hlt hmem)⟩

theorem stands_spreadEntry : spreadEntry.Stands source := by
  intro p q v h
  simp at h
  obtain ⟨m, t, ⟨-, -, rfl, hlt⟩, value, hvalue, rfl⟩ := h
  exact ⟨hlt.trans (Build.Sits.lt hvalue), ExprTree.sits_spread le_rfl hlt.le hvalue⟩

theorem stands_arrayExpr : arrayExpr.Stands source := by
  intro p q v h
  simp only [rule, orNone, fills_seqLeft, fills_seq, fills_map, fills_mark, List.mem_singleton,
    fills_maybe, exists_and_left, ↓existsAndEq, and_true, true_and] at h
  obtain ⟨close, ⟨m, t, ⟨-, -, rfl, hlt⟩, items, hitems, rfl⟩, -, -, hclose⟩ := h
  have hend : t.start < q := by order [hitems.1]
  exact ⟨hend, ExprTree.sits_array le_rfl hend ((Optional.row hitems).mono hlt.le hclose.le)⟩

theorem stands_arrowExpr : arrowExpr.Stands source := by
  intro p q v h
  simp only [rule, located, fills_map, fills_spanned, fills_seq, fills_call, fills_seqRight, fills_mark,
    List.mem_singleton, exists_and_right, exists_and_left, ↓existsAndEq, and_true, true_and, Prod.exists] at h
  obtain ⟨extent, params, ⟨rfl, _, m, arrow, hparams, ⟨-, -, hlt⟩, hbody⟩, rfl⟩ := h
  have hstart : extent.start ≤ arrow.start := Sits.le arrowParams _ _ _ hparams
  have hend : m ≤ q := Sits.le arrowBody _ _ _ hbody
  have hlt : arrow.start < q := hlt.trans_le hend
  exact ⟨hstart.trans_lt hlt,
    ExprTree.sits_arrow le_rfl (hstart.trans_lt hlt) (Row.mono hparams le_rfl hlt.le)⟩

theorem stands_arrowParams : arrowParams.Stands source := by
  intro p q v h
  simp at h
  rcases h with ⟨n, ⟨-, -, rfl, hlt⟩, rfl⟩ | ⟨close, ⟨m, ⟨t, -, -, rfl, hlt⟩, params, hparams, rfl⟩, -, -,
    hclose⟩
  · exact .single ⟨le_rfl, hlt, nofun⟩
  · exact (Optional.row hparams).mono hlt.le hclose.le

end Expressions

section Types

theorem stands_union : union.Stands source := by
  intro p q v h
  simp only [rule, fills_map, fills_spanned, fills_seq, fills_seqRight, fills_maybe, fills_call,
    exists_and_right, exists_optional, fills_many, exists_and_left, ↓existsAndEq, and_true, Prod.exists] at h
  obtain ⟨extent, m, first, others, ⟨rfl, ⟨a, hlead, hfirst⟩, hothers⟩, rfl⟩ := h
  have hrow : Row (TypeTree.Sits source) extent.start q (first :: others) :=
    .cons hlead hfirst (row_behind hothers)
  have hlt : extent.start < q :=
    hlead.trans_lt ((TypeTree.Sits.lt hfirst).trans_le (TypeTree.row_sits_le (row_behind hothers)))
  exact .joined (fun _ _ => rfl) (fun _ _ => rfl) (fun _ _ => rfl) le_rfl hlt hrow

theorem stands_intersection : intersection.Stands source := by
  intro p q v h
  simp only [rule, fills_map, fills_spanned, fills_seq, fills_seqRight, fills_maybe, fills_call,
    exists_and_right, exists_optional, fills_many, exists_and_left, ↓existsAndEq, and_true, Prod.exists] at h
  obtain ⟨extent, m, first, others, ⟨rfl, ⟨a, hlead, hfirst⟩, hothers⟩, rfl⟩ := h
  have hrow : Row (TypeTree.Sits source) extent.start q (first :: others) :=
    .cons hlead hfirst (row_behind hothers)
  have hlt : extent.start < q :=
    hlead.trans_lt ((TypeTree.Sits.lt hfirst).trans_le (TypeTree.row_sits_le (row_behind hothers)))
  exact .joined (fun _ _ => rfl) (fun _ _ => rfl) (fun _ _ => rfl) le_rfl hlt hrow

theorem stands_nullable : nullable.Stands source := by
  intro p q v h
  simp at h
  rcases h with ⟨m, t, ⟨-, -, rfl, hlt⟩, inner, h, rfl⟩ | h
  · exact .nullable le_rfl hlt.le h
  · exact h

theorem stands_array : array.Stands source := by
  intro p q v h
  simp at h
  rcases h with h | ⟨close, ⟨open_, ⟨t, h, rfl⟩, -, -, hopen⟩, -, -, hclose⟩
  · exact h
  · exact (TypeTree.Sits.array h).mono le_rfl (hopen.trans hclose).le

theorem stands_primary : primary.Stands source := by
  intro p q v h
  simp at h
  rcases h with h | ⟨o, h, rfl⟩ | ⟨o, h, rfl⟩ | h | h | ⟨t, ⟨-, hmem, rfl, hlt⟩, rfl⟩ |
    ⟨t, ⟨-, hmem, rfl, hlt⟩, rfl⟩
  · exact h
  · exact ObjectTree.Sits.tree h
  · exact ObjectTree.Sits.tree h
  · exact h
  · exact h
  · exact TypeTree.sits_string le_rfl hlt (Lexing.standsAt_of_mem_tokens hmem)
  · exact TypeTree.sits_number le_rfl hlt (Lexing.standsAt_of_mem_tokens hmem)

theorem stands_genericType : genericType.Stands source := by
  intro p q v h
  simp only [rule, identifier, fills_seq, fills_map, fills_token, List.mem_singleton, fills_many,
    exists_and_left, ↓existsAndEq, and_true, fills_maybe] at h
  obtain ⟨m, a, n, path, ⟨⟨-, hmem, rfl, hlt⟩, hpath⟩, args, hargs, rfl⟩ := h
  have hm : a ≤ m := hpath.le fun _ _ _ h => h.le fun _ => Sits.le
  have hstart : n.start ≤ m := hlt.le.trans hm
  have hend : n.start < q := hlt.trans_le (hm.trans hargs.1)
  exact ⟨le_rfl, hend, TypeTree.sits_reference hend (Lexing.standsAt_of_mem_tokens hmem)
    ((Optional.row hargs).mono hstart le_rfl)⟩

theorem stands_typeArgs : typeArgs.Stands source := by
  intro p q v h
  simp at h
  obtain ⟨close, ⟨m, ⟨t, -, -, rfl, hlt⟩, h⟩, -, -, hclose⟩ := h
  exact Row.mono h hlt.le hclose.le

theorem stands_tupleType : tupleType.Stands source := by
  intro p q v h
  simp only [rule, comma, fills_seqLeft, fills_seq, fills_map, fills_mark, List.mem_singleton,
    fills_listOrNone, exists_and_left, ↓existsAndEq, and_true, true_and] at h
  obtain ⟨close, ⟨m, t, ⟨-, -, rfl, hlt⟩, ts, h, rfl⟩, -, -, hclose⟩ := h
  have hend : t.start < q := by order [h.1]
  exact .tuple le_rfl hend ((Optional.row h).mono hlt.le hclose.le)

theorem stands_parenType : parenType.Stands source := by
  intro p q v h
  simp only [rule, orNone, fills_seq, fills_seqLeft, fills_map, fills_mark, List.mem_singleton,
    fills_maybe, exists_and_left, ↓existsAndEq, and_true, true_and] at h
  obtain ⟨m, close, a, t, params, ⟨⟨⟨-, -, rfl, hlt⟩, hparams⟩, -, -, hclose⟩, result, hresult, rfl⟩ := h
  have hm : t.start < m := by order [hparams.1]
  refine TypeTree.sits_parenthesised le_rfl hm hresult.1
    ((Optional.row hparams).mono hlt.le hclose.le) fun r hr => ?_
  have h := hresult.2 r hr
  simp only [fills_seqRight, fills_mark, List.mem_singleton, fills_call, exists_and_right] at h
  obtain ⟨b, ⟨arrow, -, -, rfl, harrow⟩, h⟩ := h
  exact TypeTree.Sits.mono h harrow.le le_rfl

theorem stands_functionParam : functionParam.Stands source := by
  intro p q v h
  simp at h
  rcases h with h | h | ⟨t, h, rfl⟩
  · exact h
  · exact h
  · exact ⟨TypeTree.Sits.le_start h, TypeTree.Sits.mono ⟨le_rfl, TypeTree.Sits.start_lt h,
      TypeTree.Sits.yields h⟩ le_rfl le_rfl⟩

theorem stands_namedFunctionParam : namedFunctionParam.Stands source := by
  intro p q v h
  simp only [rule, located, identifier, typed, colon, fills_map, fills_spanned, fills_seq, fills_token,
    List.mem_singleton, fills_present, exists_and_left, ↓existsAndEq, and_true, fills_seqRight,
    fills_mark, fills_call, exists_and_right, true_and, Prod.exists] at h
  obtain ⟨extent, m, n, optional, type, ⟨rfl, a, colon, ⟨⟨-, -, -, hlt⟩, hoptional⟩, ⟨-, -, hcolon⟩, htype⟩,
    rfl⟩ := h
  have hstart : extent.start ≤ a := by order [hoptional.1]
  exact ⟨le_rfl, TypeTree.Sits.mono htype hstart le_rfl⟩

theorem stands_restFunctionParam : restFunctionParam.Stands source := by
  intro p q v h
  simp only [rule, located, label, identifier, colon, fills_map, fills_spanned, fills_seq, fills_seqRight,
    fills_mark, List.mem_singleton, fills_maybe, exists_and_right, fills_call, exists_and_left,
    ↓existsAndEq, and_true, Prod.exists] at h
  obtain ⟨extent, m, label, type, ⟨rfl, ⟨a, ⟨dots, -, -, -, hdots⟩, hlabel⟩, htype⟩, rfl⟩ := h
  exact ⟨le_rfl, TypeTree.Sits.mono htype (hdots.le.trans hlabel.1) le_rfl⟩

end Types

section Objects

theorem stands_objectType : objectType.Stands source := by
  intro p q v h
  simp only [rule, orNone, fills_map, fills_spanned, fills_seqLeft, fills_seqRight, fills_mark,
    List.mem_singleton, fills_maybe, exists_and_right, exists_and_left, ↓existsAndEq, true_and,
    Prod.exists, and_true] at h
  obtain ⟨extent, close, m, members, ⟨rfl, ⟨⟨t, hbrace, hmem, ht, hlt⟩, hmembers⟩, -, -, hclose⟩, rfl⟩ := h
  have hopen : StandsAt source extent.start "\x7b" := ht ▸ stands_mark hbrace hmem rfl
  exact ⟨rfl, by order [hmembers.1], hopen, (Optional.row hmembers).mono hlt.le hclose.le⟩

theorem stands_exactObjectType : exactObjectType.Stands source := by
  intro p q v h
  simp only [rule, orNone, fills_map, fills_spanned, fills_seqLeft, fills_seqRight, fills_mark,
    List.mem_singleton, fills_maybe, exists_and_right, exists_and_left, ↓existsAndEq, true_and,
    Prod.exists, and_true] at h
  obtain ⟨extent, close, m, members, ⟨rfl, ⟨⟨t, hbrace, hmem, ht, hlt⟩, hmembers⟩, -, -, hclose⟩, rfl⟩ := h
  have hopen : StandsAt source extent.start "\x7b|" := ht ▸ stands_mark hbrace hmem rfl
  exact ⟨rfl, by order [hmembers.1], hopen, (Optional.row hmembers).mono hlt.le hclose.le⟩

theorem stands_objectMember : objectMember.Stands source := by
  intro p q v h
  simp at h
  rcases h with h | h | h | h | h <;> exact h

theorem stands_objectProperty : objectProperty.Stands source := by
  intro p q v h
  simp only [rule, typed, colon, fills_seq, fills_map, fills_call, fills_present, exists_and_left,
    ↓existsAndEq, and_true, fills_seqRight, fills_mark, List.mem_singleton, exists_and_right, true_and] at h
  obtain ⟨m, key, optional, value, a, colon, ⟨⟨rfl, hkey⟩, hoptional⟩, ⟨⟨-, -, hcolon⟩, hvalue⟩, rfl⟩ := h
  have hstart : key.start ≤ a := by order [hkey.start_lt, hoptional.1]
  exact ⟨hkey.stands, TypeTree.Sits.mono hvalue hstart le_rfl⟩

theorem signature_sits {open_ close colon : Position} {a : Position}
    {params : Option (List FunctionParamTree)} {result : TypeTree} (hp : p ≤ open_) (ha : open_ < a)
    (hparams : Optional (Sits source functionParams) a close params) (hclose : close < colon)
    (hcolon : colon < m) (hresult : Sits source type m q result) :
    SignatureSits source p q (params.getD []) result :=
  ⟨colon, (Optional.row hparams).mono (hp.trans ha.le) hclose.le,
    TypeTree.Sits.mono hresult hcolon.le le_rfl⟩

theorem stands_methodProperty : methodProperty.Stands source := by
  intro p q v h
  simp only [rule, functionParameters, inParens, orNone, typed, colon, fills_seq, fills_map, fills_call,
    fills_seqLeft, fills_seqRight, fills_mark, List.mem_singleton, fills_maybe, exists_and_right,
    exists_and_left, ↓existsAndEq, true_and, and_true] at h
  obtain ⟨key, close, a, params, result, b, colon, ⟨open_, ⟨rfl, hkey⟩, ⟨⟨-, -, hopen⟩, hparams⟩, -, -,
    hclose⟩, ⟨⟨-, -, hcolon⟩, hresult⟩, rfl⟩ := h
  exact ⟨hkey.stands, signature_sits hkey.start_lt.le hopen hparams hclose hcolon hresult⟩

theorem stands_spreadProperty : spreadProperty.Stands source := by
  intro p q v h
  simp at h
  obtain ⟨t, ⟨m, ⟨dots, -, -, rfl, hlt⟩, h⟩, rfl⟩ := h
  exact TypeTree.Sits.mono h hlt.le le_rfl

theorem stands_objectIndexer : objectIndexer.Stands source := by
  intro p q v h
  simp only [rule, label, identifier, colon, typed, fills_seq, fills_map, fills_seqRight, fills_mark,
    List.mem_singleton, fills_maybe, exists_and_right, fills_seqLeft, fills_call, exists_and_left,
    ↓existsAndEq, true_and, and_true] at h
  obtain ⟨m, label, key, value, a, colon, ⟨⟨b, ⟨open_, -, -, rfl, hopen⟩, hlabel⟩, close, hkey, -, -,
    hclose⟩, ⟨⟨-, -, hcolon⟩, hvalue⟩, rfl⟩ := h
  have hstart : open_.start ≤ m := hopen.le.trans hlabel.1
  exact ⟨colon.start, TypeTree.Sits.mono hkey hstart hclose.le, TypeTree.Sits.mono hvalue hcolon.le le_rfl⟩

theorem stands_callProperty : callProperty.Stands source := by
  intro p q v h
  simp only [rule, functionParameters, inParens, orNone, typed, colon, fills_seq, fills_map,
    fills_seqLeft, fills_seqRight, fills_mark, List.mem_singleton, fills_maybe, exists_and_right,
    exists_and_left, ↓existsAndEq, true_and, and_true, fills_call] at h
  obtain ⟨close, a, params, result, b, colon, ⟨⟨⟨open_, -, -, rfl, hopen⟩, hparams⟩, -, -, hclose⟩,
    ⟨⟨-, -, hcolon⟩, hresult⟩, rfl⟩ := h
  exact signature_sits le_rfl hopen hparams hclose hcolon hresult

theorem stands_objectKey : objectKey.Stands source := by
  intro p q v h
  simp at h
  rcases h with h | ⟨-, hmem, rfl, hlt⟩
  · exact h
  · exact ⟨rfl, sits_token le_rfl hlt hmem⟩

theorem stands_name : name.Stands source := by
  intro p q v h
  simp at h
  obtain ⟨-, hmem, rfl, hlt⟩ := h
  exact ⟨rfl, sits_token le_rfl hlt hmem⟩

end Objects

theorem stands (n : Construct α) : n.Stands source := by
  cases n with
  | item => exact stands_item
  | importDecl => exact stands_importDecl
  | importClause => exact stands_importClause
  | importDefault => exact stands_importDefault
  | namedImports => exact stands_namedImports
  | importSpec => exact stands_importSpec
  | importName => exact stands_importName
  | namespaceImport => exact stands_namespaceImport
  | exportDecl => exact stands_exportDecl
  | defaultValue => exact stands_defaultValue
  | exportClause => exact stands_exportClause
  | exportSpec => exact stands_exportSpec
  | declaration => exact stands_declaration
  | typeAlias => exact stands_typeAlias
  | interfaceDecl => exact stands_interfaceDecl
  | classDecl => exact stands_classDecl
  | heritage => exact stands_heritage
  | functionDecl => exact stands_functionDecl
  | variableDecl => exact stands_variableDecl
  | declarator => exact stands_declarator
  | typeParams => exact stands_typeParams
  | typeParam => exact stands_typeParam
  | ascription => exact stands_ascription
  | initializer => exact stands_initializer
  | classBody => exact stands_classBody
  | classMember => exact stands_classMember
  | classProperty => exact stands_classProperty
  | classMethod => exact stands_classMethod
  | anyParam => exact stands_anyParam
  | param => exact stands_param
  | restParam => exact stands_restParam
  | paramTarget => exact stands_paramTarget
  | memberName => exact stands_memberName
  | block => exact stands_block
  | assignment => exact stands_assignment
  | callStatement => exact stands_callStatement
  | expr => exact stands_expr
  | memberExpr => exact stands_memberExpr
  | callExpr => exact stands_callExpr
  | callArgs => exact stands_callArgs
  | objectExpr => exact stands_objectExpr
  | objectEntry => exact stands_objectEntry
  | keyedEntry => exact stands_keyedEntry
  | shorthand => exact stands_shorthand
  | spreadEntry => exact stands_spreadEntry
  | arrayExpr => exact stands_arrayExpr
  | arrowExpr => exact stands_arrowExpr
  | arrowParams => exact stands_arrowParams
  | union => exact stands_union
  | intersection => exact stands_intersection
  | nullable => exact stands_nullable
  | array => exact stands_array
  | primary => exact stands_primary
  | genericType => exact stands_genericType
  | typeArgs => exact stands_typeArgs
  | tupleType => exact stands_tupleType
  | parenType => exact stands_parenType
  | functionParam => exact stands_functionParam
  | namedFunctionParam => exact stands_namedFunctionParam
  | restFunctionParam => exact stands_restFunctionParam
  | objectType => exact stands_objectType
  | exactObjectType => exact stands_exactObjectType
  | objectMember => exact stands_objectMember
  | objectProperty => exact stands_objectProperty
  | methodProperty => exact stands_methodProperty
  | spreadProperty => exact stands_spreadProperty
  | objectIndexer => exact stands_objectIndexer
  | callProperty => exact stands_callProperty
  | objectKey => exact stands_objectKey
  | name => exact stands_name
  -- The others are another construct or a row of them, or only their order matters.
  | start | params | args | type | arrowResult | functionParams => exact fun _ _ _ h => h
  | objectMembers => exact fun _ _ _ h => h
  | _ => exact fun _ _ _ h => h.le fun _ => Sits.le

end Construct

namespace Module

variable {file : Option String} {module : Module}

theorem items_sit {items : List (Build Item)}
    (h : Sentence Construct.greedy (Lexing.ofSource source).tokens items) :
    (items.mapM id).Yields fun xs => ∃ p q, Row (SyntaxNode.Sits source) p q (xs.map .item) := by
  obtain ⟨last, hderives⟩ := h
  have hon : Cursor.On (Lexing.ofSource source).tokens ⟨.first, (Lexing.ofSource source).tokens⟩ :=
    ⟨[], rfl, rfl⟩
  have hleads := hderives.leads (F := OfSource source) (V := Construct.Sits source)
    (Lexing.ordered_ofSource source) (fun _ ht => ht) (fun _ n => Construct.Sits.le n)
    (fun _ n _ _ _ hn => Construct.stands n hn)
  exact (Build.Sits.row (hleads hon).2).imp fun _ hrow => ⟨_, _, hrow⟩

/-- The items of a module stand one after another, and so does everything in them at its place. -/
theorem placed_of_source (h : ofSource names source file = .ok module) :
    module.items.Pairwise (fun a b => a.loc < b.loc) ∧
      ∀ i ∈ module.items, ∀ n, (SyntaxNode.item i).Within n → n.IsPlaced source := by
  obtain ⟨-, -, items, hsentence, hrun⟩ := ofSource_eq_ok_iff.1 h
  obtain ⟨p, q, hrow⟩ := (items_sit hsentence).gives names hrun
  obtain ⟨hsits, hordered⟩ := SyntaxNode.Sits.row hrow
  have hordered := List.pairwise_map.1 hordered
  exact ⟨hordered, fun i hi n hn => (hsits _ (List.mem_map_of_mem hi)).placed n hn⟩

theorem placed_of_source_of_alias :
    let source := "import A, \x7b b as c \x7d from 'm'\n/* a\n */ export type T<X> = \x7b|\n  'k': ?X,\n|\x7d"
    ∃ m, ofSource .none source none = .ok m ∧ m.items.Pairwise (fun a b => a.loc < b.loc) ∧
      ∀ i ∈ m.items, ∀ n, (SyntaxNode.item i).Within n → n.IsPlaced source := by
  intro source
  have hok : (ofSource .none source none).toOption.isSome := by decide +kernel
  obtain ⟨m, h⟩ := exists_eq_ok hok
  exact ⟨m, h, placed_of_source h⟩

end Module

end PropTables
