import PropTables.Proofs.NodePlaces

/-! What the trees of expressions, declarations and items build stands where it says. -/

namespace PropTables

open SyntaxNode (Sits)

variable {source : String} {α β γ : Type} {p p' q q' m loc : Position}

structure Token.Sits (source : String) (p q : Position) (t : Token) : Prop where
  le_start : p ≤ t.start
  start_lt : t.start < q
  stands : StandsAt source t.start t.text

section Expressions

structure ParamTree.Sits (source : String) (p q : Position) (t : ParamTree) : Prop where
  le_loc : p ≤ t.loc
  loc_lt : t.loc < q
  ascription : ∀ a ∈ t.ascription, a.Sits source t.loc q

namespace ParamTree

variable {t : ParamTree} {ts : List ParamTree}

theorem Sits.build (h : t.Sits source p q) :
    t.build.Yields fun x => SyntaxNode.Sits source p q (.param x) := by
  have ha : Optional (fun p q (x : TypeTree) =>
      x.build.Yields fun y => SyntaxNode.Sits source p q (.type y)) t.loc q t.ascription :=
    ⟨h.loc_lt.le, fun x hx => (h.ascription x hx).build⟩
  refine (Build.Yields.optional (R := fun p q y => SyntaxNode.Sits source p q (.type y)) ha).map
    fun y hy => ?_
  exact .of_row h.le_loc h.loc_lt nofun rfl rfl (Row.map hy.toList)

theorem Sits.row (h : Row (Sits source) p q ts) :
    (ts.mapM ParamTree.build).Yields fun xs => Row (SyntaxNode.Sits source) p q (xs.map .param) :=
  (Build.Yields.row (h.imp fun _ _ _ h => h.build)).imp fun _ => Row.map

end ParamTree

namespace Build

variable {f : α → SyntaxNode} {bs : List (Build α)} {b : Build α}

theorem row_le (h : Row (Sits source f) p q bs) : p ≤ q :=
  h.le fun _ _ _ h => h.lt.le

theorem Sits.row (h : Row (Sits source f) p q bs) :
    (bs.mapM id).Yields fun xs => Row (SyntaxNode.Sits source) p q (xs.map f) :=
  (Yields.row (R := fun p q x => (f x).Sits source p q) (h.imp fun _ _ _ h => h.yields)).imp
    fun _ => Row.map

theorem Sits.optional {x : Option (Build α)} (h : Optional (Sits source f) p q x) :
    (x.mapM id).Yields fun y => Row (SyntaxNode.Sits source) p q (y.toList.map f) := by
  have hbuilt : Optional (fun p q (b : Build α) => b.Yields fun x => (f x).Sits source p q) p q x :=
    ⟨h.1, fun b hb => (h.2 b hb).yields⟩
  exact (Yields.optional (R := fun p q x => (f x).Sits source p q) hbuilt).imp fun _ hy =>
    Row.map hy.toList

end Build

structure CallSits (source : String) (p q : Position) (c : Position × List ExprTree) : Prop where
  le_loc : p ≤ c.1
  loc_lt : c.1 < q
  args : Row (Build.Sits source .expr) p q c.2

namespace PathTree

theorem sits_member {e : Expr} {t : Token} (he : SyntaxNode.Sits source p m (.expr e))
    (ht : t.Sits source m q) : SyntaxNode.Sits source p q (.expr (member e t)) := by
  refine .of_parts (he.lt.le.trans ht.le_start) ht.start_lt
    (fun _ hs => Option.mem_some_iff.1 hs ▸ ht.stands) nofun fun row hrow => ?_
  cases List.mem_singleton.1 hrow
  exact ⟨_, _, .single he, nofun⟩

theorem sits_dotted {head : Token} {attrs : List Token} (hhead : head.Sits source p m)
    (hattrs : Row (Token.Sits source) m q attrs) :
    SyntaxNode.Sits source p q (.expr (dotted head attrs)) := by
  have hname : SyntaxNode.Sits source p m (.expr (.name head.start head.text)) :=
    .of_leaf hhead.le_start hhead.start_lt (fun _ hs => Option.mem_some_iff.1 hs ▸ hhead.stands) rfl rfl
  unfold dotted
  generalize Expr.name head.start head.text = e at hname
  clear hhead
  induction hattrs generalizing e with
  | nil h => exact hname.mono le_rfl h
  | cons hgap ht _ ih => exact ih _ (sits_member (hname.mono le_rfl hgap) ht)

theorem sits_calls {calls : List (Position × List ExprTree)} {e : Expr}
    (he : SyntaxNode.Sits source p m (.expr e)) (h : Row (CallSits source) m q calls) :
    (calls.foldlM (fun func c => do return .call c.1 func (← c.2.mapM id)) e : ExprTree).Yields
      fun x => SyntaxNode.Sits source p q (.expr x) := by
  induction h generalizing e with
  | nil h => exact .pure (he.mono le_rfl h)
  | @cons m m' m'' c q calls hgap hc hcalls ih =>
    rw [List.foldlM_cons]
    refine Build.Yields.bind (Q := fun x => SyntaxNode.Sits source p m'' (.expr x)) ?_ fun x hx => ih hx
    refine (Build.Sits.row hc.args).map fun args hargs => ?_
    refine .of_parts (he.lt.le.trans (hgap.trans hc.le_loc)) hc.loc_lt nofun nofun fun row hrow => ?_
    rcases List.mem_pair.1 hrow with rfl | rfl
    · exact ⟨_, _, .single he, nofun⟩
    · exact ⟨_, _, hargs, nofun⟩

end PathTree

def PathSits (source : String) (p q : Position) (head : Token) (path : PathTree) : Prop :=
  ∃ m, SyntaxNode.Sits source p m (.expr (PathTree.dotted head path.attrs)) ∧
    Row (CallSits source) m q path.calls

theorem PathSits.lt {head : Token} {path : PathTree} (h : PathSits source p q head path) : p < q := by
  obtain ⟨m, hhead, hcalls⟩ := h
  exact hhead.lt.trans_le (hcalls.le fun _ _ _ h => (h.le_loc.trans_lt h.loc_lt).le)

theorem PathSits.build {head : Token} {path : PathTree} (h : PathSits source p q head path) :
    (path.build head).Yields fun x => SyntaxNode.Sits source p q (.expr x) := by
  obtain ⟨m, hhead, hcalls⟩ := h
  exact PathTree.sits_calls hhead hcalls

namespace ExprTree

theorem sits_string {t : Token} (h : t.Sits source p q) :
    (string t).Yields fun x => SyntaxNode.Sits source p q (.expr x) :=
  (Build.yields_stringValue t).map fun _ _ =>
    .of_leaf h.le_start h.start_lt (fun _ hs => Option.mem_some_iff.1 hs ▸ h.stands) rfl rfl

theorem sits_number {t : Token} (h : t.Sits source p q) :
    (number t).Yields fun x => SyntaxNode.Sits source p q (.expr x) :=
  (Build.yields_numberValue t).map fun _ _ =>
    .of_leaf h.le_start h.start_lt (fun _ hs => Option.mem_some_iff.1 hs ▸ h.stands) rfl rfl

theorem sits_template {t : Token} (h : t.Sits source p q) :
    (template t).Yields fun x => SyntaxNode.Sits source p q (.expr x) :=
  .pure (.of_leaf h.le_start h.start_lt (fun _ hs => Option.mem_some_iff.1 hs ▸ h.stands) rfl rfl)

theorem sits_array {items : List ExprTree} (hp : p ≤ loc) (hlt : loc < q)
    (h : Row (Build.Sits source .expr) loc q items) :
    (array loc items).Yields fun x => SyntaxNode.Sits source p q (.expr x) :=
  (Build.Sits.row h).map fun _ hxs => .of_row hp hlt nofun rfl rfl hxs

theorem sits_object {entries : List (Build (ObjectEntry Expr))} (hp : p ≤ loc) (hlt : loc < q)
    (h : Row (Build.Sits source .entry) loc q entries) :
    (object loc entries).Yields fun x => SyntaxNode.Sits source p q (.expr x) :=
  (Build.Sits.row h).map fun _ hxs => .of_row hp hlt nofun rfl rfl hxs

theorem sits_arrow {params : List ParamTree} (hp : p ≤ loc) (hlt : loc < q)
    (h : Row (ParamTree.Sits source) loc q params) :
    (arrow loc params).Yields fun x => SyntaxNode.Sits source p q (.expr x) :=
  (ParamTree.Sits.row h).map fun _ hxs => .of_row hp hlt nofun rfl rfl hxs

theorem sits_entry {key : Token} {value : ExprTree} (hp : p ≤ key.start) (hm : key.start ≤ m)
    (h : Build.Sits source .expr m q value) :
    (entry key value).Yields fun x => SyntaxNode.Sits source p q (.entry x) :=
  (Build.yields_keyText key).bind fun _ _ => (h.mono hm le_rfl).yields.map fun _ hx =>
    .of_row hp (hm.trans_lt h.lt) nofun rfl rfl (.single hx)

theorem sits_shorthand {t : Token} (h : t.Sits source p q) :
    (shorthand t).Yields fun x => SyntaxNode.Sits source p q (.entry x) :=
  .pure (.of_row h.le_start h.start_lt nofun rfl rfl (.single (.of_leaf le_rfl h.start_lt
    (fun _ hs => Option.mem_some_iff.1 hs ▸ h.stands) rfl rfl)))

theorem sits_spread {t : Token} {value : ExprTree} (hp : p ≤ t.start) (hm : t.start ≤ m)
    (h : Build.Sits source .expr m q value) :
    (spread t value).Yields fun x => SyntaxNode.Sits source p q (.entry x) :=
  (h.mono hm le_rfl).yields.map fun _ hx => .of_row hp (hm.trans_lt h.lt) nofun rfl rfl (.single hx)

end ExprTree

end Expressions

section Declarations

def AscriptionTree.Sits (source : String) (p q : Position) (a : AscriptionTree) : Prop :=
  a.type.Sits source p q

namespace AscriptionTree

variable {a : Option AscriptionTree}

theorem sits_annotated (h : Optional (Sits source) p q a) :
    (a.mapM fun x : AscriptionTree => x.type.buildAnnotated x.start).Yields fun y =>
      Row (SyntaxNode.Sits source) p q (y.toList.map .type) := by
  have hbuilt : Optional (fun p q (x : AscriptionTree) => (x.type.buildAnnotated x.start).Yields
      fun y => SyntaxNode.Sits source p q (.type y)) p q a :=
    ⟨h.1, fun x hx => TypeTree.Sits.buildAnnotated (h.2 x hx) x.start⟩
  exact (Build.Yields.optional (R := fun p q y => SyntaxNode.Sits source p q (.type y)) hbuilt).imp
    fun _ hy => Row.map hy.toList

theorem sits_type (h : Optional (Sits source) p q a) :
    (a.mapM fun x : AscriptionTree => x.type.build).Yields fun y =>
      Row (SyntaxNode.Sits source) p q (y.toList.map .type) := by
  have hbuilt : Optional (fun p q (x : AscriptionTree) => x.type.build.Yields
      fun y => SyntaxNode.Sits source p q (.type y)) p q a :=
    ⟨h.1, fun x hx => TypeTree.Sits.build (h.2 x hx)⟩
  exact (Build.Yields.optional (R := fun p q y => SyntaxNode.Sits source p q (.type y)) hbuilt).imp
    fun _ hy => Row.map hy.toList

end AscriptionTree

namespace ClassTree

variable {a b c d : Position} {isStatic optional : Bool} {key : Token} {params : List ParamTree}
  {result ascription : Option AscriptionTree} {init : Option ExprTree}

theorem sits_property (hp : p ≤ loc) (hloc : loc < q)
    (ha : Optional (AscriptionTree.Sits source) a b ascription)
    (hi : Optional (Build.Sits source .expr) c d init) :
    (property loc isStatic key optional ascription init).Yields fun x =>
      SyntaxNode.Sits source p q (.classMember x) := by
  refine (Build.yields_keyText key).bind fun text _ => (AscriptionTree.sits_annotated ha).bind
    fun a ha => (Build.Sits.optional hi).map fun e he => ?_
  refine .of_parts hp hloc nofun nofun fun row hrow => ?_
  cases e with
  | none =>
    cases List.mem_singleton.1 hrow
    exact ⟨_, _, ha, nofun⟩
  | some e =>
    rcases List.mem_pair.1 hrow with rfl | rfl
    · exact ⟨_, _, ha, nofun⟩
    · exact ⟨_, _, he, nofun⟩

theorem sits_method (hp : p ≤ loc) (hloc : loc < q) (hparams : Row (ParamTree.Sits source) a b params)
    (hr : Optional (AscriptionTree.Sits source) c d result) :
    (method loc isStatic key params result).Yields fun x =>
      SyntaxNode.Sits source p q (.classMember x) := by
  refine (Build.yields_keyText key).bind fun text _ => (ParamTree.Sits.row hparams).bind
    fun ps hps => (AscriptionTree.sits_type hr).map fun r hr => ?_
  refine .of_parts hp hloc nofun nofun fun row hrow => ?_
  rcases List.mem_pair.1 hrow with rfl | rfl
  · exact ⟨_, _, hps, nofun⟩
  · exact ⟨_, _, hr, nofun⟩

def HeritageSits (source : String) (p q : Position) (s : Expr × Option (List TypeTree)) : Prop :=
  ∃ m, SyntaxNode.Sits source p m (.expr s.1) ∧ Optional (Row (TypeTree.Sits source)) m q s.2

structure Sits (source : String) (p q : Position) (c : ClassTree) : Prop where
  le_loc : p ≤ c.loc
  loc_lt : c.loc < q
  word : StandsAt source c.loc "class"
  params : ∃ m m', Row (SyntaxNode.Sits source) m m' (c.params.map .typeParameter)
  superclass : ∃ m m', Optional (HeritageSits source) m m' c.superclass
  body : ∃ m m', Row (Build.Sits source .classMember) m m' c.body

theorem Sits.build {c : ClassTree} (h : c.Sits source p q) :
    c.build.Yields fun k => SyntaxNode.Sits source p q (.declaration (.class_ k)) := by
  obtain ⟨a, b, hparams⟩ := h.params
  obtain ⟨a', b', hsuper⟩ := h.superclass
  obtain ⟨a'', b'', hbody⟩ := h.body
  have hargs : Optional (Row (TypeTree.Sits source)) a' b' (c.superclass.bind (·.2)) := by
    refine ⟨hsuper.1, fun ts hts => ?_⟩
    obtain ⟨s, hs, hts⟩ := Option.bind_eq_some_iff.1 hts
    obtain ⟨m, he, hs⟩ := hsuper.2 s hs
    exact (hs.2 ts hts).mono he.lt.le le_rfl
  have hextended : Row (SyntaxNode.Sits source) a' b' ((c.superclass.map (·.1)).toList.map .expr) := by
    refine Row.map (Optional.toList ⟨hsuper.1, fun e he => ?_⟩)
    obtain ⟨s, hs, rfl⟩ := Option.map_eq_some_iff.1 he
    obtain ⟨m, he, hs⟩ := hsuper.2 s hs
    exact he.mono le_rfl hs.1
  have hbuilt : Optional (fun p q (ts : List TypeTree) => (ts.mapM TypeTree.build).Yields fun xs =>
      Row (SyntaxNode.Sits source) p q (xs.map .type)) a' b' (c.superclass.bind (·.2)) :=
    ⟨hargs.1, fun ts hts => TypeTree.Sits.row (hargs.2 ts hts)⟩
  refine (Build.Yields.optional (R := fun p q xs => Row (SyntaxNode.Sits source) p q (xs.map .type))
    hbuilt).bind fun args hargs => (Build.Sits.row hbody).map fun body hbody => ?_
  have hargs : Row (SyntaxNode.Sits source) a' b' ((args.getD []).map .type) := by
    cases args with
    | none => exact .nil hargs.1
    | some xs => exact hargs.2 xs rfl
  refine .of_parts h.le_loc h.loc_lt (fun _ hs => Option.mem_some_iff.1 hs ▸ h.word) nofun
    fun row hrow => ?_
  simp only [SyntaxNode.parts, Declaration.parts, List.mem_cons, List.not_mem_nil, or_false] at hrow
  rcases hrow with rfl | rfl | rfl | rfl
  · exact ⟨_, _, hparams, fun h => absurd h Bool.false_ne_true⟩
  · exact ⟨_, _, hextended, fun h => absurd h Bool.false_ne_true⟩
  · exact ⟨_, _, hargs, fun h => absurd h Bool.false_ne_true⟩
  · exact ⟨_, _, hbody, fun h => absurd h Bool.false_ne_true⟩

theorem Sits.buildNamed {c : ClassTree} (h : c.Sits source p q) :
    c.buildNamed.Yields fun k => SyntaxNode.Sits source p q (.declaration (.class_ k)) := by
  unfold ClassTree.buildNamed
  split
  · exact .throw trivial
  · exact h.build

end ClassTree

section Words

variable {a b c d : Position} {word name : Token} {typeParams : List TypeParameter} {params : List ParamTree}
  {ascription : Option AscriptionTree} {init : Option ExprTree}

theorem AliasTree.sits_build {t : AliasTree} (hp : p ≤ loc) (hlt : loc < q)
    (hword : StandsAt source loc "type")
    (hparams : Row (SyntaxNode.Sits source) a b (t.params.map .typeParameter))
    (hright : t.right.Sits source c d) :
    (t.build loc).Yields fun x => SyntaxNode.Sits source p q (.declaration (.typeAlias x)) := by
  refine (hright.buildAnnotated loc).map fun x hx => ?_
  refine .of_parts hp hlt (fun _ hs => Option.mem_some_iff.1 hs ▸ hword) nofun fun row hrow => ?_
  rcases List.mem_pair.1 hrow with rfl | rfl
  · exact ⟨_, _, hparams, nofun⟩
  · exact ⟨_, _, .single hx, nofun⟩

theorem sits_interface {body : ObjectTree} (hp : p ≤ loc) (hlt : loc < q)
    (hword : StandsAt source loc "interface")
    (hparams : Row (SyntaxNode.Sits source) a b (typeParams.map .typeParameter))
    (hbody : body.Sits source c d) :
    (buildInterface loc name typeParams body).Yields fun x =>
      SyntaxNode.Sits source p q (.declaration (.interface x)) := by
  refine hbody.build.map fun x hx => ?_
  refine .of_parts hp hlt (fun _ hs => Option.mem_some_iff.1 hs ▸ hword) nofun fun row hrow => ?_
  rcases List.mem_pair.1 hrow with rfl | rfl
  · exact ⟨_, _, hparams, nofun⟩
  · exact ⟨_, _, .single hx, nofun⟩

theorem sits_functionDeclaration (hp : p ≤ loc) (hlt : loc < q)
    (hword : StandsAt source loc "function") (hparams : Row (ParamTree.Sits source) a b params)
    (hresult : Optional (AscriptionTree.Sits source) c d ascription) :
    (buildFunction loc name params ascription).Yields fun x =>
      SyntaxNode.Sits source p q (.declaration (.function x)) := by
  refine (ParamTree.Sits.row hparams).bind fun ps hps => (AscriptionTree.sits_type hresult).map
    fun r hr => ?_
  refine .of_parts hp hlt (fun _ hs => Option.mem_some_iff.1 hs ▸ hword) nofun fun row hrow => ?_
  rcases List.mem_pair.1 hrow with rfl | rfl
  · exact ⟨_, _, hps, nofun⟩
  · exact ⟨_, _, hr, nofun⟩

theorem sits_declarator (hname : name.Sits source p q)
    (ha : Optional (AscriptionTree.Sits source) a b ascription)
    (hi : Optional (Build.Sits source .expr) c d init) :
    (buildDeclarator name ascription init).Yields fun x =>
      SyntaxNode.Sits source p q (.declarator x) := by
  refine (AscriptionTree.sits_type ha).bind fun a ha => (Build.Sits.optional hi).map fun e he => ?_
  refine .of_parts hname.le_start hname.start_lt
    (fun _ hs => Option.mem_some_iff.1 hs ▸ hname.stands) nofun fun row hrow => ?_
  rcases List.mem_pair.1 hrow with rfl | rfl
  · exact ⟨_, _, ha, nofun⟩
  · exact ⟨_, _, he, nofun⟩

theorem sits_variables {ds : List (Build VariableDeclarator)} (hp : p ≤ word.start)
    (hlt : word.start < q) (h : Row (Build.Sits source .declarator) word.start q ds) :
    (buildVariables word ds).Yields fun v =>
      SyntaxNode.Sits source p q (.declaration (.binding v)) :=
  (Build.Sits.row h).map fun _ hds => .of_row hp hlt nofun rfl rfl hds

end Words

end Declarations

section Items

def DefaultExport.node : DefaultExport → SyntaxNode
  | .class_ k => .declaration (.class_ k)
  | .function f => .declaration (.function f)
  | .expression e => .expr e

namespace ItemTree

variable {word head : Token}

theorem sits_declaration {d : Build Declaration} (h : d.Sits source .declaration p q) :
    (declaration d).Yields fun x => SyntaxNode.Sits source p q (.item x) := by
  refine h.yields.map fun x hx => .of_parts hx.le_loc hx.loc_lt nofun nofun fun row hrow => ?_
  cases List.mem_singleton.1 hrow
  exact ⟨_, _, .single hx, nofun⟩

theorem sits_exported {d : Build Declaration} (hp : p ≤ loc) (hlt : loc < q)
    (hword : StandsAt source loc "export") (h : d.Sits source .declaration loc q) :
    (exported loc d).Yields fun x => SyntaxNode.Sits source p q (.item x) :=
  h.yields.map fun _ hx => .of_row hp hlt (fun _ hs => Option.mem_some_iff.1 hs ▸ hword) rfl rfl
    (.single hx)

theorem sits_exportedAll (hp : p ≤ loc) (hlt : loc < q) (hword : StandsAt source loc "export")
    (t : Token) : (exportedAll loc t).Yields fun x => SyntaxNode.Sits source p q (.item x) :=
  (Build.yields_stringValue t).map fun _ _ =>
    .of_leaf hp hlt (fun _ hs => Option.mem_some_iff.1 hs ▸ hword) rfl rfl

theorem sits_exportedDefault {d : Build DefaultExport} (hp : p ≤ loc) (hlt : loc < q)
    (hword : StandsAt source loc "export") (h : d.Sits source DefaultExport.node loc q) :
    (exportedDefault loc d).Yields fun x => SyntaxNode.Sits source p q (.item x) := by
  refine h.yields.map fun x hx => ?_
  have hparts : (SyntaxNode.item (.exportDefault loc x)).parts = [[x.node]] := by
    cases x <;> rfl
  exact .of_row hp hlt (fun _ hs => Option.mem_some_iff.1 hs ▸ hword) rfl hparts (.single hx)

theorem sits_assignment {attrs : List Token} {value : ExprTree}
    (htarget : SyntaxNode.Sits source p m (.expr (PathTree.dotted head attrs)))
    (hhead : p = head.start) (hvalue : value.Sits source .expr m q) :
    (assignment head attrs value).Yields fun x => SyntaxNode.Sits source p q (.item x) := by
  refine hvalue.yields.map fun x hx => ?_
  refine .of_parts hhead.le (hhead.symm.trans_lt (htarget.lt.trans hvalue.lt)) nofun nofun
    fun row hrow => ?_
  rcases List.mem_pair.1 hrow with rfl | rfl
  · exact ⟨_, _, .single htarget, nofun⟩
  · exact ⟨_, _, .single hx, nofun⟩

theorem sits_call {path : PathTree} (hhead : p = head.start) (h : PathSits source p q head path) :
    (call head path).Yields fun x => SyntaxNode.Sits source p q (.item x) := by
  refine h.build.map fun x hx => ?_
  exact .of_row hhead.le (hhead.symm.trans_lt h.lt) nofun rfl rfl
    (.single (hx.mono hhead.ge le_rfl))

end ItemTree

namespace ImportTree

def Sits (source : String) (lo p q : Position) : ImportTree → Prop
  | default_ n | namespace_ n => n.Sits source p q
  | named loc _ _ _ => p ≤ loc ∧ loc < q ∧
    ∃ t ∈ (Lexing.ofSource source).tokens, t.terminal = .mark .openBrace ∧ lo ≤ t.start ∧ t.start < p

variable {lo lo' : Position} {i : ImportTree} {is : List ImportTree} {word source' : Token}

theorem Sits.lt (h : i.Sits source lo p q) : p < q := by
  cases i with
  | default_ | namespace_ => exact h.le_start.trans_lt h.start_lt
  | named => exact h.1.trans_lt h.2.1

theorem Sits.mono (h : i.Sits source lo p q) (hlo : lo' ≤ lo) : i.Sits source lo' p q := by
  cases i with
  | default_ | namespace_ => exact h
  | named =>
    obtain ⟨hp, hq, t, ht, hbrace, hle, hlt⟩ := h
    exact ⟨hp, hq, t, ht, hbrace, hlo.trans hle, hlt⟩

structure Makes (source : String) (lo p q : Position) (s : ImportSpecifier) : Prop where
  sits : SyntaxNode.Sits source p q (.importSpecifier s)
  imported : ∀ d : ImportDeclaration, d.loc < lo →
    d.OpensBefore source s ∨ StandsAt source s.loc s.binds

theorem Sits.build (h : i.Sits source lo p q) (text : Text) (kind : ImportKind) :
    (i.build text kind).Yields (Makes source lo p q) := by
  cases i with
  | default_ n | namespace_ n =>
    exact .pure ⟨.of_leaf h.le_start h.start_lt nofun rfl rfl, fun _ _ => .inr h.stands⟩
  | named loc own imported renamed =>
    obtain ⟨hp, hq, t, ht, hbrace, hle, hlt⟩ := h
    have makes (s : ImportSpecifier) (hs : s.loc = loc) : Makes source lo p q s := by
      subst hs
      refine ⟨.of_leaf hp hq nofun rfl rfl, fun d hd => .inl ⟨t, ht, hbrace, ?_⟩⟩
      exact ⟨hd.trans_le hle, hlt.trans_le hp⟩
    dsimp only [ImportTree.build]
    split
    · exact .pure (makes _ rfl)
    · split
      · exact .throw trivial
      · exact .pure (makes _ rfl)

theorem sits_all {kind : Option Token} (hp : p ≤ word.start) (hlo : word.start < lo) (hq : lo ≤ q)
    (hword : StandsAt source word.start "import") (h : Row (Sits source lo) lo q is) :
    (buildAll word.start kind is source').Yields fun x => SyntaxNode.Sits source p q (.item x) := by
  refine (Build.yields_stringValue source').bind fun text _ => ?_
  refine (Build.Yields.row (h.imp fun _ _ _ h => h.build text _)).map fun ss hss => ?_
  have hsits : Row (SyntaxNode.Sits source) lo q (ss.map .importSpecifier) :=
    Row.map (hss.imp fun _ _ _ h => h.sits)
  refine .of_parts hp (hlo.trans_le hq) (fun _ hs => Option.mem_some_iff.1 hs ▸ hword) ?_
    fun row hrow => ?_
  · rintro _ ⟨⟩ s hs
    obtain ⟨a, b, hs⟩ := hss.exists_piece s hs
    exact hs.imported _ hlo
  · cases List.mem_singleton.1 hrow
    exact ⟨_, _, hsits, nofun⟩

end ImportTree

theorem ExportClauseTree.sits_build {c : ExportClauseTree} {kind : ImportKind} (hp : p ≤ loc)
    (hlt : loc < q) (hword : StandsAt source loc "export")
    (h : Row (fun p q s => SyntaxNode.Sits source p q (.exportSpecifier s)) loc q c.specifiers) :
    (c.build loc kind).Yields fun x => SyntaxNode.Sits source p q (.item x) := by
  have hsource : (c.source.mapM Build.stringValue).Yields fun _ => True := by
    cases c.source with
    | none => exact .pure trivial
    | some t => exact (Build.yields_stringValue t).map fun _ _ => trivial
  exact hsource.map fun _ _ =>
    .of_row hp hlt (fun _ hs => Option.mem_some_iff.1 hs ▸ hword) rfl rfl (Row.map h)

end Items

end PropTables
