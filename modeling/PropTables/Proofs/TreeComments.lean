import PropTables.Proofs.Constructs
import PropTables.Proofs.Keeping

/-! The trees of types, expressions and declarations keep the comments of their pieces of the text. -/

namespace PropTables

variable {Occurs : ObjectTree → Prop} {loc p p' q m : Position}

namespace TypeTree

variable {t : TypeTree} {ts : List TypeTree}

theorem Keeps.of_start {b : Build TypeExpr} (hp : p ≤ loc) (hlt : loc < q)
    (hb : b.Keeps Occurs 0 loc q) : Keeps Occurs p q ⟨loc, b⟩ :=
  ⟨hp, hlt, hb⟩

theorem buildAll (h : Row (Keeps Occurs) p q ts) : (ts.mapM TypeTree.build).Keeps Occurs 0 p q :=
  h.build fun _ _ _ h => h.build

theorem row_le (h : Row (Keeps Occurs) p q ts) : p ≤ q :=
  h.le fun _ _ _ h => h.lt.le

theorem Keeps.joined {b : Position → List TypeExpr → TypeExpr}
    (hb : ∀ start xs, objectsIn (b start xs) = objectsIn xs) (hp : p ≤ loc) (hlt : loc < q)
    (h : Row (Keeps Occurs) loc q ts) : (TypeTree.joined b loc ts).Keeps Occurs p q := by
  have hmany : Keeps Occurs p q ⟨loc, do return b loc (← ts.mapM TypeTree.build)⟩ :=
    ⟨hp, hlt, (buildAll h).map fun xs => (hb loc xs).le⟩
  match ts, h with
  | [t], .cons hgap ht hnil => exact ht.mono (hp.trans hgap) (row_le hnil)
  | [], _ | _ :: _ :: _, _ => exact hmany

theorem Keeps.nullable (hp : p ≤ loc) (hloc : loc ≤ m) (h : t.Keeps Occurs m q) :
    (TypeTree.nullable loc t).Keeps Occurs p q :=
  ⟨hp, hloc.trans_lt h.lt, (h.build.mono hloc le_rfl).map fun x => by simp⟩

theorem Keeps.array (h : t.Keeps Occurs p q) : (TypeTree.array t).Keeps Occurs p q :=
  ⟨h.le_start, h.start_lt, h.built.map fun x => by simp⟩

theorem Keeps.tuple (hp : p ≤ loc) (hlt : loc < q) (h : Row (Keeps Occurs) loc q ts) :
    Keeps Occurs p q ⟨loc, do return .tuple loc (← ts.mapM TypeTree.build)⟩ :=
  ⟨hp, hlt, (buildAll h).map fun xs => by simp⟩

theorem keeps_reference (name : Token) (path : List Token) {args : Option (List TypeTree)}
    (hle : p ≤ q) (h : ∀ ts ∈ args, Row (Keeps Occurs) p q ts) :
    (buildReference name path args).Keeps Occurs 0 p q := by
  have hargs : Row (Keeps Occurs) p q (args.getD []) := by
    cases args with
    | none => exact .nil hle
    | some ts => exact h ts rfl
  refine (buildAll hargs).bind (fun xs => ?_) le_rfl
  split
  · refine .pure le_rfl (le_of_eq_of_le ?_ (Multiset.zero_le _))
    cases hbuiltin : TypeExpr.builtin? name.start name.text with
    | none => simp
    | some t => exact TypeExpr.objectsIn_builtin? hbuiltin
  · exact .pure le_rfl (by simp)

theorem keeps_parenthesised {params : List FunctionParamTree} {result : Option TypeTree}
    (hp : p ≤ loc) (hlt : loc < m) (h : Row (FunctionParamTree.Keeps Occurs) loc m params)
    (hresult : ∀ r ∈ result, r.Keeps Occurs m q) (hm : m ≤ q) :
    (parenthesised loc params result).Keeps Occurs p q := by
  refine ⟨hp, hlt.trans_le hm, ?_⟩
  cases result with
  | some r => exact SignatureKeeps.buildFunction ⟨m, h, hresult r rfl⟩
  | none =>
    refine (Row.build (fun _ _ _ h => h.build) (h.mono le_rfl hm)).bind (fun xs => ?_) le_rfl
    split
    · exact .pure le_rfl (by simp)
    · exact .throw le_rfl

end TypeTree

section Expressions

structure ParamTree.Keeps (Occurs : ObjectTree → Prop) (p q : Position) (t : ParamTree) : Prop where
  le : p ≤ q
  ascription : ∀ a ∈ t.ascription, a.Keeps Occurs p q

theorem ParamTree.Keeps.build {t : ParamTree} (h : t.Keeps Occurs p q) :
    t.build.Keeps Occurs 0 p q :=
  (Build.Keeps.mapOption h.le fun a ha => (h.ascription a ha).build).map fun _ => le_rfl

def CallKeeps (Occurs : ObjectTree → Prop) (p q : Position) (c : Position × List ExprTree) : Prop :=
  Row (Build.Keeps Occurs 0) p q c.2

theorem keeps_all {α : Type} [Annotated α] {bs : List (Build α)}
    (h : Row (Build.Keeps Occurs 0) p q bs) : (bs.mapM id).Keeps Occurs 0 p q :=
  h.build fun _ _ _ h => h

theorem keeps_literal {α β : Type} [Annotated α] {b : Build β} {f : β → α} (hle : p ≤ q)
    (hf : ∀ x, objectsIn (f x) = 0) :
    (b >>= fun x => pure (f x) : Build α).Keeps Occurs 0 p q :=
  .step hle fun x => .pure hle (hf x).le

theorem objectsIn_dotted (head : Token) (attrs : List Token) :
    objectsIn (PathTree.dotted head attrs) = 0 := by
  have hfold (e : Expr) : objectsIn (attrs.foldl PathTree.member e) = objectsIn e := by
    induction attrs generalizing e with
    | nil => rfl
    | cons a attrs ih => exact (ih _).trans (Expr.objectsIn_member e a.text)
  exact hfold _

theorem keeps_calls {calls : List (Position × List ExprTree)} {e : Expr}
    (h : Row (CallKeeps Occurs) p q calls) :
    (calls.foldlM (fun func c => do return .call c.1 func (← c.2.mapM id)) e : ExprTree).Keeps Occurs
      (objectsIn e) p q := by
  induction h generalizing e with
  | nil h => exact .pure h le_rfl
  | @cons p p' m c q calls hgap hc hcalls ih =>
    rw [List.foldlM_cons]
    have hargs : (c.2.mapM id).Keeps Occurs 0 p m := (keeps_all hc).mono hgap le_rfl
    have hcall : (do return .call c.1 e (← c.2.mapM id) : ExprTree).Keeps Occurs (objectsIn e) p m :=
      hargs.bind (fun args => .pure le_rfl (by simp)) le_rfl
    have hle : m ≤ q := hcalls.le fun _ _ _ h => Row.le (fun _ _ _ h => Build.Keeps.le h) h
    exact hcall.bind_onto (fun e' => ih) hle

theorem PathTree.keeps_build {t : PathTree} (head : Token) (h : Row (CallKeeps Occurs) p q t.calls) :
    (t.build head).Keeps Occurs 0 p q :=
  objectsIn_dotted head t.attrs ▸ keeps_calls h

theorem ExprTree.keeps_array {items : List ExprTree} (h : Row (Build.Keeps Occurs 0) p q items) :
    (ExprTree.array loc items).Keeps Occurs 0 p q :=
  (keeps_all h).map fun _ => by simp

theorem ExprTree.keeps_object {entries : List (Build (ObjectEntry Expr))}
    (h : Row (Build.Keeps Occurs 0) p q entries) :
    (ExprTree.object loc entries).Keeps Occurs 0 p q :=
  (keeps_all h).map fun _ => by simp

theorem ExprTree.keeps_arrow {params : List ParamTree} (h : Row (ParamTree.Keeps Occurs) p q params) :
    (ExprTree.arrow loc params).Keeps Occurs 0 p q :=
  (h.build fun _ _ _ h => h.build).map fun _ => by simp

theorem ExprTree.keeps_entry (key : Token) {value : ExprTree} (h : value.Keeps Occurs 0 p q) :
    (ExprTree.entry key value).Keeps Occurs 0 p q :=
  .step h.le fun _ => h.map fun _ => le_rfl

theorem ExprTree.keeps_shorthand (n : Token) (h : p ≤ q) :
    (ExprTree.shorthand n).Keeps Occurs 0 p q :=
  .pure h le_rfl

theorem ExprTree.keeps_spread (t : Token) {value : ExprTree} (h : value.Keeps Occurs 0 p q) :
    (ExprTree.spread t value).Keeps Occurs 0 p q :=
  h.map fun _ => le_rfl

end Expressions

section Declarations

structure AscriptionTree.Keeps (Occurs : ObjectTree → Prop) (p q : Position) (a : AscriptionTree) :
    Prop where
  le_start : p ≤ a.start
  type : a.type.Keeps Occurs a.start q

structure ClassTree.Keeps (Occurs : ObjectTree → Prop) (p q : Position) (c : ClassTree) : Prop where
  superclass : ∀ s ∈ c.superclass, objectsIn s.1 = 0
  parts : ∃ m, Optional (Row (TypeTree.Keeps Occurs)) p m (c.superclass.bind (·.2)) ∧
    Row (Build.Keeps Occurs 0) m q c.body

variable {ascription : Option AscriptionTree} {init : Option ExprTree} {params : List ParamTree}

theorem AscriptionTree.Keeps.lt {a : AscriptionTree} (h : a.Keeps Occurs p q) : p < q :=
  h.le_start.trans_lt h.type.lt

theorem Optional.buildAnnotated (h : Optional (AscriptionTree.Keeps Occurs) p q ascription) :
    (ascription.mapM fun a : AscriptionTree => a.type.buildAnnotated a.start).Keeps Occurs 0 p q :=
  .mapOption h.1 fun a ha => (h.2 a ha).type.buildAnnotated.mono (h.2 a ha).le_start le_rfl

theorem Optional.build (h : Optional (AscriptionTree.Keeps Occurs) p q ascription) :
    (ascription.mapM fun a : AscriptionTree => a.type.build).Keeps Occurs 0 p q :=
  .mapOption h.1 fun a ha => (h.2 a ha).type.build.mono (h.2 a ha).le_start le_rfl

theorem Optional.value (h : Optional (Build.Keeps Occurs 0) p q init) :
    (init.mapM id).Keeps Occurs 0 p q :=
  .mapOption h.1 h.2

theorem ClassTree.keeps_property {isStatic optional : Bool} {key : Token}
    (ha : Optional (AscriptionTree.Keeps Occurs) p m ascription)
    (hi : Optional (Build.Keeps Occurs 0) m q init) :
    (ClassTree.property loc isStatic key optional ascription init).Keeps Occurs 0 p q := by
  refine .step (ha.1.trans hi.1) fun text => ha.buildAnnotated.bind (fun a => ?_) hi.1
  refine hi.value.bind (fun value => .pure le_rfl ?_) le_rfl
  cases value <;> simp [objectsIn]

theorem ClassTree.keeps_method {isStatic : Bool} {key : Token} {result : Option AscriptionTree}
    (hp : Row (ParamTree.Keeps Occurs) p m params)
    (hr : Optional (AscriptionTree.Keeps Occurs) m q result) :
    (ClassTree.method loc isStatic key params result).Keeps Occurs 0 p q := by
  have hps := hp.build fun _ _ _ h => h.build
  refine .step (hps.le.trans hr.1) fun text => hps.bind (fun ps => ?_) hr.1
  exact hr.build.bind (fun r => .pure le_rfl (by simp [objectsIn])) le_rfl

theorem ClassTree.Keeps.build {c : ClassTree} (h : c.Keeps Occurs p q) :
    c.build.Keeps Occurs 0 p q := by
  obtain ⟨hsuper, m, hargs, hbody⟩ := h
  have hargs := Build.Keeps.mapOption hargs.1 fun ts hts => TypeTree.buildAll (hargs.2 ts hts)
  have hbody := keeps_all hbody
  refine hargs.bind (fun args => hbody.bind (fun body => .pure le_rfl ?_) le_rfl) hbody.le
  have hnone : objectsIn (c.superclass.map (·.1)) = 0 := by
    cases hs : c.superclass with
    | none => rfl
    | some s => exact hsuper s hs
  simp only [objectsIn] at hnone ⊢
  simp [hnone]

theorem ClassTree.Keeps.buildNamed {c : ClassTree} (h : c.Keeps Occurs p q) :
    c.buildNamed.Keeps Occurs 0 p q := by
  unfold ClassTree.buildNamed
  split
  · exact .throw h.build.le
  · exact h.build

theorem AliasTree.keeps_build {a : AliasTree} (hp : p ≤ loc) (h : a.right.Keeps Occurs loc q) :
    (AliasTree.build loc a).Keeps Occurs 0 p q :=
  (h.buildAnnotated.mono hp le_rfl).map fun _ => le_rfl

theorem keeps_interface {name : Token} {params : List TypeParameter} {body : ObjectTree}
    {ends : Position → Prop} (h : body.Keeps Occurs ends p q) :
    (buildInterface loc name params body).Keeps Occurs 0 p q :=
  (h.build.mono h.le_start h.stop_le).map fun _ => le_rfl

theorem keeps_function {name : Token} {result : Option AscriptionTree}
    (hp : Row (ParamTree.Keeps Occurs) p m params)
    (hr : Optional (AscriptionTree.Keeps Occurs) m q result) :
    (buildFunction loc name params result).Keeps Occurs 0 p q := by
  refine (hp.build fun _ _ _ h => h.build).bind (fun ps => ?_) hr.1
  exact hr.build.bind (fun r => .pure le_rfl (by simp [objectsIn])) le_rfl

theorem keeps_declarator {name : Token} (ha : Optional (AscriptionTree.Keeps Occurs) p m ascription)
    (hi : Optional (Build.Keeps Occurs 0) m q init) :
    (buildDeclarator name ascription init).Keeps Occurs 0 p q := by
  refine ha.build.bind (fun a => ?_) hi.1
  exact hi.value.bind (fun r => .pure le_rfl (by simp [objectsIn])) le_rfl

theorem keeps_variables {word : Token} {declarators : List (Build VariableDeclarator)}
    (h : Row (Build.Keeps Occurs 0) p q declarators) :
    (buildVariables word declarators).Keeps Occurs 0 p q :=
  (keeps_all h).map fun _ => le_rfl

end Declarations

end PropTables
