import Mathlib.Data.List.Forall2
import PropTables.Proofs.Attachment
import PropTables.Proofs.Constructs
import PropTables.Proofs.Lexemes
import PropTables.Proofs.Plain

/-! What is built from tokens with the same words in other places, and with other comments, is the same
up to places and comments. -/

namespace PropTables

open List (Forall₂)

theorem forall₂_getD {α : Type} {R : α → α → Prop} {x y : Option (List α)}
    (h : Option.Rel (Forall₂ R) x y) : Forall₂ R (x.getD []) (y.getD []) := by
  cases h with
  | none => exact .nil
  | some h => exact h

namespace Build

variable {α β : Type} [Plain α] [Plain β]

def EchoedBy (b b' : Build α) : Prop :=
  ∀ names cs cs' x, b.run ⟨cs, names⟩ = .ok x →
    ∃ y, b'.run ⟨cs', names⟩ = .ok y ∧ plain x = plain y

namespace EchoedBy

variable {a a' : Build α} {b b' : Build β} {f g : α → Build β}

theorem pure {x y : α} (h : plain x = plain y) : EchoedBy (Pure.pure x) (Pure.pure y) := by
  rintro names cs cs' _ ⟨⟩
  exact ⟨y, rfl, h⟩

theorem throw {fault : SourceFault} : EchoedBy (MonadExcept.throw fault) b := by
  rintro names cs cs' x ⟨⟩

theorem bind (h : a.EchoedBy a') (hf : ∀ x y, plain x = plain y → (f x).EchoedBy (g y)) :
    (a >>= f).EchoedBy (a' >>= g) := by
  intro names cs cs' z hz
  obtain ⟨x, hx, hz⟩ := run_bind_eq_ok.1 hz
  obtain ⟨y, hy, hxy⟩ := h names cs cs' x hx
  obtain ⟨w, hw, hzw⟩ := hf x y hxy names cs cs' z hz
  exact ⟨w, run_bind_eq_ok.2 ⟨y, hy, hw⟩, hzw⟩

theorem map {f g : α → β} (h : a.EchoedBy a') (hf : ∀ x y, plain x = plain y → plain (f x) = plain (g y)) :
    (a >>= fun x => Pure.pure (f x)).EchoedBy (a' >>= fun y => Pure.pure (g y)) :=
  h.bind fun x y hxy => pure (hf x y hxy)

theorem read {f g : Surroundings → Build β}
    (h : ∀ names cs cs', (f ⟨cs, names⟩).EchoedBy (g ⟨cs', names⟩)) :
    (MonadReader.read >>= f).EchoedBy (MonadReader.read >>= g) :=
  fun names cs cs' z hz => h names cs cs' names cs cs' z hz

theorem mapM {γ : Type} {f g : γ → Build α} {xs ys : List γ}
    (h : Forall₂ (fun x y => (f x).EchoedBy (g y)) xs ys) : (xs.mapM f).EchoedBy (ys.mapM g) := by
  induction h with
  | nil => exact pure rfl
  | cons hxy _ ih =>
    rw [List.mapM_cons, List.mapM_cons]
    refine hxy.bind fun x y hxy => ih.map fun xs ys hxys => ?_
    rw [plain_cons, plain_cons, hxy, hxys]

theorem mapOption {γ : Type} {f g : γ → Build α} {x y : Option γ}
    (h : Option.Rel (fun x y => (f x).EchoedBy (g y)) x y) : (x.mapM f).EchoedBy (y.mapM g) := by
  cases h with
  | none => exact pure rfl
  | some hxy => exact hxy.map fun x y hxy => by rw [plain_some, plain_some, hxy]

theorem all {bs bs' : List (Build α)} (h : Forall₂ EchoedBy bs bs') :
    (bs.mapM id).EchoedBy (bs'.mapM id) :=
  mapM h

end EchoedBy

end Build

section Leaves

variable {t u : Token}

theorem Token.text_eq (h : t.word = u.word) : t.text = u.text :=
  congrArg Prod.snd h

theorem Token.terminal_eq (h : t.word = u.word) : t.terminal = u.terminal :=
  congrArg Prod.fst h

theorem Token.texts_eq {ts us : List Token} (h : ts.map Token.word = us.map Token.word) :
    ts.map (·.text) = us.map (·.text) := by
  have hsnd := congrArg (List.map Prod.snd) h
  rw [List.map_map, List.map_map] at hsnd
  exact hsnd

theorem Build.stringValue_echoedBy (h : t.word = u.word) :
    (Build.stringValue t).EchoedBy (Build.stringValue u) := by
  refine .read fun names cs cs' => ?_
  dsimp only
  rw [Token.text_eq h]
  cases Text.ofLiteral? names u.text with
  | some text => exact .pure rfl
  | none => exact .throw

theorem Build.numberValue_echoedBy (h : t.word = u.word) :
    (Build.numberValue t).EchoedBy (Build.numberValue u) := by
  rw [Build.numberValue, Build.numberValue, Token.text_eq h]
  split
  · exact .pure rfl
  · exact .throw

theorem Build.keyText_echoedBy (h : t.word = u.word) :
    (Build.keyText t).EchoedBy (Build.keyText u) := by
  rw [Build.keyText, Build.keyText, Token.terminal_eq h, Token.text_eq h]
  split
  · exact Build.stringValue_echoedBy h
  · exact .pure rfl

end Leaves

section Types

def TypeTree.EchoedBy (t u : TypeTree) : Prop :=
  t.build.EchoedBy u.build

structure FunctionParamTree.EchoedBy (p q : FunctionParamTree) : Prop where
  name : p.name.map (·.text) = q.name.map (·.text)
  type : p.type.EchoedBy q.type
  optional : p.optional = q.optional
  rest : p.rest = q.rest

def MemberTree.EchoedBy : MemberTree → MemberTree → Prop
  | .property key optional value, .property key' optional' value' =>
    key.word = key'.word ∧ optional = optional' ∧ value.EchoedBy value'
  | .method key params result, .method key' params' result' =>
    key.word = key'.word ∧ Forall₂ FunctionParamTree.EchoedBy params params' ∧
      result.EchoedBy result'
  | .spread argument, .spread argument' => argument.EchoedBy argument'
  | .indexer name key value, .indexer name' key' value' =>
    name.map (·.text) = name'.map (·.text) ∧ key.EchoedBy key' ∧ value.EchoedBy value'
  | .call params result, .call params' result' =>
    Forall₂ FunctionParamTree.EchoedBy params params' ∧ result.EchoedBy result'
  | _, _ => False

structure ObjectTree.EchoedBy (o o' : ObjectTree) : Prop where
  exact : o.exact = o'.exact
  members : Forall₂ (fun m m' => m.2.EchoedBy m'.2) o.members o'.members

theorem FunctionParamTree.EchoedBy.build {p q : FunctionParamTree} (h : p.EchoedBy q) :
    p.build.EchoedBy q.build := by
  refine Build.EchoedBy.map h.type fun x y hxy => ?_
  simp only [plain, FunctionParam.mk.injEq, h.name, h.optional, h.rest, true_and, and_true]
  exact hxy

namespace TypeTree

variable {t u : TypeTree} {ts us : List TypeTree} {p q : Position}
  {params params' : List FunctionParamTree} {result result' : TypeTree}

theorem EchoedBy.buildAnnotated (h : t.EchoedBy u) :
    (t.buildAnnotated p).EchoedBy (u.buildAnnotated q) := by
  refine h.bind fun x y hxy => ?_
  refine Build.EchoedBy.read fun _ cs cs' => .pure ?_
  simpa using hxy

theorem echoedBy_all (h : Forall₂ EchoedBy ts us) :
    (ts.mapM TypeTree.build).EchoedBy (us.mapM TypeTree.build) :=
  .mapM h

theorem echoedBy_params (h : Forall₂ FunctionParamTree.EchoedBy params params') :
    (params.mapM FunctionParamTree.build).EchoedBy (params'.mapM FunctionParamTree.build) :=
  .mapM (h.imp fun _ _ h => h.build)

theorem echoedBy_signature (hparams : Forall₂ FunctionParamTree.EchoedBy params params')
    (hresult : result.EchoedBy result') :
    (buildSignature p params result).EchoedBy (buildSignature q params' result') := by
  refine (echoedBy_params hparams).bind fun ps ps' hps => ?_
  refine Build.EchoedBy.map hresult fun r r' hr => ?_
  simp only [plain, CallSignature.mk.injEq, true_and]
  exact ⟨hps, hr⟩

theorem echoedBy_function (hparams : Forall₂ FunctionParamTree.EchoedBy params params')
    (hresult : result.EchoedBy result') :
    (buildFunction p params result).EchoedBy (buildFunction q params' result') := by
  refine (echoedBy_signature hparams hresult).map fun k k' hk => ?_
  obtain ⟨-, hps, hr⟩ := CallSignature.mk.inj hk
  rw [TypeExpr.plain_function, TypeExpr.plain_function, hps, hr]

theorem echoedBy_parenthesised (hparams : Forall₂ FunctionParamTree.EchoedBy params params') :
    (buildParenthesised p params).EchoedBy (buildParenthesised q params') := by
  refine (echoedBy_params hparams).bind fun ps ps' hps => ?_
  split
  · next loc type optional =>
    obtain ⟨p', _ | ⟨_, _⟩, rfl⟩ : ∃ p' rest, ps' = p' :: rest := by
      cases ps' with
      | nil => cases hps
      | cons p' rest => exact ⟨p', rest, rfl⟩
    · obtain ⟨loc', name', type', optional', rest'⟩ := p'
      simp only [plain_cons, plain_nil, List.cons.injEq, and_true] at hps
      obtain ⟨-, rfl, htype, -, rfl⟩ := FunctionParam.mk.inj hps
      exact .pure htype
    · simp at hps
  · exact .throw

theorem plain_builtin (name : String) :
    plain ((TypeExpr.builtin? p name).getD (.reference p [] name [])) =
      plain ((TypeExpr.builtin? q name).getD (.reference q [] name [])) := by
  unfold TypeExpr.builtin?
  split <;> rfl

theorem echoedBy_reference {name name' : Token} {path path' : List Token}
    {args args' : Option (List TypeTree)} (hname : name.word = name'.word)
    (hpath : path.map Token.word = path'.map Token.word)
    (hargs : Option.Rel (Forall₂ EchoedBy) args args') :
    (buildReference name path args).EchoedBy (buildReference name' path' args') := by
  have hempty : path.isEmpty = path'.isEmpty := by
    cases path <;> cases path' <;> simp at hpath ⊢
  refine (echoedBy_all (forall₂_getD hargs)).bind fun xs ys hxys => ?_
  have hnone : xs.isEmpty = ys.isEmpty := by
    cases xs <;> cases ys <;> simp at hxys ⊢
  simp only [List.map_cons, Token.texts_eq hpath, Token.text_eq hname, hempty, hnone]
  split
  · exact .pure (plain_builtin _)
  · exact .pure (by simp [hxys])

theorem echoedBy_nullable (h : t.EchoedBy u) : (nullable p t).EchoedBy (nullable q u) :=
  Build.EchoedBy.map h fun x y hxy => by rw [TypeExpr.plain_nullable, TypeExpr.plain_nullable, hxy]

theorem echoedBy_array (h : t.EchoedBy u) : t.array.EchoedBy u.array :=
  Build.EchoedBy.map h fun x y hxy => by rw [TypeExpr.plain_array, TypeExpr.plain_array, hxy]

theorem echoedBy_joined {build : Position → List TypeExpr → TypeExpr}
    (hbuild : ∀ p q xs ys, plain xs = plain ys → plain (build p xs) = plain (build q ys))
    (h : Forall₂ EchoedBy ts us) : (joined build p ts).EchoedBy (joined build q us) := by
  cases h with
  | nil => exact (echoedBy_all .nil).map (hbuild p q)
  | cons ht hts =>
    cases hts with
    | nil => exact ht
    | cons hu hus => exact (echoedBy_all (.cons ht (.cons hu hus))).map (hbuild p q)

theorem echoedBy_tuple (h : Forall₂ EchoedBy ts us) :
    EchoedBy ⟨p, return .tuple p (← ts.mapM TypeTree.build)⟩
      ⟨q, return .tuple q (← us.mapM TypeTree.build)⟩ :=
  (echoedBy_all h).map fun x y hxy => by rw [TypeExpr.plain_tuple, TypeExpr.plain_tuple, hxy]

theorem EchoedBy.parenthesised {result result' : Option TypeTree}
    (hparams : Forall₂ FunctionParamTree.EchoedBy params params')
    (hresult : Option.Rel EchoedBy result result') :
    (parenthesised p params result).EchoedBy (parenthesised q params' result') := by
  cases hresult with
  | none => exact echoedBy_parenthesised hparams
  | some h => exact echoedBy_function hparams h

theorem echoedBy_string {t u : Token} (h : t.word = u.word) :
    EchoedBy ⟨p, Language.stringType t⟩ ⟨q, Language.stringType u⟩ :=
  (Build.stringValue_echoedBy h).map fun x y hxy => by
    obtain rfl : x = y := hxy
    rw [TypeExpr.plain_string, TypeExpr.plain_string, Token.text_eq h]

theorem echoedBy_number {t u : Token} (h : t.word = u.word) :
    EchoedBy ⟨p, Language.numberType t⟩ ⟨q, Language.numberType u⟩ :=
  (Build.numberValue_echoedBy h).map fun x y hxy => by
    obtain rfl : x = y := hxy
    rw [TypeExpr.plain_numeral, TypeExpr.plain_numeral, Token.text_eq h]

end TypeTree

section Objects

variable {loc loc' : Position} {n n' : Notes}

instance : Plain ObjectTree.Part where
  plain
    | .member m => .member (plain m)
    | .indexer i => .indexer (plain i)
    | .call k => .call (plain k)

theorem MemberTree.EchoedBy.buildPart {m m' : MemberTree} (h : m.EchoedBy m') :
    (ObjectTree.buildPart loc n m).EchoedBy (ObjectTree.buildPart loc' n' m') := by
  cases m <;> cases m' <;> try exact h.elim
  case property.property key optional value key' optional' value' =>
    obtain ⟨hkey, rfl, hvalue⟩ := h
    refine (Build.keyText_echoedBy hkey).bind fun text text' htext => ?_
    refine (TypeTree.EchoedBy.buildAnnotated hvalue).map fun x y hxy => ?_
    obtain rfl : text = text' := htext
    simp only [plain, Token.text_eq hkey, Token.terminal_eq hkey]
    simpa [plain] using hxy
  case method.method key params result key' params' result' =>
    obtain ⟨hkey, hparams, hresult⟩ := h
    refine (Build.keyText_echoedBy hkey).bind fun text text' htext => ?_
    refine (TypeTree.echoedBy_function hparams hresult).map fun x y hxy => ?_
    obtain rfl : text = text' := htext
    simp only [plain, Token.text_eq hkey, Token.terminal_eq hkey]
    simpa [plain] using hxy
  case spread.spread argument argument' =>
    exact Build.EchoedBy.map h fun x y hxy => by simpa [plain] using hxy
  case indexer.indexer name key value name' key' value' =>
    obtain ⟨hname, hkey, hvalue⟩ := h
    refine Build.EchoedBy.bind hkey fun k k' hk => ?_
    refine Build.EchoedBy.map hvalue fun v v' hv => ?_
    simp only [plain, hname]
    simpa [plain] using ⟨hk, hv⟩
  case call.call params result params' result' =>
    refine (TypeTree.echoedBy_signature h.1 h.2).map fun k k' hk => ?_
    simpa [plain] using hk

theorem ObjectTree.EchoedBy.zip {o o' : ObjectTree} (h : o.EchoedBy o') (cs cs' : List Comment) :
    Forall₂ (fun m m' : (Extent × MemberTree) × Notes => m.1.2.EchoedBy m'.1.2)
      (o.members.zip (Notes.ofObject cs o.extent (o.members.map (·.1))))
      (o'.members.zip (Notes.ofObject cs' o'.extent (o'.members.map (·.1)))) := by
  have hzip (ms ms' : List (Extent × MemberTree))
      (h : Forall₂ (fun m m' => m.2.EchoedBy m'.2) ms ms') :
      ∀ ns ns' : List Notes, ns.length = ms.length → ns'.length = ms'.length →
        Forall₂ (fun m m' : (Extent × MemberTree) × Notes => m.1.2.EchoedBy m'.1.2) (ms.zip ns)
          (ms'.zip ns') := by
    induction h with
    | nil => exact fun _ _ _ _ => .nil
    | cons hm _ ih =>
      intro ns ns' hn hn'
      obtain ⟨n, ns, rfl⟩ := List.exists_cons_of_length_eq_add_one hn
      obtain ⟨n', ns', rfl⟩ := List.exists_cons_of_length_eq_add_one hn'
      exact .cons hm (ih ns ns' (Nat.succ.inj hn) (Nat.succ.inj hn'))
  exact hzip _ _ h.members _ _ (by simp [Notes.ofObject]) (by simp [Notes.ofObject])

theorem ObjectTree.EchoedBy.build {o o' : ObjectTree} (h : o.EchoedBy o') :
    o.build.EchoedBy o'.build := by
  refine Build.EchoedBy.read fun _ cs cs' => ?_
  refine (Build.EchoedBy.mapM ((h.zip cs cs').imp fun _ _ h => h.buildPart)).map fun ps ps' hps => ?_
  have hsame {β : Type} [Plain β] {f : ObjectTree.Part → Option β}
      (hf : ∀ part, f (plain part) = plain (f part)) :
      plain (ps.filterMap f) = plain (ps'.filterMap f) := by
    rw [plain_filterMap hf, plain_filterMap hf, hps]
  have hmembers := hsame (f := ObjectTree.Part.member?) fun part => by cases part <;> rfl
  have hindexers := hsame (f := ObjectTree.Part.indexer?) fun part => by cases part <;> rfl
  have hcalls := hsame (f := ObjectTree.Part.call?) fun part => by cases part <;> rfl
  simp only [plain, ObjectType.mk.injEq, h.exact, true_and, and_true]
  exact ⟨hmembers, hindexers, hcalls⟩

theorem ObjectTree.EchoedBy.tree {o o' : ObjectTree} (h : o.EchoedBy o') :
    o.tree.EchoedBy o'.tree :=
  h.build.map fun x y hxy => by rw [TypeExpr.plain_object, TypeExpr.plain_object, hxy]

end Objects

end Types

section Expressions

structure ParamTree.EchoedBy (p q : ParamTree) : Prop where
  name : p.name.map (·.text) = q.name.map (·.text)
  ascription : Option.Rel TypeTree.EchoedBy p.ascription q.ascription
  optional : p.optional = q.optional
  rest : p.rest = q.rest

structure PathTree.EchoedBy (p q : PathTree) : Prop where
  attrs : p.attrs.map (·.text) = q.attrs.map (·.text)
  calls : Forall₂ (fun c c' => Forall₂ Build.EchoedBy c.2 c'.2) p.calls q.calls

theorem ParamTree.EchoedBy.build {p q : ParamTree} (h : p.EchoedBy q) :
    p.build.EchoedBy q.build := by
  refine (Build.EchoedBy.mapOption h.ascription).map fun x y hxy => ?_
  simp only [plain, h.name, h.optional, h.rest]
  simpa [plain] using hxy

theorem ParamTree.echoedBy_all {ps qs : List ParamTree} (h : Forall₂ ParamTree.EchoedBy ps qs) :
    (ps.mapM ParamTree.build).EchoedBy (qs.mapM ParamTree.build) :=
  .mapM (h.imp fun _ _ h => h.build)

theorem plain_members {e e' : Expr} {attrs attrs' : List Token} (he : plain e = plain e')
    (hattrs : attrs.map (·.text) = attrs'.map (·.text)) :
    plain (attrs.foldl PathTree.member e) = plain (attrs'.foldl PathTree.member e') := by
  induction attrs generalizing e e' attrs' with
  | nil =>
    obtain rfl : attrs' = [] := by simpa using hattrs.symm
    exact he
  | cons a attrs ih =>
    obtain ⟨a', attrs', rfl, ha, hrest⟩ := List.map_eq_cons_iff.1 hattrs.symm
    have hmember : plain (PathTree.member e a) = plain (PathTree.member e' a') := by
      simp only [PathTree.member, Expr.plain_member, he, ha]
    rw [List.foldl_cons, List.foldl_cons]
    exact ih hmember hrest.symm

theorem plain_dotted {head head' : Token} {attrs attrs' : List Token} (hhead : head.word = head'.word)
    (hattrs : attrs.map (·.text) = attrs'.map (·.text)) :
    plain (PathTree.dotted head attrs) = plain (PathTree.dotted head' attrs') := by
  refine plain_members ?_ hattrs
  rw [Token.text_eq hhead]
  rfl

theorem PathTree.EchoedBy.build {p q : PathTree} {head head' : Token} (h : p.EchoedBy q)
    (hhead : head.word = head'.word) : (p.build head).EchoedBy (q.build head') := by
  have hcalls (e e' : Expr) (he : plain e = plain e') (calls calls' : List (Position × List ExprTree))
      (hcalls : Forall₂ (fun c c' => Forall₂ Build.EchoedBy c.2 c'.2) calls calls') :
      Build.EchoedBy
        (calls.foldlM (fun func c => do return .call c.1 func (← c.2.mapM id)) e : ExprTree)
        (calls'.foldlM (fun func c => do return .call c.1 func (← c.2.mapM id)) e') := by
    induction hcalls generalizing e e' with
    | nil => exact .pure he
    | cons hc _ ih =>
      rw [List.foldlM_cons, List.foldlM_cons]
      refine Build.EchoedBy.bind (Build.EchoedBy.map (.all hc) fun x y hxy => ?_) ih
      rw [Expr.plain_call, Expr.plain_call, he, hxy]
  exact hcalls _ _ (plain_dotted hhead h.attrs) _ _ h.calls

variable {p q : Position}

theorem ExprTree.echoedBy_array {xs ys : List ExprTree} (h : Forall₂ Build.EchoedBy xs ys) :
    (ExprTree.array p xs).EchoedBy (ExprTree.array q ys) :=
  (Build.EchoedBy.all h).map fun x y hxy => by rw [Expr.plain_array, Expr.plain_array, hxy]

theorem ExprTree.echoedBy_object {xs ys : List (Build (ObjectEntry Expr))} (h : Forall₂ Build.EchoedBy xs ys) :
    (ExprTree.object p xs).EchoedBy (ExprTree.object q ys) :=
  (Build.EchoedBy.all h).map fun x y hxy => by rw [Expr.plain_object, Expr.plain_object, hxy]

theorem ExprTree.echoedBy_arrow {ps qs : List ParamTree} (h : Forall₂ ParamTree.EchoedBy ps qs) :
    (ExprTree.arrow p ps).EchoedBy (ExprTree.arrow q qs) :=
  (ParamTree.echoedBy_all h).map fun x y hxy => by rw [Expr.plain_arrow, Expr.plain_arrow, hxy]

section Leaves

variable {t u : Token} {e e' : ExprTree}

theorem ExprTree.echoedBy_string (h : t.word = u.word) :
    (ExprTree.string t).EchoedBy (ExprTree.string u) :=
  (Build.stringValue_echoedBy h).map fun x y hxy => by
    obtain rfl : x = y := hxy
    rw [Token.text_eq h]
    rfl

theorem ExprTree.echoedBy_number (h : t.word = u.word) :
    (ExprTree.number t).EchoedBy (ExprTree.number u) :=
  (Build.numberValue_echoedBy h).map fun x y hxy => by
    obtain rfl : x = y := hxy
    rw [Token.text_eq h]
    rfl

theorem ExprTree.echoedBy_template (h : t.word = u.word) :
    (ExprTree.template t).EchoedBy (ExprTree.template u) :=
  .pure (by rw [Token.text_eq h]; rfl)

theorem ExprTree.echoedBy_entry (h : t.word = u.word) (he : e.EchoedBy e') :
    (ExprTree.entry t e).EchoedBy (ExprTree.entry u e') := by
  refine (Build.keyText_echoedBy h).bind fun key key' hkey => he.map fun x y hxy => ?_
  obtain rfl : key = key' := hkey
  exact congrArg (ObjectEntry.keyed .first key) hxy

theorem ExprTree.echoedBy_shorthand (h : t.word = u.word) :
    (ExprTree.shorthand t).EchoedBy (ExprTree.shorthand u) :=
  .pure (by rw [Token.text_eq h]; rfl)

theorem ExprTree.echoedBy_spread (he : e.EchoedBy e') :
    (ExprTree.spread t e).EchoedBy (ExprTree.spread u e') :=
  he.map fun _ _ hxy => congrArg (ObjectEntry.spread .first) hxy

end Leaves

end Expressions

section Declarations

variable {loc loc' : Position}

def AscriptionTree.EchoedBy (a a' : AscriptionTree) : Prop :=
  a.type.EchoedBy a'.type

def ImportTree.EchoedBy : ImportTree → ImportTree → Prop
  | .default_ name, .default_ name' | .namespace_ name, .namespace_ name' => name.word = name'.word
  | .named _ kind imported renamed, .named _ kind' imported' renamed' =>
    kind.map Token.word = kind'.map Token.word ∧ imported.word = imported'.word ∧
      renamed.map (·.text) = renamed'.map (·.text)
  | _, _ => False

structure ClassTree.EchoedBy (c c' : ClassTree) : Prop where
  name : c.name.map (·.text) = c'.name.map (·.text)
  params : plain c.params = plain c'.params
  superclass : plain (c.superclass.map (·.1)) = plain (c'.superclass.map (·.1))
  superArgs : Option.Rel (Forall₂ TypeTree.EchoedBy) (c.superclass.bind (·.2))
    (c'.superclass.bind (·.2))
  body : Forall₂ Build.EchoedBy c.body c'.body

theorem AscriptionTree.echoedBy_annotated {a a' : Option AscriptionTree}
    (h : Option.Rel AscriptionTree.EchoedBy a a') :
    Build.EchoedBy (a.mapM fun a : AscriptionTree => a.type.buildAnnotated a.start)
      (a'.mapM fun a : AscriptionTree => a.type.buildAnnotated a.start) := by
  refine .mapOption ?_
  cases h with
  | none => exact .none
  | some h => exact .some (TypeTree.EchoedBy.buildAnnotated h)

theorem AscriptionTree.echoedBy_type {a a' : Option AscriptionTree}
    (h : Option.Rel AscriptionTree.EchoedBy a a') :
    Build.EchoedBy (a.mapM fun a : AscriptionTree => a.type.build)
      (a'.mapM fun a : AscriptionTree => a.type.build) := by
  refine .mapOption ?_
  cases h with
  | none => exact .none
  | some h => exact .some h

theorem ClassTree.echoedBy_property {isStatic optional : Bool} {key key' : Token}
    {a a' : Option AscriptionTree} {init init' : Option ExprTree} (hkey : key.word = key'.word)
    (ha : Option.Rel AscriptionTree.EchoedBy a a') (hinit : Option.Rel Build.EchoedBy init init') :
    (property loc isStatic key optional a init).EchoedBy
      (property loc' isStatic key' optional a' init') := by
  refine (Build.keyText_echoedBy hkey).bind fun text text' htext => ?_
  refine (AscriptionTree.echoedBy_annotated ha).bind fun t t' ht => ?_
  refine (Build.EchoedBy.mapOption hinit).map fun v v' hv => ?_
  obtain rfl : text = text' := htext
  cases v <;> cases v' <;> simp [plain] at hv ht ⊢ <;> simp [ht, hv]

theorem ClassTree.echoedBy_method {isStatic : Bool} {key key' : Token} {ps ps' : List ParamTree}
    {r r' : Option AscriptionTree} (hkey : key.word = key'.word)
    (hps : Forall₂ ParamTree.EchoedBy ps ps') (hr : Option.Rel AscriptionTree.EchoedBy r r') :
    (method loc isStatic key ps r).EchoedBy (method loc' isStatic key' ps' r') := by
  refine (Build.keyText_echoedBy hkey).bind fun text text' htext => ?_
  refine (ParamTree.echoedBy_all hps).bind fun xs ys hxy => ?_
  refine (AscriptionTree.echoedBy_type hr).map fun t t' ht => ?_
  obtain rfl : text = text' := htext
  simp only [plain] at hxy ht ⊢
  simp [hxy, ht]

theorem ClassTree.EchoedBy.build {c c' : ClassTree} (h : c.EchoedBy c') :
    c.build.EchoedBy c'.build := by
  have hargs : Build.EchoedBy
      ((c.superclass.bind (·.2)).mapM fun args : List TypeTree => args.mapM (·.build))
      ((c'.superclass.bind (·.2)).mapM fun args : List TypeTree => args.mapM (·.build)) := by
    refine .mapOption ?_
    have hargs := h.superArgs
    generalize c.superclass.bind (·.2) = args at hargs ⊢
    generalize c'.superclass.bind (·.2) = args' at hargs ⊢
    cases hargs with
    | none => exact .none
    | some h => exact .some (TypeTree.echoedBy_all h)
  refine hargs.bind fun xs xs' hxs => (Build.EchoedBy.all h.body).map fun b b' hb => ?_
  simp only [plain, ClassDeclaration.mk.injEq, true_and]
  exact ⟨h.name, h.params, h.superclass, hxs, hb⟩

theorem ClassTree.EchoedBy.buildNamed {c c' : ClassTree} (h : c.EchoedBy c') :
    c.buildNamed.EchoedBy c'.buildNamed := by
  have hnone : c.name.isNone = c'.name.isNone := by
    have hmap := congrArg Option.isNone h.name
    simpa using hmap
  unfold ClassTree.buildNamed
  rw [hnone]
  split
  · exact .throw
  · exact h.build

theorem echoedBy_alias {name name' : Token} {ps ps' : List TypeParameter} {t t' : TypeTree}
    (hname : name.word = name'.word) (hps : plain ps = plain ps') (ht : t.EchoedBy t') :
    (AliasTree.build loc ⟨name, ps, t⟩).EchoedBy (AliasTree.build loc' ⟨name', ps', t'⟩) := by
  refine (TypeTree.EchoedBy.buildAnnotated ht).map fun x y hxy => ?_
  simp only [plain, TypeAlias.mk.injEq, true_and]
  exact ⟨Token.text_eq hname, hps, hxy⟩

theorem echoedBy_interface {name name' : Token} {ps ps' : List TypeParameter} {o o' : ObjectTree}
    (hname : name.word = name'.word) (hps : plain ps = plain ps') (ho : o.EchoedBy o') :
    (buildInterface loc name ps o).EchoedBy (buildInterface loc' name' ps' o') := by
  refine ho.build.map fun x y hxy => ?_
  simp only [plain, InterfaceDeclaration.mk.injEq, true_and]
  exact ⟨Token.text_eq hname, hps, hxy⟩

theorem echoedBy_functionDeclaration {name name' : Token} {ps ps' : List ParamTree}
    {r r' : Option AscriptionTree} (hname : name.word = name'.word)
    (hps : Forall₂ ParamTree.EchoedBy ps ps') (hr : Option.Rel AscriptionTree.EchoedBy r r') :
    (buildFunction loc name ps r).EchoedBy (buildFunction loc' name' ps' r') := by
  refine (ParamTree.echoedBy_all hps).bind fun xs ys hxy => ?_
  refine (AscriptionTree.echoedBy_type hr).map fun t t' ht => ?_
  simp only [plain, FunctionDeclaration.mk.injEq, true_and]
  exact ⟨Token.text_eq hname, hxy, ht⟩

theorem echoedBy_declarator {name name' : Token} {a a' : Option AscriptionTree}
    {init init' : Option ExprTree} (hname : name.word = name'.word)
    (ha : Option.Rel AscriptionTree.EchoedBy a a') (hinit : Option.Rel Build.EchoedBy init init') :
    (buildDeclarator name a init).EchoedBy (buildDeclarator name' a' init') := by
  refine (AscriptionTree.echoedBy_type ha).bind fun t t' ht => ?_
  refine (Build.EchoedBy.mapOption hinit).map fun v v' hv => ?_
  simp only [plain, VariableDeclarator.mk.injEq, true_and]
  exact ⟨Token.text_eq hname, ht, hv⟩

theorem echoedBy_variables {word word' : Token} {ds ds' : List (Build VariableDeclarator)}
    (hword : word.word = word'.word) (hds : Forall₂ Build.EchoedBy ds ds') :
    (buildVariables word ds).EchoedBy (buildVariables word' ds') := by
  have hkind : VariableKind.ofToken word = VariableKind.ofToken word' := by
    rw [VariableKind.ofToken, VariableKind.ofToken, Token.terminal_eq hword]
  refine (Build.EchoedBy.all hds).map fun xs ys hxy => ?_
  simp only [plain, VariableDeclaration.mk.injEq, true_and]
  exact ⟨hkind, hxy⟩

theorem ImportKind.ofToken?_eq {t t' : Option Token} (h : t.map Token.word = t'.map Token.word) :
    ImportKind.ofToken? t = ImportKind.ofToken? t' := by
  cases t <;> cases t' <;> simp [ImportKind.ofToken?, Token.word] at h ⊢
  rw [h.1]

theorem ImportTree.EchoedBy.build {i i' : ImportTree} (h : i.EchoedBy i') (source : Text)
    (kind : ImportKind) : (i.build source kind).EchoedBy (i'.build source kind) := by
  cases i <;> cases i' <;> try exact h.elim
  case default_.default_ name name' =>
    exact .pure (by simp [plain, Token.text_eq h])
  case namespace_.namespace_ name name' =>
    exact .pure (by simp [plain, Token.text_eq h])
  case named.named p own imported renamed p' own' imported' renamed' =>
    obtain ⟨hkind, himported, hrenamed⟩ := h
    simp only [ImportTree.build, ImportKind.ofToken?_eq hkind]
    cases renamed with
    | some t =>
      cases renamed' with
      | none => simp at hrenamed
      | some t' =>
        have htext : t.text = t'.text := by simpa using hrenamed
        exact .pure (by simp [plain, htext, Token.text_eq himported])
    | none =>
      cases renamed' with
      | some t' => simp at hrenamed
      | none =>
        simp only [Token.terminal_eq himported]
        split
        · exact .throw
        · exact .pure (by simp [plain, Token.text_eq himported])

theorem ImportTree.echoedBy_all {kind kind' : Option Token} {is is' : List ImportTree} {source source' : Token}
    (hkind : kind.map Token.word = kind'.map Token.word) (his : Forall₂ ImportTree.EchoedBy is is')
    (hsource : source.word = source'.word) :
    (ImportTree.buildAll loc kind is source).EchoedBy
      (ImportTree.buildAll loc' kind' is' source') := by
  refine (Build.stringValue_echoedBy hsource).bind fun text text' htext => ?_
  obtain rfl : text = text' := htext
  rw [ImportKind.ofToken?_eq hkind]
  refine (Build.EchoedBy.mapM (his.imp fun _ _ h => h.build text _)).map fun xs ys hxy => ?_
  simp only [plain] at hxy ⊢
  simp [hxy]

theorem ExportClauseTree.echoedBy {kind : ImportKind} {xs xs' : List ExportSpecifier} {s s' : Option Token}
    (hxs : plain xs = plain xs') (hs : s.map Token.word = s'.map Token.word) :
    (ExportClauseTree.build loc kind ⟨xs, s⟩).EchoedBy (ExportClauseTree.build loc' kind ⟨xs', s'⟩) := by
  have hsource : Build.EchoedBy (s.mapM Build.stringValue) (s'.mapM Build.stringValue) := by
    refine .mapOption ?_
    cases s <;> cases s' <;> simp at hs
    · exact .none
    · exact .some (Build.stringValue_echoedBy hs)
  refine hsource.map fun x y hxy => ?_
  obtain rfl : x = y := by simpa [plain] using hxy
  simp only [plain] at hxs ⊢
  simp [hxs]

theorem ExportClauseTree.plain_specifier {inner inner' : Token} {exported exported' : Option Token}
    (hinner : inner.word = inner'.word) (hexported : exported.map Token.word = exported'.map Token.word) :
    plain (specifier loc inner exported) = plain (specifier loc' inner' exported') := by
  have hname : (exported.getD inner).text = (exported'.getD inner').text := by
    cases exported <;> cases exported' <;> simp at hexported
    · exact Token.text_eq hinner
    · exact Token.text_eq hexported
  simp only [specifier, plain, Token.text_eq hinner, hname]

end Declarations

end PropTables
