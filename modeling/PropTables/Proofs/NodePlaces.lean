import PropTables.Proofs.Constructs
import PropTables.Proofs.Nodes

/-! What trees build stands where it says. There is one lemma for each tree: the nodes that it builds are at
their places if its tokens and its subtrees are. -/

namespace PropTables

open SyntaxNode (Sits)

variable {source : String} {α β γ : Type} {p p' q q' m loc : Position}

theorem Row.map {R : Position → Position → β → Prop} {f : α → β} {xs : List α}
    (h : Row (fun p q x => R p q (f x)) p q xs) : Row R p q (xs.map f) := by
  induction h with
  | nil h => exact .nil h
  | cons hgap hx _ ih => exact .cons hgap hx ih

theorem Row.single {R : Position → Position → α → Prop} {x : α} (h : R p q x) : Row R p q [x] :=
  .cons le_rfl h (.nil le_rfl)

theorem Row.exists_piece {R : Position → Position → α → Prop} {xs : List α} (h : Row R p q xs) :
    ∀ x ∈ xs, ∃ p q, R p q x := by
  induction h with
  | nil => exact nofun
  | cons _ hx _ ih => exact List.forall_mem_cons.2 ⟨⟨_, _, hx⟩, ih⟩

theorem Row.zip {R : Position → Position → α → Prop} {xs : List α} (ys : List β)
    (hR : ∀ p q x, R p q x → p ≤ q) (h : Row R p q xs) :
    Row (fun p q z => R p q z.1) p q (xs.zip ys) := by
  induction h generalizing ys with
  | nil h => exact .nil h
  | cons hgap hx hxs ih =>
    cases ys with
    | nil => exact .nil (hgap.trans ((hR _ _ _ hx).trans (hxs.le hR)))
    | cons y ys => exact .cons hgap hx (ih ys)

theorem Row.filterMap {R : Position → Position → α → Prop} {S : Position → Position → β → Prop}
    {f : α → Option β} {xs : List α} (hR : ∀ p q x, R p q x → p ≤ q)
    (hS : ∀ p q x, R p q x → ∀ y ∈ f x, S p q y) (h : Row R p q xs) :
    Row S p q (xs.filterMap f) := by
  induction h with
  | nil h => exact .nil h
  | @cons p p' m x q xs hgap hx hxs ih =>
    rw [List.filterMap_cons]
    cases hf : f x with
    | none => exact ih.mono (hgap.trans (hR _ _ _ hx)) le_rfl
    | some y => exact .cons hgap (hS _ _ _ hx y hf) ih

theorem Optional.toList {R : Position → Position → α → Prop} {x : Option α}
    (h : Optional R p q x) : Row R p q x.toList := by
  cases x with
  | none => exact .nil h.1
  | some x => exact .single (h.2 x rfl)

def SourceFault.OfMeaning : SourceFault → Prop
  | refused (.structure_ ..) | literal _ => True
  | refused _ => False

namespace Build

/-- Whatever is built has the property, and nothing but the meaning of tokens is at fault. -/
structure Yields (P : α → Prop) (b : Build α) : Prop where
  gives : ∀ names, b.Gives names P
  blames : ∀ ⦃around e⦄, b.run around = .error e → e.OfMeaning

namespace Yields

variable {P : α → Prop} {Q : β → Prop} {a : Build β} {f : β → Build α}

theorem pure {x : α} (h : P x) : Yields P (Pure.pure x) :=
  ⟨fun _ => .pure h, by rintro _ _ ⟨⟩⟩

theorem throw {fault : SourceFault} (h : fault.OfMeaning) : Yields P (MonadExcept.throw fault) :=
  ⟨fun _ => .throw, by rintro _ _ ⟨⟩; exact h⟩

theorem imp {P' : α → Prop} {b : Build α} (h : b.Yields P) (hP : ∀ x, P x → P' x) : b.Yields P' :=
  ⟨fun names _ _ hrun => hP _ (h.gives names hrun), h.blames⟩

theorem bind (ha : a.Yields Q) (hf : ∀ x, Q x → (f x).Yields P) : (a >>= f).Yields P := by
  refine ⟨fun names => (ha.gives names).bind fun x hx => (hf x hx).gives names,
    fun around e he => ?_⟩
  rw [ReaderT.run_bind] at he
  cases hrun : a.run around with
  | error e' =>
    rw [hrun] at he
    cases he
    exact ha.blames hrun
  | ok x =>
    rw [hrun] at he
    exact (hf x (ha.gives _ hrun)).blames he

theorem map {g : β → α} (ha : a.Yields Q) (hg : ∀ x, Q x → P (g x)) :
    (a >>= fun x => Pure.pure (g x)).Yields P :=
  ha.bind fun x hx => pure (hg x hx)

theorem read {f : Surroundings → Build α} (h : ∀ around, (f around).Yields P) :
    (MonadReader.read >>= f).Yields P :=
  ⟨fun names => .read fun cs => (h ⟨cs, names⟩).gives names, fun around _ he => (h around).blames he⟩

theorem row {R : Position → Position → β → Prop} {g : α → Build β} {xs : List α}
    (h : Row (fun p q x => (g x).Yields (R p q)) p q xs) : (xs.mapM g).Yields (Row R p q) := by
  induction h with
  | nil h => exact pure (.nil h)
  | cons hgap hx _ ih =>
    rw [List.mapM_cons]
    exact hx.bind fun y hy => ih.map fun ys hys => .cons hgap hy hys

theorem optional {R : Position → Position → β → Prop} {g : α → Build β} {x : Option α}
    (h : Optional (fun p q x => (g x).Yields (R p q)) p q x) :
    (x.mapM g).Yields (Optional R p q) := by
  cases x with
  | none => exact pure ⟨h.1, nofun⟩
  | some x => exact (h.2 x rfl).map fun y hy => ⟨h.1, fun z hz => Option.mem_some_iff.1 hz ▸ hy⟩

end Yields

theorem yields_stringValue (t : Token) : (stringValue t).Yields fun _ => True := by
  refine .read fun around => ?_
  split
  · exact .pure trivial
  · exact .throw trivial

theorem yields_numberValue (t : Token) : (numberValue t).Yields fun _ => True := by
  unfold numberValue
  split
  · exact .pure trivial
  · exact .throw trivial

theorem yields_keyText (t : Token) : (keyText t).Yields fun _ => True := by
  unfold keyText
  split
  · exact yields_stringValue t
  · exact .pure trivial

theorem yields_commentsBetween (lo hi : Position) : (commentsBetween lo hi).Yields fun _ => True :=
  .read fun _ => .pure trivial

structure Sits (source : String) (f : α → SyntaxNode) (p q : Position) (b : Build α) : Prop where
  lt : p < q
  yields : b.Yields fun x => (f x).Sits source p q

theorem Sits.mono {f : α → SyntaxNode} {b : Build α} (h : b.Sits source f p q) (hp : p' ≤ p)
    (hq : q ≤ q') : b.Sits source f p' q' :=
  ⟨hp.trans_lt (h.lt.trans_le hq), h.yields.imp fun _ h => h.mono hp hq⟩

end Build

section Types

structure TypeTree.Sits (source : String) (p q : Position) (t : TypeTree) : Prop where
  le_start : p ≤ t.start
  start_lt : t.start < q
  yields : t.build.Yields fun x => SyntaxNode.Sits source t.start q (.type x)

structure FunctionParamTree.Sits (source : String) (p q : Position) (f : FunctionParamTree) : Prop where
  le_loc : p ≤ f.loc
  type : f.type.Sits source f.loc q

def SignatureSits (source : String) (p q : Position) (params : List FunctionParamTree)
    (result : TypeTree) : Prop :=
  ∃ m, Row (FunctionParamTree.Sits source) p m params ∧ result.Sits source m q

def MemberTree.Sits (source : String) (p q : Position) : MemberTree → Prop
  | .property key _ value => StandsAt source p key.text ∧ value.Sits source p q
  | .method key params result => StandsAt source p key.text ∧ SignatureSits source p q params result
  | .spread argument => argument.Sits source p q
  | .indexer _ key value => ∃ m, key.Sits source p m ∧ value.Sits source m q
  | .call params result => SignatureSits source p q params result

def MemberSits (source : String) (p q : Position) (x : Extent × MemberTree) : Prop :=
  x.1.start = p ∧ x.2.Sits source p q

structure ObjectTree.Sits (source : String) (p q : Position) (o : ObjectTree) : Prop where
  start : o.extent.start = p
  lt : p < q
  brace : StandsAt source p (if o.exact then "\x7b|" else "\x7b")
  members : Row (MemberSits source) p q o.members

namespace TypeTree

variable {t : TypeTree} {ts : List TypeTree}

theorem Sits.lt (h : t.Sits source p q) : p < q :=
  h.le_start.trans_lt h.start_lt

theorem Sits.mono (h : t.Sits source p q) (hp : p' ≤ p) (hq : q ≤ q') : t.Sits source p' q' :=
  ⟨hp.trans h.le_start, h.start_lt.trans_le hq, h.yields.imp fun _ h => h.mono le_rfl hq⟩

theorem Sits.build (h : t.Sits source p q) :
    t.build.Yields fun x => SyntaxNode.Sits source p q (.type x) :=
  h.yields.imp fun _ hx => hx.mono h.le_start le_rfl

theorem row_sits_le (h : Row (Sits source) p q ts) : p ≤ q :=
  h.le fun _ _ _ h => h.lt.le

theorem Sits.row (h : Row (Sits source) p q ts) :
    (ts.mapM TypeTree.build).Yields fun xs => Row (SyntaxNode.Sits source) p q (xs.map .type) :=
  (Build.Yields.row (h.imp fun _ _ _ h => h.build)).imp fun _ => Row.map

theorem sits_withLeading {x : TypeExpr} (h : SyntaxNode.Sits source p q (.type x))
    (leading : List String) : SyntaxNode.Sits source p q (.type (x.withLeading leading)) := by
  cases x with
  | object o =>
    refine ⟨h.le_loc, h.loc_lt, fun m hm => ?_⟩
    have hplaced := h.placed _ .refl
    rcases hm.cases_head with rfl | ⟨k, hk, hm⟩
    · exact ⟨hplaced.spelled, nofun, hplaced.ordered, hplaced.within⟩
    · exact h.placed m (.head hk hm)
  | _ => exact h

theorem Sits.buildAnnotated (h : t.Sits source p q) (lo : Position) :
    (t.buildAnnotated lo).Yields fun x => SyntaxNode.Sits source p q (.type x) :=
  h.build.bind fun _ hx => (Build.yields_commentsBetween lo t.start).map fun _ _ =>
    sits_withLeading hx _

theorem Sits.joined {b : Position → List TypeExpr → TypeExpr} (hloc : ∀ loc xs, (b loc xs).loc = loc)
    (hparts : ∀ loc xs, (b loc xs).parts = [xs.map .type])
    (hspelled : ∀ loc xs, (b loc xs).spelling? = none) (hp : p ≤ loc) (hlt : loc < q)
    (h : Row (Sits source) loc q ts) : (TypeTree.joined b loc ts).Sits source p q := by
  have hmany : Sits source p q ⟨loc, do return b loc (← ts.mapM TypeTree.build)⟩ := by
    refine ⟨hp, hlt, (Sits.row h).map fun xs hxs => ?_⟩
    have hstart : (SyntaxNode.type (b loc xs)).loc = loc := hloc loc xs
    have hnone : (SyntaxNode.type (b loc xs)).spelling? = none := hspelled loc xs
    exact .of_row hstart.ge (hstart.trans_lt hlt) (by simp [hnone]) rfl (hparts loc xs)
      (hxs.mono hstart.le le_rfl)
  match ts, h with
  | [t], .cons hgap ht hnil => exact ht.mono (hp.trans hgap) (row_sits_le hnil)
  | [], _ | _ :: _ :: _, _ => exact hmany

theorem Sits.nullable (hp : p ≤ loc) (hloc : loc ≤ m) (h : t.Sits source m q) :
    (TypeTree.nullable loc t).Sits source p q := by
  have hlt : loc < q := hloc.trans_lt h.lt
  refine ⟨hp, hlt, h.build.map fun x hx => ?_⟩
  exact .of_row le_rfl hlt nofun rfl rfl (.single (hx.mono hloc le_rfl))

theorem Sits.array (h : t.Sits source p q) : (TypeTree.array t).Sits source p q :=
  ⟨h.le_start, h.start_lt, h.yields.map fun _ hx =>
    .of_row le_rfl h.start_lt nofun rfl rfl (.single hx)⟩

theorem Sits.tuple (hp : p ≤ loc) (hlt : loc < q) (h : Row (Sits source) loc q ts) :
    Sits source p q ⟨loc, do return .tuple loc (← ts.mapM TypeTree.build)⟩ :=
  ⟨hp, hlt, (Sits.row h).map fun _ hxs => .of_row le_rfl hlt nofun rfl rfl hxs⟩

theorem sits_string {t : Token} (hp : p ≤ t.start) (hlt : t.start < q)
    (h : StandsAt source t.start t.text) : Sits source p q ⟨t.start, Language.stringType t⟩ :=
  ⟨hp, hlt, (Build.yields_stringValue t).map fun _ _ =>
    .of_leaf le_rfl hlt (fun _ hs => Option.mem_some_iff.1 hs ▸ h) rfl rfl⟩

theorem sits_number {t : Token} (hp : p ≤ t.start) (hlt : t.start < q)
    (h : StandsAt source t.start t.text) : Sits source p q ⟨t.start, Language.numberType t⟩ :=
  ⟨hp, hlt, (Build.yields_numberValue t).map fun _ _ =>
    .of_leaf le_rfl hlt (fun _ hs => Option.mem_some_iff.1 hs ▸ h) rfl rfl⟩

theorem sits_builtin {name : String} {x : TypeExpr} (hlt : loc < q) (hname : StandsAt source loc name)
    (h : TypeExpr.builtin? loc name = some x) : SyntaxNode.Sits source loc q (.type x) := by
  unfold TypeExpr.builtin? at h
  split at h <;> cases h
  case h_1 | h_2 => exact .of_leaf le_rfl hlt (fun _ hs => Option.mem_some_iff.1 hs ▸ hname) rfl rfl
  all_goals exact .of_leaf le_rfl hlt nofun rfl rfl

theorem sits_reference {name : Token} {path : List Token} {args : Option (List TypeTree)}
    (hlt : name.start < q) (hname : StandsAt source name.start name.text)
    (h : Row (Sits source) name.start q (args.getD [])) :
    (buildReference name path args).Yields fun x => SyntaxNode.Sits source name.start q (.type x) := by
  have hreference (qualifiers : List String) (last : String) (hfirst : qualifiers.headD last = name.text)
      (xs : List TypeExpr) (hxs : Row (SyntaxNode.Sits source) name.start q (xs.map .type)) :
      SyntaxNode.Sits source name.start q (.type (.reference name.start qualifiers last xs)) := by
    refine .of_row le_rfl hlt (fun text ht => ?_) rfl rfl hxs
    cases Option.mem_some_iff.1 ht
    rw [hfirst]
    exact hname
  refine (Sits.row h).bind fun xs hxs => ?_
  split
  next hbare =>
    refine .pure ?_
    cases hbuiltin : TypeExpr.builtin? name.start name.text with
    | some x => exact sits_builtin hlt hname hbuiltin
    | none => exact hreference _ _ rfl _ (.nil hlt.le)
  next =>
    refine .pure (hreference _ _ ?_ _ hxs)
    cases path <;> rfl

end TypeTree

namespace FunctionParamTree

variable {f : FunctionParamTree}

theorem Sits.lt (h : f.Sits source p q) : p < q :=
  h.le_loc.trans_lt h.type.lt

theorem Sits.build (h : f.Sits source p q) : f.build.Yields fun x =>
    SyntaxNode.Sits source p q (.functionParam x) ∧ SyntaxNode.Sits source p q (.type x.type) := by
  refine h.type.build.map fun x hx => ⟨?_, hx.mono h.le_loc le_rfl⟩
  exact .of_row h.le_loc h.type.lt nofun rfl rfl (.single hx)

theorem Sits.row {fs : List FunctionParamTree} (h : Row (Sits source) p q fs) :
    (fs.mapM FunctionParamTree.build).Yields fun xs =>
      Row (SyntaxNode.Sits source) p q (xs.map .functionParam) :=
  (Build.Yields.row (h.imp fun _ _ _ h => h.build)).imp fun _ hxs =>
    Row.map (hxs.imp fun _ _ _ h => h.1)

end FunctionParamTree

section Signatures

variable {params : List FunctionParamTree} {result : TypeTree}

theorem SignatureSits.lt (h : SignatureSits source p q params result) : p < q := by
  obtain ⟨m, hparams, hresult⟩ := h
  exact (hparams.le fun _ _ _ h => h.lt.le).trans_lt hresult.lt

def CallSignature.PartsSit (source : String) (loc : Position) (k : CallSignature TypeExpr) : Prop :=
  k.loc = loc ∧ ∀ n : SyntaxNode, n.loc = loc →
    n.parts = [k.params.map .functionParam, [.type k.result]] → n.PartsSit source

theorem SignatureSits.build (h : SignatureSits source loc q params result) :
    (TypeTree.buildSignature loc params result).Yields fun k => k.PartsSit source loc := by
  obtain ⟨m, hparams, hresult⟩ := h
  have hle : loc ≤ m := hparams.le fun _ _ _ h => h.lt.le
  refine (FunctionParamTree.Sits.row hparams).bind fun ps hps => hresult.build.map fun r hr => ⟨rfl, ?_⟩
  intro n hloc hn row hrow
  rw [hn] at hrow
  rcases List.mem_pair.1 hrow with rfl | rfl
  · exact ⟨_, _, hps, fun _ => hloc.le⟩
  · exact ⟨_, _, .single hr, fun _ => hloc.trans_le hle⟩

theorem SignatureSits.buildFunction (h : SignatureSits source loc q params result) :
    (TypeTree.buildFunction loc params result).Yields fun x => SyntaxNode.Sits source loc q (.type x) :=
  h.build.map fun _ hk => .of_parts hk.1.ge (hk.1.trans_lt h.lt) nofun nofun (hk.2 _ hk.1 rfl)

theorem TypeTree.sits_parenthesised {result : Option TypeTree} (hp : p ≤ loc) (hlt : loc < m)
    (hm : m ≤ q) (hparams : Row (FunctionParamTree.Sits source) loc m params)
    (hresult : ∀ r ∈ result, r.Sits source m q) :
    (parenthesised loc params result).Sits source p q := by
  refine ⟨hp, hlt.trans_le hm, ?_⟩
  cases result with
  | some r => exact SignatureSits.buildFunction ⟨m, hparams, hresult r rfl⟩
  | none =>
    refine (Build.Yields.row ((hparams.mono le_rfl hm).imp fun _ _ _ h => h.build)).bind fun xs hxs => ?_
    split
    · cases hxs with
      | cons hgap hx hnil =>
        exact .pure (hx.2.mono hgap (hnil.le fun _ _ _ h => h.1.lt.le))
    · exact .throw trivial

end Signatures

namespace ObjectTree

def Part.node : Part → SyntaxNode
  | member m => .member m
  | indexer i => .indexer i
  | call k => .call k

theorem sits_property {key : Token} {optional quoted : Bool} {text : Text} {value : TypeExpr}
    {notes : Notes} (hkey : StandsAt source p key.text)
    (h : SyntaxNode.Sits source p q (.type value)) :
    SyntaxNode.Sits source p q
      (.member (.property ⟨p, text, key.text, value, optional, quoted, notes⟩)) :=
  .of_row le_rfl h.lt (fun _ hs => Option.mem_some_iff.1 hs ▸ hkey) rfl rfl (.single h)

theorem sits_lt {x : MemberTree} (h : x.Sits source p q) : p < q := by
  cases x with
  | property => exact h.2.lt
  | method => exact h.2.lt
  | spread => exact TypeTree.Sits.lt h
  | indexer =>
    obtain ⟨m, hkey, hvalue⟩ := h
    exact hkey.lt.trans hvalue.lt
  | call => exact SignatureSits.lt h

theorem sits_part {x : MemberTree} (notes : Notes) (h : x.Sits source p q) :
    (buildPart p notes x).Yields fun part => part.node.Sits source p q := by
  cases x with
  | property key optional value =>
    exact (Build.yields_keyText key).bind fun _ _ => (h.2.buildAnnotated p).map fun _ hx =>
      sits_property h.1 hx
  | method key params result =>
    exact (Build.yields_keyText key).bind fun _ _ => h.2.buildFunction.map fun _ hx =>
      sits_property h.1 hx
  | spread argument =>
    exact (TypeTree.Sits.build h).map fun _ hx => .of_row le_rfl hx.lt nofun rfl rfl (.single hx)
  | indexer name key value =>
    obtain ⟨m, hkey, hvalue⟩ := h
    refine hkey.build.bind fun k hk => hvalue.build.map fun v hv => ?_
    refine .of_parts le_rfl (hkey.lt.trans hvalue.lt) nofun nofun fun row hrow => ?_
    rcases List.mem_pair.1 hrow with rfl | rfl
    · exact ⟨_, _, .single hk, fun _ => le_rfl⟩
    · exact ⟨_, _, .single hv, fun _ => hkey.lt.le⟩
  | call params result =>
    exact (SignatureSits.build h).map fun _ hk =>
      .of_parts hk.1.ge (hk.1.trans_lt (SignatureSits.lt h)) nofun nofun (hk.2 _ hk.1 rfl)

theorem sits_parts {parts : List Part} (lt : p < q) (ex : Bool) (leading : List String)
    (hbrace : StandsAt source p (if ex then "\x7b|" else "\x7b"))
    (h : Row (fun p q (x : Part) => x.node.Sits source p q) p q parts) :
    SyntaxNode.Sits source p q (.type (.object ⟨p, parts.filterMap Part.member?,
      parts.filterMap Part.indexer?, parts.filterMap Part.call?, ex, leading⟩)) := by
  have hle : ∀ p q (x : Part), x.node.Sits source p q → p ≤ q := fun _ _ _ h => h.lt.le
  refine .of_parts le_rfl lt (fun _ hs => Option.mem_some_iff.1 hs ▸ hbrace) nofun fun row hrow => ?_
  have hrow : row = (parts.filterMap Part.member?).map .member ∨
      row = (parts.filterMap Part.indexer?).map .indexer ∨
      row = (parts.filterMap Part.call?).map .call := by
    simpa [SyntaxNode.parts, TypeExpr.parts] using hrow
  rcases hrow with rfl | rfl | rfl
  all_goals
    refine ⟨p, q, .map (h.filterMap hle fun p q x hx y hy => ?_), fun _ => le_rfl⟩
    cases x <;> cases hy
    exact hx

variable {o : ObjectTree}

theorem Sits.build (h : o.Sits source p q) :
    o.build.Yields fun x => SyntaxNode.Sits source p q (.type (.object x)) := by
  refine .read fun around => ?_
  have hmembers := h.members.zip (Notes.ofObject around.comments o.extent (o.members.map (·.1)))
    fun _ _ _ h => (sits_lt h.2).le
  have hbuilt : Row (fun p q (x : (Extent × MemberTree) × Notes) =>
      (buildPart x.1.1.start x.2 x.1.2).Yields fun part => part.node.Sits source p q) p q
      (o.members.zip (Notes.ofObject around.comments o.extent (o.members.map (·.1)))) := by
    refine hmembers.imp fun p q x hx => ?_
    rw [hx.1]
    exact sits_part x.2 hx.2
  refine (Build.Yields.row (R := fun p q part => part.node.Sits source p q) hbuilt).map
    fun parts hparts => ?_
  rw [h.start]
  exact sits_parts h.lt _ _ h.brace hparts

theorem Sits.tree (h : o.Sits source p q) : o.tree.Sits source p q := by
  refine ⟨h.start.ge, h.start.trans_lt h.lt, h.build.map fun x hx => ?_⟩
  rw [ObjectTree.tree, h.start]
  exact hx

end ObjectTree

end Types

end PropTables
