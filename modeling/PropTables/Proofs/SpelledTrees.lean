import PropTables.Proofs.Constructs
import PropTables.Proofs.ModuleNames
import PropTables.Proofs.Printing
import PropTables.Proofs.Settled
import PropTables.Proofs.Sites

/-! What is built from tokens of a text can be written. The text of a token is the same token where it
stands alone, so the names, keys and literals that trees take over from tokens are tokens, and the types
that trees build are spelled. -/

namespace PropTables

open Spelling

section Tokens

def Token.StandsAlone (t : Token) : Prop :=
  IsToken t.terminal t.text

def Token.IsWord (t : Token) : Prop :=
  t.terminal.isWord = true ∧ t.StandsAlone

def Token.IsKey (t : Token) : Prop :=
  (t.terminal = .string ∨ t.terminal.isWord = true) ∧ t.StandsAlone

theorem Token.IsWord.isName {t : Token} (h : t.IsWord) : IsName t.text :=
  ⟨t.terminal, h⟩

theorem Token.StandsAlone.isToken {t : Token} {k : Terminal} (h : t.StandsAlone)
    (hk : t.terminal = k) : IsToken k t.text :=
  hk ▸ h

theorem isName_of_isToken {text : String} (h : IsToken .name text) : IsName text :=
  ⟨.name, rfl, h⟩

namespace Lexing

theorem standsAlone_of_scan (steps : Nat) (p : Position) (cs : List Char) :
    ∀ x ∈ (scan steps p cs).lexemes, ∀ t ∈ x.token?, t.StandsAlone := by
  induction steps generalizing p cs with
  | zero => cases cs <;> exact nofun
  | succ steps ih =>
    cases cs with
    | nil => exact nofun
    | cons c r =>
      unfold scan
      split
      · exact nofun
      · next k n hk =>
        rintro x (_ | ⟨_, hx⟩)
        · cases k with
          | comment | blank => exact nofun
          | token k =>
            rintro _ ⟨⟩
            have hlen : ((c :: r).take n).length = n :=
              List.length_take_of_le (LexemeClass.settled_recognise.le hk)
            rw [Token.StandsAlone, IsToken, ← String.length_toList, String.toList_ofList, hlen]
            refine LexemeClass.settled_recognise.restrict (r := (c :: r).drop n) ?_ hlen.ge
            rw [List.take_append_drop, hk]
        · exact ih _ _ x hx

theorem standsAlone_of_mem_tokens {source : String} {t : Token} (h : t ∈ (ofSource source).tokens) :
    t.StandsAlone := by
  obtain ⟨x, hx, ht⟩ := List.mem_filterMap.1 h
  exact standsAlone_of_scan _ _ _ x hx t ht

end Lexing

end Tokens

namespace Build

variable {α β γ : Type} {names : CharacterNames}

def Gives (names : CharacterNames) (P : α → Prop) (b : Build α) : Prop :=
  ∀ ⦃cs x⦄, b.run ⟨cs, names⟩ = .ok x → P x

namespace Gives

variable {P : α → Prop} {Q : β → Prop} {a : Build β} {f : β → Build α}

theorem of_forall {b : Build α} (h : ∀ x, P x) : b.Gives names P :=
  fun _ x _ => h x

theorem pure {x : α} (h : P x) : Gives names P (Pure.pure x) := by
  rintro _ _ ⟨⟩
  exact h

theorem throw {fault : SourceFault} : Gives names P (MonadExcept.throw fault) := by
  rintro _ _ ⟨⟩

theorem bind (ha : a.Gives names Q) (hf : ∀ x, Q x → (f x).Gives names P) :
    (a >>= f).Gives names P := by
  intro cs y hy
  obtain ⟨x, hx, hy⟩ := run_bind_eq_ok.1 hy
  exact hf x (ha hx) hy

theorem map {g : β → α} (ha : a.Gives names Q) (hg : ∀ x, Q x → P (g x)) :
    (a >>= fun x => Pure.pure (g x)).Gives names P :=
  ha.bind fun x hx => pure (hg x hx)

theorem read {f : Surroundings → Build α} (h : ∀ cs, (f ⟨cs, names⟩).Gives names P) :
    (MonadReader.read >>= f).Gives names P :=
  fun cs _ hx => h cs hx

theorem step (hf : ∀ x, (f x).Gives names P) : (a >>= f).Gives names P :=
  (of_forall (P := fun _ => True) fun _ => trivial).bind fun x _ => hf x

theorem mapM {g : γ → Build α} {xs : List γ} (h : ∀ x ∈ xs, (g x).Gives names P) :
    (xs.mapM g).Gives names fun ys => ys.length = xs.length ∧ ∀ y ∈ ys, P y := by
  induction xs with
  | nil => exact pure ⟨rfl, nofun⟩
  | cons x xs ih =>
    rw [List.mapM_cons]
    refine (h x List.mem_cons_self).bind fun y hy => ?_
    refine (ih fun z hz => h z (List.mem_cons_of_mem _ hz)).map fun ys hys => ?_
    exact ⟨congrArg (· + 1) hys.1, List.forall_mem_cons.2 ⟨hy, hys.2⟩⟩

theorem all {g : γ → Build α} {xs : List γ} (h : ∀ x ∈ xs, (g x).Gives names P) :
    (xs.mapM g).Gives names fun ys => ∀ y ∈ ys, P y :=
  fun _ _ hrun => (mapM h hrun).2

theorem mapOption {g : γ → Build α} {x : Option γ} (h : ∀ y ∈ x, (g y).Gives names P) :
    (x.mapM g).Gives names fun z => ∀ y ∈ z, P y := by
  cases x with
  | none => exact pure nofun
  | some x => exact (h x rfl).map fun y hy z hz => Option.mem_some_iff.1 hz ▸ hy

end Gives

theorem stringValue_gives (t : Token) :
    (stringValue t).Gives names fun text => Text.ofLiteral? names t.text = some text := by
  refine .read fun cs => ?_
  dsimp only
  split
  next text h => exact .pure h
  next => exact .throw

theorem numberValue_gives (t : Token) :
    (numberValue t).Gives names fun n => Number.ofLiteral? t.text = some n := by
  unfold numberValue
  split
  next n h => exact .pure h
  next => exact .throw

theorem keyText_gives (t : Token) : (keyText t).Gives names fun text =>
    if t.terminal = .string then Text.ofLiteral? names t.text = some text
    else text = Text.ofString t.text := by
  unfold keyText
  split
  next => exact stringValue_gives t
  next => exact .pure rfl

end Build

section Types

variable {names : CharacterNames}

def TypeTree.Spelled (names : CharacterNames) (t : TypeTree) : Prop :=
  t.build.Gives names (TypeExpr.Spelled names)

structure FunctionParamTree.Spelled (names : CharacterNames) (p : FunctionParamTree) : Prop where
  name : ∀ t ∈ p.name, IsToken .name t.text
  optional : p.optional = true → p.name.isSome ∧ p.rest = false
  type : p.type.Spelled names

def MemberTree.Spelled (names : CharacterNames) : MemberTree → Prop
  | .property key _ value => key.IsKey ∧ value.Spelled names
  | .method key params result => key.IsKey ∧ (∀ p ∈ params, p.Spelled names) ∧ result.Spelled names
  | .spread argument => argument.Spelled names
  | .indexer name key value =>
    (∀ t ∈ name, IsToken .name t.text) ∧ key.Spelled names ∧ value.Spelled names
  | .call params result => (∀ p ∈ params, p.Spelled names) ∧ result.Spelled names

structure CallSignature.Spelled (names : CharacterNames) (k : CallSignature TypeExpr) : Prop where
  params : ∀ p ∈ k.params, p.Spelled ∧ p.type.Spelled names
  result : k.result.Spelled names

def ObjectTree.Part.Spelled (names : CharacterNames) : ObjectTree.Part → Prop
  | .member m => m.Spelled names ∧ m.type.Spelled names
  | .indexer i => (∀ n ∈ i.name, IsToken .name n) ∧ i.key.Spelled names ∧ i.value.Spelled names
  | .call k => k.Spelled names

theorem FunctionParamTree.Spelled.build {p : FunctionParamTree} (h : p.Spelled names) :
    p.build.Gives names fun q => q.Spelled ∧ q.type.Spelled names := by
  refine h.type.map fun t ht => ⟨⟨?_, ?_⟩, ht⟩
  · intro n hn
    obtain ⟨t, ht, rfl⟩ := Option.map_eq_some_iff.1 hn
    exact h.name t ht
  · intro ho
    exact ⟨by simpa using (h.optional ho).1, (h.optional ho).2⟩

namespace TypeTree

variable {t : TypeTree} {ts : List TypeTree} {start : Position}

theorem spelled_withLeading {x : TypeExpr} (h : x.Spelled names) (leading : List String) :
    (x.withLeading leading).Spelled names := by
  cases h with
  | object hms hmembers his hkeys hvalues hks hparams hresults =>
    exact .object hms hmembers his hkeys hvalues hks hparams hresults
  | primitive => exact .primitive
  | boolean => exact .boolean
  | number h hv => exact .number h hv
  | string h hv => exact .string h hv
  | nullable h => exact .nullable h
  | array h => exact .array h
  | tuple h => exact .tuple h
  | union hlen h => exact .union hlen h
  | intersection hlen h => exact .intersection hlen h
  | function hps h hr => exact .function hps h hr
  | reference hqs hname hbare h => exact .reference hqs hname hbare h

theorem Spelled.buildAnnotated (h : t.Spelled names) (lo : Position) :
    (t.buildAnnotated lo).Gives names (TypeExpr.Spelled names) :=
  h.bind fun _ hx => .step fun _ => .pure (spelled_withLeading hx _)

theorem Spelled.nullable (h : t.Spelled names) : (nullable start t).Spelled names :=
  h.map fun _ hx => .nullable hx

theorem Spelled.array (h : t.Spelled names) : t.array.Spelled names :=
  h.map fun _ hx => .array hx

theorem spelled_tuple (h : ∀ t ∈ ts, t.Spelled names) :
    Spelled names ⟨start, do return .tuple start (← ts.mapM TypeTree.build)⟩ :=
  (Build.Gives.all h).map fun _ hxs => .tuple hxs

theorem spelled_joined {build : Position → List TypeExpr → TypeExpr}
    (hb : ∀ xs, 2 ≤ xs.length → (∀ x ∈ xs, x.Spelled names) → (build start xs).Spelled names)
    (hne : ts ≠ []) (h : ∀ t ∈ ts, t.Spelled names) : (joined build start ts).Spelled names := by
  match ts with
  | [] => exact (hne rfl).elim
  | [t] => exact h t (List.mem_singleton_self t)
  | t :: u :: ts =>
    refine (Build.Gives.mapM h).map fun xs hxs => hb xs ?_ hxs.2
    rw [hxs.1]
    exact Nat.le_add_left 2 _

theorem spelled_string {t : Token} (h : IsToken .string t.text) :
    Spelled names ⟨t.start, Language.stringType t⟩ :=
  (Build.stringValue_gives t).map fun _ hv => .string h hv

theorem spelled_number {t : Token} (h : IsToken .number t.text) :
    Spelled names ⟨t.start, Language.numberType t⟩ :=
  (Build.numberValue_gives t).map fun _ hv => .number h hv

theorem spelled_builtin {name : String} {x : TypeExpr} (h : TypeExpr.builtin? start name = some x) :
    x.Spelled names := by
  unfold TypeExpr.builtin? at h
  split at h <;> cases h
  · exact .boolean
  · exact .boolean
  all_goals exact .primitive

theorem spelled_reference {name : Token} {path : List Token} {args : Option (List TypeTree)}
    (hname : IsToken .name name.text) (hpath : ∀ p ∈ path, IsToken .name p.text)
    (hargs : ∀ ts ∈ args, ∀ t ∈ ts, t.Spelled names) :
    (buildReference name path args).Gives names (TypeExpr.Spelled names) := by
  have hnames : ∀ n ∈ (name :: path).map (·.text), IsToken .name n := by
    intro n hn
    obtain ⟨t, ht, rfl⟩ := List.mem_map.1 hn
    rcases List.mem_cons.1 ht with rfl | ht
    · exact hname
    · exact hpath t ht
  have hts : ∀ t ∈ args.getD [], t.Spelled names := by
    cases args with
    | none => exact nofun
    | some ts => exact hargs ts rfl
  refine (Build.Gives.all hts).bind fun xs hxs => ?_
  split
  next hbare =>
    refine .pure ?_
    cases hbuiltin : TypeExpr.builtin? name.start name.text with
    | some x => exact spelled_builtin hbuiltin
    | none => exact .reference nofun hname (fun _ _ => hbuiltin) nofun
  next hbare =>
    refine .pure (.reference (fun q hq => hnames q (List.dropLast_subset _ hq)) ?_ ?_ hxs)
    · cases hlast : ((name :: path).map (·.text)).getLast? with
      | none => exact hname
      | some n => exact hnames n (List.mem_of_getLast? hlast)
    · rintro hqs rfl
      refine (hbare ⟨?_, rfl⟩).elim
      cases path with
      | nil => rfl
      | cons p path => cases hqs

section Functions

variable {params : List FunctionParamTree} {result : TypeTree} (hparams : ∀ p ∈ params, p.Spelled names)

include hparams in
theorem spelled_signature (hresult : result.Spelled names) :
    (buildSignature start params result).Gives names (CallSignature.Spelled names) :=
  (Build.Gives.all fun p hp => (hparams p hp).build).bind fun _ hps =>
    hresult.map fun _ hr => ⟨hps, hr⟩

include hparams in
theorem spelled_function (hresult : result.Spelled names) :
    (buildFunction start params result).Gives names (TypeExpr.Spelled names) :=
  (spelled_signature hparams hresult).map fun _ hk =>
    .function (fun p hp => (hk.params p hp).1) (fun p hp => (hk.params p hp).2) hk.result

include hparams in
theorem spelled_parenthesised {result : Option TypeTree} (hresult : ∀ r ∈ result, r.Spelled names) :
    (parenthesised start params result).Spelled names := by
  cases result with
  | some r => exact spelled_function hparams (hresult r rfl)
  | none =>
    refine (Build.Gives.all fun p hp => (hparams p hp).build).bind fun xs hxs => ?_
    split
    · exact .pure (hxs _ (List.mem_singleton_self _)).2
    · exact .throw

end Functions

end TypeTree

namespace ObjectTree

theorem spelled_property {key : Token} (hkey : key.IsKey) {text : Text} {loc : Position}
    {value : TypeExpr} {optional : Bool} {notes : Notes}
    (htext : if key.terminal = .string then Text.ofLiteral? names key.text = some text
      else text = Text.ofString key.text) :
    Property.Spelled names ⟨loc, text, key.text, value, optional, key.terminal = .string, notes⟩ := by
  constructor
  · intro hquoted
    have hstring : key.terminal = .string := of_decide_eq_true hquoted
    rw [if_pos hstring] at htext
    exact ⟨hkey.2.isToken hstring, htext⟩
  · intro hbare
    have hword : key.terminal ≠ .string := of_decide_eq_false hbare
    rw [if_neg hword] at htext
    exact ⟨Token.IsWord.isName ⟨hkey.1.resolve_left hword, hkey.2⟩, htext⟩

theorem spelled_part {loc : Position} {notes : Notes} {m : MemberTree} (h : m.Spelled names) :
    (buildPart loc notes m).Gives names (Part.Spelled names) := by
  cases m with
  | property key optional value =>
    exact (Build.keyText_gives key).bind fun _ htext =>
      (h.2.buildAnnotated loc).map fun _ hx => ⟨spelled_property h.1 htext, hx⟩
  | method key params result =>
    exact (Build.keyText_gives key).bind fun _ htext =>
      (TypeTree.spelled_function h.2.1 h.2.2).map fun _ hx => ⟨spelled_property h.1 htext, hx⟩
  | spread argument => exact Build.Gives.map h fun _ hx => ⟨trivial, hx⟩
  | indexer name key value =>
    refine h.2.1.bind fun _ hk => h.2.2.map fun _ hv => ⟨?_, hk, hv⟩
    intro n hn
    obtain ⟨t, ht, rfl⟩ := Option.map_eq_some_iff.1 hn
    exact h.1 t ht
  | call params result => exact (TypeTree.spelled_signature h.1 h.2).map fun _ hk => hk

theorem spelled_parts {parts : List Part} (h : ∀ x ∈ parts, x.Spelled names) (start : Position)
    (ex : Bool) (leading : List String) :
    TypeExpr.Spelled names (.object ⟨start, parts.filterMap Part.member?, parts.filterMap Part.indexer?,
      parts.filterMap Part.call?, ex, leading⟩) := by
  have member : ∀ m ∈ parts.filterMap Part.member?, m.Spelled names ∧ m.type.Spelled names := by
    intro m hm
    obtain ⟨x, hx, hxm⟩ := List.mem_filterMap.1 hm
    cases x with
    | member => cases hxm; exact h _ hx
    | _ => cases hxm
  have indexer : ∀ i ∈ parts.filterMap Part.indexer?,
      (∀ n ∈ i.name, IsToken .name n) ∧ i.key.Spelled names ∧ i.value.Spelled names := by
    intro i hi
    obtain ⟨x, hx, hxi⟩ := List.mem_filterMap.1 hi
    cases x with
    | indexer => cases hxi; exact h _ hx
    | _ => cases hxi
  have call : ∀ k ∈ parts.filterMap Part.call?, k.Spelled names := by
    intro k hk
    obtain ⟨x, hx, hxk⟩ := List.mem_filterMap.1 hk
    cases x with
    | call => cases hxk; exact h _ hx
    | _ => cases hxk
  exact .object (fun m hm => (member m hm).1) (fun m hm => (member m hm).2)
    (fun i hi => (indexer i hi).1) (fun i hi => (indexer i hi).2.1)
    (fun i hi => (indexer i hi).2.2) (fun k hk p hp => ((call k hk).params p hp).1)
    (fun k hk p hp => ((call k hk).params p hp).2) fun k hk => (call k hk).result

theorem spelled_build {o : ObjectTree} (h : ∀ m ∈ o.members, m.2.Spelled names) :
    o.build.Gives names fun x => TypeExpr.Spelled names (.object x) := by
  refine .step fun comments => (Build.Gives.all fun m hm => ?_).map fun _ hparts =>
    spelled_parts hparts _ _ _
  exact spelled_part (h _ (List.of_mem_zip hm).1)

theorem spelled_tree {o : ObjectTree} (h : ∀ m ∈ o.members, m.2.Spelled names) : o.tree.Spelled names :=
  (spelled_build h).map fun _ hx => hx

end ObjectTree

end Types

section Expressions

variable {names : CharacterNames}

def Expr.Spelled (names : CharacterNames) (e : Expr) : Prop :=
  ∀ t, e.Annotates t → t.Spelled names

def ObjectEntry.Spelled (names : CharacterNames) : ObjectEntry Expr → Prop
  | .keyed _ _ value | .spread _ value => value.Spelled names

def ParamTree.Spelled (names : CharacterNames) (p : ParamTree) : Prop :=
  ∀ t ∈ p.ascription, t.Spelled names

def Param.Spelled (names : CharacterNames) (p : Param) : Prop :=
  ∀ t ∈ p.ascription, t.Spelled names

theorem ParamTree.Spelled.build {p : ParamTree} (h : p.Spelled names) :
    p.build.Gives names (Param.Spelled names) :=
  (Build.Gives.mapOption h).map fun _ hx => hx

namespace PathTree

theorem spelled_dotted (head : Token) (attrs : List Token) : (dotted head attrs).Spelled names := by
  have members (e : Expr) (he : e.Spelled names) : (attrs.foldl member e).Spelled names := by
    induction attrs generalizing e with
    | nil => exact he
    | cons t attrs ih =>
      refine ih _ fun x hx => ?_
      cases hx with
      | member hx => exact he x hx
  exact members _ nofun

theorem spelled_build {head : Token} {p : PathTree}
    (h : ∀ c ∈ p.calls, ∀ e ∈ c.2, e.Gives names (Expr.Spelled names)) :
    (p.build head).Gives names (Expr.Spelled names) := by
  have calls (e : Expr) (he : e.Spelled names) : Build.Gives names (Expr.Spelled names)
      (p.calls.foldlM (fun func c => return .call c.1 func (← c.2.mapM id)) e) := by
    revert h
    generalize p.calls = calls
    intro h
    induction calls generalizing e with
    | nil => exact .pure he
    | cons c calls ih =>
      rw [List.foldlM_cons]
      refine Build.Gives.bind (Q := Expr.Spelled names) ?_ fun e he =>
        ih e he fun c hc => h c (List.mem_cons_of_mem _ hc)
      refine (Build.Gives.all (h c List.mem_cons_self)).map fun args hargs t ht => ?_
      cases ht with
      | callee ht => exact he t ht
      | argument ha ht => exact hargs _ ha t ht
  exact calls _ (spelled_dotted head p.attrs)

end PathTree

namespace ExprTree

theorem spelled_string (t : Token) : (string t).Gives names (Expr.Spelled names) :=
  .step fun _ => .pure nofun

theorem spelled_number (t : Token) : (number t).Gives names (Expr.Spelled names) :=
  .step fun _ => .pure nofun

theorem spelled_template (t : Token) : (template t).Gives names (Expr.Spelled names) :=
  .pure nofun

theorem spelled_array {loc : Position} {items : List ExprTree}
    (h : ∀ e ∈ items, e.Gives names (Expr.Spelled names)) :
    (array loc items).Gives names (Expr.Spelled names) := by
  refine (Build.Gives.all h).map fun xs hxs t ht => ?_
  cases ht with
  | item he ht => exact hxs _ he t ht

theorem spelled_object {loc : Position} {entries : List (Build (ObjectEntry Expr))}
    (h : ∀ e ∈ entries, e.Gives names (ObjectEntry.Spelled names)) :
    (object loc entries).Gives names (Expr.Spelled names) := by
  refine (Build.Gives.all h).map fun xs hxs t ht => ?_
  cases ht with
  | keyed he ht => exact hxs _ he t ht
  | spread he ht => exact hxs _ he t ht

theorem spelled_arrow {loc : Position} {params : List ParamTree} (h : ∀ p ∈ params, p.Spelled names) :
    (arrow loc params).Gives names (Expr.Spelled names) := by
  refine (Build.Gives.all fun p hp => (h p hp).build).map fun ps hps t ht => ?_
  cases ht with
  | param hp ht => exact hps _ hp t ht

theorem spelled_entry {key : Token} {value : ExprTree} (h : value.Gives names (Expr.Spelled names)) :
    (entry key value).Gives names (ObjectEntry.Spelled names) :=
  .step fun _ => h.map fun _ hx => hx

theorem spelled_shorthand (name : Token) : (shorthand name).Gives names (ObjectEntry.Spelled names) :=
  .pure nofun

theorem spelled_spread {ellipsis : Token} {value : ExprTree}
    (h : value.Gives names (Expr.Spelled names)) :
    (spread ellipsis value).Gives names (ObjectEntry.Spelled names) :=
  h.map fun _ hx => hx

end ExprTree

end Expressions

section Declarations

variable {names : CharacterNames}

structure Declaration.Spelled (names : CharacterNames) (d : Declaration) : Prop where
  types : ∀ t, d.Annotates t → t.Spelled names
  binds : ∀ b ∈ d.binds, IsName b.1

def ClassMember.Spelled (names : CharacterNames) : ClassMember → Prop
  | .property p => (∀ t ∈ p.ascription, t.Spelled names) ∧
    ∀ e, p.value = some (.source e) → e.Spelled names
  | .method m => (∀ p ∈ m.params, p.Spelled names) ∧ ∀ t ∈ m.result, t.Spelled names

structure ClassDeclaration.Spelled (names : CharacterNames) (k : ClassDeclaration) : Prop where
  name : ∀ n ∈ k.name, IsName n
  superclass : ∀ e ∈ k.superclass, e.Spelled names
  superArgs : ∀ ts ∈ k.superArgs, ∀ t ∈ ts, t.Spelled names
  body : ∀ m ∈ k.body, m.Spelled names

structure FunctionDeclaration.Spelled (names : CharacterNames) (f : FunctionDeclaration) : Prop where
  name : IsName f.name
  params : ∀ p ∈ f.params, p.Spelled names
  result : ∀ t ∈ f.result, t.Spelled names

structure VariableDeclarator.Spelled (names : CharacterNames) (d : VariableDeclarator) : Prop where
  name : IsName d.name
  ascription : ∀ t ∈ d.ascription, t.Spelled names
  init : ∀ e ∈ d.init, e.Spelled names

structure TypeAlias.Spelled (names : CharacterNames) (a : TypeAlias) : Prop where
  name : IsName a.name
  right : a.right.Spelled names

structure InterfaceDeclaration.Spelled (names : CharacterNames) (i : InterfaceDeclaration) : Prop where
  name : IsName i.name
  body : TypeExpr.Spelled names (.object i.body)

structure ClassTree.Spelled (names : CharacterNames) (c : ClassTree) : Prop where
  name : ∀ t ∈ c.name, IsName t.text
  superclass : ∀ s ∈ c.superclass, s.1.Spelled names ∧ ∀ ts ∈ s.2, ∀ t ∈ ts, t.Spelled names
  body : ∀ b ∈ c.body, b.Gives names (ClassMember.Spelled names)

def AscriptionTree.Spelled (names : CharacterNames) (a : AscriptionTree) : Prop :=
  a.type.Spelled names

def ImportTree.Spelled : ImportTree → Prop
  | .default_ n | .namespace_ n => IsName n.text
  | .named _ _ imported renamed => IsName imported.text ∧ ∀ t ∈ renamed, IsName t.text

theorem TypeAlias.Spelled.declaration {a : TypeAlias} (h : a.Spelled names) :
    Declaration.Spelled names (.typeAlias a) where
  types t ht := by
    cases ht with
    | typeAlias => exact h.right
  binds b hb := List.mem_singleton.1 hb ▸ h.name

theorem InterfaceDeclaration.Spelled.declaration {i : InterfaceDeclaration} (h : i.Spelled names) :
    Declaration.Spelled names (.interface i) where
  types t ht := by
    cases ht with
    | interface => exact h.body
  binds b hb := List.mem_singleton.1 hb ▸ h.name

theorem ClassDeclaration.Spelled.declaration {k : ClassDeclaration} (h : k.Spelled names) :
    Declaration.Spelled names (.class_ k) where
  types t ht := by
    cases ht with
    | superclass hs ht => exact h.superclass _ hs t ht
    | superArgument hs ht => exact h.superArgs _ hs t ht
    | field hp ht => exact (h.body _ hp).1 t ht
    | fieldValue hp hv ht => exact (h.body _ hp).2 _ hv t ht
    | methodParam hm hp ht => exact (h.body _ hm).1 _ hp t ht
    | methodResult hm ht => exact (h.body _ hm).2 t ht
  binds b hb := by
    obtain ⟨n, hn, rfl⟩ := List.mem_map.1 hb
    exact h.name n (Option.mem_toList.1 hn)

theorem FunctionDeclaration.Spelled.declaration {f : FunctionDeclaration} (h : f.Spelled names) :
    Declaration.Spelled names (.function f) where
  types t ht := by
    cases ht with
    | param hp ht => exact h.params _ hp t ht
    | result ht => exact h.result t ht
  binds b hb := List.mem_singleton.1 hb ▸ h.name

theorem VariableDeclaration.spelled_declaration {v : VariableDeclaration}
    (h : ∀ d ∈ v.declarators, d.Spelled names) : Declaration.Spelled names (.binding v) where
  types t ht := by
    cases ht with
    | variable_ hd ht => exact (h _ hd).ascription t ht
    | initial hd he ht => exact (h _ hd).init _ he t ht
  binds b hb := by
    obtain ⟨d, hd, rfl⟩ := List.mem_map.1 hb
    exact (h d hd).name

section Ascriptions

variable {a : Option AscriptionTree} (h : ∀ x ∈ a, x.Spelled names)

include h in
theorem AscriptionTree.spelled_annotated :
    (a.mapM fun x : AscriptionTree => x.type.buildAnnotated x.start).Gives names
      fun y => ∀ t ∈ y, t.Spelled names :=
  .mapOption fun x hx => TypeTree.Spelled.buildAnnotated (h x hx) x.start

include h in
theorem AscriptionTree.spelled_type :
    (a.mapM fun x : AscriptionTree => x.type.build).Gives names fun y => ∀ t ∈ y, t.Spelled names :=
  .mapOption h

end Ascriptions

section Parts

variable {loc : Position} {isStatic optional : Bool} {key name word : Token}
  {params : List ParamTree} {result ascription : Option AscriptionTree} {init : Option ExprTree}

theorem ClassTree.spelled_property (ha : ∀ a ∈ ascription, a.Spelled names)
    (hi : ∀ e ∈ init, e.Gives names (Expr.Spelled names)) :
    (property loc isStatic key optional ascription init).Gives names (ClassMember.Spelled names) := by
  refine .step fun _ => (AscriptionTree.spelled_annotated ha).bind fun _ hx =>
    (Build.Gives.mapOption hi).map fun _ hv => ⟨hx, fun e he => ?_⟩
  obtain ⟨e, he, ⟨⟩⟩ := Option.map_eq_some_iff.1 he
  exact hv e he

theorem ClassTree.spelled_method (hp : ∀ p ∈ params, p.Spelled names)
    (hr : ∀ a ∈ result, a.Spelled names) :
    (method loc isStatic key params result).Gives names (ClassMember.Spelled names) :=
  .step fun _ => (Build.Gives.all fun p h => (hp p h).build).bind fun _ hps =>
    (AscriptionTree.spelled_type hr).map fun _ hx => ⟨hps, hx⟩

theorem ClassTree.Spelled.build {c : ClassTree} (h : c.Spelled names) :
    c.build.Gives names (ClassDeclaration.Spelled names) := by
  have hargs : ((c.superclass.bind (·.2)).mapM (List.mapM TypeTree.build)).Gives names
      fun y => ∀ ts ∈ y, ∀ t ∈ ts, t.Spelled names := by
    refine .mapOption fun ts hts => .all ?_
    obtain ⟨s, hs, hts⟩ := Option.bind_eq_some_iff.1 hts
    exact (h.superclass s hs).2 ts hts
  refine hargs.bind fun _ hx => (Build.Gives.all h.body).map fun _ hb => ⟨?_, ?_, hx, hb⟩
  · intro n hn
    obtain ⟨t, ht, rfl⟩ := Option.map_eq_some_iff.1 hn
    exact h.name t ht
  · intro e he
    obtain ⟨s, hs, rfl⟩ := Option.map_eq_some_iff.1 he
    exact (h.superclass s hs).1

theorem ClassTree.Spelled.buildNamed {c : ClassTree} (h : c.Spelled names) :
    c.buildNamed.Gives names (ClassDeclaration.Spelled names) := by
  unfold ClassTree.buildNamed
  split
  · exact .throw
  · exact h.build

theorem AliasTree.spelled_build {a : AliasTree} (hn : IsName a.name.text) (h : a.right.Spelled names) :
    (a.build loc).Gives names (TypeAlias.Spelled names) :=
  (h.buildAnnotated loc).map fun _ hx => ⟨hn, hx⟩

theorem spelled_interface {typeParams : List TypeParameter} {body : ObjectTree}
    (hn : IsName name.text) (h : ∀ m ∈ body.members, m.2.Spelled names) :
    (buildInterface loc name typeParams body).Gives names (InterfaceDeclaration.Spelled names) :=
  (ObjectTree.spelled_build h).map fun _ hx => ⟨hn, hx⟩

theorem spelled_functionDeclaration (hn : IsName name.text) (hp : ∀ p ∈ params, p.Spelled names)
    (hr : ∀ a ∈ result, a.Spelled names) :
    (buildFunction loc name params result).Gives names (FunctionDeclaration.Spelled names) :=
  (Build.Gives.all fun p h => (hp p h).build).bind fun _ hps =>
    (AscriptionTree.spelled_type hr).map fun _ hx => ⟨hn, hps, hx⟩

theorem spelled_declarator (hn : IsName name.text) (ha : ∀ a ∈ ascription, a.Spelled names)
    (hi : ∀ e ∈ init, e.Gives names (Expr.Spelled names)) :
    (buildDeclarator name ascription init).Gives names (VariableDeclarator.Spelled names) :=
  (AscriptionTree.spelled_type ha).bind fun _ hx =>
    (Build.Gives.mapOption hi).map fun _ hv => ⟨hn, hx, hv⟩

theorem spelled_variables {ds : List (Build VariableDeclarator)}
    (h : ∀ d ∈ ds, d.Gives names (VariableDeclarator.Spelled names)) :
    (buildVariables word ds).Gives names fun v => Declaration.Spelled names (.binding v) :=
  (Build.Gives.all h).map fun _ hds => VariableDeclaration.spelled_declaration hds

end Parts

end Declarations

section Items

structure Item.Spelled (names : CharacterNames) (i : Item) : Prop where
  declared : ∀ d, i.Declares d → ∀ t, d.Annotates t → t.Spelled names
  evaluated : ∀ e, i.Evaluates e → e.Spelled names
  binds : ∀ s ∈ i.statements, ∀ b ∈ s.binds, IsName b.1

def DefaultExport.Spelled (names : CharacterNames) : DefaultExport → Prop
  | .class_ k => k.Spelled names
  | .function f => f.Spelled names
  | .expression e => e.Spelled names

namespace ItemTree

theorem spelled_declaration {d : Build Declaration} (h : d.Gives names (Declaration.Spelled names)) :
    (declaration d).Gives names (Item.Spelled names) := by
  refine h.map fun x hx => ⟨fun _ hd => ?_, nofun, fun s hs => ?_⟩
  · cases hd with
    | statement => exact hx.types
  · cases List.mem_singleton.1 hs
    exact hx.binds

theorem spelled_exported {loc : Position} {d : Build Declaration}
    (h : d.Gives names (Declaration.Spelled names)) :
    (exported loc d).Gives names (Item.Spelled names) := by
  refine h.map fun x hx => ⟨fun _ hd => ?_, nofun, fun s hs => ?_⟩
  · cases hd with
    | exported => exact hx.types
  · cases List.mem_singleton.1 hs
    exact hx.binds

theorem spelled_exportedAll (loc : Position) (source : Token) :
    (exportedAll loc source).Gives names (Item.Spelled names) :=
  .step fun _ => .pure ⟨nofun, nofun, nofun⟩

theorem spelled_exportedDefault {loc : Position} {d : Build DefaultExport}
    (h : d.Gives names (DefaultExport.Spelled names)) :
    (exportedDefault loc d).Gives names (Item.Spelled names) := by
  have made_up : IsName defaultName := isName_of_isToken (by decide)
  refine h.map fun x hx => ?_
  cases x with
  | class_ k =>
    refine ⟨fun _ hd => ?_, nofun, fun s hs b hb => ?_⟩
    · cases hd with
      | defaultClass => exact (ClassDeclaration.Spelled.declaration hx).types
    · cases List.mem_singleton.1 hs
      obtain rfl := List.mem_singleton.1 hb
      cases hk : k.name with
      | none => exact made_up
      | some n => exact ClassDeclaration.Spelled.name hx n hk
  | function f =>
    refine ⟨fun _ hd => ?_, nofun, fun s hs => ?_⟩
    · cases hd with
      | defaultFunction => exact (FunctionDeclaration.Spelled.declaration hx).types
    · cases List.mem_singleton.1 hs
      exact (FunctionDeclaration.Spelled.declaration hx).binds
  | expression e =>
    refine ⟨nofun, fun _ he => ?_, fun s hs b hb => ?_⟩
    · cases he with
      | default => exact hx
    · change s ∈ (DefaultExport.expression e).statements loc at hs
      unfold DefaultExport.statements at hs
      split at hs
      next h => cases h
      next h => cases h
      next => cases hs
      next =>
        cases List.mem_singleton.1 hs
        cases List.mem_singleton.1 hb
        exact made_up

theorem spelled_assignment {head : Token} {attrs : List Token} {value : ExprTree}
    (h : value.Gives names (Expr.Spelled names)) :
    (assignment head attrs value).Gives names (Item.Spelled names) := by
  refine h.map fun x hx => ⟨nofun, fun e he => ?_, fun s hs => ?_⟩
  · cases he with
    | target => exact PathTree.spelled_dotted head attrs
    | value => exact hx
  · cases List.mem_singleton.1 hs
    exact nofun

theorem spelled_call {head : Token} {path : PathTree}
    (h : ∀ c ∈ path.calls, ∀ e ∈ c.2, e.Gives names (Expr.Spelled names)) :
    (call head path).Gives names (Item.Spelled names) := by
  refine (PathTree.spelled_build h).map fun x hx => ⟨nofun, fun e he => ?_, fun s hs => ?_⟩
  · cases he with
    | statement => exact hx
  · cases List.mem_singleton.1 hs
    exact nofun

end ItemTree

theorem ImportTree.Spelled.build {i : ImportTree} (h : i.Spelled) (source : Text)
    (kind : ImportKind) : (i.build source kind).Gives names fun s => IsName s.binds := by
  cases i with
  | default_ n => exact .pure h
  | namespace_ n => exact .pure h
  | named loc own imported renamed =>
    cases renamed with
    | some t => exact .pure (h.2 t rfl)
    | none =>
      dsimp only [ImportTree.build]
      split
      · exact .throw
      · exact .pure h.1

theorem ImportTree.spelled_all {loc : Position} {kind : Option Token} {is : List ImportTree}
    {source : Token} (h : ∀ i ∈ is, i.Spelled) :
    (buildAll loc kind is source).Gives names (Item.Spelled names) := by
  refine .step fun _ => (Build.Gives.all fun i hi => (h i hi).build _ _).map fun ss hss =>
    ⟨nofun, nofun, fun s hs b hb => ?_⟩
  cases List.mem_singleton.1 hs
  obtain ⟨i, hi, rfl⟩ := List.mem_map.1 hb
  exact hss i hi

theorem ExportClauseTree.spelled_build {loc : Position} {kind : ImportKind} {c : ExportClauseTree}
    (h : ∀ s ∈ c.specifiers, IsName s.exported) :
    (c.build loc kind).Gives names (Item.Spelled names) := by
  refine .step fun source => .pure ⟨nofun, nofun, fun s hs b hb => ?_⟩
  cases source with
  | none => cases hs
  | some source =>
    cases List.mem_singleton.1 hs
    obtain ⟨i, hi, rfl⟩ := List.mem_map.1 hb
    obtain ⟨e, he, rfl⟩ := List.mem_map.1 hi
    exact h e he

end Items

end PropTables
