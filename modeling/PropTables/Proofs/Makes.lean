import Mathlib.Data.List.Forall2
import PropTables.Proofs.Attachment
import PropTables.Proofs.Constructs
import PropTables.Proofs.Echoes
import PropTables.Proofs.Printing

/-! What is built from a tree, whatever the comments are. -/

namespace PropTables

open List (Forall₂)

namespace Build

variable {α β : Type} [Plain α] [Plain β] {names : CharacterNames}

/-- Whatever the comments, the result is the given one up to places and comments. -/
def Makes (names : CharacterNames) (b : Build α) (x : α) : Prop :=
  ∀ comments, ∃ y, b.run ⟨comments, names⟩ = .ok y ∧ plain y = plain x

namespace Makes

variable {b : Build α} {f : α → Build β} {x y : α} {z : β}

theorem pure (h : plain y = plain x) : Makes names (Pure.pure y) x :=
  fun _ => ⟨y, rfl, h⟩

theorem bind (h : b.Makes names x) (hf : ∀ y, plain y = plain x → (f y).Makes names z) :
    (b >>= f).Makes names z := by
  intro comments
  obtain ⟨y, hy, hxy⟩ := h comments
  obtain ⟨w, hw, hzw⟩ := hf y hxy comments
  exact ⟨w, run_bind_eq_ok.2 ⟨y, hy, hw⟩, hzw⟩

theorem map {f : α → β} (h : b.Makes names x) (hf : ∀ y, plain y = plain x → plain (f y) = plain z) :
    (b >>= fun y => Pure.pure (f y)).Makes names z :=
  h.bind fun y hxy => pure (hf y hxy)

theorem read {f : Surroundings → Build β} (h : ∀ comments, (f ⟨comments, names⟩).Makes names z) :
    (MonadReader.read >>= f).Makes names z :=
  fun comments => h comments comments

theorem mapM {γ : Type} {f : γ → Build α} {xs : List α} {vs : List γ}
    (h : Forall₂ (fun x v => (f v).Makes names x) xs vs) : (vs.mapM f).Makes names xs := by
  induction h with
  | nil => exact pure rfl
  | cons hxv _ ih =>
    rw [List.mapM_cons]
    refine hxv.bind fun y hy => ih.map fun ys hys => ?_
    rw [plain_cons, plain_cons, hy, hys]

end Makes

variable {t : Token}

theorem stringValue_makes {value : Text} (h : Text.ofLiteral? names t.text = some value) :
    (stringValue t).Makes names value := by
  refine .read fun comments => ?_
  rw [h]
  exact .pure rfl

theorem numberValue_makes {value : Number} (h : Number.ofLiteral? t.text = some value) :
    (numberValue t).Makes names value := by
  rw [numberValue, h]
  exact .pure rfl

end Build

section Types

variable {names : CharacterNames} {start p : Position} {t r : TypeExpr} {v w : TypeTree}
  {ts : List TypeExpr} {vs : List TypeTree} {ps : List (FunctionParam TypeExpr)} {params : List FunctionParamTree}

def TypeTree.Of (names : CharacterNames) (t : TypeExpr) (v : TypeTree) : Prop :=
  v.build.Makes names t

def FunctionParamTree.Of (names : CharacterNames) (q : FunctionParam TypeExpr)
    (v : FunctionParamTree) : Prop :=
  v.build.Makes names q

theorem FunctionParamTree.of_type {q : FunctionParam TypeExpr} {f : FunctionParamTree}
    (hname : f.name.map (·.text) = q.name) (htype : f.type.Of names q.type)
    (hoptional : f.optional = q.optional) (hrest : f.rest = q.rest) : f.Of names q := by
  refine Build.Makes.map htype fun y hy => ?_
  simp only [plain, hname, hoptional, hrest, FunctionParam.mk.injEq, true_and, and_true]
  exact hy

namespace TypeTree

theorem Of.annotated {lo : Position} (h : Of names t v) : (v.buildAnnotated lo).Makes names t := by
  refine Build.Makes.bind h fun y hy => Build.Makes.read fun comments => .pure ?_
  rw [TypeExpr.plain_withLeading, hy]

theorem of_nullable (h : Of names t v) : Of names (.nullable start t) (nullable p v) :=
  Build.Makes.map h fun y hy => by rw [TypeExpr.plain_nullable, TypeExpr.plain_nullable, hy]

theorem of_array (h : Of names t v) : Of names (.array start t) v.array :=
  Build.Makes.map h fun y hy => by rw [TypeExpr.plain_array, TypeExpr.plain_array, hy]

theorem makes_all (h : Forall₂ (Of names) ts vs) : (vs.mapM TypeTree.build).Makes names ts :=
  .mapM h

theorem of_joined {build : Position → List TypeExpr → TypeExpr}
    (hbuild : ∀ p q xs ys, plain xs = plain ys → plain (build p xs) = plain (build q ys))
    (hlen : 2 ≤ ts.length) (h : Forall₂ (Of names) ts vs) :
    Of names (build start ts) (joined build p vs) := by
  have hall := makes_all h
  match vs, h.length_eq with
  | [], hvs | [_], hvs =>
    simp only [List.length_nil, List.length_singleton] at hvs
    omega
  | v :: w :: vs, _ => exact hall.map fun ys hys => hbuild p start ys ts hys

theorem of_tuple (h : Forall₂ (Of names) ts vs) :
    Of names (.tuple start ts) ⟨p, return .tuple p (← vs.mapM TypeTree.build)⟩ :=
  (makes_all h).map fun y hy => by rw [TypeExpr.plain_tuple, TypeExpr.plain_tuple, hy]

theorem of_string {token : Token} {value : Text} (h : Text.ofLiteral? names token.text = some value) :
    Of names (.string start value token.text) ⟨p, Language.stringType token⟩ :=
  (Build.stringValue_makes h).map fun y hy => by
    obtain rfl : y = value := hy
    rfl

theorem of_number {token : Token} {value : Number} (h : Number.ofLiteral? token.text = some value) :
    Of names (.number start value token.text) ⟨p, Language.numberType token⟩ :=
  (Build.numberValue_makes h).map fun y hy => by
    obtain rfl : y = value := hy
    rfl

theorem makes_signature (start : Position) (hps : Forall₂ (FunctionParamTree.Of names) ps params)
    (hr : Of names r w) :
    (buildSignature p params w).Makes names ⟨start, ps, r⟩ := by
  refine (Build.Makes.mapM hps).bind fun qs hqs => Build.Makes.map hr fun y hy => ?_
  simp only [plain, CallSignature.mk.injEq, true_and]
  exact ⟨hqs, hy⟩

theorem of_function (hps : Forall₂ (FunctionParamTree.Of names) ps params)
    (hr : Of names r w) :
    Of names (.function start ps r) (parenthesised p params (some w)) := by
  refine (makes_signature start hps hr).map fun s hs => ?_
  obtain ⟨-, hqs, hy⟩ := CallSignature.mk.inj hs
  rw [TypeExpr.plain_function, TypeExpr.plain_function, hqs, hy]

theorem Of.inParens (h : Of names t v) : Of names t (parenthesised p [.bare v] none) := by
  intro comments
  obtain ⟨y, hy, hplain⟩ := h comments
  have hparam : (FunctionParamTree.bare v).build.run ⟨comments, names⟩ =
      .ok ⟨v.start, none, y, false, false⟩ :=
    Build.run_bind_eq_ok.2 ⟨y, hy, rfl⟩
  refine ⟨y, Build.run_bind_eq_ok.2 ⟨[⟨v.start, none, y, false, false⟩], ?_, rfl⟩, hplain⟩
  rw [List.mapM_cons]
  exact Build.run_bind_eq_ok.2 ⟨_, hparam, rfl⟩

theorem of_builtin {token : Token} (h : TypeExpr.builtin? start token.text = some t) :
    Of names t ⟨p, buildReference token [] none⟩ := by
  refine .pure ((plain_builtin (q := start) token.text).trans ?_)
  rw [h, Option.getD_some]

theorem of_reference {token : Token} {path : List Token} {args : Option (List TypeTree)}
    {qs : List String} {name : String} (hnames : (token :: path).map (·.text) = qs ++ [name])
    (hargs : Forall₂ (Of names) ts (args.getD []))
    (hbare : qs = [] → ts = [] → TypeExpr.builtin? start name = none) :
    Of names (.reference start qs name ts) ⟨p, buildReference token path args⟩ := by
  refine (makes_all hargs).bind fun ys hys => ?_
  have hempty : ys.isEmpty = ts.isEmpty := by
    cases ys <;> cases ts <;> simp at hys ⊢
  split
  case isTrue h =>
    -- a name alone means itself, since it has no other meaning
    obtain ⟨hpath, hargs⟩ := h
    rw [hempty, List.isEmpty_iff] at hargs
    rw [List.isEmpty_iff] at hpath
    subst hpath hargs
    obtain ⟨rfl, rfl⟩ : qs = [] ∧ name = token.text := by
      cases qs with
      | nil => simpa [eq_comm] using hnames
      | cons q qs => simp at hnames
    refine .pure ((plain_builtin (q := start) token.text).trans ?_)
    rw [hbare rfl rfl, Option.getD_none]
  case isFalse =>
    refine .pure ?_
    rw [hnames, List.dropLast_concat, List.getLast?_concat, Option.getD_some,
      TypeExpr.plain_reference, TypeExpr.plain_reference, hys]

end TypeTree

section Objects

def MemberTree.Of (names : CharacterNames) (part : ObjectTree.Part) (m : MemberTree) : Prop :=
  ∀ loc notes, (ObjectTree.buildPart loc notes m).Makes names part

theorem MemberTree.of_property {q : Property TypeExpr} {key : Token} {v : TypeTree}
    (hkey : (Build.keyText key).Makes names q.key) (htext : key.text = q.written)
    (hquoted : (key.terminal = .string) = (q.quoted = true)) (hv : v.Of names q.value) :
    MemberTree.Of names (.member (.property q)) (.property key q.optional v) := by
  intro loc notes
  refine hkey.bind fun text htext' => (TypeTree.Of.annotated hv).map fun y hy => ?_
  obtain rfl : text = q.key := htext'
  simp only [plain, htext, hquoted]
  simpa [plain] using hy

theorem MemberTree.of_spread {s : Spread TypeExpr} {v : TypeTree} (hv : v.Of names s.argument) :
    MemberTree.Of names (.member (.spread s)) (.spread v) :=
  fun _ _ => Build.Makes.map hv fun y hy => by simpa [plain] using hy

theorem MemberTree.of_indexer {i : Indexer TypeExpr} {name : Option Token} {k v : TypeTree}
    (hname : name.map (·.text) = i.name) (hk : k.Of names i.key) (hv : v.Of names i.value) :
    MemberTree.Of names (.indexer i) (.indexer name k v) := by
  intro _ _
  refine Build.Makes.bind hk fun y hy => Build.Makes.map hv fun z hz => ?_
  simp only [plain, hname]
  simpa [plain] using ⟨hy, hz⟩

theorem MemberTree.of_call {k : CallSignature TypeExpr} {w : TypeTree}
    (hps : Forall₂ (FunctionParamTree.Of names) k.params params) (hr : w.Of names k.result) :
    MemberTree.Of names (.call k) (.call params w) :=
  fun _ _ => (TypeTree.makes_signature k.loc hps hr).map fun y hy => by
    simpa [plain] using hy

def ObjectType.parts (o : ObjectType TypeExpr) : List ObjectTree.Part :=
  o.members.map .member ++ o.indexers.map .indexer ++ o.calls.map .call

theorem ObjectType.filterMap_parts (o : ObjectType TypeExpr) :
    o.parts.filterMap ObjectTree.Part.member? = o.members ∧
      o.parts.filterMap ObjectTree.Part.indexer? = o.indexers ∧
      o.parts.filterMap ObjectTree.Part.call? = o.calls := by
  simp [parts, Function.comp_def, ObjectTree.Part.member?,
    ObjectTree.Part.indexer?, ObjectTree.Part.call?]

theorem TypeTree.of_object {o : ObjectType TypeExpr} {tree : ObjectTree} (hexact : tree.exact = o.exact)
    (h : Forall₂ (fun part m => MemberTree.Of names part m.2) o.parts tree.members) :
    tree.tree.Of names (.object o) := by
  have hbuild : tree.build.Makes names o := by
    refine Build.Makes.read fun comments => ?_
    have hzip : (tree.members.zip (Notes.ofObject comments tree.extent (tree.members.map (·.1)))).map
        Prod.fst = tree.members :=
      List.map_fst_zip (by simp [Notes.ofObject])
    rw [← hzip, List.forall₂_map_right_iff] at h
    refine (Build.Makes.mapM (h.imp fun _ m h => h m.1.1.start m.2)).map fun parts hparts => ?_
    have hlist {β : Type} [Plain β] {f : ObjectTree.Part → Option β}
        (hf : ∀ part, f (plain part) = plain (f part)) :
        plain (parts.filterMap f) = plain (o.parts.filterMap f) := by
      rw [plain_filterMap hf, plain_filterMap hf, hparts]
    have hmembers := hlist (f := ObjectTree.Part.member?) fun part => by cases part <;> rfl
    have hindexers := hlist (f := ObjectTree.Part.indexer?) fun part => by cases part <;> rfl
    have hcalls := hlist (f := ObjectTree.Part.call?) fun part => by cases part <;> rfl
    obtain ⟨hm, hi, hk⟩ := o.filterMap_parts
    rw [hm] at hmembers
    rw [hi] at hindexers
    rw [hk] at hcalls
    simp only [plain, ObjectType.mk.injEq, hexact, true_and, and_true]
    exact ⟨hmembers, hindexers, hcalls⟩
  exact hbuild.map fun y hy => by rw [TypeExpr.plain_object, TypeExpr.plain_object, hy]

end Objects

end Types

end PropTables
