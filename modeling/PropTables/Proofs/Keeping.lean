import Mathlib.Algebra.Order.BigOperators.Group.List
import PropTables.Grammar.ModuleTree
import PropTables.Proofs.Intervals
import PropTables.Proofs.ObjectTypes

/-! Building keeps the comments of its own piece of the text, each at most once. -/

namespace PropTables

def MemberTree.isField : MemberTree → Bool
  | .property .. | .method .. | .spread .. => true
  | .indexer .. | .call .. => false

structure ObjectTree.Gives (cs : List Comment) (tree : ObjectTree) (o : ObjectType TypeExpr) : Prop where
  loc : o.loc = tree.extent.start
  notes : o.members.map Member.notes =
    ((tree.members.zip (Notes.ofObject cs tree.extent (tree.members.map (·.1)))).filter
      fun m => m.1.2.isField).map (·.2)
  leading : ∃ own : List Comment, own.Sublist cs ∧ o.leading = own.map (·.text)

def Made (Occurs : ObjectTree → Prop) (cs : List Comment) (o : ObjectType TypeExpr) : Prop :=
  ∃ tree, Occurs tree ∧ tree.Gives cs o

namespace Build

variable {Occurs : ObjectTree → Prop} {α β : Type} [Annotated α] {a : Build β} {f : β → Build α}
  {before : Multiset (ObjectType TypeExpr)} {p p' m q q' : Position}

/-- Besides the comments of what has been built before, no others are kept than those that start
between the positions, each once. -/
structure Keeps (Occurs : ObjectTree → Prop) (before : Multiset (ObjectType TypeExpr))
    (p q : Position) (b : Build α) : Prop where
  le : p ≤ q
  texts : ∀ around x, b.run around = .ok x →
    commentsIn x ≤ before.bind ObjectType.texts +
      Notes.textsAt around.comments fun r => p ≤ r ∧ r < q
  made : ∀ around x, b.run around = .ok x → (∀ o ∈ before, Made Occurs around.comments o) →
    ∀ o ∈ objectsIn x, Made Occurs around.comments o

namespace Keeps

theorem mono {b : Build α} (h : b.Keeps Occurs before p q) (hp : p' ≤ p) (hq : q ≤ q') :
    b.Keeps Occurs before p' q' := by
  refine ⟨hp.trans (h.le.trans hq), fun around x hx => (h.texts around x hx).trans ?_, h.made⟩
  exact add_le_add le_rfl (Notes.textsAt_mono fun r hr => ⟨hp.trans hr.1, hr.2.trans_le hq⟩)

theorem pure {x : α} (h : p ≤ q) (hx : objectsIn x ≤ before) :
    (pure x : Build α).Keeps Occurs before p q := by
  refine ⟨h, ?_, ?_⟩
  · rintro around _ ⟨⟩
    obtain ⟨rest, rfl⟩ := Multiset.le_iff_exists_add.1 hx
    rw [Multiset.add_bind, commentsIn, add_assoc]
    exact Multiset.le_add_right _ _
  · rintro around _ ⟨⟩ hbefore o ho
    exact hbefore o (Multiset.mem_of_le hx ho)

theorem throw {fault : SourceFault} (h : p ≤ q) :
    (throw fault : Build α).Keeps Occurs before p q := by
  refine ⟨h, ?_, ?_⟩
  · rintro around x ⟨⟩
  · rintro around x ⟨⟩

theorem bind_add [Annotated β] {besides : Multiset (ObjectType TypeExpr)}
    (ha : a.Keeps Occurs before p m) (hf : ∀ x, (f x).Keeps Occurs (besides + objectsIn x) m q)
    (hmq : m ≤ q) : (a >>= f).Keeps Occurs (besides + before) p q := by
  refine ⟨ha.le.trans hmq, fun around y h => ?_, fun around y h hbefore => ?_⟩
  · obtain ⟨x, hx, hy⟩ := run_bind_eq_ok.1 h
    have hfirst := ha.texts around x hx
    have hrest := (hf x).texts around y hy
    rw [Multiset.add_bind, add_assoc] at hrest ⊢
    refine hrest.trans (add_le_add le_rfl ((add_le_add hfirst le_rfl).trans ?_))
    rw [add_assoc]
    exact add_le_add le_rfl <|
      Notes.textsAt_add_le (fun r hr => ⟨hr.1, hr.2.trans_le hmq⟩)
        fun r hr => ⟨⟨ha.le.trans hr.1, hr.2⟩, fun h => absurd h.2 (not_lt.2 hr.1)⟩
  · obtain ⟨x, hx, hy⟩ := run_bind_eq_ok.1 h
    refine (hf x).made around y hy fun o ho => ?_
    rcases Multiset.mem_add.1 ho with ho | ho
    · exact hbefore o (Multiset.mem_add.2 (.inl ho))
    · exact ha.made around x hx (fun o ho => hbefore o (Multiset.mem_add.2 (.inr ho))) o ho

theorem bind_onto [Annotated β] (ha : a.Keeps Occurs before p m)
    (hf : ∀ x, (f x).Keeps Occurs (objectsIn x) m q) (hmq : m ≤ q) :
    (a >>= f).Keeps Occurs before p q := by
  have hf' (x : β) : (f x).Keeps Occurs (0 + objectsIn x) m q := by
    rw [zero_add]
    exact hf x
  have hboth := ha.bind_add hf' hmq
  rwa [zero_add] at hboth

theorem bind [Annotated β] (ha : a.Keeps Occurs 0 p m)
    (hf : ∀ x, (f x).Keeps Occurs (before + objectsIn x) m q) (hmq : m ≤ q) :
    (a >>= f).Keeps Occurs before p q := by
  simpa using ha.bind_add hf hmq

theorem step (h : p ≤ q) (hf : ∀ x, (f x).Keeps Occurs before p q) :
    (a >>= f).Keeps Occurs before p q := by
  refine ⟨h, fun around y h => ?_, fun around y h => ?_⟩
  · obtain ⟨x, -, hy⟩ := run_bind_eq_ok.1 h
    exact (hf x).texts around y hy
  · obtain ⟨x, -, hy⟩ := run_bind_eq_ok.1 h
    exact (hf x).made around y hy

theorem map [Annotated β] {g : β → α} (ha : a.Keeps Occurs 0 p q)
    (hg : ∀ x, objectsIn (g x) ≤ objectsIn x) :
    (a >>= fun x => Pure.pure (g x)).Keeps Occurs 0 p q :=
  ha.bind (fun x => pure le_rfl (by simpa using hg x)) le_rfl

theorem mapM {γ : Type} {g : γ → Build α} {xs : List γ}
    (h : Row (fun p q x => (g x).Keeps Occurs 0 p q) p q xs) :
    (xs.mapM g).Keeps Occurs 0 p q := by
  induction h with
  | nil h => exact pure h (by simp)
  | @cons p p' m x q xs hgap hx _ ih =>
    rw [List.mapM_cons]
    refine (hx.mono hgap le_rfl).bind (fun y => ?_) ih.le
    exact ih.bind (fun ys => pure le_rfl (by simp)) le_rfl

theorem mapOption {γ : Type} {g : γ → Build α} {x : Option γ} (h : p ≤ q)
    (hx : ∀ y ∈ x, (g y).Keeps Occurs 0 p q) : (x.mapM g).Keeps Occurs 0 p q := by
  cases x with
  | none => exact pure h (by simp)
  | some y => exact (hx y rfl).map fun z => by simp

end Keeps

end Build

section Types

variable {Occurs : ObjectTree → Prop} {ends : Position → Prop} {p p' q q' m : Position}

structure TypeTree.Keeps (Occurs : ObjectTree → Prop) (p q : Position) (t : TypeTree) : Prop where
  le_start : p ≤ t.start
  start_lt : t.start < q
  built : t.build.Keeps Occurs 0 t.start q

def FunctionParamTree.Keeps (Occurs : ObjectTree → Prop) (p q : Position) (f : FunctionParamTree) :
    Prop :=
  f.type.Keeps Occurs p q

def SignatureKeeps (Occurs : ObjectTree → Prop) (p q : Position) (params : List FunctionParamTree)
    (result : TypeTree) : Prop :=
  ∃ m, Row (FunctionParamTree.Keeps Occurs) p m params ∧ result.Keeps Occurs m q

def MemberTree.Keeps (Occurs : ObjectTree → Prop) (p q : Position) : MemberTree → Prop
  | .property _ _ value => value.Keeps Occurs p q
  | .method _ params result | .call params result => SignatureKeeps Occurs p q params result
  | .spread argument => argument.Keeps Occurs p q
  | .indexer _ key value => ∃ m, key.Keeps Occurs p m ∧ value.Keeps Occurs m q

structure ObjectTree.Keeps (Occurs : ObjectTree → Prop) (ends : Position → Prop) (p q : Position)
    (o : ObjectTree) : Prop where
  occurs : Occurs o
  le_start : p ≤ o.extent.start
  pos : o.extent.start < o.extent.stop
  stop_le : o.extent.stop ≤ q
  holds : o.extent.Holds (o.members.map (·.1))
  ends : ∀ m ∈ o.members, ends m.1.stop
  members : ∀ m ∈ o.members, m.2.Keeps Occurs m.1.start m.1.stop

namespace TypeTree

variable {t : TypeTree}

theorem Keeps.lt (h : t.Keeps Occurs p q) : p < q :=
  h.le_start.trans_lt h.start_lt

theorem Keeps.mono (h : t.Keeps Occurs p q) (hp : p' ≤ p) (hq : q ≤ q') : t.Keeps Occurs p' q' :=
  ⟨hp.trans h.le_start, h.start_lt.trans_le hq, h.built.mono le_rfl hq⟩

theorem Keeps.build (h : t.Keeps Occurs p q) : t.build.Keeps Occurs 0 p q :=
  h.built.mono h.le_start le_rfl

theorem texts_withLeading (x : TypeExpr) (leading : List String) :
    commentsIn (x.withLeading leading) ≤ leading + commentsIn x := by
  cases x with
  | object o =>
    have hown : ObjectType.texts { o with leading } ≤ leading + o.texts := by
      rw [ObjectType.texts, ObjectType.texts]
      exact add_le_add le_rfl (Multiset.le_add_left _ _)
    simp only [TypeExpr.withLeading, commentsIn, TypeExpr.objectsIn_object, Multiset.add_bind,
      Multiset.singleton_bind, ← add_assoc]
    exact add_le_add hown le_rfl
  | _ => exact Multiset.le_add_left _ _

theorem made_withLeading {cs own : List Comment} {x : TypeExpr} (hown : own.Sublist cs)
    (h : ∀ o ∈ objectsIn x, Made Occurs cs o) :
    ∀ o ∈ objectsIn (x.withLeading (own.map (·.text))), Made Occurs cs o := by
  cases x with
  | object o =>
    rw [TypeExpr.objectsIn_object] at h
    rw [TypeExpr.withLeading, TypeExpr.objectsIn_object]
    intro o' ho'
    rcases Multiset.mem_add.1 ho' with ho' | ho'
    · obtain ⟨tree, hoccurs, hgives⟩ := h o (by simp)
      rw [Multiset.mem_singleton.1 ho']
      exact ⟨tree, hoccurs, hgives.loc, hgives.notes, own, hown, rfl⟩
    · exact h o' (Multiset.mem_add.2 (.inr ho'))
  | _ => exact h

theorem Keeps.buildAnnotated (h : t.Keeps Occurs p q) :
    (t.buildAnnotated p).Keeps Occurs 0 p q := by
  have hrun {around : Surroundings} {x : TypeExpr} (hx : (t.buildAnnotated p).run around = .ok x) :
      ∃ y, t.build.run around = .ok y ∧ x = y.withLeading ((around.comments.filter fun c =>
        p.upTo c.extent.start && c.extent.start.before t.start).map (·.text)) := by
    obtain ⟨y, hy, hx⟩ := Build.run_bind_eq_ok.1 hx
    obtain ⟨_, ⟨⟩, ⟨⟩⟩ := Build.run_bind_eq_ok.1 hx
    exact ⟨y, hy, rfl⟩
  refine ⟨h.lt.le, fun around x hx => ?_, fun around x hx _ => ?_⟩
  · obtain ⟨y, hy, rfl⟩ := hrun hx
    have hbuilt := h.built.texts around y hy
    have hleading : ((((around.comments.filter fun c => p.upTo c.extent.start &&
        c.extent.start.before t.start).map (·.text)) : List String) : Multiset String) =
          Notes.textsAt around.comments fun r => p ≤ r ∧ r < t.start :=
      Notes.coe_filter_texts (b := fun r => p.upTo r && r.before t.start) (by simp)
    rw [Multiset.zero_bind, zero_add] at hbuilt ⊢
    refine (texts_withLeading y _).trans ((add_le_add hleading.le hbuilt).trans ?_)
    exact Notes.textsAt_add_le (fun r hr => ⟨hr.1, hr.2.trans h.start_lt⟩)
      fun r hr => ⟨⟨h.le_start.trans hr.1, hr.2⟩, fun h => absurd h.2 (not_lt.2 hr.1)⟩
  · obtain ⟨y, hy, rfl⟩ := hrun hx
    exact made_withLeading List.filter_sublist (h.built.made around y hy (by simp))

end TypeTree

instance : Annotated ObjectTree.Part where
  objectsIn
    | .member m => objectsIn m
    | .indexer i => objectsIn i
    | .call k => objectsIn k

section Builders

variable {loc : Position} {params : List FunctionParamTree} {result t : TypeTree}

theorem FunctionParamTree.Keeps.build {f : FunctionParamTree} (h : f.Keeps Occurs p q) :
    f.build.Keeps Occurs 0 p q :=
  (TypeTree.Keeps.build h).map fun x => by simp

theorem Row.build {γ α : Type} [Annotated α] {R : Position → Position → γ → Prop}
    {f : γ → Build α} {xs : List γ} (hf : ∀ p q x, R p q x → (f x).Keeps Occurs 0 p q)
    (h : Row R p q xs) : (xs.mapM f).Keeps Occurs 0 p q :=
  .mapM (h.imp hf)

theorem SignatureKeeps.le (h : SignatureKeeps Occurs p q params result) : p ≤ q := by
  obtain ⟨m, hparams, hresult⟩ := h
  exact (hparams.le fun _ _ _ h => (TypeTree.Keeps.lt h).le).trans hresult.lt.le

theorem SignatureKeeps.build (h : SignatureKeeps Occurs p q params result) :
    (TypeTree.buildSignature loc params result).Keeps Occurs 0 p q := by
  obtain ⟨m, hparams, hresult⟩ := h
  refine (Row.build (fun _ _ _ h => h.build) hparams).bind (fun ps => ?_) hresult.lt.le
  exact hresult.build.bind (fun r => .pure le_rfl (by simp)) le_rfl

theorem SignatureKeeps.buildFunction (h : SignatureKeeps Occurs p q params result) :
    (TypeTree.buildFunction loc params result).Keeps Occurs 0 p q :=
  h.build.map fun k => by simp

theorem MemberTree.Keeps.buildPart {notes : Notes} {m : MemberTree} (h : m.Keeps Occurs p q) :
    (ObjectTree.buildPart p notes m).Keeps Occurs 0 p q := by
  cases m with
  | property key optional value =>
    exact .step (TypeTree.Keeps.lt h).le fun _ => (TypeTree.Keeps.buildAnnotated h).map fun _ => le_rfl
  | method key params result =>
    exact .step (SignatureKeeps.le h) fun _ => (SignatureKeeps.buildFunction h).map fun _ => le_rfl
  | spread argument => exact (TypeTree.Keeps.build h).map fun _ => le_rfl
  | indexer name key value =>
    obtain ⟨m, hkey, hvalue⟩ := h
    refine hkey.build.bind (fun k => ?_) hvalue.lt.le
    exact hvalue.build.bind (fun v => .pure le_rfl (by simp [objectsIn])) le_rfl
  | call params result => exact (SignatureKeeps.build h).map fun _ => le_rfl

end Builders

namespace ObjectTree

section Parts

variable {around : Surroundings} {o : ObjectTree}

theorem objectsIn_parts (parts : List Part) :
    objectsIn (parts.filterMap Part.member?) + objectsIn (parts.filterMap Part.indexer?) +
        objectsIn (parts.filterMap Part.call?) = objectsIn parts := by
  induction parts with
  | nil => rfl
  | cons part parts ih =>
    rw [objectsIn_cons, ← ih]
    cases part <;>
      simp only [List.filterMap_cons, Part.member?, Part.indexer?, Part.call?, objectsIn_cons] <;>
      simp only [objectsIn] <;> abel

theorem member?_buildPart {loc : Position} {notes : Notes} {m : MemberTree} {part : Part}
    (h : (buildPart loc notes m).run around = .ok part) :
    part.member?.map Member.notes = if m.isField then some notes else none := by
  cases m with
  | property key optional value =>
    obtain ⟨_, -, h⟩ := Build.run_bind_eq_ok.1 h
    obtain ⟨_, -, ⟨⟩⟩ := Build.run_bind_eq_ok.1 h
    rfl
  | method key params result =>
    obtain ⟨_, -, h⟩ := Build.run_bind_eq_ok.1 h
    obtain ⟨_, -, ⟨⟩⟩ := Build.run_bind_eq_ok.1 h
    rfl
  | spread argument =>
    obtain ⟨_, -, ⟨⟩⟩ := Build.run_bind_eq_ok.1 h
    rfl
  | indexer name key value =>
    obtain ⟨_, -, h⟩ := Build.run_bind_eq_ok.1 h
    obtain ⟨_, -, ⟨⟩⟩ := Build.run_bind_eq_ok.1 h
    rfl
  | call params result =>
    obtain ⟨_, -, ⟨⟩⟩ := Build.run_bind_eq_ok.1 h
    rfl

theorem notes_of_parts {ms : List ((Extent × MemberTree) × Notes)} {parts : List Part}
    (h : (ms.mapM fun m => buildPart m.1.1.start m.2 m.1.2).run around = .ok parts) :
    (parts.filterMap Part.member?).map Member.notes =
      (ms.filter fun m => m.1.2.isField).map (·.2) := by
  induction ms generalizing parts with
  | nil =>
    obtain ⟨⟩ := h
    rfl
  | cons m ms ih =>
    rw [List.mapM_cons] at h
    obtain ⟨part, hpart, h⟩ := Build.run_bind_eq_ok.1 h
    obtain ⟨parts, hparts, ⟨⟩⟩ := Build.run_bind_eq_ok.1 h
    have hrest := ih hparts
    have hfirst := member?_buildPart hpart
    cases hfield : m.1.2.isField with
    | false =>
      rw [hfield, if_neg Bool.false_ne_true, Option.map_eq_none_iff] at hfirst
      simp [hfirst, hfield, hrest]
    | true =>
      rw [hfield, if_pos rfl, Option.map_eq_some_iff] at hfirst
      obtain ⟨member, hmember, hnotes⟩ := hfirst
      simp [hmember, hfield, hrest, hnotes]

theorem parts_keep {ms : List ((Extent × MemberTree) × Notes)} {parts : List Part}
    (hms : ∀ m ∈ ms, m.1.2.Keeps Occurs m.1.1.start m.1.1.stop)
    (h : (ms.mapM fun m => buildPart m.1.1.start m.2 m.1.2).run around = .ok parts) :
    commentsIn parts ≤
        (ms.map fun m => Notes.textsAt around.comments fun r => m.1.1.start ≤ r ∧ r < m.1.1.stop).sum ∧
      ∀ object ∈ objectsIn parts, Made Occurs around.comments object := by
  induction ms generalizing parts with
  | nil =>
    obtain ⟨⟩ := h
    simp [commentsIn]
  | cons m ms ih =>
    rw [List.mapM_cons] at h
    obtain ⟨part, hpart, h⟩ := Build.run_bind_eq_ok.1 h
    obtain ⟨parts, hparts, ⟨⟩⟩ := Build.run_bind_eq_ok.1 h
    rw [List.forall_mem_cons] at hms
    obtain ⟨htexts, hmade⟩ := ih hms.2 hparts
    have hkeeps : (buildPart m.1.1.start m.2 m.1.2).Keeps Occurs 0 m.1.1.start m.1.1.stop :=
      MemberTree.Keeps.buildPart hms.1
    constructor
    · have hfirst := hkeeps.texts around part hpart
      rw [Multiset.zero_bind, zero_add] at hfirst
      rw [commentsIn, objectsIn_cons, Multiset.add_bind, List.map_cons, List.sum_cons]
      exact add_le_add hfirst htexts
    · intro object hobject
      rw [objectsIn_cons] at hobject
      rcases Multiset.mem_add.1 hobject with hobject | hobject
      · exact hkeeps.made around part hpart (by simp) object hobject
      · exact hmade object hobject

theorem build_eq_ok {object : ObjectType TypeExpr} (h : o.build.run around = .ok object) :
    ∃ parts, ((o.members.zip (Notes.ofObject around.comments o.extent
        (o.members.map (·.1)))).mapM fun m =>
          buildPart m.1.1.start m.2 m.1.2).run around = .ok parts ∧
      object = ⟨o.extent.start, parts.filterMap Part.member?, parts.filterMap Part.indexer?,
        parts.filterMap Part.call?, o.exact, []⟩ := by
  obtain ⟨_, ⟨⟩, h⟩ := Build.run_bind_eq_ok.1 h
  obtain ⟨parts, hparts, ⟨⟩⟩ := Build.run_bind_eq_ok.1 h
  exact ⟨parts, hparts, rfl⟩

theorem Gives.of_build {object : ObjectType TypeExpr} (h : o.build.run around = .ok object) :
    o.Gives around.comments object := by
  obtain ⟨parts, hparts, rfl⟩ := build_eq_ok h
  exact ⟨rfl, notes_of_parts hparts, [], List.nil_sublist around.comments, rfl⟩

theorem Gives.texts_le {object : ObjectType TypeExpr} (h : o.Gives around.comments object)
    (hleading : object.leading = []) :
    object.texts ≤
      ((Notes.ofObject around.comments o.extent (o.members.map (·.1))).map Notes.texts).sum := by
  have hsub : (object.members.map Member.notes).Sublist
      (Notes.ofObject around.comments o.extent (o.members.map (·.1))) := by
    have hlength : (Notes.ofObject around.comments o.extent (o.members.map (·.1))).length ≤
        o.members.length := by
      simp [Notes.ofObject]
    rw [h.notes]
    conv_rhs => rw [← List.map_snd_zip hlength]
    exact List.filter_sublist.map Prod.snd
  have hsum := (hsub.map Notes.texts).sum_le_sum fun _ _ => Multiset.zero_le _
  rw [ObjectType.texts, hleading]
  simpa [Function.comp_def] using hsum

theorem Keeps.build (h : o.Keeps Occurs ends p q) :
    o.build.Keeps Occurs 0 o.extent.start o.extent.stop := by
  have hmembers (around : Surroundings) :
      ∀ m ∈ o.members.zip (Notes.ofObject around.comments o.extent (o.members.map (·.1))),
        m.1.2.Keeps Occurs m.1.1.start m.1.1.stop :=
    fun m hm => h.members m.1 (List.of_mem_zip hm).1
  refine ⟨h.pos.le, fun around object hobject => ?_, fun around object hobject _ => ?_⟩
  · have hown := (Gives.of_build hobject).texts_le (by
      obtain ⟨parts, -, rfl⟩ := build_eq_ok hobject
      rfl)
    obtain ⟨parts, hparts, rfl⟩ := build_eq_ok hobject
    have hinner := (parts_keep (hmembers around) hparts).1
    -- Each member keeps what stands within its own extent, whatever notes it is zipped with.
    have hspans : (o.members.zip (Notes.ofObject around.comments o.extent (o.members.map (·.1)))).map
        (fun m => Notes.textsAt around.comments fun r => m.1.1.start ≤ r ∧ r < m.1.1.stop) =
          (o.members.map (·.1)).map fun m =>
            Notes.textsAt around.comments fun r => m.start ≤ r ∧ r < m.stop := by
      have hlength : o.members.length ≤
          (Notes.ofObject around.comments o.extent (o.members.map (·.1))).length := by
        simp [Notes.ofObject]
      conv_rhs => rw [← List.map_fst_zip hlength]
      simp
    rw [hspans] at hinner
    rw [Multiset.zero_bind, zero_add, commentsIn, objectsIn_object_eq, Multiset.add_bind,
      Multiset.singleton_bind, ObjectType.inner, objectsIn_parts]
    exact (add_le_add hown hinner).trans (Notes.texts_ofObject_le h.holds)
  · have hgives := Gives.of_build hobject
    obtain ⟨parts, hparts, rfl⟩ := build_eq_ok hobject
    have hinner := (parts_keep (hmembers around) hparts).2
    intro object hobject
    rw [objectsIn_object_eq, ObjectType.inner, objectsIn_parts] at hobject
    -- An object in the result is this one or one inside a member.
    rcases Multiset.mem_add.1 hobject with hobject | hobject
    · rw [Multiset.mem_singleton.1 hobject]
      exact ⟨o, h.occurs, hgives⟩
    · exact hinner object hobject

theorem Keeps.tree (h : o.Keeps Occurs ends p q) : o.tree.Keeps Occurs p q :=
  ⟨h.le_start, h.pos.trans_le h.stop_le,
    (h.build.map fun object => (TypeExpr.objectsIn_object object).le).mono le_rfl h.stop_le⟩

end Parts

end ObjectTree

end Types

end PropTables
