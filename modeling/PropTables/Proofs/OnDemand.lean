import PropTables.Proofs.Naming
import PropTables.Proofs.TypeParts

/-! Conversion with the names left open, rule by rule beside the conversion with the names of a
vocabulary. -/

namespace PropTables

def Validator.IsObject (e : Validator) : Prop :=
  ∃ fields notes, e = .object fields notes

namespace Aspect

def converted (v : Vocabulary) : Aspect Converted :=
  ⟨fun a b => a.expr.IsObject ↔ b.expr.IsObject, fun role a => v.Keeps role a.expr⟩

def fields (v : Vocabulary) : Aspect (List (Field Validator)) :=
  ⟨fun _ _ => True, fun role fs => ∃ f ∈ fs, v.Mentions role f.value.core⟩

def values (v : Vocabulary) : Aspect (List Validator) :=
  ⟨fun _ _ => True, fun role es => ∃ e ∈ es, v.Mentions role e⟩

end Aspect

def OpenSetting.Asks (o : OpenSetting) (h : HostOptions) : Prop :=
  ∀ role, o.nameOf role = Naming.reference (h.source role) (h.preferredName role)

namespace Naming.Matches

variable {α : Type} {h : HostOptions} {v : Vocabulary} {k : Aspect α} {start here : LibraryNames}
  {o : OpenSetting} {a b : α}

theorem write (ho : o.Asks h) (ha : Arrives h v k start here a b) (role : LibraryRole)
    (build build' : String → Validator)
    (alike : ∀ n, ¬ (build n).IsObject ∧ ¬ (build' n).IsObject)
    (same : a = b → build = build')
    (mentions : ∀ role', k.mentions role' a ∨ role' = role → v.Keeps role' (build (v.name role))) :
    Matches h v (.converted v) start here
      (o.nameOf role >>= fun n => Pure.pure (Converted.required (build n)))
      (Pure.pure (Converted.required (build' (v.name role)))) := by
  rw [ho role]
  have hname : Matches h v (.name role) here here
      (Naming.reference (h.source role) (h.preferredName role)) (Pure.pure (v.name role)) :=
    .reference role
  rw [← pure_bind (v.name role) fun n => (Pure.pure (Converted.required (build' n)) : Traced _)]
  refine hname.bind fun {m n stop} hr hpure hn => pure (ha.zip hn hr ?_ ?_ ?_)
  · exact iff_of_false (alike m).1 (alike n).2
  · rintro hab rfl
    rw [same hab]
  · rintro rfl role' hm
    rw [← Traced.pure_eq_ok.1 hpure]
    exact mentions role' hm

theorem call (ho : o.Asks h) (ha : Arrives h v k start here a b) (attr : String) {e e' : Validator}
    (same : a = b → e = e') (mentions : ∀ role, k.mentions role a → v.Mentions role e) :
    Matches h v (.converted v) start here (o.call attr e >>= fun w => Pure.pure (.required w))
      (Pure.pure (.required (v.call attr e'))) := by
  simp only [OpenSetting.call, OpenSetting.member, bind_assoc, pure_bind]
  refine write ho ha .validators (fun n => ((Validator.named n).access [attr]).apply [e])
    (fun n => ((Validator.named n).access [attr]).apply [e']) (fun n => ?_) ?_ ?_
  · exact ⟨nofun, nofun⟩
  · intro hab
    rw [same hab]
  · intro role hm
    exact Vocabulary.keeps_call (hm.symm.imp_right (mentions role))

theorem member (ho : o.Asks h) (l : LibraryNames) {attr : String}
    (hattr : attr ≠ Validator.requiredMark) :
    Matches h v (.converted v) l l (o.member attr >>= fun w => Pure.pure (.required w))
      (Pure.pure (.required (v.member attr))) := by
  simp only [OpenSetting.member, bind_assoc, pure_bind]
  refine write ho (.refl h v l ()) .validators (fun n => (Validator.named n).access [attr])
    (fun n => (Validator.named n).access [attr]) (fun n => ?_) (fun _ => rfl) ?_
  · exact ⟨nofun, nofun⟩
  · rintro role (hm | rfl)
    · exact hm.elim
    · exact Vocabulary.keeps_member hattr

theorem allOf (ho : o.Asks h) {es es' : List Validator}
    (ha : Arrives h v (.values v) start here es es') :
    Matches h v (.converted v) start here (o.allOf es >>= fun w => Pure.pure (.required w))
      (Pure.pure (.required (v.allOf es'))) := by
  simp only [OpenSetting.allOf, bind_assoc, pure_bind]
  refine write ho ha .combination (fun n => (Validator.named n).apply es)
    (fun n => (Validator.named n).apply es') (fun n => ?_) ?_ ?_
  · exact ⟨nofun, nofun⟩
  · rintro rfl
    rfl
  · intro role hm
    exact Vocabulary.keeps_allOf hm.symm

theorem oneOf (ho : o.Asks h) (l : LibraryNames) (values : List Validator) :
    Matches h v (.converted v) l l (o.oneOf values >>= fun w => Pure.pure (.required w))
      (Pure.pure (.required (v.oneOf values))) :=
  call ho (.refl h v l ()) "oneOf" (fun _ => rfl) fun _ hm => hm.elim

theorem primitive (ho : o.Asks h) (l : LibraryNames) (p : Primitive) :
    Matches h v (.converted v) l l (o.primitive p >>= fun w => Pure.pure (.required w))
      (Pure.pure (.required (v.primitive p))) := by
  cases p with
  | null => exact oneOf ho l [.null]
  | void => exact oneOf ho l [.undefined]
  | _ => exact member ho l (by decide)

theorem callWith (ho : o.Asks h) {l : LibraryNames} {x : Naming Converted} {y : Traced Converted}
    (hx : Matches h v (.converted v) l l x y) (attr : String) :
    Matches h v (.converted v) l l
      (x >>= fun w => o.call attr w.expr >>= fun e => Pure.pure (.required e))
      (y >>= fun w => Pure.pure (.required (v.call attr w.expr))) :=
  hx.bind fun _ _ ha => call ho ha attr (congrArg Converted.expr) fun _ hm => hm.mentions

theorem bindObject {β : Type} {k' : Aspect β} {l : LibraryNames} {x : Naming Converted}
    {y : Traced Converted} (hx : Matches h v (.converted v) l l x y)
    {f : List (Field Validator) → Notes → Naming β} {g : List (Field Validator) → Notes → Traced β}
    {c : Context} {fault : ConversionFault} {loc : Position}
    (hf : ∀ {stop r r' fields fields' notes notes'}, h.NamesReach l stop →
      Arrives h v (.converted v) l stop ⟨r, .object fields notes⟩ ⟨r', .object fields' notes'⟩ →
      Matches h v k' l stop (f fields notes) (g fields' notes')) :
    Matches h v k' l l
      (x >>= fun w => match w.expr with
        | .object fields notes => f fields notes
        | _ => liftM (c.fail fault loc : Traced β))
      (y >>= fun w => match w.expr with
        | .object fields notes => g fields notes
        | _ => c.fail fault loc) := by
  refine hx.bind fun {a b _} hr _ ha => ?_
  obtain ⟨r, e⟩ := a
  obtain ⟨r', e'⟩ := b
  by_cases he : e.IsObject
  · obtain ⟨fields', notes', rfl⟩ := ha.alike.1 he
    obtain ⟨fields, notes, rfl⟩ := he
    exact hf hr ha
  · have he' : ¬ e'.IsObject := fun hobject => he (ha.alike.2 hobject)
    cases e with
    | object fields notes => exact (he ⟨fields, notes, rfl⟩).elim
    | _ =>
      cases e' with
      | object fields notes => exact (he' ⟨fields, notes, rfl⟩).elim
      | _ => exact fail c fault loc

end Naming.Matches

theorem Arrives.fields {h : HostOptions} {v : Vocabulary} {start stop : LibraryNames}
    {r r' : Requirement} {fields fields' : List (Field Validator)} {notes notes' : Notes}
    (ha : Arrives h v (.converted v) start stop ⟨r, .object fields notes⟩ ⟨r', .object fields' notes'⟩) :
    Arrives h v (.fields v) start stop fields fields' := by
  refine ha.map trivial ?_ fun _ hm => hm
  rintro ⟨⟩
  rfl

theorem Setting.convertName_undeclared {s : Setting} {follow : Follow} {use : Use} {c : Context}
    (hl : c.scope.lookup use.name = none) (hfunction : use.name ≠ "Function")
    (hobject : use.name ≠ "Object") :
    s.convertName follow use c = c.fail (.undeclared use.name) use.loc := by
  rw [Setting.convertName, hl]
  dsimp only
  split
  next hname => exact (hfunction hname).elim
  next hname => exact (hobject hname).elim
  next => rfl

namespace OpenSetting

open Naming (Matches)

def Mirrors (o : OpenSetting) (h : HostOptions) (v : Vocabulary) (F : OpenFollow) (G : Follow)
    (t : TypeExpr) : Prop :=
  ∀ c l, Matches h v (.converted v) l l (o.convert F t c) ((o.close v).convert G t c)

section

variable {h : HostOptions} {v : Vocabulary} {o : OpenSetting} {F : OpenFollow} {G : Follow}
  {c : Context} {l : LibraryNames}

theorem convertAll_matches {ts : List TypeExpr} (ht : ∀ t ∈ ts, o.Mirrors h v F G t) :
    Matches h v (.values v) l l (o.convertAll F ts c) ((o.close v).convertAll G ts c) := by
  induction ts generalizing l with
  | nil => exact .pure ⟨trivial, fun _ => rfl, fun _ _ _ hr => .inl hr⟩
  | cons t ts ih =>
    have htail : ∀ u ∈ ts, o.Mirrors h v F G u := fun u hu => ht u (List.mem_cons_of_mem t hu)
    rw [convertAll, Setting.convertAll]
    refine (ht t List.mem_cons_self c l).bind fun {a b _} _ _ ha => ?_
    refine (ih htail).bind fun {as bs _} hr _ has => .pure (ha.zip has hr trivial ?_ ?_)
    · rintro rfl rfl
      rfl
    · rintro _ role (hm | ⟨e, he, hm⟩)
      · exact ⟨a.expr, List.mem_cons_self, hm.mentions⟩
      · exact ⟨e, List.mem_cons_of_mem _ he, hm⟩

theorem convertMerged_matches {ts : List TypeExpr} (ht : ∀ t ∈ ts, o.Mirrors h v F G t) :
    Matches h v (.fields v) l l (o.convertMerged F ts c) ((o.close v).convertMerged G ts c) := by
  induction ts generalizing l with
  | nil => exact .pure ⟨trivial, fun _ => rfl, fun _ _ _ hr => .inl hr⟩
  | cons t ts ih =>
    have htail : ∀ u ∈ ts, o.Mirrors h v F G u := fun u hu => ht u (List.mem_cons_of_mem t hu)
    rw [convertMerged, Setting.convertMerged]
    refine (ht t List.mem_cons_self c.nested l).bindObject fun {_ _ _ fields _ _ _} _ ha => ?_
    refine (ih htail).bind fun {fs _ _} hr _ hfs => .pure (ha.fields.zip hfs hr trivial ?_ ?_)
    · rintro rfl rfl
      rfl
    · rintro _ role (⟨f, hf, hm⟩ | ⟨f, hf, hm⟩)
      · exact ⟨f, List.mem_append_left _ hf, hm⟩
      · exact ⟨f, List.mem_append_right _ hf, hm⟩

theorem convertProperty_matches {p : Property TypeExpr} (ht : o.Mirrors h v F G p.value) :
    Matches h v (.fields v) l l (o.convertMember F (.property p) c)
      ((o.close v).convertMember G (.property p) c) := by
  rw [convertMember, Setting.convertMember]
  refine (ht c.fieldValue l).map (fun _ _ _ => trivial) (fun _ => rfl) fun role w hm => ?_
  refine ⟨_, List.mem_singleton_self _, ?_⟩
  dsimp only
  split
  · rw [Validator.core_require]
    exact hm.core
  · exact hm.core

theorem convertSpread_matches {p : Spread TypeExpr} (ht : o.Mirrors h v F G p.argument) :
    Matches h v (.fields v) l l (o.convertMember F (.spread p) c)
      ((o.close v).convertMember G (.spread p) c) := by
  rw [convertMember, Setting.convertMember]
  refine (ht c.spread l).bindObject fun {_ _ _ fields fields' _ _} _ ha => ?_
  refine .pure (ha.fields.map trivial ?_ fun role hm => ?_)
  · rintro rfl
    rfl
  · -- Neither the marks that a spread takes off nor its comments change what a value keeps.
    obtain ⟨f, hf, hm⟩ := hm
    have hkept : ∃ g ∈ (if o.rules.isExact p.argument then fields else fields.map Field.stripRequired),
        v.Mentions role g.value.core := by
      split
      · exact ⟨f, hf, hm⟩
      · refine ⟨f.stripRequired, List.mem_map_of_mem hf, ?_⟩
        exact Vocabulary.mentions_core_stripRequired.2 hm
    obtain ⟨g, hg, hm⟩ := hkept
    have hvalue := List.mem_map_of_mem (f := Field.value) hg
    rw [← Field.values_surround p.notes] at hvalue
    obtain ⟨g', hg', heq⟩ := List.mem_map.1 hvalue
    exact ⟨g', hg', heq ▸ hm⟩

theorem convertMembers_matches {ms : List (Member TypeExpr)}
    (hm : ∀ m ∈ ms, ∀ l, Matches h v (.fields v) l l (o.convertMember F m c)
      ((o.close v).convertMember G m c)) :
    Matches h v (.fields v) l l (o.convertMembers F ms c) ((o.close v).convertMembers G ms c) := by
  induction ms generalizing l with
  | nil => exact .pure ⟨trivial, fun _ => rfl, fun _ _ _ hr => .inl hr⟩
  | cons m ms ih =>
    rw [convertMembers, Setting.convertMembers]
    refine (hm m List.mem_cons_self l).bind fun {fs _ _} _ _ hfs => ?_
    refine (ih fun m' hm' => hm m' (List.mem_cons_of_mem m hm')).bind fun {gs _ _} hr _ hgs =>
      .pure (hfs.zip hgs hr trivial ?_ ?_)
    · rintro rfl rfl
      rfl
    · rintro _ role (⟨f, hf, hm⟩ | ⟨f, hf, hm⟩)
      · exact ⟨f, List.mem_append_left _ hf, hm⟩
      · exact ⟨f, List.mem_append_right _ hf, hm⟩

theorem convertObject_matches (ho : o.Asks h) {t : ObjectType TypeExpr}
    (ht : ∀ u, (TypeExpr.object t).Child u → o.Mirrors h v F G u) :
    Matches h v (.converted v) l l (o.convertObject F t c) ((o.close v).convertObject G t c) := by
  obtain ⟨loc, members, indexers, calls, ex, leading⟩ := t
  match calls, indexers with
  | call :: _, _ => exact .fail c _ _
  | [], [] =>
    have hmembers : ∀ m ∈ members, ∀ l, Matches h v (.fields v) l l (o.convertMember F m c)
        ((o.close v).convertMember G m c) := by
      intro m hm l
      cases m with
      | property p => exact convertProperty_matches (ht _ (.property hm))
      | spread p => exact convertSpread_matches (ht _ (.spread hm))
    have hliterals := convertMembers_matches (l := l) hmembers
    -- There is no equation for this branch to rewrite with, so both sides are written out.
    show Matches h v (.converted v) l l
      (do
        let fields ← o.convertMembers F members c
        let literal := Validator.object fields ⟨leading, []⟩
        if c.depth = 0 then pure (.required literal)
        else pure (.required (← o.call "shape" literal)))
      (do
        let fields ← (o.close v).convertMembers G members c
        let literal := Validator.object fields ⟨leading, []⟩
        pure (.required (if c.depth = 0 then literal else v.call "shape" literal)))
    by_cases hd : c.depth = 0
    · simp only [if_pos hd]
      refine hliterals.map (fun _ _ _ => ?_) (fun _ => rfl) fun _ _ hm => hm
      exact iff_of_true ⟨_, _, rfl⟩ ⟨_, _, rfl⟩
    · simp only [if_neg hd]
      refine hliterals.bind fun {fields fields' _} _ _ ha => .call ho ha "shape" ?_ ?_
      · rintro rfl
        rfl
      · rintro role ⟨f, hf, hm⟩
        exact Vocabulary.mentions_object.2 ⟨f, hf, Vocabulary.mentions_of_core hm⟩
  | [], [i] =>
    cases members with
    | nil =>
      have hvalue := ht i.value (.indexerValue List.mem_cons_self) c.indexed l
      obtain ⟨iloc, name, key, value⟩ := i
      exact .callWith ho hvalue "objectOf"
    | cons m ms => exact .fail c _ _
  | [], _ :: second :: _ =>
    cases members with
    | nil => exact .fail c _ _
    | cons m ms => exact .fail c _ _

theorem convertArguments_matches (ho : o.Asks h) {loc : Position} {name : String}
    {args : List TypeExpr} (hargs : args ≠ []) (ht : ∀ u ∈ args, o.Mirrors h v F G u) :
    Matches h v (.converted v) l l (o.convert F (.reference loc [] name args) c)
      ((o.close v).convert G (.reference loc [] name args) c) := by
  have hgeneric : (o.close v).generic name = o.rules.generic name := rfl
  match args with
  | [] => exact (hargs rfl).elim
  | [a] =>
    have ha := ht a List.mem_cons_self
    rw [convert, Setting.convert, hgeneric]
    cases o.rules.generic name with
    | array => exact .callWith ho (ha c.nested l) "arrayOf"
    | exact => exact ha c l
    | checkedBy => exact .fail c _ _
    | hasDefault =>
      dsimp only
      split
      · exact (ha c l).map (fun _ _ hab => hab) (fun _ => rfl) fun _ _ hm => hm
      · exact .fail c _ _
    | unknown => exact .fail c _ _
  | [_, b] =>
    have hb := ht b (List.mem_cons_of_mem _ List.mem_cons_self)
    rw [convert, Setting.convert, hgeneric]
    cases o.rules.generic name with
    | checkedBy => exact hb c l
    | _ => exact .fail c _ _
  | _ :: _ :: _ :: rest =>
    simp only [convert, Setting.convert, hgeneric]
    cases o.rules.generic name with
    | _ => exact .fail c _ _

theorem convertName_undeclared {use : Use} (hl : c.scope.lookup use.name = none)
    (hfunction : use.name ≠ "Function") (hobject : use.name ≠ "Object") :
    o.convertName F use c = (c.fail (.undeclared use.name) use.loc : Traced Converted) := by
  rw [convertName, hl]
  dsimp only
  split
  next hname => exact (hfunction hname).elim
  next hname => exact (hobject hname).elim
  next => rfl

theorem convertName_matches (ho : o.Asks h) {use : Use}
    (hfollow : ∀ b, Matches h v (.converted v) l l (F b use c) (G b use c)) :
    Matches h v (.converted v) l l (o.convertName F use c) ((o.close v).convertName G use c) := by
  cases hl : c.scope.lookup use.name with
  | some b =>
    rw [convertName, Setting.convertName, hl]
    exact hfollow b
  | none =>
    by_cases hfunction : use.name = "Function"
    · rw [convertName, Setting.convertName, hl]
      simp only [hfunction]
      exact .member ho l (by decide)
    by_cases hobject : use.name = "Object"
    · rw [convertName, Setting.convertName, hl]
      simp only [hobject]
      exact .member ho l (by decide)
    rw [convertName_undeclared hl hfunction hobject,
      Setting.convertName_undeclared hl hfunction hobject]
    exact .fail c _ _

theorem requireAllowed_matches (ts : List TypeExpr) :
    Matches h v (.fixed Unit) l l (ts.forM fun t => liftM (o.rules.requireAllowed t c))
      (ts.forM ((o.close v).requireAllowed · c)) := by
  induction ts with
  | nil => exact .pure (.refl h v l ())
  | cons t ts ih => exact .lift_bind fun _ _ => ih

theorem convert_matches (ho : o.Asks h)
    (hfollow : ∀ b use c l, Matches h v (.converted v) l l (F b use c) (G b use c)) (t : TypeExpr) :
    o.Mirrors h v F G t := by
  induction t using TypeExpr.child_induction with
  | step t ih =>
    intro c l
    match t with
    | .primitive loc p =>
      rw [convert, Setting.convert]
      exact .lift_bind fun _ _ => .primitive ho l p
    | .number .. | .boolean .. | .string .. =>
      rw [convert, Setting.convert]
      exact .oneOf ho l _
    | .function .. | .tuple .. =>
      rw [convert, Setting.convert]
      exact .member ho l (by decide)
    | .nullable loc inner =>
      have hinner := ih inner .nullable c.nested l
      rw [convert, Setting.convert]
      refine .lift_bind fun _ _ => ?_
      split
      · refine hinner.map (fun _ _ hab => hab) (fun _ => rfl) fun _ _ hm => hm
      · refine hinner.bind fun {a b _} _ _ ha => .call ho ha "oneOf" ?_ fun role hm => ?_
        · rintro rfl
          rfl
        · have hmem : a.expr ∈ [Validator.null, .undefined, a.expr] := by simp
          exact Vocabulary.mentions_array.2 ⟨a.expr, hmem, hm.mentions⟩
    | .array loc element =>
      rw [convert, Setting.convert]
      exact .callWith ho (ih element .array c.nested l) "arrayOf"
    | .object t => exact convertObject_matches ho ih
    | .reference loc (q :: qs) name args => exact .fail c _ _
    | .reference loc [] name [] => exact convertName_matches ho fun b => hfollow b _ c l
    | .reference loc [] name (a :: as) =>
      exact convertArguments_matches ho (List.cons_ne_nil a as) fun u hu => ih u (.argument hu)
    | .union loc ts =>
      rw [convert, Setting.convert]
      cases ts.mapM TypeExpr.literal? with
      | some values =>
        exact (requireAllowed_matches ts).bind fun _ _ ha =>
          .call ho ha "oneOf" (fun _ => rfl) fun _ hm => hm.elim
      | none =>
        refine (convertAll_matches fun u hu => ih u (.union hu)).bind fun _ _ ha => ?_
        refine .call ho ha "oneOfType" ?_ fun role hm => Vocabulary.mentions_array.2 hm
        rintro rfl
        rfl
    | .intersection loc ts =>
      have hts : ∀ u ∈ ts, o.Mirrors h v F G u := fun u hu => ih u (.intersection hu)
      rw [convert, Setting.convert]
      split
      · refine (convertMerged_matches hts).map (fun _ _ _ => ?_) (fun _ => rfl) fun _ _ hm => hm
        exact iff_of_true ⟨_, _, rfl⟩ ⟨_, _, rfl⟩
      · exact (convertAll_matches hts).bind fun _ _ ha => .allOf ho ha

theorem convertClass_matches (ho : o.Asks h) (k : ClassDeclaration) (file : Option String)
    (use : Use) :
    Matches h v (.converted v) l l (o.convertClass k file use c)
      ((o.close v).convertClass k file use c) := by
  have hinstance (name : String) : Matches h v (.converted v) l l
      (o.call "instanceOf" (.named name) >>= fun e => pure (.required e))
      (pure (.required (v.call "instanceOf" (.named name)))) :=
    .call ho (.refl h v l ()) "instanceOf" (fun _ => rfl) fun _ hm => hm.elim
  unfold convertClass Setting.convertClass
  cases c.replacement with
  | some name => exact hinstance name
  | none =>
    by_cases hf : file = c.origin
    · simp only [if_pos hf]
      exact hinstance _
    · simp only [if_neg hf]
      exact .fail c _ _

theorem follow_matches (ho : o.Asks h) (n : Nat) (b : Binding) (use : Use) (c : Context)
    (l : LibraryNames) :
    Matches h v (.converted v) l l (o.follow n b use c) ((o.close v).follow n b use c) := by
  induction n generalizing b use c l with
  | zero => exact .abort _
  | succ n ih =>
    obtain ⟨referent, file⟩ := b
    have hconvert := convert_matches ho ih
    cases referent with
    | typeAlias a => exact hconvert a.right (c.body a.params) l
    | interface i => exact hconvert (.object i.body) (c.body i.params) l
    | class_ k => exact convertClass_matches ho k file use
    | import_ i => exact .lift_bind fun _ _ => ih _ _ _ _
    | function d => exact .fail c _ _
    | variable_ v => exact .fail c _ _
    | parameter p => exact .fail c _ _

end

end OpenSetting

def Aspect.table (v : Vocabulary) : Aspect Validator :=
  ⟨fun _ _ => True, v.Mentions⟩

theorem OpenSetting.convertTable_matches {h : HostOptions} {o : OpenSetting} (ho : o.Asks h)
    (v : Vocabulary) (t : TypeExpr) (scope : Scope) (origin : Option String) (l : LibraryNames) :
    Naming.Matches h v (.table v) l l (o.convertTable t scope origin)
      ((o.close v).convertTable t scope origin) := by
  let c : Context := ⟨scope, 0, false, none, origin <|> scope.file⟩
  have htype : Naming.Matches h v (.converted v) l l (o.convertType t c)
      ((o.close v).convertType t c) := convert_matches ho (follow_matches ho _) t c l
  refine htype.bindObject fun {_ _ _ fields _ notes _} _ ha => .pure (ha.map trivial ?_ ?_)
  · rintro ⟨⟩
    rfl
  · intro role hm
    have hkept : v.Keeps role (.object fields notes) := hm
    exact hkept.mentions

end PropTables
