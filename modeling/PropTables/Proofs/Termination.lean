import Mathlib.Logic.Function.Iterate
import PropTables.Proofs.Outcomes
import PropTables.Proofs.StarSearch

/-! Conversions come to an end where references lead to names of smaller rank, since these have no cycles.
The recursion through references is unrolled as often as it is allowed to go on, and so is the search
through modules that export everything of each other. What stands where the unrolled recursion would go
on makes no difference, so that nothing ever comes to it: the recursion ends by itself. -/

namespace PropTables

section Search

namespace Library

abbrev Search := List String → LoadedModule → Traced (List String × Option (LoadedModule × String))

def searchStep (l : Library) (name : String) (next : Search) : Search := fun seen m =>
  if seen.contains m.path then pure (seen, none)
  else match m.flat.export? name with
    | some e => pure (m.path :: seen, some (m, e.inner))
    | none =>
      if name = "default" then pure (m.path :: seen, none)
      else m.flat.stars.foldlM
        (fun found source =>
          if found.2.isSome then pure found
          else do
            match ← l.consult source m.flat.file with
            | .error _ => pure found
            | .ok target => next found.1 target)
        (m.path :: seen, none)

variable {l : Library} {name : String} {seen : List String} {m : LoadedModule}

theorem findExport_succ (depth : ℕ) :
    l.findExport name (depth + 1) = l.searchStep name (l.findExport name depth) := by
  funext seen m
  rfl

theorem subset_of_findExport {depth : ℕ} {found : List String × Option (LoadedModule × String)}
    (h : (l.findExport name depth seen m).result = .ok found) : seen ⊆ found.1 := by
  induction depth generalizing seen m found with
  | zero =>
    cases h
    exact List.Subset.refl _
  | succ depth ih =>
    unfold findExport at h
    split at h
    · cases h
      exact List.Subset.refl _
    split at h
    · cases h
      exact List.subset_cons_self _ _
    split at h
    · cases h
      exact List.subset_cons_self _ _
    have start : seen ⊆ m.path :: seen := List.subset_cons_self _ _
    refine Traced.foldlM_induction (P := fun found => seen ⊆ found.1) ?_ start h
    intro found source found' hfound hstep
    split at hstep
    · rw [Traced.pure_eq_ok] at hstep
      exact hstep ▸ hfound
    · rw [Traced.bind_eq_ok] at hstep
      obtain ⟨target, -, hstep⟩ := hstep
      cases target with
      | error e =>
        cases hstep
        exact hfound
      | ok target => exact List.Subset.trans hfound (ih hstep)

theorem searchStep_congr {next next' : Search}
    (grows : ∀ seen target found, (next seen target).result = .ok found → seen ⊆ found.1)
    (same : m.path ∉ seen → ∀ seen' target, m.path :: seen ⊆ seen' → target ∈ l.modules →
      next seen' target = next' seen' target) :
    l.searchStep name next seen m = l.searchStep name next' seen m := by
  unfold searchStep
  split
  next => rfl
  next hnew =>
    have hmem : m.path ∉ seen := by simpa using hnew
    split
    next => rfl
    split
    next => rfl
    have start : m.path :: seen ⊆ m.path :: seen := List.Subset.refl _
    -- What has been seen only grows along the stars, so that `same` applies at each of them.
    refine Traced.foldlM_congr (P := fun found => m.path :: seen ⊆ found.1) ?_ ?_ start
    · intro found source hfound
      split
      next => rfl
      next =>
        refine Traced.bind_congr fun target htarget => ?_
        cases target with
        | error e => rfl
        | ok target => exact same hmem found.1 target hfound (consult_eq_ok htarget)
    · intro found source found' hfound hstep
      split at hstep
      · rw [Traced.pure_eq_ok] at hstep
        exact hstep ▸ hfound
      · obtain ⟨target, -, hstep⟩ := Traced.bind_eq_ok.1 hstep
        cases target with
        | error e =>
          cases hstep
          exact hfound
        | ok target => exact List.Subset.trans hfound (grows _ _ _ hstep)

/-- The search is never nested deeper than there are modules that it has not seen. -/
theorem searchStep_iterate (stop : Search) {depth : ℕ} (hm : m ∈ l.modules)
    (hdepth : l.unseen seen < depth) :
    (l.searchStep name)^[depth] stop seen m = l.findExport name depth seen m := by
  induction depth generalizing seen m with
  | zero => exact absurd hdepth (Nat.not_lt_zero _)
  | succ depth ih =>
    rw [Function.iterate_succ_apply', findExport_succ]
    symm
    refine searchStep_congr (fun _ _ _ h => subset_of_findExport h) ?_
    intro hnew seen' target hseen htarget
    have hless : l.unseen seen' < l.unseen seen :=
      (unseen_le_of_subset hseen).trans_lt (unseen_cons_lt hm hnew)
    exact (ih htarget (by omega)).symm

end Library

end Search

section References

def TypeExpr.RefersBelow (rank : Option String → String → ℕ) (bound : ℕ) (scope : Scope)
    (t : TypeExpr) : Prop :=
  ∀ loc x b, t.Within (.reference loc [] x []) → scope.lookup x = some b →
    (∀ p, b.referent ≠ .parameter p) → rank b.file x < bound

namespace Setting

/-- The names of a module have ranks, by their file and as they are bound: an alias or interface a
greater one than the names its body refers to, and an import than the name it leads to. -/
structure Descends (s : Setting) (rank : Option String → String → ℕ) (m : Module) : Prop where
  typeAlias : ∀ name a, (name, ⟨.typeAlias a, m.file⟩) ∈ (Scope.ofModule m).base →
    a.right.RefersBelow rank (rank m.file name) ((Scope.ofModule m).withParams a.params)
  interface : ∀ name i, (name, ⟨.interface i, m.file⟩) ∈ (Scope.ofModule m).base →
    (TypeExpr.object i.body).RefersBelow rank (rank m.file name)
      ((Scope.ofModule m).withParams i.params)
  import_ : ∀ name i r inner, (name, ⟨.import_ i, m.file⟩) ∈ (Scope.ofModule m).base →
    (s.library.resolveImport i m.file).result = .ok r → (inner, r.binding) ∈ r.scope.base →
    rank r.binding.file inner < rank m.file name

def followStep (s : Setting) (next : Follow) : Follow := fun binding use c =>
  match binding.referent with
  | .typeAlias a => s.convert next a.right (c.body a.params)
  | .interface i => s.convertObject next i.body (c.body i.params)
  | .class_ k => s.convertClass k binding.file use c
  | .import_ i => s.followImport next i binding.file use c
  | .function f => c.fail (.function f.name) use.loc
  | .variable_ v => c.fail (.variable_ v.name) use.loc
  | .parameter p => c.fail (.typeParameter p.name) use.loc

def convertNodeBy (s : Setting) (follow : Follow) (n : Node) (c : Context) : Traced Converted :=
  match n with
  | .type t => s.convert follow t c
  | .indexer i => s.convertIndexer follow i c
  | n => s.convertNode n c

def convertFieldsBy (s : Setting) (follow : Follow) (n : Node) (c : Context) :
    Traced (List (Field Validator)) :=
  match n with
  | .member m => s.convertMember follow m c
  | n => s.convertFields n c

variable {s : Setting} {c : Context} {scope : Scope} {m m₀ : Module} {t : TypeExpr} {b : Binding}
  {name : String} {rank : Option String → String → ℕ}

theorem follow_succ (n : ℕ) : s.follow (n + 1) = s.followStep (s.follow n) := by
  funext b use c
  rfl

theorem mirrors_of_follows (s : Setting) {f g : Follow}
    (h : ∀ b use c, (f b use c).Agrees Failure.endless Eq (g b use c)) (t : TypeExpr) :
    s.Mirrors s f g Eq Failure.endless Eq t t := by
  refine convert_agrees .refl eq_congruence Eq.refl (fun loc name c c' hc => ?_) t
  subst hc
  exact convertName_agrees .refl eq_congruence Eq.refl rfl rfl fun b _ => h b _ c

/-- What stands where the unrolled recursion would go on matters only to what has no end. -/
theorem follow_agrees_iterate (s : Setting) (stop : Follow) (n : ℕ) (b : Binding) (use : Use)
    (c : Context) :
    (s.follow n b use c).Agrees Failure.endless Eq (s.followStep^[n] stop b use c) := by
  induction n generalizing b use c with
  | zero =>
    have hend : Failure.endless (.uncaught .endless) := rfl
    exact .lost hend _
  | succ n ih =>
    rw [Function.iterate_succ_apply', follow_succ]
    have hconvert := s.mirrors_of_follows ih
    obtain ⟨referent, file⟩ := b
    cases referent with
    | typeAlias a => exact hconvert a.right _ _ rfl
    | interface i => exact hconvert (.object i.body) _ _ rfl
    | import_ i =>
      have hresolve : (s.library.resolveImport i file).Agrees Failure.endless Eq
          (s.library.resolveImport i file) := Agree.refl Eq.refl _
      exact hresolve.bind fun r _ => ih _ _ _
    | class_ | function | variable_ | parameter => exact Agree.refl Eq.refl _

theorem convertNode_agrees_iterate (s : Setting) (stop : Follow) (n : Node) (c : Context) :
    (s.convertNode n c).Agrees Failure.endless Eq
      (s.convertNodeBy (s.followStep^[s.referenceBound c] stop) n c) := by
  have hconvert := s.mirrors_of_follows (s.follow_agrees_iterate stop (s.referenceBound c))
  cases n with
  | type t => exact hconvert t c c rfl
  | indexer i => exact convertIndexer_agrees .refl eq_congruence (hconvert i.value) rfl
  | member | call | other => exact Agree.refl Eq.refl _

theorem convertFields_agrees_iterate (s : Setting) (stop : Follow) (n : Node) (c : Context) :
    (s.convertFields n c).Agrees Failure.endless Eq
      (s.convertFieldsBy (s.followStep^[s.referenceBound c] stop) n c) := by
  have hconvert := s.mirrors_of_follows (s.follow_agrees_iterate stop (s.referenceBound c))
  cases n with
  | member m =>
    cases m with
    | property p => exact (hconvert p.value c.fieldValue _ rfl).map
    | spread p =>
      refine (hconvert p.argument c.spread _ rfl).bind fun v _ => ?_
      exact Agree.refl Eq.refl _
  | type | indexer | call | other => exact Agree.refl Eq.refl _

def Involves (s : Setting) (m₀ m : Module) : Prop :=
  s.library.Offers m ∨ m = m₀

structure StandsIn (s : Setting) (m₀ m : Module) (scope : Scope) : Prop where
  involves : s.Involves m₀ m
  built : scope.Built
  root : scope.root = .ofModule m

theorem StandsIn.withParams (h : s.StandsIn m₀ m scope) (params : List TypeParameter) :
    s.StandsIn m₀ m (scope.root.withParams params) := by
  refine ⟨h.involves, ?_, ?_⟩
  · rw [h.root]
    exact .withParams (.ofModule m) params
  · rw [Scope.root_withParams, Scope.root_root, h.root]

theorem StandsIn.lookup_cases (h : s.StandsIn m₀ m scope) (hb : scope.lookup name = some b) :
    (∃ p, b.referent = .parameter p) ∨ (name, b) ∈ (Scope.ofModule m).base := by
  rcases Scope.lookup_cases hb with ⟨f, hf, hmem⟩ | hb
  · exact .inl (h.built.inner f hf _ hmem)
  · rw [h.root] at hb
    exact .inr (Scope.mem_base_of_lookup rfl hb)

theorem acc_of_names (h : ∀ loc x b, t.Within (.reference loc [] x []) → scope.lookup x = some b →
    Acc (fun y x => s.Unfolds x y) (.binding b scope.root)) :
    Acc (fun y x => s.Unfolds x y) (.type t scope) := by
  induction t using TypeExpr.child_induction with
  | step t ih =>
    refine ⟨_, fun y hy => ?_⟩
    cases hy with
    | part hp => exact ih _ hp.child fun loc x b hx => h loc x b (.head hp.child hx)
    | lookup hb => exact h _ _ _ .refl hb

theorem acc_of_parameter {p : TypeParameter} (hb : b.referent = .parameter p) :
    Acc (fun y x => s.Unfolds x y) (.binding b scope) := by
  obtain ⟨referent, file⟩ := b
  cases hb
  exact ⟨_, nofun⟩

theorem acc_of_ranks (hl : s.library.Faithful)
    (hdescends : ∀ m, s.Involves m₀ m → s.Descends rank m) (hs : s.StandsIn m₀ m scope)
    (hb : (name, b) ∈ (Scope.ofModule m).base) :
    Acc (fun y x => s.Unfolds x y) (.binding b scope.root) := by
  induction hrank : rank b.file name using Nat.strong_induction_on generalizing m scope name b with
  | _ rank₀ ih =>
    obtain ⟨referent, file⟩ := b
    obtain rfl : file = m.file := Scope.file_of_mem_ofModule hb
    have hranks := hdescends m hs.involves
    have body (t : TypeExpr) (params : List TypeParameter)
        (ht : t.RefersBelow rank (rank m.file name) ((Scope.ofModule m).withParams params)) :
        Acc (fun y x => s.Unfolds x y) (.type t (scope.root.root.withParams params)) := by
      have hstands : s.StandsIn m₀ m (scope.root.withParams params) := hs.withParams params
      rw [Scope.root_root]
      refine acc_of_names fun loc x b hx hb' => ?_
      -- a parameter has no rank, and leads nowhere
      by_cases hparam : ∃ p, b.referent = .parameter p
      · exact acc_of_parameter hparam.choose_spec
      · have hmem := (hstands.lookup_cases hb').resolve_left hparam
        rw [hs.root] at hb'
        have hless := ht loc x b hx hb' fun p hp => hparam ⟨p, hp⟩
        exact ih _ (hrank ▸ hless) hstands hmem rfl
    refine ⟨_, fun y hy => ?_⟩
    cases hy with
    | typeAlias => exact body _ _ (hranks.typeAlias name _ hb)
    | interface => exact body _ _ (hranks.interface name _ hb)
    | import_ hr =>
      obtain ⟨m', inner, hoffers, hscope, hmem⟩ := Library.resolveImport_eq_ok hl hr
      have hless := hranks.import_ name _ _ inner hb hr hmem
      rw [hscope] at hmem
      have hstands : s.StandsIn m₀ m' (.ofModule m') := ⟨.inl hoffers, .ofModule m', rfl⟩
      have hacc := ih _ (hrank ▸ hless) hstands hmem rfl
      rw [hscope]
      exact hacc

theorem cycleFree_of_ranks (hl : s.library.Faithful)
    (hdescends : ∀ m, s.Involves m₀ m → s.Descends rank m) (hs : s.StandsIn m₀ m scope)
    (t : TypeExpr) : s.CycleFree (.type t scope) := by
  refine .of_acc (acc_of_names fun loc x b _ hb => ?_)
  rcases hs.lookup_cases hb with ⟨p, hp⟩ | hmem
  · exact acc_of_parameter hp
  · exact acc_of_ranks hl hdescends hs hmem

theorem Outcome.not_exhausts {α : Type} {r : Except Failure α} (h : s.Outcome r) : ¬ Exhausts r := by
  intro hr
  cases h <;> cases hr

theorem not_exhausts_convertNode (hl : s.library.Faithful) (hbuilt : c.scope.Built)
    (hfree : ∀ t, s.CycleFree (.type t c.scope)) (n : Node) :
    ¬ Exhausts (s.convertNode n c).result := by
  by_cases hn : ∃ form loc, n = .other form loc
  · obtain ⟨form, loc, rfl⟩ := hn
    exact not_exhausts_fail
  · have hnot : ∀ form loc, n ≠ .other form loc := fun form loc h => hn ⟨form, loc, h⟩
    exact (outcome_convertNode hl hnot hbuilt fun t _ => hfree t).not_exhausts

theorem not_exhausts_convertFields (hl : s.library.Faithful) (hbuilt : c.scope.Built)
    (hfree : ∀ t, s.CycleFree (.type t c.scope)) (n : Node) :
    ¬ Exhausts (s.convertFields n c).result := by
  have hroams : s.Roams c c := roams_self hbuilt
  cases n with
  | member m =>
    cases m with
    | property p =>
      have hvalue := outcome_convert (c := c.fieldValue) hl (hfree p.value)
        (Roams.congruence.fieldValue ⟨rfl, hroams⟩).2
      exact (hvalue.bind fun v => .value _).not_exhausts
    | spread p =>
      have hvalue := outcome_convert (c := c.spread) hl (hfree p.argument)
        (Roams.congruence.spread ⟨rfl, hroams⟩).2
      refine (hvalue.bind fun v => ?_).not_exhausts
      split
      · exact .value _
      · exact .error trivial
  | type | indexer | call | other => exact not_exhausts_fail

/-- Where references and imports lead to names of smaller rank, every conversion comes to an end, whatever
cycles the modules form: no references lead on without end. They are never followed as often in a row as
they may be at most, and the search for an export is never nested as deep, so that it makes no difference
what would come then. -/
theorem convert_terminates (s : Setting) (hl : s.library.Faithful) (modules : List Module)
    (rank : Option String → String → ℕ) (hdescends : ∀ m ∈ modules, s.Descends rank m)
    (hlibrary : ∀ m, s.library.Offers m → m ∈ modules) (c : Context) (hbuilt : c.scope.Built)
    (hroot : ∃ m ∈ modules, c.scope.root = .ofModule m) :
    (∀ (stop : Follow) (n : Node),
      (s.convertNodeBy (s.followStep^[s.referenceBound c] stop) n c).result =
          (s.convertNode n c).result ∧
        (s.convertFieldsBy (s.followStep^[s.referenceBound c] stop) n c).result =
          (s.convertFields n c).result) ∧
    (∀ n : Node, (s.convertNode n c).result ≠ .error (.uncaught .endless) ∧
      (s.convertFields n c).result ≠ .error (.uncaught .endless)) ∧
    ∀ (stop : Library.Search) (name : String) (m : LoadedModule), m ∈ s.library.modules →
      (s.library.searchStep name)^[s.library.modules.length + 1] stop [] m =
        s.library.findExport name (s.library.modules.length + 1) [] m := by
  obtain ⟨m₀, hm₀, hroot⟩ := hroot
  have hall : ∀ m, s.Involves m₀ m → s.Descends rank m := by
    rintro m (h | rfl)
    · exact hdescends m (hlibrary m h)
    · exact hdescends m hm₀
  have hfree : ∀ t, s.CycleFree (.type t c.scope) :=
    cycleFree_of_ranks hl hall ⟨.inr rfl, hbuilt, hroot⟩
  have hnode := not_exhausts_convertNode hl hbuilt hfree
  have hfields := not_exhausts_convertFields hl hbuilt hfree
  refine ⟨fun stop n => ⟨?_, ?_⟩, fun n => ⟨hnode n, hfields n⟩, fun stop name m hm => ?_⟩
  · have hagrees := s.convertNode_agrees_iterate stop n c
    exact (hagrees.of_exhausts fun h => absurd h (hnode n)).eq.symm
  · have hagrees := s.convertFields_agrees_iterate stop n c
    exact (hagrees.of_exhausts fun h => absurd h (hfields n)).eq.symm
  · exact Library.searchStep_iterate stop hm (Nat.lt_succ_of_le Library.unseen_nil_le)

def areaModule : Module :=
  ⟨[.exportAll ⟨1, 1⟩ (.ofString "./room"),
    .statement (.import_ ⟨⟨2, 1⟩, .ofString "./room", .type,
      [⟨⟨2, 15⟩, "Room", some "Room", .ofString "./room", .type⟩]⟩),
    .exportDeclaration ⟨3, 1⟩ (.typeAlias ⟨⟨3, 8⟩, "House", [], .reference ⟨3, 21⟩ [] "Room" []⟩),
    .exportDeclaration ⟨4, 1⟩ (.typeAlias ⟨⟨4, 8⟩, "Area", [], .primitive ⟨4, 20⟩ .number⟩)],
    some "/src/area.js"⟩

def roomModule : Module :=
  ⟨[.exportAll ⟨1, 1⟩ (.ofString "./area"),
    .exportNamed ⟨⟨2, 1⟩, [⟨⟨2, 10⟩, "Area", "Size"⟩], some (.ofString "./area"), .value⟩,
    .exportDeclaration ⟨3, 1⟩ (.typeAlias ⟨⟨3, 8⟩, "Room", [], .reference ⟨3, 20⟩ [] "Size" []⟩)],
    some "/src/room.js"⟩

def houseLibrary : Library :=
  .ofModules [("/src/area.js", areaModule), ("/src/room.js", roomModule)]

def houseSetting : Setting :=
  ⟨.default, .default, houseLibrary⟩

def houseRank (file : Option String) (name : String) : ℕ :=
  if file = some "/src/area.js" then
    if name = "House" then 4 else if name = "Room" then 3 else 0
  else if name = "Room" then 2 else 1

theorem houseLibrary_faithful : houseLibrary.Faithful := by
  refine .ofHoldings (.ofModules fun m hm => ?_)
  rcases List.mem_pair.1 hm with rfl | rfl
  · rfl
  · rfl

theorem houseLibrary_offers {m : Module} (h : houseLibrary.Offers m) :
    m ∈ [areaModule, roomModule] := by
  obtain ⟨path, -, hm⟩ := h
  obtain ⟨e, he, hsource⟩ := Library.mem_ofModules hm
  rcases List.mem_pair.1 he with rfl | rfl
  · exact List.mem_pair.2 (.inl (congrArg LoadedModule.source hsource))
  · exact List.mem_pair.2 (.inr (congrArg LoadedModule.source hsource))

theorem refersBelow_of_name {bound : ℕ} {loc : Position} {x : String}
    (h : ∀ b, scope.lookup x = some b → rank b.file x < bound) :
    (TypeExpr.reference loc [] x []).RefersBelow rank bound scope := by
  intro loc' y b hy hb _
  rcases hy.cases_head with heq | ⟨u, hu, _⟩
  · cases heq
    exact h b hb
  · cases hu with
    | argument ht => cases ht

theorem refersBelow_primitive {bound : ℕ} {loc : Position} {p : Primitive} :
    (TypeExpr.primitive loc p).RefersBelow rank bound scope := by
  intro loc' y b hy
  rcases hy.cases_head with heq | ⟨u, hu, _⟩
  · cases heq
  · cases hu

theorem mem_base_areaModule {e : String × Binding} (h : e ∈ (Scope.ofModule areaModule).base) :
    e = ("Room", ⟨.import_ ⟨⟨2, 15⟩, "Room", some "Room", .ofString "./room", .type⟩,
      areaModule.file⟩) ∨
    e = ("House", ⟨.typeAlias ⟨⟨3, 8⟩, "House", [], .reference ⟨3, 21⟩ [] "Room" []⟩,
      areaModule.file⟩) ∨
    e = ("Area", ⟨.typeAlias ⟨⟨4, 8⟩, "Area", [], .primitive ⟨4, 20⟩ .number⟩, areaModule.file⟩) := by
  change e ∈ [_, _, _] at h
  simp only [List.mem_cons, List.not_mem_nil, or_false] at h
  exact h

theorem mem_base_roomModule {e : String × Binding} (h : e ∈ (Scope.ofModule roomModule).base) :
    e = ("Size", ⟨.import_ ⟨⟨2, 10⟩, "Size", some "Area", .ofString "./area", .value⟩,
      roomModule.file⟩) ∨
    e = ("Room", ⟨.typeAlias ⟨⟨3, 8⟩, "Room", [], .reference ⟨3, 20⟩ [] "Size" []⟩,
      roomModule.file⟩) := by
  change e ∈ [_, _] at h
  simp only [List.mem_cons, List.not_mem_nil, or_false] at h
  exact h

theorem descends_areaModule : houseSetting.Descends houseRank areaModule := by
  constructor
  · intro name a h
    rcases mem_base_areaModule h with h | h | h <;> cases h
    · refine refersBelow_of_name fun b hb => ?_
      cases hb
      decide
    · exact refersBelow_primitive
  · intro name i h
    rcases mem_base_areaModule h with h | h | h <;> cases h
  · intro name i r inner h hr hinner
    rcases mem_base_areaModule h with h | h | h <;> cases h
    cases hr
    cases Scope.name?_of_mem_ofModule hinner
    decide

theorem descends_roomModule : houseSetting.Descends houseRank roomModule := by
  constructor
  · intro name a h
    rcases mem_base_roomModule h with h | h <;> cases h
    refine refersBelow_of_name fun b hb => ?_
    cases hb
    decide
  · intro name i h
    rcases mem_base_roomModule h with h | h <;> cases h
  · intro name i r inner h hr hinner
    rcases mem_base_roomModule h with h | h <;> cases h
    cases hr
    cases Scope.name?_of_mem_ofModule hinner
    decide

theorem convert_terminates_house :
    let c : Context := ⟨.ofModule areaModule, 0, false, none, some "/src/area.js"⟩
    let n : Node := .type (.reference ⟨5, 1⟩ [] "House" [])
    houseLibrary.Faithful ∧ (∀ m ∈ [areaModule, roomModule], houseSetting.Descends houseRank m) ∧
      (∀ m, houseLibrary.Offers m → m ∈ [areaModule, roomModule]) ∧ c.scope.Built ∧
      (∃ m ∈ [areaModule, roomModule], c.scope.root = .ofModule m) ∧
      houseLibrary.Star (.ofModule "/src/area.js" areaModule) (.ofModule "/src/room.js" roomModule) ∧
      houseLibrary.Star (.ofModule "/src/room.js" roomModule) (.ofModule "/src/area.js" areaModule) ∧
      (houseSetting.convertNode n c).result.toOption.isSome ∧
      ∀ stop : Follow, (houseSetting.convertNodeBy
        (houseSetting.followStep^[houseSetting.referenceBound c] stop) n c).result =
          (houseSetting.convertNode n c).result := by
  intro c n
  have hdescends : ∀ m ∈ [areaModule, roomModule], houseSetting.Descends houseRank m := by
    intro m hm
    simp only [List.mem_cons, List.not_mem_nil, or_false] at hm
    rcases hm with rfl | rfl
    · exact descends_areaModule
    · exact descends_roomModule
  have hoffers : ∀ m, houseLibrary.Offers m → m ∈ [areaModule, roomModule] :=
    fun m => houseLibrary_offers
  have hbuilt : c.scope.Built := .ofModule areaModule
  have hroot : ∃ m ∈ [areaModule, roomModule], c.scope.root = .ofModule m :=
    ⟨areaModule, List.mem_cons_self, rfl⟩
  have hends := convert_terminates houseSetting houseLibrary_faithful [areaModule, roomModule] houseRank
    hdescends hoffers c hbuilt hroot
  refine ⟨houseLibrary_faithful, hdescends, hoffers, hbuilt, hroot, ?_, ?_, rfl,
    fun stop => (hends.1 stop n).1⟩
  · exact ⟨.ofString "./room", List.mem_cons_self, rfl⟩
  · exact ⟨.ofString "./area", List.mem_cons_self, rfl⟩

end Setting

end References

end PropTables
