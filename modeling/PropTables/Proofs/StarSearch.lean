import Mathlib.Logic.Relation
import PropTables.Proofs.Imports

/-! The search for an export through the modules that a module exports everything of. Whatever cycles
they form, it visits each module once, depth first and in the order of the sources, and stops at the
first with an entry of its own for the name. -/

namespace PropTables

def LoadedModule.ownExport? (m : LoadedModule) (name : String) : Option (LoadedModule × String) :=
  (m.flat.export? name).map fun e => (m, e.inner)

namespace Library

def starTarget? (l : Library) (m : LoadedModule) (source : Text) : Option LoadedModule :=
  match l.load source m.flat.file with
  | .ok (.ok target) => some target
  | _ => none

def starTargets (l : Library) (m : LoadedModule) : List LoadedModule :=
  m.flat.stars.filterMap (l.starTarget? m)

def Star (l : Library) (m t : LoadedModule) : Prop :=
  ∃ source ∈ m.flat.stars, l.load source m.flat.file = .ok (.ok t)

/-- The depth-first traversal of a list of modules in their order. Each module that has not been seen
comes before those it exports everything of, and these come before the next one of the list. -/
inductive Tour (l : Library) : (seen : List String) → List LoadedModule → List LoadedModule → Prop
  | nil : Tour l seen [] []
  | skip (h : m.path ∈ seen) (hrest : Tour l seen ms order) : Tour l seen (m :: ms) order
  | visit (h : m.path ∉ seen) (hbelow : Tour l (m.path :: seen) (l.starTargets m) below)
    (hrest : Tour l ((below.map LoadedModule.path).reverse ++ m.path :: seen) ms rest) :
    Tour l seen (m :: ms) (m :: below ++ rest)

def unseen (l : Library) (seen : List String) : Nat :=
  (l.modules.filter fun m => m.path ∉ seen).length

def Breaks (l : Library) (r : LoadedModule) (a : LoadAbort) : Prop :=
  ∃ m source, Relation.ReflTransGen l.Star r m ∧ source ∈ m.flat.stars ∧
    l.load source m.flat.file = .error a

section

variable {l : Library} {r m t : LoadedModule} {ms order : List LoadedModule} {seen : List String}

theorem mem_starTargets : t ∈ l.starTargets m ↔ l.Star m t := by
  rw [starTargets, Star, List.mem_filterMap]
  refine exists_congr fun source => and_congr_right fun _ => ?_
  unfold starTarget?
  split
  next h => simp [h]
  next h => simpa using h t

theorem Star.mem_modules (h : l.Star m t) : t ∈ l.modules := by
  obtain ⟨source, _, hload⟩ := h
  exact l.mem_modules hload

theorem unseen_le_of_subset {seen' : List String} (h : seen ⊆ seen') :
    l.unseen seen' ≤ l.unseen seen := by
  refine (List.monotone_filter_right _ fun m hm => ?_).length_le
  simp only [decide_eq_true_eq] at hm ⊢
  exact fun hs => hm (h hs)

theorem unseen_cons_lt (hm : m ∈ l.modules) (h : m.path ∉ seen) :
    l.unseen (m.path :: seen) < l.unseen seen := by
  have hsub : (l.modules.filter fun m' => m'.path ∉ m.path :: seen).Sublist
      (l.modules.filter fun m' => m'.path ∉ seen) :=
    List.monotone_filter_right _ fun m' hm' => by
      simp only [decide_eq_true_eq, List.mem_cons, not_or] at hm' ⊢
      exact hm'.2
  refine lt_of_le_of_ne hsub.length_le fun heq => ?_
  have hmem : m ∈ l.modules.filter fun m' => m'.path ∉ seen :=
    List.mem_filter.2 ⟨hm, by simpa using h⟩
  rw [← hsub.eq_of_length heq] at hmem
  simpa using (List.mem_filter.1 hmem).2

theorem unseen_nil_le : l.unseen [] ≤ l.modules.length :=
  List.length_filter_le _ _

theorem exists_tour (seen : List String) (ms : List LoadedModule) (h : ∀ m ∈ ms, m ∈ l.modules) :
    ∃ order, l.Tour seen ms order := by
  -- The modules of a library are finitely many, so that a traversal comes to an end.
  induction hn : l.unseen seen using Nat.strong_induction_on generalizing seen ms with
  | _ n ih =>
    induction ms with
    | nil => exact ⟨[], .nil⟩
    | cons m ms ihs =>
      have hm := h m List.mem_cons_self
      have hms : ∀ m ∈ ms, m ∈ l.modules := fun m hm => h m (List.mem_cons_of_mem _ hm)
      by_cases hs : m.path ∈ seen
      · obtain ⟨order, ho⟩ := ihs hms
        exact ⟨order, .skip hs ho⟩
      · have hlt := hn ▸ unseen_cons_lt hm hs
        obtain ⟨below, hbelow⟩ :=
          ih _ hlt _ (l.starTargets m) (fun t ht => (mem_starTargets.1 ht).mem_modules) rfl
        have hle : l.unseen ((below.map LoadedModule.path).reverse ++ m.path :: seen) ≤
            l.unseen (m.path :: seen) := unseen_le_of_subset (List.subset_append_right _ _)
        obtain ⟨rest, hrest⟩ := ih _ (hle.trans_lt hlt) _ ms hms rfl
        exact ⟨_, .visit hs hbelow hrest⟩

theorem Tour.unique {order' : List LoadedModule} (h : l.Tour seen ms order)
    (h' : l.Tour seen ms order') : order' = order := by
  induction h generalizing order' with
  | nil =>
    cases h'
    rfl
  | skip hs _ ih =>
    cases h' with
    | skip _ hrest => exact ih hrest
    | visit hs' => exact absurd hs hs'
  | visit hs _ _ ihb ihr =>
    cases h' with
    | skip hs' => exact absurd hs' hs
    | visit _ hbelow hrest =>
      obtain rfl := ihb hbelow
      rw [ihr hrest]

theorem Tour.reaches (h : l.Tour seen ms order) (ht : t ∈ order) :
    ∃ m ∈ ms, Relation.ReflTransGen l.Star m t := by
  induction h with
  | nil => simp at ht
  | @skip _ m ms _ _ _ ih =>
    obtain ⟨m', hm', hr⟩ := ih ht
    exact ⟨m', List.mem_cons_of_mem _ hm', hr⟩
  | @visit _ m _ ms _ _ _ _ ihb ihr =>
    rw [List.cons_append, List.mem_cons, List.mem_append] at ht
    rcases ht with rfl | ht | ht
    · exact ⟨t, List.mem_cons_self, .refl⟩
    · obtain ⟨m', hm', hr⟩ := ihb ht
      exact ⟨m, List.mem_cons_self, .head (mem_starTargets.1 hm') hr⟩
    · obtain ⟨m', hm', hr⟩ := ihr ht
      exact ⟨m', List.mem_cons_of_mem _ hm', hr⟩

theorem Tour.closed (h : l.Tour seen ms order) :
    (∀ m ∈ ms, m.path ∈ seen ∨ m.path ∈ order.map LoadedModule.path) ∧
      ∀ m ∈ order, ∀ t, l.Star m t → t.path ∈ seen ∨ t.path ∈ order.map LoadedModule.path := by
  induction h with
  | nil => simp
  | skip hs _ ih =>
    refine ⟨fun m hm => ?_, ih.2⟩
    rcases List.mem_cons.1 hm with rfl | hm
    · exact .inl hs
    · exact ih.1 m hm
  | @visit seen m below ms rest hs _ _ ihb ihr =>
    -- what the tour below the module or the rest has seen is seen in the whole
    have whole (path : String)
        (h : path ∈ (below.map LoadedModule.path).reverse ++ m.path :: seen ∨
          path ∈ rest.map LoadedModule.path) :
        path ∈ seen ∨ path ∈ (m :: below ++ rest).map LoadedModule.path := by
      simp only [List.mem_append, List.mem_reverse, List.mem_cons, List.map_append,
        List.map_cons] at h ⊢
      tauto
    have inner (path : String)
        (h : path ∈ m.path :: seen ∨ path ∈ below.map LoadedModule.path) :
        path ∈ seen ∨ path ∈ (m :: below ++ rest).map LoadedModule.path := by
      simp only [List.mem_append, List.mem_cons, List.map_append, List.map_cons] at h ⊢
      tauto
    refine ⟨fun m' hm' => ?_, fun m' hm' t ht => ?_⟩
    · rcases List.mem_cons.1 hm' with rfl | hm'
      · exact .inr (by simp)
      · exact whole _ (ihr.1 m' hm')
    · rw [List.cons_append, List.mem_cons, List.mem_append] at hm'
      rcases hm' with rfl | hm' | hm'
      · exact inner _ (ihb.1 t (mem_starTargets.2 ht))
      · exact inner _ (ihb.2 m' hm' t ht)
      · exact whole _ (ihr.2 m' hm' t ht)

/-- A traversal from one module visits exactly what can be reached from it. -/
theorem Tour.mem_iff (h : l.Tour [] [r] order) (hl : l.PathsApart) (hr : r ∈ l.modules) :
    t ∈ order ↔ Relation.ReflTransGen l.Star r t := by
  constructor
  · intro ht
    obtain ⟨m, hm, hreach⟩ := h.reaches ht
    cases List.mem_singleton.1 hm
    exact hreach
  · intro hreach
    have visited : ∀ m ∈ l.modules, m.path ∈ order.map LoadedModule.path → m ∈ order := by
      intro m hm hpath
      obtain ⟨m', hm', heq⟩ := List.mem_map.1 hpath
      obtain ⟨_, hstart, hr'⟩ := h.reaches hm'
      cases List.mem_singleton.1 hstart
      have hhas : m' ∈ l.modules := by
        rcases Relation.ReflTransGen.cases_tail hr' with rfl | ⟨_, _, hstar⟩
        · exact hr
        · exact hstar.mem_modules
      exact hl m' hhas m hm heq ▸ hm'
    obtain ⟨first, next⟩ := h.closed
    induction hreach with
    | refl => exact visited r hr ((first r List.mem_cons_self).resolve_left List.not_mem_nil)
    | tail _ hstar ih =>
      exact visited _ hstar.mem_modules ((next _ ih _ hstar).resolve_left List.not_mem_nil)

end

section

variable {l : Library} {r m : LoadedModule} {ms order : List LoadedModule} {seen : List String}
  {name : String}

def searchModule (l : Library) (name : String) (depth : Nat)
    (found : List String × Option (LoadedModule × String)) (t : LoadedModule) :
    Traced (List String × Option (LoadedModule × String)) :=
  if found.2.isSome then pure found else l.findExport name depth found.1 t

def searchSource (l : Library) (name : String) (depth : Nat) (m : LoadedModule)
    (found : List String × Option (LoadedModule × String)) (source : Text) :
    Traced (List String × Option (LoadedModule × String)) :=
  if found.2.isSome then pure found
  else do
    match ← l.consult source m.flat.file with
    | .error _ => pure found
    | .ok target => l.findExport name depth found.1 target

theorem findExport_of_mem (depth : Nat) (h : m.path ∈ seen) :
    l.findExport name (depth + 1) seen m = pure (seen, none) := by
  rw [findExport, if_pos (List.contains_iff_mem.2 h)]

theorem findExport_of_not_mem (depth : Nat) (h : m.path ∉ seen) :
    l.findExport name (depth + 1) seen m =
      if (m.ownExport? name).isSome ∨ name = "default" then pure (m.path :: seen, m.ownExport? name)
      else m.flat.stars.foldlM (l.searchSource name depth m) (m.path :: seen, none) := by
  rw [findExport, if_neg (by simpa using h), LoadedModule.ownExport?]
  cases m.flat.export? name with
  | some e => simp
  | none =>
    by_cases hd : name = "default"
    · simp [hd]
    · rw [if_neg hd, Option.map_none, if_neg (by simp [hd])]
      rfl

theorem searchSource_result (depth : Nat) (found : List String × Option (LoadedModule × String))
    (source : Text) :
    (l.searchSource name depth m found source).result =
      ((l.starTarget? m source).toList.foldlM (l.searchModule name depth) found).result ∨
    ∃ a, l.load source m.flat.file = .error a ∧
      (l.searchSource name depth m found source).result = .error (.uncaught (.load a)) := by
  unfold searchSource starTarget? searchModule consult
  by_cases hf : found.2.isSome
  · left
    rw [if_pos hf]
    split <;> simp [hf]
  · cases hload : l.load source m.flat.file with
    | error a => exact .inr ⟨a, rfl, by rw [if_neg hf]; rfl⟩
    | ok loaded =>
      left
      cases loaded with
      | error e => simp [hf]
      | ok t =>
        rw [if_neg hf, Option.toList_some, List.foldlM_cons, if_neg hf, Traced.result_bind,
          Traced.result_bind]
        change (l.findExport name depth found.1 t).result =
          (l.findExport name depth found.1 t).result >>= .ok
        cases (l.findExport name depth found.1 t).result <;> rfl

theorem searchSource_foldlM (depth : Nat) (m : LoadedModule) (sources : List Text)
    (found : List String × Option (LoadedModule × String)) :
    (sources.foldlM (l.searchSource name depth m) found).result =
      ((sources.filterMap (l.starTarget? m)).foldlM (l.searchModule name depth) found).result ∨
    ∃ a, ∃ source ∈ sources, l.load source m.flat.file = .error a ∧
      (sources.foldlM (l.searchSource name depth m) found).result = .error (.uncaught (.load a)) := by
  induction sources generalizing found with
  | nil => exact .inl rfl
  | cons source sources ih =>
    rw [List.filterMap_eq_flatMap_toList, List.flatMap_cons, List.foldlM_append,
      ← List.filterMap_eq_flatMap_toList, List.foldlM_cons, Traced.result_bind, Traced.result_bind]
    rcases searchSource_result depth found source with h | ⟨f, hload, h⟩
    · rw [h]
      cases ((l.starTarget? m source).toList.foldlM (l.searchModule name depth) found).result with
      | error e => exact .inl rfl
      | ok found' =>
        rcases ih found' with hrest | ⟨f, s, hs, hload, hrest⟩
        · exact .inl hrest
        · exact .inr ⟨f, s, List.mem_cons_of_mem _ hs, hload, hrest⟩
    · rw [h]
      exact .inr ⟨f, source, List.mem_cons_self, hload, rfl⟩

/-- What a search has come to that followed a traversal: the first entry for the name, and the modules
seen if there was none. Otherwise it has met a load that ends everything. -/
def Ends (l : Library) (name : String) (r : LoadedModule) (seen : List String)
    (order : List LoadedModule)
    (result : Except Failure (List String × Option (LoadedModule × String))) : Prop :=
  (∃ found, result = .ok found ∧ found.2 = order.findSome? (·.ownExport? name) ∧
    (found.2 = none → found.1 = (order.map LoadedModule.path).reverse ++ seen)) ∨
  ∃ a, l.Breaks r a ∧ result = .error (.uncaught (.load a))

theorem searchModule_foldlM_of_found (depth : Nat) {found : List String × Option (LoadedModule × String)}
    (h : found.2.isSome) (ms : List LoadedModule) :
    (ms.foldlM (l.searchModule name depth) found).result = .ok found := by
  induction ms with
  | nil => rfl
  | cons m ms ih =>
    rw [List.foldlM_cons, searchModule, if_pos h]
    exact ih

section

variable {rest : List LoadedModule}
  {x : Except Failure (List String × Option (LoadedModule × String))}
  {y : List String × Option (LoadedModule × String) →
    Except Failure (List String × Option (LoadedModule × String))}

theorem Ends.cons (hm : m.ownExport? name = none) (hx : l.Ends name r (m.path :: seen) order x) :
    l.Ends name r seen (m :: order) x := by
  rcases hx with ⟨found, hfound, hfirst, hseen⟩ | hbreak
  · refine .inl ⟨found, hfound, ?_, fun h => ?_⟩
    · rw [List.findSome?_cons, hm, hfirst]
    · simpa using hseen h
  · exact .inr hbreak

theorem Ends.followed (hx : l.Ends name r seen order x)
    (found : ∀ a, a.2.isSome → y a = .ok a)
    (hy : l.Ends name r ((order.map LoadedModule.path).reverse ++ seen) rest
      (y ((order.map LoadedModule.path).reverse ++ seen, none))) :
    l.Ends name r seen (order ++ rest) (x >>= y) := by
  rcases hx with ⟨a, rfl, hfirst, hseen⟩ | ⟨f, hf, rfl⟩
  · change l.Ends name r seen (order ++ rest) (y a)
    cases hnone : a.2 with
    | some entry =>
      refine .inl ⟨a, found a (by simp [hnone]), ?_, fun h => by simp [hnone] at h⟩
      rw [List.findSome?_append, ← hfirst, hnone, Option.some_or]
    | none =>
      obtain rfl : a = (_, none) := Prod.ext (hseen hnone) hnone
      rcases hy with ⟨b, hb, hlast, hseen⟩ | hbreak
      · refine .inl ⟨b, hb, ?_, fun h => ?_⟩
        · rw [List.findSome?_append, ← hfirst, Option.none_or, hlast]
        · simpa using hseen h
      · exact .inr hbreak
  · exact .inr ⟨f, hf, rfl⟩

end

/-- The search follows the traversal, if it may be nested as deep as there are modules left. -/
theorem Tour.search (hname : name ≠ "default") (h : l.Tour seen ms order) {depth : Nat}
    (hdepth : l.unseen seen < depth)
    (hms : ∀ m ∈ ms, m ∈ l.modules ∧ Relation.ReflTransGen l.Star r m) :
    l.Ends name r seen order (ms.foldlM (l.searchModule name depth) (seen, none)).result := by
  induction h generalizing depth with
  | nil => exact .inl ⟨_, rfl, rfl, fun _ => rfl⟩
  | @skip seen m ms order hs _ ih =>
    obtain ⟨depth, rfl⟩ : ∃ d, depth = d + 1 := ⟨depth - 1, by omega⟩
    rw [List.foldlM_cons, searchModule, if_neg (by simp), findExport_of_mem depth hs]
    exact ih hdepth fun m hm => hms m (List.mem_cons_of_mem _ hm)
  | @visit seen m below ms rest hs _ _ ihb ihr =>
    obtain ⟨depth, rfl⟩ : ∃ d, depth = d + 1 := ⟨depth - 1, by omega⟩
    obtain ⟨hm, hreach⟩ := hms m List.mem_cons_self
    have hlt := unseen_cons_lt hm hs
    have hbelow := @ihb depth (by omega) fun t ht =>
      ⟨(mem_starTargets.1 ht).mem_modules, hreach.tail (mem_starTargets.1 ht)⟩
    -- The module itself comes first, then what is below it; both are found within one call.
    have first : l.Ends name r seen (m :: below) (l.findExport name (depth + 1) seen m).result := by
      rw [findExport_of_not_mem depth hs]
      cases hentry : m.ownExport? name with
      | some entry =>
        rw [if_pos (by simp)]
        exact .inl ⟨_, rfl, by rw [List.findSome?_cons, hentry], nofun⟩
      | none =>
        rw [if_neg (by simp [hname])]
        rcases searchSource_foldlM depth m m.flat.stars (m.path :: seen, none)
          with hstars | ⟨f, source, hsource, hload, hstars⟩
        · rw [hstars]
          exact .cons hentry hbelow
        · exact .inr ⟨f, ⟨m, source, hreach, hsource, hload⟩, hstars⟩
    -- The rest is searched at the same depth, with all of these modules seen.
    have hrest : l.Ends name r (((m :: below).map LoadedModule.path).reverse ++ seen) rest
        (ms.foldlM (l.searchModule name (depth + 1))
          (((m :: below).map LoadedModule.path).reverse ++ seen, none)).result := by
      have hseen : ((m :: below).map LoadedModule.path).reverse ++ seen =
          (below.map LoadedModule.path).reverse ++ m.path :: seen := by simp
      rw [hseen]
      refine ihr ?_ fun m hm => hms m (List.mem_cons_of_mem _ hm)
      exact (unseen_le_of_subset (List.subset_append_right _ _)).trans_lt (by omega)
    rw [List.foldlM_cons, searchModule, if_neg (by simp), Traced.result_bind]
    exact first.followed (fun a ha => searchModule_foldlM_of_found _ ha ms) hrest

theorem exportOf_default (hr : r.path ∉ ([] : List String)) :
    (l.exportOf r "default").result = .ok (r.ownExport? "default") := by
  rw [exportOf, findExport_of_not_mem _ hr, if_pos (.inr rfl)]
  rfl

theorem exportOf_of_tour (hname : name ≠ "default") (hr : r ∈ l.modules) (h : l.Tour [] [r] order) :
    (l.exportOf r name).result = .ok (order.findSome? (·.ownExport? name)) ∨
      ∃ a, l.Breaks r a ∧ (l.exportOf r name).result = .error (.uncaught (.load a)) := by
  have hdepth : l.unseen [] < l.modules.length + 1 :=
    Nat.lt_succ_of_le unseen_nil_le
  have hsearch := h.search (r := r) hname hdepth fun m hm => by
    cases List.mem_singleton.1 hm
    exact ⟨hr, .refl⟩
  rw [List.foldlM_cons, searchModule, if_neg (by simp), Traced.result_bind] at hsearch
  change l.Ends name r [] order ((l.findExport name _ [] r).result >>= .ok) at hsearch
  rw [exportOf, map_eq_pure_bind, Traced.result_bind]
  cases hfind : (l.findExport name (l.modules.length + 1) [] r).result with
  | error e =>
    rw [hfind] at hsearch
    rcases hsearch with ⟨_, hfound, _⟩ | ⟨f, hf, he⟩
    · cases hfound
    · cases he
      exact .inr ⟨f, hf, rfl⟩
  | ok found =>
    rw [hfind] at hsearch
    rcases hsearch with ⟨_, hfound, hfirst, _⟩ | ⟨f, _, he⟩
    · cases hfound
      exact .inl (congrArg Except.ok hfirst)
    · cases he

/-- The search for an export other than the default visits what the module exports everything of, once
each, depth first and in the order of the sources, and gives the first entry for the name: none if no
module that can be reached has one. The default is looked for in the module alone. Nothing ends the
search early but a load that ends everything. -/
theorem exportOf_eq_first_of_tour (l : Library) (hl : l.PathsApart) (r : LoadedModule) (hr : r ∈ l.modules)
    (name : String) :
    ∃ order, (∀ o, l.Tour [] [r] o ↔ o = order) ∧
      (∀ m, m ∈ order ↔ Relation.ReflTransGen l.Star r m) ∧
      (∀ found, (l.exportOf r name).result = .ok found →
        if name = "default" then found = r.ownExport? name
        else found = order.findSome? (·.ownExport? name) ∧
          (found = none ↔ ∀ m, Relation.ReflTransGen l.Star r m → m.flat.export? name = none)) ∧
      ∀ e, (l.exportOf r name).result = .error e →
        name ≠ "default" ∧ ∃ a, e = .uncaught (.load a) ∧ l.Breaks r a := by
  obtain ⟨order, horder⟩ := exists_tour [] [r] fun m hm => by
    cases List.mem_singleton.1 hm
    exact hr
  have hmem : ∀ m, m ∈ order ↔ Relation.ReflTransGen l.Star r m := fun m => horder.mem_iff hl hr
  refine ⟨order, fun o => ⟨fun h => horder.unique h, fun h => h ▸ horder⟩, hmem, ?_⟩
  by_cases hname : name = "default"
  · subst hname
    rw [exportOf_default List.not_mem_nil]
    refine ⟨fun found h => ?_, fun e h => (nomatch h)⟩
    rw [if_pos rfl]
    exact (Except.ok.inj h).symm
  rcases exportOf_of_tour hname hr horder with h | ⟨f, hf, h⟩
  · rw [h]
    refine ⟨fun found hfound => ?_, fun e h => (nomatch h)⟩
    rw [if_neg hname, ← Except.ok.inj hfound]
    refine ⟨rfl, ?_⟩
    simp [List.findSome?_eq_none_iff, LoadedModule.ownExport?, hmem]
  · rw [h]
    refine ⟨fun found h => (nomatch h), fun e he => ⟨hname, f, (Except.error.inj he).symm, hf⟩⟩

end

def indexModule : Module :=
  ⟨[.exportAll ⟨1, 1⟩ (.ofString "./shape"), .exportAll ⟨2, 1⟩ (.ofString "./size")],
    some "/index.js"⟩

def shapeModule : Module :=
  ⟨[.exportAll ⟨1, 1⟩ (.ofString "./index"), .exportAll ⟨2, 1⟩ (.ofString "./gone")],
    some "/shape.js"⟩

def sizeModule : Module :=
  ⟨[.exportAll ⟨1, 1⟩ (.ofString "./shape"),
    .exportNamed ⟨⟨2, 1⟩, [⟨⟨2, 9⟩, "Area", "Size"⟩], none, .value⟩], some "/size.js"⟩

def ringLibrary : Library :=
  .ofModules [("/index.js", indexModule), ("/shape.js", shapeModule), ("/size.js", sizeModule)]

theorem ringLibrary_pathsApart : ringLibrary.PathsApart := by
  refine .ofHoldings (.ofModules fun m hm => ?_)
  simp only [List.mem_cons, List.not_mem_nil, or_false] at hm
  rcases hm with rfl | rfl | rfl <;> rfl

theorem exportOf_eq_first_of_tour_ring :
    let r := LoadedModule.ofModule "/index.js" indexModule
    ringLibrary.PathsApart ∧ r ∈ ringLibrary.modules ∧
      (ringLibrary.exportOf r "Size").result =
        .ok (some (.ofModule "/size.js" sizeModule, "Area")) ∧
      ∃ order, (∀ o, ringLibrary.Tour [] [r] o ↔ o = order) ∧
        order.findSome? (·.ownExport? "Size") = some (.ofModule "/size.js" sizeModule, "Area") := by
  intro r
  have hl := ringLibrary_pathsApart
  have hr : r ∈ ringLibrary.modules := Holdings.mem_modules.2 ⟨"/index.js", rfl⟩
  have hfound : (ringLibrary.exportOf r "Size").result =
      .ok (some (.ofModule "/size.js" sizeModule, "Area")) := rfl
  obtain ⟨order, horder, _, hsearch, _⟩ := exportOf_eq_first_of_tour ringLibrary hl r hr "Size"
  have hfirst := hsearch _ hfound
  rw [if_neg (by decide)] at hfirst
  exact ⟨hl, hr, hfound, order, horder, hfirst.1.symm⟩

end Library

end PropTables
