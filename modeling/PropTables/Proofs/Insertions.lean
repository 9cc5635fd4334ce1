import PropTables.Library.Holdings
import PropTables.Proofs.FixedNames

/-! What a transformation changes. The items that it puts in front are imports; apart from these, it
puts one static property directly behind every typed field and leaves everything else as it is. -/

namespace PropTables

/-- The second list is the first one with at most one more member directly behind each: `Made i x y`
says that `y` is put behind `x`, which is the `i`-th. The first list begins with its `n`-th member. -/
inductive Woven {α : Type} (Made : Nat → α → α → Prop) : Nat → List α → List α → Prop
  | nil : Woven Made n [] []
  | kept (hx : ∀ y, ¬ Made n x y) (h : Woven Made (n + 1) xs ys) : Woven Made n (x :: xs) (x :: ys)
  | behind (hy : Made n x y) (h : Woven Made (n + 1) xs ys) :
    Woven Made n (x :: xs) (x :: y :: ys)

namespace Woven

variable {α : Type} {Made : Nat → α → α → Prop} {n : Nat} {xs ys : List α}

theorem of_flatMap {made : Nat → List α} (xs : List α) (n : Nat)
    (h : ∀ x ∈ xs.zipIdx n, (made x.2 = [] ∧ ∀ y, ¬ Made x.2 x.1 y) ∨
      ∃ y, made x.2 = [y] ∧ Made x.2 x.1 y) :
    Woven Made n xs ((xs.zipIdx n).flatMap fun x => x.1 :: made x.2) := by
  induction xs generalizing n with
  | nil => exact .nil
  | cons x xs ih =>
    rw [List.zipIdx_cons] at h ⊢
    have htail := ih (n + 1) fun y hy => h y (List.mem_cons_of_mem _ hy)
    rw [List.flatMap_cons]
    rcases h (x, n) List.mem_cons_self with ⟨hnil, hnone⟩ | ⟨y, hone, hy⟩
    · dsimp only at hnil hnone
      rw [hnil]
      exact .kept hnone htail
    · dsimp only at hone hy
      rw [hone]
      exact .behind hy htail

theorem eq_of_not_made (h : Woven Made n xs ys) (hnone : ∀ i x y, ¬ Made i x y) : ys = xs := by
  induction h with
  | nil => rfl
  | kept _ _ ih => rw [ih]
  | behind hy _ _ => exact (hnone _ _ _ hy).elim

theorem filter_eq {new : α → Bool} (h : Woven Made n xs ys) (hold : ∀ x ∈ xs, new x = false)
    (hnew : ∀ i x y, Made i x y → new y = true) : ys.filter (!new ·) = xs := by
  induction h with
  | nil => rfl
  | @kept _ x _ _ _ _ ih =>
    have hx := hold x List.mem_cons_self
    rw [List.filter_cons_of_pos (by simp [hx]), ih fun y hy => hold y (List.mem_cons_of_mem x hy)]
  | @behind _ x y _ _ hy _ ih =>
    have hx := hold x List.mem_cons_self
    have hy := hnew _ _ _ hy
    rw [List.filter_cons_of_pos (by simp [hx]), List.filter_cons_of_neg (by simp [hy]),
      ih fun z hz => hold z (List.mem_cons_of_mem x hz)]

end Woven

theorem filter_eq_nil_or_singleton {α : Type} {key : α → Nat} {xs : List α}
    (h : (xs.map key).Nodup) (n : Nat) :
    (xs.filter (key · == n) = [] ∧ ∀ x ∈ xs, key x ≠ n) ∨
      ∃ x ∈ xs, key x = n ∧ xs.filter (key · == n) = [x] := by
  induction xs with
  | nil => exact .inl ⟨rfl, nofun⟩
  | cons x xs ih =>
    rw [List.map_cons, List.nodup_cons] at h
    by_cases hx : key x = n
    · have hrest : xs.filter (key · == n) = [] := by
        rw [List.filter_eq_nil_iff]
        intro y hy hkey
        have hsame : key y = key x := (beq_iff_eq.1 hkey).trans hx.symm
        exact h.1 (hsame ▸ List.mem_map_of_mem hy)
      refine .inr ⟨x, List.mem_cons_self, hx, ?_⟩
      rw [List.filter_cons_of_pos (by simpa using hx), hrest]
    · rw [List.filter_cons_of_neg (by simpa using hx)]
      rcases ih h.2 with ⟨hnil, hne⟩ | ⟨y, hy, hkey, hone⟩
      · refine .inl ⟨hnil, fun y hy => ?_⟩
        rcases List.mem_cons.1 hy with rfl | hy
        · exact hx
        · exact hne y hy
      · exact .inr ⟨y, List.mem_cons_of_mem x hy, hkey, hone⟩

namespace ClassDeclaration

variable {k : ClassDeclaration} {h : HostOptions} {scope : Scope}

theorem name_eq_of_property? {name name' : Text} {i : Nat} {p p' : ClassProperty}
    (hp : k.property? name = some (i, p)) (hp' : k.property? name' = some (i, p')) :
    name = name' := by
  obtain ⟨hget, hkey⟩ := property?_eq_some hp
  obtain ⟨hget', hkey'⟩ := property?_eq_some hp'
  rw [hget] at hget'
  cases hget'
  exact hkey.symm.trans hkey'

theorem nodup_index_typedFields (hf : (h.fields.map (·.1)).Nodup) :
    ((k.typedFields h scope).map (·.index)).Nodup := by
  have hfields : h.fields.Pairwise fun a b => a.1 ≠ b.1 := List.pairwise_map.1 hf
  refine List.pairwise_map.2 ?_
  unfold typedFields
  split
  · refine hfields.filterMap _ fun a b hne f hfound g hfound' hindex => hne ?_
    obtain ⟨⟨i, p⟩, hp, rfl⟩ := Option.map_eq_some_iff.1 hfound
    obtain ⟨⟨i', p'⟩, hp', rfl⟩ := Option.map_eq_some_iff.1 hfound'
    dsimp only at hindex
    subst hindex
    have htext := congrArg Text.toString? (name_eq_of_property? hp hp')
    simpa using htext
  · exact .nil

end ClassDeclaration

/-- What the conversions make of a class: `y` is a static field with the table of the typed field that is
the `i`-th member `x` of the class, under the host's name for it. -/
def ClassDeclaration.Makes (k : ClassDeclaration) (h : HostOptions) (scope : Scope)
    (table : TypedField → Validator) (i : Nat) (x y : ClassMember) : Prop :=
  ∃ f ∈ k.typedFields h scope, f.index = i ∧ x = .property f.property ∧
    y = .property {
      loc := f.property.loc
      key := .ofString f.field.2
      ascription := none
      value := some (.table (table f))
      isStatic := true
      optional := false
      isComputed := false }

def ClassDeclaration.Gains (k : ClassDeclaration) (h : HostOptions) (scope : Scope)
    (table : TypedField → Validator) (k' : ClassDeclaration) : Prop :=
  ∃ body, k' = { k with body } ∧ Woven (k.Makes h scope table) 0 k.body body

inductive Item.Gains (h : HostOptions) (scope : Scope) (table : TypedField → Validator) :
    Item → Item → Prop
  | other (hi : i.class? = none) : Gains h scope table i i
  | bare (hk : k.Gains h scope table k') :
    Gains h scope table (.statement (.declaration (.class_ k))) (.statement (.declaration (.class_ k')))
  | exportDefault (hk : k.Gains h scope table k') :
    Gains h scope table (.exportDefault loc (.class_ k)) (.exportDefault loc (.class_ k'))
  | exportDeclaration (hk : k.Gains h scope table k') :
    Gains h scope table (.exportDeclaration loc (.class_ k)) (.exportDeclaration loc (.class_ k'))

section

variable {h : HostOptions} {scope : Scope} {table : TypedField → Validator}

theorem ClassDeclaration.insert_gains (k : ClassDeclaration) (hf : (h.fields.map (·.1)).Nodup) :
    k.Gains h scope table (k.insert ((k.typedFields h scope).map fun f =>
      ⟨f.index, f.generated (table f)⟩)) := by
  let insertions : List Insertion :=
    (k.typedFields h scope).map fun f => ⟨f.index, f.generated (table f)⟩
  let made (i : Nat) : List ClassMember :=
    ((insertions.filter (·.index == i)).map fun t => .property t.table.toProperty).reverse
  refine ⟨k.body.zipIdx.flatMap fun x => x.1 :: made x.2, rfl, .of_flatMap k.body 0 fun x hx => ?_⟩
  obtain ⟨member, i⟩ := x
  have hget := List.mem_zipIdx_iff_getElem?.1 hx
  -- at most one typed field is at this place, so at most one table is put behind the member
  have hmade : made i = (((k.typedFields h scope).filter (·.index == i)).map fun f =>
      ClassMember.property (f.generated (table f)).toProperty).reverse := by
    simp only [made, insertions, List.filter_map, List.map_map]
    rfl
  have hplaces : ((k.typedFields h scope).map (·.index)).Nodup := nodup_index_typedFields hf
  rcases filter_eq_nil_or_singleton hplaces i with ⟨hnil, hnone⟩ | ⟨f, hmem, hindex, hone⟩
  · refine .inl ⟨by rw [hmade, hnil]; rfl, ?_⟩
    rintro y ⟨f, hmem, hindex, _⟩
    exact hnone f hmem hindex
  · obtain ⟨_, rfl, _, hfound⟩ := mem_typedFields.1 hmem
    have hproperty := (property?_eq_some hfound).1
    rw [hindex, hget] at hproperty
    cases hproperty
    exact .inr ⟨_, by rw [hmade, hone]; rfl, f, hmem, hindex, rfl, rfl⟩

theorem Item.insert_gains (i : Item) (hf : (h.fields.map (·.1)).Nodup) :
    Item.Gains h scope table i (i.insert ((i.typedFields h scope).map fun f =>
      ⟨f.index, f.generated (table f)⟩)) := by
  cases hi : i.class? with
  | none =>
    have hsame : i.insert ((i.typedFields h scope).map fun f => ⟨f.index, f.generated (table f)⟩) = i := by
      unfold Item.insert
      split
      · cases hi
      · cases hi
      · cases hi
      · rfl
    rw [hsame]
    exact .other hi
  | some k =>
    unfold Item.class? at hi
    split at hi
    · exact .bare (ClassDeclaration.insert_gains _ hf)
    · exact .exportDefault (ClassDeclaration.insert_gains _ hf)
    · exact .exportDeclaration (ClassDeclaration.insert_gains _ hf)
    · cases hi

theorem ClassDeclaration.Gains.eq_of_nil {k k' : ClassDeclaration} (hk : k.Gains h scope table k')
    (hnil : k.typedFields h scope = []) : k' = k := by
  obtain ⟨body, rfl, hwoven⟩ := hk
  have hbody : body = k.body := by
    refine hwoven.eq_of_not_made ?_
    rintro i x y ⟨f, hf, _⟩
    rw [hnil] at hf
    cases hf
  rw [hbody]

theorem Item.Gains.eq_of_nil {i i' : Item} (hi : Item.Gains h scope table i i')
    (hnil : i.typedFields h scope = []) : i' = i := by
  cases hi with
  | other => rfl
  | bare hk | exportDefault hk | exportDeclaration hk => rw [hk.eq_of_nil hnil]

end

def ClassMember.isTable : ClassMember → Bool
  | .property ⟨_, _, _, some (.table _), _, _, _⟩ => true
  | _ => false

def ClassDeclaration.withoutTables (k : ClassDeclaration) : ClassDeclaration :=
  { k with body := k.body.filter (!·.isTable) }

def Item.withoutTables : Item → Item
  | statement (.declaration (.class_ k)) => statement (.declaration (.class_ k.withoutTables))
  | exportDefault loc (.class_ k) => exportDefault loc (.class_ k.withoutTables)
  | exportDeclaration loc (.class_ k) => exportDeclaration loc (.class_ k.withoutTables)
  | item => item

def TransformResult.withoutAdded (r : TransformResult) : Module :=
  { r.result with items := (r.result.items.drop r.addedImports.length).map Item.withoutTables }

section

variable {h : HostOptions} {scope : Scope} {table : TypedField → Validator}

theorem ClassDeclaration.Gains.withoutTables {k k' : ClassDeclaration}
    (hk : k.Gains h scope table k') (hplain : ∀ x ∈ k.body, x.isTable = false) :
    k'.withoutTables = k := by
  obtain ⟨body, rfl, hwoven⟩ := hk
  have hbody : body.filter (!·.isTable) = k.body := by
    refine hwoven.filter_eq hplain ?_
    rintro i x y ⟨f, _, _, _, rfl⟩
    rfl
  show { k with body := body.filter (!·.isTable) } = k
  rw [hbody]

theorem Item.Gains.withoutTables {i i' : Item} (hi : Item.Gains h scope table i i')
    (hplain : ∀ k, i.class? = some k → ∀ x ∈ k.body, x.isTable = false) : i'.withoutTables = i := by
  cases hi with
  | other hnone =>
    unfold Item.withoutTables
    split
    · cases hnone
    · cases hnone
    · cases hnone
    · rfl
  | bare hk | exportDefault hk | exportDeclaration hk =>
    rw [Item.withoutTables, hk.withoutTables (hplain _ rfl)]

end

theorem eq_map_of_forall₂ {α β : Type} {f : α → β} {as : List α} {bs : List β}
    (h : List.Forall₂ (fun a b => b = f a) as bs) : bs = as.map f := by
  induction h with
  | nil => rfl
  | cons hab _ ih => rw [List.map_cons, ← hab, ← ih]

namespace Module

variable {m : Module} {options : ConvertOptions} {h : HostOptions} {l : Library}
  {groups : List (List Insertion)} {names : LibraryNames}

theorem Converts.exists_table (hc : m.Converts options h l groups names) :
    ∃ table : TypedField → Validator, groups = m.items.map fun i =>
      (i.typedFields h (.ofModule m)).map fun f => ⟨f.index, f.generated (table f)⟩ := by
  obtain ⟨v, hv⟩ := hc.consistent.exists_agrees
  let table (f : TypedField) : Validator :=
    match (f.table ⟨options, v, l⟩ (.ofModule m)).result with
    | .ok t => t
    | .error _ => .undefined
  refine ⟨table, eq_map_of_forall₂ ((hc.items v hv).imp fun i ts hi => ?_)⟩
  refine eq_map_of_forall₂ (hi.imp fun f t ht => ?_)
  obtain ⟨w, hw, ht⟩ := Traced.bind_eq_ok.1 ht
  have htable : table f = w := by simp only [table, hw]
  rw [htable]
  exact (Traced.pure_eq_ok.1 ht).symm

theorem items_eq_of_nil {table : TypedField → Validator} {items : List Item}
    (hitems : List.Forall₂ (Item.Gains h (.ofModule m) table) m.items items)
    (hnil : m.typedFields h = []) : items = m.items := by
  rw [typedFields_eq, List.flatMap_eq_nil_iff] at hnil
  generalize m.items = before at hitems hnil ⊢
  induction hitems with
  | nil => rfl
  | cons hi _ ih =>
    rw [hi.eq_of_nil (hnil _ List.mem_cons_self),
      ih fun i hmem => hnil i (List.mem_cons_of_mem _ hmem)]

theorem withoutAdded_eq {table : TypedField → Validator} {items : List Item} {r : TransformResult}
    (hr : r.result = ⟨r.addedImports.map (fun d => .statement (.import_ d)) ++ items, m.file⟩)
    (hitems : List.Forall₂ (Item.Gains h (.ofModule m) table) m.items items)
    (hplain : ∀ k ∈ m.classes, ∀ x ∈ k.body, x.isTable = false) : r.withoutAdded = m := by
  have hback : items.map Item.withoutTables = m.items := by
    replace hplain : ∀ i ∈ m.items, ∀ k, i.class? = some k → ∀ x ∈ k.body, x.isTable = false :=
      fun i hi k hk => hplain k (List.mem_filterMap.2 ⟨i, hi, hk⟩)
    clear hr
    generalize m.items = before at hitems hplain ⊢
    induction hitems with
    | nil => rfl
    | cons hi _ ih =>
      rw [List.map_cons, hi.withoutTables (hplain _ List.mem_cons_self),
        ih fun i hmem => hplain i (List.mem_cons_of_mem _ hmem)]
  have hdrop : (r.addedImports.map (fun d => Item.statement (.import_ d)) ++ items).drop
      r.addedImports.length = items := List.drop_left' (List.length_map ..)
  unfold TransformResult.withoutAdded
  rw [hr, hdrop, hback]

/-- A transformation only adds. In front it puts the imports, and behind every typed field one static
property: its key is the host's name for it, its value the table, and the tables are listed by class,
then by the host's fields. Everything else stays, and without a typed field the result is the module
itself. -/
theorem transform_only_adds (m : Module) (options : ConvertOptions) (h : HostOptions) (l : Library)
    (hf : (h.fields.map (·.1)).Nodup) {r : TransformResult}
    (hr : (m.transform options h l).result = .ok r) :
    ∃ (table : TypedField → Validator) (items : List Item),
      r.result = ⟨r.addedImports.map (fun d => .statement (.import_ d)) ++ items, m.file⟩ ∧
      (r.components = (m.typedFields h).map fun f => {
        className := f.owner.name.getD "default"
        field := f.field.1
        staticField := f.field.2
        table := table f
        loc := f.property.loc }) ∧
      List.Forall₂ (Item.Gains h (.ofModule m) table) m.items items ∧
      (∀ k ∈ m.classes, ((k.typedFields h (.ofModule m)).map (·.index)).Nodup) ∧
      (m.typedFields h = [] → r = ⟨m, [], []⟩) ∧
      ((∀ k ∈ m.classes, ∀ x ∈ k.body, x.isTable = false) → r.withoutAdded = m) := by
  obtain ⟨groups, names, hc, rfl⟩ := converts_of_transform hr
  obtain ⟨table, hgroups⟩ := hc.exists_table
  let items := m.items.map fun i => i.insert ((i.typedFields h (.ofModule m)).map fun f =>
    ⟨f.index, f.generated (table f)⟩)
  have hitems : List.Forall₂ (Item.Gains h (.ofModule m) table) m.items items := by
    rw [List.forall₂_map_right_iff]
    exact List.forall₂_same.2 fun i _ => i.insert_gains hf
  have hcomponents : groups.flatten.map (·.table) =
      (m.typedFields h).map fun f => f.generated (table f) := by
    rw [hgroups, typedFields_eq, List.map_flatten, List.map_flatMap, List.flatMap_def, List.map_map]
    simp only [Function.comp_def, List.map_map]
  have hempty (hnil : groups.flatten = []) : m.typedFields h = [] := by
    rw [hnil] at hcomponents
    exact List.map_eq_nil_iff.1 hcomponents.symm
  have hresult : (m.insert groups names.pending).result =
      ⟨(m.insert groups names.pending).addedImports.map (fun d => .statement (.import_ d)) ++ items,
        m.file⟩ := by
    rcases m.insert_cases groups names.pending with ⟨hnil, heq⟩ | ⟨_, _, hadded, heq⟩
    · -- without a table there was no typed field, so the items are the old ones
      have hsame : items = m.items := items_eq_of_nil hitems (hempty hnil)
      rw [heq, hsame]
      rfl
    · rw [hadded, heq, hgroups, List.zipWith_map_right, List.zipWith_self]
  refine ⟨table, items, hresult, (components_insert ..).trans hcomponents, hitems, fun k _ => ?_,
    fun hnil => ?_, fun hplain => withoutAdded_eq hresult hitems hplain⟩
  · exact ClassDeclaration.nodup_index_typedFields hf
  · rw [hnil, List.map_nil, List.map_eq_nil_iff] at hcomponents
    rcases m.insert_cases groups names.pending with ⟨_, heq⟩ | ⟨hne, _⟩
    · exact heq
    · exact (hne hcomponents).elim

def panelModule : Module :=
  let props : TypeExpr := .object ⟨⟨2, 10⟩, [.property ⟨⟨2, 11⟩, .ofString "size", "size",
    .primitive ⟨2, 17⟩ .number, false, false, .none⟩], [], [], false, []⟩
  ⟨[.exportDefault ⟨1, 1⟩ (.class_ ⟨⟨1, 16⟩, none, [],
    some (.member ⟨1, 30⟩ (.name ⟨1, 30⟩ "React") "Component"), none,
    [.property ⟨⟨2, 3⟩, .ofString "props", some props, none, false, false, false⟩,
      .method ⟨⟨3, 3⟩, .ofString "render", [], none, false⟩]⟩)], some "/src/panel.js"⟩

theorem transform_only_adds_panel :
    ∃ r, (panelModule.transform .default .default (.ofTable .none [] .default)).result = .ok r ∧
      r.result.items.length = 2 ∧ r.components.length = 1 ∧ r.withoutAdded = panelModule := by
  refine ⟨_, rfl, rfl, rfl, ?_⟩
  obtain ⟨_, _, _, _, _, _, _, hback⟩ := transform_only_adds panelModule .default .default
    (.ofTable .none [] .default) (by decide) rfl
  refine hback fun k hk x hx => ?_
  cases List.mem_singleton.1 hk
  simp only [List.mem_cons, List.not_mem_nil, or_false] at hx
  rcases hx with rfl | rfl <;> rfl

end Module

end PropTables
