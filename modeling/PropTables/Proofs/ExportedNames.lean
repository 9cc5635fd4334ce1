import PropTables.Proofs.ModuleNames

/-! What an exported name stands for. An export is filed under a name inside the module, and what is
found under that name in the statements is what the export says, unless a made-up name is in the way:
statements bind made-up names and written ones alike, and the first of them is found. -/

namespace PropTables

/-- What an item says of a name that it exports: the name inside the module under which it is filed,
and what it stands for, if there is such a thing. -/
structure Offer where
  exported : String
  inner : String
  referent : Option Referent

def Module.written? (m : Module) (name : String) : Option Referent :=
  (m.own.find? (·.1 == name)).map (·.2)

namespace Item

def offers (m : Module) : Item → List Offer
  | statement _ => []
  | exportDeclaration _ d => d.binds.map fun b => ⟨b.1, b.1, some b.2⟩
  | exportDefault loc d =>
    match d with
    | .class_ c =>
      match c.name with
      | some name => [⟨"default", name, some (.class_ c)⟩]
      | none => [⟨"default", defaultName, some (.class_ { c with name := some defaultName })⟩]
    | .function f => [⟨"default", f.name, some (.function f)⟩]
    | .expression (.name _ name) => [⟨"default", name, m.written? name⟩]
    | .expression e =>
      [⟨"default", defaultName, some (.variable_ ⟨loc, defaultName, none, some e⟩)⟩]
  | exportNamed e =>
    match e.source with
    | none => e.specifiers.map fun s => ⟨s.exported, s.inner, m.written? s.inner⟩
    | some source =>
      e.specifiers.map fun s =>
        ⟨s.exported, s.exported, some (.import_ ⟨s.loc, s.exported, some s.inner, source, e.kind⟩)⟩
  | exportAll .. => []

theorem offers_cases {m : Module} {i : Item} {o : Offer} (h : o ∈ i.offers m) :
    (∃ r, o.referent = some r ∧ (o.inner, r) ∈ i.own) ∨
    o.referent = m.written? o.inner ∨
    (∃ r, o.referent = some r ∧ (o.inner, r) ∈ i.madeUp) := by
  cases i with
  | statement | exportAll => cases h
  | exportDeclaration loc d =>
    obtain ⟨b, hb, rfl⟩ := List.mem_map.1 h
    exact .inl ⟨b.2, rfl, hb⟩
  | exportNamed e =>
    obtain ⟨loc, specifiers, source, kind⟩ := e
    cases source with
    | none =>
      obtain ⟨s, hs, rfl⟩ := List.mem_map.1 h
      exact .inr (.inl rfl)
    | some source =>
      obtain ⟨s, hs, rfl⟩ := List.mem_map.1 h
      exact .inr (.inr ⟨_, rfl, List.mem_map.2 ⟨s, hs, rfl⟩⟩)
  | exportDefault loc d =>
    cases d with
    | function f =>
      cases List.mem_singleton.1 h
      exact .inl ⟨_, rfl, List.mem_cons_self⟩
    | class_ c =>
      obtain ⟨loc, name, params, superclass, superArgs, body⟩ := c
      cases name with
      | some name =>
        cases List.mem_singleton.1 h
        exact .inl ⟨_, rfl, List.mem_cons_self⟩
      | none =>
        cases List.mem_singleton.1 h
        exact .inr (.inr ⟨_, rfl, List.mem_cons_self⟩)
    | expression e =>
      cases e with
      | name =>
        cases List.mem_singleton.1 h
        exact .inr (.inl rfl)
      | _ =>
        cases List.mem_singleton.1 h
        exact .inr (.inr ⟨_, rfl, List.mem_cons_self⟩)

theorem exports_eq_offers (m : Module) (i : Item) :
    i.exports.map (fun e => (e.exported, e.inner)) =
      (i.offers m).map fun o => (o.exported, o.inner) := by
  cases i with
  | statement | exportAll => rfl
  | exportDeclaration loc d => simp only [exports, offers, List.map_map, Function.comp_def]
  | exportNamed e =>
    obtain ⟨loc, specifiers, source, kind⟩ := e
    cases source <;> simp [exports, offers]
  | exportDefault loc d =>
    cases d with
    | function f => rfl
    | expression e => cases e <;> rfl
    | class_ c =>
      obtain ⟨loc, name, params, superclass, superArgs, body⟩ := c
      cases name <;> rfl

end Item

theorem find?_key_of_mem {α β : Type} [BEq β] [LawfulBEq β] {f : α → β} {l : List α} {a : α}
    (h : (l.map f).Nodup) (ha : a ∈ l) : l.find? (f · == f a) = some a := by
  cases hfind : l.find? (f · == f a) with
  | none => exact absurd (beq_self_eq_true (f a)) (List.find?_eq_none.1 hfind a ha)
  | some b =>
    have hkey := List.find?_some hfind
    rw [List.inj_on_of_nodup_map h (List.mem_of_find?_eq_some hfind) ha (beq_iff_eq.1 hkey)]

namespace Module

def offers (m : Module) : List Offer :=
  m.items.flatMap (Item.offers m)

/-- An offer is contested if its inner name is made up and may mean something else: what an item binds
to it, nothing at all, or what it is made up for a second time. -/
def Contested (m : Module) (o : Offer) : Prop :=
  o.inner ∈ m.madeUp.map (·.1) ∧
    (o.inner ∈ m.own.map (·.1) ∨ o.referent.isNone ∨ 1 < (m.madeUpOf o.inner).length)

instance (m : Module) (o : Offer) : Decidable (m.Contested o) :=
  inferInstanceAs (Decidable (_ ∧ _))

variable (m : Module) {name : String}

theorem exports_ofModule :
    (FlatModule.ofModule m).exports.map (fun e => (e.exported, e.inner)) =
      m.offers.map fun o => (o.exported, o.inner) := by
  unfold FlatModule.ofModule offers
  rw [List.map_flatMap, List.map_flatMap]
  congr 1
  funext i
  exact i.exports_eq_offers m

theorem exportedNames_ofModule :
    (FlatModule.ofModule m).exports.map (·.exported) = m.offers.map (·.exported) := by
  have h := congrArg (List.map Prod.fst) m.exports_ofModule
  simpa only [List.map_map, Function.comp_def] using h

theorem export?_of_mem (hext : (m.offers.map (·.exported)).Nodup) {o : Offer} (ho : o ∈ m.offers) :
    ∃ e, (FlatModule.ofModule m).export? o.exported = some e ∧ e.inner = o.inner := by
  have hfiled : (o.exported, o.inner) ∈
      (FlatModule.ofModule m).exports.map fun e => (e.exported, e.inner) := by
    rw [exports_ofModule]
    exact List.mem_map.2 ⟨o, ho, rfl⟩
  obtain ⟨e, he, heq⟩ := List.mem_map.1 hfiled
  obtain ⟨hexported, hinner⟩ := Prod.mk.inj heq
  rw [← exportedNames_ofModule] at hext
  refine ⟨e, ?_, hinner⟩
  rw [← hexported]
  exact find?_key_of_mem hext he

theorem referent?_ofModule :
    (FlatModule.ofModule m).referent? name =
      ((FlatModule.ofModule m).binds.filter (·.1 == name)).head?.map (·.2) := by
  rw [List.head?_filter]
  rfl

theorem written?_eq : m.written? name = (m.ownOf name).head?.map (·.2) := by
  rw [ownOf, List.head?_filter]
  rfl

theorem written?_of_mem (hown : (m.own.map (·.1)).Nodup) {r : Referent} (h : (name, r) ∈ m.own) :
    m.written? name = some r := by
  have hfind := find?_key_of_mem hown h
  exact congrArg (Option.map Prod.snd) hfind

theorem referent?_of_not_madeUp (h : name ∉ m.madeUp.map (·.1)) :
    (FlatModule.ofModule m).referent? name = m.written? name := by
  rw [referent?_ofModule, filter_binds_of_not_madeUp m h, written?_eq]

theorem mem_own_of_written? {r : Referent} (h : m.written? name = some r) :
    name ∈ m.own.map (·.1) := by
  obtain ⟨e, hfind, _⟩ := Option.map_eq_some_iff.1 h
  have hname := List.find?_some hfind
  exact List.mem_map.2 ⟨e, List.mem_of_find?_eq_some hfind, beq_iff_eq.1 hname⟩

theorem madeUpOf_eq_singleton {r : Referent} (h : (name, r) ∈ m.madeUp)
    (honce : (m.madeUpOf name).length ≤ 1) : m.madeUpOf name = [(name, r)] := by
  have hmem : (name, r) ∈ m.madeUpOf name := List.mem_filter.2 ⟨h, beq_self_eq_true name⟩
  obtain ⟨e, he⟩ := List.length_eq_one_iff.1 (le_antisymm honce (List.length_pos_of_mem hmem))
  rw [he] at hmem ⊢
  rw [List.mem_singleton.1 hmem]

variable {m} {o : Offer}

theorem not_mem_madeUp_of_written {r : Referent} (hc : ¬ m.Contested o)
    (h : (o.inner, r) ∈ m.own) : o.inner ∉ m.madeUp.map (·.1) := by
  intro hm
  exact hc ⟨hm, .inl (List.mem_map.2 ⟨_, h, rfl⟩)⟩

theorem not_mem_madeUp_of_mentioned (hc : ¬ m.Contested o)
    (h : o.referent = m.written? o.inner) : o.inner ∉ m.madeUp.map (·.1) := by
  intro hm
  cases hw : m.written? o.inner with
  | none => exact hc ⟨hm, .inr (.inl (by rw [h, hw]; rfl))⟩
  | some r => exact hc ⟨hm, .inl (m.mem_own_of_written? hw)⟩

theorem referent?_of_madeUp {r : Referent} (hc : ¬ m.Contested o)
    (h : (o.inner, r) ∈ m.madeUp) : (FlatModule.ofModule m).referent? o.inner = some r := by
  have hm : o.inner ∈ m.madeUp.map (·.1) := List.mem_map.2 ⟨_, h, rfl⟩
  have hown : o.inner ∉ m.own.map (·.1) := fun ho => hc ⟨hm, .inl ho⟩
  have honce : (m.madeUpOf o.inner).length ≤ 1 := by
    by_contra hlen
    exact hc ⟨hm, .inr (.inr (by omega))⟩
  rw [referent?_ofModule, filter_binds_of_not_own m hown, m.madeUpOf_eq_singleton h honce]
  rfl

theorem exported?_of_offer (hown : (m.own.map (·.1)).Nodup)
    (hext : (m.offers.map (·.exported)).Nodup) (ho : o ∈ m.offers) (hc : ¬ m.Contested o) :
    (FlatModule.ofModule m).exported? o.exported = o.referent := by
  obtain ⟨e, he, hinner⟩ := m.export?_of_mem hext ho
  have hexported : (FlatModule.ofModule m).exported? o.exported =
      (FlatModule.ofModule m).referent? o.inner := by
    rw [FlatModule.exported?, he, Option.bind_some, hinner]
  rw [hexported]
  obtain ⟨i, hi, ho⟩ := List.mem_flatMap.1 ho
  rcases i.offers_cases ho with ⟨r, hr, hmem⟩ | hr | ⟨r, hr, hmem⟩
  · have hmem : (o.inner, r) ∈ m.own := List.mem_flatMap.2 ⟨i, hi, hmem⟩
    rw [referent?_of_not_madeUp m (not_mem_madeUp_of_written hc hmem),
      written?_of_mem m hown hmem, hr]
  · rw [referent?_of_not_madeUp m (not_mem_madeUp_of_mentioned hc hr), hr]
  · have hmem : (o.inner, r) ∈ m.madeUp := List.mem_flatMap.2 ⟨i, hi, hmem⟩
    rw [referent?_of_madeUp hc hmem, hr]

theorem exported?_of_not_offered (h : name ∉ m.offers.map (·.exported)) :
    (FlatModule.ofModule m).exported? name = none := by
  have hnone : (FlatModule.ofModule m).export? name = none := by
    rw [FlatModule.export?, List.find?_eq_none]
    intro e he hname
    rw [← exportedNames_ofModule] at h
    exact h (List.mem_map.2 ⟨e, he, beq_iff_eq.1 hname⟩)
  rw [FlatModule.exported?, hnone]
  rfl

/-- In a module that binds and exports no name twice, an exported name stands for what its item says,
unless that is contested. A name that is not exported stands for nothing. -/
theorem exported?_eq_offered (m : Module) (hown : (m.own.map (·.1)).Nodup)
    (hext : (m.offers.map (·.exported)).Nodup) :
    (∀ o ∈ m.offers, ¬ m.Contested o →
      (FlatModule.ofModule m).exported? o.exported = o.referent) ∧
    (∀ name, name ∉ m.offers.map (·.exported) →
      (FlatModule.ofModule m).exported? name = none) :=
  ⟨fun _ ho hc => exported?_of_offer hown hext ho hc, fun _ h => exported?_of_not_offered h⟩

def extentImport (exported : String) : Referent :=
  .import_ ⟨⟨2, 9⟩, exported, some "Area", .ofString "./m", .value⟩

theorem exported?_eq_offered_extent :
    let m := sizeModule "Extent"
    (FlatModule.ofModule m).exported? "Extent" = some (extentImport "Extent") ∧
      (FlatModule.ofModule m).exported? "Size" = none := by
  intro m
  obtain ⟨hoffered, hother⟩ := exported?_eq_offered m (by decide) (by decide)
  have hmem : ⟨"Extent", "Extent", some (extentImport "Extent")⟩ ∈ m.offers := List.mem_cons_self
  exact ⟨hoffered _ hmem (by decide), hother "Size" (by decide)⟩

/-- No name is bound or exported twice, and the exported name `Size` stands for the alias that the
module keeps to itself instead of for the import. -/
theorem not_exported?_eq_offered :
    let m := sizeModule "Size"
    (m.own.map (·.1)).Nodup ∧ (m.offers.map (·.exported)).Nodup ∧
    ⟨"Size", "Size", some (extentImport "Size")⟩ ∈ m.offers ∧
    (FlatModule.ofModule m).exported? "Size" = some (.typeAlias sizeAlias) :=
  ⟨by decide, by decide, List.mem_cons_self, rfl⟩

end Module

end PropTables
