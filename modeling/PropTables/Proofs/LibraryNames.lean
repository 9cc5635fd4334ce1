import Mathlib.Data.List.Nodup
import Mathlib.Data.List.Perm.Subperm
import Mathlib.Logic.Relation
import PropTables.Component.Transform

/-! The names of the libraries. A name is free when it is chosen, and a run that asks for names only
adds to those that are given: what holds of the names is an invariant of single requests. -/

namespace PropTables

theorem numbered_injective (stem : String) :
    Function.Injective fun n : Nat => stem ++ toString n := by
  intro m n h
  have hrepr : Nat.repr m = Nat.repr n := by
    simpa only [Nat.toString_eq_repr, String.append_right_inj] using h
  have hdigits : Nat.toDigits 10 m = Nat.toDigits 10 n := by
    simpa only [Nat.toList_repr] using congrArg String.toList hrepr
  -- the digits of a number read back as the number
  have hread := congrArg (fun digits => Nat.ofDigitChars 10 digits 0) hdigits
  simpa using hread

theorem nodup_nameCandidates (taken : List String) (preferred : String) :
    (nameCandidates taken preferred).Nodup := by
  unfold nameCandidates
  rw [List.nodup_cons]
  constructor
  · intro hmem
    obtain ⟨n, _, hn⟩ := List.mem_map.1 hmem
    have hempty : Nat.repr (n + 2) = "" := by
      simpa only [Nat.toString_eq_repr, String.append_eq_left_iff] using hn
    exact Nat.repr_ne_empty hempty
  · refine List.nodup_range.map (f := fun n => preferred ++ toString (n + 2)) fun m n h => ?_
    have hsuccessor := numbered_injective preferred h
    omega

theorem freeName_not_mem (taken : List String) (preferred : String) :
    freeName taken preferred ∉ taken := by
  -- The candidates are one more than the names that are taken, so one of them is free.
  unfold freeName
  cases hfound : (nameCandidates taken preferred).find? fun n => !taken.contains n with
  | some n =>
    have hfree := List.find?_some hfound
    simpa using hfree
  | none =>
    have hsubset : nameCandidates taken preferred ⊆ taken := by
      intro n hn
      have htaken := List.find?_eq_none.1 hfound n hn
      simpa using htaken
    have hlength := ((nodup_nameCandidates taken preferred).subperm hsubset).length_le
    simp only [nameCandidates, List.length_cons, List.length_map, List.length_range] at hlength
    omega

def Vocabulary.name (v : Vocabulary) : LibraryRole → String
  | .validators => v.namespaceName
  | .combination => v.allName

/-- The import binds the name to the default export of the source, and nothing else. -/
structure ImportDeclaration.BindsDefault (d : ImportDeclaration) (source : Text) (name : String) :
    Prop where
  source_eq : d.source = source
  kind_eq : d.kind = .value
  specifiers : ∃ s, d.specifiers = [s] ∧ s.binds = name ∧ s.imported = some "default" ∧
    s.source = source ∧ s.kind = .value

theorem ImportDeclaration.BindsDefault.unique {d : ImportDeclaration} {source source' : Text}
    {name name' : String} (h : d.BindsDefault source name) (h' : d.BindsDefault source' name') :
    source = source' ∧ name = name' := by
  obtain ⟨s, hs, hbinds, -⟩ := h.specifiers
  obtain ⟨s', hs', hbinds', -⟩ := h'.specifiers
  rw [hs] at hs'
  cases hs'
  exact ⟨h.source_eq.symm.trans h'.source_eq, hbinds.symm.trans hbinds'⟩

namespace LibraryNames

theorem bindsDefault_importOf (source : Text) (name : String) :
    (importOf source name).BindsDefault source name :=
  ⟨rfl, rfl, _, rfl, rfl, rfl, rfl, rfl⟩

variable {l : LibraryNames} {source : Text} {preferred : String}

theorem reference_cases (l : LibraryNames) (source : Text) (preferred : String) :
    (∃ name, (source, name) ∈ l.given ∧ l.reference source preferred = (name, l)) ∨
    (∃ name, (∀ g ∈ l.given, g.1 ≠ source) ∧ name ∉ l.taken ∧
      l.reference source preferred = (name, ⟨name :: l.taken, l.given ++ [(source, name)]⟩)) := by
  unfold reference
  cases hfound : l.given.find? (·.1 == source) with
  | some g =>
    obtain ⟨s, name⟩ := g
    have hsource : s = source := by simpa using List.find?_some hfound
    subst hsource
    exact .inl ⟨name, List.mem_of_find?_eq_some hfound, rfl⟩
  | none =>
    refine .inr ⟨freeName l.taken preferred, fun g hg => ?_, freeName_not_mem _ _, rfl⟩
    have hne := List.find?_eq_none.1 hfound g hg
    simpa using hne

end LibraryNames

namespace HostOptions

inductive NameStep (h : HostOptions) : LibraryNames → LibraryNames → Prop
  | mk (role : LibraryRole) :
    NameStep h l (l.reference (h.source role) (h.preferredName role)).2

abbrev NamesReach (h : HostOptions) : LibraryNames → LibraryNames → Prop :=
  Relation.ReflTransGen h.NameStep

def Asked (h : HostOptions) (l : LibraryNames) (role : LibraryRole) : Prop :=
  ∃ name, (h.source role, name) ∈ l.given

def Agrees (h : HostOptions) (v : Vocabulary) (l : LibraryNames) : Prop :=
  ∀ role name, (h.source role, name) ∈ l.given → v.name role = name

/-- What is true of the names at any time: every library has one name, which no other library has and
which was not taken at the start. -/
structure Consistent (h : HostOptions) (start : List String) (l : LibraryNames) : Prop where
  sources : (l.given.map (·.1)).Nodup
  names : (l.given.map (·.2)).Nodup
  free : ∀ name ∈ l.given.map (·.2), name ∉ start
  taken : start ⊆ l.taken ∧ l.given.map (·.2) ⊆ l.taken
  asked : ∀ g ∈ l.given, ∃ role, g.1 = h.source role

section

variable {h : HostOptions} {v : Vocabulary} {l l' : LibraryNames} {start : List String}

theorem consistent_ofTaken (h : HostOptions) (start : List String) :
    h.Consistent start (.ofTaken start) :=
  ⟨List.nodup_nil, List.nodup_nil, nofun, ⟨List.Subset.refl _, List.nil_subset _⟩, nofun⟩

theorem Consistent.step (hl : h.Consistent start l) (hstep : h.NameStep l l') :
    h.Consistent start l' := by
  cases hstep with
  | mk role =>
    rcases l.reference_cases (h.source role) (h.preferredName role) with
      ⟨name, _, heq⟩ | ⟨name, hnew, hfree, heq⟩
    · rw [heq]
      exact hl
    · rw [heq]
      -- a name that is given now was not taken, so it is none of those that are given
      have hsource : h.source role ∉ l.given.map (·.1) := by
        intro hmem
        obtain ⟨g, hg, hs⟩ := List.mem_map.1 hmem
        exact hnew g hg hs
      have hname : name ∉ l.given.map (·.2) := fun hmem => hfree (hl.taken.2 hmem)
      refine ⟨?_, ?_, ?_, ⟨?_, ?_⟩, ?_⟩
      · rw [List.map_append]
        exact hl.sources.append (List.nodup_singleton _) (by simpa using hsource)
      · rw [List.map_append]
        exact hl.names.append (List.nodup_singleton _) (by simpa using hname)
      · intro n hn
        simp only [List.map_append, List.map_cons, List.map_nil, List.mem_append,
          List.mem_singleton] at hn
        rcases hn with hn | rfl
        · exact hl.free n hn
        · exact fun hstart => hfree (hl.taken.1 hstart)
      · exact fun n hn => List.mem_cons_of_mem _ (hl.taken.1 hn)
      · intro n hn
        simp only [List.map_append, List.map_cons, List.map_nil, List.mem_append,
          List.mem_singleton] at hn
        rcases hn with hn | rfl
        · exact List.mem_cons_of_mem _ (hl.taken.2 hn)
        · exact List.mem_cons_self
      · intro g hg
        rcases List.mem_append.1 hg with hg | hg
        · exact hl.asked g hg
        · rw [List.mem_singleton.1 hg]
          exact ⟨role, rfl⟩

theorem Consistent.reaches (hl : h.Consistent start l) (hr : h.NamesReach l l') :
    h.Consistent start l' := by
  induction hr with
  | refl => exact hl
  | tail _ hstep ih => exact ih.step hstep

theorem NamesReach.given_subset (hr : h.NamesReach l l') : l.given ⊆ l'.given := by
  induction hr with
  | refl => exact List.Subset.refl _
  | @tail l₁ _ _ hstep ih =>
    cases hstep with
    | mk role =>
      rcases l₁.reference_cases (h.source role) (h.preferredName role) with
        ⟨_, _, heq⟩ | ⟨_, _, _, heq⟩
      · rw [heq]
        exact ih
      · rw [heq]
        exact fun g hg => List.mem_append_left _ (ih hg)

theorem Agrees.of_reaches (ha : h.Agrees v l') (hr : h.NamesReach l l') : h.Agrees v l :=
  fun role name hmem => ha role name (hr.given_subset hmem)

/-- Some vocabulary has the names of a run, whatever was asked for and also if both libraries are
one. -/
theorem Consistent.exists_agrees (hl : h.Consistent start l) : ∃ v, h.Agrees v l := by
  let nameOf (role : LibraryRole) : String :=
    ((l.given.find? (·.1 == h.source role)).map (·.2)).getD ""
  have hnameOf (role : LibraryRole) (name : String) (hmem : (h.source role, name) ∈ l.given) :
      nameOf role = name := by
    cases hfound : l.given.find? (·.1 == h.source role) with
    | none =>
      have hne := List.find?_eq_none.1 hfound _ hmem
      simp at hne
    | some g =>
      have hsource : g.1 = h.source role := by simpa using List.find?_some hfound
      have hsame : g = (h.source role, name) :=
        List.inj_on_of_nodup_map hl.sources (List.mem_of_find?_eq_some hfound) hmem hsource
      simp only [nameOf, hfound, hsame, Option.map_some, Option.getD_some]
  refine ⟨⟨nameOf .validators, nameOf .combination⟩, fun role name hmem => ?_⟩
  cases role with
  | validators => exact hnameOf .validators name hmem
  | combination => exact hnameOf .combination name hmem

theorem reference_mem_given (l : LibraryNames) (source : Text) (preferred : String) :
    (source, (l.reference source preferred).1) ∈ (l.reference source preferred).2.given := by
  rcases l.reference_cases source preferred with ⟨name, hmem, heq⟩ | ⟨name, _, _, heq⟩
  · rw [heq]
    exact hmem
  · rw [heq]
    exact List.mem_append_right _ (List.mem_singleton_self _)

theorem asked_reference {role role' : LibraryRole} (hne : h.source role' ≠ h.source role)
    (ha : h.Asked (l.reference (h.source role) (h.preferredName role)).2 role') :
    h.Asked l role' := by
  obtain ⟨name, hmem⟩ := ha
  rcases l.reference_cases (h.source role) (h.preferredName role) with
    ⟨_, _, heq⟩ | ⟨_, _, _, heq⟩
  · rw [heq] at hmem
    exact ⟨name, hmem⟩
  · rw [heq] at hmem
    rcases List.mem_append.1 hmem with hmem | hmem
    · exact ⟨name, hmem⟩
    · have hsource := congrArg Prod.fst (List.mem_singleton.1 hmem)
      exact (hne hsource).elim

end

end HostOptions

end PropTables
