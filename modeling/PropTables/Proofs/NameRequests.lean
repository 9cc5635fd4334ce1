import Mathlib.Data.List.Infix
import PropTables.Proofs.LibraryNames

/-! Requests for names, in any order. A name is chosen by a search that nothing bounds but the names that
are taken; what was answered to all requests so far tells which names these are, which imports are
pending, and what the next answer will be. -/

namespace PropTables

def attempt (preferred : String) : Nat → String
  | 0 => preferred
  | n + 1 => preferred ++ toString (n + 2)

/-- The name at which the search ends if nothing but a free name ends it. -/
def FirstFree (taken : String → Prop) (preferred name : String) : Prop :=
  ∃ n, attempt preferred n = name ∧ ¬ taken name ∧ ∀ m < n, taken (attempt preferred m)

theorem FirstFree.congr {taken taken' : String → Prop} {preferred name : String}
    (h : ∀ n, taken n ↔ taken' n) (hf : FirstFree taken preferred name) :
    FirstFree taken' preferred name := by
  obtain ⟨n, hn, hfree, htaken⟩ := hf
  refine ⟨n, hn, ?_, ?_⟩
  · exact fun hname => hfree ((h name).2 hname)
  · exact fun m hm => (h _).1 (htaken m hm)

theorem nameCandidates_eq_map (taken : List String) (preferred : String) :
    nameCandidates taken preferred = (List.range (taken.length + 1)).map (attempt preferred) := by
  rw [List.range_succ_eq_map, List.map_cons, List.map_map]
  rfl

theorem firstFree_freeName (taken : List String) (preferred : String) :
    FirstFree (· ∈ taken) preferred (freeName taken preferred) := by
  -- So many names are tried that the end of the candidates is never reached.
  have hfree := freeName_not_mem taken preferred
  unfold freeName at hfree ⊢
  cases hfound : (nameCandidates taken preferred).find? fun n => !taken.contains n with
  | none =>
    rw [hfound, Option.getD_none] at hfree
    have htaken := List.find?_eq_none.1 hfound preferred List.mem_cons_self
    simp [hfree] at htaken
  | some name =>
    rw [hfound, Option.getD_some] at hfree
    rw [nameCandidates_eq_map, List.find?_map, Option.map_eq_some_iff] at hfound
    obtain ⟨n, hn, rfl⟩ := hfound
    obtain ⟨-, -, hbefore⟩ := List.find?_range_eq_some.1 hn
    refine ⟨n, rfl, hfree, fun m hm => ?_⟩
    have htaken := hbefore m hm
    simpa using htaken

inductive NameRequest
  | reference (source : Text) (preferred : String)
  | unique (preferred : String)

namespace NameRequest

def library? : NameRequest → Option Text
  | reference source _ => some source
  | unique _ => none

def preferred : NameRequest → String
  | reference _ preferred => preferred
  | unique preferred => preferred

end NameRequest

structure Answered where
  request : NameRequest
  name : String

def NameRequest.IsNew (before : List Answered) (r : NameRequest) : Prop :=
  ∀ source, r.library? = some source → ∀ a ∈ before, a.request.library? ≠ some source

def HandedOut (log : List Answered) (name : String) : Prop :=
  ∃ before a, before ++ [a] <+: log ∧ a.request.IsNew before ∧ a.name = name

namespace LibraryNames

def answer (l : LibraryNames) : NameRequest → String × LibraryNames
  | .reference source preferred => l.reference source preferred
  | .unique preferred => l.unique preferred

def serve (l : LibraryNames) : List NameRequest → List Answered × LibraryNames
  | [] => ([], l)
  | r :: rs =>
    let (name, next) := l.answer r
    let (answers, last) := next.serve rs
    (⟨r, name⟩ :: answers, last)

end LibraryNames

section

theorem eraseDups_concat {α : Type} [BEq α] [LawfulBEq α] [DecidableEq α] (xs : List α) (x : α) :
    (xs ++ [x]).eraseDups = if x ∈ xs then xs.eraseDups else xs.eraseDups ++ [x] := by
  rw [List.eraseDups_append]
  split
  next h => simp [List.removeAll, h]
  next h => simp [List.removeAll, h, List.eraseDups_cons]

theorem nodup_eraseDups {α : Type} [BEq α] [LawfulBEq α] [DecidableEq α] (xs : List α) :
    xs.eraseDups.Nodup := by
  induction xs using List.reverseRecOn with
  | nil => exact List.nodup_nil
  | append_singleton xs x ih =>
    rw [eraseDups_concat]
    split
    next hx => exact ih
    next hx =>
      have hlast : x ∉ xs.eraseDups := fun hmem => hx (List.mem_eraseDups.1 hmem)
      exact ih.append (List.nodup_singleton x) (by simpa using hlast)

theorem prefix_concat_cases {α : Type} {before log : List α} {a b : α}
    (h : before ++ [a] <+: log ++ [b]) : before = log ∧ a = b ∨ before ++ [a] <+: log := by
  rcases List.prefix_concat_iff.1 h with heq | hprefix
  · obtain ⟨hbefore, hlast⟩ := List.append_inj' heq rfl
    exact .inl ⟨hbefore, List.singleton_inj.1 hlast⟩
  · exact .inr hprefix

variable {log : List Answered} {a : Answered} {name : String} {start : List String} {l : LibraryNames}

theorem handedOut_nil : ¬ HandedOut [] name := by
  rintro ⟨before, a, hprefix, -⟩
  have hempty := List.prefix_nil.1 hprefix
  simp at hempty

theorem handedOut_concat :
    HandedOut (log ++ [a]) name ↔ HandedOut log name ∨ a.request.IsNew log ∧ a.name = name := by
  constructor
  · rintro ⟨before, b, hprefix, hnew, hname⟩
    rcases prefix_concat_cases hprefix with ⟨rfl, rfl⟩ | hprefix
    · exact .inr ⟨hnew, hname⟩
    · exact .inl ⟨before, b, hprefix, hnew, hname⟩
  · rintro (⟨before, b, hprefix, hnew, hname⟩ | ⟨hnew, hname⟩)
    · exact ⟨before, b, hprefix.trans (List.prefix_append _ _), hnew, hname⟩
    · exact ⟨log, a, List.prefix_rfl, hnew, hname⟩

/-- The answers so far account for the names: for those that are taken, for those of the libraries, and
each for the answers behind it. -/
structure Accounts (start : List String) (log : List Answered) (l : LibraryNames) : Prop where
  taken : ∀ n, n ∈ l.taken ↔ n ∈ start ∨ HandedOut log n
  sources : l.given.map (·.1) = (log.filterMap (·.request.library?)).eraseDups
  given : ∀ a ∈ log, ∀ source, a.request.library? = some source → (source, a.name) ∈ l.given
  answers : ∀ g ∈ l.given, ∃ a ∈ log, a.request.library? = some g.1 ∧ a.name = g.2
  firstFree : ∀ before a, before ++ [a] <+: log → a.request.IsNew before →
    FirstFree (fun n => n ∈ start ∨ HandedOut before n) a.request.preferred a.name

namespace Accounts

theorem ofTaken (start : List String) : Accounts start [] (.ofTaken start) where
  taken n := by simp [LibraryNames.ofTaken, handedOut_nil]
  sources := rfl
  given a ha := by cases ha
  answers g hg := by cases hg
  firstFree before a hprefix := by
    have hempty := List.prefix_nil.1 hprefix
    simp at hempty

theorem isNew_iff (h : Accounts start log l) (r : NameRequest) :
    r.IsNew log ↔ ∀ source, r.library? = some source → ∀ g ∈ l.given, g.1 ≠ source := by
  constructor
  · intro hnew source hsource g hg hsame
    obtain ⟨a, ha, hlibrary, -⟩ := h.answers g hg
    exact hnew source hsource a ha (hsame ▸ hlibrary)
  · intro hnone source hsource a ha hlibrary
    exact hnone source hsource _ (h.given a ha source hlibrary) rfl

theorem answer_cases (h : Accounts start log l) (r : NameRequest) :
    (∃ name, r.IsNew log ∧ FirstFree (· ∈ l.taken) r.preferred name ∧
      l.answer r = (name, ⟨name :: l.taken, l.given ++ r.library?.toList.map (·, name)⟩)) ∨
    (∃ source name, ¬ r.IsNew log ∧ r.library? = some source ∧ (source, name) ∈ l.given ∧
      l.answer r = (name, l)) := by
  rw [h.isNew_iff]
  cases r with
  | unique preferred =>
    refine .inl ⟨freeName l.taken preferred, ?_, firstFree_freeName _ _, ?_⟩
    · intro source hsource
      cases hsource
    · show l.unique preferred = _
      simp [LibraryNames.unique, NameRequest.library?]
  | reference source preferred =>
    have hanswer : l.answer (.reference source preferred) = l.reference source preferred := rfl
    rw [hanswer]
    unfold LibraryNames.reference
    cases hfound : l.given.find? (·.1 == source) with
    | none =>
      refine .inl ⟨freeName l.taken preferred, ?_, firstFree_freeName _ _, rfl⟩
      intro s hs g hg hsame
      have hne := List.find?_eq_none.1 hfound g hg
      have hsource : source = s := Option.some.inj hs
      simp [hsame, hsource] at hne
    | some g =>
      have hg := List.mem_of_find?_eq_some hfound
      have hsource : g.1 = source := by simpa using List.find?_some hfound
      refine .inr ⟨source, g.2, ?_, rfl, hsource ▸ hg, rfl⟩
      intro hnone
      exact hnone source rfl g hg hsource

theorem hand (h : Accounts start log l) {r : NameRequest} (hnew : r.IsNew log)
    (hfree : FirstFree (· ∈ l.taken) r.preferred name) :
    Accounts start (log ++ [⟨r, name⟩])
      ⟨name :: l.taken, l.given ++ r.library?.toList.map (·, name)⟩ where
  taken n := by
    rw [List.mem_cons, handedOut_concat, h.taken]
    constructor
    · rintro (rfl | hstart | hbefore)
      · exact .inr (.inr ⟨hnew, rfl⟩)
      · exact .inl hstart
      · exact .inr (.inl hbefore)
    · rintro (hstart | hbefore | ⟨-, rfl⟩)
      · exact .inr (.inl hstart)
      · exact .inr (.inr hbefore)
      · exact .inl rfl
  sources := by
    rw [List.map_append, h.sources, List.filterMap_append]
    cases hsource : r.library? with
    | none => simp [hsource]
    | some source =>
      have hfirst : source ∉ log.filterMap (·.request.library?) := by
        intro hmem
        obtain ⟨a, ha, hlibrary⟩ := List.mem_filterMap.1 hmem
        exact hnew source hsource a ha hlibrary
      have hlast : [(⟨r, name⟩ : Answered)].filterMap (·.request.library?) = [source] := by
        simp [hsource]
      rw [hlast, eraseDups_concat, if_neg hfirst]
      rfl
  given a ha source hsource := by
    rcases List.mem_append.1 ha with ha | ha
    · exact List.mem_append_left _ (h.given a ha source hsource)
    · obtain rfl := List.mem_singleton.1 ha
      apply List.mem_append_right
      simp [hsource]
  answers g hg := by
    rcases List.mem_append.1 hg with hg | hg
    · obtain ⟨a, ha, hlibrary⟩ := h.answers g hg
      exact ⟨a, List.mem_append_left _ ha, hlibrary⟩
    · obtain ⟨source, hsource, rfl⟩ := List.mem_map.1 hg
      refine ⟨⟨r, name⟩, List.mem_append_right _ List.mem_cons_self, ?_, rfl⟩
      exact Option.mem_toList.1 hsource
  firstFree before a hprefix hnewer := by
    rcases prefix_concat_cases hprefix with ⟨rfl, rfl⟩ | hprefix
    · exact hfree.congr h.taken
    · exact h.firstFree before a hprefix hnewer

theorem again (h : Accounts start log l) {r : NameRequest} {source : Text} (hknown : ¬ r.IsNew log)
    (hsource : r.library? = some source) (hgiven : (source, name) ∈ l.given) :
    Accounts start (log ++ [⟨r, name⟩]) l where
  taken n := by
    rw [handedOut_concat, h.taken]
    simp [hknown]
  sources := by
    have hmem : source ∈ log.filterMap (·.request.library?) := by
      obtain ⟨a, ha, hlibrary, -⟩ := h.answers _ hgiven
      exact List.mem_filterMap.2 ⟨a, ha, hlibrary⟩
    have hlast : [(⟨r, name⟩ : Answered)].filterMap (·.request.library?) = [source] := by
      simp [hsource]
    rw [h.sources, List.filterMap_append, hlast, eraseDups_concat, if_pos hmem]
  given a ha s hs := by
    rcases List.mem_append.1 ha with ha | ha
    · exact h.given a ha s hs
    · obtain rfl := List.mem_singleton.1 ha
      have hsame : source = s := Option.some.inj (hsource.symm.trans hs)
      exact hsame ▸ hgiven
  answers g hg := by
    obtain ⟨a, ha, hlibrary⟩ := h.answers g hg
    exact ⟨a, List.mem_append_left _ ha, hlibrary⟩
  firstFree before a hprefix hnewer := by
    rcases prefix_concat_cases hprefix with ⟨rfl, rfl⟩ | hprefix
    · exact absurd hnewer hknown
    · exact h.firstFree before a hprefix hnewer

theorem answer (h : Accounts start log l) (r : NameRequest) :
    Accounts start (log ++ [⟨r, (l.answer r).1⟩]) (l.answer r).2 := by
  rcases h.answer_cases r with ⟨name, hnew, hfree, heq⟩ | ⟨source, name, hknown, hsource, hgiven, heq⟩
  · rw [heq]
    exact h.hand hnew hfree
  · rw [heq]
    exact h.again hknown hsource hgiven

theorem serve (h : Accounts start log l) (rs : List NameRequest) :
    Accounts start (log ++ (l.serve rs).1) (l.serve rs).2 := by
  induction rs generalizing log l with
  | nil => simpa [LibraryNames.serve] using h
  | cons r rs ih =>
    have hrest := ih (h.answer r)
    rw [List.append_assoc] at hrest
    exact hrest

theorem nodup_sources (h : Accounts start log l) : (l.given.map (·.1)).Nodup := by
  rw [h.sources]
  exact nodup_eraseDups _

theorem name_eq (h : Accounts start log l) {b : Answered} (ha : a ∈ log) (hb : b ∈ log)
    {source : Text} (hsource : a.request.library? = some source)
    (hsource' : b.request.library? = some source) : a.name = b.name := by
  have hsame := List.inj_on_of_nodup_map h.nodup_sources (h.given a ha source hsource)
    (h.given b hb source hsource') rfl
  exact congrArg Prod.snd hsame

theorem pending (h : Accounts start log l) :
    List.Forall₂ (fun source declaration => ∃ a ∈ log, a.request.library? = some source ∧
      declaration.BindsDefault source a.name)
      (log.filterMap (·.request.library?)).eraseDups l.pending := by
  rw [← h.sources, LibraryNames.pending, List.forall₂_map_left_iff, List.forall₂_map_right_iff,
    List.forall₂_same]
  intro g hg
  obtain ⟨a, ha, hlibrary, hname⟩ := h.answers g hg
  exact ⟨a, ha, hlibrary, hname ▸ LibraryNames.bindsDefault_importOf g.1 g.2⟩

theorem apart (h : Accounts start log l) {before before' : List Answered} {b : Answered}
    (ha : before ++ [a] <+: log) (hb : before' ++ [b] <+: log) (hlt : before.length < before'.length)
    (hnew : a.request.IsNew before) (hnew' : b.request.IsNew before') : a.name ≠ b.name := by
  intro hname
  obtain ⟨-, -, hfree, -⟩ := h.firstFree before' b hb hnew'
  have hbefore : before' <+: log := (List.prefix_append _ _).trans hb
  have hearlier : before ++ [a] <+: before' := by
    apply List.prefix_of_prefix_length_le ha hbefore
    rw [List.length_append]
    exact hlt
  exact hfree (.inr ⟨before, a, hearlier, hnew, hname⟩)

end Accounts

end

namespace LibraryNames

theorem map_request_serve (l : LibraryNames) (rs : List NameRequest) :
    (l.serve rs).1.map (·.request) = rs := by
  induction rs generalizing l with
  | nil => rfl
  | cons r rs ih => exact congrArg (r :: ·) (ih _)

/-- Every request is answered. The first one for a library, and one that is for none, gets the first name
that is free by then: none of those from the start and none that was handed out before. Later requests
for a library get its name again. Every library has one pending import, in the order of the first
requests, which binds its name to the default export, and nothing is taken but what was so at the start
and what was handed out. -/
theorem serve_requests (start : List String) (requests : List NameRequest) :
    let log := ((ofTaken start).serve requests).1
    let last := ((ofTaken start).serve requests).2
    log.map (·.request) = requests ∧
    (∀ before a, before ++ [a] <+: log → a.request.IsNew before →
      FirstFree (fun n => n ∈ start ∨ HandedOut before n) a.request.preferred a.name) ∧
    (∀ before a before' b, before ++ [a] <+: log → before' ++ [b] <+: log →
      before.length < before'.length → a.request.IsNew before → b.request.IsNew before' →
      a.name ≠ b.name) ∧
    (∀ n, HandedOut log n → n ∉ start) ∧
    (∀ a ∈ log, ∀ b ∈ log, ∀ source, a.request.library? = some source →
      b.request.library? = some source → a.name = b.name) ∧
    List.Forall₂ (fun source declaration => ∃ a ∈ log, a.request.library? = some source ∧
      declaration.BindsDefault source a.name)
      (requests.filterMap NameRequest.library?).eraseDups last.pending ∧
    ∀ n, n ∈ last.taken ↔ n ∈ start ∨ HandedOut log n := by
  intro log last
  have haccounts : Accounts start log last := (Accounts.ofTaken start).serve requests
  have hrequests : log.map (·.request) = requests := map_request_serve _ _
  refine ⟨hrequests, haccounts.firstFree, ?_, ?_, ?_, ?_, haccounts.taken⟩
  · intro before a before' b ha hb hlt hnew hnew'
    exact haccounts.apart ha hb hlt hnew hnew'
  · rintro n ⟨before, a, hprefix, hnew, rfl⟩ hstart
    obtain ⟨-, -, hfree, -⟩ := haccounts.firstFree before a hprefix hnew
    exact hfree (.inl hstart)
  · intro a ha b hb source hsource hsource'
    exact haccounts.name_eq ha hb hsource hsource'
  · have hpending := haccounts.pending
    have hlibraries : requests.filterMap NameRequest.library? =
        log.filterMap (·.request.library?) := by
      rw [← hrequests, List.filterMap_map]
      rfl
    rw [hlibraries]
    exact hpending

/-- A numbered name that another request prefers, and a second request for one library. -/
example :
    ((ofTaken ["Props"]).serve [.unique "Props", .reference (.ofString "types") "Props",
      .unique "Props2", .reference (.ofString "types") "Other"]).1.map (·.name) =
      ["Props2", "Props3", "Props22", "Props3"] := by
  decide

end LibraryNames

end PropTables
