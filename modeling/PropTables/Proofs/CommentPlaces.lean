import PropTables.Proofs.ConstructComments
import PropTables.Proofs.Sentences

/-! Comments in a module that has been read. Each is kept at most once, and the members of an object type
keep those that belong to them. -/

namespace PropTables

namespace ObjectTree

def spans (tree : ObjectTree) : List Extent :=
  tree.members.map (·.1)

structure Placed (comments : List Comment) (tree : ObjectTree) : Prop where
  notes : Notes.ofObject comments tree.extent tree.spans =
    (List.range tree.spans.length).map fun i =>
      ⟨(Notes.belonging comments tree.extent tree.spans (.leading i)).map (·.text),
        (Notes.belonging comments tree.extent tree.spans (.trailing i)).map (·.text)⟩
  unique : tree.members ≠ [] → ∀ c ∈ comments, c.Inside tree.extent → c.Free tree.spans →
    ∃! s : Notes.Place, s.member < tree.spans.length ∧
      c ∈ Notes.belonging comments tree.extent tree.spans s

end ObjectTree

namespace Notes

variable {comments : List Comment} {object : Extent} {members : List Extent} {c : Comment}

theorem existsUnique_belonging (hne : members ≠ []) (hc : c ∈ comments) (hinside : c.Inside object)
    (hfree : c.Free members) :
    ∃! s : Place, s.member < members.length ∧ c ∈ belonging comments object members s := by
  have hplace (s : Place) : c ∈ belonging comments object members s ↔
      Place.ofPosition members c.extent.start = s := by
    simp [belonging, hc, hinside, hfree]
  simp only [hplace]
  exact ⟨_, ⟨Place.member_lt hne _, rfl⟩, fun s hs => hs.2.symm⟩

end Notes

namespace Lexing

variable {l : Lexing}

def Clear (l : Lexing) (p : Position) : Prop :=
  ∀ c ∈ l.comments, c.extent.ClearOf p

theorem InOrder.comments_pairwise (h : l.InOrder) :
    l.comments.Pairwise fun c d => c.extent.Precedes d.extent := by
  refine h.pairwise.filterMap _ ?_
  intro x y hxy c hc d hd
  rw [(comment?_eq_some hc).2, (comment?_eq_some hd).2]
  exact hxy

theorem InOrder.comment_pos (h : l.InOrder) {c : Comment} (hc : c ∈ l.comments) :
    c.extent.start < c.extent.stop := by
  obtain ⟨x, hx, hxc⟩ := List.mem_filterMap.1 hc
  rw [(comment?_eq_some hxc).2]
  exact h.start_lt_stop x hx

theorem ordered_ofSource (source : String) :
    Ordered (ofSource source).Clear (ofSource source).tokens := by
  have ho := inOrder_ofSource source
  refine ⟨fun c hc => .inr ?_, fun t ht => ?_, ho.tokens_pairwise⟩
  · obtain ⟨x, hx, hxc⟩ := List.mem_filterMap.1 hc
    rw [(comment?_eq_some hxc).2]
    exact first_le_of_mem hx
  · refine ⟨?_, ?_, fun c hc => ho.clear hc ht⟩
    all_goals
      obtain ⟨x, hx, hxt⟩ := List.mem_filterMap.1 ht
      rw [Token.start, (token?_eq_some hxt).2]
    · exact first_le_of_mem hx
    · exact ho.start_lt_stop x hx

end Lexing

section Sources

variable {names : CharacterNames} {source : String} {file : Option String} {m : Module}

theorem ObjectTree.WrittenIn.placed {tree : ObjectTree}
    (h : tree.WrittenIn (Lexing.ofSource source).tokens) :
    tree.Placed (Lexing.ofSource source).comments := by
  have ho := Lexing.inOrder_ofSource source
  have hkept : ∃ p q, tree.Keeps (ObjectTree.WrittenIn (Lexing.ofSource source).tokens)
      (Lexing.ofSource source).Clear p q := by
    obtain ⟨n, hn, c, d, hc, h⟩ := h
    obtain ⟨-, -, -, hkept⟩ := Construct.traces_of_written (Lexing.ordered_ofSource source) h hc
    have hkept := hkept c.start le_rfl
    rcases List.mem_pair.1 hn with rfl | rfl <;> exact ⟨_, _, hkept⟩
  obtain ⟨p, q, hkept⟩ := hkept
  refine ⟨Notes.ofObject_eq hkept.holds (fun c hc => ho.comment_pos hc) fun c hc s hs => ?_,
    fun hne c hc hinside hfree => ?_⟩
  · obtain ⟨x, hx, rfl⟩ := List.mem_map.1 hs
    exact hkept.ends x hx c hc
  · exact Notes.existsUnique_belonging (by simpa [spans] using hne) hc hinside hfree

theorem Module.keeps_comments (h : Module.ofSource names source file = .ok m) :
    commentsIn m ≤ ((Lexing.ofSource source).comments : Multiset Comment).map (·.text) ∧
      ∀ o ∈ objectsIn m, Made (ObjectTree.WrittenIn (Lexing.ofSource source).tokens)
        (Lexing.ofSource source).comments o := by
  obtain ⟨-, -, items, ⟨last, hwritten⟩, hrun⟩ := Module.ofSource_eq_ok_iff.1 h
  have hon : Cursor.On (Lexing.ofSource source).tokens
      ⟨.first, (Lexing.ofSource source).tokens⟩ := ⟨[], rfl, rfl⟩
  obtain ⟨-, -, -, hkept⟩ :=
    Construct.traces_of_written (Lexing.ordered_ofSource source) hwritten hon
  have hkeeps := keeps_all (hkept _ le_rfl)
  have htexts := hkeeps.texts _ _ hrun
  rw [Multiset.zero_bind, zero_add] at htexts
  refine ⟨htexts.trans ?_, fun o ho => hkeeps.made _ _ hrun (by simp) o ho⟩
  exact Multiset.map_le_map (Multiset.filter_le _ _)

/-- Every comment is kept at most once, and by the member that it belongs to: the comments in a module
are those of some comments of its source, and the members of its object types have the comments at
their places. -/
theorem Module.comments_attached (h : Module.ofSource names source file = .ok m) :
    (Lexing.ofSource source).comments.Pairwise (fun c d => c.extent.Precedes d.extent) ∧
    (∃ kept : List Comment, kept.Sublist (Lexing.ofSource source).comments ∧
      commentsIn m = (kept.map (·.text) : List String)) ∧
    (∀ o ∈ objectsIn m, ∃ tree : ObjectTree, tree.WrittenIn (Lexing.ofSource source).tokens ∧
      tree.Gives (Lexing.ofSource source).comments o) ∧
    ∀ tree : ObjectTree, tree.WrittenIn (Lexing.ofSource source).tokens →
      tree.Placed (Lexing.ofSource source).comments := by
  obtain ⟨hle, hmade⟩ := Module.keeps_comments h
  refine ⟨(Lexing.inOrder_ofSource source).comments_pairwise, ?_, hmade, fun tree => ObjectTree.WrittenIn.placed⟩
  generalize commentsIn m = texts at hle
  induction texts using Quot.inductionOn with
  | h texts =>
    obtain ⟨texts', hperm, hsub⟩ := Multiset.coe_le.1 hle
    obtain ⟨kept, hkept, rfl⟩ := List.sublist_map_iff.1 hsub
    exact ⟨kept, hkept, Quot.sound hperm.symm⟩

theorem Module.comments_attached_of_pair :
    let source := "type A = \x7b // one\n  a: /* two */ \x7b b: B \x7d, // three\n  // four\n  c: C \x7d"
    ∃ m, Module.ofSource .none source none = .ok m ∧
      (∃ kept : List Comment, kept.Sublist (Lexing.ofSource source).comments ∧
        commentsIn m = (kept.map (·.text) : List String)) ∧
      ∀ tree : ObjectTree, tree.WrittenIn (Lexing.ofSource source).tokens →
        tree.Placed (Lexing.ofSource source).comments := by
  intro source
  have hok : (Module.ofSource .none source none).toOption.isSome := by decide +kernel
  obtain ⟨m, h⟩ := Module.exists_eq_ok hok
  have hall := Module.comments_attached h
  exact ⟨m, h, hall.2.1, hall.2.2.2⟩

end Sources

end PropTables
