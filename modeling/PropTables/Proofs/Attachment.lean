import Mathlib.Algebra.Order.Group.Multiset
import Mathlib.Data.List.Induction
import Mathlib.Tactic.Abel
import PropTables.Grammar.Build
import PropTables.Proofs.TextOrder

/-! The comments of an object that its members keep. What stands between two members goes to one of
them, so no comment is kept twice. -/

namespace PropTables

structure Extent.Holds (object : Extent) (members : List Extent) : Prop where
  inside : ∀ m ∈ members, object.start ≤ m.start ∧ m.start < m.stop ∧ m.stop ≤ object.stop
  pairwise : members.Pairwise Extent.Precedes

namespace Comment

def Inside (object : Extent) (c : Comment) : Prop :=
  object.start < c.extent.start ∧ c.extent.stop ≤ object.stop

def Free (members : List Extent) (c : Comment) : Prop :=
  ∀ m ∈ members, ¬ (m.start ≤ c.extent.start ∧ c.extent.stop ≤ m.stop)

instance (object : Extent) : DecidablePred (Inside object) :=
  fun _ => inferInstanceAs (Decidable (_ ∧ _))

instance (members : List Extent) : DecidablePred (Free members) :=
  fun _ => inferInstanceAs (Decidable (∀ _ ∈ _, _))

end Comment

namespace Notes

inductive Place where
  | leading (member : Nat)
  | trailing (member : Nat)
deriving DecidableEq

namespace Place

def member : Place → Nat
  | leading i | trailing i => i

/-- Where a comment that starts at `p` belongs: behind the last of the members that end before it if
it starts on the line where that one ends or no member follows, and before the next one otherwise. -/
def ofPosition (members : List Extent) (p : Position) : Place :=
  let ended := members.filter (·.stop ≤ p)
  match ended.getLast? with
  | .none => leading 0
  | some m =>
    if p.line = m.stop.line ∨ ended.length = members.length then trailing (ended.length - 1)
    else leading ended.length

end Place

def belonging (comments : List Comment) (object : Extent) (members : List Extent) (s : Place) :
    List Comment :=
  comments.filter fun c =>
    c.Inside object ∧ c.Free members ∧ Place.ofPosition members c.extent.start = s

section Places

variable {comments : List Comment} {object m : Extent} {members us vs ms : List Extent}
  {p gap close : Position} {follows : Bool} {c : Comment}

def Parted (us vs : List Extent) (p : Position) : Prop :=
  (∀ u ∈ us, u.stop ≤ p) ∧ ∀ v ∈ vs, p < v.start

theorem Place.ofPosition_append (hv : ∀ v ∈ vs, v.start < v.stop) (h : Parted us vs p) :
    ofPosition (us ++ vs) p = match us.getLast? with
      | .none => leading 0
      | some m =>
        if p.line = m.stop.line ∨ vs = [] then trailing (us.length - 1) else leading us.length := by
  have hended : (us ++ vs).filter (fun m => m.stop ≤ p) = us := by
    have hus : us.filter (fun m => m.stop ≤ p) = us :=
      List.filter_eq_self.2 fun u hu => decide_eq_true (h.1 u hu)
    have hvs : vs.filter (fun m => m.stop ≤ p) = [] :=
      List.filter_eq_nil_iff.2 fun v hm => by simpa using (h.2 v hm).trans (hv v hm)
    rw [List.filter_append, hus, hvs, List.append_nil]
  simp only [ofPosition, hended]
  simp

theorem Place.ofPosition_eq_leading (hv : ∀ v ∈ vs, v.start < v.stop) (h : Parted us vs p) {i : Nat} :
    ofPosition (us ++ vs) p = leading i ↔
      us.length = i ∧ ∀ u ∈ us.getLast?, p.line ≠ u.stop.line ∧ vs ≠ [] := by
  rw [ofPosition_append hv h]
  cases hu : us.getLast? with
  | none => simp [List.getLast?_eq_none_iff.1 hu]
  | some u =>
    by_cases hat : p.line = u.stop.line ∨ vs = []
    · have hnot : ¬ (p.line ≠ u.stop.line ∧ vs ≠ []) := fun h => hat.elim h.1 h.2
      simp only [if_pos hat, reduceCtorEq, Option.mem_def, Option.some.injEq, forall_eq', hnot,
        and_false]
    · simp [not_or.1 hat]

theorem Place.ofPosition_eq_trailing (hv : ∀ v ∈ vs, v.start < v.stop) (h : Parted us vs p)
    {i : Nat} :
    ofPosition (us ++ vs) p = trailing i ↔
      us.length = i + 1 ∧ ∃ u ∈ us.getLast?, p.line = u.stop.line ∨ vs = [] := by
  rw [ofPosition_append hv h]
  cases hu : us.getLast? with
  | none => simp
  | some u =>
    have hpos : 0 < us.length := List.length_pos_iff.2 fun he => by simp [he] at hu
    have hlength : us.length - 1 = i ↔ us.length = i + 1 := by omega
    by_cases hat : p.line = u.stop.line ∨ vs = [] <;> simp [hat, hlength]

theorem Place.member_lt (hne : members ≠ []) (p : Position) :
    (ofPosition members p).member < members.length := by
  have hpos : 0 < members.length := List.length_pos_iff.2 hne
  have hle : (members.filter (·.stop ≤ p)).length ≤ members.length := List.length_filter_le _ _
  simp only [ofPosition]
  split
  · exact hpos
  · split
    · simp only [member]
      omega
    · next hnot =>
      simp only [member]
      exact lt_of_le_of_ne hle fun he => hnot (.inr he)

theorem exists_parted (hm : ∀ m ∈ members, m.start < m.stop)
    (hpair : members.Pairwise Extent.Precedes) (hc : c.Free members)
    (hclear : ∀ m ∈ members, c.extent.ClearOf m.stop) :
    ∃ us vs, members = us ++ vs ∧ Parted us vs c.extent.start := by
  induction members with
  | nil => exact ⟨[], [], rfl, by simp [Parted]⟩
  | cons m ms ih =>
    rw [List.pairwise_cons] at hpair
    rw [List.forall_mem_cons] at hm hclear
    rw [Comment.Free, List.forall_mem_cons] at hc
    rcases hclear.1 with hstop | hstart
    · -- the comment ends within the text up to the member's end, so it starts before the member
      have hlt : c.extent.start < m.start := lt_of_not_ge fun h => hc.1 ⟨h, hstop⟩
      refine ⟨[], m :: ms, rfl, by simp, ?_⟩
      rintro v (_ | ⟨_, hv⟩)
      · exact hlt
      · exact hlt.trans (hm.1.trans_le (hpair.1 v hv))
    · obtain ⟨us, vs, rfl, hus, hvs⟩ := ih hm.2 hpair.2 hc.2 hclear.2
      exact ⟨m :: us, vs, rfl, List.forall_mem_cons.2 ⟨hstart, hus⟩, hvs⟩

theorem Parted.free (h : Parted us vs c.extent.start) (hc : c.extent.start < c.extent.stop) :
    c.Free (us ++ vs) := by
  rintro m hm ⟨hstart, hstop⟩
  rcases List.mem_append.1 hm with hm | hm
  · exact absurd ((h.1 m hm).trans_lt hc) (not_lt.2 hstop)
  · exact absurd (h.2 m hm) (not_lt.2 hstart)

def gapAfter (start : Position) (us : List Extent) : Position :=
  (us.getLast?.map (·.stop)).getD start

theorem stop_le_gapAfter (hm : ∀ m ∈ us, m.start < m.stop) (hpair : us.Pairwise Extent.Precedes)
    {u : Extent} (hu : u ∈ us) : u.stop ≤ gapAfter close us := by
  induction us using List.reverseRecOn with
  | nil => cases hu
  | append_singleton us m _ =>
    rw [List.pairwise_append] at hpair
    simp only [gapAfter, List.getLast?_concat, Option.map_some, Option.getD_some]
    rcases List.mem_append.1 hu with hu | hu
    · exact (hpair.2.2 u hu m (by simp)).trans (hm m (by simp)).le
    · rw [List.mem_singleton.1 hu]

theorem ofMembers_getElem? (us : List Extent) (m : Extent) (vs : List Extent) :
    (ofMembers comments close follows gap (us ++ m :: vs))[us.length]? =
      (ofMembers comments close (follows || !us.isEmpty) (gapAfter gap us) (m :: vs)).head? := by
  induction us generalizing follows gap with
  | nil => simp [gapAfter, ofMembers]
  | cons u us ih =>
    have hgap : gapAfter gap (u :: us) = gapAfter u.stop us := by
      cases us <;> simp [gapAfter, List.getLast?_cons]
    rw [List.cons_append, ofMembers, List.length_cons, List.getElem?_cons_succ, ih, hgap]
    simp

theorem free_iff_parted (h : object.Holds members) (hc : c.extent.start < c.extent.stop)
    (hclear : ∀ m ∈ members, c.extent.ClearOf m.stop) :
    c.Free members ↔ ∃ us vs, members = us ++ vs ∧ Parted us vs c.extent.start := by
  refine ⟨fun hfree => exists_parted (fun m hm => (h.inside m hm).2.1) h.pairwise hfree hclear, ?_⟩
  rintro ⟨us, vs, rfl, hparted⟩
  exact hparted.free hc

theorem leads_iff (h : object.Holds (us ++ m :: vs)) (hc : c.extent.start < c.extent.stop)
    (hclear : ∀ x ∈ us ++ m :: vs, c.extent.ClearOf x.stop) :
    gapAfter object.start us ≤ c.extent.start ∧ c.extent.start < m.start ∧
        (us = [] ∨ c.extent.start.line ≠ (gapAfter object.start us).line) ∧ c.Inside object ↔
      c.Inside object ∧ c.Free (us ++ m :: vs) ∧
        Place.ofPosition (us ++ m :: vs) c.extent.start = .leading us.length := by
  have hlt : ∀ x ∈ us ++ m :: vs, x.start < x.stop := fun x hx => (h.inside x hx).2.1
  have hltus : ∀ u ∈ us, u.start < u.stop := fun u hu => hlt u (List.mem_append_left _ hu)
  obtain ⟨hus, hvs, -⟩ := List.pairwise_append.1 h.pairwise
  rw [free_iff_parted h hc hclear]
  constructor
  · rintro ⟨hgap, hbefore, hline, hinside⟩
    -- A comment in the gap before `m` parts the members there, since they stand in order.
    have hparted : Parted us (m :: vs) c.extent.start := by
      refine ⟨fun u hu => (stop_le_gapAfter hltus hus hu).trans hgap, ?_⟩
      rintro v (_ | ⟨_, hv⟩)
      · exact hbefore
      · have hmv : m.stop ≤ v.start := (List.pairwise_cons.1 hvs).1 v hv
        exact hbefore.trans ((hlt m (by simp)).trans_le hmv)
    refine ⟨hinside, ⟨us, m :: vs, rfl, hparted⟩, ?_⟩
    rw [Place.ofPosition_eq_leading (fun v hv => hlt v (List.mem_append_right _ hv)) hparted]
    refine ⟨rfl, fun u hu => ⟨fun he => ?_, List.cons_ne_nil _ _⟩⟩
    rcases hline with rfl | hline
    · cases hu
    · exact hline (by simpa [gapAfter, Option.mem_def.1 hu] using he)
  · rintro ⟨hinside, ⟨us', vs', heq, hparted⟩, hplace⟩
    have hltvs : ∀ v ∈ vs', v.start < v.stop := fun v hv =>
      hlt v (heq ▸ List.mem_append_right _ hv)
    rw [heq, Place.ofPosition_eq_leading hltvs hparted] at hplace
    -- The place counts the members before the comment, so it is parted from them where `m` begins.
    obtain ⟨rfl, rfl⟩ := List.append_inj heq hplace.1.symm
    refine ⟨?_, hparted.2 m (by simp), ?_, hinside⟩
    · cases hu : us.getLast? with
      | none => simpa [gapAfter, hu] using hinside.1.le
      | some u => simpa [gapAfter, hu] using hparted.1 u (List.mem_of_getLast? hu)
    · refine or_iff_not_imp_left.2 fun hne => ?_
      have hu := List.getLast?_eq_some_getLast hne
      simpa [gapAfter, hu] using (hplace.2 _ hu).1

theorem trails_iff (h : object.Holds (us ++ m :: vs)) (hc : c.extent.start < c.extent.stop)
    (hclear : ∀ x ∈ us ++ m :: vs, c.extent.ClearOf x.stop) :
    m.stop ≤ c.extent.start ∧ c.extent.start < (vs.head?.map (·.start)).getD object.stop ∧
        (vs = [] ∨ c.extent.start.line = m.stop.line) ∧ c.Inside object ↔
      c.Inside object ∧ c.Free (us ++ m :: vs) ∧
        Place.ofPosition (us ++ m :: vs) c.extent.start = .trailing us.length := by
  have hlt : ∀ x ∈ us ++ m :: vs, x.start < x.stop := fun x hx => (h.inside x hx).2.1
  have hsplit : us ++ m :: vs = us ++ [m] ++ vs := by simp
  rw [hsplit] at h hlt
  obtain ⟨hus, hvs, -⟩ := List.pairwise_append.1 h.pairwise
  rw [free_iff_parted (hsplit ▸ h) hc hclear]
  constructor
  · rintro ⟨hstop, hnext, hline, hinside⟩
    have hparted : Parted (us ++ [m]) vs c.extent.start := by
      refine ⟨fun u hu => ?_, fun v hv => ?_⟩
      · have hle : u.stop ≤ gapAfter m.stop (us ++ [m]) :=
          stop_le_gapAfter (fun u hu => hlt u (List.mem_append_left _ hu)) hus hu
        simp only [gapAfter, List.getLast?_concat, Option.map_some, Option.getD_some] at hle
        exact hle.trans hstop
      · cases vs with
        | nil => cases hv
        | cons v' vs =>
          have hbefore : c.extent.start < v'.start := hnext
          rcases List.mem_cons.1 hv with rfl | hv
          · exact hbefore
          · have hle : v'.stop ≤ v.start := (List.pairwise_cons.1 hvs).1 v hv
            exact hbefore.trans ((hlt v' (by simp)).trans_le hle)
    refine ⟨hinside, ⟨us ++ [m], vs, hsplit, hparted⟩, ?_⟩
    rw [hsplit, Place.ofPosition_eq_trailing (fun v hv => hlt v (List.mem_append_right _ hv)) hparted]
    exact ⟨by simp, m, by simp, hline.symm⟩
  · rintro ⟨hinside, ⟨us', vs', heq, hparted⟩, hplace⟩
    have heq' : us ++ [m] ++ vs = us' ++ vs' := hsplit ▸ heq
    have hltvs : ∀ v ∈ vs', v.start < v.stop := fun v hv =>
      hlt v (heq' ▸ List.mem_append_right _ hv)
    rw [heq, Place.ofPosition_eq_trailing hltvs hparted] at hplace
    -- Here `m` is the last member before the comment, so that it is parted from what follows `m`.
    obtain ⟨hlength, u, hu, hline⟩ := hplace
    obtain ⟨rfl, rfl⟩ := List.append_inj heq' (by simp [hlength])
    obtain rfl : m = u := by simpa using hu
    refine ⟨hparted.1 m (by simp), ?_, hline.symm, hinside⟩
    cases vs with
    | nil => exact hc.trans_le hinside.2
    | cons v vs => exact hparted.2 v (by simp)

@[simp] theorem length_ofMembers (ms : List Extent) :
    (ofMembers comments close follows gap ms).length = ms.length := by
  induction ms generalizing follows gap with
  | nil => rfl
  | cons m ms ih => simp [ofMembers, ih]

theorem ofObject_getElem? (h : object.Holds (us ++ m :: vs))
    (hpos : ∀ c ∈ comments, c.extent.start < c.extent.stop)
    (hclear : ∀ c ∈ comments, ∀ x ∈ us ++ m :: vs, c.extent.ClearOf x.stop) :
    (ofObject comments object (us ++ m :: vs))[us.length]? =
      some ⟨(belonging comments object (us ++ m :: vs) (.leading us.length)).map (·.text),
        (belonging comments object (us ++ m :: vs) (.trailing us.length)).map (·.text)⟩ := by
  simp only [ofObject, ofMembers_getElem?, ofMembers, List.head?_cons, List.filter_filter, belonging]
  refine congrArg some (congrArg₂ Notes.mk (congrArg _ ?_) (congrArg _ ?_)) <;>
    refine List.filter_congr fun c hc => ?_
  · have hiff := leads_iff h (hpos c hc) (hclear c hc)
    rw [Bool.eq_iff_iff]
    simpa [and_assoc, Comment.Inside] using hiff
  · have hiff := trails_iff h (hpos c hc) (hclear c hc)
    rw [Bool.eq_iff_iff]
    simpa [and_assoc, Comment.Inside] using hiff

theorem ofObject_eq (h : object.Holds members)
    (hpos : ∀ c ∈ comments, c.extent.start < c.extent.stop)
    (hclear : ∀ c ∈ comments, ∀ m ∈ members, c.extent.ClearOf m.stop) :
    ofObject comments object members = (List.range members.length).map fun i =>
      ⟨(belonging comments object members (.leading i)).map (·.text),
        (belonging comments object members (.trailing i)).map (·.text)⟩ := by
  refine List.ext_getElem? fun i => ?_
  by_cases hi : i < members.length
  · have hsplit : members = members.take i ++ members[i] :: members.drop (i + 1) := by simp
    have hlength : (members.take i).length = i := List.length_take_of_le hi.le
    have hnotes := ofObject_getElem? (hsplit ▸ h) hpos (hsplit ▸ hclear)
    rw [← hsplit, hlength] at hnotes
    simp [hnotes, hi]
  · have hle := not_lt.1 hi
    simp [ofObject, hle]

end Places

section Disjoint

variable {comments inside : List Comment} {P Q R : Position → Prop} [DecidablePred P]
  [DecidablePred Q] [DecidablePred R]

def textsAt (comments : List Comment) (P : Position → Prop) [DecidablePred P] : Multiset String :=
  ((comments : Multiset Comment).filter fun c => P c.extent.start).map (·.text)

theorem textsAt_mono (h : ∀ p, P p → R p) : textsAt comments P ≤ textsAt comments R :=
  Multiset.map_le_map (Multiset.monotone_filter_right _ fun c => h c.extent.start)

theorem coe_filter_texts {b : Position → Bool} (h : ∀ p, b p = true ↔ P p) :
    (((comments.filter fun c => b c.extent.start).map (·.text) : List String) : Multiset String) =
      textsAt comments P := by
  rw [textsAt, Multiset.filter_coe, Multiset.map_coe]
  exact congrArg _ (congrArg _ (List.filter_congr fun c _ => Bool.eq_iff_iff.2 (by simp [h])))

theorem textsAt_add_le (hP : ∀ p, P p → R p) (hQ : ∀ p, Q p → R p ∧ ¬ P p) :
    textsAt comments P + textsAt comments Q ≤ textsAt comments R := by
  have hnone : (comments : Multiset Comment).filter
      (fun c => P c.extent.start ∧ Q c.extent.start) = 0 :=
    Multiset.filter_eq_nil.2 fun c _ h => (hQ _ h.2).2 h.1
  rw [textsAt, textsAt, ← Multiset.map_add, Multiset.filter_add_filter, hnone, add_zero]
  exact textsAt_mono fun p => Or.rec (hP p) fun hq => (hQ p hq).1

def texts (n : Notes) : Multiset String :=
  (n.leading : Multiset String) + n.trailing

theorem texts_ofMembers_le (hsub : inside.Sublist comments) {close : Position} {follows : Bool}
    {gap : Position} {ms : List Extent}
    (hms : ∀ m ∈ ms, gap ≤ m.start ∧ m.start < m.stop ∧ m.stop ≤ close)
    (hpair : ms.Pairwise Extent.Precedes) :
    ((ofMembers inside close follows gap ms).map texts).sum +
        (ms.map fun m => textsAt comments fun p => m.start ≤ p ∧ p < m.stop).sum ≤
      textsAt comments fun p => gap ≤ p ∧ p < close ∧ ms ≠ [] ∧
        ¬ (follows = true ∧ p.line = gap.line ∧ p < (ms.head?.map (·.start)).getD close) := by
  have hinside {P : Position → Bool} :
      (((inside.filter fun c => P c.extent.start).map (·.text) : List String) : Multiset String) ≤
        textsAt comments fun p => P p = true := by
    have hsub := Multiset.coe_le.2 (hsub.filter fun c => P c.extent.start).subperm
    have hmap := Multiset.map_le_map (f := fun c : Comment => c.text) hsub
    simpa [textsAt] using hmap
  induction ms generalizing follows gap with
  | nil => exact Multiset.zero_le _
  | cons m ms ih =>
    rw [List.pairwise_cons] at hpair
    rw [List.forall_mem_cons] at hms
    obtain ⟨⟨hgap, hlt, hclose⟩, hms⟩ := hms
    have hrest := @ih true m.stop (fun x hx => ⟨hpair.1 x hx, (hms x hx).2⟩) hpair.2
    have hleads := hinside (P := fun p =>
      gap.upTo p && p.before m.start && !(follows && p.line == gap.line))
    have htrails := hinside (P := fun p => m.stop.upTo p &&
      p.before ((ms.head?.map (·.start)).getD close) && (ms.isEmpty || p.line == m.stop.line))
    have hnext : (ms.head?.map (·.start)).getD close ≤ close := by
      cases ms with
      | nil => exact le_rfl
      | cons x xs => exact ((hms x (by simp)).2.1.trans_le (hms x (by simp)).2.2).le
    simp only [ofMembers, List.map_cons, List.sum_cons, texts]
    generalize (ms.head?.map (·.start)).getD close = next at hrest htrails hnext ⊢
    generalize ((ofMembers inside close true m.stop ms).map texts).sum = members at hrest ⊢
    generalize (ms.map fun m => textsAt comments fun p => m.start ≤ p ∧ p < m.stop).sum = spans
      at hrest ⊢
    have hbehind := (add_le_add htrails hrest).trans <|
      textsAt_add_le (R := fun p => m.stop ≤ p ∧ p < close)
        (fun p hp => by simp at hp; exact ⟨hp.1.1, hp.1.2.trans_le hnext⟩)
        (fun p hp => by simp at hp ⊢; grind)
    have hfrom := (add_le_add le_rfl hbehind).trans <|
      textsAt_add_le (P := fun p => m.start ≤ p ∧ p < m.stop) (R := fun p => m.start ≤ p ∧ p < close)
        (fun p hp => ⟨hp.1, hp.2.trans_le hclose⟩)
        (fun p hp => ⟨⟨hlt.le.trans hp.1, hp.2⟩, fun h => absurd h.2 (not_lt.2 hp.1)⟩)
    have hall := (add_le_add hleads hfrom).trans <|
      textsAt_add_le (R := fun p => gap ≤ p ∧ p < close ∧ m :: ms ≠ [] ∧
          ¬ (follows = true ∧ p.line = gap.line ∧ p < m.start))
        (fun p hp => by simp at hp ⊢; grind)
        (fun p hp => by simp at hp ⊢; grind)
    refine le_trans (le_of_eq ?_) hall
    abel

/-- An object keeps the comments within its braces, those in the spans of its members apart. -/
theorem texts_ofObject_le {object : Extent} {members : List Extent} (h : object.Holds members) :
    ((ofObject comments object members).map texts).sum +
        (members.map fun m => textsAt comments fun p => m.start ≤ p ∧ p < m.stop).sum ≤
      textsAt comments fun p => object.start ≤ p ∧ p < object.stop := by
  refine (texts_ofMembers_le List.filter_sublist h.inside h.pairwise).trans ?_
  exact textsAt_mono fun p hp => ⟨hp.1, hp.2.1⟩

end Disjoint

end Notes

end PropTables
