import PropTables.Proofs.Beginnings

/-! What reading looks at. Where a reading ends, and whether it fails there, is settled by the tokens up to
that place and the next one; and the bound on its depth is never felt. -/

namespace PropTables

variable {N : Type → Type} {α β : Type}

/-- Whether a reading succeeds, and where it ends. -/
abbrev Course := Cursor → Bool × Cursor

namespace Course

def stop : Course := fun c => (true, c)

def andThen (f g : Course) : Course := fun c =>
  if (f c).1 then g (f c).2 else f c

def decided (p : Terminal → Bool) (f g : Course) : Course := fun c =>
  if c.atTerminal p then f c else g c

def LocalAt (f : Course) (c : Cursor) : Prop :=
  ∃ u, c.rest = u ++ (f c).2.rest ∧
    ∀ last s, s.head? = (f c).2.rest.head? → ∃ e, f ⟨last, u ++ s⟩ = ((f c).1, ⟨e, s⟩)

def Progresses (f : Course) : Prop :=
  ∀ c, (f c).1 = true → (f c).2.rest.length < c.rest.length

variable {f f' g g' : Course} {p : Terminal → Bool} {c : Cursor}

theorem localAt_stop : stop.LocalAt c :=
  ⟨[], rfl, fun last _ _ => ⟨last, rfl⟩⟩

theorem head?_append_congr {u s s' : List α} (h : s.head? = s'.head?) :
    (u ++ s).head? = (u ++ s').head? := by
  cases u with
  | nil => exact h
  | cons x u => rfl

theorem atTerminal_congr {d : Cursor} (h : c.rest.head? = d.rest.head?) :
    c.atTerminal p = d.atTerminal p := by
  unfold Cursor.atTerminal
  cases hc : c.rest <;> cases hd : d.rest <;> simp_all

theorem LocalAt.andThen (hf : f.LocalAt c) (hg : (f c).1 = true → g.LocalAt (f c).2) :
    (f.andThen g).LocalAt c := by
  obtain ⟨u, hu, hsame⟩ := hf
  by_cases hok : (f c).1 = true
  · obtain ⟨w, hw, hsame'⟩ := hg hok
    have hcourse : f.andThen g c = g (f c).2 := if_pos hok
    rw [LocalAt, hcourse]
    refine ⟨u ++ w, by rw [hu, hw, List.append_assoc], fun last s hs => ?_⟩
    obtain ⟨e, he⟩ := hsame last (w ++ s) (by rw [hw]; exact head?_append_congr hs)
    obtain ⟨d, hd⟩ := hsame' e s hs
    refine ⟨d, ?_⟩
    rw [List.append_assoc, Course.andThen, he, if_pos hok, hd]
  · have hcourse : f.andThen g c = f c := if_neg hok
    rw [LocalAt, hcourse]
    refine ⟨u, hu, fun last s hs => ?_⟩
    obtain ⟨e, he⟩ := hsame last s hs
    refine ⟨e, ?_⟩
    rw [Course.andThen, he, if_neg hok]

theorem LocalAt.decided (hf : c.atTerminal p = true → f.LocalAt c)
    (hg : c.atTerminal p = false → g.LocalAt c) : (decided p f g).LocalAt c := by
  have hsame {u s rest : List Token} (last : Position) (hc : c.rest = u ++ rest)
      (hs : s.head? = rest.head?) : Cursor.atTerminal ⟨last, u ++ s⟩ p = c.atTerminal p :=
    atTerminal_congr (by rw [hc]; exact head?_append_congr hs)
  cases hp : c.atTerminal p with
  | true =>
    obtain ⟨u, hu, hlocal⟩ := hf hp
    have hcourse : Course.decided p f g c = f c := if_pos hp
    rw [LocalAt, hcourse]
    refine ⟨u, hu, fun last s hs => ?_⟩
    rw [Course.decided, if_pos ((hsame last hu hs).trans hp)]
    exact hlocal last s hs
  | false =>
    obtain ⟨u, hu, hlocal⟩ := hg hp
    have hcourse : Course.decided p f g c = g c := if_neg (by simp [hp])
    rw [LocalAt, hcourse]
    refine ⟨u, hu, fun last s hs => ?_⟩
    rw [Course.decided, if_neg (by simp [hsame last hu hs, hp])]
    exact hlocal last s hs

theorem andThen_congr (hf : f c = f' c) (hg : (f c).1 = true → g (f c).2 = g' (f c).2) :
    f.andThen g c = f'.andThen g' c := by
  unfold andThen
  rw [← hf]
  split
  · next h => exact hg h
  · rfl

theorem decided_congr (hf : c.atTerminal p = true → f c = f' c)
    (hg : c.atTerminal p = false → g c = g' c) : decided p f g c = decided p f' g' c := by
  unfold decided
  split
  · next h => exact hf h
  · next h => exact hg (by simpa using h)

end Course

namespace Reader

open Course (stop decided)

def course (r : Reader α) : Course := fun c =>
  match r c with
  | .ok (_, d) => (true, d)
  | .error d => (false, d)

variable {a a' : Reader α} {s s' : Reader β} {p q : Terminal → Bool} {c d : Cursor}

theorem course_of_ok {x : α} (h : a c = .ok (x, d)) : a.course c = (true, d) := by
  simp [course, h]

theorem course_of_error (h : a c = .error d) : a.course c = (false, d) := by
  simp [course, h]

theorem course_eq_true (h : a.course c = (true, d)) : ∃ x, a c = .ok (x, d) := by
  unfold course at h
  split at h
  · next x _ hx => exact ⟨x, by rw [hx, (Prod.mk.inj h).2]⟩
  · cases h

theorem course_eq_false (h : a.course c = (false, d)) : a c = .error d := by
  unfold course at h
  split at h
  · cases h
  · next hd => rw [hd, (Prod.mk.inj h).2]

theorem localAt_token (ts : List Terminal) : (token ts).course.LocalAt c := by
  obtain ⟨last, _ | ⟨t, rest⟩⟩ := c
  · refine ⟨[], rfl, fun last s hs => ⟨last, ?_⟩⟩
    obtain rfl := List.head?_eq_none_iff.1 hs
    rfl
  · by_cases ht : ts.contains t.terminal = true
    · have hcourse {last : Position} {rest : List Token} :
          (token ts).course ⟨last, t :: rest⟩ = (true, ⟨t.extent.stop, rest⟩) := by
        simp [course, token, List.contains_iff_mem.1 ht]
      rw [Course.LocalAt, hcourse]
      exact ⟨[t], rfl, fun last s _ => ⟨_, hcourse⟩⟩
    · have hcourse {last : Position} {rest : List Token} :
          (token ts).course ⟨last, t :: rest⟩ = (false, ⟨last, t :: rest⟩) := by
        simp [course, token, mt List.contains_iff_mem.2 ht]
      rw [Course.LocalAt, hcourse]
      refine ⟨[], rfl, fun last s hs => ?_⟩
      obtain ⟨more, rfl⟩ := List.head?_eq_some_iff.1 hs
      exact ⟨last, hcourse⟩

theorem course_both (a : Reader α) (b : Reader β) :
    (a.both b).course = a.course.andThen b.course := by
  funext c
  cases ha : a c with
  | error d => simp [course, Reader.both, Course.andThen, ha, bind, Except.bind]
  | ok x =>
    cases hb : b x.2 with
    | error d => simp [course, Reader.both, Course.andThen, ha, hb, bind, Except.bind]
    | ok y => simp [course, Reader.both, Course.andThen, ha, hb, bind, Except.bind, pure, Except.pure]

theorem course_map (f : α → β) (a : Reader α) : (map f a).course = a.course := by
  funext c
  cases ha : a c <;> simp [course, map, ha, bind, Except.bind, pure, Except.pure]

theorem course_ite {r r' : Reader α} :
    course (fun c => if c.atTerminal p then r c else r' c) = decided p r.course r'.course := by
  funext c
  by_cases h : c.atTerminal p = true <;> simp [course, decided, h]

theorem course_spanned (a : Reader α) : (spanned a).course = a.course := by
  funext c
  cases ha : a c <;> simp [course, spanned, ha, bind, Except.bind, pure, Except.pure]

theorem course_many_succ (rounds : Nat) :
    (many p a (rounds + 1)).course =
      decided p (a.course.andThen (many p a rounds).course) stop := by
  funext c
  unfold decided
  split
  · next hp =>
    cases ha : a c with
    | error d => simp [course, many, Course.andThen, hp, ha, bind, Except.bind]
    | ok x =>
      cases hs : many p a rounds x.2 with
      | error d => simp [course, many, Course.andThen, hp, ha, hs, bind, Except.bind]
      | ok y =>
        simp [course, many, Course.andThen, hp, ha, hs, bind, Except.bind, pure, Except.pure]
  · next hp => simp [course, many, stop, hp]

theorem course_afterItem_succ (rounds : Nat) :
    (afterItem q p a s (rounds + 1)).course =
      decided q (s.course.andThen
        (decided p (a.course.andThen (afterItem q p a s rounds).course) stop)) stop := by
  funext c
  unfold decided
  split
  · next hq =>
    cases hs : s c with
    | error d => simp [course, afterItem, Course.andThen, hq, hs, bind, Except.bind]
    | ok y =>
      by_cases hp : y.2.atTerminal p = true
      · cases ha : a y.2 with
        | error d => simp [course, afterItem, Course.andThen, hq, hs, hp, ha, bind, Except.bind]
        | ok x =>
          cases hr : afterItem q p a s rounds x.2 with
          | error d =>
            simp [course, afterItem, Course.andThen, hq, hs, hp, ha, hr, bind, Except.bind]
          | ok z =>
            simp [course, afterItem, Course.andThen, hq, hs, hp, ha, hr, bind, Except.bind, pure,
              Except.pure]
      · simp [course, afterItem, Course.andThen, stop, hq, hs, hp, bind, Except.bind, pure,
          Except.pure]
  · next hq => simp [course, afterItem, stop, hq]

end Reader

namespace Course

structure IsLoop (rounds : Nat → Course) (round : Course → Course) : Prop where
  zero : rounds 0 = stop
  succ : ∀ k, rounds (k + 1) = round (rounds k)
  atEnd : ∀ f c, c.rest = [] → round f c = (true, c)
  congr : ∀ f g c, (∀ d : Cursor, d.rest.length < c.rest.length → f d = g d) →
    round f c = round g c
  localAt : ∀ f c, (∀ d : Cursor, d.rest.length < c.rest.length → LocalAt f d) →
    (round f).LocalAt c

variable {rounds : Nat → Course} {round : Course → Course}

theorem IsLoop.rounds_eq (h : IsLoop rounds round) {c : Cursor} {k : Nat}
    (hk : c.rest.length ≤ k) : rounds k c = rounds c.rest.length c := by
  -- As many rounds as there are tokens suffice.
  have one_more : ∀ k, ∀ c : Cursor, c.rest.length ≤ k → rounds k c = rounds (k + 1) c := by
    intro k
    induction k with
    | zero =>
      intro c hc
      rw [h.zero, h.succ, h.atEnd _ c (List.length_eq_zero_iff.1 (Nat.le_zero.1 hc)), stop]
    | succ k ih =>
      intro c hc
      rw [h.succ, h.succ (k + 1)]
      exact h.congr _ _ c fun d hd => ih d (by omega)
  induction hk with
  | refl => rfl
  | step hk ih => rw [← one_more _ c hk, ih]

theorem IsLoop.unfold (h : IsLoop rounds round) :
    (fun c => rounds c.rest.length c) = round fun c => rounds c.rest.length c := by
  funext c
  cases hlength : c.rest.length with
  | zero =>
    rw [h.zero, h.atEnd _ c (List.length_eq_zero_iff.1 hlength), stop]
  | succ k =>
    rw [h.succ]
    exact h.congr _ _ c fun d hd => h.rounds_eq (by omega)

theorem IsLoop.localAt_all (h : IsLoop rounds round) (c : Cursor) :
    LocalAt (fun c => rounds c.rest.length c) c := by
  induction hlength : c.rest.length using Nat.strongRecOn generalizing c with
  | _ k ih =>
    rw [h.unfold]
    exact h.localAt _ c fun d hd => ih _ (hlength ▸ hd) d rfl

end Course

namespace Reader

open Course (stop decided IsLoop)

variable {a a' : Reader α} {s s' : Reader β} {p q : Terminal → Bool} {c d : Cursor}

theorem isLoop_many (ha : ∀ c, a.course.LocalAt c) (hprogress : a.course.Progresses) :
    IsLoop (fun k => (many p a k).course) fun f => decided p (a.course.andThen f) stop where
  zero := rfl
  succ := course_many_succ
  atEnd f c hc := by simp [decided, Cursor.atTerminal, hc, stop]
  congr f g c h :=
    Course.decided_congr (fun _ => Course.andThen_congr rfl fun hok => h _ (hprogress c hok))
      fun _ => rfl
  localAt f c h :=
    .decided (fun _ => (ha c).andThen fun hok => h _ (hprogress c hok)) fun _ => Course.localAt_stop

theorem isLoop_afterItem (ha : ∀ c, a.course.LocalAt c) (hs : ∀ c, s.course.LocalAt c)
    (hprogress : a.course.Progresses) (hprogress' : s.course.Progresses) :
    IsLoop (fun k => (afterItem q p a s k).course) fun f =>
      decided q (s.course.andThen (decided p (a.course.andThen f) stop)) stop where
  zero := rfl
  succ := course_afterItem_succ
  atEnd f c hc := by simp [decided, Cursor.atTerminal, hc, stop]
  congr f g c h := by
    refine Course.decided_congr (fun _ => Course.andThen_congr rfl fun hok => ?_) fun _ => rfl
    refine Course.decided_congr (fun _ => Course.andThen_congr rfl fun hok' => h _ ?_) fun _ => rfl
    exact Nat.lt_trans (hprogress _ hok') (hprogress' c hok)
  localAt f c h := by
    refine .decided (fun _ => (hs c).andThen fun hok => ?_) fun _ => Course.localAt_stop
    refine .decided (fun _ => (ha _).andThen fun hok' => h _ ?_) fun _ => Course.localAt_stop
    exact Nat.lt_trans (hprogress _ hok') (hprogress' c hok)

theorem course_many_congr {rounds : Nat} (hprogress : a.course.Progresses)
    (h : ∀ d : Cursor, d.rest.length ≤ c.rest.length → a.course d = a'.course d) :
    (many p a rounds).course c = (many p a' rounds).course c := by
  induction rounds generalizing c with
  | zero => rfl
  | succ rounds ih =>
    rw [course_many_succ, course_many_succ]
    refine Course.decided_congr (fun _ => ?_) fun _ => rfl
    refine Course.andThen_congr (h c (Nat.le_refl _)) fun hok => ih fun d hd => h d ?_
    exact Nat.le_trans hd (Nat.le_of_lt (hprogress c hok))

theorem course_afterItem_congr {rounds : Nat} (hprogress : a.course.Progresses)
    (hprogress' : s.course.Progresses)
    (ha : ∀ d : Cursor, d.rest.length ≤ c.rest.length → a.course d = a'.course d)
    (hs : ∀ d : Cursor, d.rest.length ≤ c.rest.length → s.course d = s'.course d) :
    (afterItem q p a s rounds).course c = (afterItem q p a' s' rounds).course c := by
  induction rounds generalizing c with
  | zero => rfl
  | succ rounds ih =>
    rw [course_afterItem_succ, course_afterItem_succ]
    refine Course.decided_congr (fun _ => ?_) fun _ => rfl
    refine Course.andThen_congr (hs c (Nat.le_refl _)) fun hok => ?_
    have hlt := hprogress' c hok
    refine Course.decided_congr (fun _ => ?_) fun _ => rfl
    refine Course.andThen_congr (ha _ (Nat.le_of_lt hlt)) fun hok' => ?_
    have hlt' := Nat.lt_trans (hprogress _ hok') hlt
    exact ih (fun d hd => ha d (by omega)) fun d hd => hs d (by omega)

end Reader

section Phrases

open Course (stop decided)

variable {g : Grammar N} {look : Lookahead N} {D : Derivability N} {after : Terminal → Bool}
  {nonterminal nonterminal' : {β : Type} → N β → Reader β} {c d : Cursor}

namespace Phrase

theorem course_seq (a : Phrase N α) (b : Phrase N β) :
    ((both a b).read g nonterminal).course =
      (a.read g nonterminal).course.andThen (b.read g nonterminal).course :=
  Reader.course_both ..

theorem course_mapped (f : α → β) (a : Phrase N α) :
    ((map f a).read g nonterminal).course = (a.read g nonterminal).course :=
  Reader.course_map ..

theorem course_located (a : Phrase N α) :
    ((spanned a).read g nonterminal).course = (a.read g nonterminal).course :=
  Reader.course_spanned ..

theorem course_either (a b : Phrase N α) :
    ((either a b).read g nonterminal).course =
      decided (a.startsWith g) (a.read g nonterminal).course (b.read g nonterminal).course :=
  Reader.course_ite ..

theorem course_maybe (a : Phrase N α) :
    ((maybe a).read g nonterminal).course =
      decided (a.startsWith g) (a.read g nonterminal).course stop := by
  rw [← Reader.course_map some (a.read g nonterminal)]
  let absent : Reader (Option α) := fun c => .ok (none, c)
  show _ = decided _ _ absent.course
  exact Reader.course_ite ..

theorem course_list (a : Phrase N α) (s : Phrase N β) :
    ((list a s).read g nonterminal).course =
      (a.read g nonterminal).course.andThen fun c =>
        (Reader.afterItem (s.startsWith g) (a.startsWith g) (a.read g nonterminal)
          (s.read g nonterminal) c.rest.length).course c := by
  funext c
  cases ha : a.read g nonterminal c with
  | error d => simp [Reader.course, read, Course.andThen, ha, bind, Except.bind]
  | ok x =>
    cases hr : Reader.afterItem (s.startsWith g) (a.startsWith g) (a.read g nonterminal)
        (s.read g nonterminal) x.2.rest.length x.2 with
    | error d => simp [Reader.course, read, Course.andThen, ha, hr, bind, Except.bind]
    | ok y =>
      simp [Reader.course, read, Course.andThen, ha, hr, bind, Except.bind, pure, Except.pure]

theorem progresses_read {p : Phrase N α} (hD : g.Starts D)
    (hread : ∀ ⦃γ : Type⦄ (n : N γ) c d v, nonterminal n c = .ok (v, d) → D n c d v)
    (hs : p.settled g look after = true) (hp : p.nullable g = false) :
    (p.read g nonterminal).course.Progresses := by
  intro c hok
  obtain ⟨v, hv⟩ := Reader.course_eq_true (Prod.ext hok rfl)
  have h := (derives_of_read hread hv).starts hD hs
  exact (h.resolve_left fun h => by simp [hp] at h).1

theorem localAt_read {p : Phrase N α} (hD : g.Starts D)
    (hread : ∀ ⦃γ : Type⦄ (n : N γ) c d v, nonterminal n c = .ok (v, d) → D n c d v)
    (hlocal : ∀ ⦃γ : Type⦄ (n : N γ) c, (nonterminal n).course.LocalAt c)
    (hs : p.settled g look after = true) (c : Cursor) :
    (p.read g nonterminal).course.LocalAt c := by
  induction p generalizing after c with
  | empty => exact Course.localAt_stop
  | token ts => exact Reader.localAt_token ts
  | call n => exact hlocal n c
  | both a b iha ihb =>
    rw [settled, Bool.and_eq_true] at hs
    rw [course_seq]
    exact (iha hs.1 c).andThen fun _ => ihb hs.2 _
  | either a b iha ihb =>
    -- Which of the two is read is decided by the next token alone.
    simp only [settled, Bool.and_eq_true] at hs
    rw [course_either]
    exact .decided (fun _ => iha hs.1.2 c) fun _ => ihb hs.2 c
  | maybe a iha =>
    simp only [settled, Bool.and_eq_true] at hs
    rw [course_maybe]
    exact .decided (fun _ => iha hs.2 c) fun _ => Course.localAt_stop
  | many a iha =>
    simp only [settled, Bool.and_eq_true, Bool.not_eq_true'] at hs
    exact (Reader.isLoop_many (fun c => iha hs.2 c)
      (progresses_read hD hread hs.2 hs.1.1)).localAt_all c
  | list a s iha ihs =>
    simp only [settled, Bool.and_eq_true, Bool.not_eq_true'] at hs
    obtain ⟨⟨⟨⟨⟨hna, hns⟩, -⟩, -⟩, hsa⟩, hss⟩ := hs
    rw [course_list]
    refine (iha hsa c).andThen fun _ => ?_
    exact (Reader.isLoop_afterItem (fun c => iha hsa c) (fun c => ihs hss c)
      (progresses_read hD hread hsa hna) (progresses_read hD hread hss hns)).localAt_all _
  | map f a iha =>
    rw [course_mapped]
    exact iha hs c
  | spanned a iha =>
    rw [course_located]
    exact iha hs c

theorem course_read_congr {p : Phrase N α} {tokens levels : Nat} (hD : g.Starts D)
    (hread : ∀ ⦃γ : Type⦄ (n : N γ) c d v, nonterminal n c = .ok (v, d) → D n c d v)
    (hsame : ∀ ⦃γ : Type⦄ (n : N γ) c, Fits tokens levels c (look.level n + 1) →
      (nonterminal n).course c = (nonterminal' n).course c)
    (hs : p.settled g look after = true) (hfit : Fits tokens levels c (p.opens g look)) :
    (p.read g nonterminal).course c = (p.read g nonterminal').course c := by
  have starts {γ : Type} {q : Phrase N γ} {after : Terminal → Bool} {c d : Cursor}
      (hq : q.settled g look after = true) (h : (q.read g nonterminal).course c = (true, d)) :
      c = d ∧ q.nullable g = true ∨ c.Advances d (q.startsWith g) := by
    obtain ⟨v, hv⟩ := Reader.course_eq_true h
    exact (derives_of_read hread hv).starts hD hq
  induction p generalizing c after with
  | empty => rfl
  | token ts => rfl
  | call n => exact hsame n c hfit
  | both a b iha ihb =>
    rw [settled, Bool.and_eq_true] at hs
    rw [course_seq, course_seq]
    refine Course.andThen_congr (iha hs.1 (hfit.mono (Nat.le_refl _) (Nat.le_max_left ..)))
      fun hok => ihb hs.2 ?_
    rcases starts hs.1 (Prod.ext hok rfl) with ⟨hc, hna⟩ | hadv
    · refine hfit.mono (Nat.le_of_eq (congrArg (·.rest.length) hc.symm)) ?_
      rw [opens, hna, if_pos rfl]
      exact Nat.le_max_right ..
    · exact hfit.later hadv.1
  | either a b iha ihb =>
    simp only [settled, Bool.and_eq_true] at hs
    rw [course_either, course_either]
    exact Course.decided_congr
      (fun _ => iha hs.1.2 (hfit.mono (Nat.le_refl _) (Nat.le_max_left ..)))
      fun _ => ihb hs.2 (hfit.mono (Nat.le_refl _) (Nat.le_max_right ..))
  | maybe a iha =>
    simp only [settled, Bool.and_eq_true] at hs
    rw [course_maybe, course_maybe]
    exact Course.decided_congr (fun _ => iha hs.2 hfit) fun _ => rfl
  | many a iha =>
    simp only [settled, Bool.and_eq_true, Bool.not_eq_true'] at hs
    exact Reader.course_many_congr (progresses_read hD hread hs.2 hs.1.1)
      fun d hd => iha hs.2 (hfit.mono hd (Nat.le_refl _))
  | list a s iha ihs =>
    simp only [settled, Bool.and_eq_true, Bool.not_eq_true'] at hs
    obtain ⟨⟨⟨⟨⟨hna, hns⟩, -⟩, -⟩, hsa⟩, hss⟩ := hs
    have hprogress := progresses_read hD hread hsa hna
    rw [course_list, course_list]
    refine Course.andThen_congr (iha hsa hfit) fun hok => ?_
    have hlt := hprogress c hok
    exact Reader.course_afterItem_congr hprogress (progresses_read hD hread hss hns)
      (fun d hd => iha hsa (hfit.later (Nat.lt_of_le_of_lt hd hlt)))
      fun d hd => ihs hss (hfit.later (Nat.lt_of_le_of_lt hd hlt))
  | map f a iha =>
    rw [course_mapped, course_mapped]
    exact iha hs hfit
  | spanned a iha =>
    rw [course_located, course_located]
    exact iha hs hfit

end Phrase

namespace Grammar

theorem Predictive.localAt_readWithin (hg : g.Predictive look) (depth : Nat) (n : N α)
    (c : Cursor) : (g.readWithin depth n).course.LocalAt c := by
  induction depth generalizing α c with
  | zero => exact ⟨[], rfl, fun last _ _ => ⟨last, rfl⟩⟩
  | succ depth ih =>
    exact Phrase.localAt_read (hg.starts Rules.anywhere) (fun _ _ _ _ _ => derives_of_readWithin)
      (fun _ m => ih m) (hg.parts n).2.2.2.2 c

theorem Predictive.course_readWithin (hg : g.Predictive look) {depth depth' : Nat} {n : N α}
    (h : chainBound * c.rest.length + look.level n < depth)
    (h' : chainBound * c.rest.length + look.level n < depth') :
    (g.readWithin depth n).course c = (g.readWithin depth' n).course c := by
  induction depth generalizing depth' α c with
  | zero => omega
  | succ depth ih =>
    obtain ⟨_, _, hopens, _, hs⟩ := hg.parts n
    obtain ⟨depth', rfl⟩ : ∃ k, depth' = k + 1 := ⟨depth' - 1, by omega⟩
    refine Phrase.course_read_congr (hg.starts Rules.anywhere)
      (fun _ _ _ _ _ => derives_of_readWithin) (fun _ m d hfit => ?_) hs
      (show Fits c.rest.length (look.level n) c _ from .inr ⟨rfl, hopens⟩)
    have hlevel := (hg.parts m).2.2.2.1
    have hbound : chainBound = 16 := rfl
    rw [hbound] at h h' hlevel
    have hfits : 16 * d.rest.length + look.level m < depth ∧
        16 * d.rest.length + look.level m < depth' := by
      unfold Fits at hfit
      rcases hfit with hlt | ⟨heq, hle⟩ <;> omega
    exact ih hfits.1 hfits.2

theorem Predictive.read_eq_error_of_prefix (hg : g.Predictive look) {n : N α} {u rest : List Token}
    {t : Token} (h : g.read n (u ++ t :: rest) = .error (t :: rest)) (more : List Token) :
    g.read n (u ++ t :: more) = .error (t :: more) := by
  have enough (tokens : List Token) : chainBound * tokens.length + look.level n <
      chainBound * (tokens.length + 1) := by
    have := (hg.parts n).2.2.2.1
    rw [Nat.mul_succ]
    omega
  -- One depth that suffices for both sequences of tokens.
  let depth (tokens : List Token) : Nat := chainBound * (tokens.length + 1)
  let common : Nat := max (depth (u ++ t :: rest)) (depth (u ++ t :: more))
  have hcommon : (g.readWithin common n).course ⟨.first, u ++ t :: rest⟩ =
      (g.readWithin (depth (u ++ t :: rest)) n).course ⟨.first, u ++ t :: rest⟩ :=
    hg.course_readWithin (Nat.lt_of_lt_of_le (enough _) (Nat.le_max_left ..)) (enough _)
  have hcommon' : (g.readWithin common n).course ⟨.first, u ++ t :: more⟩ =
      (g.readWithin (depth (u ++ t :: more)) n).course ⟨.first, u ++ t :: more⟩ :=
    hg.course_readWithin (Nat.lt_of_lt_of_le (enough _) (Nat.le_max_right ..)) (enough _)
  obtain ⟨d, hd, h⟩ := read_eq_error_iff.1 h
  obtain ⟨ok, hcourse⟩ : ∃ ok,
      (g.readWithin (depth (u ++ t :: rest)) n).course ⟨.first, u ++ t :: rest⟩ = (ok, d) := by
    rcases h with h | ⟨-, v, h⟩
    · exact ⟨false, Reader.course_of_error h⟩
    · exact ⟨true, Reader.course_of_ok h⟩
  obtain ⟨w, hw, hlocal⟩ := hg.localAt_readWithin common n ⟨.first, u ++ t :: rest⟩
  rw [hcommon, hcourse] at hw hlocal
  obtain rfl : u = w := List.append_cancel_right (hd ▸ hw)
  obtain ⟨e, he⟩ := hlocal .first (t :: more) (by rw [hd]; rfl)
  rw [hcommon'] at he
  refine read_eq_error_iff.2 ⟨⟨e, t :: more⟩, rfl, ?_⟩
  cases ok with
  | true => exact .inr ⟨List.cons_ne_nil t more, Reader.course_eq_true he⟩
  | false => exact .inl (Reader.course_eq_false he)

end Grammar

end Phrases

end PropTables
