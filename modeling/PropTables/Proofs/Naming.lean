import PropTables.Proofs.Mentions
import PropTables.Proofs.Traced

/-! Runs that ask for names, beside runs with the names of a vocabulary. The two fail alike; where they
succeed, their results are alike in what does not depend on names, and they are the same if the
vocabulary has the names that the first run ends with. No name is asked for in vain: a library that
is new at the end of a run is mentioned by the result. -/

namespace PropTables

namespace Naming

theorem bind_apply {α β : Type} (x : Naming α) (f : α → Naming β) (l : LibraryNames) :
    (x >>= f) l = match (x l).1.result with
      | .error e => (⟨(x l).1.visited, .error e⟩, (x l).2)
      | .ok a =>
        (⟨(x l).1.visited ++ (f a (x l).2).1.visited, (f a (x l).2).1.result⟩, (f a (x l).2).2) :=
  rfl

instance : LawfulMonad Naming := by
  refine .mk' Naming (fun x => ?_) (fun a f => ?_) (fun x f g => ?_)
  · funext l
    change (x >>= fun a => pure (id a)) l = x l
    rw [bind_apply]
    obtain ⟨⟨visited, result⟩, l'⟩ := x l
    cases result with
    | error e => rfl
    | ok a => exact congrArg (fun visited => (Traced.mk visited _, l')) (List.append_nil visited)
  · funext l
    exact congrArg (fun visited => (Traced.mk visited _, _)) (List.nil_append _)
  · funext l
    simp only [bind_apply]
    obtain ⟨⟨visited, result⟩, l'⟩ := x l
    cases result with
    | error e => rfl
    | ok a =>
      dsimp only
      obtain ⟨⟨visited', result'⟩, l''⟩ := f a l'
      cases result' with
      | error e => rfl
      | ok b => exact congrArg (fun visited => (Traced.mk visited _, _)) (List.append_assoc ..)

end Naming

/-- What two results are compared in: how the names may make them differ, and which libraries a result
mentions. -/
structure Aspect (α : Type) where
  alike : α → α → Prop
  mentions : LibraryRole → α → Prop

namespace Aspect

def fixed (α : Type) : Aspect α :=
  ⟨Eq, fun _ _ => False⟩

def name (role : LibraryRole) : Aspect String :=
  ⟨fun _ _ => True, fun role' _ => role' = role⟩

end Aspect

/-- A run that was at the names `start` when it began arrives at `a` and the names `stop`, where a run
with the vocabulary arrives at `b`. -/
structure Arrives {α : Type} (h : HostOptions) (v : Vocabulary) (k : Aspect α)
    (start stop : LibraryNames) (a b : α) : Prop where
  alike : k.alike a b
  same (ha : h.Agrees v stop) : a = b
  mentions (hs : h.propTypesSource ≠ h.allSource) (ha : h.Agrees v stop) {role : LibraryRole}
    (hr : h.Asked stop role) : h.Asked start role ∨ k.mentions role a

inductive Outcome {α : Type} (h : HostOptions) (v : Vocabulary) (k : Aspect α)
    (start stop : LibraryNames) : Except Failure α → Except Failure α → Prop
  | error (e : Failure) : Outcome h v k start stop (.error e) (.error e)
  | ok (ha : Arrives h v k start stop a b) : Outcome h v k start stop (.ok a) (.ok b)

/-- The run `x`, which goes on from the names `here`, beside the run `y` with the vocabulary. What is
asked for is told from the names `start` on. -/
structure Naming.Matches {α : Type} (h : HostOptions) (v : Vocabulary) (k : Aspect α)
    (start here : LibraryNames) (x : Naming α) (y : Traced α) : Prop where
  reaches : h.NamesReach here (x here).2
  outcome : Outcome h v k start (x here).2 (x here).1.result y.result

section

variable {α β : Type} {h : HostOptions} {v : Vocabulary} {k : Aspect α} {k' : Aspect β}
  {start here stop : LibraryNames} {a b : α} {a' b' : β}

namespace Arrives

theorem refl (h : HostOptions) (v : Vocabulary) (l : LibraryNames) (a : α) :
    Arrives h v (.fixed α) l l a a :=
  ⟨rfl, fun _ => rfl, fun _ _ _ hr => .inl hr⟩

theorem map (ha : Arrives h v k start stop a b) (alike : k'.alike a' b') (same : a = b → a' = b')
    (mentions : ∀ role, k.mentions role a → k'.mentions role a') :
    Arrives h v k' start stop a' b' :=
  ⟨alike, fun hv => same (ha.same hv), fun hs hv role hr =>
    (ha.mentions hs hv hr).imp_right (mentions role)⟩

theorem zip {γ : Type} {k'' : Aspect γ} {c d : γ} (ha : Arrives h v k start here a b)
    (hb : Arrives h v k' here stop a' b') (hr : h.NamesReach here stop) (alike : k''.alike c d)
    (same : a = b → a' = b' → c = d)
    (mentions : a' = b' → ∀ role, k.mentions role a ∨ k'.mentions role a' → k''.mentions role c) :
    Arrives h v k'' start stop c d := by
  refine ⟨alike, fun hv => same (ha.same (hv.of_reaches hr)) (hb.same hv), ?_⟩
  intro hs hv role hasked
  have hkeep := mentions (hb.same hv) role
  rcases hb.mentions hs hv hasked with hhere | hm
  · rcases ha.mentions hs (hv.of_reaches hr) hhere with hstart | hm
    · exact .inl hstart
    · exact .inr (hkeep (.inl hm))
  · exact .inr (hkeep (.inr hm))

end Arrives

namespace Naming.Matches

theorem pure (ha : Arrives h v k start here a b) :
    Matches h v k start here (Pure.pure a) (Pure.pure b) :=
  ⟨.refl, .ok ha⟩

theorem fail (c : Context) (f : ConversionFault) (loc : Position) :
    Matches h v k start here (liftM (c.fail f loc : Traced α)) (c.fail f loc) :=
  ⟨.refl, .error _⟩

theorem abort (u : Uncaught) :
    Matches h v k start here (liftM (Traced.abort u : Traced α)) (Traced.abort u) :=
  ⟨.refl, .error _⟩

theorem bind {x : Naming α} {y : Traced α} {f : α → Naming β} {g : α → Traced β}
    (hx : Matches h v k here here x y)
    (hf : ∀ {a b stop}, h.NamesReach here stop → y.result = .ok b → Arrives h v k here stop a b →
      Matches h v k' start stop (f a) (g b)) :
    Matches h v k' start here (x >>= f) (y >>= g) := by
  obtain ⟨hreach, hout⟩ := hx
  have hrun := bind_apply x f here
  have hresult := Traced.result_bind y g
  generalize x here = run at hreach hout hrun
  generalize y.result = result' at hf hout hresult
  obtain ⟨⟨visited, result⟩, stop⟩ := run
  cases hout with
  | error e =>
    refine ⟨?_, ?_⟩
    · rw [hrun]
      exact hreach
    · rw [hrun, hresult]
      exact .error e
  | ok ha =>
    obtain ⟨hreach', hout'⟩ := hf hreach rfl ha
    refine ⟨?_, ?_⟩
    · rw [hrun]
      exact hreach.trans hreach'
    · rw [hrun, hresult]
      exact hout'

theorem lift_bind {t : Traced α} {f : α → Naming β} {g : α → Traced β}
    (hf : ∀ a, t.result = .ok a → Matches h v k' start here (f a) (g a)) :
    Matches h v k' start here (liftM t >>= f) (t >>= g) := by
  have hrun : ((liftM t : Naming α) >>= f) here = match t.result with
      | .error e => (⟨t.visited, .error e⟩, here)
      | .ok a => (⟨t.visited ++ (f a here).1.visited, (f a here).1.result⟩, (f a here).2) := rfl
  have hresult := Traced.result_bind t g
  cases hr : t.result with
  | error e =>
    rw [hr] at hrun hresult
    refine ⟨?_, ?_⟩
    · rw [hrun]
    · rw [hrun, hresult]
      exact .error e
  | ok a =>
    obtain ⟨hreach, hout⟩ := hf a hr
    rw [hr] at hrun hresult
    refine ⟨?_, ?_⟩
    · rw [hrun]
      exact hreach
    · rw [hrun, hresult]
      exact hout

theorem map {x : Naming α} {y : Traced α} {f g : α → β} (hx : Matches h v k here here x y)
    (alike : ∀ a b, k.alike a b → k'.alike (f a) (g b)) (same : ∀ a, f a = g a)
    (mentions : ∀ role a, k.mentions role a → k'.mentions role (f a)) :
    Matches h v k' here here (x >>= fun a => Pure.pure (f a)) (y >>= fun a => Pure.pure (g a)) := by
  refine hx.bind fun {a b _} _ _ ha => pure (ha.map (alike a b ha.alike) ?_ fun role => mentions role a)
  rintro rfl
  exact same a

theorem reference (role : LibraryRole) :
    Matches h v (.name role) here here (Naming.reference (h.source role) (h.preferredName role))
      (Pure.pure (v.name role)) := by
  refine ⟨.single (.mk role), .ok ⟨trivial, fun hv => ?_, fun hs hv role' hasked => ?_⟩⟩
  · exact (hv role _ (HostOptions.reference_mem_given here _ _)).symm
  · by_cases hrole : role' = role
    · exact .inr hrole
    · -- two roles with one source would be one library, and are excluded
      refine .inl (HostOptions.asked_reference (fun hsource => hrole ?_) hasked)
      cases role <;> cases role'
      · rfl
      · exact (hs hsource.symm).elim
      · exact (hs hsource).elim
      · rfl

theorem mapM {f : β → Naming α} {g : β → Traced α} {bs : List β}
    {k' : Aspect (List α)} (nil : k'.alike [] [])
    (cons : ∀ a b as bs, k.alike a b → k'.alike as bs → k'.alike (a :: as) (b :: bs))
    (mentions : ∀ role a as, k.mentions role a ∨ k'.mentions role as → k'.mentions role (a :: as))
    (hf : ∀ b ∈ bs, ∀ l, Matches h v k l l (f b) (g b)) (l : LibraryNames) :
    Matches h v k' l l (bs.mapM f) (bs.mapM g) := by
  induction bs generalizing l with
  | nil => exact pure ⟨nil, fun _ => rfl, fun _ _ _ hr => .inl hr⟩
  | cons b bs ih =>
    rw [List.mapM_cons, List.mapM_cons]
    refine (hf b List.mem_cons_self l).bind fun {a a' _} _ _ ha => ?_
    refine (ih (fun b' hb => hf b' (List.mem_cons_of_mem b hb)) _).bind fun {as as' _} hr _ has => ?_
    refine pure (ha.zip has hr (cons _ _ _ _ ha.alike has.alike) ?_ fun _ role => mentions role a as)
    rintro rfl rfl
    rfl

end Naming.Matches

end

end PropTables
