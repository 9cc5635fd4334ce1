import Mathlib.Data.List.ProdSigma
import Mathlib.Order.Monotone.Basic
import PropTables.Proofs.Agreement
import PropTables.Proofs.Imports

/-! The bound on references followed one after another is never too small. What a reference leads to is
told by its binding, the names around, the depth and the place behind a key. There are only so many such
cases, and more of them come to an end with every reference that may be followed; where one more
reference makes no difference, no number of them does. -/

namespace PropTables

/-- A family that grows step by step, and for good stops growing where it does not grow, has stopped
after as many steps as it can have members. -/
theorem stable_of_growing {κ : Type} (keys : List κ) (settled : ℕ → κ → Prop)
    (grows : ∀ n k, settled n k → settled (n + 1) k)
    (stops : ∀ n, (∀ k ∈ keys, settled (n + 1) k → settled n k) →
      ∀ k ∈ keys, settled (n + 2) k → settled (n + 1) k) {k : κ} (hk : k ∈ keys)
    (h : settled (keys.length + 1) k) : settled keys.length k := by
  classical
  let among (n : ℕ) : List κ := keys.filter (settled n ·)
  have sublist (n : ℕ) : (among n).Sublist (among (n + 1)) :=
    List.monotone_filter_right keys fun k hk => by simpa using grows n k (by simpa using hk)
  have mono : Monotone fun n => (among n).length :=
    monotone_nat_of_le_succ fun n => (sublist n).length_le
  -- As many members as before are the same members.
  have same {n : ℕ} (hn : (among n).length = (among (n + 1)).length) :
      ∀ k ∈ keys, settled (n + 1) k → settled n k := by
    intro k hk h
    have hmem : k ∈ among (n + 1) := List.mem_filter.2 ⟨hk, by simpa using h⟩
    rw [← (sublist n).eq_of_length hn] at hmem
    simpa using (List.mem_filter.1 hmem).2
  have stab : ∀ n, (among n).length = (among (n + 1)).length →
      (among (n + 1)).length = (among (n + 2)).length := by
    intro n hn
    have hstop := stops n (same hn)
    refine congrArg List.length (List.filter_congr fun k hk => ?_)
    exact decide_eq_decide.2 ⟨grows (n + 1) k, hstop k hk⟩
  have bounded : ∀ n, (among n).length ≤ keys.length := fun n => List.length_filter_le _ _
  have hlast := Nat.stabilises_of_monotone mono bounded stab (Nat.le_succ keys.length)
  exact same hlast.symm k hk h

def Failure.endless (e : Failure) : Prop :=
  e = .uncaught .endless

def Exhausts {α : Type} (r : Except Failure α) : Prop :=
  r = .error (.uncaught .endless)

section

variable {α : Type} {r r' : Except Failure α}

theorem Agree.not_exhausts (h : Agree Failure.endless Eq r r') (hr : ¬ Exhausts r) :
    ¬ Exhausts r' := by
  cases h with
  | ok a => exact hr
  | error h => exact h ▸ hr
  | lost h => exact (hr (congrArg Except.error h)).elim

theorem Agree.of_exhausts (h : Agree Failure.endless Eq r r') (hr : Exhausts r → Exhausts r') :
    Agree Failure.never Eq r r' := by
  cases h with
  | ok a => exact .ok a
  | error h => exact .error h
  | lost h =>
    cases h
    rw [hr rfl]
    exact .error rfl

end

theorem Library.Offers.mem_modules {l : Library} {m : Module} (h : l.Offers m) :
    ∃ m' ∈ l.modules, m'.scope = .ofModule m := by
  obtain ⟨path, _, h⟩ := h
  exact ⟨_, h, rfl⟩

/-- The contexts differ in their depths only, and not in whether these are zero or will be. -/
structure Context.Level (c c' : Context) : Prop where
  scope : c.scope = c'.scope
  depth : min c.depth 1 = min c'.depth 1
  isFieldValue : c.isFieldValue = c'.isFieldValue
  replacement : c.replacement = c'.replacement
  origin : c.origin = c'.origin

theorem Context.Level.congruence : Context.Congruence Context.Level where
  file h := congrArg Scope.file h.scope
  replacement h := h.replacement
  origin h := h.origin
  depth h := by have := h.depth; omega
  isFieldValue h := h.isFieldValue
  nested h := ⟨h.scope, h.depth, rfl, rfl, h.origin⟩
  fieldValue {c c'} h := by
    refine ⟨h.scope, ?_, rfl, rfl, h.origin⟩
    have := h.depth
    show min (c.depth + 1) 1 = min (c'.depth + 1) 1
    omega
  spread h := ⟨h.scope, rfl, rfl, rfl, h.origin⟩
  indexed {c c'} h := by
    refine ⟨h.scope, ?_, rfl, rfl, h.origin⟩
    have := h.depth
    show min (c.depth + 1) 1 = min (c'.depth + 1) 1
    omega

theorem Context.Level.body {c c' : Context} (h : c.Level c') (params : List TypeParameter) :
    (c.body params).Level (c'.body params) := by
  refine ⟨?_, h.depth, h.isFieldValue, rfl, h.origin⟩
  simp only [Context.body, h.scope]

namespace Setting

variable {s : Setting} {n : ℕ} {b : Binding} {use use' : Use} {c c' c₀ : Context}

theorem follow_agrees_of_level (s : Setting) (n : ℕ) (b : Binding) (use : Use) {c c' : Context}
    (h : c.Level c') : (s.follow n b use c).Agrees Failure.never Eq (s.follow n b use c') := by
  induction n generalizing b use c c' with
  | zero => exact .refl Eq.refl _
  | succ n ih =>
    refine follow_succ_agrees .refl Context.Level.congruence Eq.refl
      (fun params _ _ hc => hc.body params) (fun loc name c c' hc => ?_) h fun i r _ _ => ?_
    · exact convertName_agrees .refl Context.Level.congruence Eq.refl hc (by rw [hc.scope]) fun b _ =>
        ih b _ hc
    · refine ih _ _ ⟨rfl, h.depth, h.isFieldValue, ?_, h.origin⟩
      simp only [Context.through, h.replacement, h.origin]

theorem convert_agrees_of_level (s : Setting) (n : ℕ) (t : TypeExpr) (h : c.Level c') :
    (s.convert (s.follow n) t c).Agrees Failure.never Eq (s.convert (s.follow n) t c') := by
  refine convert_agrees .refl Context.Level.congruence Eq.refl (fun loc name c c' hc => ?_) t c c' h
  exact convertName_agrees .refl Context.Level.congruence Eq.refl hc (by rw [hc.scope]) fun b _ =>
    follow_agrees_of_level s n b _ hc

theorem eq_congruence : Context.Congruence Eq where
  file h := congrArg (·.scope.file) h
  replacement h := congrArg Context.replacement h
  origin h := congrArg Context.origin h
  depth h := by rw [h]
  isFieldValue h := congrArg Context.isFieldValue h
  nested h := congrArg Context.nested h
  fieldValue h := congrArg Context.fieldValue h
  spread h := congrArg Context.spread h
  indexed h := congrArg Context.indexed h

theorem follow_mono (s : Setting) (n : ℕ) (b : Binding) (use : Use) (c : Context) :
    (s.follow n b use c).Agrees Failure.endless Eq (s.follow (n + 1) b use c) := by
  induction n generalizing b use c with
  | zero =>
    have hend : Failure.endless (.uncaught .endless) := rfl
    exact .lost hend _
  | succ n ih =>
    refine follow_succ_agrees .refl eq_congruence Eq.refl (fun params _ _ hc => by rw [hc])
      (fun loc name c c' hc => ?_) rfl fun i r _ _ => ih _ _ _
    subst hc
    exact convertName_agrees .refl eq_congruence Eq.refl rfl rfl fun b _ => ih b _ c

theorem not_exhausts_fail {α : Type} {f : ConversionFault} {loc : Position} :
    ¬ Exhausts (c.fail f loc : Traced α).result :=
  nofun

theorem not_exhausts_convertClass {k : ClassDeclaration} {file : Option String} :
    ¬ Exhausts (s.convertClass k file use c).result := by
  intro h
  unfold convertClass at h
  dsimp only at h
  split at h
  · cases h
  · split at h <;> cases h

theorem exhausts_follow_iff (hscope : c.scope.root = c'.scope.root)
    (hdepth : min c.depth 1 = min c'.depth 1) (hfield : c.isFieldValue = c'.isFieldValue)
    (horigin : c.origin = c'.origin) :
    Exhausts (s.follow n b use c).result ↔ Exhausts (s.follow n b use' c').result := by
  induction n generalizing b c c' with
  | zero => exact Iff.rfl
  | succ n ih =>
    obtain ⟨referent, file⟩ := b
    -- What stands behind a name is converted without the use and the replacement that led to it.
    have hconvert (t : TypeExpr) (params : List TypeParameter) :
        (s.convert (s.follow n) t (c.body params)).result =
          (s.convert (s.follow n) t (c'.body params)).result := by
      have hbody : (c.body params).Level (c'.body params) := by
        refine ⟨?_, hdepth, hfield, rfl, horigin⟩
        simp only [Context.body, hscope]
      exact (s.convert_agrees_of_level n t hbody).eq
    cases referent with
    | typeAlias a =>
      show Exhausts (s.convert (s.follow n) a.right (c.body a.params)).result ↔ _
      rw [hconvert]
      exact Iff.rfl
    | interface i =>
      show Exhausts (s.convert (s.follow n) (.object i.body) (c.body i.params)).result ↔ _
      rw [hconvert]
      exact Iff.rfl
    | class_ k => exact iff_of_false not_exhausts_convertClass not_exhausts_convertClass
    | import_ i =>
      show Exhausts (s.followImport (s.follow n) i file use c).result ↔
        Exhausts (s.followImport (s.follow n) i file use' c').result
      unfold followImport
      rw [Traced.result_bind, Traced.result_bind]
      cases (s.library.resolveImport i file).result with
      | error e => exact Iff.rfl
      | ok r =>
        -- Both go on in the one scope that the import leads to.
        exact ih rfl hdepth hfield horigin
    | function | variable_ | parameter => exact iff_of_false not_exhausts_fail not_exhausts_fail

def scopes (s : Setting) (c₀ : Context) : List Scope :=
  c₀.scope.root :: s.library.modules.map (·.scope.root)

structure Roams (s : Setting) (c₀ c : Context) : Prop where
  root : c.scope.root ∈ s.scopes c₀
  inner : ∀ f ∈ c.scope.inner, ∀ e ∈ f, ∃ p, e.2.referent = .parameter p
  depth : min c₀.depth 0 ≤ c.depth
  origin : c.origin = c₀.origin

def Bound (c : Context) (b : Binding) : Prop :=
  (∃ p, b.referent = .parameter p) ∨ ∃ name, (name, b) ∈ c.scope.base

theorem Roams.bound (h : s.Roams c₀ c) {name : String} (hb : c.scope.lookup name = some b) :
    Bound c b := by
  rcases Scope.lookup_cases hb with ⟨f, hf, hmem⟩ | hb
  · exact .inl (h.inner f hf _ hmem)
  · have hmem := Scope.mem_base_of_lookup rfl hb
    exact .inr ⟨name, hmem⟩

theorem Roams.congruence : Context.Congruence fun c c' => c = c' ∧ s.Roams c₀ c where
  file h := eq_congruence.file h.1
  replacement h := eq_congruence.replacement h.1
  origin h := eq_congruence.origin h.1
  depth h := eq_congruence.depth h.1
  isFieldValue h := eq_congruence.isFieldValue h.1
  nested := by
    rintro c _ ⟨rfl, h⟩
    exact ⟨rfl, h.root, h.inner, h.depth, h.origin⟩
  fieldValue := by
    rintro c _ ⟨rfl, h⟩
    refine ⟨rfl, h.root, h.inner, ?_, h.origin⟩
    exact h.depth.trans (Int.le_add_one le_rfl)
  spread := by
    rintro c _ ⟨rfl, h⟩
    exact ⟨rfl, h.root, h.inner, min_le_right _ _, h.origin⟩
  indexed := by
    rintro c _ ⟨rfl, h⟩
    refine ⟨rfl, h.root, h.inner, ?_, h.origin⟩
    exact h.depth.trans (Int.le_add_one le_rfl)

theorem Roams.body (h : s.Roams c₀ c) (params : List TypeParameter) :
    s.Roams c₀ (c.body params) := by
  refine ⟨?_, fun f hf e he => ?_, h.depth, h.origin⟩
  · rw [Context.root_body]
    exact h.root
  · obtain ⟨p, rfl⟩ := Scope.mem_withParams hf he
    exact ⟨p, rfl⟩

theorem Roams.through (hl : s.library.Faithful) (h : s.Roams c₀ c) {i : ImportSpecifier}
    {file : Option String} {r : Resolved} (hr : (s.library.resolveImport i file).result = .ok r) :
    s.Roams c₀ (c.through i file r.scope) ∧ Bound (c.through i file r.scope) r.binding := by
  obtain ⟨m, name, hm, hscope, hmem⟩ := Library.resolveImport_eq_ok hl hr
  obtain ⟨m', hm', hscope'⟩ := hm.mem_modules
  refine ⟨⟨?_, ?_, h.depth, h.origin⟩, .inr ⟨name, hmem⟩⟩
  · refine List.mem_cons_of_mem _ (List.mem_map.2 ⟨m', hm', ?_⟩)
    show m'.scope.root = r.scope.root
    rw [hscope', hscope]
  · intro f hf
    change f ∈ r.scope.inner at hf
    rw [hscope] at hf
    cases hf

def Stable (s : Setting) (c₀ : Context) (n : ℕ) : Prop :=
  ∀ b use c, s.Roams c₀ c → Bound c b →
    (s.follow n b use c).Agrees Failure.never Eq (s.follow (n + 1) b use c)

theorem Stable.convert (h : s.Stable c₀ n) (t : TypeExpr) (hc : s.Roams c₀ c) :
    (s.convert (s.follow n) t c).Agrees Failure.never Eq (s.convert (s.follow (n + 1)) t c) := by
  refine convert_agrees .refl Roams.congruence Eq.refl (fun loc name c c' hc => ?_) t c c ⟨rfl, hc⟩
  obtain ⟨rfl, hroams⟩ := hc
  exact convertName_agrees .refl Roams.congruence Eq.refl ⟨rfl, hroams⟩ rfl fun b hb =>
    h b _ c hroams (hroams.bound hb)

theorem Stable.succ (hl : s.library.Faithful) (h : s.Stable c₀ n) : s.Stable c₀ (n + 1) := by
  intro b use c hc _
  refine follow_succ_agrees .refl Roams.congruence Eq.refl ?_ (fun loc name c c' hc => ?_)
    ⟨rfl, hc⟩ fun i r _ hr => ?_
  · rintro params c _ ⟨rfl, hc⟩
    exact ⟨rfl, hc.body params⟩
  · obtain ⟨rfl, hroams⟩ := hc
    exact convertName_agrees .refl Roams.congruence Eq.refl ⟨rfl, hroams⟩ rfl fun b hb =>
      h b _ c hroams (hroams.bound hb)
  · obtain ⟨hthrough, hbound⟩ := hc.through hl hr
    exact h _ _ _ hthrough hbound

def depths (c₀ : Context) : List Int :=
  (List.range (2 + (-c₀.depth).toNat)).map fun i : ℕ => 1 - (i : Int)

def bindings (s : Setting) (c₀ : Context) : List (Binding × Scope) :=
  (s.scopes c₀).flatMap fun scope => scope.base.map fun e => (e.2, scope)

/-- What a reference can lead to, with a place at which it is met for every case to tell apart. -/
def places (s : Setting) (c₀ : Context) : List (Binding × Context) :=
  (s.bindings c₀ ×ˢ [true, false] ×ˢ depths c₀).map fun p =>
    (p.1.1, ⟨p.1.2, p.2.2, p.2.1, none, c₀.origin⟩)

theorem length_places (s : Setting) (c₀ : Context) :
    (s.places c₀).length + 1 = s.referenceBound c₀ := by
  have hbindings : (s.bindings c₀).length = s.library.nameCount + c₀.scope.base.length := by
    simp only [bindings, scopes, List.flatMap_cons, List.flatMap_map, List.length_append,
      List.length_map, List.length_flatMap, Library.nameCount]
    exact Nat.add_comm ..
  simp only [places, List.length_map, List.length_product, hbindings, depths, List.length_range,
    referenceBound, List.length_cons, List.length_nil]

theorem mem_depths (hd : min c₀.depth 0 ≤ c.depth) : min c.depth 1 ∈ depths c₀ := by
  refine List.mem_map.2 ⟨(1 - min c.depth 1).toNat, List.mem_range.2 ?_, ?_⟩ <;> omega

theorem Roams.exists_place (h : s.Roams c₀ c) {name : String} (hb : (name, b) ∈ c.scope.base) :
    ∃ p ∈ s.places c₀, p.1 = b ∧ c.scope.root = p.2.scope.root ∧
      min c.depth 1 = min p.2.depth 1 ∧ c.isFieldValue = p.2.isFieldValue ∧
      c.origin = p.2.origin := by
  have hbinding : (b, c.scope.root) ∈ s.bindings c₀ :=
    List.mem_flatMap.2 ⟨_, h.root, List.mem_map.2 ⟨_, hb, rfl⟩⟩
  have hfield : c.isFieldValue ∈ [true, false] := by cases c.isFieldValue <;> decide
  refine ⟨_, List.mem_map.2 ⟨((b, c.scope.root), c.isFieldValue, min c.depth 1), ?_, rfl⟩, rfl, rfl,
    ?_, rfl, h.origin⟩
  · exact List.mem_product.2 ⟨hbinding, List.mem_product.2 ⟨hfield, mem_depths h.depth⟩⟩
  · simp

theorem roams_of_mem_places {p : Binding × Context} (hp : p ∈ s.places c₀) :
    s.Roams c₀ p.2 ∧ Bound p.2 p.1 := by
  obtain ⟨⟨⟨b, scope⟩, isFieldValue, depth⟩, hmem, rfl⟩ := List.mem_map.1 hp
  obtain ⟨hbinding, hrest⟩ := List.mem_product.1 hmem
  obtain ⟨scope', hscope, hb⟩ := List.mem_flatMap.1 hbinding
  obtain ⟨⟨name, _⟩, he, hb⟩ := List.mem_map.1 hb
  cases hb
  obtain ⟨i, hi, hdepth⟩ := List.mem_map.1 (List.mem_product.1 hrest).2
  have hroot : scope.root = scope ∧ scope.inner = [] := by
    rcases List.mem_cons.1 hscope with rfl | hscope
    · exact ⟨rfl, rfl⟩
    · obtain ⟨m, _, rfl⟩ := List.mem_map.1 hscope
      exact ⟨rfl, rfl⟩
  refine ⟨⟨?_, ?_, ?_, rfl⟩, .inr ⟨name, he⟩⟩
  · rw [hroot.1]
    exact hscope
  · intro f hf
    rw [hroot.2] at hf
    cases hf
  · have := List.mem_range.1 hi
    dsimp only at hdepth ⊢
    omega

def Ends (s : Setting) (n : ℕ) (p : Binding × Context) : Prop :=
  ¬ Exhausts (s.follow n p.1 ⟨⟨0, 0⟩, ""⟩ p.2).result

theorem Ends.succ {p : Binding × Context} (h : s.Ends n p) : s.Ends (n + 1) p :=
  (follow_mono s n p.1 _ p.2).not_exhausts h

theorem stable_of_ends (h : ∀ p ∈ s.places c₀, s.Ends (n + 2) p → s.Ends (n + 1) p) :
    s.Stable c₀ (n + 1) := by
  intro b use c hc hb
  rcases hb with ⟨q, hq⟩ | ⟨name, hb⟩
  · -- A parameter stands in no module's scope, so it has no place.
    obtain ⟨referent, file⟩ := b
    cases hq
    exact Agree.refl Eq.refl _
  · refine (follow_mono s (n + 1) b use c).of_exhausts fun hx => ?_
    obtain ⟨p, hp, rfl, hscope, hdepth, hfield, horigin⟩ := hc.exists_place hb
    have hends : ¬ s.Ends (n + 2) p := by
      intro hends
      exact h p hp hends ((exhausts_follow_iff hscope hdepth hfield horigin).1 hx)
    exact (exhausts_follow_iff hscope hdepth hfield horigin).2 (not_not.1 hends)

theorem Stable.ends (h : s.Stable c₀ n) {p : Binding × Context} (hp : p ∈ s.places c₀)
    (hends : s.Ends (n + 1) p) : s.Ends n p := by
  obtain ⟨hroams, hbound⟩ := roams_of_mem_places hp
  intro hx
  have hsame := (h p.1 ⟨⟨0, 0⟩, ""⟩ p.2 hroams hbound).eq
  exact hends (hsame.symm.trans hx)

theorem stable_referenceBound (hl : s.library.Faithful) (c₀ : Context) :
    s.Stable c₀ (s.referenceBound c₀) := by
  rw [← length_places]
  refine stable_of_ends fun p hp => ?_
  refine stable_of_growing (s.places c₀) (fun n p => s.Ends (n + 1) p) (fun n p h => h.succ) ?_ hp
  intro n hn p hp
  exact (stable_of_ends hn).succ hl |>.ends hp

theorem stable_of_le (hl : s.library.Faithful) (c₀ : Context) (hn : s.referenceBound c₀ ≤ n) :
    s.Stable c₀ n :=
  Nat.le_induction (s.stable_referenceBound hl c₀) (fun _ _ h => h.succ hl) n hn

/-- A conversion with any larger bound gives what it gives with the bound of the program. So one that
ends at this bound is ended by none. -/
theorem convert_eq_of_referenceBound_le (hl : s.library.Faithful) (t : TypeExpr) (hc : s.Roams c₀ c)
    (hn : s.referenceBound c₀ ≤ n) :
    (s.convert (s.follow n) t c).result = (s.convert (s.follow (s.referenceBound c₀)) t c).result :=
  Nat.le_induction rfl (fun _ hm ih => ((s.stable_of_le hl c₀ hm).convert t hc).eq.symm.trans ih) n hn

end Setting

end PropTables
