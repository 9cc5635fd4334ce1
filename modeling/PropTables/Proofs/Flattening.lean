import PropTables.Proofs.Depth
import PropTables.Proofs.TableShape

/-! Object types in pieces. At depth zero an intersection of object types gives the fields of one object
type with the members of all of them, and a spread of an object type that is written out gives the
fields of its members in their places: unmarked, or as they are if the type is said to be exact. -/

namespace PropTables

/-- The types are object types of properties and spreads, or intersections of such types in turn. The
members are those of all the object types, in order. -/
inductive Pooled : List TypeExpr → List (Member TypeExpr) → Prop
  | nil : Pooled [] []
  | object (hi : o.indexers = []) (hc : o.calls = []) (h : Pooled ts ms) :
    Pooled (.object o :: ts) (o.members ++ ms)
  | intersection (hu : Pooled us ms) (h : Pooled ts ms') :
    Pooled (.intersection loc us :: ts) (ms ++ ms')

namespace Field

structure SameEntry (f g : Field Validator) : Prop where
  key : f.key = g.key
  quoted : f.quoted = g.quoted
  value : f.value = g.value

/-- The second field has the first one's value without the mark that stands outermost, if one does. -/
structure Unmarks (f g : Field Validator) : Prop where
  key : f.key = g.key
  quoted : f.quoted = g.quoted
  value : f.value = g.value.require ∨ f.value = g.value
  unmarked : g.value.isRequired = false

theorem SameEntry.refl (f : Field Validator) : f.SameEntry f :=
  ⟨rfl, rfl, rfl⟩

theorem Unmarks.trans {f g h : Field Validator} (hf : f.Unmarks g) (hg : g.SameEntry h) :
    f.Unmarks h := by
  obtain ⟨hkey, hquoted, hvalue⟩ := hg
  refine ⟨hf.key.trans hkey, hf.quoted.trans hquoted, ?_, ?_⟩
  · rw [← hvalue]
    exact hf.value
  · rw [← hvalue]
    exact hf.unmarked

theorem sameEntry_surround (n : Notes) (fields : List (Field Validator)) :
    List.Forall₂ SameEntry fields (surround n fields) := by
  match fields with
  | [] => exact .nil
  | [f] => exact .cons ⟨rfl, rfl, rfl⟩ .nil
  | f :: g :: fs =>
    refine .cons ⟨rfl, rfl, rfl⟩ ?_
    have hne : g :: fs ≠ [] := List.cons_ne_nil g fs
    have hlast := List.getLast?_eq_some_getLast hne
    rw [hlast]
    conv_lhs => rw [← List.dropLast_append_getLast hne]
    refine List.rel_append (List.forall₂_same.2 fun f _ => .refl f) ?_
    exact .cons ⟨rfl, rfl, rfl⟩ .nil

end Field

namespace Setting

section

variable {s : Setting} {f : Follow} {c : Context}

theorem convertMembers_append (s : Setting) (f : Follow) (ms ms' : List (Member TypeExpr))
    (c : Context) :
    s.convertMembers f (ms ++ ms') c = do
      let fields ← s.convertMembers f ms c
      let rest ← s.convertMembers f ms' c
      return fields ++ rest := by
  induction ms with
  | nil => simp only [List.nil_append, convertMembers, pure_bind, bind_pure]
  | cons m ms ih =>
    simp only [List.cons_append, convertMembers, ih, bind_assoc, pure_bind, List.append_assoc]

theorem convertMembers_nested (s : Setting) (f : Follow) (ms : List (Member TypeExpr))
    (c : Context) : s.convertMembers f ms c.nested = s.convertMembers f ms c := by
  induction ms with
  | nil => rfl
  | cons m ms ih =>
    have hm : s.convertMember f m c.nested = s.convertMember f m c := by
      cases m <;> rfl
    rw [convertMembers, convertMembers, hm, ih]

theorem convert_object_of_depth_zero {o : ObjectType TypeExpr} (hi : o.indexers = [])
    (hcalls : o.calls = []) (hc : c.depth = 0) :
    s.convert f (.object o) c = do
      let fields ← s.convertMembers f o.members c
      return .required (.object fields ⟨o.leading, []⟩) := by
  obtain ⟨loc, members, indexers, calls, ex, leading⟩ := o
  cases hi
  cases hcalls
  simp only [convert, convertObject_of_members, if_pos hc]

theorem convertMerged_of_pooled {types : List TypeExpr} {ms : List (Member TypeExpr)}
    (h : Pooled types ms) (hc : c.depth = 0) :
    s.convertMerged f types c = s.convertMembers f ms c := by
  induction h generalizing c with
  | nil => rfl
  | object hi hcalls _ ih =>
    have hnested : c.nested.depth = 0 := hc
    simp only [convertMerged, convert_object_of_depth_zero hi hcalls hnested, bind_assoc, pure_bind,
      Converted.required, convertMembers_nested, convertMembers_append, ih hc]
  | intersection _ _ ihu ih =>
    have hnested : c.nested.depth = 0 := hc
    simp only [convertMerged, convert, if_pos hnested, ihu hnested, bind_assoc, pure_bind,
      Converted.required, convertMembers_nested, convertMembers_append, ih hc]

theorem convertMembers_spread (hc : 0 ≤ c.depth) (n : ℕ) (ms : List (Member TypeExpr)) :
    (s.convertMembers (s.follow n) ms c.spread).result =
      (s.convertMembers (s.follow n) ms c).result := by
  have hvalue : c.spread.fieldValue.Level c.fieldValue := by
    refine ⟨rfl, ?_, rfl, rfl, rfl⟩
    show min (0 + 1) 1 = min (c.depth + 1) 1
    omega
  have hspread : c.spread.spread.Level c.spread := ⟨rfl, rfl, rfl, rfl, rfl⟩
  refine (convertMembers_agrees (List.forall₂_same.2 fun m _ => ?_)).eq
  exact s.convertMember_agrees_of_level n m hvalue hspread

def MakesFields (s : Setting) (o : ObjectType TypeExpr) (c : Context)
    (fields : List (Field Validator)) : Prop :=
  let literal := Validator.object fields ⟨o.leading, []⟩
  (s.convertType (.object o) c).result =
    .ok (.required (if c.depth = 0 then literal else s.vocabulary.call "shape" literal))

theorem makesFields_iff {o : ObjectType TypeExpr} {fields : List (Field Validator)} :
    s.MakesFields o c fields ↔ o.indexers = [] ∧ o.calls = [] ∧
      (s.convertMembers (s.follow (s.referenceBound c)) o.members c).result = .ok fields := by
  obtain ⟨loc, members, indexers, calls, ex, leading⟩ := o
  unfold MakesFields convertType
  dsimp only
  rw [convert]
  constructor
  · intro h
    rcases calls with _ | ⟨call, calls⟩
    · rcases indexers with _ | ⟨i, _ | ⟨i', is⟩⟩
      · rw [convertObject_of_members, Traced.bind_eq_ok] at h
        obtain ⟨fields', hfields, h⟩ := h
        rw [Traced.pure_eq_ok] at h
        refine ⟨rfl, rfl, ?_⟩
        split at h <;> cases h <;> exact hfields
      · -- What an indexer makes is neither an object literal nor a shape.
        cases members with
        | cons => cases h
        | nil =>
          obtain ⟨w, -, h⟩ := convertIndexer_eq_ok h
          split at h
          · cases h
          · have hattr : s.vocabulary.member "objectOf" ≠ s.vocabulary.member "shape" := by
              simp [Vocabulary.member, Validator.access]
            injection h with _ h
            injection h with h
            exact (hattr h).elim
      · cases members <;> cases h
    · cases h
  · rintro ⟨rfl, rfl, h⟩
    rw [convertObject_of_members, Traced.result_bind, h]
    rfl

theorem convertSpread_eq_ok {n : ℕ} {o : ObjectType TypeExpr} (hi : o.indexers = [])
    (hcalls : o.calls = []) (hc : 0 ≤ c.depth) {t : TypeExpr}
    (ht : s.convert (s.follow n) t c.spread = s.convert (s.follow n) (.object o) c.spread)
    {loc : Position} {notes : Notes} {made : List (Field Validator)} :
    (s.convertMember (s.follow n) (.spread ⟨loc, t, notes⟩) c).result = .ok made ↔
      ∃ own, (s.convertMembers (s.follow n) o.members c).result = .ok own ∧
        Field.surround notes (if s.isExact t then own else own.map Field.stripRequired) = made := by
  rw [← convertMembers_spread hc, convertMember, ht, convert_object_of_depth_zero hi hcalls rfl]
  simp only [bind_assoc, pure_bind, Traced.bind_eq_ok, Converted.required, Traced.pure_eq_ok]

theorem convertMembers_append_eq_ok {n : ℕ} {ms ms' : List (Member TypeExpr)}
    {fields : List (Field Validator)} :
    (s.convertMembers (s.follow n) (ms ++ ms') c).result = .ok fields ↔
      ∃ before after, (s.convertMembers (s.follow n) ms c).result = .ok before ∧
        (s.convertMembers (s.follow n) ms' c).result = .ok after ∧ before ++ after = fields := by
  simp only [convertMembers_append, Traced.bind_eq_ok, Traced.pure_eq_ok]
  constructor
  · rintro ⟨before, hbefore, after, hafter, h⟩
    exact ⟨before, after, hbefore, hafter, h⟩
  · rintro ⟨before, after, hbefore, hafter, h⟩
    exact ⟨before, hbefore, after, hafter, h⟩

theorem convertMembers_singleton_eq_ok {n : ℕ} {m : Member TypeExpr}
    {fields : List (Field Validator)} :
    (s.convertMembers (s.follow n) [m] c).result = .ok fields ↔
      (s.convertMember (s.follow n) m c).result = .ok fields := by
  simp only [convertMembers, pure_bind, List.append_nil, bind_pure]

theorem unmarks_stripRequired {n : ℕ} {o : ObjectType TypeExpr} (hi : o.indexers = [])
    (hcalls : o.calls = []) (hc : 0 ≤ c.depth) {own : List (Field Validator)}
    (h : (s.convertMembers (s.follow n) o.members c).result = .ok own) {f : Field Validator}
    (hf : f ∈ own) : f.Unmarks f.stripRequired := by
  -- Fields of an object type are marked once at most.
  rw [← convertMembers_spread hc] at h
  have hyields : s.Yields (.type n (.object o) c.spread)
      (.required (.object own ⟨o.leading, []⟩)) := by
    show (s.convert (s.follow n) (.object o) c.spread).result = _
    rw [convert_object_of_depth_zero hi hcalls rfl, Traced.bind_eq_ok]
    exact ⟨own, h, rfl⟩
  have hsound := sound_of_reaches (x := .type n (.object o) c.spread) le_rfl .refl hyields
  have hshaped := hsound.fields rfl hf
  obtain ⟨key, value, quoted, notes⟩ := f
  refine ⟨rfl, rfl, ?_, ?_⟩
  · cases hshaped with
    | plain h => exact .inr (Validator.stripRequired_of_not_isRequired h.isRequired_eq_false).symm
    | marked h => exact .inl (congrArg Validator.require (Validator.stripRequired_require _)).symm
  · cases hshaped with
    | plain h =>
      have hplain := h.isRequired_eq_false
      show value.stripRequired.isRequired = false
      rw [Validator.stripRequired_of_not_isRequired hplain]
      exact hplain
    | marked h =>
      have hplain := h.isRequired_eq_false
      show (Validator.stripRequired (Validator.require _)).isRequired = false
      rw [Validator.stripRequired_require]
      exact hplain

theorem makesFields_append {o : ObjectType TypeExpr} {ms ms' : List (Member TypeExpr)}
    {fields : List (Field Validator)} :
    s.MakesFields { o with members := ms ++ ms' } c fields ↔
      ∃ before after, s.MakesFields { o with members := ms } c before ∧
        s.MakesFields { o with members := ms' } c after ∧ before ++ after = fields := by
  simp only [makesFields_iff, convertMembers_append_eq_ok]
  constructor
  · rintro ⟨hi, hcalls, before, after, hbefore, hafter, h⟩
    exact ⟨before, after, ⟨hi, hcalls, hbefore⟩, ⟨hi, hcalls, hafter⟩, h⟩
  · rintro ⟨before, after, ⟨hi, hcalls, hbefore⟩, ⟨-, -, hafter⟩, h⟩
    exact ⟨hi, hcalls, before, after, hbefore, hafter, h⟩

theorem makesFields_spread {o inner : ObjectType TypeExpr} (hi : inner.indexers = [])
    (hcalls : inner.calls = []) (hc : 0 ≤ c.depth) {t : TypeExpr}
    (ht : ∀ f, s.convert f t c.spread = s.convert f (.object inner) c.spread) {loc : Position}
    {notes : Notes} {made : List (Field Validator)} :
    s.MakesFields { o with members := [.spread ⟨loc, t, notes⟩] } c made ↔
      ∃ own, s.MakesFields { o with members := inner.members } c own ∧
        Field.surround notes (if s.isExact t then own else own.map Field.stripRequired) = made := by
  simp only [makesFields_iff, convertMembers_singleton_eq_ok, convertSpread_eq_ok hi hcalls hc (ht _)]
  constructor
  · rintro ⟨ho, hk, own, hown, h⟩
    exact ⟨own, ⟨ho, hk, hown⟩, h⟩
  · rintro ⟨own, ⟨ho, hk, hown⟩, h⟩
    exact ⟨ho, hk, own, hown, h⟩

theorem makesFields_between {o : ObjectType TypeExpr} {pre ms post : List (Member TypeExpr)}
    {fields : List (Field Validator)} :
    s.MakesFields { o with members := pre ++ ms ++ post } c fields ↔
      ∃ before own after, s.MakesFields { o with members := pre } c before ∧
        s.MakesFields { o with members := ms } c own ∧
        s.MakesFields { o with members := post } c after ∧ before ++ own ++ after = fields := by
  constructor
  · intro h
    obtain ⟨first, after, hfirst, hafter, rfl⟩ := makesFields_append.1 h
    obtain ⟨before, own, hbefore, hown, rfl⟩ := makesFields_append.1 hfirst
    exact ⟨before, own, after, hbefore, hown, hafter, rfl⟩
  · rintro ⟨before, own, after, hbefore, hown, hafter, rfl⟩
    have hfirst : s.MakesFields { o with members := pre ++ ms } c (before ++ own) :=
      makesFields_append.2 ⟨before, own, hbefore, hown, rfl⟩
    exact makesFields_append.2 ⟨_, after, hfirst, hafter, rfl⟩

theorem makesFields_exactSpread (hexact : s.options.exactName ≠ "Array")
    {o inner : ObjectType TypeExpr} (hi : inner.indexers = []) (hcalls : inner.calls = []) (hc : 0 ≤ c.depth) {loc loc' : Position}
    {notes : Notes} {made : List (Field Validator)} :
    s.MakesFields { o with members :=
        [.spread ⟨loc, .reference loc' [] s.options.exactName [.object inner], notes⟩] } c made ↔
      ∃ own, s.MakesFields { o with members := inner.members } c own ∧
        Field.surround notes own = made := by
  have hgeneric : s.generic s.options.exactName = .exact := by
    unfold generic
    rw [if_neg hexact, if_pos rfl]
  have hthrough (f : Follow) :
      s.convert f (.reference loc' [] s.options.exactName [.object inner]) c.spread =
        s.convert f (.object inner) c.spread := by
    simp only [convert, hgeneric]
  simp only [makesFields_spread hi hcalls hc hthrough, isExact, beq_self_eq_true, if_true]

theorem makesFields_looseSpread {o inner : ObjectType TypeExpr} (hi : inner.indexers = [])
    (hcalls : inner.calls = []) (hc : 0 ≤ c.depth) {loc : Position} {notes : Notes}
    {made : List (Field Validator)} :
    s.MakesFields { o with members := [.spread ⟨loc, .object inner, notes⟩] } c made ↔
      ∃ own, s.MakesFields { o with members := inner.members } c own ∧
        Field.surround notes (own.map Field.stripRequired) = made :=
  makesFields_spread hi hcalls hc (t := .object inner) fun _ => rfl

theorem unmarks_surround {o inner : ObjectType TypeExpr} (hi : inner.indexers = [])
    (hcalls : inner.calls = []) (hc : 0 ≤ c.depth) {own : List (Field Validator)}
    (hown : s.MakesFields { o with members := inner.members } c own) (notes : Notes) :
    List.Forall₂ Field.Unmarks own (Field.surround notes (own.map Field.stripRequired)) := by
  have hsurround := Field.sameEntry_surround notes (own.map Field.stripRequired)
  rw [List.forall₂_map_left_iff] at hsurround
  refine forall₂_imp_mem hsurround fun f hf g hg => ?_
  exact (unmarks_stripRequired hi hcalls hc (makesFields_iff.1 hown).2.2 hf).trans hg

/-- If a member makes fields only where other members do, these may stand in its place. -/
theorem makesFields_of_replaced {o : ObjectType TypeExpr} {pre ms post : List (Member TypeExpr)}
    {m : Member TypeExpr} (hm : ∀ made, s.MakesFields { o with members := [m] } c made →
      ∃ own, s.MakesFields { o with members := ms } c own)
    (h : ∃ fields, s.MakesFields { o with members := pre ++ [m] ++ post } c fields) :
    ∃ fields, s.MakesFields { o with members := pre ++ ms ++ post } c fields := by
  obtain ⟨fields, h⟩ := h
  obtain ⟨before, made, after, hbefore, hmade, hafter, -⟩ := makesFields_between.1 h
  obtain ⟨own, hown⟩ := hm made hmade
  exact ⟨_, makesFields_between.2 ⟨before, own, after, hbefore, hown, hafter, rfl⟩⟩

end

/-- At depth zero an intersection of object types, however it is grouped, converts as one object type
with all their members does: with the same fields, or not at all. In an object type at any depth, the
members of an object type may stand for an exact spread of it, and make the same fields; and for a
spread of it that is not exact, but then every value of theirs that is marked is unmarked. -/
theorem flattening (s : Setting) (hexact : s.options.exactName ≠ "Array") :
    (∀ c types members loc loc' ex leading, c.depth = 0 → Pooled types members →
      ∃ r : Except Failure (List (Field Validator)),
        (s.convertType (.intersection loc types) c).result =
          r.map (fun fields => .required (.object fields .none)) ∧
        (s.convertType (.object ⟨loc', members, [], [], ex, leading⟩) c).result =
          r.map (fun fields => .required (.object fields ⟨leading, []⟩))) ∧
    ∀ c (o inner : ObjectType TypeExpr) pre post loc loc' notes,
      0 ≤ c.depth → inner.indexers = [] → inner.calls = [] →
      let inPlace (ms : List (Member TypeExpr)) : ObjectType TypeExpr :=
        { o with members := pre ++ ms ++ post }
      let exactly : Member TypeExpr :=
        .spread ⟨loc, .reference loc' [] s.options.exactName [.object inner], notes⟩
      let loosely : Member TypeExpr := .spread ⟨loc, .object inner, notes⟩
      (∀ fields, s.MakesFields (inPlace inner.members) c fields →
        ∃ before own after, fields = before ++ own ++ after ∧
          s.MakesFields { o with members := pre } c before ∧
          s.MakesFields { o with members := inner.members } c own ∧
          s.MakesFields { o with members := post } c after ∧
          (∃ own', List.Forall₂ Field.SameEntry own own' ∧
            s.MakesFields (inPlace [exactly]) c (before ++ own' ++ after)) ∧
          ∃ own', List.Forall₂ Field.Unmarks own own' ∧
            s.MakesFields (inPlace [loosely]) c (before ++ own' ++ after)) ∧
      ((∃ fields, s.MakesFields (inPlace [exactly]) c fields) ∨
          (∃ fields, s.MakesFields (inPlace [loosely]) c fields) →
        ∃ fields, s.MakesFields (inPlace inner.members) c fields) := by
  refine ⟨?_, ?_⟩
  · intro c types members loc loc' ex leading hc h
    refine ⟨(s.convertMembers (s.follow (s.referenceBound c)) members c).result, ?_, ?_⟩
    · rw [convertType, convert, if_pos hc, convertMerged_of_pooled h hc]
      exact Traced.result_bind_pure _ _
    · rw [convertType, convert_object_of_depth_zero rfl rfl hc]
      exact Traced.result_bind_pure _ _
  · intro c o inner pre post loc loc' notes hc hi hcalls inPlace exactly loosely
    have hexactly (made : List (Field Validator)) :
        s.MakesFields { o with members := [exactly] } c made ↔ _ :=
      makesFields_exactSpread hexact hi hcalls hc
    have hloosely (made : List (Field Validator)) :
        s.MakesFields { o with members := [loosely] } c made ↔ _ :=
      makesFields_looseSpread hi hcalls hc
    refine ⟨fun fields h => ?_, ?_⟩
    · obtain ⟨before, own, after, hbefore, hown, hafter, rfl⟩ := makesFields_between.1 h
      have hput {m : Member TypeExpr} {made : List (Field Validator)}
          (hm : s.MakesFields { o with members := [m] } c made) :
          s.MakesFields (inPlace [m]) c (before ++ made ++ after) :=
        makesFields_between.2 ⟨before, made, after, hbefore, hm, hafter, rfl⟩
      refine ⟨before, own, after, rfl, hbefore, hown, hafter, ?_, ?_⟩
      · exact ⟨_, Field.sameEntry_surround notes own, hput ((hexactly _).2 ⟨own, hown, rfl⟩)⟩
      · exact ⟨_, unmarks_surround hi hcalls hc hown notes, hput ((hloosely _).2 ⟨own, hown, rfl⟩)⟩
    · rintro (h | h)
      · exact makesFields_of_replaced (fun made hm => ((hexactly made).1 hm).imp fun _ h => h.1) h
      · exact makesFields_of_replaced (fun made hm => ((hloosely made).1 hm).imp fun _ h => h.1) h

def sizedType (key : String) : ObjectType TypeExpr :=
  ⟨⟨1, 1⟩, [.property ⟨⟨1, 2⟩, .ofString key, key, .primitive ⟨1, 9⟩ .number, false, false, .none⟩],
    [], [], false, []⟩

theorem flattening_sizedType :
    let s : Setting := ⟨.default, .default, .ofTable .none [] .default⟩
    let c : Context := ⟨.empty, 0, false, none, none⟩
    let ofKeys (keys : List String) : List (Member TypeExpr) :=
      keys.flatMap fun key => (sizedType key).members
    let grouped : List TypeExpr :=
      [.object (sizedType "a"),
        .intersection ⟨1, 14⟩ [.object (sizedType "b"), .object (sizedType "c")]]
    s.options.exactName ≠ "Array" ∧ c.depth = 0 ∧ Pooled grouped (ofKeys ["a", "b", "c"]) ∧
    (∃ fields, (s.convertType (.intersection ⟨1, 1⟩ grouped) c).result =
        .ok (.required (.object fields .none)) ∧
      (s.convertType (.object ⟨⟨1, 1⟩, ofKeys ["a", "b", "c"], [], [], false, []⟩) c).result =
        .ok (.required (.object fields .none))) ∧
    ∃ fields, s.MakesFields
      { sizedType "a" with members := (sizedType "a").members ++
        [.spread ⟨⟨1, 12⟩, .object (sizedType "b"), .none⟩] ++ [] } c fields := by
  intro s c ofKeys grouped
  have hexact : s.options.exactName ≠ "Array" := by decide
  have hinner : Pooled [.object (sizedType "b"), .object (sizedType "c")] (ofKeys ["b", "c"]) :=
    .object rfl rfl (.object rfl rfl .nil)
  have hpooled : Pooled grouped ((sizedType "a").members ++ (ofKeys ["b", "c"] ++ [])) :=
    .object rfl rfl (.intersection hinner .nil)
  obtain ⟨hmerged, hspliced⟩ := flattening s hexact
  refine ⟨hexact, rfl, hpooled, ?_, ?_⟩
  · obtain ⟨r, hr, hr'⟩ := hmerged c grouped _ ⟨1, 1⟩ ⟨1, 1⟩ false [] rfl hpooled
    cases r with
    | error e => exact nomatch hr'
    | ok fields => exact ⟨fields, hr, hr'⟩
  · obtain ⟨_, _, _, _, _, _, _, _, own', _, h⟩ := (hspliced c (sizedType "a") (sizedType "b")
      (sizedType "a").members [] ⟨1, 12⟩ ⟨1, 15⟩ .none le_rfl rfl rfl).1 _ rfl
    exact ⟨_, h⟩

end Setting

end PropTables
