import PropTables.Library.Holdings
import PropTables.Proofs.Rules

/-! Which fields are required. The head of a property's type, which references and two of the escape
hatches only pass on, decides whether the property may be marked; nothing else keeps the place behind
a key. -/

namespace PropTables

def ConvertOptions.NamesApart (o : ConvertOptions) : Prop :=
  ["Array", o.exactName, o.checkedByName, o.hasDefaultName].Nodup

instance (o : ConvertOptions) : Decidable o.NamesApart :=
  inferInstanceAs (Decidable (List.Nodup _))

namespace Setting

/-- One step towards the head: from an unapplied reference to its binding, from an import to what it
stands for, from an alias to its right side, and into the two hatches that say nothing of presence. -/
inductive HeadStep (s : Setting) : Call → Call → Prop
  | lookup (hb : c.scope.lookup name = some b) :
    HeadStep s (.type n (.reference loc [] name []) c) (.binding n b ⟨loc, name⟩ c)
  | import_ (hr : (s.library.resolveImport i file).result = .ok r) :
    HeadStep s (.binding (n + 1) ⟨.import_ i, file⟩ use c)
      (.binding n r.binding use (c.through i file r.scope))
  | typeAlias :
    HeadStep s (.binding (n + 1) ⟨.typeAlias a, file⟩ use c) (.type n a.right (c.body a.params))
  | exact (hn : name = s.options.exactName) :
    HeadStep s (.type n (.reference loc [] name [t]) c) (.type n t c)
  | checkedBy (hn : name = s.options.checkedByName) :
    HeadStep s (.type n (.reference loc [] name [u, t]) c) (.type n t c)

def IsHead (s : Setting) (x head : Call) : Prop :=
  Relation.ReflTransGen s.HeadStep x head ∧ ∀ y, ¬ s.HeadStep head y

inductive ChainStep (s : Setting) : Call → Call → Prop
  | head (h : s.HeadStep x y) : ChainStep s x y
  | hasDefault (hn : name = s.options.hasDefaultName) :
    ChainStep s (.type n (.reference loc [] name [t]) c) (.type n t c)

end Setting

namespace Call

def IsMaybe (x : Call) : Prop :=
  ∃ n loc t c, x = .type n (.nullable loc t) c

def IsDefaulted (s : Setting) (x : Call) : Prop :=
  ∃ n loc t c, x = .type n (.reference loc [] s.options.hasDefaultName [t]) c

inductive PropertyStep : Call → Call → Prop
  | mk (hp : .property p ∈ members) :
    PropertyStep (.type n (.object ⟨loc, members, [], [], ex, leading⟩) c)
      (.type n p.value c.fieldValue)

end Call

namespace Setting

/-- The call `x` reaches `y` otherwise than through a chain that starts behind a key. -/
def Astray (s : Setting) (x y : Call) : Prop :=
  ∃ w, (w = x ∨ ∃ z, s.Reaches x z ∧ s.Step z w ∧ ¬ s.ChainStep z w ∧ ¬ Call.PropertyStep z w) ∧
    Relation.ReflTransGen s.ChainStep w y

section

variable {s : Setting} {x y : Call} {n : Nat} {c : Context} {v : Converted} {name : String}

theorem generic_eq_iff (names : s.options.NamesApart) :
    (s.generic name = .exact ↔ name = s.options.exactName) ∧
    (s.generic name = .checkedBy ↔ name = s.options.checkedByName) ∧
    (s.generic name = .hasDefault ↔ name = s.options.hasDefaultName) := by
  simp only [ConvertOptions.NamesApart, List.nodup_cons, List.mem_cons, not_or] at names
  unfold generic
  grind

theorem HeadStep.rightUnique : Relator.RightUnique s.HeadStep := by
  intro x y z hy hz
  cases hy with
  | lookup hb =>
    cases hz with
    | lookup hb' => rw [Option.some.inj (hb.symm.trans hb')]
  | import_ hr =>
    cases hz with
    | import_ hr' => rw [Except.ok.inj (hr.symm.trans hr')]
  | typeAlias => cases hz; rfl
  | exact => cases hz; rfl
  | checkedBy => cases hz; rfl

theorem IsHead.unique (hx : s.IsHead x y) {z : Call} (hz : s.IsHead x z) : z = y :=
  eq_of_reflTransGen HeadStep.rightUnique hx.1 hz.1 hx.2 hz.2

theorem IsHead.head (h : s.HeadStep x y) {z : Call} (hz : s.IsHead y z) : s.IsHead x z :=
  ⟨hz.1.head h, hz.2⟩

theorem IsHead.refl (h : ∀ y, ¬ s.HeadStep x y) : s.IsHead x x :=
  ⟨.refl, h⟩

theorem HeadStep.step (names : s.options.NamesApart) (h : s.HeadStep x y) : s.Step x y := by
  cases h with
  | lookup hb => exact .lookup hb
  | import_ hr => exact .import_ hr
  | typeAlias => exact .typeAlias
  | exact hn => exact .part (.exact ((generic_eq_iff names).1.2 hn))
  | checkedBy hn => exact .part (.checkedBy ((generic_eq_iff names).2.1.2 hn))

theorem primitive_isRequired (voc : Vocabulary) (p : Primitive) :
    (voc.primitive p).isRequired = false := by
  cases p <;> rfl

theorem Yields.isRequired_eq_false (h : s.Yields x v) : v.expr.isRequired = false := by
  induction x using call_induction (s := s) generalizing v with
  | step x ih =>
    cases rule_of_yields h with
    | primitive => exact primitive_isRequired _ _
    | maybe _ _ hw =>
      have hr := ih _ (.part .nullable) hw
      exact hr
    | exact hg hw => exact ih _ (.part (.exact hg)) hw
    | checkedBy hg hw => exact ih _ (.part (.checkedBy hg)) hw
    | hasDefault hg hc hw =>
      have hr := ih _ (.part (.hasDefault hg hc)) hw
      exact hr
    | bound hb hw => exact ih _ (.lookup hb) hw
    | typeAlias hw => exact ih _ .typeAlias hw
    | interface hw => exact ih _ .interface hw
    | import_ hr hw => exact ih _ (.import_ hr) hw
    | _ => rfl

/-- Away from a key nothing is optional. -/
theorem Yields.required (h : s.Yields x v) (hx : x.context.isFieldValue = false) :
    v.requirement = .required := by
  induction x using call_induction (s := s) generalizing v with
  | step x ih =>
    cases rule_of_yields h with
    | maybe _ hc => exact absurd (hc.symm.trans hx) (by decide)
    | hasDefault _ hc => exact absurd (hc.symm.trans hx) (by decide)
    | exact hg hw => exact ih _ (.part (.exact hg)) hw hx
    | checkedBy hg hw => exact ih _ (.part (.checkedBy hg)) hw hx
    | bound hb hw => exact ih _ (.lookup hb) hw hx
    | typeAlias hw => exact ih _ .typeAlias hw hx
    | interface hw => exact ih _ .interface hw hx
    | import_ hr hw => exact ih _ (.import_ hr) hw hx
    | _ => rfl

theorem requirement_of_object {o : ObjectType TypeExpr} (h : s.Yields (.type n (.object o) c) v) :
    v.requirement = .required := by
  generalize hx : Call.type n (.object o) c = x at h
  cases rule_of_yields h with
  | table | shape | indexer => rfl
  | _ => cases hx

theorem generic_ne_array_of_name_eq (names : s.options.NamesApart) (hg : s.generic name = .array) :
    name ≠ s.options.exactName ∧ name ≠ s.options.hasDefaultName := by
  constructor
  · intro hn
    exact nomatch hg.symm.trans ((generic_eq_iff names).1.2 hn)
  · intro hn
    exact nomatch hg.symm.trans ((generic_eq_iff names).2.2.2 hn)

theorem Yields.exists_head (names : s.options.NamesApart) (h : s.Yields x v)
    (hx : x.context.isFieldValue = true) :
    ∃ head, s.IsHead x head ∧ (v.requirement = .optional ↔ head.IsMaybe ∨ head.IsDefaulted s) := by
  induction x using call_induction (s := s) generalizing v with
  | step x ih =>
    have pass {y : Call} (hy : s.HeadStep x y) (hw : s.Yields y v)
        (hf : y.context.isFieldValue = true) :
        ∃ head, s.IsHead x head ∧
          (v.requirement = .optional ↔ head.IsMaybe ∨ head.IsDefaulted s) := by
      obtain ⟨head, hhead, hiff⟩ := ih y (hy.step names) hw hf
      exact ⟨head, hhead.head hy, hiff⟩
    cases rule_of_yields h with
    | exact hg hw => exact pass (.exact ((generic_eq_iff names).1.1 hg)) hw hx
    | checkedBy hg hw => exact pass (.checkedBy ((generic_eq_iff names).2.1.1 hg)) hw hx
    | bound hb hw => exact pass (.lookup hb) hw hx
    | typeAlias hw => exact pass .typeAlias hw hx
    | import_ hr hw => exact pass (.import_ hr) hw hx
    | maybe =>
      refine ⟨_, IsHead.refl (fun _ hy => nomatch hy), ?_⟩
      simp [Converted.optional, Call.IsMaybe]
    | hasDefault hg hc hw =>
      have hn := (generic_eq_iff names).2.2.1 hg
      refine ⟨_, IsHead.refl ?_, ?_⟩
      · intro y hy
        cases hy with
        | exact hn' => exact nomatch hg.symm.trans ((generic_eq_iff names).1.2 hn')
      · simp [Converted.optional, Call.IsDefaulted, hn]
    | arrayOf hg =>
      obtain ⟨hexact, hdefault⟩ := generic_ne_array_of_name_eq names hg
      refine ⟨_, IsHead.refl ?_, ?_⟩
      · intro y hy
        cases hy with
        | exact hn => exact hexact hn
      · simp [Converted.required, Call.IsMaybe, Call.IsDefaulted, hdefault]
    | unboundFunction hb | unboundObject hb =>
      refine ⟨_, IsHead.refl ?_, ?_⟩
      · intro y hy
        cases hy with
        | lookup hb' => exact nomatch hb.symm.trans hb'
      · simp [Converted.required, Call.IsMaybe, Call.IsDefaulted]
    | interface hw =>
      -- The step into the body is no step towards the head, and the body is an object type.
      have hv := requirement_of_object hw
      refine ⟨_, IsHead.refl (fun _ hy => nomatch hy), ?_⟩
      simp [hv, Call.IsMaybe, Call.IsDefaulted]
    | nullable _ hc => exact absurd (hx.symm.trans hc) (by decide)
    | _ =>
      refine ⟨_, IsHead.refl (fun _ hy => nomatch hy), ?_⟩
      simp [Converted.required, Call.IsMaybe, Call.IsDefaulted]

theorem convertMember_isRequired_iff (names : s.options.NamesApart) {p : Property TypeExpr}
    {fields : List (Field Validator)}
    (h : (s.convertMember (s.follow n) (.property p) c).result = .ok fields) :
    ∃ f head, fields = [f] ∧ (∀ y, s.IsHead (.type n p.value c.fieldValue) y ↔ y = head) ∧
      (f.value.isRequired = true ↔ p.optional = false ∧ ¬ head.IsMaybe ∧ ¬ head.IsDefaulted s) := by
  cases convertMember_eq_ok h with
  | @property w _ hw =>
    obtain ⟨head, hhead, hiff⟩ := hw.exists_head names rfl
    refine ⟨_, head, rfl, fun y => ⟨fun hy => hhead.unique hy, fun hy => hy ▸ hhead⟩, ?_⟩
    rw [← not_or, ← hiff]
    have hplain := hw.isRequired_eq_false
    cases p.optional <;> cases hr : w.requirement <;> simp [hplain]

end

section

variable {s : Setting} {x y z : Call} {v : Converted}

def Settled (x : Call) : Prop :=
  x.context.isFieldValue = false ∨ ∃ n o c, x = .type n (.object o) c

theorem Step.settled (names : s.options.NamesApart) (h : s.Step x y) (hc : ¬ s.ChainStep x y)
    (hp : ¬ x.PropertyStep y) : Settled y := by
  cases h with
  | part h =>
    cases h with
    | nullable | array | arrayOf | union | intersection | spread | indexer => exact .inl rfl
    | exact hg => exact (hc (.head (.exact ((generic_eq_iff names).1.1 hg)))).elim
    | checkedBy hg => exact (hc (.head (.checkedBy ((generic_eq_iff names).2.1.1 hg)))).elim
    | hasDefault hg => exact (hc (.hasDefault ((generic_eq_iff names).2.2.1 hg))).elim
    | property hm => exact (hp (.mk hm)).elim
  | lookup hb => exact (hc (.head (.lookup hb))).elim
  | import_ hr => exact (hc (.head (.import_ hr))).elim
  | typeAlias => exact (hc (.head .typeAlias)).elim
  | interface => exact .inr ⟨_, _, _, rfl⟩

theorem HeadStep.settled (h : s.HeadStep x y) (hx : Settled x) : Settled y := by
  rcases hx with hx | ⟨n, o, c, rfl⟩
  · left
    cases h <;> exact hx
  · cases h

theorem Settled.not_yields (names : s.options.NamesApart) {n : Nat} {loc : Position} {t : TypeExpr}
    {c : Context} {name : String} (hn : name = s.options.hasDefaultName)
    (hx : Settled (.type n (.reference loc [] name [t]) c)) :
    ¬ s.Yields (.type n (.reference loc [] name [t]) c) v := by
  intro h
  have hg := (generic_eq_iff names).2.2.2 hn
  rcases hx with hx | ⟨n', o, c', hx⟩
  · cases rule_of_yields h with
    | hasDefault _ hc => exact absurd (hc.symm.trans hx) (by decide)
    | arrayOf hg' | exact hg' => exact nomatch hg.symm.trans hg'
  · cases hx

theorem settled_of_chain (names : s.options.NamesApart) (hv : s.Yields x v)
    (h : Relation.ReflTransGen s.ChainStep y z) (hy : s.Reaches x y) (hs : Settled y) :
    s.Reaches x z ∧ Settled z := by
  induction h with
  | refl => exact ⟨hy, hs⟩
  | tail _ hstep ih =>
    obtain ⟨hz, hs⟩ := ih
    cases hstep with
    | head hstep => exact ⟨hz.tail (hstep.step names), hstep.settled hs⟩
    | hasDefault hn =>
      -- The call that would take this step has failed.
      obtain ⟨w, hw⟩ := hz.yields hv
      exact (hs.not_yields names hn hw).elim

theorem Astray.settled (names : s.options.NamesApart) (hv : s.Yields x v) (hx : Settled x)
    (h : s.Astray x y) : s.Reaches x y ∧ Settled y := by
  obtain ⟨w, hw, hchain⟩ := h
  rcases hw with rfl | ⟨z, hz, hstep, hc, hp⟩
  · exact settled_of_chain names hv hchain .refl hx
  · exact settled_of_chain names hv hchain (hz.tail hstep) (hstep.settled names hc hp)

end

/-- A property's field is marked as required exactly when the property is not optional and the head of
its type neither allows nothing nor has a default. Away from a key every result may be marked, and a
type with a default that is reached there makes the run fail. -/
theorem required_iff_head (s : Setting) (names : s.options.NamesApart) :
    (∀ n p c fields, (s.convertMember (s.follow n) (.property p) c).result = .ok fields →
      ∃ f head, fields = [f] ∧ (∀ y, s.IsHead (.type n p.value c.fieldValue) y ↔ y = head) ∧
        (f.value.isRequired = true ↔
          p.optional = false ∧ ¬ head.IsMaybe ∧ ¬ head.IsDefaulted s)) ∧
    (∀ n t c v, c.isFieldValue = false → (s.convert (s.follow n) t c).result = .ok v →
      v.requirement = .required) ∧
    (∀ node c v, c.isFieldValue = false → (s.convertNode node c).result = .ok v →
      v.requirement = .required) ∧
    (∀ t scope origin n loc u c, s.Astray (s.tableCall t scope origin)
        (.type n (.reference loc [] s.options.hasDefaultName [u]) c) →
      ∀ table, (s.convertTable t scope origin).result ≠ .ok table) := by
  refine ⟨fun n p c fields h => convertMember_isRequired_iff names h,
    fun n t c v hc h => Yields.required (x := .type n t c) h hc, ?_, ?_⟩
  · intro node c v hc h
    cases node with
    | type t => exact Yields.required (x := .type _ t c) h hc
    | indexer i =>
      obtain ⟨w, _, rfl⟩ := convertIndexer_eq_ok h
      rfl
    | member m => cases m <;> exact nomatch h
    | call | other => exact nomatch h
  · intro t scope origin n loc u c hastray table h
    obtain ⟨v, _, _, hv, _⟩ := convertTable_eq_ok h
    obtain ⟨hreach, hs⟩ := hastray.settled names hv (.inl rfl)
    obtain ⟨w, hw⟩ := hreach.yields hv
    exact hs.not_yields names rfl hw

def sizeScope : Scope :=
  let right : TypeExpr := .nullable ⟨1, 13⟩ (.primitive ⟨1, 14⟩ .string)
  ⟨[], [("Size", ⟨.typeAlias ⟨⟨1, 1⟩, "Size", [], right⟩, none⟩)], none⟩

def sizeProperty (value : TypeExpr) : Property TypeExpr :=
  ⟨⟨2, 2⟩, .ofString "size", "size", value, false, false, .none⟩

theorem required_iff_head_sizeScope :
    let s : Setting := ⟨.default, .default, .ofTable .none [] .default⟩
    let size : TypeExpr := .reference ⟨2, 8⟩ [] "Size" []
    let sizes : TypeExpr := .array ⟨2, 8⟩ (.reference ⟨2, 8⟩ [] "HasDefaultProp" [size])
    (∃ f, (s.convertMember (s.follow 1) (.property (sizeProperty size))
        ⟨sizeScope, 0, false, none, none⟩).result = .ok [f] ∧ f.value.isRequired = false) ∧
    ∀ table, (s.convertTable (.object ⟨⟨2, 1⟩, [.property (sizeProperty sizes)], [], [], false, []⟩)
      sizeScope none).result ≠ .ok table := by
  intro s size sizes
  obtain ⟨hmember, _, _, hastray⟩ := required_iff_head s (by decide)
  constructor
  · obtain ⟨f, head, hf, hhead, hiff⟩ :=
      hmember 1 (sizeProperty size) ⟨sizeScope, 0, false, none, none⟩ _ rfl
    have hmaybe : head.IsMaybe := by
      rw [← (hhead _).1 ⟨.head (.lookup rfl) (.head .typeAlias .refl), fun _ hy => nomatch hy⟩]
      exact ⟨_, _, _, _, rfl⟩
    exact ⟨f, congrArg Except.ok hf, Bool.eq_false_of_not_eq_true fun hr => (hiff.1 hr).2.1 hmaybe⟩
  · have hreach : s.Reaches (s.tableCall (.object ⟨⟨2, 1⟩, [.property (sizeProperty sizes)], [], [],
        false, []⟩) sizeScope none) (.type _ sizes _) :=
      .head (.part (.property List.mem_cons_self)) .refl
    have hchain {n loc t c y} : ¬ s.ChainStep (.type n (.array loc t) c) y := by
      rintro (h | _)
      cases h
    have hproperty {n loc t c y} : ¬ Call.PropertyStep (.type n (.array loc t) c) y := by
      rintro ⟨_⟩
    exact hastray _ _ _ _ _ _ _ ⟨_, .inr ⟨_, hreach, .part .array, hchain, hproperty⟩, .refl⟩

end Setting

end PropTables
