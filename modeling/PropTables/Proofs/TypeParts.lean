import Mathlib.Logic.Relation
import PropTables.Syntax.Type

/-! The types that a type is made of, and the type of the same form that has other types in their
places. -/

namespace PropTables

section

variable {T U : Type}

def FunctionParam.map (f : T → U) (p : FunctionParam T) : FunctionParam U :=
  ⟨p.loc, p.name, f p.type, p.optional, p.rest⟩

def Property.map (f : T → U) (p : Property T) : Property U :=
  ⟨p.loc, p.key, p.written, f p.value, p.optional, p.quoted, p.notes⟩

def Spread.map (f : T → U) (p : Spread T) : Spread U :=
  ⟨p.loc, f p.argument, p.notes⟩

def Member.map (f : T → U) : Member T → Member U
  | .property p => .property (p.map f)
  | .spread p => .spread (p.map f)

def Indexer.map (f : T → U) (i : Indexer T) : Indexer U :=
  ⟨i.loc, i.name, f i.key, f i.value⟩

def CallSignature.map (f : T → U) (k : CallSignature T) : CallSignature U :=
  ⟨k.loc, k.params.map (·.map f), f k.result⟩

def ObjectType.map (f : T → U) (o : ObjectType T) : ObjectType U :=
  ⟨o.loc, o.members.map (·.map f), o.indexers.map (·.map f), o.calls.map (·.map f), o.exact,
    o.leading⟩

end

inductive TypeExpr.Child : TypeExpr → TypeExpr → Prop
  | param {loc : Position} {ps : List (FunctionParam TypeExpr)} {r : TypeExpr}
    {p : FunctionParam TypeExpr} (hp : p ∈ ps) : Child (.function loc ps r) p.type
  | result {loc : Position} {ps : List (FunctionParam TypeExpr)} {r : TypeExpr} :
    Child (.function loc ps r) r
  | nullable {loc : Position} {t : TypeExpr} : Child (.nullable loc t) t
  | array {loc : Position} {t : TypeExpr} : Child (.array loc t) t
  | tuple {loc : Position} {ts : List TypeExpr} {t : TypeExpr} (ht : t ∈ ts) : Child (.tuple loc ts) t
  | property {o : ObjectType TypeExpr} {p : Property TypeExpr} (hp : .property p ∈ o.members) :
    Child (.object o) p.value
  | spread {o : ObjectType TypeExpr} {p : Spread TypeExpr} (hp : .spread p ∈ o.members) :
    Child (.object o) p.argument
  | indexerKey {o : ObjectType TypeExpr} {i : Indexer TypeExpr} (hi : i ∈ o.indexers) :
    Child (.object o) i.key
  | indexerValue {o : ObjectType TypeExpr} {i : Indexer TypeExpr} (hi : i ∈ o.indexers) :
    Child (.object o) i.value
  | callParam {o : ObjectType TypeExpr} {k : CallSignature TypeExpr} {p : FunctionParam TypeExpr}
    (hk : k ∈ o.calls) (hp : p ∈ k.params) : Child (.object o) p.type
  | callResult {o : ObjectType TypeExpr} {k : CallSignature TypeExpr} (hk : k ∈ o.calls) :
    Child (.object o) k.result
  | argument {loc : Position} {qs : List String} {name : String} {ts : List TypeExpr} {t : TypeExpr}
    (ht : t ∈ ts) : Child (.reference loc qs name ts) t
  | union {loc : Position} {ts : List TypeExpr} {t : TypeExpr} (ht : t ∈ ts) : Child (.union loc ts) t
  | intersection {loc : Position} {ts : List TypeExpr} {t : TypeExpr} (ht : t ∈ ts) :
    Child (.intersection loc ts) t

abbrev TypeExpr.Within : TypeExpr → TypeExpr → Prop :=
  Relation.ReflTransGen TypeExpr.Child

def TypeExpr.mapChildren (f : TypeExpr → TypeExpr) : TypeExpr → TypeExpr
  | .function loc ps r => .function loc (ps.map (·.map f)) (f r)
  | .nullable loc t => .nullable loc (f t)
  | .array loc t => .array loc (f t)
  | .tuple loc ts => .tuple loc (ts.map f)
  | .object o => .object (o.map f)
  | .reference loc qs name ts => .reference loc qs name (ts.map f)
  | .union loc ts => .union loc (ts.map f)
  | .intersection loc ts => .intersection loc (ts.map f)
  | t => t

theorem FunctionParam.sizeOf_type (p : FunctionParam TypeExpr) : sizeOf p.type < sizeOf p := by
  cases p
  simp only [FunctionParam.mk.sizeOf_spec]
  omega

theorem Property.sizeOf_value (p : Property TypeExpr) : sizeOf p.value < sizeOf p := by
  cases p
  simp only [Property.mk.sizeOf_spec]
  omega

theorem Spread.sizeOf_argument (p : Spread TypeExpr) : sizeOf p.argument < sizeOf p := by
  cases p
  simp only [Spread.mk.sizeOf_spec]
  omega

theorem Indexer.sizeOf_parts (i : Indexer TypeExpr) :
    sizeOf i.key < sizeOf i ∧ sizeOf i.value < sizeOf i := by
  cases i
  simp only [Indexer.mk.sizeOf_spec]
  omega

theorem CallSignature.sizeOf_parts (k : CallSignature TypeExpr) :
    sizeOf k.params < sizeOf k ∧ sizeOf k.result < sizeOf k := by
  cases k
  simp only [CallSignature.mk.sizeOf_spec]
  omega

theorem ObjectType.sizeOf_parts (o : ObjectType TypeExpr) :
    sizeOf o.members < sizeOf o ∧ sizeOf o.indexers < sizeOf o ∧ sizeOf o.calls < sizeOf o := by
  cases o
  simp only [ObjectType.mk.sizeOf_spec]
  omega

namespace TypeExpr

variable {f g : TypeExpr → TypeExpr} {t u : TypeExpr}

theorem Child.sizeOf_lt (h : t.Child u) : sizeOf u < sizeOf t := by
  cases h with
  | result | nullable | array =>
    simp only [function.sizeOf_spec, nullable.sizeOf_spec, array.sizeOf_spec]
    omega
  | tuple ht | union ht | intersection ht | argument ht =>
    have hlt := List.sizeOf_lt_of_mem ht
    simp only [tuple.sizeOf_spec, union.sizeOf_spec, intersection.sizeOf_spec, reference.sizeOf_spec]
    omega
  | param hp =>
    have hlt := List.sizeOf_lt_of_mem hp
    have htype := FunctionParam.sizeOf_type ‹_›
    simp only [function.sizeOf_spec]
    omega
  | property hp =>
    have hlt := List.sizeOf_lt_of_mem hp
    have hvalue := Property.sizeOf_value ‹_›
    have hparts := ObjectType.sizeOf_parts ‹_›
    simp only [Member.property.sizeOf_spec, object.sizeOf_spec] at hlt ⊢
    omega
  | spread hp =>
    have hlt := List.sizeOf_lt_of_mem hp
    have hargument := Spread.sizeOf_argument ‹_›
    have hparts := ObjectType.sizeOf_parts ‹_›
    simp only [Member.spread.sizeOf_spec, object.sizeOf_spec] at hlt ⊢
    omega
  | indexerKey hi | indexerValue hi =>
    have hlt := List.sizeOf_lt_of_mem hi
    have hindexer := Indexer.sizeOf_parts ‹_›
    have hparts := ObjectType.sizeOf_parts ‹_›
    simp only [object.sizeOf_spec]
    omega
  | callParam hk hp =>
    have hlt := List.sizeOf_lt_of_mem hk
    have hparam := List.sizeOf_lt_of_mem hp
    have htype := FunctionParam.sizeOf_type ‹_›
    have hcall := CallSignature.sizeOf_parts ‹_›
    have hparts := ObjectType.sizeOf_parts ‹_›
    simp only [object.sizeOf_spec]
    omega
  | callResult hk =>
    have hlt := List.sizeOf_lt_of_mem hk
    have hcall := CallSignature.sizeOf_parts ‹_›
    have hparts := ObjectType.sizeOf_parts ‹_›
    simp only [object.sizeOf_spec]
    omega

theorem child_induction {P : TypeExpr → Prop} (step : ∀ t, (∀ u, t.Child u → P u) → P t)
    (t : TypeExpr) : P t := by
  have wf : WellFounded fun u t : TypeExpr => sizeOf u < sizeOf t :=
    InvImage.wf sizeOf Nat.lt_wfRel.wf
  induction t using wf.induction with
  | _ t ih => exact step t fun u hu => ih u hu.sizeOf_lt

theorem map_object_congr {o : ObjectType TypeExpr} (h : ∀ u, (object o).Child u → f u = g u) :
    o.map f = o.map g := by
  have members : o.members.map (·.map f) = o.members.map (·.map g) := by
    refine List.map_congr_left fun m hm => ?_
    cases m with
    | property p => simp only [Member.map, Property.map, h _ (.property hm)]
    | spread p => simp only [Member.map, Spread.map, h _ (.spread hm)]
  have indexers : o.indexers.map (·.map f) = o.indexers.map (·.map g) := by
    refine List.map_congr_left fun i hi => ?_
    simp only [Indexer.map, h _ (.indexerKey hi), h _ (.indexerValue hi)]
  have calls : o.calls.map (·.map f) = o.calls.map (·.map g) := by
    refine List.map_congr_left fun k hk => ?_
    have params : k.params.map (·.map f) = k.params.map (·.map g) :=
      List.map_congr_left fun p hp => by simp only [FunctionParam.map, h _ (.callParam hk hp)]
    simp only [CallSignature.map, params, h _ (.callResult hk)]
  simp only [ObjectType.map, members, indexers, calls]

theorem mapChildren_congr (h : ∀ u, t.Child u → f u = g u) : t.mapChildren f = t.mapChildren g := by
  cases t with
  | primitive | number | boolean | string => rfl
  | function loc ps r =>
    have params : ps.map (·.map f) = ps.map (·.map g) :=
      List.map_congr_left fun p hp => by simp only [FunctionParam.map, h _ (.param hp)]
    simp only [mapChildren, params, h _ .result]
  | nullable loc t => simp only [mapChildren, h _ .nullable]
  | array loc t => simp only [mapChildren, h _ .array]
  | object o => simp only [mapChildren, map_object_congr h]
  | tuple loc ts => simp only [mapChildren, List.map_congr_left fun u hu => h u (.tuple hu)]
  | reference loc qs name ts =>
    simp only [mapChildren, List.map_congr_left fun u hu => h u (.argument hu)]
  | union loc ts => simp only [mapChildren, List.map_congr_left fun u hu => h u (.union hu)]
  | intersection loc ts =>
    simp only [mapChildren, List.map_congr_left fun u hu => h u (.intersection hu)]

@[simp] theorem mapChildren_id (t : TypeExpr) : t.mapChildren id = t := by
  have members : Member.map (id : TypeExpr → TypeExpr) = id := by
    funext m
    cases m <;> rfl
  have params : FunctionParam.map (id : TypeExpr → TypeExpr) = id := rfl
  have indexers : Indexer.map (id : TypeExpr → TypeExpr) = id := rfl
  have calls : CallSignature.map (id : TypeExpr → TypeExpr) = id := by
    funext k
    simp only [CallSignature.map, params, id, List.map_id']
  cases t <;> simp only [mapChildren, ObjectType.map, members, params, indexers, calls, List.map_id, id,
    List.map_id']

theorem Child.of_map_object {o : ObjectType TypeExpr} (h : (object (o.map f)).Child u) :
    ∃ v, (object o).Child v ∧ u = f v := by
  cases h with
  | property hp =>
    obtain ⟨m, hm, he⟩ := List.mem_map.1 hp
    cases m <;> cases he
    exact ⟨_, .property hm, rfl⟩
  | spread hp =>
    obtain ⟨m, hm, he⟩ := List.mem_map.1 hp
    cases m <;> cases he
    exact ⟨_, .spread hm, rfl⟩
  | indexerKey hi =>
    obtain ⟨i', hi', rfl⟩ := List.mem_map.1 hi
    exact ⟨_, .indexerKey hi', rfl⟩
  | indexerValue hi =>
    obtain ⟨i', hi', rfl⟩ := List.mem_map.1 hi
    exact ⟨_, .indexerValue hi', rfl⟩
  | callParam hk hp =>
    obtain ⟨k', hk', rfl⟩ := List.mem_map.1 hk
    obtain ⟨p', hp', rfl⟩ := List.mem_map.1 hp
    exact ⟨_, .callParam hk' hp', rfl⟩
  | callResult hk =>
    obtain ⟨k', hk', rfl⟩ := List.mem_map.1 hk
    exact ⟨_, .callResult hk', rfl⟩

theorem Child.of_mapChildren (h : (t.mapChildren f).Child u) : ∃ v, t.Child v ∧ u = f v := by
  cases t with
  | primitive | number | boolean | string => cases h
  | object o => exact h.of_map_object
  | function loc ps r =>
    cases h with
    | result => exact ⟨_, .result, rfl⟩
    | param hp =>
      obtain ⟨p', hp', rfl⟩ := List.mem_map.1 hp
      exact ⟨_, .param hp', rfl⟩
  | nullable loc t =>
    cases h
    exact ⟨_, .nullable, rfl⟩
  | array loc t =>
    cases h
    exact ⟨_, .array, rfl⟩
  | tuple loc ts =>
    cases h with
    | tuple ht =>
      obtain ⟨v, hv, rfl⟩ := List.mem_map.1 ht
      exact ⟨v, .tuple hv, rfl⟩
  | reference loc qs name ts =>
    cases h with
    | argument ht =>
      obtain ⟨v, hv, rfl⟩ := List.mem_map.1 ht
      exact ⟨v, .argument hv, rfl⟩
  | union loc ts =>
    cases h with
    | union ht =>
      obtain ⟨v, hv, rfl⟩ := List.mem_map.1 ht
      exact ⟨v, .union hv, rfl⟩
  | intersection loc ts =>
    cases h with
    | intersection ht =>
      obtain ⟨v, hv, rfl⟩ := List.mem_map.1 ht
      exact ⟨v, .intersection hv, rfl⟩

end TypeExpr

end PropTables
