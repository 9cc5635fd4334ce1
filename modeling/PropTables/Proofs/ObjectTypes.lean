import Mathlib.Data.Multiset.Bind
import PropTables.Proofs.Attachment
import PropTables.Proofs.TypeParts
import PropTables.Syntax.Module

/-! The object types that stand in a module, and the comments that it keeps with them. -/

namespace PropTables

class Annotated (α : Type) where
  objectsIn : α → Multiset (ObjectType TypeExpr)

export Annotated (objectsIn)

section Lists

variable {α : Type} [Annotated α]

instance : Annotated (List α) := ⟨fun xs => (xs.map objectsIn).sum⟩

instance : Annotated (Option α) := ⟨fun x => x.elim 0 objectsIn⟩

@[simp] theorem objectsIn_nil : objectsIn ([] : List α) = 0 := rfl

@[simp] theorem objectsIn_cons (x : α) (xs : List α) :
    objectsIn (x :: xs) = objectsIn x + objectsIn xs :=
  List.sum_cons

@[simp] theorem objectsIn_append (xs ys : List α) :
    objectsIn (xs ++ ys) = objectsIn xs + objectsIn ys := by
  induction xs with
  | nil => simp
  | cons x xs ih => simp [ih, add_assoc]

@[simp] theorem objectsIn_none : objectsIn (none : Option α) = 0 := rfl

@[simp] theorem objectsIn_some (x : α) : objectsIn (some x) = objectsIn x := rfl

end Lists

section Types

variable {T : Type} [Annotated T]

instance : Annotated (FunctionParam T) := ⟨fun p => objectsIn p.type⟩
instance : Annotated (Property T) := ⟨fun p => objectsIn p.value⟩
instance : Annotated (Spread T) := ⟨fun s => objectsIn s.argument⟩
instance : Annotated (Indexer T) := ⟨fun i => objectsIn i.key + objectsIn i.value⟩
instance : Annotated (CallSignature T) := ⟨fun c => objectsIn c.params + objectsIn c.result⟩

instance : Annotated (Member T) where
  objectsIn
    | .property p => objectsIn p
    | .spread s => objectsIn s

@[simp] theorem objectsIn_param (p : FunctionParam T) : objectsIn p = objectsIn p.type := rfl

@[simp] theorem objectsIn_indexer (i : Indexer T) :
    objectsIn i = objectsIn i.key + objectsIn i.value := rfl

@[simp] theorem objectsIn_signature (k : CallSignature T) :
    objectsIn k = objectsIn k.params + objectsIn k.result := rfl

def ObjectType.inner (o : ObjectType T) : Multiset (ObjectType TypeExpr) :=
  objectsIn o.members + objectsIn o.indexers + objectsIn o.calls

end Types

namespace TypeExpr

def children : TypeExpr → List TypeExpr
  | .function _ params result => params.map (·.type) ++ [result]
  | .nullable _ t | .array _ t => [t]
  | .tuple _ ts | .reference _ _ _ ts | .union _ ts | .intersection _ ts => ts
  | .object o =>
    (o.members.map fun
      | .property p => p.value
      | .spread s => s.argument) ++
    o.indexers.flatMap (fun i => [i.key, i.value]) ++
    o.calls.flatMap fun k => k.params.map (·.type) ++ [k.result]
  | .primitive .. | .number .. | .boolean .. | .string .. => []

theorem Child.of_mem_children {t u : TypeExpr} (h : u ∈ t.children) : t.Child u := by
  cases t with
  | primitive | number | boolean | string => cases h
  | nullable | array =>
    obtain rfl := List.mem_singleton.1 h
    constructor
  | tuple | reference | union | intersection => exact (by constructor; exact h)
  | function loc ps r =>
    simp only [children, List.mem_append, List.mem_map, List.mem_singleton] at h
    rcases h with ⟨p, hp, rfl⟩ | rfl
    · exact .param hp
    · exact .result
  | object o =>
    simp only [children, List.mem_append, List.mem_map, List.mem_flatMap, List.mem_cons,
      List.not_mem_nil, or_false] at h
    rcases h with (⟨m, hm, rfl⟩ | ⟨i, hi, rfl | rfl⟩) | ⟨k, hk, ⟨p, hp, rfl⟩ | rfl⟩
    · cases m with
      | property p => exact .property hm
      | spread s => exact .spread hm
    · exact .indexerKey hi
    · exact .indexerValue hi
    · exact .callParam hk hp
    · exact .callResult hk

def here : TypeExpr → Multiset (ObjectType TypeExpr)
  | .object o => {o}
  | _ => 0

def objects (t : TypeExpr) : Multiset (ObjectType TypeExpr) :=
  t.here + (t.children.attach.map fun u => objects u.1).sum
termination_by sizeOf t
decreasing_by exact (Child.of_mem_children u.2).sizeOf_lt

instance : Annotated TypeExpr := ⟨objects⟩

section Constructors

variable {loc : Position} {t : TypeExpr}

theorem objectsIn_eq : objectsIn t = t.here + objectsIn t.children := by
  have hchildren : t.children.attach.map (fun u => objects u.1) = t.children.map objects := by
    simp
  change t.objects = _
  rw [objects, hchildren]
  rfl

theorem objectsIn_params (ps : List (FunctionParam TypeExpr)) :
    objectsIn (ps.map (·.type)) = objectsIn ps := by
  induction ps with
  | nil => rfl
  | cons p ps ih => simp [ih]

theorem objectsIn_of_here (h : t.here = 0) : objectsIn t = objectsIn t.children := by
  rw [objectsIn_eq, h, zero_add]

@[simp] theorem objectsIn_function (ps : List (FunctionParam TypeExpr)) (r : TypeExpr) :
    objectsIn (function loc ps r) = objectsIn ps + objectsIn r := by
  simp [objectsIn_of_here (t := function loc ps r) rfl, children, objectsIn_params]

@[simp] theorem objectsIn_nullable : objectsIn (nullable loc t) = objectsIn t := by
  simp [objectsIn_of_here (t := nullable loc t) rfl, children]

@[simp] theorem objectsIn_array : objectsIn (array loc t) = objectsIn t := by
  simp [objectsIn_of_here (t := array loc t) rfl, children]

@[simp] theorem objectsIn_tuple (ts : List TypeExpr) : objectsIn (tuple loc ts) = objectsIn ts :=
  objectsIn_of_here rfl

@[simp] theorem objectsIn_reference (qs : List String) (name : String) (ts : List TypeExpr) :
    objectsIn (reference loc qs name ts) = objectsIn ts :=
  objectsIn_of_here rfl

@[simp] theorem objectsIn_union (ts : List TypeExpr) : objectsIn (union loc ts) = objectsIn ts :=
  objectsIn_of_here rfl

@[simp] theorem objectsIn_intersection (ts : List TypeExpr) :
    objectsIn (intersection loc ts) = objectsIn ts :=
  objectsIn_of_here rfl

@[simp] theorem objectsIn_number (value : Number) (raw : String) :
    objectsIn (number loc value raw) = 0 :=
  objectsIn_of_here rfl

@[simp] theorem objectsIn_string (value : Text) (raw : String) :
    objectsIn (string loc value raw) = 0 :=
  objectsIn_of_here rfl

theorem objectsIn_builtin? {name : String} (h : builtin? loc name = some t) : objectsIn t = 0 := by
  unfold builtin? at h
  split at h <;> cases h <;> exact objectsIn_of_here rfl

theorem objectsIn_members (ms : List (Member TypeExpr)) :
    objectsIn (ms.map fun
      | .property p => p.value
      | .spread s => s.argument) = objectsIn ms := by
  induction ms with
  | nil => rfl
  | cons m ms ih =>
    rw [List.map_cons, objectsIn_cons, objectsIn_cons, ih]
    cases m <;> rfl

@[simp] theorem objectsIn_object (o : ObjectType TypeExpr) :
    objectsIn (object o) = {o} + o.inner := by
  have indexers (is : List (Indexer TypeExpr)) :
      objectsIn (is.flatMap fun i => [i.key, i.value]) = objectsIn is := by
    induction is with
    | nil => rfl
    | cons i is ih => simp [ih, add_assoc]
  have calls (ks : List (CallSignature TypeExpr)) :
      objectsIn (ks.flatMap fun k => k.params.map (·.type) ++ [k.result]) = objectsIn ks := by
    induction ks with
    | nil => rfl
    | cons k ks ih => simp [ih, add_assoc, objectsIn_params]
  rw [objectsIn_eq, children, objectsIn_append, objectsIn_append, objectsIn_members, indexers, calls]
  rfl

end Constructors

end TypeExpr

instance : Annotated (ObjectType TypeExpr) := ⟨fun o => {o} + o.inner⟩

theorem objectsIn_object_eq (o : ObjectType TypeExpr) : objectsIn o = {o} + o.inner := rfl

section Expressions

instance : Annotated Param := ⟨fun p => objectsIn p.ascription⟩

mutual

def Expr.objects : Expr → Multiset (ObjectType TypeExpr)
  | .member _ value _ => value.objects
  | .call _ func args => func.objects + Expr.objectsOfAll args
  | .object _ entries => Expr.objectsOfEntries entries
  | .array _ items => Expr.objectsOfAll items
  | .arrow _ params => objectsIn params
  | .name .. | .number .. | .string .. | .template .. => 0

def Expr.objectsOfAll : List Expr → Multiset (ObjectType TypeExpr)
  | [] => 0
  | e :: es => e.objects + Expr.objectsOfAll es

def Expr.objectsOfEntries : List (ObjectEntry Expr) → Multiset (ObjectType TypeExpr)
  | [] => 0
  | .keyed _ _ value :: es | .spread _ value :: es => value.objects + Expr.objectsOfEntries es

end

instance : Annotated Expr := ⟨Expr.objects⟩

instance : Annotated (ObjectEntry Expr) where
  objectsIn
    | .keyed _ _ value | .spread _ value => objectsIn value

namespace Expr

variable {loc : Position}

theorem objectsOfAll_eq (es : List Expr) : objectsOfAll es = objectsIn es := by
  induction es with
  | nil => rfl
  | cons e es ih => rw [objectsOfAll, ih, objectsIn_cons]; rfl

theorem objectsOfEntries_eq (es : List (ObjectEntry Expr)) :
    objectsOfEntries es = objectsIn es := by
  induction es with
  | nil => rfl
  | cons e es ih => cases e <;> rw [objectsOfEntries, ih, objectsIn_cons] <;> rfl

@[simp] theorem objectsIn_member (e : Expr) (attr : String) :
    objectsIn (member loc e attr) = objectsIn e := rfl

@[simp] theorem objectsIn_call (f : Expr) (args : List Expr) :
    objectsIn (call loc f args) = objectsIn f + objectsIn args :=
  congrArg (objectsIn f + ·) (objectsOfAll_eq args)

@[simp] theorem objectsIn_object (entries : List (ObjectEntry Expr)) :
    objectsIn (object loc entries) = objectsIn entries :=
  objectsOfEntries_eq entries

@[simp] theorem objectsIn_array (items : List Expr) : objectsIn (array loc items) = objectsIn items :=
  objectsOfAll_eq items

@[simp] theorem objectsIn_arrow (params : List Param) :
    objectsIn (arrow loc params) = objectsIn params := rfl

end Expr

end Expressions

section Modules

instance : Annotated TypeAlias := ⟨fun a => objectsIn a.right⟩
instance : Annotated InterfaceDeclaration := ⟨fun i => objectsIn i.body⟩

instance : Annotated FieldValue where
  objectsIn
    | .source e => objectsIn e
    | .table _ => 0

instance : Annotated ClassProperty := ⟨fun p => objectsIn p.ascription + objectsIn p.value⟩
instance : Annotated ClassMethod := ⟨fun m => objectsIn m.params + objectsIn m.result⟩

instance : Annotated ClassMember where
  objectsIn
    | .property p => objectsIn p
    | .method m => objectsIn m

instance : Annotated ClassDeclaration :=
  ⟨fun c => objectsIn c.superclass + objectsIn c.superArgs + objectsIn c.body⟩

instance : Annotated FunctionDeclaration := ⟨fun f => objectsIn f.params + objectsIn f.result⟩
instance : Annotated VariableDeclarator := ⟨fun d => objectsIn d.ascription + objectsIn d.init⟩
instance : Annotated VariableDeclaration := ⟨fun v => objectsIn v.declarators⟩

instance : Annotated Declaration where
  objectsIn
    | .typeAlias a => objectsIn a
    | .interface i => objectsIn i
    | .class_ c => objectsIn c
    | .function f => objectsIn f
    | .binding v => objectsIn v

instance : Annotated Statement where
  objectsIn
    | .import_ _ => 0
    | .declaration d => objectsIn d
    | .assignment _ target value => objectsIn target + objectsIn value
    | .expression _ value => objectsIn value

instance : Annotated DefaultExport where
  objectsIn
    | .class_ c => objectsIn c
    | .function f => objectsIn f
    | .expression e => objectsIn e

instance : Annotated Item where
  objectsIn
    | .statement s => objectsIn s
    | .exportNamed _ | .exportAll _ _ => 0
    | .exportDefault _ d => objectsIn d
    | .exportDeclaration _ d => objectsIn d

instance : Annotated Module := ⟨fun m => objectsIn m.items⟩

end Modules

section Comments

def Member.notes {T : Type} : Member T → Notes
  | .property p => p.notes
  | .spread s => s.notes

def ObjectType.texts (o : ObjectType TypeExpr) : Multiset String :=
  o.leading + (o.members.map fun m => m.notes.texts).sum

def commentsIn {α : Type} [Annotated α] (x : α) : Multiset String :=
  (objectsIn x).bind ObjectType.texts

end Comments

end PropTables
