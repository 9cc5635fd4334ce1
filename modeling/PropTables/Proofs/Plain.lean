import PropTables.Syntax.Module

/-! What a part of a program says, apart from the places and the comments that it keeps. -/

namespace PropTables

/-- The same without places and comments: every place is the first one, and there are no comments. -/
class Plain (α : Type) where
  plain : α → α

export Plain (plain)

section Generic

variable {α : Type} [Plain α]

instance : Plain (List α) := ⟨List.map plain⟩
instance : Plain (Option α) := ⟨Option.map plain⟩
instance : Plain Text := ⟨id⟩
instance : Plain Number := ⟨id⟩

@[simp] theorem plain_nil : plain ([] : List α) = [] := rfl

@[simp] theorem plain_cons (x : α) (xs : List α) : plain (x :: xs) = plain x :: plain xs := rfl

@[simp] theorem plain_append (xs ys : List α) : plain (xs ++ ys) = plain xs ++ plain ys :=
  List.map_append

theorem plain_filterMap {β : Type} [Plain β] {f : α → Option β}
    (hf : ∀ x, f (plain x) = plain (f x)) (xs : List α) :
    plain (xs.filterMap f) = (plain xs).filterMap f := by
  change (xs.filterMap f).map plain = (xs.map plain).filterMap f
  have hcomp : f ∘ plain = fun x => (f x).map plain := funext hf
  rw [List.map_filterMap, List.filterMap_map, hcomp]

@[simp] theorem plain_none : plain (none : Option α) = none := rfl

@[simp] theorem plain_some (x : α) : plain (some x) = some (plain x) := rfl

@[simp] theorem plain_text (t : Text) : plain t = t := rfl

@[simp] theorem plain_number (n : Number) : plain n = n := rfl

end Generic

section Types

variable {T : Type} [Plain T]

instance : Plain (FunctionParam T) :=
  ⟨fun p => { p with loc := .first, type := plain p.type }⟩

instance : Plain (Property T) :=
  ⟨fun p => { p with loc := .first, value := plain p.value, notes := .none }⟩

instance : Plain (Spread T) :=
  ⟨fun s => { s with loc := .first, argument := plain s.argument, notes := .none }⟩

instance : Plain (Member T) where
  plain
    | .property p => .property (plain p)
    | .spread s => .spread (plain s)

instance : Plain (Indexer T) :=
  ⟨fun i => { i with loc := .first, key := plain i.key, value := plain i.value }⟩

instance : Plain (CallSignature T) :=
  ⟨fun k => { loc := .first, params := plain k.params, result := plain k.result }⟩

instance : Plain (ObjectType T) where
  plain o :=
    { o with loc := .first, members := plain o.members, indexers := plain o.indexers
             calls := plain o.calls, leading := [] }

end Types

namespace TypeExpr

mutual

def plain : TypeExpr → TypeExpr
  | .primitive _ p => .primitive .first p
  | .number _ value raw => .number .first value raw
  | .boolean _ value => .boolean .first value
  | .string _ value raw => .string .first value raw
  | .function _ params result => .function .first (plainParams params) result.plain
  | .nullable _ t => .nullable .first t.plain
  | .array _ t => .array .first t.plain
  | .tuple _ ts => .tuple .first (plainAll ts)
  | .object ⟨_, members, indexers, calls, exact, _⟩ =>
    .object ⟨.first, plainMembers members, plainIndexers indexers, plainCalls calls, exact, []⟩
  | .reference _ qualifiers name args => .reference .first qualifiers name (plainAll args)
  | .union _ ts => .union .first (plainAll ts)
  | .intersection _ ts => .intersection .first (plainAll ts)

def plainAll : List TypeExpr → List TypeExpr
  | [] => []
  | t :: ts => t.plain :: plainAll ts

def plainParams : List (FunctionParam TypeExpr) → List (FunctionParam TypeExpr)
  | [] => []
  | ⟨_, name, type, optional, rest⟩ :: ps =>
    ⟨.first, name, type.plain, optional, rest⟩ :: plainParams ps

def plainMembers : List (Member TypeExpr) → List (Member TypeExpr)
  | [] => []
  | .property ⟨_, key, written, value, optional, quoted, _⟩ :: ms =>
    .property ⟨.first, key, written, value.plain, optional, quoted, .none⟩ :: plainMembers ms
  | .spread ⟨_, argument, _⟩ :: ms => .spread ⟨.first, argument.plain, .none⟩ :: plainMembers ms

def plainIndexers : List (Indexer TypeExpr) → List (Indexer TypeExpr)
  | [] => []
  | ⟨_, name, key, value⟩ :: is => ⟨.first, name, key.plain, value.plain⟩ :: plainIndexers is

def plainCalls : List (CallSignature TypeExpr) → List (CallSignature TypeExpr)
  | [] => []
  | ⟨_, params, result⟩ :: ks => ⟨.first, plainParams params, result.plain⟩ :: plainCalls ks

end

instance : Plain TypeExpr := ⟨TypeExpr.plain⟩

theorem plainAll_eq (ts : List TypeExpr) : plainAll ts = PropTables.plain ts := by
  induction ts with
  | nil => rfl
  | cons t ts ih => rw [plainAll, ih, plain_cons]; rfl

theorem plainParams_eq (ps : List (FunctionParam TypeExpr)) :
    plainParams ps = PropTables.plain ps := by
  induction ps with
  | nil => rfl
  | cons p ps ih => rw [plainParams, ih, plain_cons]; rfl

theorem plainMembers_eq (ms : List (Member TypeExpr)) : plainMembers ms = PropTables.plain ms := by
  induction ms with
  | nil => rfl
  | cons m ms ih => cases m <;> rw [plainMembers, ih, plain_cons] <;> rfl

theorem plainIndexers_eq (is : List (Indexer TypeExpr)) :
    plainIndexers is = PropTables.plain is := by
  induction is with
  | nil => rfl
  | cons i is ih => rw [plainIndexers, ih, plain_cons]; rfl

theorem plainCalls_eq (ks : List (CallSignature TypeExpr)) :
    plainCalls ks = PropTables.plain ks := by
  induction ks with
  | nil => rfl
  | cons k ks ih => rw [plainCalls, ih, plain_cons, plainParams_eq]; rfl

section Constructors

variable {loc : Position}

@[simp] theorem plain_primitive (p : Primitive) :
    PropTables.plain (primitive loc p) = primitive .first p := rfl

@[simp] theorem plain_boolean (value : Bool) :
    PropTables.plain (boolean loc value) = boolean .first value := rfl

@[simp] theorem plain_numeral (value : Number) (raw : String) :
    PropTables.plain (number loc value raw) = number .first value raw := rfl

@[simp] theorem plain_string (value : Text) (raw : String) :
    PropTables.plain (string loc value raw) = string .first value raw := rfl

@[simp] theorem plain_function (ps : List (FunctionParam TypeExpr)) (r : TypeExpr) :
    PropTables.plain (function loc ps r) =
      function .first (PropTables.plain ps) (PropTables.plain r) :=
  congrArg (function .first · r.plain) (plainParams_eq ps)

@[simp] theorem plain_nullable (t : TypeExpr) :
    PropTables.plain (nullable loc t) = nullable .first (PropTables.plain t) := rfl

@[simp] theorem plain_array (t : TypeExpr) :
    PropTables.plain (array loc t) = array .first (PropTables.plain t) := rfl

@[simp] theorem plain_tuple (ts : List TypeExpr) :
    PropTables.plain (tuple loc ts) = tuple .first (PropTables.plain ts) :=
  congrArg (tuple .first) (plainAll_eq ts)

@[simp] theorem plain_reference (qs : List String) (name : String) (ts : List TypeExpr) :
    PropTables.plain (reference loc qs name ts) = reference .first qs name (PropTables.plain ts) :=
  congrArg (reference .first qs name) (plainAll_eq ts)

@[simp] theorem plain_union (ts : List TypeExpr) :
    PropTables.plain (union loc ts) = union .first (PropTables.plain ts) :=
  congrArg (union .first) (plainAll_eq ts)

@[simp] theorem plain_intersection (ts : List TypeExpr) :
    PropTables.plain (intersection loc ts) = intersection .first (PropTables.plain ts) :=
  congrArg (intersection .first) (plainAll_eq ts)

@[simp] theorem plain_object (o : ObjectType TypeExpr) :
    PropTables.plain (object o) = object (PropTables.plain o) := by
  obtain ⟨loc, members, indexers, calls, exact, leading⟩ := o
  change object ⟨.first, plainMembers members, plainIndexers indexers, plainCalls calls, exact, []⟩ = _
  rw [plainMembers_eq, plainIndexers_eq, plainCalls_eq]
  rfl

@[simp] theorem plain_withLeading (leading : List String) (t : TypeExpr) :
    PropTables.plain (t.withLeading leading) = PropTables.plain t := by
  cases t with
  | object o =>
    rw [withLeading, plain_object, plain_object]
    rfl
  | _ => rfl

end Constructors

end TypeExpr

section Expressions

instance : Plain Param :=
  ⟨fun p => { p with loc := .first, ascription := plain p.ascription }⟩

mutual

def Expr.plain : Expr → Expr
  | .name _ ident => .name .first ident
  | .member _ value attr => .member .first value.plain attr
  | .call _ func args => .call .first func.plain (Expr.plainAll args)
  | .number _ value raw => .number .first value raw
  | .string _ value raw => .string .first value raw
  | .template _ raw => .template .first raw
  | .object _ entries => .object .first (Expr.plainEntries entries)
  | .array _ items => .array .first (Expr.plainAll items)
  | .arrow _ params => .arrow .first (PropTables.plain params)

def Expr.plainAll : List Expr → List Expr
  | [] => []
  | e :: es => e.plain :: Expr.plainAll es

def Expr.plainEntries : List (ObjectEntry Expr) → List (ObjectEntry Expr)
  | [] => []
  | .keyed _ key value :: es => .keyed .first key value.plain :: Expr.plainEntries es
  | .spread _ value :: es => .spread .first value.plain :: Expr.plainEntries es

end

instance : Plain Expr := ⟨Expr.plain⟩

instance : Plain (ObjectEntry Expr) where
  plain
    | .keyed _ key value => .keyed .first key (plain value)
    | .spread _ value => .spread .first (plain value)

namespace Expr

variable {loc : Position}

theorem plainAll_eq (es : List Expr) : plainAll es = PropTables.plain es := by
  induction es with
  | nil => rfl
  | cons e es ih => rw [plainAll, ih, plain_cons]; rfl

theorem plainEntries_eq (es : List (ObjectEntry Expr)) : plainEntries es = PropTables.plain es := by
  induction es with
  | nil => rfl
  | cons e es ih => cases e <;> rw [plainEntries, ih, plain_cons] <;> rfl

@[simp] theorem plain_call (f : Expr) (args : List Expr) :
    PropTables.plain (call loc f args) = call .first (PropTables.plain f) (PropTables.plain args) :=
  congrArg (call .first f.plain) (plainAll_eq args)

@[simp] theorem plain_object (entries : List (ObjectEntry Expr)) :
    PropTables.plain (object loc entries) = object .first (PropTables.plain entries) :=
  congrArg (object .first) (plainEntries_eq entries)

@[simp] theorem plain_array (items : List Expr) :
    PropTables.plain (array loc items) = array .first (PropTables.plain items) :=
  congrArg (array .first) (plainAll_eq items)

@[simp] theorem plain_arrow (params : List Param) :
    PropTables.plain (arrow loc params) = arrow .first (PropTables.plain params) := rfl

@[simp] theorem plain_member (e : Expr) (attr : String) :
    PropTables.plain (member loc e attr) = member .first (PropTables.plain e) attr := rfl

end Expr

end Expressions

section Modules

instance : Plain TypeParameter := ⟨fun p => { p with loc := .first }⟩
instance : Plain ImportSpecifier := ⟨fun s => { s with loc := .first }⟩

instance : Plain ImportDeclaration :=
  ⟨fun d => { d with loc := .first, specifiers := plain d.specifiers }⟩

instance : Plain TypeAlias :=
  ⟨fun a => { a with loc := .first, params := plain a.params, right := plain a.right }⟩

instance : Plain InterfaceDeclaration :=
  ⟨fun i => { i with loc := .first, params := plain i.params, body := plain i.body }⟩

instance : Plain FieldValue where
  plain
    | .source e => .source (plain e)
    | .table v => .table v

instance : Plain ClassProperty :=
  ⟨fun p => { p with loc := .first, ascription := plain p.ascription, value := plain p.value }⟩

instance : Plain ClassMethod :=
  ⟨fun m => { m with loc := .first, params := plain m.params, result := plain m.result }⟩

instance : Plain ClassMember where
  plain
    | .property p => .property (plain p)
    | .method m => .method (plain m)

instance : Plain ClassDeclaration where
  plain c :=
    { c with loc := .first, params := plain c.params, superclass := plain c.superclass
             superArgs := plain c.superArgs, body := plain c.body }

instance : Plain FunctionDeclaration :=
  ⟨fun f => { f with loc := .first, params := plain f.params, result := plain f.result }⟩

instance : Plain VariableDeclarator :=
  ⟨fun d => { d with loc := .first, ascription := plain d.ascription, init := plain d.init }⟩

instance : Plain VariableDeclaration :=
  ⟨fun v => { v with loc := .first, declarators := plain v.declarators }⟩

instance : Plain Declaration where
  plain
    | .typeAlias a => .typeAlias (plain a)
    | .interface i => .interface (plain i)
    | .class_ c => .class_ (plain c)
    | .function f => .function (plain f)
    | .binding v => .binding (plain v)

instance : Plain Statement where
  plain
    | .import_ d => .import_ (plain d)
    | .declaration d => .declaration (plain d)
    | .assignment _ target value => .assignment .first (plain target) (plain value)
    | .expression _ value => .expression .first (plain value)

instance : Plain ExportSpecifier := ⟨fun s => { s with loc := .first }⟩

instance : Plain NamedExports :=
  ⟨fun e => { e with loc := .first, specifiers := plain e.specifiers }⟩

instance : Plain DefaultExport where
  plain
    | .class_ c => .class_ (plain c)
    | .function f => .function (plain f)
    | .expression e => .expression (plain e)

instance : Plain Item where
  plain
    | .statement s => .statement (plain s)
    | .exportNamed e => .exportNamed (plain e)
    | .exportAll _ source => .exportAll .first source
    | .exportDefault _ d => .exportDefault .first (plain d)
    | .exportDeclaration _ d => .exportDeclaration .first (plain d)

instance : Plain Module := ⟨fun m => { m with items := plain m.items }⟩

end Modules

end PropTables
