import PropTables.Conversion.Basic

/-!
Conversion of types into validators. There is one rule for each form of type. The rules recur on the
type; where a reference leads out of it, they go on with what it stands for, and the number of
references that are followed one after another is bounded.
-/

namespace PropTables

abbrev Follow := Binding → Use → Context → Traced Converted

namespace Setting

def disallows (s : Setting) : TypeExpr → Option Disallowable
  | .primitive _ .null => if s.options.allowNull then none else some .null
  | .primitive _ .void => if s.options.allowVoid then none else some .void
  | .nullable .. => if s.options.allowMaybe then none else some .maybe
  | _ => none

def requireAllowed (s : Setting) (t : TypeExpr) (c : Context) : Traced Unit :=
  match s.disallows t with
  | some d => c.fail (.disallowed d) t.loc
  | none => pure ()

def convertName (s : Setting) (follow : Follow) (use : Use) (c : Context) : Traced Converted :=
  match c.scope.lookup use.name with
  | some binding => follow binding use c
  | none =>
    match use.name with
    | "Function" => pure (.required (s.vocabulary.member "func"))
    | "Object" => pure (.required (s.vocabulary.member "object"))
    | name => c.fail (.undeclared name) use.loc

inductive Generic where
  | array
  | exact
  | checkedBy
  | hasDefault
  | unknown

def generic (s : Setting) (name : String) : Generic :=
  if name = "Array" then .array
  else if name = s.options.exactName then .exact
  else if name = s.options.checkedByName then .checkedBy
  else if name = s.options.hasDefaultName then .hasDefault
  else .unknown

def isExact (s : Setting) : TypeExpr → Bool
  | .reference _ [] name (_ :: _) => name == s.options.exactName
  | _ => false

mutual

def convert (s : Setting) (follow : Follow) : TypeExpr → Context → Traced Converted
  | .primitive loc p, c => do
    s.requireAllowed (.primitive loc p) c
    return .required (s.vocabulary.primitive p)
  | .number _ value raw, _ => pure (.required (s.vocabulary.oneOf [.number value raw]))
  | .boolean _ value, _ => pure (.required (s.vocabulary.oneOf [.boolean value]))
  | .string _ value raw, _ => pure (.required (s.vocabulary.oneOf [.string value raw]))
  | .function .., _ => pure (.required (s.vocabulary.member "func"))
  | .tuple .., _ => pure (.required (s.vocabulary.member "array"))
  | .nullable loc inner, c => do
    s.requireAllowed (.nullable loc inner) c
    let v ← convert s follow inner c.nested
    return if c.isFieldValue then .optional v.expr
      else .required (s.vocabulary.oneOf [.null, .undefined, v.expr])
  | .array _ element, c => do
    return .required (s.vocabulary.call "arrayOf" (← convert s follow element c.nested).expr)
  | .object o, c => convertObject s follow o c
  | .reference loc (q :: qs) name _, c =>
    c.fail (.qualified (".".intercalate (q :: qs ++ [name]))) loc
  | .reference loc [] name args, c =>
    match args with
    | [] => s.convertName follow ⟨loc, name⟩ c
    | [a] =>
      match s.generic name with
      | .array => do
        return .required (s.vocabulary.call "arrayOf" (← convert s follow a c.nested).expr)
      | .exact => convert s follow a c
      | .checkedBy => c.fail (.argumentCount name 2 1) loc
      | .hasDefault =>
        if c.isFieldValue then do return .optional (← convert s follow a c).expr
        else c.fail (.misplacedDefault name) loc
      | .unknown => c.fail (.unknownGeneric name) loc
    | [_, b] =>
      match s.generic name with
      | .checkedBy => convert s follow b c
      | .unknown => c.fail (.unknownGeneric name) loc
      | _ => c.fail (.argumentCount name 1 2) loc
    | args =>
      match s.generic name with
      | .checkedBy => c.fail (.argumentCount name 2 args.length) loc
      | .unknown => c.fail (.unknownGeneric name) loc
      | _ => c.fail (.argumentCount name 1 args.length) loc
  | .union _ types, c => do
    match types.mapM TypeExpr.literal? with
    | some values =>
      types.forM (s.requireAllowed · c)
      return .required (s.vocabulary.oneOf values)
    | none => return .required (s.vocabulary.oneOfType (← convertAll s follow types c.nested))
  | .intersection _ types, c => do
    if c.depth = 0 then
      return .required (.object (← convertMerged s follow types c) .none)
    else return .required (s.vocabulary.allOf (← convertAll s follow types c.nested))

def convertAll (s : Setting) (follow : Follow) : List TypeExpr → Context → Traced (List Validator)
  | [], _ => pure []
  | t :: ts, c => do
    let v ← convert s follow t c
    return v.expr :: (← convertAll s follow ts c)

def convertMerged (s : Setting) (follow : Follow) :
    List TypeExpr → Context → Traced (List (Field Validator))
  | [], _ => pure []
  | t :: ts, c => do
    match (← convert s follow t c.nested).expr with
    | .object fields _ => return fields ++ (← convertMerged s follow ts c)
    | _ => c.fail .intersectionOfOther t.loc

def convertObject (s : Setting) (follow : Follow) : ObjectType TypeExpr → Context → Traced Converted
  | ⟨loc, members, indexers, calls, _, leading⟩, c =>
    match calls with
    | call :: _ => c.fail .callSignature call.loc
    | [] =>
      match indexers with
      | [] => do
        let fields ← convertMembers s follow members c
        let literal := Validator.object fields ⟨leading, []⟩
        return .required (if c.depth = 0 then literal else s.vocabulary.call "shape" literal)
      | [i] =>
        if members.isEmpty then convertIndexer s follow i c else c.fail .indexerWithMembers loc
      | _ :: second :: _ =>
        if members.isEmpty then c.fail .severalIndexers second.loc
        else c.fail .indexerWithMembers loc

def convertIndexer (s : Setting) (follow : Follow) : Indexer TypeExpr → Context → Traced Converted
  | ⟨_, _, _, value⟩, c => do
    return .required (s.vocabulary.call "objectOf" (← convert s follow value c.indexed).expr)

def convertMembers (s : Setting) (follow : Follow) :
    List (Member TypeExpr) → Context → Traced (List (Field Validator))
  | [], _ => pure []
  | m :: ms, c => do
    let fields ← convertMember s follow m c
    return fields ++ (← convertMembers s follow ms c)

/-- The fields that a member of an object type makes: one for a property, those of its argument for
a spread. A spread object may lack any of its keys, unless it is said to be exact. -/
def convertMember (s : Setting) (follow : Follow) :
    Member TypeExpr → Context → Traced (List (Field Validator))
  | .property ⟨_, _, written, value, optional, quoted, notes⟩, c => do
    let v ← convert s follow value c.fieldValue
    let marked := !optional && v.requirement == .required
    return [⟨written, if marked then v.expr.require else v.expr, quoted, notes⟩]
  | .spread ⟨loc, argument, notes⟩, c => do
    match (← convert s follow argument c.spread).expr with
    | .object fields _ =>
      let fields := if s.isExact argument then fields else fields.map Field.stripRequired
      return Field.surround notes fields
    | _ => c.fail .spreadOfOther loc

end

def followImport (s : Setting) (follow : Follow) (i : ImportSpecifier) (file : Option String)
    (use : Use) (c : Context) : Traced Converted := do
  let resolved ← s.library.resolveImport i file
  let replacement :=
    if c.replacement.isNone ∧ file = c.origin then some i.binds else c.replacement
  follow resolved.binding use { c with scope := resolved.scope, replacement }

def convertClass (s : Setting) (k : ClassDeclaration) (file : Option String) (use : Use)
    (c : Context) : Traced Converted :=
  let instanceOf (name : String) : Traced Converted :=
    pure (.required (s.vocabulary.call "instanceOf" (.named name)))
  let own := k.name.getD defaultName
  match c.replacement with
  | some name => instanceOf name
  | none =>
    if file = c.origin then instanceOf own
    else c.fail (.foreignClass own file c.origin) use.loc

/-- Goes on with what a reference stands for, for at most so many references in a row. Behind them
there is no end. -/
def follow (s : Setting) : (bound : Nat) → Follow
  | 0, _, _, _ => .abort .endless
  | bound + 1, binding, use, c =>
    match binding.referent with
    | .typeAlias a => s.convert (s.follow bound) a.right (c.body a.params)
    | .interface i => s.convertObject (s.follow bound) i.body (c.body i.params)
    | .class_ k => s.convertClass k binding.file use c
    | .import_ i => s.followImport (s.follow bound) i binding.file use c
    | .function f => c.fail (.function f.name) use.loc
    | .variable_ v => c.fail (.variable_ v.name) use.loc
    | .parameter p => c.fail (.typeParameter p.name) use.loc

/-- How many references are followed one after another. What a name leads to depends on the name, on
whether a field's value is asked for, and on the depth, of which all positive values are alike. A
chain of references that is longer than there are such cases never ends. -/
def referenceBound (s : Setting) (c : Context) : Nat :=
  (s.library.nameCount + c.scope.base.length) * (2 * (2 + (-c.depth).toNat)) + 1

def convertType (s : Setting) (t : TypeExpr) (c : Context) : Traced Converted :=
  s.convert (s.follow (s.referenceBound c)) t c

def convertTable (s : Setting) (t : TypeExpr) (scope : Scope) (origin : Option String) :
    Traced Validator := do
  let c : Context := ⟨scope, 0, false, none, origin <|> scope.file⟩
  let v ← s.convertType t c
  match v.expr with
  | .object fields notes => return .object fields notes
  | _ => c.fail .noTable t.loc

end Setting

end PropTables
