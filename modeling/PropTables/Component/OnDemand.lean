import PropTables.Component.Naming
import PropTables.Conversion.Convert

/-!
Conversion of types while the names of the libraries are still open. The rules are those of a
conversion with a fixed vocabulary, but a name is asked for where a rule writes it down, after the
parts of the type have been converted.
-/

namespace PropTables

/-- What does not change during a conversion, with the names of the libraries left open. -/
structure OpenSetting where
  options : ConvertOptions
  nameOf : LibraryRole → Naming String
  library : Library

abbrev OpenFollow := Binding → Use → Context → Naming Converted

namespace OpenSetting

def close (o : OpenSetting) (v : Vocabulary) : Setting :=
  ⟨o.options, v, o.library⟩

def rules (o : OpenSetting) : Setting :=
  o.close .default

def member (o : OpenSetting) (attr : String) : Naming Validator := do
  return (Validator.named (← o.nameOf .validators)).access [attr]

def call (o : OpenSetting) (attr : String) (arg : Validator) : Naming Validator := do
  return (← o.member attr).apply [arg]

def oneOf (o : OpenSetting) (values : List Validator) : Naming Validator :=
  o.call "oneOf" (.array values .none)

def oneOfType (o : OpenSetting) (types : List Validator) : Naming Validator :=
  o.call "oneOfType" (.array types .none)

def allOf (o : OpenSetting) (types : List Validator) : Naming Validator := do
  return (Validator.named (← o.nameOf .combination)).apply types

def primitive (o : OpenSetting) : Primitive → Naming Validator
  | .any | .mixed => o.member "any"
  | .number => o.member "number"
  | .boolean => o.member "bool"
  | .string => o.member "string"
  | .null => o.oneOf [.null]
  | .void => o.oneOf [.undefined]

def convertName (o : OpenSetting) (follow : OpenFollow) (use : Use) (c : Context) :
    Naming Converted :=
  match c.scope.lookup use.name with
  | some binding => follow binding use c
  | none =>
    match use.name with
    | "Function" => do return .required (← o.member "func")
    | "Object" => do return .required (← o.member "object")
    | name => c.fail (.undeclared name) use.loc

mutual

def convert (o : OpenSetting) (follow : OpenFollow) : TypeExpr → Context → Naming Converted
  | .primitive loc p, c => do
    o.rules.requireAllowed (.primitive loc p) c
    return .required (← o.primitive p)
  | .number _ value raw, _ => do return .required (← o.oneOf [.number value raw])
  | .boolean _ value, _ => do return .required (← o.oneOf [.boolean value])
  | .string _ value raw, _ => do return .required (← o.oneOf [.string value raw])
  | .function .., _ => do return .required (← o.member "func")
  | .tuple .., _ => do return .required (← o.member "array")
  | .nullable loc inner, c => do
    o.rules.requireAllowed (.nullable loc inner) c
    let v ← convert o follow inner c.nested
    if c.isFieldValue then return .optional v.expr
    else return .required (← o.oneOf [.null, .undefined, v.expr])
  | .array _ element, c => do
    let v ← convert o follow element c.nested
    return .required (← o.call "arrayOf" v.expr)
  | .object object, c => convertObject o follow object c
  | .reference loc (q :: qs) name _, c =>
    c.fail (.qualified (".".intercalate (q :: qs ++ [name]))) loc
  | .reference loc [] name args, c =>
    match args with
    | [] => o.convertName follow ⟨loc, name⟩ c
    | [a] =>
      match o.rules.generic name with
      | .array => do
        let v ← convert o follow a c.nested
        return .required (← o.call "arrayOf" v.expr)
      | .exact => convert o follow a c
      | .checkedBy => c.fail (.argumentCount name 2 1) loc
      | .hasDefault =>
        if c.isFieldValue then do return .optional (← convert o follow a c).expr
        else c.fail (.misplacedDefault name) loc
      | .unknown => c.fail (.unknownGeneric name) loc
    | [_, b] =>
      match o.rules.generic name with
      | .checkedBy => convert o follow b c
      | .unknown => c.fail (.unknownGeneric name) loc
      | _ => c.fail (.argumentCount name 1 2) loc
    | args =>
      match o.rules.generic name with
      | .checkedBy => c.fail (.argumentCount name 2 args.length) loc
      | .unknown => c.fail (.unknownGeneric name) loc
      | _ => c.fail (.argumentCount name 1 args.length) loc
  | .union _ types, c =>
    match types.mapM TypeExpr.literal? with
    | some values => do
      types.forM (o.rules.requireAllowed · c)
      return .required (← o.oneOf values)
    | none => do
      let values ← convertAll o follow types c.nested
      return .required (← o.oneOfType values)
  | .intersection _ types, c =>
    if c.depth = 0 then do
      let fields ← convertMerged o follow types c
      return .required (.object fields .none)
    else do
      let values ← convertAll o follow types c.nested
      return .required (← o.allOf values)

def convertAll (o : OpenSetting) (follow : OpenFollow) :
    List TypeExpr → Context → Naming (List Validator)
  | [], _ => pure []
  | t :: ts, c => do
    let v ← convert o follow t c
    return v.expr :: (← convertAll o follow ts c)

def convertMerged (o : OpenSetting) (follow : OpenFollow) :
    List TypeExpr → Context → Naming (List (Field Validator))
  | [], _ => pure []
  | t :: ts, c => do
    match (← convert o follow t c.nested).expr with
    | .object fields _ => return fields ++ (← convertMerged o follow ts c)
    | _ => c.fail .intersectionOfOther t.loc

def convertObject (o : OpenSetting) (follow : OpenFollow) :
    ObjectType TypeExpr → Context → Naming Converted
  | ⟨loc, members, indexers, calls, _, leading⟩, c =>
    match calls with
    | call :: _ => c.fail .callSignature call.loc
    | [] =>
      match indexers with
      | [] => do
        let fields ← convertMembers o follow members c
        let literal := Validator.object fields ⟨leading, []⟩
        if c.depth = 0 then return .required literal
        else return .required (← o.call "shape" literal)
      | [i] =>
        if members.isEmpty then convertIndexer o follow i c else c.fail .indexerWithMembers loc
      | _ :: second :: _ =>
        if members.isEmpty then c.fail .severalIndexers second.loc
        else c.fail .indexerWithMembers loc

def convertIndexer (o : OpenSetting) (follow : OpenFollow) :
    Indexer TypeExpr → Context → Naming Converted
  | ⟨_, _, _, value⟩, c => do
    let v ← convert o follow value c.indexed
    return .required (← o.call "objectOf" v.expr)

def convertMembers (o : OpenSetting) (follow : OpenFollow) :
    List (Member TypeExpr) → Context → Naming (List (Field Validator))
  | [], _ => pure []
  | m :: ms, c => do
    let fields ← convertMember o follow m c
    return fields ++ (← convertMembers o follow ms c)

def convertMember (o : OpenSetting) (follow : OpenFollow) :
    Member TypeExpr → Context → Naming (List (Field Validator))
  | .property ⟨_, _, written, value, optional, quoted, notes⟩, c => do
    let v ← convert o follow value c.fieldValue
    let marked := !optional && v.requirement == .required
    return [⟨written, if marked then v.expr.require else v.expr, quoted, notes⟩]
  | .spread ⟨loc, argument, notes⟩, c => do
    match (← convert o follow argument c.spread).expr with
    | .object fields _ =>
      let fields := if o.rules.isExact argument then fields else fields.map Field.stripRequired
      return Field.surround notes fields
    | _ => c.fail .spreadOfOther loc

end

def followImport (o : OpenSetting) (follow : OpenFollow) (i : ImportSpecifier)
    (file : Option String) (use : Use) (c : Context) : Naming Converted := do
  let resolved ← o.library.resolveImport i file
  let replacement :=
    if c.replacement.isNone ∧ file = c.origin then some i.binds else c.replacement
  follow resolved.binding use { c with scope := resolved.scope, replacement }

def convertClass (o : OpenSetting) (k : ClassDeclaration) (file : Option String) (use : Use)
    (c : Context) : Naming Converted :=
  let instanceOf (name : String) : Naming Converted := do
    return .required (← o.call "instanceOf" (.named name))
  let own := k.name.getD defaultName
  match c.replacement with
  | some name => instanceOf name
  | none =>
    if file = c.origin then instanceOf own
    else c.fail (.foreignClass own file c.origin) use.loc

def follow (o : OpenSetting) : (bound : Nat) → OpenFollow
  | 0, _, _, _ => (.abort .endless : Traced Converted)
  | bound + 1, binding, use, c =>
    match binding.referent with
    | .typeAlias a => o.convert (o.follow bound) a.right (c.body a.params)
    | .interface i => o.convertObject (o.follow bound) i.body (c.body i.params)
    | .class_ k => o.convertClass k binding.file use c
    | .import_ i => o.followImport (o.follow bound) i binding.file use c
    | .function f => c.fail (.function f.name) use.loc
    | .variable_ v => c.fail (.variable_ v.name) use.loc
    | .parameter p => c.fail (.typeParameter p.name) use.loc

def convertType (o : OpenSetting) (t : TypeExpr) (c : Context) : Naming Converted :=
  o.convert (o.follow (o.rules.referenceBound c)) t c

def convertTable (o : OpenSetting) (t : TypeExpr) (scope : Scope) (origin : Option String) :
    Naming Validator := do
  let c : Context := ⟨scope, 0, false, none, origin <|> scope.file⟩
  let v ← o.convertType t c
  match v.expr with
  | .object fields notes => return .object fields notes
  | _ => c.fail .noTable t.loc

end OpenSetting

end PropTables
