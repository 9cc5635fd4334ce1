import PropTables.Library.Path

/-!
What can be set for a conversion.
-/

namespace PropTables

structure ConvertOptions where
  hasDefaultName : String
  checkedByName : String
  exactName : String
  allowNull : Bool
  allowVoid : Bool
  allowMaybe : Bool
  resolution : ResolutionOptions

def ConvertOptions.default : ConvertOptions :=
  ⟨"HasDefaultProp", "CheckedBy", "$Exact", true, true, true, .default⟩

structure Vocabulary where
  namespaceName : String
  allName : String
deriving DecidableEq, Repr

def Vocabulary.default : Vocabulary := ⟨"PropTypes", "all"⟩

end PropTables
