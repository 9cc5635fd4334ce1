import PropTables.Validator.Basic

/-!
Equality of validator expressions, which leaves comments aside, and the names that they mention.
-/

namespace PropTables

def Constant.number? : Constant → Option Number
  | boolean b => some (.integer (if b then 1 else 0))
  | number n => some n
  | _ => none

def Constant.sameValue (a b : Constant) : Bool :=
  match a.number?, b.number? with
  | some m, some n => m.sameValue n
  | none, none => a == b
  | _, _ => false

namespace Validator

mutual

def same : Validator → Validator → Bool
  | identifier m _, identifier n _ => m == n
  | member v a _, member w b _ => same v w && a == b
  | call f xs _, call g ys _ => same f g && sameAll xs ys
  | literal v r _, literal w s _ => v.sameValue w && r == s
  | array xs _, array ys _ => sameAll xs ys
  | object fs _, object gs _ => sameFields fs gs
  | _, _ => false

def sameAll : List Validator → List Validator → Bool
  | [], [] => true
  | v :: vs, w :: ws => same v w && sameAll vs ws
  | _, _ => false

def sameFields : List (Field Validator) → List (Field Validator) → Bool
  | [], [] => true
  | f :: fs, g :: gs => sameField f g && sameFields fs gs
  | _, _ => false

def sameField : Field Validator → Field Validator → Bool
  | ⟨k, v, q, _⟩, ⟨l, w, r, _⟩ => k == l && same v w && q == r

end

def isNamed (name : String) : Validator → Bool
  | identifier n _ => n == name
  | _ => false

mutual

def accesses (name : String) : Validator → Bool
  | identifier .. => false
  | member v _ _ => v.isNamed name || accesses name v
  | call f xs _ => accesses name f || accessesAny name xs
  | literal .. => false
  | array xs _ => accessesAny name xs
  | object fs _ => accessesField name fs

def accessesAny (name : String) : List Validator → Bool
  | [] => false
  | v :: vs => accesses name v || accessesAny name vs

def accessesField (name : String) : List (Field Validator) → Bool
  | [] => false
  | f :: fs => accessesIn name f || accessesField name fs

def accessesIn (name : String) : Field Validator → Bool
  | ⟨_, v, _, _⟩ => accesses name v

end

mutual

def calls (name : String) : Validator → Bool
  | identifier .. => false
  | member v _ _ => calls name v
  | call f xs _ => f.isNamed name || calls name f || callsAny name xs
  | literal .. => false
  | array xs _ => callsAny name xs
  | object fs _ => callsField name fs

def callsAny (name : String) : List Validator → Bool
  | [] => false
  | v :: vs => calls name v || callsAny name vs

def callsField (name : String) : List (Field Validator) → Bool
  | [] => false
  | f :: fs => callsIn name f || callsField name fs

def callsIn (name : String) : Field Validator → Bool
  | ⟨_, v, _, _⟩ => calls name v

end

end Validator

end PropTables
