import PropTables.Syntax.Module

/-!
What a name can stand for, and which names the statements of a module bind.
-/

namespace PropTables

inductive Referent where
  | typeAlias (a : TypeAlias)
  | interface (i : InterfaceDeclaration)
  | class_ (c : ClassDeclaration)
  | function (f : FunctionDeclaration)
  | variable_ (v : VariableDeclarator)
  | import_ (s : ImportSpecifier)
  | parameter (p : TypeParameter)

def Declaration.binds : Declaration → List (String × Referent)
  | typeAlias a => [(a.name, .typeAlias a)]
  | interface i => [(i.name, .interface i)]
  | class_ c => c.name.toList.map fun n => (n, .class_ c)
  | function f => [(f.name, .function f)]
  | binding v => v.declarators.map fun d => (d.name, .variable_ d)

def Statement.binds : Statement → List (String × Referent)
  | import_ d => d.specifiers.map fun s => (s.binds, .import_ s)
  | declaration d => d.binds
  | assignment .. => []
  | expression .. => []

structure Binding where
  referent : Referent
  file : Option String

end PropTables
