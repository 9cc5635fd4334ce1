import PropTables.Proofs.TextPlaces

/-! The nodes of a module and where they stand. A node has lists of parts; the entries of a list stand one
after another, and what is at its place is known of a node once it is known of its parts. -/

namespace PropTables

/-- What has a position of its own in a module. -/
inductive SyntaxNode where
  | item (i : Item)
  | importSpecifier (s : ImportSpecifier)
  | exportSpecifier (s : ExportSpecifier)
  | declaration (d : Declaration)
  | typeParameter (p : TypeParameter)
  | declarator (d : VariableDeclarator)
  | classMember (m : ClassMember)
  | param (p : Param)
  | expr (e : Expr)
  | entry (e : ObjectEntry Expr)
  | type (t : TypeExpr)
  | functionParam (p : FunctionParam TypeExpr)
  | member (m : Member TypeExpr)
  | indexer (i : Indexer TypeExpr)
  | call (k : CallSignature TypeExpr)

section Positions

def Declaration.loc : Declaration → Position
  | typeAlias a => a.loc
  | interface i => i.loc
  | class_ k => k.loc
  | function f => f.loc
  | binding v => v.loc

def Item.loc : Item → Position
  | statement (.import_ d) => d.loc
  | statement (.declaration d) => d.loc
  | statement (.assignment p _ _) | statement (.expression p _) => p
  | exportNamed e => e.loc
  | exportAll p _ | exportDefault p _ | exportDeclaration p _ => p

def ClassMember.loc : ClassMember → Position
  | property p => p.loc
  | method m => m.loc

def Expr.loc : Expr → Position
  | name p _ | member p _ _ | call p _ _ | number p _ _ | string p _ _ | template p _ | object p _
  | array p _ | arrow p _ => p

def ObjectEntry.loc : ObjectEntry Expr → Position
  | keyed p _ _ | spread p _ => p

def Member.loc : Member TypeExpr → Position
  | property p => p.loc
  | spread p => p.loc

end Positions

section Spellings

def Declaration.word? : Declaration → Option String
  | typeAlias _ => some "type"
  | interface _ => some "interface"
  | class_ _ => some "class"
  | function _ => some "function"
  | binding _ => none

def Item.word? : Item → Option String
  | statement (.import_ _) => some "import"
  | statement _ => none
  | exportNamed _ | exportAll .. | exportDefault .. | exportDeclaration .. => some "export"

def Expr.spelling? : Expr → Option String
  | name _ ident => some ident
  | member _ _ attr => some attr
  | number _ _ raw | string _ _ raw | template _ raw => some raw
  | _ => none

def TypeExpr.spelling? : TypeExpr → Option String
  | number _ _ raw | string _ _ raw => some raw
  | boolean _ value => some (if value then "true" else "false")
  | object o => some (if o.exact then "\x7b|" else "\x7b")
  | reference _ qualifiers name _ => some (qualifiers.headD name)
  | _ => none

end Spellings

section Parts

def Item.parts : Item → List (List SyntaxNode)
  | statement (.import_ d) => [d.specifiers.map .importSpecifier]
  | statement (.declaration d) | exportDeclaration _ d => [[.declaration d]]
  | statement (.assignment _ target value) => [[.expr target], [.expr value]]
  | statement (.expression _ value) => [[.expr value]]
  | exportNamed e => [e.specifiers.map .exportSpecifier]
  | exportAll .. => []
  | exportDefault _ (.class_ k) => [[.declaration (.class_ k)]]
  | exportDefault _ (.function f) => [[.declaration (.function f)]]
  | exportDefault _ (.expression e) => [[.expr e]]

def Declaration.parts : Declaration → List (List SyntaxNode)
  | typeAlias a => [a.params.map .typeParameter, [.type a.right]]
  | interface i => [i.params.map .typeParameter, [.type (.object i.body)]]
  | class_ k => [k.params.map .typeParameter, k.superclass.toList.map .expr,
      (k.superArgs.getD []).map .type, k.body.map .classMember]
  | function f => [f.params.map .param, f.result.toList.map .type]
  | binding v => [v.declarators.map .declarator]

def ClassMember.parts : ClassMember → List (List SyntaxNode)
  | property ⟨_, _, ascription, some (.source e), _, _, _⟩ => [ascription.toList.map .type, [.expr e]]
  | property p => [p.ascription.toList.map .type]
  | method m => [m.params.map .param, m.result.toList.map .type]

def Expr.parts : Expr → List (List SyntaxNode)
  | member _ value _ => [[.expr value]]
  | call _ func args => [[.expr func], args.map .expr]
  | object _ entries => [entries.map .entry]
  | array _ items => [items.map .expr]
  | arrow _ params => [params.map .param]
  | _ => []

def TypeExpr.parts : TypeExpr → List (List SyntaxNode)
  | function _ params result => [params.map .functionParam, [.type result]]
  | nullable _ inner => [[.type inner]]
  | array _ element => [[.type element]]
  | tuple _ ts | reference _ _ _ ts | union _ ts | intersection _ ts => [ts.map .type]
  | object o => [o.members.map .member, o.indexers.map .indexer, o.calls.map .call]
  | _ => []

end Parts

namespace SyntaxNode

def loc : SyntaxNode → Position
  | item i => i.loc
  | importSpecifier s => s.loc
  | exportSpecifier s => s.loc
  | declaration d => d.loc
  | typeParameter p => p.loc
  | declarator d => d.loc
  | classMember m => m.loc
  | param p => p.loc
  | expr e => e.loc
  | entry e => e.loc
  | type t => t.loc
  | functionParam p => p.loc
  | member m => m.loc
  | indexer i => i.loc
  | call k => k.loc

def spelling? : SyntaxNode → Option String
  | item i => i.word?
  | declaration d => d.word?
  | typeParameter p => some p.name
  | declarator d => some d.name
  | expr e => e.spelling?
  | type t => t.spelling?
  | member (.property p) => some p.written
  | _ => none

def parts : SyntaxNode → List (List SyntaxNode)
  | item i => i.parts
  | declaration d => d.parts
  | declarator d => [d.ascription.toList.map type, d.init.toList.map expr]
  | classMember m => m.parts
  | param p => [p.ascription.toList.map type]
  | expr e => e.parts
  | entry (.keyed _ _ e) | entry (.spread _ e) => [[expr e]]
  | type t => t.parts
  | functionParam p => [[type p.type]]
  | member (.property p) => [[type p.value]]
  | member (.spread p) => [[type p.argument]]
  | indexer i => [[type i.key], [type i.value]]
  | call k => [k.params.map functionParam, [type k.result]]
  | importSpecifier _ | exportSpecifier _ | typeParameter _ => []

def isType : SyntaxNode → Bool
  | type _ | functionParam _ | member _ | indexer _ | call _ => true
  | _ => false

def import? : SyntaxNode → Option ImportDeclaration
  | item (.statement (.import_ d)) => some d
  | _ => none

def Child (n m : SyntaxNode) : Prop :=
  ∃ row ∈ n.parts, m ∈ row

abbrev Within : SyntaxNode → SyntaxNode → Prop :=
  Relation.ReflTransGen Child

end SyntaxNode

def ImportDeclaration.OpensBefore (source : String) (d : ImportDeclaration) (s : ImportSpecifier) : Prop :=
  ∃ t ∈ (Lexing.ofSource source).tokens, t.terminal = .mark .openBrace ∧ d.loc < t.start ∧ t.start < s.loc

namespace SyntaxNode

/-- The node's own spelling stands at its position, and so does the name of an import that stands
outside braces. The entries of a list of its parts stand one after another. -/
structure IsPlaced (source : String) (n : SyntaxNode) : Prop where
  spelled : ∀ text ∈ n.spelling?, StandsAt source n.loc text
  imported : ∀ d ∈ n.import?, ∀ s ∈ d.specifiers, d.OpensBefore source s ∨ StandsAt source s.loc s.binds
  ordered : ∀ row ∈ n.parts, row.Pairwise fun a b => a.loc < b.loc
  within : n.isType = true → ∀ m, n.Child m → n.loc ≤ m.loc

structure Sits (source : String) (p q : Position) (n : SyntaxNode) : Prop where
  le_loc : p ≤ n.loc
  loc_lt : n.loc < q
  placed : ∀ m, n.Within m → m.IsPlaced source

variable {source : String} {p p' q q' : Position} {n : SyntaxNode} {ns : List SyntaxNode}

theorem Sits.lt (h : n.Sits source p q) : p < q :=
  h.le_loc.trans_lt h.loc_lt

theorem Sits.mono (h : n.Sits source p q) (hp : p' ≤ p) (hq : q ≤ q') : n.Sits source p' q' :=
  ⟨hp.trans h.le_loc, h.loc_lt.trans_le hq, h.placed⟩

theorem Sits.row (h : Row (Sits source) p q ns) :
    (∀ n ∈ ns, n.Sits source p q) ∧ ns.Pairwise fun a b => a.loc < b.loc := by
  induction h with
  | nil => exact ⟨nofun, .nil⟩
  | @cons p p' mid n q ns hgap hn hns ih =>
    have hle : mid ≤ q := hns.le fun _ _ _ h => h.lt.le
    constructor
    · rintro x (_ | ⟨_, hx⟩)
      · exact hn.mono hgap hle
      · exact (ih.1 x hx).mono (hgap.trans hn.lt.le) le_rfl
    · exact List.pairwise_cons.2 ⟨fun x hx => hn.loc_lt.trans_le (ih.1 x hx).le_loc, ih.2⟩

def PartsSit (source : String) (n : SyntaxNode) : Prop :=
  ∀ row ∈ n.parts, ∃ p q, Row (Sits source) p q row ∧ (n.isType = true → n.loc ≤ p)

theorem Sits.of_parts (hp : p ≤ n.loc) (hq : n.loc < q)
    (hspelled : ∀ text ∈ n.spelling?, StandsAt source n.loc text)
    (himported : ∀ d ∈ n.import?, ∀ s ∈ d.specifiers,
      d.OpensBefore source s ∨ StandsAt source s.loc s.binds)
    (hparts : n.PartsSit source) : n.Sits source p q := by
  refine ⟨hp, hq, fun m hm => ?_⟩
  rcases hm.cases_head with rfl | ⟨k, ⟨row, hrow, hk⟩, hm⟩
  · refine ⟨hspelled, himported, fun row hrow => ?_, fun htype m ⟨row, hrow, hm⟩ => ?_⟩
    · obtain ⟨a, b, h, -⟩ := hparts row hrow
      exact (Sits.row h).2
    · obtain ⟨a, b, h, hle⟩ := hparts row hrow
      exact (hle htype).trans ((Sits.row h).1 m hm).le_loc
  · obtain ⟨a, b, h, -⟩ := hparts row hrow
    exact ((Sits.row h).1 k hk).placed m hm

theorem Sits.of_row (hp : p ≤ n.loc) (hq : n.loc < q)
    (hspelled : ∀ text ∈ n.spelling?, StandsAt source n.loc text) (himport : n.import? = none)
    (hparts : n.parts = [ns]) (h : Row (Sits source) n.loc q' ns) : n.Sits source p q := by
  refine .of_parts hp hq hspelled (by simp [himport]) fun row hrow => ?_
  rw [hparts] at hrow
  cases List.mem_singleton.1 hrow
  exact ⟨_, _, h, fun _ => le_rfl⟩

theorem Sits.of_leaf (hp : p ≤ n.loc) (hq : n.loc < q)
    (hspelled : ∀ text ∈ n.spelling?, StandsAt source n.loc text) (himport : n.import? = none)
    (hparts : n.parts = []) : n.Sits source p q := by
  refine .of_parts hp hq hspelled (by simp [himport]) fun row hrow => ?_
  rw [hparts] at hrow
  cases hrow

end SyntaxNode

end PropTables
