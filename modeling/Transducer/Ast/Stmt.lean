import Transducer.Ast.Expr

/-! Typed statements, read off a syntax tree. -/

namespace Transducer

inductive Stmt where
  | definition (span : Span) (exported : Bool) (name : Option String) (body : Expr)
  | importing (span : Span) (path : Expr) (renamed : Option String)
  /-- Without a parameter list there are no parameters at all, not even an empty list of them. -/
  | function (span : Span) (name : Option String) (params : Option (List String)) (body : List Stmt)
  | returning (span : Span) (body : Expr)

namespace Stmt

open Located

def span : Stmt → Span
  | .definition s _ _ _ | .importing s _ _ | .function s _ _ _ | .returning s _ => s

/-- The names of the first parameter list. -/
def parametersOf : List Located → Option (List String)
  | [] => none
  | .leaf _ _ :: ts => parametersOf ts
  | .node kind _ children :: ts => if kind = .params then some (textsOf .id children) else parametersOf ts

mutual

/-- The statement that a node stands for, if it is one. -/
def ofLocated? : Located → Option Stmt
  | .leaf _ _ => none
  | .node kind span children =>
      let body := (Expr.partsOf children).headD .missing
      let name := (textsOf .id children).head?
      match kind with
      | .varDef => some (.definition span (!(textsOf .kwExport children).isEmpty) name body)
      | .importStmt => some (.importing span body name)
      | .funcDef => some (.function span name (parametersOf children) (ofChildren children))
      | .returnStmt => some (.returning span body)
      | _ => none

/-- The statements among some children. -/
def ofChildren : List Located → List Stmt
  | [] => []
  | t :: ts =>
      match ofLocated? t with
      | some stmt => stmt :: ofChildren ts
      | none => ofChildren ts

end

/-- The statements of a whole source. -/
def ofRoot (root : Tree) : List Stmt := ofChildren root.locate.children

def isDefinition : Stmt → Bool
  | .definition _ _ _ _ => true
  | _ => false

end Stmt

end Transducer
