import WindowedClosures.Scope.Basic

/-!
# Enumerating a tree

All expression nodes of a scope in order, each with the scope it stands in. A node comes before or
after its children; the body of a function literal counts as its child. Bodies nest no deeper than
there are scopes.
-/

namespace WindowedClosures

inductive Order where
  /-- A node before its children. -/
  | pre
  /-- A node after its children, so nested functions come first. -/
  | post
  deriving DecidableEq, Repr

/-- A node placed in front of or behind its children. -/
def Order.place {α : Type} (order : Order) (node : α) (children : List α) : List α :=
  match order with
  | .pre => node :: children
  | .post => children ++ [node]

/-- A function literal with the scope it stands in. -/
structure PlacedLiteral where
  outer : ScopeId
  literal : FunctionLiteral
  span : Span
  deriving DecidableEq, Repr

namespace ScopeTree

mutual

/-- The nodes of an expression, given the nodes of the bodies of its literals. -/
def nodesWith (order : Order) (bodyNodes : ScopeId → List (ScopeId × Expr)) (id : ScopeId) :
    Expr → List (ScopeId × Expr)
  | .tuple fields span =>
    order.place (id, .tuple fields span) (fieldNodesWith order bodyNodes id fields)
  | .varDecl name type value span =>
    order.place (id, .varDecl name type value span) (nodesWith order bodyNodes id value)
  | .function literal span =>
    order.place (id, .function literal span) (bodyNodes literal.scope)
  | .binary op lhs rhs span =>
    order.place (id, .binary op lhs rhs span)
      (nodesWith order bodyNodes id lhs ++ nodesWith order bodyNodes id rhs)
  | .unary op operand span =>
    order.place (id, .unary op operand span) (nodesWith order bodyNodes id operand)
  | .int value span => [(id, .int value span)]
  | .hex value span => [(id, .hex value span)]
  | .float value span => [(id, .float value span)]
  | .text value span => [(id, .text value span)]
  | .name value span => [(id, .name value span)]
  | .typeDecl name type span => [(id, .typeDecl name type span)]

def fieldNodesWith (order : Order) (bodyNodes : ScopeId → List (ScopeId × Expr)) (id : ScopeId) :
    List (Labelled Expr) → List (ScopeId × Expr)
  | [] => []
  | ⟨_, value⟩ :: rest =>
    nodesWith order bodyNodes id value ++ fieldNodesWith order bodyNodes id rest

end

/-- The nodes of a scope through so many levels of bodies. -/
def bodyNodesAt (tree : ScopeTree) (order : Order) : Nat → ScopeId → List (ScopeId × Expr)
  | 0, _ => []
  | fuel + 1, id =>
    (tree.scope id).body.flatMap (nodesWith order (tree.bodyNodesAt order fuel) id)

/-- All nodes of the program. -/
def nodes (tree : ScopeTree) (order : Order) : List (ScopeId × Expr) :=
  tree.bodyNodesAt order tree.count rootId

/-- All function literals of the program. -/
def literals (tree : ScopeTree) (order : Order) : List PlacedLiteral :=
  (tree.nodes order).filterMap fun (id, e) =>
    match e with
    | .function literal span => some ⟨id, literal, span⟩
    | _ => none

/-- The root, then the scope of every literal in source order. -/
def scopesInOrder (tree : ScopeTree) : List ScopeId :=
  rootId :: (tree.literals .pre).map (·.literal.scope)

end ScopeTree

end WindowedClosures
