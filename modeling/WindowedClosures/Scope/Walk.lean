import WindowedClosures.Scope.Nodes

/-!
# Walking a tree

A visitor is shown the nodes of a scope one after the other and may fail at any of them. While the
statements of a scope are visited they are moved out of the tree, so a visitor finds an empty body
in the scope it stands in and in the enclosing scopes of the walk; they are put back also when the
visitor fails. A body that is moved out has no literals to descend into, so there are at most as
many levels as scopes.
-/

namespace WindowedClosures

/-- A tree on a walk, and what the visitor has gathered. -/
structure Tour (σ : Type) where
  tree : ScopeTree
  seen : σ

/-- Called with a scope and a node of it. -/
abbrev Visitor (ε σ : Type) := ScopeId → Expr → EStateM ε (Tour σ) Unit

namespace Tour

variable {ε σ : Type}

/-- Visit a node before or after its children. -/
def visiting (order : Order) (visit children : EStateM ε (Tour σ) Unit) :
    EStateM ε (Tour σ) Unit := do
  match order with
  | .pre => do visit; children
  | .post => do children; visit

mutual

/-- Walk an expression, given how to enter the body of a literal. -/
def walkExpr (visit : Visitor ε σ) (order : Order) (enter : ScopeId → EStateM ε (Tour σ) Unit)
    (id : ScopeId) : Expr → EStateM ε (Tour σ) Unit
  | .tuple fields span =>
    visiting order (visit id (.tuple fields span)) (walkFields visit order enter id fields)
  | .varDecl name type value span =>
    visiting order (visit id (.varDecl name type value span)) (walkExpr visit order enter id value)
  | .function literal span =>
    visiting order (visit id (.function literal span)) (enter literal.scope)
  | .binary op lhs rhs span =>
    visiting order (visit id (.binary op lhs rhs span)) (do
      walkExpr visit order enter id lhs
      walkExpr visit order enter id rhs)
  | .unary op operand span =>
    visiting order (visit id (.unary op operand span)) (walkExpr visit order enter id operand)
  | .int value span => visit id (.int value span)
  | .hex value span => visit id (.hex value span)
  | .float value span => visit id (.float value span)
  | .text value span => visit id (.text value span)
  | .name value span => visit id (.name value span)
  | .typeDecl name type span => visit id (.typeDecl name type span)

def walkFields (visit : Visitor ε σ) (order : Order) (enter : ScopeId → EStateM ε (Tour σ) Unit)
    (id : ScopeId) : List (Labelled Expr) → EStateM ε (Tour σ) Unit
  | [] => return ()
  | ⟨_, value⟩ :: rest => do
    walkExpr visit order enter id value
    walkFields visit order enter id rest

end

/-- Walk statements one after the other. -/
def walkAll (visit : Visitor ε σ) (order : Order) (enter : ScopeId → EStateM ε (Tour σ) Unit)
    (id : ScopeId) : List Expr → EStateM ε (Tour σ) Unit
  | [] => return ()
  | e :: rest => do
    walkExpr visit order enter id e
    walkAll visit order enter id rest

/-- Replace the body of a scope on the walk. -/
def setBody (t : Tour σ) (id : ScopeId) (body : List Expr) : Tour σ :=
  { t with tree := t.tree.setBody id body }

/-- Walk a scope through so many levels of bodies. -/
def walkScope (visit : Visitor ε σ) (order : Order) (nested : Bool) :
    Nat → ScopeId → EStateM ε (Tour σ) Unit
  | 0, _ => return ()
  | fuel + 1, id => fun t =>
    let body := (t.tree.scope id).body
    let enter : ScopeId → EStateM ε (Tour σ) Unit :=
      if nested then walkScope visit order nested fuel else fun _ => return ()
    match walkAll visit order enter id body (t.setBody id []) with
    | .ok _ t => .ok () (t.setBody id body)
    | .error e t => .error e (t.setBody id body)

end Tour

/-- Visit every node of a scope and, if `nested`, of the literals in it. The tree and what the
visitor gathered come back also when it fails. -/
def ScopeTree.walk {ε σ : Type} (tree : ScopeTree) (visit : Visitor ε σ) (order : Order)
    (nested : Bool) (id : ScopeId) (start : σ) : Except ε Unit × Tour σ :=
  match Tour.walkScope visit order nested (tree.count + 1) id ⟨tree, start⟩ with
  | .ok _ t => (.ok (), t)
  | .error e t => (.error e, t)

end WindowedClosures
