import WindowedClosures.Scope.Basic

/-!
# Numbering function literals

Literals are numbered from 0 in source order, an outer one before those in its body, and the scope
of each learns its parent.
-/

namespace WindowedClosures

/-- The tree and the next number. -/
structure Numbering where
  tree : ScopeTree
  next : Nat

mutual

/-- Number the literals of an expression in a scope, given how to number those of a body. -/
def numberExpr (enter : ScopeId → StateM Numbering Unit) (id : ScopeId) :
    Expr → StateM Numbering Expr
  | .function literal span => do
    let n := (← get).next
    modify fun s => ⟨s.tree.modify literal.scope fun body => { body with parent := some id }, n + 1⟩
    enter literal.scope
    return .function { literal with id := n } span
  | .binary op lhs rhs span => do
    let lhs ← numberExpr enter id lhs
    let rhs ← numberExpr enter id rhs
    return .binary op lhs rhs span
  | .unary op operand span => do
    let operand ← numberExpr enter id operand
    return .unary op operand span
  | .tuple fields span => do
    let fields ← numberFields enter id fields
    return .tuple fields span
  | .varDecl name type value span => do
    let value ← numberExpr enter id value
    return .varDecl name type value span
  | .int value span => return .int value span
  | .hex value span => return .hex value span
  | .float value span => return .float value span
  | .text value span => return .text value span
  | .name value span => return .name value span
  | .typeDecl name type span => return .typeDecl name type span

def numberFields (enter : ScopeId → StateM Numbering Unit) (id : ScopeId) :
    List (Labelled Expr) → StateM Numbering (List (Labelled Expr))
  | [] => return []
  | ⟨label, value⟩ :: rest => do
    let value ← numberExpr enter id value
    let rest ← numberFields enter id rest
    return ⟨label, value⟩ :: rest

end

/-- Number the literals of a scope through so many levels of bodies. -/
def numberScope : Nat → ScopeId → StateM Numbering Unit
  | 0, _ => return ()
  | fuel + 1, id => do
    let body ← ((← get).tree.scope id).body.mapM (numberExpr (numberScope fuel) id)
    modify fun s => { s with tree := s.tree.setBody id body }

/-- Number all literals of a program. -/
def ScopeTree.number (tree : ScopeTree) : ScopeTree :=
  ((numberScope tree.count ScopeTree.rootId).run ⟨tree, 0⟩).2.tree

end WindowedClosures
