import WindowedClosures.Scope.Lookup
import WindowedClosures.Scope.Nodes

/-!
# Captures

A literal captures the values of enclosing scopes that its body uses, in the order of first use.
Inner literals are treated first; what they capture counts as used by the literal around them.
-/

namespace WindowedClosures

/-- Append a name unless it is there. -/
def addName (names : List String) (name : String) : List String :=
  if names.contains name then names else names ++ [name]

namespace ScopeTree

mutual

/-- Add the names that an expression reads or assigns. A nested literal counts with what it
captured, and the name of a field does not count. -/
def freeNames (tree : ScopeTree) : Expr → List String → List String
  | .name value _, names => addName names value
  | .tuple fields _, names => tree.freeNamesOfFields fields names
  | .varDecl _ _ value _, names => tree.freeNames value names
  | .function literal _, names =>
    ((tree.scope literal.scope).closure.map (·.name)).foldl addName names
  | .binary .field lhs _ _, names => tree.freeNames lhs names
  | .binary _ lhs rhs _, names => tree.freeNames rhs (tree.freeNames lhs names)
  | .unary _ operand _, names => tree.freeNames operand names
  | .int .., names => names
  | .hex .., names => names
  | .float .., names => names
  | .text .., names => names
  | .typeDecl .., names => names

def freeNamesOfFields (tree : ScopeTree) : List (Labelled Expr) → List String → List String
  | [], names => names
  | ⟨_, value⟩ :: rest, names => tree.freeNamesOfFields rest (tree.freeNames value names)

end

/-- Capture one name in a literal's scope if it is a value further out. -/
def captureName (outer inner : ScopeId) (tree : ScopeTree) (name : String) : ScopeTree :=
  if ((tree.scope inner).local? name).isSome || !tree.resolvable inner name then tree
  else
    match tree.lookup? outer name with
    | none => tree
    | some ty =>
      tree.modify inner fun s =>
        { s with closure := s.closure ++ [⟨name, ty, sizeOfAll s.closure, .closure⟩] }

/-- Capture what one literal uses. -/
def captureLiteral (tree : ScopeTree) (placed : PlacedLiteral) : ScopeTree :=
  let inner := placed.literal.scope
  let names := (tree.scope inner).body.foldl (fun names e => tree.freeNames e names) []
  names.foldl (captureName placed.outer inner) tree

/-- Capture what every literal uses, inner literals first. -/
def capture (tree : ScopeTree) : ScopeTree := (tree.literals .post).foldl captureLiteral tree

end ScopeTree

end WindowedClosures
