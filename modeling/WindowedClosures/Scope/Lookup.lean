import WindowedClosures.Scope.Basic
import WindowedClosures.Scope.Error

/-!
# Names seen from a scope

A name means what the nearest enclosing scope says. Every chain of parents in a tree of `n` scopes
that does not run in a circle has at most `n` members, so the chain is followed that far.
-/

namespace WindowedClosures.ScopeTree

/-- A scope and its enclosing scopes, as many as the first argument allows. -/
def ancestorsFrom (tree : ScopeTree) : Nat → ScopeId → List ScopeId
  | 0, _ => []
  | fuel + 1, id =>
    id ::
      match (tree.scope id).parent with
      | some parent => tree.ancestorsFrom fuel parent
      | none => []

/-- The scope itself, then each enclosing scope up to the root. -/
def ancestors (tree : ScopeTree) (id : ScopeId) : List ScopeId := tree.ancestorsFrom tree.count id

/-- Of a chain of scopes, the sizes of the second, the fourth and so on. -/
def offsetAlong (tree : ScopeTree) : List ScopeId → Nat
  | _ :: parent :: rest => (tree.scope parent).size + tree.offsetAlong rest
  | _ => 0

/-- Where a scope's window starts: behind its parent's window, which starts where the
grandparent's does. -/
def offset (tree : ScopeTree) (id : ScopeId) : Nat := tree.offsetAlong (tree.ancestors id)

def lookupType? (tree : ScopeTree) (id : ScopeId) (name : String) : Option Ty :=
  (tree.ancestors id).findSome? fun a => (tree.scope a).types.lookup name

/-- The type of a value name, labels that are not bound yet included. -/
def lookup? (tree : ScopeTree) (id : ScopeId) (name : String) : Option Ty :=
  (tree.ancestors id).findSome? fun a => (tree.scope a).valueType? name

/-- Whether a name is a value in some scope that encloses this one. -/
def resolvable (tree : ScopeTree) (id : ScopeId) (name : String) : Bool :=
  (tree.ancestors id).tail.any fun a => (tree.scope a).knows name

mutual

/-- The type that a written type means in a scope. -/
def resolveType (tree : ScopeTree) (id : ScopeId) : TypeExpr → Except SemanticError Ty
  | .named name span =>
    match tree.lookupType? id name with
    | some ty => .ok ty
    | none => .error (.unknownType name span)
  | .array elem count _ => do
    let elem ← tree.resolveType id elem
    .ok (.array elem count)
  | .function input output _ => do
    let input ← tree.resolveType id input
    let output ← tree.resolveType id output
    .ok (.function input output)
  | .pointer inner _ => do
    let inner ← tree.resolveType id inner
    .ok (.pointer inner)
  | .tuple fields _ => do
    let fields ← tree.resolveFields id fields
    .ok (.tuple fields)

def resolveFields (tree : ScopeTree) (id : ScopeId) :
    List (Labelled TypeExpr) → Except SemanticError (List (Labelled Ty))
  | [] => .ok []
  | ⟨label, value⟩ :: rest => do
    let value ← tree.resolveType id value
    let rest ← tree.resolveFields id rest
    .ok (⟨label, value⟩ :: rest)

end

end WindowedClosures.ScopeTree
