import WindowedClosures.Scope.Lookup

/-!
# A tree as text

One line for each scope with its arrow and window, then its declared types by name, its variables
and its captures, then the scopes inside it, indented.
-/

namespace WindowedClosures

namespace ScopeTree

/-- What a scope is called: its function and the function's name, or its number. -/
def title (tree : ScopeTree) (id : ScopeId) : String :=
  match tree.functionOf? id with
  | some f => "fn #" ++ toString f.id ++ (if f.name.isEmpty then "" else " " ++ f.name)
  | none => "scope " ++ toString id

end ScopeTree

/-- The types of a scope in the order of their names. -/
def Scope.typesByName (s : Scope) : List (String × Ty) :=
  s.types.mergeSort fun a b => decide (a.1 ≤ b.1)

def Ty.isAlias : Ty → Bool
  | .named .. => true
  | _ => false

namespace ScopeTree

/-- The lines of one scope without those inside it. -/
def ownLines (tree : ScopeTree) (id : ScopeId) : List String :=
  let s := tree.scope id
  let head := tree.title id ++ " (" ++ s.origin.render ++ ") " ++ s.arrow.render ++ " [window " ++
    toString (tree.offset id) ++ "+" ++ toString s.size ++ "]"
  let types := (s.typesByName.filter (·.2.isAlias)).map fun (name, ty) =>
    "  type " ++ name ++ " = " ++ ty.resolved.render
  let vars := s.vars.map fun v => "  var " ++ v.render
  let captures := s.closure.map fun v => "  capture " ++ v.render
  head :: (types ++ vars ++ captures)

/-- The lines of a scope and of those inside it, through so many levels. -/
def linesAt (tree : ScopeTree) : Nat → ScopeId → List String
  | 0, _ => []
  | fuel + 1, id =>
    let children := tree.ids.filter fun child => (tree.scope child).parent == some id
    tree.ownLines id ++ (children.flatMap (tree.linesAt fuel)).map ("  " ++ ·)

/-- The whole tree, a line feed behind every line. -/
def render (tree : ScopeTree) : String :=
  String.join ((tree.linesAt tree.count rootId).map (· ++ "\n"))

end ScopeTree

end WindowedClosures
