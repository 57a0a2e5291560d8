import WindowedClosures.Scope.Lookup
import WindowedClosures.Scope.Nodes

/-!
# Declarations

The names that the statements of each scope declare: types, then variables, then functions. A
scope declares a name of one kind only once. Variables lie one behind the other in the window.
-/

namespace WindowedClosures

/-- The types that statements declare, in order. -/
def typeDeclarations (body : List Expr) : List (String × TypeExpr × Span) :=
  body.filterMap fun
    | .typeDecl name type span => some (name, type, span)
    | _ => none

/-- The variables that statements declare, in order. -/
def varDeclarations (body : List Expr) : List (String × TypeExpr × Span) :=
  body.filterMap fun
    | .varDecl name type _ span => some (name, type, span)
    | _ => none

/-- The function literals that statements give a name, in order. -/
def functionDeclarations (body : List Expr) : List (String × Nat × Span) :=
  body.filterMap fun
    | .varDecl name _ value span =>
      value.unwrapped.asFunction?.map fun literal => (name, literal.id, span)
    | _ => none

namespace ScopeTree

def declareType (id : ScopeId) (tree : ScopeTree) (decl : String × TypeExpr × Span) :
    Except SemanticError ScopeTree := do
  let (name, type, span) := decl
  if (tree.scope id).declaresType name then .error (.redeclaration .type name span)
  else
    let ty ← tree.resolveType id type
    .ok (tree.modify id fun s => { s with types := (name, .named name ty) :: s.types })

/-- Declare the types of every scope. -/
def declareTypes (tree : ScopeTree) : Except SemanticError ScopeTree :=
  tree.scopesInOrder.foldlM (fun tree id =>
    (typeDeclarations (tree.scope id).body).foldlM (declareType id) tree) tree

def declareVariable (id : ScopeId) (tree : ScopeTree) (decl : String × TypeExpr × Span) :
    Except SemanticError ScopeTree := do
  let (name, type, span) := decl
  if (tree.scope id).vars.any (·.name == name) then .error (.redeclaration .variable name span)
  else
    let ty ← tree.resolveType id type
    .ok (tree.modify id fun s =>
      { s with vars := s.vars ++ [⟨name, ty, sizeOfAll s.vars, .window⟩] })

/-- Declare the variables of every scope. -/
def declareVariables (tree : ScopeTree) : Except SemanticError ScopeTree :=
  tree.scopesInOrder.foldlM (fun tree id =>
    (varDeclarations (tree.scope id).body).foldlM (declareVariable id) tree) tree

/-- Give a name to the first function of a number. -/
def nameFunction (id : Nat) (name : String) : List Function → Option (List Function)
  | [] => none
  | f :: rest =>
    if f.id = id then some ({ f with name := name } :: rest)
    else (nameFunction id name rest).map (f :: ·)

def declareFunction (id : ScopeId) (tree : ScopeTree) (decl : String × Nat × Span) :
    Except SemanticError ScopeTree :=
  let (name, number, span) := decl
  if tree.functions.any fun f => f.name == name && (tree.scope f.scope).parent == some id then
    .error (.redeclaration .function name span)
  else
    match nameFunction number name tree.functions with
    | some functions => .ok { tree with functions := functions }
    | none => .error (.unknownFunction number span)

/-- List every function, nested ones first, and name those that a variable is declared with. -/
def declareFunctions (tree : ScopeTree) : Except SemanticError ScopeTree :=
  let functions := (tree.literals .post).map fun placed =>
    (⟨placed.literal.id, "", placed.literal.scope⟩ : Function)
  tree.scopesInOrder.foldlM (fun tree id =>
    (functionDeclarations (tree.scope id).body).foldlM (declareFunction id) tree)
    { tree with functions := functions }

end ScopeTree

end WindowedClosures
