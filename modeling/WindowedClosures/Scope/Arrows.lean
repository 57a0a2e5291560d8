import WindowedClosures.Scope.Infer
import WindowedClosures.Scope.Nodes

/-!
# Arrows of function literals

Known types flow from the outside in: from annotations, arguments and assignments to the literals
in the value, and from a literal to the literal that its body ends with. What is still open is then
found from the inside out: a composition takes the input of its inner and the output of its outer
function, and an arm of a choice gives what its body gives.
-/

namespace WindowedClosures.ScopeTree

mutual

/-- Give the literals in a value the arrows that an expected type implies. -/
def expectType : Expr → Ty → ScopeTree → ScopeTree
  | .tuple [⟨none, value⟩] _, expected, tree => expectType value expected tree
  | .function literal _, expected, tree =>
    match expected.arrow? with
    | some arrow => tree.fillArrow literal.scope arrow
    | none => tree
  | .tuple values _, expected, tree =>
    match expected.resolved with
    | .tuple fields =>
      if values.length = fields.length then expectTypes values (fields.map (·.value)) tree else tree
    | .array elem count =>
      if values.length = count then expectTypes values (List.replicate count elem) tree else tree
    | _ => tree
  | _, _, tree => tree

def expectTypes : List (Labelled Expr) → List Ty → ScopeTree → ScopeTree
  | ⟨_, value⟩ :: values, ty :: types, tree => expectTypes values types (expectType value ty tree)
  | _, _, tree => tree

end

/-- The literal that a body ends with. -/
def tailLiteral? (body : List Expr) : Option FunctionLiteral :=
  body.getLast?.bind fun last => last.unwrapped.asFunction?

/-- Pass known types from one node on to the literals in it. -/
def passTypes (tree : ScopeTree) (node : ScopeId × Expr) : Except SemanticError ScopeTree :=
  let (id, e) := node
  match e with
  | .varDecl name _ value _ =>
    match (tree.scope id).vars.find? (·.name == name) with
    | none => .ok tree
    | some v =>
      if value.unwrapped.asFunction?.isSome && v.ty.arrow?.isNone then
        .error (.typeMismatch v.ty.render "a function literal" value.span)
      else .ok (expectType value v.ty tree)
  | .binary .assign lhs rhs _ =>
    match lhs.asName?.bind (tree.lookup? id) with
    | some ty => .ok (expectType rhs ty tree)
    | none => .ok tree
  | .binary op lhs rhs _ =>
    if op.isCall then
      match tree.arrowOf id lhs with
      | .ok arrow => .ok (expectType rhs arrow.input tree)
      | .error _ => .ok tree
    else .ok tree
  | .function literal _ =>
    let body := tree.scope literal.scope
    match body.arrow.output.arrow?, tailLiteral? body.body with
    | some arrow, some inner => .ok (tree.fillArrow inner.scope arrow)
    | _, _ => .ok tree
  | _ => .ok tree

/-- Find the arrow of a composition from those of its functions. -/
def composeArrow (tree : ScopeTree) (placed : PlacedLiteral) : Except SemanticError ScopeTree := do
  let body := tree.scope placed.literal.scope
  if body.origin ≠ .composition ∨ ¬ body.arrow.isUnset then .ok tree
  else
    match body.body.head? with
    | some (.binary _ f (.binary _ g _ _) _) =>
      let f ← tree.arrowOf placed.outer f
      let g ← tree.arrowOf placed.outer g
      .ok (tree.setArrow placed.literal.scope ⟨g.input, f.output⟩)
    | _ => .error (.unresolvedComposition placed.span)

/-- Find the arrow of an arm from the type of its body. -/
def armArrow (tree : ScopeTree) (placed : PlacedLiteral) : Except SemanticError ScopeTree := do
  let body := tree.scope placed.literal.scope
  if body.origin ≠ .branch ∨ ¬ body.arrow.isUnset then .ok tree
  else
    let output ← match body.body.getLast? with
      | some last => tree.infer placed.literal.scope last
      | none => .ok .void
    .ok (tree.setArrow placed.literal.scope ⟨.void, output⟩)

/-- Find the arrows of all literals. -/
def inferArrows (tree : ScopeTree) : Except SemanticError ScopeTree := do
  let tree ← (tree.nodes .pre).foldlM passTypes tree
  let tree ← (tree.literals .post).foldlM composeArrow tree
  (tree.literals .post).foldlM armArrow tree

end WindowedClosures.ScopeTree
