import WindowedClosures.Scope.Error
import WindowedClosures.Scope.Nodes

/-!
# Parameters

The labels of a literal become variables: one label names the whole input, several name the fields
of an input tuple. They lie behind the output, and the variables of the body behind them.
-/

namespace WindowedClosures

/-- Variables for labels and types one behind the other. -/
def consecutive (offset : Nat) : List (String × Ty) → List Variable
  | [] => []
  | (name, ty) :: rest => ⟨name, ty, offset, .window⟩ :: consecutive (offset + ty.size) rest

/-- The parameters of a literal, if its labels fit its input. -/
def parameters? (labels : List String) (arrow : Arrow) : Option (List Variable) :=
  let start := arrow.output.size
  match arrow.input.resolved, labels with
  | .void, [] => some []
  | .void, _ => none
  | _, [label] => some (consecutive start [(label, arrow.input)])
  | .tuple fields, labels =>
    if 1 < labels.length ∧ fields.length = labels.length then
      some (consecutive start (labels.zip (fields.map (·.value))))
    else none
  | _, _ => none

namespace ScopeTree

/-- Bind the labels of one literal and move its variables behind them. -/
def bindInput (tree : ScopeTree) (placed : PlacedLiteral) : Except SemanticError ScopeTree :=
  let id := placed.literal.scope
  let body := tree.scope id
  match parameters? body.labels body.arrow with
  | none =>
    .error (.invalidArguments placed.literal.id body.arrow.input.render body.labels.length
      placed.span)
  | some inputs =>
    match body.vars.find? fun v => inputs.any (·.name == v.name) with
    | some clash => .error (.redeclaration .parameter clash.name placed.span)
    | none =>
      let shift := body.arrow.output.size + body.arrow.input.size
      let moved := body.vars.map fun v => { v with offset := v.offset + shift }
      .ok (tree.modify id fun s => { s with vars := inputs ++ moved })

/-- Bind the labels of all literals. -/
def bindInputs (tree : ScopeTree) : Except SemanticError ScopeTree :=
  (tree.literals .pre).foldlM bindInput tree

end ScopeTree

end WindowedClosures
