import WindowedClosures.Scope.Arrows
import WindowedClosures.Scope.Captures
import WindowedClosures.Scope.Declarations
import WindowedClosures.Scope.Desugar
import WindowedClosures.Scope.Inputs
import WindowedClosures.Scope.Numbering

/-!
# Resolving a program

The passes from a program as it was read to one that code can be made from. Each relies on those
before it, and the first fault ends them.
-/

namespace WindowedClosures

/-- Desugar, number, declare, find arrows, bind parameters and capture. -/
def ScopeTree.resolve (tree : ScopeTree) : Except SemanticError ScopeTree := do
  let tree ← tree.desugar
  let tree ← tree.number.declareTypes
  let tree ← tree.declareVariables
  let tree ← tree.declareFunctions
  let tree ← tree.inferArrows
  let tree ← tree.bindInputs
  .ok tree.capture

end WindowedClosures
