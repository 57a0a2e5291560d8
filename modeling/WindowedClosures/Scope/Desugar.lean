import WindowedClosures.Scope.Basic
import WindowedClosures.Scope.Error

/-!
# Compositions and arms as function literals

A composition `f • g` becomes the literal `\$x > f # (g # $x)`, whose label no source text can
write, and each arm of a choice becomes a literal without labels. The scope of a new literal is
allocated before those of the literals inside it.
-/

namespace WindowedClosures

/-- The label of a composition. -/
def compositionLabel : String := "$x"

abbrev Resolver := StateT ScopeTree (Except SemanticError)

/-- Add a scope without statements for a new literal. -/
def allocateScope (origin : Origin) (labels : List String) (span : Span) : Resolver ScopeId := do
  let tree ← get
  set (tree.push (.fresh origin labels [] span))
  return tree.count

mutual

/-- Desugar an expression, given how to desugar the body of a literal. -/
def desugarExpr (enter : ScopeId → Resolver Unit) : Expr → Resolver Expr
  | .binary .compose f g span => do
    let scope ← allocateScope .composition [compositionLabel] span
    let inner := g.span.merge span
    let f ← desugarExpr enter f
    let g ← desugarExpr enter g
    let call := Expr.binary .apply g (.name compositionLabel span) inner
    modify (·.setBody scope [.binary .apply f call span])
    return .function ⟨0, [compositionLabel], scope⟩ span
  | .binary .choose cond (.tuple [⟨yesLabel, yes⟩, ⟨noLabel, no⟩] armsSpan) span => do
    let yesSpan := yes.span
    let noSpan := no.span
    let yesScope ← allocateScope .branch [] yesSpan
    let noScope ← allocateScope .branch [] noSpan
    let cond ← desugarExpr enter cond
    let yes ← desugarExpr enter yes
    modify (·.setBody yesScope [yes])
    let no ← desugarExpr enter no
    modify (·.setBody noScope [no])
    let arms := [⟨yesLabel, Expr.function ⟨0, [], yesScope⟩ yesSpan⟩,
      ⟨noLabel, Expr.function ⟨0, [], noScope⟩ noSpan⟩]
    return .binary .choose cond (.tuple arms armsSpan) span
  | .binary .choose _ arms _ => throw (.invalidControl arms.span)
  | .binary op lhs rhs span => do
    let lhs ← desugarExpr enter lhs
    let rhs ← desugarExpr enter rhs
    return .binary op lhs rhs span
  | .unary op operand span => do
    let operand ← desugarExpr enter operand
    return .unary op operand span
  | .tuple fields span => do
    let fields ← desugarFields enter fields
    return .tuple fields span
  | .varDecl name type value span => do
    let value ← desugarExpr enter value
    return .varDecl name type value span
  | .function literal span => do
    enter literal.scope
    return .function literal span
  | .int value span => return .int value span
  | .hex value span => return .hex value span
  | .float value span => return .float value span
  | .text value span => return .text value span
  | .name value span => return .name value span
  | .typeDecl name type span => return .typeDecl name type span

def desugarFields (enter : ScopeId → Resolver Unit) :
    List (Labelled Expr) → Resolver (List (Labelled Expr))
  | [] => return []
  | ⟨label, value⟩ :: rest => do
    let value ← desugarExpr enter value
    let rest ← desugarFields enter rest
    return ⟨label, value⟩ :: rest

end

/-- Desugar the statements of a scope through so many levels of literals. -/
def desugarScope : Nat → ScopeId → Resolver Unit
  | 0, _ => return ()
  | fuel + 1, id => do
    let body ← ((← get).scope id).body.mapM (desugarExpr (desugarScope fuel))
    modify (·.setBody id body)

/-- Desugar a program as it was read. -/
def ScopeTree.desugar (tree : ScopeTree) : Except SemanticError ScopeTree := do
  let (_, tree) ← (desugarScope tree.count ScopeTree.rootId).run tree
  .ok tree

end WindowedClosures
