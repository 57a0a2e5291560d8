import WindowedClosures.Text.Span

/-!
# Faults of meaning

Why a program that can be read has no meaning. The same faults are reported when code is made from
a tree that was not resolved.
-/

namespace WindowedClosures

/-- What is declared twice. -/
inductive Declared where
  | type | variable | function | parameter
  deriving DecidableEq, Repr

def Declared.render : Declared → String
  | .type => "type"
  | .variable => "variable"
  | .function => "function"
  | .parameter => "parameter"

inductive SemanticError where
  | unknownIdentifier (name : String) (span : Span)
  | unknownType (name : String) (span : Span)
  | unknownFunction (id : Nat) (span : Span)
  | redeclaration (kind : Declared) (name : String) (span : Span)
  | typeMismatch (expected found : String) (span : Span)
  /-- A literal whose labels do not fit the type of its input. -/
  | invalidArguments (id : Nat) (input : String) (labels : Nat) (span : Span)
  /-- A choice whose right side is not a tuple of two arms. -/
  | invalidControl (span : Span)
  | unresolvedComposition (span : Span)
  deriving DecidableEq, Repr

namespace SemanticError

def message : SemanticError → String
  | .unknownIdentifier name _ => "unknown identifier '" ++ name ++ "'"
  | .unknownType name _ => "unknown type '" ++ name ++ "'"
  | .unknownFunction id _ => "unknown function #" ++ toString id
  | .redeclaration kind name _ => kind.render ++ " '" ++ name ++ "' is already declared"
  | .typeMismatch expected found _ => "type mismatch: expected " ++ expected ++ ", found " ++ found
  | .invalidArguments id input labels _ =>
    "function #" ++ toString id ++ " takes " ++ input ++ " but declares " ++ toString labels ++
      " parameter label(s)"
  | .invalidControl _ => "'?' expects a tuple of two branches"
  | .unresolvedComposition _ => "function composition was not desugared"

def span : SemanticError → Span
  | .unknownIdentifier _ span => span
  | .unknownType _ span => span
  | .unknownFunction _ span => span
  | .redeclaration _ _ span => span
  | .typeMismatch _ _ span => span
  | .invalidArguments _ _ _ span => span
  | .invalidControl span => span
  | .unresolvedComposition span => span

end SemanticError

end WindowedClosures
