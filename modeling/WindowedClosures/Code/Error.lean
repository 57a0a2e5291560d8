import WindowedClosures.Code.Register
import WindowedClosures.Expr.Operator
import WindowedClosures.Scope.Error

/-!
# Faults of code generation

Why no code can be made for a program. Faults of meaning are reported again for programs that were
not resolved.
-/

namespace WindowedClosures

/-- What the machine code has no form for. -/
inductive Unsupported where
  | assignmentTarget
  | floatLiteral
  | floatArithmetic
  | nestedDeclaration
  | unary (op : UnaryOp)
  | packedIndex
  | dynamicIndex
  | access
  deriving DecidableEq, Repr

def Unsupported.render : Unsupported → String
  | .assignmentTarget => "assignment to a non-identifier"
  | .floatLiteral => "float literal"
  | .floatArithmetic => "float arithmetic"
  | .nestedDeclaration => "nested declaration"
  | .unary op => "prefix '" ++ op.render ++ "'"
  | .packedIndex => "indexing a packed array"
  | .dynamicIndex => "dynamic index"
  | .access => "access of a non-variable"

inductive CompileError where
  | semantic (cause : SemanticError)
  | instructionOverflow (count : Nat)
  | literalTooLarge (length capacity : Nat) (span : Span)
  | registerOverflow (overflow : RegisterOverflow)
  | unsupported (what : Unsupported) (span : Span)
  | divisionByZero (span : Span)
  | indexOutOfBounds (index : Int32) (count : Nat) (span : Span)
  deriving DecidableEq, Repr

namespace CompileError

def message : CompileError → String
  | .semantic cause => cause.message
  | .instructionOverflow count =>
    "program has " ++ toString count ++ " instructions, the limit is 65534"
  | .literalTooLarge length capacity _ =>
    "string of length " ++ toString length ++ " does not fit in a char array of " ++
      toString capacity
  | .registerOverflow overflow => overflow.message
  | .unsupported what _ => "unsupported expression: " ++ what.render
  | .divisionByZero _ => "division by zero in constant expression"
  | .indexOutOfBounds index count _ =>
    "index " ++ toString index.toInt ++ " is out of bounds for an array of " ++ toString count

def span? : CompileError → Option Span
  | .semantic cause => some cause.span
  | .instructionOverflow _ => none
  | .literalTooLarge _ _ span => some span
  | .registerOverflow _ => none
  | .unsupported _ span => some span
  | .divisionByZero span => some span
  | .indexOutOfBounds _ _ span => some span

end CompileError

end WindowedClosures
