import WindowedClosures.Code.Error
import WindowedClosures.Grammar.Error
import WindowedClosures.Machine.Halt
import WindowedClosures.Scope.Error
import WindowedClosures.Token.Error

/-!
# Diagnostics

Any fault on the way from a source text to a finished run, with the place it points at and the
activity it interrupted.
-/

namespace WindowedClosures

inductive Diagnostic where
  | lex (cause : LexError)
  | parse (cause : ParseError)
  | semantic (cause : SemanticError)
  | compile (cause : CompileError)
  | runtime (cause : RuntimeError)
  deriving DecidableEq, Repr

namespace Diagnostic

def message : Diagnostic → String
  | .lex cause => cause.message
  | .parse cause => cause.message
  | .semantic cause => cause.message
  | .compile cause => cause.message
  | .runtime cause => cause.message

/-- The place of the fault, where it has one. -/
def span? : Diagnostic → Option Span
  | .lex cause => some cause.span
  | .parse cause => some cause.span
  | .semantic cause => some cause.span
  | .compile cause => cause.span?
  | .runtime _ => none

/-- The place to underline: the start of the text where the fault has none. -/
def mark (d : Diagnostic) : Span := d.span?.getD .zero

/-- What was going on. -/
def activity : Diagnostic → String
  | .lex _ => "while tokenizing"
  | .parse _ => "while parsing"
  | .semantic _ => "while resolving"
  | .compile _ => "while generating code"
  | .runtime _ => "while running"

end Diagnostic

end WindowedClosures
