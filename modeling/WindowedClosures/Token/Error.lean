import WindowedClosures.Text.Span
import WindowedClosures.Token.Lexeme

/-!
# Faults of a source text

Why a text cannot be read as tokens. A fault inside a line says how many lexemes were read before
it.
-/

namespace WindowedClosures

/-- The number literals that have a largest value. -/
inductive BoundedNumber where
  | hex | int
  deriving DecidableEq, Repr

def BoundedNumber.render : BoundedNumber → String
  | .hex => "hex"
  | .int => "int"

inductive LexError where
  /-- A number without digits or beyond 32 bits. -/
  | literal (number : BoundedNumber) (written : String) (line index : Nat) (span : Span)
  | unterminatedString (line index : Nat) (span : Span)
  | unexpectedChar (char : Char) (line index : Nat) (span : Span)
  /-- A bracket without its partner. -/
  | unbalancedBracket (bracket : Symbol) (line : Nat) (span : Span)
  deriving DecidableEq, Repr

namespace LexError

def message : LexError → String
  | .literal number written line index _ =>
    "unterminated " ++ number.render ++ " literal '" ++ written ++ "' at line " ++ toString line ++
      ", token " ++ toString index
  | .unterminatedString line index _ =>
    "unterminated string literal at line " ++ toString line ++ ", token " ++ toString index
  | .unexpectedChar char line index _ =>
    "unrecognised character '" ++ char.toString ++ "' at line " ++ toString line ++ ", token " ++
      toString index
  | .unbalancedBracket bracket line _ =>
    "unbalanced '" ++ bracket.render ++ "' at line " ++ toString line

def span : LexError → Span
  | .literal _ _ _ _ span => span
  | .unterminatedString _ _ span => span
  | .unexpectedChar _ _ _ span => span
  | .unbalancedBracket _ _ span => span

end LexError

end WindowedClosures
