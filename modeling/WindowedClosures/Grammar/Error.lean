import WindowedClosures.Text.Span

/-!
# Faults of grammar

Why tokens are no program. A fault shows the tokens it stands before.
-/

namespace WindowedClosures

inductive ParseError where
  | expected (what found : String) (span : Span)
  | invalidPrimary (found : String) (span : Span)
  | invalidField (field : String) (span : Span)
  | invalidType (tokens : String) (span : Span)
  | trailing (rest : String) (span : Span)
  deriving DecidableEq, Repr

namespace ParseError

def message : ParseError → String
  | .expected what found _ => "expected " ++ what ++ ", found " ++ found
  | .invalidPrimary found _ => "invalid primary expression at " ++ found
  | .invalidField field _ => "invalid tuple field '" ++ field ++ "'"
  | .invalidType tokens _ => "invalid type expression '" ++ tokens ++ "'"
  | .trailing rest _ => "unexpected tokens after statement: " ++ rest

def span : ParseError → Span
  | .expected _ _ span => span
  | .invalidPrimary _ span => span
  | .invalidField _ span => span
  | .invalidType _ span => span
  | .trailing _ span => span

end ParseError

end WindowedClosures
