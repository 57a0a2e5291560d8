import WindowedClosures.Text.Span
import WindowedClosures.Token.Lexeme

/-!
# Token trees

A token is a lexeme or a bracket group that owns the tokens between its brackets, so a reader of
tokens never meets a bare brace or parenthesis. Each token knows its span and the line it starts
on, counted from one; a group's span runs from its opening to its closing bracket.
-/

namespace WindowedClosures

inductive Token where
  | leaf (lexeme : Lexeme) (span : Span) (line : Nat)
  | group (bracket : Bracket) (children : List Token) (span : Span) (line : Nat)
  deriving Repr

namespace Token

def span : Token → Span
  | .leaf _ span _ => span
  | .group _ _ span _ => span

def line : Token → Nat
  | .leaf _ _ line => line
  | .group _ _ _ line => line

/-- Whether the token is this symbol. -/
def isSymbol (symbol : Symbol) : Token → Bool
  | .leaf (.symbol s) _ _ => s == symbol
  | _ => false

def isComment : Token → Bool
  | .leaf lexeme _ _ => lexeme.isComment
  | .group .. => false

mutual

/-- The number of tokens in a tree, the group itself included. -/
def weight : Token → Nat
  | .leaf .. => 1
  | .group _ children _ _ => 1 + weightAll children

def weightAll : List Token → Nat
  | [] => 0
  | t :: rest => t.weight + weightAll rest

end

theorem weight_pos (t : Token) : 0 < t.weight := by
  cases t <;> simp only [weight] <;> omega

mutual

/-- The token as it would be written, with one blank between neighbours. -/
def render : Token → String
  | .leaf lexeme _ _ => lexeme.render
  | .group bracket children _ _ =>
    (Symbol.opening bracket).render ++ " ".intercalate (renderAll children) ++
      (Symbol.closing bracket).render

def renderAll : List Token → List String
  | [] => []
  | t :: rest => t.render :: renderAll rest

end

/-- A run of tokens as it would be written. -/
def describe (tokens : List Token) : String := " ".intercalate (renderAll tokens)

mutual

/-- A token without the comments inside it. -/
def stripped : Token → Token
  | .leaf lexeme span line => .leaf lexeme span line
  | .group bracket children span line => .group bracket (stripComments children) span line

/-- Tokens without comments, at every depth. -/
def stripComments : List Token → List Token
  | [] => []
  | t :: rest => if t.isComment then stripComments rest else t.stripped :: stripComments rest

end

/-- The span from the first to the last token of a run. -/
def spanOf? (tokens : List Token) : Option Span :=
  match tokens.head?, tokens.getLast? with
  | some a, some b => some (a.span.merge b.span)
  | _, _ => none

/-- Where a run of tokens ends. -/
def stopOf (tokens : List Token) : Nat := (tokens.getLast?.map (·.span.stop)).getD 0

/-- The runs between the tokens that satisfy `p`; a run may be empty, and there is always one. -/
def splitWhere (p : Token → Bool) : List Token → List (List Token)
  | [] => [[]]
  | t :: rest =>
    if p t then [] :: splitWhere p rest
    else
      match splitWhere p rest with
      | [] => [[t]]
      | run :: runs => (t :: run) :: runs

theorem splitWhere_ne_nil (p : Token → Bool) (tokens : List Token) : splitWhere p tokens ≠ [] := by
  cases tokens with
  | nil => simp [splitWhere]
  | cons t rest =>
    simp only [splitWhere]
    split
    · simp
    · split <;> simp

end Token

end WindowedClosures
