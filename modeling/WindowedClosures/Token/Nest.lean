import WindowedClosures.Token.Scan

/-!
# Bracket groups

A flat list of lexemes becomes a list of token trees: first every balanced pair of braces becomes
a group, then, inside each group and between them, every balanced pair of parentheses. Crossing
pairs are refused because parentheses are matched within one brace group only.
-/

namespace WindowedClosures

/-- A group whose closing bracket has not come yet; its children in reverse. -/
structure OpenGroup where
  span : Span
  line : Nat
  children : List Token

/-- Add a token to the innermost open group, or to the finished tokens. -/
def pushToken (t : Token) : List OpenGroup → List Token → List OpenGroup × List Token
  | [], out => ([], t :: out)
  | g :: groups, out => (⟨g.span, g.line, t :: g.children⟩ :: groups, out)

/-- Match one kind of bracket, with the open groups innermost first and the finished tokens in
reverse. -/
def groupFrom (bracket : Bracket) (groups : List OpenGroup) (out : List Token) :
    List Token → Except LexError (List Token)
  | [] =>
    match groups with
    | [] => .ok out.reverse
    | g :: _ => .error (.unbalancedBracket (.opening bracket) g.line g.span)
  | t :: rest =>
    if t.isSymbol (.opening bracket) then groupFrom bracket (⟨t.span, t.line, []⟩ :: groups) out rest
    else if t.isSymbol (.closing bracket) then
      match groups with
      | [] => .error (.unbalancedBracket (.closing bracket) t.line t.span)
      | g :: groups =>
        let whole := Token.group bracket g.children.reverse (g.span.merge t.span) g.line
        let (groups, out) := pushToken whole groups out
        groupFrom bracket groups out rest
    else
      let (groups, out) := pushToken t groups out
      groupFrom bracket groups out rest

/-- Replace every balanced pair of one kind of bracket by a group. -/
def group (bracket : Bracket) (tokens : List Token) : Except LexError (List Token) :=
  groupFrom bracket [] [] tokens

mutual

/-- Match the parentheses inside a brace group. -/
def Token.nestParens : Token → Except LexError Token
  | .leaf lexeme span line => .ok (.leaf lexeme span line)
  | .group bracket children span line => do
    let children ← group .paren (← nestParensAll children)
    .ok (.group bracket children span line)

def nestParensAll : List Token → Except LexError (List Token)
  | [] => .ok []
  | t :: rest => do
    let t ← t.nestParens
    let rest ← nestParensAll rest
    .ok (t :: rest)

end

/-- Token trees of a flat list: braces first, then parentheses. -/
def nest (tokens : List Token) : Except LexError (List Token) := do
  let braced ← group .brace tokens
  group .paren (← nestParensAll braced)

/-- The token trees of a source text, comments kept. -/
def tokenize (source : String) : Except LexError (List Token) := do
  nest (← scan source)

end WindowedClosures
