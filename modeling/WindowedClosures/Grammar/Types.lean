import WindowedClosures.Expr.TypeExpr
import WindowedClosures.Grammar.Error
import WindowedClosures.Token.Basic

/-!
# The grammar of types

A type is a name, a name and a count for an array, a type and a star for a pointer, or a
parenthesised list of fields with optional labels. The sign `>` makes function types and associates
to the right. Every part of a type has fewer tokens than the whole, so as many levels as there are
tokens are enough.
-/

namespace WindowedClosures.Grammar

/-- Function types from the types between the signs, the last of them the result. -/
def arrowChain : List TypeExpr → TypeExpr → TypeExpr
  | [], result => result
  | input :: rest, result =>
    let output := arrowChain rest result
    .function input output (input.span.merge output.span)

/-- The type of a run that is none. -/
def invalidType (tokens : List Token) : ParseError :=
  .invalidType (Token.describe tokens) ((Token.spanOf? tokens).getD .zero)

/-- A run without the star at its end, if something is left. -/
def withoutStar? (tokens : List Token) : Option (List Token) :=
  match tokens.getLast? with
  | some star =>
    if star.isSymbol .star && 1 < tokens.length then some tokens.dropLast else none
  | none => none

/-- A type without `>` at its top, given how to read its parts. -/
def simpleType (self : List Token → Except ParseError TypeExpr) (tokens : List Token) :
    Except ParseError TypeExpr :=
  match Token.spanOf? tokens with
  | none => .error (invalidType tokens)
  | some span =>
    match tokens with
    | [.leaf (.name name) _ _] => .ok (.named name span)
    | [.leaf (.name name) here _, .leaf (.int count) _ _] =>
      if 0 ≤ count.toInt then .ok (.array (.named name here) count.toInt.toNat span)
      else .error (invalidType tokens)
    | _ =>
      match withoutStar? tokens, tokens with
      | some inner, _ => do
        let inner ← self inner
        .ok (.pointer inner span)
      | none, [.group .paren children _ _] => do
        let fields ←
          if children.isEmpty then .ok []
          else (Token.splitWhere (Token.isSymbol .comma) children).mapM field
        .ok (.tuple fields span)
      | none, _ => .error (invalidType tokens)
where
  /-- A field of a tuple type, with or without a label. -/
  field (tokens : List Token) : Except ParseError (Labelled TypeExpr) :=
    match tokens with
    | .leaf (.name name) _ _ :: .leaf (.symbol .colon) _ _ :: first :: rest => do
      let type ← self (first :: rest)
      .ok ⟨some name, type⟩
    | _ => do
      let type ← self tokens
      .ok ⟨none, type⟩

/-- The type that a run of tokens denotes, through so many levels of parts. -/
def typeExprAt : Nat → List Token → Except ParseError TypeExpr
  | 0, tokens => .error (invalidType tokens)
  | fuel + 1, tokens =>
    match Token.splitWhere (Token.isSymbol .greater) tokens with
    | [] | [_] => simpleType (typeExprAt fuel) tokens
    | runs => do
      let types ← runs.mapM (typeExprAt fuel)
      match types.getLast? with
      | some result => .ok (arrowChain types.dropLast result)
      | none => .error (invalidType tokens)

/-- The type that a run of tokens denotes. -/
def typeExpr (tokens : List Token) : Except ParseError TypeExpr :=
  typeExprAt (Token.weightAll tokens + 1) tokens

end WindowedClosures.Grammar
