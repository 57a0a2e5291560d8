import WindowedClosures.Grammar.Cursor
import WindowedClosures.Grammar.Types

/-!
# The grammar of expressions

Binary operators bind by their power, the higher the tighter; equal operators group to the left or
to the right. Below all of them stands an assignment to a name. An operand is a primary expression
with unary operators in front and argument tuples, fields and indices behind.

```text
  1  #                 right          6  + -               left
  2  |                 left           7  * / %             left
  3  &                 left           8  •                 right
  4  == !=             left           9  ?                 right
  5  < <= > >=         left
```

Each reader takes the reader of nested expressions, `self`. A nested expression starts behind at
least one more token, so as many levels as there are tokens are enough; the number of levels that
are left also bounds the loops over the tokens of one run.
-/

namespace WindowedClosures.Grammar

inductive Grouping where
  | left | right
  deriving DecidableEq, Repr

/-- A binary operator with its power and grouping. -/
structure Binding where
  op : BinaryOp
  power : Nat
  grouping : Grouping
  deriving DecidableEq, Repr

/-- The least power that the right operand of an operator is read with. -/
def Binding.rightPower (b : Binding) : Nat :=
  match b.grouping with
  | .left => b.power + 1
  | .right => b.power

/-- The binary operator that a symbol stands for between operands. -/
def binding? : Symbol → Option Binding
  | .hash => some ⟨.apply, 1, .right⟩
  | .bar => some ⟨.connective .or, 2, .left⟩
  | .ampersand => some ⟨.connective .and, 3, .left⟩
  | .equalEqual => some ⟨.comparison .eq, 4, .left⟩
  | .bangEqual => some ⟨.comparison .ne, 4, .left⟩
  | .less => some ⟨.comparison .lt, 5, .left⟩
  | .lessEqual => some ⟨.comparison .le, 5, .left⟩
  | .greater => some ⟨.comparison .gt, 5, .left⟩
  | .greaterEqual => some ⟨.comparison .ge, 5, .left⟩
  | .plus => some ⟨.arithmetic .add, 6, .left⟩
  | .minus => some ⟨.arithmetic .sub, 6, .left⟩
  | .star => some ⟨.arithmetic .mul, 7, .left⟩
  | .slash => some ⟨.arithmetic .div, 7, .left⟩
  | .percent => some ⟨.arithmetic .mod, 7, .left⟩
  | .bullet => some ⟨.compose, 8, .right⟩
  | .question => some ⟨.choose, 9, .right⟩
  | _ => none

/-- The unary operator that a symbol stands for in front of an operand. -/
def unary? : Symbol → Option UnaryOp
  | .star => some .deref
  | .ampersand => some .ref
  | .bang => some .not
  | .minus => some .neg
  | _ => none

/-- Extend a left operand by operators of at least a power. The right operand of an operator is
an operand extended by tighter operators. -/
def climb (operand : Reader Expr) : Nat → Nat → Expr → Reader Expr
  | 0, _, lhs => return lhs
  | fuel + 1, power, lhs => do
    match (← peekSymbol?).bind binding? with
    | none => return lhs
    | some b =>
      if b.power < power then return lhs
      else
        advance
        let rhs ← climb operand fuel b.rightPower (← operand)
        climb operand fuel power (.ofOperands b.op lhs rhs)

/-- One whole expression from a field's tokens, in a tuple of a span. -/
def wholeExpression (self : Reader Expr) (tokens : List Token) (span : Span) : Reader Expr :=
  if tokens.isEmpty then throw (.invalidPrimary "empty tuple field" span)
  else within tokens do
    let e ← self
    expectEnd
    return e

/-- A field of a tuple, with or without a label. -/
def field (self : Reader Expr) (span : Span) (tokens : List Token) :
    Reader (Labelled Expr) := do
  let isColon := Token.isSymbol .colon
  match tokens with
  | .leaf (.name label) _ _ :: .leaf (.symbol .colon) _ _ :: first :: rest =>
    if (first :: rest).any isColon then
      throw (.invalidField (Token.describe tokens) ((Token.spanOf? tokens).getD span))
    else return ⟨some label, ← wholeExpression self (first :: rest) span⟩
  | _ =>
    if tokens.any isColon then
      throw (.invalidField (Token.describe tokens) ((Token.spanOf? tokens).getD span))
    else return ⟨none, ← wholeExpression self tokens span⟩

/-- The fields of a tuple with these tokens between its parentheses. -/
def fields (self : Reader Expr) (children : List Token) (span : Span) :
    Reader (List (Labelled Expr)) :=
  if children.isEmpty then return []
  else (Token.splitWhere (Token.isSymbol .comma) children).mapM (field self span)

/-- The tuple with these tokens between its parentheses. -/
def tuple (self : Reader Expr) (children : List Token) (span : Span) : Reader Expr := do
  return .tuple (← fields self children span) span

/-- Argument tuples, fields and indices behind an expression. -/
def suffixes (self : Reader Expr) : Nat → Expr → Reader Expr
  | 0, e => return e
  | fuel + 1, e => do
    match ← unread with
    | .group .paren children span _ :: _ =>
      advance
      let args ← tuple self children span
      suffixes self fuel (.ofOperands .call e args)
    | .leaf (.symbol .dot) _ _ :: _ =>
      advance
      let (name, span) ← expectName
      suffixes self fuel (.ofOperands .field e (.name name span))
    | .leaf (.symbol .leftSquare) _ _ :: _ =>
      advance
      let position ← self
      let closing ← expect .rightSquare "']' after index"
      suffixes self fuel (.binary .index e position (e.span.merge closing))
    | _ => return e

/-- A declaration of a variable, from its square bracket on. -/
def varDeclaration (self : Reader Expr) : Reader Expr := do
  let start ← expect .leftSquare "'['"
  let (name, _) ← expectName
  let _ ← expect .colon "':' after variable name"
  let type ← MonadExcept.ofExcept (typeExpr (← takeUntil .equal))
  let _ ← expect .equal "'=' in variable declaration"
  let value ← self
  return .varDecl name type value (start.merge value.span)

/-- A declaration of a type, from its colon on. -/
def typeDeclaration : Reader Expr := do
  let start ← expect .colon "':'"
  let (name, _) ← expectName
  let _ ← expect .equal "'=' in type declaration"
  let type ← MonadExcept.ofExcept (typeExpr (← takeUntil .semicolon))
  return .typeDecl name type (start.merge type.span)

def statement (self : Reader Expr) : Reader Expr := do
  match ← peekSymbol? with
  | some .leftSquare => varDeclaration self
  | some .colon => typeDeclaration
  | _ => self

/-- Statements separated by semicolons, up to the end of the run; the ones read already are given
in reverse. A semicolon may stand behind the last. -/
def statementsFrom (self : Reader Expr) : Nat → List Expr → Reader (List Expr)
  | 0, found => do
    expectEnd
    return found.reverse
  | fuel + 1, found => do
    if (← unread).isEmpty then return found.reverse
    else
      let stmt ← statement self
      if ← accept .semicolon then statementsFrom self fuel (stmt :: found)
      else
        expectEnd
        return (stmt :: found).reverse

/-- Further labels of a function literal, each behind a comma. -/
def moreLabels : Nat → Reader (List String)
  | 0 => return []
  | fuel + 1 => do
    if ← accept .comma then
      let (name, _) ← expectName
      return name :: (← moreLabels fuel)
    else return []

/-- The labels of a function literal, of which there may be none. -/
def labels (fuel : Nat) : Reader (List String) := do
  match ← unread with
  | .leaf (.name name) _ _ :: _ =>
    advance
    return name :: (← moreLabels fuel)
  | _ => return []

/-- The statements of a function literal and where they stand: a block or one expression. -/
def literalBody (self : Reader Expr) (fuel : Nat) : Reader (List Expr × Span) := do
  match ← unread with
  | .group .brace children span _ :: _ =>
    advance
    return (← within children (statementsFrom self fuel []), span)
  | _ =>
    let e ← self
    return ([e], e.span)

/-- A function literal from its labels on. -/
def functionLiteral (self : Reader Expr) (fuel : Nat) (start : Span) : Reader Expr := do
  let labels ← labels fuel
  let _ ← expect .greater "'>' after lambda labels"
  let (body, stop) ← literalBody self fuel
  let span := start.merge stop
  let scope ← allocate (.fresh .literal labels body span)
  return .function ⟨0, labels, scope⟩ span

/-- A literal, a name, a tuple or a function literal. -/
def primary (self : Reader Expr) (fuel : Nat) : Reader Expr := do
  let c ← get
  match c.rest with
  | .leaf (.int value) span _ :: _ => do advance; return .int value span
  | .leaf (.hex value) span _ :: _ => do advance; return .hex value span
  | .leaf (.float value) span _ :: _ => do advance; return .float value span
  | .leaf (.text value) span _ :: _ => do advance; return .text value span
  | .leaf (.name value) span _ :: _ => do advance; return .name value span
  | .group .paren children span _ :: _ => do advance; tuple self children span
  | .leaf (.symbol .backslash) span _ :: _ => do advance; functionLiteral self fuel span
  | _ => throw (.invalidPrimary c.describe c.here)

/-- A primary expression with what stands behind it. -/
def suffixed (self : Reader Expr) (fuel : Nat) : Reader Expr := do
  suffixes self fuel (← primary self fuel)

/-- An operand with the unary operators in front of it, of which as many are read as the last
argument allows. -/
def operandFrom (self : Reader Expr) (fuel : Nat) : Nat → Reader Expr
  | 0 => suffixed self fuel
  | signs + 1 => do
    match (← peekSymbol?).bind unary? with
    | some op =>
      let start ← here
      advance
      let e ← operandFrom self fuel signs
      return .unary op e (start.merge e.span)
    | none => suffixed self fuel

def operand (self : Reader Expr) (fuel : Nat) : Reader Expr := operandFrom self fuel fuel

/-- An expression without an assignment at its top. -/
def operators (self : Reader Expr) (fuel : Nat) : Reader Expr := do
  climb (operand self fuel) fuel 1 (← operand self fuel)

/-- An expression. A name in front of an equal sign is assigned to if an expression follows;
otherwise the name is read as an operand. -/
def expressionWith (self : Reader Expr) (fuel : Nat) : Reader Expr := do
  let start ← get
  match start.rest with
  | .leaf (.name target) span _ :: .leaf (.symbol .equal) _ _ :: rest =>
    set { start with rest := rest }
    tryCatch
      (do return .ofOperands .assign (.name target span) (← self))
      (fun _ => do
        set start
        operators self fuel)
  | _ => operators self fuel

/-- An expression with so many levels of nested expressions. -/
def expressionAt : Nat → Reader Expr
  | 0 => do
    let c ← get
    throw (.invalidPrimary c.describe c.here)
  | fuel + 1 => expressionWith (expressionAt fuel) fuel

/-- Read a whole run of tokens as statements, adding function bodies to a tree. The tree comes back
also when the tokens are no statements. -/
def readStatements (tokens : List Token) (tree : ScopeTree) :
    Except ParseError (List Expr) × ScopeTree :=
  let levels := Token.weightAll tokens
  match (statementsFrom (expressionAt (levels + 1)) levels []).run (.start tokens tree) with
  | .ok stmts c => (.ok stmts, c.tree)
  | .error e c => (.error e, c.tree)

/-- The scope tree of a program, nothing of which is resolved yet. -/
def readProgram (tokens : List Token) : Except ParseError ScopeTree := do
  let (stmts, tree) := readStatements tokens .empty
  let stmts ← stmts
  .ok (tree.modify ScopeTree.rootId fun root =>
    { root with body := stmts, span := (Token.spanOf? tokens).getD .zero })

end WindowedClosures.Grammar
