import WindowedClosures.Decimal.Shortest
import WindowedClosures.Expr.Operator
import WindowedClosures.Expr.TypeExpr
import WindowedClosures.Text.Columns

/-!
# Expressions

The language has no separate statements: declarations are expressions that have a meaning only at
the top of a scope. Every node carries its span. A function literal does not own its body; the
body is the scope it points to.
-/

namespace WindowedClosures

/-- The place of a scope in its tree; the program is scope 0. -/
abbrev ScopeId := Nat

/-- A function literal. Its number is 0 until the literals of the program are numbered. -/
structure FunctionLiteral where
  id : Nat
  labels : List String
  scope : ScopeId
  deriving DecidableEq, Repr

inductive Expr where
  | int (value : Int32) (span : Span)
  | hex (value : UInt32) (span : Span)
  | float (value : Binary32) (span : Span)
  | text (value : String) (span : Span)
  | name (value : String) (span : Span)
  | tuple (fields : List (Labelled Expr)) (span : Span)
  | typeDecl (name : String) (type : TypeExpr) (span : Span)
  | varDecl (name : String) (type : TypeExpr) (value : Expr) (span : Span)
  | function (literal : FunctionLiteral) (span : Span)
  | binary (op : BinaryOp) (lhs rhs : Expr) (span : Span)
  | unary (op : UnaryOp) (operand : Expr) (span : Span)
  deriving Repr

namespace Expr

instance : Inhabited Expr := ⟨.tuple [] .zero⟩

def span : Expr → Span
  | .int _ span => span
  | .hex _ span => span
  | .float _ span => span
  | .text _ span => span
  | .name _ span => span
  | .tuple _ span => span
  | .typeDecl _ _ span => span
  | .varDecl _ _ _ span => span
  | .function _ span => span
  | .binary _ _ _ span => span
  | .unary _ _ span => span

/-- A binary node over the span of both operands. -/
def ofOperands (op : BinaryOp) (lhs rhs : Expr) : Expr :=
  .binary op lhs rhs (lhs.span.merge rhs.span)

/-- The name, if the expression is only that. -/
def asName? : Expr → Option String
  | .name value _ => some value
  | _ => none

/-- The expression inside redundant parentheses: a tuple of one field without a label stands for
the field. -/
def unwrapped : Expr → Expr
  | .tuple [⟨none, value⟩] _ => value.unwrapped
  | e => e

/-- The function literal, if the expression is only that. -/
def asFunction? : Expr → Option FunctionLiteral
  | .function literal _ => some literal
  | _ => none

mutual

/-- The expression as it is written. Operators stand in parentheses, and the body of a function
literal is named by its number. -/
def render : Expr → String
  | .int value _ => toString value.toInt
  | .hex value _ => "0x" ++ Text.hexDigits value.toNat
  | .float value _ => value.render
  | .text value _ => "\"" ++ value ++ "\""
  | .name value _ => value
  | .tuple fields _ => Labelled.renderTuple (renderFields fields)
  | .typeDecl declared type _ => ": " ++ declared ++ " = " ++ type.render
  | .varDecl declared type value _ =>
    "[ " ++ declared ++ ": " ++ type.render ++ " = " ++ value.render
  | .function literal _ =>
    "\\" ++ ", ".intercalate literal.labels ++ " > \x7bfn " ++ toString literal.id ++ "\x7d"
  | .binary op lhs rhs _ =>
    match op with
    | .call => lhs.render ++ rhs.render
    | .field => lhs.render ++ "." ++ rhs.render
    | .index => lhs.render ++ "[" ++ rhs.render ++ "]"
    | .assign => lhs.render ++ " = " ++ rhs.render
    | op => "(" ++ lhs.render ++ " " ++ op.render ++ " " ++ rhs.render ++ ")"
  | .unary op operand _ => op.render ++ operand.render

def renderFields : List (Labelled Expr) → List String
  | [] => []
  | ⟨label, value⟩ :: rest => Labelled.render label value.render :: renderFields rest

end

@[simp] theorem unwrapped_parens (value : Expr) (span : Span) :
    (Expr.tuple [⟨none, value⟩] span).unwrapped = value.unwrapped := by
  rw [unwrapped]

end Expr

end WindowedClosures
