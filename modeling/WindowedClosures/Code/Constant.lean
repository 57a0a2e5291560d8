import WindowedClosures.Code.Error
import WindowedClosures.Expr.Basic

/-!
# Constant expressions

The value of an expression made of integer literals, negation and arithmetic. Arithmetic wraps
around as it does on the machine; a division by zero is a fault wherever it stands.
-/

namespace WindowedClosures

/-- Arithmetic on words; division by zero has no value. -/
def Arithmetic.eval? (op : Arithmetic) (a b : Int32) : Option Int32 :=
  match op with
  | .add => some (a + b)
  | .sub => some (a - b)
  | .mul => some (a * b)
  | .div => if b = 0 then none else some (a / b)
  | .mod => if b = 0 then none else some (a % b)

/-- The value of an expression, if it is constant. -/
def Expr.constant? : Expr → Except CompileError (Option Int32)
  | .int value _ => .ok (some value)
  | .hex value _ => .ok (some value.toInt32)
  | .tuple [⟨none, value⟩] _ => value.constant?
  | .unary .neg operand _ => do
    let value ← operand.constant?
    .ok (value.map fun n => -n)
  | .binary (.arithmetic op) lhs rhs span => do
    let a ← lhs.constant?
    let b ← rhs.constant?
    match a, b with
    | some a, some b =>
      match op.eval? a b with
      | some value => .ok (some value)
      | none => .error (.divisionByZero span)
    | _, _ => .ok none
  | _ => .ok none

end WindowedClosures
