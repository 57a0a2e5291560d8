import WindowedClosures.Code.Register
import WindowedClosures.Scope.Basic

/-!
# Counting registers

The size of a type is a natural number, but registers are counted in 64 bits. A size that does not
fit, or whose parts do not, is an overflow like an offset outside the window: no code is made for a
scope of such a size, and nothing is placed in a variable of such a type or with such an end. The
fields and elements of a variable lie inside it, so their offsets fit as well.
-/

namespace WindowedClosures

namespace Ty

mutual

/-- The size of a type, counted register by register. -/
def counted : Ty → Except RegisterOverflow Nat
  | .int | .float | .char | .bool => .ok 1
  | .pointer _ | .function _ _ => .ok 1
  | .void => .ok 0
  | .named _ target => target.counted
  | .array elem count =>
    match elem.resolved with
    | .char => do
      let bytes ← Register.counted (count + 3)
      .ok (bytes / 4)
    | .bool => do
      let bits ← Register.counted (count + 31)
      .ok (bits / 32)
    | _ => do
      let size ← elem.counted
      Register.counted (size * count)
  | .tuple fields => countedFields fields

def countedFields : List (Labelled Ty) → Except RegisterOverflow Nat
  | [] => .ok 0
  | ⟨_, value⟩ :: rest => do
    let size ← value.counted
    let behind ← countedFields rest
    Register.counted (size + behind)

end

example : (Ty.array (.array (.array (.array .int 65536) 65536) 65536) 65536).counted =
    .error ⟨18446744073709551616⟩ := rfl

end Ty

/-- The registers of a bank up to the end of a variable, counted. -/
def Variable.counted (v : Variable) : Except RegisterOverflow Nat := do
  let size ← v.ty.counted
  Register.counted (v.offset + size)

/-- The size of variables, counted. -/
def countedVariables : List Variable → Except RegisterOverflow Nat
  | [] => .ok 0
  | v :: rest => do
    let size ← v.ty.counted
    let behind ← countedVariables rest
    Register.counted (size + behind)

/-- The size of a scope, counted. -/
def Scope.counted (s : Scope) : Except RegisterOverflow Nat := do
  let own ← countedVariables s.vars
  let output ← s.arrow.output.counted
  Register.counted (own + output)

end WindowedClosures
