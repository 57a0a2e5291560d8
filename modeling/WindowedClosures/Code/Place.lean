import WindowedClosures.Code.Constant
import WindowedClosures.Code.Counting
import WindowedClosures.Scope.Infer

/-!
# Places

The registers that a variable, a field of it or a constant element of it occupy.
-/

namespace WindowedClosures

/-- The scope that code is made for. -/
structure Site where
  tree : ScopeTree
  id : ScopeId

namespace Site

def scope (s : Site) : Scope := s.tree.scope s.id

/-- A variable of the scope. -/
def lookup (s : Site) (name : String) (span : Span) : Except CompileError Variable :=
  match s.scope.local? name with
  | some v => .ok v
  | none => .error (.semantic (.unknownIdentifier name span))

/-- A register that has to exist, or a number of them that has to fit. -/
def inWindow {α : Type} (result : Except RegisterOverflow α) : Except CompileError α :=
  match result with
  | .ok a => .ok a
  | .error overflow => .error (.registerOverflow overflow)

/-- First register and type of a variable, a field or a constant element. -/
def place (s : Site) : Expr → Except CompileError (Register × Ty)
  | .name value span => do
    let v ← s.lookup value span
    -- where the end of the variable fits 64 bits, so does every offset into it
    let _ ← inWindow v.counted
    let r ← inWindow v.register
    .ok (r, v.ty)
  | .tuple [⟨none, value⟩] _ => s.place value
  | .binary .field lhs rhs span => do
    let (base, ty) ← s.place lhs
    let name := rhs.asName?.getD ""
    match ty.field? name with
    | none => .error (.semantic (.unknownIdentifier (lhs.render ++ "." ++ name) span))
    | some (offset, field) =>
      let r ← inWindow (base.shift offset)
      .ok (r, field)
  | .binary .index lhs rhs span => do
    let (base, ty) ← s.place lhs
    match ty.resolved with
    | .array elem count =>
      if elem.isPacked then .error (.unsupported .packedIndex span)
      else
        match ← rhs.constant? with
        | none => .error (.unsupported .dynamicIndex rhs.span)
        | some index =>
          if index < 0 ∨ (count : Int) ≤ index.toInt then
            .error (.indexOutOfBounds index count rhs.span)
          else
            let r ← inWindow (base.shift (index.toInt.toNat * elem.size))
            .ok (r, elem)
    | other => .error (.semantic (.typeMismatch "an array" other.render lhs.span))
  | e => .error (.unsupported .access e.span)

mutual

/-- Whether an expression names a variable that starts at a register. The name of a field counts
like any other. -/
def mentions (s : Site) (r : Register) : Expr → Bool
  | .name value _ =>
    match s.scope.local? value with
    | some v => v.register.toOption == some r
    | none => false
  | .tuple fields _ => s.mentionsField r fields
  | .binary _ lhs rhs _ => s.mentions r lhs || s.mentions r rhs
  | .unary _ operand _ => s.mentions r operand
  | _ => false

def mentionsField (s : Site) (r : Register) : List (Labelled Expr) → Bool
  | [] => false
  | ⟨_, value⟩ :: rest => s.mentions r value || s.mentionsField r rest

end

/-- A variable that takes part in integer arithmetic. -/
def checkIntegral (v : Variable) (span : Span) : Except CompileError Unit :=
  match v.ty.resolved with
  | .float => .error (.unsupported .floatArithmetic span)
  | ty =>
    if ty.isIntegral then .ok ()
    else .error (.semantic (.typeMismatch "int" ty.render span))

end Site

end WindowedClosures
