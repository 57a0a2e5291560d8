import WindowedClosures.Labelled

/-!
# Types and their footprint

Types are structural. A declared name is an alias that is kept for display only; two types are
compared after aliases and redundant one-field tuples are removed at every depth. The footprint of
a type is counted in registers of 32 bits: characters of an array are packed four to a register,
truth values of an array 32 to a register.
-/

namespace WindowedClosures

inductive Ty where
  | int | float | char | bool | void
  /-- A declared alias. -/
  | named (name : String) (target : Ty)
  | array (elem : Ty) (count : Nat)
  | tuple (fields : List (Labelled Ty))
  | pointer (inner : Ty)
  | function (input output : Ty)
  deriving Repr

namespace Ty

instance : Inhabited Ty := ⟨.void⟩

/-- Look through aliases and one-field tuples without a label, at the top only. -/
def resolved : Ty → Ty
  | .named _ target => target.resolved
  | .tuple [⟨none, value⟩] => value.resolved
  | ty => ty

/-- Whether an array of these elements packs several into a register. -/
def isPacked (elem : Ty) : Bool :=
  match elem.resolved with
  | .char | .bool => true
  | _ => false

mutual

/-- The number of registers a value takes, as a natural number; `counted` is it within 64 bits. -/
def size : Ty → Nat
  | .int | .float | .char | .bool => 1
  | .pointer _ | .function _ _ => 1
  | .void => 0
  | .named _ target => target.size
  | .array elem count =>
    match elem.resolved with
    | .char => (count + 3) / 4
    | .bool => (count + 31) / 32
    | _ => elem.size * count
  | .tuple fields => sizeFields fields

def sizeFields : List (Labelled Ty) → Nat
  | [] => 0
  | ⟨_, value⟩ :: rest => value.size + sizeFields rest

end

mutual

/-- The type with every alias and every redundant tuple removed. -/
def normalized : Ty → Ty
  | .named _ target => target.normalized
  | .tuple [⟨none, value⟩] => value.normalized
  | .tuple fields => .tuple (normalizedFields fields)
  | .array elem count => .array elem.normalized count
  | .pointer inner => .pointer inner.normalized
  | .function input output => .function input.normalized output.normalized
  | .int => .int
  | .float => .float
  | .char => .char
  | .bool => .bool
  | .void => .void

def normalizedFields : List (Labelled Ty) → List (Labelled Ty)
  | [] => []
  | ⟨label, value⟩ :: rest => ⟨label, value.normalized⟩ :: normalizedFields rest

end

mutual

/-- Structural equality, aliases not removed. -/
def beq : Ty → Ty → Bool
  | .int, .int | .float, .float | .char, .char | .bool, .bool | .void, .void => true
  | .named n a, .named m b => n == m && beq a b
  | .array a n, .array b m => n == m && beq a b
  | .tuple a, .tuple b => beqFields a b
  | .pointer a, .pointer b => beq a b
  | .function a c, .function b d => beq a b && beq c d
  | _, _ => false

def beqFields : List (Labelled Ty) → List (Labelled Ty) → Bool
  | [], [] => true
  | ⟨l, a⟩ :: as, ⟨m, b⟩ :: bs => l == m && beq a b && beqFields as bs
  | _, _ => false

end

mutual

theorem beq_iff : ∀ a b : Ty, beq a b = true ↔ a = b
  | .int, b => by cases b <;> simp [beq]
  | .float, b => by cases b <;> simp [beq]
  | .char, b => by cases b <;> simp [beq]
  | .bool, b => by cases b <;> simp [beq]
  | .void, b => by cases b <;> simp [beq]
  | .named n a, b => by cases b <;> simp [beq, beq_iff a]
  | .array a n, b => by cases b <;> simp [beq, beq_iff a, and_comm]
  | .tuple fields, b => by cases b <;> simp [beq, beqFields_iff fields]
  | .pointer a, b => by cases b <;> simp [beq, beq_iff a]
  | .function a c, b => by cases b <;> simp [beq, beq_iff a, beq_iff c]

theorem beqFields_iff : ∀ a b : List (Labelled Ty), beqFields a b = true ↔ a = b
  | [], b => by cases b <;> simp [beqFields]
  | ⟨l, a⟩ :: as, [] => by simp [beqFields]
  | ⟨l, a⟩ :: as, ⟨m, b⟩ :: bs => by simp [beqFields, beq_iff a, beqFields_iff as]

end

instance : DecidableEq Ty := fun a b => decidable_of_iff _ (beq_iff a b)

/-- The same type once aliases and redundant tuples are removed. -/
def Matches (a b : Ty) : Prop := a.normalized = b.normalized

instance (a b : Ty) : Decidable (a.Matches b) := inferInstanceAs (Decidable (_ = _))

/-- A type without values that are needed. -/
def isVoid (ty : Ty) : Bool :=
  match ty.resolved with
  | .void => true
  | _ => false

/-- Values of one register that take part in integer arithmetic. -/
def isIntegral (ty : Ty) : Bool :=
  match ty.resolved with
  | .int | .char | .bool => true
  | _ => false

/-- The first field with a label among fields that start at a register offset. -/
def fieldFrom? (name : String) (offset : Nat) : List (Labelled Ty) → Option (Nat × Ty)
  | [] => none
  | ⟨label, value⟩ :: rest =>
    if label = some name then some (offset, value)
    else fieldFrom? name (offset + value.size) rest

/-- Offset and type of a labelled field of a tuple. -/
def field? (ty : Ty) (name : String) : Option (Nat × Ty) :=
  match ty.resolved with
  | .tuple fields => fieldFrom? name 0 fields
  | _ => none

def isFunction : Ty → Bool
  | .function .. => true
  | _ => false

mutual

/-- The type as messages show it. -/
def render : Ty → String
  | .int => "int"
  | .float => "float"
  | .char => "char"
  | .bool => "bool"
  | .void => "void"
  | .named name _ => name
  | .array elem count => elem.render ++ "[" ++ toString count ++ "]"
  | .pointer inner => "ptr<" ++ inner.render ++ ">"
  | .function input output =>
    (if input.isFunction then "(" ++ input.render ++ ")" else input.render) ++ " > " ++
      output.render
  | .tuple fields => Labelled.renderTuple (renderFields fields)

def renderFields : List (Labelled Ty) → List String
  | [] => []
  | ⟨label, value⟩ :: rest => Labelled.render label value.render :: renderFields rest

end

/-- The types every program starts with. -/
def builtins : List (String × Ty) :=
  [("int", .int), ("float", .float), ("char", .char), ("bool", .bool), ("void", .void)]

end Ty

end WindowedClosures
