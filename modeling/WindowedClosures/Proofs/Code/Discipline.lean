import WindowedClosures.Code.Layout
import WindowedClosures.Proofs.Ty.Callables

/-!
# Programs that keep functions apart

Code is made for a value without asking whether it is one of the place it goes to: a number fits a
register that a function word is expected in, a variable can be read before it is set, and a number
for a place without registers comes to lie in the next one. A program keeps functions apart if
none of this touches a function: what is put where functions are expected is of that type, and the
variables it comes from have been set.
-/

namespace WindowedClosures

open Emit (slots? printBuffer)

/-- The variable that a variable, a field or an element belongs to. -/
def Expr.root? : Expr → Option String
  | .name value _ => some value
  | .tuple [⟨none, value⟩] _ => value.root?
  | .binary .field lhs _ _ => lhs.root?
  | .binary .index lhs _ _ => lhs.root?
  | _ => none

/-- The variable that a statement sets. -/
def Expr.sets? : Expr → Option String
  | .varDecl declared _ _ _ => some declared
  | .binary .assign target _ _ => target.asName?
  | _ => none

/-- Whether a number can go to a place of a type with so many registers. -/
def Ty.takesNumber (ty : Ty) (room : Nat) : Bool := !ty.hasFunctions && decide (0 < room)

/-- Whether a value of one type can be copied to a place of another, where the variable it belongs
to is set or not. -/
def Ty.takesCopy (ty source : Ty) (isSet : Bool) : Bool :=
  !ty.hasFunctions || decide (source.Matches ty) && isSet

namespace Site

/-- Whether a literal can be made where these variables are set, and its word go to a place. -/
def admitsLiteral (s : Site) (set : List String) (literal : FunctionLiteral) (ty : Ty) (room : Nat) :
    Bool :=
  let scope := s.tree.scope literal.scope
  scope.closure.all (fun v => !v.ty.hasFunctions || set.contains v.name) &&
    (ty.takesNumber room || decide (ty.arrow?.map (·.normalized) = some scope.arrow.normalized))

mutual

/-- Whether an expression can be put into so many registers for a type without touching a function,
given the variables that are set, and the variable that those registers belong to. -/
def admits (s : Site) (set : List String) (own : Option String) : Expr → Ty → Nat → Bool
  | .int .., ty, room => ty.takesNumber room
  | .hex .., ty, room => ty.takesNumber room
  | .name value _, ty, _ =>
    match s.scope.local? value with
    | some v => ty.takesCopy v.ty (set.contains value)
    | none => true
  | .tuple [⟨none, value⟩] _, ty, room => s.admits set own value ty room
  | .tuple fields _, ty, _ =>
    match slots? ty fields.length with
    | some slots => s.admitsFields set fields slots
    | none => true
  | .typeDecl .., ty, _ => !ty.hasFunctions
  | .function literal _, ty, room => s.admitsLiteral (own.toList ++ set) literal ty room
  | .unary _ operand _, ty, room => s.admits set none operand .int 1 && ty.takesNumber room
  | .binary op lhs rhs span, ty, room =>
    match op with
    | .call | .apply =>
      match lhs.unwrapped.asName? with
      | some name =>
        match s.scope.local? name with
        | some v =>
          match v.ty.arrow? with
          | some arrow => set.contains name && s.admits set none rhs arrow.input arrow.input.size
          | none => true
        | none => s.admits set none rhs printBuffer printBuffer.size && !ty.hasFunctions
      | none =>
        match s.tree.arrowOf s.id lhs.unwrapped with
        | .ok arrow =>
          s.admits set none lhs arrow.toTy 1 && s.admits set none rhs arrow.input arrow.input.size
        | .error _ => true
    | .arithmetic _ | .comparison _ | .connective _ =>
      s.admits set none lhs .int 1 && s.admits set none rhs .int 1 && ty.takesNumber room
    | .choose =>
      match rhs with
      | .tuple [⟨_, yes⟩, ⟨_, no⟩] _ =>
        match s.tree.arrowOf s.id yes with
        | .ok arrow =>
          s.admits set none lhs .int 1 && s.admits set none yes arrow.toTy 1 &&
            s.admits set none no arrow.toTy 1 && !arrow.input.hasFunctions
        | .error _ => true
      | _ => true
    | .field | .index =>
      match s.place (.binary op lhs rhs span) with
      | .ok (_, source) => ty.takesCopy source (lhs.root?.any set.contains)
      | .error _ => true
    | .assign =>
      match lhs.asName?.bind s.scope.local? with
      | some v => s.admits set lhs.asName? rhs v.ty v.ty.size && ty.takesCopy v.ty true
      | none => true
    | .compose => true
  | _, _, _ => true

/-- Whether the fields of a tuple can be put into their slots. -/
def admitsFields (s : Site) (set : List String) : List (Labelled Expr) → List (Nat × Ty) → Bool
  | ⟨_, value⟩ :: fields, (_, ty) :: slots =>
    s.admits set none value ty ty.size && s.admitsFields set fields slots
  | _, _ => true

end

/-- Whether a statement touches no function. The last one has to give the output if that holds
functions. -/
def admitsStatement (s : Site) (set : List String) (isLast : Bool) (e : Expr) : Bool :=
  let output := s.scope.arrow.output
  let ended := !isLast || !output.hasFunctions
  match e with
  | .typeDecl .. => ended
  | .varDecl name _ value _ =>
    match s.scope.local? name with
    | some v => ended && s.admits set (some name) value v.ty v.ty.size
    | none => true
  | .binary .assign target value _ =>
    match target.asName?.bind s.scope.local? with
    | some v => ended && s.admits set target.asName? value v.ty v.ty.size
    | none => true
  | e =>
    if isLast && !output.isVoid then s.admits set none e output output.size
    else s.admits set none e .void 1

/-- Whether statements touch no function, one after the other. -/
def admitsStatements (s : Site) (set : List String) : List Expr → Bool
  | [] => !s.scope.arrow.output.hasFunctions
  | [e] => s.admitsStatement set true e
  | e :: rest => s.admitsStatement set false e && s.admitsStatements (e.sets?.toList ++ set) rest

end Site

namespace ScopeTree

/-- The variables that are set when a scope is entered: what a function captured and its
parameters. -/
def given (tree : ScopeTree) (id : ScopeId) : List String :=
  if id = rootId then [] else (tree.scope id).closure.map (·.name) ++ (tree.scope id).labels

/-- Whether the statements of all scopes touch no function. -/
def keepsFunctions (tree : ScopeTree) : Bool :=
  tree.ids.all fun id => Site.admitsStatements ⟨tree, id⟩ (tree.given id) (tree.scope id).body

end ScopeTree

end WindowedClosures
