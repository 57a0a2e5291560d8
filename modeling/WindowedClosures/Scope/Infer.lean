import WindowedClosures.Scope.Lookup

/-!
# The type of an expression

Types flow upwards from literals and names. An arm of a choice is a function literal without
labels; the type of the choice is what its first arm gives, which is looked up in the arm's body
as long as the arm's arrow is not known. Arms nest no deeper than there are scopes.
-/

namespace WindowedClosures

/-- Functions that can be called by name without being declared. -/
def builtinFunctions : List String := ["print"]

/-- The scope of an arm of a choice. -/
def ScopeTree.branchScope? (tree : ScopeTree) (e : Expr) : Option ScopeId :=
  match e with
  | .function literal _ => if (tree.scope literal.scope).origin = .branch then some literal.scope else none
  | _ => none

/-- The arrow of a callee of a type. -/
def calleeArrow (ty : Ty) (span : Span) : Except SemanticError Arrow :=
  match ty.arrow? with
  | some arrow => .ok arrow
  | none => .error (.typeMismatch "a function" ty.render span)

namespace ScopeTree

mutual

/-- The type of an expression in a scope, given the types of arms whose arrow is not known. -/
def inferWith (tree : ScopeTree) (armType : ScopeId → Except SemanticError Ty) (id : ScopeId) :
    Expr → Except SemanticError Ty
  | .int _ _ => .ok .int
  | .hex _ _ => .ok .int
  | .float _ _ => .ok .float
  | .text value _ => .ok (.array .char (value.utf8ByteSize + 1))
  | .name value span =>
    match tree.lookup? id value with
    | some ty => .ok ty
    | none => .error (.unknownIdentifier value span)
  | .tuple [⟨none, value⟩] _ => tree.inferWith armType id value
  | .tuple fields _ => do
    let fields ← tree.inferFieldsWith armType id fields
    .ok (.tuple fields)
  | .typeDecl .. => .ok .void
  | .varDecl .. => .ok .void
  | .function literal _ => .ok (tree.scope literal.scope).arrow.toTy
  | .unary op operand _ =>
    match op with
    | .not => .ok .bool
    | .ref => do
      let ty ← tree.inferWith armType id operand
      .ok (.pointer ty)
    | .deref => do
      let ty ← tree.inferWith armType id operand
      match ty.resolved with
      | .pointer inner => .ok inner
      | other => .error (.typeMismatch "a pointer" other.render operand.span)
    | .neg => tree.inferWith armType id operand
  | .binary op lhs rhs span =>
    match op with
    | .arithmetic _ => tree.inferWith armType id lhs
    | .comparison _ => .ok .bool
    | .connective _ => .ok .bool
    | .assign => .ok .void
    | .call | .apply =>
      let isBuiltin := match lhs.asName? with
        | some name => (tree.lookup? id name).isNone && builtinFunctions.contains name
        | none => false
      if isBuiltin then .ok .void
      else do
        let arrow ← calleeArrow (← tree.inferWith armType id lhs) lhs.span
        .ok arrow.output
    | .compose => do
      let f ← calleeArrow (← tree.inferWith armType id lhs) lhs.span
      let g ← calleeArrow (← tree.inferWith armType id rhs) rhs.span
      .ok (.function g.input f.output)
    | .choose =>
      match rhs with
      | .tuple [⟨_, arm⟩, _] _ =>
        match tree.branchScope? arm with
        | some body =>
          let arrow := (tree.scope body).arrow
          if arrow.isUnset then armType body else .ok arrow.output
        | none => tree.inferWith armType id arm
      | _ => .error (.invalidControl rhs.span)
    | .field => do
      let base ← tree.inferWith armType id lhs
      let name := rhs.asName?.getD ""
      match base.field? name with
      | some (_, ty) => .ok ty
      | none => .error (.unknownIdentifier (lhs.render ++ "." ++ name) span)
    | .index => do
      let ty ← tree.inferWith armType id lhs
      match ty.resolved with
      | .array elem _ => .ok elem
      | other => .error (.typeMismatch "an array" other.render lhs.span)

def inferFieldsWith (tree : ScopeTree) (armType : ScopeId → Except SemanticError Ty)
    (id : ScopeId) : List (Labelled Expr) → Except SemanticError (List (Labelled Ty))
  | [] => .ok []
  | ⟨label, value⟩ :: rest => do
    let value ← tree.inferWith armType id value
    let rest ← tree.inferFieldsWith armType id rest
    .ok (⟨label, value⟩ :: rest)

end

/-- The type of the last statement of a scope, through so many levels of arms. -/
def bodyType (tree : ScopeTree) : Nat → ScopeId → Except SemanticError Ty
  | 0, _ => .ok .void
  | fuel + 1, id =>
    match (tree.scope id).body.getLast? with
    | some last => tree.inferWith (tree.bodyType fuel) id last
    | none => .ok .void

/-- The type that an expression has when it is evaluated in a scope. -/
def infer (tree : ScopeTree) (id : ScopeId) (e : Expr) : Except SemanticError Ty :=
  tree.inferWith (tree.bodyType tree.count) id e

/-- The arrow of a callee. -/
def arrowOf (tree : ScopeTree) (id : ScopeId) (e : Expr) : Except SemanticError Arrow := do
  calleeArrow (← tree.infer id e) e.span

/-- The type of a choice between these arms. -/
def branchType (tree : ScopeTree) (id : ScopeId) (arms : Expr) : Except SemanticError Ty :=
  tree.infer id (.binary .choose default arms arms.span)

end ScopeTree

end WindowedClosures
