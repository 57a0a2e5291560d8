import WindowedClosures.Code.Register
import WindowedClosures.Expr.Basic
import WindowedClosures.Ty.Arrow

/-!
# Scopes

A scope is one lexical block: the program, a function literal, a composition or one arm of a
choice. All scopes of a program stand in one tree, where a function literal points to its body and
each scope to its parent by number, so nothing owns a cycle. A scope's registers are its output,
then its parameters, then its variables.
-/

namespace WindowedClosures

/-- How a scope came to exist. -/
inductive Origin where
  | program | literal | composition | branch
  deriving DecidableEq, Repr

def Origin.render : Origin → String
  | .program => "program"
  | .literal => "literal"
  | .composition => "composition"
  | .branch => "branch"

/-- A name for the registers of a value. -/
structure Variable where
  name : String
  ty : Ty
  offset : Nat
  bank : Bank
  deriving DecidableEq, Repr

namespace Variable

/-- The first register of the value. -/
def register (v : Variable) : Except RegisterOverflow Register := Register.ofOffset v.bank v.offset

def render (v : Variable) : String :=
  v.name ++ ": " ++ v.ty.render ++ " @ " ++
    match v.register with
    | .ok register => register.render
    | .error _ => v.bank.title ++ "+" ++ toString v.offset

end Variable

/-- The registers of variables in a row. -/
def sizeOfAll : List Variable → Nat
  | [] => 0
  | v :: rest => v.ty.size + sizeOfAll rest

/-- A function with code of its own. The name is empty for a literal that is not declared. -/
structure Function where
  id : Nat
  name : String
  scope : ScopeId
  deriving DecidableEq, Repr

structure Scope where
  parent : Option ScopeId
  origin : Origin
  /-- Parameter labels of the literal that owns the scope. -/
  labels : List String
  arrow : Arrow
  types : List (String × Ty)
  vars : List Variable
  /-- Captured variables, in the closure bank. -/
  closure : List Variable
  body : List Expr
  span : Span

namespace Scope

/-- A scope that nothing is known about but its statements. -/
def fresh (origin : Origin) (labels : List String) (body : List Expr) (span : Span) : Scope :=
  ⟨none, origin, labels, .unset, [], [], [], body, span⟩

instance : Inhabited Scope := ⟨fresh .program [] [] .zero⟩

/-- An own variable, or else a captured one; never one of the parent. -/
def local? (s : Scope) (name : String) : Option Variable :=
  match s.vars.find? (·.name == name) with
  | some v => some v
  | none => s.closure.find? (·.name == name)

/-- The registers of output, parameters and variables. -/
def size (s : Scope) : Nat := sizeOfAll s.vars + s.arrow.output.size

/-- The type of a parameter label, whether or not it is bound to a variable yet. -/
def labelType? (s : Scope) (name : String) : Option Ty := do
  let position ← s.labels.findIdx? (· == name)
  if s.labels.length = 1 then some s.arrow.input
  else
    match s.arrow.input.resolved with
    | .tuple fields =>
      if fields.length = s.labels.length then (fields[position]?).map (·.value) else none
    | _ => none

/-- The type of a name that is a variable or a label of this scope. -/
def valueType? (s : Scope) (name : String) : Option Ty :=
  match s.local? name with
  | some v => some v.ty
  | none => s.labelType? name

/-- Whether the name is a variable or a label of this scope. -/
def knows (s : Scope) (name : String) : Bool :=
  (s.local? name).isSome || s.labels.any (· == name)

def declaresType (s : Scope) (name : String) : Bool := (s.types.lookup name).isSome

end Scope

/-- All scopes of a program, and the functions it consists of once they are declared. -/
structure ScopeTree where
  scopes : Array Scope
  functions : List Function

namespace ScopeTree

/-- The program before anything is read: only the root, which knows the built-in types. -/
def empty : ScopeTree :=
  ⟨#[{ Scope.fresh .program [] [] .zero with types := Ty.builtins }], []⟩

instance : Inhabited ScopeTree := ⟨empty⟩

/-- The program's scope. -/
def rootId : ScopeId := 0

/-- The number of scopes. -/
def count (tree : ScopeTree) : Nat := tree.scopes.size

def scope (tree : ScopeTree) (id : ScopeId) : Scope := (tree.scopes[id]?).getD default

def root (tree : ScopeTree) : Scope := tree.scope rootId

def ids (tree : ScopeTree) : List ScopeId := List.range tree.count

/-- Add a scope; its number is the count before. -/
def push (tree : ScopeTree) (s : Scope) : ScopeTree := { tree with scopes := tree.scopes.push s }

def modify (tree : ScopeTree) (id : ScopeId) (f : Scope → Scope) : ScopeTree :=
  { tree with scopes := tree.scopes.modify id f }

def setBody (tree : ScopeTree) (id : ScopeId) (body : List Expr) : ScopeTree :=
  tree.modify id fun s => { s with body := body }

def setArrow (tree : ScopeTree) (id : ScopeId) (arrow : Arrow) : ScopeTree :=
  tree.modify id fun s => { s with arrow := arrow }

/-- Give a literal's scope an arrow unless it has one. -/
def fillArrow (tree : ScopeTree) (id : ScopeId) (arrow : Arrow) : ScopeTree :=
  if (tree.scope id).arrow.isUnset then tree.setArrow id arrow else tree

def function? (tree : ScopeTree) (id : Nat) : Option Function :=
  tree.functions.find? (·.id == id)

/-- The function whose body is a scope. -/
def functionOf? (tree : ScopeTree) (id : ScopeId) : Option Function :=
  tree.functions.find? (·.scope == id)

@[simp] theorem count_push (tree : ScopeTree) (s : Scope) : (tree.push s).count = tree.count + 1 := by
  simp [push, count]

@[simp] theorem count_modify (tree : ScopeTree) (id : ScopeId) (f : Scope → Scope) :
    (tree.modify id f).count = tree.count := by
  simp [modify, count]

@[simp] theorem count_setBody (tree : ScopeTree) (id : ScopeId) (body : List Expr) :
    (tree.setBody id body).count = tree.count := by
  simp [setBody]

theorem scope_push_of_lt (tree : ScopeTree) (s : Scope) (id : ScopeId) (h : id < tree.count) :
    (tree.push s).scope id = tree.scope id := by
  simp only [count] at h
  simp [push, scope, h, Array.getElem?_push, Nat.ne_of_lt h]

@[simp] theorem scope_push_count (tree : ScopeTree) (s : Scope) :
    (tree.push s).scope tree.count = s := by
  simp [push, scope, count]

theorem scope_modify_same (tree : ScopeTree) (id : ScopeId) (f : Scope → Scope)
    (h : id < tree.count) : (tree.modify id f).scope id = f (tree.scope id) := by
  simp only [count] at h
  simp [modify, scope, h, Array.getElem_modify]

theorem scope_modify_other (tree : ScopeTree) (id other : ScopeId) (f : Scope → Scope)
    (h : other ≠ id) : (tree.modify id f).scope other = tree.scope other := by
  simp [modify, scope, Array.getElem?_modify, Ne.symm h]

end ScopeTree

end WindowedClosures
