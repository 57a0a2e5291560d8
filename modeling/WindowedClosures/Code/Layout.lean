import WindowedClosures.Code.Lower
import WindowedClosures.Code.Program

/-!
# Laying out a program

The body of every function is straight-line code that ends in a return. The functions lie one
behind the other, the last of the list first, then follows the program's own body, and then the
marker, which holds the address of that body.

```text
  0 | functions, last of the list first
  e | body of the program
    | marker with immediate e
```
-/

namespace WindowedClosures

/-- Code for a statement. The last one of a function gives the output. -/
def lowerStatement (s : Site) (isLast : Bool) (e : Expr) : Emit Unit := do
  let output := s.scope.arrow.output
  match e with
  | .typeDecl .. => pure ()
  | .varDecl name _ value span =>
    let v ← Emit.lift (s.lookup name span)
    eval s value (← Emit.register v.register) v.ty
  | .binary .assign target value _ =>
    let _ ← Emit.assign s target (lower s value)
  | _ =>
    if isLast && !output.isVoid then eval s e .first output
    else Emit.releasing do
      let r ← Emit.temp
      eval s e r .void

/-- Code for statements in order. -/
def lowerStatements (s : Site) : List Expr → Emit Unit
  | [] => pure ()
  | [e] => lowerStatement s true e
  | e :: rest => do
    lowerStatement s false e
    lowerStatements s rest

/-- The code of a scope, up to and with its return. -/
def scopeCode (tree : ScopeTree) (id : ScopeId) : Except CompileError (List Emitted) := do
  let s : Site := ⟨tree, id⟩
  let size ← Site.inWindow s.scope.counted
  let emission ← (do
    lowerStatements s s.scope.body
    Emit.push ⟨.ret, 0, 0⟩ : Emit Unit) size
  .ok emission.code

/-- An address that fits an immediate. -/
def codeAddress (n : Nat) : Except CompileError UInt16 :=
  if n < 65536 then .ok (UInt16.ofNat n) else .error (.instructionOverflow n)

/-- A function's label and code. -/
structure Block where
  label : Label
  code : List Emitted

/-- Lay functions out from an address on; the address behind them comes back too. -/
def layBlocks (tree : ScopeTree) : Nat → List Function → Except CompileError (List Block × Nat)
  | start, [] => .ok ([], start)
  | start, f :: rest => do
    let address ← codeAddress start
    let code ← scopeCode tree f.scope
    let (blocks, stop) ← layBlocks tree (start + code.length) rest
    .ok (⟨⟨f.id, f.name, address⟩, code⟩ :: blocks, stop)

/-- Fill in the address of the function an instruction asks for. -/
def link (labels : List Label) (e : Emitted) : Except CompileError Instruction :=
  match e.target with
  | none => .ok e.instruction
  | some id =>
    match labels.find? (·.id == id) with
    | some label => .ok { e.instruction with yz := label.address }
    | none => .error (.semantic (.unknownFunction id .zero))

/-- The program of a scope tree. -/
def ScopeTree.compile (tree : ScopeTree) : Except CompileError Program := do
  let (blocks, start) ← layBlocks tree 0 tree.functions.reverse
  let entry ← codeAddress start
  let body ← scopeCode tree ScopeTree.rootId
  let code := blocks.flatMap (·.code) ++ body
  if 65535 ≤ code.length then .error (.instructionOverflow code.length)
  else
    let labels := blocks.map (·.label)
    let instructions ← code.mapM (link labels)
    .ok ⟨instructions ++ [⟨.call, 0, entry⟩], labels⟩

end WindowedClosures
