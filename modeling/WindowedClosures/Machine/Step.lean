import WindowedClosures.Machine.Basic
import WindowedClosures.Machine.Halt
import WindowedClosures.Text.Utf8

/-!
# One instruction

Each instruction changes the machine, and calls and returns change the stack of callers. An
instruction that fails leaves what it did before it failed. Arithmetic wraps around, division goes
toward zero, and shifts use the low five bits of the amount.
-/

namespace WindowedClosures

/-- What a caller gets back when its callee returns. -/
structure Caller where
  pc : Nat
  top : Nat
  closure : Nat
  deriving DecidableEq, Repr

/-- A run in progress: the callers innermost first, the texts printed and the instructions shown
to the trap, latest first. -/
structure Run where
  machine : Machine
  callers : List Caller
  prints : List String
  calls : List (Nat × Instruction)

abbrev Exec := EStateM Halt Run

namespace Exec

def machine : Exec Machine := do return (← get).machine

def modifyMachine (f : Machine → Machine) : Exec Unit :=
  modify fun r => { r with machine := f r.machine }

/-- The value of a register, or a memory fault. -/
def read (byte : UInt8) : Exec Int32 := do
  match (← machine).read? byte with
  | some word => return word
  | none => throw .memoryFault

/-- Give a register a value. A register outside the memory is a memory fault. -/
def write (byte : UInt8) (word : Int32) : Exec Unit := do
  if ((← machine).read? byte).isSome then modifyMachine (·.write byte word)
  else throw .memoryFault

/-- The stack address at an offset from a word, or a memory fault. -/
def stackAddress (base : Int32) (offset : UInt8) : Exec Nat :=
  match Machine.stackAddress? base offset with
  | some address => return address
  | none => throw .memoryFault

end Exec

/-- The value of an operation on two words; division by zero has none. -/
def alu? (op : Operation) (a b : Int32) : Option Int32 :=
  match op with
  | .add => some (a + b)
  | .sub => some (a - b)
  | .mul => some (a * b)
  | .div => if b = 0 then none else some (a / b)
  | .mod => if b = 0 then none else some (a % b)
  | .nand => some (~~~(a &&& b))
  | .shl => some (a <<< b)
  | .shr => some (a >>> b)
  | _ => none

namespace Exec

/-- Go on with the next instruction. -/
def skip : Exec Bool := do
  modifyMachine fun m => { m with pc := m.pc + 1 }
  return false

/-- Enter a function with the window moved by an amount. -/
def enter (address : Nat) (closure : UInt8) (amount : UInt8) : Exec Bool := do
  modify fun r =>
    let m := r.machine
    { r with
      callers := ⟨m.pc, m.top, m.closure⟩ :: r.callers
      machine := { m with pc := address, top := m.top + amount.toNat, closure := closure.toNat } }
  return false

/-- Return to the caller. The run is over when the outermost call returns. -/
def leave : Exec Bool := do
  match (← get).callers with
  | [] => return true
  | c :: rest =>
    modify fun r =>
      { r with
        callers := rest
        machine := { r.machine with pc := c.pc, top := c.top, closure := c.closure } }
    if rest.isEmpty then return true else skip

/-- An operation on two registers into a third. -/
def arithmetic (i : Instruction) : Exec Bool := do
  let a ← read i.y
  let b ← read i.z
  match alu? i.op a b with
  | some word =>
    write i.x word
    skip
  | none => throw .divisionByZero

/-- Carry out one instruction; the answer says whether the run is over. -/
def step (i : Instruction) : Exec Bool := do
  match i.op with
  | .loadLow =>
    write i.x (Int32.ofNat i.yz.toNat)
    skip
  | .loadHigh =>
    let word ← read i.x
    write i.x (word ||| Int32.ofNat (i.yz.toNat * 65536))
    skip
  | .move =>
    write i.x (← read i.y)
    skip
  | .loadStack =>
    let address ← stackAddress (← read i.y) i.z
    write i.x (((← machine).stack.get? address).getD 0)
    skip
  | .storeStack =>
    let address ← stackAddress (← read i.x) i.y
    let word ← read i.z
    modifyMachine fun m => { m with stack := m.stack.set address word }
    skip
  | .inc =>
    let word ← read i.x
    write i.x (word + Int32.ofNat i.yz.toNat)
    skip
  | .add | .sub | .mul | .div | .mod | .nand | .shl | .shr => arithmetic i
  | .print =>
    let text := Utf8.decodeLossy ((← machine).textAt i.x)
    modify fun r => { r with prints := text :: r.prints }
    skip
  | .frame =>
    let top := ((← machine).top : Int) + i.signed
    if top < 0 then throw .memoryFault
    else
      modifyMachine fun m => { m with top := top.toNat }
      skip
  | .closureMake =>
    let (closure, pool) := (← machine).pool.alloc
    modifyMachine fun m => { m with pool := pool, aux := closure.toNat }
    write i.x (FunctionWord.word closure i.yz)
    skip
  | .retain =>
    let f := FunctionWord.ofWord (← read i.x)
    modifyMachine fun m => { m with pool := m.pool.retain f.closure }
    skip
  | .release =>
    let f := FunctionWord.ofWord (← read i.x)
    modifyMachine fun m => { m with pool := m.pool.release f.closure }
    skip
  | .aux =>
    modifyMachine fun m => { m with aux := i.x.toNat }
    skip
  | .call => enter i.yz.toNat 0 i.x
  | .callRegister =>
    let f := FunctionWord.ofWord (← read i.y)
    enter f.address f.closure i.x
  | .ret => leave
  | .brk => skip

end Exec

end WindowedClosures
