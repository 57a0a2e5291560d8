import WindowedClosures.Code.Error
import WindowedClosures.Code.Instruction
import WindowedClosures.Ty.Arrow

/-!
# Emitting instructions

An emission starts at a watermark, the first scratch register that is free, and yields a value, the
instructions it emitted and the watermark behind it. Emissions one after the other concatenate
their instructions. An instruction may ask for the address of a function, which is filled in once
all functions are laid out.
-/

namespace WindowedClosures

/-- An instruction with what the generator knows about it. -/
structure Emitted where
  instruction : Instruction
  /-- The function whose address is the immediate. -/
  target : Option Nat
  /-- The arrow that a call is made for. -/
  arrow : Option Arrow
  deriving DecidableEq, Repr

structure Emission (α : Type) where
  value : α
  code : List Emitted
  watermark : Nat

def Emit (α : Type) : Type := Nat → Except CompileError (Emission α)

namespace Emit

instance : Monad Emit where
  pure a := fun watermark => .ok ⟨a, [], watermark⟩
  bind m f := fun watermark =>
    match m watermark with
    | .error e => .error e
    | .ok first =>
      match f first.value first.watermark with
      | .error e => .error e
      | .ok second => .ok ⟨second.value, first.code ++ second.code, second.watermark⟩

def fail {α : Type} (e : CompileError) : Emit α := fun _ => .error e

/-- A value that is found without emitting anything. -/
def lift {α : Type} (result : Except CompileError α) : Emit α :=
  match result with
  | .ok a => pure a
  | .error e => fail e

/-- A register that has to exist. -/
def register (result : Except RegisterOverflow Register) : Emit Register :=
  match result with
  | .ok r => pure r
  | .error overflow => fail (.registerOverflow overflow)

def push (i : Instruction) : Emit Unit := fun watermark => .ok ⟨(), [⟨i, none, none⟩], watermark⟩

/-- Emit an instruction whose immediate is the address of a function. -/
def pushFor (i : Instruction) (function : Nat) : Emit Unit := fun watermark =>
  .ok ⟨(), [⟨i, some function, none⟩], watermark⟩

/-- Emit a call through an arrow. -/
def pushCall (i : Instruction) (arrow : Arrow) : Emit Unit := fun watermark =>
  .ok ⟨(), [⟨i, none, some arrow⟩], watermark⟩

def triple (op : Operation) (x y z : Register) : Emit Unit := push (.triple op x y z)

def move (dst src : Register) : Emit Unit := triple .move dst src .first

/-- Reserve scratch registers and return the offset of the first. -/
def alloc (size : Nat) : Emit Nat := fun watermark =>
  if watermark + size ≤ Register.bankSize then .ok ⟨watermark, [], watermark + size⟩
  else .error (.registerOverflow ⟨watermark + size⟩)

/-- Reserve one scratch register. -/
def temp : Emit Register := do register (Register.ofOffset .window (← alloc 1))

/-- Give back the scratch registers that an emission reserved. -/
def releasing {α : Type} (m : Emit α) : Emit α := fun watermark =>
  match m watermark with
  | .ok result => .ok { result with watermark := watermark }
  | .error e => .error e

/-- Load a constant; the high half is loaded only if it is not zero. -/
def loadInt (dst : Register) (value : Int32) : Emit Unit := do
  let bits := value.toUInt32.toNat
  push (.wide .loadLow dst (UInt16.ofNat bits))
  if bits / 65536 ≠ 0 then push (.wide .loadHigh dst (UInt16.ofNat (bits / 65536)))

/-- A scratch register that holds a constant. -/
def constant (value : Int32) : Emit Register := do
  let r ← temp
  loadInt r value
  return r

/-- Copy so many registers in a row, starting some slots behind both registers. The first slot that
no register has ends it. -/
def copyFrom (dst src : Register) (start : Nat) : Nat → Emit Unit
  | 0 => pure ()
  | count + 1 => do
    move (← register (dst.shift start)) (← register (src.shift start))
    copyFrom dst src (start + 1) count

/-- Copy so many registers in a row. -/
def copyRegisters (dst src : Register) (count : Nat) : Emit Unit := copyFrom dst src 0 count

end Emit

end WindowedClosures
