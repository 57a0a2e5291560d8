import WindowedClosures.Code.Instruction
import WindowedClosures.Machine.ClosurePool
import WindowedClosures.Machine.Memory

/-!
# The machine

One stack of words and 256 closures of 64 words. A program's instructions, without the marker, lie
at the bottom of the stack, and the program's window starts right behind them. A register byte
names a cell relative to the window, the running closure, the selected closure or the program's
window.
-/

namespace WindowedClosures

def stackSize : Nat := 65536

/-- The words of all closures. -/
def closureWords : Nat := 256 * 64

/-- How many instructions a program may execute unless a limit is given. -/
def defaultTickLimit : Nat := 4096

structure Machine where
  stack : Memory stackSize
  closures : Memory closureWords
  pool : ClosurePool
  pc : Nat
  /-- Where the window of the running function starts. -/
  top : Nat
  /-- Where the program's window starts. -/
  base : Nat
  /-- The closure of the running function. -/
  closure : Nat
  /-- The selected closure. -/
  aux : Nat
  /-- Instructions counted by the last run. -/
  ticks : Nat

/-- Where a register lies. -/
inductive Cell where
  | stack (address : Nat)
  | closures (address : Nat)
  deriving DecidableEq, Repr

/-- A function value: an address in the low half and a closure in the top byte. -/
structure FunctionWord where
  address : Nat
  closure : UInt8
  deriving DecidableEq, Repr

namespace FunctionWord

def ofWord (word : Int32) : FunctionWord :=
  let n := word.toUInt32.toNat
  ⟨n % 65536, UInt8.ofNat (n / 16777216)⟩

/-- The word of a closure and an address. -/
def word (closure : UInt8) (address : UInt16) : Int32 :=
  (UInt32.ofNat (closure.toNat * 16777216 + address.toNat)).toInt32

end FunctionWord

namespace Machine

/-- A machine on which nothing ran. -/
def fresh : Machine :=
  ⟨.zero stackSize, .zero closureWords, .fresh, 0, 0, 0, 0, 0, 0⟩

def cell (m : Machine) (r : Register) : Cell :=
  match r.bank with
  | .window => .stack (m.top + r.offset)
  | .base => .stack (m.base + r.offset)
  | .closure => .closures (m.closure * 64 + r.offset)
  | .aux => .closures (m.aux * 64 + r.offset)

def readCell? (m : Machine) : Cell → Option Int32
  | .stack address => m.stack.get? address
  | .closures address => m.closures.get? address

def writeCell (m : Machine) (c : Cell) (word : Int32) : Machine :=
  match c with
  | .stack address => { m with stack := m.stack.set address word }
  | .closures address => { m with closures := m.closures.set address word }

def read? (m : Machine) (byte : UInt8) : Option Int32 := m.readCell? (m.cell (.ofByte byte))

def write (m : Machine) (byte : UInt8) (word : Int32) : Machine :=
  m.writeCell (m.cell (.ofByte byte)) word

/-- A register relative to where the machine stands. -/
def register? (m : Machine) (bank : Bank) (offset : Nat) : Option Int32 :=
  match Register.ofOffset bank offset with
  | .ok r => m.readCell? (m.cell r)
  | .error _ => none

/-- The bytes from a register on up to the first zero. -/
def textAt (m : Machine) (byte : UInt8) : List UInt8 :=
  match m.cell (.ofByte byte) with
  | .stack address => m.stack.text address
  | .closures address => m.closures.text address

/-- The stack address at an offset from a word. -/
def stackAddress? (base : Int32) (offset : UInt8) : Option Nat :=
  let address := base.toInt + offset.toNat
  if 0 ≤ address ∧ address < stackSize then some address.toNat else none

/-- The machine without what earlier runs left in its memory, its pool, its selections and its
count. -/
def clear (m : Machine) : Machine :=
  { m with
    stack := .zero stackSize
    closures := .zero closureWords
    pool := .fresh
    closure := 0
    aux := 0
    ticks := 0 }

/-- The machine with instructions at the bottom of the stack and the program's window behind them,
about to go on at an entry. -/
def place (m : Machine) (code : List Instruction) (entry : UInt16) : Machine :=
  { m with
    stack := m.stack.setAll 0 (code.map fun i => i.encode.toInt32)
    pc := entry.toNat
    top := code.length
    base := code.length }

/-- A fresh machine with a program in place, about to run its body. -/
def load (code : List Instruction) (entry : UInt16) : Machine :=
  { fresh with
    stack := (Memory.zero stackSize).setAll 0 (code.map fun i => i.encode.toInt32)
    pc := entry.toNat
    top := code.length
    base := code.length }

end Machine

end WindowedClosures
