/-!
# Registers

A register is an offset into one of four banks of 64 registers: the window of the running
function, the values its closure captured, the closure that is being filled, and the program's own
window. It is encoded in one byte, the bank in the top two bits.
-/

namespace WindowedClosures

inductive Bank where
  | window | closure | aux | base
  deriving DecidableEq, Repr

namespace Bank

def index : Bank → Nat
  | .window => 0
  | .closure => 1
  | .aux => 2
  | .base => 3

def ofIndex : Nat → Bank
  | 0 => .window
  | 1 => .closure
  | 2 => .aux
  | _ => .base

/-- The letter in front of a register's offset. -/
def letter : Bank → String
  | .window => "r"
  | .closure => "c"
  | .aux => "a"
  | .base => "b"

/-- The name of the bank where an offset lies outside it. -/
def title : Bank → String
  | .window => "Local"
  | .closure => "Closure"
  | .aux => "Aux"
  | .base => "Base"

@[simp] theorem ofIndex_index (bank : Bank) : ofIndex bank.index = bank := by
  cases bank <;> rfl

theorem index_lt (bank : Bank) : bank.index < 4 := by cases bank <;> decide

end Bank

/-- An offset that no register has. -/
structure RegisterOverflow where
  offset : Nat
  deriving DecidableEq, Repr

def RegisterOverflow.message (overflow : RegisterOverflow) : String :=
  "register offset " ++ toString overflow.offset ++ " is outside the 64-register window"

structure Register where
  bank : Bank
  offset : Fin 64
  deriving DecidableEq, Repr

namespace Register

/-- The number of registers in a bank. -/
def bankSize : Nat := 64

/-- The register at an offset of a bank. -/
def ofOffset (bank : Bank) (offset : Nat) : Except RegisterOverflow Register :=
  if h : offset < 64 then .ok ⟨bank, ⟨offset, h⟩⟩ else .error ⟨offset⟩

/-- A number of registers that fits 64 bits. -/
def counted (n : Nat) : Except RegisterOverflow Nat :=
  if n < UInt64.size then .ok n else .error ⟨n⟩

/-- The first register of the running function's window. -/
def first : Register := ⟨.window, 0⟩

/-- The register some slots further in the same bank. -/
def shift (r : Register) (delta : Nat) : Except RegisterOverflow Register :=
  ofOffset r.bank (r.offset + delta)

/-- The byte that encodes a register. -/
def toByte (r : Register) : UInt8 := UInt8.ofNat (r.bank.index * 64 + r.offset)

def ofByte (byte : UInt8) : Register :=
  ⟨Bank.ofIndex (byte.toNat / 64), ⟨byte.toNat % 64, Nat.mod_lt _ (by decide)⟩⟩

def render (r : Register) : String := r.bank.letter ++ toString r.offset.val

theorem toNat_toByte (r : Register) : r.toByte.toNat = r.bank.index * 64 + r.offset := by
  have := r.bank.index_lt
  simp [toByte]
  omega

@[simp] theorem ofByte_toByte (r : Register) : ofByte r.toByte = r := by
  obtain ⟨bank, offset, h⟩ := r
  simp only [ofByte, toNat_toByte, Register.mk.injEq, Fin.mk.injEq]
  constructor
  · rw [show (bank.index * 64 + offset) / 64 = bank.index by omega, Bank.ofIndex_index]
  · omega

@[simp] theorem toByte_ofByte (byte : UInt8) : (ofByte byte).toByte = byte := by
  have bound := byte.toNat_lt
  have bank : (Bank.ofIndex (byte.toNat / 64)).index = byte.toNat / 64 := by
    have : byte.toNat / 64 < 4 := by omega
    generalize byte.toNat / 64 = n at this
    match n, this with
    | 0, _ => rfl
    | 1, _ => rfl
    | 2, _ => rfl
    | 3, _ => rfl
  apply UInt8.toNat_inj.mp
  rw [toNat_toByte]
  simp only [ofByte, bank]
  omega

end Register

end WindowedClosures
