import WindowedClosures.Code.Register
import WindowedClosures.Text.Columns

/-!
# Instructions

An instruction is one word of 32 bits: the operation in the low byte, a register or amount `x` in
the next, and in the high half `yz` either an immediate or two register bytes, `y` below `z`.
-/

namespace WindowedClosures

/-- The operations in the order of their codes. -/
inductive Operation where
  /-- `x` becomes `yz`. -/
  | loadLow
  /-- The high half of `x` is or-ed with `yz`. -/
  | loadHigh
  /-- `x` becomes `y`. -/
  | move
  /-- `x` becomes the stack cell at `y` plus an offset. -/
  | loadStack
  /-- The stack cell at `x` plus an offset becomes `z`. -/
  | storeStack
  | add | sub
  /-- `yz` is added to `x`. -/
  | inc
  | mul | div | mod | nand | shl | shr
  /-- The text from register `x` on is printed. -/
  | print
  /-- The window moves by the signed amount `yz`. -/
  | frame
  /-- A closure is allocated and selected, and `x` becomes its function word for address `yz`. -/
  | closureMake
  | retain | release
  /-- Closure `x` is selected. -/
  | aux
  /-- The function at `yz` is called with the window moved by `x`. -/
  | call
  /-- The function word in `y` is called with the window moved by `x`. -/
  | callRegister
  | ret
  | brk
  deriving DecidableEq, Repr

namespace Operation

/-- All operations; the position is the code. -/
def all : List Operation :=
  [.loadLow, .loadHigh, .move, .loadStack, .storeStack, .add, .sub, .inc, .mul, .div, .mod, .nand,
    .shl, .shr, .print, .frame, .closureMake, .retain, .release, .aux, .call, .callRegister, .ret,
    .brk]

def code : Operation → Nat
  | .loadLow => 0
  | .loadHigh => 1
  | .move => 2
  | .loadStack => 3
  | .storeStack => 4
  | .add => 5
  | .sub => 6
  | .inc => 7
  | .mul => 8
  | .div => 9
  | .mod => 10
  | .nand => 11
  | .shl => 12
  | .shr => 13
  | .print => 14
  | .frame => 15
  | .closureMake => 16
  | .retain => 17
  | .release => 18
  | .aux => 19
  | .call => 20
  | .callRegister => 21
  | .ret => 22
  | .brk => 23

def ofCode? (n : Nat) : Option Operation := all[n]?

@[simp] theorem ofCode?_code (op : Operation) : ofCode? op.code = some op := by cases op <;> rfl

theorem code_lt (op : Operation) : op.code < 24 := by cases op <;> decide

theorem code_of_ofCode? {n : Nat} {op : Operation} (h : ofCode? n = some op) : op.code = n := by
  have bound : n < 24 := by
    apply Decidable.byContradiction
    intro hn
    simp [ofCode?, all, Nat.le_of_not_lt hn] at h
  have table : ∀ n : Fin 24, ∀ op, ofCode? n = some op → op.code = n := by decide
  exact table ⟨n, bound⟩ op h

def mnemonic : Operation → String
  | .loadLow => "RXI"
  | .loadHigh => "RXU"
  | .move => "RXRX"
  | .loadStack => "RXST"
  | .storeStack => "STRX"
  | .add => "ADD"
  | .sub => "SUB"
  | .inc => "INC"
  | .mul => "MUL"
  | .div => "DIV"
  | .mod => "MOD"
  | .nand => "NAND"
  | .shl => "SHL"
  | .shr => "SHR"
  | .print => "PRNT"
  | .frame => "FRME"
  | .closureMake => "CLMK"
  | .retain => "CLRT"
  | .release => "CLRL"
  | .aux => "AUX"
  | .call => "FN"
  | .callRegister => "FNRX"
  | .ret => "RET"
  | .brk => "BREK"

/-- The operation of a mnemonic. -/
def ofMnemonic? (text : String) : Option Operation := all.find? (·.mnemonic == text)

def isArithmetic : Operation → Bool
  | .add | .sub | .inc | .mul | .div | .mod | .nand | .shl | .shr => true
  | _ => false

end Operation

structure Instruction where
  op : Operation
  x : UInt8
  yz : UInt16
  deriving DecidableEq, Repr

namespace Instruction

/-- An instruction on three registers. -/
def triple (op : Operation) (x y z : Register) : Instruction :=
  ⟨op, x.toByte, UInt16.ofNat (y.toByte.toNat + z.toByte.toNat * 256)⟩

/-- An instruction on a register and an immediate. -/
def wide (op : Operation) (x : Register) (yz : UInt16) : Instruction := ⟨op, x.toByte, yz⟩

def y (i : Instruction) : UInt8 := UInt8.ofNat (i.yz.toNat % 256)

def z (i : Instruction) : UInt8 := UInt8.ofNat (i.yz.toNat / 256)

/-- The immediate as a signed number. -/
def signed (i : Instruction) : Int := i.yz.toBitVec.toInt

def encode (i : Instruction) : UInt32 :=
  UInt32.ofNat (i.op.code + i.x.toNat * 256 + i.yz.toNat * 65536)

/-- The instruction of a word, if its low byte is the code of an operation. -/
def decode? (word : UInt32) : Option Instruction :=
  (Operation.ofCode? (word.toNat % 256)).map fun op =>
    ⟨op, UInt8.ofNat (word.toNat / 256), UInt16.ofNat (word.toNat / 65536)⟩

theorem toNat_encode (i : Instruction) :
    i.encode.toNat = i.op.code + i.x.toNat * 256 + i.yz.toNat * 65536 := by
  have := i.op.code_lt
  have := i.x.toNat_lt
  have := i.yz.toNat_lt
  simp only [encode, UInt32.toNat_ofNat']
  omega

theorem decode?_encode (i : Instruction) : decode? i.encode = some i := by
  have code := i.op.code_lt
  have hx := i.x.toNat_lt
  have hyz := i.yz.toNat_lt
  have op : (i.op.code + i.x.toNat * 256 + i.yz.toNat * 65536) % 256 = i.op.code := by omega
  rw [decode?, toNat_encode, op, Operation.ofCode?_code]
  obtain ⟨op, x, yz⟩ := i
  simp only [Option.map_some, Option.some.injEq, Instruction.mk.injEq, true_and]
  constructor
  · apply UInt8.toNat_inj.mp
    simp only [UInt8.toNat_ofNat']
    simp only at code hx hyz
    omega
  · apply UInt16.toNat_inj.mp
    simp only [UInt16.toNat_ofNat']
    simp only at code hx hyz
    omega

/-- The operands as a listing shows them. -/
def operands (i : Instruction) : String :=
  let x := (Register.ofByte i.x).render
  let y := (Register.ofByte i.y).render
  let z := (Register.ofByte i.z).render
  match i.op with
  | .loadLow | .loadHigh | .inc => x ++ " " ++ toString i.yz.toNat
  | .closureMake => x ++ " @" ++ toString i.yz.toNat
  | .move => x ++ " " ++ y
  | .loadStack => x ++ " " ++ y ++ " +" ++ toString i.z.toNat
  | .storeStack => x ++ " +" ++ toString i.y.toNat ++ " " ++ z
  | .add | .sub | .mul | .div | .mod | .nand | .shl | .shr => x ++ " " ++ y ++ " " ++ z
  | .print | .retain | .release => x
  | .frame => toString i.signed
  | .aux => toString i.x.toNat
  | .call => "+" ++ toString i.x.toNat ++ " @" ++ toString i.yz.toNat
  | .callRegister => "+" ++ toString i.x.toNat ++ " " ++ y
  | .ret | .brk => ""

def render (i : Instruction) : String :=
  match i.op with
  | .ret | .brk => i.op.mnemonic
  | _ => Text.alignLeft 5 i.op.mnemonic ++ i.operands

end Instruction

end WindowedClosures
