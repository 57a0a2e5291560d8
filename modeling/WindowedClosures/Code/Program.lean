import WindowedClosures.Code.Instruction

/-!
# Programs

A program is its instructions, the last of which is a marker whose immediate is the address where
the program's own body starts; before it lie the bodies of the functions. The file format is a
magic word, a version, the number of instructions and one word each, all little end first. Labels
are kept for the listing only.
-/

namespace WindowedClosures

/-- The address of a function. -/
structure Label where
  id : Nat
  name : String
  address : UInt16
  deriving DecidableEq, Repr

structure Program where
  instructions : List Instruction
  labels : List Label
  deriving DecidableEq, Repr

namespace Program

/-- Where the program's own body starts. -/
def entry? (p : Program) : Option UInt16 := p.instructions.getLast?.map (·.yz)

/-- The lines in front of the instruction at an address. -/
def headings (p : Program) (address : Nat) : List String :=
  let functions := (p.labels.filter (·.address.toNat == address)).map fun l =>
    (if l.name.isEmpty then "fn #" ++ toString l.id else l.name) ++ ":\n"
  let own :=
    if address + 1 = p.instructions.length then ["marker:\n"]
    else if p.entry?.map UInt16.toNat = some address then ["main:\n"]
    else []
  functions ++ own

/-- Every instruction with its address and its headings. -/
def listing (p : Program) : String :=
  String.join (p.instructions.zipIdx.flatMap fun (i, address) =>
    p.headings address ++ [Text.alignRight 5 (toString address) ++ "  " ++ i.render ++ "\n"])

/-- The four bytes of a word, the low one first. -/
def wordBytes (word : UInt32) : List UInt8 :=
  [UInt8.ofNat word.toNat, UInt8.ofNat (word.toNat / 256), UInt8.ofNat (word.toNat / 65536),
    UInt8.ofNat (word.toNat / 16777216)]

/-- The word of four bytes, the low one first. -/
def wordOf (a b c d : UInt8) : UInt32 :=
  UInt32.ofNat (a.toNat + b.toNat * 256 + c.toNat * 65536 + d.toNat * 16777216)

@[simp] theorem wordBytes_wordOf (a b c d : UInt8) : wordBytes (wordOf a b c d) = [a, b, c, d] := by
  have := a.toNat_lt
  have := b.toNat_lt
  have := c.toNat_lt
  have := d.toNat_lt
  simp only [wordBytes, wordOf, UInt32.toNat_ofNat', List.cons.injEq, and_true]
  refine ⟨?_, ?_, ?_, ?_⟩ <;>
    (apply UInt8.toNat_inj.mp; simp only [UInt8.toNat_ofNat']; omega)

/-- The letters `RGVM`. -/
def magic : List UInt8 := [0x52, 0x47, 0x56, 0x4d]

def version : UInt8 := 1

def toBytes (p : Program) : List UInt8 :=
  magic ++ version :: (wordBytes (UInt32.ofNat p.instructions.length) ++
    p.instructions.flatMap fun i => wordBytes i.encode)

/-- Why bytes are no program. -/
inductive FormatError where
  | notBytecode | unsupportedVersion | truncated | unknownOpcode
  deriving DecidableEq, Repr

def FormatError.message : FormatError → String
  | .notBytecode => "not a regal bytecode file"
  | .unsupportedVersion => "unsupported bytecode version"
  | .truncated => "truncated instruction section"
  | .unknownOpcode => "unknown opcode"

/-- The instruction of a word. -/
def decodeWord (word : UInt32) : Except FormatError Instruction :=
  match Instruction.decode? word with
  | none => .error .unknownOpcode
  | some i => .ok i

/-- The instructions of words, four bytes each. -/
def decodeWords : List UInt8 → Except FormatError (List Instruction)
  | a :: b :: c :: d :: rest => do
    let i ← decodeWord (wordOf a b c d)
    let rest ← decodeWords rest
    .ok (i :: rest)
  | _ => .ok []

/-- The program of a file. -/
def ofBytes : List UInt8 → Except FormatError Program
  | m0 :: m1 :: m2 :: m3 :: v :: c0 :: c1 :: c2 :: c3 :: body =>
    if [m0, m1, m2, m3] ≠ magic then .error .notBytecode
    else if v ≠ version then .error .unsupportedVersion
    else if body.length ≠ (wordOf c0 c1 c2 c3).toNat * 4 then .error .truncated
    else do
      let instructions ← decodeWords body
      .ok ⟨instructions, []⟩
  | _ => .error .notBytecode

end Program

end WindowedClosures
