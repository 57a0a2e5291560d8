/-!
# UTF-8

Decoding of octets into characters. A character takes one to four octets; the first octet says how
many follow and which range the second one lies in, so that no code point has two forms and no
surrogate has any. `decodeLossy` writes one replacement character for each longest run of octets
that starts a character and cannot be finished; `decode?` refuses such octets.
-/

namespace WindowedClosures.Utf8

/-- A character that is begun: the continuation octets still owed, the range of the next one, and
the bits read so far. -/
structure Pending where
  owed : Nat
  low : Nat
  high : Nat
  bits : Nat
  deriving DecidableEq, Repr

/-- What one octet leads to. -/
inductive Progress where
  | done (c : Char)
  | more (pending : Pending)
  | invalid

/-- The first octet of a character. -/
def first (b : Nat) : Progress :=
  if b ≤ 0x7f then .done (Char.ofNat b)
  else if 0xc2 ≤ b ∧ b ≤ 0xdf then .more ⟨1, 0x80, 0xbf, b - 0xc0⟩
  else if b = 0xe0 then .more ⟨2, 0xa0, 0xbf, b - 0xe0⟩
  else if b = 0xed then .more ⟨2, 0x80, 0x9f, b - 0xe0⟩
  else if 0xe1 ≤ b ∧ b ≤ 0xef then .more ⟨2, 0x80, 0xbf, b - 0xe0⟩
  else if b = 0xf0 then .more ⟨3, 0x90, 0xbf, b - 0xf0⟩
  else if 0xf1 ≤ b ∧ b ≤ 0xf3 then .more ⟨3, 0x80, 0xbf, b - 0xf0⟩
  else if b = 0xf4 then .more ⟨3, 0x80, 0x8f, b - 0xf0⟩
  else .invalid

/-- A further octet of a character that is begun. -/
def next (p : Pending) (b : Nat) : Progress :=
  if p.low ≤ b ∧ b ≤ p.high then
    let bits := p.bits * 64 + (b - 0x80)
    if p.owed ≤ 1 then .done (Char.ofNat bits) else .more ⟨p.owed - 1, 0x80, 0xbf, bits⟩
  else .invalid

/-- The mark that stands for octets that are no character. -/
def replacement : Char := Char.ofNat 0xfffd

/-- Where an octet outside a character leads: what it writes, and the character it begins. -/
def restart (b : Nat) : List Char × Option Pending :=
  match first b with
  | .done c => ([c], none)
  | .more p => ([], some p)
  | .invalid => ([replacement], none)

/-- Decoding in the middle of a text. An octet that cannot continue the character that is begun
ends it with a replacement and is then read afresh. -/
def decodeLossyFrom : Option Pending → List UInt8 → List Char
  | none, [] => []
  | some _, [] => [replacement]
  | none, b :: rest =>
    let (out, pending) := restart b.toNat
    out ++ decodeLossyFrom pending rest
  | some p, b :: rest =>
    match next p b.toNat with
    | .done c => c :: decodeLossyFrom none rest
    | .more p => decodeLossyFrom (some p) rest
    | .invalid =>
      let (out, pending) := restart b.toNat
      replacement :: out ++ decodeLossyFrom pending rest

/-- The text of any octets, with a replacement character for what is no UTF-8. -/
def decodeLossy (bytes : List UInt8) : String := String.ofList (decodeLossyFrom none bytes)

def decodeFrom : Option Pending → List UInt8 → Option (List Char)
  | none, [] => some []
  | some _, [] => none
  | none, b :: rest =>
    match first b.toNat with
    | .done c => (decodeFrom none rest).map (c :: ·)
    | .more p => decodeFrom (some p) rest
    | .invalid => none
  | some p, b :: rest =>
    match next p b.toNat with
    | .done c => (decodeFrom none rest).map (c :: ·)
    | .more p => decodeFrom (some p) rest
    | .invalid => none

/-- The text of octets that are UTF-8, and nothing otherwise. -/
def decode? (bytes : List UInt8) : Option String := (decodeFrom none bytes).map String.ofList

example : decodeLossy [0x41, 0xff, 0xe2, 0x82, 0x41] = "A\ufffd\ufffdA" := by decide

example : decode? [0xe2, 0x82, 0xac] = some "\u20ac" := by decide

end WindowedClosures.Utf8
