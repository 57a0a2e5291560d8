import Std.Data.TreeMap

/-!
# Memory

A block of words of 32 bits with a fixed size. A word that was never written is 0. Reading outside
the block has no result, and writing outside it no effect.
-/

namespace WindowedClosures

/-- The words that were written, by address. -/
structure Memory (size : Nat) where
  written : Std.TreeMap Nat Int32

namespace Memory

variable {size : Nat}

def zero (size : Nat) : Memory size := ⟨∅⟩

def get? (m : Memory size) (address : Nat) : Option Int32 :=
  if address < size then some (m.written.getD address 0) else none

/-- Memory with one word replaced. -/
def set (m : Memory size) (address : Nat) (word : Int32) : Memory size :=
  if address < size then ⟨m.written.insert address word⟩ else m

/-- Words in a row from an address on, and what was there before elsewhere. -/
def setAll (m : Memory size) (address : Nat) : List Int32 → Memory size
  | [] => m
  | word :: rest => (m.set address word).setAll (address + 1) rest

@[simp] theorem get?_zero (address : Nat) (h : address < size) :
    (zero size).get? address = some 0 := by
  simp [get?, zero, h]

theorem get?_eq_none_iff (m : Memory size) (address : Nat) :
    m.get? address = none ↔ size ≤ address := by
  simp [get?]

theorem get?_set_same (m : Memory size) (address : Nat) (word : Int32) (h : address < size) :
    (m.set address word).get? address = some word := by
  simp [get?, set, h]

theorem get?_set_other (m : Memory size) (address other : Nat) (word : Int32)
    (h : other ≠ address) : (m.set address word).get? other = m.get? other := by
  unfold set
  split
  · simp [get?, Std.TreeMap.getD_insert, Ne.symm h]
  · rfl

theorem get?_setAll_of_lt (m : Memory size) (address other : Nat) (words : List Int32)
    (h : other < address) : (m.setAll address words).get? other = m.get? other := by
  induction words generalizing m address with
  | nil => rfl
  | cons word rest ih =>
    rw [setAll, ih _ _ (Nat.lt_succ_of_lt h), get?_set_other _ _ _ _ (Nat.ne_of_lt h)]

/-- The words lie where they were put. -/
theorem get?_setAll (m : Memory size) (address i : Nat) (words : List Int32)
    (h : i < words.length) (fits : address + words.length ≤ size) :
    (m.setAll address words).get? (address + i) = words[i]? := by
  induction words generalizing m address i with
  | nil => simp at h
  | cons word rest ih =>
    simp only [List.length_cons] at h fits
    rw [setAll]
    cases i with
    | zero =>
      simp only [Nat.add_zero]
      rw [get?_setAll_of_lt _ _ _ _ (by omega), get?_set_same _ _ _ (by omega)]
      rfl
    | succ i =>
      rw [show address + (i + 1) = address + 1 + i by omega,
        ih _ _ _ (by omega) (by omega)]
      rfl

/-- The four bytes of a word, the low one first. -/
def bytesOf (word : Int32) : List UInt8 :=
  let n := word.toUInt32.toNat
  [UInt8.ofNat n, UInt8.ofNat (n / 256), UInt8.ofNat (n / 65536), UInt8.ofNat (n / 16777216)]

/-- Bytes of up to `count` words from an address on, up to the first zero, behind those given in
reverse. -/
def textFrom (m : Memory size) : Nat → Nat → List UInt8 → List UInt8
  | 0, _, found => found.reverse
  | count + 1, address, found =>
    match m.get? address with
    | none => found.reverse
    | some word =>
      let bytes := bytesOf word
      let kept := bytes.takeWhile (· != 0)
      if kept.length < bytes.length then (kept.reverse ++ found).reverse
      else m.textFrom count (address + 1) (kept.reverse ++ found)

/-- The bytes from an address on up to the first zero or the end. -/
def text (m : Memory size) (address : Nat) : List UInt8 := m.textFrom size address []

end Memory

end WindowedClosures
