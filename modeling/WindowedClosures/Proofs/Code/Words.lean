import WindowedClosures.Code.Lower

/-!
# Truth values by bits

What the words of comparisons are worth: exclusive or from four complements of conjunctions, the
square of a sign that was shifted down, and the sign bits that tell `a < b` and `a ≠ 0`.
-/

namespace WindowedClosures

/-- The word of a truth value. -/
def truthWord (b : Bool) : Int32 := if b then 1 else 0

/-- The sign bit of a word. -/
def signBit (a : Int32) : Bool := a.toBitVec.msb

theorem xor_of_nand (a b : Int32) :
    ~~~(~~~(a &&& ~~~(a &&& b)) &&& ~~~(b &&& ~~~(a &&& b))) = a ^^^ b := by
  apply Int32.toBitVec_inj.mp
  ext i hi
  simp only [Int32.toBitVec_not, Int32.toBitVec_and, Int32.toBitVec_xor, BitVec.getElem_not,
    BitVec.getElem_and, BitVec.getElem_xor]
  cases a.toBitVec[i] <;> cases b.toBitVec[i] <;> rfl

theorem and_of_nand (a b : Int32) : ~~~(~~~(a &&& b) &&& ~~~(a &&& b)) = a &&& b := by
  apply Int32.toBitVec_inj.mp
  simp

/-- A word is put together of its halves. -/
theorem or_halves (a : Int32) :
    Int32.ofNat (UInt16.ofNat a.toUInt32.toNat).toNat |||
      Int32.ofNat ((UInt16.ofNat (a.toUInt32.toNat / 65536)).toNat * 65536) = a := by
  have bits : a.toUInt32.toNat = a.toBitVec.toNat := rfl
  have bound := a.toBitVec.isLt
  have low : a.toBitVec.toNat % 2 ^ 16 < 2 ^ 16 := by omega
  have joined : a.toBitVec.toNat % 2 ^ 16 ||| 2 ^ 16 * (a.toBitVec.toNat / 2 ^ 16) = a.toBitVec.toNat := by
    rw [Nat.or_comm, ← Nat.two_pow_add_eq_or_of_lt low]
    omega
  apply Int32.toBitVec_inj.mp
  apply BitVec.eq_of_toNat_eq
  rw [Int32.toBitVec_or, BitVec.toNat_or, Int32.toBitVec_ofNat', Int32.toBitVec_ofNat',
    BitVec.toNat_ofNat, BitVec.toNat_ofNat, UInt16.toNat_ofNat', UInt16.toNat_ofNat', bits]
  have first : a.toBitVec.toNat % 2 ^ 16 % 2 ^ 32 = a.toBitVec.toNat % 2 ^ 16 := by omega
  have second : a.toBitVec.toNat / 65536 % 2 ^ 16 * 65536 % 2 ^ 32 =
      2 ^ 16 * (a.toBitVec.toNat / 2 ^ 16) := by omega
  rw [first, second, joined]

/-- A word whose high half is zero is its low half. -/
theorem low_half {a : Int32} (h : a.toUInt32.toNat / 65536 = 0) :
    Int32.ofNat (UInt16.ofNat a.toUInt32.toNat).toNat = a := by
  have whole := or_halves a
  rw [h] at whole
  simpa using whole

/-- The sign of a word, shifted down and squared. -/
theorem sign_square (a : Int32) : (a >>> 31) * (a >>> 31) = truthWord (signBit a) := by
  have bound := a.toBitVec.isLt
  have amount : ((31 : Int32).toBitVec.smod 32).toNat = 31 := by decide
  have shifted : a >>> 31 = if signBit a then -1 else 0 := by
    apply Int32.toBitVec_inj.mp
    apply BitVec.eq_of_toNat_eq
    rw [Int32.toBitVec_shiftRight, BitVec.sshiftRight_eq', amount]
    cases sign : signBit a with
    | true =>
      have high : a.toBitVec.msb = true := sign
      rw [BitVec.toNat_sshiftRight_of_msb_true high, Nat.shiftRight_eq_div_pow]
      rw [BitVec.msb_eq_decide, decide_eq_true_eq] at high
      rw [if_pos rfl, show (-1 : Int32).toBitVec.toNat = 2 ^ 32 - 1 from by decide]
      omega
    | false =>
      have low : a.toBitVec.msb = false := sign
      rw [BitVec.toNat_sshiftRight_of_msb_false low, Nat.shiftRight_eq_div_pow]
      rw [BitVec.msb_eq_decide, decide_eq_false_iff_not] at low
      rw [if_neg (by decide), show (0 : Int32).toBitVec.toNat = 0 from by decide]
      omega
  rw [shifted]
  cases signBit a <;> decide

theorem lt_eq_slt (a b : Int32) : decide (a < b) = a.toBitVec.slt b.toBitVec := by
  simp [Int32.lt_iff_toBitVec_slt]

/-- The sign of the difference, mended where it wraps around. -/
theorem sign_less (a b : Int32) :
    signBit ((a - b) ^^^ ((a ^^^ b) &&& ((a - b) ^^^ a))) = decide (a < b) := by
  have bound_a := a.toBitVec.isLt
  have bound_b := b.toBitVec.isLt
  have order : decide (a < b) = decide (a.toBitVec.toInt < b.toBitVec.toInt) := by
    rw [lt_eq_slt, BitVec.slt_eq_decide]
  have difference : (a - b).toBitVec.toNat = (2 ^ 32 - b.toBitVec.toNat + a.toBitVec.toNat) % 2 ^ 32 :=
    BitVec.toNat_sub _ _
  have high (x : BitVec 32) : (x.msb = true) = (2 ^ 31 ≤ x.toNat) := by
    rw [BitVec.msb_eq_decide, decide_eq_true_eq]
  have sign_a := high a.toBitVec
  have sign_b := high b.toBitVec
  have sign_d := high (a - b).toBitVec
  simp only [signBit, Int32.toBitVec_and, Int32.toBitVec_xor, BitVec.msb_xor, BitVec.msb_and, order,
    BitVec.toInt_eq_msb_cond]
  cases ha : a.toBitVec.msb <;> cases hb : b.toBitVec.msb <;> cases hd : (a - b).toBitVec.msb <;>
    simp [ha, hb, hd, -Int32.toBitVec_sub] at sign_a sign_b sign_d ⊢ <;> omega

/-- A word or its negation has the sign bit set, unless it is zero. -/
theorem sign_nonzero (a : Int32) :
    signBit (~~~(~~~a &&& ~~~(0 - a))) = decide (a ≠ 0) := by
  have bound := a.toBitVec.isLt
  have zero : a = 0 ↔ a.toBitVec.toNat = 0 := by
    rw [← Int32.toBitVec_inj, ← BitVec.toNat_inj]
    rfl
  have negated : (0 - a).toBitVec.toNat = (2 ^ 32 - a.toBitVec.toNat) % 2 ^ 32 :=
    BitVec.toNat_sub _ _
  have high (x : BitVec 32) : (x.msb = true) = (2 ^ 31 ≤ x.toNat) := by
    rw [BitVec.msb_eq_decide, decide_eq_true_eq]
  have sign_a := high a.toBitVec
  have sign_n := high (0 - a).toBitVec
  have bits : signBit (~~~(~~~a &&& ~~~(0 - a))) = (a.toBitVec.msb || (0 - a).toBitVec.msb) := by
    have width : (0 : Nat) < 32 := by decide
    simp only [signBit, Int32.toBitVec_and, Int32.toBitVec_not, BitVec.msb_and, BitVec.msb_not,
      width, decide_true, Bool.true_and, Bool.not_and, Bool.not_not]
  rw [bits, Bool.eq_iff_iff, Bool.or_eq_true, decide_eq_true_eq, sign_a, sign_n, ne_eq, zero, negated]
  omega

theorem sub_ne_zero_iff (a b : Int32) : a - b ≠ 0 ↔ a ≠ b := by
  rw [← Int32.sub_self b, ne_eq, Int32.sub_left_inj]

/-- The complement of a truth value plus two is the other one. -/
theorem invert_truthWord (b : Bool) : ~~~truthWord b + 2 = truthWord !b := by
  cases b <;> decide

theorem mul_truthWord (a b : Bool) : truthWord a * truthWord b = truthWord (a && b) := by
  cases a <;> cases b <;> decide

theorem or_of_nand_truthWord (a b : Bool) :
    ~~~(~~~truthWord a &&& ~~~truthWord b) = truthWord (a || b) := by
  cases a <;> cases b <;> decide

end WindowedClosures
