import Mathlib.Data.List.TakeWhile
import WindowedClosures.Proofs.Machine.Passage

/-!
# Texts in memory

The text at an address is the row of bytes of all words from there on up to the first zero byte. Where
the words of some registers in a row are known, the text at the first of them ends in their bytes or goes
on behind them. Printing puts the text at a register in front of what was printed before, and changes
nothing else.
-/

namespace WindowedClosures

namespace Memory

variable {size : Nat} {m : Memory size} {address : Nat}

/-- The bytes of so many words in a row; a word that is missing counts as 0. -/
def bytesFrom (m : Memory size) (address count : Nat) : List UInt8 :=
  (List.range' address count).flatMap fun k => bytesOf ((m.get? k).getD 0)

theorem bytesFrom_add (m : Memory size) (address count more : Nat) :
    m.bytesFrom address (count + more) = m.bytesFrom address count ++ m.bytesFrom (address + count) more := by
  rw [bytesFrom, ← List.range'_append_1, List.flatMap_append]
  rfl

/-- Words that lie in a row give their bytes. -/
theorem bytesFrom_eq {words : List Int32}
    (found : ∀ i, i < words.length → m.get? (address + i) = words[i]?) :
    m.bytesFrom address words.length = words.flatMap bytesOf := by
  induction words generalizing address with
  | nil => rfl
  | cons word rest ih =>
    have first := found 0 (by simp)
    have behind : ∀ i, i < rest.length → m.get? (address + 1 + i) = rest[i]? := by
      intro i lt
      have next := found (i + 1) (by simpa using lt)
      rwa [Nat.add_assoc, Nat.add_comm 1 i]
    rw [List.length_cons, Nat.add_comm, bytesFrom_add, ih behind, List.flatMap_cons]
    simp [bytesFrom, show m.get? address = some word from first]

/-- All of a row is kept exactly if there is no zero in it. -/
theorem length_takeWhile_eq_iff {bytes : List UInt8} :
    (bytes.takeWhile (· != 0)).length = bytes.length ↔ (0 : UInt8) ∉ bytes := by
  have all : (bytes.takeWhile (· != 0)).length = bytes.length ↔ bytes.takeWhile (· != 0) = bytes :=
    ⟨(List.takeWhile_prefix _).eq_of_length, congrArg List.length⟩
  rw [all, List.takeWhile_eq_self_iff]
  constructor
  · intro nonzero zero
    simpa using nonzero 0 zero
  · intro none b mem
    simpa using fun same : b = 0 => none (same ▸ mem)

theorem textFrom_eq (m : Memory size) (count address : Nat) (found : List UInt8)
    (fits : size ≤ address + count) : m.textFrom count address found =
      found.reverse ++ (m.bytesFrom address (size - address)).takeWhile (· != 0) := by
  induction count generalizing address found with
  | zero => simp [textFrom, bytesFrom, show size - address = 0 by omega]
  | succ count ih =>
    rw [textFrom]
    split
    · rename_i missing
      have outside := (m.get?_eq_none_iff address).mp missing
      simp [bytesFrom, show size - address = 0 by omega]
    · rename_i word here
      have inside : address < size := by
        rw [← Nat.not_le, ← m.get?_eq_none_iff, here]
        simp
      have single : m.bytesFrom address 1 = bytesOf word := by simp [bytesFrom, here]
      rw [show size - address = 1 + (size - (address + 1)) by omega, bytesFrom_add, single,
        List.takeWhile_append]
      have short := (List.takeWhile_prefix (l := bytesOf word) (· != 0)).length_le
      by_cases full : ((bytesOf word).takeWhile (· != 0)).length = (bytesOf word).length
      · have all := (List.takeWhile_prefix (l := bytesOf word) (· != 0)).eq_of_length full
        simp only
        rw [if_neg (by omega), if_pos full, ih _ _ (by omega), all]
        simp
      · simp only
        rw [if_pos (by omega), if_neg full]
        simp

/-- A text reaches up to the first zero byte or the end of the memory. -/
theorem text_eq (m : Memory size) (address : Nat) :
    m.text address = (m.bytesFrom address (size - address)).takeWhile (· != 0) := by
  rw [text, textFrom_eq m size address [] (by omega), List.reverse_nil, List.nil_append]

/-- A text that begins with given words ends in them if one of their bytes is 0, and otherwise goes on
behind them. -/
theorem text_of_words {words : List Int32}
    (found : ∀ i, i < words.length → m.get? (address + i) = words[i]?) : m.text address =
      if (0 : UInt8) ∈ words.flatMap bytesOf then (words.flatMap bytesOf).takeWhile (· != 0)
      else words.flatMap bytesOf ++ m.text (address + words.length) := by
  rcases Nat.eq_zero_or_pos words.length with none | some_word
  · obtain rfl := List.length_eq_zero_iff.mp none
    simp
  · have last : words.length - 1 < words.length := by omega
    have inside : address + (words.length - 1) < size := by
      rw [← Nat.not_le, ← m.get?_eq_none_iff, found _ last, List.getElem?_eq_getElem last]
      simp
    rw [text_eq, text_eq,
      show size - address = words.length + (size - (address + words.length)) by omega, bytesFrom_add,
      bytesFrom_eq found, List.takeWhile_append]
    by_cases zero : (0 : UInt8) ∈ words.flatMap bytesOf
    · rw [if_pos zero, if_neg (length_takeWhile_eq_iff.not.mpr (not_not.mpr zero))]
    · rw [if_neg zero, if_pos (length_takeWhile_eq_iff.mpr zero)]

end Memory

/-! ## Registers in a row -/

/-- The cell so many places behind another one. -/
def Cell.behind : Cell → Nat → Cell
  | .stack address, count => .stack (address + count)
  | .closures address, count => .closures (address + count)

namespace Machine

variable {m : Machine} {r : Register} {words : List Int32}

/-- The bytes from a cell on up to the first zero. -/
def textFrom (m : Machine) : Cell → List UInt8
  | .stack address => m.stack.text address
  | .closures address => m.closures.text address

theorem textAt_toByte (m : Machine) (r : Register) : m.textAt r.toByte = m.textFrom (m.cell r) := by
  rw [textAt, Register.ofByte_toByte]
  cases m.cell r <;> rfl

theorem cell_shift (m : Machine) {t : Register} {count : Nat} (h : r.shift count = .ok t) :
    m.cell t = (m.cell r).behind count := by
  obtain ⟨bank, offset⟩ := Register.shift_ok h
  unfold cell
  rw [bank, offset]
  cases r.bank <;> simp only [Cell.behind, Nat.add_assoc]

/-- The registers from one on hold these words. -/
def HoldsRow (m : Machine) (r : Register) (words : List Int32) : Prop :=
  ∀ (i : Nat) word, words[i]? = some word →
    ∃ t, r.shift i = .ok t ∧ m.readCell? (m.cell t) = some word

theorem HoldsRow.readCell? (h : m.HoldsRow r words) {i : Nat} (lt : i < words.length) :
    m.readCell? ((m.cell r).behind i) = words[i]? := by
  obtain ⟨t, shifted, word⟩ := h i words[i] (List.getElem?_eq_getElem lt)
  rw [← m.cell_shift shifted, word, List.getElem?_eq_getElem lt]

/-- The text at a register whose row holds given words. -/
theorem HoldsRow.textAt (h : m.HoldsRow r words) : m.textAt r.toByte =
    if (0 : UInt8) ∈ words.flatMap Memory.bytesOf then
      (words.flatMap Memory.bytesOf).takeWhile (· != 0)
    else words.flatMap Memory.bytesOf ++ m.textFrom ((m.cell r).behind words.length) := by
  have found (i : Nat) (lt : i < words.length) := h.readCell? lt
  rw [textAt_toByte]
  cases place : m.cell r with
  | stack address | closures address =>
    rw [place] at found
    exact Memory.text_of_words found

end Machine

namespace Utf8

/-- ASCII bytes stand for their characters, whatever follows them. -/
theorem decodeLossy_append {chars : List Char} (ascii : ∀ c ∈ chars, c.toNat < 128)
    (behind : List UInt8) : decodeLossy ((chars.map fun c => UInt8.ofNat c.toNat) ++ behind) =
      String.ofList chars ++ decodeLossy behind := by
  rw [decodeLossy, decodeLossy, ← String.ofList_append]
  congr 1
  induction chars with
  | nil => rfl
  | cons c rest ih =>
    have small := ascii c List.mem_cons_self
    have byte : (UInt8.ofNat c.toNat).toNat = c.toNat := by
      rw [UInt8.toNat_ofNat']
      omega
    have alone : restart c.toNat = ([c], none) := by
      rw [restart, first, if_pos (by omega)]
      simp
    rw [List.map_cons, List.cons_append, decodeLossyFrom, byte, alone]
    simp only [List.singleton_append]
    rw [ih fun d mem => ascii d (List.mem_cons_of_mem c mem), List.cons_append]

theorem decodeLossy_ascii {chars : List Char} (ascii : ∀ c ∈ chars, c.toNat < 128) :
    decodeLossy (chars.map fun c => UInt8.ofNat c.toNat) = String.ofList chars := by
  have whole := decodeLossy_append ascii []
  rwa [List.append_nil, show decodeLossy [] = "" from rfl, String.append_empty] at whole

end Utf8

/-! ## Printing -/

namespace Run

/-- One run is as far as another once it has gone through so many instructions and printed a text. -/
structure Prints (r s : Run) (count : Nat) (text : String) : Prop where
  ticks : ∀ n, Exec.ticks .none (count + n) r = Exec.ticks .none n s
  pc : s.machine.pc = r.machine.pc + count
  top : s.machine.top = r.machine.top
  base : s.machine.base = r.machine.base
  closure : s.machine.closure = r.machine.closure
  stack : ∀ a, a < r.machine.top ∨ r.machine.top + 64 ≤ a →
    s.machine.stack.get? a = r.machine.stack.get? a
  callers : s.callers = r.callers
  prints : s.prints = text :: r.prints

variable {r s : Run} {count : Nat} {text : String}

/-- Printing the text at a register. -/
theorem Through.prints_text (h : r.Through s count) {buffer : Register} {rest : List Instruction}
    (ahead : s.machine.Ahead (.wide .print buffer 0 :: rest)) :
    ∃ t, r.Prints t (count + 1) (Utf8.decodeLossy (s.machine.textAt buffer.toByte)) ∧
      ∀ c, t.machine.readCell? c = s.machine.readCell? c := by
  have tick : Exec.tick .none s = _ := Exec.tick_of_instruction ahead.instruction? rfl
  rw [Exec.step_print rfl] at tick
  refine ⟨{ s.charge (.wide .print buffer 0) with
    machine := (s.charge (.wide .print buffer 0)).machine.advance
    prints := Utf8.decodeLossy (s.machine.textAt buffer.toByte) :: s.prints }, ?_, fun c => ?_⟩
  · refine ⟨fun n => ?_, ?_, h.top, h.base, h.closure, h.stack, h.callers, ?_⟩
    · rw [Nat.add_assoc, h.ticks, Nat.add_comm 1, Exec.ticks_of_ok tick]
      rfl
    · rw [← Nat.add_assoc, ← h.pc]
      rfl
    · rw [← h.prints]
  · rw [Machine.readCell?_advance]
    cases c <;> rfl

end Run

end WindowedClosures
