import WindowedClosures.Code.Program
import WindowedClosures.Proofs.Outcome

/-!
# Programs as bytes

Reading accepts exactly what writing makes. A word is an instruction only if the instruction is
written as that word, and the count in front of the words leaves no room for further bytes, so the
bytes of a file are those of the program that was read from it.
-/

namespace WindowedClosures

/-! ## Words -/

namespace Instruction

theorem encode_of_decode? {word : UInt32} {i : Instruction} (h : decode? word = some i) :
    i.encode = word := by
  obtain ⟨op, found, rfl⟩ := Option.map_eq_some_iff.mp h
  have code := Operation.code_of_ofCode? found
  have bound := word.toNat_lt
  apply UInt32.toNat_inj.mp
  simp only [toNat_encode, code, UInt8.toNat_ofNat', UInt16.toNat_ofNat']
  omega

theorem decode?_eq_some_iff {word : UInt32} {i : Instruction} : decode? word = some i ↔ i.encode = word :=
  ⟨encode_of_decode?, fun h => h ▸ decode?_encode i⟩

end Instruction

namespace Program

theorem wordOf_wordBytes (word : UInt32) :
    wordOf (UInt8.ofNat word.toNat) (UInt8.ofNat (word.toNat / 256)) (UInt8.ofNat (word.toNat / 65536))
      (UInt8.ofNat (word.toNat / 16777216)) = word := by
  have := word.toNat_lt
  apply UInt32.toNat_inj.mp
  simp only [wordOf, UInt32.toNat_ofNat', UInt8.toNat_ofNat']
  omega

/-! ## Code -/

/-- The bytes of instructions, one word each. -/
def codeBytes (code : List Instruction) : List UInt8 := code.flatMap fun i => wordBytes i.encode

theorem length_codeBytes (code : List Instruction) : (codeBytes code).length = code.length * 4 := by
  induction code with
  | nil => rfl
  | cons i rest ih =>
    rw [codeBytes, List.flatMap_cons, List.length_append, ← codeBytes, ih]
    simp [wordBytes]
    omega

theorem decodeWord_eq_ok_iff {word : UInt32} {i : Instruction} :
    decodeWord word = .ok i ↔ i.encode = word := by
  rw [← Instruction.decode?_eq_some_iff, decodeWord]
  cases Instruction.decode? word <;> simp

theorem decodeWords_codeBytes (code : List Instruction) : decodeWords (codeBytes code) = .ok code := by
  induction code with
  | nil => rfl
  | cons i rest ih =>
    rw [codeBytes, List.flatMap_cons, ← codeBytes, wordBytes]
    simp only [List.cons_append, List.nil_append]
    rw [decodeWords, wordOf_wordBytes, decodeWord_eq_ok_iff.mpr rfl, ih]
    rfl

/-- Whole words that are read are the words of what is read. -/
theorem codeBytes_of_decodeWords {body : List UInt8} {code : List Instruction}
    (h : decodeWords body = .ok code) (whole : 4 ∣ body.length) : codeBytes code = body := by
  fun_induction decodeWords body generalizing code with
  | case1 a b c d rest ih =>
    obtain ⟨i, word, h⟩ := except_bind_ok h
    obtain ⟨later, read, eq⟩ := except_bind_ok h
    cases eq
    have bytes := ih read (by simp only [List.length_cons] at whole; omega)
    rw [codeBytes, List.flatMap_cons, ← codeBytes, bytes, decodeWord_eq_ok_iff.mp word, wordBytes_wordOf]
    rfl
  | case2 body short =>
    -- fewer than four bytes are left, and their number is a multiple of four
    cases h
    have none : body.length = 0 := by
      rcases body with _ | ⟨a, _ | ⟨b, _ | ⟨c, _ | ⟨d, rest⟩⟩⟩⟩
      · rfl
      · exact absurd whole (by simp)
      · exact absurd whole (by simp)
      · exact absurd whole (by simp)
      · exact absurd rfl (short a b c d rest)
    rw [List.length_eq_zero_iff.mp none]
    rfl

/-! ## Files -/

theorem toBytes_eq (p : Program) : p.toBytes =
    magic ++ version :: (wordBytes (UInt32.ofNat p.instructions.length) ++ codeBytes p.instructions) := rfl

/-- What is written is read back, without the labels. -/
theorem ofBytes_toBytes (p : Program) (small : p.instructions.length < UInt32.size) :
    ofBytes p.toBytes = .ok ⟨p.instructions, []⟩ := by
  have count : (UInt32.ofNat p.instructions.length).toNat = p.instructions.length :=
    UInt32.toNat_ofNat_of_lt' small
  rw [toBytes_eq, wordBytes, magic]
  simp only [List.cons_append, List.nil_append, ofBytes]
  rw [if_neg (by decide), if_neg (by decide), wordOf_wordBytes, count, if_neg (by simp [length_codeBytes]),
    decodeWords_codeBytes]
  rfl

/-- What is read is what was written, and there are no labels in it. -/
theorem toBytes_of_ofBytes {bytes : List UInt8} {q : Program} (h : ofBytes bytes = .ok q) :
    q.toBytes = bytes ∧ q.labels = [] ∧ q.instructions.length < UInt32.size := by
  unfold ofBytes at h
  split at h
  · rename_i m0 m1 m2 m3 v c0 c1 c2 c3 body
    split at h
    · cases h
    · rename_i marked
      split at h
      · cases h
      · rename_i current
        split at h
        · cases h
        · rename_i whole
          obtain ⟨code, read, eq⟩ := except_bind_ok h
          cases eq
          simp only [ne_eq, Decidable.not_not] at marked current whole
          -- the length of the body ties the number of instructions to the count in front
          have same := codeBytes_of_decodeWords read ⟨_, whole.trans (Nat.mul_comm ..)⟩
          have length : code.length = (wordOf c0 c1 c2 c3).toNat := by
            have bytes := length_codeBytes code
            rw [same, whole] at bytes
            omega
          have count : UInt32.ofNat code.length = wordOf c0 c1 c2 c3 := by
            rw [length, UInt32.ofNat_toNat]
          refine ⟨?_, rfl, ?_⟩
          · rw [toBytes_eq, ← marked, ← current, count, wordBytes_wordOf, same]
            rfl
          · rw [length]
            exact UInt32.toNat_lt _
  · cases h

/-- Written programs are read back, what is read is written as it was, and the same goes for single
words: reading accepts what writing makes and nothing else. -/
theorem ofBytes_exact :
    (∀ p : Program, p.instructions.length < UInt32.size → ofBytes p.toBytes = .ok ⟨p.instructions, []⟩) ∧
      (∀ bytes q, ofBytes bytes = .ok q ↔
        q.toBytes = bytes ∧ q.labels = [] ∧ q.instructions.length < UInt32.size) ∧
      ∀ word i, Instruction.decode? word = some i ↔ i.encode = word := by
  refine ⟨ofBytes_toBytes, fun bytes q => ⟨toBytes_of_ofBytes, ?_⟩, fun _ _ =>
    Instruction.decode?_eq_some_iff⟩
  rintro ⟨rfl, bare, small⟩
  obtain ⟨instructions, labels⟩ := q
  cases bare
  exact ofBytes_toBytes _ small

/-- A labelled program of two instructions loses its label on the way. -/
theorem ofBytes_exact_labelled :
    ∃ p : Program, p.labels.length = 1 ∧ p.toBytes.length = 17 ∧
      ofBytes p.toBytes = .ok ⟨p.instructions, []⟩ ∧
      (⟨p.instructions, []⟩ : Program).toBytes = p.toBytes := by
  let p : Program := ⟨[⟨.ret, 0, 0⟩, ⟨.brk, 0, 0⟩], [⟨1, "f", 0⟩]⟩
  have read : ofBytes p.toBytes = .ok ⟨p.instructions, []⟩ := ofBytes_exact.1 p (by decide)
  exact ⟨p, rfl, rfl, read, ((ofBytes_exact.2.1 _ _).mp read).1⟩

end Program

end WindowedClosures
