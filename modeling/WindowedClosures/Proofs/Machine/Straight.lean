import Mathlib.Logic.Function.Basic
import WindowedClosures.Proofs.Machine.Stepping

/-!
# Straight-line code

Code that only computes words from the registers of the window and of the running closure can be
played on a table of those registers. The machine does the same: it ends up behind the code with
the registers that the table says and everything else as it was, or it stops where the table has a
division by zero.
-/

namespace WindowedClosures

/-- The words in the registers. -/
abbrev RegisterFile := Register → Int32

namespace Register

/-- A register of the running function: of its window or of its closure. -/
def Near (r : Register) : Prop := r.bank = .window ∨ r.bank = .closure

instance (r : Register) : Decidable r.Near := inferInstanceAs (Decidable (_ ∨ _))

end Register

namespace Instruction

/-- Readings that do not contradict each other compute the same word. -/
theorem result_agree {read other : UInt8 → Option Int32}
    (h : ∀ byte a b, read byte = some a → other byte = some b → a = b) (i : Instruction)
    (known : i.result read ≠ .error .memoryFault) (known' : i.result other ≠ .error .memoryFault) :
    i.result other = i.result read := by
  have combined (known : i.combine read ≠ .error .memoryFault)
      (known' : i.combine other ≠ .error .memoryFault) : i.combine other = i.combine read := by
    unfold combine at known known' ⊢
    cases hy : read i.y with
    | none => simp [hy] at known
    | some a =>
      cases hz : read i.z with
      | none => simp [hy, hz] at known
      | some b =>
        cases hy' : other i.y with
        | none => simp [hy'] at known'
        | some a' =>
          cases hz' : other i.z with
          | none => simp [hy', hz'] at known'
          | some b' => rw [h _ _ _ hy hy', h _ _ _ hz hz']
  unfold result at known known' ⊢
  cases he : i.op with
  | loadLow => rfl
  | loadHigh | inc =>
    cases hr : read i.x with
    | none => simp [he, hr] at known
    | some a =>
      cases ho : other i.x with
      | none => simp [he, ho] at known'
      | some b => simp only [h _ _ _ hr ho]
  | move =>
    cases hr : read i.y with
    | none => simp [he, hr] at known
    | some a =>
      cases ho : other i.y with
      | none => simp [he, ho] at known'
      | some b => simp only [h _ _ _ hr ho]
  | _ =>
    rw [he] at known known'
    exact combined known known'

/-- A reading that knows more registers computes the same word. -/
theorem result_mono {read more : UInt8 → Option Int32}
    (h : ∀ byte word, read byte = some word → more byte = some word) (i : Instruction)
    (known : i.result read ≠ .error .memoryFault) : i.result more = i.result read := by
  have combined (known : i.combine read ≠ .error .memoryFault) :
      i.combine more = i.combine read := by
    unfold combine at known ⊢
    cases hy : read i.y with
    | none => simp [hy] at known
    | some a =>
      cases hz : read i.z with
      | none => simp [hy, hz] at known
      | some b => rw [h _ _ hy, h _ _ hz]
  unfold result at known ⊢
  cases he : i.op with
  | loadLow => rfl
  | loadHigh | inc =>
    cases hx : read i.x with
    | none => simp [he, hx] at known
    | some word => simp only [h _ _ hx]
  | move =>
    cases hy : read i.y with
    | none => simp [he, hy] at known
    | some word => simp only [h _ _ hy]
  | _ =>
    rw [he] at known
    exact combined known

end Instruction

/-- The word in a near register. -/
def RegisterFile.read? (file : RegisterFile) (byte : UInt8) : Option Int32 :=
  if (Register.ofByte byte).Near then some (file (.ofByte byte)) else none

/-- The registers after instructions one behind the other. Only computing words from near registers
into a near register counts as straight-line code. -/
def play : List Instruction → RegisterFile → Except Halt RegisterFile
  | [], file => .ok file
  | i :: rest, file =>
    if i.op.isData ∧ (Register.ofByte i.x).Near then
      match i.result file.read? with
      | .ok word => play rest (Function.update file (.ofByte i.x) word)
      | .error halt => .error halt
    else .error .invalidOpcode

theorem play_append (front back : List Instruction) (file : RegisterFile) :
    play (front ++ back) file =
      match play front file with
      | .ok after => play back after
      | .error halt => .error halt := by
  induction front generalizing file with
  | nil => rfl
  | cons i rest ih =>
    rw [List.cons_append, play, play]
    split
    · cases i.result file.read? with
      | ok word => exact ih _
      | error halt => rfl
    · rfl

namespace Machine

/-- All near registers exist. -/
structure Seated (m : Machine) : Prop where
  window : m.top + 64 ≤ stackSize
  closure : m.closure < 256

/-- The words in the registers of a machine. -/
def file (m : Machine) : RegisterFile := fun r => (m.readCell? (m.cell r)).getD 0

theorem Seated.isSome_readCell? {m : Machine} (h : m.Seated) {r : Register} (near : r.Near) :
    (m.readCell? (m.cell r)).isSome := by
  have lt := r.offset.isLt
  have window := h.window
  have closure := h.closure
  rcases near with bank | bank
  · have address : m.top + r.offset < stackSize := by omega
    simp only [cell, bank, readCell?, Memory.isSome_get?_iff, address]
  · have address : m.closure * 64 + r.offset < closureWords := by
      have size : closureWords = 256 * 64 := rfl
      omega
    simp only [cell, bank, readCell?]
    exact (Memory.isSome_get?_iff _ _).mpr address

theorem Seated.readCell? {m : Machine} (h : m.Seated) {r : Register} (near : r.Near) :
    m.readCell? (m.cell r) = some (m.file r) := by
  obtain ⟨word, hw⟩ := Option.isSome_iff_exists.mp (h.isSome_readCell? near)
  rw [file, hw, Option.getD_some]

theorem Seated.read? {m : Machine} (h : m.Seated) {byte : UInt8} (near : (Register.ofByte byte).Near) :
    m.read? byte = some (m.file (.ofByte byte)) :=
  h.readCell? near

/-- Different near registers are different cells. -/
theorem cell_injective (m : Machine) {r s : Register} (hr : r.Near) (hs : s.Near)
    (h : m.cell r = m.cell s) : r = s := by
  obtain ⟨rb, ro⟩ := r
  obtain ⟨sb, so⟩ := s
  rcases hr with hr | hr <;> rcases hs with hs | hs <;> simp only at hr hs <;> subst hr <;> subst hs
  · have eq : m.top + ro.val = m.top + so.val := by simpa [cell] using h
    have offset : ro = so := by omega
    rw [offset]
  · simp [cell] at h
  · simp [cell] at h
  · have eq : m.closure * 64 + ro.val = m.closure * 64 + so.val := by simpa [cell] using h
    have offset : ro = so := by omega
    rw [offset]

/-- A machine whose near registers hold the words of a table. -/
def Shows (m : Machine) (file : RegisterFile) : Prop := ∀ r : Register, r.Near → m.file r = file r

/-- The instructions stand at the program counter, outside the window. -/
def Ahead (m : Machine) (code : List Instruction) : Prop :=
  ∀ k i, code[k]? = some i →
    ((m.stack.get? (m.pc + k)).bind fun word => Instruction.decode? word.toUInt32) = some i ∧
      (m.pc + k < m.top ∨ m.top + 64 ≤ m.pc + k)

/-- What a data instruction changes is one near register. -/
structure Beside (m n : Machine) : Prop where
  top : n.top = m.top
  base : n.base = m.base
  closure : n.closure = m.closure
  aux : n.aux = m.aux
  pool : n.pool = m.pool
  cells : ∀ c : Cell, (∀ r : Register, r.Near → m.cell r ≠ c) → n.readCell? c = m.readCell? c

theorem Beside.refl (m : Machine) : m.Beside m := ⟨rfl, rfl, rfl, rfl, rfl, fun _ _ => rfl⟩

theorem Beside.cell {m n : Machine} (h : m.Beside n) (r : Register) : n.cell r = m.cell r :=
  cell_congr h.top h.base h.closure h.aux r

theorem Beside.trans {l m n : Machine} (h : l.Beside m) (k : m.Beside n) : l.Beside n where
  top := k.top.trans h.top
  base := k.base.trans h.base
  closure := k.closure.trans h.closure
  aux := k.aux.trans h.aux
  pool := k.pool.trans h.pool
  cells := by
    intro c hc
    rw [k.cells c (fun r near => by rw [h.cell r]; exact hc r near), h.cells c hc]

theorem Beside.seated {m n : Machine} (h : m.Beside n) (seated : m.Seated) : n.Seated :=
  ⟨by rw [h.top]; exact seated.window, by rw [h.closure]; exact seated.closure⟩

/-- A word that is stored shows in its register. -/
theorem Shows.write {m : Machine} {file : RegisterFile} (shows : m.Shows file) {byte : UInt8}
    (near : (Register.ofByte byte).Near) (isSome : (m.read? byte).isSome) (word : Int32) :
    (m.write byte word).Shows (Function.update file (.ofByte byte) word) := by
  intro r hr
  rw [Machine.file, Machine.write, cell_writeCell]
  by_cases eq : r = .ofByte byte
  · rw [eq, readCell?_writeCell_same m _ word isSome, Function.update_self]
    rfl
  · have other : m.cell r ≠ m.cell (.ofByte byte) := fun he => eq (m.cell_injective hr near he)
    rw [readCell?_writeCell_other m _ _ word other, Function.update_of_ne eq]
    exact shows r hr

theorem beside_write (m : Machine) {byte : UInt8} (near : (Register.ofByte byte).Near) (word : Int32) :
    m.Beside (m.write byte word) := by
  refine ⟨?_, ?_, ?_, ?_, ?_, ?_⟩
  iterate 5 simp [write]
  intro c hc
  rw [write, readCell?_writeCell_other m _ _ word (hc _ near).symm]

theorem beside_advance (m : Machine) : m.Beside m.advance :=
  ⟨rfl, rfl, rfl, rfl, rfl, fun c _ => readCell?_advance m c⟩

end Machine

open Machine in
/-- One instruction on the table and on the machine. -/
theorem step_of_play {i : Instruction} {r : Run} {file : RegisterFile} (seated : r.machine.Seated)
    (shows : r.machine.Shows file) (data : i.op.isData = true) (near : (Register.ofByte i.x).Near)
    (known : i.result file.read? ≠ .error .memoryFault) :
    Exec.step i r = match i.result file.read? with
      | .ok word => .ok false { r with machine := (r.machine.write i.x word).advance }
      | .error halt => .error halt r := by
  have reads : ∀ byte word, file.read? byte = some word → r.machine.read? byte = some word := by
    intro byte word h
    unfold RegisterFile.read? at h
    split at h
    · rename_i hn
      cases h
      rw [seated.read? hn, shows _ hn]
    · cases h
  rw [Exec.step_data i r data, Instruction.result_mono reads i known]
  cases i.result file.read? with
  | error halt => rfl
  | ok word =>
    exact Exec.store_of_isSome word (by rw [seated.read? near]; rfl)

namespace Machine

/-- Code outside the window is still there when only near registers have changed. -/
theorem Ahead.tail {m n : Machine} {i : Instruction} {rest : List Instruction}
    (h : m.Ahead (i :: rest)) (beside : m.Beside n) (pc : n.pc = m.pc + 1) : n.Ahead rest := by
  intro k j hj
  obtain ⟨stands, outside⟩ := h (k + 1) j (by simpa using hj)
  have address : n.pc + k = m.pc + (k + 1) := by omega
  have kept : n.readCell? (.stack (m.pc + (k + 1))) = m.readCell? (.stack (m.pc + (k + 1))) := by
    refine beside.cells _ fun r near he => ?_
    rcases near with bank | bank
    · have lt := r.offset.isLt
      have eq : m.top + r.offset.val = m.pc + (k + 1) := by simpa [cell, bank] using he
      omega
    · simp [cell, bank] at he
  have same : n.stack.get? (m.pc + (k + 1)) = m.stack.get? (m.pc + (k + 1)) := kept
  rw [address, same, beside.top]
  exact ⟨stands, outside⟩

end Machine

theorem beside_charge (r : Run) (i : Instruction) : r.machine.Beside (r.charge i).machine :=
  ⟨rfl, rfl, rfl, rfl, rfl, fun c _ => by cases c <;> rfl⟩

section

variable {i : Instruction} {code rest : List Instruction} {r : Run} {file after : RegisterFile}

/-- A word of the table is stored by a tick of the machine, which then is at the rest of the
code. -/
theorem tick_of_word (seated : r.machine.Seated) (shows : r.machine.Shows file)
    (ahead : r.machine.Ahead (i :: rest)) (data : i.op.isData = true)
    (near : (Register.ofByte i.x).Near) {word : Int32} (result : i.result file.read? = .ok word) :
    ∃ s : Run, Exec.tick .none r = .ok false s ∧ r.machine.Beside s.machine ∧ s.machine.Seated ∧
      s.machine.Shows (Function.update file (.ofByte i.x) word) ∧ s.machine.Ahead rest ∧
      s.machine.pc = r.machine.pc + 1 ∧ s.callers = r.callers ∧ s.prints = r.prints := by
  obtain ⟨stands, -⟩ := ahead 0 i rfl
  have charged := beside_charge r i
  have seated' : (r.charge i).machine.Seated := charged.seated seated
  have step := step_of_play (r := r.charge i) seated' shows data near (by rw [result]; simp)
  rw [result] at step
  have beside := (charged.trans ((r.charge i).machine.beside_write near word)).trans
    (Machine.beside_advance _)
  have isSome : ((r.charge i).machine.read? i.x).isSome := by rw [seated'.read? near]; rfl
  have shown : ((r.charge i).machine.write i.x word).Shows
      (Function.update file (.ofByte i.x) word) :=
    Machine.Shows.write (m := (r.charge i).machine) shows near isSome word
  have pc : ((r.charge i).machine.write i.x word).advance.pc = r.machine.pc + 1 := by
    simp [Machine.write]
  refine ⟨{ r.charge i with machine := ((r.charge i).machine.write i.x word).advance }, ?_, beside,
    beside.seated seated, shown, ahead.tail beside pc, pc, rfl, rfl⟩
  rw [Exec.tick_of_instruction stands rfl, step]

/-- A fault of the table is one of the machine. -/
theorem tick_of_fault (seated : r.machine.Seated) (shows : r.machine.Shows file)
    (ahead : r.machine.Ahead (i :: rest)) (data : i.op.isData = true)
    (near : (Register.ofByte i.x).Near)
    (result : i.result file.read? = .error .divisionByZero) :
    Exec.tick .none r = .error .divisionByZero (r.charge i) := by
  obtain ⟨stands, -⟩ := ahead 0 i rfl
  have seated' : (r.charge i).machine.Seated := (beside_charge r i).seated seated
  have step := step_of_play (r := r.charge i) seated' shows data near (by rw [result]; simp)
  rw [Exec.tick_of_instruction stands rfl, step, result]

/-- Where the table gets through, the machine does so in as many ticks as there are instructions,
with the registers of the table. -/
theorem ticks_of_play (seated : r.machine.Seated) (shows : r.machine.Shows file)
    (ahead : r.machine.Ahead code) (h : play code file = .ok after) :
    ∃ s : Run, (∀ n, Exec.ticks .none (code.length + n) r = Exec.ticks .none n s) ∧
      r.machine.Beside s.machine ∧ s.machine.Shows after ∧
      s.machine.pc = r.machine.pc + code.length ∧ s.callers = r.callers ∧ s.prints = r.prints := by
  induction code generalizing r file with
  | nil =>
    cases h
    exact ⟨r, fun n => by rw [List.length_nil, Nat.zero_add], .refl _, shows, rfl, rfl, rfl⟩
  | cons i rest ih =>
    rw [play] at h
    split at h
    · rename_i computes
      obtain ⟨data, near⟩ := computes
      cases result : i.result file.read? with
      | error halt =>
        rw [result] at h
        cases h
      | ok word =>
        rw [result] at h
        obtain ⟨t, tick, beside, seated', shows', ahead', pc, callers, prints⟩ :=
          tick_of_word seated shows ahead data near result
        obtain ⟨s, ticks, beside', shows'', pc', callers', prints'⟩ := ih seated' shows' ahead' h
        refine ⟨s, ?_, beside.trans beside', shows'', ?_, callers'.trans callers,
          prints'.trans prints⟩
        · intro n
          rw [List.length_cons, Nat.add_right_comm, Exec.ticks_of_ok tick]
          exact ticks n
        · rw [pc', pc, List.length_cons]
          omega
    · cases h

/-- Where the table divides by zero, the machine does so too. -/
theorem ticks_of_play_error (seated : r.machine.Seated) (shows : r.machine.Shows file)
    (ahead : r.machine.Ahead code) (h : play code file = .error .divisionByZero) :
    ∃ s : Run, ∀ n, code.length ≤ n → Exec.ticks .none n r = .error .divisionByZero s := by
  induction code generalizing r file with
  | nil => cases h
  | cons i rest ih =>
    have enough {n : Nat} (hn : (i :: rest).length ≤ n) : ∃ m, n = m + 1 ∧ rest.length ≤ m := by
      rw [List.length_cons] at hn
      exact ⟨n - 1, by omega, by omega⟩
    rw [play] at h
    split at h
    · rename_i computes
      obtain ⟨data, near⟩ := computes
      cases result : i.result file.read? with
      | error halt =>
        rw [result] at h
        cases h
        refine ⟨r.charge i, fun n hn => ?_⟩
        obtain ⟨m, rfl, -⟩ := enough hn
        exact Exec.ticks_of_error (tick_of_fault seated shows ahead data near result) m
      | ok word =>
        rw [result] at h
        obtain ⟨t, tick, -, seated', shows', ahead', -⟩ :=
          tick_of_word seated shows ahead data near result
        obtain ⟨s, ticks⟩ := ih seated' shows' ahead' h
        refine ⟨s, fun n hn => ?_⟩
        obtain ⟨m, rfl, hm⟩ := enough hn
        rw [Exec.ticks_of_ok tick]
        exact ticks m hm
    · cases h

end

end WindowedClosures
