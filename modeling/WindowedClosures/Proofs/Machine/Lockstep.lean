import WindowedClosures.Proofs.Code.Footprint
import WindowedClosures.Proofs.Machine.Straight
import WindowedClosures.Proofs.Machine.Windows

/-!
# Runs that differ in one cell

Two runs at the same point, with memories that differ in one cell at most, stay together as long as no
instruction looks at that cell. A run that goes through a part of the code of its window, calls
included, does not look at a register of the window if the part does not and puts all frames above
it: a callee looks at its own window, which starts higher, and at its closure.
-/

namespace WindowedClosures

theorem Memory.textFrom_congr {size : Nat} {m n : Memory size} {address : Nat}
    (h : ∀ a, address ≤ a → n.get? a = m.get? a) (count : Nat) (found : List UInt8) :
    n.textFrom count address found = m.textFrom count address found := by
  induction count generalizing address found with
  | zero => rfl
  | succ count ih =>
    rw [textFrom, textFrom, h address (Nat.le_refl _)]
    cases m.get? address with
    | none => rfl
    | some word =>
      dsimp only
      split
      · rfl
      · exact ih (fun a le => h a (by omega)) _

namespace Instruction

/-- A data instruction computes its word from the registers that it reads. -/
theorem result_congr {i : Instruction} {read other : UInt8 → Option Int32} (data : i.op.isData = true)
    (h : ∀ byte, i.reads (.ofByte byte) = true → other byte = read byte) :
    i.result other = i.result read := by
  have combined (arithmetic : ∀ r, (r == .ofByte i.y || r == .ofByte i.z) = true → i.reads r = true) :
      i.combine other = i.combine read := by
    rw [combine, combine, h i.y (arithmetic _ (by simp)), h i.z (arithmetic _ (by simp))]
  cases op : i.op <;> simp only [op, Operation.isData, Bool.false_eq_true] at data
  case loadLow => simp only [result, op]
  case loadHigh => simp only [result, op, h i.x (by simp [reads, op])]
  case inc => simp only [result, op, h i.x (by simp [reads, op])]
  case move => simp only [result, op, h i.y (by simp [reads, op])]
  all_goals
    simp only [result, op]
    exact combined fun r read => by simpa only [reads, op] using read

/-- An instruction, carried out by a machine, does not look at a cell: none of its registers lies
there, and a printed text starts behind it on the stack. -/
structure Overlooks (i : Instruction) (m : Machine) (c : Cell) : Prop where
  reads : ∀ t, i.reads t = true → m.cell t ≠ c
  text : i.op = .print → ∃ address, m.cell (.ofByte i.x) = .stack address ∧
    ∀ a, address ≤ a → .stack a ≠ c

end Instruction

namespace Run

/-- The run with other words in its memory. -/
def withMemory (r : Run) (stack : Memory stackSize) (closures : Memory closureWords) : Run :=
  { r with machine := { r.machine with stack := stack, closures := closures } }

/-- The same run but for the word in one cell. -/
def AgreesOff (c : Cell) (r s : Run) : Prop :=
  ∃ stack closures, s = r.withMemory stack closures ∧
    ∀ d, d ≠ c → s.machine.readCell? d = r.machine.readCell? d

variable {c : Cell} {r r' s : Run}

theorem AgreesOff.refl (c : Cell) (r : Run) : r.AgreesOff c r :=
  ⟨r.machine.stack, r.machine.closures, rfl, fun _ _ => rfl⟩

theorem AgreesOff.cell (h : r.AgreesOff c r') (t : Register) :
    r'.machine.cell t = r.machine.cell t := by
  obtain ⟨stack, closures, rfl, -⟩ := h
  rfl

theorem AgreesOff.charge (h : r.AgreesOff c r') (i : Instruction) :
    (r.charge i).AgreesOff c (r'.charge i) := by
  obtain ⟨stack, closures, rfl, cells⟩ := h
  exact ⟨stack, closures, rfl, cells⟩

/-- Whether a cell exists does not depend on the words. -/
theorem isSome_readCell? (m n : Machine) (c : Cell) :
    (n.readCell? c).isSome = (m.readCell? c).isSome := by
  cases c with
  | stack address => rw [Bool.eq_iff_iff]; simp only [Machine.readCell?, Memory.isSome_get?_iff]
  | closures address => rw [Bool.eq_iff_iff]; simp only [Machine.readCell?, Memory.isSome_get?_iff]

/-- A word put into the same cell. -/
theorem agreesOff_writeCell (r : Run) (word : Int32) :
    r.AgreesOff c { r with machine := r.machine.writeCell c word } := by
  refine ⟨(r.machine.writeCell c word).stack, (r.machine.writeCell c word).closures, ?_, ?_⟩
  · cases c <;> rfl
  · exact fun d ne => Machine.readCell?_writeCell_other _ _ _ _ ne

end Run

namespace Exec

variable {c : Cell} {r r' s : Run} {i : Instruction}

theorem read?_agreesOff (h : r.AgreesOff c r') {byte : UInt8}
    (other : r.machine.cell (.ofByte byte) ≠ c) : r'.machine.read? byte = r.machine.read? byte := by
  rw [Machine.read?, Machine.read?, h.cell]
  obtain ⟨stack, closures, rfl, cells⟩ := h
  exact cells _ other

/-- Storing the same word keeps runs together, whichever cell it goes to. -/
theorem store_agreesOff (h : r.AgreesOff c r') {byte : UInt8} {word : Int32} {ended : Bool}
    (hs : store byte word r = .ok ended s) :
    ∃ s', store byte word r' = .ok ended s' ∧ s.AgreesOff c s' := by
  obtain ⟨isSome, rfl⟩ := store_ok hs
  have isSome' : (r'.machine.read? byte).isSome := by
    rw [Machine.read?, h.cell, Run.isSome_readCell? r.machine]
    exact isSome
  rw [store_of_isSome word isSome] at hs
  cases hs
  refine ⟨_, store_of_isSome word isSome', ?_⟩
  have place := h.cell (.ofByte byte)
  obtain ⟨stack, closures, rfl, cells⟩ := h
  refine ⟨((r.withMemory stack closures).machine.write byte word).stack,
    ((r.withMemory stack closures).machine.write byte word).closures, ?_, fun d ne => ?_⟩
  · unfold Machine.write
    rw [place]
    cases r.machine.cell (.ofByte byte) <;> rfl
  · show ((r.withMemory stack closures).machine.write byte word).advance.readCell? d =
      (r.machine.write byte word).advance.readCell? d
    rw [Machine.readCell?_advance, Machine.readCell?_advance, Machine.write, Machine.write, place]
    by_cases same : d = r.machine.cell (.ofByte byte)
    · subst same
      rw [Machine.readCell?_writeCell_same _ _ word isSome,
        Machine.readCell?_writeCell_same _ _ word (place ▸ isSome')]
    · rw [Machine.readCell?_writeCell_other _ _ _ word same,
        Machine.readCell?_writeCell_other _ _ _ word same]
      exact cells d ne

/-- An instruction that does not look at the cell does the same to both runs. -/
theorem step_agreesOff (h : r.AgreesOff c r') (confined : i.Confined)
    (overlooks : i.Overlooks r.machine c) {ended : Bool} (hs : step i r = .ok ended s) :
    ∃ s', step i r' = .ok ended s' ∧ s.AgreesOff c s' := by
  have data (isData : i.op.isData = true) : ∃ s', step i r' = .ok ended s' ∧ s.AgreesOff c s' := by
    obtain ⟨word, result, stored⟩ := step_data_ok isData hs
    obtain ⟨s', stored', agrees⟩ := store_agreesOff h stored
    refine ⟨s', ?_, agrees⟩
    rw [step_data i r' isData, Instruction.result_congr isData fun byte read =>
      read?_agreesOff h (overlooks.reads _ read), result]
    exact stored'
  unfold Instruction.Confined at confined
  cases op : i.op <;> simp only [op] at confined
  case print =>
    rw [step_print op] at hs
    cases hs
    refine ⟨_, step_print op r', ?_⟩
    obtain ⟨address, start, behind⟩ := overlooks.text op
    have same : r'.machine.textAt i.x = r.machine.textAt i.x := by
      have start' := (h.cell (.ofByte i.x)).trans start
      obtain ⟨stack, closures, rfl, cells⟩ := h
      rw [Machine.textAt, Machine.textAt, start, start']
      exact Memory.textFrom_congr (fun a le => cells (.stack a) (behind a le)) _ _
    rw [same]
    obtain ⟨stack, closures, rfl, cells⟩ := h
    refine ⟨stack, closures, rfl, fun d ne => ?_⟩
    exact (Machine.readCell?_advance _ d).trans
      ((cells d ne).trans (Machine.readCell?_advance r.machine d).symm)
  case closureMake =>
    rw [step_closureMake op] at hs
    rw [step_closureMake op]
    have selected : (selecting r).AgreesOff c (selecting r') := by
      obtain ⟨stack, closures, rfl, cells⟩ := h
      exact ⟨stack, closures, rfl, cells⟩
    obtain ⟨s', stored, agrees⟩ := store_agreesOff selected hs
    refine ⟨s', ?_, agrees⟩
    obtain ⟨stack, closures, rfl, -⟩ := h
    exact stored
  case callRegister =>
    have same := read?_agreesOff h (overlooks.reads (.ofByte i.y) (by simp [Instruction.reads, op]))
    rw [step_callRegister op] at hs
    rw [step_callRegister op, same]
    split at hs
    · cases hs
      refine ⟨_, rfl, ?_⟩
      obtain ⟨stack, closures, rfl, cells⟩ := h
      exact ⟨stack, closures, rfl, cells⟩
    · cases hs
  case ret =>
    rw [step_ret op] at hs
    rw [step_ret op]
    obtain ⟨stack, closures, rfl, cells⟩ := h
    rw [show (r.withMemory stack closures).callers = r.callers from rfl]
    cases hc : r.callers with
    | nil =>
      rw [hc] at hs
      cases hs
      exact ⟨_, rfl, stack, closures, rfl, cells⟩
    | cons _ outer =>
      cases outer with
      | nil | cons =>
        rw [hc] at hs
        cases hs
        exact ⟨_, rfl, stack, closures, rfl, cells⟩
  all_goals exact data (by rw [op]; rfl)

variable {trap : Trap} {code : List Instruction}

/-- So does a tick, if the cell is none of the code. -/
theorem goes_agreesOff (h : r.AgreesOff c r') (outside : ∀ a, a < code.length → .stack a ≠ c)
    (goes : Goes trap code r s)
    (overlooks : ∀ i, r.machine.instruction? = some i → i.Confined ∧ i.Overlooks r.machine c) :
    ∃ s', Goes trap code r' s' ∧ s.AgreesOff c s' := by
  obtain ⟨lt, ticked⟩ := goes
  have here : r'.machine.instruction? = r.machine.instruction? := by
    obtain ⟨stack, closures, rfl, cells⟩ := h
    have same := cells (.stack r.machine.pc) (outside _ lt)
    exact congrArg (Option.bind · fun word => Instruction.decode? word.toUInt32) same
  obtain ⟨i, hi, hs⟩ := tick_ok ticked
  have pass : trap r.machine.ticks r.machine.pc i = 0 := by
    by_contra stopped
    have refused := consult_apply trap i r
    rw [if_neg stopped] at refused
    rw [tick, bind_of_ok (show modifyMachine _ r = .ok () r.counted from rfl),
      bind_of_ok (fetch_of_instruction (r := r.counted) hi), bind_of_error refused] at ticked
    cases ticked
  obtain ⟨confined, overlooked⟩ := overlooks i hi
  have looked : i.Overlooks (r.charge i).machine c := ⟨overlooked.reads, overlooked.text⟩
  obtain ⟨s', stepped, agrees⟩ := step_agreesOff (h.charge i) confined looked hs
  refine ⟨s', ⟨?_, ?_⟩, agrees⟩
  · obtain ⟨stack, closures, rfl, -⟩ := h
    exact lt
  · have pass' : trap r'.machine.ticks r'.machine.pc i = 0 := by
      obtain ⟨stack, closures, rfl, -⟩ := h
      exact pass
    rw [tick_of_instruction (here.trans hi) pass']
    exact stepped

/-! ## Through a part of the code -/

/-- An instruction that does not return goes on to the next one or enters a function. -/
theorem next_or_enters (confined : i.Confined) (stays : i.op ≠ .ret) (h : step i r = .ok false s) :
    (s.callers = r.callers ∧ s.machine.pc = r.machine.pc + 1 ∧ s.machine.top = r.machine.top ∧
      s.machine.closure = r.machine.closure) ∨
    (i.op = .callRegister ∧ ∃ f, s = r.entering f i.x) := by
  have stored {q : Run} {byte : UInt8} {word : Int32} (hs : store byte word q = .ok false s) :
      s.callers = q.callers ∧ s.machine.pc = q.machine.pc + 1 ∧ s.machine.top = q.machine.top ∧
        s.machine.closure = q.machine.closure := by
    obtain ⟨-, rfl⟩ := store_ok hs
    exact ⟨rfl, by simp, by simp, by simp⟩
  unfold Instruction.Confined at confined
  cases op : i.op <;> simp only [op] at confined
  case ret => exact (stays op).elim
  case print =>
    rw [step_print op] at h
    cases h
    exact .inl ⟨rfl, rfl, rfl, rfl⟩
  case closureMake =>
    rw [step_closureMake op] at h
    obtain ⟨callers, pc, top, closure⟩ := stored h
    exact .inl ⟨callers, pc, top, closure⟩
  case callRegister =>
    rw [step_callRegister op] at h
    split at h
    · cases h
      exact .inr ⟨rfl, _, rfl⟩
    · cases h
  all_goals
    obtain ⟨word, -, hs⟩ := step_data_ok (by rw [op]; rfl) h
    exact .inl (stored hs)

/-- A run in the window where another one was, up to so many instructions further. -/
structure Level (start : Run) (count : Nat) (s : Run) : Prop where
  callers : s.callers = start.callers
  top : s.machine.top = start.machine.top
  closure : s.machine.closure = start.machine.closure
  pc : ∃ k ≤ count, s.machine.pc = start.machine.pc + k

/-- A run is behind so many instructions of the window where it was. -/
def Arrived (start : Run) (count : Nat) (s : Run) : Prop :=
  s.callers.length = start.callers.length ∧ s.machine.pc = start.machine.pc + count

/-- A run on its way through so many instructions: in the window, or in a call from there whose frame
is not below a watermark. A call may read whatever the closure holds, so there is none if a register
of the closure is watched. -/
inductive Passing (start : Run) (count watermark : Nat) (dst : Register) (s : Run) : Prop
  | level : Level start count s → Passing start count watermark dst s
  | inside (q : Run) (floor : Nat) : dst.bank = .window → Level start count q →
      q.machine.pc < start.machine.pc + count → start.machine.top + watermark ≤ floor →
      Inside q floor s → Passing start count watermark dst s

/-- One tick of a run that has not arrived. -/
def Passes (trap : Trap) (code : List Instruction) (start : Run) (count : Nat) (a b : Run) : Prop :=
  Goes trap code a b ∧ ¬ Arrived start count a

open Footprint

variable {start a b : Run} {part : List Instruction} {watermark : Nat} {dst : Register}

/-- The instruction at a place of the part. -/
theorem Level.instruction? (level : Level start part.length a) (open_ : ¬ Arrived start part.length a)
    (lies : part <+: code.drop start.machine.pc) (intact : Intact code a)
    (hi : a.machine.instruction? = some i) (lt : a.machine.pc < code.length) :
    i ∈ part ∧ a.machine.pc < start.machine.pc + part.length := by
  obtain ⟨k, le, pc⟩ := level.pc
  have inside : k < part.length := by
    refine Nat.lt_of_le_of_ne le fun eq => open_ ⟨?_, by rw [pc, eq]⟩
    rw [level.callers]
  refine ⟨?_, by omega⟩
  have found : part[k]? = some i := by
    obtain ⟨rest, eq⟩ := lies
    have here : (code.drop start.machine.pc)[k]? = some i := by
      rw [List.getElem?_drop, ← pc, ← intact.holds.instruction? lt]
      exact hi
    rw [← eq, List.getElem?_append_left inside] at here
    exact here
  exact List.mem_of_getElem? found

/-- A part of loaded code that watches its step: it does not look at a register, it puts all frames
above a watermark, and it makes no call if the register is one of the closure. -/
structure Watches (code part : List Instruction) (start : Run) (watermark : Nat) (dst : Register) :
    Prop where
  lies : part <+: code.drop start.machine.pc
  avoids : ∀ i ∈ part, (Footprint.avoids Register.Near dst watermark).Holds ⟨i, none, none⟩
  below : dst.Below watermark
  calls : dst.bank = .closure → ∀ i ∈ part, i.op ≠ .callRegister

/-- A tick on the way stays on the way. -/
theorem Passing.goes (confined : ∀ i ∈ code, i.Confined)
    (watches : Watches code part start watermark dst) (intact : Intact code a)
    (h : Passing start part.length watermark dst a)
    (passes : Passes trap code start part.length a b) : Passing start part.length watermark dst b := by
  obtain ⟨goes, open_⟩ := passes
  cases h with
  | level level =>
    obtain ⟨i, hi, stepped⟩ := tick_ok goes.2
    obtain ⟨mem, behind⟩ := level.instruction? open_ watches.lies intact hi goes.1
    have holds := watches.avoids i mem
    have own := confined i (List.mem_of_getElem? (intact.holds.instruction? goes.1 ▸ hi))
    obtain ⟨k, le, place⟩ := level.pc
    rcases next_or_enters own holds.stays stepped with ⟨callers, pc, top, closure⟩ | ⟨op, f, rfl⟩
    · rw [Run.charge_pc] at pc
      exact .level ⟨callers.trans level.callers, top.trans level.top, closure.trans level.closure,
        k + 1, by omega, by omega⟩
    · have frame : watermark ≤ i.x.toNat := holds.frame op
      have top := level.top
      have window : dst.bank = .window := by
        rcases watches.below with bank | ⟨bank, -⟩
        · exact (watches.calls bank i mem op).elim
        · exact bank
      refine .inside a (a.machine.top + i.x.toNat) window level behind (by omega) ?_
      exact ⟨⟨[], rfl, by simp⟩, Nat.le_refl _, .refl _ _⟩
  | inside q floor window level behind above inside =>
    by_cases deep : q.callers.length < b.callers.length
    · exact .inside q floor window level behind above (inside.goes confined intact goes deep)
    · obtain ⟨callers, pc, top, closure, -⟩ := inside.returns confined intact goes (by omega)
      obtain ⟨k, le, place⟩ := level.pc
      exact .level ⟨callers.trans level.callers, top.trans level.top, closure.trans level.closure,
        k + 1, by omega, by omega⟩

/-- What a run on its way carries out does not look at the register. -/
theorem Passing.overlooks (near : ∀ i ∈ code, i.op = .ret ∨ Footprint.near.Holds ⟨i, none, none⟩)
    (watches : Watches code part start watermark dst) (intact : Intact code a)
    (h : Passing start part.length watermark dst a) (open_ : ¬ Arrived start part.length a)
    (lt : a.machine.pc < code.length) (hi : a.machine.instruction? = some i) :
    i.Overlooks a.machine (start.machine.cell dst) := by
  cases h with
  | level level =>
    obtain ⟨mem, -⟩ := level.instruction? open_ watches.lies intact hi lt
    have holds := watches.avoids i mem
    have place : start.machine.cell dst = a.machine.cell dst := by
      rcases watches.below with bank | ⟨bank, -⟩
      · simp only [Machine.cell, bank, level.closure]
      · simp only [Machine.cell, bank, level.top]
    rw [place]
    refine ⟨fun t read same => ?_, fun op => ?_⟩
    · obtain ⟨hn, ne⟩ := holds.reads t read
      exact ne (a.machine.cell_injective hn watches.below.near same)
    · have bank := holds.text op
      refine ⟨a.machine.top + (Register.ofByte i.x).offset, by simp only [Machine.cell, bank], ?_⟩
      intro address le same
      rcases watches.below with closure | ⟨window, -⟩
      · simp [Machine.cell, closure] at same
      · simp only [Machine.cell, window, Cell.stack.injEq] at same
        have read : i.reads dst = true := by
          simp only [Instruction.reads, op, bank, window, beq_self_eq_true, Bool.true_and,
            decide_eq_true_eq]
          show (Register.ofByte i.x).offset.val ≤ dst.offset.val
          omega
        exact (holds.reads dst read).2 rfl
  | inside q floor window level behind above inside =>
    have high := inside.top
    have low : dst.offset.val < watermark := by
      rcases watches.below with bank | ⟨-, low⟩
      · rw [window] at bank
        cases bank
      · exact low
    rcases near i (List.mem_of_getElem? (intact.holds.instruction? lt ▸ hi)) with op | holds
    · exact ⟨fun t read => by simp [Instruction.reads, op] at read, fun print => by
        rw [op] at print
        cases print⟩
    · refine ⟨fun t read same => ?_, fun op => ?_⟩
      · rcases holds.reads t read with bank | bank
        · simp only [Machine.cell, bank, window, Cell.stack.injEq] at same
          omega
        · simp [Machine.cell, bank, window] at same
      · have bank := holds.text op
        refine ⟨a.machine.top + (Register.ofByte i.x).offset, by simp only [Machine.cell, bank], ?_⟩
        intro address le same
        simp only [Machine.cell, window, Cell.stack.injEq] at same
        omega

open Relation (ReflTransGen)

/-- Runs that differ in the register only go through the part together. -/
theorem passes_agreesOff (confined : ∀ i ∈ code, i.Confined)
    (near : ∀ i ∈ code, i.op = .ret ∨ Footprint.near.Holds ⟨i, none, none⟩) {start' : Run}
    (watches : Watches code part start watermark dst) (intact : Intact code start)
    (agrees : start.AgreesOff (start.machine.cell dst) start')
    (h : ReflTransGen (Passes trap code start part.length) start a) :
    ∃ a', ReflTransGen (Passes trap code start' part.length) start' a' ∧
      a.AgreesOff (start.machine.cell dst) a' ∧ Intact code a ∧
      Passing start part.length watermark dst a := by
  have outside : ∀ address, address < code.length → Cell.stack address ≠ start.machine.cell dst := by
    intro address lt same
    have above := intact.above.top
    rcases watches.below with bank | ⟨bank, -⟩
    · simp [Machine.cell, bank] at same
    · simp only [Machine.cell, bank, Cell.stack.injEq] at same
      omega
  have arrived {a a' : Run} (together : a.AgreesOff (start.machine.cell dst) a')
      (h : Arrived start' part.length a') : Arrived start part.length a := by
    obtain ⟨stack, closures, rfl, -⟩ := agrees
    obtain ⟨stack, closures, rfl, -⟩ := together
    exact h
  induction h with
  | refl =>
    refine ⟨start', .refl, agrees, intact, .level ⟨rfl, rfl, rfl, 0, Nat.zero_le _, rfl⟩⟩
  | @tail a b _ passes ih =>
    obtain ⟨a', path, together, whole, passing⟩ := ih
    obtain ⟨goes, open_⟩ := passes
    obtain ⟨b', goes', together'⟩ := goes_agreesOff together outside goes fun i hi =>
      ⟨confined i (List.mem_of_getElem? (whole.holds.instruction? goes.1 ▸ hi)),
        passing.overlooks near watches whole open_ goes.1 hi⟩
    refine ⟨b', path.tail ⟨goes', fun ended => open_ (arrived together ended)⟩, together',
      whole.goes confined goes, passing.goes confined watches whole ⟨goes, open_⟩⟩

end Exec

end WindowedClosures
