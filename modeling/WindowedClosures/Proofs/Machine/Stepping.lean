import WindowedClosures.Machine.Run

/-!
# Equations of the machine

What reading, writing and the instructions do, as equations between runs. A fault keeps the run it
happened in, so a result of either kind leaves a run behind.
-/

namespace WindowedClosures

theorem Memory.isSome_get?_iff {size : Nat} (m : Memory size) (address : Nat) :
    (m.get? address).isSome ↔ address < size := by
  rw [Option.isSome_iff_ne_none, ne_eq, get?_eq_none_iff, Nat.not_le]

namespace Machine

@[simp] theorem writeCell_pc (m : Machine) (c : Cell) (word : Int32) :
    (m.writeCell c word).pc = m.pc := by cases c <;> rfl
@[simp] theorem writeCell_top (m : Machine) (c : Cell) (word : Int32) :
    (m.writeCell c word).top = m.top := by cases c <;> rfl
@[simp] theorem writeCell_base (m : Machine) (c : Cell) (word : Int32) :
    (m.writeCell c word).base = m.base := by cases c <;> rfl
@[simp] theorem writeCell_closure (m : Machine) (c : Cell) (word : Int32) :
    (m.writeCell c word).closure = m.closure := by cases c <;> rfl
@[simp] theorem writeCell_aux (m : Machine) (c : Cell) (word : Int32) :
    (m.writeCell c word).aux = m.aux := by cases c <;> rfl
@[simp] theorem writeCell_pool (m : Machine) (c : Cell) (word : Int32) :
    (m.writeCell c word).pool = m.pool := by cases c <;> rfl
@[simp] theorem writeCell_ticks (m : Machine) (c : Cell) (word : Int32) :
    (m.writeCell c word).ticks = m.ticks := by cases c <;> rfl

/-- Where a register lies depends on the pointers only. -/
theorem cell_congr {m n : Machine} (top : m.top = n.top) (base : m.base = n.base)
    (closure : m.closure = n.closure) (aux : m.aux = n.aux) (r : Register) :
    m.cell r = n.cell r := by
  simp only [cell, top, base, closure, aux]

@[simp] theorem cell_writeCell (m : Machine) (c : Cell) (word : Int32) (r : Register) :
    (m.writeCell c word).cell r = m.cell r :=
  cell_congr (by simp) (by simp) (by simp) (by simp) r

theorem readCell?_writeCell_same (m : Machine) (c : Cell) (word : Int32)
    (h : (m.readCell? c).isSome) : (m.writeCell c word).readCell? c = some word := by
  cases c with
  | stack address => exact Memory.get?_set_same _ _ _ ((Memory.isSome_get?_iff _ _).mp h)
  | closures address => exact Memory.get?_set_same _ _ _ ((Memory.isSome_get?_iff _ _).mp h)

theorem readCell?_writeCell_other (m : Machine) (c d : Cell) (word : Int32) (h : d ≠ c) :
    (m.writeCell c word).readCell? d = m.readCell? d := by
  cases c with
  | stack address =>
    cases d with
    | stack other => exact Memory.get?_set_other _ _ _ _ (by intro he; exact h (by rw [he]))
    | closures other => rfl
  | closures address =>
    cases d with
    | stack other => rfl
    | closures other => exact Memory.get?_set_other _ _ _ _ (by intro he; exact h (by rw [he]))

/-- The machine at its next instruction. -/
def advance (m : Machine) : Machine := { m with pc := m.pc + 1 }

@[simp] theorem advance_pc (m : Machine) : m.advance.pc = m.pc + 1 := rfl
@[simp] theorem advance_top (m : Machine) : m.advance.top = m.top := rfl
@[simp] theorem advance_base (m : Machine) : m.advance.base = m.base := rfl
@[simp] theorem advance_closure (m : Machine) : m.advance.closure = m.closure := rfl
@[simp] theorem advance_aux (m : Machine) : m.advance.aux = m.aux := rfl
@[simp] theorem advance_pool (m : Machine) : m.advance.pool = m.pool := rfl
@[simp] theorem advance_stack (m : Machine) : m.advance.stack = m.stack := rfl
@[simp] theorem advance_closures (m : Machine) : m.advance.closures = m.closures := rfl
@[simp] theorem cell_advance (m : Machine) (r : Register) : m.advance.cell r = m.cell r := rfl
@[simp] theorem readCell?_advance (m : Machine) (c : Cell) :
    m.advance.readCell? c = m.readCell? c := by cases c <;> rfl

/-- The instruction at the program counter. -/
def instruction? (m : Machine) : Option Instruction :=
  (m.stack.get? m.pc).bind fun word => Instruction.decode? word.toUInt32

end Machine

/-- Operations that compute a word from registers and an immediate and put it into register `x`. -/
def Operation.isData : Operation → Bool
  | .loadLow | .loadHigh | .move | .inc => true
  | .add | .sub | .mul | .div | .mod | .nand | .shl | .shr => true
  | _ => false

namespace Instruction

/-- The word that an operation makes of the registers `y` and `z`, or why there is none. -/
def combine (i : Instruction) (read : UInt8 → Option Int32) : Except Halt Int32 :=
  match read i.y, read i.z with
  | some a, some b =>
    match alu? i.op a b with
    | some word => .ok word
    | none => .error .divisionByZero
  | _, _ => .error .memoryFault

/-- The word that a data instruction computes from the registers, or why it has none. -/
def result (i : Instruction) (read : UInt8 → Option Int32) : Except Halt Int32 :=
  match i.op with
  | .loadLow => .ok (Int32.ofNat i.yz.toNat)
  | .loadHigh =>
    match read i.x with
    | some word => .ok (word ||| Int32.ofNat (i.yz.toNat * 65536))
    | none => .error .memoryFault
  | .inc =>
    match read i.x with
    | some word => .ok (word + Int32.ofNat i.yz.toNat)
    | none => .error .memoryFault
  | .move =>
    match read i.y with
    | some word => .ok word
    | none => .error .memoryFault
  | _ => i.combine read

end Instruction

namespace Run

/-- The run with one more tick counted. -/
def counted (r : Run) : Run :=
  { r with machine := { r.machine with ticks := r.machine.ticks + 1 } }

/-- The run once an instruction is counted and shown to the trap. -/
def charge (r : Run) (i : Instruction) : Run :=
  { r with
    machine := { r.machine with ticks := r.machine.ticks + 1 }
    calls := (r.machine.pc, i) :: r.calls }

@[simp] theorem charge_pc (r : Run) (i : Instruction) :
    (r.charge i).machine.pc = r.machine.pc := rfl
@[simp] theorem charge_top (r : Run) (i : Instruction) :
    (r.charge i).machine.top = r.machine.top := rfl
@[simp] theorem charge_base (r : Run) (i : Instruction) :
    (r.charge i).machine.base = r.machine.base := rfl
@[simp] theorem charge_closure (r : Run) (i : Instruction) :
    (r.charge i).machine.closure = r.machine.closure := rfl
@[simp] theorem charge_aux (r : Run) (i : Instruction) :
    (r.charge i).machine.aux = r.machine.aux := rfl
@[simp] theorem charge_pool (r : Run) (i : Instruction) :
    (r.charge i).machine.pool = r.machine.pool := rfl
@[simp] theorem charge_stack (r : Run) (i : Instruction) :
    (r.charge i).machine.stack = r.machine.stack := rfl
@[simp] theorem charge_closures (r : Run) (i : Instruction) :
    (r.charge i).machine.closures = r.machine.closures := rfl
@[simp] theorem charge_callers (r : Run) (i : Instruction) :
    (r.charge i).callers = r.callers := rfl
@[simp] theorem charge_prints (r : Run) (i : Instruction) :
    (r.charge i).prints = r.prints := rfl

/-- The run inside a function that was called with the window moved by an amount. -/
def entering (r : Run) (f : FunctionWord) (amount : UInt8) : Run :=
  { r with
    callers := ⟨r.machine.pc, r.machine.top, r.machine.closure⟩ :: r.callers
    machine :=
      { r.machine with
        pc := f.address
        top := r.machine.top + amount.toNat
        closure := f.closure.toNat } }

@[simp] theorem entering_closures (r : Run) (f : FunctionWord) (amount : UInt8) :
    (r.entering f amount).machine.closures = r.machine.closures := rfl

/-- The run with the pointers of a caller, which is not among the callers any more. -/
def leaving (r : Run) (c : Caller) (rest : List Caller) : Run :=
  { r with
    callers := rest
    machine := { r.machine with pc := c.pc, top := c.top, closure := c.closure } }

end Run

namespace Exec

variable {α β : Type}

/-- The run that a result leaves behind. -/
def left : EStateM.Result Halt Run α → Run
  | .ok _ r => r
  | .error _ r => r

theorem bind_of_ok {x : Exec α} {f : α → Exec β} {r s : Run} {a : α} (h : x r = .ok a s) :
    (x >>= f) r = f a s := by
  show EStateM.bind x f r = f a s
  simp only [EStateM.bind, h]

theorem bind_of_error {x : Exec α} {f : α → Exec β} {r s : Run} {halt : Halt}
    (h : x r = .error halt s) : (x >>= f) r = .error halt s := by
  show EStateM.bind x f r = .error halt s
  simp only [EStateM.bind, h]

theorem machine_apply (r : Run) : machine r = .ok r.machine r := rfl

theorem modifyMachine_apply (f : Machine → Machine) (r : Run) :
    modifyMachine f r = .ok () { r with machine := f r.machine } := rfl

theorem skip_apply (r : Run) : skip r = .ok false { r with machine := r.machine.advance } := rfl

theorem read_of_some {r : Run} {byte : UInt8} {word : Int32} (h : r.machine.read? byte = some word) :
    read byte r = .ok word r := by
  rw [read, bind_of_ok (machine_apply r), h]
  rfl

theorem read_of_none {r : Run} {byte : UInt8} (h : r.machine.read? byte = none) :
    read byte r = .error .memoryFault r := by
  rw [read, bind_of_ok (machine_apply r), h]
  rfl

/-- Put a word into a register and go on. -/
def store (byte : UInt8) (word : Int32) : Exec Bool := do
  write byte word
  skip

theorem write_of_isSome {r : Run} {byte : UInt8} (word : Int32)
    (h : (r.machine.read? byte).isSome) :
    write byte word r = .ok () { r with machine := r.machine.write byte word } := by
  rw [write, bind_of_ok (machine_apply r), if_pos h, modifyMachine_apply]

theorem write_of_none {r : Run} {byte : UInt8} (word : Int32)
    (h : r.machine.read? byte = none) : write byte word r = .error .memoryFault r := by
  rw [write, bind_of_ok (machine_apply r), h]
  rfl

theorem store_of_isSome {r : Run} {byte : UInt8} (word : Int32)
    (h : (r.machine.read? byte).isSome) :
    store byte word r = .ok false { r with machine := (r.machine.write byte word).advance } := by
  rw [store, bind_of_ok (write_of_isSome word h), skip_apply]

theorem store_of_none {r : Run} {byte : UInt8} (word : Int32)
    (h : r.machine.read? byte = none) : store byte word r = .error .memoryFault r := by
  rw [store, bind_of_error (write_of_none word h)]

theorem store_ok {r s : Run} {byte : UInt8} {word : Int32} {ended : Bool}
    (h : store byte word r = .ok ended s) :
    (r.machine.read? byte).isSome ∧ s = { r with machine := (r.machine.write byte word).advance } := by
  cases old : r.machine.read? byte with
  | none =>
    rw [store_of_none word old] at h
    cases h
  | some before =>
    rw [store_of_isSome word (by rw [old]; rfl)] at h
    cases h
    exact ⟨rfl, rfl⟩

theorem arithmetic_apply (i : Instruction) (r : Run) :
    arithmetic i r = match i.combine r.machine.read? with
      | .ok word => store i.x word r
      | .error halt => .error halt r := by
  rw [arithmetic, Instruction.combine]
  cases hy : r.machine.read? i.y with
  | none => rw [bind_of_error (read_of_none hy)]
  | some a =>
    rw [bind_of_ok (read_of_some hy)]
    cases hz : r.machine.read? i.z with
    | none => rw [bind_of_error (read_of_none hz)]
    | some b =>
      rw [bind_of_ok (read_of_some hz)]
      cases ha : alu? i.op a b with
      | none => simp only [ha]; rfl
      | some word => simp only [ha]; rfl

/-- A data instruction computes its word and stores it. -/
theorem step_data (i : Instruction) (r : Run) (data : i.op.isData = true) :
    step i r = match i.result r.machine.read? with
      | .ok word => store i.x word r
      | .error halt => .error halt r := by
  cases he : i.op with
  | loadLow => simp only [step, Instruction.result, he]; rfl
  | loadHigh | inc =>
    simp only [step, Instruction.result, he]
    cases hx : r.machine.read? i.x with
    | none => rw [bind_of_error (read_of_none hx)]
    | some word => rw [bind_of_ok (read_of_some hx)]; rfl
  | move =>
    simp only [step, Instruction.result, he]
    cases hy : r.machine.read? i.y with
    | none => rw [bind_of_error (read_of_none hy)]
    | some word => rw [bind_of_ok (read_of_some hy)]; rfl
  | add | sub | mul | div | mod | nand | shl | shr =>
    simp only [step, Instruction.result, he, arithmetic_apply]
  | _ => simp [he, Operation.isData] at data

theorem step_data_ok {i : Instruction} {r s : Run} {ended : Bool} (data : i.op.isData = true)
    (h : step i r = .ok ended s) :
    ∃ word, i.result r.machine.read? = .ok word ∧ store i.x word r = .ok ended s := by
  rw [step_data i r data] at h
  split at h
  · rename_i word result
    exact ⟨word, result, h⟩
  · cases h

theorem step_print {i : Instruction} (h : i.op = .print) (r : Run) :
    step i r = .ok false
      { r with
        machine := r.machine.advance
        prints := Utf8.decodeLossy (r.machine.textAt i.x) :: r.prints } := by
  simp only [step, h]
  rfl

/-- The machine with a closure handed out and selected. -/
def selecting (r : Run) : Run :=
  { r with
    machine :=
      { r.machine with
        pool := r.machine.pool.alloc.2
        aux := r.machine.pool.alloc.1.toNat } }

theorem step_closureMake {i : Instruction} (h : i.op = .closureMake) (r : Run) :
    step i r = store i.x (FunctionWord.word r.machine.pool.alloc.1 i.yz) (selecting r) := by
  simp only [step, h]
  rfl

theorem step_callRegister {i : Instruction} (h : i.op = .callRegister) (r : Run) :
    step i r = match r.machine.read? i.y with
      | some word => .ok false (r.entering (.ofWord word) i.x)
      | none => .error .memoryFault r := by
  simp only [step, h]
  cases hy : r.machine.read? i.y with
  | none => rw [bind_of_error (read_of_none hy)]
  | some word => rw [bind_of_ok (read_of_some hy)]; rfl

/-- A return goes on behind the call, unless it ends the program's own body. -/
theorem step_ret {i : Instruction} (h : i.op = .ret) (r : Run) :
    step i r = match r.callers with
      | [] => .ok true r
      | [c] => .ok true (r.leaving c [])
      | c :: d :: rest =>
        .ok false { r.leaving c (d :: rest) with machine := (r.leaving c (d :: rest)).machine.advance } := by
  simp only [step, h, leave]
  rw [bind_of_ok (show (get : Exec Run) r = .ok r r from rfl)]
  match r.callers with
  | [] => rfl
  | [c] => rfl
  | c :: d :: rest => rfl

theorem fetch_of_instruction {r : Run} {i : Instruction} (h : r.machine.instruction? = some i) :
    fetch r = .ok i r := by
  rw [fetch, bind_of_ok (machine_apply r)]
  obtain ⟨word, hw, hi⟩ := Option.bind_eq_some_iff.mp h
  simp only [hw, hi]
  rfl

theorem fetch_of_none {r : Run} (h : r.machine.instruction? = none) :
    ∃ halt, fetch r = .error halt r := by
  rw [fetch, bind_of_ok (machine_apply r)]
  cases hw : r.machine.stack.get? r.machine.pc with
  | none => exact ⟨.memoryFault, rfl⟩
  | some word =>
    simp only [Machine.instruction?, hw, Option.bind_some] at h
    simp only [h]
    exact ⟨.invalidOpcode, rfl⟩

theorem consult_apply (trap : Trap) (i : Instruction) (r : Run) :
    consult trap i r.counted =
      if trap r.machine.ticks r.machine.pc i = 0 then .ok () (r.charge i)
      else .error (.trapped (trap r.machine.ticks r.machine.pc i)) (r.charge i) := by
  rw [consult, bind_of_ok (machine_apply _)]
  rw [bind_of_ok (show (modify _ : Exec Unit) r.counted = .ok () (r.charge i) from rfl)]
  simp only [Run.counted, Nat.add_sub_cancel]
  split <;> rfl

/-- A tick that the trap lets pass carries out the instruction at the program counter. -/
theorem tick_of_instruction {trap : Trap} {r : Run} {i : Instruction}
    (h : r.machine.instruction? = some i) (pass : trap r.machine.ticks r.machine.pc i = 0) :
    tick trap r = step i (r.charge i) := by
  have hc : consult trap i r.counted = .ok () (r.charge i) := by
    rw [consult_apply, if_pos pass]
  rw [tick, bind_of_ok (show modifyMachine _ r = .ok () r.counted from rfl),
    bind_of_ok (fetch_of_instruction (r := r.counted) h), bind_of_ok hc]

/-- Whatever a tick leaves behind is left by the instruction, or only counts the tick. -/
theorem left_tick (trap : Trap) (r : Run) :
    ((left (tick trap r)).machine = r.counted.machine ∧
        ∃ halt, tick trap r = .error halt (left (tick trap r))) ∨
      ∃ i, r.machine.instruction? = some i ∧ tick trap r = step i (r.charge i) := by
  cases hi : r.machine.instruction? with
  | none =>
    left
    obtain ⟨halt, hf⟩ := fetch_of_none (r := r.counted) hi
    rw [tick, bind_of_ok (show modifyMachine _ r = .ok () r.counted from rfl), bind_of_error hf]
    exact ⟨rfl, halt, rfl⟩
  | some i =>
    by_cases pass : trap r.machine.ticks r.machine.pc i = 0
    · exact .inr ⟨i, rfl, tick_of_instruction hi pass⟩
    · left
      have hc := consult_apply trap i r
      rw [if_neg pass] at hc
      rw [tick, bind_of_ok (show modifyMachine _ r = .ok () r.counted from rfl),
        bind_of_ok (fetch_of_instruction (r := r.counted) hi), bind_of_error hc]
      exact ⟨rfl, _, rfl⟩

theorem tick_ok {trap : Trap} {r s : Run} {ended : Bool} (h : tick trap r = .ok ended s) :
    ∃ i, r.machine.instruction? = some i ∧ step i (r.charge i) = .ok ended s := by
  rcases left_tick trap r with ⟨-, halt, he⟩ | ⟨i, hi, he⟩
  · rw [he] at h
    cases h
  · exact ⟨i, hi, he ▸ h⟩

theorem ticks_of_ok {trap : Trap} {r s : Run} (h : tick trap r = .ok false s) (n : Nat) :
    ticks trap (n + 1) r = ticks trap n s := by
  rw [ticks, bind_of_ok h]
  rfl

theorem ticks_of_end {trap : Trap} {r s : Run} (h : tick trap r = .ok true s) (n : Nat) :
    ticks trap (n + 1) r = .ok () s := by
  rw [ticks, bind_of_ok h]
  rfl

theorem ticks_of_error {trap : Trap} {r s : Run} {halt : Halt} (h : tick trap r = .error halt s)
    (n : Nat) : ticks trap (n + 1) r = .error halt s := by
  rw [ticks, bind_of_error h]

end Exec

end WindowedClosures
