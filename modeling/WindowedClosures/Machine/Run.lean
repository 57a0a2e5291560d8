import WindowedClosures.Code.Program
import WindowedClosures.Machine.Step

/-!
# Runs

A run loads a program and carries out one instruction per tick until the program's body returns,
an instruction fails, the ticks are used up or the trap asks to stop. The trap is shown every
instruction before it is carried out, with the number of instructions it was shown before. After a
run that is not successful the machine stands where the run stopped.
-/

namespace WindowedClosures

/-- Called with the number of earlier calls, the address and the instruction. An answer other than
0 ends the run with that status. -/
abbrev Trap := Nat → Nat → Instruction → Int32

/-- The trap that never stops a run. -/
def Trap.none : Trap := fun _ _ _ => 0

/-- How a run ended, and what it left behind. -/
structure Outcome where
  halt : Halt
  machine : Machine
  /-- The texts printed, in order. -/
  prints : List String
  /-- The instructions shown to the trap with their addresses, in order. -/
  calls : List (Nat × Instruction)

namespace Exec

/-- The instruction at the program counter. -/
def fetch : Exec Instruction := do
  let m ← machine
  match m.stack.get? m.pc with
  | none => throw .memoryFault
  | some word =>
    match Instruction.decode? word.toUInt32 with
    | none => throw .invalidOpcode
    | some i => return i

/-- Show an instruction to the trap. -/
def consult (trap : Trap) (i : Instruction) : Exec Unit := do
  let m ← machine
  modify fun r => { r with calls := (m.pc, i) :: r.calls }
  let status := trap (m.ticks - 1) m.pc i
  if status = 0 then return () else throw (.trapped status)

/-- One tick: the answer says whether the run is over. -/
def tick (trap : Trap) : Exec Bool := do
  modifyMachine fun m => { m with ticks := m.ticks + 1 }
  let i ← fetch
  consult trap i
  step i

/-- Up to a number of ticks. -/
def ticks (trap : Trap) : Nat → Exec Unit
  | 0 => throw .exhausted
  | n + 1 => do
    if ← tick trap then return () else ticks trap n

/-- What is known of a run that is over. -/
def outcome : EStateM.Result Halt Run Unit → Outcome
  | .ok _ r => ⟨.finished, r.machine, r.prints.reverse, r.calls.reverse⟩
  | .error halt r => ⟨halt, r.machine, r.prints.reverse, r.calls.reverse⟩

end Exec

/-- A machine before the first instruction. The program's body counts as called from its start. -/
def Run.body (m : Machine) : Run := ⟨m, [⟨m.pc, m.top, m.closure⟩], [], []⟩

/-- Loaded code before its first instruction. -/
def Run.start (code : List Instruction) (entry : UInt16) : Run :=
  ⟨Machine.load code entry, [⟨entry.toNat, code.length, 0⟩], [], []⟩

namespace Machine

/-- Run a program within a tick limit. An empty program, and one that does not fit below the
program's window, change nothing. -/
def run (m : Machine) (limit : Nat) (trap : Trap) (program : List Instruction) : Outcome :=
  match program.getLast? with
  | none => ⟨.exhausted, m, [], []⟩
  | some marker =>
    if stackSize < program.length then ⟨.memoryFault, m, [], []⟩
    else
      Exec.outcome (Exec.ticks trap limit (.body (m.clear.place program.dropLast marker.yz)))

/-- What a successful run produced: the program's window and everything printed. -/
structure Execution where
  registers : List Int32
  output : String
  deriving DecidableEq, Repr

/-- Run a program without a trap and read the first registers of its window. A register that does
not exist reads as 0. -/
def execute (m : Machine) (limit : Nat) (program : Program) (registers : Nat) :
    Except RuntimeError Execution :=
  let outcome := m.run limit Trap.none program.instructions
  if outcome.halt.status ≠ 0 then .error ⟨outcome.halt.status⟩
  else
    .ok ⟨(List.range registers).map fun i => (outcome.machine.register? .window i).getD 0,
      String.join outcome.prints⟩

end Machine

end WindowedClosures
