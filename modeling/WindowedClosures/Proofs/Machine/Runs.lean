import WindowedClosures.Proofs.Machine.Extension

/-!
# Limits and reuse

A run within a limit is the beginning of the run within any larger limit, and it is the whole run
unless the limit stopped it. What a run does depends on the program alone, not on what earlier runs
left in the machine.
-/

namespace WindowedClosures

namespace Exec

/-! ## Ticks in a row -/

/-- More ticks go on where the first were used up, and change nothing if the run was over. -/
theorem ticks_add (trap : Trap) (n more : Nat) (r : Run) :
    ticks trap (n + more) r =
      match ticks trap n r with
      | .error .exhausted s => ticks trap more s
      | result => result := by
  induction n generalizing r with
  | zero => rw [Nat.zero_add]; rfl
  | succ n ih =>
    rw [Nat.add_right_comm]
    cases h : tick trap r with
    | ok ended s =>
      cases ended with
      | true => rw [ticks_of_end h, ticks_of_end h]
      | false =>
        rw [ticks_of_ok h, ticks_of_ok h]
        exact ih s
    | error halt s =>
      rw [ticks_of_error h, ticks_of_error h]
      -- only the end of the ticks is an exhaustion, a tick itself never fails with one
      cases halt with
      | exhausted => exact (arises_of_tick h).elim
      | _ => rfl

/-- What up to `n` ticks from a run on can come to. -/
structure Spends (trap : Trap) (n : Nat) (r : Run) (result : EStateM.Result Halt Run Unit) : Prop where
  ticks_le : (left result).machine.ticks ≤ r.machine.ticks + n
  prints : r.prints <:+ (left result).prints
  halts : ∀ halt s, result = .error halt s →
    halt.Arises trap ∨ halt = .exhausted ∧ s.machine.ticks = r.machine.ticks + n

theorem spends_ticks (trap : Trap) (n : Nat) (r : Run) : Spends trap n r (ticks trap n r) := by
  induction n generalizing r with
  | zero =>
    refine ⟨Nat.le_refl _, List.suffix_rfl, fun halt s eq => ?_⟩
    cases eq
    exact .inr ⟨rfl, rfl⟩
  | succ n ih =>
    have extended := extends_left_tick trap r
    cases h : tick trap r with
    | ok ended s =>
      rw [h] at extended
      have count : s.machine.ticks = r.machine.ticks + 1 := extended.ticks
      cases ended with
      | true =>
        rw [ticks_of_end h]
        refine ⟨?_, extended.prints, fun _ _ eq => by cases eq⟩
        show s.machine.ticks ≤ r.machine.ticks + (n + 1)
        omega
      | false =>
        rw [ticks_of_ok h]
        obtain ⟨ticks_le, prints, halts⟩ := ih s
        refine ⟨by omega, extended.prints.trans prints, fun halt t eq => ?_⟩
        rcases halts halt t eq with arises | ⟨used, all⟩
        · exact .inl arises
        · exact .inr ⟨used, by omega⟩
    | error halt s =>
      rw [h] at extended
      have count : s.machine.ticks = r.machine.ticks + 1 := extended.ticks
      rw [ticks_of_error h]
      refine ⟨?_, extended.prints, fun halt t eq => ?_⟩
      · show s.machine.ticks ≤ r.machine.ticks + (n + 1)
        omega
      · cases eq
        exact .inl (arises_of_tick h)

theorem outcome_machine (result : EStateM.Result Halt Run Unit) :
    (outcome result).machine = (left result).machine := by cases result <;> rfl

theorem outcome_prints (result : EStateM.Result Halt Run Unit) :
    (outcome result).prints = (left result).prints.reverse := by cases result <;> rfl

end Exec

/-- Without a trap only used-up ticks have the status -1. -/
theorem Halt.Arises.status_ne {halt : Halt} (h : halt.Arises .none) : halt.status ≠ -1 := by
  cases halt with
  | trapped status =>
    obtain ⟨shown, address, i, rfl⟩ := h
    show Trap.none shown address i ≠ -1
    simp [Trap.none]
  | finished | exhausted => exact h.elim
  | _ => decide

namespace Machine

/-! ## Programs -/

/-- Nothing of a machine is left once it is cleared and a program is placed on it. -/
theorem body_place_clear (m : Machine) (code : List Instruction) (entry : UInt16) :
    Run.body (m.clear.place code entry) = .start code entry := rfl

/-- A program that fits is run from its start. -/
theorem run_eq_outcome (m : Machine) (limit : Nat) (trap : Trap) {program : List Instruction}
    (given : program ≠ []) (fits : program.length ≤ stackSize) :
    m.run limit trap program = Exec.outcome (Exec.ticks trap limit
      (.start program.dropLast (program.getLast given).yz)) := by
  simp only [run, List.getLast?_eq_some_getLast given, body_place_clear]
  rw [if_neg (Nat.not_lt.mpr fits)]

theorem run_machine_of_unfit (m : Machine) (limit : Nat) (trap : Trap) {program : List Instruction}
    (unfit : program = [] ∨ stackSize < program.length) : (m.run limit trap program).machine = m := by
  unfold run
  split
  · rfl
  · rename_i marker last
    rcases unfit with rfl | long
    · cases last
    · rw [if_pos long]

/-- A larger limit changes nothing about a run that was not stopped by the smaller one. A run that
was stopped had counted all its ticks, and goes on from what it had printed. -/
theorem run_of_limit_le (m : Machine) (program : List Instruction) (given : program ≠ [])
    (fits : program.length ≤ stackSize) (limit more : Nat) (le : limit ≤ more) :
    ((m.run limit .none program).halt.status ≠ -1 → m.run more .none program = m.run limit .none program) ∧
      ((m.run limit .none program).halt.status = -1 →
        (m.run limit .none program).machine.ticks = limit ∧
          (m.run limit .none program).prints <+: (m.run more .none program).prints) ∧
      (m.run limit .none program).machine.ticks ≤ limit := by
  obtain ⟨further, rfl⟩ := Nat.exists_eq_add_of_le le
  -- both runs have the same start, so the longer one begins with the shorter one
  rw [run_eq_outcome m limit .none given fits, run_eq_outcome m (limit + further) .none given fits]
  generalize start : Run.start program.dropLast (program.getLast given).yz = r
  have unused : r.machine.ticks = 0 := by rw [← start]; rfl
  have spends := Exec.spends_ticks .none limit r
  have bound : (Exec.outcome (Exec.ticks .none limit r)).machine.ticks ≤ limit := by
    have ticks_le := spends.ticks_le
    rw [Exec.outcome_machine]
    omega
  refine ⟨?_, ?_, bound⟩
  · intro status
    rw [Exec.ticks_add]
    split
    · rename_i s stopped
      rw [stopped] at status
      exact absurd rfl status
    · rfl
  · intro status
    cases result : Exec.ticks .none limit r with
    | ok _ s =>
      rw [result] at status
      exact absurd status (show (0 : Int32) ≠ -1 by decide)
    | error halt s =>
      rw [result] at status
      rcases spends.halts halt s result with arises | ⟨rfl, count⟩
      · exact absurd status arises.status_ne
      · rw [Exec.ticks_add, result]
        refine ⟨?_, ?_⟩
        · show s.machine.ticks = limit
          omega
        · show s.prints.reverse <+: (Exec.outcome (Exec.ticks .none further s)).prints
          rw [Exec.outcome_prints]
          exact List.reverse_prefix.mpr (Exec.spends_ticks .none further s).prints

/-- A program that prints and calls itself is stopped, one that returns is not. -/
theorem run_of_limit_le_printing :
    (∃ program : List Instruction,
      (fresh.run 5 .none program).halt.status = -1 ∧ (fresh.run 5 .none program).prints = ["A", "A"] ∧
        (fresh.run 5 .none program).machine.ticks = 5 ∧
        (fresh.run 5 .none program).prints <+: (fresh.run 9 .none program).prints) ∧
      ∃ program : List Instruction,
        (fresh.run 5 .none program).halt.status = 0 ∧ (fresh.run 5 .none program).prints = ["A"] ∧
          fresh.run 9 .none program = fresh.run 5 .none program := by
  constructor
  · let program : List Instruction := [⟨.loadLow, 0, 65⟩, ⟨.print, 0, 0⟩, ⟨.call, 0, 1⟩, ⟨.brk, 0, 0⟩]
    have stopped : (fresh.run 5 .none program).halt.status = -1 ∧
        (fresh.run 5 .none program).prints = ["A", "A"] := by decide +kernel
    have limits := run_of_limit_le fresh program (by decide) (by decide) 5 9 (by decide)
    obtain ⟨count, begun⟩ := limits.2.1 stopped.1
    exact ⟨program, stopped.1, stopped.2, count, begun⟩
  · let program : List Instruction := [⟨.loadLow, 0, 65⟩, ⟨.print, 0, 0⟩, ⟨.ret, 0, 0⟩, ⟨.brk, 0, 0⟩]
    have ended : (fresh.run 5 .none program).halt.status = 0 ∧
        (fresh.run 5 .none program).prints = ["A"] := by decide +kernel
    have limits := run_of_limit_le fresh program (by decide) (by decide) 5 9 (by decide)
    exact ⟨program, ended.1, ended.2, limits.1 (by rw [ended.1]; decide)⟩

/-! ## One machine for many programs -/

/-- A program and how it is to be run. -/
structure Request where
  limit : Nat
  trap : Trap
  program : List Instruction

/-- The machine after programs were run on it one behind the other. -/
def serve (m : Machine) (requests : List Request) : Machine :=
  requests.foldl (fun m q => (m.run q.limit q.trap q.program).machine) m

/-- Whatever was run before, a program that fits has the outcome that it has on a fresh machine: the
same end, count, texts and calls, and the same words in memory with the same pointers into it. One
that does not fit leaves the machine as it is. -/
theorem run_serve (earlier : List Request) (limit : Nat) (trap : Trap) (program : List Instruction) :
    (program ≠ [] → program.length ≤ stackSize →
        (fresh.serve earlier).run limit trap program = fresh.run limit trap program) ∧
      (program = [] ∨ stackSize < program.length →
        ((fresh.serve earlier).run limit trap program).machine = fresh.serve earlier) := by
  constructor
  · intro given fits
    rw [run_eq_outcome _ limit trap given fits, run_eq_outcome _ limit trap given fits]
  · exact run_machine_of_unfit _ limit trap

/-- A run that the trap stops, then one that fails inside a call with a closure in use, leave no
trace in what is printed next. -/
theorem run_serve_after_fault :
    ∃ earlier : List Request, (fresh.serve earlier).pool.used = 1 ∧ (fresh.serve earlier).top = 12 ∧
      (∃ program : List Instruction,
        (fresh.run 9 .none program).prints = ["A"] ∧
          (fresh.serve earlier).run 9 .none program = fresh.run 9 .none program) ∧
      ((fresh.serve earlier).run 9 .none []).machine = fresh.serve earlier := by
  let program : List Instruction := [⟨.loadLow, 0, 65⟩, ⟨.print, 0, 0⟩, ⟨.ret, 0, 0⟩, ⟨.brk, 0, 0⟩]
  let faulty : List Instruction :=
    [⟨.call, 9, 1⟩, ⟨.closureMake, 0, 0⟩, ⟨.frame, 0, 32768⟩, ⟨.brk, 0, 0⟩]
  let earlier : List Request := [⟨9, .none, program⟩, ⟨9, fun _ _ _ => 7, program⟩, ⟨9, .none, faulty⟩]
  have left : (fresh.serve earlier).pool.used = 1 ∧ (fresh.serve earlier).top = 12 := by decide +kernel
  exact ⟨earlier, left.1, left.2,
    ⟨program, by decide +kernel, (run_serve earlier 9 .none program).1 (by decide) (by decide)⟩,
    (run_serve earlier 9 .none []).2 (.inl rfl)⟩

end Machine

end WindowedClosures
