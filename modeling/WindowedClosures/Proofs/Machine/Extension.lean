import WindowedClosures.Proofs.Machine.Stepping

/-!
# What a tick adds to a run

An instruction counts nothing and takes nothing back: the texts and the calls of the trap only grow,
whether it succeeds or fails. So a tick counts one, and it never fails because ticks are used up.
-/

namespace WindowedClosures

/-- The count is the same, and texts and calls were only added. -/
structure Run.Extends (r s : Run) : Prop where
  ticks : s.machine.ticks = r.machine.ticks
  prints : r.prints <:+ s.prints
  calls : r.calls <:+ s.calls

namespace Run.Extends

variable {r s t : Run}

theorem refl (r : Run) : r.Extends r := ⟨rfl, List.suffix_rfl, List.suffix_rfl⟩

theorem trans (h : r.Extends s) (h' : s.Extends t) : r.Extends t :=
  ⟨h'.ticks.trans h.ticks, h.prints.trans h'.prints, h.calls.trans h'.calls⟩

end Run.Extends

/-- The ways to fail within a tick: a fault, or an answer of the trap. -/
def Halt.Arises (trap : Trap) : Halt → Prop
  | .invalidOpcode | .memoryFault | .divisionByZero => True
  | .trapped status => ∃ shown address i, trap shown address i = status
  | .finished | .exhausted => False

namespace Exec

variable {α β : Type} {trap : Trap}

/-- Whatever comes of it, the run is only extended, and no ticks are missing. -/
structure Steady (trap : Trap) (x : Exec α) : Prop where
  extended : ∀ r : Run, r.Extends (left (x r))
  arises : ∀ r halt s, x r = .error halt s → halt.Arises trap

theorem steady_pure (a : α) : Steady trap (pure a) :=
  ⟨fun r => .refl r, fun _ _ _ h => by cases h⟩

theorem steady_throw {halt : Halt} (h : halt.Arises trap) : Steady trap (throw halt : Exec α) :=
  ⟨fun r => .refl r, fun _ _ _ eq => by cases eq; exact h⟩

theorem steady_get : Steady trap (get : Exec Run) :=
  ⟨fun r => .refl r, fun _ _ _ h => by cases h⟩

theorem steady_modify {f : Run → Run} (hf : ∀ r : Run, r.Extends (f r)) :
    Steady trap (modify f : Exec Unit) :=
  ⟨hf, fun _ _ _ h => by cases h⟩

theorem steady_bind {x : Exec α} {f : α → Exec β} (hx : Steady trap x) (hf : ∀ a, Steady trap (f a)) :
    Steady trap (x >>= f) := by
  constructor
  · intro r
    have first := hx.extended r
    cases hr : x r with
    | error halt t =>
      rw [hr] at first
      rw [bind_of_error hr]
      exact first
    | ok a t =>
      rw [hr] at first
      rw [bind_of_ok hr]
      exact first.trans ((hf a).extended t)
  · intro r halt s h
    cases hr : x r with
    | error early t =>
      rw [bind_of_error hr] at h
      cases h
      exact hx.arises r _ _ hr
    | ok a t =>
      rw [bind_of_ok hr] at h
      exact (hf a).arises t _ _ h

theorem steady_modifyMachine {f : Machine → Machine} (hf : ∀ m, (f m).ticks = m.ticks) :
    Steady trap (modifyMachine f) :=
  steady_modify fun r => ⟨hf r.machine, List.suffix_rfl, List.suffix_rfl⟩

theorem steady_machine : Steady trap machine := steady_bind steady_get fun _ => steady_pure _

theorem steady_skip : Steady trap skip :=
  steady_bind (steady_modifyMachine fun _ => rfl) fun _ => steady_pure _

theorem steady_read (byte : UInt8) : Steady trap (read byte) := by
  refine steady_bind steady_machine fun m => ?_
  split
  · exact steady_pure _
  · exact steady_throw trivial

theorem steady_write (byte : UInt8) (word : Int32) : Steady trap (write byte word) := by
  refine steady_bind steady_machine fun m => ?_
  split
  · exact steady_modifyMachine fun m => m.writeCell_ticks _ _
  · exact steady_throw trivial

theorem steady_stackAddress (base : Int32) (offset : UInt8) :
    Steady trap (stackAddress base offset) := by
  unfold stackAddress
  split
  · exact steady_pure _
  · exact steady_throw trivial

theorem steady_store (byte : UInt8) (word : Int32) : Steady trap (store byte word) :=
  steady_bind (steady_write byte word) fun _ => steady_skip

theorem steady_arithmetic (i : Instruction) : Steady trap (arithmetic i) := by
  refine steady_bind (steady_read _) fun a => steady_bind (steady_read _) fun b => ?_
  split
  · exact steady_store _ _
  · exact steady_throw trivial

theorem steady_enter (address : Nat) (closure amount : UInt8) :
    Steady trap (enter address closure amount) :=
  steady_bind (steady_modify fun _ => ⟨rfl, List.suffix_rfl, List.suffix_rfl⟩) fun _ => steady_pure _

theorem steady_leave : Steady trap leave := by
  refine steady_bind steady_get fun r => ?_
  split
  · exact steady_pure _
  · refine steady_bind (steady_modify fun _ => ⟨rfl, List.suffix_rfl, List.suffix_rfl⟩) fun _ => ?_
    split
    · exact steady_pure _
    · exact steady_skip

theorem steady_step (i : Instruction) : Steady trap (step i) := by
  have changes {f : Machine → Machine} (hf : ∀ m, (f m).ticks = m.ticks) :
      Steady trap (do modifyMachine f; skip) :=
    steady_bind (steady_modifyMachine hf) fun _ => steady_skip
  unfold step
  split
  · exact steady_store _ _
  · exact steady_bind (steady_read _) fun _ => steady_store _ _
  · exact steady_bind (steady_read _) fun _ => steady_store _ _
  · refine steady_bind (steady_read _) fun _ => steady_bind (steady_stackAddress _ _) fun _ => ?_
    exact steady_bind steady_machine fun _ => steady_store _ _
  · refine steady_bind (steady_read _) fun _ => steady_bind (steady_stackAddress _ _) fun _ => ?_
    exact steady_bind (steady_read _) fun _ => changes fun _ => rfl
  · exact steady_bind (steady_read _) fun _ => steady_store _ _
  iterate 8 exact steady_arithmetic i
  · refine steady_bind steady_machine fun _ => steady_bind (steady_modify fun _ => ?_) fun _ => steady_skip
    exact ⟨rfl, List.suffix_cons _ _, List.suffix_rfl⟩
  · refine steady_bind steady_machine fun _ => ?_
    dsimp only
    split
    · exact steady_throw trivial
    · exact changes fun _ => rfl
  · exact steady_bind steady_machine fun _ => steady_bind (steady_modifyMachine fun _ => rfl) fun _ =>
      steady_store _ _
  · exact steady_bind (steady_read _) fun _ => changes fun _ => rfl
  · exact steady_bind (steady_read _) fun _ => changes fun _ => rfl
  · exact changes fun _ => rfl
  · exact steady_enter _ _ _
  · exact steady_bind (steady_read _) fun _ => steady_enter _ _ _
  · exact steady_leave
  · exact steady_skip

theorem steady_fetch : Steady trap fetch := by
  refine steady_bind steady_machine fun m => ?_
  split
  · exact steady_throw trivial
  · split
    · exact steady_throw trivial
    · exact steady_pure _

theorem steady_consult (i : Instruction) : Steady trap (consult trap i) := by
  refine steady_bind steady_machine fun m => steady_bind (steady_modify fun _ => ?_) fun _ => ?_
  · exact ⟨rfl, List.suffix_rfl, List.suffix_cons _ _⟩
  · dsimp only
    split
    · exact steady_pure _
    · exact steady_throw ⟨_, _, _, rfl⟩

/-! ## One tick -/

/-- What a tick does once it is counted. -/
theorem steady_counted :
    Steady trap (do let i ← fetch; consult trap i; step i) :=
  steady_bind steady_fetch fun i => steady_bind (steady_consult i) fun _ => steady_step i

/-- A tick counts one and only adds to the run. -/
theorem extends_left_tick (trap : Trap) (r : Run) : r.counted.Extends (left (tick trap r)) :=
  steady_counted.extended r.counted

theorem arises_of_tick {r s : Run} {halt : Halt} (h : tick trap r = .error halt s) :
    halt.Arises trap :=
  steady_counted.arises r.counted halt s h

end Exec

end WindowedClosures
