import WindowedClosures.Proofs.Code.Handing
import WindowedClosures.Proofs.Machine.Claims

/-!
# Going through code

A run goes through a part of the code in as many ticks as the part has instructions: behind it the
same function runs in the same window, and the stack outside the window is as it was. From a state
where not all registers exist it may stop at one that is missing instead. Rules for the emissions
that such code comes from compose the way emissions do.
-/

namespace WindowedClosures

namespace Machine

theorem Ahead.front {m : Machine} {front back : List Instruction} (h : m.Ahead (front ++ back)) :
    m.Ahead front := by
  intro k i hi
  refine h k i ?_
  rw [List.getElem?_append_left (List.getElem?_eq_some_iff.mp hi).1]
  exact hi

/-- Code lies outside the window, so the rest of it is still there behind its front. -/
theorem Ahead.behind {m n : Machine} {front back : List Instruction} (h : m.Ahead (front ++ back))
    (pc : n.pc = m.pc + front.length) (top : n.top = m.top)
    (stack : ∀ a, a < m.top ∨ m.top + 64 ≤ a → n.stack.get? a = m.stack.get? a) : n.Ahead back := by
  intro k i hi
  have found : (front ++ back)[front.length + k]? = some i := by
    rw [List.getElem?_append_right (by omega), Nat.add_sub_cancel_left]
    exact hi
  obtain ⟨stands, outside⟩ := h (front.length + k) i found
  rw [← Nat.add_assoc, ← pc] at stands outside
  rw [stack _ outside, top]
  exact ⟨stands, outside⟩

theorem Ahead.instruction? {m : Machine} {i : Instruction} {rest : List Instruction}
    (h : m.Ahead (i :: rest)) : m.instruction? = some i := (h 0 i rfl).1

end Machine

namespace Run

/-- One run is as far as another once it has gone through so many instructions. -/
structure Through (r s : Run) (count : Nat) : Prop where
  ticks : ∀ n, Exec.ticks .none (count + n) r = Exec.ticks .none n s
  pc : s.machine.pc = r.machine.pc + count
  top : s.machine.top = r.machine.top
  base : s.machine.base = r.machine.base
  closure : s.machine.closure = r.machine.closure
  stack : ∀ a, a < r.machine.top ∨ r.machine.top + 64 ≤ a →
    s.machine.stack.get? a = r.machine.stack.get? a
  callers : s.callers = r.callers
  prints : s.prints = r.prints

/-- The run stops within so many ticks because a register does not exist. -/
def Faults (r : Run) (count : Nat) : Prop :=
  ∃ s, ∀ n, count ≤ n → Exec.ticks .none n r = .error .memoryFault s

/-- The run goes through so many instructions to `Q`, unless one of its registers does not exist and
it stops there. -/
def Gets (r : Run) (count : Nat) (Q : Run → Prop) : Prop :=
  (∃ s, r.Through s count ∧ Q s) ∨ ¬ r.machine.Seated ∧ r.Faults count

variable {r s t : Run} {front back : List Instruction} {a b count : Nat} {Q R : Run → Prop}

theorem Through.refl (r : Run) : r.Through r 0 :=
  ⟨fun n => by rw [Nat.zero_add], rfl, rfl, rfl, rfl, fun _ _ => rfl, rfl, rfl⟩

theorem Through.trans (h : r.Through s a) (h' : s.Through t b) : r.Through t (a + b) where
  ticks n := by rw [Nat.add_assoc, h.ticks, h'.ticks]
  pc := by rw [h'.pc, h.pc, Nat.add_assoc]
  top := h'.top.trans h.top
  base := h'.base.trans h.base
  closure := h'.closure.trans h.closure
  stack a apart := by
    rw [h'.stack a (by rw [h.top]; exact apart), h.stack a apart]
  callers := h'.callers.trans h.callers
  prints := h'.prints.trans h.prints

theorem Through.seated (h : r.Through s count) : s.machine.Seated ↔ r.machine.Seated := by
  constructor
  · intro seated
    exact ⟨h.top ▸ seated.window, h.closure ▸ seated.closure⟩
  · intro seated
    exact ⟨h.top.symm ▸ seated.window, h.closure.symm ▸ seated.closure⟩

/-- A register that is not of the selected closure is the same cell behind the code. -/
theorem Through.cell (h : r.Through s count) {x : Register} (other : x.bank ≠ .aux) :
    s.machine.cell x = r.machine.cell x := by
  unfold Machine.cell
  split
  · rw [h.top]
  · rw [h.base]
  · rw [h.closure]
  · rename_i bank
    exact (other bank).elim

theorem Through.ahead (h : r.Through s front.length) (ahead : r.machine.Ahead (front ++ back)) :
    s.machine.Ahead back :=
  ahead.behind h.pc h.top h.stack

/-- One tick is a passage through one instruction, if the instruction stays in its function and
changes the stack in its window only. -/
theorem Through.of_tick (tick : Exec.tick .none r = .ok false s)
    (pc : s.machine.pc = r.machine.pc + 1) (top : s.machine.top = r.machine.top)
    (base : s.machine.base = r.machine.base) (closure : s.machine.closure = r.machine.closure)
    (stack : ∀ a, a < r.machine.top ∨ r.machine.top + 64 ≤ a →
      s.machine.stack.get? a = r.machine.stack.get? a)
    (callers : s.callers = r.callers) (prints : s.prints = r.prints) : r.Through s 1 := by
  refine ⟨fun n => ?_, pc, top, base, closure, stack, callers, prints⟩
  rw [Nat.add_comm, Exec.ticks_of_ok tick]

theorem Faults.of_tick (tick : Exec.tick .none r = .error .memoryFault s) (count : Nat) :
    r.Faults (count + 1) := by
  refine ⟨s, fun n le => ?_⟩
  obtain ⟨m, rfl⟩ : ∃ m, n = m + 1 := ⟨n - 1, by omega⟩
  exact Exec.ticks_of_error tick m

theorem Faults.mono (h : r.Faults a) (le : a ≤ b) : r.Faults b := by
  obtain ⟨s, stops⟩ := h
  exact ⟨s, fun n hn => stops n (by omega)⟩

theorem Faults.behind (h : r.Through s a) (h' : s.Faults b) : r.Faults (a + b) := by
  obtain ⟨t, stops⟩ := h'
  refine ⟨t, fun n hn => ?_⟩
  obtain ⟨m, rfl⟩ : ∃ m, n = a + m := ⟨n - a, by omega⟩
  rw [h.ticks m]
  exact stops m (by omega)

theorem Gets.mono (h : r.Gets count Q) (le : ∀ s, r.Through s count → Q s → R s) : r.Gets count R := by
  rcases h with ⟨s, through, holds⟩ | fault
  · exact .inl ⟨s, through, le s through holds⟩
  · exact .inr fault

/-- What follows goes on where the first part ended. -/
theorem Gets.trans (h : r.Gets a Q) (next : ∀ s, r.Through s a → Q s → s.Gets b R) :
    r.Gets (a + b) R := by
  rcases h with ⟨s, through, holds⟩ | ⟨missing, fault⟩
  · rcases next s through holds with ⟨t, through', holds'⟩ | ⟨missing, fault⟩
    · exact .inl ⟨t, through.trans through', holds'⟩
    · exact .inr ⟨fun seated => missing (through.seated.mpr seated), .behind through fault⟩
  · exact .inr ⟨missing, fault.mono (by omega)⟩

theorem Gets.refl (h : Q r) : r.Gets 0 Q := .inl ⟨r, .refl r, h⟩

/-- Where all registers exist the run gets through. -/
theorem Gets.through (h : r.Gets count Q) (seated : r.machine.Seated) : ∃ s, r.Through s count ∧ Q s :=
  h.resolve_right fun fault => fault.1 seated

end Run

/-! ## One instruction -/

section

variable {i : Instruction} {code rest : List Instruction} {r : Run} {file after : RegisterFile}

/-- A word was stored in a register. -/
theorem Machine.readCell?_write_advance (m : Machine) {byte : UInt8} (isSome : (m.read? byte).isSome)
    (word : Int32) (c : Cell) : (m.write byte word).advance.readCell? c =
      if c = m.cell (.ofByte byte) then some word else m.readCell? c := by
  rw [Machine.readCell?_advance, Machine.write]
  split
  · rename_i eq
    rw [eq, Machine.readCell?_writeCell_same m _ word isSome]
  · rename_i ne
    exact Machine.readCell?_writeCell_other m _ _ word ne

/-- An instruction that stores a word, maybe with another pool and another closure selected. -/
theorem gets_of_store {word : Int32} (pool : ClosurePool) (aux : Nat)
    (ahead : r.machine.Ahead (i :: rest)) {t : Run}
    (ready : t = { r.charge i with machine := { (r.charge i).machine with pool := pool, aux := aux } })
    (step : Exec.step i (r.charge i) = Exec.store i.x word t)
    (bank : (Register.ofByte i.x).bank ≠ .base)
    (there : r.machine.Seated → (t.machine.read? i.x).isSome) :
    r.Gets 1 fun s => (t.machine.read? i.x).isSome ∧ s.machine = (t.machine.write i.x word).advance := by
  have tick : Exec.tick .none r = _ := Exec.tick_of_instruction ahead.instruction? rfl
  cases old : t.machine.read? i.x with
  | none =>
    refine .inr ⟨fun seated => ?_, .of_tick (s := t) ?_ 0⟩
    · have some := there seated
      rw [old] at some
      cases some
    · rw [tick, step, Exec.store_of_none word old]
  | some found =>
    have isSome : (t.machine.read? i.x).isSome := by rw [old]; rfl
    refine .inl ⟨{ t with machine := (t.machine.write i.x word).advance }, ?_, rfl, rfl⟩
    refine .of_tick (by rw [tick, step, Exec.store_of_isSome word isSome]) ?_ ?_ ?_ ?_ ?_ ?_ ?_
    · simp [Machine.write, ready]
    · simp [Machine.write, ready]
    · simp [Machine.write, ready]
    · simp [Machine.write, ready]
    · intro a apart
      have read := t.machine.readCell?_write_advance isSome word (.stack a)
      rw [if_neg] at read
      · rw [show t.machine.readCell? (.stack a) = r.machine.stack.get? a by rw [ready]; rfl] at read
        exact read
      · -- the register is of the window or of a closure
        intro same
        have lt := (Register.ofByte i.x).offset.isLt
        unfold Machine.cell at same
        split at same
        · injection same with same
          rw [show t.machine.top = r.machine.top by rw [ready]; rfl] at same
          omega
        · rename_i other
          exact bank other
        · cases same
        · cases same
    · rw [ready]
      rfl
    · rw [ready]
      rfl

/-- A word for a near register, maybe with another pool and another closure selected. -/
theorem gets_into {dst : Register} (near : dst.Near) (target : i.x = dst.toByte) {word : Int32}
    (pool : ClosurePool) (aux : Nat) (ahead : r.machine.Ahead (i :: rest)) {t : Run}
    (ready : t = { r.charge i with machine := { (r.charge i).machine with pool := pool, aux := aux } })
    (step : Exec.step i (r.charge i) = Exec.store i.x word t) :
    r.Gets 1 fun s => s.machine.pool = pool ∧ s.machine.aux = aux ∧ ∀ c,
      s.machine.readCell? c = if c = r.machine.cell dst then some word else r.machine.readCell? c := by
  have byte : Register.ofByte i.x = dst := by rw [target, Register.ofByte_toByte]
  have cell : t.machine.cell dst = r.machine.cell dst := by
    rw [ready]
    rcases near with bank | bank <;> simp [Machine.cell, bank]
  have cells (c : Cell) : t.machine.readCell? c = r.machine.readCell? c := by
    rw [ready]
    cases c <;> rfl
  refine (gets_of_store pool aux ahead ready step ?_ fun seated => ?_).mono ?_
  · rw [byte]
    rcases near with bank | bank <;> rw [bank] <;> decide
  · rw [Machine.read?, byte, cell, cells]
    exact seated.isSome_readCell? near
  · rintro s - ⟨there, machine⟩
    refine ⟨?_, ?_, fun c => ?_⟩
    · simp [machine, Machine.write, ready]
    · simp [machine, Machine.write, ready]
    · rw [machine, Machine.readCell?_write_advance _ there, byte, cell, cells]

/-- A tick on the table and on the machine, which may lack a register. -/
theorem gets_of_word (shows_ : r.machine.Shows file) (ahead : r.machine.Ahead (i :: rest))
    (data : i.op.isData = true) (near : (Register.ofByte i.x).Near) {word : Int32}
    (result : i.result file.read? = .ok word) :
    r.Gets 1 fun s => r.machine.Beside s.machine ∧
      s.machine.Shows (Function.update file (.ofByte i.x) word) ∧ (s.machine.read? i.x).isSome := by
  have step := Exec.step_data i (r.charge i) data
  cases own : i.result (r.charge i).machine.read? with
  | error halt =>
    rw [own] at step
    -- the machine knows less than the table, but nothing else
    have missing : halt = .memoryFault := by
      by_contra other
      have same := Instruction.result_agree (Laid.agree_of_shows shows_) i
        (by rw [show i.result r.machine.read? = _ from own]; simpa using other) (by rw [result]; simp)
      rw [result, show i.result r.machine.read? = _ from own] at same
      cases same
    subst missing
    have tick : Exec.tick .none r = _ := Exec.tick_of_instruction ahead.instruction? rfl
    rw [step] at tick
    refine .inr ⟨fun seated => ?_, .of_tick tick 0⟩
    obtain ⟨t, ticks, -⟩ := tick_of_word seated shows_ ahead data near result
    rw [tick] at ticks
    cases ticks
  | ok found =>
    have same := Instruction.result_agree (Laid.agree_of_shows shows_) i
      (by rw [show i.result r.machine.read? = _ from own]; simp) (by rw [result]; simp)
    rw [result, show i.result r.machine.read? = _ from own] at same
    cases same
    rw [own] at step
    have bank : (Register.ofByte i.x).bank ≠ .base := by
      rcases near with bank | bank <;> rw [bank] <;> decide
    have stored := gets_of_store (t := r.charge i) r.machine.pool r.machine.aux ahead rfl step bank
      fun seated => seated.isSome_readCell? near
    refine stored.mono ?_
    rintro s - ⟨isSome, machine⟩
    have beside := ((beside_charge r i).trans ((r.charge i).machine.beside_write near word)).trans
      (Machine.beside_advance _)
    have shown : ((r.charge i).machine.write i.x word).Shows
        (Function.update file (.ofByte i.x) word) :=
      Machine.Shows.write (m := (r.charge i).machine) shows_ near isSome word
    rw [machine]
    refine ⟨beside, shown, ?_⟩
    rw [Machine.read?, beside.cell, Machine.isSome_readCell?_congr _ r.machine]
    exact isSome

end

/-! ## Straight-line code -/

section

variable {code rest : List Instruction} {r : Run} {file after : RegisterFile}

/-- Where the table gets through, so does the machine, and all registers that were written exist. -/
theorem gets_of_play (shows_ : r.machine.Shows file) (ahead : r.machine.Ahead code)
    (h : play code file = .ok after) :
    r.Gets code.length fun s => r.machine.Beside s.machine ∧ s.machine.Shows after ∧
      ∀ i ∈ code, (s.machine.read? i.x).isSome := by
  induction code generalizing r file with
  | nil =>
    cases h
    exact .refl ⟨.refl _, shows_, by simp⟩
  | cons i rest ih =>
    rw [play] at h
    split at h
    · rename_i computes
      cases result : i.result file.read? with
      | error halt =>
        rw [result] at h
        cases h
      | ok word =>
        rw [result] at h
        rw [List.length_cons, Nat.add_comm]
        refine (gets_of_word shows_ ahead computes.1 computes.2 result).trans ?_
        rintro s through ⟨beside, shown, there⟩
        refine (ih shown (through.ahead (show r.machine.Ahead ([i] ++ rest) from ahead)) h).mono ?_
        rintro t - ⟨beside', shown', written⟩
        refine ⟨beside.trans beside', shown', fun j hj => ?_⟩
        rcases List.mem_cons.mp hj with rfl | hj
        · rw [Machine.read?, Machine.isSome_readCell?_congr t.machine s.machine, beside'.cell]
          exact there
        · exact written j hj
    · cases h

end

/-! ## Emissions -/

/-- Code that can be played is linked as it stands. -/
theorem linked_of_play {labels : List Label} {code : List Emitted} {linked : List Instruction}
    {file after : RegisterFile} (h : play (code.map (·.plain)) file = .ok after)
    (links : code.mapM (link labels) = .ok linked) : linked = code.map (·.plain) := by
  induction code generalizing file linked with
  | nil =>
    cases links
    rfl
  | cons e rest ih =>
    rw [List.mapM_cons] at links
    obtain ⟨i, here, links⟩ := except_bind_ok links
    obtain ⟨others, behind, links⟩ := except_bind_ok links
    cases links
    rw [List.map_cons, play] at h
    split at h
    · rename_i computes
      split at h
      · obtain ⟨instruction, target, arrow⟩ := e
        cases target with
        | none =>
          cases here
          rw [List.map_cons, ih h behind]
          rfl
        | some id => cases computes.1
      · cases h
    · cases h

namespace Emit

variable {α β : Type}

/-- Whenever the emission succeeds at a watermark, a run in front of its linked code gets through it
to `Q`. -/
def Passes (labels : List Label) (m : Emit α) (watermark : Nat) (r : Run) (Q : α → Nat → Run → Prop) :
    Prop :=
  ∀ result code, m watermark = .ok result → result.code.mapM (link labels) = .ok code →
    r.machine.Ahead code → r.Gets code.length (Q result.value result.watermark)

variable {labels : List Label} {watermark : Nat} {r : Run}

theorem passes_pure {a : α} {Q : α → Nat → Run → Prop} (h : Q a watermark r) :
    Passes labels (pure a) watermark r Q := by
  intro result code hr links _
  rw [pure_ok hr] at links ⊢
  cases links
  exact .refl h

theorem passes_fail (e : CompileError) (Q : α → Nat → Run → Prop) :
    Passes labels (fail e) watermark r Q := by
  intro result code hr
  exact (fail_ok hr).elim

theorem passes_bind {m : Emit α} {f : α → Emit β} {Q : β → Nat → Run → Prop}
    (h : Passes labels m watermark r fun a w s => Passes labels (f a) w s Q) :
    Passes labels (m >>= f) watermark r Q := by
  intro result code hr links ahead
  obtain ⟨first, second, h₁, h₂, rfl⟩ := bind_ok hr
  obtain ⟨front, back, hf, hb, rfl⟩ := mapM_append_ok links
  rw [List.length_append]
  refine (h first front h₁ hf ahead.front).trans fun s through next => ?_
  exact next second back h₂ hb (through.ahead ahead)

theorem Passes.mono {m : Emit α} {Q R : α → Nat → Run → Prop} (h : Passes labels m watermark r Q)
    (le : ∀ a w s count, r.Through s count → Q a w s → R a w s) : Passes labels m watermark r R :=
  fun result code hr links ahead =>
    (h result code hr links ahead).mono fun s through holds => le _ _ s _ through holds

theorem passes_releasing {m : Emit α} {Q : α → Nat → Run → Prop}
    (h : Passes labels m watermark r fun a _ s => Q a watermark s) :
    Passes labels (releasing m) watermark r Q := by
  intro result code hr
  obtain ⟨inner, hm, rfl⟩ := releasing_ok hr
  exact h inner code hm

theorem passes_lift {found : Except CompileError α} {Q : α → Nat → Run → Prop}
    (h : ∀ a, found = .ok a → Q a watermark r) : Passes labels (lift found) watermark r Q := by
  cases found with
  | ok a => exact passes_pure (h a rfl)
  | error e => exact passes_fail e Q

theorem passes_register {found : Except RegisterOverflow Register} {Q : Register → Nat → Run → Prop}
    (h : ∀ t, found = .ok t → Q t watermark r) : Passes labels (register found) watermark r Q := by
  cases found with
  | ok t => exact passes_pure (h t rfl)
  | error overflow => exact passes_fail _ Q

theorem passes_temp {Q : Register → Nat → Run → Prop}
    (h : ∀ t : Register, t.At watermark → Q t (watermark + 1) r) : Passes labels temp watermark r Q := by
  intro result code hr links _
  obtain ⟨bank, offset, none, after⟩ := temp_ok hr
  rw [none] at links
  cases links
  rw [after]
  exact .refl (h _ ⟨bank, offset⟩)

theorem passes_push {i : Instruction} {Q : Unit → Nat → Run → Prop}
    (h : r.machine.Ahead [i] → r.Gets 1 (Q () watermark)) : Passes labels (push i) watermark r Q := by
  intro result code hr links ahead
  rw [push_ok hr] at links ⊢
  cases links
  exact h ahead

/-- An instruction with the address of a function. -/
theorem passes_pushFor {i : Instruction} {function : Nat} {label : Label}
    (found : labels.find? (·.id == function) = some label) {Q : Unit → Nat → Run → Prop}
    (h : r.machine.Ahead [{ i with yz := label.address }] → r.Gets 1 (Q () watermark)) :
    Passes labels (pushFor i function) watermark r Q := by
  intro result code hr links ahead
  rw [pushFor_ok hr] at links ⊢
  rw [List.mapM_cons, link] at links
  simp only [found] at links
  cases links
  exact h ahead

/-- Straight-line code that does not divide by zero. -/
theorem passes_of_makes {m : Emit α} {fault : Prop} {Q : α → Nat → RegisterFile → Prop}
    (h : Makes m watermark r.machine.file fault Q) (safe : ¬ fault) :
    Passes labels m watermark r fun a w s =>
      r.machine.Beside s.machine ∧ ∃ after, s.machine.Shows after ∧ Q a w after := by
  intro result code hr links ahead
  have made := h result hr
  cases played : play (result.code.map (·.plain)) r.machine.file with
  | error halt =>
    rw [played] at made
    exact (safe made.2).elim
  | ok after =>
    rw [played] at made
    obtain rfl := linked_of_play played links
    refine (gets_of_play (fun _ _ => rfl) ahead played).mono ?_
    rintro s - ⟨beside, shows_, -⟩
    exact ⟨beside, after, shows_, made⟩

end Emit

end WindowedClosures
