import Mathlib.Logic.Relation
import WindowedClosures.Proofs.Code.Confinement
import WindowedClosures.Proofs.Machine.Stepping
import WindowedClosures.Proofs.Scope.Passes

/-!
# Windows keep out of each other's way

A confined instruction writes no stack cell below the window it runs in, and it changes the pointers
only by a call, which moves the window up, or by a return, which puts back what the call found. So
all windows above a floor stay above it, and the cells below the floor keep their words.
-/

namespace WindowedClosures

namespace Machine

/-- The stack cells below an address hold the same words. -/
def AgreesBelow (m n : Machine) (address : Nat) : Prop :=
  ∀ a : Nat, a < address → n.stack.get? a = m.stack.get? a

theorem AgreesBelow.refl (m : Machine) (address : Nat) : m.AgreesBelow m address := fun _ _ => rfl

theorem AgreesBelow.trans {m n o : Machine} {address : Nat} (h₁ : m.AgreesBelow n address)
    (h₂ : n.AgreesBelow o address) : m.AgreesBelow o address := by
  intro a lt
  rw [h₂ a lt, h₁ a lt]

theorem AgreesBelow.mono {m n : Machine} {low high : Nat} (h : m.AgreesBelow n high)
    (le : low ≤ high) : m.AgreesBelow n low := fun a lt => h a (by omega)

/-- A register outside the program's window lies in the own window or in no window at all. -/
theorem agreesBelow_write (m : Machine) (byte : UInt8) (word : Int32)
    (h : (Register.ofByte byte).bank ≠ .base) : m.AgreesBelow (m.write byte word) m.top := by
  intro a lt
  unfold write cell
  cases hb : (Register.ofByte byte).bank with
  | window => exact Memory.get?_set_other _ _ _ _ (by omega)
  | base => exact absurd hb h
  | closure | aux => rfl

@[simp] theorem write_top (m : Machine) (byte : UInt8) (word : Int32) :
    (m.write byte word).top = m.top := writeCell_top m _ word
@[simp] theorem write_pc (m : Machine) (byte : UInt8) (word : Int32) :
    (m.write byte word).pc = m.pc := writeCell_pc m _ word
@[simp] theorem write_closure (m : Machine) (byte : UInt8) (word : Int32) :
    (m.write byte word).closure = m.closure := writeCell_closure m _ word
@[simp] theorem write_base (m : Machine) (byte : UInt8) (word : Int32) :
    (m.write byte word).base = m.base := writeCell_base m _ word

end Machine

namespace Exec

/-- What a confined instruction does to the pointers and the callers when the run goes on. -/
inductive Moves (r s : Run) : Prop
  /-- The next instruction of the same activation. -/
  | next : s.callers = r.callers → s.machine.pc = r.machine.pc + 1 → s.machine.top = r.machine.top →
      s.machine.closure = r.machine.closure → Moves r s
  /-- A call with the window moved up. -/
  | call (x : UInt8) : s.callers = ⟨r.machine.pc, r.machine.top, r.machine.closure⟩ :: r.callers →
      s.machine.top = r.machine.top + x.toNat → Moves r s
  /-- A return behind the call of the last caller. -/
  | ret (c d : Caller) (rest : List Caller) : r.callers = c :: d :: rest → s.callers = d :: rest →
      s.machine.pc = c.pc + 1 → s.machine.top = c.top → s.machine.closure = c.closure → Moves r s

/-- Whatever becomes of a store outside the program's window, the cells below the window stay. -/
theorem agreesBelow_store (r : Run) (byte : UInt8) (word : Int32)
    (h : (Register.ofByte byte).bank ≠ .base) :
    r.machine.AgreesBelow (left (store byte word r)).machine r.machine.top ∧
      ∀ ended s, store byte word r = .ok ended s → Moves r s := by
  cases hr : r.machine.read? byte with
  | none =>
    rw [store_of_none word hr]
    exact ⟨.refl _ _, fun ended s hs => by cases hs⟩
  | some old =>
    rw [store_of_isSome word (by rw [hr]; rfl)]
    refine ⟨r.machine.agreesBelow_write byte word h, ?_⟩
    intro ended s hs
    cases hs
    exact .next rfl (by simp) (by simp) (by simp)

/-- A confined instruction keeps the cells below the window it runs in. -/
theorem agreesBelow_step {i : Instruction} (hi : i.Confined) (r : Run) :
    r.machine.AgreesBelow (left (step i r)).machine r.machine.top ∧
      ∀ s, step i r = .ok false s → Moves r s := by
  have data (bank : (Register.ofByte i.x).bank ≠ .base) (isData : i.op.isData = true) :
      r.machine.AgreesBelow (left (step i r)).machine r.machine.top ∧
        ∀ s, step i r = .ok false s → Moves r s := by
    rw [step_data i r isData]
    cases i.result r.machine.read? with
    | error halt => exact ⟨.refl _ _, fun s hs => by cases hs⟩
    | ok word =>
      obtain ⟨agrees, moves⟩ := agreesBelow_store r i.x word bank
      exact ⟨agrees, moves false⟩
  unfold Instruction.Confined at hi
  cases he : i.op <;> simp only [he] at hi
  case closureMake =>
    rw [step_closureMake he]
    obtain ⟨agrees, moves⟩ := agreesBelow_store (selecting r) i.x
      (FunctionWord.word r.machine.pool.alloc.1 i.yz) hi
    refine ⟨agrees, fun s hs => ?_⟩
    cases moves false s hs with
    | next callers pc top closure => exact .next callers pc top closure
    | call x callers top => exact .call x callers top
    | ret c d rest before after pc top closure => exact .ret c d rest before after pc top closure
  case print =>
    rw [step_print he]
    refine ⟨.refl _ _, fun s hs => ?_⟩
    cases hs
    exact .next rfl rfl rfl rfl
  case callRegister =>
    rw [step_callRegister he]
    cases r.machine.read? i.y with
    | none => exact ⟨.refl _ _, fun s hs => by cases hs⟩
    | some word =>
      refine ⟨.refl _ _, fun s hs => ?_⟩
      cases hs
      exact .call i.x rfl rfl
  case ret =>
    rw [step_ret he]
    match hc : r.callers with
    | [] => exact ⟨.refl _ _, fun s hs => by cases hs⟩
    | [c] => exact ⟨.refl _ _, fun s hs => by cases hs⟩
    | c :: d :: rest =>
      refine ⟨.refl _ _, fun s hs => ?_⟩
      cases hs
      exact .ret c d rest hc rfl rfl rfl rfl
  all_goals exact data hi (by rw [he]; rfl)

theorem Moves.of_charge {r s : Run} {i : Instruction} (h : Moves (r.charge i) s) : Moves r s := by
  cases h with
  | next callers pc top closure => exact .next callers pc top closure
  | call x callers top => exact .call x callers top
  | ret c d rest before after pc top closure => exact .ret c d rest before after pc top closure

end Exec

/-! ## Code that stays in place -/

namespace Machine

/-- The words of code lie at the bottom of the stack. -/
def Holds (m : Machine) (code : List Instruction) : Prop :=
  ∀ a : Nat, a < code.length → m.stack.get? a = (code[a]?).map fun i => i.encode.toInt32

theorem Holds.of_agrees {m n : Machine} {code : List Instruction} (h : m.Holds code)
    (agrees : m.AgreesBelow n code.length) : n.Holds code := by
  intro a lt
  rw [agrees a lt, h a lt]

theorem holds_load (code : List Instruction) (entry : UInt16) (fits : code.length ≤ stackSize) :
    (load code entry).Holds code := by
  intro a lt
  have found := (Memory.zero stackSize).get?_setAll 0 a (code.map fun i => i.encode.toInt32)
    (by simpa using lt) (by simpa using fits)
  rw [Nat.zero_add, List.getElem?_map] at found
  exact found

/-- The instruction at an address of the code. -/
theorem Holds.instruction? {m : Machine} {code : List Instruction} (h : m.Holds code)
    (lt : m.pc < code.length) : m.instruction? = code[m.pc]? := by
  rw [Machine.instruction?, h m.pc lt, List.getElem?_eq_getElem lt]
  simp [Instruction.decode?_encode]

end Machine

namespace Exec

/-- One tick that goes on, from an address of the code. -/
def Goes (trap : Trap) (code : List Instruction) (r s : Run) : Prop :=
  r.machine.pc < code.length ∧ tick trap r = .ok false s

variable {trap : Trap} {code : List Instruction} {r s : Run}

/-- A tick of confined code keeps the cells below its window, however it ends. -/
theorem agreesBelow_tick (trap : Trap) (confined : ∀ i ∈ code, i.Confined) (holds : r.machine.Holds code)
    (lt : r.machine.pc < code.length) :
    r.machine.AgreesBelow (left (tick trap r)).machine r.machine.top ∧
      ∀ s, tick trap r = .ok false s → Moves r s := by
  rcases left_tick trap r with ⟨same, halt, he⟩ | ⟨i, hi, he⟩
  · refine ⟨?_, fun s hs => ?_⟩
    · rw [same]
      exact .refl _ _
    · rw [he] at hs
      cases hs
  · have mem : i ∈ code := List.mem_of_getElem? (holds.instruction? lt ▸ hi)
    obtain ⟨agrees, moves⟩ := agreesBelow_step (confined i mem) (r.charge i)
    rw [he]
    exact ⟨agrees, fun s hs => (moves s hs).of_charge⟩

open Relation (ReflTransGen)

/-- All windows of a run start at an address or above it. -/
structure Above (floor : Nat) (r : Run) : Prop where
  top : floor ≤ r.machine.top
  callers : ∀ c ∈ r.callers, floor ≤ c.top

theorem Above.moves {floor : Nat} (h : Above floor r) (hm : Moves r s) : Above floor s := by
  cases hm with
  | next callers pc top closure =>
    refine ⟨by rw [top]; exact h.top, fun c hc => h.callers c (callers ▸ hc)⟩
  | call x callers top =>
    have := h.top
    refine ⟨by omega, fun c hc => ?_⟩
    rw [callers] at hc
    rcases List.mem_cons.mp hc with rfl | hc
    · exact h.top
    · exact h.callers c hc
  | ret c d rest before after pc top closure =>
    refine ⟨?_, fun e he => h.callers e ?_⟩
    · rw [top]
      exact h.callers c (by simp [before])
    · rw [before]
      rw [after] at he
      exact List.mem_cons_of_mem _ he

/-- What every state of a run of code satisfies. -/
structure Intact (code : List Instruction) (r : Run) : Prop where
  holds : r.machine.Holds code
  above : Above code.length r

theorem Intact.tick (trap : Trap) (confined : ∀ i ∈ code, i.Confined) (h : Intact code r)
    (lt : r.machine.pc < code.length) : (left (tick trap r)).machine.Holds code :=
  h.holds.of_agrees ((agreesBelow_tick trap confined h.holds lt).1.mono h.above.top)

theorem Intact.goes (confined : ∀ i ∈ code, i.Confined) (h : Intact code r)
    (hg : Goes trap code r s) : Intact code s := by
  obtain ⟨lt, ht⟩ := hg
  refine ⟨?_, h.above.moves ((agreesBelow_tick trap confined h.holds lt).2 s ht)⟩
  have holds := h.tick trap confined lt
  rw [ht] at holds
  exact holds

theorem Intact.run (confined : ∀ i ∈ code, i.Confined) (h : Intact code r)
    (hr : ReflTransGen (Goes trap code) r s) : Intact code s := by
  induction hr with
  | refl => exact h
  | tail _ hg ih => exact ih.goes confined hg

theorem intact_start (code : List Instruction) (entry : UInt16) (fits : code.length ≤ stackSize) :
    Intact code (.start code entry) := by
  refine ⟨Machine.holds_load code entry fits, Nat.le_refl _, ?_⟩
  intro c hc
  have only := List.mem_singleton.mp hc
  subst only
  exact Nat.le_refl _

/-- Inside a call: the caller is still among the callers, everything above it started behind the
floor, and the cells below the floor are as the call found them. -/
structure Inside (caller : Run) (floor : Nat) (s : Run) : Prop where
  callers : ∃ deeper, s.callers =
    deeper ++ ⟨caller.machine.pc, caller.machine.top, caller.machine.closure⟩ :: caller.callers ∧
      ∀ c ∈ deeper, floor ≤ c.top
  top : floor ≤ s.machine.top
  agrees : caller.machine.AgreesBelow s.machine floor

variable {caller t : Run} {floor : Nat}

/-- A tick that does not come back to the caller stays inside the call. -/
theorem Inside.goes (confined : ∀ i ∈ code, i.Confined) (intact : Intact code r)
    (h : Inside caller floor r) (hg : Goes trap code r s)
    (deep : caller.callers.length < s.callers.length) : Inside caller floor s := by
  obtain ⟨lt, ht⟩ := hg
  obtain ⟨agrees, moves⟩ := agreesBelow_tick trap confined intact.holds lt
  rw [ht] at agrees
  have kept : caller.machine.AgreesBelow s.machine floor := h.agrees.trans (agrees.mono h.top)
  have le := h.top
  obtain ⟨deeper, eq, tops⟩ := h.callers
  cases moves s ht with
  | next callers pc top closure => exact ⟨⟨deeper, by rw [callers, eq], tops⟩, by omega, kept⟩
  | call x callers top =>
    refine ⟨⟨⟨r.machine.pc, r.machine.top, r.machine.closure⟩ :: deeper, ?_, ?_⟩, by omega, kept⟩
    · rw [callers, eq]
      rfl
    · intro c hc
      rcases List.mem_cons.mp hc with rfl | hc
      · exact le
      · exact tops c hc
  | ret c d rest before after pc top closure =>
    rw [eq] at before
    cases deeper with
    | nil =>
      injection before with _ before
      rw [after, ← before] at deep
      omega
    | cons first deeper =>
      injection before with first_eq before
      refine ⟨⟨deeper, after.trans before.symm, fun e he => tops e (by simp [he])⟩, ?_, kept⟩
      rw [top, ← first_eq]
      exact tops first (by simp)

theorem Inside.run (confined : ∀ i ∈ code, i.Confined) (intact : Intact code r)
    (h : Inside caller floor r)
    (hr : ReflTransGen (fun a b => Goes trap code a b ∧ caller.callers.length < b.callers.length) r s) :
    Intact code s ∧ Inside caller floor s := by
  induction hr with
  | refl => exact ⟨intact, h⟩
  | tail _ hg ih => exact ⟨ih.1.goes confined hg.1, ih.2.goes confined ih.1 hg.1 hg.2⟩

/-- The first tick that comes back restores the caller. -/
theorem Inside.returns (confined : ∀ i ∈ code, i.Confined) (intact : Intact code r)
    (h : Inside caller floor r) (hg : Goes trap code r s)
    (back : s.callers.length ≤ caller.callers.length) :
    s.callers = caller.callers ∧ s.machine.pc = caller.machine.pc + 1 ∧
      s.machine.top = caller.machine.top ∧ s.machine.closure = caller.machine.closure ∧
      caller.machine.AgreesBelow s.machine floor := by
  obtain ⟨lt, ht⟩ := hg
  obtain ⟨agrees, moves⟩ := agreesBelow_tick trap confined intact.holds lt
  rw [ht] at agrees
  have kept : caller.machine.AgreesBelow s.machine floor := h.agrees.trans (agrees.mono h.top)
  obtain ⟨deeper, eq, tops⟩ := h.callers
  cases moves s ht with
  | next callers pc top closure | call x callers top =>
    rw [callers, eq] at back
    simp at back
    omega
  | ret c d rest before after pc top closure =>
    rw [eq] at before
    cases deeper with
    | nil =>
      injection before with c_eq before
      subst c_eq
      exact ⟨by rw [after, ← before], pc, top, closure, kept⟩
    | cons first deeper =>
      injection before with _ before
      rw [after, ← before] at back
      simp at back
      omega

/-- A call and everything up to its return. -/
theorem Intact.call_returns (confined : ∀ i ∈ code, i.Confined) (h : Intact code r)
    {i : Instruction} {u : Run} (hi : r.machine.instruction? = some i)
    (op : i.op = .call ∨ i.op = .callRegister) (hs : Goes trap code r s)
    (hu : ReflTransGen (fun a b => Goes trap code a b ∧ r.callers.length < b.callers.length) s u)
    (ht : Goes trap code u t) (back : t.callers.length ≤ r.callers.length) :
    t.callers = r.callers ∧ t.machine.pc = r.machine.pc + 1 ∧ t.machine.top = r.machine.top ∧
      t.machine.closure = r.machine.closure ∧
      r.machine.AgreesBelow t.machine (r.machine.top + i.x.toNat) := by
  have first : Inside r (r.machine.top + i.x.toNat) s := by
    obtain ⟨lt, hs⟩ := hs
    have mem : i ∈ code := List.mem_of_getElem? (h.holds.instruction? lt ▸ hi)
    obtain ⟨j, hj, hs⟩ := tick_ok hs
    rw [hi] at hj
    cases hj
    rcases op with op | op
    · have bad := confined i mem
      simp [Instruction.Confined, op] at bad
    · rw [step_callRegister op] at hs
      split at hs
      · cases hs
        exact ⟨⟨[], rfl, by simp⟩, Nat.le_refl _, .refl _ _⟩
      · cases hs
  obtain ⟨intact, inside⟩ := first.run confined (h.goes confined hs) hu
  exact inside.returns confined intact ht back

end Exec

/-! ## Compiled programs -/

/-- The instructions of a program that are loaded. -/
def Program.code (p : Program) : List Instruction := p.instructions.dropLast

/-- A program before its first instruction. -/
def Program.start (p : Program) : Run := .start p.code (p.entry?.getD 0)

theorem Laid.code_eq {tree : ScopeTree} {program : Program} (l : Laid tree program) :
    program.code = l.linked := by
  have eq := congrArg (·.instructions.dropLast) l.program_eq
  simpa [Program.code] using eq

theorem keepsBanks_of_resolved {tree : ScopeTree} (h : tree.Resolved) (id : Nat) :
    (tree.scope id).KeepsBanks := by
  obtain ⟨bound, ids, ready, rfl⟩ := h.ready
  obtain ⟨start, stacked, -⟩ := ready.stacked id
  exact ⟨ScopeTree.bank_of_stacked stacked, ScopeTree.bank_capture ready.closure id⟩

theorem confined_of_compiled {tree : ScopeTree} {program : Program} (hr : tree.Resolved)
    (hc : tree.compile = .ok program) :
    program.code.length ≤ stackSize ∧ ∀ i ∈ program.code, i.Confined := by
  obtain ⟨l⟩ := compile_ok hc
  rw [l.code_eq]
  refine ⟨?_, l.confined (keepsBanks_of_resolved hr)⟩
  have small := l.small
  have length := l.length_linked
  rw [length, stackSize]
  exact Nat.le_of_lt (Nat.lt_trans small (by decide))

open Exec in
open Relation (ReflTransGen) in
/-- In a run of a compiled program that stays in the code, no tick changes a stack cell below the
window it runs in, the code stays as it was loaded, and a call gives back all below its frame. -/
theorem windows_isolated {tree : ScopeTree} {program : Program} (hr : tree.Resolved)
    (hc : tree.compile = .ok program) (trap : Trap) (r : Run)
    (reached : ReflTransGen (Goes trap program.code) program.start r) :
    (r.machine.pc < program.code.length →
      r.machine.AgreesBelow (left (tick trap r)).machine r.machine.top) ∧
    r.machine.Holds program.code ∧
    (r.machine.pc < program.code.length → (left (tick trap r)).machine.Holds program.code) ∧
    ∀ i s u t, r.machine.instruction? = some i → (i.op = .call ∨ i.op = .callRegister) →
      Goes trap program.code r s →
      ReflTransGen (fun a b => Goes trap program.code a b ∧ r.callers.length < b.callers.length) s u →
      Goes trap program.code u t → t.callers.length ≤ r.callers.length →
      t.callers = r.callers ∧ t.machine.pc = r.machine.pc + 1 ∧ t.machine.top = r.machine.top ∧
        t.machine.closure = r.machine.closure ∧
        r.machine.AgreesBelow t.machine (r.machine.top + i.x.toNat) := by
  obtain ⟨fits, confined⟩ := confined_of_compiled hr hc
  have intact : Intact program.code r := (intact_start program.code _ fits).run confined reached
  refine ⟨fun lt => (agreesBelow_tick trap confined intact.holds lt).1, intact.holds,
    fun lt => intact.tick trap confined lt, ?_⟩
  intro i s u t hi op hs hu ht back
  exact intact.call_returns confined hi op hs hu ht back

/-- The tree and the program of a source text. -/
theorem compileSource_ok {source : String} {c : Compiled} (h : compileSource source = .ok c) :
    c.tree.Resolved ∧ c.tree.compile = .ok c.program := by
  obtain ⟨tree, hr, hc⟩ := except_bind_ok h
  unfold compileTree at hc
  split at hc
  · rename_i program hp
    cases hc
    exact ⟨resolveSource_ok hr, hp⟩
  · cases hc

/-- The run one tick later, if it goes on from an address of the code. -/
def Exec.next? (trap : Trap) (code : List Instruction) (r : Run) : Option Run :=
  if r.machine.pc < code.length then
    match tick trap r with
    | .ok false s => some s
    | _ => none
  else none

theorem Exec.goes_of_next? {trap : Trap} {code : List Instruction} {r s : Run}
    (h : next? trap code r = some s) : Goes trap code r s := by
  unfold next? at h
  split at h
  · rename_i lt
    split at h
    · rename_i s' ht
      cases h
      exact ⟨lt, ht⟩
    · cases h
  · cases h

open Exec in
open Relation (ReflTransGen) in
/-- A function that adds one is called with its frame two registers into the caller's window. -/
theorem windows_isolated_increment : ∃ c r i s u t,
    compileSource "[ f: int > int = \\x > \x7b x + 1 \x7d; [ r: int = f # 41" = .ok c ∧
      ReflTransGen (Goes .none c.program.code) c.program.start r ∧
      r.machine.instruction? = some i ∧ i.op = .callRegister ∧ i.x = 2 ∧
      Goes .none c.program.code r s ∧
      ReflTransGen (fun a b => Goes .none c.program.code a b ∧ r.callers.length < b.callers.length)
        s u ∧
      Goes .none c.program.code u t ∧ t.callers.length ≤ r.callers.length ∧
      t.machine.top = r.machine.top ∧ r.machine.AgreesBelow t.machine (r.machine.top + 2) := by
  have run : (do
      let c ← (compileSource "[ f: int > int = \\x > \x7b x + 1 \x7d; [ r: int = f # 41").toOption
      let a ← next? .none c.program.code c.program.start
      let r ← next? .none c.program.code a
      let s ← next? .none c.program.code r
      let b ← next? .none c.program.code s
      let u ← next? .none c.program.code b
      let t ← next? .none c.program.code u
      let i ← r.machine.instruction?
      if i.op = .callRegister ∧ i.x = 2 ∧ r.callers.length < b.callers.length ∧
        r.callers.length < u.callers.length ∧ t.callers.length ≤ r.callers.length then some ()
      else none) = some () := by decide +kernel
  obtain ⟨c, hc, run⟩ := Option.bind_eq_some_iff.mp run
  obtain ⟨a, ha, run⟩ := Option.bind_eq_some_iff.mp run
  obtain ⟨r, hr, run⟩ := Option.bind_eq_some_iff.mp run
  obtain ⟨s, hs, run⟩ := Option.bind_eq_some_iff.mp run
  obtain ⟨b, hb, run⟩ := Option.bind_eq_some_iff.mp run
  obtain ⟨u, hu, run⟩ := Option.bind_eq_some_iff.mp run
  obtain ⟨t, ht, run⟩ := Option.bind_eq_some_iff.mp run
  obtain ⟨i, hi, run⟩ := Option.bind_eq_some_iff.mp run
  split at run
  · rename_i facts
    obtain ⟨op, x, deep_b, deep_u, back⟩ := facts
    have hc := toOption_eq_some hc
    obtain ⟨resolved, compiled⟩ := compileSource_ok hc
    have reached : ReflTransGen (Goes .none c.program.code) c.program.start r :=
      (ReflTransGen.single (goes_of_next? ha)).tail (goes_of_next? hr)
    have path : ReflTransGen (fun a b => Goes .none c.program.code a b ∧
        r.callers.length < b.callers.length) s u :=
      (ReflTransGen.single ⟨goes_of_next? hb, deep_b⟩).tail ⟨goes_of_next? hu, deep_u⟩
    have isolated := (windows_isolated resolved compiled .none r reached).2.2.2 i s u t hi (.inr op)
      (goes_of_next? hs) path (goes_of_next? ht) back
    obtain ⟨-, -, top, -, agrees⟩ := isolated
    refine ⟨c, r, i, s, u, t, hc, reached, hi, op, x, goes_of_next? hs, path, goes_of_next? ht, back,
      top, ?_⟩
    rw [x] at agrees
    exact agrees
  · cases run

end WindowedClosures
