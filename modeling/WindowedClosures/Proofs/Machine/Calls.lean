import WindowedClosures.Proofs.Code.Blocks
import WindowedClosures.Proofs.Code.Bodies
import WindowedClosures.Proofs.Machine.Extension

/-!
# Calls through registers meet functions

In a program that keeps functions apart every call finds, in the register it reads, the word of a
function with the arrow that the call was made for, so a run never leaves the code. It holds as long
as closures are left: from the 256th on they are shared, and captured words are lost.
-/

namespace WindowedClosures

open Relation (ReflTransGen)

namespace Exec

/-- One tick that goes on. -/
def Ticks (trap : Trap) (r s : Run) : Prop := tick trap r = .ok false s

theorem ticks_of_goes? {trap : Trap} {code : List Instruction} {n : Nat} {r s : Run}
    (h : goes? trap code n r = some s) : ReflTransGen (Ticks trap) r s :=
  (run_of_goes? h).lift id fun _ _ goes => goes.2

/-- The number of closures that were made only grows. -/
theorem made_le_of_ticks {trap : Trap} {r s : Run} (h : Ticks trap r s) : r.made ≤ s.made := by
  have extended := extends_left_tick trap r
  rw [show tick trap r = .ok false s from h] at extended
  exact extended.calls.sublist.countP_le

end Exec

namespace Laid

open Exec

variable {tree : ScopeTree} {program : Program}

/-- A program that keeps functions apart starts on its way to the end of its body. -/
theorem valid_start (l : Laid tree program) (resolved : tree.Resolved)
    (keeps : tree.keepsFunctions = true) (fits : program.code.length ≤ stackSize) :
    l.Valid program.start := by
  have void : (tree.scope ScopeTree.rootId).arrow = .unset :=
    ScopeTree.root_arrow_of_resolved resolved
  have entry : program.start.machine.pc = l.entry := by
    show (program.entry?.getD 0).toNat = l.entry
    rw [l.entry?_eq, Option.getD_some, UInt16.toNat_ofNat', Nat.mod_eq_of_lt l.entry_lt]
  refine ⟨intact_start _ _ fits, fun _ => none, ScopeTree.rootId, l.Enters ScopeTree.rootId,
    ⟨⟨fun cell c word owed => ?_, rfl, Nat.zero_le _, by simp⟩,
      .inl (ScopeTree.root_closure_of_resolved resolved)⟩, ?_, trivial⟩
  · cases cell with
    | stack address =>
      obtain ⟨o, -, k, a, -, calls, -⟩ := owed
      rw [void] at calls
      exact calls.elim
    | closures address =>
      obtain ⟨k, o, id, a, -, -, world, -⟩ := owed
      cases world
  · rw [entry]
    refine l.leads_of_scopeCode resolved keeps (ScopeTree.root_lt_of_resolved resolved) (.inl rfl) l.main ?_
    rewrite [l.drop_entry]
    exact List.prefix_rfl

/-- A run that has not used up the closures is on its way, and has not left the code. -/
theorem valid_run (l : Laid tree program) (resolved : tree.Resolved)
    (compiled : tree.compile = .ok program) (keeps : tree.keepsFunctions = true) {r : Run}
    (reached : ReflTransGen (Ticks .none) program.start r) (few : r.made ≤ 255) :
    l.Valid r ∧ ReflTransGen (Goes .none program.code) program.start r := by
  obtain ⟨fits, confined⟩ := confined_of_compiled resolved compiled
  induction reached with
  | refl => exact ⟨l.valid_start resolved keeps fits, .refl⟩
  | @tail q t path ticked ih =>
    have grows := made_le_of_ticks ticked
    obtain ⟨valid, inside⟩ := ih (by omega)
    have goes : Goes .none program.code q t := ⟨valid.lt, ticked⟩
    refine ⟨valid.tick confined (l.keeps_of_keepsFunctions resolved keeps) ticked ?_,
      inside.tail goes⟩
    intro i hi op
    have intact := intact_start program.code (program.entry?.getD 0) fits
    obtain ⟨ordered, -⟩ := (ordered_start _ _).run confined intact inside
    obtain ⟨-, -, made, -⟩ := ordered.goes confined valid.intact goes hi
    have used := ordered.handed.used
    rw [if_pos op] at made
    omega

end Laid

open Exec in
/-- In a run of a program that keeps functions apart, up to the 255th closure: the program counter
stays in the code, and a call through a register reads a word with the address of a function of the
program, whose arrow matches the one that the call was made for. -/
theorem calls_meet_functions {tree : ScopeTree} {program : Program} (hr : tree.Resolved)
    (hc : tree.compile = .ok program) (keeps : tree.keepsFunctions = true)
    (l : Laid tree program) (r : Run) (reached : ReflTransGen (Ticks .none) program.start r)
    (few : r.made ≤ 255) :
    r.machine.pc < program.code.length ∧
    ∀ i word, r.machine.instruction? = some i → i.op = .callRegister →
      r.machine.read? i.y = some word →
      ∃ e arrow f address, l.code[r.machine.pc]? = some e ∧ e.arrow = some arrow ∧
        f ∈ tree.functions ∧ ⟨f.id, f.name, address⟩ ∈ program.labels ∧
        (FunctionWord.ofWord word).address = address.toNat ∧
        (tree.scope f.scope).arrow.toTy.Matches arrow.toTy ∧
        ∀ s, Ticks .none r s → s.machine.pc = address.toNat := by
  obtain ⟨valid, -⟩ := l.valid_run hr hc keeps reached few
  refine ⟨valid.lt, fun i word hi op read => ?_⟩
  obtain ⟨e, arrow, w, here, made, f, address, entry, word_eq, same, -⟩ := valid.callable hi op read
  refine ⟨e, arrow, f, address, here, made, entry.mem, entry.label, word_eq, ?_, fun s ticked => ?_⟩
  · rw [Ty.Matches, Arrow.toTy, Arrow.toTy, Ty.normalized, Ty.normalized]
    exact congrArg Arrow.toTy same
  · obtain ⟨j, hj, stepped⟩ := tick_ok ticked
    rw [hi] at hj
    cases hj
    rw [step_callRegister op, show (r.charge i).machine.read? i.y = some word from read] at stepped
    cases stepped
    exact word_eq

open Exec in
/-- A function that captures a variable is handed to another one, which calls it: the call reads the
word with closure 1 and the address of the first. -/
theorem calls_meet_functions_handed : ∃ c r i word f,
    compileSource "[ a: int = 1; [ f: int > int = \\x > \x7b x + a \x7d;
      [ g: (int > int) > int = \\h > \x7b h # 5 \x7d; [ r: int = g # f" = .ok c ∧
      ReflTransGen (Ticks .none) c.program.start r ∧ r.machine.instruction? = some i ∧
      i.op = .callRegister ∧ r.machine.read? i.y = some word ∧ word = FunctionWord.word 1 4 ∧
      f ∈ c.tree.functions ∧ f.name = "f" := by
  have run : (do
      let c ← (compileSource "[ a: int = 1; [ f: int > int = \\x > \x7b x + a \x7d;
      [ g: (int > int) > int = \\h > \x7b h # 5 \x7d; [ r: int = g # f").toOption
      let r ← goes? .none c.program.code 7 c.program.start
      let i ← r.machine.instruction?
      let word ← r.machine.read? i.y
      if c.tree.keepsFunctions = true ∧ r.made ≤ 255 ∧ i.op = .callRegister ∧
        word = FunctionWord.word 1 4 ∧ c.program.labels = [⟨1, "g", 0⟩, ⟨0, "f", 4⟩] then some ()
      else none) = some () := by decide +kernel
  obtain ⟨c, hc, run⟩ := Option.bind_eq_some_iff.mp run
  obtain ⟨r, hr, run⟩ := Option.bind_eq_some_iff.mp run
  obtain ⟨i, hi, run⟩ := Option.bind_eq_some_iff.mp run
  obtain ⟨word, read, run⟩ := Option.bind_eq_some_iff.mp run
  split at run
  · rename_i facts
    obtain ⟨keeps, few, op, value, labels⟩ := facts
    have hc := toOption_eq_some hc
    obtain ⟨resolved, compiled⟩ := compileSource_ok hc
    obtain ⟨l⟩ := compile_ok compiled
    have reached := ticks_of_goes? hr
    obtain ⟨e, arrow, f, address, -, -, mem, label, same, -⟩ :=
      (calls_meet_functions resolved compiled keeps l r reached few).2 i word hi op read
    refine ⟨c, r, i, word, f, hc, reached, hi, op, read, value, mem, ?_⟩
    rw [value, FunctionWord.ofWord_word] at same
    rw [labels, List.mem_pair] at label
    rcases label with first | second
    · injection first with _ _ zero
      rw [zero] at same
      cases same
    · injection second
  · cases run

open Exec in
/-- A number where a function is expected: the call reads an address that no function has, and the
run goes on behind the code. -/
theorem number_called : ∃ c r i word s,
    compileSource "[ f: int > int = 5; [ r: int = f # 1" = .ok c ∧
      ReflTransGen (Ticks .none) c.program.start r ∧ r.machine.instruction? = some i ∧
      i.op = .callRegister ∧ r.machine.read? i.y = some word ∧
      (∀ label ∈ c.program.labels, (FunctionWord.ofWord word).address ≠ label.address.toNat) ∧
      Ticks .none r s ∧ c.program.code.length ≤ s.machine.pc := by
  have run : (do
      let c ← (compileSource "[ f: int > int = 5; [ r: int = f # 1").toOption
      let r ← goes? .none c.program.code 2 c.program.start
      let i ← r.machine.instruction?
      let word ← r.machine.read? i.y
      let s ← next? .none c.program.code r
      if i.op = .callRegister ∧ c.program.labels = [] ∧ c.program.code.length ≤ s.machine.pc then
        some ()
      else none) = some () := by decide +kernel
  obtain ⟨c, hc, run⟩ := Option.bind_eq_some_iff.mp run
  obtain ⟨r, hr, run⟩ := Option.bind_eq_some_iff.mp run
  obtain ⟨i, hi, run⟩ := Option.bind_eq_some_iff.mp run
  obtain ⟨word, read, run⟩ := Option.bind_eq_some_iff.mp run
  obtain ⟨s, hs, run⟩ := Option.bind_eq_some_iff.mp run
  split at run
  · rename_i facts
    obtain ⟨op, labels, behind⟩ := facts
    refine ⟨c, r, i, word, s, toOption_eq_some hc, ticks_of_goes? hr, hi, op, read, ?_,
      (goes_of_next? hs).2, behind⟩
    rw [labels]
    simp
  · cases run

end WindowedClosures
