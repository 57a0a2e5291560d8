import WindowedClosures.Proofs.Machine.Straight
import WindowedClosures.Proofs.Machine.Windows

/-!
# Closures handed out in a run

Compiled code takes closures and never gives one back, so a run that stays in the code gets them in
order: the first closure it makes is closure 1, the next one closure 2. That ends with closure 255.
From then on the machine hands out closure 0, which belongs to all functions that capture nothing,
and every function value made there shares its words with the ones made before.
-/

namespace WindowedClosures

namespace ClosurePool

/-- The closure that is handed out after so many others, if none was given back. -/
def nth (n : Nat) : Nat := if n < 255 then n + 1 else 0

/-- So many closures were handed out, in order, and none was given back. -/
structure Handed (p : ClosurePool) (n : Nat) : Prop where
  order : p.order = fresh.order
  used : p.used = min n 255

theorem handed_fresh : fresh.Handed 0 := ⟨rfl, rfl⟩

theorem fresh_order (k : Nat) (h : k < 255) : fresh.order[k] = UInt8.ofNat (k + 1) := by
  simp [fresh, Nat.add_comm]

theorem Handed.alloc {p : ClosurePool} {n : Nat} (h : p.Handed n) :
    p.alloc.1.toNat = nth n ∧ p.alloc.2.Handed (n + 1) := by
  have used := h.used
  by_cases free : n < 255
  · have spare : p.used = n := by omega
    have here : p.order[n] = UInt8.ofNat (n + 1) := by
      simp only [h.order, fresh_order n free]
    have alloc : p.alloc = (p.order[n], { p with used := n + 1 }) := by
      simp only [ClosurePool.alloc, spare, free, dif_pos]
    rw [alloc, here]
    refine ⟨?_, h.order, ?_⟩
    · rw [nth, if_pos free, UInt8.toNat_ofNat']
      omega
    · show n + 1 = min (n + 1) 255
      omega
  · have alloc : p.alloc = (0, p) := by
      rw [ClosurePool.alloc, dif_neg (by omega)]
    have full : p.Handed (n + 1) := ⟨h.order, by omega⟩
    rw [alloc]
    exact ⟨by rw [nth, if_neg free]; rfl, full⟩

theorem nth_pos {n : Nat} (h : n < 255) : 0 < nth n := by
  rw [nth, if_pos h]
  omega

/-- Of two closures the later one has the greater number, as long as there are enough. -/
theorem nth_lt {m n : Nat} (lt : m < n) (h : n < 255) : nth m < nth n := by
  rw [nth, nth, if_pos h, if_pos (by omega)]
  omega

end ClosurePool

/-- How many closures a run has made. -/
def Run.made (r : Run) : Nat := r.calls.countP fun call => call.2.op = .closureMake

namespace Exec

open Relation (ReflTransGen)

variable {trap : Trap} {code : List Instruction} {r s : Run} {i : Instruction} {ended : Bool}

/-- What an instruction of compiled code does to the closures. -/
inductive Takes (i : Instruction) (r s : Run) : Prop
  /-- A closure is handed out, selected, and its function word stored. -/
  | make : i.op = .closureMake → ((selecting r).machine.read? i.x).isSome →
      s.machine = ((selecting r).machine.write i.x
        (FunctionWord.word r.machine.pool.alloc.1 i.yz)).advance → Takes i r s
  /-- A word is stored. -/
  | data (word : Int32) : i.op ≠ .closureMake → s.machine = (r.machine.write i.x word).advance →
      Takes i r s
  | still : i.op ≠ .closureMake → s.machine.closures = r.machine.closures →
      s.machine.pool = r.machine.pool → s.machine.aux = r.machine.aux → Takes i r s

theorem takes_step (hi : i.Confined) (h : step i r = .ok ended s) :
    Takes i r s ∧ s.calls = r.calls := by
  have data (op : i.op ≠ .closureMake) (isData : i.op.isData = true) :
      Takes i r s ∧ s.calls = r.calls := by
    obtain ⟨word, -, stored⟩ := step_data_ok isData h
    obtain ⟨-, rfl⟩ := store_ok stored
    exact ⟨.data word op rfl, rfl⟩
  unfold Instruction.Confined at hi
  cases he : i.op <;> simp only [he] at hi
  case closureMake =>
    rw [step_closureMake he] at h
    obtain ⟨there, rfl⟩ := store_ok h
    exact ⟨.make he there rfl, rfl⟩
  case print =>
    rw [step_print he] at h
    cases h
    exact ⟨.still (by simp [he]) rfl rfl rfl, rfl⟩
  case callRegister =>
    rw [step_callRegister he] at h
    split at h
    · cases h
      exact ⟨.still (by simp [he]) rfl rfl rfl, rfl⟩
    · cases h
  case ret =>
    rw [step_ret he] at h
    split at h
    all_goals
      cases h
      exact ⟨.still (by simp [he]) rfl rfl rfl, rfl⟩
  all_goals exact data (by simp [he]) (by rw [he]; rfl)

theorem Takes.aux (h : Takes i r s) : s.machine.aux =
    if i.op = .closureMake then r.machine.pool.alloc.1.toNat else r.machine.aux := by
  cases h with
  | make op _ eq => simp [eq, op, Machine.write, selecting]
  | data word op eq => simp [eq, op, Machine.write]
  | still op _ _ aux => simp [op, aux]

theorem Takes.pool (h : Takes i r s) : s.machine.pool =
    if i.op = .closureMake then r.machine.pool.alloc.2 else r.machine.pool := by
  cases h with
  | make op _ eq => simp [eq, op, Machine.write, selecting]
  | data word op eq => simp [eq, op, Machine.write]
  | still op _ pool _ => simp [op, pool]

/-- The function word of the closure is stored. -/
theorem Takes.word (h : Takes i r s) (op : i.op = .closureMake) :
    s.machine.read? i.x = some (FunctionWord.word r.machine.pool.alloc.1 i.yz) := by
  cases h with
  | make _ there eq =>
    have same := Machine.readCell?_writeCell_same (selecting r).machine _
      (FunctionWord.word r.machine.pool.alloc.1 i.yz) there
    rw [eq, Machine.read?, Machine.cell_advance, Machine.readCell?_advance, Machine.write,
      Machine.cell_writeCell]
    exact same
  | data _ other _ => exact (other op).elim
  | still other _ _ _ => exact (other op).elim

/-- A store anywhere but in the running closure changes no closure that is not selected. -/
theorem closures_write (m : Machine) {byte : UInt8} (word : Int32)
    (bank : (Register.ofByte byte).bank ≠ .closure) {address : Nat} (other : address / 64 ≠ m.aux) :
    (m.write byte word).closures.get? address = m.closures.get? address := by
  have inside := (Register.ofByte byte).offset.isLt
  unfold Machine.write Machine.cell
  cases h : (Register.ofByte byte).bank with
  | window | base => rfl
  | closure => exact (bank h).elim
  | aux => exact Memory.get?_set_other _ _ _ _ (by omega)

theorem Takes.fills (h : Takes i r s) (bank : (Register.ofByte i.x).bank ≠ .closure) {address : Nat}
    (other : address / 64 ≠ s.machine.aux) :
    s.machine.closures.get? address = r.machine.closures.get? address := by
  have selected := h.aux
  cases h with
  | make op _ eq =>
    rw [if_pos op] at selected
    rw [selected] at other
    rw [eq, Machine.advance_closures, closures_write _ _ bank other]
    rfl
  | data word op eq =>
    rw [if_neg op] at selected
    rw [selected] at other
    rw [eq, Machine.advance_closures, closures_write _ _ bank other]
  | still _ closures _ _ => rw [closures]

/-! ## Runs -/

/-- A run that made its closures in order, and has the last one selected. -/
structure Ordered (r : Run) : Prop where
  handed : r.machine.pool.Handed r.made
  selected : ∀ n, r.made = n + 1 → r.machine.aux = ClosurePool.nth n

theorem ordered_start (code : List Instruction) (entry : UInt16) : Ordered (.start code entry) :=
  ⟨ClosurePool.handed_fresh, fun n h => by cases h⟩

theorem made_charge (r : Run) (i : Instruction) :
    (r.charge i).made = if i.op = .closureMake then r.made + 1 else r.made := by
  simp only [Run.made, Run.charge, List.countP_cons, decide_eq_true_eq]
  split <;> rfl

/-- A tick of compiled code takes the next closure, or none. -/
theorem Ordered.goes (confined : ∀ i ∈ code, i.Confined) (intact : Intact code r) (h : Ordered r)
    (hg : Goes trap code r s) {i : Instruction} (hi : r.machine.instruction? = some i) :
    Takes i (r.charge i) s ∧ Ordered s ∧
      s.made = (if i.op = .closureMake then r.made + 1 else r.made) ∧
      s.machine.aux = if i.op = .closureMake then ClosurePool.nth r.made else r.machine.aux := by
  obtain ⟨lt, ticked⟩ := hg
  obtain ⟨j, hj, stepped⟩ := tick_ok ticked
  rw [hi] at hj
  cases hj
  have mem : i ∈ code := List.mem_of_getElem? (intact.holds.instruction? lt ▸ hi)
  obtain ⟨takes, calls⟩ := takes_step (confined i mem) stepped
  have made : s.made = if i.op = .closureMake then r.made + 1 else r.made := by
    rw [← made_charge, Run.made, Run.made, calls]
  obtain ⟨number, handed⟩ := h.handed.alloc
  have aux := takes.aux
  have pool := takes.pool
  by_cases op : i.op = .closureMake
  · rw [if_pos op] at made aux pool
    have selected : s.machine.aux = ClosurePool.nth r.made := aux.trans number
    rw [if_pos op, if_pos op]
    refine ⟨takes, ⟨?_, fun n eq => ?_⟩, made, selected⟩
    · rw [made, pool]
      exact handed
    · rw [selected, show n = r.made by omega]
  · rw [if_neg op] at made aux pool
    rw [if_neg op, if_neg op]
    refine ⟨takes, ⟨?_, fun n eq => ?_⟩, made, aux⟩
    · rw [made, pool]
      exact h.handed
    · rw [aux]
      exact h.selected n (made ▸ eq)

/-- A run keeps its closures in order, and their number only grows. -/
theorem Ordered.run (confined : ∀ i ∈ code, i.Confined) (intact : Intact code r) (h : Ordered r)
    (hr : ReflTransGen (Goes trap code) r s) : Ordered s ∧ r.made ≤ s.made := by
  induction hr with
  | refl => exact ⟨h, Nat.le_refl _⟩
  | @tail q t path hg ih =>
    obtain ⟨i, hi, -⟩ := tick_ok hg.2
    obtain ⟨-, ordered, made, -⟩ := ih.1.goes confined (intact.run confined path) hg hi
    refine ⟨ordered, Nat.le_trans ih.2 ?_⟩
    rw [made]
    split <;> omega

/-- The run so many ticks later, if it goes on from addresses of the code. -/
def goes? (trap : Trap) (code : List Instruction) : Nat → Run → Option Run
  | 0, r => some r
  | n + 1, r => (next? trap code r).bind (goes? trap code n)

theorem run_of_goes? {n : Nat} (h : goes? trap code n r = some s) :
    ReflTransGen (Goes trap code) r s := by
  induction n generalizing r with
  | zero =>
    cases h
    exact .refl
  | succ n ih =>
    obtain ⟨q, first, rest⟩ := Option.bind_eq_some_iff.mp h
    exact .head (goes_of_next? first) (ih rest)

/-! ## A descent that takes them all -/

/-- The function makes a closure, fills it, and calls itself through a word that it captured. -/
def descent : List Instruction :=
  [⟨.closureMake, 2, 6⟩, ⟨.move, 128, 1⟩, ⟨.move, 4, 1⟩, ⟨.callRegister, 3, 64⟩]

/-- Code that starts with the function. -/
structure Descends (code : List Instruction) : Prop where
  confined : ∀ i ∈ code, i.Confined
  front : code.take 4 = descent

theorem Descends.stands (h : Descends code) {k : Nat} (hi : descent[k]? = some i) :
    code[k]? = some i := by
  have lt : k < 4 := (List.getElem?_eq_some_iff.mp hi).1
  rw [← List.getElem?_take_of_lt lt, h.front, hi]

/-- The function is at an address of its code, with a window that starts at `top`, and closure 1
holds its own word. -/
structure Deep (code : List Instruction) (top made pc : Nat) (r : Run) : Prop where
  intact : Intact code r
  ordered : Ordered r
  made : r.made = made
  pc : r.machine.pc = pc
  top : r.machine.top = top
  closure : r.machine.closure = 1
  self : r.machine.closures.get? 64 = some (FunctionWord.word 1 0)

variable {top made pc : Nat}

/-- An instruction that stores a word leaves the function where it is, one address further. -/
theorem Deep.stores {q : Run} {word : Int32} (confined : ∀ i ∈ code, i.Confined)
    (h : Deep code top made pc r) (hi : code[pc]? = some i)
    (stepped : step i (r.charge i) = store i.x word q) (there : (q.machine.read? i.x).isSome)
    (same : q.machine.pc = r.machine.pc ∧ q.machine.top = r.machine.top ∧
      q.machine.closure = r.machine.closure)
    (bank : (Register.ofByte i.x).bank ≠ .closure)
    (later : 2 ≤ if i.op = .closureMake then made + 1 else made) :
    ∃ s, Goes .none code r s ∧
      Deep code top (if i.op = .closureMake then made + 1 else made) (pc + 1) s := by
  rw [← h.pc] at hi
  have lt : r.machine.pc < code.length := (List.getElem?_eq_some_iff.mp hi).1
  have stands := (h.intact.holds.instruction? lt).trans hi
  rw [store_of_isSome word there] at stepped
  have goes : Goes .none code r _ := ⟨lt, (tick_of_instruction stands rfl).trans stepped⟩
  obtain ⟨takes, ordered, count, -⟩ := h.ordered.goes confined h.intact goes stands
  rw [h.made] at count
  refine ⟨_, goes, h.intact.goes confined goes, ordered, count, ?_, ?_, ?_, ?_⟩
  · rw [Machine.advance_pc, Machine.write_pc, same.1, h.pc]
  · rw [Machine.advance_top, Machine.write_top, same.2.1, h.top]
  · rw [Machine.advance_closure, Machine.write_closure, same.2.2, h.closure]
  · obtain ⟨n, hn⟩ : ∃ n, (if i.op = .closureMake then made + 1 else made) = n + 1 + 1 :=
      ⟨_, (Nat.sub_add_cancel later).symm⟩
    have selected := ordered.selected (n + 1) (count.trans hn)
    rw [takes.fills bank ?_]
    · exact h.self
    · rw [selected, ClosurePool.nth]
      split <;> omega

theorem Deep.seated (h : Deep code top made pc r) (room : top + 64 ≤ stackSize) :
    r.machine.Seated :=
  ⟨by rw [h.top]; exact room, by rw [h.closure]; decide⟩

/-- The selected closure has its words. -/
theorem Deep.aux (h : Deep code top (made + 1) pc r) {byte : UInt8}
    (bank : (Register.ofByte byte).bank = .aux) : (r.machine.read? byte).isSome := by
  have inside := (Register.ofByte byte).offset.isLt
  have selected := h.ordered.selected made h.made
  rw [ClosurePool.nth] at selected
  rw [Machine.read?, Machine.cell, bank]
  refine (Memory.isSome_get?_iff _ _).mpr ?_
  rw [closureWords]
  split at selected <;> omega

theorem Deep.moves (confined : ∀ i ∈ code, i.Confined) (h : Deep code top made pc r)
    (room : top + 64 ≤ stackSize) {x : UInt8} {yz : UInt16} (hi : code[pc]? = some ⟨.move, x, yz⟩)
    (source : (Register.ofByte (Instruction.mk .move x yz).y).Near)
    (target : (r.machine.read? x).isSome) (bank : (Register.ofByte x).bank ≠ .closure)
    (later : 2 ≤ made) : ∃ s, Goes .none code r s ∧ Deep code top made (pc + 1) s := by
  have read := (h.seated room).read? source
  have stepped : step ⟨.move, x, yz⟩ (r.charge ⟨.move, x, yz⟩) =
      store x (r.machine.file (.ofByte (Instruction.mk .move x yz).y))
        (r.charge ⟨.move, x, yz⟩) := by
    rw [step_data _ _ rfl]
    simp only [Instruction.result]
    rw [show (r.charge ⟨.move, x, yz⟩).machine.read? _ = _ from read]
  exact h.stores confined hi stepped target ⟨rfl, rfl, rfl⟩ bank later

/-- One level: a closure is made, and the function is entered again three registers further up. -/
theorem Descends.level (h : Descends code) (deep : Deep code top (made + 1) 0 r)
    (room : top + 64 ≤ stackSize) :
    ∃ t s, Goes .none code r t ∧ ReflTransGen (Goes .none code) t s ∧
      Deep code (top + 3) (made + 2) 0 s := by
  have there : (r.machine.read? 2).isSome := (deep.seated room).isSome_readCell? (by decide)
  obtain ⟨t, ht, first⟩ := deep.stores h.confined (h.stands rfl) (step_closureMake rfl _) there
    ⟨rfl, rfl, rfl⟩ (by decide) (by simp)
  have there : (t.machine.read? 128).isSome := first.aux (by decide)
  obtain ⟨u, hu, second⟩ := first.moves h.confined room (h.stands rfl) (by decide) there (by decide)
    (by simp)
  have there : (u.machine.read? 4).isSome := (second.seated room).isSome_readCell? (by decide)
  obtain ⟨v, hv, third⟩ := second.moves h.confined room (h.stands rfl) (by decide) there (by decide)
    (by simp)
  have lt : v.machine.pc < code.length := by
    rw [third.pc]
    exact (List.getElem?_eq_some_iff.mp (h.stands (k := 3) rfl)).1
  have stands : v.machine.instruction? = some ⟨.callRegister, 3, 64⟩ := by
    rw [third.intact.holds.instruction? lt, third.pc]
    exact h.stands rfl
  have self : (v.charge ⟨.callRegister, 3, 64⟩).machine.read?
      (Instruction.mk .callRegister 3 64).y = some (FunctionWord.word 1 0) := by
    rw [← third.self]
    show v.machine.closures.get? (v.machine.closure * 64 + 0) = _
    rw [third.closure]
  have goes : Goes .none code v
      ((v.charge ⟨.callRegister, 3, 64⟩).entering (.ofWord (FunctionWord.word 1 0)) 3) := by
    refine ⟨lt, (tick_of_instruction stands rfl).trans ?_⟩
    rw [step_callRegister rfl, self]
  have entry : (FunctionWord.ofWord (FunctionWord.word 1 0)).address = 0 := by decide
  have closure : (FunctionWord.ofWord (FunctionWord.word 1 0)).closure.toNat = 1 := by decide
  obtain ⟨-, ordered, count, -⟩ := third.ordered.goes h.confined third.intact goes stands
  refine ⟨t, _, ht, ((ReflTransGen.single hu).tail hv).tail goes, third.intact.goes h.confined goes,
    ordered, count.trans third.made, entry, ?_, closure, ?_⟩
  · show v.machine.top + 3 = top + 3
    rw [third.top]
  · rw [Run.entering_closures]
    exact third.self

/-- However many levels fit on the stack. -/
theorem Descends.levels (h : Descends code) (deep : Deep code top (made + 1) 0 r) (n : Nat)
    (room : top + 3 * n + 61 ≤ stackSize) :
    ∃ s, ReflTransGen (Goes .none code) r s ∧ Deep code (top + 3 * n) (made + 1 + n) 0 s := by
  induction n with
  | zero => exact ⟨r, .refl, deep⟩
  | succ n ih =>
    obtain ⟨q, path, lower⟩ := ih (by omega)
    obtain ⟨t, s, step, rest, next⟩ := h.level
      (by rw [show made + n + 1 = made + 1 + n by omega]; exact lower) (by omega)
    refine ⟨s, path.trans (.head step rest), ?_⟩
    rw [show top + 3 * (n + 1) = top + 3 * n + 3 by omega,
      show made + 1 + (n + 1) = made + n + 2 by omega]
    exact next

end Exec

open Exec
open Relation (ReflTransGen)

/-- In a run of a compiled program that stays in the code, the closure made after `n` others is
closure `n + 1` as long as there is one, and so no earlier one; after 255 it is closure 0. Filling
the closure made last changes no word of another one. -/
theorem closures_fresh {tree : ScopeTree} {program : Program} (hr : tree.Resolved)
    (hc : tree.compile = .ok program) {trap : Trap} {r s : Run} {i : Instruction}
    (reached : ReflTransGen (Goes trap program.code) program.start r)
    (hi : r.machine.instruction? = some i) (hg : Goes trap program.code r s) :
    (i.op = .closureMake →
      s.machine.aux = ClosurePool.nth r.made ∧
      s.machine.read? i.x = some (FunctionWord.word (UInt8.ofNat s.machine.aux) i.yz) ∧
      (r.made < 255 → s.machine.aux ≠ 0 ∧
        ∀ q t j, ReflTransGen (Goes trap program.code) program.start q →
          q.machine.instruction? = some j → j.op = .closureMake → Goes trap program.code q t →
          ReflTransGen (Goes trap program.code) t r → t.machine.aux ≠ s.machine.aux)) ∧
    ((Register.ofByte i.x).bank = .aux →
      (∀ n, s.made = n + 1 → s.machine.aux = ClosurePool.nth n) ∧
      ∀ address, address / 64 ≠ s.machine.aux →
        s.machine.closures.get? address = r.machine.closures.get? address) := by
  obtain ⟨fits, confined⟩ := confined_of_compiled hr hc
  have intact := intact_start program.code (program.entry?.getD 0) fits
  have start := ordered_start program.code (program.entry?.getD 0)
  obtain ⟨ordered, -⟩ := start.run confined intact reached
  obtain ⟨takes, later, made, aux⟩ := ordered.goes confined (intact.run confined reached) hg hi
  refine ⟨fun op => ?_, fun bank => ⟨later.selected, fun address other =>
    takes.fills (by rw [bank]; decide) other⟩⟩
  rw [if_pos op] at aux
  refine ⟨aux, ?_, fun few => ⟨?_, ?_⟩⟩
  · have number : (UInt8.ofNat s.machine.aux) = r.machine.pool.alloc.1 := by
      rw [aux, ← ordered.handed.alloc.1, UInt8.ofNat_toNat]
    rw [number]
    exact takes.word op
  · rw [aux]
    exact Nat.ne_of_gt (ClosurePool.nth_pos few)
  · intro q t j path hj makes step rest
    obtain ⟨before, -⟩ := start.run confined intact path
    have here := intact.run confined path
    obtain ⟨-, after, count, number⟩ := before.goes confined here step hj
    obtain ⟨-, grows⟩ := after.run confined (here.goes confined step) rest
    rw [if_pos makes] at count number
    rw [number, aux]
    exact Nat.ne_of_lt (ClosurePool.nth_lt (by omega) few)

/-- The second closure of a program is not the first, and the words of the two are different. -/
theorem closures_fresh_second : ∃ c q t r s i j,
    compileSource "[ a: int = 1; [ f: int > int = \\x > \x7b x + a \x7d;
      [ g: int > int = \\x > \x7b x - a \x7d" = .ok c ∧
      ReflTransGen (Goes .none c.program.code) c.program.start q ∧
      q.machine.instruction? = some i ∧ i.op = .closureMake ∧ Goes .none c.program.code q t ∧
      ReflTransGen (Goes .none c.program.code) t r ∧
      r.machine.instruction? = some j ∧ j.op = .closureMake ∧ Goes .none c.program.code r s ∧
      t.machine.read? i.x = some (FunctionWord.word 1 i.yz) ∧
      s.machine.read? j.x = some (FunctionWord.word 2 j.yz) ∧ t.machine.aux ≠ s.machine.aux := by
  have run : (do
      let c ← (compileSource "[ a: int = 1; [ f: int > int = \\x > \x7b x + a \x7d;
      [ g: int > int = \\x > \x7b x - a \x7d").toOption
      let q ← goes? .none c.program.code 1 c.program.start
      let t ← next? .none c.program.code q
      let r ← goes? .none c.program.code 1 t
      let s ← next? .none c.program.code r
      let i ← q.machine.instruction?
      let j ← r.machine.instruction?
      if i.op = .closureMake ∧ j.op = .closureMake ∧ q.made = 0 ∧ r.made = 1 then some () else none) =
        some () := by decide +kernel
  obtain ⟨c, hc, run⟩ := Option.bind_eq_some_iff.mp run
  obtain ⟨q, hq, run⟩ := Option.bind_eq_some_iff.mp run
  obtain ⟨t, ht, run⟩ := Option.bind_eq_some_iff.mp run
  obtain ⟨r, hr, run⟩ := Option.bind_eq_some_iff.mp run
  obtain ⟨s, hs, run⟩ := Option.bind_eq_some_iff.mp run
  obtain ⟨i, hi, run⟩ := Option.bind_eq_some_iff.mp run
  obtain ⟨j, hj, run⟩ := Option.bind_eq_some_iff.mp run
  split at run
  · rename_i facts
    obtain ⟨first, second, none, one⟩ := facts
    have hc := toOption_eq_some hc
    obtain ⟨resolved, compiled⟩ := compileSource_ok hc
    have path := run_of_goes? hq
    have step := goes_of_next? ht
    have rest := run_of_goes? hr
    have next := goes_of_next? hs
    obtain ⟨aux, word, -⟩ := (closures_fresh resolved compiled path hi step).1 first
    obtain ⟨aux', word', fresh⟩ :=
      (closures_fresh resolved compiled ((path.tail step).trans rest) hj next).1 second
    have apart := (fresh (by rw [one]; decide)).2 q t i path hi first step rest
    rw [none] at aux
    rw [one] at aux'
    rw [aux] at word
    rw [aux'] at word'
    exact ⟨c, q, t, r, s, i, j, hc, path, hi, first, step, rest, hj, second, next, word, word', apart⟩
  · cases run

/-- A function that makes a closure and calls itself: the 256th closure of the run is closure 0,
and so is the next one. -/
theorem closures_exhausted : ∃ c q t r s i j,
    compileSource "[ f: int > int = \\x > \x7b [ g: int > int = \\y > \x7b y + x \x7d;
      f # x \x7d; [ r: int = f # 1" = .ok c ∧
      ReflTransGen (Goes .none c.program.code) c.program.start q ∧
      q.machine.instruction? = some i ∧ i.op = .closureMake ∧ Goes .none c.program.code q t ∧
      ReflTransGen (Goes .none c.program.code) t r ∧
      r.machine.instruction? = some j ∧ j.op = .closureMake ∧ Goes .none c.program.code r s ∧
      t.machine.aux = 0 ∧ s.machine.aux = 0 := by
  have run : (do
      let c ← (compileSource "[ f: int > int = \\x > \x7b [ g: int > int = \\y > \x7b y + x \x7d;
      f # x \x7d; [ r: int = f # 1").toOption
      let r ← goes? .none c.program.code 4 c.program.start
      if c.program.code.take 4 = descent ∧ r.made = 1 ∧ r.machine.pc = 0 ∧ r.machine.top = 16 ∧
          r.machine.closure = 1 ∧
          r.machine.closures.get? 64 = some (FunctionWord.word 1 0) then some () else none) =
        some () := by decide +kernel
  obtain ⟨c, hc, run⟩ := Option.bind_eq_some_iff.mp run
  obtain ⟨o, ho, run⟩ := Option.bind_eq_some_iff.mp run
  split at run
  · rename_i facts
    obtain ⟨front, made, pc, top, closure, self⟩ := facts
    have hc := toOption_eq_some hc
    obtain ⟨resolved, compiled⟩ := compileSource_ok hc
    obtain ⟨fits, confined⟩ := confined_of_compiled resolved compiled
    have descends : Descends c.program.code := ⟨confined, front⟩
    have intact := intact_start c.program.code (c.program.entry?.getD 0) fits
    have reached := run_of_goes? ho
    have deep : Deep c.program.code 16 (0 + 1) 0 o :=
      ⟨intact.run confined reached, ((ordered_start _ _).run confined intact reached).1,
        made, pc, top, closure, self⟩
    obtain ⟨q, path, last⟩ := descends.levels deep 254 (by decide)
    obtain ⟨t, r, ht, rest, next⟩ := descends.level last (by decide)
    obtain ⟨s, _, hs, -, -⟩ := descends.level next (by decide)
    have atq : q.machine.instruction? = some ⟨.closureMake, 2, 6⟩ := by
      rw [last.intact.holds.instruction? ht.1, last.pc]
      exact descends.stands rfl
    have atr : r.machine.instruction? = some ⟨.closureMake, 2, 6⟩ := by
      rw [next.intact.holds.instruction? hs.1, next.pc]
      exact descends.stands rfl
    obtain ⟨-, -, -, zero⟩ := last.ordered.goes confined last.intact ht atq
    obtain ⟨-, -, -, again⟩ := next.ordered.goes confined next.intact hs atr
    rw [if_pos rfl, last.made] at zero
    rw [if_pos rfl, next.made] at again
    exact ⟨c, q, t, r, s, _, _, hc, reached.trans path, atq, rfl, ht, rest, atr, rfl, hs, zero,
      again⟩
  · cases run

end WindowedClosures
