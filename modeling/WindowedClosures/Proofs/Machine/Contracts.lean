import WindowedClosures.Proofs.Machine.Windows
import WindowedClosures.Proofs.Ty.Callables

/-!
# Contracts of functions

What a function may rely on when it is entered: the function words in its argument and in its
closure are words of functions with the arrows that the types say. What it owes when it returns: the
same of its output. Code that leads from one assertion about the machine to another, instruction by
instruction, with calls that rely on the contract of the callee; and the runs of a program all of
whose functions keep their contracts, in which every call through a register meets a function of
the arrow it was made for.
-/

namespace WindowedClosures

/-- The scopes that the closures in use were made for. -/
abbrev World := Nat → Option Nat

namespace World

/-- All closures of one world are in the other. -/
def Extends (w w' : World) : Prop := ∀ k id, w k = some id → w' k = some id

theorem Extends.refl (w : World) : w.Extends w := fun _ _ h => h

theorem Extends.trans {w w' w'' : World} (h : w.Extends w') (h' : w'.Extends w'') :
    w.Extends w'' := fun k id hk => h' k id (h k id hk)

end World

/-- What is known of a word: that it is a function of an arrow, or that it is 0 or 1. -/
inductive Claim where
  | calls (a : Arrow)
  | bit

/-- What is known of the registers of a window, by offset. -/
abbrev Claims := Nat → Claim → Prop

/-- The functions in a value that starts at an offset. -/
def Ty.claims (ty : Ty) (start : Nat) : Claims :=
  fun o c => ∃ k a, o = start + k ∧ ty.Calls k a ∧ c = .calls a

/-- The functions that a scope finds in its closure. -/
def Scope.Encloses (s : Scope) (o : Nat) (a : Arrow) : Prop :=
  ∃ v ∈ s.closure, ∃ k, o = v.offset + k ∧ v.ty.Calls k a

/-- What the words of a machine have to satisfy: the claims on the window, and in every closure what
its scope finds there. Of the closure that is being filled only so many registers count. -/
def Owed (tree : ScopeTree) (Γ : Claims) (filled : Nat) (w : World) (m : Machine) :
    Cell → Claim → Prop
  | .stack address, c => ∃ o, address = m.top + o ∧ Γ o c
  | .closures address, c => ∃ k o id a, address = k * 64 + o ∧ o < 64 ∧ w k = some id ∧
      (k = m.aux → o < filled) ∧ (tree.scope id).Encloses o a ∧ c = .calls a

abbrev Assertion := World → Machine → Prop

namespace Laid

variable {tree : ScopeTree} {program : Program}

/-- A word of a function with an arrow, aliases removed. -/
def Callable (l : Laid tree program) (w : World) (a : Arrow) (word : Int32) : Prop :=
  ∃ f address, l.Entry f address ∧ (FunctionWord.ofWord word).address = address.toNat ∧
    (tree.scope f.scope).arrow.normalized = a ∧
    ((tree.scope f.scope).closure = [] ∨
      w (FunctionWord.ofWord word).closure.toNat = some f.scope)

def Meets (l : Laid tree program) (w : World) : Claim → Int32 → Prop
  | .calls a, word => l.Callable w a word
  | .bit, word => word = 0 ∨ word = 1

theorem Meets.extends {l : Laid tree program} {w w' : World} {c : Claim} {word : Int32}
    (h : l.Meets w c word) (le : w.Extends w') : l.Meets w' c word := by
  cases c with
  | bit => exact h
  | calls a =>
    obtain ⟨f, address, entry, word, arrow, closure⟩ := h
    exact ⟨f, address, entry, word, arrow, closure.imp_right (le _ _)⟩

/-- A machine whose words are as they have to be, and that hands out the closures in order. -/
structure Sound (l : Laid tree program) (Γ : Claims) (filled : Nat) (w : World) (m : Machine) :
    Prop where
  words : ∀ cell c word, Owed tree Γ filled w m cell c → m.readCell? cell = some word →
    l.Meets w c word
  order : m.pool.order = ClosurePool.fresh.order
  used : m.pool.used ≤ 255
  bound : ∀ k id, w k = some id → 0 < k ∧ k ≤ m.pool.used

/-- A sound machine in a scope, whose closure is the running one. -/
structure Stands (l : Laid tree program) (id : Nat) (Γ : Claims) (filled : Nat) (w : World)
    (m : Machine) : Prop extends l.Sound Γ filled w m where
  closure : (tree.scope id).closure = [] ∨ w m.closure = some id

/-- What a scope owes when it returns. -/
def Leaves (l : Laid tree program) (id : Nat) : Assertion :=
  l.Sound ((tree.scope id).arrow.output.claims 0) 64

/-- What a scope may rely on when it is entered. -/
def Enters (l : Laid tree program) (id : Nat) : Assertion :=
  l.Stands id ((tree.scope id).arrow.input.claims (tree.scope id).arrow.output.size) 64

theorem Sound.mono {l : Laid tree program} {Γ Γ' : Claims} {filled : Nat} {w : World} {m : Machine}
    (h : l.Sound Γ filled w m) (le : ∀ o c, Γ' o c → Γ o c) : l.Sound Γ' filled w m := by
  refine ⟨fun cell c word owed => h.words cell c word ?_, h.order, h.used, h.bound⟩
  cases cell with
  | stack address =>
    obtain ⟨o, eq, claim⟩ := owed
    exact ⟨o, eq, le o c claim⟩
  | closures address => exact owed

theorem Stands.mono {l : Laid tree program} {id : Nat} {Γ Γ' : Claims} {filled : Nat} {w : World}
    {m : Machine} (h : l.Stands id Γ filled w m) (le : ∀ o c, Γ' o c → Γ o c) :
    l.Stands id Γ' filled w m :=
  ⟨h.toSound.mono le, h.closure⟩

end Laid

/-! ## Code between assertions -/

namespace Machine

/-- The machine apart from where it is in the code and how long it has run. -/
def still (m : Machine) : Machine := { m with pc := 0, ticks := 0 }

/-- The machine with a closure handed out and selected. -/
def selecting (m : Machine) : Machine :=
  { m with pool := m.pool.alloc.2, aux := m.pool.alloc.1.toNat }

theorem still_write (m : Machine) (byte : UInt8) (word : Int32) :
    (m.write byte word).advance.still = m.still.write byte word := by
  unfold write cell
  cases (Register.ofByte byte).bank <;> rfl

end Machine

namespace Laid

variable {tree : ScopeTree} {program : Program}

/-- A callee of an arrow has returned to the window of its caller: everything below its frame is as
it was, and its output lies where the frame starts. -/
structure Returned (l : Laid tree program) (frame : Nat) (arrow : Arrow) (w : World) (m : Machine)
    (w' : World) (m' : Machine) : Prop where
  le : w.Extends w'
  agrees : m.AgreesBelow m' (m.top + frame)
  top : m'.top = m.top
  closure : m'.closure = m.closure
  sound : l.Sound (arrow.output.claims frame) 64 w' m'

/-- An instruction leads from one assertion to another. -/
inductive Carries (l : Laid tree program) (P : Assertion) (e : Emitted) (R : Assertion) : Prop
  | never (h : ∀ w m, ¬ P w m)
  | data (i : Instruction) (linked : link program.labels e = .ok i) (data : i.op.isData = true)
    (h : ∀ w m word, P w m → i.result m.read? = .ok word → (m.read? i.x).isSome →
      R w (m.write i.x word))
  | print (i : Instruction) (linked : link program.labels e = .ok i) (op : i.op = .print)
    (h : ∀ w m, P w m → R w m)
  | make (i : Instruction) (linked : link program.labels e = .ok i) (op : i.op = .closureMake)
    (h : ∀ w m, P w m → m.pool.used < 255 → (m.selecting.read? i.x).isSome →
      ∃ w', w.Extends w' ∧
        R w' (m.selecting.write i.x (FunctionWord.word m.pool.alloc.1 i.yz)))
  | call (i : Instruction) (linked : link program.labels e = .ok i) (op : i.op = .callRegister)
    (arrow : Arrow) (made : e.arrow = some arrow)
    (h : ∀ w m word, P w m → m.read? i.y = some word →
      l.Callable w arrow.normalized word ∧
      l.Sound (arrow.input.claims (i.x.toNat + arrow.output.size)) 64 w m ∧
      ∀ w' m', l.Returned i.x.toNat arrow w m w' m' → R w' m')

/-- Instructions one behind the other lead from one assertion to another. -/
def Checks (l : Laid tree program) : List Emitted → Assertion → Assertion → Prop
  | [], P, Q => ∀ w m, P w m → Q w m
  | e :: rest, P, Q => ∃ R, l.Carries P e R ∧ l.Checks rest R Q

variable {l : Laid tree program} {P P' Q Q' R : Assertion} {e : Emitted}

theorem Carries.mono (h : l.Carries P e R) (le : ∀ w m, P' w m → P w m) : l.Carries P' e R := by
  cases h with
  | never h => exact .never fun w m hp => h w m (le w m hp)
  | data i linked data h =>
    exact .data i linked data fun w m word hp => h w m word (le w m hp)
  | print i linked op h => exact .print i linked op fun w m hp => h w m (le w m hp)
  | make i linked op h => exact .make i linked op fun w m hp => h w m (le w m hp)
  | call i linked op arrow made h =>
    exact .call i linked op arrow made fun w m word hp => h w m word (le w m hp)

theorem Checks.mono {code : List Emitted} (h : l.Checks code P Q) (before : ∀ w m, P' w m → P w m)
    (after : ∀ w m, Q w m → Q' w m) : l.Checks code P' Q' := by
  induction code generalizing P P' with
  | nil => exact fun w m hp => after w m (h w m (before w m hp))
  | cons e rest ih =>
    obtain ⟨R, carries, checks⟩ := h
    exact ⟨R, carries.mono before, ih checks fun _ _ hr => hr⟩

/-- Code that is never reached leads anywhere. -/
theorem checks_never (h : ∀ w m, ¬ P w m) (code : List Emitted) : l.Checks code P Q := by
  induction code generalizing P with
  | nil => exact fun w m hp => (h w m hp).elim
  | cons e rest ih => exact ⟨fun _ _ => False, .never h, ih fun _ _ hf => hf⟩

theorem Checks.append {front back : List Emitted} (h : l.Checks front P R)
    (h' : l.Checks back R Q) : l.Checks (front ++ back) P Q := by
  induction front generalizing P with
  | nil => exact h'.mono h fun _ _ hq => hq
  | cons e rest ih =>
    obtain ⟨S, carries, checks⟩ := h
    exact ⟨S, carries, ih checks⟩

/-! ## Runs -/

/-- From an address on lies code of a scope that leads from an assertion to what the scope owes, and
then a return. -/
def Leads (l : Laid tree program) (id address : Nat) (P : Assertion) : Prop :=
  ∃ body ret, body ++ [ret] <+: l.code.drop address ∧ ret.target = none ∧
    ret.instruction.op = .ret ∧ l.Checks body P (l.Leaves id)

/-- Every function leads from what it may rely on to what it owes. -/
def Keeps (l : Laid tree program) : Prop :=
  ∀ f address, l.Entry f address → l.Leads f.scope address.toNat (l.Enters f.scope)

/-- The callers of an activation go on when it returns with what it owes for its arrow. The window
of the next starts at the frame of each. -/
def Waits (l : Laid tree program) (w : World) (m : Machine) : Nat → Arrow → List Caller → Prop
  | floor, arrow, c :: d :: rest => ∃ id frame R, c.top + frame = floor ∧
      l.Leads id (c.pc + 1) R ∧
      (∀ w' m', w.Extends w' → m.AgreesBelow m' (c.top + frame) → m'.top = c.top →
        m'.closure = c.closure → l.Sound (arrow.output.claims frame) 64 w' m' → R w' m') ∧
      l.Waits w m c.top (tree.scope id).arrow (d :: rest)
  | _, _, _ => True

theorem Waits.mono {w w' : World} {m m' : Machine} {floor : Nat} {arrow : Arrow}
    {callers : List Caller} (h : l.Waits w m floor arrow callers) (le : w.Extends w')
    (agrees : m.AgreesBelow m' floor) : l.Waits w' m' floor arrow callers := by
  induction callers generalizing floor arrow with
  | nil => trivial
  | cons c rest ih =>
    cases rest with
    | nil => trivial
    | cons d rest =>
      obtain ⟨id, frame, R, low, leads, resumes, later⟩ := h
      refine ⟨id, frame, R, low, leads, ?_, ih later (agrees.mono (by omega))⟩
      intro w'' m'' le' agrees' top closure sound
      have below := agrees.mono (Nat.le_of_eq low)
      exact resumes w'' m'' (le.trans le') (below.trans agrees') top closure sound

/-- A run in which all activations are on their way to what they owe. -/
structure Valid (l : Laid tree program) (r : Run) : Prop where
  intact : Exec.Intact program.code r
  active : ∃ w id P, P w r.machine.still ∧ l.Leads id r.machine.pc P ∧
    l.Waits w r.machine r.machine.top (tree.scope id).arrow r.callers

/-- At its address an activation returns, or an instruction leads it on. -/
theorem Leads.cases {id address : Nat} (h : l.Leads id address P) :
    ∃ i, program.code[address]? = some i ∧
      ((i.op = .ret ∧ ∀ w m, P w m → l.Leaves id w m) ∨
        ∃ e R, l.code[address]? = some e ∧ link program.labels e = .ok i ∧ l.Carries P e R ∧
          l.Leads id (address + 1) R) := by
  obtain ⟨body, ret, ⟨tail, eq⟩, target, op, checks⟩ := h
  rw [l.code_eq]
  cases body with
  | nil =>
    obtain ⟨i, found, linked⟩ := l.linked_at ⟨tail, eq⟩
    refine ⟨i, found, .inl ⟨?_, checks⟩⟩
    rw [(link_ok linked).1, op]
  | cons e body =>
    obtain ⟨R, carries, checks⟩ := checks
    obtain ⟨i, found, linked⟩ := l.linked_at ⟨tail, eq⟩
    have here : l.code[address]? = some e := by
      have first := congrArg (·[0]?) eq
      simpa using first.symm
    refine ⟨i, found, .inr ⟨e, R, here, linked, carries, body, ret, ⟨tail, ?_⟩, target, op, checks⟩⟩
    have behind := congrArg List.tail eq
    simpa using behind

theorem Valid.lt {r : Run} (h : l.Valid r) : r.machine.pc < program.code.length := by
  obtain ⟨w, id, P, -, leads, -⟩ := h.active
  obtain ⟨i, found, -⟩ := leads.cases
  exact (List.getElem?_eq_some_iff.mp found).1

/-- The next instruction of the same activation. -/
theorem Valid.next {r s : Run} (h : l.Valid r) (confined : ∀ i ∈ program.code, i.Confined)
    (tick : Exec.tick .none r = .ok false s) (callers : s.callers = r.callers)
    (top : s.machine.top = r.machine.top) {w w' : World} {id : Nat} (le : w.Extends w')
    (waits : l.Waits w r.machine r.machine.top (tree.scope id).arrow r.callers)
    (leads : l.Leads id s.machine.pc R) (holds : R w' s.machine.still) : l.Valid s := by
  have agrees := (Exec.agreesBelow_tick .none confined h.intact.holds h.lt).1
  rw [tick] at agrees
  refine ⟨h.intact.goes confined ⟨h.lt, tick⟩, w', id, R, holds, leads, ?_⟩
  rw [callers, top]
  exact waits.mono le agrees

theorem claims_congr {ty other : Ty} (h : ty.Matches other) (start : Nat) :
    ty.claims start = other.claims start := by
  funext o c
  simp only [Ty.claims, h.calls_iff]

theorem claims_of_normalized {arrow other : Arrow} (h : arrow.normalized = other.normalized)
    (start : Nat) : arrow.input.claims start = other.input.claims start ∧
      arrow.output.claims start = other.output.claims start ∧
      arrow.output.size = other.output.size := by
  have input : arrow.input.Matches other.input := congrArg Arrow.input h
  have output : arrow.output.Matches other.output := congrArg Arrow.output h
  exact ⟨claims_congr input start, claims_congr output start, output.size_eq⟩

/-- The claims on the window of a callee are those on its frame in the window of the caller. -/
theorem Sound.enter {ty : Ty} {frame start : Nat} {w : World} {m m' : Machine}
    (h : l.Sound (ty.claims (frame + start)) 64 w m) (top : m'.top = m.top + frame)
    (stack : m'.stack = m.stack) (closures : m'.closures = m.closures) (pool : m'.pool = m.pool)
    (aux : m'.aux = m.aux) : l.Sound (ty.claims start) 64 w m' := by
  refine ⟨fun cell c word owed read => ?_, by rw [pool]; exact h.order, by rw [pool]; exact h.used,
    by rw [pool]; exact h.bound⟩
  cases cell with
  | stack address =>
    obtain ⟨o, rfl, k, a, rfl, calls, rfl⟩ := owed
    refine h.words (.stack (m'.top + (start + k))) _ word ⟨frame + start + k, ?_, ?_⟩ ?_
    · rw [top]
      omega
    · exact ⟨k, a, rfl, calls, rfl⟩
    · rw [← read]
      simp only [Machine.readCell?, stack]
  | closures address =>
    refine h.words (.closures address) c word ?_ ?_
    · rw [Owed, ← aux]
      exact owed
    · rw [← read]
      simp only [Machine.readCell?, closures]

/-- The claims on the output of a callee are those on its frame in the window of the caller. -/
theorem Sound.leave {ty : Ty} {frame : Nat} {w : World} {m m' : Machine}
    (h : l.Sound (ty.claims 0) 64 w m) (top : m.top = m'.top + frame)
    (stack : m'.stack = m.stack) (closures : m'.closures = m.closures) (pool : m'.pool = m.pool)
    (aux : m'.aux = m.aux) : l.Sound (ty.claims frame) 64 w m' := by
  refine ⟨fun cell c word owed read => ?_, by rw [pool]; exact h.order, by rw [pool]; exact h.used,
    by rw [pool]; exact h.bound⟩
  cases cell with
  | stack address =>
    obtain ⟨o, rfl, k, a, rfl, calls, rfl⟩ := owed
    refine h.words (.stack (m'.top + (frame + k))) _ word ⟨0 + k, ?_, ?_⟩ ?_
    · rw [top]
      omega
    · exact ⟨k, a, rfl, calls, rfl⟩
    · rw [← read]
      simp only [Machine.readCell?, stack]
  | closures address =>
    refine h.words (.closures address) c word ?_ ?_
    · rw [Owed, ← aux]
      exact owed
    · rw [← read]
      simp only [Machine.readCell?, closures]

/-- A call enters a function that relies on its contract, and leaves the caller waiting. -/
theorem valid_call {r : Run} (keeps : l.Keeps) {i : Instruction} {word : Int32}
    (intact : Exec.Intact program.code ((r.charge i).entering (.ofWord word) i.x)) {w : World}
    {id : Nat} {arrow : Arrow} (callable : l.Callable w arrow.normalized word)
    (sound : l.Sound (arrow.input.claims (i.x.toNat + arrow.output.size)) 64 w r.machine.still)
    (returns : ∀ w' m', l.Returned i.x.toNat arrow w r.machine.still w' m' → R w' m')
    (leads : l.Leads id (r.machine.pc + 1) R)
    (waits : l.Waits w r.machine r.machine.top (tree.scope id).arrow r.callers) :
    l.Valid ((r.charge i).entering (.ofWord word) i.x) := by
  obtain ⟨f, address, entry, pc, same, closure⟩ := callable
  obtain ⟨inputs, outputs, size⟩ := claims_of_normalized same (i.x.toNat + arrow.output.size)
  refine ⟨intact, w, f.scope, l.Enters f.scope, ?_, ?_, ?_⟩
  · rw [← inputs, ← size] at sound
    exact ⟨sound.enter rfl rfl rfl rfl rfl, closure⟩
  · have address_eq : ((r.charge i).entering (.ofWord word) i.x).machine.pc = address.toNat := pc
    rw [address_eq]
    exact keeps f address entry
  · refine Waits.mono (m := r.machine) ?_ (.refl w) fun _ _ => rfl
    show l.Waits w r.machine _ _ (⟨r.machine.pc, r.machine.top, r.machine.closure⟩ :: r.callers)
    cases hc : r.callers with
    | nil => trivial
    | cons d rest =>
      refine ⟨id, i.x.toNat, R, rfl, leads, ?_, hc ▸ waits⟩
      intro w' m' le agrees top closure sound'
      rw [(claims_of_normalized same _).2.1] at sound'
      exact returns w' m' ⟨le, agrees, top, closure, sound'⟩

/-- A return hands over what the callee owes, and the caller goes on. -/
theorem valid_ret {r : Run} {i : Instruction} {c d : Caller} {rest : List Caller}
    (callers : r.callers = c :: d :: rest)
    (intact : Exec.Intact program.code
      { (r.charge i).leaving c (d :: rest) with
        machine := ((r.charge i).leaving c (d :: rest)).machine.advance })
    {w : World} {id : Nat} (owed : l.Leaves id w r.machine.still)
    (waits : l.Waits w r.machine r.machine.top (tree.scope id).arrow r.callers) :
    l.Valid { (r.charge i).leaving c (d :: rest) with
      machine := ((r.charge i).leaving c (d :: rest)).machine.advance } := by
  rw [callers] at waits
  obtain ⟨outer, frame, R, floor, leads, resumes, later⟩ := waits
  refine ⟨intact, w, outer, R, ?_, leads, later.mono (.refl w) fun _ _ => rfl⟩
  refine resumes w _ (.refl w) (fun _ _ => rfl) rfl rfl ?_
  exact Sound.leave owed floor.symm rfl rfl rfl rfl

/-- A tick that does not ask for a closure when none is free keeps a run on its way. -/
theorem Valid.tick {r s : Run} (h : l.Valid r) (confined : ∀ i ∈ program.code, i.Confined)
    (keeps : l.Keeps) (tick : Exec.tick .none r = .ok false s)
    (spare : ∀ i, r.machine.instruction? = some i → i.op = .closureMake → r.machine.pool.used < 255) :
    l.Valid s := by
  have intact := h.intact.goes confined ⟨h.lt, tick⟩
  obtain ⟨w, id, P, holds, leads, waits⟩ := h.active
  obtain ⟨i, found, next⟩ := leads.cases
  have here : r.machine.instruction? = some i := by
    rw [h.intact.holds.instruction? h.lt, found]
  obtain ⟨j, hj, step⟩ := Exec.tick_ok tick
  rw [here] at hj
  cases hj
  rcases next with ⟨op, owes⟩ | ⟨e, R, -, linked, carries, leads⟩
  · rw [Exec.step_ret op] at step
    split at step
    · cases step
    · cases step
    · rename_i c d rest callers
      cases step
      exact valid_ret callers intact (owes w _ holds) waits
  · cases carries with
    | never h => exact (h w _ holds).elim
    | data j linked' data leadsTo =>
      rw [linked] at linked'
      cases linked'
      obtain ⟨word, result, store⟩ := Exec.step_data_ok data step
      obtain ⟨isSome, rfl⟩ := Exec.store_ok store
      refine h.next confined tick rfl (by simp) (.refl w) waits (R := R) ?_ ?_
      · have pc : ((r.charge i).machine.write i.x word).advance.pc = r.machine.pc + 1 := by simp
        rw [pc]
        exact leads
      · rw [Machine.still_write]
        exact leadsTo w _ word holds result isSome
    | print j linked' op leadsTo =>
      rw [linked] at linked'
      cases linked'
      rw [Exec.step_print op] at step
      cases step
      exact h.next confined tick rfl rfl (.refl w) waits leads (leadsTo w _ holds)
    | make j linked' op leadsTo =>
      rw [linked] at linked'
      cases linked'
      rw [Exec.step_closureMake op] at step
      obtain ⟨isSome, rfl⟩ := Exec.store_ok step
      obtain ⟨w', le, made⟩ := leadsTo w _ holds (spare i here op) isSome
      refine h.next confined tick rfl (by simp [Exec.selecting]) le waits (R := R) ?_ ?_
      · have pc : ((Exec.selecting (r.charge i)).machine.write i.x
            (FunctionWord.word (r.charge i).machine.pool.alloc.1 i.yz)).advance.pc =
            r.machine.pc + 1 := by simp [Exec.selecting]
        rw [pc]
        exact leads
      · rw [Machine.still_write]
        exact made
    | call j linked' op arrow made leadsTo =>
      rw [linked] at linked'
      cases linked'
      rw [Exec.step_callRegister op] at step
      split at step
      · rename_i word read
        cases step
        obtain ⟨callable, sound, returns⟩ := leadsTo w _ word holds read
        exact valid_call keeps intact callable sound returns leads waits
      · cases step

/-- A call through a register meets a function of the arrow it was made for. -/
theorem Valid.callable {r : Run} (h : l.Valid r) {i : Instruction} {word : Int32}
    (hi : r.machine.instruction? = some i) (op : i.op = .callRegister)
    (read : r.machine.read? i.y = some word) :
    ∃ e arrow w, l.code[r.machine.pc]? = some e ∧ e.arrow = some arrow ∧
      l.Callable w arrow.normalized word := by
  obtain ⟨w, id, P, holds, leads, -⟩ := h.active
  obtain ⟨j, found, next⟩ := leads.cases
  rw [h.intact.holds.instruction? h.lt, found] at hi
  cases hi
  rcases next with ⟨ret, -⟩ | ⟨e, R, here, linked, carries, -⟩
  · rw [ret] at op
    cases op
  · cases carries with
    | never h => exact (h w _ holds).elim
    | data j linked' data =>
      rw [linked] at linked'
      cases linked'
      rw [op] at data
      cases data
    | print j linked' op' =>
      rw [linked] at linked'
      cases linked'
      rw [op] at op'
      cases op'
    | make j linked' op' =>
      rw [linked] at linked'
      cases linked'
      rw [op] at op'
      cases op'
    | call j linked' op' arrow made leadsTo =>
      rw [linked] at linked'
      cases linked'
      exact ⟨e, arrow, w, here, made, (leadsTo w _ word holds read).1⟩

end Laid

end WindowedClosures
