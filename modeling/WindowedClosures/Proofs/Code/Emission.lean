import WindowedClosures.Code.Lower

/-!
# What an emission is made of

Inversion of the emissions that code is built from, and a predicate for "whenever this emission
succeeds, all its instructions and its value are such", which composes the way emissions do.
-/

namespace WindowedClosures

instance : LawfulMonad Emit := LawfulMonad.mk' Emit
  (by
    intro α m
    funext watermark
    cases result : m watermark with
    | error e => simp only [Functor.map, result]
    | ok first => simp only [Functor.map, result, Function.comp, id, List.append_nil])
  (by
    intro α β a f
    funext watermark
    cases result : f a watermark with
    | error e => simp only [bind, pure, result]
    | ok second => simp only [bind, pure, result, List.nil_append])
  (by
    intro α β γ m f g
    funext watermark
    cases first : m watermark with
    | error e => simp only [bind, first]
    | ok a =>
      cases second : f a.value a.watermark with
      | error e => simp only [bind, first, second]
      | ok b =>
        cases third : g b.value b.watermark with
        | error e => simp only [bind, first, second, third]
        | ok c => simp only [bind, first, second, third, List.append_assoc])

namespace Emit

variable {α β : Type}

theorem bind_ok {m : Emit α} {f : α → Emit β} {watermark : Nat} {result : Emission β}
    (h : (m >>= f) watermark = .ok result) :
    ∃ first second, m watermark = .ok first ∧ f first.value first.watermark = .ok second ∧
      result = ⟨second.value, first.code ++ second.code, second.watermark⟩ := by
  cases hm : m watermark with
  | error e =>
    simp only [bind, hm] at h
    cases h
  | ok first =>
    cases hf : f first.value first.watermark with
    | error e =>
      simp only [bind, hm, hf] at h
      cases h
    | ok second =>
      simp only [bind, hm, hf] at h
      cases h
      exact ⟨first, second, rfl, hf, rfl⟩

/-- What follows an emission without code. -/
theorem bind_silent {m : Emit α} {f : α → Emit β} {watermark mark : Nat} {a : α}
    (h : m watermark = .ok ⟨a, [], mark⟩) : (m >>= f) watermark = f a mark := by
  cases last : f a mark with
  | error e => simp only [bind, h, last]
  | ok result => simp only [bind, h, last, List.nil_append]

theorem pure_ok {a : α} {watermark : Nat} {result : Emission α}
    (h : (pure a : Emit α) watermark = .ok result) : result = ⟨a, [], watermark⟩ := by
  cases h
  rfl

theorem fail_ok {e : CompileError} {watermark : Nat} {result : Emission α}
    (h : (fail e : Emit α) watermark = .ok result) : False := by
  cases h

theorem lift_ok {found : Except CompileError α} {watermark : Nat} {result : Emission α}
    (h : lift found watermark = .ok result) :
    ∃ a, found = .ok a ∧ result = ⟨a, [], watermark⟩ := by
  cases found with
  | ok a => exact ⟨a, rfl, pure_ok h⟩
  | error e => cases h

theorem register_ok {found : Except RegisterOverflow Register} {watermark : Nat}
    {result : Emission Register} (h : register found watermark = .ok result) :
    ∃ r, found = .ok r ∧ result = ⟨r, [], watermark⟩ := by
  cases found with
  | ok r => exact ⟨r, rfl, pure_ok h⟩
  | error e => cases h

theorem push_ok {i : Instruction} {watermark : Nat} {result : Emission Unit}
    (h : push i watermark = .ok result) : result = ⟨(), [⟨i, none, none⟩], watermark⟩ := by
  cases h
  rfl

theorem pushFor_ok {i : Instruction} {function watermark : Nat} {result : Emission Unit}
    (h : pushFor i function watermark = .ok result) :
    result = ⟨(), [⟨i, some function, none⟩], watermark⟩ := by
  cases h
  rfl

theorem pushCall_ok {i : Instruction} {arrow : Arrow} {watermark : Nat} {result : Emission Unit}
    (h : pushCall i arrow watermark = .ok result) :
    result = ⟨(), [⟨i, none, some arrow⟩], watermark⟩ := by
  cases h
  rfl

theorem alloc_ok {size watermark : Nat} {result : Emission Nat}
    (h : alloc size watermark = .ok result) :
    watermark + size ≤ 64 ∧ result = ⟨watermark, [], watermark + size⟩ := by
  unfold alloc at h
  split at h
  · rename_i fits
    cases h
    exact ⟨fits, rfl⟩
  · cases h

theorem releasing_ok {m : Emit α} {watermark : Nat} {result : Emission α}
    (h : releasing m watermark = .ok result) :
    ∃ inner, m watermark = .ok inner ∧ result = { inner with watermark := watermark } := by
  unfold releasing at h
  split at h
  · rename_i inner hm
    cases h
    exact ⟨inner, hm, rfl⟩
  · cases h

end Emit

theorem Register.ofOffset_ok {bank : Bank} {offset : Nat} {r : Register}
    (h : Register.ofOffset bank offset = .ok r) : r.bank = bank ∧ r.offset.val = offset := by
  unfold Register.ofOffset at h
  split at h
  · cases h
    exact ⟨rfl, rfl⟩
  · cases h

theorem Register.shift_ok {r shifted : Register} {delta : Nat} (h : r.shift delta = .ok shifted) :
    shifted.bank = r.bank ∧ shifted.offset.val = r.offset + delta :=
  Register.ofOffset_ok h

namespace Emit

/-- A scratch register is the first free one, and the watermark moves behind it. -/
theorem temp_ok {watermark : Nat} {result : Emission Register}
    (h : temp watermark = .ok result) :
    result.value.bank = .window ∧ result.value.offset.val = watermark ∧ result.code = [] ∧
      result.watermark = watermark + 1 := by
  obtain ⟨first, second, ha, hr, rfl⟩ := bind_ok h
  obtain ⟨-, rfl⟩ := alloc_ok ha
  obtain ⟨r, ho, rfl⟩ := register_ok hr
  obtain ⟨bank, offset⟩ := Register.ofOffset_ok ho
  exact ⟨bank, offset, rfl, rfl⟩

/-- What stands in front of a call is the code of its argument, if it has one. -/
theorem placeArgument_ok {argument : Option Lowering} {input watermark : Nat} {ty : Ty}
    {result : Emission Unit} (h : placeArgument argument input ty watermark = .ok result) :
    result.watermark = watermark ∧ (argument = none → result.code = []) ∧
      ∀ lowered, argument = some lowered → ∃ (r : Register) (placed : Emission Unit),
        r.bank = .window ∧ r.offset.val = input ∧ lowered r ty watermark = .ok placed ∧
          result.code = placed.code := by
  cases argument with
  | none =>
    rw [pure_ok h]
    exact ⟨rfl, fun _ => rfl, nofun⟩
  | some lowered =>
    obtain ⟨target, lowering, ht, hl, rfl⟩ := bind_ok h
    obtain ⟨r, hr, rfl⟩ := register_ok ht
    obtain ⟨placed, found, rfl⟩ := releasing_ok hl
    obtain ⟨bank, offset⟩ := Register.ofOffset_ok hr
    refine ⟨rfl, nofun, fun _ same => ?_⟩
    cases same
    exact ⟨r, placed, bank, offset, found, rfl⟩

/-- The parts of a call: its argument, the call itself and the copy of its output. -/
theorem invoke_ok {dst function : Register} {arrow : Arrow} {argument : Option Lowering} {ty : Ty}
    {span : Span} {frame : Nat} {result : Emission Unit}
    (h : invoke dst function arrow argument ty span frame = .ok result) :
    frame + arrow.output.size + arrow.input.size ≤ 64 ∧ (ty.isVoid = false → arrow.output.Matches ty) ∧
    ∃ (output : Register) (placed copied : Emission Unit),
      placeArgument argument (frame + arrow.output.size) arrow.input
        (frame + arrow.output.size + arrow.input.size) = .ok placed ∧
      output.bank = .window ∧ output.offset.val = frame ∧
      copy dst output arrow.output ty (frame + arrow.output.size + arrow.input.size) = .ok copied ∧
      result.code = placed.code ++
        ⟨⟨.callRegister, UInt8.ofNat frame, UInt16.ofNat function.toByte.toNat⟩, none,
          some arrow⟩ :: copied.code := by
  unfold invoke at h
  split at h
  · exact (fail_ok h).elim
  · rename_i agrees
    obtain ⟨room, behind₁, ha, h₁, rfl⟩ := bind_ok h
    obtain ⟨-, rfl⟩ := alloc_ok ha
    obtain ⟨input, behind₂, hb, h₂, rfl⟩ := bind_ok h₁
    obtain ⟨inside, rfl⟩ := alloc_ok hb
    obtain ⟨placed, behind₃, hp, h₃, rfl⟩ := bind_ok h₂
    obtain ⟨called, behind₄, hc, h₄, rfl⟩ := bind_ok h₃
    obtain rfl := pushCall_ok hc
    obtain ⟨source, copied, hs, h₅, rfl⟩ := bind_ok h₄
    obtain ⟨output, ho, rfl⟩ := register_ok hs
    obtain ⟨bank, offset⟩ := Register.ofOffset_ok ho
    have back := (placeArgument_ok hp).1
    rw [back] at h₅
    refine ⟨inside, fun needed => ?_, output, placed, copied, hp, bank, offset, h₅, by simp⟩
    simpa [needed] using agrees

/-- The instructions of code that asks for no address. -/
@[simp] theorem map_instruction (code : List Instruction) :
    (code.map fun i => (⟨i, none, none⟩ : Emitted)).map (·.instruction) = code := by
  rw [List.map_map]
  exact List.map_id _

/-- The instructions that move registers, given with their destinations first. -/
def moves (pairs : List (Register × Register)) : List Instruction :=
  pairs.map fun p => .triple .move p.1 p.2 .first

/-- A copy moves each register once, in order. -/
theorem copyFrom_moves {dst src : Register} {start count watermark : Nat} {result : Emission Unit}
    (h : copyFrom dst src start count watermark = .ok result) : ∃ pairs,
      result.code = (moves pairs).map (fun i => ⟨i, none, none⟩) ∧ pairs.length = count ∧
      ∀ (k : Nat) p, pairs[k]? = some p →
        dst.shift (start + k) = .ok p.1 ∧ src.shift (start + k) = .ok p.2 := by
  induction count generalizing start watermark result with
  | zero =>
    rw [pure_ok h]
    exact ⟨[], rfl, rfl, by simp⟩
  | succ count ih =>
    obtain ⟨first, second, hd, h₂, rfl⟩ := bind_ok h
    obtain ⟨target, ht, rfl⟩ := register_ok hd
    obtain ⟨third, fourth, hs, h₄, rfl⟩ := bind_ok h₂
    obtain ⟨source, hf, rfl⟩ := register_ok hs
    obtain ⟨moved, rest, hm, hr, rfl⟩ := bind_ok h₄
    rw [push_ok hm]
    obtain ⟨pairs, code, length, each⟩ := ih hr
    refine ⟨(target, source) :: pairs, ?_, by rw [List.length_cons, length], fun k p found => ?_⟩
    · rw [moves, List.map_cons, List.map_cons, ← moves, ← code]
      rfl
    · cases k with
      | zero =>
        cases found
        exact ⟨ht, hf⟩
      | succ k =>
        rw [show start + (k + 1) = start + 1 + k by omega]
        exact each k p found

/-- Whenever the emission succeeds, its instructions satisfy `P` and its value `Q`. -/
def Emits (P : Emitted → Prop) (m : Emit α) (Q : α → Prop) : Prop :=
  ∀ watermark result, m watermark = .ok result → (∀ e ∈ result.code, P e) ∧ Q result.value

variable {P : Emitted → Prop} {Q : α → Prop} {R : β → Prop}

theorem emits_pure (a : α) (h : Q a) : Emits P (pure a) Q := by
  intro watermark result hr
  rw [pure_ok hr]
  exact ⟨by simp, h⟩

theorem emits_bind {m : Emit α} {f : α → Emit β} (hm : Emits P m Q)
    (hf : ∀ a, Q a → Emits P (f a) R) : Emits P (m >>= f) R := by
  intro watermark result hr
  obtain ⟨first, second, h₁, h₂, rfl⟩ := bind_ok hr
  obtain ⟨code₁, value₁⟩ := hm _ _ h₁
  obtain ⟨code₂, value₂⟩ := hf _ value₁ _ _ h₂
  refine ⟨?_, value₂⟩
  intro e he
  rcases List.mem_append.mp he with he | he
  · exact code₁ e he
  · exact code₂ e he

theorem emits_fail (e : CompileError) : Emits P (fail e : Emit α) Q := by
  intro watermark result hr
  exact (fail_ok hr).elim

theorem emits_lift {found : Except CompileError α} (h : ∀ a, found = .ok a → Q a) :
    Emits P (lift found) Q := by
  intro watermark result hr
  obtain ⟨a, ha, rfl⟩ := lift_ok hr
  exact ⟨by simp, h a ha⟩

theorem emits_register {found : Except RegisterOverflow Register} {Q : Register → Prop}
    (h : ∀ r, found = .ok r → Q r) : Emits P (register found) Q := by
  intro watermark result hr
  obtain ⟨r, hf, rfl⟩ := register_ok hr
  exact ⟨by simp, h r hf⟩

theorem emits_push {i : Instruction} (h : P ⟨i, none, none⟩) : Emits P (push i) fun _ => True := by
  intro watermark result hr
  rw [push_ok hr]
  simpa using h

theorem emits_pushFor {i : Instruction} {function : Nat} (h : P ⟨i, some function, none⟩) :
    Emits P (pushFor i function) fun _ => True := by
  intro watermark result hr
  rw [pushFor_ok hr]
  simpa using h

theorem emits_pushCall {i : Instruction} {arrow : Arrow} (h : P ⟨i, none, some arrow⟩) :
    Emits P (pushCall i arrow) fun _ => True := by
  intro watermark result hr
  rw [pushCall_ok hr]
  simpa using h

theorem emits_alloc (size : Nat) : Emits P (alloc size) fun _ => True := by
  intro watermark result hr
  obtain ⟨-, rfl⟩ := alloc_ok hr
  simp

theorem emits_temp : Emits P temp fun r => r.bank = .window := by
  intro watermark result hr
  obtain ⟨bank, -, code, -⟩ := temp_ok hr
  simp [code, bank]

theorem emits_forM {f : α → Emit Unit} (items : List α)
    (h : ∀ a ∈ items, Emits P (f a) fun _ => True) : Emits P (items.forM f) fun _ => True := by
  induction items with
  | nil => exact emits_pure _ trivial
  | cons first rest ih =>
    apply emits_bind (h first (by simp))
    intro _ _
    exact ih fun a ha => h a (by simp [ha])

theorem emits_copyFrom {P : Emitted → Prop}
    (h : ∀ slot origin, P ⟨.triple .move slot origin .first, none, none⟩) (dst src : Register)
    (start count : Nat) : Emits P (copyFrom dst src start count) fun _ => True := by
  induction count generalizing start with
  | zero => exact emits_pure () trivial
  | succ count ih =>
    refine emits_bind (emits_register (Q := fun _ => True) fun _ _ => trivial) fun slot _ => ?_
    refine emits_bind (emits_register (Q := fun _ => True) fun _ _ => trivial) fun origin _ => ?_
    exact emits_bind (emits_push (h slot origin)) fun _ _ => ih (start + 1)

theorem emits_releasing {m : Emit α} (h : Emits P m Q) : Emits P (releasing m) Q := by
  intro watermark result hr
  obtain ⟨inner, hm, rfl⟩ := releasing_ok hr
  exact h watermark inner hm

/-! ## Faults that do not happen -/

/-- The emission does not fail in one of these ways. -/
def Never (bad : CompileError → Prop) (m : Emit α) : Prop :=
  ∀ watermark e, m watermark = .error e → ¬ bad e

variable {bad : CompileError → Prop}

theorem never_pure (a : α) : Never bad (pure a) := by
  intro watermark e h
  cases h

theorem never_push (i : Instruction) : Never bad (push i) := by
  intro watermark e h
  cases h

theorem never_pushFor (i : Instruction) (function : Nat) : Never bad (pushFor i function) := by
  intro watermark e h
  cases h

theorem never_fail {e : CompileError} (h : ¬ bad e) : Never bad (fail e : Emit α) := by
  intro watermark e' he
  cases he
  exact h

theorem never_bind {m : Emit α} {f : α → Emit β} (hm : Never bad m) (hf : ∀ a, Never bad (f a)) :
    Never bad (m >>= f) := by
  intro watermark e h
  cases hr : m watermark with
  | error e' =>
    simp only [bind, hr] at h
    cases h
    exact hm _ _ hr
  | ok first =>
    cases hs : f first.value first.watermark with
    | error e' =>
      simp only [bind, hr, hs] at h
      cases h
      exact hf _ _ _ hs
    | ok second =>
      simp only [bind, hr, hs] at h
      cases h

theorem never_register (h : ∀ overflow, ¬ bad (.registerOverflow overflow))
    (found : Except RegisterOverflow Register) : Never bad (register found) := by
  cases found with
  | ok r => exact never_pure r
  | error overflow => exact never_fail (h overflow)

theorem never_copyFrom (h : ∀ overflow, ¬ bad (.registerOverflow overflow)) (dst src : Register)
    (start count : Nat) : Never bad (copyFrom dst src start count) := by
  induction count generalizing start with
  | zero => exact never_pure ()
  | succ count ih =>
    refine never_bind (never_register h _) fun slot => never_bind (never_register h _) fun origin => ?_
    exact never_bind (never_push _) fun _ => ih (start + 1)

theorem never_forM {f : α → Emit Unit} (items : List α) (h : ∀ a ∈ items, Never bad (f a)) :
    Never bad (items.forM f) := by
  induction items with
  | nil => exact never_pure ()
  | cons first rest ih =>
    refine never_bind (h first (by simp)) fun _ => ?_
    exact ih fun a ha => h a (by simp [ha])

/-! ## Emissions that succeed -/

/-- The emission succeeds at a watermark, and its value and the watermark behind it are such. -/
def Succeeds (m : Emit α) (watermark : Nat) (Q : α → Nat → Prop) : Prop :=
  ∃ result, m watermark = .ok result ∧ Q result.value result.watermark

section

variable {watermark : Nat} {Q : α → Nat → Prop}

theorem succeeds_pure {a : α} (h : Q a watermark) : Succeeds (pure a) watermark Q := ⟨_, rfl, h⟩

theorem succeeds_bind {m : Emit β} {f : β → Emit α}
    (h : Succeeds m watermark fun b mark => Succeeds (f b) mark Q) :
    Succeeds (m >>= f) watermark Q := by
  obtain ⟨first, hm, second, hf, last⟩ := h
  exact ⟨⟨second.value, first.code ++ second.code, second.watermark⟩, by simp only [bind, hm, hf], last⟩

theorem succeeds_releasing {m : Emit α} (h : Succeeds m watermark fun a _ => Q a watermark) :
    Succeeds (releasing m) watermark Q := by
  obtain ⟨inner, hm, last⟩ := h
  exact ⟨{ inner with watermark := watermark }, by simp only [releasing, hm], last⟩

theorem succeeds_register {r : Register} {found : Except RegisterOverflow Register}
    {Q : Register → Nat → Prop} (there : found = .ok r) (h : Q r watermark) :
    Succeeds (register found) watermark Q := by
  rw [there]
  exact succeeds_pure h

theorem succeeds_push {i : Instruction} {Q : Unit → Nat → Prop} (h : Q () watermark) :
    Succeeds (push i) watermark Q := ⟨_, rfl, h⟩

theorem succeeds_alloc {size : Nat} {Q : Nat → Nat → Prop} (room : watermark + size ≤ 64)
    (h : Q watermark (watermark + size)) : Succeeds (alloc size) watermark Q :=
  ⟨_, if_pos room, h⟩

/-- As long as a register of the window is free there is a scratch register. -/
theorem succeeds_temp {Q : Register → Nat → Prop} (room : watermark + 1 ≤ 64)
    (h : ∀ t, Q t (watermark + 1)) : Succeeds temp watermark Q :=
  succeeds_bind (succeeds_alloc room (succeeds_register (dif_pos room) (h _)))

theorem succeeds_loadInt {dst : Register} {value : Int32} {Q : Unit → Nat → Prop}
    (h : Q () watermark) : Succeeds (loadInt dst value) watermark Q := by
  refine succeeds_bind (succeeds_push ?_)
  split
  · exact succeeds_push h
  · exact succeeds_pure h

theorem succeeds_constant {value : Int32} {Q : Register → Nat → Prop} (room : watermark + 1 ≤ 64)
    (h : ∀ t, Q t (watermark + 1)) : Succeeds (constant value) watermark Q :=
  succeeds_bind (succeeds_temp room fun t => succeeds_bind (succeeds_loadInt (succeeds_pure (h t))))

end

end Emit

end WindowedClosures
