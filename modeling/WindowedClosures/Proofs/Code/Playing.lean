import WindowedClosures.Proofs.Code.Emission
import WindowedClosures.Proofs.Code.Words
import WindowedClosures.Proofs.Machine.Straight

/-!
# What emitted code computes

A rule for "the emitted instructions, played on these registers, end like this", which composes the
way emissions do, and from it what the code of constants, comparisons and connectives leaves behind.
An emission may use all registers from its watermark on; below it only the destination changes.
-/

namespace WindowedClosures

namespace Register

/-- A near register that is not free at a watermark. -/
def Below (watermark : Nat) (r : Register) : Prop :=
  r.bank = .closure ∨ r.bank = .window ∧ r.offset.val < watermark

/-- The register at an offset of the window. -/
def At (offset : Nat) (r : Register) : Prop := r.bank = .window ∧ r.offset.val = offset

variable {r t : Register} {watermark offset : Nat}

theorem Below.near (h : r.Below watermark) : r.Near := by
  rcases h with bank | ⟨bank, -⟩
  · exact .inr bank
  · exact .inl bank

theorem Below.mono {higher : Nat} (h : r.Below watermark) (le : watermark ≤ higher) :
    r.Below higher := by
  rcases h with bank | ⟨bank, lt⟩
  · exact .inl bank
  · exact .inr ⟨bank, by omega⟩

theorem Below.ne (h : r.Below watermark) (at_ : t.At offset) (le : watermark ≤ offset) : r ≠ t := by
  rintro rfl
  rcases h with bank | ⟨-, lt⟩
  · rw [at_.1] at bank
    cases bank
  · have := at_.2
    omega

theorem At.below (h : t.At offset) (lt : offset < watermark) : t.Below watermark :=
  .inr ⟨h.1, by rw [h.2]; exact lt⟩

theorem At.ne {other : Nat} (h : r.At offset) (h' : t.At other) (ne : offset ≠ other) : r ≠ t := by
  rintro rfl
  exact ne (h.2.symm.trans h'.2)

end Register

namespace RegisterFile

/-- A word came into a register, and the others that are not free at a watermark are as before. -/
structure Sets (watermark : Nat) (dst : Register) (word : Int32) (before after : RegisterFile) :
    Prop where
  same : after dst = word
  other : ∀ r : Register, r.Below watermark → r ≠ dst → after r = before r

theorem Sets.trans {watermark : Nat} {dst : Register} {a b : Int32} {before between after : RegisterFile}
    (h : Sets watermark dst a before between) (k : Sets watermark dst b between after) :
    Sets watermark dst b before after :=
  ⟨k.same, fun r hr ne => (k.other r hr ne).trans (h.other r hr ne)⟩

theorem Sets.mono {watermark lower : Nat} {dst : Register} {a : Int32} {before after : RegisterFile}
    (h : Sets watermark dst a before after) (le : lower ≤ watermark) :
    Sets lower dst a before after :=
  ⟨h.same, fun r hr ne => h.other r (hr.mono le) ne⟩

/-- What happened in a scratch register before does not count. -/
theorem Sets.after {watermark : Nat} {dst t : Register} {a b : Int32}
    {before between after : RegisterFile} (at_t : t.At watermark)
    (h : Sets (watermark + 1) t a before between) (k : Sets (watermark + 1) dst b between after) :
    Sets watermark dst b before after := by
  refine ⟨k.same, fun r hr ne => ?_⟩
  rw [k.other r (hr.mono (by omega)) ne, h.other r (hr.mono (by omega)) (hr.ne at_t (by omega))]

theorem sets_update (watermark : Nat) (dst : Register) (word : Int32) (file : RegisterFile) :
    Sets watermark dst word file (Function.update file dst word) :=
  ⟨Function.update_self .., fun _ _ ne => Function.update_of_ne ne ..⟩

theorem read?_toByte (file : RegisterFile) {r : Register} (near : r.Near) :
    file.read? r.toByte = some (file r) := by
  rw [read?, Register.ofByte_toByte, if_pos near]

end RegisterFile

namespace Instruction

@[simp] theorem x_triple (op : Operation) (x y z : Register) : (triple op x y z).x = x.toByte := rfl

@[simp] theorem y_triple (op : Operation) (x y z : Register) : (triple op x y z).y = y.toByte := by
  have hy := y.toByte.toNat_lt
  have hz := z.toByte.toNat_lt
  apply UInt8.toNat_inj.mp
  simp only [Instruction.y, triple, UInt16.toNat_ofNat', UInt8.toNat_ofNat']
  omega

@[simp] theorem z_triple (op : Operation) (x y z : Register) : (triple op x y z).z = z.toByte := by
  have hy := y.toByte.toNat_lt
  have hz := z.toByte.toNat_lt
  apply UInt8.toNat_inj.mp
  simp only [Instruction.z, triple, UInt16.toNat_ofNat', UInt8.toNat_ofNat']
  omega

end Instruction

/-- The instruction as straight-line code has it: one whose immediate is still open computes
nothing. -/
def Emitted.plain (e : Emitted) : Instruction := if e.target.isNone then e.instruction else ⟨.brk, 0, 0⟩

@[simp] theorem Emitted.plain_none (i : Instruction) (arrow : Option Arrow) :
    (⟨i, none, arrow⟩ : Emitted).plain = i := rfl

/-- Code that can be played has no open immediates. -/
theorem play_plain {code : List Emitted} {file : RegisterFile}
    (h : play (code.map (·.plain)) file ≠ .error .invalidOpcode) :
    play (code.map (·.instruction)) file = play (code.map (·.plain)) file := by
  induction code generalizing file with
  | nil => rfl
  | cons e rest ih =>
    obtain ⟨i, target, arrow⟩ := e
    cases target with
    | some id => exact (h rfl).elim
    | none =>
      rw [List.map_cons, play] at h
      rw [List.map_cons, List.map_cons, play, play]
      rw [Emitted.plain_none] at h ⊢
      split
      · rename_i computes
        rw [if_pos computes] at h
        cases result : i.result file.read? with
        | error halt => rfl
        | ok word =>
          rw [result] at h
          exact ih h
      · rfl

namespace Emit

open RegisterFile

variable {α β : Type}

/-- Whenever the emission succeeds at a watermark, its instructions, played on the registers, get
through to `Q`, or divide by zero for the reason given. -/
def Makes (m : Emit α) (watermark : Nat) (file : RegisterFile) (fault : Prop)
    (Q : α → Nat → RegisterFile → Prop) : Prop :=
  ∀ result, m watermark = .ok result →
    match play (result.code.map (·.plain)) file with
    | .ok after => Q result.value result.watermark after
    | .error halt => halt = .divisionByZero ∧ fault

variable {watermark : Nat} {file : RegisterFile} {fault : Prop}

/-- Code that does not divide by zero gets through, also before it is linked. -/
theorem Makes.played {m : Emit α} {Q : α → Nat → RegisterFile → Prop} (h : Makes m watermark file False Q)
    {result : Emission α} (hr : m watermark = .ok result) :
    ∃ after, play (result.code.map (·.instruction)) file = .ok after ∧
      Q result.value result.watermark after := by
  have made := h result hr
  cases plain : play (result.code.map (·.plain)) file with
  | error halt =>
    rw [plain] at made
    exact made.2.elim
  | ok after =>
    rw [plain] at made
    exact ⟨after, (play_plain (by rw [plain]; simp)).trans plain, made⟩

theorem makes_pure {a : α} {Q : α → Nat → RegisterFile → Prop} (h : Q a watermark file) :
    Makes (pure a) watermark file fault Q := by
  intro result hr
  rw [pure_ok hr]
  exact h

theorem makes_fail (e : CompileError) (Q : α → Nat → RegisterFile → Prop) :
    Makes (fail e) watermark file fault Q := by
  intro result hr
  exact (fail_ok hr).elim

theorem makes_bind {m : Emit α} {f : α → Emit β} {Q : β → Nat → RegisterFile → Prop}
    (h : Makes m watermark file fault fun a w after => Makes (f a) w after fault Q) :
    Makes (m >>= f) watermark file fault Q := by
  intro result hr
  obtain ⟨first, second, h₁, h₂, rfl⟩ := bind_ok hr
  have front := h first h₁
  rw [List.map_append, play_append]
  cases played : play (first.code.map (·.plain)) file with
  | error halt =>
    rw [played] at front
    exact front
  | ok after =>
    rw [played] at front
    exact front second h₂

theorem Makes.mono {m : Emit α} {Q R : α → Nat → RegisterFile → Prop} {reason : Prop}
    (h : Makes m watermark file reason Q) (hf : reason → fault)
    (hq : ∀ a w after, Q a w after → R a w after) : Makes m watermark file fault R := by
  intro result hr
  have made := h result hr
  cases played : play (result.code.map (·.plain)) file with
  | error halt =>
    rw [played] at made
    exact ⟨made.1, hf made.2⟩
  | ok after =>
    rw [played] at made
    exact hq _ _ _ made

theorem makes_releasing {m : Emit α} {Q : α → Nat → RegisterFile → Prop}
    (h : Makes m watermark file fault fun a _ after => Q a watermark after) :
    Makes (releasing m) watermark file fault Q := by
  intro result hr
  obtain ⟨inner, hm, rfl⟩ := releasing_ok hr
  exact h inner hm

theorem makes_lift {found : Except CompileError α} {Q : α → Nat → RegisterFile → Prop}
    (h : ∀ a, found = .ok a → Q a watermark file) : Makes (lift found) watermark file fault Q := by
  intro result hr
  obtain ⟨a, ha, rfl⟩ := lift_ok hr
  exact h a ha

theorem makes_register {found : Except RegisterOverflow Register}
    {Q : Register → Nat → RegisterFile → Prop} (h : ∀ r, found = .ok r → Q r watermark file) :
    Makes (register found) watermark file fault Q := by
  intro result hr
  obtain ⟨r, hf, rfl⟩ := register_ok hr
  exact h r hf

theorem makes_temp {Q : Register → Nat → RegisterFile → Prop}
    (h : ∀ t : Register, t.At watermark → Q t (watermark + 1) file) :
    Makes temp watermark file fault Q := by
  intro result hr
  obtain ⟨bank, offset, code, after⟩ := temp_ok hr
  rw [code, after]
  exact h result.value ⟨bank, offset⟩

/-- An instruction that computes a word. -/
theorem makes_push {i : Instruction} {dst : Register} {word : Int32}
    {Q : Unit → Nat → RegisterFile → Prop} (data : i.op.isData = true) (target : i.x = dst.toByte)
    (near : dst.Near) (result : i.result file.read? = .ok word)
    (h : ∀ after, Sets watermark dst word file after → Q () watermark after) :
    Makes (push i) watermark file fault Q := by
  intro emission hr
  rw [push_ok hr]
  have near' : (Register.ofByte i.x).Near := by rw [target, Register.ofByte_toByte]; exact near
  rw [List.map_cons, List.map_nil, Emitted.plain_none, play, if_pos ⟨data, near'⟩, result]
  show Q () watermark (Function.update file (.ofByte i.x) word)
  rw [target, Register.ofByte_toByte]
  exact h _ (sets_update ..)

theorem result_triple (file : RegisterFile) {op : Operation} {x y z : Register}
    (arithmetic : op.isArithmetic = true) (inc : op ≠ .inc) (hy : y.Near) (hz : z.Near) :
    (Instruction.triple op x y z).result file.read? =
      match alu? op (file y) (file z) with
      | some word => .ok word
      | none => .error .divisionByZero := by
  have combined : (Instruction.triple op x y z).combine file.read? =
      match alu? op (file y) (file z) with
      | some word => .ok word
      | none => .error .divisionByZero := by
    rw [Instruction.combine, Instruction.y_triple, Instruction.z_triple, read?_toByte file hy,
      read?_toByte file hz]
    rfl
  cases op <;> first | exact combined | simp [Operation.isArithmetic] at arithmetic inc

/-- An operation on two registers. -/
theorem makes_triple {op : Operation} {dst a b : Register} {Q : Unit → Nat → RegisterFile → Prop}
    (arithmetic : op.isArithmetic = true) (inc : op ≠ .inc) (hd : dst.Near) (ha : a.Near)
    (hb : b.Near) (none : alu? op (file a) (file b) = none → fault)
    (h : ∀ word after, alu? op (file a) (file b) = some word →
      Sets watermark dst word file after → Q () watermark after) :
    Makes (triple op dst a b) watermark file fault Q := by
  have data : op.isData = true := by
    cases op <;> first | rfl | simp [Operation.isArithmetic] at arithmetic
  have result := result_triple file (x := dst) arithmetic inc ha hb
  cases word : alu? op (file a) (file b) with
  | some word =>
    rw [word] at result
    exact makes_push data rfl hd result fun after sets => h _ after word sets
  | none =>
    rw [word] at result
    intro emission hr
    rw [push_ok hr]
    have near : (Register.ofByte dst.toByte).Near := by rw [Register.ofByte_toByte]; exact hd
    rw [List.map_cons, List.map_nil, Emitted.plain_none, play, if_pos ⟨data, near⟩, result]
    exact ⟨rfl, none word⟩

/-- An operation that has a value for all words. -/
theorem makes_total {op : Operation} {dst a b : Register} {word : Int32}
    {Q : Unit → Nat → RegisterFile → Prop} (value : alu? op (file a) (file b) = some word)
    (arithmetic : op.isArithmetic = true) (inc : op ≠ .inc) (hd : dst.Near) (ha : a.Near)
    (hb : b.Near) (h : ∀ after, Sets watermark dst word file after → Q () watermark after) :
    Makes (triple op dst a b) watermark file fault Q := by
  refine makes_triple arithmetic inc hd ha hb ?_ ?_
  · intro none
    rw [value] at none
    cases none
  · intro found after some sets
    rw [value] at some
    cases some
    exact h after sets

theorem makes_loadInt {dst : Register} {value : Int32} {Q : Unit → Nat → RegisterFile → Prop}
    (hd : dst.Near) (h : ∀ after, Sets watermark dst value file after → Q () watermark after) :
    Makes (loadInt dst value) watermark file fault Q := by
  unfold loadInt
  refine makes_bind (makes_push rfl rfl hd rfl fun between low => ?_)
  by_cases high : value.toUInt32.toNat / 65536 = 0
  · simp only [high, ne_eq, not_true_eq_false, if_false]
    refine makes_pure (h between ?_)
    have word := low_half high
    rw [← word]
    exact low
  · simp only [high, ne_eq, not_false_eq_true, if_true]
    have result : (Instruction.wide .loadHigh dst (UInt16.ofNat (value.toUInt32.toNat / 65536))).result
        between.read? = .ok value := by
      simp only [Instruction.result, Instruction.wide, read?_toByte between hd, low.same]
      exact congrArg _ (or_halves value)
    exact makes_push rfl rfl hd result fun after sets => h after (low.trans sets)

theorem makes_constant {value : Int32} {Q : Register → Nat → RegisterFile → Prop}
    (h : ∀ (t : Register) (after : RegisterFile), t.At watermark →
      Sets (watermark + 1) t value file after → Q t (watermark + 1) after) :
    Makes (constant value) watermark file fault Q := by
  refine makes_bind (makes_temp fun t ht => makes_bind (makes_loadInt (.inl ht.1) ?_))
  exact fun after sets => makes_pure (h t after ht sets)

/-- Copy a single register. -/
theorem makes_move {dst src : Register} {Q : Unit → Nat → RegisterFile → Prop} (hd : dst.Near)
    (hs : src.Near) (h : ∀ after, Sets watermark dst (file src) file after → Q () watermark after) :
    Makes (move dst src) watermark file fault Q := by
  have result : (Instruction.triple .move dst src .first).result file.read? = .ok (file src) := by
    show (match file.read? (Instruction.triple .move dst src .first).y with
      | some word => Except.ok word
      | none => Except.error Halt.memoryFault) = _
    rw [Instruction.y_triple, read?_toByte file hs]
  exact makes_push rfl rfl hd result h

/-! ## Comparisons and connectives -/

section

variable {dst a b : Register} {Q : Unit → Nat → RegisterFile → Prop}

theorem makes_xor (hd : dst.Below watermark) (ha : a.Below watermark) (hb : b.Below watermark)
    (h : ∀ after, Sets watermark dst (file a ^^^ file b) file after → Q () watermark after) :
    Makes (xor dst a b) watermark file fault Q := by
  refine makes_releasing ?_
  refine makes_bind (makes_temp fun t ht => ?_)
  refine makes_bind (makes_temp fun u hu => ?_)
  refine makes_bind (makes_temp fun v hv => ?_)
  refine makes_bind (makes_total rfl rfl (by decide) (.inl ht.1) ha.near hb.near fun f₁ h₁ => ?_)
  refine makes_bind (makes_total rfl rfl (by decide) (.inl hu.1) ha.near (.inl ht.1) fun f₂ h₂ => ?_)
  refine makes_bind (makes_total rfl rfl (by decide) (.inl hv.1) hb.near (.inl ht.1) fun f₃ h₃ => ?_)
  refine makes_total rfl rfl (by decide) hd.near (.inl hu.1) (.inl hv.1) fun f₄ h₄ => ?_
  have tu : t ≠ u := ht.ne hu (by omega)
  have uv : u ≠ v := hu.ne hv (by omega)
  have kept (r : Register) (hr : r.Below watermark) : f₁ r = file r ∧ f₂ r = file r ∧ f₃ r = file r := by
    have one := h₁.other r (hr.mono (by omega)) (hr.ne ht (by omega))
    have two := (h₂.other r (hr.mono (by omega)) (hr.ne hu (by omega))).trans one
    have three := (h₃.other r (hr.mono (by omega)) (hr.ne hv (by omega))).trans two
    exact ⟨one, two, three⟩
  refine h f₄ ⟨?_, fun r hr ne => ?_⟩
  · rw [h₄.same, h₃.same, h₃.other u (hu.below (by omega)) uv, h₂.same,
      h₂.other t (ht.below (by omega)) tu, h₁.same, (kept a ha).1, (kept b hb).2.1]
    exact xor_of_nand _ _
  · rw [h₄.other r (hr.mono (by omega)) ne, (kept r hr).2.2]

theorem makes_less (hd : dst.Near) (ha : a.Below watermark) (hb : b.Below watermark)
    (h : ∀ after w, watermark ≤ w → Sets watermark dst (truthWord (decide (file a < file b))) file after →
      Q () w after) :
    Makes (less dst a b) watermark file fault Q := by
  unfold less
  refine makes_bind (makes_temp fun d at_d => ?_)
  refine makes_bind (makes_temp fun x at_x => ?_)
  refine makes_bind (makes_temp fun y at_y => ?_)
  have below_d : d.Below (watermark + 3) := at_d.below (by omega)
  have below_x : x.Below (watermark + 3) := at_x.below (by omega)
  have below_y : y.Below (watermark + 3) := at_y.below (by omega)
  have ha' : a.Below (watermark + 3) := ha.mono (by omega)
  have hb' : b.Below (watermark + 3) := hb.mono (by omega)
  have dx : d ≠ x := at_d.ne at_x (by omega)
  have dy : d ≠ y := at_d.ne at_y (by omega)
  have xy : x ≠ y := at_x.ne at_y (by omega)
  refine makes_bind (makes_total rfl rfl (by decide) below_d.near ha.near hb.near fun f₁ h₁ => ?_)
  refine makes_bind (makes_xor below_x ha' hb' fun f₂ h₂ => ?_)
  refine makes_bind (makes_xor below_y below_d ha' fun f₃ h₃ => ?_)
  refine makes_bind
    (makes_total rfl rfl (by decide) below_x.near below_x.near below_y.near fun f₄ h₄ => ?_)
  refine makes_bind
    (makes_total rfl rfl (by decide) below_x.near below_x.near below_x.near fun f₅ h₅ => ?_)
  refine makes_bind (makes_xor below_y below_d below_x fun f₆ h₆ => ?_)
  refine makes_bind (makes_constant fun t f₇ at_t h₇ => ?_)
  have below_t : t.Below (watermark + 4) := at_t.below (by omega)
  refine makes_bind
    (makes_total rfl rfl (by decide) below_y.near below_y.near below_t.near fun f₈ h₈ => ?_)
  refine makes_total rfl rfl (by decide) hd below_y.near below_y.near fun f₉ h₉ => ?_
  -- what the variables below the watermark hold on the way
  have kept (r : Register) (hr : r.Below watermark) :
      f₁ r = file r ∧ f₂ r = file r ∧ f₈ r = file r := by
    have hr' : r.Below (watermark + 3) := hr.mono (by omega)
    have rd := hr.ne at_d (by omega)
    have rx := hr.ne at_x (by omega)
    have ry := hr.ne at_y (by omega)
    have one := h₁.other r hr' rd
    have two := (h₂.other r hr' rx).trans one
    have six := (h₆.other r hr' ry).trans ((h₅.other r hr' rx).trans ((h₄.other r hr' rx).trans
      ((h₃.other r hr' ry).trans two)))
    have seven := (h₇.other r (hr.mono (by omega)) (hr.ne at_t (by omega))).trans six
    exact ⟨one, two, (h₈.other r (hr.mono (by omega)) ry).trans seven⟩
  have d₂ : f₂ d = file a - file b := by rw [h₂.other d below_d dx, h₁.same]
  have d₅ : f₅ d = file a - file b := by
    rw [h₅.other d below_d dx, h₄.other d below_d dx, h₃.other d below_d dy, d₂]
  have x₃ : f₃ x = file a ^^^ file b := by
    rw [h₃.other x below_x xy, h₂.same, (kept a ha).1, (kept b hb).1]
  have x₅ : f₅ x = (file a ^^^ file b) &&& ((file a - file b) ^^^ file a) := by
    rw [h₅.same, h₄.same, h₃.same, x₃, d₂, (kept a ha).2.1]
    exact and_of_nand _ _
  have y₇ : f₇ y = (file a - file b) ^^^ ((file a ^^^ file b) &&& ((file a - file b) ^^^ file a)) := by
    rw [h₇.other y (at_y.below (by omega)) (at_y.ne at_t (by omega)), h₆.same, d₅, x₅]
  refine h f₉ _ (by omega) ⟨?_, fun r hr ne => ?_⟩
  · rw [h₉.same, h₈.same, h₇.same, y₇, sign_square, sign_less]
  · rw [h₉.other r (hr.mono (by omega)) ne, (kept r hr).2.2]

theorem makes_nonzero (hd : dst.Below (watermark + 1)) (ha : a.Below watermark)
    (h : ∀ after w, watermark ≤ w → Sets watermark dst (truthWord (decide (file a ≠ 0))) file after →
      Q () w after) :
    Makes (nonzero dst a) watermark file fault Q := by
  unfold nonzero
  refine makes_bind (makes_constant fun z f₁ at_z h₁ => ?_)
  refine makes_bind (makes_temp fun n at_n => ?_)
  refine makes_bind (makes_temp fun c at_c => ?_)
  have below_z : z.Below (watermark + 3) := at_z.below (by omega)
  have below_n : n.Below (watermark + 3) := at_n.below (by omega)
  have below_c : c.Below (watermark + 3) := at_c.below (by omega)
  have hd' : dst.Below (watermark + 3) := hd.mono (by omega)
  have ha' : a.Below (watermark + 3) := ha.mono (by omega)
  have az : a ≠ z := ha.ne at_z (by omega)
  have an : a ≠ n := ha.ne at_n (by omega)
  have nc : n ≠ c := at_n.ne at_c (by omega)
  refine makes_bind
    (makes_total rfl rfl (by decide) below_n.near below_z.near ha.near fun f₂ h₂ => ?_)
  refine makes_bind
    (makes_total rfl rfl (by decide) below_n.near below_n.near below_n.near fun f₃ h₃ => ?_)
  refine makes_bind
    (makes_total rfl rfl (by decide) below_c.near ha.near ha.near fun f₄ h₄ => ?_)
  refine makes_bind
    (makes_total rfl rfl (by decide) hd.near below_c.near below_n.near fun f₅ h₅ => ?_)
  refine makes_bind (makes_constant fun t f₆ at_t h₆ => ?_)
  have dt : dst ≠ t := hd.ne at_t (by omega)
  refine makes_bind
    (makes_total rfl rfl (by decide) hd.near hd.near (.inl at_t.1) fun f₇ h₇ => ?_)
  refine makes_total rfl rfl (by decide) hd.near hd.near hd.near fun f₈ h₈ => ?_
  have a₁ : f₁ a = file a := h₁.other a (ha.mono (by omega)) az
  have a₃ : f₃ a = file a := by rw [h₃.other a ha' an, h₂.other a ha' an, a₁]
  have n₄ : f₄ n = ~~~(0 - file a) := by
    rw [h₄.other n below_n nc, h₃.same, h₂.same, h₁.same, a₁, Int32.and_self]
  have c₄ : f₄ c = ~~~file a := by rw [h₄.same, a₃, Int32.and_self]
  have d₆ : f₆ dst = ~~~(~~~file a &&& ~~~(0 - file a)) := by
    rw [h₆.other dst (hd.mono (by omega)) dt, h₅.same, c₄, n₄]
  refine h f₈ _ (by omega) ⟨?_, fun r hr ne => ?_⟩
  · rw [h₈.same, h₇.same, h₆.same, d₆, sign_square, sign_nonzero]
  · have hr' : r.Below (watermark + 3) := hr.mono (by omega)
    rw [h₈.other r (hr.mono (by omega)) ne, h₇.other r (hr.mono (by omega)) ne,
      h₆.other r (hr.mono (by omega)) (hr.ne at_t (by omega)), h₅.other r hr' ne,
      h₄.other r hr' (hr.ne at_c (by omega)), h₃.other r hr' (hr.ne at_n (by omega)),
      h₂.other r hr' (hr.ne at_n (by omega)),
      h₁.other r (hr.mono (by omega)) (hr.ne at_z (by omega))]

theorem makes_invert {value : Bool} (hd : dst.Near) (ha : a.Near) (word : file a = truthWord value)
    (h : ∀ after, Sets watermark dst (truthWord !value) file after → Q () watermark after) :
    Makes (invert dst a) watermark file fault Q := by
  unfold invert
  refine makes_bind (makes_total rfl rfl (by decide) hd ha ha fun f₁ h₁ => ?_)
  have result : (Instruction.wide .inc dst 2).result f₁.read? = .ok (truthWord !value) := by
    simp only [Instruction.result, Instruction.wide, read?_toByte f₁ hd, h₁.same, word,
      Int32.and_self]
    exact congrArg _ (invert_truthWord value)
  exact makes_push rfl rfl hd result fun after sets => h after (h₁.trans sets)

/-- A difference that is tested for zero. -/
theorem sets_differ {d : Register} {between after : RegisterFile} (at_d : d.At watermark)
    (h : Sets (watermark + 1) d (file a - file b) file between)
    (k : Sets (watermark + 1) dst (truthWord (decide (between d ≠ 0))) between after) :
    Sets watermark dst (truthWord (decide (file a ≠ file b))) file after := by
  rw [h.same, decide_eq_decide.mpr (sub_ne_zero_iff _ _)] at k
  exact .after at_d h k

end

end Emit

/-- Whether a comparison of two words is true. -/
def Comparison.holds (op : Comparison) (a b : Int32) : Bool :=
  match op with
  | .eq => decide (a = b)
  | .ne => decide (a ≠ b)
  | .gt => decide (b < a)
  | .ge => decide (b ≤ a)
  | .lt => decide (a < b)
  | .le => decide (a ≤ b)

/-- The connective of two truth values. -/
def Connective.apply (op : Connective) (a b : Bool) : Bool :=
  match op with
  | .and => a && b
  | .or => a || b

namespace Emit

open RegisterFile

variable {watermark : Nat} {file : RegisterFile} {fault : Prop} {dst a b : Register}
  {Q : Unit → Nat → RegisterFile → Prop}

theorem makes_compare (op : Comparison) (hd : dst.Below (watermark + 1)) (ha : a.Below watermark)
    (hb : b.Below watermark)
    (h : ∀ after w, watermark ≤ w → Sets watermark dst (truthWord (op.holds (file a) (file b))) file after →
      Q () w after) :
    Makes (Emit.compare op dst a b) watermark file fault Q := by
  -- the negated comparisons invert their opposite in place
  have inverted {value : Bool} (eq : (!value) = op.holds (file a) (file b)) {after : RegisterFile}
      {w : Nat} (le : watermark ≤ w) (sets : Sets watermark dst (truthWord value) file after) :
      Makes (invert dst dst) w after fault Q := by
    refine makes_invert hd.near hd.near sets.same fun last sets' => h last w le ?_
    rw [← eq]
    exact sets.trans (sets'.mono le)
  cases op with
  | lt => exact makes_less hd.near ha hb h
  | gt => exact makes_less hd.near hb ha h
  | ne =>
    refine makes_bind (makes_temp fun d at_d => ?_)
    refine makes_bind (makes_total rfl rfl (by decide) (.inl at_d.1) ha.near hb.near fun f₁ h₁ => ?_)
    refine makes_nonzero (hd.mono (by omega)) (at_d.below (by omega)) fun after w le sets => ?_
    exact h after w (by omega) (sets_differ at_d h₁ sets)
  | ge =>
    refine makes_bind (makes_less hd.near ha hb fun after w le sets => inverted ?_ le sets)
    rw [Comparison.holds, ← decide_not, decide_eq_decide, Int32.not_lt]
  | le =>
    refine makes_bind (makes_less hd.near hb ha fun after w le sets => inverted ?_ le sets)
    rw [Comparison.holds, ← decide_not, decide_eq_decide, Int32.not_lt]
  | eq =>
    refine makes_bind (makes_temp fun d at_d => ?_)
    refine makes_bind (makes_total rfl rfl (by decide) (.inl at_d.1) ha.near hb.near fun f₁ h₁ => ?_)
    refine makes_bind
      (makes_nonzero (hd.mono (by omega)) (at_d.below (by omega)) fun after w le sets => ?_)
    refine inverted ?_ (by omega) (sets_differ at_d h₁ sets)
    rw [Comparison.holds, ← decide_not, decide_eq_decide, ne_eq, Decidable.not_not]

theorem makes_connect (op : Connective) {p q : Bool} (hd : dst.Near)
    (ha : a.Below watermark) (hb : b.Below watermark) (word_a : file a = truthWord p)
    (word_b : file b = truthWord q)
    (h : ∀ after w, Sets watermark dst (truthWord (op.apply p q)) file after → Q () w after) :
    Makes (connect op dst a b) watermark file fault Q := by
  cases op with
  | and =>
    refine makes_total rfl rfl (by decide) hd ha.near hb.near fun after sets => h after _ ?_
    rw [word_a, word_b, mul_truthWord] at sets
    exact sets
  | or =>
    refine makes_bind (makes_temp fun m at_m => ?_)
    refine makes_bind (makes_temp fun n at_n => ?_)
    have below_m : m.Below (watermark + 2) := at_m.below (by omega)
    have below_n : n.Below (watermark + 2) := at_n.below (by omega)
    refine makes_bind
      (makes_total rfl rfl (by decide) below_m.near ha.near ha.near fun f₁ h₁ => ?_)
    refine makes_bind
      (makes_total rfl rfl (by decide) below_n.near hb.near hb.near fun f₂ h₂ => ?_)
    refine makes_total rfl rfl (by decide) hd below_m.near below_n.near fun f₃ h₃ => ?_
    have m₂ : f₂ m = ~~~truthWord p := by
      rw [h₂.other m below_m (at_m.ne at_n (by omega)), h₁.same, word_a, Int32.and_self]
    have n₂ : f₂ n = ~~~truthWord q := by
      rw [h₂.same, h₁.other b (hb.mono (by omega)) (hb.ne at_m (by omega)), word_b, Int32.and_self]
    refine h f₃ _ ⟨?_, fun r hr ne => ?_⟩
    · rw [h₃.same, m₂, n₂]
      exact or_of_nand_truthWord p q
    · rw [h₃.other r (hr.mono (by omega)) ne,
        h₂.other r (hr.mono (by omega)) (hr.ne at_n (by omega)),
        h₁.other r (hr.mono (by omega)) (hr.ne at_m (by omega))]

end Emit

end WindowedClosures
