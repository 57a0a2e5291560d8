import WindowedClosures.Proofs.Code.Effects

/-!
# What a function gives back

A caller copies all registers of the output of its callee. The last statement of the callee puts a
value there, in the shape of the output type; whether that reaches every register depends on the
statement. An expression does if its value is as long as the output: the fields of a tuple, the words
of a text or the registers of a variable have to cover it, and most other values take one register.
A declaration or an assignment leaves the output alone.
-/

namespace WindowedClosures

open Emit

namespace Site

mutual

/-- Whether the code of an expression gives every register of a type a new word. -/
def fills (s : Site) : Expr → Ty → Bool
  | .text value _, ty => decide (ty.size ≤ (packWords (literalBytes value)).length)
  | .name value _, ty => (s.scope.local? value).any fun v => decide (ty.size ≤ v.ty.size)
  | .tuple [⟨none, value⟩] _, ty => s.fills value ty
  | .tuple fields _, ty =>
    match slots? ty fields.length with
    | some slots => s.fillsFields fields slots
    | none => false
  | .typeDecl .., ty => decide (ty.size = 0)
  | .binary op lhs rhs span, ty =>
    match op with
    | .call | .apply =>
      -- a built-in function has no output
      lhs.unwrapped.asName?.all (fun name => (s.scope.local? name).isSome) || decide (ty.size = 0)
    | .choose => true
    | .field | .index =>
      match s.place (.binary op lhs rhs span) with
      | .ok (_, source) => decide (ty.size ≤ source.size)
      | .error _ => false
    | .assign => (lhs.asName?.bind s.scope.local?).any fun v => decide (ty.size ≤ v.ty.size)
    | _ => decide (ty.size ≤ 1)
  | _, ty => decide (ty.size ≤ 1)

def fillsFields (s : Site) : List (Labelled Expr) → List (Nat × Ty) → Bool
  | ⟨_, value⟩ :: fields, (_, ty) :: slots => s.fills value ty && s.fillsFields fields slots
  | _, _ => true

end

theorem fills_tuple (s : Site) (fields : List (Labelled Expr)) (span : Span) (ty : Ty)
    (h : ∀ value, fields ≠ [⟨none, value⟩]) :
    s.fills (.tuple fields span) ty = match slots? ty fields.length with
      | some slots => s.fillsFields fields slots
      | none => false := by
  rw [fills]
  exact fun value hv => h value hv

end Site

/-! ## Slots -/

theorem Ty.covered_of_fieldSlots {fields : List (Labelled Ty)} {start k : Nat}
    (low : start ≤ k) (high : k < start + sizeFields fields) :
    ∃ slot ∈ fieldSlots start fields, slot.1 ≤ k ∧ k < slot.1 + slot.2.size := by
  induction fields generalizing start with
  | nil =>
    rw [sizeFields] at high
    omega
  | cons first rest ih =>
    obtain ⟨label, value⟩ := first
    rw [sizeFields] at high
    rw [fieldSlots]
    by_cases here : k < start + value.size
    · exact ⟨(start, value), by simp, low, here⟩
    · have later : start + value.size ≤ k := by omega
      obtain ⟨slot, mem, inside⟩ := ih later (by omega)
      exact ⟨slot, by simp [mem], inside⟩

/-- Every register of a type lies in one of the slots of a tuple literal. -/
theorem Ty.covered_of_slots? {ty : Ty} {count : Nat} {slots : List (Nat × Ty)}
    (h : slots? ty count = some slots) {k : Nat} (lt : k < ty.size) :
    ∃ slot ∈ slots, slot.1 ≤ k ∧ k < slot.1 + slot.2.size := by
  rw [← Ty.size_resolved] at lt
  unfold slots? at h
  split at h
  · rename_i void
    rw [void] at lt
    cases lt
  · rename_i types tuple
    rw [tuple, Ty.size] at lt
    split at h
    · cases h
      exact covered_of_fieldSlots (Nat.zero_le k) (by omega)
    · cases h
  · rename_i elem length array
    split at h
    · rename_i fits
      cases h
      rw [array, Ty.size_array length (by simpa using fits.2), fits.1] at lt
      have pos : 0 < elem.size := Nat.pos_of_mul_pos_right (Nat.zero_lt_of_lt lt)
      have index : k / elem.size < count := Nat.div_lt_of_lt_mul lt
      refine ⟨_, List.mem_map_of_mem (List.mem_range.mpr index), Nat.div_mul_le_self k _, ?_⟩
      dsimp only
      have split := Nat.div_add_mod k elem.size
      have rest := Nat.mod_lt k pos
      rw [Nat.mul_comm] at split
      omega
    · cases h
  · cases h

namespace Emit

/-! ## Registers that get a new word -/

/-- Code that gives a register a new word. -/
def Renews (code : List Emitted) (r : Register) : Prop :=
  ∃ e ∈ code, e.instruction.writes? = some r

/-- Whenever the emission succeeds, its code gives so many registers from the destination on a new
word. -/
def Covers {α : Type} (m : Emit α) (dst : Register) (count : Nat) : Prop :=
  ∀ watermark result, m watermark = .ok result →
    ∀ k < count, ∃ r, dst.shift k = .ok r ∧ Renews result.code r

variable {α β : Type} {dst : Register} {count : Nat} {s : Site}

theorem covers_none (m : Emit α) (h : count = 0) : Covers m dst count := by
  intro watermark result hr k lt
  omega

theorem Covers.mono {m : Emit α} {more : Nat} (h : Covers m dst more) (le : count ≤ more) :
    Covers m dst count :=
  fun watermark result hr k lt => h watermark result hr k (Nat.lt_of_lt_of_le lt le)

theorem covers_fail (e : CompileError) : Covers (fail e : Emit α) dst count := by
  intro watermark result hr
  exact (fail_ok hr).elim

theorem Covers.bind {m : Emit α} (h : Covers m dst count) (g : α → Emit β) :
    Covers (m >>= g) dst count := by
  intro watermark result hr k lt
  obtain ⟨first, second, h₁, -, rfl⟩ := bind_ok hr
  obtain ⟨r, place, e, mem, written⟩ := h watermark first h₁ k lt
  exact ⟨r, place, e, List.mem_append_left _ mem, written⟩

theorem covers_bind {m : Emit α} {g : α → Emit β} (h : ∀ a, Covers (g a) dst count) :
    Covers (m >>= g) dst count := by
  intro watermark result hr k lt
  obtain ⟨first, second, -, h₂, rfl⟩ := bind_ok hr
  obtain ⟨r, place, e, mem, written⟩ := h first.value _ second h₂ k lt
  exact ⟨r, place, e, List.mem_append_right _ mem, written⟩

theorem covers_lift {found : Except CompileError α} {g : α → Emit β}
    (h : ∀ a, found = .ok a → Covers (g a) dst count) : Covers (lift found >>= g) dst count := by
  cases found with
  | ok a => exact covers_bind (m := pure a) (g := fun _ => g a) fun _ => h a rfl
  | error e => exact (covers_fail e).bind g

theorem covers_releasing {m : Emit α} (h : Covers m dst count) : Covers (releasing m) dst count := by
  intro watermark result hr
  obtain ⟨inner, hm, rfl⟩ := releasing_ok hr
  exact h watermark inner hm

theorem covers_push {i : Instruction} (h : i.writes? = some dst) : Covers (push i) dst 1 := by
  intro watermark result hr k lt
  rw [push_ok hr]
  obtain rfl : k = 0 := by omega
  exact ⟨dst, shift_zero dst, _, List.mem_singleton_self _, h⟩

theorem covers_pushFor {i : Instruction} (function : Nat) (h : i.writes? = some dst) :
    Covers (pushFor i function) dst 1 := by
  intro watermark result hr k lt
  rw [pushFor_ok hr]
  obtain rfl : k = 0 := by omega
  exact ⟨dst, shift_zero dst, _, List.mem_singleton_self _, h⟩

theorem covers_triple {op : Operation} (arithmetic : op.isArithmetic = true) (a b : Register) :
    Covers (triple op dst a b) dst 1 :=
  covers_push (Instruction.writes?_triple arithmetic dst a b)

theorem covers_loadInt (value : Int32) : Covers (loadInt dst value) dst 1 := by
  unfold loadInt
  refine (covers_push ?_).bind _
  simp [Instruction.wide, Instruction.writes?]

theorem writes?_move (dst src : Register) :
    (Instruction.triple .move dst src .first).writes? = some dst := by
  simp [Instruction.writes?]

theorem covers_copyRegisters (src : Register) : Covers (copyRegisters dst src count) dst count := by
  intro watermark result hr k lt
  obtain ⟨-, each⟩ := copyFrom_ok hr
  obtain ⟨target, source, place, -, moved⟩ := each k lt
  rw [Nat.zero_add] at place
  exact ⟨target, place, _, List.mem_of_getElem? moved, writes?_move target source⟩

theorem size_of_isVoid {ty : Ty} (h : ty.isVoid = true) : ty.size = 0 := (Ty.calls_of_isVoid h).1

theorem covers_copy (src : Register) {srcTy ty : Ty} (le : ty.size ≤ srcTy.size) :
    Covers (copy dst src srcTy ty) dst ty.size := by
  unfold copy
  split
  · rename_i void
    exact covers_none _ (size_of_isVoid void)
  · rw [Nat.min_eq_right le]
    exact covers_copyRegisters src

theorem covers_copyVariable {v : Variable} {ty : Ty} (le : ty.size ≤ v.ty.size) :
    Covers (copyVariable dst v ty) dst ty.size :=
  covers_bind fun src => covers_copy src le

theorem covers_loadWords (words : List Int32) : Covers (loadWords dst words) dst words.length := by
  suffices from_ : ∀ (start : Nat) (watermark : Nat) (result : Emission Unit),
      ((words.zipIdx start).forM fun p => do loadInt (← register (dst.shift p.2)) p.1 : Emit Unit)
        watermark = .ok result →
      ∀ k < words.length, ∃ r, dst.shift (start + k) = .ok r ∧ Renews result.code r by
    intro watermark result hr k lt
    simpa using from_ 0 watermark result hr k lt
  induction words with
  | nil => simp
  | cons word words ih =>
    intro start watermark result hr k lt
    obtain ⟨first, second, h₁, h₂, rfl⟩ := bind_ok hr
    cases k with
    | zero =>
      obtain ⟨found, loaded, hf, hl, rfl⟩ := bind_ok h₁
      obtain ⟨r, place, rfl⟩ := register_ok hf
      obtain ⟨t, same, e, mem, written⟩ := covers_loadInt word _ loaded hl 0 Nat.one_pos
      rw [shift_zero] at same
      cases same
      exact ⟨r, place, e, by simp [mem], written⟩
    | succ k =>
      obtain ⟨r, place, e, mem, written⟩ := ih (start + 1) _ second h₂ k (by simpa using lt)
      refine ⟨r, ?_, e, by simp [mem], written⟩
      rwa [show start + 1 + k = start + (k + 1) by omega] at place

theorem covers_text (value : String) (span : Span) {ty : Ty}
    (le : ty.size ≤ (packWords (literalBytes value)).length) :
    Covers (text value span dst ty) dst ty.size := by
  unfold text
  dsimp only
  split
  · rename_i char _
    have size : ty.size = 1 := by
      rw [← Ty.size_resolved, char, Ty.size]
    rw [size]
    exact covers_push (by simp [Instruction.wide, Instruction.writes?])
  · split
    · exact covers_fail _
    · exact (covers_loadWords _).mono le

theorem covers_function (literal : FunctionLiteral) (span : Span) :
    Covers (function s literal span dst) dst 1 := by
  unfold function
  split
  · exact covers_fail _
  · dsimp only
    split
    · exact covers_pushFor _ (by simp [Instruction.wide, Instruction.writes?])
    · exact (covers_pushFor _ (by simp [Instruction.wide, Instruction.writes?])).bind _

/-! ## Numbers -/

theorem covers_less (a b : Register) : Covers (less dst a b) dst 1 := by
  unfold less
  refine covers_bind fun _ => covers_bind fun _ => covers_bind fun _ => covers_bind fun _ => ?_
  refine covers_bind fun _ => covers_bind fun _ => covers_bind fun _ => covers_bind fun _ => ?_
  refine covers_bind fun _ => covers_bind fun _ => covers_bind fun _ => ?_
  exact covers_triple rfl _ _

theorem covers_nonzero (a : Register) : Covers (nonzero dst a) dst 1 := by
  unfold nonzero
  refine covers_bind fun _ => covers_bind fun _ => covers_bind fun _ => covers_bind fun _ => ?_
  refine covers_bind fun _ => covers_bind fun _ => ?_
  exact (covers_triple rfl _ _).bind _

theorem covers_invert (a : Register) : Covers (invert dst a) dst 1 := (covers_triple rfl _ _).bind _

theorem covers_compare (op : Comparison) (a b : Register) : Covers (Emit.compare op dst a b) dst 1 := by
  cases op with
  | lt => exact covers_less a b
  | gt => exact covers_less b a
  | ge => exact (covers_less a b).bind _
  | le => exact (covers_less b a).bind _
  | ne => exact covers_bind fun d => covers_bind fun _ => covers_nonzero d
  | eq => exact covers_bind fun d => covers_bind fun _ => (covers_nonzero d).bind _

theorem covers_connect (op : Connective) (a b : Register) : Covers (connect op dst a b) dst 1 := by
  cases op with
  | and => exact covers_triple rfl a b
  | or =>
    refine covers_bind fun _ => covers_bind fun _ => covers_bind fun _ => covers_bind fun _ => ?_
    exact covers_triple rfl _ _

theorem covers_arithmetic (op : Arithmetic) (whole lhs rhs : Expr) (lowerLhs lowerRhs : Lowering) :
    Covers (arithmetic s op whole lhs rhs lowerLhs lowerRhs dst) dst 1 := by
  have combine (a b : Register) : Covers (triple (operationOf op) dst a b) dst 1 :=
    covers_triple (operationOf_isArithmetic op) a b
  unfold arithmetic
  refine covers_bind fun constant? => ?_
  split
  · exact covers_loadInt _
  · dsimp only
    split
    · refine covers_bind fun l => covers_bind fun r => ?_
      split
      · exact covers_bind fun _ => covers_bind fun a => covers_bind fun b => combine a b
      · exact covers_fail _
    · exact covers_bind fun a => covers_bind fun b => combine a b

/-- An assignment yields the variable that its target names. -/
theorem assign_ok {target : Expr} {lowered : Lowering} {watermark : Nat} {result : Emission Variable}
    (h : assign s target lowered watermark = .ok result) :
    target.asName?.bind s.scope.local? = some result.value := by
  unfold assign at h
  cases named : target.asName? with
  | none =>
    rw [named] at h
    exact (fail_ok h).elim
  | some name =>
    rw [named] at h
    obtain ⟨found, rest, hv, h₁, rfl⟩ := bind_ok h
    obtain ⟨v, known, rfl⟩ := lift_ok hv
    obtain ⟨placed, last, -, h₂, rfl⟩ := bind_ok h₁
    obtain ⟨valued, final, -, h₃, rfl⟩ := bind_ok h₂
    rw [pure_ok h₃]
    exact Site.lookup_eq_ok_iff.mp known

/-- An assignment leaves a copy of the variable that was set, so that has to be as large as the type. -/
theorem covers_assigned {target : Expr} {lowered : Lowering} {ty : Ty}
    (large : (target.asName?.bind s.scope.local?).any (fun v => decide (ty.size ≤ v.ty.size)) = true) :
    Covers (do
      let v ← assign s target lowered
      if ty.isVoid then pure () else copyVariable dst v ty) dst ty.size := by
  intro watermark result hr k lt
  obtain ⟨first, second, ha, hs, rfl⟩ := bind_ok hr
  simp only [assign_ok ha, Option.any_some, decide_eq_true_eq] at large
  split at hs
  · rename_i void
    rw [size_of_isVoid void] at lt
    omega
  · obtain ⟨r, place, e, mem, written⟩ := covers_copyVariable large _ second hs k lt
    exact ⟨r, place, e, List.mem_append_right _ mem, written⟩

/-! ## Tuples -/

/-- Whenever the emission succeeds, its code gives every register of the slots a new word. -/
def CoversSlots {α : Type} (m : Emit α) (dst : Register) (slots : List (Nat × Ty)) : Prop :=
  ∀ watermark result, m watermark = .ok result → ∀ slot ∈ slots, ∀ k < slot.2.size,
    ∃ r, dst.shift (slot.1 + k) = .ok r ∧ Renews result.code r

/-- The slots of a type are all of it. -/
theorem CoversSlots.covers {m : Emit α} {ty : Ty} {slots : List (Nat × Ty)} (h : CoversSlots m dst slots)
    (found : slots? ty count = some slots) : Covers m dst ty.size := by
  intro watermark result hr k lt
  obtain ⟨slot, mem, low, high⟩ := Ty.covered_of_slots? found lt
  obtain ⟨r, place, renews⟩ := h watermark result hr slot mem (k - slot.1) (by omega)
  rw [show slot.1 + (k - slot.1) = k by omega] at place
  exact ⟨r, place, renews⟩

/-- A value at its slot, and then the values behind it. -/
theorem covers_slot {value : Register → Emit Unit} {next : Emit Unit} (offset : Nat) {ty : Ty}
    {slots : List (Nat × Ty)} (first : ∀ r, Covers (value r) r ty.size)
    (rest : CoversSlots next dst slots) :
    CoversSlots (do
      let r ← register (dst.shift offset)
      releasing (value r)
      next) dst ((offset, ty) :: slots) := by
  intro watermark result hr other mem k lt
  obtain ⟨found, behind, hf, h₁, rfl⟩ := bind_ok hr
  obtain ⟨r, place, rfl⟩ := register_ok hf
  obtain ⟨here, others, hh, ho, rfl⟩ := bind_ok h₁
  rcases List.mem_cons.mp mem with rfl | mem
  · obtain ⟨t, inner, e, me, written⟩ := covers_releasing (first r) _ here hh k lt
    exact ⟨t, Register.shift_shift place inner, e, by simp [me], written⟩
  · obtain ⟨t, inner, e, me, written⟩ := rest _ others ho other mem k lt
    exact ⟨t, inner, e, by simp [me], written⟩

/-! ## Calls -/

theorem covers_invoke (function : Register) (arrow : Arrow) (argument : Option Lowering) (ty : Ty)
    (span : Span) : Covers (invoke dst function arrow argument ty span) dst ty.size := by
  by_cases void : ty.isVoid = true
  · exact covers_none _ (size_of_isVoid void)
  · unfold invoke
    split
    · exact covers_fail _
    · rename_i agrees
      have same : arrow.output.Matches ty := by simpa [void] using agrees
      refine covers_bind fun _ => covers_bind fun _ => covers_bind fun _ => covers_bind fun _ => ?_
      exact covers_bind fun output => covers_copy output (Nat.le_of_eq same.size_eq.symm)

theorem covers_call {callee : Expr} (lowerCallee lowerArgument : Lowering) (span : Span) {ty : Ty}
    (known : callee.unwrapped.asName?.all (fun name => (s.scope.local? name).isSome) = true) :
    Covers (call s callee lowerCallee lowerArgument span dst ty) dst ty.size := by
  unfold call
  dsimp only
  split
  · rename_i name named
    rw [named, Option.all_some] at known
    split
    · split
      · exact covers_bind fun f => covers_invoke f _ _ ty span
      · exact covers_fail _
    · rename_i unknown
      rw [unknown] at known
      cases known
  · split
    · exact covers_fail _
    · exact covers_bind fun f => covers_bind fun _ => covers_invoke f _ _ ty span

theorem covers_choose (cond yes no : Expr) (lowerCond lowerYes lowerNo : Lowering) (span : Span)
    (ty : Ty) : Covers (choose s cond yes no lowerCond lowerYes lowerNo span dst ty) dst ty.size := by
  unfold choose
  refine covers_bind fun arrow => covers_bind fun other => ?_
  split
  · exact covers_fail _
  · refine covers_bind fun constant? => ?_
    split
    · exact covers_bind fun f => covers_bind fun _ => covers_invoke f arrow none ty span
    · refine covers_bind fun _ => covers_bind fun t => covers_bind fun _ => covers_bind fun _ => ?_
      refine covers_bind fun _ => covers_bind fun _ => covers_bind fun _ => covers_bind fun _ => ?_
      exact covers_invoke t arrow none ty span

end Emit

/-! ## Expressions -/

variable {s : Site}

theorem covers_lowerFields {fields : List (Labelled Expr)} {dst : Register}
    (inner : ∀ field ∈ fields, ∀ (r : Register) (ty : Ty), s.fills field.value ty = true →
      Covers (lower s field.value r ty) r ty.size)
    {slots : List (Nat × Ty)} (h : s.fillsFields fields slots = true)
    (same : fields.length = slots.length) : CoversSlots (lowerFields s fields slots dst) dst slots := by
  induction fields generalizing slots with
  | nil =>
    obtain rfl := List.length_eq_zero_iff.mp same.symm
    intro watermark result hr slot mem
    cases mem
  | cons field fields ih =>
    cases slots with
    | nil => cases same
    | cons slot slots =>
      rw [Site.fillsFields, Bool.and_eq_true] at h
      rw [lowerFields]
      exact covers_slot slot.1 (fun r => inner field (by simp) r slot.2 h.1)
        (ih (fun other mem => inner other (by simp [mem])) h.2 (by simpa using same))

/-- The code of an expression that fills a type gives every register of it a new word. -/
theorem covers_lower (e : Expr) (dst : Register) (ty : Ty) (h : s.fills e ty = true) :
    Covers (lower s e dst ty) dst ty.size := by
  induction e using Expr.of_forms generalizing dst ty with
  | int value span =>
    rw [lower]
    exact (covers_loadInt value).mono (of_decide_eq_true h)
  | hex value span =>
    rw [lower]
    exact (covers_loadInt _).mono (of_decide_eq_true h)
  | float | varDecl =>
    rw [lower]
    exact covers_fail _
  | text value span =>
    rw [lower]
    rw [Site.fills, decide_eq_true_eq] at h
    exact covers_text value span h
  | name value span =>
    rw [lower]
    rw [Site.fills] at h
    refine covers_lift fun v hv => covers_copyVariable ?_
    rw [Site.lookup_eq_ok_iff.mp hv] at h
    simpa using h
  | typeDecl => exact covers_none _ (of_decide_eq_true h)
  | function literal span =>
    rw [lower]
    exact (covers_function literal span).mono (of_decide_eq_true h)
  | parens value span inner =>
    rw [lower]
    rw [Site.fills] at h
    exact inner dst ty h
  | tuple fields span several inner =>
    rw [lower_tuple fields span dst ty several]
    rw [Site.fills_tuple s fields span ty several] at h
    split
    · rename_i slots found
      rw [found] at h
      exact (covers_lowerFields inner h (Ty.tiles_of_slots? found).2.symm).covers found
    · exact covers_fail _
  | unary op operand span =>
    have one : ty.size ≤ 1 := of_decide_eq_true h
    cases op with
    | neg =>
      rw [lower]
      refine Covers.mono (covers_bind fun constant? => ?_) one
      split
      · exact covers_loadInt _
      · exact covers_bind fun zero => covers_bind fun value => covers_triple rfl _ _
    | not =>
      rw [lower]
      exact Covers.mono (covers_bind fun value => covers_invert value) one
    | deref | ref =>
      rw [lower]
      exact covers_fail _
  | binary op lhs rhs span other =>
    cases op with
    | choose => exact absurd rfl other
    | call | apply =>
      rw [lower]
      simp only [Site.fills, Bool.or_eq_true, decide_eq_true_eq] at h
      rcases h with known | none
      · exact covers_call _ _ span known
      · exact covers_none _ none
    | arithmetic op =>
      rw [lower]
      exact (covers_arithmetic op _ lhs rhs _ _).mono (of_decide_eq_true h)
    | comparison op =>
      rw [lower]
      exact Covers.mono (covers_bind fun a => covers_bind fun b => covers_compare op a b)
        (of_decide_eq_true h)
    | connective op =>
      rw [lower]
      exact Covers.mono (covers_bind fun a => covers_bind fun b => covers_connect op a b)
        (of_decide_eq_true h)
    | field | index =>
      rw [lower]
      refine covers_lift fun found hp => covers_copy found.1 ?_
      simpa [Site.fills, hp] using h
    | assign =>
      rw [lower]
      exact covers_assigned h
    | compose =>
      rw [lower]
      exact covers_fail _
  | choose cond yes no armsSpan span =>
    rw [lower]
    exact covers_choose cond yes.value no.value _ _ _ span ty
  | unpaired cond arms span lacks =>
    rw [lower_unpaired cond lacks]
    exact covers_fail _

/-! ## Scopes -/

/-- A last statement that is an expression is lowered into the output. -/
theorem covers_last {e : Expr} (value : e.binds? = none)
    (h : s.fills e s.scope.arrow.output = true) :
    Covers (lowerStatement s true e) .first s.scope.arrow.output.size := by
  unfold lowerStatement
  dsimp only
  split
  · exact covers_none _ (of_decide_eq_true h)
  · cases value
  · rename_i target assigned span
    -- a target that is no name is refused
    refine Covers.bind ?_ _
    rw [Expr.binds?, Option.map_eq_none_iff] at value
    unfold assign
    rw [value]
    exact covers_fail _
  · split
    · exact covers_releasing (covers_lower e _ _ h)
    · rename_i void
      rw [Bool.true_and, Bool.not_eq_true', Bool.not_eq_false] at void
      exact covers_none _ (size_of_isVoid void)

/-- The code of a scope whose last statement is an expression that fills the output gives every
register of the output a new word before it returns. -/
theorem outputs_written {tree : ScopeTree} {id : Nat} {code : List Emitted}
    (hc : scopeCode tree id = .ok code) {before : List Expr} {e : Expr}
    (body : (tree.scope id).body = before ++ [e]) (value : e.binds? = none)
    (fills : Site.fills ⟨tree, id⟩ e (tree.scope id).arrow.output = true) :
    ∃ straight, code = straight ++ [⟨⟨.ret, 0, 0⟩, none, none⟩] ∧
      (∀ i ∈ straight, i.instruction.op ≠ .ret) ∧
      ∀ k < (tree.scope id).arrow.output.size, ∃ r : Register, r.bank = .window ∧ r.offset.val = k ∧
        ∃ i ∈ straight, i.instruction.writes? = some r := by
  obtain ⟨result, hr, rfl⟩ := scopeCode_ok hc
  refine ⟨result.code, rfl, fun i mem => ?_, fun k lt => ?_⟩
  · have whole := treads_statements (s := ⟨tree, id⟩) (tree.scope id).body Footprint.free_whole
      (fun _ _ => Footprint.serves_whole) (fun _ _ _ => Footprint.takes_whole) result hr
    exact (whole.1 i mem).stays
  · rw [body] at hr
    obtain ⟨front, part, back, last, eq⟩ := lowerStatements_split hr
    obtain ⟨r, place, i, mem, written⟩ := covers_last value fills _ part last k lt
    obtain ⟨bank, offset⟩ := Register.shift_ok place
    refine ⟨r, bank, offset.trans (Nat.zero_add k), i, ?_, written⟩
    rw [eq]
    exact List.mem_append_left _ (List.mem_append_right _ mem)

/-- A pair is given back behind a declaration. -/
theorem outputs_written_pair : ∃ tree code straight,
    resolveSource "[ f: int > (int, int) = \\n > \x7b [ m: int = n * 2; (m, n + 1) \x7d" = .ok tree ∧
      (tree.scope 1).arrow.output.size = 2 ∧ scopeCode tree 1 = .ok code ∧
      code = straight ++ [⟨⟨.ret, 0, 0⟩, none, none⟩] ∧
      ∀ k < 2, ∃ r : Register, r.bank = .window ∧ r.offset.val = k ∧
        ∃ i ∈ straight, i.instruction.writes? = some r := by
  have found : (do
      let tree ← (resolveSource
        "[ f: int > (int, int) = \\n > \x7b [ m: int = n * 2; (m, n + 1) \x7d").toOption
      let code ← (scopeCode tree 1).toOption
      let e ← (tree.scope 1).body[1]?
      if (tree.scope 1).arrow.output.size = 2 ∧ e.binds?.isNone ∧ (tree.scope 1).body.length = 2 ∧
        Site.fills ⟨tree, 1⟩ e (tree.scope 1).arrow.output then some () else none) = some () := by
    decide +kernel
  obtain ⟨tree, ht, found⟩ := Option.bind_eq_some_iff.mp found
  obtain ⟨code, hc, found⟩ := Option.bind_eq_some_iff.mp found
  obtain ⟨e, he, found⟩ := Option.bind_eq_some_iff.mp found
  split at found
  · rename_i facts
    obtain ⟨two, value, length, fills⟩ := facts
    have emitted := toOption_eq_some hc
    have body := body_split he
    rw [List.drop_eq_nil_of_le (by omega)] at body
    obtain ⟨straight, eq, -, written⟩ :=
      outputs_written emitted body (Option.isNone_iff_eq_none.mp value) fills
    rw [two] at written
    exact ⟨tree, code, straight, toOption_eq_some ht, two, emitted, eq, written⟩
  · cases found

/-- Where the last statement sets a variable, or there is none, the output is left as it was. -/
theorem outputs_left {tree : ScopeTree} (h : tree.Resolved) {id : Nat} {code : List Emitted}
    (hc : scopeCode tree id = .ok code)
    (ends : ∀ e, (tree.scope id).body.getLast? = some e → e.binds?.isSome)
    (inside : ∀ e ∈ (tree.scope id).body, ∀ n ∈ e.nodes, Site.setsInside ⟨tree, id⟩ n = true) :
    ∀ i ∈ code, ∀ r, i.instruction.writes? = some r →
      ¬ (r.bank = .window ∧ r.offset < (tree.scope id).arrow.output.size) := by
  obtain ⟨result, hr, rfl⟩ := scopeCode_ok hc
  have rowed := ScopeTree.rowed_of_resolved h id
  have room : (tree.scope id).arrow.output.size ≤ (tree.scope id).size := Nat.le_add_left _ _
  let f : Footprint := ⟨fun _ => True,
    fun r => ¬ (r.bank = .window ∧ r.offset < (tree.scope id).arrow.output.size), fun _ => True⟩
  have free : f.Free (tree.scope id).size := by
    refine ⟨fun r _ above => ⟨trivial, fun own => ?_⟩, fun r aux own => ?_, fun _ _ => trivial⟩
    · exact absurd (Nat.lt_of_lt_of_le own.2 room) (Nat.not_lt.mpr above)
    · rw [aux] at own
      cases own.1
  have serves (e : Expr) (mem : e ∈ (tree.scope id).body) : f.Serves ⟨tree, id⟩ e := by
    refine ⟨fun _ _ => trivial, ?_⟩
    rintro r ⟨n, node, name, value, v, binds, known, inRow⟩
    have fits := Site.extent_of_setsInside (inside e mem n node) binds known
    obtain ⟨bank, low, -⟩ := Register.inRow_iff.mp (Register.inRow_mono inRow fits)
    refine ⟨trivial, fun own => ?_⟩
    rcases Scope.local?_mem known with hv | hv
    · have start := rowed.vars_row.start_le v hv
      omega
    · rw [rowed.closure v hv, own.1] at bank
      cases bank
  have treads := (treads_statements (s := ⟨tree, id⟩) (tree.scope id).body free serves
    (fun e last unbound => absurd (ends e last) (by simp [unbound])) result hr).1
  intro i mem r written
  rcases List.mem_append.mp mem with mem | mem
  · exact (treads i mem).writes r written
  · rw [List.mem_singleton] at mem
    subst mem
    cases written

/-- The last statement of a function for a number is an assignment: its output is never written, and
the caller gets what a comparison left in that register. -/
theorem output_forgotten : ∃ c code,
    compileSource "[ f: int > int = \\n > \x7b n = 9 \x7d; [ x: int = 3 < 4; x = f # 5" = .ok c ∧
      (c.tree.scope 1).arrow.output = .int ∧ scopeCode c.tree 1 = .ok code ∧
      (∀ i ∈ code, i.instruction.writes? ≠ some .first) ∧
      Machine.fresh.execute 64 c.program 2 = .ok ⟨[0, 3], ""⟩ := by
  have found : (do
      let c ← (compileSource
        "[ f: int > int = \\n > \x7b n = 9 \x7d; [ x: int = 3 < 4; x = f # 5").toOption
      let code ← (scopeCode c.tree 1).toOption
      let ran ← (Machine.fresh.execute 64 c.program 2).toOption
      if (c.tree.scope 1).arrow.output = .int ∧
        code.all (fun i => decide (i.instruction.writes? ≠ some .first)) ∧
        ran = ⟨[0, 3], ""⟩ then some () else none) = some () := by decide +kernel
  obtain ⟨c, hc, found⟩ := Option.bind_eq_some_iff.mp found
  obtain ⟨code, hcode, found⟩ := Option.bind_eq_some_iff.mp found
  obtain ⟨ran, hran, found⟩ := Option.bind_eq_some_iff.mp found
  split at found
  · rename_i facts
    obtain ⟨output, untouched, rfl⟩ := facts
    refine ⟨c, code, toOption_eq_some hc, output, toOption_eq_some hcode, fun i mem => ?_,
      toOption_eq_some hran⟩
    exact of_decide_eq_true (List.all_eq_true.mp untouched i mem)
  · cases found

end WindowedClosures
