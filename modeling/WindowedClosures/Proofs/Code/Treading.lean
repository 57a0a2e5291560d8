import WindowedClosures.Proofs.Code.Calling
import WindowedClosures.Proofs.Code.Footprint

/-!
# The footprint of expressions

Every expression keeps to a footprint that has room for it: registers from the destination on as far
as its code reaches, scratch registers from the watermark on, what the expression depends on and what
it assigns. One rule for each part of the generator, then one induction over expressions.
-/

namespace WindowedClosures

namespace Emit

open Footprint

variable {f : Footprint} {watermark : Nat} {s : Site} {dst : Register}

/-! ## Literals and function values -/

theorem treads_loadWords {Q : Unit → Nat → Prop} (words : List Int32) (hd : f.Takes dst words.length)
    (h : Q () watermark) : Treads (loadWords dst words) watermark f Q := by
  refine (treads_forM words.zipIdx ?_).mono fun _ mark same => same ▸ h
  rintro ⟨word, i⟩ mem
  have lt : i < words.length := (List.mem_zipIdx' mem).1
  exact treads_bind (treads_register fun r hr => treads_loadInt (hd i lt r hr) word rfl)

theorem treads_text {Q : Unit → Nat → Prop} (value : String) (span : Span) {ty : Ty}
    (hd : f.Takes dst ty.size) (h : Q () watermark) :
    Treads (text value span dst ty) watermark f Q := by
  unfold text
  dsimp only
  split
  · rename_i char _
    have size : 0 < ty.size := by
      rw [← Ty.size_resolved, char, Ty.size]
      exact Nat.one_pos
    refine treads_push ⟨?_, ?_, ?_, ?_, ?_, by simp⟩ h <;>
      simp [Instruction.wide, Instruction.reads, Instruction.writes?, (hd.first size).2]
  · split
    · exact treads_fail _ _
    · rename_i capacity
      have size := (Laid.charCapacity_pos (show 0 < charCapacity ty by omega)).2
      refine treads_loadWords _ (hd.mono ?_) h
      rw [Laid.length_packWords]
      omega

/-- An instruction that makes a function value. -/
theorem treads_pushFor {Q : Unit → Nat → Prop} {op : Operation} (hop : op = .loadLow ∨ op = .closureMake)
    (hd : f.writes dst) (id : Nat) (h : Q () watermark) :
    Treads (pushFor (.wide op dst 0) id) watermark f Q := by
  intro result hr
  rw [pushFor_ok hr]
  refine ⟨fun e he => ?_, h⟩
  rw [List.mem_singleton] at he
  subst he
  rcases hop with rfl | rfl
  · refine ⟨?_, ?_, ?_, ?_, ?_, ?_⟩ <;>
      simp [Instruction.wide, Instruction.reads, Instruction.writes?, hd]
  · refine ⟨?_, ?_, ?_, ?_, ?_, ?_⟩ <;>
      simp [Instruction.wide, Instruction.reads, Instruction.writes?, hd]

theorem treads_function {Q : Unit → Nat → Prop} {literal : FunctionLiteral} (span : Span)
    (free : f.Free watermark) (hd : f.writes dst)
    (reads : ∀ r, s.captures r literal = true → f.reads r) (h : Q () watermark) :
    Treads (function s literal span dst) watermark f Q := by
  unfold function
  split
  · exact treads_fail _ _
  · dsimp only
    split
    · exact treads_pushFor (.inl rfl) hd _ h
    · refine treads_bind (treads_pushFor (.inr rfl) hd _ ?_)
      refine (treads_forM _ fun c mem => ?_).mono fun _ mark same => same ▸ h
      refine treads_bind (treads_lift fun v hv => ?_)
      refine treads_bind (treads_register fun origin ho => ?_)
      refine treads_bind (treads_register fun slot hs => ?_)
      refine treads_copyFrom 0 _ (fun k _ r hr => ?_) (fun k lt r hr => ?_) rfl
      · exact free.aux r ((Register.shift_ok hr).1.trans (Register.ofOffset_ok hs).1)
      · rw [Nat.zero_add] at lt
        refine reads r (List.any_eq_true.mpr ⟨c, mem, ?_⟩)
        rw [Site.lookup_eq_ok_iff.mp hv]
        exact Register.inRow_variable ho hr lt

/-! ## Operands -/

/-- A lowering keeps to every footprint that has room for the expression. -/
def Fits (s : Site) (e : Expr) (lowered : Lowering) : Prop :=
  ∀ (f : Footprint) (watermark : Nat) (dst : Register) (ty : Ty), f.Free watermark →
    f.Takes dst (e.extent ty) → f.Serves s e →
      Treads (lowered dst ty) watermark f fun _ mark => watermark ≤ mark

variable {e : Expr} {lowered : Lowering}

theorem Fits.unwrapped (h : Fits s e lowered) : Fits s e.unwrapped lowered := by
  intro f watermark dst ty free takes serves
  rw [Expr.extent_unwrapped] at takes
  exact h f watermark dst ty free takes (serves_unwrapped.mp serves)

/-- A lowering whose scratch registers are given back. -/
theorem Fits.releasing (h : Fits s e lowered) {ty : Ty} (free : f.Free watermark)
    (takes : f.Takes dst (e.extent ty)) (serves : f.Serves s e) {Q : Unit → Nat → Prop}
    (next : Q () watermark) : Treads (releasing (lowered dst ty)) watermark f Q :=
  treads_releasing ((h f watermark dst ty free takes serves).mono fun _ _ _ => next)

/-- A lowering into a scratch register that is already reserved. -/
theorem Fits.scratch (h : Fits s e lowered) {ty : Ty} (free : f.Free watermark) {t : Register}
    (at_t : t.At watermark) (serves : f.Serves s e) {Q : Unit → Nat → Prop}
    (next : Q () (watermark + 1)) :
    Treads (Emit.releasing (lowered t ty)) (watermark + 1) f Q :=
  h.releasing (free.mono (Nat.le_succ _)) (free.takes at_t.1 (Nat.le_of_eq at_t.2.symm) _) serves next

/-- The register of a variable that an expression names. -/
theorem reads_variable {name : String} {span : Span} (serves : f.Serves s (.name name span))
    {v : Variable} {r : Register} (known : s.scope.local? name = some v) (hr : v.register = .ok r)
    (size : 0 < v.ty.size) : f.reads r := by
  refine serves.reads r ?_
  rw [Site.sees, Site.holds, known]
  exact Register.inRow_variable hr (shift_zero r) size

theorem treads_operand (hl : Fits s e lowered) (free : f.Free watermark) (serves : f.Serves s e)
    {Q : Register → Nat → Prop}
    (h : ∀ r mark, f.reads r → watermark ≤ mark → f.Free mark → Q r mark) :
    Treads (operand s e lowered) watermark f Q := by
  unfold operand
  dsimp only
  split
  · rename_i name named
    obtain ⟨span, eq⟩ := asName?_some named
    rw [eq]
    refine treads_bind (treads_lift fun v hv => ?_)
    refine treads_bind (treads_lift fun _ integral => ?_)
    refine treads_register fun r hr => h r watermark ?_ (Nat.le_refl _) free
    have serves' := serves_unwrapped.mpr serves
    rw [eq] at serves'
    have size := Site.size_of_checkIntegral integral
    exact reads_variable serves' (Site.lookup_eq_ok_iff.mp hv) hr (by omega)
  · refine treads_bind (treads_lift fun constant? _ => ?_)
    split
    · refine treads_constant free _ fun t uses free₁ => h t _ uses.1 (Nat.le_succ _) free₁
    · split
      · exact treads_fail _ _
      · refine treads_bind (treads_temp free fun t at_t uses free₁ => ?_)
        refine treads_bind (hl.scratch free at_t serves ?_)
        exact treads_pure (h t _ uses.1 (Nat.le_succ _) free₁)

theorem treads_truth (hl : Fits s e lowered) (free : f.Free watermark) (serves : f.Serves s e)
    {Q : Register → Nat → Prop}
    (h : ∀ r mark, f.reads r → watermark ≤ mark → f.Free mark → Q r mark) :
    Treads (truth s e lowered) watermark f Q := by
  have serves' := serves_unwrapped.mpr serves
  unfold truth
  dsimp only
  split
  · exact treads_operand hl.unwrapped free serves' h
  · refine treads_bind (treads_lift fun constant? _ => ?_)
    split
    · exact treads_constant free _ fun t uses free₁ => h t _ uses.1 (Nat.le_succ _) free₁
    · refine treads_bind (treads_operand hl.unwrapped free serves' fun value mark reads le free₁ => ?_)
      refine treads_bind (treads_temp free₁ fun t _ uses free₂ => ?_)
      refine treads_bind (treads_nonzero free₂ uses reads fun last le' => ?_)
      exact treads_pure (h t last uses.1 (by omega) (free₂.mono le'))

theorem operationOf_ne_inc (op : Arithmetic) : operationOf op ≠ .inc := by
  cases op <;> decide

theorem treads_operandIn (hl : Fits s e lowered) (own : Bool) (free : f.Free watermark)
    (hd : f.Uses dst) (serves : f.Serves s e) {Q : Register → Nat → Prop}
    (h : ∀ r mark, f.reads r → watermark ≤ mark → f.Free mark → Q r mark) :
    Treads (operandIn s e lowered own dst) watermark f Q := by
  unfold operandIn
  split
  · exact treads_operand hl free serves h
  · have takes : f.Takes dst (e.extent .int) := by
      intro k lt r hr
      have one := e.extent_int
      obtain rfl : k = 0 := by omega
      rw [shift_zero] at hr
      cases hr
      exact hd
    refine treads_bind (hl.releasing free takes serves ?_)
    exact treads_pure (h dst watermark hd.1 (Nat.le_refl _) free)

theorem treads_arithmetic (op : Arithmetic) (whole : Expr) {lhs rhs : Expr}
    {lowerLhs lowerRhs : Lowering} (hl : Fits s lhs lowerLhs) (hr : Fits s rhs lowerRhs)
    (free : f.Free watermark) (hd : f.Uses dst) (left : f.Serves s lhs) (right : f.Serves s rhs) :
    Treads (arithmetic s op whole lhs rhs lowerLhs lowerRhs dst) watermark f
      fun _ mark => watermark ≤ mark := by
  have left' := serves_unwrapped.mpr left
  have right' := serves_unwrapped.mpr right
  have combine {a b : Register} {mark : Nat} (ha : f.reads a) (hb : f.reads b) (le : watermark ≤ mark) :
      Treads (triple (operationOf op) dst a b) mark f fun _ mark => watermark ≤ mark :=
    treads_triple (operationOf_isArithmetic op) (operationOf_ne_inc op) hd.2 ha hb le
  unfold arithmetic
  refine treads_bind (treads_lift fun constant? _ => ?_)
  split
  · exact treads_loadInt hd _ (Nat.le_refl _)
  · dsimp only
    split
    · rename_i l r named named'
      obtain ⟨span, eq⟩ := asName?_some named
      obtain ⟨span', eq'⟩ := asName?_some named'
      rw [eq] at left'
      rw [eq'] at right'
      refine treads_bind (treads_lift fun v hv => treads_bind (treads_lift fun u hu => ?_))
      split
      · rename_i same
        refine treads_bind (treads_lift fun _ integral => ?_)
        have size := Site.size_of_checkIntegral integral
        have size' := same.size_eq
        refine treads_bind (treads_register fun a ha => treads_bind (treads_register fun b hb => ?_))
        refine combine ?_ ?_ (Nat.le_refl _)
        · exact reads_variable left' (Site.lookup_eq_ok_iff.mp hv) ha (by omega)
        · exact reads_variable right' (Site.lookup_eq_ok_iff.mp hu) hb (by omega)
      · exact treads_fail _ _
    · refine treads_bind (treads_operandIn hl.unwrapped _ free hd left' fun a mark ha le free₁ => ?_)
      refine treads_bind (treads_operandIn hr.unwrapped _ free₁ hd right' fun b last hb le' _ => ?_)
      exact combine ha hb (by omega)

/-! ## Calls -/

theorem treads_placeArgument {argument : Option Lowering} {input : Nat} {ty : Ty}
    (supplies : ∀ lowered, argument = some lowered → ∃ e, Fits s e lowered ∧ f.Serves s e)
    (free : f.Free watermark) (inside : f.Free input) {Q : Unit → Nat → Prop} (h : Q () watermark) :
    Treads (placeArgument argument input ty) watermark f Q := by
  cases argument with
  | none => exact treads_pure h
  | some lowered =>
    obtain ⟨e, hl, serves⟩ := supplies lowered rfl
    refine treads_bind (treads_register fun r hr => ?_)
    obtain ⟨bank, offset⟩ := Register.ofOffset_ok hr
    exact hl.releasing free (inside.takes bank (Nat.le_of_eq offset.symm) _) serves h

theorem treads_pushCall {frame : Nat} {function : Register} (small : frame ≤ 64) (arrow : Arrow)
    (reads : f.reads function) (frames : f.frames frame) {Q : Unit → Nat → Prop} (h : Q () watermark) :
    Treads (pushCall ⟨.callRegister, UInt8.ofNat frame, UInt16.ofNat function.toByte.toNat⟩ arrow)
      watermark f Q := by
  obtain ⟨x, y⟩ := Laid.callRegister_fields small function
  intro result hr
  rw [pushCall_ok hr]
  refine ⟨fun e he => ?_, h⟩
  rw [List.mem_singleton] at he
  subst he
  refine ⟨fun r read => ?_, ?_, fun _ => ?_, ?_, ?_, by simp⟩
  · simp only [Instruction.reads, y, Register.ofByte_toByte, beq_iff_eq] at read
    rw [read]
    exact reads
  · simp [Instruction.writes?]
  · rw [x]
    exact frames
  · simp
  · simp

theorem treads_invoke {function : Register} {arrow : Arrow} {argument : Option Lowering} {ty : Ty}
    (span : Span) (supplies : ∀ lowered, argument = some lowered → ∃ e, Fits s e lowered ∧ f.Serves s e)
    (free : f.Free watermark) (hd : f.Takes dst ty.size) (reads : f.reads function) :
    Treads (invoke dst function arrow argument ty span) watermark f fun _ mark => watermark ≤ mark := by
  unfold invoke
  split
  · exact treads_fail _ _
  · refine treads_bind (treads_alloc fun _ => treads_bind (treads_alloc fun inside => ?_))
    have free₁ := free.mono (Nat.le_add_right watermark arrow.output.size)
    have free₂ := free₁.mono (Nat.le_add_right (watermark + arrow.output.size) arrow.input.size)
    refine treads_bind (treads_placeArgument supplies free₂ free₁ ?_)
    refine treads_bind (treads_pushCall (by omega) arrow reads (free.frames _ (Nat.le_refl _)) ?_)
    refine treads_bind (treads_register fun output ho => ?_)
    obtain ⟨bank, offset⟩ := Register.ofOffset_ok ho
    refine treads_copy hd (fun k lt r hr => ?_) (by omega)
    exact (free.takes bank (Nat.le_of_eq offset.symm) _ k lt r hr).1

theorem treads_print (hl : Fits s e lowered) (free : f.Free watermark) (serves : f.Serves s e) :
    Treads (print lowered) watermark f fun _ mark => watermark ≤ mark := by
  refine treads_bind (treads_alloc fun _ => treads_bind (treads_register fun buffer hb => ?_))
  obtain ⟨bank, offset⟩ := Register.ofOffset_ok hb
  have free₁ := free.mono (Nat.le_add_right watermark printBuffer.size)
  refine treads_bind (hl.releasing free₁ (free.takes bank (Nat.le_of_eq offset.symm) _) serves ?_)
  refine treads_push ⟨fun r read => ?_, ?_, ?_, ?_, fun _ => ?_, by simp⟩ (Nat.le_add_right _ _)
  · simp only [Instruction.wide, Instruction.reads, Register.ofByte_toByte, Bool.and_eq_true,
      beq_iff_eq, decide_eq_true_eq] at read
    exact (free.scratch r (read.1.trans bank) (by have := read.2; omega)).1
  · simp [Instruction.wide, Instruction.writes?]
  · simp [Instruction.wide]
  · simp [Instruction.wide]
  · simpa [Instruction.wide] using bank

theorem treads_call {callee argument : Expr} {lowerCallee lowerArgument : Lowering}
    (hc : Fits s callee lowerCallee) (ha : Fits s argument lowerArgument) (span : Span) {ty : Ty}
    (free : f.Free watermark) (hd : f.Takes dst ty.size) (left : f.Serves s callee)
    (right : f.Serves s argument) :
    Treads (call s callee lowerCallee lowerArgument span dst ty) watermark f
      fun _ mark => watermark ≤ mark := by
  have supplies : ∀ lowered, some lowerArgument = some lowered →
      ∃ e, Fits s e lowered ∧ f.Serves s e := by
    rintro _ ⟨⟩
    exact ⟨argument, ha, right⟩
  have left' := serves_unwrapped.mpr left
  unfold call
  dsimp only
  split
  · rename_i name named
    obtain ⟨span', eq⟩ := asName?_some named
    rw [eq] at left'
    split
    · rename_i v known
      split
      · rename_i arrow callable
        refine treads_bind (treads_register fun r hr => treads_invoke span supplies free hd ?_)
        have size := (Ty.calls_of_arrow? callable).1
        exact reads_variable left' known hr (by omega)
      · exact treads_fail _ _
    · split
      · exact treads_print ha free right
      · exact treads_fail _ _
  · split
    · exact treads_fail _ _
    · refine treads_bind (treads_temp free fun t at_t uses free₁ => ?_)
      refine treads_bind (hc.scratch free at_t left ?_)
      exact (treads_invoke span supplies free₁ hd uses.1).mono fun _ mark le => by omega

theorem treads_armArrow (arm : Expr) {Q : Arrow → Nat → Prop} (h : ∀ arrow, Q arrow watermark) :
    Treads (armArrow s arm) watermark f Q := by
  unfold armArrow
  split
  · exact treads_pure (h _)
  · exact treads_fail _ _

theorem treads_choose {cond yes no : Expr} {lowerCond lowerYes lowerNo : Lowering}
    (hc : Fits s cond lowerCond) (hy : Fits s yes lowerYes) (hn : Fits s no lowerNo) (span : Span)
    {ty : Ty} (free : f.Free watermark) (hd : f.Takes dst ty.size) (serves : f.Serves s cond)
    (servesYes : f.Serves s yes) (servesNo : f.Serves s no) :
    Treads (choose s cond yes no lowerCond lowerYes lowerNo span dst ty) watermark f
      fun _ mark => watermark ≤ mark := by
  -- the arms take no argument
  have call {mark : Nat} {function : Register} (arrow : Arrow) (le : watermark ≤ mark)
      (reads : f.reads function) :
      Treads (invoke dst function arrow none ty span) mark f fun _ mark => watermark ≤ mark :=
    (treads_invoke (s := s) span (by simp) (free.mono le) hd reads).mono fun _ last le' => by omega
  unfold choose
  refine treads_bind (treads_armArrow yes fun arrow => treads_bind (treads_armArrow no fun other => ?_))
  split
  · exact treads_fail _ _
  · refine treads_bind (treads_lift fun constant? _ => ?_)
    split
    · refine treads_bind (treads_temp free fun t at_t uses _ => ?_)
      refine treads_bind ?_
      split
      · exact hy.scratch free at_t servesYes (call arrow (Nat.le_succ _) uses.1)
      · exact hn.scratch free at_t servesNo (call arrow (Nat.le_succ _) uses.1)
    · refine treads_bind (treads_truth hc free serves fun c mark hcond le free₁ => ?_)
      refine treads_bind (treads_temp free₁ fun t at_t ut free₂ => ?_)
      refine treads_bind (hy.scratch free₁ at_t servesYes ?_)
      refine treads_bind (treads_temp free₂ fun u at_u uu free₃ => ?_)
      refine treads_bind (hn.scratch free₂ at_u servesNo ?_)
      refine treads_bind (treads_triple rfl (by decide) ut.2 ut.1 uu.1 ?_)
      refine treads_bind (treads_triple rfl (by decide) ut.2 ut.1 hcond ?_)
      refine treads_bind (treads_triple rfl (by decide) ut.2 ut.1 uu.1 ?_)
      exact call arrow (by omega) ut.1

/-! ## Assignments -/

/-- The registers that a variable takes when a value is put there. -/
theorem takes_variable {v : Variable} {r : Register} {count : Nat} (hr : v.register = .ok r)
    (h : ∀ t : Register, t.inRow v.bank v.offset count = true → f.Uses t) : f.Takes r count :=
  fun _ lt _ ht => h _ (Register.inRow_variable hr ht lt)

theorem treads_assign {target value : Expr} {span : Span} (hl : Fits s value lowered)
    (free : f.Free watermark) (serves : f.Serves s value)
    (sets : ∀ r, s.Sets (.binary .assign target value span) r → f.Uses r)
    {Q : Variable → Nat → Prop}
    (h : ∀ name v, target.asName? = some name → s.scope.local? name = some v → Q v watermark) :
    Treads (assign s target lowered) watermark f Q := by
  unfold assign
  split
  · exact treads_fail _ _
  · rename_i name named
    refine treads_bind (treads_lift fun v hv => treads_bind (treads_register fun r hr => ?_))
    have known := Site.lookup_eq_ok_iff.mp hv
    refine treads_bind (hl.releasing free (takes_variable hr fun t inRow => ?_) serves ?_)
    · refine sets t ⟨_, Expr.mem_nodes_self _, name, value, v, ?_, known, inRow⟩
      rw [Expr.binds?, named, Option.map_some]
    · exact treads_pure (h name v named known)

theorem treads_copyVariable {v : Variable} {ty : Ty} (hd : f.Takes dst ty.size)
    (reads : ∀ t : Register, t.inRow v.bank v.offset v.ty.size = true → f.reads t)
    {Q : Unit → Nat → Prop} (h : Q () watermark) : Treads (copyVariable dst v ty) watermark f Q := by
  refine treads_bind (treads_register fun src hs => ?_)
  exact treads_copy hd (fun k lt r hr => reads r (Register.inRow_variable hs hr lt)) h

end Emit

/-! ## Expressions -/

open Emit Footprint

variable {s : Site}

theorem treads_lowerFields {f : Footprint} {watermark : Nat} {dst : Register}
    {fields : List (Labelled Expr)} (h : ∀ field ∈ fields, Fits s field.value (lower s field.value))
    {slots : List (Nat × Ty)} (free : f.Free watermark)
    (takes : f.Takes dst (Expr.extentOfFields fields slots))
    (serves : ∀ field ∈ fields, f.Serves s field.value) :
    Treads (lowerFields s fields slots dst) watermark f fun _ mark => watermark ≤ mark := by
  induction fields generalizing slots with
  | nil =>
    rw [lowerFields]
    · exact treads_pure (Nat.le_refl _)
    · simp
  | cons field fields ih =>
    cases slots with
    | nil =>
      rw [lowerFields]
      · exact treads_pure (Nat.le_refl _)
      · simp
    | cons slot slots =>
      rw [lowerFields]
      rw [Expr.extentOfFields] at takes
      refine treads_bind (treads_register fun r hr => ?_)
      have here : f.Takes r (field.value.extent slot.2) := (takes.mono (Nat.le_max_left _ _)).slot hr
      refine treads_bind ((h field (by simp)).releasing free here (serves field (by simp)) ?_)
      exact ih (fun other mem => h other (by simp [mem])) (takes.mono (Nat.le_max_right _ _))
        fun other mem => serves other (by simp [mem])

theorem fits_lower (e : Expr) : Fits s e (lower s e) := by
  induction e using Expr.of_forms with
  | int value span =>
    intro f watermark dst ty free takes serves
    rw [lower]
    exact treads_loadInt (takes.first Nat.one_pos) value (Nat.le_refl _)
  | hex value span =>
    intro f watermark dst ty free takes serves
    rw [lower]
    exact treads_loadInt (takes.first Nat.one_pos) _ (Nat.le_refl _)
  | float | varDecl =>
    intro f watermark dst ty free takes serves
    rw [lower]
    exact treads_fail _ _
  | text value span =>
    intro f watermark dst ty free takes serves
    rw [lower]
    exact treads_text value span takes (Nat.le_refl _)
  | name value span =>
    intro f watermark dst ty free takes serves
    rw [lower]
    refine treads_bind (treads_lift fun v hv => treads_copyVariable takes ?_ (Nat.le_refl _))
    intro t inRow
    refine serves.reads t ?_
    rw [Site.sees, Site.holds, Site.lookup_eq_ok_iff.mp hv]
    exact inRow
  | typeDecl =>
    intro f watermark dst ty free takes serves
    rw [lower]
    exact treads_pure (Nat.le_refl _)
  | function literal span =>
    intro f watermark dst ty free takes serves
    rw [lower]
    refine treads_function span free (takes.first Nat.one_pos).2 ?_ (Nat.le_refl _)
    exact fun r captured => serves.reads r (by rw [Site.sees]; exact captured)
  | parens value span inner =>
    intro f watermark dst ty free takes serves
    rw [lower]
    rw [Expr.extent] at takes
    exact inner f watermark dst ty free takes (serves.field ⟨none, value⟩ (by simp))
  | tuple fields span several inner =>
    intro f watermark dst ty free takes serves
    rw [lower_tuple fields span dst ty several]
    rw [Expr.extent_tuple fields span ty several] at takes
    split
    · rename_i slots found
      rw [found] at takes
      exact treads_lowerFields inner free takes fun field mem => serves.field field mem
    · exact treads_fail _ _
  | unary op operand span inner =>
    intro f watermark dst ty free takes serves
    have hd := takes.first Nat.one_pos
    cases op with
    | neg =>
      rw [lower]
      refine treads_bind (treads_lift fun constant? _ => ?_)
      split
      · exact treads_loadInt hd _ (Nat.le_refl _)
      · refine treads_bind (treads_constant free 0 fun zero hz free₁ => ?_)
        refine treads_bind (treads_operand inner free₁ serves.operand fun value mark hv le _ => ?_)
        exact treads_triple rfl (by decide) hd.2 hz.1 hv (by omega)
    | not =>
      rw [lower]
      refine treads_bind (treads_truth inner free serves.operand fun value mark hv le _ => ?_)
      exact treads_invert hd hv le
    | deref | ref =>
      rw [lower]
      exact treads_fail _ _
  | binary op lhs rhs span other hl hr =>
    intro f watermark dst ty free takes serves
    cases op with
    | choose => exact absurd rfl other
    | call | apply =>
      rw [lower]
      exact treads_call hl hr span free takes (serves.left (by simp)) (serves.right (by simp))
    | arithmetic op =>
      rw [lower]
      exact treads_arithmetic op _ hl hr free (takes.first Nat.one_pos) (serves.left (by simp))
        (serves.right (by simp))
    | comparison op =>
      rw [lower]
      refine treads_bind (treads_operand hl free (serves.left (by simp)) fun a mark ha le free₁ => ?_)
      refine treads_bind (treads_operand hr free₁ (serves.right (by simp))
        fun b last hb le' free₂ => ?_)
      exact treads_compare op free₂ (takes.first Nat.one_pos) ha hb fun final le'' => by omega
    | connective op =>
      rw [lower]
      refine treads_bind (treads_truth hl free (serves.left (by simp)) fun a mark ha le free₁ => ?_)
      refine treads_bind (treads_truth hr free₁ (serves.right (by simp))
        fun b last hb le' free₂ => ?_)
      exact treads_connect op free₂ (takes.first Nat.one_pos).2 ha hb fun final le'' => by omega
    | field | index =>
      rw [lower]
      refine treads_bind (treads_lift fun found hp => ?_)
      refine treads_copy takes (fun k lt r hr => serves.reads r ?_) (Nat.le_refl _)
      simp only [Site.sees, hp]
      exact Register.inRow_shift hr lt
    | assign =>
      rw [lower]
      refine treads_bind (treads_assign hr free (serves.right (by simp)) serves.sets
        fun name v named known => ?_)
      split
      · exact treads_pure (Nat.le_refl _)
      · refine treads_copyVariable takes (fun t inRow => serves.reads t ?_) (Nat.le_refl _)
        obtain ⟨span', rfl⟩ := asName?_some named
        simp only [Site.sees, Site.holds, known, inRow, Bool.true_or]
    | compose =>
      rw [lower]
      exact treads_fail _ _
  | choose cond yes no armsSpan span hc hy hn =>
    intro f watermark dst ty free takes serves
    rw [lower]
    have right : f.Serves s (.tuple [yes, no] armsSpan) := serves.right (by simp)
    exact treads_choose hc hy hn span free takes (serves.left (by simp)) (right.field yes (by simp))
      (right.field no (by simp))
  | unpaired cond arms span lacks =>
    intro f watermark dst ty free takes serves
    rw [lower_unpaired cond lacks]
    exact treads_fail _ _

/-! ## Statements -/

variable {f : Footprint} {watermark : Nat} {e : Expr}

/-- A statement keeps to its footprint and gives back its scratch registers. -/
theorem treads_statement (isLast : Bool) (free : f.Free watermark) (serves : f.Serves s e)
    (output : isLast = true → e.binds? = none → f.Takes .first (e.extent s.scope.arrow.output)) :
    Treads (lowerStatement s isLast e) watermark f fun _ mark => mark = watermark := by
  unfold lowerStatement
  dsimp only
  split
  · exact treads_pure rfl
  · rename_i name type value span
    refine treads_bind (treads_lift fun v hv => treads_bind (treads_register fun r hr => ?_))
    have inner : f.Serves s value := serves.part (by simp [Expr.parts]) fun r seen => by
      rw [Site.sees]
      exact seen
    refine (fits_lower value).releasing free (takes_variable hr fun t inRow => ?_) inner rfl
    have known := Site.lookup_eq_ok_iff.mp hv
    exact serves.sets t ⟨_, Expr.mem_nodes_self _, name, value, v, rfl, known, inRow⟩
  · refine treads_bind (treads_assign (fits_lower _) free (serves.right (by simp)) serves.sets ?_)
    exact fun _ _ _ _ => treads_pure rfl
  · rename_i no_variable no_assign
    split
    · rename_i gives
      rw [Bool.and_eq_true] at gives
      have unbound : e.binds? = none := by
        unfold Expr.binds?
        split
        · exact (no_variable _ _ _ _ rfl).elim
        · exact (no_assign _ _ _ rfl).elim
        · rfl
      exact (fits_lower e).releasing free (output gives.1 unbound) serves rfl
    · refine treads_releasing (treads_bind (treads_temp free fun t at_t _ _ => ?_))
      exact (fits_lower e).scratch free at_t serves rfl

/-- The statements of a scope, the last of which may give the output. -/
theorem treads_statements (body : List Expr) (free : f.Free watermark)
    (serves : ∀ e ∈ body, f.Serves s e)
    (output : ∀ e, body.getLast? = some e → e.binds? = none →
      f.Takes .first (e.extent s.scope.arrow.output)) :
    Treads (lowerStatements s body) watermark f fun _ mark => mark = watermark := by
  fun_induction lowerStatements s body with
  | case1 => exact treads_pure rfl
  | case2 e => exact treads_statement true free (serves e (by simp)) fun _ => output e rfl
  | case3 e rest several ih =>
    refine treads_bind ((treads_statement false free (serves e (by simp)) (by simp)).mono ?_)
    rintro _ mark rfl
    refine ih (fun e mem => serves e (by simp [mem])) fun last eq => output last ?_
    rw [List.getLast?_cons, eq]
    rfl

/-- All registers, and frames anywhere. -/
def Footprint.whole : Footprint := ⟨fun _ => True, fun _ => True, fun _ => True⟩

theorem Footprint.free_whole : Footprint.whole.Free watermark :=
  ⟨fun _ _ _ => ⟨trivial, trivial⟩, fun _ _ => trivial, fun _ _ => trivial⟩

theorem Footprint.serves_whole : Footprint.whole.Serves s e :=
  ⟨fun _ _ => trivial, fun _ _ => ⟨trivial, trivial⟩⟩

theorem Footprint.takes_whole {dst : Register} {count : Nat} : Footprint.whole.Takes dst count :=
  fun _ _ _ _ => ⟨trivial, trivial⟩

theorem watermark_of_lowerStatement {isLast : Bool} {result : Emission Unit}
    (h : lowerStatement s isLast e watermark = .ok result) : result.watermark = watermark :=
  (treads_statement isLast free_whole serves_whole (fun _ _ => takes_whole) result h).2

/-- The code of statements is that of each, one behind the other. -/
theorem lowerStatements_split {before after : List Expr} {result : Emission Unit}
    (h : lowerStatements s (before ++ e :: after) watermark = .ok result) :
    ∃ front part back, lowerStatement s after.isEmpty e watermark = .ok part ∧
      result.code = front ++ part.code ++ back := by
  induction before generalizing result with
  | nil =>
    cases after with
    | nil => exact ⟨[], result, [], h, by simp⟩
    | cons second after =>
      rw [List.nil_append, lowerStatements] at h
      · obtain ⟨first, rest, hf, -, rfl⟩ := bind_ok h
        exact ⟨[], first, rest.code, hf, by simp⟩
      · simp
  | cons first before ih =>
    rw [List.cons_append, lowerStatements] at h
    · obtain ⟨here, rest, hf, hs, rfl⟩ := bind_ok h
      rw [watermark_of_lowerStatement hf] at hs
      obtain ⟨front, part, back, found, eq⟩ := ih hs
      exact ⟨here.code ++ front, part, back, found, by simp [eq]⟩
    · simp

end WindowedClosures
