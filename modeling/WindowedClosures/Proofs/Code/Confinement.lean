import WindowedClosures.Code.Layout
import WindowedClosures.Proofs.Code.Emission
import WindowedClosures.Proofs.Code.Laying
import WindowedClosures.Proofs.Expr.Nodes

/-!
# The instructions that code is made of

Code for expressions loads, moves and computes words, prints, makes closures and calls function
words, and nothing else: no instruction moves the window, selects a closure or stores through an
address, and none has a register of the program's window as its destination. All of it follows from
the banks of the variables that the scope of the code knows.
-/

namespace WindowedClosures

namespace Instruction

/-- An instruction of compiled code: the operation is one of those the generator uses, and the
register it changes does not lie in the bank of the program's window. -/
def Confined (i : Instruction) : Prop :=
  match i.op with
  | .loadLow | .loadHigh | .move | .inc | .closureMake => (Register.ofByte i.x).bank ≠ .base
  | .add | .sub | .mul | .div | .mod | .nand | .shl | .shr => (Register.ofByte i.x).bank ≠ .base
  | .print | .callRegister | .ret => True
  | _ => False

theorem confined_wide (op : Operation) (x : Register) (yz : UInt16) (hx : x.bank ≠ .base)
    (hop : op.isArithmetic ∨ op ∈ [.loadLow, .loadHigh, .closureMake, .print]) :
    (wide op x yz).Confined := by
  cases op <;> simp_all [Confined, wide, Operation.isArithmetic]

theorem confined_triple (op : Operation) (x y z : Register) (hx : x.bank ≠ .base)
    (hop : op.isArithmetic ∨ op = .move) : (triple op x y z).Confined := by
  cases op <;> simp_all [Confined, triple, Operation.isArithmetic]

end Instruction

namespace Scope

/-- The variables of a scope lie in the window, and what it captured in the closure bank. -/
structure KeepsBanks (s : Scope) : Prop where
  vars : ∀ v ∈ s.vars, v.bank = .window
  closure : ∀ v ∈ s.closure, v.bank = .closure

theorem local?_mem {s : Scope} {name : String} {v : Variable} (h : s.local? name = some v) :
    v ∈ s.vars ∨ v ∈ s.closure := by
  unfold local? at h
  split at h
  · rename_i found hf
    cases h
    exact .inl (List.mem_of_find?_eq_some hf)
  · exact .inr (List.mem_of_find?_eq_some h)

theorem KeepsBanks.bank_ne_base {s : Scope} (hs : s.KeepsBanks) {name : String} {v : Variable}
    (h : s.local? name = some v) : v.bank ≠ .base := by
  rcases local?_mem h with hv | hv
  · simp [hs.vars v hv]
  · simp [hs.closure v hv]

end Scope

namespace Emit

variable {α : Type}

/-- Whenever the emission succeeds, all its instructions are confined. -/
abbrev Confines (m : Emit α) (Q : α → Prop) : Prop := Emits (fun e => e.instruction.Confined) m Q

/-- A lowering that is confined for every destination outside the program's window. -/
def ConfinesAll (lowered : Lowering) : Prop :=
  ∀ dst ty, dst.bank ≠ .base → Confines (lowered dst ty) fun _ => True

theorem confines_triple (op : Operation) (dst a b : Register) (hd : dst.bank ≠ .base)
    (hop : op.isArithmetic ∨ op = .move) : Confines (triple op dst a b) fun _ => True :=
  emits_push (Instruction.confined_triple op dst a b hd hop)

theorem confines_temp : Confines temp fun r => r.bank ≠ .base := by
  intro watermark result hr
  obtain ⟨code, bank⟩ := emits_temp watermark result hr
  exact ⟨code, by simp [bank]⟩

theorem confines_shift (dst : Register) (delta : Nat) (hd : dst.bank ≠ .base) :
    Confines (register (dst.shift delta)) fun r => r.bank ≠ .base := by
  apply emits_register
  intro r hr
  rw [(Register.shift_ok hr).1]
  exact hd

theorem confines_ofOffset (bank : Bank) (offset : Nat) (hb : bank ≠ .base) :
    Confines (register (Register.ofOffset bank offset)) fun r => r.bank ≠ .base := by
  apply emits_register
  intro r hr
  rw [(Register.ofOffset_ok hr).1]
  exact hb

theorem confines_loadInt (dst : Register) (value : Int32) (hd : dst.bank ≠ .base) :
    Confines (loadInt dst value) fun _ => True := by
  unfold loadInt
  apply emits_bind (emits_push (Instruction.confined_wide _ _ _ hd (by simp)))
  intro _ _
  split
  · exact emits_push (Instruction.confined_wide _ _ _ hd (by simp))
  · exact emits_pure _ trivial

theorem confines_constant (value : Int32) : Confines (constant value) fun r => r.bank ≠ .base := by
  apply emits_bind confines_temp
  intro r hr
  apply emits_bind (confines_loadInt r value hr)
  intro _ _
  exact emits_pure r hr

theorem confines_copyFrom (dst src : Register) (start count : Nat) (hd : dst.bank ≠ .base) :
    Confines (copyFrom dst src start count) fun _ => True := by
  induction count generalizing start with
  | zero => exact emits_pure _ trivial
  | succ count ih =>
    apply emits_bind (confines_shift dst start hd)
    intro slot hslot
    apply emits_bind (emits_register fun _ _ => trivial)
    intro origin _
    apply emits_bind (confines_triple .move slot origin .first hslot (by simp))
    intro _ _
    exact ih (start + 1)

theorem confines_copy (dst src : Register) (srcTy ty : Ty) (hd : dst.bank ≠ .base) :
    Confines (copy dst src srcTy ty) fun _ => True := by
  unfold copy
  split
  · exact emits_pure _ trivial
  · exact confines_copyFrom dst src 0 _ hd

/-! ## Comparisons and truth values -/

theorem confines_xor (dst a b : Register) (hd : dst.bank ≠ .base) :
    Confines (xor dst a b) fun _ => True := by
  apply emits_releasing
  apply emits_bind confines_temp; intro t ht
  apply emits_bind confines_temp; intro u hu
  apply emits_bind confines_temp; intro v hv
  apply emits_bind (confines_triple .nand t a b ht (by simp [Operation.isArithmetic])); intro _ _
  apply emits_bind (confines_triple .nand u a t hu (by simp [Operation.isArithmetic])); intro _ _
  apply emits_bind (confines_triple .nand v b t hv (by simp [Operation.isArithmetic])); intro _ _
  exact confines_triple .nand dst u v hd (by simp [Operation.isArithmetic])

theorem confines_less (dst a b : Register) (hd : dst.bank ≠ .base) :
    Confines (less dst a b) fun _ => True := by
  apply emits_bind confines_temp; intro d hd'
  apply emits_bind confines_temp; intro x hx
  apply emits_bind confines_temp; intro y hy
  apply emits_bind (confines_triple .sub d a b hd' (by simp [Operation.isArithmetic])); intro _ _
  apply emits_bind (confines_xor x a b hx); intro _ _
  apply emits_bind (confines_xor y d a hy); intro _ _
  apply emits_bind (confines_triple .nand x x y hx (by simp [Operation.isArithmetic])); intro _ _
  apply emits_bind (confines_triple .nand x x x hx (by simp [Operation.isArithmetic])); intro _ _
  apply emits_bind (confines_xor y d x hy); intro _ _
  apply emits_bind (confines_constant 31); intro amount _
  apply emits_bind (confines_triple .shr y y amount hy (by simp [Operation.isArithmetic])); intro _ _
  exact confines_triple .mul dst y y hd (by simp [Operation.isArithmetic])

theorem confines_nonzero (dst value : Register) (hd : dst.bank ≠ .base) :
    Confines (nonzero dst value) fun _ => True := by
  apply emits_bind (confines_constant 0); intro zero _
  apply emits_bind confines_temp; intro n hn
  apply emits_bind confines_temp; intro c hc
  apply emits_bind (confines_triple .sub n zero value hn (by simp [Operation.isArithmetic]))
  intro _ _
  apply emits_bind (confines_triple .nand n n n hn (by simp [Operation.isArithmetic])); intro _ _
  apply emits_bind (confines_triple .nand c value value hc (by simp [Operation.isArithmetic]))
  intro _ _
  apply emits_bind (confines_triple .nand dst c n hd (by simp [Operation.isArithmetic])); intro _ _
  apply emits_bind (confines_constant 31); intro amount _
  apply emits_bind (confines_triple .shr dst dst amount hd (by simp [Operation.isArithmetic]))
  intro _ _
  exact confines_triple .mul dst dst dst hd (by simp [Operation.isArithmetic])

theorem confines_invert (dst value : Register) (hd : dst.bank ≠ .base) :
    Confines (invert dst value) fun _ => True := by
  apply emits_bind (confines_triple .nand dst value value hd (by simp [Operation.isArithmetic]))
  intro _ _
  exact emits_push (Instruction.confined_wide _ _ _ hd (by simp [Operation.isArithmetic]))

theorem confines_compare (op : Comparison) (dst a b : Register) (hd : dst.bank ≠ .base) :
    Confines (Emit.compare op dst a b) fun _ => True := by
  cases op with
  | lt => exact confines_less dst a b hd
  | gt => exact confines_less dst b a hd
  | ge => exact emits_bind (confines_less dst a b hd) fun _ _ => confines_invert dst dst hd
  | le => exact emits_bind (confines_less dst b a hd) fun _ _ => confines_invert dst dst hd
  | ne =>
    apply emits_bind confines_temp; intro d hd'
    apply emits_bind (confines_triple .sub d a b hd' (by simp [Operation.isArithmetic])); intro _ _
    exact confines_nonzero dst d hd
  | eq =>
    apply emits_bind confines_temp; intro d hd'
    apply emits_bind (confines_triple .sub d a b hd' (by simp [Operation.isArithmetic])); intro _ _
    exact emits_bind (confines_nonzero dst d hd) fun _ _ => confines_invert dst dst hd

theorem confines_connect (op : Connective) (dst a b : Register) (hd : dst.bank ≠ .base) :
    Confines (connect op dst a b) fun _ => True := by
  cases op with
  | and => exact confines_triple .mul dst a b hd (by simp [Operation.isArithmetic])
  | or =>
    apply emits_bind confines_temp; intro na hna
    apply emits_bind confines_temp; intro nb hnb
    apply emits_bind (confines_triple .nand na a a hna (by simp [Operation.isArithmetic])); intro _ _
    apply emits_bind (confines_triple .nand nb b b hnb (by simp [Operation.isArithmetic])); intro _ _
    exact confines_triple .nand dst na nb hd (by simp [Operation.isArithmetic])

/-! ## Literals and function values -/

theorem confines_loadWords (dst : Register) (words : List Int32) (hd : dst.bank ≠ .base) :
    Confines (loadWords dst words) fun _ => True := by
  apply emits_forM
  intro indexed _
  apply emits_bind (confines_shift dst indexed.2 hd)
  intro r hr
  exact confines_loadInt r indexed.1 hr

theorem confines_text (value : String) (span : Span) (dst : Register) (ty : Ty)
    (hd : dst.bank ≠ .base) : Confines (text value span dst ty) fun _ => True := by
  unfold text
  dsimp only
  split
  · exact emits_push (Instruction.confined_wide _ _ _ hd (by simp))
  · split
    · exact emits_fail _
    · exact confines_loadWords dst _ hd

theorem confines_function (s : Site) (literal : FunctionLiteral) (span : Span) (dst : Register)
    (hd : dst.bank ≠ .base) : Confines (function s literal span dst) fun _ => True := by
  unfold function
  split
  · exact emits_fail _
  · dsimp only
    split
    · exact emits_pushFor (Instruction.confined_wide _ _ _ hd (by simp))
    · apply emits_bind (emits_pushFor (Instruction.confined_wide _ _ _ hd (by simp)))
      intro _ _
      apply emits_forM
      intro v _
      apply emits_bind (emits_lift fun _ _ => trivial); intro _ _
      apply emits_bind (emits_register fun _ _ => trivial); intro origin _
      apply emits_bind (confines_ofOffset .aux v.offset (by simp))
      intro slot hslot
      exact confines_copyFrom slot origin 0 _ hslot

/-! ## Operands and calls -/

variable {s : Site}

/-- A register of a variable of the scope. -/
theorem confines_variable (hs : s.scope.KeepsBanks) {name : String} {span : Span} {v : Variable}
    (hv : s.lookup name span = .ok v) :
    Confines (register v.register) fun r => r.bank ≠ .base := by
  apply confines_ofOffset
  unfold Site.lookup at hv
  split at hv
  · rename_i found hf
    cases hv
    exact hs.bank_ne_base hf
  · cases hv

theorem confines_operand (hs : s.scope.KeepsBanks) (e : Expr) {lowered : Lowering}
    (hl : ConfinesAll lowered) : Confines (operand s e lowered) fun r => r.bank ≠ .base := by
  unfold operand
  dsimp only
  split
  · apply emits_bind (emits_lift fun _ hv => hv)
    intro v hv
    apply emits_bind (emits_lift fun _ _ => trivial)
    intro _ _
    exact confines_variable hs hv
  · apply emits_bind (emits_lift fun _ _ => trivial)
    intro constant? _
    split
    · exact confines_constant _
    · split
      · exact emits_fail _
      · apply emits_bind confines_temp
        intro r hr
        apply emits_bind (emits_releasing (hl r .int hr))
        intro _ _
        exact emits_pure r hr

theorem confines_truth (hs : s.scope.KeepsBanks) (e : Expr) {lowered : Lowering}
    (hl : ConfinesAll lowered) : Confines (truth s e lowered) fun r => r.bank ≠ .base := by
  unfold truth
  dsimp only
  split
  · exact confines_operand hs _ hl
  · apply emits_bind (emits_lift fun _ _ => trivial)
    intro constant? _
    split
    · exact confines_constant _
    · apply emits_bind (confines_operand hs _ hl)
      intro value _
      apply emits_bind confines_temp
      intro t ht
      apply emits_bind (confines_nonzero t value ht)
      intro _ _
      exact emits_pure t ht

theorem operationOf_isArithmetic (op : Arithmetic) : (operationOf op).isArithmetic = true := by
  cases op <;> rfl

theorem confines_operandIn (hs : s.scope.KeepsBanks) (e : Expr) {lowered : Lowering}
    (hl : ConfinesAll lowered) (own : Bool) (dst : Register) (hd : dst.bank ≠ .base) :
    Confines (operandIn s e lowered own dst) fun r => r.bank ≠ .base := by
  unfold operandIn
  split
  · exact confines_operand hs e hl
  · apply emits_bind (emits_releasing (hl dst .int hd)); intro _ _
    exact emits_pure dst hd

theorem confines_arithmetic (hs : s.scope.KeepsBanks) (op : Arithmetic) (whole lhs rhs : Expr)
    {lowerLhs lowerRhs : Lowering} (hl : ConfinesAll lowerLhs) (hr : ConfinesAll lowerRhs)
    (dst : Register) (hd : dst.bank ≠ .base) :
    Confines (arithmetic s op whole lhs rhs lowerLhs lowerRhs dst) fun _ => True := by
  have combine (a b : Register) : Confines (triple (operationOf op) dst a b) fun _ => True :=
    confines_triple _ dst a b hd (.inl (operationOf_isArithmetic op))
  unfold arithmetic
  apply emits_bind (emits_lift fun _ _ => trivial)
  intro constant? _
  split
  · exact confines_loadInt dst _ hd
  · dsimp only
    split
    · apply emits_bind (emits_lift fun _ _ => trivial); intro l _
      apply emits_bind (emits_lift fun _ _ => trivial); intro r _
      split
      · apply emits_bind (emits_lift fun _ _ => trivial); intro _ _
        apply emits_bind (emits_register fun _ _ => trivial); intro a _
        apply emits_bind (emits_register fun _ _ => trivial); intro b _
        exact combine a b
      · exact emits_fail _
    · apply emits_bind (confines_operandIn hs _ hl _ dst hd); intro a _
      apply emits_bind (confines_operandIn hs _ hr _ dst hd); intro b _
      exact combine a b

theorem confines_invoke (dst function : Register) (arrow : Arrow) (argument : Option Lowering)
    (ha : ∀ lowered ∈ argument, ConfinesAll lowered) (ty : Ty) (span : Span)
    (hd : dst.bank ≠ .base) :
    Confines (invoke dst function arrow argument ty span) fun _ => True := by
  unfold invoke
  split
  · exact emits_fail _
  · apply emits_bind (emits_alloc _); intro frame _
    apply emits_bind (emits_alloc _); intro input _
    have hc : Instruction.Confined
        ⟨.callRegister, UInt8.ofNat frame, UInt16.ofNat function.toByte.toNat⟩ := trivial
    have place : Confines (placeArgument argument input arrow.input) fun _ => True := by
      cases argument with
      | none => exact emits_pure _ trivial
      | some lowered =>
        apply emits_bind (confines_ofOffset .window input (by simp)); intro r hr
        exact emits_releasing (ha lowered rfl r _ hr)
    apply emits_bind place; intro _ _
    apply emits_bind (emits_pushCall hc); intro _ _
    apply emits_bind (emits_register fun _ _ => trivial); intro output _
    exact confines_copy dst output _ _ hd

theorem confines_print {lowered : Lowering} (hl : ConfinesAll lowered) :
    Confines (print lowered) fun _ => True := by
  apply emits_bind (emits_alloc _); intro offset _
  apply emits_bind (confines_ofOffset .window offset (by simp)); intro buffer hb
  apply emits_bind (emits_releasing (hl buffer printBuffer hb)); intro _ _
  exact emits_push (Instruction.confined_wide _ _ _ hb (by simp))

theorem confines_call (callee : Expr) {lowerCallee lowerArgument : Lowering}
    (hc : ConfinesAll lowerCallee) (ha : ConfinesAll lowerArgument) (span : Span) (dst : Register)
    (ty : Ty) (hd : dst.bank ≠ .base) :
    Confines (call s callee lowerCallee lowerArgument span dst ty) fun _ => True := by
  have argument : ∀ lowered ∈ some lowerArgument, ConfinesAll lowered := by
    intro lowered hm
    cases hm
    exact ha
  unfold call
  dsimp only
  split
  · split
    · split
      · apply emits_bind (emits_register fun _ _ => trivial); intro f _
        exact confines_invoke dst f _ _ argument ty span hd
      · exact emits_fail _
    · split
      · exact confines_print ha
      · exact emits_fail _
  · split
    · exact emits_fail _
    · apply emits_bind confines_temp; intro f hf
      apply emits_bind (emits_releasing (hc f _ hf)); intro _ _
      exact confines_invoke dst f _ _ argument ty span hd

theorem confines_choose (hs : s.scope.KeepsBanks) (cond yes no : Expr)
    {lowerCond lowerYes lowerNo : Lowering} (hc : ConfinesAll lowerCond)
    (hy : ConfinesAll lowerYes) (hn : ConfinesAll lowerNo) (span : Span) (dst : Register) (ty : Ty)
    (hd : dst.bank ≠ .base) :
    Confines (choose s cond yes no lowerCond lowerYes lowerNo span dst ty) fun _ => True := by
  have arm (e : Expr) : Confines (armArrow s e) fun _ => True := by
    unfold armArrow
    split
    · exact emits_pure _ trivial
    · exact emits_fail _
  have call (f : Register) (arrow : Arrow) : Confines (invoke dst f arrow none ty span) fun _ => True :=
    confines_invoke dst f arrow none (by simp) ty span hd
  unfold choose
  apply emits_bind (arm yes); intro arrow _
  apply emits_bind (arm no); intro other _
  split
  · exact emits_fail _
  · apply emits_bind (emits_lift fun _ _ => trivial)
    intro constant? _
    split
    · apply emits_bind confines_temp; intro word hw
      refine emits_bind (Q := fun _ => True) (emits_releasing ?_) fun _ _ => call word arrow
      split
      · exact hy word _ hw
      · exact hn word _ hw
    · apply emits_bind (confines_truth hs cond hc); intro c _
      apply emits_bind confines_temp; intro t ht
      apply emits_bind (emits_releasing (hy t _ ht)); intro _ _
      apply emits_bind confines_temp; intro e he
      apply emits_bind (emits_releasing (hn e _ he)); intro _ _
      apply emits_bind (confines_triple .sub t t e ht (by simp [Operation.isArithmetic])); intro _ _
      apply emits_bind (confines_triple .mul t t c ht (by simp [Operation.isArithmetic])); intro _ _
      apply emits_bind (confines_triple .add t t e ht (by simp [Operation.isArithmetic])); intro _ _
      exact call t arrow

theorem confines_assign (hs : s.scope.KeepsBanks) (target : Expr) {lowered : Lowering}
    (hl : ConfinesAll lowered) : Confines (assign s target lowered) fun _ => True := by
  unfold assign
  split
  · exact emits_fail _
  · apply emits_bind (emits_lift fun _ hv => hv); intro v hv
    apply emits_bind (confines_variable hs hv); intro r hr
    apply emits_bind (emits_releasing (hl r v.ty hr)); intro _ _
    exact emits_pure _ trivial

theorem confines_copyVariable (dst : Register) (v : Variable) (ty : Ty) (hd : dst.bank ≠ .base) :
    Confines (copyVariable dst v ty) fun _ => True := by
  apply emits_bind (emits_register fun _ _ => trivial); intro src _
  exact confines_copy dst src _ _ hd

end Emit

/-! ## Expressions and statements -/

open Emit

variable {s : Site}

/-- A tuple that is not one expression in parentheses goes to the slots of its type. -/
theorem lower_tuple (fields : List (Labelled Expr)) (span : Span) (dst : Register) (ty : Ty)
    (h : ∀ value, fields ≠ [⟨none, value⟩]) :
    lower s (.tuple fields span) dst ty = match slots? ty fields.length with
      | some slots => lowerFields s fields slots dst
      | none =>
        fail (.semantic (.typeMismatch ty.render
          ("a tuple of " ++ toString fields.length ++ " fields") span)) := by
  rw [lower]
  all_goals first | rfl | exact fun value hv => h value hv

/-- A choice that lacks an arm has no code. -/
theorem lower_unpaired (lhs : Expr) {rhs : Expr} (unpaired : ¬ rhs.IsPair) (span : Span) (dst : Register)
    (ty : Ty) : lower s (.binary .choose lhs rhs span) dst ty =
      fail (.semantic (.invalidControl rhs.span)) := by
  rw [lower]
  intro _ _ _ _ _ eq
  rw [eq] at unpaired
  exact unpaired trivial

theorem confines_lowerFields {fields : List (Labelled Expr)}
    (h : ∀ field ∈ fields, ConfinesAll (lower s field.value)) (slots : List (Nat × Ty)) {dst : Register}
    (hd : dst.bank ≠ .base) : Confines (lowerFields s fields slots dst) fun _ => True := by
  induction fields generalizing slots with
  | nil =>
    rw [lowerFields]
    · exact emits_pure _ trivial
    · simp
  | cons field fields ih =>
    cases slots with
    | nil =>
      rw [lowerFields]
      · exact emits_pure _ trivial
      · simp
    | cons slot slots =>
      rw [lowerFields]
      apply emits_bind (confines_shift dst slot.1 hd); intro r hr
      apply emits_bind (emits_releasing (h field (by simp) r slot.2 hr)); intro _ _
      exact ih (fun other mem => h other (by simp [mem])) slots

theorem confines_lower (hs : s.scope.KeepsBanks) (e : Expr) : ConfinesAll (lower s e) := by
  induction e using Expr.of_forms with
  | int value span =>
    intro dst ty hd
    rw [lower]
    exact confines_loadInt dst value hd
  | hex value span =>
    intro dst ty hd
    rw [lower]
    exact confines_loadInt dst _ hd
  | text value span =>
    intro dst ty hd
    rw [lower]
    exact confines_text value span dst ty hd
  | name value span =>
    intro dst ty hd
    rw [lower]
    apply emits_bind (emits_lift fun _ _ => trivial); intro v _
    exact confines_copyVariable dst v ty hd
  | typeDecl =>
    intro dst ty hd
    rw [lower]
    exact emits_pure _ trivial
  | float | varDecl =>
    intro dst ty hd
    rw [lower]
    exact emits_fail _
  | function literal span =>
    intro dst ty hd
    rw [lower]
    exact confines_function s literal span dst hd
  | parens value span inner =>
    intro dst ty hd
    rw [lower]
    exact inner dst ty hd
  | tuple fields span several inner =>
    intro dst ty hd
    rw [lower_tuple fields span dst ty several]
    split
    · exact confines_lowerFields inner _ hd
    · exact emits_fail _
  | unary op operand span inner =>
    intro dst ty hd
    cases op with
    | neg =>
      rw [lower]
      apply emits_bind (emits_lift fun _ _ => trivial)
      intro constant? _
      split
      · exact confines_loadInt dst _ hd
      · apply emits_bind (confines_constant 0); intro zero _
        apply emits_bind (confines_operand hs operand inner); intro value _
        exact confines_triple .sub dst zero value hd (by simp [Operation.isArithmetic])
    | not =>
      rw [lower]
      apply emits_bind (confines_truth hs operand inner); intro value _
      exact confines_invert dst value hd
    | deref | ref => rw [lower]; exact emits_fail _
  | binary op lhs rhs span other hl hr =>
    intro dst ty hd
    cases op with
    | choose => exact absurd rfl other
    | call | apply => rw [lower]; exact confines_call lhs hl hr span dst ty hd
    | arithmetic op => rw [lower]; exact confines_arithmetic hs op _ lhs rhs hl hr dst hd
    | comparison op =>
      rw [lower]
      apply emits_bind (confines_operand hs lhs hl); intro a _
      apply emits_bind (confines_operand hs rhs hr); intro b _
      exact confines_compare op dst a b hd
    | connective op =>
      rw [lower]
      apply emits_bind (confines_truth hs lhs hl); intro a _
      apply emits_bind (confines_truth hs rhs hr); intro b _
      exact confines_connect op dst a b hd
    | field | index =>
      rw [lower]
      apply emits_bind (emits_lift fun _ _ => trivial); intro found _
      exact confines_copy dst found.1 _ _ hd
    | assign =>
      rw [lower]
      apply emits_bind (confines_assign hs lhs hr); intro v _
      split
      · exact emits_pure _ trivial
      · exact confines_copyVariable dst v ty hd
    | compose => rw [lower]; exact emits_fail _
  | choose cond yes no armsSpan span hc hy hn =>
    intro dst ty hd
    rw [lower]
    exact confines_choose hs cond yes.value no.value hc hy hn span dst ty hd
  | unpaired cond arms span lacks =>
    intro dst ty hd
    rw [lower_unpaired cond lacks]
    exact emits_fail _

theorem confines_statement (hs : s.scope.KeepsBanks) (isLast : Bool) (e : Expr) :
    Confines (lowerStatement s isLast e) fun _ => True := by
  unfold lowerStatement
  dsimp only
  split
  · exact emits_pure _ trivial
  · apply emits_bind (emits_lift fun v hv => hv); intro v hv
    apply emits_bind (confines_variable hs hv); intro r hr
    exact emits_releasing (confines_lower hs _ r v.ty hr)
  · apply emits_bind (confines_assign hs _ (confines_lower hs _)); intro _ _
    exact emits_pure _ trivial
  · split
    · exact emits_releasing (confines_lower hs _ _ _ (by decide))
    · apply emits_releasing
      apply emits_bind confines_temp; intro r hr
      exact emits_releasing (confines_lower hs _ r _ hr)

theorem confines_statements (hs : s.scope.KeepsBanks) (body : List Expr) :
    Confines (lowerStatements s body) fun _ => True := by
  fun_induction lowerStatements s body with
  | case1 => exact emits_pure _ trivial
  | case2 e => exact confines_statement hs true e
  | case3 e rest _ ih =>
    apply emits_bind (confines_statement hs false e); intro _ _
    exact ih

/-- The code of a scope is confined. -/
theorem confined_scopeCode {tree : ScopeTree} {id : Nat} {code : List Emitted}
    (hs : (tree.scope id).KeepsBanks) (h : scopeCode tree id = .ok code) :
    ∀ e ∈ code, e.instruction.Confined := by
  obtain ⟨size, -, h⟩ := except_bind_ok h
  obtain ⟨emission, he, h⟩ := except_bind_ok h
  cases h
  have site : (Site.scope ⟨tree, id⟩).KeepsBanks := hs
  have whole : Confines (do
      lowerStatements ⟨tree, id⟩ (Site.scope ⟨tree, id⟩).body
      Emit.push ⟨.ret, 0, 0⟩ : Emit Unit) fun _ => True := by
    apply emits_bind (confines_statements site _); intro _ _
    exact emits_push trivial
  exact (whole _ emission he).1

/-- All instructions of a program but the marker are confined. -/
theorem Laid.confined {tree : ScopeTree} {program : Program} (l : Laid tree program)
    (hs : ∀ id : Nat, (tree.scope id).KeepsBanks) : ∀ i ∈ l.linked, i.Confined := by
  intro i hi
  obtain ⟨e, he, hl⟩ := mapM_mem l.links hi
  have confined := l.forall_code (P := fun e => e.instruction.Confined)
    (fun id code hc => confined_scopeCode (hs id) hc) e he
  obtain ⟨op, x⟩ := link_ok hl
  unfold Instruction.Confined at confined ⊢
  rw [op, x]
  exact confined

end WindowedClosures
