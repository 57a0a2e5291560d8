import WindowedClosures.Proofs.Code.Confinement
import WindowedClosures.Proofs.Code.Counting
import WindowedClosures.Proofs.Code.Faults
import WindowedClosures.Proofs.Code.Laying
import WindowedClosures.Proofs.Scope.Forest

/-!
# What code asks of the functions of a program

Only the code of a function value asks for the address of a function, and only there a function can
be reported as unknown. So what is shown of the code of all function values, both of its
instructions and of its faults, holds of the code of every expression and every scope. No expression
returns: the return of a scope is the last of its instructions.
-/

namespace WindowedClosures

/-- A fault that reports a function as unknown. -/
def SemanticError.IsUnknownFunction : SemanticError → Prop
  | .unknownFunction .. => True
  | _ => False

def CompileError.IsUnknownFunction : CompileError → Prop
  | .semantic cause => cause.IsUnknownFunction
  | _ => False

theorem CompileError.not_isUnknownFunction_of_span? (e : CompileError) (h : e.span? = none) :
    ¬ e.IsUnknownFunction := by
  cases e with
  | semantic cause => cases h
  | _ => exact not_false

/-- Every node is harmless where only a function can be unknown. -/
theorem harmless_isUnknownFunction (n : Expr) : Harmless CompileError.IsUnknownFunction n where
  place e _ shape := by
    cases e with
    | semantic cause =>
      cases cause with
      | unknownFunction => exact absurd trivial shape
      | _ => exact not_false
    | _ => exact not_false
  composition _ _ _ _ := not_false
  control _ _ _ _ _ := not_false

/-- The operation neither returns nor makes a closure. -/
abbrev Operation.Plain (op : Operation) : Prop := op ∉ [.ret, .closureMake]

namespace Emit

/-! ## Emissions with a property -/

variable {α β : Type} {P : Emitted → Prop} {bad : CompileError → Prop}

/-- Whenever the emission succeeds its instructions satisfy `P`, and it does not fail in one of these
ways. -/
structure Clean (P : Emitted → Prop) (bad : CompileError → Prop) (m : Emit α) : Prop where
  emits : Emits P m fun _ => True
  never : Never bad m

/-- The property says nothing of plain instructions that ask for no address, and the faults are such
that have a place. -/
structure Mild (P : Emitted → Prop) (bad : CompileError → Prop) : Prop where
  plain : ∀ i arrow, i.op.Plain → P ⟨i, none, arrow⟩
  placeless : ∀ e : CompileError, e.span? = none → ¬ bad e

theorem clean_pure (a : α) : Clean P bad (pure a) := ⟨emits_pure a trivial, never_pure a⟩

theorem clean_bind {m : Emit α} {f : α → Emit β} (hm : Clean P bad m)
    (hf : ∀ a, Clean P bad (f a)) : Clean P bad (m >>= f) :=
  ⟨emits_bind hm.emits fun a _ => (hf a).emits, never_bind hm.never fun a => (hf a).never⟩

theorem clean_releasing {m : Emit α} (h : Clean P bad m) : Clean P bad (releasing m) := by
  refine ⟨emits_releasing h.emits, ?_⟩
  intro watermark e he
  refine h.never watermark e ?_
  unfold releasing at he
  split at he
  · cases he
  · rename_i hm
    cases he
    exact hm

theorem clean_forM {f : α → Emit Unit} (items : List α) (h : ∀ a ∈ items, Clean P bad (f a)) :
    Clean P bad (items.forM f) :=
  ⟨emits_forM items fun a ha => (h a ha).emits, never_forM items fun a ha => (h a ha).never⟩

theorem clean_fail {e : CompileError} (he : ¬ bad e) : Clean P bad (fail e : Emit α) :=
  ⟨emits_fail e, never_fail he⟩

theorem clean_lift {found : Except CompileError α} (hf : Avoids bad found) :
    Clean P bad (lift found) := by
  cases found with
  | ok a => exact clean_pure a
  | error e => exact clean_fail (hf e rfl)

theorem clean_ite {c : Prop} [Decidable c] {m n : Emit α} (hm : Clean P bad m)
    (hn : Clean P bad n) : Clean P bad (if c then m else n) := by
  split
  · exact hm
  · exact hn

section

variable (h : Mild P bad)

include h

theorem clean_register (found : Except RegisterOverflow Register) :
    Clean P bad (register found) := by
  cases found with
  | ok r => exact clean_pure r
  | error overflow => exact clean_fail (h.placeless _ rfl)

theorem clean_push {i : Instruction} (hi : i.op.Plain) : Clean P bad (push i) :=
  ⟨emits_push (h.plain i none hi), never_push i⟩

theorem clean_pushCall {i : Instruction} (arrow : Arrow) (hi : i.op.Plain) :
    Clean P bad (pushCall i arrow) := by
  refine ⟨emits_pushCall (h.plain i (some arrow) hi), ?_⟩
  intro watermark e he
  cases he

theorem clean_alloc (size : Nat) : Clean P bad (alloc size) := by
  refine ⟨emits_alloc size, ?_⟩
  intro watermark e he hb
  unfold alloc at he
  split at he
  · cases he
  · cases he
    exact h.placeless _ rfl hb

theorem clean_temp : Clean P bad temp :=
  clean_bind (clean_alloc h 1) fun _ => clean_register h _

theorem clean_triple {op : Operation} (hop : op.Plain) (x y z : Register) :
    Clean P bad (triple op x y z) := clean_push h hop

theorem clean_loadInt (dst : Register) (value : Int32) : Clean P bad (loadInt dst value) := by
  refine clean_bind (clean_push h ?_) fun _ => clean_ite (clean_push h ?_) (clean_pure _)
  · simp [Instruction.wide, Operation.Plain]
  · simp [Instruction.wide, Operation.Plain]

theorem clean_constant (value : Int32) : Clean P bad (constant value) :=
  clean_bind (clean_temp h) fun r => clean_bind (clean_loadInt h r value) fun _ => clean_pure r

theorem clean_copyFrom (dst src : Register) (start count : Nat) :
    Clean P bad (copyFrom dst src start count) := by
  induction count generalizing start with
  | zero => exact clean_pure _
  | succ count ih =>
    refine clean_bind (clean_register h _) fun slot => clean_bind (clean_register h _) fun origin => ?_
    exact clean_bind (clean_triple h (by decide) slot origin .first) fun _ => ih (start + 1)

theorem clean_copy (dst src : Register) (srcTy ty : Ty) : Clean P bad (copy dst src srcTy ty) :=
  clean_ite (clean_pure _) (clean_copyFrom h dst src 0 _)

theorem clean_copyVariable (dst : Register) (v : Variable) (ty : Ty) :
    Clean P bad (copyVariable dst v ty) :=
  clean_bind (clean_register h _) fun src => clean_copy h dst src _ ty

/-! ## Comparisons and truth values -/

theorem clean_xor (dst a b : Register) : Clean P bad (xor dst a b) := by
  refine clean_releasing (clean_bind (clean_temp h) fun t => clean_bind (clean_temp h) fun u =>
    clean_bind (clean_temp h) fun v => ?_)
  refine clean_bind (clean_triple h (by decide) t a b) fun _ => ?_
  refine clean_bind (clean_triple h (by decide) u a t) fun _ => ?_
  refine clean_bind (clean_triple h (by decide) v b t) fun _ => ?_
  exact clean_triple h (by decide) dst u v

theorem clean_less (dst a b : Register) : Clean P bad (less dst a b) := by
  refine clean_bind (clean_temp h) fun d => clean_bind (clean_temp h) fun x =>
    clean_bind (clean_temp h) fun y => ?_
  refine clean_bind (clean_triple h (by decide) d a b) fun _ => ?_
  refine clean_bind (clean_xor h x a b) fun _ => clean_bind (clean_xor h y d a) fun _ => ?_
  refine clean_bind (clean_triple h (by decide) x x y) fun _ => ?_
  refine clean_bind (clean_triple h (by decide) x x x) fun _ => ?_
  refine clean_bind (clean_xor h y d x) fun _ => clean_bind (clean_constant h 31) fun amount => ?_
  refine clean_bind (clean_triple h (by decide) y y amount) fun _ => ?_
  exact clean_triple h (by decide) dst y y

theorem clean_nonzero (dst value : Register) : Clean P bad (nonzero dst value) := by
  refine clean_bind (clean_constant h 0) fun zero => clean_bind (clean_temp h) fun n =>
    clean_bind (clean_temp h) fun c => ?_
  refine clean_bind (clean_triple h (by decide) n zero value) fun _ => ?_
  refine clean_bind (clean_triple h (by decide) n n n) fun _ => ?_
  refine clean_bind (clean_triple h (by decide) c value value) fun _ => ?_
  refine clean_bind (clean_triple h (by decide) dst c n) fun _ => ?_
  refine clean_bind (clean_constant h 31) fun amount => ?_
  refine clean_bind (clean_triple h (by decide) dst dst amount) fun _ => ?_
  exact clean_triple h (by decide) dst dst dst

theorem clean_invert (dst value : Register) : Clean P bad (invert dst value) := by
  refine clean_bind (clean_triple h (by decide) dst value value) fun _ => clean_push h ?_
  simp [Instruction.wide, Operation.Plain]

theorem clean_compare (op : Comparison) (dst a b : Register) :
    Clean P bad (Emit.compare op dst a b) := by
  cases op with
  | lt => exact clean_less h dst a b
  | gt => exact clean_less h dst b a
  | ge => exact clean_bind (clean_less h dst a b) fun _ => clean_invert h dst dst
  | le => exact clean_bind (clean_less h dst b a) fun _ => clean_invert h dst dst
  | ne =>
    refine clean_bind (clean_temp h) fun d => ?_
    exact clean_bind (clean_triple h (by decide) d a b) fun _ => clean_nonzero h dst d
  | eq =>
    refine clean_bind (clean_temp h) fun d => ?_
    refine clean_bind (clean_triple h (by decide) d a b) fun _ => ?_
    exact clean_bind (clean_nonzero h dst d) fun _ => clean_invert h dst dst

theorem clean_connect (op : Connective) (dst a b : Register) : Clean P bad (connect op dst a b) := by
  cases op with
  | and => exact clean_triple h (by decide) dst a b
  | or =>
    refine clean_bind (clean_temp h) fun na => clean_bind (clean_temp h) fun nb => ?_
    refine clean_bind (clean_triple h (by decide) na a a) fun _ => ?_
    refine clean_bind (clean_triple h (by decide) nb b b) fun _ => ?_
    exact clean_triple h (by decide) dst na nb

/-! ## Literals, operands and calls -/

theorem clean_text (value : String) {span : Span} (place : Spares bad span) (dst : Register)
    (ty : Ty) : Clean P bad (text value span dst ty) := by
  unfold text
  dsimp only
  split
  · exact clean_push h (by simp [Instruction.wide, Operation.Plain])
  · refine clean_ite (clean_fail (place _ rfl not_false)) ?_
    refine clean_forM _ fun indexed _ => ?_
    exact clean_bind (clean_register h _) fun r => clean_loadInt h r indexed.1

variable {s : Site}

/-- A lowering that is clean for every destination and shape. -/
abbrev CleanAll (P : Emitted → Prop) (bad : CompileError → Prop) (lowered : Lowering) : Prop :=
  ∀ dst ty, Clean P bad (lowered dst ty)

theorem clean_operand {e : Expr} (he : e.Spared bad) {lowered : Lowering}
    (hl : CleanAll P bad lowered) : Clean P bad (operand s e lowered) := by
  have inner := he.unwrapped
  unfold operand
  dsimp only
  split
  · refine clean_bind (clean_lift (s.lookup_avoids inner.place _)) fun v => ?_
    refine clean_bind (clean_lift (Site.checkIntegral_avoids inner.place _)) fun _ => ?_
    exact clean_register h _
  · refine clean_bind (clean_lift (constant?_avoids _ inner)) fun constant? => ?_
    split
    · exact clean_constant h _
    · split
      · rename_i eq
        rw [eq] at inner
        exact clean_fail (inner.place _ rfl not_false)
      · refine clean_bind (clean_temp h) fun r => ?_
        exact clean_bind (clean_releasing (hl r .int)) fun _ => clean_pure r

theorem clean_truth {e : Expr} (he : e.Spared bad) {lowered : Lowering}
    (hl : CleanAll P bad lowered) : Clean P bad (truth s e lowered) := by
  refine clean_ite (clean_operand h he.unwrapped hl) ?_
  refine clean_bind (clean_lift (constant?_avoids _ he.unwrapped)) fun constant? => ?_
  split
  · exact clean_constant h _
  · refine clean_bind (clean_operand h he.unwrapped hl) fun value => clean_bind (clean_temp h) fun t => ?_
    exact clean_bind (clean_nonzero h t value) fun _ => clean_pure t

theorem clean_operandIn {e : Expr} (he : e.Spared bad) {lowered : Lowering}
    (hl : CleanAll P bad lowered) (own : Bool) (dst : Register) :
    Clean P bad (operandIn s e lowered own dst) :=
  clean_ite (clean_operand h he hl)
    (clean_bind (clean_releasing (hl dst .int)) fun _ => clean_pure dst)

theorem clean_arithmetic (op : Arithmetic) {whole lhs rhs : Expr} (hw : whole.Spared bad)
    (left : lhs.Spared bad) (right : rhs.Spared bad) {lowerLhs lowerRhs : Lowering}
    (hl : CleanAll P bad lowerLhs) (hr : CleanAll P bad lowerRhs) (dst : Register) :
    Clean P bad (arithmetic s op whole lhs rhs lowerLhs lowerRhs dst) := by
  have combine (a b : Register) : Clean P bad (triple (operationOf op) dst a b) :=
    clean_triple h (by cases op <;> decide) dst a b
  refine clean_bind (clean_lift (constant?_avoids _ hw)) fun constant? => ?_
  split
  · exact clean_loadInt h dst _
  · dsimp only
    split
    · refine clean_bind (clean_lift (s.lookup_avoids left.unwrapped.place _)) fun l => ?_
      refine clean_bind (clean_lift (s.lookup_avoids right.unwrapped.place _)) fun r => ?_
      refine clean_ite ?_ (clean_fail (right.unwrapped.place.cause rfl not_false))
      refine clean_bind (clean_lift (Site.checkIntegral_avoids left.unwrapped.place _)) fun _ => ?_
      exact clean_bind (clean_register h _) fun a => clean_bind (clean_register h _) fun b =>
        combine a b
    · exact clean_bind (clean_operandIn h left.unwrapped hl _ dst) fun a =>
        clean_bind (clean_operandIn h right.unwrapped hr _ dst) fun b => combine a b

theorem clean_invoke (dst function : Register) (arrow : Arrow) (argument : Option Lowering)
    (ha : ∀ lowered ∈ argument, CleanAll P bad lowered) (ty : Ty) {span : Span}
    (at_ : Spares bad span) : Clean P bad (invoke dst function arrow argument ty span) := by
  have place (input : Nat) : Clean P bad (placeArgument argument input arrow.input) := by
    cases argument with
    | none => exact clean_pure _
    | some lowered =>
      exact clean_bind (clean_register h _) fun r => clean_releasing (ha lowered rfl r _)
  refine clean_ite (clean_fail (at_.cause rfl not_false)) ?_
  refine clean_bind (clean_alloc h _) fun frame => clean_bind (clean_alloc h _) fun input => ?_
  refine clean_bind (place input) fun _ => ?_
  refine clean_bind (clean_pushCall h arrow (by simp [Operation.Plain])) fun _ => ?_
  exact clean_bind (clean_register h _) fun output => clean_copy h dst output _ ty

theorem clean_print {lowered : Lowering} (hl : CleanAll P bad lowered) :
    Clean P bad (print lowered) := by
  refine clean_bind (clean_alloc h _) fun offset => clean_bind (clean_register h _) fun buffer => ?_
  refine clean_bind (clean_releasing (hl buffer printBuffer)) fun _ => clean_push h ?_
  simp [Instruction.wide, Operation.Plain]

theorem clean_call (ht : s.tree.Spared bad) {callee : Expr} (he : callee.Spared bad)
    {lowerCallee lowerArgument : Lowering} (hc : CleanAll P bad lowerCallee)
    (ha : CleanAll P bad lowerArgument) {span : Span} (at_ : Spares bad span) (dst : Register)
    (ty : Ty) : Clean P bad (call s callee lowerCallee lowerArgument span dst ty) := by
  have argument : ∀ lowered ∈ some lowerArgument, CleanAll P bad lowered := by
    intro lowered hm
    cases hm
    exact ha
  have inner := he.unwrapped
  unfold call
  dsimp only
  split
  · split
    · split
      · exact clean_bind (clean_register h _) fun f => clean_invoke h dst f _ _ argument ty at_
      · exact clean_fail (inner.place.cause rfl not_false)
    · exact clean_ite (clean_print h ha) (clean_fail (inner.place.cause rfl not_false))
  · split
    · rename_i e he
      exact clean_fail (ScopeTree.arrowOf_avoids ht _ inner e he)
    · refine clean_bind (clean_temp h) fun f => clean_bind (clean_releasing (hc f _)) fun _ => ?_
      exact clean_invoke h dst f _ _ argument ty at_

theorem clean_choose (ht : s.tree.Spared bad) {cond yes no : Expr} (sc : cond.Spared bad)
    (sy : yes.Spared bad) (sn : no.Spared bad) {lowerCond lowerYes lowerNo : Lowering}
    (hc : CleanAll P bad lowerCond) (hy : CleanAll P bad lowerYes) (hn : CleanAll P bad lowerNo)
    {span : Span} (at_ : Spares bad span) (dst : Register) (ty : Ty) :
    Clean P bad (choose s cond yes no lowerCond lowerYes lowerNo span dst ty) := by
  have arm {e : Expr} (he : e.Spared bad) : Clean P bad (armArrow s e) := by
    unfold armArrow
    split
    · exact clean_pure _
    · rename_i cause eq
      exact clean_fail (ScopeTree.arrowOf_avoids ht _ he cause eq)
  have call (f : Register) (arrow : Arrow) : Clean P bad (invoke dst f arrow none ty span) :=
    clean_invoke h dst f arrow none (by simp) ty at_
  refine clean_bind (arm sy) fun arrow => clean_bind (arm sn) fun other => ?_
  refine clean_ite (clean_fail (sn.place.cause rfl not_false)) ?_
  refine clean_bind (clean_lift (constant?_avoids _ sc)) fun constant? => ?_
  split
  · refine clean_bind (clean_temp h) fun word => ?_
    refine clean_bind (clean_releasing ?_) fun _ => call word arrow
    split
    · exact hy word _
    · exact hn word _
  · refine clean_bind (clean_truth h sc hc) fun c => clean_bind (clean_temp h) fun t => ?_
    refine clean_bind (clean_releasing (hy t _)) fun _ => clean_bind (clean_temp h) fun e => ?_
    refine clean_bind (clean_releasing (hn e _)) fun _ => ?_
    refine clean_bind (clean_triple h (by decide) t t e) fun _ => ?_
    refine clean_bind (clean_triple h (by decide) t t c) fun _ => ?_
    refine clean_bind (clean_triple h (by decide) t t e) fun _ => ?_
    exact call t arrow

theorem clean_assign {target : Expr} (st : target.Spared bad) {lowered : Lowering}
    (hl : CleanAll P bad lowered) : Clean P bad (assign s target lowered) := by
  unfold assign
  split
  · exact clean_fail (st.place _ rfl not_false)
  · refine clean_bind (clean_lift (s.lookup_avoids st.place _)) fun v => ?_
    refine clean_bind (clean_register h _) fun r => ?_
    exact clean_bind (clean_releasing (hl r v.ty)) fun _ => clean_pure v

end

end Emit

/-! ## Expressions and scopes -/

open Emit

variable {P : Emitted → Prop} {bad : CompileError → Prop} {s : Site}

/-- The code of the function values of some literals is clean. -/
def CleanLiterals (P : Emitted → Prop) (bad : CompileError → Prop) (s : Site)
    (literals : List FunctionLiteral) : Prop :=
  ∀ literal ∈ literals, ∀ span dst, Spares bad span → Clean P bad (function s literal span dst)

theorem CleanLiterals.left {a b : List FunctionLiteral} (h : CleanLiterals P bad s (a ++ b)) :
    CleanLiterals P bad s a := fun literal hl => h literal (List.mem_append_left b hl)

theorem CleanLiterals.right {a b : List FunctionLiteral} (h : CleanLiterals P bad s (a ++ b)) :
    CleanLiterals P bad s b := fun literal hl => h literal (List.mem_append_right a hl)

theorem CleanLiterals.field {fields : List (Labelled Expr)}
    (h : CleanLiterals P bad s (Expr.literalsOfFields fields)) {field : Labelled Expr}
    (mem : field ∈ fields) : CleanLiterals P bad s field.value.literals :=
  fun literal hl => h literal (Expr.mem_literalsOfFields mem hl)

theorem clean_lowerFields (h : Mild P bad) {fields : List (Labelled Expr)}
    (hf : ∀ field ∈ fields, CleanAll P bad (lower s field.value)) (slots : List (Nat × Ty))
    (dst : Register) : Clean P bad (lowerFields s fields slots dst) := by
  induction fields generalizing slots with
  | nil =>
    rw [lowerFields]
    · exact clean_pure _
    · simp
  | cons field fields ih =>
    cases slots with
    | nil =>
      rw [lowerFields]
      · exact clean_pure _
      · simp
    | cons slot slots =>
      rw [lowerFields]
      refine clean_bind (clean_register h _) fun r => ?_
      refine clean_bind (clean_releasing (hf field (by simp) r slot.2)) fun _ => ?_
      exact ih (fun other mem => hf other (by simp [mem])) slots

/-- Code is clean if the code of the function values in it is. -/
theorem clean_lower (h : Mild P bad) (ht : s.tree.Spared bad) (e : Expr) (he : e.Spared bad)
    (literals : CleanLiterals P bad s e.literals) : CleanAll P bad (lower s e) := by
  induction e using Expr.of_forms with
  | int value span =>
    intro dst ty
    rw [lower]
    exact clean_loadInt h dst value
  | hex value span =>
    intro dst ty
    rw [lower]
    exact clean_loadInt h dst _
  | float | varDecl =>
    intro dst ty
    rw [lower]
    exact clean_fail (he.place _ rfl not_false)
  | text value span =>
    intro dst ty
    rw [lower]
    exact clean_text h value he.place dst ty
  | name value span =>
    intro dst ty
    rw [lower]
    exact clean_bind (clean_lift (s.lookup_avoids he.place _)) fun v => clean_copyVariable h dst v ty
  | typeDecl =>
    intro dst ty
    rw [lower]
    exact clean_pure _
  | function literal span =>
    intro dst ty
    rw [lower]
    exact literals literal (by simp [Expr.literals]) span dst he.place
  | parens value span inner =>
    intro dst ty
    rw [Expr.literals] at literals
    rw [lower]
    have mem : (⟨none, value⟩ : Labelled Expr) ∈ [⟨none, value⟩] := List.mem_singleton_self _
    exact inner (he.field mem) (literals.field mem) dst ty
  | tuple fields span several inner =>
    intro dst ty
    rw [Expr.literals] at literals
    rw [lower_tuple fields span dst ty several]
    split
    · exact clean_lowerFields h (fun f hf => inner f hf (he.field hf) (literals.field hf)) _ dst
    · exact clean_fail (he.place.cause rfl not_false)
  | unary op operand span inner =>
    intro dst ty
    rw [Expr.literals] at literals
    have inner := inner he.operand literals
    cases op with
    | neg =>
      rw [lower]
      refine clean_bind (clean_lift (constant?_avoids _ he)) fun constant? => ?_
      split
      · exact clean_loadInt h dst _
      · refine clean_bind (clean_constant h 0) fun zero => ?_
        refine clean_bind (clean_operand h he.operand inner) fun value => ?_
        exact clean_triple h (by decide) dst zero value
    | not =>
      rw [lower]
      exact clean_bind (clean_truth h he.operand inner) fun value => clean_invert h dst value
    | deref | ref => rw [lower]; exact clean_fail (he.place _ rfl not_false)
  | binary op lhs rhs span other hl hr =>
    intro dst ty
    rw [Expr.literals] at literals
    have hl := hl he.left literals.left
    have hr := hr he.right literals.right
    cases op with
    | choose => exact absurd rfl other
    | call | apply => rw [lower]; exact clean_call h ht he.left hl hr he.place dst ty
    | arithmetic op => rw [lower]; exact clean_arithmetic h op he he.left he.right hl hr dst
    | comparison op =>
      rw [lower]
      exact clean_bind (clean_operand h he.left hl) fun a =>
        clean_bind (clean_operand h he.right hr) fun b => clean_compare h op dst a b
    | connective op =>
      rw [lower]
      exact clean_bind (clean_truth h he.left hl) fun a =>
        clean_bind (clean_truth h he.right hr) fun b => clean_connect h op dst a b
    | field | index =>
      rw [lower]
      exact clean_bind (clean_lift (s.place_avoids h.placeless _ he)) fun found =>
        clean_copy h dst found.1 _ _
    | assign =>
      rw [lower]
      refine clean_bind (clean_assign h he.left hr) fun v => ?_
      exact clean_ite (clean_pure _) (clean_copyVariable h dst v ty)
    | compose =>
      rw [lower]
      exact clean_fail ((he _ (Expr.mem_nodes_self _)).composition lhs rhs span rfl)
  | choose cond yes no armsSpan span hc hy hn =>
    intro dst ty
    have sy : yes.value.Spared bad := he.right.field (List.mem_cons_self ..)
    have sn : no.value.Spared bad := he.right.field (List.mem_cons_of_mem _ (List.mem_cons_self ..))
    simp only [Expr.literals, Expr.literalsOfFields, List.append_nil] at literals
    rw [lower]
    exact clean_choose h ht he.left sy sn (hc he.left literals.left) (hy sy literals.right.left)
      (hn sn literals.right.right) he.place dst ty
  | unpaired cond arms span lacks =>
    intro dst ty
    rw [lower_unpaired cond lacks]
    exact clean_fail ((he _ (Expr.mem_nodes_self _)).control cond arms span rfl lacks)

theorem clean_statement (h : Mild P bad) (ht : s.tree.Spared bad) (isLast : Bool) {e : Expr}
    (he : e.Spared bad) (hl : CleanLiterals P bad s e.literals) :
    Clean P bad (lowerStatement s isLast e) := by
  have whole := clean_lower h ht e he hl
  unfold lowerStatement
  dsimp only
  split
  · exact clean_pure _
  · rw [Expr.literals] at hl
    refine clean_bind (clean_lift (s.lookup_avoids he.place _)) fun v => ?_
    refine clean_bind (clean_register h _) fun r => clean_releasing ?_
    exact clean_lower h ht _ he.value hl r v.ty
  · rw [Expr.literals] at hl
    exact clean_bind (clean_assign h he.left (clean_lower h ht _ he.right hl.right)) fun _ =>
      clean_pure _
  · refine clean_ite (clean_releasing (whole _ _)) (clean_releasing ?_)
    exact clean_bind (clean_temp h) fun r => clean_releasing (whole r .void)

theorem clean_statements (h : Mild P bad) (ht : s.tree.Spared bad) (body : List Expr) :
    (∀ e ∈ body, e.Spared bad) → CleanLiterals P bad s (literalsOf body) →
      Clean P bad (lowerStatements s body) := by
  fun_induction lowerStatements s body with
  | case1 => exact fun _ _ => clean_pure _
  | case2 e => exact fun he hl => clean_statement h ht true (he e (by simp)) (by simpa using hl)
  | case3 e rest _ ih =>
    intro he hl
    rw [literalsOf_cons] at hl
    refine clean_bind (clean_statement h ht false (he e (by simp)) hl.left) fun _ => ?_
    exact ih (fun e hm => he e (by simp [hm])) hl.right

/-- The code of a scope is that of its statements and a return. -/
theorem scopeCode_ok {tree : ScopeTree} {id : Nat} {code : List Emitted}
    (h : scopeCode tree id = .ok code) :
    ∃ result, lowerStatements ⟨tree, id⟩ (tree.scope id).body (tree.scope id).size = .ok result ∧
      code = result.code ++ [⟨⟨.ret, 0, 0⟩, none, none⟩] := by
  obtain ⟨size, counts, h⟩ := except_bind_ok h
  obtain ⟨rfl, -⟩ := Scope.counted_ok (Site.inWindow_eq_ok_iff.mp counts)
  obtain ⟨emission, he, h⟩ := except_bind_ok h
  cases h
  obtain ⟨first, second, hs, hp, rfl⟩ := bind_ok he
  rw [push_ok hp]
  exact ⟨first, hs, rfl⟩

/-- Code is made for a scope only if its size is counted without an overflow. -/
theorem counted_of_scopeCode {tree : ScopeTree} {id : Nat} {code : List Emitted}
    (h : scopeCode tree id = .ok code) : (tree.scope id).counted = .ok (tree.scope id).size := by
  obtain ⟨size, counts, -⟩ := except_bind_ok h
  have counts := Site.inWindow_eq_ok_iff.mp counts
  obtain ⟨rfl, -⟩ := Scope.counted_ok counts
  exact counts

theorem scopeCode_avoids {tree : ScopeTree} {id : Nat}
    (placeless : ∀ e : CompileError, e.span? = none → ¬ bad e)
    (h : Never bad (lowerStatements ⟨tree, id⟩ (tree.scope id).body)) :
    Avoids bad (scopeCode tree id) := by
  have whole : Never bad (do
      lowerStatements ⟨tree, id⟩ (tree.scope id).body
      Emit.push ⟨.ret, 0, 0⟩ : Emit Unit) := never_bind h fun _ => never_push _
  refine avoids_bind (Site.inWindow_avoids placeless _) fun size => ?_
  exact avoids_bind (fun e he => whole size e he) fun _ => avoids_ok _

/-! ## Which functions a scope asks for -/

/-- The instruction does not return. If it asks for an address it makes the value of one of the
literals: a bare address, or a closure if the literal captures something; and a closure is not made
without an address. -/
structure Asks (tree : ScopeTree) (literals : List FunctionLiteral) (e : Emitted) : Prop where
  goes_on : e.instruction.op ≠ .ret
  makes : e.instruction.op = .closureMake → e.target.isSome
  target : ∀ i, e.target = some i → ∃ literal ∈ literals, literal.id = i ∧ e.instruction.op =
    if (tree.scope literal.scope).closure.isEmpty then .loadLow else .closureMake

theorem mild_asks (tree : ScopeTree) (literals : List FunctionLiteral)
    (placeless : ∀ e : CompileError, e.span? = none → ¬ bad e) : Mild (Asks tree literals) bad where
  plain i _ hi := by
    simp only [Operation.Plain, List.mem_cons, List.not_mem_nil, or_false, not_or] at hi
    exact ⟨hi.1, fun makes => absurd makes hi.2, fun _ h => by cases h⟩
  placeless := placeless

theorem clean_pushFor {i : Instruction} {function : Nat} (h : P ⟨i, some function, none⟩) :
    Clean P bad (pushFor i function) := ⟨emits_pushFor h, never_pushFor i function⟩

theorem clean_function {literal : FunctionLiteral} {literals : List FunctionLiteral}
    (hl : literal ∈ literals) (placeless : ∀ e : CompileError, e.span? = none → ¬ bad e)
    {span : Span} (known : (s.tree.function? literal.id).isNone →
      ¬ bad (.semantic (.unknownFunction literal.id span))) (place : Spares bad span) (dst : Register) :
    Clean (Asks s.tree literals) bad (function s literal span dst) := by
  have mild := mild_asks s.tree literals placeless
  unfold function
  split
  · rename_i unknown
    exact clean_fail (known unknown)
  dsimp only
  split
  · rename_i bare
    refine clean_pushFor ⟨by simp [Instruction.wide], fun _ => rfl, ?_⟩
    rintro i ⟨⟩
    exact ⟨literal, hl, rfl, by simp [bare, Instruction.wide]⟩
  · rename_i captures
    refine clean_bind (clean_pushFor ⟨by simp [Instruction.wide], fun _ => rfl, ?_⟩) fun _ => ?_
    · rintro i ⟨⟩
      exact ⟨literal, hl, rfl, by simp [captures, Instruction.wide]⟩
    · refine clean_forM _ fun v _ => ?_
      refine clean_bind (clean_lift (s.lookup_avoids place _)) fun u => ?_
      refine clean_bind (clean_register mild _) fun origin => ?_
      exact clean_bind (clean_register mild _) fun slot => clean_copyFrom mild _ _ _ _

/-- The statements of a scope ask for the literals in them, and have no bad fault if their nodes
have none and these are functions of the program. -/
theorem clean_body {tree : ScopeTree} {id : Nat}
    (placeless : ∀ e : CompileError, e.span? = none → ¬ bad e) (spared : tree.Spared bad)
    (known : ∀ literal ∈ literalsOf (tree.scope id).body, ∀ span, Spares bad span →
      (tree.function? literal.id).isNone → ¬ bad (.semantic (.unknownFunction literal.id span))) :
    Clean (Asks tree (literalsOf (tree.scope id).body)) bad
      (lowerStatements ⟨tree, id⟩ (tree.scope id).body) :=
  clean_statements (mild_asks _ _ placeless) spared _ (spared id) fun literal hl span dst place =>
    clean_function (s := ⟨tree, id⟩) hl placeless (known literal hl span place) place dst

theorem layBlocks_avoids {tree : ScopeTree}
    (placeless : ∀ e : CompileError, e.span? = none → ¬ bad e)
    (codes : ∀ id, Avoids bad (scopeCode tree id)) (functions : List Function) (start : Nat) :
    Avoids bad (layBlocks tree start functions) := by
  induction functions generalizing start with
  | nil => exact avoids_ok _
  | cons f rest ih =>
    rw [layBlocks]
    refine avoids_bind (avoids_ite (avoids_ok _) (avoids_error (placeless _ rfl))) fun _ => ?_
    refine avoids_bind (codes f.scope) fun code => ?_
    exact avoids_bind (ih _) fun _ => avoids_ok _

/-- A program has no bad fault if the code of no scope has one, and a function that code asks for is
listed or is not bad to miss. -/
theorem compile_avoids {tree : ScopeTree} (placeless : ∀ e : CompileError, e.span? = none → ¬ bad e)
    (codes : ∀ id, Avoids bad (scopeCode tree id))
    (known : ∀ id code, scopeCode tree id = .ok code → ∀ e ∈ code, ∀ i, e.target = some i →
      (∃ f ∈ tree.functions, f.id = i) ∨ ¬ bad (.semantic (.unknownFunction i .zero))) :
    Avoids bad tree.compile := by
  intro e fails
  unfold ScopeTree.compile at fails
  rcases except_bind_error fails with fails | ⟨⟨blocks, start⟩, laid, fails⟩
  · exact layBlocks_avoids placeless codes _ _ e fails
  rcases except_bind_error fails with fails | ⟨entry, -, fails⟩
  · exact avoids_ite (avoids_ok _) (avoids_error (placeless _ rfl)) e fails
  rcases except_bind_error fails with fails | ⟨body, main, fails⟩
  · exact codes ScopeTree.rootId e fails
  dsimp only at fails
  split at fails
  · cases fails
    exact placeless _ rfl
  rcases except_bind_error fails with fails | ⟨linked, -, fails⟩
  · obtain ⟨emitted, mem, fails⟩ := mapM_error fails
    unfold link at fails
    split at fails
    · cases fails
    · rename_i i target
      split at fails
      · cases fails
      · rename_i absent
        cases fails
        -- the code of which scope asks does not matter
        have asked : (∃ f ∈ tree.functions, f.id = i) ∨
            ¬ bad (.semantic (.unknownFunction i .zero)) := by
          rcases List.mem_append.mp mem with mem | mem
          · obtain ⟨b, hb, mem⟩ := List.mem_flatMap.mp mem
            obtain ⟨before, after, split⟩ := List.append_of_mem hb
            obtain ⟨-, f, -, -, code⟩ := (layBlocks_ok laid).2 before b after split
            exact known f.scope b.code code emitted mem i target
          · exact known ScopeTree.rootId body main emitted mem i target
        rcases asked with ⟨f, hf, rfl⟩ | harmless
        · have labelled : (f.id, f.name) ∈
              (blocks.map (·.label)).map fun l => (l.id, l.name) := by
            rw [layBlocks_labels laid]
            exact List.mem_map.mpr ⟨f, by simpa using hf, rfl⟩
          obtain ⟨label, hl, eq⟩ := List.mem_map.mp labelled
          have differs := List.find?_eq_none.mp absent label hl
          simp only [Prod.mk.injEq] at eq
          simp [eq.1] at differs
        · exact harmless
  · cases fails

end WindowedClosures
