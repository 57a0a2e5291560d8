import WindowedClosures.Code.Place
import WindowedClosures.Proofs.Expr.Nodes

/-!
# Faults that do not happen

Which faults looking at an expression can have. A fault points at the expression or at one inside
it. Three kinds depend on the shape of the program: a composition that is still there, a choice
without two arms, and a function that is not known. So a set of faults is avoided if the places of
all nodes and the shapes of all nodes avoid it.
-/

namespace WindowedClosures

/-- The result is no fault of one of these kinds. -/
def Avoids {ε α : Type} (bad : ε → Prop) (result : Except ε α) : Prop :=
  ∀ e, result = .error e → ¬ bad e

section

variable {ε α β : Type} {bad : ε → Prop}

theorem avoids_ok (a : α) : Avoids bad (.ok a : Except ε α) := by
  intro e h
  cases h

theorem avoids_error {e : ε} (h : ¬ bad e) : Avoids bad (.error e : Except ε α) := by
  intro e' he
  cases he
  exact h

theorem avoids_bind {x : Except ε α} {f : α → Except ε β} (hx : Avoids bad x)
    (hf : ∀ a, Avoids bad (f a)) : Avoids bad (x >>= f) := by
  intro e h
  cases x with
  | error _ =>
    cases h
    exact hx e rfl
  | ok a => exact hf a e h

theorem avoids_ite {c : Prop} [Decidable c] {x y : Except ε α} (hx : Avoids bad x)
    (hy : Avoids bad y) : Avoids bad (if c then x else y) := by
  split
  · exact hx
  · exact hy

end

/-! ## Places and shapes -/

/-- A fault that depends on the shape of the program. -/
def SemanticError.OfShape : SemanticError → Prop
  | .unknownFunction .. | .invalidControl _ | .unresolvedComposition _ => True
  | _ => False

def CompileError.OfShape : CompileError → Prop
  | .semantic cause => cause.OfShape
  | _ => False

/-- No fault at a place is bad, faults of shape apart. -/
def Spares (bad : CompileError → Prop) (span : Span) : Prop :=
  ∀ e : CompileError, e.span? = some span → ¬ e.OfShape → ¬ bad e

/-- A node whose place and shape give no bad fault. -/
structure Harmless (bad : CompileError → Prop) (n : Expr) : Prop where
  place : Spares bad n.span
  composition : ∀ f g span, n = .binary .compose f g span →
    ¬ bad (.semantic (.unresolvedComposition span))
  control : ∀ cond arms span, n = .binary .choose cond arms span → ¬ arms.IsPair →
    ¬ bad (.semantic (.invalidControl arms.span))

/-- An expression all of whose nodes are harmless. -/
def Expr.Spared (bad : CompileError → Prop) (e : Expr) : Prop := ∀ n ∈ e.nodes, Harmless bad n

namespace Expr.Spared

variable {bad : CompileError → Prop} {e lhs rhs : Expr} {op : BinaryOp} {sign : UnaryOp}
  {declared : String} {type : TypeExpr} {span : Span} {fields : List (Labelled Expr)}

theorem place (h : e.Spared bad) : Spares bad e.span := (h e e.mem_nodes_self).place

theorem left (h : (Expr.binary op lhs rhs span).Spared bad) : lhs.Spared bad :=
  fun n hn => h n (by simp [nodes, hn])

theorem right (h : (Expr.binary op lhs rhs span).Spared bad) : rhs.Spared bad :=
  fun n hn => h n (by simp [nodes, hn])

theorem operand (h : (Expr.unary sign e span).Spared bad) : e.Spared bad :=
  fun n hn => h n (by simp [nodes, hn])

theorem value (h : (Expr.varDecl declared type e span).Spared bad) : e.Spared bad :=
  fun n hn => h n (by simp [nodes, hn])

theorem field (h : (Expr.tuple fields span).Spared bad) {f : Labelled Expr} (hf : f ∈ fields) :
    f.value.Spared bad := by
  intro n hn
  refine h n ?_
  simp only [nodes, nodesOfFields_eq, List.mem_cons, List.mem_flatMap]
  exact .inr ⟨f, hf, hn⟩

theorem unwrapped (h : e.Spared bad) : e.unwrapped.Spared bad := fun n hn => h n (nodes_unwrapped hn)

end Expr.Spared

/-- All statements of all scopes are spared. -/
def ScopeTree.Spared (bad : CompileError → Prop) (tree : ScopeTree) : Prop :=
  ∀ id, ∀ e ∈ (tree.scope id).body, e.Spared bad

variable {bad : CompileError → Prop} {span : Span}

/-- A fault of meaning that is bad. -/
abbrev BadCause (bad : CompileError → Prop) (cause : SemanticError) : Prop := bad (.semantic cause)

theorem Spares.cause (h : Spares bad span) {cause : SemanticError} (eq : cause.span = span)
    (shape : ¬ cause.OfShape) : ¬ bad (.semantic cause) :=
  h (.semantic cause) (congrArg some eq) shape

/-! ## Types of expressions -/

theorem calleeArrow_avoids (h : Spares bad span) (ty : Ty) :
    Avoids (BadCause bad) (calleeArrow ty span) := by
  unfold calleeArrow
  split
  · exact avoids_ok _
  · exact avoids_error (h.cause rfl not_false)

namespace ScopeTree

variable {tree : ScopeTree} {armType : ScopeId → Except SemanticError Ty}

theorem inferFieldsWith_avoids {id : ScopeId} {fields : List (Labelled Expr)}
    (h : ∀ field ∈ fields, Avoids (BadCause bad) (tree.inferWith armType id field.value)) :
    Avoids (BadCause bad) (tree.inferFieldsWith armType id fields) := by
  induction fields with
  | nil =>
    rw [inferFieldsWith]
    exact avoids_ok _
  | cons field fields ih =>
    rw [inferFieldsWith]
    refine avoids_bind (h field (by simp)) fun _ => ?_
    exact avoids_bind (ih fun other mem => h other (by simp [mem])) fun _ => avoids_ok _

theorem inferWith_avoids (harm : ∀ id, Avoids (BadCause bad) (armType id)) (id : ScopeId) (e : Expr)
    (h : e.Spared bad) : Avoids (BadCause bad) (tree.inferWith armType id e) := by
  induction e using Expr.of_forms with
  | int | hex | float | text | typeDecl | varDecl | function => rw [inferWith]; exact avoids_ok _
  | name value span =>
    rw [inferWith]
    split
    · exact avoids_ok _
    · exact avoids_error (h.place.cause rfl not_false)
  | parens value span inner =>
    rw [inferWith]
    exact inner (h.field (List.mem_singleton_self _))
  | tuple fields span several inner =>
    rw [inferWith]
    · exact avoids_bind (inferFieldsWith_avoids fun f hf => inner f hf (h.field hf)) fun _ => avoids_ok _
    · exact several
  | unary op operand span inner =>
    have inner := inner h.operand
    cases op with
    | not => rw [inferWith]; exact avoids_ok _
    | neg => rw [inferWith]; exact inner
    | ref => rw [inferWith]; exact avoids_bind inner fun _ => avoids_ok _
    | deref =>
      rw [inferWith]
      refine avoids_bind inner fun ty => ?_
      split
      · exact avoids_ok _
      · exact avoids_error (h.operand.place.cause rfl not_false)
  | binary op lhs rhs span other left right =>
    have left := left h.left
    have right := right h.right
    have called : Avoids (BadCause bad) (do
        let arrow ← calleeArrow (← tree.inferWith armType id lhs) lhs.span
        .ok arrow.output : Except SemanticError Ty) :=
      avoids_bind left fun _ => avoids_bind (calleeArrow_avoids h.left.place _) fun _ => avoids_ok _
    cases op with
    | choose => exact absurd rfl other
    | arithmetic op => rw [inferWith]; exact left
    | comparison op | connective op | assign => rw [inferWith]; exact avoids_ok _
    | call | apply => rw [inferWith]; exact avoids_ite (avoids_ok _) called
    | compose =>
      rw [inferWith]
      refine avoids_bind left fun _ => avoids_bind (calleeArrow_avoids h.left.place _) fun _ => ?_
      exact avoids_bind right fun _ =>
        avoids_bind (calleeArrow_avoids h.right.place _) fun _ => avoids_ok _
    | field =>
      rw [inferWith]
      refine avoids_bind left fun base => ?_
      dsimp only
      split
      · exact avoids_ok _
      · exact avoids_error (h.place.cause rfl not_false)
    | index =>
      rw [inferWith]
      refine avoids_bind left fun ty => ?_
      split
      · exact avoids_ok _
      · exact avoids_error (h.left.place.cause rfl not_false)
  | choose cond yes no armsSpan span _ hy _ =>
    rw [inferWith]
    split
    · exact avoids_ite (harm _) (avoids_ok _)
    · exact hy (h.right.field (List.mem_cons_self ..))
  | unpaired cond arms span lacks =>
    rw [inferWith]
    · exact avoids_error ((h _ (Expr.mem_nodes_self _)).control cond arms span rfl lacks)
    · intro _ _ _ _ eq
      rw [eq] at lacks
      exact lacks trivial

theorem bodyType_avoids (h : tree.Spared bad) (levels : Nat) (id : ScopeId) :
    Avoids (BadCause bad) (tree.bodyType levels id) := by
  induction levels generalizing id with
  | zero => exact avoids_ok _
  | succ levels ih =>
    rw [bodyType]
    split
    · rename_i last eq
      exact inferWith_avoids ih id last (h id last (List.mem_of_getLast? eq))
    · exact avoids_ok _

theorem infer_avoids (h : tree.Spared bad) (id : ScopeId) {e : Expr} (he : e.Spared bad) :
    Avoids (BadCause bad) (tree.infer id e) :=
  inferWith_avoids (bodyType_avoids h _) id e he

theorem arrowOf_avoids (h : tree.Spared bad) (id : ScopeId) {e : Expr} (he : e.Spared bad) :
    Avoids (BadCause bad) (tree.arrowOf id e) :=
  avoids_bind (infer_avoids h id he) fun _ => calleeArrow_avoids he.place _

end ScopeTree

/-! ## Constants and places in the window -/

theorem constant?_avoids (e : Expr) : e.Spared bad → Avoids bad e.constant? := by
  fun_induction Expr.constant? e with
  | case1 | case2 => exact fun _ => avoids_ok _
  | case3 value _ ih => exact fun h => ih (h.field (List.mem_singleton_self _))
  | case4 operand _ ih => exact fun h => avoids_bind (ih h.operand) fun _ => avoids_ok _
  | case5 op lhs rhs span ihl ihr =>
    intro h
    refine avoids_bind (ihl h.left) fun a => avoids_bind (ihr h.right) fun b => ?_
    split
    · split
      · exact avoids_ok _
      · exact avoids_error (h.place _ rfl not_false)
    · exact avoids_ok _
  | case6 => exact fun _ => avoids_ok _

namespace Site

variable (s : Site)

theorem lookup_avoids (h : Spares bad span) (name : String) : Avoids bad (s.lookup name span) := by
  unfold lookup
  split
  · exact avoids_ok _
  · exact avoids_error (h.cause rfl not_false)

theorem inWindow_avoids {α : Type} (h : ∀ e : CompileError, e.span? = none → ¬ bad e)
    (result : Except RegisterOverflow α) : Avoids bad (inWindow result) := by
  unfold inWindow
  split
  · exact avoids_ok _
  · exact avoids_error (h _ rfl)

theorem checkIntegral_avoids (h : Spares bad span) (v : Variable) :
    Avoids bad (checkIntegral v span) := by
  unfold checkIntegral
  split
  · exact avoids_error (h _ rfl not_false)
  · split
    · exact avoids_ok _
    · exact avoids_error (h.cause rfl not_false)

theorem place_avoids (placeless : ∀ e : CompileError, e.span? = none → ¬ bad e) (e : Expr) :
    e.Spared bad → Avoids bad (s.place e) := by
  fun_induction place s e with
  | case1 value span =>
    intro h
    refine avoids_bind (s.lookup_avoids h.place value) fun v => ?_
    refine avoids_bind (inWindow_avoids placeless _) fun _ => ?_
    exact avoids_bind (inWindow_avoids placeless _) fun _ => avoids_ok _
  | case2 value _ ih => exact fun h => ih (h.field (List.mem_singleton_self _))
  | case3 lhs rhs span ih =>
    intro h
    refine avoids_bind (ih h.left) fun base => ?_
    dsimp only
    split
    · exact avoids_error (h.place.cause rfl not_false)
    · exact avoids_bind (inWindow_avoids placeless _) fun _ => avoids_ok _
  | case4 lhs rhs span ih =>
    intro h
    refine avoids_bind (ih h.left) fun base => ?_
    dsimp only
    cases base.2.resolved with
    | array elem count =>
      refine avoids_ite (avoids_error (h.place _ rfl not_false)) ?_
      refine avoids_bind (constant?_avoids rhs h.right) fun index => ?_
      cases index with
      | none => exact avoids_error (h.right.place _ rfl not_false)
      | some index =>
        refine avoids_ite (avoids_error (h.right.place _ rfl not_false)) ?_
        exact avoids_bind (inWindow_avoids placeless _) fun _ => avoids_ok _
    | _ => exact avoids_error (h.left.place.cause rfl not_false)
  | case5 => exact fun h => avoids_error (h.place _ rfl not_false)

end Site

end WindowedClosures
