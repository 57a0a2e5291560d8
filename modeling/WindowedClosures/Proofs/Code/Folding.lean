import WindowedClosures.Proofs.Code.Evaluation
import WindowedClosures.Proofs.Expr.Nodes
import WindowedClosures.Proofs.Machine.Passage
import WindowedClosures.Proofs.Machine.Runs
import WindowedClosures.Proofs.Scope.Enumeration

/-!
# Folding numbers

An expression of integer literals, negation, arithmetic and parentheses is worth the same number
whether it is computed with integers that are wrapped to words, by the operations of the machine or by
the generator, which loads the number it found. So a program that declares a variable with such a value
computes nothing, and it is refused exactly if a division in the value has the divisor zero.
-/

namespace WindowedClosures

open Emit

/-- The quotient and remainder go toward zero; by zero there are none. -/
def Arithmetic.onIntegers? (op : Arithmetic) (a b : Int) : Option Int :=
  match op with
  | .add => some (a + b)
  | .sub => some (a - b)
  | .mul => some (a * b)
  | .div => if b = 0 then none else some (a.tdiv b)
  | .mod => if b = 0 then none else some (a.tmod b)

namespace Expr

/-- Expressions of integer literals, negation, arithmetic and parentheses. -/
inductive Numeric : Expr → Prop
  | int (n : Int32) (span : Span) : Numeric (.int n span)
  | hex (n : UInt32) (span : Span) : Numeric (.hex n span)
  | parens {e : Expr} (span : Span) (inner : Numeric e) : Numeric (.tuple [⟨none, e⟩] span)
  | neg {e : Expr} (span : Span) (inner : Numeric e) : Numeric (.unary .neg e span)
  | arithmetic (op : Arithmetic) {lhs rhs : Expr} (span : Span) (left : Numeric lhs)
    (right : Numeric rhs) : Numeric (.binary (.arithmetic op) lhs rhs span)

/-- Whether an expression is one of those. -/
def isNumeric : Expr → Bool
  | .int _ _ => true
  | .hex _ _ => true
  | .tuple [⟨none, e⟩] _ => e.isNumeric
  | .unary .neg e _ => e.isNumeric
  | .binary (.arithmetic _) lhs rhs _ => lhs.isNumeric && rhs.isNumeric
  | _ => false

theorem isNumeric_iff {e : Expr} : e.isNumeric = true ↔ e.Numeric := by
  constructor
  · intro h
    fun_induction isNumeric e with
    | case1 n span => exact .int n span
    | case2 n span => exact .hex n span
    | case3 e span ih => exact .parens span (ih h)
    | case4 e span ih => exact .neg span (ih h)
    | case5 op lhs rhs span ihl ihr =>
      rw [Bool.and_eq_true] at h
      exact .arithmetic op span (ihl h.1) (ihr h.2)
    | case6 => cases h
  · intro h
    induction h with
    | int n span => rfl
    | hex n span => rfl
    | parens span inner ih => rw [isNumeric, ih]
    | neg span inner ih => rw [isNumeric, ih]
    | arithmetic op span left right ihl ihr => rw [isNumeric, ihl, ihr, Bool.and_true]

instance (e : Expr) : Decidable e.Numeric := decidable_of_iff _ isNumeric_iff

/-- The word of an expression from the bottom up, with a negation and operations on words. -/
def reduce (negate : Int32 → Option Int32) (apply : Arithmetic → Int32 → Int32 → Option Int32) :
    Expr → Option Int32
  | .int n _ => some n
  | .hex n _ => some n.toInt32
  | .tuple [⟨none, e⟩] _ => e.reduce negate apply
  | .unary .neg e _ => do negate (← e.reduce negate apply)
  | .binary (.arithmetic op) lhs rhs _ => do
    let a ← lhs.reduce negate apply
    let b ← rhs.reduce negate apply
    apply op a b
  | _ => none

/-- Each node is computed with integers and wrapped to a word. -/
def wrapped : Expr → Option Int32 :=
  reduce (fun a => some (.ofInt (-a.toInt))) fun op a b => (op.onIntegers? a.toInt b.toInt).map Int32.ofInt

/-- Each node is computed by an instruction of the machine; a negation subtracts from zero. -/
def computed : Expr → Option Int32 := reduce (alu? .sub 0) fun op => alu? (operationOf op)

/-- Some quotient or remainder in the expression has a divisor that is worth zero. -/
def DividesByZero (e : Expr) : Prop :=
  ∃ op lhs rhs span, (op = .div ∨ op = .mod) ∧ .binary (.arithmetic op) lhs rhs span ∈ e.nodes ∧
    rhs.wrapped = some 0

end Expr

/-! ## One number -/

/-- Wrapping what integers come to is what the words come to, also for the quotient of the least word
by -1. -/
theorem Arithmetic.map_onIntegers? (op : Arithmetic) (a b : Int32) :
    (op.onIntegers? a.toInt b.toInt).map Int32.ofInt = op.eval? a b := by
  have zero : b.toInt = 0 ↔ b = 0 := by rw [← Int32.toInt_inj]; rfl
  have quotient : Int32.ofInt (a.toInt.tdiv b.toInt) = a / b := by
    rw [Int32.ofInt_tdiv a.minValue_le_toInt a.toInt_le b.minValue_le_toInt b.toInt_le,
      Int32.ofInt_toInt, Int32.ofInt_toInt]
  have remainder : Int32.ofInt (a.toInt.tmod b.toInt) = a % b := by
    rw [Int32.ofInt_tmod a.minValue_le_toInt a.toInt_le b.minValue_le_toInt b.toInt_le,
      Int32.ofInt_toInt, Int32.ofInt_toInt]
  cases op with
  | add => simp [onIntegers?, eval?, Int32.ofInt_add]
  | sub => simp [onIntegers?, eval?, Int32.ofInt_sub]
  | mul => simp [onIntegers?, eval?, Int32.ofInt_mul]
  | div => by_cases h : b = 0 <;> simp [onIntegers?, eval?, zero, h, quotient]
  | mod => by_cases h : b = 0 <;> simp [onIntegers?, eval?, zero, h, remainder]

theorem Arithmetic.alu?_operationOf (op : Arithmetic) (a b : Int32) :
    alu? (operationOf op) a b = op.eval? a b := by
  cases op <;> rfl

theorem Arithmetic.eval?_eq_none_iff {op : Arithmetic} {a b : Int32} :
    op.eval? a b = none ↔ (op = .div ∨ op = .mod) ∧ b = 0 := by
  cases op <;> simp [eval?]

namespace Expr

theorem wrapped_eq_reduce (e : Expr) : e.wrapped = e.reduce (fun a => some (-a)) Arithmetic.eval? := by
  have negate : (fun a : Int32 => some (Int32.ofInt (-a.toInt))) = fun a => some (-a) := by
    funext a
    rw [Int32.ofInt_neg, Int32.ofInt_toInt]
  have apply : (fun (op : Arithmetic) (a b : Int32) => (op.onIntegers? a.toInt b.toInt).map Int32.ofInt) =
      Arithmetic.eval? := by
    funext op a b
    exact op.map_onIntegers? a b
  rw [wrapped, negate, apply]

/-- The machine comes to the same number as wrapped integers. -/
theorem computed_eq_wrapped (e : Expr) : e.computed = e.wrapped := by
  have negate : alu? .sub 0 = fun a => some (-a) := by
    funext a
    exact congrArg some (Int32.zero_sub a)
  have apply : (fun op => alu? (operationOf op)) = Arithmetic.eval? := by
    funext op a b
    exact op.alu?_operationOf a b
  rw [computed, negate, apply, wrapped_eq_reduce]

theorem wrapped_parens (e : Expr) (span : Span) : (Expr.tuple [⟨none, e⟩] span).wrapped = e.wrapped := by
  rw [wrapped, reduce]

theorem wrapped_neg (e : Expr) (span : Span) :
    (Expr.unary .neg e span).wrapped = e.wrapped.map fun a => -a := by
  rw [wrapped_eq_reduce, reduce, ← wrapped_eq_reduce]
  cases e.wrapped <;> rfl

theorem wrapped_arithmetic (op : Arithmetic) (lhs rhs : Expr) (span : Span) :
    (Expr.binary (.arithmetic op) lhs rhs span).wrapped = (do
      let a ← lhs.wrapped
      let b ← rhs.wrapped
      op.eval? a b) := by
  rw [wrapped_eq_reduce, reduce, ← wrapped_eq_reduce, ← wrapped_eq_reduce]

theorem DividesByZero.of_part {e part : Expr} (h : part.DividesByZero)
    (sub : ∀ n ∈ part.nodes, n ∈ e.nodes) : e.DividesByZero := by
  obtain ⟨op, lhs, rhs, span, division, mem, zero⟩ := h
  exact ⟨op, lhs, rhs, span, division, sub _ mem, zero⟩

variable {e : Expr}

/-- There is no number exactly if something is divided by zero. -/
theorem Numeric.wrapped_eq_none_iff (h : e.Numeric) : e.wrapped = none ↔ e.DividesByZero := by
  induction h with
  | int n span => simp [wrapped, reduce, DividesByZero, nodes]
  | hex n span => simp [wrapped, reduce, DividesByZero, nodes]
  | parens span inner ih =>
    rw [wrapped_parens, ih]
    simp [DividesByZero, nodes, nodesOfFields]
  | neg span inner ih =>
    rw [wrapped_neg, Option.map_eq_none_iff, ih]
    simp [DividesByZero, nodes]
  | @arithmetic op lhs rhs span left right ihl ihr =>
    rw [wrapped_arithmetic]
    constructor
    · intro none
      cases hl : lhs.wrapped with
      | none => exact (ihl.mp hl).of_part fun n mem => by simp [nodes, mem]
      | some a =>
        cases hr : rhs.wrapped with
        | none => exact (ihr.mp hr).of_part fun n mem => by simp [nodes, mem]
        | some b =>
          rw [hl, hr] at none
          obtain ⟨division, rfl⟩ := Arithmetic.eval?_eq_none_iff.mp none
          exact ⟨op, lhs, rhs, span, division, mem_nodes_self _, hr⟩
    · rintro ⟨other, l, r, place, division, mem, zero⟩
      rw [nodes, List.mem_cons, List.mem_append] at mem
      rcases mem with here | inLeft | inRight
      · cases here
        cases hl : lhs.wrapped with
        | none => rfl
        | some a =>
          rw [zero]
          exact Arithmetic.eval?_eq_none_iff.mpr ⟨division, rfl⟩
      · rw [ihl.mpr ⟨other, l, r, place, division, inLeft, zero⟩]
        rfl
      · rw [ihr.mpr ⟨other, l, r, place, division, inRight, zero⟩]
        cases lhs.wrapped <;> rfl

/-- The generator finds the number, or the division that has none. -/
theorem Numeric.constant?_eq (h : e.Numeric) :
    match e.wrapped with
    | some word => e.constant? = .ok (some word)
    | none => ∃ span, e.constant? = .error (.divisionByZero span) := by
  induction h with
  | int n span => rfl
  | hex n span => rfl
  | parens span inner ih =>
    rw [wrapped_parens, constant?]
    exact ih
  | @neg e span inner ih =>
    rw [wrapped_neg, constant?]
    cases value : e.wrapped with
    | none =>
      rw [value] at ih
      obtain ⟨place, fault⟩ := ih
      exact ⟨place, by rw [fault]; rfl⟩
    | some word =>
      rw [value] at ih
      rw [ih]
      rfl
  | @arithmetic op lhs rhs span left right ihl ihr =>
    rw [wrapped_arithmetic, constant?]
    cases hl : lhs.wrapped with
    | none =>
      rw [hl] at ihl
      obtain ⟨place, fault⟩ := ihl
      exact ⟨place, by rw [fault]; rfl⟩
    | some a =>
      rw [hl] at ihl
      rw [ihl]
      cases hr : rhs.wrapped with
      | none =>
        rw [hr] at ihr
        obtain ⟨place, fault⟩ := ihr
        exact ⟨place, by rw [fault]; rfl⟩
      | some b =>
        rw [hr] at ihr
        rw [ihr]
        show match op.eval? a b with
          | some word => (match op.eval? a b with
            | some value => Except.ok (some value)
            | none => .error (CompileError.divisionByZero span)) = Except.ok (some word)
          | none => ∃ place, (match op.eval? a b with
            | some value => Except.ok (some value)
            | none => .error (CompileError.divisionByZero span)) =
              .error (CompileError.divisionByZero place)
        cases op.eval? a b with
        | none => exact ⟨span, rfl⟩
        | some word => rfl

end Expr

/-! ## One load -/

/-- The code for a number loads it. -/
theorem Expr.Numeric.lower_of_ok {s : Site} {e : Expr} (h : e.Numeric) {word : Int32}
    (value : e.constant? = .ok (some word)) (dst : Register) (ty : Ty) :
    lower s e dst ty = loadInt dst word := by
  induction h with
  | int n span | hex n span =>
    cases value
    rw [lower]
  | parens span inner ih =>
    rw [constant?] at value
    rw [lower, ih value]
  | neg span inner ih =>
    rw [lower, value]
    exact pure_bind (some word) _
  | arithmetic op span left right ihl ihr =>
    rw [lower, Emit.arithmetic, value]
    exact pure_bind (some word) _

theorem Expr.Numeric.lower_of_error {s : Site} {e : Expr} (h : e.Numeric) {fault : CompileError}
    (value : e.constant? = .error fault) (dst : Register) (ty : Ty) :
    lower s e dst ty = fail fault := by
  induction h with
  | int n span => cases value
  | hex n span => cases value
  | parens span inner ih =>
    rw [constant?] at value
    rw [lower, ih value]
  | neg span inner ih =>
    rw [lower, value]
    rfl
  | arithmetic op span left right ihl ihr =>
    rw [lower, Emit.arithmetic, value]
    rfl

/-! ## A program of one declaration -/

namespace Expr.Numeric

variable {e : Expr}

theorem literals_eq (h : e.Numeric) : e.literals = [] := by
  induction h with
  | int n span => rfl
  | hex n span => rfl
  | parens span inner ih => simp [literals, literalsOfFields, ih]
  | neg span inner ih => simp [literals, ih]
  | arithmetic op span left right ihl ihr => simp [literals, ihl, ihr]

theorem desugarExpr_eq (h : e.Numeric) (enter : ScopeId → Resolver Unit) :
    desugarExpr enter e = pure e := by
  induction h with
  | int n span => rw [desugarExpr]
  | hex n span => rw [desugarExpr]
  | parens span inner ih => simp [desugarExpr, desugarFields, ih]
  | neg span inner ih => simp [desugarExpr, ih]
  | arithmetic op span left right ihl ihr => simp [desugarExpr, ihl, ihr]

theorem numberExpr_eq (h : e.Numeric) (enter : ScopeId → StateM Numbering Unit) (id : ScopeId) :
    numberExpr enter id e = pure e := by
  induction h with
  | int n span => rw [numberExpr]
  | hex n span => rw [numberExpr]
  | parens span inner ih => simp [numberExpr, numberFields, ih]
  | neg span inner ih => simp [numberExpr, ih]
  | arithmetic op span left right ihl ihr => simp [numberExpr, ihl, ihr]

/-- No node of a number is a literal or passes types on. -/
theorem nodesWith_mem (h : e.Numeric) {order : Order} {bodyNodes : ScopeId → List (ScopeId × Expr)}
    {id : ScopeId} : ∀ node ∈ ScopeTree.nodesWith order bodyNodes id e,
      placed? node = none ∧ ∀ tree : ScopeTree, tree.passTypes node = .ok tree := by
  induction h with
  | int n span => simp [ScopeTree.nodesWith, placed?, ScopeTree.passTypes]
  | hex n span => simp [ScopeTree.nodesWith, placed?, ScopeTree.passTypes]
  | parens span inner ih =>
    intro node mem
    rw [ScopeTree.nodesWith, Order.mem_place_iff] at mem
    rcases mem with rfl | mem
    · simp [placed?, ScopeTree.passTypes]
    · exact ih node (by simpa [ScopeTree.fieldNodesWith] using mem)
  | neg span inner ih =>
    intro node mem
    rw [ScopeTree.nodesWith, Order.mem_place_iff] at mem
    rcases mem with rfl | mem
    · simp [placed?, ScopeTree.passTypes]
    · exact ih node mem
  | arithmetic op span left right ihl ihr =>
    intro node mem
    rw [ScopeTree.nodesWith, Order.mem_place_iff, List.mem_append] at mem
    rcases mem with rfl | mem | mem
    · simp [placed?, ScopeTree.passTypes, BinaryOp.isCall]
    · exact ihl node mem
    · exact ihr node mem

theorem asFunction?_unwrapped (h : e.Numeric) : e.unwrapped.asFunction? = none := by
  induction h with
  | parens span inner ih => simpa using ih
  | _ => rfl

theorem expectType_eq (h : e.Numeric) (ty : Ty) (tree : ScopeTree) :
    ScopeTree.expectType e ty tree = tree := by
  induction h with
  | parens span inner ih => simpa [ScopeTree.expectType] using ih
  | _ => simp [ScopeTree.expectType]

end Expr.Numeric

/-- A statement without literals. -/
structure Expr.Closed (e : Expr) : Prop where
  literals : e.literals = []
  desugared : ∀ enter, desugarExpr enter e = pure e
  numbered : ∀ enter id, numberExpr enter id e = pure e
  placed : ∀ order bodyNodes id, ∀ node ∈ ScopeTree.nodesWith order bodyNodes id e, placed? node = none

theorem Expr.Numeric.closed {e : Expr} (h : e.Numeric) (n : String) (ty : TypeExpr) (span : Span) :
    (Expr.varDecl n ty e span).Closed where
  literals := by simp [literals, h.literals_eq]
  desugared enter := by simp [desugarExpr, h.desugarExpr_eq]
  numbered enter id := by simp [numberExpr, h.numberExpr_eq]
  placed order bodyNodes id node mem := by
    rw [ScopeTree.nodesWith, Order.mem_place_iff] at mem
    rcases mem with rfl | mem
    · rfl
    · exact (h.nodesWith_mem node mem).1

namespace ScopeTree

/-- A program of one statement, with variables and functions. -/
def single (statement : Expr) (span : Span) (vars : List Variable) (functions : List Function) :
    ScopeTree :=
  ⟨#[{ Scope.fresh .program [] [statement] span with types := Ty.builtins, vars := vars }], functions⟩

variable {statement : Expr} {span : Span} {vars : List Variable} {functions : List Function}

/-- A program whose only statement has no literals has no other scope than the root. -/
theorem single_of_readProgram {tokens : List Token} {tree : ScopeTree}
    (h : Grammar.readProgram tokens = .ok tree) (body : tree.root.body = [statement])
    (closed : statement.literals = []) :
    ∃ span functions, tree = single statement span [] functions := by
  obtain ⟨found, ⟨scopes, functions⟩, span, added, -, rfl⟩ := Grammar.readProgram_added h
  have grows : 1 ≤ ScopeTree.count ⟨scopes, functions⟩ := added.grows
  rw [root, scope_modify_same _ rootId _ grows] at body
  obtain rfl : found = [statement] := body
  obtain ⟨ids, below, perm⟩ := added.owns
  have none : ids = [] := by
    rw [show literalsOf [statement] = [] by simp [literalsOf, closed]] at below
    cases below
    rfl
  have one : scopes.size = 1 := by
    rw [none] at perm
    have length := perm.length_eq
    rw [List.length_range', List.length_nil] at length
    have start : ScopeTree.empty.count = 1 := rfl
    have size : ScopeTree.count ⟨scopes, functions⟩ = scopes.size := rfl
    omega
  obtain ⟨first, rfl⟩ := Array.size_eq_one_iff.mp one
  have kept := added.keeps rootId (by decide)
  refine ⟨span, functions, ?_⟩
  rw [show ScopeTree.scope ⟨#[first], functions⟩ rootId = first from rfl] at kept
  rw [kept]
  rfl

theorem nodes_single (order : Order) : (single statement span vars functions).nodes order =
    nodesWith order (bodyNodesAt (single statement span vars functions) order 0) rootId statement := by
  show [statement].flatMap _ = _
  rw [List.flatMap_singleton]

namespace Closed

theorem literals (h : statement.Closed) (order : Order) :
    (single statement span vars functions).literals order = [] := by
  rw [literals_eq, List.filterMap_eq_nil_iff, nodes_single]
  exact h.placed order _ rootId

theorem scopesInOrder (h : statement.Closed) :
    (single statement span vars functions).scopesInOrder = [rootId] := by
  rw [ScopeTree.scopesInOrder, literals h]
  rfl

theorem desugar (h : statement.Closed) : (single statement span vars functions).desugar =
    .ok (single statement span vars functions) := by
  have run : (desugarScope 1 rootId).run (single statement span vars functions) =
      .ok ((), single statement span vars functions) := by
    have body : [statement].mapM (desugarExpr (desugarScope 0)) =
        (pure [statement] : Resolver (List Expr)) := by
      simp [h.desugared]
    simp only [desugarScope, StateT.run_bind, StateT.run_get, pure_bind]
    show ([statement].mapM (desugarExpr (desugarScope 0)) : Resolver _).run _ >>= _ = _
    rw [body]
    rfl
  rw [ScopeTree.desugar, show (single statement span vars functions).count = 1 from rfl, run]
  rfl

theorem number (h : statement.Closed) : (single statement span vars functions).number =
    single statement span vars functions := by
  have run : (numberScope 1 rootId).run ⟨single statement span vars functions, 0⟩ =
      pure ((), ⟨single statement span vars functions, 0⟩) := by
    have body : [statement].mapM (numberExpr (numberScope 0) rootId) =
        (pure [statement] : StateM Numbering (List Expr)) := by
      simp [h.numbered]
    simp only [numberScope, StateT.run_bind, StateT.run_get, pure_bind]
    show ([statement].mapM (numberExpr (numberScope 0) rootId) : StateM Numbering _).run _ >>= _ = _
    rw [body]
    rfl
  rw [ScopeTree.number, show (single statement span vars functions).count = 1 from rfl, run]
  rfl

end Closed

/-- Resolving a program that declares a number gives the variable the first register. -/
theorem resolve_single {n : String} {e : Expr} (h : e.Numeric) (s₁ s₂ : Span) :
    (single (.varDecl n (.named "int" s₁) e s₂) span [] functions).resolve =
      .ok (single (.varDecl n (.named "int" s₁) e s₂) span [⟨n, .int, 0, .window⟩] []) := by
  have closed := h.closed n (.named "int" s₁) s₂
  have named : functionDeclarations [.varDecl n (.named "int" s₁) e s₂] = [] := by
    simp [functionDeclarations, h.asFunction?_unwrapped]
  generalize hs : Expr.varDecl n (.named "int" s₁) e s₂ = statement at closed named
  have types : (single statement span [] functions).number.declareTypes =
      .ok (single statement span [] functions) := by
    rw [Closed.number closed, declareTypes, Closed.scopesInOrder closed, ← hs]
    rfl
  have vars : (single statement span [] functions).declareVariables =
      .ok (single statement span [⟨n, .int, 0, .window⟩] functions) := by
    rw [declareVariables, Closed.scopesInOrder closed, ← hs]
    rfl
  have listed : (single statement span [⟨n, .int, 0, .window⟩] functions).declareFunctions =
      .ok (single statement span [⟨n, .int, 0, .window⟩] []) := by
    rw [declareFunctions, Closed.scopesInOrder closed, Closed.literals closed]
    show (functionDeclarations [statement]).foldlM _ _ >>= _ = _
    rw [named]
    rfl
  have passed : ∀ node ∈ (single statement span [⟨n, .int, 0, .window⟩] []).nodes .pre,
      (single statement span [⟨n, .int, 0, .window⟩] []).passTypes node =
        .ok (single statement span [⟨n, .int, 0, .window⟩] []) := by
    intro node mem
    rw [nodes_single, ← hs, nodesWith, Order.mem_place_iff] at mem
    rcases mem with rfl | mem
    · simp [passTypes, single, scope, rootId, h.asFunction?_unwrapped, h.expectType_eq]
    · exact (h.nodesWith_mem node mem).2 _
  have inferred : (single statement span [⟨n, .int, 0, .window⟩] []).inferArrows =
      .ok (single statement span [⟨n, .int, 0, .window⟩] []) := by
    have none : (single statement span [⟨n, .int, 0, .window⟩] []).literals .post = [] :=
      Closed.literals closed .post
    rw [inferArrows, foldlM_stays passed]
    show (((single statement span [⟨n, .int, 0, .window⟩] []).literals .post).foldlM composeArrow
      (single statement span [⟨n, .int, 0, .window⟩] []) >>= fun tree =>
        (tree.literals .post).foldlM ScopeTree.armArrow tree) = _
    rw [none]
    show ((single statement span [⟨n, .int, 0, .window⟩] []).literals .post).foldlM
      ScopeTree.armArrow (single statement span [⟨n, .int, 0, .window⟩] []) = _
    rw [none]
    rfl
  have bound : (single statement span [⟨n, .int, 0, .window⟩] []).bindInputs =
      .ok (single statement span [⟨n, .int, 0, .window⟩] []) := by
    rw [bindInputs, Closed.literals closed]
    rfl
  have captured : (single statement span [⟨n, .int, 0, .window⟩] []).capture =
      single statement span [⟨n, .int, 0, .window⟩] [] := by
    rw [capture, Closed.literals closed]
    rfl
  exact resolve_ok_iff.mpr ⟨_, _, _, _, _, _, Closed.desugar closed, types, vars, listed, inferred, bound,
    captured⟩

end ScopeTree

/-- The instructions that load a number. -/
def Emit.loads (dst : Register) (value : Int32) : List Instruction :=
  .wide .loadLow dst (UInt16.ofNat value.toUInt32.toNat) ::
    if value.toUInt32.toNat / 65536 = 0 then []
    else [.wide .loadHigh dst (UInt16.ofNat (value.toUInt32.toNat / 65536))]

theorem Emit.loadInt_eq (dst : Register) (value : Int32) (watermark : Nat) :
    loadInt dst value watermark =
      .ok ⟨(), (loads dst value).map fun i => ⟨i, none, none⟩, watermark⟩ := by
  unfold loadInt loads
  by_cases high : value.toUInt32.toNat / 65536 = 0
  · simp only [high, ne_eq, not_true_eq_false, if_false, if_true]
    rfl
  · simp only [high, ne_eq, not_false_eq_true, if_true, if_false]
    rfl

theorem Emit.length_loads (dst : Register) (value : Int32) : (loads dst value).length ≤ 2 := by
  unfold loads
  split <;> simp

/-- Loading leaves the number in the register, and the others as they are. -/
theorem Emit.play_loads {dst : Register} (near : dst.Near) (value : Int32) (file : RegisterFile) :
    ∃ after, play (loads dst value) file = .ok after ∧ RegisterFile.Sets 64 dst value file after := by
  have makes : Makes (loadInt dst value) 64 file False fun _ _ after =>
      RegisterFile.Sets 64 dst value file after := makes_loadInt near fun after sets => sets
  obtain ⟨after, played, sets⟩ := makes.played (loadInt_eq dst value 64)
  rw [map_instruction] at played
  exact ⟨after, played, sets⟩

section

variable {n : String} {e : Expr} {ty : TypeExpr} {s₂ span : Span}

theorem lowerStatement_single (isLast : Bool) :
    lowerStatement ⟨.single (.varDecl n ty e s₂) span [⟨n, .int, 0, .window⟩] [], ScopeTree.rootId⟩
        isLast (.varDecl n ty e s₂) =
      eval ⟨.single (.varDecl n ty e s₂) span [⟨n, .int, 0, .window⟩] [], ScopeTree.rootId⟩ e .first
        .int := by
  have known : Site.lookup ⟨.single (.varDecl n ty e s₂) span [⟨n, .int, 0, .window⟩] [],
      ScopeTree.rootId⟩ n s₂ = .ok ⟨n, .int, 0, .window⟩ := by
    simp [Site.lookup, Site.scope, ScopeTree.single, ScopeTree.scope, ScopeTree.rootId, Scope.local?]
  rw [lowerStatement, known]
  exact (pure_bind _ _).trans (pure_bind _ _)

/-- A program without functions is the code of its statements and a return. -/
theorem compile_of_lowered {tree : ScopeTree} (none : tree.functions = [])
    (counts : tree.root.counted = .ok tree.root.size) {code : List Instruction} {result : Emission Unit}
    (emitted : lowerStatements ⟨tree, ScopeTree.rootId⟩ tree.root.body tree.root.size = .ok result)
    (plain : result.code = code.map fun i => ⟨i, .none, .none⟩) (short : code.length < 65534) :
    tree.compile = .ok ⟨code ++ [⟨.ret, 0, 0⟩] ++ [⟨.call, 0, 0⟩], []⟩ := by
  generalize hc : code ++ [(⟨.ret, 0, 0⟩ : Instruction)] = whole
  have length : whole.length = code.length + 1 := by rw [← hc, List.length_append]; rfl
  have body : scopeCode tree ScopeTree.rootId = .ok (whole.map fun i => ⟨i, .none, .none⟩) := by
    rw [scopeCode]
    show (Site.inWindow tree.root.counted >>= _) = _
    rw [counts]
    show ((lowerStatements ⟨tree, ScopeTree.rootId⟩ tree.root.body >>= fun _ => push ⟨.ret, 0, 0⟩)
      tree.root.size >>= _) = _
    have behind : (lowerStatements ⟨tree, ScopeTree.rootId⟩ tree.root.body >>= fun _ => push ⟨.ret, 0, 0⟩)
        tree.root.size = .ok ⟨(), whole.map fun i => ⟨i, .none, .none⟩, result.watermark⟩ := by
      rw [← hc, List.map_append, ← plain]
      simp only [bind, emitted, push, List.map_cons, List.map_nil]
    rw [behind]
    rfl
  rw [ScopeTree.compile, none]
  show (scopeCode _ ScopeTree.rootId >>= _) = _
  rw [body]
  show (if 65535 ≤ (whole.map fun i => (⟨i, .none, .none⟩ : Emitted)).length then _ else _) = _
  rw [if_neg (by rw [List.length_map]; omega)]
  show ((whole.map fun i => (⟨i, .none, .none⟩ : Emitted)).mapM (link []) >>= _) = _
  rw [mapM_link]
  rfl

/-- The code of the program loads the number and returns. -/
theorem compile_single_ok (h : e.Numeric) {word : Int32} (value : e.constant? = .ok (some word)) :
    (ScopeTree.single (.varDecl n ty e s₂) span [⟨n, .int, 0, .window⟩] []).compile =
      .ok ⟨loads .first word ++ [⟨.ret, 0, 0⟩] ++ [⟨.call, 0, 0⟩], []⟩ := by
  have emitted : lowerStatement ⟨.single (.varDecl n ty e s₂) span [⟨n, .int, 0, .window⟩] [],
      ScopeTree.rootId⟩ true (.varDecl n ty e s₂) 1 =
        .ok ⟨(), (loads .first word).map fun i => ⟨i, none, none⟩, 1⟩ := by
    rw [lowerStatement_single, eval, h.lower_of_ok value, releasing, loadInt_eq]
  have two := length_loads .first word
  exact compile_of_lowered rfl rfl emitted rfl (by omega)

theorem compile_single_error (h : e.Numeric) {fault : CompileError} (value : e.constant? = .error fault) :
    (ScopeTree.single (.varDecl n ty e s₂) span [⟨n, .int, 0, .window⟩] []).compile = .error fault := by
  have body : scopeCode (.single (.varDecl n ty e s₂) span [⟨n, .int, 0, .window⟩] [])
      ScopeTree.rootId = .error fault := by
    rw [scopeCode]
    show (((lowerStatement _ true (.varDecl n ty e s₂) >>= fun _ => push ⟨.ret, 0, 0⟩) 1 :
      Except _ _) >>= _) = _
    rw [lowerStatement_single, eval, h.lower_of_error value]
    rfl
  rw [ScopeTree.compile]
  show (scopeCode _ ScopeTree.rootId >>= _) = _
  rw [body]
  rfl

end

/-! ## The whole program -/

/-- What a program did that came to its end. -/
theorem execute_of_ticks {code : List Instruction} (labels : List Label) (m : Machine) {limit : Nat}
    (fits : code.length < stackSize) {s : Run}
    (ticks : Exec.ticks .none limit (.start code 0) = .ok () s) (count : Nat) :
    m.execute limit ⟨code ++ [⟨.call, 0, 0⟩], labels⟩ count =
      .ok ⟨(List.range count).map fun i => (s.machine.register? .window i).getD 0,
        String.join s.prints.reverse⟩ := by
  have outcome : m.run limit .none (code ++ [⟨.call, 0, 0⟩]) =
      Exec.outcome (Exec.ticks .none limit (.start code 0)) := by
    rw [Machine.run_eq_outcome m limit .none (by simp) (by simp; omega)]
    simp
  rw [Machine.execute]
  simp only [outcome, ticks]
  rfl

/-- A program of straight-line code that returns leaves the registers of its window as the table has
them, on every machine. -/
theorem execute_of_play {code : List Instruction} {after : RegisterFile} (labels : List Label)
    (m : Machine) {limit : Nat} (fits : code.length + 66 ≤ stackSize) (enough : code.length + 1 ≤ limit)
    (played : play code (Run.start (code ++ [⟨.ret, 0, 0⟩]) 0).machine.file = .ok after) (count : Nat) :
    ∃ registers, m.execute limit ⟨code ++ [⟨.ret, 0, 0⟩] ++ [⟨.call, 0, 0⟩], labels⟩ count =
        .ok ⟨registers, ""⟩ ∧ registers.length = count ∧
      ∀ r : Register, r.bank = .window → r.offset.val < count →
        registers[r.offset.val]? = some (after r) := by
  generalize hp : code ++ [(⟨.ret, 0, 0⟩ : Instruction)] = placed at played
  have length : placed.length = code.length + 1 := by rw [← hp, List.length_append]; rfl
  have ahead : (Run.start placed 0).machine.Ahead (code ++ [⟨.ret, 0, 0⟩]) := by
    rw [hp]
    exact Run.ahead_start (by omega)
  have seated : (Run.start placed 0).machine.Seated := Run.seated_start (by omega)
  -- the code, then the return
  obtain ⟨s, through, beside, shows_, -⟩ :=
    (gets_of_play (fun _ _ => rfl) ahead.front played).through seated
  have tick : Exec.tick .none s = _ :=
    Exec.tick_of_instruction (through.ahead ahead).instruction? rfl
  rw [Exec.step_ret rfl] at tick
  rw [show (s.charge ⟨.ret, 0, 0⟩).callers = [⟨0, placed.length, 0⟩] from through.callers] at tick
  have ticks : Exec.ticks .none limit (.start placed 0) =
      .ok () ((s.charge ⟨.ret, 0, 0⟩).leaving ⟨0, placed.length, 0⟩ []) := by
    obtain ⟨k, rfl⟩ : ∃ k, limit = code.length + (k + 1) := ⟨limit - code.length - 1, by omega⟩
    rw [through.ticks, Exec.ticks_of_end tick]
  have prints : s.prints = [] := through.prints
  rw [execute_of_ticks labels m (by omega) ticks count]
  refine ⟨_, congrArg (fun text => Except.ok (Machine.Execution.mk _ text)) ?_, by simp, ?_⟩
  · show String.join s.prints.reverse = ""
    rw [prints]
    rfl
  · intro r window lt
    have found := (through.seated.mpr seated).readCell? (r := r) (.inl window)
    have top : s.machine.top = placed.length := through.top
    rw [shows_ r (.inl window), Machine.cell, window, top] at found
    have same : Register.ofOffset .window r.offset.val = .ok r := by
      rw [Register.ofOffset, dif_pos r.offset.isLt, ← window]
    rw [List.getElem?_map, List.getElem?_range lt, Option.map_some, Machine.register?, same]
    show some ((s.machine.readCell? (Machine.cell _ r)).getD 0) = some (after r)
    rw [Machine.cell, window]
    exact congrArg (fun word => some (word.getD 0)) found

/-- The program that loads a number into the first register and returns does so on every machine. -/
theorem execute_loads (word : Int32) (labels : List Label) (m : Machine) {limit : Nat}
    (enough : 3 ≤ limit) :
    m.execute limit ⟨loads .first word ++ [⟨.ret, 0, 0⟩] ++ [⟨.call, 0, 0⟩], labels⟩ 1 =
      .ok ⟨[word], ""⟩ := by
  have short := length_loads .first word
  obtain ⟨after, played, sets⟩ := play_loads (show Register.first.Near from .inl rfl) word
    (Run.start (loads .first word ++ [⟨.ret, 0, 0⟩]) 0).machine.file
  have fits : (loads .first word).length + 66 ≤ stackSize := by rw [stackSize]; omega
  have ticks : (loads .first word).length + 1 ≤ limit := by omega
  obtain ⟨registers, ran, length, found⟩ := execute_of_play labels m fits ticks played 1
  obtain ⟨only, rfl⟩ := List.length_eq_one_iff.mp length
  have first : some only = some (after .first) := found .first rfl (by decide)
  rw [ran, Option.some.inj first, sets.same]

/-- Declaring a number of any shape: the program is refused exactly if a division in it has the divisor
zero. Otherwise it has no arithmetic instruction, and on every machine it leaves the number in the
register of the variable that wrapped integers come to, and the operations of the machine too. -/
theorem numbers_fold {source : String} {parsed : ScopeTree} (read : parseSource source = .ok parsed)
    {n : String} {e : Expr} {s₁ s₂ : Span}
    (body : parsed.root.body = [.varDecl n (.named "int" s₁) e s₂]) (numeric : e.Numeric) :
    ((∃ span, compileSource source = .error (.compile (.divisionByZero span))) ↔ e.DividesByZero) ∧
    e.computed = e.wrapped ∧
    (¬ e.DividesByZero → ∃ c word v, compileSource source = .ok c ∧ e.wrapped = some word ∧
      c.tree.root.local? n = some v ∧ v.register = .ok .first ∧
      (∀ i ∈ c.program.instructions, i.op.isArithmetic = false) ∧
      ∀ (m : Machine) (limit : Nat), 3 ≤ limit → m.execute limit c.program 1 = .ok ⟨[word], ""⟩) := by
  have closed := numeric.closed n (.named "int" s₁) s₂
  obtain ⟨span, functions, rfl⟩ : ∃ span functions,
      parsed = .single (.varDecl n (.named "int" s₁) e s₂) span [] functions := by
    obtain ⟨tokens, -, read⟩ := except_bind_ok read
    split at read
    · rename_i tree found
      cases read
      exact ScopeTree.single_of_readProgram found body closed.literals
    · cases read
  have resolved : resolveSource source =
      .ok (.single (.varDecl n (.named "int" s₁) e s₂) span [⟨n, .int, 0, .window⟩] []) := by
    simp only [resolveSource, read, bind, Except.bind, ScopeTree.resolve_single numeric]
  have compiled : compileSource source =
      compileTree (.single (.varDecl n (.named "int" s₁) e s₂) span [⟨n, .int, 0, .window⟩] []) := by
    rw [compileSource, resolved]
    rfl
  have constant := numeric.constant?_eq
  have divides := numeric.wrapped_eq_none_iff
  rw [compiled, compileTree]
  cases value : e.wrapped with
  | none =>
    rw [value] at constant
    obtain ⟨place, fault⟩ := constant
    rw [compile_single_error numeric fault]
    exact ⟨⟨fun _ => divides.mp value, fun _ => ⟨place, rfl⟩⟩, (e.computed_eq_wrapped).trans value,
      fun safe => (safe (divides.mp value)).elim⟩
  | some word =>
    rw [value] at constant
    have safe : ¬ e.DividesByZero := fun h => by rw [divides.mpr h] at value; cases value
    rw [compile_single_ok numeric constant]
    refine ⟨⟨?_, fun h => (safe h).elim⟩, (e.computed_eq_wrapped).trans value, fun _ => ?_⟩
    · rintro ⟨place, fault⟩
      cases fault
    refine ⟨_, word, ⟨n, .int, 0, .window⟩, rfl, rfl, ?_, rfl, ?_, fun m limit enough =>
      execute_loads word [] m enough⟩
    · simp [ScopeTree.root, ScopeTree.single, ScopeTree.scope, ScopeTree.rootId, Scope.local?]
    · intro i mem
      simp only [List.append_assoc, List.mem_append, List.mem_singleton] at mem
      rcases mem with loaded | rfl | rfl
      · unfold loads at loaded
        split at loaded <;> simp at loaded
        · rw [loaded]; rfl
        · rcases loaded with rfl | rfl <;> rfl
      · rfl
      · rfl

/-- The name and the value of the number that is all a body declares. -/
def declaredNumber? : List Expr → Option (String × Expr)
  | [.varDecl n (.named "int" _) e _] => some (n, e)
  | _ => none

theorem eq_of_declaredNumber? {body : List Expr} {n : String} {e : Expr}
    (h : declaredNumber? body = some (n, e)) : ∃ s₁ s₂, body = [.varDecl n (.named "int" s₁) e s₂] := by
  unfold declaredNumber? at h
  split at h
  · cases h
    exact ⟨_, _, rfl⟩
  · cases h

/-- The least word divided by -1 is itself; a remainder by a difference that is zero is refused. -/
theorem numbers_fold_edges :
    (∃ c, compileSource "[ r: int = (-2147483647 - 0x1) / -1" = .ok c ∧
      Machine.fresh.execute 3 c.program 1 = .ok ⟨[-2147483648], ""⟩) ∧
    ∃ span, compileSource "[ r: int = 8 + 5 % (2 - 2) * 3" =
      .error (.compile (.divisionByZero span)) := by
  have wraps : (do
      let parsed ← (parseSource "[ r: int = (-2147483647 - 0x1) / -1").toOption
      let number ← declaredNumber? parsed.root.body
      if number.2.Numeric ∧ number.2.wrapped = some (-2147483648) then some () else none) =
        some () := by decide +kernel
  have faults : (do
      let parsed ← (parseSource "[ r: int = 8 + 5 % (2 - 2) * 3").toOption
      let number ← declaredNumber? parsed.root.body
      if number.2.Numeric ∧ number.2.wrapped = none then some () else none) = some () := by
    decide +kernel
  obtain ⟨parsed, read, wraps⟩ := Option.bind_eq_some_iff.mp wraps
  obtain ⟨⟨n, e⟩, declared, wraps⟩ := Option.bind_eq_some_iff.mp wraps
  obtain ⟨faulty, readFaulty, faults⟩ := Option.bind_eq_some_iff.mp faults
  obtain ⟨⟨k, f⟩, declaredFaulty, faults⟩ := Option.bind_eq_some_iff.mp faults
  constructor
  · obtain ⟨s₁, s₂, body⟩ := eq_of_declaredNumber? declared
    split at wraps
    · rename_i facts
      obtain ⟨numeric, value⟩ := facts
      obtain ⟨-, -, fold⟩ := numbers_fold (toOption_eq_some read) body numeric
      have safe : ¬ e.DividesByZero := by
        rw [← numeric.wrapped_eq_none_iff, value]
        simp
      obtain ⟨c, word, v, compiled, found, -, -, -, runs⟩ := fold safe
      rw [value] at found
      cases found
      exact ⟨c, compiled, runs .fresh 3 (by decide)⟩
    · cases wraps
  · obtain ⟨s₁, s₂, body⟩ := eq_of_declaredNumber? declaredFaulty
    split at faults
    · rename_i facts
      obtain ⟨numeric, value⟩ := facts
      exact (numbers_fold (toOption_eq_some readFaulty) body numeric).1.mpr
        (numeric.wrapped_eq_none_iff.mp value)
    · cases faults

end WindowedClosures
