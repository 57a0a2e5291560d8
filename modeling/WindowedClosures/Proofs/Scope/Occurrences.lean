import WindowedClosures.Proofs.Expr.Nodes
import WindowedClosures.Proofs.Scope.Ownership

/-!
# The nodes of a program

A node occurs in a program if it stands in its statements or in the body of a literal that does. In
a program as it is read every node of every scope occurs. From desugaring on, resolving changes no
statement but for the numbers of its literals.
-/

namespace WindowedClosures

namespace ScopeTree

/-- A node of the statements, or of the body of a literal inside them, however deep. -/
inductive Occurs (tree : ScopeTree) (n : Expr) : List Expr → Prop
  | here {es : List Expr} : Occurs tree n (n :: es)
  | part {e : Expr} {es : List Expr} : Occurs tree n e.parts → Occurs tree n (e :: es)
  | body {literal : FunctionLiteral} {span : Span} {es : List Expr} :
      Occurs tree n (tree.scope literal.scope).body → Occurs tree n (.function literal span :: es)
  | later {e : Expr} {es : List Expr} : Occurs tree n es → Occurs tree n (e :: es)

variable {tree : ScopeTree} {m n e : Expr} {es : List Expr}

@[simp] theorem not_occurs_nil (tree : ScopeTree) (n : Expr) : ¬ tree.Occurs n [] := by
  intro h
  cases h

theorem occurs_cons_iff : tree.Occurs n (e :: es) ↔ n = e ∨ tree.Occurs n e.parts ∨
    (∃ literal span, e = .function literal span ∧ tree.Occurs n (tree.scope literal.scope).body) ∨
      tree.Occurs n es := by
  constructor
  · intro h
    cases h with
    | here => exact .inl rfl
    | part inner => exact .inr (.inl inner)
    | body inner => exact .inr (.inr (.inl ⟨_, _, rfl, inner⟩))
    | later rest => exact .inr (.inr (.inr rest))
  · rintro (rfl | inner | ⟨literal, span, rfl, inner⟩ | rest)
    · exact .here
    · exact .part inner
    · exact .body inner
    · exact .later rest

/-- What occurs in a statement occurs in a row with it. -/
theorem Occurs.mem (h : tree.Occurs n [e]) (hm : e ∈ es) : tree.Occurs n es := by
  induction es with
  | nil => cases hm
  | cons first rest ih =>
    rcases List.mem_cons.mp hm with rfl | hm
    · rw [occurs_cons_iff] at h ⊢
      simpa [not_occurs_nil, or_assoc] using Or.inl h
    · exact .later (ih hm)

@[simp] theorem occurs_cons_cons {first : Expr} :
    tree.Occurs n (first :: e :: es) ↔ tree.Occurs n [first] ∨ tree.Occurs n (e :: es) := by
  rw [occurs_cons_iff, @occurs_cons_iff tree n first []]
  simp only [not_occurs_nil, or_false, or_assoc]

@[simp] theorem occurs_binary {op : BinaryOp} {lhs rhs : Expr} {span : Span} :
    tree.Occurs n [.binary op lhs rhs span] ↔
      n = .binary op lhs rhs span ∨ tree.Occurs n [lhs] ∨ tree.Occurs n [rhs] := by
  rw [occurs_cons_iff]
  simp [Expr.parts]

@[simp] theorem occurs_function {literal : FunctionLiteral} {span : Span} :
    tree.Occurs n [.function literal span] ↔
      n = .function literal span ∨ tree.Occurs n (tree.scope literal.scope).body := by
  rw [occurs_cons_iff]
  simp [Expr.parts]

@[simp] theorem occurs_name {value : String} {span : Span} :
    tree.Occurs n [.name value span] ↔ n = .name value span := by
  rw [occurs_cons_iff]
  simp [Expr.parts]

@[simp] theorem occurs_pair {yes no : Labelled Expr} {span : Span} :
    tree.Occurs n [.tuple [yes, no] span] ↔
      n = .tuple [yes, no] span ∨ tree.Occurs n [yes.value] ∨ tree.Occurs n [no.value] := by
  rw [occurs_cons_iff]
  simp [Expr.parts]

theorem Occurs.trans (h : tree.Occurs m es) (inner : tree.Occurs n [m]) : tree.Occurs n es := by
  induction h with
  | here => exact inner.mem (by simp)
  | part _ ih => exact .part ih
  | body _ ih => exact .body ih
  | later _ ih => exact .later ih

theorem occurs_of_mem_nodes (e : Expr) (h : n ∈ e.nodes) : tree.Occurs n [e] := by
  induction e using Expr.of_parts with
  | step e ih =>
    rw [Expr.nodes_eq, List.mem_cons] at h
    rcases h with rfl | h
    · exact .here
    · obtain ⟨part, hp, h⟩ := List.mem_flatMap.mp h
      exact .part ((ih part hp h).mem hp)

/-- A scope owns the bodies of the literals among its nodes. -/
theorem Owns.node {outer inner : ScopeId} (owns : tree.Owns outer inner) :
    ∃ e ∈ (tree.scope outer).body, ∃ literal span,
      .function literal span ∈ e.nodes ∧ literal.scope = inner := by
  obtain ⟨literal, listed, rfl⟩ := List.mem_map.mp owns
  obtain ⟨e, hm, listed⟩ := List.mem_flatMap.mp listed
  rw [Expr.literals_eq] at listed
  obtain ⟨node, hn, found⟩ := List.mem_filterMap.mp listed
  cases node with
  | function l span =>
    cases found
    exact ⟨e, hm, literal, span, hn, rfl⟩
  | _ => cases found

/-- A literal leads into its body. -/
theorem Occurs.owned {outer inner : ScopeId} (owns : tree.Owns outer inner)
    (h : tree.Occurs n (tree.scope inner).body) : tree.Occurs n (tree.scope outer).body := by
  obtain ⟨e, hm, literal, span, node, rfl⟩ := owns.node
  exact ((occurs_of_mem_nodes e node).mem hm).trans (.body h)

/-- Where all scopes lie below the program, every node of every scope occurs in the program. -/
theorem Formed.occurs (h : tree.Formed) {id : ScopeId} (hm : e ∈ (tree.scope id).body)
    (node : n ∈ e.nodes) : tree.Occurs n tree.root.body := by
  have up (outer : ScopeId) (path : Relation.ReflTransGen tree.Owns outer id) :
      tree.Occurs n (tree.scope outer).body := by
    induction path using Relation.ReflTransGen.head_induction_on with
    | refl => exact (occurs_of_mem_nodes e node).mem hm
    | head owns _ ih => exact ih.owned owns
  exact up rootId (h.reached id (lt_of_mem_body hm))

/-- What occurs in statements stands in them or in some scope. -/
theorem Occurs.found (h : tree.Occurs n es) :
    (∃ e ∈ es, n ∈ e.nodes) ∨ ∃ id, ∃ e ∈ (tree.scope id).body, n ∈ e.nodes := by
  induction h with
  | here => exact .inl ⟨n, by simp, n.mem_nodes_self⟩
  | @part e es _ ih =>
    rcases ih with ⟨part, hm, node⟩ | found
    · refine .inl ⟨e, by simp, ?_⟩
      rw [Expr.nodes_eq]
      exact List.mem_cons_of_mem _ (List.mem_flatMap.mpr ⟨part, hm, node⟩)
    · exact .inr found
  | @body literal _ _ _ ih =>
    rcases ih with found | found
    · exact .inr ⟨literal.scope, found⟩
    · exact .inr found
  | later _ ih =>
    rcases ih with ⟨e, hm, node⟩ | found
    · exact .inl ⟨e, List.mem_cons_of_mem _ hm, node⟩
    · exact .inr found

/-! ## Numbers of literals -/

/-- The statements of all scopes are the same, but for the numbers of literals. -/
structure Renumbers (before after : ScopeTree) : Prop where
  body : ∀ id : ScopeId, (after.scope id).body.map Expr.unnumbered =
    (before.scope id).body.map Expr.unnumbered
  origin : ∀ id : ScopeId, (after.scope id).origin = (before.scope id).origin

variable {first second third : ScopeTree}

theorem renumbers_refl (tree : ScopeTree) : tree.Renumbers tree := ⟨fun _ => rfl, fun _ => rfl⟩

theorem Renumbers.trans (h : first.Renumbers second) (h' : second.Renumbers third) :
    first.Renumbers third :=
  ⟨fun id => (h'.body id).trans (h.body id), fun id => (h'.origin id).trans (h.origin id)⟩

/-- A node after was one before. -/
theorem Renumbers.node (h : first.Renumbers second) {id : ScopeId}
    (hm : e ∈ (second.scope id).body) (node : n ∈ e.nodes) :
    ∃ e' ∈ (first.scope id).body, ∃ n' ∈ e'.nodes, n'.unnumbered = n.unnumbered := by
  have found : e.unnumbered ∈ (second.scope id).body.map Expr.unnumbered := List.mem_map_of_mem hm
  rw [h.body id] at found
  obtain ⟨e', hm', eq⟩ := List.mem_map.mp found
  have inside : n.unnumbered ∈ e.unnumbered.nodes := by
    rw [Expr.nodes_unnumbered]
    exact List.mem_map_of_mem node
  rw [← eq, Expr.nodes_unnumbered] at inside
  obtain ⟨n', node', same⟩ := List.mem_map.mp inside
  exact ⟨e', hm', n', node', same⟩

/-- Giving scopes new statements that are the old ones but for numbers. -/
theorem Renumbers.setBody (h : first.Renumbers second) {id : ScopeId} {body : List Expr}
    (same : body.map Expr.unnumbered = (first.scope id).body.map Expr.unnumbered) :
    first.Renumbers (second.setBody id body) := by
  refine ⟨fun i => ?_, fun i => ?_⟩
  · rw [ScopeTree.setBody, scope_modify]
    split
    · rename_i here
      rw [here.1]
      exact same
    · exact h.body i
  · rw [ScopeTree.setBody, scope_modify, ← h.origin i]
    split <;> rfl

end ScopeTree

open ScopeTree

variable {enter : ScopeId → StateM Numbering Unit} {outer : ScopeId}

/-- A step changes the statements of the tree in their numbers only, and so its own result. -/
def KeepsText {α : Type} (m : StateM Numbering α) (same : α → Prop) : Prop :=
  ∀ s : Numbering, same (m s).1 ∧ s.tree.Renumbers (m s).2.tree

theorem KeepsText.pure {α : Type} {same : α → Prop} {a : α} (h : same a) :
    KeepsText (Pure.pure a) same :=
  fun s => ⟨h, renumbers_refl s.tree⟩

theorem KeepsText.bind {α β : Type} {m : StateM Numbering α} {f : α → StateM Numbering β}
    {same : α → Prop} {same' : β → Prop} (hm : KeepsText m same)
    (hf : ∀ a, same a → KeepsText (f a) same') : KeepsText (m >>= f) same' := by
  intro s
  obtain ⟨here, kept⟩ := hm s
  obtain ⟨here', kept'⟩ := hf _ here (m s).2
  exact ⟨here', kept.trans kept'⟩

theorem keepsText_parent (literal : FunctionLiteral) (n : Nat) : KeepsText
    (modify fun s => ⟨s.tree.modify literal.scope fun body => { body with parent := some outer }, n + 1⟩)
    fun _ => True := by
  intro s
  refine ⟨trivial, fun id => ?_, fun id => ?_⟩
  · show ((s.tree.modify literal.scope _).scope id).body.map _ = _
    rw [scope_modify]
    split <;> rfl
  · show ((s.tree.modify literal.scope _).scope id).origin = _
    rw [scope_modify]
    split <;> rfl

mutual

theorem keepsText_expr (he : ∀ id, KeepsText (enter id) fun _ => True) : ∀ e : Expr,
    KeepsText (numberExpr enter outer e) fun e' => e'.unnumbered = e.unnumbered
  | .function literal span => by
    rw [numberExpr]
    refine .bind (fun s => ⟨trivial, renumbers_refl s.tree⟩) fun _ (_ : True) => ?_
    refine (keepsText_parent literal _).bind fun _ _ => ?_
    exact (he literal.scope).bind fun _ _ => .pure (by simp [Expr.unnumbered])
  | .binary op lhs rhs span => by
    rw [numberExpr]
    refine (keepsText_expr he lhs).bind fun lhs' left => ?_
    refine (keepsText_expr he rhs).bind fun rhs' right => ?_
    exact .pure (by simp [Expr.unnumbered, left, right])
  | .unary op operand span => by
    rw [numberExpr]
    refine (keepsText_expr he operand).bind fun operand' inner => ?_
    exact .pure (by simp [Expr.unnumbered, inner])
  | .varDecl declared type value span => by
    rw [numberExpr]
    refine (keepsText_expr he value).bind fun value' inner => ?_
    exact .pure (by simp [Expr.unnumbered, inner])
  | .tuple fields span => by
    rw [numberExpr]
    refine (keepsText_fields he fields).bind fun fields' inner => ?_
    exact .pure (by simp [Expr.unnumbered, inner])
  | .int .. | .hex .. | .float .. | .text .. | .name .. | .typeDecl .. => by
    rw [numberExpr]
    exact .pure rfl

theorem keepsText_fields (he : ∀ id, KeepsText (enter id) fun _ => True) :
    ∀ fields : List (Labelled Expr), KeepsText (numberFields enter outer fields)
      fun fields' => Expr.unnumberedFields fields' = Expr.unnumberedFields fields
  | [] => by
    rw [numberFields]
    exact .pure rfl
  | ⟨label, value⟩ :: rest => by
    rw [numberFields]
    refine (keepsText_expr he value).bind fun value' first => ?_
    refine (keepsText_fields he rest).bind fun rest' later => ?_
    exact .pure (by simp [Expr.unnumberedFields, first, later])

end

theorem keepsText_body (he : ∀ id, KeepsText (enter id) fun _ => True) (body : List Expr) :
    KeepsText (body.mapM (numberExpr enter outer))
      fun body' => body'.map Expr.unnumbered = body.map Expr.unnumbered := by
  induction body with
  | nil =>
    rw [List.mapM_nil]
    exact .pure rfl
  | cons e rest ih =>
    rw [List.mapM_cons]
    refine (keepsText_expr he e).bind fun e' first => ?_
    exact ih.bind fun rest' later => .pure (by simp [first, later])

theorem keepsText_numberScope (fuel : Nat) (id : ScopeId) :
    KeepsText (numberScope fuel id) fun _ => True := by
  induction fuel generalizing id with
  | zero => exact .pure trivial
  | succ fuel ih =>
    intro s
    have numbered : KeepsText ((s.tree.scope id).body.mapM (numberExpr (numberScope fuel) id)) _ :=
      keepsText_body ih (s.tree.scope id).body
    obtain ⟨same, kept⟩ := numbered s
    exact ⟨trivial, kept.setBody same⟩

/-- The statements of a scope, and how it came to exist. -/
def Scope.written (s : Scope) : List Expr × Origin := (s.body, s.origin)

namespace ScopeTree

variable {plain tree tree' : ScopeTree}

theorem renumbers_number (tree : ScopeTree) : tree.Renumbers tree.number :=
  (keepsText_numberScope tree.count rootId ⟨tree, 0⟩).2

theorem Renumbers.same (h : plain.Renumbers tree) (same : Same Scope.written tree tree') :
    plain.Renumbers tree' := by
  refine ⟨fun id => ?_, fun id => ?_⟩
  · rw [← h.body id]
    exact congrArg (fun written => written.1.map Expr.unnumbered) (same.scopes id)
  · rw [← h.origin id]
    exact congrArg Prod.snd (same.scopes id)

/-- Declaring what a program declares changes none of its statements. -/
theorem Renumbers.declare {typed declared listed : ScopeTree} (h : plain.Renumbers tree)
    (h₁ : tree.declareTypes = .ok typed) (h₂ : typed.declareVariables = .ok declared)
    (h₃ : declared.declareFunctions = .ok listed) : plain.Renumbers listed := by
  have numbers := (h.same (same_declareTypes (fun _ _ => rfl) h₁)).same
    (same_declareVariables (fun _ _ => rfl) h₂)
  have scopes := (declareFunctions_scope h₃).2
  exact ⟨fun id => by rw [scopes, numbers.body], fun id => by rw [scopes, numbers.origin]⟩

/-- Whatever is declared, inferred, bound and captured, the statements are those of the desugared
program. -/
theorem renumbers_resolve {parsed tree : ScopeTree} (h : parsed.resolve = .ok tree) :
    ∃ plain, parsed.desugar = .ok plain ∧ plain.Renumbers tree := by
  obtain ⟨plain, typed, declared, listed, inferred, bound, h₁, h₂, h₃, h₄, h₅, h₆, rfl⟩ :=
    resolve_ok_iff.mp h
  have numbers := (renumbers_number plain).declare h₂ h₃ h₄
  exact ⟨plain, h₁, ((numbers.same (same_inferArrows (fun _ _ => rfl) h₅)).same
    (same_bindInputs (fun _ _ => rfl) h₆)).same (same_capture (fun _ _ => rfl) bound)⟩

end ScopeTree

end WindowedClosures
