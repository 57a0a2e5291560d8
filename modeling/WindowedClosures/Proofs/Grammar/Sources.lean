import WindowedClosures.Proofs.Grammar.Printing
import WindowedClosures.Proofs.Scope.Occurrences

/-!
# Expressions of a source text

The statements of a program that was read from a text without fractional numbers can be printed, if
they have no function literal and no field of a bare decimal number: their names are names, their
texts have no quote inside, and their numbers are not negative.
-/

namespace WindowedClosures

/-! ## Types -/

/-- A part of a type that can be printed. -/
def TypePhrase.Printable : TypePhrase → Prop
  | .simple t => t.Printable ∧ t.isFunction = false
  | .type t => t.Printable
  | .field f => (∀ label ∈ f.label, IsName label) ∧ f.value.Printable
  | .fields fs => ∀ f ∈ fs, (∀ label ∈ f.label, IsName label) ∧ f.value.Printable

theorem TypeSpells.printable {tokens : List Token} {phrase : TypePhrase} (h : TypeSpells tokens phrase)
    (legal : LegalAll tokens) : phrase.Printable := by
  induction h with
  | named =>
    rw [legalAll_leaf] at legal
    exact ⟨.named legal.1, rfl⟩
  | @array name here there line line' count _ =>
    simp only [legalAll_leaf] at legal
    refine ⟨.array legal.1 ?_, rfl⟩
    have := count.toInt_lt
    omega
  | pointer _ _ ih =>
    have inner := ih (legalAll_append.mp legal).1
    exact ⟨.pointer inner.1 inner.2, rfl⟩
  | unit => exact ⟨.tuple (List.forall_mem_nil _) (List.forall_mem_nil _), rfl⟩
  | tuple _ ih =>
    have fields := ih (legalAll_group.mp legal).1
    exact ⟨.tuple (fun f hf => (fields f hf).1) fun f hf => (fields f hf).2, rfl⟩
  | ofSimple _ ih => exact (ih legal).1
  | function _ _ ih ih' =>
    simp only [legalAll_append, legalAll_leaf] at legal
    have input := ih legal.1
    exact .function input.1 input.2 (ih' legal.2.2)
  | plainField _ ih => exact ⟨by rintro label ⟨⟩, ih legal⟩
  | labelledField _ ih =>
    simp only [legalAll_leaf] at legal
    refine ⟨fun label eq => ?_, ih legal.2.2⟩
    cases eq
    exact legal.1
  | lastField _ ih =>
    intro f hf
    rw [List.mem_singleton.mp hf]
    exact ih legal
  | moreFields _ _ ih ih' =>
    simp only [legalAll_append, legalAll_leaf] at legal
    exact List.forall_mem_cons.mpr ⟨ih legal.1, ih' legal.2.2⟩

/-! ## Expressions -/

/-- A field of a bare decimal number. -/
def Expr.isFieldOfDecimal : Expr → Bool
  | .binary .field lhs _ _ => lhs.isDecimal
  | _ => false

/-- No function literal and no field of a bare decimal number. -/
def Expr.Explicit (e : Expr) : Prop :=
  ∀ n ∈ e.nodes, n.asFunction? = none ∧ n.isFieldOfDecimal = false

instance (e : Expr) : Decidable e.Explicit :=
  inferInstanceAs (Decidable (∀ n ∈ e.nodes, n.asFunction? = none ∧ n.isFieldOfDecimal = false))

theorem Expr.Explicit.part {e part : Expr} (h : e.Explicit) (hp : part ∈ e.parts) : part.Explicit :=
  fun n hn => h n (Expr.nodes_trans hn e (Expr.mem_nodes_part hp e.mem_nodes_self))

theorem Expr.Explicit.left {op : BinaryOp} {lhs rhs : Expr} {span : Span}
    (h : (Expr.binary op lhs rhs span).Explicit) : lhs.Explicit := h.part (by simp [parts])

theorem Expr.Explicit.right {op : BinaryOp} {lhs rhs : Expr} {span : Span}
    (h : (Expr.binary op lhs rhs span).Explicit) : rhs.Explicit := h.part (by simp [parts])

/-- An expression up to a level can be printed, where it is explicit. -/
def Expr.PrintsAt (level : Nat) (e : Expr) : Prop := e.Explicit → e.Printable ∧ e.level ≤ level

/-- A part of a program that can be printed. -/
def Phrase.Printable : Phrase → Prop
  | .primary e | .suffixed e => e.PrintsAt 0
  | .operand e | .operators e => e.PrintsAt 1
  | .expression e => e.PrintsAt 2
  | .statement e => e.PrintsAt 3
  | .statements body => ∀ e ∈ body, e.PrintsAt 3
  | .field f => (∀ label ∈ f.label, IsName label) ∧ f.value.PrintsAt 2
  | .fields fs => ∀ f ∈ fs, (∀ label ∈ f.label, IsName label) ∧ f.value.PrintsAt 2

theorem Expr.PrintsAt.mono {level level' : Nat} {e : Expr} (h : e.PrintsAt level)
    (le : level ≤ level') : e.PrintsAt level' := fun explicit =>
  ⟨(h explicit).1, Nat.le_trans (h explicit).2 le⟩

theorem Spells.printable {tree : ScopeTree} {tokens : List Token} {phrase : Phrase}
    (h : Spells tree tokens phrase) (legal : LegalAll tokens) : phrase.Printable := by
  induction h with
  | int => exact fun _ => ⟨.int (legalAll_leaf.mp legal).1, Nat.le_refl _⟩
  | hex => exact fun _ => ⟨.hex, Nat.le_refl _⟩
  | float => exact absurd (legalAll_leaf.mp legal).1 not_false
  | text => exact fun _ => ⟨.text (legalAll_leaf.mp legal).1, Nat.le_refl _⟩
  | name => exact fun _ => ⟨.name (legalAll_leaf.mp legal).1, Nat.le_refl _⟩
  | unit =>
    exact fun _ => ⟨.tuple (List.forall_mem_nil _) (List.forall_mem_nil _) (List.forall_mem_nil _),
      Nat.le_refl _⟩
  | @tuple children fields span line _ ih =>
    intro explicit
    have inner := ih (legalAll_group.mp legal).1
    have parts (f : Labelled Expr) (hf : f ∈ fields) : f.value.Printable ∧ f.value.level ≤ 2 :=
      (inner f hf).2 (explicit.part (List.mem_map_of_mem hf))
    exact ⟨.tuple (fun f hf => (inner f hf).1) (fun f hf => (parts f hf).2) fun f hf =>
      (parts f hf).1, Nat.le_refl _⟩
  | block | lambda => exact fun explicit => by cases (explicit _ (Expr.mem_nodes_self _)).1
  | ofPrimary _ ih => exact ih legal
  | call _ _ ih ih' =>
    intro explicit
    rw [legalAll_append] at legal
    obtain ⟨callee, level⟩ := ih legal.1 explicit.left
    obtain ⟨args, -⟩ := ih' legal.2 explicit.right
    exact ⟨.call callee (Nat.le_zero.mp level) args, Nat.le_refl _⟩
  | access _ ih =>
    intro explicit
    simp only [legalAll_append, legalAll_leaf] at legal
    obtain ⟨base, level⟩ := ih legal.1 explicit.left
    have decimal := (explicit _ (Expr.mem_nodes_self _)).2
    exact ⟨.access base (Nat.le_zero.mp level) decimal legal.2.2.1, Nat.le_refl _⟩
  | index _ _ ih ih' =>
    intro explicit
    simp only [legalAll_append, legalAll_leaf] at legal
    obtain ⟨base, level⟩ := ih legal.1 explicit.left
    obtain ⟨position, inner⟩ := ih' legal.2.2.1 explicit.right
    exact ⟨.index base (Nat.le_zero.mp level) position inner, Nat.le_refl _⟩
  | ofSuffixed _ ih => exact (ih legal).mono (Nat.zero_le _)
  | unary op _ ih =>
    intro explicit
    obtain ⟨operand, level⟩ := ih (legalAll_leaf.mp legal).2 (explicit.part (List.mem_singleton_self _))
    exact ⟨.unary operand level, Nat.le_refl _⟩
  | ofOperand _ ih => exact ih legal
  | operator op _ _ ih ih' =>
    intro explicit
    simp only [legalAll_append, legalAll_leaf] at legal
    obtain ⟨left, level⟩ := ih legal.1 explicit.left
    obtain ⟨right, level'⟩ := ih' legal.2.2 explicit.right
    have between := (binding?_eq op).1
    exact ⟨.operation between left level right level', by
      rw [Expr.ofOperands, Expr.level_operation between]
      exact Nat.zero_le _⟩
  | ofOperators _ ih => exact (ih legal).mono (Nat.le_succ _)
  | assign _ ih =>
    intro explicit
    simp only [legalAll_leaf] at legal
    obtain ⟨value, level⟩ := ih legal.2.2 explicit.right
    exact ⟨.assign legal.1 value level, Nat.le_refl _⟩
  | ofExpression _ ih => exact (ih legal).mono (Nat.le_succ _)
  | varDecl typed _ ih =>
    intro explicit
    simp only [legalAll_leaf, legalAll_append] at legal
    obtain ⟨value, level⟩ := ih legal.2.2.2.2.2 (explicit.part (List.mem_singleton_self _))
    exact ⟨.varDecl legal.2.1 (typed.printable legal.2.2.2.1) value level, Nat.le_refl _⟩
  | typeDecl typed =>
    intro explicit
    simp only [legalAll_leaf] at legal
    exact ⟨.typeDecl legal.2.1 (typed.printable legal.2.2.2), Nat.le_refl _⟩
  | noStatement => exact List.forall_mem_nil _
  | lastStatement _ ih =>
    intro e hm
    rw [List.mem_singleton.mp hm]
    exact ih legal
  | moreStatements _ _ ih ih' =>
    simp only [legalAll_append, legalAll_leaf] at legal
    exact List.forall_mem_cons.mpr ⟨ih legal.1, ih' legal.2.2⟩
  | plainField _ ih => exact ⟨by rintro label ⟨⟩, ih legal⟩
  | labelledField _ ih =>
    simp only [legalAll_leaf] at legal
    refine ⟨fun label eq => ?_, ih legal.2.2⟩
    cases eq
    exact legal.1
  | lastField _ ih =>
    intro f hf
    rw [List.mem_singleton.mp hf]
    exact ih legal
  | moreFields _ _ ih ih' =>
    simp only [legalAll_append, legalAll_leaf] at legal
    exact List.forall_mem_cons.mpr ⟨ih legal.1, ih' legal.2.2⟩

/-! ## Bodies of literals -/

/-- The body of every literal in expressions is spelled by legal tokens. -/
def SpelledBodies (tree : ScopeTree) (es : List Expr) : Prop :=
  ∀ literal ∈ literalsOf es, ∃ inner, LegalAll inner ∧
    Spells tree inner (.statements (tree.scope literal.scope).body)

section

variable {tree : ScopeTree} {e : Expr} {es : List Expr}

@[simp] theorem spelledBodies_nil : SpelledBodies tree [] := by simp [SpelledBodies]

theorem spelledBodies_cons :
    SpelledBodies tree (e :: es) ↔ SpelledBodies tree [e] ∧ SpelledBodies tree es := by
  simp [SpelledBodies, or_imp, forall_and]

/-- What is no literal has the literals of its parts. -/
theorem SpelledBodies.of_parts (plain : e.asFunction? = none) (h : SpelledBodies tree e.parts) :
    SpelledBodies tree [e] := by
  have same : e.literals = literalsOf e.parts := by
    rw [Expr.literals_eq_parts, plain]
    rfl
  intro literal hm
  rw [literalsOf_cons, literalsOf_nil, List.append_nil, same] at hm
  exact h literal hm

/-- A literal has its own body. -/
theorem spelledBodies_function {literal : FunctionLiteral} {span : Span} {inner : List Token}
    (legal : LegalAll inner) (h : Spells tree inner (.statements (tree.scope literal.scope).body)) :
    SpelledBodies tree [.function literal span] := by
  intro other hm
  rw [literalsOf_cons, literalsOf_nil, List.append_nil, Expr.literals, List.mem_singleton] at hm
  rw [hm]
  exact ⟨inner, legal, h⟩

end

theorem Spells.bodies {tree : ScopeTree} {tokens : List Token} {phrase : Phrase}
    (h : Spells tree tokens phrase) (legal : LegalAll tokens) : SpelledBodies tree phrase.exprs := by
  induction h with
  | int | hex | float | text | name | unit => exact .of_parts rfl spelledBodies_nil
  | tuple _ ih => exact .of_parts rfl (ih (legalAll_group.mp legal).1)
  | block spells _ scope _ =>
    simp only [legalAll_leaf, legalAll_append, legalAll_group] at legal
    refine spelledBodies_function legal.2.2.1 ?_
    dsimp only
    rwa [scope]
  | lambda spells _ scope _ =>
    simp only [legalAll_leaf, legalAll_append] at legal
    refine spelledBodies_function legal.2.2 ?_
    dsimp only
    rw [scope]
    exact .lastStatement (.ofExpression spells)
  | ofPrimary _ ih => exact ih legal
  | call _ _ ih ih' =>
    rw [legalAll_append] at legal
    exact .of_parts rfl (spelledBodies_cons.mpr ⟨ih legal.1, ih' legal.2⟩)
  | access _ ih =>
    rw [legalAll_append] at legal
    exact .of_parts rfl (spelledBodies_cons.mpr ⟨ih legal.1, .of_parts rfl spelledBodies_nil⟩)
  | index _ _ ih ih' =>
    simp only [legalAll_append, legalAll_leaf] at legal
    exact .of_parts rfl (spelledBodies_cons.mpr ⟨ih legal.1, ih' legal.2.2.1⟩)
  | ofSuffixed _ ih => exact ih legal
  | unary _ _ ih => exact .of_parts rfl (ih (legalAll_leaf.mp legal).2)
  | ofOperand _ ih => exact ih legal
  | operator _ _ _ ih ih' =>
    simp only [legalAll_append, legalAll_leaf] at legal
    exact .of_parts rfl (spelledBodies_cons.mpr ⟨ih legal.1, ih' legal.2.2⟩)
  | ofOperators _ ih => exact ih legal
  | assign _ ih =>
    simp only [legalAll_leaf] at legal
    exact .of_parts rfl (spelledBodies_cons.mpr ⟨.of_parts rfl spelledBodies_nil, ih legal.2.2⟩)
  | ofExpression _ ih => exact ih legal
  | varDecl _ _ ih =>
    simp only [legalAll_leaf, legalAll_append] at legal
    exact .of_parts rfl (ih legal.2.2.2.2.2)
  | typeDecl => exact .of_parts rfl spelledBodies_nil
  | noStatement => exact spelledBodies_nil
  | lastStatement _ ih => exact ih legal
  | moreStatements _ _ ih ih' =>
    simp only [legalAll_append, legalAll_leaf] at legal
    exact spelledBodies_cons.mpr ⟨ih legal.1, ih' legal.2.2⟩
  | plainField _ ih => exact ih legal
  | labelledField _ ih =>
    simp only [legalAll_leaf] at legal
    exact ih legal.2.2
  | lastField _ ih => exact ih legal
  | moreFields _ _ ih ih' =>
    simp only [legalAll_append, legalAll_leaf] at legal
    exact spelledBodies_cons.mpr ⟨ih legal.1, ih' legal.2.2⟩

/-! ## Programs -/

/-- The statements of every scope of a program are spelled by some of its tokens. -/
theorem Grammar.readProgram_bodies {tokens : List Token} {tree : ScopeTree}
    (h : readProgram tokens = .ok tree) (legal : LegalAll tokens) {id : ScopeId} (lt : id < tree.count) :
    ∃ inner, LegalAll inner ∧ Spells tree inner (.statements (tree.scope id).body) := by
  obtain ⟨ids, below, perm⟩ := (readProgram_read h).owns
  have path := (below.formed perm).reached id lt
  clear lt
  induction path with
  | refl => exact ⟨tokens, legal, (readProgram_spells h).1⟩
  | tail _ owns ih =>
    obtain ⟨run, legal, spells⟩ := ih
    obtain ⟨literal, listed, rfl⟩ := List.mem_map.mp owns
    exact spells.bodies legal literal listed

/-- A statement of a program can be printed. -/
theorem Grammar.readProgram_printable {tokens : List Token} {tree : ScopeTree}
    (h : readProgram tokens = .ok tree) (legal : LegalAll tokens) {id : ScopeId} {e : Expr}
    (hm : e ∈ (tree.scope id).body) (explicit : e.Explicit) : e.Printable := by
  obtain ⟨inner, legal, spells⟩ := readProgram_bodies h legal (ScopeTree.lt_of_mem_body hm)
  exact (spells.printable legal e hm explicit).1

end WindowedClosures
