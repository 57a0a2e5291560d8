import WindowedClosures.Proofs.Scope.Sugar

/-!
# Programs without sugar

A desugared program has no composition left, and each arm of a choice is a literal of its own. A
program fails to desugar only if some choice lacks an arm. So making code for a resolved program
meets neither a composition nor a choice that lacks an arm.
-/

namespace WindowedClosures

/-- No composition, and no choice but one between two arms. -/
def ScopeTree.SugarFree (tree : ScopeTree) : Expr → Prop
  | .binary .compose .. => False
  | .binary .choose _ (.tuple [yes, no] _) _ => tree.IsArm yes.value ∧ tree.IsArm no.value
  | .binary .choose .. => False
  | _ => True

/-- A fault of code that desugaring rules out. -/
def CompileError.IsSugar : CompileError → Prop
  | .semantic (.unresolvedComposition _) | .semantic (.invalidControl _) => True
  | _ => False

open ScopeTree

theorem Expr.Stays.sugarFree {e : Expr} (h : e.Stays) (tree : ScopeTree) : tree.SugarFree e := by
  cases e with
  | binary op => cases op <;> trivial
  | _ => trivial

theorem ScopeTree.Stems.sugarFree {after : ScopeTree} {m n : Expr} (h : after.Stems m n) :
    after.SugarFree n := by
  cases h with
  | same stays shell => exact (stays_of_shell stays shell).sugarFree after
  | choice yes no => exact ⟨yes, no⟩
  | _ => trivial

theorem ScopeTree.SugarFree.isPair {tree : ScopeTree} {cond arms : Expr} {span : Span}
    (h : tree.SugarFree (.binary .choose cond arms span)) : arms.IsPair := by
  unfold SugarFree at h
  split at h
  · cases h
  · rename_i eq
    cases eq
    trivial
  · cases h
  · rename_i other
    exact absurd rfl (other _ _ _)

/-- The nodes of a program that is free of sugar give no fault that desugaring rules out. -/
theorem ScopeTree.SugarFree.harmless {tree : ScopeTree} {m n : Expr} (h : tree.SugarFree m)
    (same : m.unnumbered = n.unnumbered) : Harmless CompileError.IsSugar n where
  place e _ shape bad := by
    cases e with
    | semantic cause => cases cause <;> first | exact bad | exact shape trivial
    | _ => exact bad
  composition f g span eq := by
    subst eq
    obtain ⟨f', g', rfl, -⟩ := Expr.unnumbered_eq_binary same
    cases h
  control cond arms span eq unpaired := by
    subst eq
    obtain ⟨cond', arms', rfl, -, sameArms⟩ := Expr.unnumbered_eq_binary same
    refine absurd ?_ unpaired
    rw [← Expr.isPair_unnumbered, ← sameArms, Expr.isPair_unnumbered]
    exact h.isPair

namespace ScopeTree

variable {parsed tree : ScopeTree}

theorem Read.sugarFree (h : parsed.Read) (done : parsed.desugar = .ok tree) {n : Expr}
    (occurs : tree.Occurs n tree.root.body) : tree.SugarFree n := by
  obtain ⟨m, -, stems⟩ := (h.desugared.1 tree done).2.stems n occurs
  exact stems.sugarFree

/-- Desugaring fails exactly where a choice lacks an arm. -/
theorem Read.desugar_error_iff (h : parsed.Read) :
    (∃ fault, parsed.desugar = .error fault) ↔ ∃ cond arms span,
      parsed.Occurs (.binary .choose cond arms span) parsed.root.body ∧ ¬ arms.IsPair := by
  constructor
  · intro ⟨fault, fails⟩
    obtain ⟨n, occurs, cond, arms, span, rfl, unpaired, -⟩ := h.desugared.2 fault fails
    exact ⟨cond, arms, span, occurs, unpaired⟩
  · intro ⟨cond, arms, span, occurs, unpaired⟩
    cases done : parsed.desugar with
    | error fault => exact ⟨fault, rfl⟩
    | ok tree => exact absurd ((h.desugared.1 tree done).2.isPair occurs) unpaired

/-- The statements of a resolved program give no fault that desugaring rules out. -/
theorem Read.spared (h : parsed.Read) (done : parsed.resolve = .ok tree) :
    tree.Spared CompileError.IsSugar := by
  intro id e hm n node
  obtain ⟨plain, desugars, renumbers⟩ := renumbers_resolve done
  obtain ⟨e', hm', n', node', same⟩ := renumbers.node hm node
  obtain ⟨ids, below, perm⟩ := (h.desugar desugars).owns
  exact (h.sugarFree desugars ((below.formed perm).occurs hm' node')).harmless same

theorem Read.compile_avoids_sugar (h : parsed.Read) (done : parsed.resolve = .ok tree) :
    Avoids CompileError.IsSugar tree.compile := by
  have placeless (e : CompileError) (none : e.span? = .none) : ¬ e.IsSugar := by
    cases e with
    | semantic => cases none
    | _ => exact not_false
  refine compile_avoids placeless (fun _ => scopeCode_avoids placeless ?_) fun _ _ _ _ _ _ _ => .inr not_false
  exact (clean_body placeless (h.spared done) fun _ _ _ _ _ => not_false).never

end ScopeTree

/-- Desugaring a program that can be read turns it into one without compositions, in which every
choice has two arms that are literals. It fails exactly if some choice lacks an arm, and tells of
such a choice. Making code for the resolved program then never fails for a composition or for a choice
that lacks an arm. -/
theorem sugar_dissolved {tokens : List Token} {parsed : ScopeTree}
    (h : Grammar.readProgram tokens = .ok parsed) :
    (∀ tree, parsed.desugar = .ok tree →
      Desugared parsed tree parsed.root.body tree.root.body ∧
        ∀ n, tree.Occurs n tree.root.body → tree.SugarFree n) ∧
    ((∃ fault, parsed.desugar = .error fault) ↔ ∃ cond arms span,
      parsed.Occurs (.binary .choose cond arms span) parsed.root.body ∧ ¬ arms.IsPair) ∧
    (∀ fault, parsed.desugar = .error fault → ∃ cond arms span,
      parsed.Occurs (.binary .choose cond arms span) parsed.root.body ∧ ¬ arms.IsPair ∧
        fault = .invalidControl arms.span) ∧
    ∀ tree, parsed.resolve = .ok tree → ∀ e, tree.compile = .error e → ∀ span,
      e ≠ .semantic (.unresolvedComposition span) ∧ e ≠ .semantic (.invalidControl span) := by
  have read := Grammar.readProgram_read h
  refine ⟨fun tree done => ⟨(read.desugared.1 tree done).2, fun n => read.sugarFree done⟩,
    read.desugar_error_iff, fun fault fails => ?_, fun tree done e fails span => ?_⟩
  · obtain ⟨n, occurs, cond, arms, span, rfl, unpaired, eq⟩ := read.desugared.2 fault fails
    exact ⟨cond, arms, span, occurs, unpaired, eq⟩
  · have avoided := read.compile_avoids_sugar done e fails
    constructor
    · rintro rfl
      exact avoided trivial
    · rintro rfl
      exact avoided trivial

/-- A composition of compositions inside an arm: two compositions and two arms get scopes. -/
theorem sugar_dissolved_nested : ∃ tokens parsed tree,
    readTokens "[ f: int > int = \\x > \x7b x + 1 \x7d; 1 > 0 ? (f • (f • f), f)" = .ok tokens ∧
      Grammar.readProgram tokens = .ok parsed ∧ parsed.count = 2 ∧ parsed.desugar = .ok tree ∧
      tree.count = 6 ∧ Desugared parsed tree parsed.root.body tree.root.body ∧
      ∀ n, tree.Occurs n tree.root.body → tree.SugarFree n := by
  have found : (do
      let tokens ← (readTokens
        "[ f: int > int = \\x > \x7b x + 1 \x7d; 1 > 0 ? (f • (f • f), f)").toOption
      let parsed ← (Grammar.readProgram tokens).toOption
      let tree ← parsed.desugar.toOption
      if parsed.count = 2 ∧ tree.count = 6 then some () else none) = some () := by decide +kernel
  obtain ⟨tokens, ht, found⟩ := Option.bind_eq_some_iff.mp found
  obtain ⟨parsed, hp, found⟩ := Option.bind_eq_some_iff.mp found
  obtain ⟨tree, hd, found⟩ := Option.bind_eq_some_iff.mp found
  split at found
  · rename_i facts
    obtain ⟨desugared, free⟩ := (sugar_dissolved (toOption_eq_some hp)).1 tree (toOption_eq_some hd)
    exact ⟨tokens, parsed, tree, toOption_eq_some ht, toOption_eq_some hp, facts.1,
      toOption_eq_some hd, facts.2, desugared, free⟩
  · cases found

end WindowedClosures
