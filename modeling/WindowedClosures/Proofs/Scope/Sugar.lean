import WindowedClosures.Proofs.Scope.Occurrences

/-!
# What desugaring makes of a program

`Desugared` relates statements before and after desugaring, through the bodies of all literals in
them: a composition has become a literal that applies one function behind the other, the arms of a
choice have become literals, and all else is as it was. Desugaring succeeds with statements so
related, and fails only at a choice without two arms.
-/

namespace WindowedClosures

/-- An expression that desugaring looks into, but leaves as it is. -/
def Expr.Stays : Expr → Prop
  | .function .. | .binary .compose .. | .binary .choose .. => False
  | _ => True

/-- Statements in a tree, and what they become in another. -/
inductive Desugared (before after : ScopeTree) : List Expr → List Expr → Prop
  | nil : Desugared before after [] []
  /-- Most expressions change in their parts only. -/
  | node {e e' : Expr} {es es' : List Expr} : e.Stays → e'.shell = e.shell →
      Desugared before after e.parts e'.parts → Desugared before after es es' →
      Desugared before after (e :: es) (e' :: es')
  /-- A literal stays, and its body is desugared in place. -/
  | function {literal : FunctionLiteral} {span : Span} {body es es' : List Expr} :
      after.scope literal.scope = { before.scope literal.scope with body := body } →
      Desugared before after (before.scope literal.scope).body body →
      Desugared before after es es' →
      Desugared before after (.function literal span :: es) (.function literal span :: es')
  /-- The composition of two functions is a literal that applies the second, then the first. -/
  | compose {f g f' g' : Expr} {span : Span} {scope : ScopeId} {es es' : List Expr} :
      Desugared before after [f, g] [f', g'] →
      after.scope scope = .fresh .composition [compositionLabel] [.binary .apply f'
        (.binary .apply g' (.name compositionLabel span) (g.span.merge span)) span] span →
      Desugared before after es es' →
      Desugared before after (.binary .compose f g span :: es)
        (.function ⟨0, [compositionLabel], scope⟩ span :: es')
  /-- The arms of a choice are literals without labels that hold nothing but the arm. -/
  | choose {cond yes no cond' yes' no' : Expr} {yesLabel noLabel : Option String}
      {armsSpan span : Span} {yesScope noScope : ScopeId} {es es' : List Expr} :
      Desugared before after [cond, yes, no] [cond', yes', no'] →
      after.scope yesScope = .fresh .branch [] [yes'] yes.span →
      after.scope noScope = .fresh .branch [] [no'] no.span →
      Desugared before after es es' →
      Desugared before after
        (.binary .choose cond (.tuple [⟨yesLabel, yes⟩, ⟨noLabel, no⟩] armsSpan) span :: es)
        (.binary .choose cond' (.tuple [⟨yesLabel, .function ⟨0, [], yesScope⟩ yes.span⟩,
          ⟨noLabel, .function ⟨0, [], noScope⟩ no.span⟩] armsSpan) span :: es')

theorem Desugared.append {before after : ScopeTree} {xs ys zs ws : List Expr}
    (h : Desugared before after xs ys) (h' : Desugared before after zs ws) :
    Desugared before after (xs ++ zs) (ys ++ ws) := by
  induction h with
  | nil => exact h'
  | node stays shell inner _ _ ih => exact .node stays shell inner ih
  | function scope inner _ _ ih => exact .function scope inner ih
  | compose inner scope _ _ ih => exact .compose inner scope ih
  | choose inner yes no _ _ ih => exact .choose inner yes no ih

/-- The node is a choice without two arms, which the fault is about. -/
def Expr.Lacks (n : Expr) (fault : SemanticError) : Prop :=
  ∃ cond arms span, n = .binary .choose cond arms span ∧ ¬ arms.IsPair ∧
    fault = .invalidControl arms.span

/-- Some choice of the statements lacks an arm, and the fault is about it. -/
def ScopeTree.Lacks (tree : ScopeTree) (es : List Expr) (fault : SemanticError) : Prop :=
  ∃ n, tree.Occurs n es ∧ n.Lacks fault

/-! ## Steps that touch some scopes only -/

namespace ScopeTree

/-- The scopes of a row and those below it are scopes of the tree, each once, and none is
reserved. -/
structure Holding (tree : ScopeTree) (reserved row ids : List Nat) : Prop where
  below : tree.Below row ids
  nodup : (reserved ++ ids).Nodup
  lt : ∀ id : Nat, id ∈ reserved ++ ids → id < tree.count

variable {first second : ScopeTree} {reserved reserved' row row' ids : List Nat}

theorem Holding.split (h : first.Holding (reserved ++ reserved') (row ++ row') ids) :
    ∃ x y, ids = x ++ y ∧ first.Holding reserved row x ∧ first.Holding reserved' row' y ∧
      ∀ id ∈ reserved' ++ y, id ∉ reserved ++ x := by
  obtain ⟨x, y, rfl, below, below'⟩ := h.below.split
  have shuffle : (reserved ++ reserved' ++ (x ++ y)).Perm ((reserved ++ x) ++ (reserved' ++ y)) := by
    simp only [List.append_assoc]
    exact (List.perm_append_comm_assoc reserved' x y).append_left reserved
  obtain ⟨nodup, nodup', apart⟩ := List.nodup_append.mp (shuffle.nodup_iff.mp h.nodup)
  refine ⟨x, y, rfl, ⟨below, nodup, ?_⟩, ⟨below', nodup', ?_⟩, ?_⟩
  · exact fun id hm => h.lt id (shuffle.mem_iff.mpr (List.mem_append_left _ hm))
  · exact fun id hm => h.lt id (shuffle.mem_iff.mpr (List.mem_append_right _ hm))
  · exact fun id hm hm' => apart id hm' id hm rfl

theorem Holding.congr (h : first.Holding reserved row ids) (le : first.count ≤ second.count)
    (same : ∀ id ∈ ids, second.scope id = first.scope id) : second.Holding reserved row ids := by
  refine ⟨h.below.congr fun id hm => children_congr (by rw [same id hm]), h.nodup, ?_⟩
  exact fun id hm => Nat.lt_of_lt_of_le (h.lt id hm) le

theorem Holding.push (h : first.Holding reserved row ids) (s : Scope) :
    (first.push s).Holding (first.count :: reserved) row ids := by
  have kept : (first.push s).Holding reserved row ids := h.congr (by simp) fun id hm =>
    scope_push_of_lt _ _ _ (h.lt id (List.mem_append_right _ hm))
  refine ⟨kept.below, List.nodup_cons.mpr ⟨?_, h.nodup⟩, ?_⟩
  · exact fun hm => Nat.lt_irrefl _ (h.lt _ hm)
  · intro id hm
    rcases List.mem_cons.mp hm with rfl | hm
    · simp
    · exact kept.lt id hm

end ScopeTree

open ScopeTree

/-- A step that touches no scopes but the reserved ones, those below a row, and new ones. Whatever
trees agree with the tree before it on the scopes below the row, and with the tree after it on
the scopes it may touch, are related as stated; this holds up to so many scopes below the row. A
fault is about the tree before. -/
structure Runs {α : Type} (levels : Nat) (m : Resolver α) (tree : ScopeTree)
    (reserved row : List Nat) (post : α → ScopeTree → ScopeTree → Prop)
    (fails : SemanticError → ScopeTree → Prop) : Prop where
  grows : ∀ a tree' ids, m tree = .ok (a, tree') → tree.Holding reserved row ids →
    tree.count ≤ tree'.count
  frame : ∀ a tree' ids, m tree = .ok (a, tree') → tree.Holding reserved row ids →
    ∀ id < tree.count, id ∉ reserved ++ ids → tree'.scope id = tree.scope id
  ok : ∀ a tree' ids before after, m tree = .ok (a, tree') → tree.Holding reserved row ids →
    ids.length ≤ levels → (∀ id ∈ ids, before.scope id = tree.scope id) →
    (∀ id, id ∈ reserved ++ ids ∨ tree.count ≤ id ∧ id < tree'.count →
      after.scope id = tree'.scope id) → post a before after
  error : ∀ e ids before, m tree = .error e → tree.Holding reserved row ids →
    (∀ id ∈ ids, before.scope id = tree.scope id) → fails e before

namespace Runs

variable {reserved reserved' row row' : List Nat}
  {α β : Type} {levels : Nat} {m : Resolver α} {f : α → Resolver β} {tree : ScopeTree}
  {post : α → ScopeTree → ScopeTree → Prop} {post' : β → ScopeTree → ScopeTree → Prop}
  {fails fails' : SemanticError → ScopeTree → Prop}

theorem pure {a : α} (h : ∀ before after, post a before after) :
    Runs levels (Pure.pure a) tree [] [] post fails := by
  constructor
  · intro _ _ _ run _
    cases run
    exact Nat.le_refl _
  · intro _ _ _ run _ _ _ _
    cases run
    rfl
  · intro _ _ _ before after run _ _ _ _
    cases run
    exact h before after
  · intro _ _ _ run
    cases run

theorem throw {fault : SemanticError} (h : ∀ before, fails fault before) :
    Runs levels (MonadExcept.throw fault) tree reserved row post fails := by
  constructor
  · intro _ _ _ run
    cases run
  · intro _ _ _ run
    cases run
  · intro _ _ _ _ _ run
    cases run
  · intro _ _ before run _ _
    cases run
    exact h before

theorem mono (h : Runs levels m tree reserved row post fails)
    (lift : ∀ e before, fails e before → fails' e before) :
    Runs levels m tree reserved row post fails' :=
  ⟨h.grows, h.frame, h.ok, fun e ids before run hold same => lift _ _ (h.error e ids before run hold same)⟩

theorem congr {m' : Resolver α} (h : Runs levels m tree reserved row post fails)
    (same : m' tree = m tree) : Runs levels m' tree reserved row post fails := by
  constructor
  · exact fun a tree' ids ran => h.grows a tree' ids (same ▸ ran)
  · exact fun a tree' ids ran => h.frame a tree' ids (same ▸ ran)
  · exact fun a tree' ids before after ran => h.ok a tree' ids before after (same ▸ ran)
  · exact fun e ids before ran => h.error e ids before (same ▸ ran)

theorem perm (h : Runs levels m tree reserved row post fails) (order : reserved.Perm reserved') :
    Runs levels m tree reserved' row post fails := by
  have mem (ids : List Nat) (id : Nat) : id ∈ reserved ++ ids ↔ id ∈ reserved' ++ ids :=
    (order.append_right ids).mem_iff
  have holds {ids : List Nat} (hold : tree.Holding reserved' row ids) :
      tree.Holding reserved row ids :=
    ⟨hold.below, (order.append_right ids).nodup_iff.mpr hold.nodup,
      fun id hm => hold.lt id ((mem ids id).mp hm)⟩
  constructor
  · exact fun a tree' ids ran hold => h.grows a tree' ids ran (holds hold)
  · intro a tree' ids ran hold id lt outside
    exact h.frame a tree' ids ran (holds hold) id lt (mt (mem ids id).mp outside)
  · intro a tree' ids before after ran hold short agree agree'
    refine h.ok a tree' ids before after ran (holds hold) short agree fun id touched => agree' id ?_
    rwa [← mem ids id]
  · exact fun e ids before ran hold agree => h.error e ids before ran (holds hold) agree

/-- One step after the other: the second finds its scopes as they were before the first. -/
theorem bind (run : Runs levels m tree reserved row post fails)
    (next : ∀ a middle, (∀ id ∈ reserved', middle.scope id = tree.scope id) →
      Runs levels (f a) middle reserved' row'
        (fun b before after => post a before after → post' b before after) fails) :
    Runs levels (m >>= f) tree (reserved ++ reserved') (row ++ row') post' fails := by
  -- what the second step is given, once the first has run
  have hands {a : α} {middle : ScopeTree} {ids : List Nat} (ran : m tree = .ok (a, middle))
      (hold : tree.Holding (reserved ++ reserved') (row ++ row') ids) :
      ∃ x y, ids = x ++ y ∧ tree.Holding reserved row x ∧ middle.Holding reserved' row' y ∧
        tree.count ≤ middle.count ∧ (∀ id ∈ reserved' ++ y, id < tree.count ∧ id ∉ reserved ++ x) ∧
        ∀ id ∈ reserved' ++ y, middle.scope id = tree.scope id := by
    obtain ⟨x, y, rfl, hold₁, hold₂, apart⟩ := hold.split
    have le := run.grows a middle x ran hold₁
    have same (id : Nat) (hm : id ∈ reserved' ++ y) : middle.scope id = tree.scope id :=
      run.frame a middle x ran hold₁ id (hold₂.lt id hm) (apart id hm)
    exact ⟨x, y, rfl, hold₁, hold₂.congr le fun id hm => same id (List.mem_append_right _ hm), le,
      fun id hm => ⟨hold₂.lt id hm, apart id hm⟩, same⟩
  constructor
  · intro b tree' ids ran hold
    obtain ⟨a, middle, ran₁, ran₂⟩ := resolver_bind_ok ran
    obtain ⟨x, y, rfl, -, hold₂, le, -, same⟩ := hands ran₁ hold
    have step := next a middle fun id hm => same id (List.mem_append_left _ hm)
    exact Nat.le_trans le (step.grows b tree' y ran₂ hold₂)
  · intro b tree' ids ran hold id lt outside
    obtain ⟨a, middle, ran₁, ran₂⟩ := resolver_bind_ok ran
    obtain ⟨x, y, rfl, hold₁, hold₂, le, -, same⟩ := hands ran₁ hold
    have step := next a middle fun id hm => same id (List.mem_append_left _ hm)
    rw [step.frame b tree' y ran₂ hold₂ id (Nat.lt_of_lt_of_le lt le) (by grind),
      run.frame a middle x ran₁ hold₁ id lt (by grind)]
  · intro b tree' ids before after ran hold short agree agree'
    obtain ⟨a, middle, ran₁, ran₂⟩ := resolver_bind_ok ran
    obtain ⟨x, y, rfl, hold₁, hold₂, le, apart, same⟩ := hands ran₁ hold
    have step := next a middle fun id hm => same id (List.mem_append_left _ hm)
    have le' := step.grows b tree' y ran₂ hold₂
    rw [List.length_append] at short
    refine step.ok b tree' y before after ran₂ hold₂ (by omega) ?_ ?_ ?_
    · intro id hm
      rw [agree id (by simp [hm]), same id (by simp [hm])]
    · intro id touched
      exact agree' id (by grind)
    -- the second step touches nothing of the first
    · refine run.ok a middle x before after ran₁ hold₁ (by omega) ?_ ?_
      · exact fun id hm => agree id (by simp [hm])
      · intro id touched
        have old : id < middle.count := by
          rcases touched with hm | ⟨-, lt⟩
          · exact Nat.lt_of_lt_of_le (hold₁.lt id hm) le
          · exact lt
        have outside : id ∉ reserved' ++ y := by
          intro hm
          obtain ⟨lt, away⟩ := apart id hm
          rcases touched with hm | ⟨above, -⟩
          · exact away hm
          · omega
        rw [agree' id (by grind), step.frame b tree' y ran₂ hold₂ id old outside]
  · intro e ids before ran hold agree
    rcases except_bind_error ran with ran | ⟨⟨a, middle⟩, ran₁, ran₂⟩
    · obtain ⟨x, y, rfl, hold₁, -, -⟩ := hold.split
      exact run.error e x before ran hold₁ fun id hm => agree id (by simp [hm])
    · obtain ⟨x, y, rfl, hold₁, hold₂, -, -, same⟩ := hands ran₁ hold
      have step := next a middle fun id hm => same id (List.mem_append_left _ hm)
      refine step.error e y before ran₂ hold₂ fun id hm => ?_
      rw [agree id (by simp [hm]), same id (by simp [hm])]

/-- A new scope is reserved for what comes after. -/
theorem allocate {origin : Origin} {labels : List String} {span : Span} {f : ScopeId → Resolver β}
    (next : Runs levels (f tree.count) (tree.push (.fresh origin labels [] span))
      (tree.count :: reserved) row post' fails) :
    Runs levels (allocateScope origin labels span >>= f) tree reserved row post' fails := by
  have old {ids : List Nat} (hold : tree.Holding reserved row ids) (id : Nat) (hm : id ∈ ids) :
      (tree.push (.fresh origin labels [] span)).scope id = tree.scope id :=
    scope_push_of_lt _ _ _ (hold.lt id (List.mem_append_right _ hm))
  constructor
  · intro b tree' ids ran hold
    have := next.grows b tree' ids ran (hold.push _)
    rw [count_push] at this
    omega
  · intro b tree' ids ran hold id lt outside
    rw [next.frame b tree' ids ran (hold.push _) id (by rw [count_push]; omega),
      scope_push_of_lt _ _ _ lt]
    intro hm
    rcases List.mem_cons.mp hm with rfl | hm
    · exact Nat.lt_irrefl _ lt
    · exact outside hm
  · intro b tree' ids before after ran hold short agree agree'
    have le := next.grows b tree' ids ran (hold.push _)
    rw [count_push] at le
    refine next.ok b tree' ids before after ran (hold.push _) short ?_ ?_
    · exact fun id hm => (agree id hm).trans (old hold id hm).symm
    · intro id touched
      rw [count_push] at touched
      exact agree' id (by grind)
  · intro e ids before ran hold agree
    exact next.error e ids before ran (hold.push _) fun id hm =>
      (agree id hm).trans (old hold id hm).symm

/-- A reserved scope is given its statements. -/
theorem setBody {id : Nat} {body : List Expr} {post : Unit → ScopeTree → ScopeTree → Prop}
    (h : ∀ before after, after.scope id = { tree.scope id with body := body } → post () before after) :
    Runs levels (modify (·.setBody id body)) tree [id] [] post fails := by
  constructor
  · intro _ _ _ ran _
    cases ran
    simp
  · intro _ _ _ ran _ i _ outside
    cases ran
    exact scope_modify_other _ _ _ _ (by grind)
  · intro _ _ _ before after ran hold _ _ agree'
    cases ran
    refine h before after ?_
    rw [agree' id (by simp)]
    exact scope_modify_same _ _ _ (hold.lt id (by simp))
  · intro _ _ _ ran
    cases ran

/-- A step that needs no reserved scope comes first. -/
theorem pass (run : Runs levels m tree [] row post fails)
    (next : ∀ a middle, (∀ id ∈ reserved, middle.scope id = tree.scope id) →
      Runs levels (f a) middle reserved row'
        (fun b before after => post a before after → post' b before after) fails) :
    Runs levels (m >>= f) tree reserved (row ++ row') post' fails :=
  run.bind next

/-- A reserved scope is given its statements first. -/
theorem fill {id : Nat} {body : List Expr} {f : Unit → Resolver β}
    (next : ∀ middle, (∀ i ∈ reserved, middle.scope i = tree.scope i) →
      Runs levels (f ()) middle reserved row
        (fun b before after => after.scope id = { tree.scope id with body := body } →
          post' b before after) fails) :
    Runs levels (modify (·.setBody id body) >>= f) tree (id :: reserved) row post' fails :=
  (setBody fun _ _ h => h).bind fun _ middle => next middle

/-- The statements of a scope are entered, one level down. -/
theorem descend {id : Nat}
    (run : Runs levels m tree [id] (tree.children id)
      (fun a before after => before.scope id = tree.scope id → post a before after)
      (fun e before => before.scope id = tree.scope id → fails e before)) :
    Runs (levels + 1) m tree [] [id] post fails := by
  have opens {ids : List Nat} (hold : tree.Holding [] [id] ids) :
      ∃ inner, ids = id :: inner ∧ tree.Holding [id] (tree.children id) inner := by
    obtain ⟨below, nodup, lt⟩ := hold
    cases below with
    | cons inside outside =>
      cases outside
      rw [List.append_nil] at nodup lt ⊢
      exact ⟨_, rfl, inside, nodup, lt⟩
  constructor
  · intro a tree' ids ran hold
    obtain ⟨inner, rfl, inside⟩ := opens hold
    exact run.grows a tree' inner ran inside
  · intro a tree' ids ran hold
    obtain ⟨inner, rfl, inside⟩ := opens hold
    exact run.frame a tree' inner ran inside
  · intro a tree' ids before after ran hold short agree agree'
    obtain ⟨inner, rfl, inside⟩ := opens hold
    exact run.ok a tree' inner before after ran inside (Nat.le_of_succ_le_succ short)
      (fun i hm => agree i (by simp [hm])) agree' (agree id (by simp))
  · intro e ids before ran hold agree
    obtain ⟨inner, rfl, inside⟩ := opens hold
    exact run.error e inner before ran inside (fun i hm => agree i (by simp [hm])) (agree id (by simp))

end Runs

/-! ## Expressions -/

namespace ScopeTree

variable {tree : ScopeTree} {e : Expr} {es : List Expr} {fault : SemanticError}

theorem Lacks.mem (h : tree.Lacks [e] fault) (hm : e ∈ es) : tree.Lacks es fault := by
  obtain ⟨n, occurs, lacks⟩ := h
  exact ⟨n, occurs.mem hm, lacks⟩

theorem Lacks.later (h : tree.Lacks es fault) : tree.Lacks (e :: es) fault := by
  obtain ⟨n, occurs, lacks⟩ := h
  exact ⟨n, .later occurs, lacks⟩

theorem Lacks.inside (h : tree.Lacks e.parts fault) : tree.Lacks [e] fault := by
  obtain ⟨n, occurs, lacks⟩ := h
  exact ⟨n, .part occurs, lacks⟩

theorem Lacks.part {inner : Expr} (h : tree.Lacks [inner] fault) (hm : inner ∈ e.parts) :
    tree.Lacks [e] fault :=
  (h.mem hm).inside

end ScopeTree

/-- What desugaring an expression does in any tree. -/
def Rewrites (levels : Nat) (enter : ScopeId → Resolver Unit) (e : Expr) : Prop :=
  ∀ tree : ScopeTree, Runs levels (desugarExpr enter e) tree [] e.scopes
    (fun e' before after => Desugared before after [e] [e'])
    (fun fault before => before.Lacks [e] fault)

/-- What entering a literal does in any tree. -/
def EntersFully (levels : Nat) (enter : ScopeId → Resolver Unit) : Prop :=
  ∀ (id : ScopeId) (tree : ScopeTree), Runs levels (enter id) tree [] [id]
    (fun _ before after => ∃ body, after.scope id = { before.scope id with body := body } ∧
      Desugared before after (before.scope id).body body)
    (fun fault before => before.Lacks (before.scope id).body fault)

variable {levels : Nat} {enter : ScopeId → Resolver Unit}

theorem rewrites_compose {f g : Expr} (hf : Rewrites levels enter f) (hg : Rewrites levels enter g)
    (span : Span) : Rewrites levels enter (.binary .compose f g span) := by
  intro tree
  have row : (Expr.binary .compose f g span).scopes = f.scopes ++ (g.scopes ++ []) := by
    simp [Expr.scopes, Expr.literals]
  rw [row, desugarExpr]
  refine .allocate (.pass ((hf _).mono fun _ _ h => h.part (by simp [Expr.parts])) ?_)
  intro f' t₁ same₁
  refine .pass ((hg _).mono fun _ _ h => h.part (by simp [Expr.parts])) ?_
  intro g' t₂ same₂
  refine .fill ?_
  intro t₃ _
  refine .pure ?_
  intro before after scope right left
  rw [same₂ _ (by simp), same₁ _ (by simp), scope_push_count] at scope
  exact .compose (left.append right) scope .nil

theorem rewrites_choose {cond yes no : Expr} (hc : Rewrites levels enter cond)
    (hy : Rewrites levels enter yes) (hn : Rewrites levels enter no)
    (yesLabel noLabel : Option String) (armsSpan span : Span) :
    Rewrites levels enter
      (.binary .choose cond (.tuple [⟨yesLabel, yes⟩, ⟨noLabel, no⟩] armsSpan) span) := by
  intro tree
  have row : (Expr.binary .choose cond (.tuple [⟨yesLabel, yes⟩, ⟨noLabel, no⟩] armsSpan) span).scopes =
      cond.scopes ++ (yes.scopes ++ (no.scopes ++ [])) := by
    simp [Expr.scopes, Expr.literals, Expr.literalsOfFields]
  have arm {part : Expr} {before : ScopeTree} {fault : SemanticError} (h : before.Lacks [part] fault)
      (mem : part = yes ∨ part = no) : before.Lacks
        [.binary .choose cond (.tuple [⟨yesLabel, yes⟩, ⟨noLabel, no⟩] armsSpan) span] fault := by
    have inner : before.Lacks [.tuple [⟨yesLabel, yes⟩, ⟨noLabel, no⟩] armsSpan] fault :=
      h.part (by simpa [Expr.parts] using mem)
    exact inner.part (by simp [Expr.parts])
  rw [row, desugarExpr]
  refine .allocate (.allocate (.perm (.pass ((hc _).mono fun _ _ h => h.part (by simp [Expr.parts])) ?_)
    (.swap _ tree.count [])))
  intro cond' t₁ same₁
  refine .pass ((hy _).mono fun _ _ h => arm h (.inl rfl)) ?_
  intro yes' t₂ same₂
  refine .fill ?_
  intro t₃ same₃
  refine .pass ((hn _).mono fun _ _ h => arm h (.inr rfl)) ?_
  intro no' t₄ same₄
  refine .fill ?_
  intro t₅ _
  refine .pure ?_
  intro before after noScope no yesScope yes cond
  rw [same₂ _ (by simp), same₁ _ (by simp), scope_push_of_lt _ _ _ (by simp), scope_push_count]
    at yesScope
  rw [same₄ _ (by simp), same₃ _ (by simp), same₂ _ (by simp), same₁ _ (by simp), scope_push_count]
    at noScope
  exact .choose (cond.append (yes.append no)) yesScope noScope .nil

theorem rewrites_leaf {e : Expr} (stays : e.Stays) (leaf : e.parts = [])
    (ret : desugarExpr enter e = pure e) : Rewrites levels enter e := by
  intro tree
  have row : e.scopes = [] := by
    cases e with
    | function => cases stays
    | tuple fields span => simp [Expr.parts] at leaf; subst leaf; rfl
    | varDecl | binary | unary => cases leaf
    | _ => rfl
  rw [row, ret]
  exact .pure fun before after => .node stays rfl (leaf ▸ .nil) .nil

theorem rewrites_fields {fields : List (Labelled Expr)}
    (inner : ∀ field ∈ fields, Rewrites levels enter field.value) (tree : ScopeTree) :
    Runs levels (desugarFields enter fields) tree [] ((Expr.literalsOfFields fields).map (·.scope))
      (fun fields' before after => fields'.map (·.label) = fields.map (·.label) ∧
        Desugared before after (fields.map (·.value)) (fields'.map (·.value)))
      (fun fault before => before.Lacks (fields.map (·.value)) fault) := by
  induction fields generalizing tree with
  | nil =>
    rw [desugarFields]
    exact .pure fun _ _ => ⟨rfl, .nil⟩
  | cons field rest ih =>
    have row : (Expr.literalsOfFields (field :: rest)).map (·.scope) =
        field.value.scopes ++ ((Expr.literalsOfFields rest).map (·.scope) ++ []) := by
      simp [Expr.scopes, Expr.literalsOfFields]
    rw [row, desugarFields]
    refine .pass ((inner field (by simp) tree).mono fun _ _ lacks => lacks.mem (by simp)) ?_
    intro value' t₁ _
    have rest_runs := ih (fun other mem => inner other (by simp [mem])) t₁
    refine .pass (rest_runs.mono fun _ _ lacks => lacks.later) ?_
    intro rest' t₂ _
    refine .pure ?_
    intro before after later first
    exact ⟨by simp [later.1], first.append later.2⟩

theorem rewrites_tuple {fields : List (Labelled Expr)}
    (inner : ∀ field ∈ fields, Rewrites levels enter field.value) (span : Span) :
    Rewrites levels enter (.tuple fields span) := by
  intro tree
  have row : (Expr.tuple fields span).scopes = (Expr.literalsOfFields fields).map (·.scope) ++ [] := by
    simp [Expr.scopes, Expr.literals]
  rw [row, desugarExpr]
  refine .pass ((rewrites_fields inner tree).mono fun _ _ lacks => .inside lacks) ?_
  intro fields' t _
  refine .pure ?_
  rintro before after ⟨labels, values⟩
  have shell := congrArg (List.map fun l => (⟨l, default⟩ : Labelled Expr)) labels
  rw [List.map_map, List.map_map] at shell
  exact .node trivial (congrArg (Expr.tuple · span) shell) values .nil

theorem rewrites_binary {op : BinaryOp} {lhs rhs : Expr} (compose : op ≠ .compose)
    (choose : op ≠ .choose) (hl : Rewrites levels enter lhs) (hr : Rewrites levels enter rhs)
    (span : Span) : Rewrites levels enter (.binary op lhs rhs span) := by
  intro tree
  have row : (Expr.binary op lhs rhs span).scopes = lhs.scopes ++ (rhs.scopes ++ []) := by
    simp [Expr.scopes, Expr.literals]
  rw [row, desugarExpr_binary compose choose]
  refine .pass ((hl _).mono fun _ _ h => h.part (by simp [Expr.parts])) ?_
  intro lhs' t₁ _
  refine .pass ((hr _).mono fun _ _ h => h.part (by simp [Expr.parts])) ?_
  intro rhs' t₂ _
  refine .pure ?_
  intro before after right left
  refine .node ?_ rfl (left.append right) .nil
  cases op <;> trivial

theorem rewrites_expr (he : EntersFully levels enter) (e : Expr) : Rewrites levels enter e := by
  induction e using Expr.of_forms with
  | int | hex | float | text | name | typeDecl =>
    exact rewrites_leaf (by trivial) rfl (by rw [desugarExpr])
  | function literal span =>
    intro tree
    have row : (Expr.function literal span).scopes = [literal.scope] ++ [] := by
      simp [Expr.scopes, Expr.literals]
    rw [row, desugarExpr]
    refine .pass ((he literal.scope tree).mono ?_) ?_
    · intro fault before lacks
      obtain ⟨n, occurs, lacks⟩ := lacks
      exact ⟨n, .body occurs, lacks⟩
    · intro _ t _
      refine .pure ?_
      intro before after entered
      obtain ⟨body, scope, inner⟩ := entered
      exact .function scope inner .nil
  | varDecl declared type value span inner =>
    intro tree
    have row : (Expr.varDecl declared type value span).scopes = value.scopes ++ [] := by
      simp [Expr.scopes, Expr.literals]
    rw [row, desugarExpr]
    refine .pass ((inner tree).mono fun _ _ h => h.part (by simp [Expr.parts])) ?_
    intro value' t _
    refine .pure ?_
    intro before after inner
    exact .node trivial rfl inner .nil
  | parens value span inner => exact rewrites_tuple (List.forall_mem_singleton.mpr inner) span
  | tuple fields span _ inner => exact rewrites_tuple inner span
  | unary op operand span inner =>
    intro tree
    have row : (Expr.unary op operand span).scopes = operand.scopes ++ [] := by
      simp [Expr.scopes, Expr.literals]
    rw [row, desugarExpr]
    refine .pass ((inner tree).mono fun _ _ h => h.part (by simp [Expr.parts])) ?_
    intro operand' t _
    refine .pure ?_
    intro before after inner
    exact .node trivial rfl inner .nil
  | binary op lhs rhs span choose hl hr =>
    by_cases compose : op = .compose
    · subst compose
      exact rewrites_compose hl hr span
    · exact rewrites_binary compose choose hl hr span
  | choose cond yes no armsSpan span hc hy hn =>
    exact rewrites_choose hc hy hn yes.label no.label armsSpan span
  | unpaired cond arms span lacks =>
    intro tree
    rw [desugarExpr_unpaired cond lacks]
    refine .throw ?_
    intro before
    exact ⟨_, .here, cond, arms, span, rfl, lacks, rfl⟩

theorem rewrites_body (he : EntersFully levels enter) (body : List Expr) :
    ∀ tree : ScopeTree, Runs levels (body.mapM (desugarExpr enter)) tree []
      ((literalsOf body).map (·.scope)) (fun body' before after => Desugared before after body body')
      (fun fault before => before.Lacks body fault) := by
  induction body with
  | nil =>
    intro tree
    rw [List.mapM_nil]
    exact .pure fun _ _ => .nil
  | cons e rest ih =>
    intro tree
    have row : (literalsOf (e :: rest)).map (·.scope) =
        e.scopes ++ ((literalsOf rest).map (·.scope) ++ []) := by
      simp [Expr.scopes]
    rw [row, List.mapM_cons]
    refine .pass ((rewrites_expr he e tree).mono fun _ _ lacks => lacks.mem (by simp)) ?_
    intro e' t₁ _
    refine .pass ((ih t₁).mono fun _ _ lacks => lacks.later) ?_
    intro rest' t₂ _
    refine .pure ?_
    intro before after later first
    exact first.append later

/-- The levels suffice for as many scopes. -/
theorem entersFully_desugarScope (fuel : Nat) : EntersFully fuel (desugarScope fuel) := by
  induction fuel with
  | zero =>
    intro id tree
    rw [desugarScope]
    constructor
    · intro _ _ _ ran _
      cases ran
      exact Nat.le_refl _
    · intro _ _ _ ran _ _ _ _
      cases ran
      rfl
    · intro _ _ ids _ _ _ hold short
      have listed : id ∈ ids := hold.below.mem_of_mem (by simp)
      rw [List.length_eq_zero_iff.mp (Nat.le_zero.mp short)] at listed
      cases listed
    · intro _ _ _ ran
      cases ran
  | succ fuel ih =>
    intro id tree
    refine .descend ?_
    have run : Runs fuel (((tree.scope id).body.mapM (desugarExpr (desugarScope fuel))) >>=
        fun body => modify (·.setBody id body)) tree [id] (tree.children id ++ [])
        (fun _ before after => before.scope id = tree.scope id →
          ∃ body, after.scope id = { before.scope id with body := body } ∧
            Desugared before after (before.scope id).body body)
        (fun fault before => before.scope id = tree.scope id →
          before.Lacks (before.scope id).body fault) := by
      refine .pass ((rewrites_body ih (tree.scope id).body tree).mono ?_) ?_
      · intro fault before lacks same
        rwa [same]
      intro body middle same
      refine .setBody ?_
      intro before after scope inner here
      rw [same id (by simp)] at scope
      rw [here]
      exact ⟨body, scope, inner⟩
    rw [List.append_nil] at run
    exact run.congr rfl

/-- Desugaring a program gives what the program becomes, or finds a choice that lacks an arm. -/
theorem ScopeTree.Read.desugared {tree : ScopeTree} (h : tree.Read) :
    (∀ tree', tree.desugar = .ok tree' → tree'.root = { tree.root with body := tree'.root.body } ∧
      Desugared tree tree' tree.root.body tree'.root.body) ∧
    ∀ fault, tree.desugar = .error fault → tree.Lacks tree.root.body fault := by
  obtain ⟨ids, below, perm⟩ := h.owns
  have hold : tree.Holding [] [rootId] ids :=
    ⟨below, perm.nodup_iff.mpr List.nodup_range, fun id hm => List.mem_range.mp (perm.mem_iff.mp hm)⟩
  have run := entersFully_desugarScope tree.count rootId tree
  constructor
  · intro tree' ran
    unfold ScopeTree.desugar at ran
    obtain ⟨⟨_, t⟩, ran, eq⟩ := except_bind_ok ran
    cases eq
    obtain ⟨body, scope, inner⟩ := run.ok () tree' ids tree tree' ran hold (by simp [perm.length_eq])
      (fun _ _ => rfl) fun _ _ => rfl
    have new : tree'.root.body = body := by rw [root, scope]
    rw [new]
    exact ⟨scope, inner⟩
  · intro fault ran
    unfold ScopeTree.desugar at ran
    rcases except_bind_error ran with ran | ⟨_, _, ran⟩
    · exact run.error fault ids tree ran hold fun _ _ => rfl
    · cases ran

/-! ## Where the nodes of a desugared program come from -/

namespace ScopeTree

/-- A literal without labels whose body is one arm of a choice. -/
def IsArm (tree : ScopeTree) : Expr → Prop
  | .function literal _ => literal.labels = [] ∧ (tree.scope literal.scope).origin = .branch ∧
      ∃ arm, (tree.scope literal.scope).body = [arm]
  | _ => False

/-- A node, and one that desugaring makes of it. -/
inductive Stems (after : ScopeTree) : Expr → Expr → Prop
  | same {e e' : Expr} : e.Stays → e'.shell = e.shell → Stems after e e'
  | literal {literal : FunctionLiteral} {span : Span} :
      Stems after (.function literal span) (.function literal span)
  | composition {f g : Expr} {span : Span} {scope : ScopeId} :
      Stems after (.binary .compose f g span) (.function ⟨0, [compositionLabel], scope⟩ span)
  | outer {f g f' call : Expr} {span : Span} :
      Stems after (.binary .compose f g span) (.binary .apply f' call span)
  | inner {f g g' argument : Expr} {span : Span} :
      Stems after (.binary .compose f g span) (.binary .apply g' argument (g.span.merge span))
  | argument {f g : Expr} {span : Span} :
      Stems after (.binary .compose f g span) (.name compositionLabel span)
  | choice {cond arms cond' : Expr} {yes no : Labelled Expr} {armsSpan span : Span} :
      after.IsArm yes.value → after.IsArm no.value →
      Stems after (.binary .choose cond arms span)
        (.binary .choose cond' (.tuple [yes, no] armsSpan) span)
  | arms {fields fields' : List (Labelled Expr)} {span : Span} :
      Stems after (.tuple fields span) (.tuple fields' span)
  | arm {e : Expr} {scope : ScopeId} : Stems after e (.function ⟨0, [], scope⟩ e.span)

/-- What a literal made of a composition holds. -/
theorem Occurs.of_composition {tree : ScopeTree} {n f g : Expr} {callSpan span : Span} {scope : ScopeId}
    (made : tree.scope scope = .fresh .composition [compositionLabel]
      [.binary .apply f (.binary .apply g (.name compositionLabel span) callSpan) span] span)
    (h : tree.Occurs n (tree.scope scope).body) : tree.Occurs n [f, g] ∨
      n = .binary .apply f (.binary .apply g (.name compositionLabel span) callSpan) span ∨
      n = .binary .apply g (.name compositionLabel span) callSpan ∨ n = .name compositionLabel span := by
  simp only [made, Scope.fresh, occurs_binary, occurs_name] at h
  rcases h with outer | inner | call | inner | argument
  · exact .inr (.inl outer)
  · exact .inl (inner.mem (by simp))
  · exact .inr (.inr (.inl call))
  · exact .inl (inner.mem (by simp))
  · exact .inr (.inr (.inr argument))

/-- The parts of a choice hold the pair of its arms, and what its condition and its arms hold. -/
theorem occurs_choice_parts {tree : ScopeTree} {n cond : Expr} {yes no : Labelled Expr}
    {armsSpan span : Span} :
    tree.Occurs n (Expr.binary .choose cond (.tuple [yes, no] armsSpan) span).parts ↔
      n = .tuple [yes, no] armsSpan ∨ tree.Occurs n [cond, yes.value, no.value] := by
  simp only [Expr.parts, occurs_cons_cons, occurs_pair]
  exact or_left_comm

/-- What the parts of a choice hold whose arms were made literals. -/
theorem Occurs.of_arms {tree : ScopeTree} {n cond yes no : Expr} {yesLabel noLabel : Option String}
    {yesSpan noSpan armsSpan span : Span} {yesScope noScope : ScopeId}
    (yesMade : tree.scope yesScope = .fresh .branch [] [yes] yesSpan)
    (noMade : tree.scope noScope = .fresh .branch [] [no] noSpan)
    (h : tree.Occurs n (Expr.binary .choose cond (.tuple [⟨yesLabel, .function ⟨0, [], yesScope⟩ yesSpan⟩,
      ⟨noLabel, .function ⟨0, [], noScope⟩ noSpan⟩] armsSpan) span).parts) :
    tree.Occurs n [cond, yes, no] ∨
      n = .tuple [⟨yesLabel, .function ⟨0, [], yesScope⟩ yesSpan⟩,
        ⟨noLabel, .function ⟨0, [], noScope⟩ noSpan⟩] armsSpan ∨
      n = .function ⟨0, [], yesScope⟩ yesSpan ∨ n = .function ⟨0, [], noScope⟩ noSpan := by
  simp only [occurs_choice_parts, occurs_cons_cons, occurs_function, yesMade, noMade, Scope.fresh] at h
  rcases h with arms | inner | (arm | inner) | arm | inner
  · exact .inr (.inl arms)
  · exact .inl (inner.mem (by simp))
  · exact .inr (.inr (.inl arm))
  · exact .inl (inner.mem (by simp))
  · exact .inr (.inr (.inr arm))
  · exact .inl (inner.mem (by simp))

end ScopeTree

theorem stays_of_shell {e e' : Expr} (stays : e.Stays) (shell : e'.shell = e.shell) : e'.Stays := by
  cases e with
  | function => cases stays
  | binary op =>
    cases e' with
    | binary op' =>
      injection shell with eq
      subst eq
      cases op' <;> trivial
    | _ => cases shell
  | _ => cases e' <;> trivial

/-- Every node of desugared statements is made of one that was there. -/
theorem Desugared.stems {before after : ScopeTree} {xs ys : List Expr}
    (h : Desugared before after xs ys) :
    ∀ n, after.Occurs n ys → ∃ m, before.Occurs m xs ∧ after.Stems m n := by
  induction h with
  | nil =>
    intro n occurs
    cases occurs
  | @node e e' es es' stays shell _ _ inner_ih ih =>
    intro n occurs
    rcases occurs_cons_iff.mp occurs with rfl | inner | ⟨_, _, rfl, _⟩ | rest
    · exact ⟨e, .here, .same stays shell⟩
    · obtain ⟨m, found, stems⟩ := inner_ih n inner
      exact ⟨m, .part found, stems⟩
    · cases stays_of_shell stays shell
    · obtain ⟨m, found, stems⟩ := ih n rest
      exact ⟨m, .later found, stems⟩
  | function scope _ _ inner_ih ih =>
    intro n occurs
    rcases occurs_cons_iff.mp occurs with rfl | inner | ⟨_, _, eq, inner⟩ | rest
    · exact ⟨_, .here, .literal⟩
    · cases inner
    · cases eq
      rw [scope] at inner
      obtain ⟨m, found, stems⟩ := inner_ih n inner
      exact ⟨m, .body found, stems⟩
    · obtain ⟨m, found, stems⟩ := ih n rest
      exact ⟨m, .later found, stems⟩
  | @compose f g f' g' span scope es es' _ made _ inner_ih ih =>
    intro n occurs
    rcases occurs_cons_iff.mp occurs with rfl | inner | ⟨_, _, eq, inner⟩ | rest
    · exact ⟨_, .here, .composition⟩
    · cases inner
    · cases eq
      rcases Occurs.of_composition made inner with inner | rfl | rfl | rfl
      · obtain ⟨m, found, stems⟩ := inner_ih n inner
        exact ⟨m, .part found, stems⟩
      · exact ⟨_, .here, .outer⟩
      · exact ⟨_, .here, .inner⟩
      · exact ⟨_, .here, .argument⟩
    · obtain ⟨m, found, stems⟩ := ih n rest
      exact ⟨m, .later found, stems⟩
  | @choose cond yes no cond' yes' no' yesLabel noLabel armsSpan span yesScope noScope es es' _ yesMade
      noMade _ inner_ih ih =>
    intro n occurs
    -- the arms stand one level deeper than the condition
    have lift {m : Expr} (found : before.Occurs m [cond, yes, no]) : before.Occurs m
        (.binary .choose cond (.tuple [⟨yesLabel, yes⟩, ⟨noLabel, no⟩] armsSpan) span :: es) :=
      .part (occurs_choice_parts.mpr (.inr found))
    rcases occurs_cons_iff.mp occurs with rfl | inner | ⟨_, _, eq, _⟩ | rest
    · refine ⟨_, .here, .choice ?_ ?_⟩
      · simp [IsArm, yesMade, Scope.fresh]
      · simp [IsArm, noMade, Scope.fresh]
    · rcases Occurs.of_arms yesMade noMade inner with inner | rfl | rfl | rfl
      · obtain ⟨m, found, stems⟩ := inner_ih n inner
        exact ⟨m, lift found, stems⟩
      · exact ⟨_, .part (.later .here), .arms⟩
      · exact ⟨yes, lift (.later .here), .arm⟩
      · exact ⟨no, lift (.later (.later .here)), .arm⟩
    · cases eq
    · obtain ⟨m, found, stems⟩ := ih n rest
      exact ⟨m, .later found, stems⟩

/-- Statements that were desugared had two arms in every choice. -/
theorem Desugared.isPair {before after : ScopeTree} {xs ys : List Expr}
    (h : Desugared before after xs ys) {cond arms : Expr} {span : Span}
    (occurs : before.Occurs (.binary .choose cond arms span) xs) : arms.IsPair := by
  induction h with
  | nil => cases occurs
  | node stays _ _ _ inner_ih ih =>
    rcases occurs_cons_iff.mp occurs with rfl | inner | ⟨_, _, rfl, _⟩ | rest
    · cases stays
    · exact inner_ih inner
    · cases stays
    · exact ih rest
  | function _ _ _ inner_ih ih =>
    rcases occurs_cons_iff.mp occurs with eq | inner | ⟨_, _, eq, inner⟩ | rest
    · cases eq
    · cases inner
    · cases eq
      exact inner_ih inner
    · exact ih rest
  | compose _ _ _ inner_ih ih =>
    rcases occurs_cons_iff.mp occurs with eq | inner | ⟨_, _, eq, _⟩ | rest
    · cases eq
    · exact inner_ih inner
    · cases eq
    · exact ih rest
  | choose _ _ _ _ inner_ih ih =>
    rcases occurs_cons_iff.mp occurs with eq | inner | ⟨_, _, eq, _⟩ | rest
    · cases eq
      trivial
    · rcases occurs_choice_parts.mp inner with eq | inner
      · cases eq
      · exact inner_ih inner
    · cases eq
    · exact ih rest

/-- The literals of the statements keep their scopes, and the bodies of these are desugared in place. -/
theorem Desugared.bodies {before after : ScopeTree} {xs ys : List Expr}
    (h : Desugared before after xs ys) {literal : FunctionLiteral} {span : Span}
    (occurs : before.Occurs (.function literal span) xs) :
    ∃ body, after.scope literal.scope = { before.scope literal.scope with body := body } ∧
      Desugared before after (before.scope literal.scope).body body := by
  induction h with
  | nil => cases occurs
  | node stays _ _ _ inner_ih ih =>
    rcases occurs_cons_iff.mp occurs with rfl | inner | ⟨_, _, rfl, _⟩ | rest
    · cases stays
    · exact inner_ih inner
    · cases stays
    · exact ih rest
  | function scope inner _ inner_ih ih =>
    rcases occurs_cons_iff.mp occurs with eq | part | ⟨_, _, eq, deeper⟩ | rest
    · cases eq
      exact ⟨_, scope, inner⟩
    · cases part
    · cases eq
      exact inner_ih deeper
    · exact ih rest
  | compose _ _ _ inner_ih ih =>
    rcases occurs_cons_iff.mp occurs with eq | inner | ⟨_, _, eq, _⟩ | rest
    · cases eq
    · exact inner_ih inner
    · cases eq
    · exact ih rest
  | choose _ _ _ _ inner_ih ih =>
    rcases occurs_cons_iff.mp occurs with eq | inner | ⟨_, _, eq, _⟩ | rest
    · cases eq
    · rcases occurs_choice_parts.mp inner with eq | inner
      · cases eq
      · exact inner_ih inner
    · cases eq
    · exact ih rest

/-- Every scope of a program as it was read stays what it is, with its statements desugared. -/
theorem ScopeTree.Read.desugared_scope {tree tree' : ScopeTree} (h : tree.Read)
    (desugars : tree.desugar = .ok tree') {id : Nat} (lt : id < tree.count) :
    tree'.scope id = { tree.scope id with body := (tree'.scope id).body } ∧
      Desugared tree tree' (tree.scope id).body (tree'.scope id).body := by
  obtain ⟨ids, below, perm⟩ := h.owns
  have formed := below.formed perm
  have whole := h.desugared.1 tree' desugars
  rcases (formed.reached id lt).cases_tail with rfl | ⟨outer, -, owns⟩
  · exact whole
  · obtain ⟨e, he, literal, span, node, rfl⟩ := owns.node
    obtain ⟨body, scope, inner⟩ := whole.2.bodies (formed.occurs he node)
    have new : (tree'.scope literal.scope).body = body := by rw [scope]
    rw [new]
    exact ⟨scope, inner⟩

end WindowedClosures
