import WindowedClosures.Grammar.Expression
import WindowedClosures.Proofs.Scope.Forest

/-!
# The scopes that reading adds

Reading adds a scope for every literal it reads and touches no scope it finds. The literals of what
was read so far own exactly the scopes added so far, whatever was tried and taken back in between.
-/

namespace WindowedClosures

namespace Scope

/-- Nothing is known of the scope but its statements. -/
structure Blank (s : Scope) : Prop where
  parent : s.parent = none
  arrow : s.arrow = .unset
  vars : s.vars = []
  closure : s.closure = []

theorem blank_fresh (origin : Origin) (labels : List String) (body : List Expr) (span : Span) :
    (fresh origin labels body span).Blank := ⟨rfl, rfl, rfl, rfl⟩

/-- In no statement of the scope anything but a name stands in the place of a field's name. -/
def PlainFields (s : Scope) : Prop := ∀ e ∈ s.body, e.PlainFields

end Scope

namespace ScopeTree

/-- Every scope of a tree is as it was read. -/
def Unresolved (tree : ScopeTree) : Prop :=
  ∀ id : Nat, (tree.scope id).Blank ∧ (tree.scope id).PlainFields

theorem unresolved_push {tree : ScopeTree} (h : tree.Unresolved) {s : Scope} (hb : s.Blank)
    (hp : s.PlainFields) : (tree.push s).Unresolved := by
  intro id
  by_cases lt : id < tree.count
  · rw [scope_push_of_lt tree s id lt]
    exact h id
  · by_cases eq : id = tree.count
    · subst eq
      rw [scope_push_count]
      exact ⟨hb, hp⟩
    · rw [scope_of_count_le (tree.push s) (by rw [count_push]; omega)]
      exact ⟨Scope.blank_fresh _ _ _ _, by simp [Scope.PlainFields, default, Scope.fresh]⟩

theorem unresolved_modify {tree : ScopeTree} (h : tree.Unresolved) (id : Nat)
    {f : Scope → Scope} (hf : ∀ s : Scope, s.Blank → (f s).Blank ∧ (f s).PlainFields) :
    (tree.modify id f).Unresolved := by
  intro other
  rw [scope_modify]
  split
  · exact hf _ (h other).1
  · exact h other

/-- From one tree to another, scopes were added for exactly these literals. -/
structure Added (before after : ScopeTree) (literals : List FunctionLiteral) : Prop where
  grows : before.count ≤ after.count
  keeps : ∀ id : Nat, id < before.count → after.scope id = before.scope id
  unresolved : before.Unresolved → after.Unresolved
  owns : ∃ ids, after.Below (literals.map (·.scope)) ids ∧
    ids.Perm (List.range' before.count (after.count - before.count))
  inner : ∀ id : Nat, before.count ≤ id → id < after.count → ∀ child ∈ after.children id, child < id
  written : ∀ id : Nat, before.count ≤ id → id < after.count → (after.scope id).origin = .literal

theorem children_congr {tree other : ScopeTree} {id : Nat}
    (h : (other.scope id).body = (tree.scope id).body) : other.children id = tree.children id := by
  simp only [children, h]

theorem added_refl (tree : ScopeTree) : Added tree tree [] :=
  ⟨Nat.le_refl _, fun _ _ => rfl, id, ⟨[], .nil, by simp⟩, fun _ _ _ => by omega, fun _ _ _ => by omega⟩

theorem Added.trans {first second third : ScopeTree} {a b : List FunctionLiteral}
    (h₁ : Added first second a) (h₂ : Added second third b) : Added first third (a ++ b) := by
  obtain ⟨x, hx, px⟩ := h₁.owns
  obtain ⟨y, hy, py⟩ := h₂.owns
  have le₁ := h₁.grows
  have le₂ := h₂.grows
  refine ⟨by omega, ?_, h₂.unresolved ∘ h₁.unresolved, ⟨x ++ y, ?_, ?_⟩, ?_, ?_⟩
  · intro id lt
    rw [h₂.keeps id (by omega), h₁.keeps id lt]
  · rw [List.map_append]
    refine (hx.congr ?_).append hy
    intro id hm
    have bound := List.mem_range'_1.mp (px.mem_iff.mp hm)
    exact children_congr (by rw [h₂.keeps id (by omega)])
  · refine (px.append py).trans ?_
    rw [show third.count - first.count =
      second.count - first.count + (third.count - second.count) by omega, ← List.range'_append_1,
      Nat.add_sub_cancel' le₁]
  · intro id le lt
    by_cases old : id < second.count
    · have same : third.children id = second.children id :=
        children_congr (by rw [h₂.keeps id old])
      rw [same]
      exact h₁.inner id le old
    · exact h₂.inner id (Nat.le_of_not_lt old) lt
  · intro id le lt
    by_cases old : id < second.count
    · rw [h₂.keeps id old]
      exact h₁.written id le old
    · exact h₂.written id (Nat.le_of_not_lt old) lt

/-- A literal owns the scope that is added for it behind those in its body. -/
theorem Added.push {first second : ScopeTree} {body : List Expr}
    (h : Added first second (literalsOf body)) (hp : ∀ e ∈ body, e.PlainFields)
    (labels : List String) (span : Span) (number : Nat) :
    Added first (second.push (.fresh .literal labels body span)) [⟨number, labels, second.count⟩] := by
  obtain ⟨ids, hb, perm⟩ := h.owns
  have le := h.grows
  have kept (id : Nat) (lt : id < second.count) :=
    scope_push_of_lt second (.fresh .literal labels body span) id lt
  have hc : (second.push (.fresh .literal labels body span)).children second.count =
      (literalsOf body).map (·.scope) := by
    simp [children, scope_push_count, Scope.fresh]
  refine ⟨by rw [count_push]; omega, ?_, ?_, ⟨second.count :: (ids ++ []), ?_, ?_⟩, ?_, ?_⟩
  · intro id lt
    rw [kept id (by omega), h.keeps id lt]
  · intro hu
    exact unresolved_push (h.unresolved hu) (Scope.blank_fresh _ _ _ _) hp
  · refine .cons ?_ .nil
    rw [hc]
    refine hb.congr ?_
    intro id hm
    have bound := List.mem_range'_1.mp (perm.mem_iff.mp hm)
    exact children_congr (by rw [kept id (by omega)])
  · rw [List.append_nil, count_push]
    rw [show second.count + 1 - first.count = second.count - first.count + 1 by omega,
      ← List.range'_append_1, Nat.add_sub_cancel' le]
    exact (perm.cons second.count).trans (List.perm_append_singleton second.count _).symm
  · intro id le' lt child hm
    rw [count_push] at lt
    by_cases old : id < second.count
    · have same : (second.push (.fresh .literal labels body span)).children id =
          second.children id := children_congr (by rw [kept id old])
      rw [same] at hm
      exact h.inner id le' old child hm
    · obtain rfl : id = second.count := by omega
      rw [hc] at hm
      have bound := List.mem_range'_1.mp (perm.mem_iff.mp (hb.mem_of_mem hm))
      exact Nat.lt_of_lt_of_eq bound.2 (Nat.add_sub_cancel' le)
  · intro id le' lt
    rw [count_push] at lt
    by_cases old : id < second.count
    · rw [kept id old]
      exact h.written id le' old
    · obtain rfl : id = second.count := by omega
      rw [scope_push_count]
      rfl

end ScopeTree

namespace Grammar

open ScopeTree (Added)

variable {α β : Type} {pre : List FunctionLiteral}

/-- Whenever the reader succeeds behind literals that own the scopes added so far, its value
satisfies `R` and the literals that go with the value own the scopes added by then. -/
def Yields (pre : List FunctionLiteral) (m : Reader α) (q : α → List FunctionLiteral)
    (R : α → Prop) : Prop :=
  ∀ start c v c', Added start c.tree pre → m c = .ok v c' → Added start c'.tree (q v) ∧ R v

theorem yields_pure {q : α → List FunctionLiteral} {R : α → Prop} (a : α) (hq : q a = pre)
    (hr : R a) : Yields pre (pure a) q R := by
  intro start c v c' ha h
  cases h
  rw [hq]
  exact ⟨ha, hr⟩

theorem yields_throw {q : α → List FunctionLiteral} {R : α → Prop} (e : ParseError) :
    Yields pre (throw e) q R := by
  intro start c v c' ha h
  cases h

theorem reader_bind_ok {m : Reader α} {f : α → Reader β} {c c' : Cursor} {b : β}
    (h : (m >>= f) c = .ok b c') : ∃ a d, m c = .ok a d ∧ f a d = .ok b c' := by
  change EStateM.bind m f c = .ok b c' at h
  cases hm : m c with
  | ok a d =>
    simp only [EStateM.bind, hm] at h
    exact ⟨a, d, rfl, h⟩
  | error e d =>
    simp only [EStateM.bind, hm] at h
    cases h

theorem reader_bind_of_ok {m : Reader α} {f : α → Reader β} {c d : Cursor} {a : α} (h : m c = .ok a d) :
    (m >>= f) c = f a d := by
  change EStateM.bind m f c = f a d
  rw [EStateM.bind, h]

theorem reader_bind_of_error {m : Reader α} {f : α → Reader β} {c d : Cursor} {e : ParseError}
    (h : m c = .error e d) : (m >>= f) c = .error e d := by
  change EStateM.bind m f c = .error e d
  rw [EStateM.bind, h]

/-- A handler goes on where the reader failed. -/
theorem reader_tryCatch (m : Reader α) (handle : ParseError → Reader α) (c : Cursor) :
    tryCatch m handle c =
      match m c with
      | .ok a d => .ok a d
      | .error e d => handle e d := by
  change EStateM.tryCatch m handle c = _
  delta EStateM.tryCatch
  cases m c <;> rfl

theorem reader_tryCatch_of_ok {m : Reader α} {handle : ParseError → Reader α} {c d : Cursor} {a : α}
    (h : m c = .ok a d) : tryCatch m handle c = .ok a d := by
  rw [reader_tryCatch, h]

theorem reader_tryCatch_of_error {m : Reader α} {handle : ParseError → Reader α} {c d : Cursor}
    {e : ParseError} (h : m c = .error e d) : tryCatch m handle c = handle e d := by
  rw [reader_tryCatch, h]

theorem yields_bind {m : Reader α} {f : α → Reader β} {q : α → List FunctionLiteral}
    {R : α → Prop} {r : β → List FunctionLiteral} {S : β → Prop} (hm : Yields pre m q R)
    (hf : ∀ a, R a → Yields (q a) (f a) r S) : Yields pre (m >>= f) r S := by
  intro start c v c' ha h
  obtain ⟨a, d, h₁, h₂⟩ := reader_bind_ok h
  obtain ⟨ha', hr⟩ := hm start c a d ha h₁
  exact hf a hr start d v c' ha' h₂

/-- A reader adds its scopes behind any that were added before. -/
theorem Yields.behind {m : Reader α} {q : α → List FunctionLiteral} {R : α → Prop}
    (h : Yields [] m q R) (pre : List FunctionLiteral) :
    Yields pre m (fun a => pre ++ q a) R := by
  intro start c v c' ha hm
  obtain ⟨added, hr⟩ := h c.tree c v c' (ScopeTree.added_refl c.tree) hm
  exact ⟨ha.trans added, hr⟩

/-- The reader adds no scope. -/
def Quiet (m : Reader α) : Prop := ∀ c v c', m c = .ok v c' → c'.tree = c.tree

theorem Quiet.yields {m : Reader α} (h : Quiet m) (pre : List FunctionLiteral) :
    Yields pre m (fun _ => pre) fun _ => True := by
  intro start c v c' ha hm
  rw [h c v c' hm]
  exact ⟨ha, trivial⟩

theorem quiet_pure (a : α) : Quiet (pure a : Reader α) := by
  intro c v c' h
  cases h
  rfl

theorem quiet_throw (e : ParseError) : Quiet (throw e : Reader α) := by
  intro c v c' h
  cases h

theorem quiet_bind {m : Reader α} {f : α → Reader β} (hm : Quiet m) (hf : ∀ a, Quiet (f a)) :
    Quiet (m >>= f) := by
  intro c v c' h
  obtain ⟨a, d, h₁, h₂⟩ := reader_bind_ok h
  rw [hf a d v c' h₂, hm c a d h₁]

theorem quiet_get : Quiet (get : Reader Cursor) := by
  intro c v c' h
  cases h
  rfl

theorem quiet_unread : Quiet unread := quiet_bind quiet_get fun _ => quiet_pure _

theorem quiet_here : Quiet here := quiet_bind quiet_get fun _ => quiet_pure _

theorem quiet_advance : Quiet advance := by
  intro c v c' h
  cases h
  rfl

theorem quiet_peekSymbol? : Quiet peekSymbol? := by
  refine quiet_bind quiet_unread ?_
  intro tokens
  split
  · exact quiet_pure _
  · exact quiet_pure _

theorem quiet_accept (symbol : Symbol) : Quiet (accept symbol) := by
  refine quiet_bind quiet_unread ?_
  intro tokens
  split
  · split
    · exact quiet_bind quiet_advance fun _ => quiet_pure _
    · exact quiet_pure _
  · exact quiet_pure _

theorem quiet_expect (symbol : Symbol) (what : String) : Quiet (expect symbol what) := by
  refine quiet_bind quiet_get fun c => quiet_bind (quiet_accept symbol) fun found => ?_
  split
  · exact quiet_pure _
  · exact quiet_throw _

theorem quiet_expectName : Quiet expectName := by
  refine quiet_bind quiet_get fun c => ?_
  split
  · exact quiet_bind quiet_advance fun _ => quiet_pure _
  · exact quiet_throw _

theorem quiet_takeUntil (symbol : Symbol) : Quiet (takeUntil symbol) := by
  intro c v c' h
  cases h
  rfl

theorem quiet_expectEnd : Quiet expectEnd := by
  refine quiet_bind quiet_get fun c => ?_
  split
  · exact quiet_pure _
  · exact quiet_throw _

theorem quiet_ofExcept (result : Except ParseError α) :
    Quiet (MonadExcept.ofExcept result : Reader α) := by
  cases result with
  | ok a => exact quiet_pure a
  | error e => exact quiet_throw e

theorem quiet_moreLabels (fuel : Nat) : Quiet (moreLabels fuel) := by
  induction fuel with
  | zero => exact quiet_pure _
  | succ fuel ih =>
    refine quiet_bind (quiet_accept .comma) fun found => ?_
    split
    · exact quiet_bind quiet_expectName fun _ => quiet_bind ih fun _ => quiet_pure _
    · exact quiet_pure _

theorem quiet_labels (fuel : Nat) : Quiet (labels fuel) := by
  refine quiet_bind quiet_unread fun tokens => ?_
  split
  · exact quiet_bind quiet_advance fun _ => quiet_bind (quiet_moreLabels fuel) fun _ => quiet_pure _
  · exact quiet_pure _

/-- A quiet reader in front of another changes nothing for it. -/
theorem yields_quiet_bind {m : Reader α} {f : α → Reader β} {q : β → List FunctionLiteral}
    {R : β → Prop} (hm : Quiet m) (hf : ∀ a, Yields pre (f a) q R) : Yields pre (m >>= f) q R :=
  yields_bind (hm.yields pre) fun a _ => hf a

theorem yields_within {m : Reader α} {q : α → List FunctionLiteral} {R : α → Prop}
    (h : Yields pre m q R) (tokens : List Token) : Yields pre (within tokens m) q R := by
  intro start c v c' ha hw
  obtain ⟨outer, d, hg, hw⟩ := reader_bind_ok hw
  cases hg
  obtain ⟨_, d, hs, hw⟩ := reader_bind_ok hw
  cases hs
  obtain ⟨a, d, hm, hw⟩ := reader_bind_ok hw
  obtain ⟨_, _, hs, hw⟩ := reader_bind_ok hw
  cases hs
  cases hw
  exact h start (.start tokens c.tree) v d ha hm

theorem yields_mapM {f : α → Reader β} {q : β → List FunctionLiteral} {R : β → Prop}
    (h : ∀ a, Yields [] (f a) q R) (items : List α) (pre : List FunctionLiteral) :
    Yields pre (items.mapM f) (fun found => pre ++ found.flatMap q) fun found => ∀ b ∈ found, R b := by
  induction items generalizing pre with
  | nil =>
    rw [List.mapM_nil]
    exact yields_pure _ (by simp) (by simp)
  | cons first rest ih =>
    rw [List.mapM_cons]
    refine yields_bind ((h first).behind pre) fun b hb => ?_
    refine yields_bind (ih (pre ++ q b)) fun found hf => ?_
    refine yields_pure _ (by simp) ?_
    intro v hv
    rcases List.mem_cons.mp hv with rfl | hv
    · exact hb
    · exact hf v hv

/-- The reader yields an expression behind any literals. -/
def Reads (m : Reader Expr) : Prop :=
  ∀ pre, Yields pre m (fun e => pre ++ e.literals) Expr.PlainFields

variable {self : Reader Expr}

theorem reads_wholeExpression (hs : Reads self) (tokens : List Token) (span : Span) :
    Reads (wholeExpression self tokens span) := by
  intro pre
  unfold wholeExpression
  split
  · exact yields_throw _
  · refine yields_within ?_ tokens
    refine yields_bind (hs pre) fun e he => ?_
    exact yields_quiet_bind quiet_expectEnd fun _ => yields_pure e rfl he

theorem yields_field (hs : Reads self) (span : Span) (tokens : List Token) :
    Yields [] (field self span tokens) (·.value.literals) (·.value.PlainFields) := by
  unfold field
  dsimp only
  split
  · split
    · exact yields_throw _
    · exact yields_bind (reads_wholeExpression hs _ span []) fun e he => yields_pure _ rfl he
  · split
    · exact yields_throw _
    · exact yields_bind (reads_wholeExpression hs _ span []) fun e he => yields_pure _ rfl he

theorem reads_tuple (hs : Reads self) (children : List Token) (span : Span) :
    Reads (tuple self children span) := by
  intro pre
  unfold tuple
  have fields : Yields pre (fields self children span)
      (fun found => pre ++ Expr.literalsOfFields found) Expr.plainFieldsAll := by
    unfold fields
    split
    · exact yields_pure _ (by simp [Expr.literalsOfFields]) (by simp [Expr.plainFieldsAll])
    · intro start c v c' ha h
      obtain ⟨added, plain⟩ := yields_mapM (yields_field hs span) _ pre start c v c' ha h
      rw [Expr.plainFieldsAll_iff]
      dsimp only
      rw [Expr.literalsOfFields_eq]
      exact ⟨added, plain⟩
  refine yields_bind fields fun found hf => yields_pure _ (by rw [Expr.literals]) ?_
  rw [Expr.PlainFields]
  exact hf

/-- An operand on the left goes with its literals. -/
def Extends (lhs : Expr) (m : Reader Expr) : Prop :=
  ∀ pre, Yields (pre ++ lhs.literals) m (fun e => pre ++ e.literals) Expr.PlainFields

theorem extends_pure {lhs : Expr} (h : lhs.PlainFields) : Extends lhs (pure lhs) :=
  fun _ => yields_pure lhs rfl h

theorem plainFields_ofOperands {op : BinaryOp} {lhs rhs : Expr} (hl : lhs.PlainFields)
    (hr : rhs.PlainFields) (hf : op = .field → rhs.asName?.isSome) :
    (Expr.ofOperands op lhs rhs).PlainFields := by
  rw [Expr.ofOperands, Expr.PlainFields]
  exact ⟨hl, hr, hf⟩

theorem extends_suffixes (hs : Reads self) (fuel : Nat) (e : Expr) (he : e.PlainFields) :
    Extends e (suffixes self fuel e) := by
  induction fuel generalizing e with
  | zero => exact extends_pure he
  | succ fuel ih =>
    intro pre
    refine yields_quiet_bind quiet_unread fun tokens => ?_
    split
    · refine yields_quiet_bind quiet_advance fun _ => ?_
      refine yields_bind (reads_tuple hs _ _ _) fun args ha => ?_
      have next := ih (.ofOperands .call e args) (plainFields_ofOperands he ha (by simp)) pre
      rwa [Expr.ofOperands, Expr.literals, ← List.append_assoc] at next
    · refine yields_quiet_bind quiet_advance fun _ => ?_
      refine yields_quiet_bind quiet_expectName fun found => ?_
      have plain : (Expr.ofOperands .field e (.name found.1 found.2)).PlainFields :=
        plainFields_ofOperands he (by simp [Expr.PlainFields]) (by simp [Expr.asName?])
      have next := ih _ plain pre
      simpa [Expr.ofOperands, Expr.literals] using next
    · refine yields_quiet_bind quiet_advance fun _ => ?_
      refine yields_bind (hs _) fun position hp => ?_
      refine yields_quiet_bind (quiet_expect _ _) fun closing => ?_
      have plain : (Expr.binary .index e position (e.span.merge closing)).PlainFields := by
        rw [Expr.PlainFields]
        exact ⟨he, hp, by simp⟩
      have next := ih _ plain pre
      rwa [Expr.literals, ← List.append_assoc] at next
    · exact extends_pure he pre

/-- An operator takes its right operand behind its left one. -/
theorem extends_climb {operand : Reader Expr} (ho : Reads operand) (fuel power : Nat) (lhs : Expr)
    (hl : lhs.PlainFields) : Extends lhs (climb operand fuel power lhs) := by
  induction fuel generalizing power lhs with
  | zero => exact extends_pure hl
  | succ fuel ih =>
    intro pre
    refine yields_quiet_bind quiet_peekSymbol? fun symbol => ?_
    split
    · exact extends_pure hl pre
    · rename_i b hb
      split
      · exact extends_pure hl pre
      · refine yields_quiet_bind quiet_advance fun _ => ?_
        refine yields_bind (ho _) fun first hf => ?_
        refine yields_bind (ih b.rightPower first hf _) fun rhs hr => ?_
        have no_field : b.op ≠ .field := by
          obtain ⟨s, -, hs⟩ := Option.bind_eq_some_iff.mp hb
          cases s <;> simp only [binding?, Option.some.injEq, reduceCtorEq] at hs <;> subst hs <;> simp
        have plain : (Expr.ofOperands b.op lhs rhs).PlainFields :=
          plainFields_ofOperands hl hr fun h => absurd h no_field
        have next := ih power _ plain pre
        rwa [Expr.ofOperands, Expr.literals, ← List.append_assoc] at next

theorem reads_varDeclaration (hs : Reads self) : Reads (varDeclaration self) := by
  intro pre
  refine yields_quiet_bind (quiet_expect _ _) fun start => ?_
  refine yields_quiet_bind quiet_expectName fun name => ?_
  refine yields_quiet_bind (quiet_expect _ _) fun _ => ?_
  refine yields_quiet_bind (quiet_takeUntil _) fun tokens => ?_
  refine yields_quiet_bind (quiet_ofExcept _) fun type => ?_
  refine yields_quiet_bind (quiet_expect _ _) fun _ => ?_
  refine yields_bind (hs pre) fun value hv => ?_
  refine yields_pure _ (by simp [Expr.literals]) ?_
  rw [Expr.PlainFields]
  exact hv

theorem reads_typeDeclaration : Reads typeDeclaration := by
  intro pre
  refine yields_quiet_bind (quiet_expect _ _) fun start => ?_
  refine yields_quiet_bind quiet_expectName fun name => ?_
  refine yields_quiet_bind (quiet_expect _ _) fun _ => ?_
  refine yields_quiet_bind (quiet_takeUntil _) fun tokens => ?_
  refine yields_quiet_bind (quiet_ofExcept _) fun type => ?_
  exact yields_pure _ (by simp [Expr.literals]) (by simp [Expr.PlainFields])

theorem reads_statement (hs : Reads self) : Reads (statement self) := by
  intro pre
  refine yields_quiet_bind quiet_peekSymbol? fun symbol => ?_
  split
  · exact reads_varDeclaration hs pre
  · exact reads_typeDeclaration pre
  · exact hs pre

theorem yields_statementsFrom (hs : Reads self) (fuel : Nat) (found : List Expr)
    (hf : ∀ e ∈ found, e.PlainFields) :
    Yields (literalsOf found.reverse) (statementsFrom self fuel found) literalsOf
      fun body => ∀ e ∈ body, e.PlainFields := by
  have done (found : List Expr) (hf : ∀ e ∈ found, e.PlainFields) :
      Yields (literalsOf found.reverse) (pure found.reverse) literalsOf
        fun body => ∀ e ∈ body, e.PlainFields :=
    yields_pure _ rfl (by simpa using hf)
  induction fuel generalizing found with
  | zero => exact yields_quiet_bind quiet_expectEnd fun _ => done found hf
  | succ fuel ih =>
    refine yields_quiet_bind quiet_unread fun tokens => ?_
    split
    · exact done found hf
    · refine yields_bind (reads_statement hs _) fun stmt hst => ?_
      have plain : ∀ e ∈ stmt :: found, e.PlainFields := by
        intro e he
        rcases List.mem_cons.mp he with rfl | he
        · exact hst
        · exact hf e he
      have more : literalsOf (stmt :: found).reverse =
          literalsOf found.reverse ++ stmt.literals := by simp
      rw [← more]
      refine yields_quiet_bind (quiet_accept _) fun again => ?_
      split
      · exact ih (stmt :: found) plain
      · exact yields_quiet_bind quiet_expectEnd fun _ => done (stmt :: found) plain

theorem yields_literalBody (hs : Reads self) (fuel : Nat) :
    Yields [] (literalBody self fuel) (fun body => literalsOf body.1)
      fun body => ∀ e ∈ body.1, e.PlainFields := by
  refine yields_quiet_bind quiet_unread fun tokens => ?_
  split
  · refine yields_quiet_bind quiet_advance fun _ => ?_
    refine yields_bind (yields_within (yields_statementsFrom hs fuel [] (by simp)) _) fun body hb => ?_
    exact yields_pure _ rfl hb
  · refine yields_bind (hs []) fun e he => ?_
    exact yields_pure _ (by simp) (by simpa using he)

theorem reads_functionLiteral (hs : Reads self) (fuel : Nat) (start : Span) :
    Reads (functionLiteral self fuel start) := by
  intro pre
  have owns : Yields [] (functionLiteral self fuel start) Expr.literals Expr.PlainFields := by
    refine yields_quiet_bind (quiet_labels fuel) fun labels => ?_
    refine yields_quiet_bind (quiet_expect _ _) fun _ => ?_
    refine yields_bind (yields_literalBody hs fuel) fun body hb => ?_
    intro before c v c' ha h
    obtain ⟨scope, d, h₁, h₂⟩ := reader_bind_ok h
    cases h₁
    cases h₂
    rw [Expr.literals, Expr.PlainFields]
    exact ⟨ha.push hb labels _ 0, trivial⟩
  exact owns.behind pre

theorem reads_primary (hs : Reads self) (fuel : Nat) : Reads (primary self fuel) := by
  intro pre
  refine yields_quiet_bind quiet_get fun c => ?_
  split
  · exact yields_quiet_bind quiet_advance fun _ =>
      yields_pure _ (by simp [Expr.literals]) (by simp [Expr.PlainFields])
  · exact yields_quiet_bind quiet_advance fun _ =>
      yields_pure _ (by simp [Expr.literals]) (by simp [Expr.PlainFields])
  · exact yields_quiet_bind quiet_advance fun _ =>
      yields_pure _ (by simp [Expr.literals]) (by simp [Expr.PlainFields])
  · exact yields_quiet_bind quiet_advance fun _ =>
      yields_pure _ (by simp [Expr.literals]) (by simp [Expr.PlainFields])
  · exact yields_quiet_bind quiet_advance fun _ =>
      yields_pure _ (by simp [Expr.literals]) (by simp [Expr.PlainFields])
  · exact yields_quiet_bind quiet_advance fun _ => reads_tuple hs _ _ pre
  · exact yields_quiet_bind quiet_advance fun _ => reads_functionLiteral hs fuel _ pre
  · exact yields_throw _

theorem reads_operandFrom (hs : Reads self) (fuel signs : Nat) :
    Reads (operandFrom self fuel signs) := by
  have suffixed : Reads (suffixed self fuel) := by
    intro pre
    exact yields_bind (reads_primary hs fuel pre) fun e he => extends_suffixes hs fuel e he pre
  induction signs with
  | zero => exact suffixed
  | succ signs ih =>
    intro pre
    refine yields_quiet_bind quiet_peekSymbol? fun symbol => ?_
    split
    · refine yields_quiet_bind quiet_here fun start => ?_
      refine yields_quiet_bind quiet_advance fun _ => ?_
      refine yields_bind (ih pre) fun e he => ?_
      refine yields_pure _ (by simp [Expr.literals]) ?_
      rw [Expr.PlainFields]
      exact he
    · exact suffixed pre

theorem reads_operators (hs : Reads self) (fuel : Nat) : Reads (operators self fuel) := by
  intro pre
  have operand : Reads (operand self fuel) := reads_operandFrom hs fuel fuel
  exact yields_bind (operand pre) fun e he => extends_climb operand fuel 1 e he pre

/-- As `Yields`, at one cursor. -/
def YieldsAt (c : Cursor) (pre : List FunctionLiteral) (m : Reader α)
    (q : α → List FunctionLiteral) (R : α → Prop) : Prop :=
  ∀ start v c', Added start c.tree pre → m c = .ok v c' → Added start c'.tree (q v) ∧ R v

theorem yields_get_bind {f : Cursor → Reader β} {q : β → List FunctionLiteral} {R : β → Prop}
    (h : ∀ c, YieldsAt c pre (f c) q R) : Yields pre (get >>= f) q R := by
  intro start c v c' ha hr
  obtain ⟨c₀, d, hg, hr⟩ := reader_bind_ok hr
  cases hg
  exact h c start v c' ha hr

/-- What a failed attempt added is taken back before the next one. -/
theorem yieldsAt_attempt {m next : Reader α} {q : α → List FunctionLiteral} {R : α → Prop}
    (hm : Yields pre m q R) (hn : Yields pre next q R) (c : Cursor) (rest : List Token) :
    YieldsAt c pre (do
      set { c with rest := rest }
      tryCatch m fun _ => do
        set c
        next) q R := by
  intro start v c' ha h
  obtain ⟨_, d, hset, h⟩ := reader_bind_ok h
  cases hset
  rw [reader_tryCatch] at h
  split at h
  · rename_i read
    cases h
    exact hm start { c with rest := rest } v c' ha read
  · obtain ⟨_, d, hset, h⟩ := reader_bind_ok h
    cases hset
    exact hn start c v c' ha h

theorem reads_expressionWith (hs : Reads self) (fuel : Nat) :
    Reads (expressionWith self fuel) := by
  intro pre
  refine yields_get_bind fun c => ?_
  split
  · refine yieldsAt_attempt ?_ (reads_operators hs fuel pre) c _
    refine yields_bind (hs pre) fun e he => ?_
    refine yields_pure _ (by simp [Expr.ofOperands, Expr.literals]) ?_
    exact plainFields_ofOperands (by simp [Expr.PlainFields]) he (by simp)
  · exact fun start => reads_operators hs fuel pre start c

theorem reads_expressionAt (fuel : Nat) : Reads (expressionAt fuel) := by
  induction fuel with
  | zero => exact fun pre => yields_quiet_bind quiet_get fun c => yields_throw _
  | succ fuel ih => exact reads_expressionWith ih fuel

end Grammar

namespace ScopeTree

/-- A tree as reading leaves it: every scope lies below the root once, and no scope is resolved. -/
structure Read (tree : ScopeTree) : Prop where
  owns : ∃ ids, tree.Below [rootId] ids ∧ ids.Perm (List.range tree.count)
  unresolved : tree.Unresolved
  labels : tree.root.labels = []

theorem unresolved_empty : empty.Unresolved := by
  intro id
  cases id with
  | zero => exact ⟨⟨rfl, rfl, rfl, rfl⟩, by simp [empty, scope, Scope.PlainFields, Scope.fresh]⟩
  | succ n =>
    rw [scope_of_count_le _ (by simp [count, empty])]
    exact ⟨Scope.blank_fresh _ _ _ _, by simp [Scope.PlainFields, default, Scope.fresh]⟩

/-- The statements of the program own all scopes but the root. -/
theorem Added.rooted {tree : ScopeTree} {body : List Expr} (h : Added empty tree (literalsOf body))
    (plain : ∀ e ∈ body, e.PlainFields) (span : Span) :
    (tree.modify rootId fun root => { root with body := body, span := span }).Read := by
  obtain ⟨ids, below, perm⟩ := h.owns
  have grows : 1 ≤ tree.count := h.grows
  rw [show empty.count = 1 from rfl] at perm
  generalize hf : (fun root : Scope => { root with body := body, span := span }) = f
  have root : (tree.modify rootId f).children rootId = (literalsOf body).map (·.scope) := by
    rw [children, scope_modify_same tree rootId f grows, ← hf]
  refine ⟨⟨rootId :: (ids ++ []), .cons ?_ .nil, ?_⟩, ?_, ?_⟩
  · rw [root]
    refine below.congr fun id hm => children_congr ?_
    have bound := List.mem_range'_1.mp (perm.mem_iff.mp hm)
    rw [scope_modify_other tree rootId id f (show id ≠ 0 from Nat.ne_of_gt bound.1)]
  · rw [List.append_nil, count_modify, List.range_eq_range',
      show tree.count = 1 + (tree.count - 1) by omega, ← List.range'_append_1]
    exact perm.cons 0
  · refine unresolved_modify (h.unresolved unresolved_empty) _ ?_
    intro s hb
    rw [← hf]
    exact ⟨⟨hb.parent, hb.arrow, hb.vars, hb.closure⟩, plain⟩
  · rw [ScopeTree.root, scope_modify_same tree rootId f grows, ← hf]
    show (tree.scope 0).labels = []
    rw [h.keeps 0 (by decide)]
    rfl

end ScopeTree

/-- The program's statements are put into the root once all scopes are added. -/
theorem Grammar.readProgram_added {tokens : List Token} {tree : ScopeTree}
    (h : readProgram tokens = .ok tree) :
    ∃ (body : List Expr) (read : ScopeTree) (span : Span),
      ScopeTree.Added .empty read (literalsOf body) ∧ (∀ e ∈ body, e.PlainFields) ∧
        tree = read.modify ScopeTree.rootId fun root => { root with body := body, span := span } := by
  unfold readProgram readStatements at h
  dsimp only at h
  split at h
  · rename_i body c hr
    cases h
    obtain ⟨added, plain⟩ := yields_statementsFrom (reads_expressionAt _) _ [] (by simp)
      .empty _ body c (ScopeTree.added_refl _) hr
    exact ⟨body, c.tree, _, added, plain, rfl⟩
  · cases h

theorem Grammar.readProgram_read {tokens : List Token} {tree : ScopeTree}
    (h : readProgram tokens = .ok tree) : tree.Read := by
  obtain ⟨body, read, span, added, plain, rfl⟩ := readProgram_added h
  exact added.rooted plain span

/-- A literal in the body of a literal has a scope with a smaller number. -/
theorem Grammar.readProgram_inner {tokens : List Token} {tree : ScopeTree}
    (h : readProgram tokens = .ok tree) {id : Nat} (ne : id ≠ ScopeTree.rootId) :
    ∀ child ∈ tree.children id, child < id := by
  obtain ⟨body, read, span, added, -, rfl⟩ := readProgram_added h
  intro child hc
  by_cases lt : id < read.count
  · refine added.inner id (Nat.pos_of_ne_zero ne) lt child ?_
    rwa [ScopeTree.children, ScopeTree.scope_modify_other _ _ _ _ ne] at hc
  · rw [ScopeTree.children, ScopeTree.scope_of_count_le _ (by simpa using lt)] at hc
    cases hc

/-- What is read are the program and literals. -/
theorem Grammar.readProgram_written {tokens : List Token} {tree : ScopeTree}
    (h : readProgram tokens = .ok tree) (id : Nat) :
    (tree.scope id).origin = .program ∨ (tree.scope id).origin = .literal := by
  obtain ⟨body, read, span, added, -, rfl⟩ := readProgram_added h
  have origin : ((read.modify ScopeTree.rootId fun root => { root with body := body, span := span }).scope
      id).origin = (read.scope id).origin := by
    rw [ScopeTree.scope_modify]
    split <;> rfl
  rw [origin]
  by_cases lt : id < read.count
  · cases id with
    | zero =>
      rw [added.keeps 0 (by decide)]
      exact .inl rfl
    | succ id => exact .inr (added.written (id + 1) (Nat.succ_le_succ id.zero_le) lt)
  · rw [ScopeTree.scope_of_count_le read (Nat.le_of_not_lt lt)]
    exact .inl rfl

/-- Reading makes no arms. -/
theorem Grammar.readProgram_origin {tokens : List Token} {tree : ScopeTree}
    (h : readProgram tokens = .ok tree) (id : Nat) : (tree.scope id).origin ≠ .branch := by
  rcases readProgram_written h id with written | written <;> rw [written] <;> decide

end WindowedClosures
