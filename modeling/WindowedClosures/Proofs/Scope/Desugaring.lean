import WindowedClosures.Proofs.Expr.Nodes
import WindowedClosures.Proofs.Outcome
import WindowedClosures.Proofs.Scope.Reading
import WindowedClosures.Scope.Desugar

/-!
# The scopes that desugaring adds

Desugaring adds scopes behind those it finds, fills in their statements later, and replaces the
statements of the scopes it enters. What lay below the literals of an expression still lies below
those of the new one, together with everything that was added.
-/

namespace WindowedClosures

namespace ScopeTree

/-- What lay below one row of scopes lies below another, with the reserved scopes and everything
that was added. -/
structure Turns (before after : ScopeTree) (reserved roots roots' : List Nat) : Prop where
  grows : before.count ≤ after.count
  labels : ∀ id : Nat, id < before.count → (after.scope id).labels = (before.scope id).labels
  unresolved : after.Unresolved
  below : ∀ ids : List Nat, before.Below roots ids → (reserved ++ ids).Nodup →
    (∀ id : Nat, id ∈ reserved ++ ids → id < before.count) →
    ∃ ids' : List Nat, after.Below roots' ids' ∧
      ids'.Perm (reserved ++ ids ++ List.range' before.count (after.count - before.count)) ∧
      ∀ id : Nat, id < before.count → id ∉ reserved ++ ids → after.scope id = before.scope id

variable {first second third : ScopeTree} {a a' b b' r r' : List Nat}

theorem turns_refl (h : first.Unresolved) (a : List Nat) : Turns first first [] a a := by
  refine ⟨Nat.le_refl _, fun _ _ => rfl, h, ?_⟩
  intro ids hb nodup lt
  exact ⟨ids, hb, by simp, fun _ _ _ => rfl⟩

theorem Turns.perm (h : Turns first second r a a') (hr : r.Perm r') : Turns first second r' a a' := by
  refine ⟨h.grows, h.labels, h.unresolved, ?_⟩
  intro ids hb nodup lt
  have mem (id : Nat) : id ∈ r ++ ids ↔ id ∈ r' ++ ids := (hr.append_right ids).mem_iff
  obtain ⟨ids', hb', perm, keeps⟩ := h.below ids hb ((hr.append_right ids).nodup_iff.mpr nodup)
    fun id hm => lt id ((mem id).mp hm)
  refine ⟨ids', hb', perm.trans ((hr.append_right ids).append_right _), ?_⟩
  intro id hlt hn
  exact keeps id hlt fun hm => hn ((mem id).mp hm)

/-- One row after the other. -/
theorem Turns.comp (h₁ : Turns first second r a a') (h₂ : Turns second third r' b b') :
    Turns first third (r ++ r') (a ++ b) (a' ++ b') := by
  have le₁ := h₁.grows
  have le₂ := h₂.grows
  refine ⟨by omega, ?_, h₂.unresolved, ?_⟩
  · intro id lt
    rw [h₂.labels id (by omega), h₁.labels id lt]
  intro ids hb nodup lt
  obtain ⟨x, y, rfl, hx, hy⟩ := hb.split
  have shuffle : (r ++ r' ++ (x ++ y)).Perm ((r ++ x) ++ (r' ++ y)) := by
    simp only [List.append_assoc]
    exact (List.Perm.append_left r (List.perm_append_comm_assoc r' x y))
  have nodup' := shuffle.nodup_iff.mp nodup
  have lt' (id : Nat) (hm : id ∈ (r ++ x) ++ (r' ++ y)) : id < first.count :=
    lt id (shuffle.mem_iff.mpr hm)
  obtain ⟨nx, ny, disjoint⟩ := List.nodup_append.mp nodup'
  obtain ⟨x', hx', px, kx⟩ := h₁.below x hx nx fun id hm => lt' id (List.mem_append_left _ hm)
  have apart (id : Nat) (hm : id ∈ r' ++ y) : id ∉ r ++ x := fun hn => disjoint id hn id hm rfl
  have hy₁ : second.Below b y := by
    refine hy.congr fun id hm => children_congr ?_
    have hm' : id ∈ r' ++ y := List.mem_append_right _ hm
    rw [kx id (lt' id (List.mem_append_right _ hm')) (apart id hm')]
  obtain ⟨y', hy', py, ky⟩ := h₂.below y hy₁ ny fun id hm =>
    Nat.lt_of_lt_of_le (lt' id (List.mem_append_right _ hm)) le₁
  refine ⟨x' ++ y', ?_, ?_, ?_⟩
  · refine (hx'.congr fun (id : Nat) hm => children_congr ?_).append hy'
    have found := px.mem_iff.mp hm
    rw [ky]
    · rcases List.mem_append.mp found with found | found
      · exact Nat.lt_of_lt_of_le (lt' id (List.mem_append_left _ found)) le₁
      · have := List.mem_range'_1.mp found
        omega
    · intro hn
      rcases List.mem_append.mp found with found | found
      · exact apart id hn found
      · have := List.mem_range'_1.mp found
        have := lt' id (List.mem_append_right _ hn)
        omega
  · have range : List.range' first.count (third.count - first.count) =
        List.range' first.count (second.count - first.count) ++
          List.range' second.count (third.count - second.count) := by
      rw [show third.count - first.count =
        second.count - first.count + (third.count - second.count) by omega,
        ← List.range'_append_1, Nat.add_sub_cancel' le₁]
    refine (px.append py).trans ?_
    rw [range]
    have swap := List.perm_append_comm_assoc (List.range' first.count (second.count - first.count))
      (r' ++ y) (List.range' second.count (third.count - second.count))
    refine List.Perm.trans ?_ ((shuffle.symm).append_right _)
    simpa [List.append_assoc] using swap.append_left (r ++ x)
  · intro id hlt hn
    have hn' : id ∉ (r ++ x) ++ (r' ++ y) := fun hm => hn (shuffle.mem_iff.mpr hm)
    rw [ky id (by omega) fun hm => hn' (List.mem_append_right _ hm),
      kx id hlt fun hm => hn' (List.mem_append_left _ hm)]

/-- The statements of a reserved scope own what is below their literals. -/
theorem Turns.body (h : Turns first second r a a') (id : Nat) (body : List Expr)
    (hb : (literalsOf body).map (·.scope) = a') (plain : ∀ e ∈ body, e.PlainFields) :
    Turns first (second.setBody id body) (id :: r) a [id] := by
  have le := h.grows
  refine ⟨by simpa using le, ?_, ?_, ?_⟩
  · intro i lt
    rw [← h.labels i lt, setBody, scope_modify]
    split <;> rfl
  · refine unresolved_modify h.unresolved id ?_
    intro s hs
    exact ⟨⟨hs.parent, hs.arrow, hs.vars, hs.closure⟩, plain⟩
  · intro ids below nodup lt
    obtain ⟨fresh, nodup⟩ := List.nodup_cons.mp nodup
    have small : id < first.count := lt id (by simp)
    obtain ⟨ids', below', perm, keeps⟩ := h.below ids below nodup fun i hm =>
      lt i (List.mem_cons_of_mem _ hm)
    have outside : id ∉ ids' := by
      intro hm
      rcases List.mem_append.mp (perm.mem_iff.mp hm) with hm | hm
      · exact fresh hm
      · have := List.mem_range'_1.mp hm
        omega
    refine ⟨id :: (ids' ++ []), .cons ?_ .nil, ?_, ?_⟩
    · have children : (second.setBody id body).children id = a' := by
        rw [children, setBody, scope_modify_same _ _ _ (Nat.lt_of_lt_of_le small le), hb]
      rw [children]
      refine below'.congr fun i hm => children_congr ?_
      rw [setBody, scope_modify_other second id i _ fun he => outside (he ▸ hm)]
    · rw [List.append_nil, count_setBody]
      exact perm.cons id
    · intro i hlt hn
      obtain ⟨ne, hn⟩ := not_or.mp (mt List.mem_cons.mpr hn)
      rw [setBody, scope_modify_other _ _ _ _ ne, keeps i hlt hn]

/-- A scope that was reserved where there was none is a new one. -/
theorem Turns.alloc {s : Scope} (h : Turns (first.push s) second (first.count :: r) a a') :
    Turns first second r a a' := by
  have le : first.count + 1 ≤ second.count := by simpa using h.grows
  refine ⟨by omega, ?_, h.unresolved, ?_⟩
  · intro id lt
    rw [h.labels id (by rw [count_push]; omega), scope_push_of_lt _ _ _ lt]
  intro ids below nodup lt
  have outside : first.count ∉ r ++ ids := fun hm => Nat.lt_irrefl _ (lt _ hm)
  have below' : (first.push s).Below a ids := by
    refine below.congr fun id hm => children_congr ?_
    rw [scope_push_of_lt _ _ _ (lt id (List.mem_append_right _ hm))]
  obtain ⟨ids', hb', perm, keeps⟩ := h.below ids below' (List.nodup_cons.mpr ⟨outside, nodup⟩) (by
    intro id hm
    rw [count_push]
    rcases List.mem_cons.mp hm with rfl | hm
    · omega
    · have := lt id hm
      omega)
  refine ⟨ids', hb', perm.trans ?_, ?_⟩
  · rw [count_push, show second.count - first.count = second.count - (first.count + 1) + 1 by omega,
      List.range'_succ]
    exact List.perm_middle.symm
  · intro id hlt hn
    rw [keeps id (by rw [count_push]; omega), scope_push_of_lt _ _ _ hlt]
    intro hm
    rcases List.mem_cons.mp hm with rfl | hm
    · exact Nat.lt_irrefl _ hlt
    · exact hn hm

/-- New statements of a scope for those it has. -/
theorem Turns.reenter {id : Nat} {body : List Expr} (h : Turns first second [] (first.children id) a')
    (hb : (literalsOf body).map (·.scope) = a') (plain : ∀ e ∈ body, e.PlainFields) :
    Turns first (second.setBody id body) [] [id] [id] := by
  have body := h.body id body hb plain
  refine ⟨body.grows, body.labels, body.unresolved, ?_⟩
  intro ids below nodup lt
  cases below with
  | cons inner outer =>
    cases outer
    rename_i ids
    rw [List.append_nil] at nodup lt ⊢
    exact body.below ids inner nodup lt

end ScopeTree

open ScopeTree

variable {α β : Type} {tree tree' : ScopeTree}

theorem resolver_bind_ok {m : Resolver α} {f : α → Resolver β} {b : β}
    (h : (m >>= f) tree = .ok (b, tree')) :
    ∃ a middle, m tree = .ok (a, middle) ∧ f a middle = .ok (b, tree') := by
  obtain ⟨⟨a, middle⟩, hm, hf⟩ := except_bind_ok h
  exact ⟨a, middle, hm, hf⟩

/-- The bodies of the literals of an expression. -/
def Expr.scopes (e : Expr) : List Nat := e.literals.map (·.scope)

/-- Entering a literal keeps what is below it together. -/
def Enters (enter : ScopeId → Resolver Unit) : Prop :=
  ∀ id tree tree', tree.Unresolved → enter id tree = .ok ((), tree') → Turns tree tree' [] [id] [id]

/-- What desugaring makes of an expression and of the tree around it. -/
def Desugars (enter : ScopeId → Resolver Unit) (e : Expr) : Prop :=
  ∀ e' tree tree', tree.Unresolved → e.PlainFields → desugarExpr enter e tree = .ok (e', tree') →
    Turns tree tree' [] e.scopes e'.scopes ∧ e'.PlainFields

variable {enter : ScopeId → Resolver Unit}

attribute [local simp] desugarExpr

theorem allocateScope_ok {origin : Origin} {labels : List String} {span : Span} {id : Nat}
    (h : allocateScope origin labels span tree = .ok (id, tree')) :
    id = tree.count ∧ tree' = tree.push (.fresh origin labels [] span) := by
  cases h
  exact ⟨rfl, rfl⟩

theorem unresolved_fresh (h : tree.Unresolved) (origin : Origin) (labels : List String)
    (span : Span) : (tree.push (.fresh origin labels [] span)).Unresolved :=
  unresolved_push h (Scope.blank_fresh _ _ _ _) (by simp [Scope.PlainFields, Scope.fresh])

theorem desugars_compose {f g : Expr} (hf : Desugars enter f) (hg : Desugars enter g) (span : Span) :
    Desugars enter (.binary .compose f g span) := by
  intro e' tree tree' hu hp h
  rw [Expr.PlainFields] at hp
  obtain ⟨pf, pg, -⟩ := hp
  rw [desugarExpr] at h
  obtain ⟨id, t₁, ha, h⟩ := resolver_bind_ok h
  obtain ⟨rfl, rfl⟩ := allocateScope_ok ha
  obtain ⟨f', t₂, h₁, h⟩ := resolver_bind_ok h
  obtain ⟨g', t₃, h₂, h⟩ := resolver_bind_ok h
  obtain ⟨turns₁, pf'⟩ := hf f' _ t₂ (unresolved_fresh hu _ _ _) pf h₁
  obtain ⟨turns₂, pg'⟩ := hg g' _ t₃ turns₁.unresolved pg h₂
  obtain ⟨_, t₄, hm, h⟩ := resolver_bind_ok h
  cases hm
  cases h
  have whole := (turns₁.comp turns₂).body tree.count [.binary .apply f'
    (.binary .apply g' (.name compositionLabel span) (g.span.merge span)) span]
    (by simp [Expr.scopes, Expr.literals]) (by simp [Expr.PlainFields, pf', pg'])
  exact ⟨by simpa [Expr.scopes, Expr.literals] using whole.alloc, by simp [Expr.PlainFields]⟩

theorem desugars_choose {cond yes no : Expr} (hc : Desugars enter cond) (hy : Desugars enter yes)
    (hn : Desugars enter no) (yesLabel noLabel : Option String) (armsSpan span : Span) :
    Desugars enter (.binary .choose cond (.tuple [⟨yesLabel, yes⟩, ⟨noLabel, no⟩] armsSpan) span) := by
  intro e' tree tree' hu hp h
  simp only [Expr.PlainFields, Expr.plainFieldsAll] at hp
  obtain ⟨pc, ⟨py, pn, -⟩, -⟩ := hp
  rw [desugarExpr] at h
  obtain ⟨id₁, t₁, ha, h⟩ := resolver_bind_ok h
  obtain ⟨rfl, rfl⟩ := allocateScope_ok ha
  obtain ⟨id₂, t₂, ha, h⟩ := resolver_bind_ok h
  obtain ⟨rfl, rfl⟩ := allocateScope_ok ha
  obtain ⟨cond', t₃, h₁, h⟩ := resolver_bind_ok h
  obtain ⟨yes', t₄, h₂, h⟩ := resolver_bind_ok h
  obtain ⟨_, t₅, hm, h⟩ := resolver_bind_ok h
  cases hm
  obtain ⟨no', t₆, h₃, h⟩ := resolver_bind_ok h
  obtain ⟨_, t₇, hm, h⟩ := resolver_bind_ok h
  cases hm
  cases h
  obtain ⟨turns₁, pc'⟩ := hc cond' _ t₃ (unresolved_fresh (unresolved_fresh hu _ _ _) _ _ _) pc h₁
  obtain ⟨turns₂, py'⟩ := hy yes' _ t₄ turns₁.unresolved py h₂
  have yesBody := turns₂.body tree.count [yes'] (by simp [Expr.scopes]) (by simpa using py')
  obtain ⟨turns₃, pn'⟩ := hn no' _ t₆ yesBody.unresolved pn h₃
  have noBody := turns₃.body (tree.push (.fresh .branch [] [] yes.span)).count [no']
    (by simp [Expr.scopes]) (by simpa using pn')
  have whole := (turns₁.comp (yesBody.comp noBody)).perm (List.Perm.swap _ tree.count [])
  exact ⟨by simpa [Expr.scopes, Expr.literals, Expr.literalsOfFields] using whole.alloc.alloc,
    by simp [Expr.PlainFields, Expr.plainFieldsAll, pc']⟩

/-- A choice that lacks an arm is refused. -/
theorem desugarExpr_unpaired (cond : Expr) {arms : Expr} (unpaired : ¬ arms.IsPair) (span : Span) :
    desugarExpr enter (.binary .choose cond arms span) = throw (.invalidControl arms.span) := by
  rw [desugarExpr]
  intro _ _ _ _ _ eq
  rw [eq] at unpaired
  exact unpaired trivial

/-- Of an operation that is no sugar the operands are desugared, from left to right. -/
theorem desugarExpr_binary {op : BinaryOp} (compose : op ≠ .compose) (choose : op ≠ .choose)
    (lhs rhs : Expr) (span : Span) : desugarExpr enter (.binary op lhs rhs span) = (do
      let lhs ← desugarExpr enter lhs
      let rhs ← desugarExpr enter rhs
      return .binary op lhs rhs span) := by
  rw [desugarExpr]
  · exact compose
  · exact fun _ _ _ _ _ eq _ => choose eq
  · exact choose

/-- An expression that stays as it is and holds no literals. -/
theorem desugars_leaf {e : Expr} (scopes : e.scopes = []) (stays : desugarExpr enter e = pure e) :
    Desugars enter e := by
  intro e' tree tree' hu hp h
  rw [stays] at h
  cases h
  rw [scopes]
  exact ⟨turns_refl hu [], hp⟩

theorem desugars_binary {op : BinaryOp} {lhs rhs : Expr} (compose : op ≠ .compose)
    (choose : op ≠ .choose) (hl : Desugars enter lhs) (hr : Desugars enter rhs) (span : Span) :
    Desugars enter (.binary op lhs rhs span) := by
  intro e' tree tree' hu hp h
  rw [desugarExpr_binary compose choose] at h
  rw [Expr.PlainFields] at hp
  obtain ⟨pl, pr, pf⟩ := hp
  obtain ⟨lhs', t₁, h₁, h⟩ := resolver_bind_ok h
  obtain ⟨rhs', t₂, h₂, h⟩ := resolver_bind_ok h
  cases h
  obtain ⟨turns₁, pl'⟩ := hl lhs' _ t₁ hu pl h₁
  obtain ⟨turns₂, pr'⟩ := hr rhs' _ _ turns₁.unresolved pr h₂
  refine ⟨by simpa [Expr.scopes, Expr.literals] using turns₁.comp turns₂, ?_⟩
  rw [Expr.PlainFields]
  refine ⟨pl', pr', fun field => ?_⟩
  -- the name of a field is still a name
  cases rhs with
  | name value at_ =>
    rw [desugarExpr] at h₂
    cases h₂
    rfl
  | _ => simp [Expr.asName?] at pf; exact absurd field pf

theorem desugars_fields {fields : List (Labelled Expr)}
    (inner : ∀ field ∈ fields, Desugars enter field.value) :
    ∀ fields' tree tree', tree.Unresolved → Expr.plainFieldsAll fields →
      desugarFields enter fields tree = .ok (fields', tree') →
      Turns tree tree' [] ((Expr.literalsOfFields fields).map (·.scope))
        ((Expr.literalsOfFields fields').map (·.scope)) ∧ Expr.plainFieldsAll fields' := by
  induction fields with
  | nil =>
    intro fields' tree tree' hu hp h
    rw [desugarFields] at h
    cases h
    exact ⟨turns_refl hu _, hp⟩
  | cons field rest ih =>
    intro fields' tree tree' hu hp h
    rw [desugarFields] at h
    rw [Expr.plainFieldsAll] at hp
    obtain ⟨value', t₁, h₁, h⟩ := resolver_bind_ok h
    obtain ⟨rest', t₂, h₂, h⟩ := resolver_bind_ok h
    cases h
    obtain ⟨turns₁, plain₁⟩ := inner field (by simp) _ _ _ hu hp.1 h₁
    obtain ⟨turns₂, plain₂⟩ :=
      ih (fun other mem => inner other (by simp [mem])) _ _ _ turns₁.unresolved hp.2 h₂
    exact ⟨by simpa [Expr.scopes, Expr.literalsOfFields] using turns₁.comp turns₂,
      by simp [Expr.plainFieldsAll, plain₁, plain₂]⟩

theorem desugars_tuple {fields : List (Labelled Expr)}
    (inner : ∀ field ∈ fields, Desugars enter field.value) (span : Span) :
    Desugars enter (.tuple fields span) := by
  intro e' tree tree' hu hp h
  rw [desugarExpr] at h
  rw [Expr.PlainFields] at hp
  obtain ⟨fields', t, h₁, h⟩ := resolver_bind_ok h
  cases h
  obtain ⟨turns, plain⟩ := desugars_fields inner _ _ _ hu hp h₁
  exact ⟨by simpa [Expr.scopes, Expr.literals] using turns, by simpa [Expr.PlainFields] using plain⟩

theorem desugars_expr (he : Enters enter) (e : Expr) : Desugars enter e := by
  induction e using Expr.of_forms with
  | int | hex | float | text | name | typeDecl => exact desugars_leaf rfl (by simp)
  | function literal span =>
    intro e' tree tree' hu hp h
    rw [desugarExpr] at h
    obtain ⟨_, t, hm, h⟩ := resolver_bind_ok h
    cases h
    exact ⟨by simpa [Expr.scopes, Expr.literals] using he _ _ _ hu hm, hp⟩
  | varDecl name type value span inner =>
    intro e' tree tree' hu hp h
    rw [desugarExpr] at h
    rw [Expr.PlainFields] at hp
    obtain ⟨value', t, h₁, h⟩ := resolver_bind_ok h
    cases h
    obtain ⟨turns, plain⟩ := inner _ _ _ hu hp h₁
    exact ⟨by simpa [Expr.scopes, Expr.literals] using turns, by simpa [Expr.PlainFields] using plain⟩
  | parens value span inner => exact desugars_tuple (List.forall_mem_singleton.mpr inner) span
  | tuple fields span _ inner => exact desugars_tuple inner span
  | unary op operand span inner =>
    intro e' tree tree' hu hp h
    rw [desugarExpr] at h
    rw [Expr.PlainFields] at hp
    obtain ⟨operand', t, h₁, h⟩ := resolver_bind_ok h
    cases h
    obtain ⟨turns, plain⟩ := inner _ _ _ hu hp h₁
    exact ⟨by simpa [Expr.scopes, Expr.literals] using turns, by simpa [Expr.PlainFields] using plain⟩
  | binary op lhs rhs span choose hl hr =>
    by_cases compose : op = .compose
    · subst compose
      exact desugars_compose hl hr span
    · exact desugars_binary compose choose hl hr span
  | choose cond yes no armsSpan span hc hy hn =>
    exact desugars_choose hc hy hn yes.label no.label armsSpan span
  | unpaired cond arms span lacks =>
    intro e' tree tree' hu hp h
    rw [desugarExpr_unpaired cond lacks] at h
    cases h

theorem desugars_body (he : Enters enter) (body : List Expr) :
    ∀ body' tree tree', tree.Unresolved → (∀ e ∈ body, e.PlainFields) →
      body.mapM (desugarExpr enter) tree = .ok (body', tree') →
      Turns tree tree' [] ((literalsOf body).map (·.scope)) ((literalsOf body').map (·.scope)) ∧
        ∀ e ∈ body', e.PlainFields := by
  induction body with
  | nil =>
    intro body' tree tree' hu hp h
    rw [List.mapM_nil] at h
    cases h
    exact ⟨turns_refl hu _, hp⟩
  | cons e rest ih =>
    intro body' tree tree' hu hp h
    rw [List.mapM_cons] at h
    obtain ⟨e', t₁, h₁, h⟩ := resolver_bind_ok h
    obtain ⟨rest', t₂, h₂, h⟩ := resolver_bind_ok h
    cases h
    obtain ⟨turns₁, plain₁⟩ := desugars_expr he e _ _ _ hu (hp e (by simp)) h₁
    obtain ⟨turns₂, plain₂⟩ := ih _ _ _ turns₁.unresolved (fun e hm => hp e (by simp [hm])) h₂
    refine ⟨by simpa [Expr.scopes] using turns₁.comp turns₂, ?_⟩
    simpa using ⟨plain₁, plain₂⟩

theorem enters_desugarScope (fuel : Nat) : Enters (desugarScope fuel) := by
  induction fuel with
  | zero =>
    intro id tree tree' hu h
    cases h
    exact turns_refl hu _
  | succ fuel ih =>
    intro id tree tree' hu h
    rw [desugarScope] at h
    obtain ⟨_, t, hg, h⟩ := resolver_bind_ok h
    cases hg
    obtain ⟨body, t, hb, h⟩ := resolver_bind_ok h
    cases h
    obtain ⟨turns, plain⟩ := desugars_body ih _ body tree t hu (hu id).2 hb
    exact turns.reenter rfl plain

theorem ScopeTree.Read.desugar {tree tree' : ScopeTree} (h : tree.Read)
    (hd : tree.desugar = .ok tree') : tree'.Read := by
  unfold ScopeTree.desugar at hd
  obtain ⟨⟨_, t⟩, hs, hd⟩ := except_bind_ok hd
  cases hd
  have turns := enters_desugarScope tree.count rootId tree tree' h.unresolved hs
  obtain ⟨ids, below, perm⟩ := h.owns
  obtain ⟨ids', below', perm', -⟩ := turns.below ids below
    (perm.nodup_iff.mpr List.nodup_range) fun id hm => List.mem_range.mp (perm.mem_iff.mp hm)
  have size : tree.count ≠ 0 := by
    intro zero
    have := perm.mem_iff.mp (below.mem_of_mem (List.mem_singleton_self rootId))
    rw [zero] at this
    simp at this
  refine ⟨⟨ids', below', perm'.trans ((perm.append_right _).trans ?_)⟩, turns.unresolved,
    (turns.labels rootId (Nat.pos_of_ne_zero size)).trans h.labels⟩
  have range := @List.range'_append_1 0 tree.count (tree'.count - tree.count)
  rw [Nat.zero_add, Nat.add_sub_cancel' turns.grows] at range
  rw [List.range_eq_range', List.range_eq_range', range]

end WindowedClosures
