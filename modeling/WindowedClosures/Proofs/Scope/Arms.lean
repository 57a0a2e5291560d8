import WindowedClosures.Proofs.Scope.Sugar

/-!
# The arrows of arms

An arm stands nowhere but in its choice, where no expected type reaches it. So its arrow is open until
the last pass over the literals finds it from the statement that the arm ends with.
-/

namespace WindowedClosures

namespace ScopeTree

/-- An expected type for the expression reaches no arm. -/
def Armless (tree : ScopeTree) (e : Expr) : Prop := ∀ id ∈ offered e, (tree.scope id).origin ≠ .branch

/-- Types passed on from the node reach no arm. -/
def SparesArms (tree : ScopeTree) (n : Expr) : Prop :=
  ∀ id ∈ tree.passedTo n, (tree.scope id).origin ≠ .branch

theorem offeredFields_eq (fields : List (Labelled Expr)) :
    offeredFields fields = fields.flatMap fun field => offered field.value := by
  induction fields with
  | nil => rfl
  | cons first rest ih => rw [offeredFields, ih]; rfl

theorem armless_of_parts {tree : ScopeTree} {e : Expr} (stays : e.Stays)
    (parts : ∀ part ∈ e.parts, tree.Armless part) : tree.Armless e := by
  cases e with
  | tuple fields span =>
    intro id mem
    rw [offered, offeredFields_eq] at mem
    obtain ⟨field, inside, mem⟩ := List.mem_flatMap.mp mem
    exact parts field.value (List.mem_map_of_mem inside) id mem
  | function => cases stays
  | _ => exact fun _ mem => nomatch mem

theorem sparesArms_of_nil {tree : ScopeTree} {n : Expr} (h : tree.passedTo n = []) : tree.SparesArms n := by
  intro id mem
  rw [h] at mem
  cases mem

theorem sparesArms_of_parts {tree : ScopeTree} {e : Expr} (stays : e.Stays)
    (parts : ∀ part ∈ e.parts, tree.Armless part) : tree.SparesArms e := by
  cases e with
  | varDecl name type value span => exact parts value (List.mem_singleton_self _)
  | binary op lhs rhs span =>
    have right := parts rhs (List.mem_cons_of_mem _ (List.mem_singleton_self _))
    cases op <;> first | exact right | cases stays
  | function => cases stays
  | _ => exact sparesArms_of_nil rfl

/-- From a literal types go to the literal its body ends with. -/
theorem sparesArms_function {tree : ScopeTree} {literal : FunctionLiteral} {span : Span}
    (armless : ∀ e ∈ (tree.scope literal.scope).body, tree.Armless e) :
    tree.SparesArms (.function literal span) := by
  intro id mem
  rw [passedTo] at mem
  cases found : (tree.scope literal.scope).body.getLast? with
  | none =>
    rw [found] at mem
    cases mem
  | some last =>
    rw [found] at mem
    exact armless last (List.mem_of_getLast? found) id mem

end ScopeTree

open ScopeTree

/-- Desugaring puts arms nowhere but in choices. -/
theorem Desugared.spares {before after : ScopeTree} {xs ys : List Expr} (h : Desugared before after xs ys)
    (written : ∀ id : Nat, (before.scope id).origin ≠ .branch) :
    (∀ y ∈ ys, after.Armless y) ∧ ∀ n, after.Occurs n ys → after.SparesArms n := by
  induction h with
  | nil => exact ⟨by simp, by simp⟩
  | @node e e' es es' stays shell _ _ inner_ih ih =>
    have stays' := stays_of_shell stays shell
    refine ⟨List.forall_mem_cons.mpr ⟨armless_of_parts stays' inner_ih.1, ih.1⟩, fun n occurs => ?_⟩
    rcases occurs_cons_iff.mp occurs with rfl | inner | ⟨_, _, rfl, _⟩ | rest
    · exact sparesArms_of_parts stays' inner_ih.1
    · exact inner_ih.2 n inner
    · cases stays'
    · exact ih.2 n rest
  | @function literal span body es es' scope _ _ inner_ih ih =>
    have armless : after.Armless (.function literal span) := by
      intro id mem
      rw [offered, List.mem_singleton] at mem
      rw [mem, scope]
      exact written literal.scope
    have body_eq : (after.scope literal.scope).body = body := by rw [scope]
    refine ⟨List.forall_mem_cons.mpr ⟨armless, ih.1⟩, fun n occurs => ?_⟩
    rcases occurs_cons_iff.mp occurs with rfl | inner | ⟨_, _, eq, inner⟩ | rest
    · exact sparesArms_function (body_eq ▸ inner_ih.1)
    · cases inner
    · cases eq
      rw [body_eq] at inner
      exact inner_ih.2 n inner
    · exact ih.2 n rest
  | @compose f g f' g' span scope es es' _ made _ inner_ih ih =>
    have armless : after.Armless (.function ⟨0, [compositionLabel], scope⟩ span) := by
      intro id mem
      rw [offered, List.mem_singleton] at mem
      rw [mem, made]
      exact Origin.noConfusion
    refine ⟨List.forall_mem_cons.mpr ⟨armless, ih.1⟩, fun n occurs => ?_⟩
    rcases occurs_cons_iff.mp occurs with rfl | inner | ⟨_, _, eq, inner⟩ | rest
    · refine sparesArms_function ?_
      rw [made]
      simp [Scope.fresh, Armless, offered]
    · cases inner
    · cases eq
      rcases Occurs.of_composition made inner with inner | rfl | rfl | rfl
      · exact inner_ih.2 n inner
      · exact sparesArms_of_nil rfl
      · exact sparesArms_of_nil rfl
      · exact sparesArms_of_nil rfl
    · exact ih.2 n rest
  | @choose cond yes no cond' yes' no' yesLabel noLabel armsSpan span yesScope noScope es es' _ yesMade
      noMade _ inner_ih ih =>
    have arm {scope : ScopeId} {e : Expr} {s s' : Span} (made : after.scope scope = .fresh .branch [] [e] s)
        (mem : e ∈ [cond', yes', no']) : after.SparesArms (.function ⟨0, [], scope⟩ s') := by
      refine sparesArms_function ?_
      rw [made]
      exact List.forall_mem_singleton.mpr (inner_ih.1 e mem)
    refine ⟨List.forall_mem_cons.mpr ⟨by simp [Armless, offered], ih.1⟩, fun n occurs => ?_⟩
    rcases occurs_cons_iff.mp occurs with rfl | inner | ⟨_, _, eq, _⟩ | rest
    · exact sparesArms_of_nil rfl
    · rcases Occurs.of_arms yesMade noMade inner with inner | rfl | rfl | rfl
      · exact inner_ih.2 n inner
      · exact sparesArms_of_nil rfl
      · exact arm yesMade (by simp)
      · exact arm noMade (by simp)
    · cases eq
    · exact ih.2 n rest

namespace ScopeTree

/-! ## The numbers of literals do not matter -/

mutual

theorem offered_unnumbered : ∀ e : Expr, offered e.unnumbered = offered e
  | .function literal span => rfl
  | .tuple fields span => by
    rw [Expr.unnumbered, offered, offered]
    exact offeredFields_unnumbered fields
  | .int .. | .hex .. | .float .. | .text .. | .name .. | .typeDecl .. | .varDecl .. | .binary ..
  | .unary .. => by simp [Expr.unnumbered, offered]

theorem offeredFields_unnumbered : ∀ fields : List (Labelled Expr),
    offeredFields (Expr.unnumberedFields fields) = offeredFields fields
  | [] => rfl
  | ⟨label, value⟩ :: rest => by
    rw [Expr.unnumberedFields, offeredFields, offeredFields, offered_unnumbered value,
      offeredFields_unnumbered rest]

end

variable {tree tree' : ScopeTree}

theorem passedTo_unnumbered (tree : ScopeTree) (n : Expr) : tree.passedTo n.unnumbered = tree.passedTo n := by
  cases n with
  | varDecl name type value span => exact offered_unnumbered value
  | binary op lhs rhs span => cases op <;> first | rfl | exact offered_unnumbered rhs
  | _ => rfl

theorem Renumbers.passedTo (h : tree.Renumbers tree') (n : Expr) : tree'.passedTo n = tree.passedTo n := by
  have last (t : ScopeTree) (id : Nat) : (t.scope id).body.getLast?.map offered =
      ((t.scope id).body.map Expr.unnumbered).getLast?.map offered := by
    rw [List.getLast?_map, Option.map_map]
    exact congrArg (Option.map · _) (funext fun e => (offered_unnumbered e).symm)
  cases n with
  | function literal span =>
    rw [ScopeTree.passedTo, ScopeTree.passedTo, last tree', h.body, ← last tree]
  | binary op => cases op <;> rfl
  | _ => rfl

/-- In a program that is not resolved yet but for the numbers of its literals, no types reach arms. -/
theorem sparesArms_of_read {tokens : List Token} {parsed plain listed : ScopeTree}
    (read : Grammar.readProgram tokens = .ok parsed) (desugars : parsed.desugar = .ok plain)
    (renumbers : plain.Renumbers listed) {order : Order} {node : ScopeId × Expr}
    (mem : node ∈ listed.nodes order) : listed.SparesArms node.2 := by
  have tree := Grammar.readProgram_read read
  obtain ⟨ids, below, perm⟩ := (tree.desugar desugars).owns
  obtain ⟨e, he, inside⟩ := mem_nodes mem
  obtain ⟨e', he', n', inside', same⟩ := renumbers.node he inside
  have spares := ((tree.desugared.1 plain desugars).2.spares (Grammar.readProgram_origin read)).2 n'
    ((below.formed perm).occurs he' inside')
  intro id reached
  rw [renumbers.origin]
  rw [renumbers.passedTo, ← passedTo_unnumbered, ← same, passedTo_unnumbered] at reached
  exact spares id reached

/-! ## Finding the arrow of an arm -/

variable {id : Nat}

/-- Only a composition gets its arrow from its functions. -/
theorem keepsArrow_composeArrow_of_origin {placed : PlacedLiteral}
    (origin : (tree.scope id).origin ≠ .composition) (h : tree.composeArrow placed = .ok tree') :
    KeepsArrow id tree tree' := by
  by_cases here : placed.literal.scope = id
  · unfold composeArrow at h
    dsimp only at h
    rw [here, if_pos (.inl origin)] at h
    cases h
    rfl
  · exact keepsArrow_composeArrow here h

/-- Only an arm gets its arrow from its body. -/
theorem keepsArrow_armArrow_of_origin {placed : PlacedLiteral}
    (origin : (tree.scope id).origin ≠ .branch) (h : tree.armArrow placed = .ok tree') :
    KeepsArrow id tree tree' := by
  by_cases here : placed.literal.scope = id
  · unfold armArrow at h
    dsimp only at h
    rw [here, if_pos (.inl origin)] at h
    cases h
    rfl
  · exact keepsArrow_armArrow here h

/-- A pass over the literals keeps the arrow of a scope if each step does. -/
theorem keepsArrow_pass {step : ScopeTree → PlacedLiteral → Except SemanticError ScopeTree}
    {literals : List PlacedLiteral} (Wanted : Origin → Prop)
    (keeps : ∀ t p t', Wanted (t.scope id).origin → step t p = .ok t' →
      (t'.scope id).origin = (t.scope id).origin ∧ KeepsArrow id t t')
    (wanted : Wanted (tree.scope id).origin) (h : literals.foldlM step tree = .ok tree') :
    KeepsArrow id tree tree' := by
  let Inv (t : ScopeTree) : Prop := Wanted (t.scope id).origin ∧ KeepsArrow id tree t
  refine (foldlM_keeps Inv h ⟨wanted, rfl⟩ ?_).2
  rintro t p t' ⟨wanted, kept⟩ taken
  obtain ⟨origin, keeps⟩ := keeps t p t' wanted taken
  exact ⟨origin ▸ wanted, keeps.trans kept⟩

theorem keepsArrow_composeArrows {literals : List PlacedLiteral}
    (origin : (tree.scope id).origin ≠ .composition) (h : literals.foldlM composeArrow tree = .ok tree') :
    KeepsArrow id tree tree' := by
  refine keepsArrow_pass (· ≠ .composition) (fun t p t' wanted step => ?_) origin h
  have same : Same (·.origin) t t' := same_composeArrow (fun _ _ => rfl) step
  exact ⟨same.scopes id, keepsArrow_composeArrow_of_origin wanted step⟩

theorem keepsArrow_armArrows {literals : List PlacedLiteral}
    (origin : (tree.scope id).origin ≠ .branch) (h : literals.foldlM armArrow tree = .ok tree') :
    KeepsArrow id tree tree' := by
  refine keepsArrow_pass (· ≠ .branch) (fun t p t' wanted step => ?_) origin h
  have same : Same (·.origin) t t' := same_armArrow (fun _ _ => rfl) step
  exact ⟨same.scopes id, keepsArrow_armArrow_of_origin wanted step⟩

/-- An arm whose arrow is open takes nothing and gives what its last statement is worth. -/
theorem armArrow_open {placed : PlacedLiteral} {last : Expr} {output : Ty}
    (arm : (tree.scope placed.literal.scope).origin = .branch)
    (unset : (tree.scope placed.literal.scope).arrow = .unset)
    (ends : (tree.scope placed.literal.scope).body.getLast? = some last)
    (infers : tree.infer placed.literal.scope last = .ok output) :
    tree.armArrow placed = .ok (tree.setArrow placed.literal.scope ⟨.void, output⟩) := by
  unfold armArrow
  dsimp only
  rw [if_neg (by simp [arm, unset]), ends]
  dsimp only
  rw [infers]
  rfl

/-- The pass over all literals finds the arrow of an arm, as soon as its last statement has a type that
does not depend on the arrows found before. -/
theorem arrow_of_armArrows {literals : List PlacedLiteral} {last : Expr} {output : Ty}
    (h : literals.foldlM armArrow tree = .ok tree') (different : (literals.map (·.literal.scope)).Nodup)
    (listed : id ∈ literals.map (·.literal.scope)) (lt : id < tree.count)
    (arm : (tree.scope id).origin = .branch) (unset : (tree.scope id).arrow = .unset)
    (ends : (tree.scope id).body.getLast? = some last)
    (infers : ∀ t : ScopeTree, t.infer id last = .ok output) :
    (tree'.scope id).arrow = ⟨.void, output⟩ := by
  let Open (rest : List PlacedLiteral) (t : ScopeTree) : Prop :=
    id ∈ rest.map (·.literal.scope) ∧ (t.scope id).arrow = .unset
  let Found (rest : List PlacedLiteral) (t : ScopeTree) : Prop :=
    id ∉ rest.map (·.literal.scope) ∧ (t.scope id).arrow = ⟨.void, output⟩
  let Inv (rest : List PlacedLiteral) (t : ScopeTree) : Prop :=
    Same Scope.written tree t ∧ (rest.map (·.literal.scope)).Nodup ∧ (Open rest t ∨ Found rest t)
  have last : Inv [] tree' := by
    refine foldlM_along Inv h ⟨same_refl tree, different, .inl ⟨listed, unset⟩⟩ ?_
    rintro p rest t t' ⟨same, different, state⟩ step
    obtain ⟨only, different⟩ := List.nodup_cons.mp different
    refine ⟨same.trans (same_armArrow (fun _ _ => rfl) step), different, ?_⟩
    by_cases here : p.literal.scope = id
    · subst here
      have written := same.scopes p.literal.scope
      rcases state with ⟨-, unset⟩ | ⟨away, -⟩
      · rw [armArrow_open ((congrArg Prod.snd written).trans arm) unset
          ((congrArg (·.1.getLast?) written).trans ends) (infers t)] at step
        cases step
        refine .inr ⟨only, ?_⟩
        rw [setArrow, scope_modify_same _ _ _ (by rwa [same.count])]
      · exact (away List.mem_cons_self).elim
    · have kept : (t'.scope id).arrow = (t.scope id).arrow := keepsArrow_armArrow here step
      rcases state with ⟨mem, unset⟩ | ⟨away, found⟩
      · exact .inl ⟨(List.mem_cons.mp mem).resolve_left (Ne.symm here), kept.trans unset⟩
      · exact .inr ⟨fun mem => away (List.mem_cons_of_mem _ mem), kept.trans found⟩
  rcases last.2.2 with ⟨mem, -⟩ | ⟨-, found⟩
  · cases mem
  · exact found

/-- Before that pass the arrow of an arm is open, so finding arrows finds it there. -/
theorem arrow_of_inferArrows {ids : List Nat} {last : Expr} {output : Ty} (numbered : tree.Numbered ids)
    (spares : ∀ node ∈ tree.nodes .pre, tree.SparesArms node.2) (h : tree.inferArrows = .ok tree')
    (mem : id ∈ ids) (arm : (tree.scope id).origin = .branch) (unset : (tree.scope id).arrow = .unset)
    (ends : (tree.scope id).body.getLast? = some last)
    (infers : ∀ t : ScopeTree, t.infer id last = .ok output) :
    (tree'.scope id).arrow = ⟨.void, output⟩ := by
  unfold inferArrows at h
  obtain ⟨passed, first, h⟩ := except_bind_ok h
  obtain ⟨composed, second, third⟩ := except_bind_ok h
  have shape : Same Scope.shape tree composed :=
    (same_foldlM first fun _ _ _ => same_passTypes fun _ _ => rfl).trans
      (same_foldlM second fun _ _ _ => same_composeArrow fun _ _ => rfl)
  have passed_written : Same Scope.written tree passed :=
    same_foldlM first fun _ _ _ => same_passTypes fun _ _ => rfl
  have written : Same Scope.written tree composed :=
    passed_written.trans (same_foldlM second fun _ _ _ => same_composeArrow fun _ _ => rfl)
  have passed_kept : KeepsArrow id tree passed :=
    keepsArrow_nodes (fun node hn reached => spares node hn id reached arm) first
  have composed_kept : KeepsArrow id passed composed := by
    refine keepsArrow_composeArrows ?_ second
    rw [show (passed.scope id).origin = .branch from (congrArg Prod.snd (passed_written.scopes id)).trans arm]
    exact Origin.noConfusion
  have composed_numbered := numbered.congr shape.count shape.scopes
  have listing := listing_literals .post composed_numbered.below composed_numbered.perm
  exact arrow_of_armArrows third (listing.perm.nodup_iff.mpr composed_numbered.nodup)
    (listing.perm.mem_iff.mpr mem) ((composed_numbered.mem_ids id).mp mem).1
    ((congrArg Prod.snd (written.scopes id)).trans arm) ((composed_kept.trans passed_kept).trans unset)
    ((congrArg (·.1.getLast?) (written.scopes id)).trans ends) infers

/-- In a resolved program an arm takes nothing and gives what its last statement is worth, if that is
known from the statement alone. -/
theorem Resolved.arm_arrow (resolved : tree.Resolved) (arm : (tree.scope id).origin = .branch)
    {last : Expr} {output : Ty} (ends : (tree.scope id).body.getLast? = some last)
    (infers : ∀ t : ScopeTree, t.infer id last = .ok output) :
    (tree.scope id).arrow = ⟨.void, output⟩ := by
  obtain ⟨tokens, parsed, read, h⟩ := resolved
  obtain ⟨plain, typed, declared, listed, inferred, bound, h₁, h₂, h₃, h₄, h₅, h₆, rfl⟩ :=
    resolve_ok_iff.mp h
  have unread := Grammar.readProgram_read read
  obtain ⟨⟨ids, numbered⟩, undeclared⟩ := (unread.desugar h₁).number
  have shape : Same Scope.shape listed inferred := same_inferArrows (fun _ _ => rfl) h₅
  have listed_numbered := (numbered.inferArrows undeclared h₂ h₃ h₄ h₅).numbered.congr shape.count.symm
    fun i => (shape.scopes i).symm
  have written : Same Scope.written listed bound.capture :=
    ((same_inferArrows (fun _ _ => rfl) h₅).trans (same_bindInputs (fun _ _ => rfl) h₆)).trans
      (same_capture (fun _ _ => rfl) bound)
  have arrows : Same (·.arrow) inferred bound.capture :=
    (same_bindInputs (fun _ _ => rfl) h₆).trans (same_capture (fun _ _ => rfl) bound)
  have declared_arrows : Same (·.arrow) plain.number declared :=
    (same_declareTypes (fun _ _ => rfl) h₂).trans (same_declareVariables (fun _ _ => rfl) h₃)
  have unset : (listed.scope id).arrow = .unset := by
    rw [(declareFunctions_scope h₄).2]
    exact (declared_arrows.scopes id).trans (undeclared id).1
  have renumbers := (renumbers_number plain).declare h₂ h₃ h₄
  have arm : (listed.scope id).origin = .branch := (congrArg Prod.snd (written.scopes id)).symm.trans arm
  have mem : id ∈ ids := by
    refine (listed_numbered.mem_ids id).mpr ⟨Nat.lt_of_not_le fun le => ?_, fun eq => ?_⟩
    · rw [scope_of_count_le listed le] at arm
      cases arm
    · have root := congrArg Scope.origin (unread.desugared.1 plain h₁).1
      rw [eq, renumbers.origin] at arm
      exact Grammar.readProgram_origin read rootId (root.symm.trans arm)
  exact (arrows.scopes id).trans (arrow_of_inferArrows listed_numbered
    (fun node hn => sparesArms_of_read read h₁ renumbers hn) h₅ mem arm unset
    ((congrArg (·.1.getLast?) (written.scopes id)).symm.trans ends) infers)

end ScopeTree

end WindowedClosures
