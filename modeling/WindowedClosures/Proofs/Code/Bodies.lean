import WindowedClosures.Proofs.Code.Soundness

/-!
# Scopes keep their contracts

The statements of a scope set its variables one after the other, and the last one gives its output.
In a program that keeps functions apart the code of every scope leads from what the scope may rely
on to what it owes.
-/

namespace WindowedClosures

theorem Scope.local?_name {s : Scope} {n : String} {v : Variable} (h : s.local? n = some v) :
    v.name = n := by
  unfold Scope.local? at h
  split at h
  · rename_i found hf
    cases h
    simpa using List.find?_some hf
  · simpa using List.find?_some h

namespace Laid

open Emit

variable {tree : ScopeTree} {program : Program} {l : Laid tree program} {id : Nat}
  {names : List String} {Γ : Claims} {e : Expr} {isLast : Bool}

/-- What is known behind a statement: the variable it set, and behind the last one the output. -/
def Behind (l : Laid tree program) (id : Nat) (names : List String) (isLast : Bool) (e : Expr)
    (mark : Nat) (R : Assertion) : Prop :=
  mark = (tree.scope id).size ∧ ∃ Γ',
    (tree.scope id).Knows (e.sets?.toList ++ names) (tree.scope id).size Γ' ∧
    (isLast = true → ∀ k a, (tree.scope id).arrow.output.Calls k a → Γ' k (.calls a)) ∧
    ∀ w m, R w m → l.Stands id Γ' 64 w m

/-- Behind a statement that may be the last one only if the output holds no functions. -/
theorem behind_of_ended {R : Assertion}
    (knows : (tree.scope id).Knows (e.sets?.toList ++ names) (tree.scope id).size Γ)
    (ended : (!isLast || !(tree.scope id).arrow.output.hasFunctions) = true)
    (h : ∀ w m, R w m → l.Stands id Γ 64 w m) :
    l.Behind id names isLast e (tree.scope id).size R := by
  refine ⟨rfl, Γ, knows, fun last k a calls => ?_, h⟩
  rw [last, Bool.not_true, Bool.false_or, Bool.not_eq_true'] at ended
  exact (Ty.plain_of_hasFunctions ended k a calls).elim

/-- A statement that sets a variable. -/
theorem hands_variable (resolved : tree.Resolved) (lt : id < tree.count) {value : Expr} {n : String}
    {v : Variable} {r : Register} (hl : Within tree id value.literals)
    (knows : (tree.scope id).Knows names (tree.scope id).size Γ)
    (known : (tree.scope id).local? n = some v) (hr : v.register = .ok r)
    (admits : Site.admits ⟨tree, id⟩ names (some n) value v.ty v.ty.size = true) :
    l.Turns (lower ⟨tree, id⟩ value r v.ty) (tree.scope id).size (l.Stands id Γ 64)
      (l.Stands id (Γ.put r v.ty) 64) := by
  have takes := (ScopeTree.rowed_of_resolved resolved id).takes (Γ := Γ) knows.size known hr
  refine (puts_lower resolved lt value (some n) hl _ Γ r v.ty v.ty.size knows takes ?_ admits).mono
    (fun _ _ stands => stands) fun _ _ placed => placed.stands
  rintro m eq
  cases eq
  exact ⟨v, known, hr, rfl⟩

/-- A statement that only has a value: the output, or one that is not needed. -/
theorem hands_value (resolved : tree.Resolved) (lt : id < tree.count)
    (hl : Within tree id e.literals) (knows : (tree.scope id).Knows names (tree.scope id).size Γ)
    (sets : e.sets? = none)
    (admits : (if isLast && !(tree.scope id).arrow.output.isVoid then
        Site.admits ⟨tree, id⟩ names none e (tree.scope id).arrow.output
          (tree.scope id).arrow.output.size
      else Site.admits ⟨tree, id⟩ names none e .void 1) = true) :
    l.Hands (if isLast && !(tree.scope id).arrow.output.isVoid then
        eval ⟨tree, id⟩ e .first (tree.scope id).arrow.output
      else Emit.releasing do
        let r ← Emit.temp
        eval ⟨tree, id⟩ e r .void) (tree.scope id).size (l.Stands id Γ 64)
      fun _ => l.Behind id names isLast e := by
  have rowed := ScopeTree.rowed_of_resolved resolved id
  have puts : l.Puts id names none e (lower ⟨tree, id⟩ e) := puts_lower resolved lt e none hl
  by_cases gives : (isLast && !(tree.scope id).arrow.output.isVoid) = true
  · rw [if_pos gives] at admits ⊢
    have takes := rowed.takes_output (Γ := Γ) knows.size
    refine Turns.releasing (puts _ Γ .first _ _ knows takes owns_none admits)
      ⟨rfl, _, ?_, fun _ k a calls => ?_, fun _ _ placed => placed.stands⟩
    · rw [sets]
      exact knows.put takes
    · exact .inr ⟨rfl, k, a, (Nat.zero_add k).symm, calls, rfl⟩
  · rw [if_neg gives] at admits ⊢
    refine hands_releasing (hands_bind (hands_temp fun t at_t => ?_))
    have takes : (tree.scope id).Takes Γ ((tree.scope id).size + 1) t .void 1 :=
      knows.takes (Nat.le_of_eq at_t.2.symm) at_t.1 (Nat.le_of_eq (by rw [at_t.2])) (Nat.zero_le 1)
    refine (puts _ Γ t .void 1 (knows.mono (Nat.le_succ _)) takes owns_none admits).releasing
      ⟨rfl, Γ, ?_, fun last k a calls => ?_, fun _ _ placed => placed.stands.mono ?_⟩
    · rw [sets]
      exact knows
    · rw [last, Bool.true_and, Bool.not_eq_true', Bool.not_eq_false] at gives
      exact ((Ty.calls_of_isVoid gives).2 k a calls).elim
    · exact fun _ _ claim => .inl claim

/-- A statement leads on to what is known behind it. -/
theorem hands_statement (resolved : tree.Resolved) (lt : id < tree.count)
    (hl : Within tree id e.literals) (knows : (tree.scope id).Knows names (tree.scope id).size Γ)
    (admits : Site.admitsStatement ⟨tree, id⟩ names isLast e = true) :
    l.Hands (lowerStatement ⟨tree, id⟩ isLast e) (tree.scope id).size (l.Stands id Γ 64)
      fun _ => l.Behind id names isLast e := by
  have rowed := ScopeTree.rowed_of_resolved resolved id
  have scope : Site.scope ⟨tree, id⟩ = tree.scope id := rfl
  unfold lowerStatement
  dsimp only
  split
  · exact hands_pure (behind_of_ended knows admits fun _ _ stands => stands)
  · rename_i n _ value span
    rw [Expr.literals] at hl
    refine hands_bind (hands_lift fun v hv => hands_bind (hands_register fun r hr => ?_))
    have known : (tree.scope id).local? n = some v := Site.lookup_eq_ok_iff.mp hv
    simp only [Site.admitsStatement, scope, known, Bool.and_eq_true] at admits
    refine (hands_variable resolved lt hl knows known hr admits.2).releasing ?_
    exact behind_of_ended (knows.put_variable rowed known hr) admits.1 fun _ _ stands => stands
  · rename_i target value span
    rw [Expr.literals] at hl
    have admitted {n : String} {v : Variable} (name : target.asName? = some n)
        (known : (tree.scope id).local? n = some v) :
        (!isLast || !(tree.scope id).arrow.output.hasFunctions) = true ∧
          Site.admits ⟨tree, id⟩ names (some n) value v.ty v.ty.size = true := by
      simpa only [Site.admitsStatement, name, scope, Option.bind_some, known, Bool.and_eq_true]
        using admits
    refine hands_bind ((hands_assign rowed knows ?_).mono (fun _ _ stands => stands) ?_)
    · intro n v r name known hr
      exact hands_variable resolved lt hl.right knows known hr (admitted name known).2
    · rintro v mark R ⟨rfl, n, r, name, known, hr, knows', rfl⟩
      refine hands_pure (behind_of_ended ?_ (admitted name known).1 fun _ _ stands => stands)
      rw [Expr.sets?, name]
      exact knows'
  · rename_i no_type no_variable no_assign
    refine hands_value resolved lt hl knows ?_ ?_
    · unfold Expr.sets?
      split
      · exact (no_variable _ _ _ _ rfl).elim
      · exact (no_assign _ _ _ rfl).elim
      · rfl
    · unfold Site.admitsStatement at admits
      dsimp only at admits
      split at admits
      · exact (no_type _ _ _ rfl).elim
      · exact (no_variable _ _ _ _ rfl).elim
      · exact (no_assign _ _ _ rfl).elim
      · exact admits

/-- Statements lead to what the scope owes. -/
theorem turns_statements (resolved : tree.Resolved) (lt : id < tree.count) (body : List Expr)
    (hl : Within tree id (literalsOf body))
    (knows : (tree.scope id).Knows names (tree.scope id).size Γ)
    (admits : Site.admitsStatements ⟨tree, id⟩ names body = true) :
    l.Turns (lowerStatements ⟨tree, id⟩ body) (tree.scope id).size (l.Stands id Γ 64)
      (l.Leaves id) := by
  induction body generalizing names Γ with
  | nil =>
    rw [Site.admitsStatements, Bool.not_eq_true'] at admits
    refine Hands.turns (hands_pure fun w m stands => stands.toSound.mono ?_)
    rintro o c ⟨k, a, -, calls, -⟩
    exact (Ty.plain_of_hasFunctions admits k a calls).elim
  | cons e rest ih =>
    rw [literalsOf_cons] at hl
    cases rest with
    | nil =>
      rw [Site.admitsStatements] at admits
      refine ((hands_statement resolved lt hl.left knows admits).mono (fun _ _ stands => stands)
        ?_).turns
      rintro _ mark R ⟨-, Γ', -, output, stands⟩ w m holds
      refine (stands w m holds).toSound.mono ?_
      rintro o c ⟨k, a, rfl, calls, rfl⟩
      rw [Nat.zero_add]
      exact output rfl k a calls
    | cons second rest =>
      rw [Site.admitsStatements, Bool.and_eq_true] at admits
      · rw [lowerStatements]
        · refine Hands.turns (hands_bind ((hands_statement resolved lt hl.left knows admits.1).mono
            (fun _ _ stands => stands) ?_))
          rintro _ mark R ⟨rfl, Γ', knows', -, stands⟩
          exact ((ih hl.right knows' admits.2).mono stands fun _ _ leaves => leaves).last
        · simp
      · simp

/-- What is known when a scope is entered covers the variables that are set then. -/
theorem knows_given (resolved : tree.Resolved)
    (h : id = ScopeTree.rootId ∨ ∃ f ∈ tree.functions, f.scope = id) :
    (tree.scope id).Knows (tree.given id) (tree.scope id).size
      ((tree.scope id).arrow.input.claims (tree.scope id).arrow.output.size) := by
  rcases h with rfl | ⟨f, hf, rfl⟩
  · have void : (tree.scope ScopeTree.rootId).arrow = .unset :=
      ScopeTree.root_arrow_of_resolved resolved
    rw [void, ScopeTree.given, if_pos rfl]
    refine ⟨Nat.le_refl _, ?_, ?_, by simp⟩
    · rintro o c ⟨k, a, -, calls, -⟩
      exact calls.elim
    · rintro o c ⟨k, a, -, calls, -⟩
      exact calls.elim
  · have rowed := ScopeTree.rowed_of_resolved resolved f.scope
    obtain ⟨-, ne, fits, lays⟩ := ScopeTree.input_of_resolved resolved hf
    refine ⟨Nat.le_refl _, ?_, ?_, fun n hn v known own k a calls => ?_⟩
    · rintro o c ⟨k, a, rfl, calls, rfl⟩
      have inside := calls.lt_size
      omega
    · rintro o c ⟨k, a, rfl, calls, rfl⟩ -
      exact ⟨a, rfl, lays k a calls⟩
    · rw [ScopeTree.given, if_neg ne] at hn
      rcases List.mem_append.mp hn with captured | label
      · obtain ⟨u, hu, rfl⟩ := List.mem_map.mp captured
        exact (rowed.foreign u hu v own (Scope.local?_name known)).elim
      · obtain ⟨j, place, inner⟩ := ScopeTree.parameter_of_resolved resolved hf label known calls
        exact ⟨j, a, place, inner, rfl⟩

/-- The code of a scope that is admitted leads from what the scope may rely on to what it owes. -/
theorem leads_of_scopeCode (l : Laid tree program) (resolved : tree.Resolved)
    (keeps : tree.keepsFunctions = true) (lt : id < tree.count)
    (h : id = ScopeTree.rootId ∨ ∃ f ∈ tree.functions, f.scope = id) {code : List Emitted}
    (hc : scopeCode tree id = .ok code) {address : Nat} (lies : code <+: l.code.drop address) :
    l.Leads id address (l.Enters id) := by
  obtain ⟨result, hr, rfl⟩ := scopeCode_ok hc
  have admits := List.all_eq_true.mp keeps id (List.mem_range.mpr lt)
  refine ⟨result.code, _, lies, rfl, rfl, ?_⟩
  exact turns_statements resolved lt _ (fun _ hl => hl) (knows_given resolved h) admits result hr

/-- The functions of a program that keeps functions apart keep their contracts. -/
theorem keeps_of_keepsFunctions (l : Laid tree program) (resolved : tree.Resolved)
    (keeps : tree.keepsFunctions = true) : l.Keeps := by
  intro f address entry
  obtain ⟨code, hc, lies⟩ := entry.code
  have lt := (ScopeTree.input_of_resolved resolved entry.mem).1
  exact l.leads_of_scopeCode resolved keeps lt (.inr ⟨f, entry.mem, rfl⟩) hc lies

end Laid

end WindowedClosures
