import WindowedClosures.Proofs.Scope.Occurrences

/-!
# A literal before its body

Where a node comes before its children, the nodes of a literal's body come somewhere behind the literal
itself, and those of every scope somewhere among the nodes of the program.
-/

namespace WindowedClosures

namespace ScopeTree

variable {tree : ScopeTree}

theorem sublist_flatMap {α β : Type} (f : α → List β) {xs : List α} {x : α} (mem : x ∈ xs) :
    (f x).Sublist (xs.flatMap f) := by
  rw [List.flatMap_def]
  exact List.sublist_flatten_of_mem (List.mem_map_of_mem mem)

theorem literal_sublist_nodesWith (bodyNodes : ScopeId → List (ScopeId × Expr)) (outer : ScopeId)
    {literal : FunctionLiteral} {span : Span} (e : Expr) (h : .function literal span ∈ e.nodes) :
    ((outer, Expr.function literal span) :: bodyNodes literal.scope).Sublist
      (nodesWith .pre bodyNodes outer e) := by
  induction e using Expr.of_parts with
  | step e ih =>
    rw [Expr.nodes_eq, List.mem_cons] at h
    rcases h with rfl | h
    · exact List.Sublist.refl _
    · obtain ⟨part, hp, h⟩ := List.mem_flatMap.mp h
      have inside := (ih part hp h).trans (sublist_flatMap (nodesWith .pre bodyNodes outer) hp)
      rw [nodesWith_eq]
      exact (inside.trans (List.sublist_append_right _ _)).cons _

/-- Fewer scopes lie below one of several. -/
theorem Below.child {a x : List ScopeId} (h : tree.Below a x) {id : ScopeId} (mem : id ∈ a) :
    ∃ y, tree.Below (tree.children id) y ∧ y.length < x.length := by
  induction h with
  | nil => cases mem
  | @cons first rest inner outer inside _ _ ih =>
    simp only [List.length_cons, List.length_append]
    rcases List.mem_cons.mp mem with rfl | mem
    · exact ⟨inner, inside, by omega⟩
    · obtain ⟨y, below, lt⟩ := ih mem
      exact ⟨y, below, by omega⟩

/-- The scopes below one of several statements. -/
theorem Below.statement {body : List Expr} {x : List ScopeId}
    (h : tree.Below ((literalsOf body).map (·.scope)) x) {e : Expr} (mem : e ∈ body) :
    ∃ y, tree.Below (e.literals.map (·.scope)) y ∧ y.length ≤ x.length := by
  obtain ⟨front, back, rfl⟩ := List.append_of_mem mem
  rw [literalsOf_append, literalsOf_cons, List.map_append, List.map_append] at h
  obtain ⟨u, v, rfl, -, h⟩ := h.split
  obtain ⟨y, w, rfl, below, -⟩ := h.split
  exact ⟨y, below, by simp only [List.length_append]; omega⟩

/-- The nodes of a scope that lies below another come among those of the other. -/
theorem sublist_bodyNodesAt {outer id : ScopeId} (path : Relation.ReflTransGen tree.Owns outer id)
    {levels : Nat} {x : List ScopeId} (below : tree.Below (tree.children outer) x)
    (lt : x.length < levels) : ∃ levels' y, tree.Below (tree.children id) y ∧ y.length < levels' ∧
      (tree.bodyNodesAt .pre levels' id).Sublist (tree.bodyNodesAt .pre levels outer) := by
  induction path using Relation.ReflTransGen.head_induction_on generalizing levels x with
  | refl => exact ⟨levels, x, below, lt, List.Sublist.refl _⟩
  | @head outer next owns _ ih =>
    obtain ⟨e, he, literal, span, node, rfl⟩ := owns.node
    obtain ⟨y, inside, fewer⟩ := below.child owns
    cases levels with
    | zero => omega
    | succ levels =>
      obtain ⟨levels', z, deeper, enough, sub⟩ := ih inside (show y.length < levels by omega)
      have literal_first := (literal_sublist_nodesWith (tree.bodyNodesAt .pre levels) outer e
        node).trans (sublist_flatMap _ he)
      exact ⟨levels', z, deeper, enough, sub.trans ((List.sublist_cons_self _ _).trans literal_first)⟩

/-- The nodes of every scope come among those of the program. -/
theorem Numbered.sublist_nodes {ids : List Nat} (h : tree.Numbered ids) {id : Nat}
    (lt : id < tree.count) : ∃ levels x, tree.Below (tree.children id) x ∧ x.length < levels ∧
      (tree.bodyNodesAt .pre levels id).Sublist (tree.nodes .pre) := by
  have path := (h.below_root.formed h.perm).reached id lt
  refine sublist_bodyNodesAt path h.below ?_
  have length := h.perm.length_eq
  rw [List.length_cons, List.length_range] at length
  omega

end ScopeTree

end WindowedClosures
