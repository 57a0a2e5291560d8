import Mathlib.Data.List.Pairwise
import Mathlib.Data.List.Perm.Subperm
import Mathlib.Logic.Relation
import WindowedClosures.Proofs.Scope.Ownership

/-!
# Scopes inside scopes

If no scope is the body of two literals and none is inside itself, going down from a scope ends, and
no deeper than there are scopes. The scopes around one scope lie inside each other. An enumeration of
a scope has all nodes of the scopes inside it, each of them once.
-/

namespace WindowedClosures

namespace ScopeTree

variable {tree : ScopeTree} {order : Order} {a b id : ScopeId}

/-! ## Trees without sharing -/

/-- No scope is the body of two literals, and none is inside itself. -/
structure Forest (tree : ScopeTree) : Prop where
  owned : (tree.allLiterals.map (·.scope)).Nodup
  apart : ∀ id, ¬ tree.Holds id id

/-- The second scope is the first or inside it. -/
def Encloses (tree : ScopeTree) : ScopeId → ScopeId → Prop := Relation.ReflTransGen tree.Owns

theorem encloses_iff : tree.Encloses a b ↔ b = a ∨ tree.Holds a b :=
  Relation.reflTransGen_iff_eq_or_transGen

theorem Forest.nodup_children (h : tree.Forest) (id : ScopeId) : (tree.children id).Nodup := by
  by_cases lt : id < tree.count
  · have distinct := h.owned
    rw [map_allLiterals, List.nodup_flatMap] at distinct
    exact distinct.1 id (List.mem_range.mpr lt)
  · rw [children, scope_of_count_le tree (Nat.le_of_not_lt lt)]
    exact List.nodup_nil

/-- What is around a scope is the scope whose literal it is, or around that. -/
theorem Forest.holds_iff (h : tree.Forest) (owns : tree.Owns b id) :
    tree.Holds a id ↔ tree.Encloses a b := by
  constructor
  · intro holds
    obtain ⟨outer, path, owns'⟩ := Relation.TransGen.tail'_iff.mp holds
    rwa [owner_unique h.owned owns' owns] at path
  · exact fun path => Relation.TransGen.tail' path owns

/-- Of two scopes around one, one is around the other. -/
theorem Forest.comparable (h : tree.Forest) (ha : tree.Encloses a id) (hb : tree.Encloses b id) :
    tree.Encloses a b ∨ tree.Encloses b a := by
  induction ha with
  | refl => exact .inr hb
  | @tail outer id path owns ih =>
    rcases encloses_iff.mp hb with rfl | holds
    · exact .inl (path.tail owns)
    · exact ih ((h.holds_iff owns).mp holds)

/-- In a tree below the program no scope is shared or inside itself. -/
theorem Formed.forest (h : tree.Formed) : tree.Forest := by
  have owned : (tree.allLiterals.map (·.scope)).Nodup := h.owned.nodup_iff.mpr List.nodup_range'
  refine ⟨owned, fun id holds => ?_⟩
  obtain ⟨inner, owns, -⟩ := Relation.TransGen.head'_iff.mp holds
  have path := h.reached id (lt_of_mem_children owns)
  clear owns
  -- the scope around one that is inside itself is inside itself as well, but nothing is around the program
  induction path with
  | refl =>
    obtain ⟨outer, -, owns⟩ := Relation.TransGen.tail'_iff.mp holds
    exact h.ne_root owns rfl
  | @tail outer id _ owns ih =>
    obtain ⟨outer', path, owns'⟩ := Relation.TransGen.tail'_iff.mp holds
    rw [owner_unique owned owns' owns] at path
    exact ih (Relation.TransGen.head' owns path)

/-! ## How deep scopes lie -/

/-- Going down from a scope ends after less than so many levels. -/
def Within (tree : ScopeTree) : Nat → ScopeId → Prop
  | 0, _ => False
  | levels + 1, id => ∀ child ∈ tree.children id, tree.Within levels child

/-- Every step down leaves one scope more behind, and none of them comes again. -/
theorem Forest.within_of_behind (h : tree.Forest) {levels : Nat} {behind : List ScopeId}
    (distinct : behind.Nodup) (around : ∀ a ∈ behind, a < tree.count ∧ tree.Holds a id)
    (enough : tree.count < behind.length + levels) : tree.Within levels id := by
  induction levels generalizing id behind with
  | zero =>
    have few := (distinct.subperm fun a ha => List.mem_range.mpr (around a ha).1).length_le
    rw [List.length_range] at few
    omega
  | succ levels ih =>
    intro child hc
    have owns : tree.Owns id child := hc
    have distinct' : (id :: behind).Nodup :=
      List.nodup_cons.mpr ⟨fun mem => h.apart id (around id mem).2, distinct⟩
    have around' : ∀ a ∈ id :: behind, a < tree.count ∧ tree.Holds a child := by
      intro a ha
      rcases List.mem_cons.mp ha with rfl | ha
      · exact ⟨(lt_of_mem_children owns), .single owns⟩
      · exact ⟨(around a ha).1, (around a ha).2.tail owns⟩
    refine ih distinct' around' ?_
    rw [List.length_cons]
    omega

theorem Forest.within (h : tree.Forest) (id : ScopeId) : tree.Within (tree.count + 1) id :=
  h.within_of_behind List.nodup_nil (by simp) (by simp)

/-- The scopes inside a row can be listed. -/
theorem Within.exists_below {levels : Nat} {row : List ScopeId}
    (within : ∀ id ∈ row, tree.Within levels id) : ∃ x, tree.Below row x := by
  induction levels generalizing row with
  | zero =>
    cases row with
    | nil => exact ⟨[], .nil⟩
    | cons id rest => exact (within id (by simp)).elim
  | succ levels ih =>
    induction row with
    | nil => exact ⟨[], .nil⟩
    | cons id rest rest_ih =>
      obtain ⟨inner, below⟩ := ih (within id (by simp))
      obtain ⟨outer, others⟩ := rest_ih fun other mem => within other (by simp [mem])
      exact ⟨_, .cons below others⟩

/-- What is listed is what the row encloses. -/
theorem Below.mem_iff {row x : List ScopeId} (h : tree.Below row x) :
    id ∈ x ↔ ∃ first ∈ row, tree.Encloses first id := by
  refine ⟨h.reached id, ?_⟩
  rintro ⟨first, mem, path⟩
  induction path with
  | refl => exact h.mem_of_mem mem
  | tail _ owns ih => exact h.children_mem ih owns

/-- Each scope is listed once, if no scope of the row is inside another of it. -/
theorem Forest.nodup_below (h : tree.Forest) {row x : List ScopeId} (below : tree.Below row x)
    (distinct : row.Nodup) (outermost : ∀ a ∈ row, ∀ b ∈ row, ¬ tree.Holds a b) : x.Nodup := by
  induction below with
  | nil => exact List.nodup_nil
  | @cons id rest inner outer inside outside inner_ih outer_ih =>
    obtain ⟨other, distinct⟩ := List.nodup_cons.mp distinct
    have inner_nodup : inner.Nodup := by
      refine inner_ih (h.nodup_children id) fun a ha b hb holds => h.apart id ?_
      exact Relation.TransGen.head' ha ((h.holds_iff hb).mp holds)
    have outer_nodup : outer.Nodup := outer_ih distinct fun a ha b hb =>
      outermost a (List.mem_cons_of_mem _ ha) b (List.mem_cons_of_mem _ hb)
    have held : ∀ i ∈ inner, tree.Holds id i := by
      intro i hi
      obtain ⟨child, owns, path⟩ := inside.mem_iff.mp hi
      exact Relation.TransGen.head' owns path
    have apart : ∀ i ∈ outer, ¬ tree.Encloses id i := by
      intro i hi path
      obtain ⟨first, mem, path'⟩ := outside.mem_iff.mp hi
      rcases h.comparable path path' with nested | nested <;>
        rcases encloses_iff.mp nested with rfl | holds
      · exact other mem
      · exact outermost id (by simp) first (by simp [mem]) holds
      · exact other mem
      · exact outermost first (by simp [mem]) id (by simp) holds
    refine List.nodup_cons.mpr ⟨?_, List.nodup_append.mpr ⟨inner_nodup, outer_nodup, ?_⟩⟩
    · intro mem
      rcases List.mem_append.mp mem with mem | mem
      · exact h.apart id (held id mem)
      · exact apart id mem .refl
    · rintro i hi j hj rfl
      exact apart i hj (encloses_iff.mpr (.inr (held i hi)))

/-! ## The nodes below a scope -/

/-- The nodes of the statements of a scope, without the bodies of literals. -/
def ownNodes (tree : ScopeTree) (id : ScopeId) : List (ScopeId × Expr) :=
  ((tree.scope id).body.flatMap Expr.nodes).map (id, ·)

theorem bodyNodes_perm (tree : ScopeTree) (order : Order) (id : ScopeId)
    (bodyNodes : ScopeId → List (ScopeId × Expr)) :
    ((tree.scope id).body.flatMap (nodesWith order bodyNodes id)).Perm
      (tree.ownNodes id ++ (tree.children id).flatMap bodyNodes) := by
  have each := List.Perm.flatMap_left (tree.scope id).body
    fun e _ => nodesWith_perm order bodyNodes id e
  rw [ownNodes, children, literalsOf, List.map_flatMap, List.flatMap_map, List.flatMap_assoc]
  exact each.trans (List.flatMap_append_perm _ _ _).symm

/-- Enumerating a row of scopes through levels enough gives all nodes of the scopes listed below. -/
theorem Below.nodes_perm {levels : Nat} {row x : List ScopeId} (below : tree.Below row x)
    (order : Order) (within : ∀ id ∈ row, tree.Within levels id) :
    (row.flatMap (tree.bodyNodesAt order levels)).Perm (x.flatMap tree.ownNodes) := by
  induction levels generalizing row x with
  | zero =>
    cases below with
    | nil => rfl
    | cons => exact (within _ List.mem_cons_self).elim
  | succ levels ih =>
    induction below with
    | nil => rfl
    | @cons id rest inner outer inside _ _ outer_ih =>
      rw [List.flatMap_cons, List.flatMap_cons, List.flatMap_append, ← List.append_assoc]
      refine .append ?_ (outer_ih fun other mem => within other (List.mem_cons_of_mem _ mem))
      exact (bodyNodes_perm tree order id _).trans ((ih inside (within id List.mem_cons_self)).append_left _)

/-- More levels than enough add nothing. -/
theorem Within.bodyNodesAt_eq {levels more : Nat} (h : tree.Within levels id)
    (h' : tree.Within more id) : tree.bodyNodesAt order levels id = tree.bodyNodesAt order more id := by
  induction levels generalizing more id with
  | zero => exact h.elim
  | succ levels ih =>
    cases more with
    | zero => exact h'.elim
    | succ more =>
      refine List.flatMap_congr fun e he => nodesWith_congr e fun l hl => ?_
      have owns := mem_children_of_literal he hl
      exact ih (h _ owns) (h' _ owns)

/-- The nodes of a scope in order and, if `nested`, those of the bodies of its literals with them. -/
def nodesBelow (tree : ScopeTree) (order : Order) (nested : Bool) (id : ScopeId) :
    List (ScopeId × Expr) :=
  (tree.scope id).body.flatMap
    (nodesWith order (if nested then tree.bodyNodesAt order tree.count else fun _ => []) id)

/-- No level is missing: the nodes of a body are enumerated in the same way. -/
theorem Forest.nodesBelow_eq (h : tree.Forest) (order : Order) (nested : Bool) (id : ScopeId) :
    tree.nodesBelow order nested id = (tree.scope id).body.flatMap
      (nodesWith order (if nested then tree.nodesBelow order nested else fun _ => []) id) := by
  cases nested with
  | false => rfl
  | true =>
    refine List.flatMap_congr fun e he => nodesWith_congr e fun l hl => ?_
    have owns := mem_children_of_literal he hl
    exact (h.within id _ owns).bodyNodesAt_eq (h.within l.scope)

/-- The scopes that an enumeration goes through, each of them once with all its nodes. -/
theorem Forest.nodesBelow_perm (h : tree.Forest) (order : Order) (nested : Bool) (start : ScopeId) :
    ∃ scopes : List ScopeId, scopes.Nodup ∧
      (∀ id, id ∈ scopes ↔ if nested then tree.Encloses start id else id = start) ∧
      (tree.nodesBelow order nested start).Perm (scopes.flatMap tree.ownNodes) := by
  cases nested with
  | false =>
    have own := bodyNodes_perm tree order start fun _ => []
    rw [List.flatMap_eq_nil_iff.mpr fun _ _ => rfl] at own
    exact ⟨[start], List.nodup_singleton start, by simp, by simpa [nodesBelow] using own⟩
  | true =>
    have within : ∀ id ∈ [start], tree.Within (tree.count + 1) id :=
      List.forall_mem_singleton.mpr (h.within start)
    obtain ⟨scopes, below⟩ := Within.exists_below within
    refine ⟨scopes, ?_, fun id => by simp [below.mem_iff], ?_⟩
    · exact h.nodup_below below (List.nodup_singleton start) (by simpa using h.apart start)
    · have whole := below.nodes_perm order within
      rwa [List.flatMap_cons, List.flatMap_nil, List.append_nil] at whole

end ScopeTree

end WindowedClosures
