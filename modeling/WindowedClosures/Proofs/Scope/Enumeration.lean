import Mathlib.Data.List.Perm.Basic
import WindowedClosures.Proofs.Expr.Nodes
import WindowedClosures.Proofs.Scope.Forest

/-!
# The literals of a tree in order

An enumeration finds each literal once, at the scope whose statements it stands in. Where nested
functions come first, all literals in the body of a literal come before it.
-/

namespace WindowedClosures

namespace Expr

/-- The literals of an expression are itself, if it is one, or those of its parts. -/
theorem literals_eq_parts (e : Expr) :
    e.literals = e.asFunction?.toList ++ e.parts.flatMap literals := by
  cases e with
  | tuple fields span =>
    simp [literals, asFunction?, parts, literalsOfFields_eq, List.flatMap_map]
  | _ => simp [literals, asFunction?, parts]

/-- The literals of an expression are the nodes that are literals. -/
theorem literals_eq (e : Expr) : e.literals = e.nodes.filterMap asFunction? := by
  induction e using of_parts with
  | step e ih =>
    rw [literals_eq_parts, nodes_eq, List.filterMap_cons, List.filterMap_flatMap, List.flatMap_congr ih]
    cases e.asFunction? <;> rfl

end Expr

theorem Order.mem_place_iff {α : Type} {order : Order} {node n : α} {children : List α} :
    n ∈ order.place node children ↔ n = node ∨ n ∈ children := by
  cases order <;> simp [place, or_comm]

theorem Order.place_perm {α : Type} (order : Order) (node : α) (children : List α) :
    (order.place node children).Perm (node :: children) := by
  cases order with
  | pre => rfl
  | post => exact List.perm_append_singleton node children

/-- The function literal that a node is, with the scope it stands in. -/
def placed? : ScopeId × Expr → Option PlacedLiteral
  | (id, .function literal span) => some ⟨id, literal, span⟩
  | _ => none

namespace ScopeTree

theorem literals_eq (tree : ScopeTree) (order : Order) :
    tree.literals order = (tree.nodes order).filterMap placed? := by
  unfold literals
  congr 1
  funext ⟨id, e⟩
  cases e <;> rfl

section

variable {order : Order} {bodyNodes other : ScopeId → List (ScopeId × Expr)} {id : ScopeId}

/-- A node stands beside the nodes of its body, if it is a literal, or those of its parts. -/
theorem nodesWith_eq (e : Expr) : nodesWith order bodyNodes id e = order.place (id, e)
    ((e.asFunction?.toList.flatMap fun l => bodyNodes l.scope) ++
      e.parts.flatMap (nodesWith order bodyNodes id)) := by
  have of_fields (fields : List (Labelled Expr)) : fieldNodesWith order bodyNodes id fields =
      (fields.map (·.value)).flatMap (nodesWith order bodyNodes id) := by
    induction fields with
    | nil => rfl
    | cons first rest ih => rw [fieldNodesWith, ih, List.map_cons, List.flatMap_cons]
  cases e with
  | tuple fields span => simp [nodesWith, Expr.asFunction?, Expr.parts, of_fields]
  | _ => cases order <;> simp [nodesWith, Expr.asFunction?, Expr.parts, Order.place]

/-- The nodes of an expression depend on those of the bodies of its literals. -/
theorem nodesWith_congr (e : Expr) (same : ∀ l ∈ e.literals, bodyNodes l.scope = other l.scope) :
    nodesWith order bodyNodes id e = nodesWith order other id e := by
  induction e using Expr.of_parts with
  | step e ih =>
    rw [Expr.literals_eq_parts] at same
    rw [nodesWith_eq, nodesWith_eq]
    congr 2
    · exact List.flatMap_congr fun l hl => same l (List.mem_append_left _ hl)
    · refine List.flatMap_congr fun part hp => ih part hp fun l hl => same l ?_
      exact List.mem_append_right _ (List.mem_flatMap.mpr ⟨part, hp, hl⟩)

/-- The nodes of an expression are its own and those of the bodies of its literals. -/
theorem nodesWith_perm (order : Order) (bodyNodes : ScopeId → List (ScopeId × Expr)) (id : ScopeId)
    (e : Expr) : (nodesWith order bodyNodes id e).Perm
    (e.nodes.map (id, ·) ++ e.literals.flatMap fun l => bodyNodes l.scope) := by
  induction e using Expr.of_parts with
  | step e ih =>
    rw [nodesWith_eq, Expr.nodes_eq, Expr.literals_eq_parts, List.map_cons, List.map_flatMap,
      List.flatMap_append, List.flatMap_assoc, List.cons_append]
    refine (Order.place_perm _ _ _).trans (.cons _ ?_)
    have parts := (List.Perm.flatMap_left e.parts ih).trans (List.flatMap_append_perm _ _ _).symm
    refine (parts.append_left _).trans ?_
    rw [← List.append_assoc, ← List.append_assoc]
    exact List.perm_append_comm.append_right _

end

/-- The literals in the body of each literal of a list are done before it. -/
def Settled (tree : ScopeTree) : List Nat → List PlacedLiteral → Prop
  | _, [] => True
  | done, p :: rest =>
    (∀ child ∈ tree.children p.literal.scope, child ∈ done) ∧
      Settled tree (p.literal.scope :: done) rest

variable {tree : ScopeTree} {order : Order} {outer : Nat}

theorem Settled.mono {found : List PlacedLiteral} {done more : List Nat}
    (h : tree.Settled done found) (sub : ∀ id ∈ done, id ∈ more) : tree.Settled more found := by
  induction found generalizing done more with
  | nil => trivial
  | cons p rest ih =>
    refine ⟨fun child hc => sub child (h.1 child hc), ih h.2 ?_⟩
    intro id hm
    rcases List.mem_cons.mp hm with rfl | hm
    · simp
    · simp [sub id hm]

theorem Settled.append {a b : List PlacedLiteral} {done : List Nat} (ha : tree.Settled done a)
    (hb : tree.Settled (a.map (·.literal.scope) ++ done) b) : tree.Settled done (a ++ b) := by
  induction a generalizing done with
  | nil => exact hb
  | cons p rest ih =>
    refine ⟨ha.1, ih ha.2 (hb.mono ?_)⟩
    intro id hm
    simpa [or_assoc, or_left_comm] using hm

/-- The literals found in the expressions of a scope are those in the expressions themselves and
those in the bodies below. -/
structure Listing (tree : ScopeTree) (order : Order) (outer : Nat) (literals : List FunctionLiteral)
    (ids : List Nat) (found : List PlacedLiteral) : Prop where
  perm : (found.map (·.literal.scope)).Perm ids
  placed : ∀ p ∈ found, (p.outer = outer ∧ p.literal ∈ literals) ∨
    (p.outer ∈ ids ∧ p.literal ∈ literalsOf (tree.scope p.outer).body)
  settled : order = .post → ∀ done, tree.Settled done found

theorem listing_nil : Listing tree order outer [] [] [] :=
  ⟨.nil, by simp, fun _ _ => trivial⟩

theorem Listing.append {a b : List FunctionLiteral} {x y : List Nat} {f g : List PlacedLiteral}
    (h₁ : Listing tree order outer a x f) (h₂ : Listing tree order outer b y g) :
    Listing tree order outer (a ++ b) (x ++ y) (f ++ g) := by
  refine ⟨by simpa using h₁.perm.append h₂.perm, ?_, ?_⟩
  · intro p hp
    rcases List.mem_append.mp hp with hp | hp
    · rcases h₁.placed p hp with ⟨ho, hl⟩ | ⟨ho, hl⟩
      · exact .inl ⟨ho, by simp [hl]⟩
      · exact .inr ⟨by simp [ho], hl⟩
    · rcases h₂.placed p hp with ⟨ho, hl⟩ | ⟨ho, hl⟩
      · exact .inl ⟨ho, by simp [hl]⟩
      · exact .inr ⟨by simp [ho], hl⟩
  · intro post done
    exact (h₁.settled post done).append (h₂.settled post _)

/-- A literal goes with what is found in its body. -/
theorem Listing.literal {literal : FunctionLiteral} {inner : List Nat} {found : List PlacedLiteral}
    (h : Listing tree order literal.scope (literalsOf (tree.scope literal.scope).body) inner found)
    (hc : ∀ child ∈ tree.children literal.scope, child ∈ inner) (span : Span) :
    Listing tree order outer [literal] (literal.scope :: inner)
      (order.place ⟨outer, literal, span⟩ found) := by
  have mem (p : PlacedLiteral) (hp : p ∈ order.place ⟨outer, literal, span⟩ found) :
      p = ⟨outer, literal, span⟩ ∨ p ∈ found := Order.mem_place_iff.mp hp
  refine ⟨?_, ?_, ?_⟩
  · cases order with
    | pre => simpa [Order.place] using h.perm
    | post =>
      simp only [Order.place, List.map_append, List.map_cons, List.map_nil]
      exact (List.perm_append_singleton _ _).trans (h.perm.cons _)
  · intro p hp
    rcases mem p hp with rfl | hp
    · exact .inl ⟨rfl, by simp⟩
    · rcases h.placed p hp with ⟨ho, hl⟩ | ⟨ho, hl⟩
      · exact .inr ⟨by simp [ho], by rw [ho]; exact hl⟩
      · exact .inr ⟨by simp [ho], hl⟩
  · intro post done
    subst post
    refine (h.settled rfl done).append ⟨?_, trivial⟩
    intro child hm
    have found := h.perm.mem_iff.mpr (hc child hm)
    exact List.mem_append_left _ found

/-- The nodes of a body are listed, if there are levels enough. -/
def ListsBodies (tree : ScopeTree) (order : Order) (levels : Nat)
    (bodyNodes : ScopeId → List (ScopeId × Expr)) : Prop :=
  ∀ (id : Nat) (inner : List Nat), tree.Below (tree.children id) inner → inner.length < levels →
    Listing tree order id (literalsOf (tree.scope id).body) inner ((bodyNodes id).filterMap placed?)

theorem filterMap_place {node : ScopeId × Expr} (h : placed? node = none)
    (children : List (ScopeId × Expr)) :
    (order.place node children).filterMap placed? = children.filterMap placed? := by
  cases order <;> simp [Order.place, h]

theorem filterMap_place_literal (id : ScopeId) (literal : FunctionLiteral) (span : Span)
    (children : List (ScopeId × Expr)) :
    (order.place (id, .function literal span) children).filterMap placed? =
      order.place ⟨id, literal, span⟩ (children.filterMap placed?) := by
  cases order <;> simp [Order.place, placed?]

variable {bodyNodes : ScopeId → List (ScopeId × Expr)} {levels : Nat}

/-- The literals of expressions in a row are listed, if those of each are. -/
theorem listing_row {row : List Expr} (each : ∀ e ∈ row, ∀ ids : List Nat,
      tree.Below (e.literals.map (·.scope)) ids → ids.length ≤ levels →
      Listing tree order outer e.literals ids ((nodesWith order bodyNodes outer e).filterMap placed?))
    (ids : List Nat) (below : tree.Below ((literalsOf row).map (·.scope)) ids)
    (le : ids.length ≤ levels) :
    Listing tree order outer (literalsOf row) ids
      ((row.flatMap (nodesWith order bodyNodes outer)).filterMap placed?) := by
  induction row generalizing ids with
  | nil =>
    cases below
    exact listing_nil
  | cons e rest ih =>
    rw [literalsOf_cons, List.map_append] at below
    obtain ⟨x, y, rfl, hx, hy⟩ := below.split
    rw [List.length_append] at le
    rw [literalsOf_cons, List.flatMap_cons, List.filterMap_append]
    exact (each e (by simp) x hx (by omega)).append
      (ih (fun e' mem => each e' (by simp [mem])) y hy (by omega))

theorem listing_expr (hb : ListsBodies tree order levels bodyNodes) (e : Expr) (ids : List Nat)
    (below : tree.Below (e.literals.map (·.scope)) ids) (le : ids.length ≤ levels) :
    Listing tree order outer e.literals ids ((nodesWith order bodyNodes outer e).filterMap placed?) := by
  induction e using Expr.of_parts generalizing ids with
  | step e ih =>
    cases found : e.asFunction? with
    | none =>
      have own : placed? (outer, e) = none := by cases e <;> first | rfl | cases found
      rw [Expr.literals_eq_parts, found] at below ⊢
      rw [nodesWith_eq, filterMap_place own, found]
      exact listing_row ih ids below le
    | some l =>
      cases e with
      | function literal span =>
        rw [Expr.literals] at below ⊢
        rw [nodesWith, filterMap_place_literal]
        cases below with
        | cons inside outside =>
          cases outside
          rename_i inner
          rw [List.append_nil] at le ⊢
          exact (hb literal.scope inner inside le).literal (fun _ hc => inside.mem_of_mem hc) span
      | _ => cases found

theorem lists_bodyNodesAt (tree : ScopeTree) (order : Order) (levels : Nat) :
    ListsBodies tree order levels (tree.bodyNodesAt order levels) := by
  induction levels with
  | zero =>
    intro id inner below le
    omega
  | succ levels ih =>
    intro id inner below le
    exact listing_row (fun e _ => listing_expr ih e) inner below (by omega)

/-- All literals of a program are listed. -/
theorem listing_literals (order : Order) {ids : List Nat} (below : tree.Below (tree.children rootId) ids)
    (perm : (rootId :: ids).Perm (List.range tree.count)) :
    Listing tree order rootId (literalsOf tree.root.body) ids (tree.literals order) := by
  rw [literals_eq]
  have length := perm.length_eq
  rw [List.length_cons, List.length_range] at length
  exact lists_bodyNodesAt tree order tree.count rootId ids below (by omega)

/-! ## Enumerated nodes -/

section

variable {x : ScopeId × Expr}

/-- An enumerated node is one of the expression or of a body inside it. -/
theorem mem_nodesWith (id : ScopeId) (e : Expr) (h : x ∈ nodesWith order bodyNodes id e) :
    (x.1 = id ∧ x.2 ∈ e.nodes) ∨ ∃ inner, x ∈ bodyNodes inner := by
  rcases List.mem_append.mp ((nodesWith_perm order bodyNodes id e).mem_iff.mp h) with own | below
  · obtain ⟨n, hn, rfl⟩ := List.mem_map.mp own
    exact .inl ⟨rfl, hn⟩
  · obtain ⟨l, -, h⟩ := List.mem_flatMap.mp below
    exact .inr ⟨_, h⟩

/-- Every enumerated node stands in the statements of its scope. -/
theorem mem_nodes {tree : ScopeTree} (h : x ∈ tree.nodes order) :
    ∃ e ∈ (tree.scope x.1).body, x.2 ∈ e.nodes := by
  have levels (levels : Nat) (id : ScopeId) (h : x ∈ tree.bodyNodesAt order levels id) :
      ∃ e ∈ (tree.scope x.1).body, x.2 ∈ e.nodes := by
    induction levels generalizing id with
    | zero => cases h
    | succ levels ih =>
      obtain ⟨e, he, hn⟩ := List.mem_flatMap.mp h
      rcases mem_nodesWith id e hn with ⟨here, node⟩ | ⟨inner, h⟩
      · exact ⟨e, here ▸ he, node⟩
      · exact ih inner h
  exact levels tree.count rootId h

end

/-- What holds of the literals in all statements holds of the literals in all nodes. -/
theorem literals_nodes {P : FunctionLiteral → Prop}
    (h : ∀ id : Nat, ∀ l ∈ literalsOf (tree.scope id).body, P l) :
    ∀ n ∈ tree.nodes order, ∀ l ∈ n.2.literals, P l := by
  intro n hn l hl
  obtain ⟨e, he, node⟩ := mem_nodes hn
  rw [Expr.literals_eq] at hl
  obtain ⟨m, inner, eq⟩ := List.mem_filterMap.mp hl
  refine h n.1 l (List.mem_flatMap.mpr ⟨e, he, ?_⟩)
  rw [Expr.literals_eq]
  exact List.mem_filterMap.mpr ⟨m, Expr.nodes_trans inner e node, eq⟩

theorem forall_literals {P : FunctionLiteral → Prop}
    (h : ∀ id : Nat, ∀ l ∈ literalsOf (tree.scope id).body, P l) : ∀ p ∈ tree.literals order, P p.literal := by
  intro p hp
  rw [literals_eq] at hp
  obtain ⟨⟨id, e⟩, hn, placed⟩ := List.mem_filterMap.mp hp
  cases e with
  | function literal span =>
    cases placed
    exact literals_nodes h _ hn literal (by simp [Expr.literals])
  | _ => cases placed

end ScopeTree

end WindowedClosures
