import WindowedClosures.Scope.Nodes

/-!
# The forest of scopes

A scope's children are the bodies of the literals in its statements. The scopes below a row of
scopes are listed in source order, an outer one before those inside it; a list exists only where no
scope is inside itself. A tree is formed when the scopes below the root are all its scopes, each once.
-/

namespace WindowedClosures

mutual

/-- The function literals of an expression in source order, outside the bodies of literals. -/
@[grind =] def Expr.literals : Expr → List FunctionLiteral
  | .function literal _ => [literal]
  | .tuple fields _ => literalsOfFields fields
  | .varDecl _ _ value _ => value.literals
  | .binary _ lhs rhs _ => lhs.literals ++ rhs.literals
  | .unary _ operand _ => operand.literals
  | .int .. | .hex .. | .float .. | .text .. | .name .. | .typeDecl .. => []

def Expr.literalsOfFields : List (Labelled Expr) → List FunctionLiteral
  | [] => []
  | ⟨_, value⟩ :: rest => value.literals ++ Expr.literalsOfFields rest

end

theorem Expr.literalsOfFields_eq (fields : List (Labelled Expr)) :
    Expr.literalsOfFields fields = fields.flatMap (·.value.literals) := by
  induction fields with
  | nil => rfl
  | cons first rest ih => simp [Expr.literalsOfFields, ih]

theorem Expr.mem_literalsOfFields {fields : List (Labelled Expr)} {field : Labelled Expr}
    (mem : field ∈ fields) {literal : FunctionLiteral} (h : literal ∈ field.value.literals) :
    literal ∈ Expr.literalsOfFields fields := by
  rw [Expr.literalsOfFields_eq]
  exact List.mem_flatMap.mpr ⟨field, mem, h⟩

/-- The function literals of statements. -/
def literalsOf (body : List Expr) : List FunctionLiteral := body.flatMap Expr.literals

@[simp] theorem literalsOf_nil : literalsOf [] = [] := rfl
@[simp] theorem literalsOf_cons (e : Expr) (rest : List Expr) :
    literalsOf (e :: rest) = e.literals ++ literalsOf rest := rfl
@[simp] theorem literalsOf_append (a b : List Expr) :
    literalsOf (a ++ b) = literalsOf a ++ literalsOf b := by simp [literalsOf]

mutual

/-- Only a name stands in the place of a field's name. -/
@[grind =] def Expr.PlainFields : Expr → Prop
  | .tuple fields _ => plainFieldsAll fields
  | .varDecl _ _ value _ => value.PlainFields
  | .binary op lhs rhs _ => lhs.PlainFields ∧ rhs.PlainFields ∧ (op = .field → rhs.asName?.isSome)
  | .unary _ operand _ => operand.PlainFields
  | .int .. | .hex .. | .float .. | .text .. | .name .. | .typeDecl .. | .function .. => True

def Expr.plainFieldsAll : List (Labelled Expr) → Prop
  | [] => True
  | ⟨_, value⟩ :: rest => value.PlainFields ∧ Expr.plainFieldsAll rest

end

theorem Expr.plainFieldsAll_iff (fields : List (Labelled Expr)) :
    Expr.plainFieldsAll fields ↔ ∀ f ∈ fields, f.value.PlainFields := by
  induction fields with
  | nil => simp [Expr.plainFieldsAll]
  | cons first rest ih => simp [Expr.plainFieldsAll, ih]

namespace ScopeTree

theorem scope_of_count_le (tree : ScopeTree) {id : Nat} (h : tree.count ≤ id) :
    tree.scope id = default := by
  simp [scope, Array.getElem?_eq_none h]

/-- A change of one scope, seen from any scope. -/
theorem scope_modify (tree : ScopeTree) (id other : Nat) (f : Scope → Scope) :
    (tree.modify id f).scope other =
      if other = id ∧ id < tree.count then f (tree.scope other) else tree.scope other := by
  by_cases eq : other = id
  · subst eq
    by_cases lt : other < tree.count
    · rw [if_pos ⟨rfl, lt⟩, scope_modify_same tree other f lt]
    · rw [if_neg (fun h => lt h.2), scope_of_count_le tree (Nat.le_of_not_lt lt),
        scope_of_count_le _ (by rw [count_modify]; exact Nat.le_of_not_lt lt)]
  · rw [if_neg (fun h => eq h.1), scope_modify_other tree id other f eq]

/-- The bodies of the literals in the statements of a scope. -/
def children (tree : ScopeTree) (id : ScopeId) : List ScopeId :=
  (literalsOf (tree.scope id).body).map (·.scope)

theorem lt_of_mem_body {tree : ScopeTree} {id : ScopeId} {e : Expr} (he : e ∈ (tree.scope id).body) :
    id < tree.count := by
  refine Nat.lt_of_not_le fun large => ?_
  rw [scope_of_count_le tree large] at he
  cases he

theorem lt_of_mem_children {tree : ScopeTree} {id child : ScopeId} (hc : child ∈ tree.children id) :
    id < tree.count := by
  obtain ⟨l, hl, -⟩ := List.mem_map.mp hc
  obtain ⟨e, he, -⟩ := List.mem_flatMap.mp hl
  exact lt_of_mem_body he

/-- A literal in a statement is a child of the scope. -/
theorem mem_children_of_literal {tree : ScopeTree} {id : ScopeId} {e : Expr} {literal : FunctionLiteral}
    (he : e ∈ (tree.scope id).body) (mem : literal ∈ e.literals) : literal.scope ∈ tree.children id :=
  List.mem_map_of_mem (List.mem_flatMap.mpr ⟨e, he, mem⟩)

/-- The second row lists the scopes of the first, each followed by the scopes inside it. -/
inductive Below (tree : ScopeTree) : List ScopeId → List ScopeId → Prop
  | nil : Below tree [] []
  | cons {id : ScopeId} {rest inner outer : List ScopeId} :
      Below tree (tree.children id) inner → Below tree rest outer →
        Below tree (id :: rest) (id :: (inner ++ outer))

variable {tree other : ScopeTree} {a b x y : List ScopeId}

theorem Below.append (ha : tree.Below a x) (hb : tree.Below b y) : tree.Below (a ++ b) (x ++ y) := by
  induction ha with
  | nil => exact hb
  | cons hi _ _ ih =>
    rename_i id rest inner outer
    have h := Below.cons hi ih
    rwa [← List.append_assoc] at h

theorem Below.split {z : List ScopeId} (h : tree.Below (a ++ b) z) :
    ∃ x y, z = x ++ y ∧ tree.Below a x ∧ tree.Below b y := by
  induction a generalizing z with
  | nil => exact ⟨[], z, rfl, .nil, h⟩
  | cons id rest ih =>
    cases h with
    | cons hi ho =>
      rename_i inner outer
      obtain ⟨x, y, rfl, hx, hy⟩ := ih ho
      exact ⟨id :: (inner ++ x), y, by simp, .cons hi hx, hy⟩

/-- The scopes below depend only on the children of the scopes listed. -/
theorem Below.congr (h : tree.Below a x) (same : ∀ id ∈ x, other.children id = tree.children id) :
    other.Below a x := by
  induction h with
  | nil => exact .nil
  | cons hi ho ihi iho =>
    rename_i id rest inner outer
    refine .cons ?_ (iho fun i hm => same i (by simp [hm]))
    rw [same id (by simp)]
    exact ihi fun i hm => same i (by simp [hm])

theorem Below.mem_of_mem (h : tree.Below a x) {id : ScopeId} (hm : id ∈ a) : id ∈ x := by
  induction h with
  | nil => exact hm
  | cons _ _ _ iho =>
    rcases List.mem_cons.mp hm with rfl | hm
    · simp
    · simp [iho hm]

/-- What is listed is in the row, or a child of what is listed. -/
theorem Below.mem_cases (h : tree.Below a x) {id : ScopeId} (hm : id ∈ x) :
    id ∈ a ∨ ∃ outer ∈ x, id ∈ tree.children outer := by
  induction h with
  | nil => cases hm
  | cons hi ho ihi iho =>
    rename_i first rest inner outer
    rcases List.mem_cons.mp hm with rfl | hm
    · exact .inl (by simp)
    · rcases List.mem_append.mp hm with hm | hm
      · rcases ihi hm with hc | ⟨o, ho', hc⟩
        · exact .inr ⟨first, by simp, hc⟩
        · exact .inr ⟨o, by simp [ho'], hc⟩
      · rcases iho hm with hc | ⟨o, ho', hc⟩
        · exact .inl (by simp [hc])
        · exact .inr ⟨o, by simp [ho'], hc⟩

/-- The children of what is listed are listed. -/
theorem Below.children_mem (h : tree.Below a x) {outer id : ScopeId} (hm : outer ∈ x)
    (hc : id ∈ tree.children outer) : id ∈ x := by
  induction h with
  | nil => cases hm
  | cons hi ho ihi iho =>
    rcases List.mem_cons.mp hm with rfl | hm
    · simp [hi.mem_of_mem hc]
    · rcases List.mem_append.mp hm with hm | hm
      · simp [ihi hm]
      · simp [iho hm]

end ScopeTree

end WindowedClosures
