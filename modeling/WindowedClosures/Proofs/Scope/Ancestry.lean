import Mathlib.Logic.Relation
import WindowedClosures.Proofs.Scope.Passes

/-!
# Enclosing scopes

From every scope the parents lead to the program in no more steps than there are scopes, so looking
outwards a bounded number of steps finds all enclosing scopes.
-/

namespace WindowedClosures.ScopeTree

/-- The list leads from a scope by its parents to a scope without one. -/
inductive Chain (tree : ScopeTree) : Nat → List Nat → Prop
  | last {id : Nat} : (tree.scope id).parent = none → Chain tree id [id]
  | step {id parent : Nat} {rest : List Nat} : (tree.scope id).parent = some parent →
      Chain tree parent rest → Chain tree id (id :: rest)

variable {tree tree' : ScopeTree} {id : Nat} {ids path other : List Nat}

theorem Chain.unique (h : tree.Chain id path) (h' : tree.Chain id other) : path = other := by
  induction h generalizing other with
  | last hn =>
    cases h' with
    | last => rfl
    | step hp _ => simp [hn] at hp
  | step hp _ ih =>
    cases h' with
    | last hn => simp [hp] at hn
    | step hp' rest =>
      rw [hp] at hp'
      cases hp'
      rw [ih rest]

theorem Chain.mem_self (h : tree.Chain id path) : id ∈ path := by
  cases h <;> simp

/-- From any member the rest of the chain leads on. -/
theorem Chain.from_mem (h : tree.Chain id path) {a : Nat} (ha : a ∈ path) :
    ∃ rest, tree.Chain a rest ∧ rest <:+ path := by
  induction h with
  | last hn =>
    rw [List.mem_singleton.mp ha]
    exact ⟨_, .last hn, List.suffix_refl _⟩
  | step hp hr ih =>
    rcases List.mem_cons.mp ha with rfl | ha
    · exact ⟨_, .step hp hr, List.suffix_refl _⟩
    · obtain ⟨rest, hc, hs⟩ := ih ha
      exact ⟨rest, hc, hs.trans (List.suffix_cons _ _)⟩

theorem Chain.not_mem_parent {parent : Nat} (hp : (tree.scope id).parent = some parent)
    (h : tree.Chain parent path) : id ∉ path := by
  intro hm
  obtain ⟨rest, hc, hs⟩ := h.from_mem hm
  rw [hc.unique (.step hp h)] at hs
  have le := hs.length_le
  rw [List.length_cons] at le
  omega

theorem Chain.ancestorsFrom_eq (h : tree.Chain id path) {fuel : Nat} (le : path.length ≤ fuel) :
    tree.ancestorsFrom fuel id = path := by
  induction h generalizing fuel with
  | last hn =>
    obtain ⟨n, rfl⟩ : ∃ n, fuel = n + 1 := ⟨fuel - 1, by simp at le; omega⟩
    rw [ancestorsFrom, hn]
  | step hp _ ih =>
    obtain ⟨n, rfl⟩ : ∃ n, fuel = n + 1 := ⟨fuel - 1, by simp at le; omega⟩
    rw [ancestorsFrom, hp]
    simp only [List.length_cons] at le
    exact congrArg _ (ih (by omega))

/-- The scopes below a row have chains behind that of the scope the row stands in. -/
theorem Below.chains {roots : List Nat} (h : tree.Below roots ids)
    (parents : ∀ outer ∈ ids, ∀ child ∈ tree.children outer, (tree.scope child).parent = some outer)
    {outer : Nat} (hp : ∀ r ∈ roots, (tree.scope r).parent = some outer)
    (hc : tree.Chain outer path) :
    ∀ x ∈ ids, ∃ l, tree.Chain x l ∧ l.length ≤ path.length + ids.length := by
  induction h generalizing outer path with
  | nil => simp
  | cons hi ho ihi iho =>
    rename_i first rest inner others
    have here : tree.Chain first (first :: path) := .step (hp first (by simp)) hc
    intro x hx
    rcases List.mem_cons.mp hx with rfl | hx
    · exact ⟨_, here, by simp⟩
    · rcases List.mem_append.mp hx with hx | hx
      · obtain ⟨l, hl, le⟩ := ihi (fun o hm => parents o (by simp [hm]))
          (fun r hr => parents first (by simp) r hr) here x hx
        exact ⟨l, hl, by simp only [List.length_cons, List.length_append] at le ⊢; omega⟩
      · obtain ⟨l, hl, le⟩ := iho (fun o hm => parents o (by simp [hm]))
          (fun r hr => hp r (by simp [hr])) hc x hx
        exact ⟨l, hl, by simp only [List.length_cons, List.length_append] at le ⊢; omega⟩

theorem Numbered.chain (h : tree.Numbered ids) (lt : id < tree.count) :
    tree.Chain id (tree.ancestors id) := by
  have length := h.perm.length_eq
  rw [List.length_cons, List.length_range] at length
  have root : tree.Chain rootId [rootId] := .last h.root
  have found : ∃ l, tree.Chain id l ∧ l.length ≤ tree.count := by
    by_cases eq : id = rootId
    · exact ⟨[rootId], eq ▸ root, by simp; omega⟩
    · obtain ⟨l, hl, le⟩ := h.below.chains
        (fun o hm => h.parents o ((h.mem_ids o).mp hm).1)
        (h.parents rootId (by show 0 < tree.count; omega)) root id
        ((h.mem_ids id).mpr ⟨lt, eq⟩)
      exact ⟨l, hl, by simp at le; omega⟩
  obtain ⟨l, hl, le⟩ := found
  rw [ancestors, hl.ancestorsFrom_eq le]
  exact hl

/-- A scope other than the program stands in some scope. -/
theorem Numbered.exists_parent (h : tree.Numbered ids) (hm : id ∈ ids) :
    ∃ outer : Nat, outer < tree.count ∧ id ∈ tree.children outer ∧
      (tree.scope id).parent = some outer := by
  have found : ∃ outer : Nat, outer < tree.count ∧ id ∈ tree.children outer := by
    rcases h.below.mem_cases hm with hc | ⟨outer, ho, hc⟩
    · exact ⟨rootId, Nat.lt_of_le_of_lt (Nat.zero_le id) ((h.mem_ids id).mp hm).1, hc⟩
    · exact ⟨outer, ((h.mem_ids outer).mp ho).1, hc⟩
  obtain ⟨outer, lo, hc⟩ := found
  exact ⟨outer, lo, hc, h.parents outer lo id hc⟩

theorem Numbered.mem_of_parent (h : tree.Numbered ids) {parent : Nat}
    (hp : (tree.scope id).parent = some parent) : id ∈ ids := by
  refine (h.mem_ids id).mpr ⟨Nat.lt_of_not_le fun le => ?_, ?_⟩
  · rw [scope_of_count_le tree le] at hp
    cases hp
  · rintro rfl
    have root := h.root
    rw [ScopeTree.root, hp] at root
    cases root

/-- A parent has the scope among its children. -/
theorem Numbered.child_of_parent (h : tree.Numbered ids) {parent : Nat}
    (hp : (tree.scope id).parent = some parent) :
    parent < tree.count ∧ id ∈ tree.children parent := by
  obtain ⟨outer, lo, hc, ho⟩ := h.exists_parent (h.mem_of_parent hp)
  rw [hp] at ho
  cases ho
  exact ⟨lo, hc⟩

theorem Numbered.lt_of_parent (h : tree.Numbered ids) {parent : Nat}
    (hp : (tree.scope id).parent = some parent) : id < tree.count :=
  ((h.mem_ids id).mp (h.mem_of_parent hp)).1

theorem Numbered.ancestors_cons (h : tree.Numbered ids) {parent : Nat}
    (hp : (tree.scope id).parent = some parent) :
    tree.ancestors id = id :: tree.ancestors parent :=
  (h.chain (h.lt_of_parent hp)).unique (.step hp (h.chain (h.child_of_parent hp).1))

theorem Numbered.not_mem_ancestors (h : tree.Numbered ids) {parent : Nat}
    (hp : (tree.scope id).parent = some parent) : id ∉ tree.ancestors parent :=
  (h.chain (h.child_of_parent hp).1).not_mem_parent hp

theorem ancestors_congr (count : tree'.count = tree.count)
    (shape : ∀ id : Nat, (tree'.scope id).shape = (tree.scope id).shape) (id : Nat) :
    tree'.ancestors id = tree.ancestors id := by
  rw [ancestors, ancestors, count]
  generalize tree.count = fuel
  induction fuel generalizing id with
  | zero => rfl
  | succ fuel ih =>
    rw [ancestorsFrom, ancestorsFrom, parent_of_shape (shape id)]
    cases (tree.scope id).parent with
    | none => rfl
    | some parent => exact congrArg _ (ih parent)

/-- The first scope stands somewhere inside the second. -/
def Enclosed (tree : ScopeTree) : Nat → Nat → Prop :=
  Relation.TransGen fun inner outer => (tree.scope inner).parent = some outer

theorem Chain.mem_of_reaches (h : tree.Chain id path) {a : Nat}
    (hr : Relation.ReflTransGen (fun inner outer => (tree.scope inner).parent = some outer) id a) :
    a ∈ path := by
  induction hr with
  | refl => exact h.mem_self
  | tail _ hp ih =>
    obtain ⟨rest, hc, hs⟩ := h.from_mem ih
    cases hc with
    | last hn => simp [hp] at hn
    | step hp' hc =>
      rw [hp] at hp'
      cases hp'
      exact hs.subset (List.mem_cons_of_mem _ hc.mem_self)

/-- What a scope stands inside of are the ancestors of its parent. -/
theorem Numbered.mem_ancestors_of_enclosed (h : tree.Numbered ids) {parent a : Nat}
    (hp : (tree.scope id).parent = some parent) (he : tree.Enclosed id a) :
    a ∈ tree.ancestors parent := by
  obtain ⟨first, hf, hr⟩ := Relation.TransGen.head'_iff.mp he
  rw [hp] at hf
  cases hf
  exact (h.chain (h.child_of_parent hp).1).mem_of_reaches hr

/-- What is closed under children and has an enclosing scope has the scope too. -/
theorem Numbered.mem_of_ancestor (h : tree.Numbered ids) {done : List Nat}
    (closed : ∀ d ∈ done, ∀ child ∈ tree.children d, child ∈ done) (lt : id < tree.count) {a : Nat}
    (ha : a ∈ tree.ancestors id) (hd : a ∈ done) : id ∈ done := by
  have hc := h.chain lt
  generalize tree.ancestors id = path at ha hc
  induction hc with
  | last => rwa [List.mem_singleton.mp ha] at hd
  | step hp _ ih =>
    rcases List.mem_cons.mp ha with rfl | ha
    · exact hd
    · obtain ⟨small, child⟩ := h.child_of_parent hp
      exact closed _ (ih small ha) _ child

end WindowedClosures.ScopeTree
