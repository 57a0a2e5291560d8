import WindowedClosures.Proofs.Machine.Contracts
import WindowedClosures.Proofs.Scope.Captures

/-!
# Registers and what they hold

The output of a scope, its parameters and its variables have registers of their own, and so have the
variables it captured; a function register belongs to one of them. A parameter holds the functions
of the input that it stands for.
-/

namespace WindowedClosures

/-- Variables one behind the other, from an offset on. -/
def InRow : Nat → List Variable → Prop
  | _, [] => True
  | start, v :: rest => v.offset = start ∧ InRow (start + v.ty.size) rest

theorem Stacked.inRow {vars : List Variable} {start : Nat} (h : Stacked start vars) :
    InRow start vars := by
  induction vars generalizing start with
  | nil => trivial
  | cons v rest ih => exact ⟨h.1, ih h.2.2⟩

theorem inRow_of_offsets {vars : List Variable} {start : Nat}
    (h : ∀ before v after, vars = before ++ v :: after → v.offset = start + sizeOfAll before) :
    InRow start vars := by
  induction vars generalizing start with
  | nil => trivial
  | cons v rest ih =>
    refine ⟨by simpa using h [] v rest rfl, ih fun before u after eq => ?_⟩
    have place := h (v :: before) u after (by rw [eq]; rfl)
    rw [place, sizeOfAll_cons, Nat.add_assoc]

theorem InRow.start_le {vars : List Variable} {start : Nat} (h : InRow start vars) :
    ∀ v ∈ vars, start ≤ v.offset := by
  induction vars generalizing start with
  | nil => simp
  | cons first rest ih =>
    intro v hv
    have place := h.1
    rcases List.mem_cons.mp hv with rfl | hv
    · omega
    · have later := ih h.2 v hv
      omega

/-- A register belongs to one variable of a row. -/
theorem InRow.unique {vars : List Variable} {start : Nat} (h : InRow start vars) {v u : Variable}
    (hv : v ∈ vars) (hu : u ∈ vars) {j k : Nat} (hj : j < v.ty.size) (hk : k < u.ty.size)
    (same : v.offset + j = u.offset + k) : v = u := by
  induction vars generalizing start with
  | nil => cases hv
  | cons first rest ih =>
    have place := h.1
    rcases List.mem_cons.mp hv with rfl | hv' <;> rcases List.mem_cons.mp hu with rfl | hu'
    · rfl
    · have later := h.2.start_le u hu'
      omega
    · have later := h.2.start_le v hv'
      omega
    · exact ih h.2 hv' hu'

namespace Scope

/-- The functions that lie at fixed offsets of the window: those of the output and of variables. -/
def Lays (s : Scope) (o : Nat) (a : Arrow) : Prop :=
  s.arrow.output.Calls o a ∨ ∃ v ∈ s.vars, ∃ k, o = v.offset + k ∧ v.ty.Calls k a

/-- Output, variables and captured variables have registers of their own. -/
structure Rowed (s : Scope) : Prop extends s.KeepsBanks where
  inside : ∀ v ∈ s.vars, v.offset + v.ty.size ≤ s.size
  vars_row : InRow s.arrow.output.size s.vars
  closure_row : InRow 0 s.closure
  foreign : ∀ v ∈ s.closure, ∀ u ∈ s.vars, u.name ≠ v.name

variable {s : Scope}

theorem Rowed.calls_variable (h : s.Rowed) {v : Variable} (hv : v ∈ s.vars) {k : Nat} {a : Arrow}
    (lt : k < v.ty.size) (lays : s.Lays (v.offset + k) a) : v.ty.Calls k a := by
  rcases lays with output | ⟨u, hu, j, same, calls⟩
  · have low := h.vars_row.start_le v hv
    have high := output.lt_size
    omega
  · have eq := h.vars_row.unique hv hu lt calls.lt_size same
    subst eq
    rwa [show k = j by omega]

theorem Rowed.calls_output (h : s.Rowed) {k : Nat} {a : Arrow} (lt : k < s.arrow.output.size)
    (lays : s.Lays k a) : s.arrow.output.Calls k a := by
  rcases lays with output | ⟨u, hu, j, same, calls⟩
  · exact output
  · have low := h.vars_row.start_le u hu
    omega

theorem Rowed.calls_captured (h : s.Rowed) {v : Variable} (hv : v ∈ s.closure) {k : Nat} {a : Arrow}
    (lt : k < v.ty.size) (encloses : s.Encloses (v.offset + k) a) : v.ty.Calls k a := by
  obtain ⟨u, hu, j, same, calls⟩ := encloses
  have eq := h.closure_row.unique hv hu lt calls.lt_size same
  subst eq
  rwa [show k = j by omega]

end Scope

/-- The functions of a parameter are functions of the input. -/
theorem calls_parameter {labels : List String} {arrow : Arrow} {inputs : List Variable}
    (h : parameters? labels arrow = some inputs) {v : Variable} (hv : v ∈ inputs) {k : Nat}
    {a : Arrow} (calls : v.ty.Calls k a) :
    ∃ j, v.offset + k = arrow.output.size + j ∧ arrow.input.Calls j a := by
  have fields (labels : List String) (types : List (Labelled Ty)) (start : Nat)
      (hv : v ∈ consecutive start (labels.zip (types.map (·.value)))) :
      ∃ j, v.offset + k = start + j ∧ Ty.CallsIn types j a := by
    induction types generalizing labels start with
    | nil => simp [consecutive] at hv
    | cons first rest ih =>
      cases labels with
      | nil => simp [consecutive] at hv
      | cons label labels =>
        rw [List.map_cons, List.zip_cons_cons, consecutive] at hv
        rcases List.mem_cons.mp hv with rfl | hv
        · exact ⟨k, rfl, .inl calls⟩
        · obtain ⟨j, place, inner⟩ := ih labels _ hv
          exact ⟨first.value.size + j, by omega, .inr ⟨j, rfl, inner⟩⟩
  unfold parameters? at h
  dsimp only at h
  split at h
  · cases h
    cases hv
  · cases h
  · cases h
    rw [consecutive, consecutive, List.mem_singleton] at hv
    subst hv
    exact ⟨k, rfl, calls⟩
  · rename_i types hr _
    split at h
    · cases h
      obtain ⟨j, place, inner⟩ := fields _ types _ hv
      refine ⟨j, place, ?_⟩
      rw [← Ty.calls_resolved, hr, Ty.Calls]
      exact inner
    · cases h
  · cases h

/-- The functions of the input are functions of parameters. -/
theorem parameter_of_calls {labels : List String} {arrow : Arrow} {inputs : List Variable}
    (h : parameters? labels arrow = some inputs) {j : Nat} {a : Arrow}
    (calls : arrow.input.Calls j a) :
    ∃ v ∈ inputs, ∃ k, arrow.output.size + j = v.offset + k ∧ v.ty.Calls k a := by
  have fields (labels : List String) (types : List (Labelled Ty)) (start j : Nat)
      (length : types.length = labels.length) (calls : Ty.CallsIn types j a) :
      ∃ v ∈ consecutive start (labels.zip (types.map (·.value))),
        ∃ k, start + j = v.offset + k ∧ v.ty.Calls k a := by
    induction types generalizing labels start j with
    | nil => exact calls.elim
    | cons first rest ih =>
      cases labels with
      | nil => cases length
      | cons label labels =>
        rw [List.map_cons, List.zip_cons_cons, consecutive]
        rcases calls with here | ⟨i, rfl, later⟩
        · exact ⟨_, List.mem_cons_self, j, rfl, here⟩
        · obtain ⟨v, hv, k, place, calls⟩ :=
            ih labels (start + first.value.size) i (by simpa using length) later
          exact ⟨v, List.mem_cons_of_mem _ hv, k, by omega, calls⟩
  unfold parameters? at h
  dsimp only at h
  split at h
  · rename_i void
    rw [← Ty.calls_resolved, void] at calls
    exact calls.elim
  · cases h
  · cases h
    exact ⟨_, List.mem_singleton.mpr rfl, j, rfl, calls⟩
  · rename_i types hr _
    split at h
    · rename_i many
      cases h
      rw [← Ty.calls_resolved, hr, Ty.Calls] at calls
      exact fields _ types _ j many.2 calls
    · cases h
  · cases h

/-! ## Resolved programs -/

namespace ScopeTree

variable {tree : ScopeTree}

/-- The program itself has neither input nor output. -/
theorem root_arrow_of_resolved (h : tree.Resolved) : tree.root.arrow = .unset := by
  obtain ⟨bound, ids, ready, rfl⟩ := h.ready
  have arrow : Same (·.arrow) bound bound.capture := same_capture (fun _ _ => rfl) bound
  exact (arrow.scopes rootId).trans ready.unset

theorem rowed_of_resolved (h : tree.Resolved) (id : Nat) : (tree.scope id).Rowed := by
  have root := root_arrow_of_resolved h
  obtain ⟨bound, ids, ready, eq⟩ := h.ready
  have banks := keepsBanks_of_resolved h id
  subst eq
  have vars : Same (·.vars) bound bound.capture := same_capture (fun _ _ => rfl) bound
  have arrow : Same (·.arrow) bound bound.capture := same_capture (fun _ _ => rfl) bound
  obtain ⟨start, stacked, size⟩ := ready.stacked id
  refine ⟨banks, fun v hv => ?_, ?_, ?_, ?_⟩
  · have inside := inside_of_stacked stacked v hv
    omega
  · rw [vars.scopes id, arrow.scopes id]
    by_cases lt : id < bound.count
    · by_cases eq : id = rootId
      · have void : (bound.scope id).arrow.output.size = 0 := by
          rw [eq, ← arrow.scopes rootId, show (bound.capture.scope rootId).arrow = .unset from root]
          rfl
        rw [void, eq]
        exact ready.root.inRow
      · exact (ready.vars id ((ready.numbered.mem_ids id).mpr ⟨lt, eq⟩)).inRow
    · rw [scope_of_count_le bound (Nat.le_of_not_lt lt)]
      trivial
  · by_cases hm : id ∈ ids
    · obtain ⟨outer, -, -, parent⟩ := ready.numbered.exists_parent hm
      obtain ⟨names, closes, -⟩ := ready.capture.taken id hm outer parent
      refine inRow_of_offsets fun before v after split => ?_
      rw [Nat.zero_add]
      exact closes.offsets before v after split
    · rw [ready.capture.blank id hm]
      trivial
  · by_cases hm : id ∈ ids
    · obtain ⟨outer, -, -, parent⟩ := ready.numbered.exists_parent hm
      obtain ⟨names, closes, -⟩ := ready.capture.taken id hm outer parent
      rw [vars.scopes id]
      exact closes.foreign
    · rw [ready.capture.blank id hm]
      simp

theorem root_closure_of_resolved (h : tree.Resolved) : tree.root.closure = [] := by
  obtain ⟨bound, ids, ready, rfl⟩ := h.ready
  exact ready.capture.blank rootId fun hm => ((ready.numbered.mem_ids _).mp hm).2 rfl

theorem Ready.root_lt {ids : List Nat} (h : tree.Ready ids) : rootId < tree.count := by
  have length := h.numbered.perm.length_eq
  rw [List.length_cons, List.length_range] at length
  exact Nat.lt_of_lt_of_le (Nat.succ_pos _) (Nat.le_of_eq length)

theorem root_lt_of_resolved (h : tree.Resolved) : rootId < tree.count := by
  obtain ⟨bound, ids, ready, rfl⟩ := h.ready
  rw [ready.capture.captures.count]
  exact ready.root_lt

/-- Functions are the literals of the program: a number says which scope. -/
theorem Ready.function_scope {ids : List Nat} (h : tree.Ready ids) {f : Function}
    (hf : f ∈ tree.functions) : ids[f.id]? = some f.scope ∧ f.scope ∈ ids := by
  have listing := listing_literals .post h.numbered.below h.numbered.perm
  have mem : (f.id, f.scope) ∈ tree.functions.map fun f => (f.id, f.scope) := List.mem_map_of_mem hf
  rw [h.functions] at mem
  obtain ⟨p, hp, eq⟩ := List.mem_map.mp mem
  injection eq with number scope
  have inside : p.literal.scope ∈ ids := listing.perm.mem_iff.mp (List.mem_map_of_mem hp)
  have position : ids[p.literal.id]? = some p.literal.scope := by
    rcases listing.placed p hp with ⟨-, hl⟩ | ⟨ho, hl⟩
    · exact h.numbered.numbers rootId h.root_lt _ hl
    · exact h.numbered.numbers p.outer ((h.numbered.mem_ids _).mp ho).1 _ hl
  rw [← number, ← scope]
  exact ⟨position, inside⟩

/-- A literal stands for the function of its number, and what it captured is at hand where it is
made, with the same type. -/
theorem literal_of_resolved (h : tree.Resolved) {id : Nat} (lt : id < tree.count)
    {literal : FunctionLiteral} (hl : literal ∈ literalsOf (tree.scope id).body) :
    (∀ f ∈ tree.functions, f.id = literal.id → f.scope = literal.scope) ∧
      ∀ v ∈ (tree.scope literal.scope).closure,
        ∃ u, (tree.scope id).local? v.name = some u ∧ u.ty = v.ty := by
  obtain ⟨bound, ids, ready, rfl⟩ := h.ready
  have captures := ready.capture.captures
  have functions : bound.capture.functions = bound.functions :=
    (same_capture (fun _ _ => rfl) bound : Same (·.vars) bound bound.capture).functions
  rw [captures.count] at lt
  rw [captures.body id] at hl
  refine ⟨fun f hf number => ?_, fun v hv => ?_⟩
  · rw [functions] at hf
    have position := (ready.function_scope hf).1
    rw [number, ready.numbered.numbers id lt literal hl] at position
    exact (Option.some.inj position).symm
  · have parent := ready.numbered.parents id lt literal.scope (List.mem_map_of_mem hl)
    exact ready.captured_local? parent hv

/-- The parameters of a function are variables of its window that hold functions of its input. -/
theorem parameter_of_resolved (h : tree.Resolved) {f : Function} (hf : f ∈ tree.functions)
    {n : String} (hn : n ∈ (tree.scope f.scope).labels) {v : Variable}
    (hv : (tree.scope f.scope).local? n = some v) {k : Nat} {a : Arrow} (calls : v.ty.Calls k a) :
    ∃ j, v.offset + k = (tree.scope f.scope).arrow.output.size + j ∧
      (tree.scope f.scope).arrow.input.Calls j a := by
  obtain ⟨bound, ids, ready, rfl⟩ := h.ready
  have functions : bound.capture.functions = bound.functions :=
    (same_capture (fun _ _ => rfl) bound : Same (·.vars) bound bound.capture).functions
  rw [functions] at hf
  obtain ⟨inputs, rest, parameters, vars⟩ := ready.inputs f.scope (ready.function_scope hf).2
  have same := ready.capture.captures.scopes f.scope
  have vars' : (bound.capture.scope f.scope).vars = inputs ++ rest := by rw [same]; exact vars
  have arrow : (bound.capture.scope f.scope).arrow = (bound.scope f.scope).arrow := by rw [same]
  have labels : (bound.capture.scope f.scope).labels = (bound.scope f.scope).labels := by rw [same]
  rw [labels, ← (parameters?_ok parameters).2.2] at hn
  obtain ⟨u, hu, rfl⟩ := List.mem_map.mp hn
  have found : v ∈ inputs := by
    unfold Scope.local? at hv
    rw [vars', List.find?_append] at hv
    cases first : inputs.find? (·.name == u.name) with
    | none =>
      have none := List.find?_eq_none.mp first u hu
      simp at none
    | some w =>
      rw [first] at hv
      cases hv
      exact List.mem_of_find?_eq_some first
  rw [arrow]
  exact calls_parameter parameters found calls

/-- A function's scope has the registers of its input, and the functions of the input lie in its
parameters. -/
theorem input_of_resolved (h : tree.Resolved) {f : Function} (hf : f ∈ tree.functions) :
    f.scope < tree.count ∧ f.scope ≠ rootId ∧
      (tree.scope f.scope).arrow.output.size + (tree.scope f.scope).arrow.input.size ≤
        (tree.scope f.scope).size ∧
      ∀ j a, (tree.scope f.scope).arrow.input.Calls j a →
        (tree.scope f.scope).Lays ((tree.scope f.scope).arrow.output.size + j) a := by
  obtain ⟨bound, ids, ready, rfl⟩ := h.ready
  have functions : bound.capture.functions = bound.functions :=
    (same_capture (fun _ _ => rfl) bound : Same (·.vars) bound bound.capture).functions
  rw [functions] at hf
  have mem := (ready.function_scope hf).2
  obtain ⟨inputs, rest, parameters, vars⟩ := ready.inputs f.scope mem
  have same := ready.capture.captures.scopes f.scope
  have vars' : (bound.capture.scope f.scope).vars = inputs ++ rest := by rw [same]; exact vars
  have arrow : (bound.capture.scope f.scope).arrow = (bound.scope f.scope).arrow := by rw [same]
  obtain ⟨lt, ne⟩ := (ready.numbered.mem_ids _).mp mem
  refine ⟨by rw [ready.capture.captures.count]; exact lt, ne, ?_, fun j a calls => ?_⟩
  · rw [Scope.size, vars', sizeOfAll_append, arrow, (parameters?_ok parameters).2.1]
    omega
  · rw [arrow] at calls ⊢
    obtain ⟨v, hv, k, place, calls'⟩ := parameter_of_calls parameters calls
    exact .inr ⟨v, by rw [vars']; exact List.mem_append_left _ hv, k, place, calls'⟩

end ScopeTree

end WindowedClosures
