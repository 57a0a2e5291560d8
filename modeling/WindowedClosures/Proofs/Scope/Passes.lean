import WindowedClosures.Compilation
import WindowedClosures.Proofs.Scope.Enumeration
import WindowedClosures.Proofs.Scope.Numbered

/-!
# What the passes keep

Each pass behind the numbering changes one part of a scope: its types, its variables, its arrow or
what it captures. Everything that does not look at that part is the same before and after. The
variables of a scope lie one behind the other: those of the program from the start of its window
on, those of a function behind its output, the parameters first.
-/

namespace WindowedClosures

namespace ScopeTree

/-- A view of the scopes that is the same in two trees. -/
structure Same {β : Type} (view : Scope → β) (before after : ScopeTree) : Prop where
  count : after.count = before.count
  functions : after.functions = before.functions
  scopes : ∀ id : Nat, view (after.scope id) = view (before.scope id)

variable {β : Type} {view : Scope → β} {first second third tree tree' : ScopeTree}

theorem same_refl (tree : ScopeTree) : Same view tree tree := ⟨rfl, rfl, fun _ => rfl⟩

theorem Same.trans (h₁ : Same view first second) (h₂ : Same view second third) :
    Same view first third :=
  ⟨h₂.count.trans h₁.count, h₂.functions.trans h₁.functions, fun id =>
    (h₂.scopes id).trans (h₁.scopes id)⟩

theorem same_modify (tree : ScopeTree) (id : Nat) {f : Scope → Scope}
    (h : ∀ s, view (f s) = view s) : Same view tree (tree.modify id f) := by
  refine ⟨by simp, rfl, fun other => ?_⟩
  rw [scope_modify]
  split
  · exact h _
  · rfl

theorem same_foldlM {α : Type} {f : ScopeTree → α → Except SemanticError ScopeTree} {items : List α}
    (h : items.foldlM f tree = .ok tree') (step : ∀ t a t', f t a = .ok t' → Same view t t') :
    Same view tree tree' :=
  foldlM_keeps (Same view tree) h (same_refl tree) fun b a c hb hc => hb.trans (step b a c hc)

theorem same_foldl {α : Type} {f : ScopeTree → α → ScopeTree} (items : List α) (tree : ScopeTree)
    (step : ∀ t a, Same view t (f t a)) : Same view tree (items.foldl f tree) := by
  induction items generalizing tree with
  | nil => exact same_refl tree
  | cons a rest ih => exact (step tree a).trans (ih (f tree a))

/-! ## One pass at a time -/

theorem same_declareType (hv : ∀ s types, view { s with types := types } = view s) {id : Nat}
    {decl : String × TypeExpr × Span} (h : declareType id tree decl = .ok tree') :
    Same view tree tree' := by
  unfold declareType at h
  dsimp only at h
  split at h
  · cases h
  · obtain ⟨ty, -, h⟩ := except_bind_ok h
    cases h
    exact same_modify tree id fun s => hv s _

theorem same_declareTypes (hv : ∀ s types, view { s with types := types } = view s)
    (h : tree.declareTypes = .ok tree') : Same view tree tree' :=
  same_foldlM h fun _ _ _ ht => same_foldlM ht fun _ _ _ => same_declareType hv

theorem declareVariable_ok {id : Nat} {decl : String × TypeExpr × Span}
    (h : declareVariable id tree decl = .ok tree') :
    ∃ ty, (tree.resolveType id decl.2.1 = .ok ty ∧ ∀ v ∈ (tree.scope id).vars, v.name ≠ decl.1) ∧
      tree' = tree.modify id fun s =>
        { s with vars := s.vars ++ [⟨decl.1, ty, sizeOfAll s.vars, .window⟩] } := by
  unfold declareVariable at h
  dsimp only at h
  split at h
  · cases h
  · rename_i unused
    obtain ⟨ty, typed, h⟩ := except_bind_ok h
    cases h
    refine ⟨ty, ⟨typed, ?_⟩, rfl⟩
    intro v hv he
    exact unused (List.any_eq_true.mpr ⟨v, hv, by simp [he]⟩)

theorem same_declareVariables (hv : ∀ s vars, view { s with vars := vars } = view s)
    (h : tree.declareVariables = .ok tree') : Same view tree tree' := by
  refine same_foldlM h fun t id t' ht => same_foldlM ht fun u decl u' hu => ?_
  obtain ⟨ty, -, rfl⟩ := declareVariable_ok hu
  exact same_modify u id fun s => hv s _

theorem nameFunction_ok {id : Nat} {name : String} {functions functions' : List Function}
    (h : nameFunction id name functions = some functions') :
    functions'.map (fun f => (f.id, f.scope)) = functions.map fun f => (f.id, f.scope) := by
  induction functions generalizing functions' with
  | nil => cases h
  | cons f rest ih =>
    rw [nameFunction] at h
    split at h
    · cases h
      rfl
    · obtain ⟨rest', hr, rfl⟩ := Option.map_eq_some_iff.mp h
      simp [ih hr]

theorem declareFunction_ok {id : Nat} {decl : String × Nat × Span}
    (h : declareFunction id tree decl = .ok tree') : tree'.scopes = tree.scopes ∧
      tree'.functions.map (fun f => (f.id, f.scope)) = tree.functions.map fun f => (f.id, f.scope) := by
  unfold declareFunction at h
  dsimp only at h
  split at h
  · cases h
  · split at h
    · rename_i functions hf
      cases h
      exact ⟨rfl, nameFunction_ok hf⟩
    · cases h

/-- Only the list of functions is new: one for each literal, nested ones first. -/
theorem declareFunctions_ok (h : tree.declareFunctions = .ok tree') :
    tree'.scopes = tree.scopes ∧ tree'.functions.map (fun f => (f.id, f.scope)) =
      (tree.literals .post).map fun p => (p.literal.id, p.literal.scope) := by
  let Inv (t : ScopeTree) : Prop := t.scopes = tree.scopes ∧
    t.functions.map (fun f => (f.id, f.scope)) =
      (tree.literals .post).map fun p => (p.literal.id, p.literal.scope)
  refine foldlM_keeps Inv h ⟨rfl, by simp⟩ fun t id t' inv ht => ?_
  refine foldlM_keeps Inv ht inv fun u decl u' inv hu => ?_
  obtain ⟨scopes, functions⟩ := declareFunction_ok hu
  exact ⟨scopes.trans inv.1, functions.trans inv.2⟩

theorem same_fillArrow (hv : ∀ s arrow, view { s with arrow := arrow } = view s) (tree : ScopeTree)
    (id : Nat) (arrow : Arrow) : Same view tree (tree.fillArrow id arrow) := by
  unfold fillArrow
  split
  · exact same_modify tree id fun s => hv s arrow
  · exact same_refl tree

theorem same_expectTypes {values : List (Labelled Expr)}
    (inner : ∀ value ∈ values, ∀ ty tree, Same view tree (expectType value.value ty tree))
    (types : List Ty) (tree : ScopeTree) : Same view tree (expectTypes values types tree) := by
  induction values generalizing types tree with
  | nil =>
    rw [expectTypes]
    · exact same_refl tree
    · simp
  | cons value values ih =>
    cases types with
    | nil =>
      rw [expectTypes]
      · exact same_refl tree
      · simp
    | cons ty types =>
      rw [expectTypes]
      exact (inner value (by simp) ty tree).trans
        (ih (fun other mem => inner other (by simp [mem])) types _)

theorem same_expectType (hv : ∀ s arrow, view { s with arrow := arrow } = view s) (e : Expr)
    (expected : Ty) (tree : ScopeTree) : Same view tree (expectType e expected tree) := by
  induction e using Expr.of_forms generalizing expected tree with
  | parens value span inner =>
    rw [expectType]
    exact inner expected tree
  | tuple values span several inner =>
    rw [expectType]
    · split
      · split
        · exact same_expectTypes inner _ tree
        · exact same_refl tree
      · split
        · exact same_expectTypes inner _ tree
        · exact same_refl tree
      · exact same_refl tree
    · exact several
  | function literal span =>
    rw [expectType]
    split
    · exact same_fillArrow hv tree _ _
    · exact same_refl tree
  | int | hex | float | text | name | typeDecl | varDecl | unary | binary | choose | unpaired =>
    rw [expectType]
    · exact same_refl tree
    all_goals simp

theorem same_passTypes (hv : ∀ s arrow, view { s with arrow := arrow } = view s)
    {node : ScopeId × Expr} (h : tree.passTypes node = .ok tree') : Same view tree tree' := by
  unfold passTypes at h
  dsimp only at h
  split at h
  · split at h
    · cases h
      exact same_refl tree
    · split at h
      · cases h
      · cases h
        exact same_expectType hv _ _ tree
  · split at h
    · cases h
      exact same_expectType hv _ _ tree
    · cases h
      exact same_refl tree
  · split at h
    · split at h
      · cases h
        exact same_expectType hv _ _ tree
      · cases h
        exact same_refl tree
    · cases h
      exact same_refl tree
  · split at h
    · cases h
      exact same_fillArrow hv tree _ _
    · cases h
      exact same_refl tree
  · cases h
    exact same_refl tree

theorem same_composeArrow (hv : ∀ s arrow, view { s with arrow := arrow } = view s)
    {placed : PlacedLiteral} (h : tree.composeArrow placed = .ok tree') : Same view tree tree' := by
  unfold composeArrow at h
  dsimp only at h
  split at h
  · cases h
    exact same_refl tree
  · split at h
    · obtain ⟨f, -, h⟩ := except_bind_ok h
      obtain ⟨g, -, h⟩ := except_bind_ok h
      cases h
      exact same_modify tree _ fun s => hv s _
    · cases h

theorem same_armArrow (hv : ∀ s arrow, view { s with arrow := arrow } = view s)
    {placed : PlacedLiteral} (h : tree.armArrow placed = .ok tree') : Same view tree tree' := by
  unfold armArrow at h
  dsimp only at h
  split at h
  · cases h
    exact same_refl tree
  · split at h
    · obtain ⟨output, -, h⟩ := except_bind_ok h
      cases h
      exact same_modify tree _ fun s => hv s _
    · cases h
      exact same_modify tree _ fun s => hv s _

theorem same_inferArrows (hv : ∀ s arrow, view { s with arrow := arrow } = view s)
    (h : tree.inferArrows = .ok tree') : Same view tree tree' := by
  unfold inferArrows at h
  obtain ⟨t, h₁, h⟩ := except_bind_ok h
  obtain ⟨u, h₂, h⟩ := except_bind_ok h
  refine ((same_foldlM h₁ fun _ _ _ => same_passTypes hv).trans
    (same_foldlM h₂ fun _ _ _ => same_composeArrow hv)).trans ?_
  exact same_foldlM h fun _ _ _ => same_armArrow hv

theorem same_captureName (hv : ∀ s closure, view { s with closure := closure } = view s)
    (outer inner : Nat) (tree : ScopeTree) (name : String) :
    Same view tree (captureName outer inner tree name) := by
  unfold captureName
  split
  · exact same_refl tree
  · split
    · exact same_refl tree
    · exact same_modify tree inner fun s => hv s _

theorem same_capture (hv : ∀ s closure, view { s with closure := closure } = view s)
    (tree : ScopeTree) : Same view tree tree.capture :=
  same_foldl _ tree fun t _ => same_foldl _ t fun u name => same_captureName hv _ _ u name

end ScopeTree

/-! ## Parameters and variables in the window -/

/-- The parameters of a literal are known to its scope, and its variables, which have other names, lie
behind them. -/
def Scope.BindsInputs (before after : Scope) : Prop :=
  ∃ inputs, parameters? before.labels before.arrow = some inputs ∧
    (∀ input ∈ inputs, ∀ v ∈ before.vars, input.name ≠ v.name) ∧
    after = { before with
      vars := inputs ++ before.vars.map fun v =>
        { v with offset := v.offset + (before.arrow.output.size + before.arrow.input.size) } }

@[simp] theorem sizeOfAll_nil : sizeOfAll [] = 0 := rfl

@[simp] theorem sizeOfAll_cons (v : Variable) (vars : List Variable) :
    sizeOfAll (v :: vars) = v.ty.size + sizeOfAll vars := rfl

@[simp] theorem sizeOfAll_append (a b : List Variable) :
    sizeOfAll (a ++ b) = sizeOfAll a + sizeOfAll b := by
  induction a with
  | nil => simp
  | cons v rest ih => simp [ih, Nat.add_assoc]

/-- Variables one behind the other in the window, from an offset on. -/
def Stacked : Nat → List Variable → Prop
  | _, [] => True
  | start, v :: rest => v.offset = start ∧ v.bank = .window ∧ Stacked (start + v.ty.size) rest

theorem stacked_append (a b : List Variable) (start : Nat) :
    Stacked start (a ++ b) ↔ Stacked start a ∧ Stacked (start + sizeOfAll a) b := by
  induction a generalizing start with
  | nil => simp [Stacked]
  | cons v rest ih => simp [Stacked, ih, Nat.add_assoc, and_assoc]

theorem Stacked.shift {vars : List Variable} {start : Nat} (h : Stacked start vars) (amount : Nat) :
    Stacked (start + amount) (vars.map fun v => { v with offset := v.offset + amount }) := by
  induction vars generalizing start with
  | nil => trivial
  | cons v rest ih =>
    obtain ⟨offset, bank, rest⟩ := h
    refine ⟨congrArg (· + amount) offset, bank, ?_⟩
    rw [Nat.add_right_comm]
    exact ih rest

theorem stacked_consecutive (start : Nat) (inputs : List (String × Ty)) :
    Stacked start (consecutive start inputs) := by
  induction inputs generalizing start with
  | nil => trivial
  | cons input rest ih => exact ⟨rfl, rfl, ih _⟩

/-- Labels that belong to the fields of a tuple take the room of the tuple. -/
theorem sizeOfAll_consecutive (start : Nat) (labels : List String) (fields : List (Labelled Ty))
    (h : fields.length = labels.length) :
    sizeOfAll (consecutive start (labels.zip (fields.map (·.value)))) = Ty.sizeFields fields := by
  induction fields generalizing start labels with
  | nil => simp [consecutive, Ty.sizeFields]
  | cons first rest ih =>
    cases labels with
    | nil => simp at h
    | cons label labels =>
      have lengths : rest.length = labels.length := by simpa using h
      simp [consecutive, Ty.sizeFields, ih _ labels lengths]

theorem names_consecutive (start : Nat) (inputs : List (String × Ty)) :
    (consecutive start inputs).map (·.name) = inputs.map (·.1) := by
  induction inputs generalizing start with
  | nil => rfl
  | cons input rest ih => simp [consecutive, ih]

theorem Ty.size_resolved (ty : Ty) : ty.resolved.size = ty.size := by
  fun_induction Ty.resolved ty with
  | case1 name target ih => rw [ih, Ty.size]
  | case2 value ih => simp [ih, Ty.size, Ty.sizeFields]
  | case3 ty => rfl

/-- The parameters fill the room of the input behind the output, and have the labels as names. -/
theorem parameters?_ok {labels : List String} {arrow : Arrow} {inputs : List Variable}
    (h : parameters? labels arrow = some inputs) :
    Stacked arrow.output.size inputs ∧ sizeOfAll inputs = arrow.input.size ∧
      inputs.map (·.name) = labels := by
  rw [← Ty.size_resolved arrow.input]
  unfold parameters? at h
  dsimp only at h
  split at h
  · rename_i hr
    cases h
    rw [hr]
    exact ⟨trivial, rfl, rfl⟩
  · cases h
  · cases h
    exact ⟨stacked_consecutive _ _, by simp [consecutive, Ty.size_resolved],
      names_consecutive _ _⟩
  · rename_i fields hr _
    split at h
    · rename_i hl
      cases h
      refine ⟨stacked_consecutive _ _, ?_, ?_⟩
      · rw [sizeOfAll_consecutive _ _ fields hl.2, hr, Ty.size]
      · rw [names_consecutive]
        exact List.map_fst_zip (by simp [hl.2])
    · cases h
  · cases h

namespace ScopeTree

variable {tree tree' : ScopeTree}

theorem bindInput_ok {placed : PlacedLiteral} (h : tree.bindInput placed = .ok tree') :
    ∃ f : Scope → Scope, tree' = tree.modify placed.literal.scope f ∧
      (tree.scope placed.literal.scope).BindsInputs (f (tree.scope placed.literal.scope)) ∧
      ∀ s vars, { f s with vars := vars } = { s with vars := vars } := by
  unfold bindInput at h
  dsimp only at h
  split at h
  · cases h
  · rename_i inputs hi
    split at h
    · cases h
    · rename_i unused
      cases h
      refine ⟨_, rfl, ⟨inputs, hi, fun input mem v hv same => ?_, rfl⟩, fun _ _ => rfl⟩
      exact List.find?_eq_none.mp unused v hv (List.any_eq_true.mpr ⟨input, mem, by simp [same]⟩)

/-- Every literal's scope binds its inputs once, and no other scope changes. -/
theorem bindInputs_ok (h : tree.bindInputs = .ok tree')
    (nodup : ((tree.literals .pre).map (·.literal.scope)).Nodup)
    (lt : ∀ p ∈ tree.literals .pre, p.literal.scope < tree.count) (id : Nat) :
    if id ∈ (tree.literals .pre).map (·.literal.scope) then
      (tree.scope id).BindsInputs (tree'.scope id)
    else tree'.scope id = tree.scope id := by
  let Inv (rest : List PlacedLiteral) (t : ScopeTree) : Prop :=
    t.count = tree.count ∧ (∀ p ∈ rest, p.literal.scope < tree.count) ∧
      (rest.map (·.literal.scope)).Nodup ∧
      (id ∈ rest.map (·.literal.scope) → id ∈ (tree.literals .pre).map (·.literal.scope)) ∧
      if id ∈ rest.map (·.literal.scope) then t.scope id = tree.scope id
      else if id ∈ (tree.literals .pre).map (·.literal.scope) then
        (tree.scope id).BindsInputs (t.scope id)
      else t.scope id = tree.scope id
  have last : Inv [] tree' := by
    refine foldlM_along Inv h ⟨rfl, lt, nodup, fun hm => hm, ?_⟩ ?_
    · split
      · rfl
      · rfl
    · rintro p rest t t' ⟨count, small, distinct, sub, here⟩ hb
      obtain ⟨f, rfl, binds, -⟩ := bindInput_ok hb
      rw [List.map_cons] at distinct
      obtain ⟨fresh, distinct⟩ := List.nodup_cons.mp distinct
      refine ⟨by rw [count_modify, count], fun q hq => small q (by simp [hq]), distinct,
        fun hm => sub (by simp at hm ⊢; exact .inr hm), ?_⟩
      by_cases eq : id = p.literal.scope
      · subst eq
        rw [if_pos (by simp)] at here
        rw [if_neg fresh, if_pos (sub (by simp)), scope_modify_same t _ f (by
          rw [count]; exact small p (by simp)), ← here]
        exact binds
      · rw [scope_modify_other t _ id f eq]
        have iff : id ∈ (p :: rest).map (·.literal.scope) ↔ id ∈ rest.map (·.literal.scope) := by
          rw [List.map_cons, List.mem_cons]
          exact or_iff_right eq
        simpa only [iff] using here
  exact last.2.2.2.2

end ScopeTree

/-! ## All passes -/

/-- What the forest of scopes depends on. -/
def Scope.shape (s : Scope) : List Expr × Option ScopeId × List String := (s.body, s.parent, s.labels)

namespace ScopeTree

variable {tree tree' : ScopeTree}

theorem body_of_shape {id : Nat} (h : (tree'.scope id).shape = (tree.scope id).shape) :
    (tree'.scope id).body = (tree.scope id).body := congrArg Prod.fst h

theorem parent_of_shape {id : Nat} (h : (tree'.scope id).shape = (tree.scope id).shape) :
    (tree'.scope id).parent = (tree.scope id).parent := congrArg (·.2.1) h

theorem labels_of_shape {id : Nat} (h : (tree'.scope id).shape = (tree.scope id).shape) :
    (tree'.scope id).labels = (tree.scope id).labels := congrArg (·.2.2) h

theorem Numbered.congr {ids : List Nat} (h : tree.Numbered ids) (count : tree'.count = tree.count)
    (shape : ∀ id : Nat, (tree'.scope id).shape = (tree.scope id).shape) : tree'.Numbered ids := by
  have children (id : Nat) : tree'.children id = tree.children id :=
    children_congr (body_of_shape (shape id))
  refine ⟨?_, by rw [count]; exact h.perm, ?_, ?_, ?_, ?_, ?_⟩
  · rw [children]
    exact h.below.congr fun id _ => children id
  · exact (parent_of_shape (shape rootId)).trans h.root
  · intro id lt child hc
    rw [parent_of_shape (shape child)]
    exact h.parents id (count ▸ lt) child (children id ▸ hc)
  · intro id lt l hl
    rw [body_of_shape (shape id)] at hl
    exact h.numbers id (count ▸ lt) l hl
  · intro id e he
    rw [body_of_shape (shape id)] at he
    exact h.plain id e he
  · exact (labels_of_shape (shape rootId)).trans h.labels

theorem bodyNodesAt_congr (body : ∀ id : Nat, (tree'.scope id).body = (tree.scope id).body)
    (order : Order) (levels : Nat) :
    tree'.bodyNodesAt order levels = tree.bodyNodesAt order levels := by
  induction levels with
  | zero => rfl
  | succ levels ih =>
    funext id
    rw [bodyNodesAt, bodyNodesAt, ih, body id]

theorem literals_congr (count : tree'.count = tree.count)
    (shape : ∀ id : Nat, (tree'.scope id).shape = (tree.scope id).shape) (order : Order) :
    tree'.literals order = tree.literals order := by
  rw [literals, literals, nodes, nodes, count,
    bodyNodesAt_congr fun id => body_of_shape (shape id)]

/-- A tree whose parameters are bound and in which nothing is captured yet. -/
structure Ready (tree : ScopeTree) (ids : List Nat) : Prop where
  numbered : tree.Numbered ids
  functions : tree.functions.map (fun f => (f.id, f.scope)) =
    (tree.literals .post).map fun p => (p.literal.id, p.literal.scope)
  root : Stacked 0 tree.root.vars
  vars : ∀ id ∈ ids, Stacked (tree.scope id).arrow.output.size (tree.scope id).vars
  inputs : ∀ id ∈ ids, ∃ inputs rest,
    parameters? (tree.scope id).labels (tree.scope id).arrow = some inputs ∧
      (tree.scope id).vars = inputs ++ rest
  closure : ∀ id : Nat, (tree.scope id).closure = []
  unset : tree.root.arrow = .unset

/-- The labels of a literal are names of its variables. -/
theorem Ready.labels {ids : List Nat} (h : tree.Ready ids) {id : Nat} (hm : id ∈ ids) :
    ∀ label ∈ (tree.scope id).labels, ∃ v ∈ (tree.scope id).vars, v.name = label := by
  intro label hl
  obtain ⟨inputs, rest, parameters, vars⟩ := h.inputs id hm
  rw [← (parameters?_ok parameters).2.2] at hl
  obtain ⟨v, hv, rfl⟩ := List.mem_map.mp hl
  exact ⟨v, by simp [vars, hv], rfl⟩

theorem stacked_declareVariables (h : tree.declareVariables = .ok tree')
    (empty : ∀ id : Nat, (tree.scope id).vars = []) (id : Nat) : Stacked 0 (tree'.scope id).vars := by
  let Inv (t : ScopeTree) : Prop := ∀ id : Nat, Stacked 0 (t.scope id).vars
  refine foldlM_keeps Inv h ?_ (fun t scope t' inv ht => ?_) id
  · intro id
    rw [empty id]
    trivial
  · refine foldlM_keeps Inv ht inv fun u decl u' inv hu => ?_
    obtain ⟨ty, -, rfl⟩ := declareVariable_ok hu
    intro other
    rw [scope_modify]
    split
    · exact (stacked_append _ _ _).mpr ⟨inv other, by simp [Stacked]⟩
    · exact inv other

theorem stacked_of_bindsInputs {before after : Scope} (h : before.BindsInputs after)
    (hv : Stacked 0 before.vars) : Stacked after.arrow.output.size after.vars ∧
      ∃ inputs rest, parameters? after.labels after.arrow = some inputs ∧
        after.vars = inputs ++ rest := by
  obtain ⟨inputs, hi, -, rfl⟩ := h
  obtain ⟨stacked, size, -⟩ := parameters?_ok hi
  refine ⟨(stacked_append _ _ _).mpr ⟨stacked, ?_⟩, inputs, _, hi, rfl⟩
  have moved := hv.shift (before.arrow.output.size + before.arrow.input.size)
  rw [Nat.zero_add, ← size] at moved
  rw [← size]
  exact moved

theorem Numbered.mem_ids {ids : List Nat} (h : tree.Numbered ids) (id : Nat) :
    id ∈ ids ↔ id < tree.count ∧ id ≠ rootId := by
  have mem := h.perm.mem_iff (a := id)
  rw [List.mem_cons, List.mem_range] at mem
  have fresh := (List.nodup_cons.mp (h.perm.nodup_iff.mpr List.nodup_range)).1
  constructor
  · intro hm
    exact ⟨mem.mp (.inr hm), fun eq => fresh (eq ▸ hm)⟩
  · rintro ⟨lt, ne⟩
    exact (mem.mpr lt).resolve_left ne

/-- Declaring the functions of a tree changes no scope. -/
theorem declareFunctions_scope (h : tree.declareFunctions = .ok tree') :
    tree'.count = tree.count ∧ ∀ id : Nat, tree'.scope id = tree.scope id := by
  have scopes := (declareFunctions_ok h).1
  exact ⟨by rw [count, count, scopes], fun id => by rw [scope, scope, scopes]⟩

/-- The arrow of a scope is not touched. -/
def KeepsArrow (id : Nat) (before after : ScopeTree) : Prop :=
  (after.scope id).arrow = (before.scope id).arrow

theorem keepsArrow_setArrow {id other : Nat} (ne : other ≠ id) (tree : ScopeTree) (arrow : Arrow) :
    KeepsArrow id tree (tree.setArrow other arrow) := by
  rw [KeepsArrow, setArrow, scope_modify_other _ _ _ _ ne.symm]

theorem keepsArrow_fillArrow {id other : Nat} (ne : other ≠ id) (tree : ScopeTree) (arrow : Arrow) :
    KeepsArrow id tree (tree.fillArrow other arrow) := by
  unfold fillArrow
  split
  · exact keepsArrow_setArrow ne tree arrow
  · rfl

mutual

/-- The scopes of the literals in a value that an expected type reaches. -/
def offered : Expr → List ScopeId
  | .function literal _ => [literal.scope]
  | .tuple values _ => offeredFields values
  | _ => []

def offeredFields : List (Labelled Expr) → List ScopeId
  | [] => []
  | ⟨_, value⟩ :: rest => offered value ++ offeredFields rest

end

mutual

theorem offered_literals {id : Nat} : ∀ e : Expr, id ∈ offered e → ∃ l ∈ e.literals, l.scope = id
  | .function literal span, h => by
    rw [offered, List.mem_singleton] at h
    exact ⟨literal, by simp [Expr.literals], h.symm⟩
  | .tuple values span, h => by
    rw [offered] at h
    rw [Expr.literals]
    exact offeredFields_literals values h
  | .int .., h | .hex .., h | .float .., h | .text .., h | .name .., h | .typeDecl .., h
  | .varDecl .., h | .binary .., h | .unary .., h => by cases h

theorem offeredFields_literals {id : Nat} : ∀ values : List (Labelled Expr), id ∈ offeredFields values →
    ∃ l ∈ Expr.literalsOfFields values, l.scope = id
  | [], h => by cases h
  | ⟨_, value⟩ :: rest, h => by
    rw [offeredFields, List.mem_append] at h
    rw [Expr.literalsOfFields]
    rcases h with h | h
    · obtain ⟨l, mem, eq⟩ := offered_literals value h
      exact ⟨l, List.mem_append_left _ mem, eq⟩
    · obtain ⟨l, mem, eq⟩ := offeredFields_literals rest h
      exact ⟨l, List.mem_append_right _ mem, eq⟩

end

theorem keepsArrow_expectTypes {id : Nat} {values : List (Labelled Expr)}
    (inner : ∀ value ∈ values, ∀ ty tree, id ∉ offered value.value →
      KeepsArrow id tree (expectType value.value ty tree))
    (types : List Ty) (tree : ScopeTree) (h : id ∉ offeredFields values) :
    KeepsArrow id tree (expectTypes values types tree) := by
  induction values generalizing types tree with
  | nil =>
    rw [expectTypes]
    · rfl
    · simp
  | cons value values ih =>
    cases types with
    | nil =>
      rw [expectTypes]
      · rfl
      · simp
    | cons ty types =>
      rw [offeredFields, List.mem_append, not_or] at h
      rw [expectTypes]
      exact (ih (fun other mem => inner other (by simp [mem])) types _ h.2).trans
        (inner value (by simp) ty tree h.1)

theorem keepsArrow_expectType {id : Nat} (e : Expr) (expected : Ty) (tree : ScopeTree)
    (h : id ∉ offered e) : KeepsArrow id tree (expectType e expected tree) := by
  induction e using Expr.of_forms generalizing expected tree with
  | parens value span inner =>
    rw [offered] at h
    rw [expectType]
    exact inner expected tree fun mem => h (by simp [offeredFields, mem])
  | tuple values span several inner =>
    rw [offered] at h
    rw [expectType]
    · split
      · split
        · exact keepsArrow_expectTypes inner _ tree h
        · rfl
      · split
        · exact keepsArrow_expectTypes inner _ tree h
        · rfl
      · rfl
    · exact several
  | function literal span =>
    rw [offered, List.mem_singleton] at h
    rw [expectType]
    split
    · exact keepsArrow_fillArrow (Ne.symm h) tree _
    · rfl
  | int | hex | float | text | name | typeDecl | varDecl | unary | binary | choose | unpaired =>
    rw [expectType]
    · rfl
    all_goals simp

theorem tailLiteral?_offered {body : List Expr} {l : FunctionLiteral} (h : tailLiteral? body = some l) :
    ∃ last, body.getLast? = some last ∧ l.scope ∈ offered last := by
  obtain ⟨last, found, h⟩ := Option.bind_eq_some_iff.mp h
  refine ⟨last, found, ?_⟩
  clear found
  fun_induction Expr.unwrapped last with
  | case1 value span ih => simpa [offered, offeredFields] using ih h
  | case2 e =>
    cases e with
    | function literal span =>
      cases h
      simp [offered]
    | _ => cases h

/-- The scopes that passing types on from a node may give an arrow. -/
def passedTo (tree : ScopeTree) : Expr → List ScopeId
  | .varDecl _ _ value _ => offered value
  | .binary .choose .. => []
  | .binary _ _ rhs _ => offered rhs
  | .function literal _ => ((tree.scope literal.scope).body.getLast?.map offered).getD []
  | _ => []

theorem passedTo_literals {e : Expr} {id : Nat} (h : id ∈ tree.passedTo e) :
    (∃ l ∈ e.literals, l.scope = id) ∨
      ∃ other : Nat, ∃ l ∈ literalsOf (tree.scope other).body, l.scope = id := by
  unfold passedTo at h
  split at h
  · exact .inl (by simpa [Expr.literals] using offered_literals _ h)
  · cases h
  · obtain ⟨l, mem, eq⟩ := offered_literals _ h
    exact .inl ⟨l, by simp [Expr.literals, mem], eq⟩
  · rename_i literal span
    cases found : (tree.scope literal.scope).body.getLast? with
    | none =>
      rw [found] at h
      cases h
    | some last =>
      rw [found] at h
      obtain ⟨l, mem, eq⟩ := offered_literals last h
      exact .inr ⟨literal.scope, l, List.mem_flatMap.mpr ⟨last, List.mem_of_getLast? found, mem⟩, eq⟩
  · cases h

/-- Passing types on keeps the arrows of all other scopes. -/
theorem keepsArrow_passTypes {id : Nat} {node : ScopeId × Expr} (apart : id ∉ tree.passedTo node.2)
    (h : tree.passTypes node = .ok tree') : KeepsArrow id tree tree' := by
  obtain ⟨outer, e⟩ := node
  unfold passTypes at h
  dsimp only at h apart
  split at h
  · rw [passedTo] at apart
    split at h
    · cases h
      rfl
    · split at h
      · cases h
      · cases h
        exact keepsArrow_expectType _ _ tree apart
  · rw [passedTo] at apart
    · split at h
      · cases h
        exact keepsArrow_expectType _ _ tree apart
      · cases h
        rfl
    · simp
  · rename_i op lhs rhs span _
    split at h
    · rename_i call
      rw [passedTo] at apart
      · split at h
        · cases h
          exact keepsArrow_expectType _ _ tree apart
        · cases h
          rfl
      · rintro rfl
        cases call
    · cases h
      rfl
  · split at h
    · rename_i tail
      obtain ⟨last, found, reached⟩ := tailLiteral?_offered tail
      rw [passedTo, found] at apart
      cases h
      exact keepsArrow_fillArrow (by rintro rfl; exact apart reached) tree _
    · cases h
      rfl
  · cases h
    rfl

theorem keepsArrow_composeArrow {id : Nat} {placed : PlacedLiteral} (ne : placed.literal.scope ≠ id)
    (h : tree.composeArrow placed = .ok tree') : KeepsArrow id tree tree' := by
  unfold composeArrow at h
  dsimp only at h
  split at h
  · cases h
    rfl
  · split at h
    · obtain ⟨f, -, h⟩ := except_bind_ok h
      obtain ⟨g, -, h⟩ := except_bind_ok h
      cases h
      exact keepsArrow_setArrow ne tree _
    · cases h

theorem keepsArrow_armArrow {id : Nat} {placed : PlacedLiteral} (ne : placed.literal.scope ≠ id)
    (h : tree.armArrow placed = .ok tree') : KeepsArrow id tree tree' := by
  unfold armArrow at h
  dsimp only at h
  split at h
  · cases h
    rfl
  · split at h
    · obtain ⟨output, -, h⟩ := except_bind_ok h
      cases h
      exact keepsArrow_setArrow ne tree _
    · cases h
      exact keepsArrow_setArrow ne tree _

/-- The program is the body of no literal. -/
theorem Numbered.ne_root {ids : List Nat} (h : tree.Numbered ids) (id : Nat) :
    ∀ l ∈ literalsOf (tree.scope id).body, l.scope ≠ rootId := by
  intro l hl eq
  have lt : id < tree.count := by
    apply Decidable.byContradiction
    intro large
    rw [scope_of_count_le tree (Nat.le_of_not_lt large)] at hl
    cases hl
  have parent := h.parents id lt l.scope (List.mem_map_of_mem hl)
  have orphan := h.root
  rw [ScopeTree.root, ← eq, parent] at orphan
  cases orphan

theorem passedTo_congr (body : ∀ id : Nat, (tree'.scope id).body = (tree.scope id).body) (e : Expr) :
    tree'.passedTo e = tree.passedTo e := by
  cases e with
  | function literal span => rw [passedTo, passedTo, body]
  | binary op => cases op <;> rfl
  | _ => rfl

/-- Passing types on from all nodes keeps the arrows of scopes that none of them gives one. -/
theorem keepsArrow_nodes {id : Nat} {nodes : List (ScopeId × Expr)}
    (apart : ∀ n ∈ nodes, id ∉ tree.passedTo n.2) (h : nodes.foldlM passTypes tree = .ok tree') :
    KeepsArrow id tree tree' := by
  let Inv (rest : List (ScopeId × Expr)) (t : ScopeTree) : Prop :=
    (∀ n ∈ rest, n ∈ nodes) ∧ Same (·.body) tree t ∧ KeepsArrow id tree t
  refine (foldlM_along Inv h ⟨fun _ hn => hn, same_refl tree, rfl⟩ ?_).2.2
  rintro node rest t t' ⟨inside, same, kept⟩ ht
  have here : id ∉ t.passedTo node.2 := by
    rw [passedTo_congr same.scopes]
    exact apart node (inside node List.mem_cons_self)
  exact ⟨fun n hn => inside n (List.mem_cons_of_mem _ hn),
    same.trans (same_passTypes (fun _ _ => rfl) ht), (keepsArrow_passTypes here ht).trans kept⟩

/-- What each step of a loop over literals keeps, the loop keeps. -/
theorem keepsArrow_literals {id : Nat} {literals : List PlacedLiteral}
    {step : ScopeTree → PlacedLiteral → Except SemanticError ScopeTree}
    (keeps : ∀ p ∈ literals, ∀ t t', step t p = .ok t' → KeepsArrow id t t')
    (h : literals.foldlM step tree = .ok tree') : KeepsArrow id tree tree' := by
  let Inv (rest : List PlacedLiteral) (t : ScopeTree) : Prop :=
    (∀ p ∈ rest, p ∈ literals) ∧ KeepsArrow id tree t
  refine (foldlM_along Inv h ⟨fun _ hp => hp, rfl⟩ ?_).2
  rintro p rest t t' ⟨inside, kept⟩ ht
  exact ⟨fun q hq => inside q (List.mem_cons_of_mem _ hq),
    (keeps p (inside p List.mem_cons_self) t t' ht).trans kept⟩

/-- Finding arrows gives the program none. -/
theorem Numbered.root_arrow {ids : List Nat} (h : tree.Numbered ids)
    (hi : tree.inferArrows = .ok tree') : tree'.root.arrow = tree.root.arrow := by
  unfold ScopeTree.inferArrows at hi
  obtain ⟨passed, h₁, hi⟩ := except_bind_ok hi
  obtain ⟨composed, h₂, h₃⟩ := except_bind_ok hi
  have passed_body : Same (·.body) tree passed :=
    same_foldlM h₁ fun _ _ _ => same_passTypes fun _ _ => rfl
  have composed_body : Same (·.body) passed composed :=
    same_foldlM h₂ fun _ _ _ => same_composeArrow fun _ _ => rfl
  have passed_ne (id : Nat) : ∀ l ∈ literalsOf (passed.scope id).body, l.scope ≠ rootId := by
    rw [passed_body.scopes id]
    exact h.ne_root id
  have composed_ne (id : Nat) : ∀ l ∈ literalsOf (composed.scope id).body, l.scope ≠ rootId := by
    rw [composed_body.scopes id]
    exact passed_ne id
  have first : KeepsArrow rootId tree passed := by
    refine keepsArrow_nodes (fun n hn reached => ?_) h₁
    rcases passedTo_literals reached with ⟨l, hl, eq⟩ | ⟨other, l, hl, eq⟩
    · exact literals_nodes h.ne_root n hn l hl eq
    · exact h.ne_root other l hl eq
  have second : KeepsArrow rootId passed composed := keepsArrow_literals
    (fun p hp _ _ => keepsArrow_composeArrow (forall_literals passed_ne p hp)) h₂
  have third : KeepsArrow rootId composed tree' := keepsArrow_literals
    (fun p hp _ _ => keepsArrow_armArrow (forall_literals composed_ne p hp)) h₃
  exact (third.trans second).trans first

/-- A tree whose arrows are known, as its parameters find it. -/
structure Inferred (tree : ScopeTree) (ids : List Nat) : Prop where
  numbered : tree.Numbered ids
  functions : tree.functions.map (fun f => (f.id, f.scope)) =
    (tree.literals .post).map fun p => (p.literal.id, p.literal.scope)
  vars : ∀ id : Nat, Stacked 0 (tree.scope id).vars
  closure : ∀ id : Nat, (tree.scope id).closure = []
  unset : tree.root.arrow = .unset

theorem Numbered.inferArrows {ids : List Nat} {numbered typed declared listed inferred : ScopeTree}
    (h : numbered.Numbered ids) (undeclared : numbered.Undeclared)
    (h₁ : numbered.declareTypes = .ok typed) (h₂ : typed.declareVariables = .ok declared)
    (h₃ : declared.declareFunctions = .ok listed) (h₄ : listed.inferArrows = .ok inferred) :
    inferred.Inferred ids := by
  obtain ⟨listed_count, listed_scope⟩ := declareFunctions_scope h₃
  have typed_shape : Same Scope.shape numbered typed := same_declareTypes (fun _ _ => rfl) h₁
  have typed_vars : Same (·.vars) numbered typed := same_declareTypes (fun _ _ => rfl) h₁
  have typed_closure : Same (·.closure) numbered typed := same_declareTypes (fun _ _ => rfl) h₁
  have declared_shape : Same Scope.shape typed declared := same_declareVariables (fun _ _ => rfl) h₂
  have declared_closure : Same (·.closure) typed declared :=
    same_declareVariables (fun _ _ => rfl) h₂
  have inferred_shape : Same Scope.shape listed inferred := same_inferArrows (fun _ _ => rfl) h₄
  have inferred_vars : Same (·.vars) listed inferred := same_inferArrows (fun _ _ => rfl) h₄
  have inferred_closure : Same (·.closure) listed inferred := same_inferArrows (fun _ _ => rfl) h₄
  have stacked := stacked_declareVariables h₂ fun id =>
    (typed_vars.scopes id).trans (undeclared id).2.1
  have count : inferred.count = declared.count := by rw [inferred_shape.count, listed_count]
  have shape (id : Nat) : (inferred.scope id).shape = (declared.scope id).shape := by
    rw [inferred_shape.scopes id, listed_scope]
  have listed_numbered : listed.Numbered ids := by
    refine h.congr ?_ fun id => ?_
    · rw [listed_count, declared_shape.count, typed_shape.count]
    · rw [listed_scope, declared_shape.scopes id, typed_shape.scopes id]
  refine ⟨listed_numbered.congr inferred_shape.count inferred_shape.scopes, ?_, ?_, ?_, ?_⟩
  · rw [inferred_shape.functions, literals_congr count shape]
    exact (declareFunctions_ok h₃).2
  · intro id
    have eq : (inferred.scope id).vars = (declared.scope id).vars := by
      rw [← listed_scope]
      exact inferred_vars.scopes id
    rw [eq]
    exact stacked id
  · intro id
    have eq : (inferred.scope id).closure = (declared.scope id).closure := by
      rw [← listed_scope]
      exact inferred_closure.scopes id
    rw [eq]
    exact ((declared_closure.scopes id).trans (typed_closure.scopes id)).trans (undeclared id).2.2
  · have typed_arrow : Same (·.arrow) numbered typed := same_declareTypes (fun _ _ => rfl) h₁
    have declared_arrow : Same (·.arrow) typed declared :=
      same_declareVariables (fun _ _ => rfl) h₂
    rw [listed_numbered.root_arrow h₄, ScopeTree.root, listed_scope]
    exact ((declared_arrow.scopes rootId).trans (typed_arrow.scopes rootId)).trans
      (undeclared rootId).1

theorem same_bindInputs {β : Type} {view : Scope → β}
    (hv : ∀ s vars, view { s with vars := vars } = view s) (h : tree.bindInputs = .ok tree') :
    Same view tree tree' := by
  refine same_foldlM h fun t p t' ht => ?_
  obtain ⟨f, rfl, -, same⟩ := bindInput_ok ht
  refine same_modify t _ fun s => ?_
  rw [← hv (f s) [], same, hv]

theorem Inferred.bindInputs {ids : List Nat} (h : tree.Inferred ids)
    (hb : tree.bindInputs = .ok tree') : tree'.Ready ids := by
  have listing := listing_literals .pre h.numbered.below h.numbered.perm
  have nodup := (List.nodup_cons.mp (h.numbered.perm.nodup_iff.mpr List.nodup_range)).2
  have mem (id : Nat) : id ∈ (tree.literals .pre).map (·.literal.scope) ↔ id ∈ ids :=
    listing.perm.mem_iff
  have bound (id : Nat) := bindInputs_ok hb (listing.perm.nodup_iff.mpr nodup)
    (fun p hp => ((h.numbered.mem_ids _).mp ((mem _).mp (List.mem_map_of_mem hp))).1) id
  have shape : Same Scope.shape tree tree' := same_bindInputs (fun _ _ => rfl) hb
  have closure : Same (·.closure) tree tree' := same_bindInputs (fun _ _ => rfl) hb
  have binds (id : Nat) (hm : id ∈ ids) := by
    have here := bound id
    rw [if_pos ((mem id).mpr hm)] at here
    exact stacked_of_bindsInputs here (h.vars id)
  have arrow : Same (·.arrow) tree tree' := same_bindInputs (fun _ _ => rfl) hb
  refine ⟨h.numbered.congr shape.count shape.scopes, ?_, ?_, fun id hm => (binds id hm).1,
    fun id hm => (binds id hm).2, fun id => (closure.scopes id).trans (h.closure id),
    (arrow.scopes rootId).trans h.unset⟩
  · rw [shape.functions, literals_congr shape.count shape.scopes]
    exact h.functions
  · have here := bound rootId
    rw [if_neg fun hm => ((h.numbered.mem_ids _).mp ((mem _).mp hm)).2 rfl] at here
    rw [ScopeTree.root, here]
    exact h.vars rootId

/-- Resolving succeeds when its passes do, each on what the one before it left. -/
theorem resolve_ok_iff {parsed : ScopeTree} : parsed.resolve = .ok tree ↔
    ∃ plain typed declared listed inferred bound : ScopeTree,
      parsed.desugar = .ok plain ∧ plain.number.declareTypes = .ok typed ∧
      typed.declareVariables = .ok declared ∧ declared.declareFunctions = .ok listed ∧
      listed.inferArrows = .ok inferred ∧ inferred.bindInputs = .ok bound ∧ bound.capture = tree := by
  constructor
  · intro h
    unfold resolve at h
    obtain ⟨plain, h₁, h⟩ := except_bind_ok h
    obtain ⟨typed, h₂, h⟩ := except_bind_ok h
    obtain ⟨declared, h₃, h⟩ := except_bind_ok h
    obtain ⟨listed, h₄, h⟩ := except_bind_ok h
    obtain ⟨inferred, h₅, h⟩ := except_bind_ok h
    obtain ⟨bound, h₆, h⟩ := except_bind_ok h
    cases h
    exact ⟨plain, typed, declared, listed, inferred, bound, h₁, h₂, h₃, h₄, h₅, h₆, rfl⟩
  · rintro ⟨plain, typed, declared, listed, inferred, bound, h₁, h₂, h₃, h₄, h₅, h₆, rfl⟩
    simp only [resolve, h₁, h₂, h₃, h₄, h₅, h₆, bind, Except.bind]

/-- A resolved program is one whose parameters were bound, with its captures. -/
theorem Read.resolve {parsed : ScopeTree} (h : parsed.Read) (hr : parsed.resolve = .ok tree) :
    ∃ (bound : ScopeTree) (ids : List Nat), bound.Ready ids ∧ tree = bound.capture := by
  obtain ⟨plain, typed, declared, listed, inferred, bound, h₁, h₂, h₃, h₄, h₅, h₆, rfl⟩ :=
    resolve_ok_iff.mp hr
  obtain ⟨⟨ids, numbered⟩, undeclared⟩ := (h.desugar h₁).number
  exact ⟨bound, ids, (numbered.inferArrows undeclared h₂ h₃ h₄ h₅).bindInputs h₆, rfl⟩

/-- Whatever is captured lies in the closure bank. -/
theorem bank_capture (closure : ∀ id : Nat, (tree.scope id).closure = []) (id : Nat) :
    ∀ v ∈ (tree.capture.scope id).closure, v.bank = .closure := by
  let Inv (t : ScopeTree) : Prop := ∀ id : Nat, ∀ v ∈ (t.scope id).closure, v.bank = .closure
  have name (outer inner : Nat) (t : ScopeTree) (n : String) (inv : Inv t) :
      Inv (captureName outer inner t n) := by
    unfold captureName
    split
    · exact inv
    · split
      · exact inv
      · intro other v hv
        rw [scope_modify] at hv
        split at hv
        · rcases List.mem_append.mp hv with hv | hv
          · exact inv other v hv
          · rw [List.mem_singleton.mp hv]
        · exact inv other v hv
  have literal (t : ScopeTree) (p : PlacedLiteral) (inv : Inv t) : Inv (t.captureLiteral p) :=
    List.foldlRecOn _ _ inv fun u hu n _ => name _ _ u n hu
  have all : Inv tree.capture :=
    List.foldlRecOn _ _ (fun id v hv => by simp [closure id] at hv) fun t ht p _ => literal t p ht
  exact all id

theorem bank_of_stacked {vars : List Variable} {start : Nat} (h : Stacked start vars) :
    ∀ v ∈ vars, v.bank = .window := by
  induction vars generalizing start with
  | nil => simp
  | cons first rest ih =>
    intro v hv
    rcases List.mem_cons.mp hv with rfl | hv
    · exact h.2.1
    · exact ih h.2.2 v hv

theorem inside_of_stacked {vars : List Variable} {start : Nat} (h : Stacked start vars) :
    ∀ v ∈ vars, v.offset + v.ty.size ≤ start + sizeOfAll vars := by
  induction vars generalizing start with
  | nil => simp
  | cons first rest ih =>
    intro v hv
    rw [sizeOfAll_cons]
    rcases List.mem_cons.mp hv with rfl | hv
    · have offset := h.1
      omega
    · have later := ih h.2.2 v hv
      omega

/-- The variables of every scope lie one behind the other in its registers. -/
theorem Ready.stacked {ids : List Nat} (h : tree.Ready ids) (id : Nat) :
    ∃ start, Stacked start (tree.capture.scope id).vars ∧
      start + sizeOfAll (tree.capture.scope id).vars ≤ (tree.capture.scope id).size := by
  have vars : Same (·.vars) tree tree.capture := same_capture (fun _ _ => rfl) tree
  have arrow : Same (·.arrow) tree tree.capture := same_capture (fun _ _ => rfl) tree
  rw [Scope.size, vars.scopes id, arrow.scopes id]
  by_cases lt : id < tree.count
  · by_cases eq : id = rootId
    · rw [eq]
      exact ⟨0, h.root, by omega⟩
    · have mem := (h.numbered.mem_ids id).mpr ⟨lt, eq⟩
      exact ⟨_, h.vars id mem, by omega⟩
  · rw [scope_of_count_le tree (Nat.le_of_not_lt lt)]
    exact ⟨0, trivial, by simp [default, Scope.fresh]⟩

/-- A program as reading and resolving it yields it. -/
def Resolved (tree : ScopeTree) : Prop :=
  ∃ tokens parsed, Grammar.readProgram tokens = .ok parsed ∧ parsed.resolve = .ok tree

theorem Resolved.ready (h : tree.Resolved) :
    ∃ (bound : ScopeTree) (ids : List Nat), bound.Ready ids ∧ tree = bound.capture := by
  obtain ⟨tokens, parsed, hp, hr⟩ := h
  exact (Grammar.readProgram_read hp).resolve hr

end ScopeTree

/-- The tree of a source text. -/
theorem resolveSource_ok {source : String} {tree : ScopeTree}
    (h : resolveSource source = .ok tree) : tree.Resolved := by
  obtain ⟨parsed, hp, hr⟩ := except_bind_ok h
  obtain ⟨tokens, ht, hp⟩ := except_bind_ok hp
  split at hp
  · rename_i found hread
    cases hp
    split at hr
    · rename_i resolved hres
      cases hr
      exact ⟨tokens, parsed, hread, hres⟩
    · cases hr
  · cases hp

end WindowedClosures
