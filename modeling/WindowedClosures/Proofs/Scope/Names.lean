import WindowedClosures.Proofs.Scope.Sugar

/-!
# Names of a scope

The variables of a scope are its labels and behind them what its statements declare, in order. No name
is declared twice, and none is also a label; but two labels may have the same name.
-/

namespace WindowedClosures

/-- The names that statements declare variables with. -/
def declaredNames (body : List Expr) : List String := (varDeclarations body).map (·.1)

/-- The names of a scope's variables. -/
def Scope.names (s : Scope) : List String := s.vars.map (·.name)

@[simp] theorem declaredNames_nil : declaredNames [] = [] := rfl

/-- The names of a scope's variables with what they mean. -/
def Scope.entries (s : Scope) : List (String × Except SemanticError Ty) :=
  s.vars.map fun v => (v.name, .ok v.ty)

theorem Scope.map_entries (s : Scope) : s.entries.map (·.1) = s.names := by
  rw [entries, names, List.map_map]
  rfl

/-- What written types in a scope depend on. -/
def Scope.typing (s : Scope) : Option ScopeId × List (String × Ty) := (s.parent, s.types)

namespace ScopeTree

variable {tree tree' : ScopeTree} {id : Nat}

/-! ## What a written type means -/

/-- Written types mean the same in two trees. -/
structure SameTyping (tree tree' : ScopeTree) : Prop where
  count : tree'.count = tree.count
  scopes : ∀ id : ScopeId, (tree'.scope id).typing = (tree.scope id).typing

theorem Same.typing (h : Same Scope.typing tree tree') : SameTyping tree tree' := ⟨h.count, h.scopes⟩

theorem SameTyping.trans {first second third : ScopeTree} (h : SameTyping first second)
    (h' : SameTyping second third) : SameTyping first third :=
  ⟨h'.count.trans h.count, fun id => (h'.scopes id).trans (h.scopes id)⟩

theorem SameTyping.ancestorsFrom (same : SameTyping tree tree') (fuel : Nat) (id : ScopeId) :
    tree'.ancestorsFrom fuel id = tree.ancestorsFrom fuel id := by
  induction fuel generalizing id with
  | zero => rfl
  | succ fuel ih =>
    have parent : (tree'.scope id).parent = (tree.scope id).parent := congrArg Prod.fst (same.scopes id)
    rw [ScopeTree.ancestorsFrom, ScopeTree.ancestorsFrom, parent]
    simp only [ih]

theorem SameTyping.lookupType? (same : SameTyping tree tree') (id : ScopeId) (name : String) :
    tree'.lookupType? id name = tree.lookupType? id name := by
  have types (a : ScopeId) : (tree'.scope a).types = (tree.scope a).types :=
    congrArg Prod.snd (same.scopes a)
  simp only [ScopeTree.lookupType?, ancestors, same.count, same.ancestorsFrom, types]

mutual

theorem SameTyping.resolveType (same : SameTyping tree tree') (id : ScopeId) : ∀ type : TypeExpr,
    tree'.resolveType id type = tree.resolveType id type
  | .named name span => by
    rw [ScopeTree.resolveType, ScopeTree.resolveType, same.lookupType?]
  | .array elem count span => by
    rw [ScopeTree.resolveType, ScopeTree.resolveType, same.resolveType id elem]
  | .function input output span => by
    rw [ScopeTree.resolveType, ScopeTree.resolveType, same.resolveType id input,
      same.resolveType id output]
  | .pointer inner span => by
    rw [ScopeTree.resolveType, ScopeTree.resolveType, same.resolveType id inner]
  | .tuple fields span => by
    rw [ScopeTree.resolveType, ScopeTree.resolveType, same.resolveFields id fields]

theorem SameTyping.resolveFields (same : SameTyping tree tree') (id : ScopeId) :
    ∀ fields : List (Labelled TypeExpr), tree'.resolveFields id fields = tree.resolveFields id fields
  | [] => by rw [ScopeTree.resolveFields, ScopeTree.resolveFields]
  | ⟨label, value⟩ :: rest => by
    rw [ScopeTree.resolveFields, ScopeTree.resolveFields, same.resolveType id value,
      same.resolveFields id rest]

end

/-! ## Declared variables -/

/-- A declaration with what its type means in a tree. -/
def meaning (tree : ScopeTree) (id : ScopeId) (decl : String × TypeExpr × Span) :
    String × Except SemanticError Ty :=
  (decl.1, tree.resolveType id decl.2.1)

theorem same_declareVariables_scope {β : Type} {view : Scope → β}
    (hv : ∀ s vars, view { s with vars := vars } = view s) {decls : List (String × TypeExpr × Span)}
    (h : decls.foldlM (declareVariable id) tree = .ok tree') : Same view tree tree' := by
  refine same_foldlM h fun u decl u' hu => ?_
  obtain ⟨ty, -, rfl⟩ := declareVariable_ok hu
  exact same_modify u id fun s => hv s _

/-- A variable is declared behind the others, under a new name. -/
theorem entries_declareVariable {decl : String × TypeExpr × Span} (lt : id < tree.count)
    (h : declareVariable id tree decl = .ok tree') :
    (tree'.scope id).entries = (tree.scope id).entries ++ [tree.meaning id decl] ∧
      decl.1 ∉ (tree.scope id).names ∧ ∀ other, other ≠ id → tree'.scope other = tree.scope other := by
  obtain ⟨ty, ⟨typed, unused⟩, rfl⟩ := declareVariable_ok h
  refine ⟨?_, fun mem => ?_, fun other ne => scope_modify_other _ _ _ _ ne⟩
  · rw [scope_modify_same _ _ _ lt, meaning, typed]
    simp [Scope.entries]
  · obtain ⟨v, hv, same⟩ := List.mem_map.mp mem
    exact unused v hv same

/-- The variables of a scope are declared one behind the other. -/
theorem entries_declareVariables_scope {decls : List (String × TypeExpr × Span)} (lt : id < tree.count)
    (h : decls.foldlM (declareVariable id) tree = .ok tree') (distinct : (tree.scope id).names.Nodup) :
    (tree'.scope id).entries = (tree.scope id).entries ++ decls.map (tree.meaning id) ∧
      (tree'.scope id).names.Nodup ∧ ∀ other, other ≠ id → tree'.scope other = tree.scope other := by
  induction decls generalizing tree with
  | nil =>
    cases h
    simp [distinct]
  | cons decl rest ih =>
    rw [List.foldlM_cons] at h
    obtain ⟨first, declared, h⟩ := except_bind_ok h
    obtain ⟨here, unused, others⟩ := entries_declareVariable lt declared
    have typing : Same Scope.typing tree first := by
      obtain ⟨ty, -, rfl⟩ := declareVariable_ok declared
      exact same_modify tree id fun _ => rfl
    have meanings : first.meaning id = tree.meaning id :=
      funext fun d => congrArg (Prod.mk d.1) (typing.typing.resolveType id d.2.1)
    have longer : (first.scope id).names.Nodup := by
      rw [← Scope.map_entries, here, List.map_append, Scope.map_entries]
      refine List.nodup_append.mpr ⟨distinct, by simp, ?_⟩
      rintro name mem name' mem' rfl
      rw [List.map_singleton, List.mem_singleton] at mem'
      exact unused (mem' ▸ mem)
    obtain ⟨entries, nodup, rest_others⟩ := ih (typing.count ▸ lt) h longer
    refine ⟨?_, nodup, fun other ne => (rest_others other ne).trans (others other ne)⟩
    rw [entries, here, meanings, List.append_assoc, List.map_cons, List.singleton_append]

/-- The scopes in order are all scopes, each once. -/
theorem Numbered.scopesInOrder_perm {ids : List Nat} (h : tree.Numbered ids) :
    tree.scopesInOrder.Perm (List.range tree.count) := by
  have listing := listing_literals .pre h.below h.perm
  exact (listing.perm.cons rootId).trans h.perm

/-- Every scope's variables are what its statements declare, under different names. -/
theorem Numbered.entries_declareVariables {ids : List Nat} (numbered : tree.Numbered ids)
    (h : tree.declareVariables = .ok tree') (empty : ∀ id : Nat, (tree.scope id).vars = []) (id : Nat) :
    (tree'.scope id).entries = (varDeclarations (tree.scope id).body).map (tree.meaning id) ∧
      (tree'.scope id).names.Nodup := by
  let Inv (rest : List ScopeId) (t : ScopeTree) : Prop :=
    Same (fun s => (s.typing, s.body)) tree t ∧ rest.Nodup ∧
      (∀ i ∈ rest, i < tree.count ∧ (t.scope i).vars = []) ∧ ∀ i : Nat, i < tree.count → i ∉ rest →
        (t.scope i).entries = (varDeclarations (tree.scope i).body).map (tree.meaning i) ∧
          (t.scope i).names.Nodup
  have order := numbered.scopesInOrder_perm
  have mem (i : Nat) : i ∈ tree.scopesInOrder ↔ i < tree.count := order.mem_iff.trans List.mem_range
  obtain ⟨same, -, -, done⟩ : Inv [] tree' := by
    refine foldlM_along Inv h ⟨same_refl tree, order.nodup_iff.mpr List.nodup_range,
      fun i hi => ⟨(mem i).mp hi, empty i⟩, fun i lt away => absurd ((mem i).mpr lt) away⟩ ?_
    rintro i rest t t' ⟨same, distinct, waiting, done⟩ step
    obtain ⟨only, distinct⟩ := List.nodup_cons.mp distinct
    obtain ⟨lt, unset⟩ := waiting i List.mem_cons_self
    have bare : (t.scope i).names = [] := by rw [Scope.names, unset]; rfl
    obtain ⟨entries, nodup, others⟩ :=
      entries_declareVariables_scope (same.count ▸ lt) step (by rw [bare]; exact List.nodup_nil)
    refine ⟨same.trans (same_declareVariables_scope (fun _ _ => rfl) step), distinct, fun j hj => ?_,
      fun j small away => ?_⟩
    · rw [others j (by rintro rfl; exact only hj)]
      exact waiting j (List.mem_cons_of_mem _ hj)
    · by_cases eq : j = i
      · subst eq
        have typing : SameTyping tree t := ⟨same.count, fun id => congrArg Prod.fst (same.scopes id)⟩
        have meanings : t.meaning j = tree.meaning j :=
          funext fun d => congrArg (Prod.mk d.1) (typing.resolveType j d.2.1)
        have body : (t.scope j).body = (tree.scope j).body := congrArg Prod.snd (same.scopes j)
        rw [entries, Scope.entries, unset, body, meanings]
        exact ⟨rfl, nodup⟩
      · rw [others j eq]
        exact done j small (by simp [eq, away])
  by_cases lt : id < tree.count
  · exact done id lt (by simp)
  · rw [scope_of_count_le tree' (same.count ▸ Nat.le_of_not_lt lt),
      scope_of_count_le tree (Nat.le_of_not_lt lt)]
    exact ⟨rfl, List.nodup_nil⟩

/-- Their names are those that the statements declare. -/
theorem Numbered.names_declareVariables {ids : List Nat} (numbered : tree.Numbered ids)
    (h : tree.declareVariables = .ok tree') (empty : ∀ id : Nat, (tree.scope id).vars = []) (id : Nat) :
    (tree'.scope id).names = declaredNames (tree'.scope id).body ∧ (tree'.scope id).names.Nodup := by
  obtain ⟨entries, distinct⟩ := numbered.entries_declareVariables h empty id
  have body : Same (·.body) tree tree' := same_declareVariables (fun _ _ => rfl) h
  refine ⟨?_, distinct⟩
  rw [← Scope.map_entries, entries, List.map_map, body.scopes id]
  rfl

end ScopeTree

/-- The variables of a scope are its labels and, behind them, what its statements declare, under names
that are different from each other and from the labels. -/
structure Scope.Named (s : Scope) : Prop where
  names : s.names = s.labels ++ declaredNames s.body
  distinct : (declaredNames s.body).Nodup
  apart : ∀ label ∈ s.labels, label ∉ declaredNames s.body

/-- What a scope's names depend on. -/
def Scope.introduces (s : Scope) : List Variable × List String × List Expr := (s.vars, s.labels, s.body)

theorem Scope.introduces_eq {s t : Scope} (h : s.introduces = t.introduces) :
    s.vars = t.vars ∧ s.labels = t.labels ∧ s.body = t.body := by
  simpa [introduces] using h

theorem Scope.Named.congr {s t : Scope} (h : s.introduces = t.introduces) (named : t.Named) : s.Named := by
  obtain ⟨vars, labels, body⟩ := Scope.introduces_eq h
  refine ⟨?_, body ▸ named.distinct, labels ▸ body ▸ named.apart⟩
  rw [Scope.names, vars, labels, body]
  exact named.names

/-- So all names are different exactly when the labels are. -/
theorem Scope.Named.nodup_iff {s : Scope} (h : s.Named) : s.names.Nodup ↔ s.labels.Nodup := by
  rw [h.names, List.nodup_append]
  constructor
  · exact fun nodup => nodup.1
  · exact fun nodup => ⟨nodup, h.distinct, fun label mem name mem' same => h.apart label mem (same ▸ mem')⟩

/-- A scope without labels is named by what it declares. -/
theorem Scope.named_of_labels_nil {s : Scope} (labels : s.labels = [])
    (names : s.names = declaredNames s.body) (distinct : s.names.Nodup) : s.Named :=
  ⟨by rw [labels, names]; rfl, names ▸ distinct, by simp [labels]⟩

theorem Scope.BindsInputs.named {before after : Scope} (h : before.BindsInputs after)
    (names : before.names = declaredNames before.body) (distinct : before.names.Nodup) : after.Named := by
  obtain ⟨inputs, parameters, apart, rfl⟩ := h
  have labels := (parameters?_ok parameters).2.2
  refine ⟨?_, names ▸ distinct, fun label mem declared => ?_⟩
  · simp only [Scope.names, List.map_append, List.map_map, labels] at names ⊢
    rw [← names]
    rfl
  · change label ∈ before.labels at mem
    change label ∈ declaredNames before.body at declared
    rw [← labels] at mem
    rw [← names] at declared
    obtain ⟨input, hi, rfl⟩ := List.mem_map.mp mem
    obtain ⟨v, hv, same⟩ := List.mem_map.mp declared
    exact apart input hi v hv same.symm

namespace ScopeTree

variable {tree tree' : ScopeTree} {id : Nat}

/-- Binding puts the labels in front of what is declared. -/
theorem Numbered.named_bindInputs {ids : List Nat} (numbered : tree.Numbered ids)
    (h : tree.bindInputs = .ok tree') (names : ∀ id : Nat, (tree.scope id).names =
      declaredNames (tree.scope id).body ∧ (tree.scope id).names.Nodup) (id : Nat) :
    (tree'.scope id).Named := by
  have listing := listing_literals .pre numbered.below numbered.perm
  have mem (id : Nat) : id ∈ (tree.literals .pre).map (·.literal.scope) ↔ id ∈ ids :=
    listing.perm.mem_iff
  have bound := bindInputs_ok h (listing.perm.nodup_iff.mpr numbered.nodup)
    (fun p hp => ((numbered.mem_ids _).mp ((mem _).mp (List.mem_map_of_mem hp))).1) id
  obtain ⟨declared, distinct⟩ := names id
  split at bound
  · exact bound.named declared distinct
  · rename_i other
    rw [bound]
    refine Scope.named_of_labels_nil ?_ declared distinct
    by_cases lt : id < tree.count
    · by_cases eq : id = rootId
      · rw [eq]
        exact numbered.labels
      · exact absurd ((mem id).mpr ((numbered.mem_ids id).mpr ⟨lt, eq⟩)) other
    · rw [scope_of_count_le tree (Nat.le_of_not_lt lt)]
      rfl

end ScopeTree

/-! ## What a program declares -/

theorem declaredNames_cons (e : Expr) (es : List Expr) :
    declaredNames (e :: es) = declaredNames [e] ++ declaredNames es := by
  rw [declaredNames, varDeclarations, List.filterMap_cons]
  cases e <;> rfl

theorem declaredNames_shell (e : Expr) : declaredNames [e.shell] = declaredNames [e] := by
  cases e <;> rfl

/-- Desugaring keeps what statements declare. -/
theorem Desugared.declaredNames_eq {before after : ScopeTree} {xs ys : List Expr}
    (h : Desugared before after xs ys) : declaredNames ys = declaredNames xs := by
  induction h with
  | nil => rfl
  | @node e e' es es' _ shell _ _ _ ih =>
    rw [declaredNames_cons e', declaredNames_cons e, ih, ← declaredNames_shell e', shell,
      declaredNames_shell]
  | function _ _ _ _ ih | compose _ _ _ _ ih | choose _ _ _ _ _ ih => rw [declaredNames_cons, ih]; rfl

theorem declaredNames_unnumbered (body : List Expr) :
    declaredNames (body.map Expr.unnumbered) = declaredNames body := by
  induction body with
  | nil => rfl
  | cons e rest ih =>
    rw [List.map_cons, declaredNames_cons, ih, declaredNames_cons e]
    congr 1
    cases e <;> simp [Expr.unnumbered] <;> rfl

namespace ScopeTree

/-- Behind the numbering no pass changes what a scope has been given by the text. -/
theorem passes_keep {β : Type} (view : Scope → β) {numbered typed declared listed inferred bound : ScopeTree}
    (types : ∀ s types, view { s with types := types } = view s)
    (vars : ∀ s vars, view { s with vars := vars } = view s)
    (arrow : ∀ s arrow, view { s with arrow := arrow } = view s)
    (closure : ∀ s closure, view { s with closure := closure } = view s)
    (h₂ : numbered.declareTypes = .ok typed) (h₃ : typed.declareVariables = .ok declared)
    (h₄ : declared.declareFunctions = .ok listed) (h₅ : listed.inferArrows = .ok inferred)
    (h₆ : inferred.bindInputs = .ok bound) (id : Nat) :
    view (bound.capture.scope id) = view (numbered.scope id) := by
  rw [(same_capture closure bound).scopes, (same_bindInputs vars h₆).scopes,
    (same_inferArrows arrow h₅).scopes, (declareFunctions_scope h₄).2,
    (same_declareVariables vars h₃).scopes, (same_declareTypes types h₂).scopes]

/-- Resolving names the scopes of a program that can be read. -/
theorem Read.named {parsed tree : ScopeTree} (unread : parsed.Read) (resolves : parsed.resolve = .ok tree)
    (id : Nat) : (tree.scope id).Named := by
  obtain ⟨plain, typed, declared, listed, inferred, bound, desugars, h₂, h₃, h₄, h₅, h₆, rfl⟩ :=
    resolve_ok_iff.mp resolves
  obtain ⟨⟨ids, numbered⟩, undeclared⟩ := (unread.desugar desugars).number
  have typed_shape : Same Scope.shape plain.number typed := same_declareTypes (fun _ _ => rfl) h₂
  have typed_vars : Same (·.vars) plain.number typed := same_declareTypes (fun _ _ => rfl) h₂
  have declares (id : Nat) :=
    (numbered.congr typed_shape.count typed_shape.scopes).names_declareVariables h₃
      (fun i => (typed_vars.scopes i).trans (undeclared i).2.1) id
  have inferred_kept : Same Scope.introduces listed inferred := same_inferArrows (fun _ _ => rfl) h₅
  have captured : Same Scope.introduces bound bound.capture := same_capture (fun _ _ => rfl) bound
  refine .congr (captured.scopes id) ?_
  refine (numbered.inferArrows undeclared h₂ h₃ h₄ h₅).numbered.named_bindInputs h₆ (fun i => ?_) id
  obtain ⟨vars, -, body⟩ := Scope.introduces_eq (inferred_kept.scopes i)
  rw [Scope.names, vars, body, (declareFunctions_scope h₄).2]
  exact declares i

theorem Resolved.named {tree : ScopeTree} (h : tree.Resolved) (id : Nat) : (tree.scope id).Named := by
  obtain ⟨tokens, parsed, read, resolves⟩ := h
  exact (Grammar.readProgram_read read).named resolves id

/-- In a program that is resolved, the variables of every scope are its labels and, behind them, what
its statements declare. No name is declared twice or has a label's name, so all names are different
exactly when the labels are. The labels and declarations are those of the program as it was read. -/
theorem names_of_resolved {tokens : List Token} {parsed tree : ScopeTree}
    (read : Grammar.readProgram tokens = .ok parsed) (resolves : parsed.resolve = .ok tree) :
    (∀ id : Nat, (tree.scope id).Named ∧
        ((tree.scope id).names.Nodup ↔ (tree.scope id).labels.Nodup)) ∧
      ∀ id < parsed.count, (tree.scope id).labels = (parsed.scope id).labels ∧
        declaredNames (tree.scope id).body = declaredNames (parsed.scope id).body := by
  have unread := Grammar.readProgram_read read
  have written := renumbers_resolve resolves
  obtain ⟨plain, typed, declared, listed, inferred, bound, desugars, h₂, h₃, h₄, h₅, h₆, rfl⟩ :=
    resolve_ok_iff.mp resolves
  constructor
  · exact fun id => ⟨unread.named resolves id, (unread.named resolves id).nodup_iff⟩
  · intro id lt
    obtain ⟨plain', desugars', renumbers⟩ := written
    cases desugars.symm.trans desugars'
    obtain ⟨scope, desugared⟩ := unread.desugared_scope desugars lt
    constructor
    · rw [passes_keep (·.labels) (fun _ _ => rfl) (fun _ _ => rfl) (fun _ _ => rfl)
        (fun _ _ => rfl) h₂ h₃ h₄ h₅ h₆, (unread.desugar desugars).labels_number, scope]
    · rw [← desugared.declaredNames_eq, ← declaredNames_unnumbered, renumbers.body,
        declaredNames_unnumbered]

/-- A literal with two labels and a variable. -/
theorem names_of_resolved_block : ∃ tokens parsed tree,
    readTokens "[ f: (a: int, b: int) > int = \\x, y > \x7b [ z: int = x; z + y \x7d" = .ok tokens ∧
      Grammar.readProgram tokens = .ok parsed ∧ parsed.resolve = .ok tree ∧
      (tree.scope 1).names = ["x", "y", "z"] ∧ (tree.scope 1).Named ∧ (tree.scope 1).names.Nodup := by
  have found : (do
      let tokens ← (readTokens
        "[ f: (a: int, b: int) > int = \\x, y > \x7b [ z: int = x; z + y \x7d").toOption
      let parsed ← (Grammar.readProgram tokens).toOption
      let tree ← parsed.resolve.toOption
      if (tree.scope 1).names = ["x", "y", "z"] ∧ (tree.scope 1).labels = ["x", "y"] then some ()
      else none) = some () := by decide +kernel
  obtain ⟨tokens, ht, found⟩ := Option.bind_eq_some_iff.mp found
  obtain ⟨parsed, hp, found⟩ := Option.bind_eq_some_iff.mp found
  obtain ⟨tree, hr, found⟩ := Option.bind_eq_some_iff.mp found
  split at found
  · rename_i facts
    obtain ⟨named, distinct⟩ :=
      (names_of_resolved (toOption_eq_some hp) (toOption_eq_some hr)).1 1
    exact ⟨tokens, parsed, tree, toOption_eq_some ht, toOption_eq_some hp, toOption_eq_some hr, facts.1,
      named, distinct.mpr (by rw [facts.2]; decide)⟩
  · cases found

/-- A literal that names both fields of its input alike is accepted. -/
theorem labels_repeated : ∃ tree,
    resolveSource "[ f: (a: int, b: int) > int = \\x, x > x" = .ok tree ∧
      (tree.scope 1).names = ["x", "x"] ∧ ¬(tree.scope 1).names.Nodup := by
  have found : (do
      let tree ← (resolveSource "[ f: (a: int, b: int) > int = \\x, x > x").toOption
      if (tree.scope 1).names = ["x", "x"] then some () else none) = some () := by decide +kernel
  obtain ⟨tree, hr, found⟩ := Option.bind_eq_some_iff.mp found
  split at found
  · rename_i names
    exact ⟨tree, toOption_eq_some hr, names, by rw [names]; decide⟩
  · cases found

end ScopeTree

end WindowedClosures
