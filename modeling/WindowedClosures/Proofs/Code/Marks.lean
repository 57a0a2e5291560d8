import WindowedClosures.Proofs.Code.Shapes
import WindowedClosures.Proofs.Grammar.Placement

/-!
# Where faults point

Resolving a program and making code for it blame places that nodes of the program have, those of the
types written in them included. Desugaring makes no other places than those of nodes and the least
spans over two of them.
-/

namespace WindowedClosures

/-- A fold fails only if a step fails. -/
theorem foldlM_avoids {ε α β : Type} {bad : ε → Prop} {f : β → α → Except ε β} (Inv : β → Prop)
    {items : List α} {start : β} (hs : Inv start)
    (step : ∀ b, ∀ a ∈ items, Inv b → Avoids bad (f b a) ∧ ∀ c, f b a = .ok c → Inv c) :
    Avoids bad (items.foldlM f start) := by
  induction items generalizing start with
  | nil => exact avoids_ok _
  | cons first rest ih =>
    rw [List.foldlM_cons]
    obtain ⟨here, keeps⟩ := step start first (List.mem_cons_self ..) hs
    intro e fails
    rcases except_bind_error fails with fails | ⟨middle, ran, fails⟩
    · exact here e fails
    · exact ih (keeps middle ran) (fun b a ha => step b a (List.mem_cons_of_mem _ ha)) e fails

/-- The fault blames a place that is not in the set. -/
def CompileError.Astray (p : Span → Prop) (e : CompileError) : Prop :=
  ∃ span, e.span? = some span ∧ ¬ p span

open CompileError

namespace ScopeTree

/-- All nodes of all scopes, and the types written in them, have their places in a set. -/
def Lies (p : Span → Prop) (tree : ScopeTree) : Prop :=
  ∀ id : ScopeId, ∀ e ∈ (tree.scope id).body, ∀ n ∈ e.nodes, ∀ span ∈ n.places, p span

variable {p : Span → Prop} {tree tree' : ScopeTree}

theorem Lies.same (h : tree.Lies p) (same : Same (·.body) tree tree') : tree'.Lies p := by
  intro id
  have body : (tree'.scope id).body = (tree.scope id).body := same.scopes id
  rw [body]
  exact h id

end ScopeTree

section

variable {p : Span → Prop}

theorem spares_iff {span : Span} : Spares (Astray p) span ↔ p span := by
  constructor
  · intro h
    by_contra astray
    exact h (.divisionByZero span) rfl not_false ⟨span, rfl, astray⟩
  · rintro h e eq - ⟨other, eq', astray⟩
    rw [eq] at eq'
    cases eq'
    exact astray h

theorem blames {cause : SemanticError} (h : p cause.span) : ¬ BadCause (Astray p) cause := by
  rintro ⟨other, eq, astray⟩
  cases eq
  exact astray h

/-- Faults of an expression are in place if its nodes are. -/
theorem Expr.spared_of_places {e : Expr} (h : ∀ n ∈ e.nodes, p n.span) : e.Spared (Astray p) := by
  intro n hn
  refine ⟨spares_iff.mpr (h n hn), ?_, ?_⟩
  · rintro f g span rfl
    exact blames (h _ hn)
  · rintro cond arms span rfl -
    exact blames (h arms (Expr.mem_nodes_part (by simp [Expr.parts]) hn))

theorem ScopeTree.Lies.spared {tree : ScopeTree} (h : tree.Lies p) : tree.Spared (Astray p) :=
  fun id e hm => Expr.spared_of_places fun n hn => h id e hm n hn _ (by simp [Expr.places])

end

namespace ScopeTree

variable {order : Order} {x : ScopeId × Expr}

variable {p : Span → Prop} {tree tree' : ScopeTree}

theorem Lies.node (h : tree.Lies p) (hx : x ∈ tree.nodes order) :
    ∀ n ∈ x.2.nodes, ∀ span ∈ n.places, p span := by
  obtain ⟨e, he, node⟩ := mem_nodes hx
  exact fun n hn => h x.1 e he n (Expr.nodes_trans hn e node)

theorem Lies.literal (h : tree.Lies p) {placed : PlacedLiteral} (hp : placed ∈ tree.literals order) :
    p placed.span := by
  rw [literals_eq] at hp
  obtain ⟨⟨id, e⟩, hn, eq⟩ := List.mem_filterMap.mp hp
  cases e with
  | function literal span =>
    cases eq
    exact h.node hn _ (Expr.mem_nodes_self _) _ (by simp [Expr.places, Expr.span])
  | _ => cases eq

/-! ## Resolving -/

mutual

theorem resolveType_avoids (id : ScopeId) : ∀ type : TypeExpr, (∀ t ∈ type.nodes, p t.span) →
    Avoids (BadCause (Astray p)) (tree.resolveType id type)
  | .named name span, h => by
    rw [resolveType]
    split
    · exact avoids_ok _
    · exact avoids_error (blames (h _ (TypeExpr.mem_nodes_self _)))
  | .array elem count span, h => by
    rw [resolveType]
    exact avoids_bind (resolveType_avoids id elem fun t ht => h t (by simp [TypeExpr.nodes, ht]))
      fun _ => avoids_ok _
  | .function input output span, h => by
    rw [resolveType]
    refine avoids_bind (resolveType_avoids id input fun t ht => h t (by simp [TypeExpr.nodes, ht]))
      fun _ => ?_
    exact avoids_bind (resolveType_avoids id output fun t ht => h t (by simp [TypeExpr.nodes, ht]))
      fun _ => avoids_ok _
  | .pointer inner span, h => by
    rw [resolveType]
    exact avoids_bind (resolveType_avoids id inner fun t ht => h t (by simp [TypeExpr.nodes, ht]))
      fun _ => avoids_ok _
  | .tuple fields span, h => by
    rw [resolveType]
    exact avoids_bind (resolveFields_avoids id fields fun t ht => h t (by simp [TypeExpr.nodes, ht]))
      fun _ => avoids_ok _

theorem resolveFields_avoids (id : ScopeId) : ∀ fields : List (Labelled TypeExpr),
    (∀ t ∈ TypeExpr.nodesOfFields fields, p t.span) →
      Avoids (BadCause (Astray p)) (tree.resolveFields id fields)
  | [], _ => by
    rw [resolveFields]
    exact avoids_ok _
  | ⟨label, value⟩ :: rest, h => by
    rw [resolveFields]
    refine avoids_bind (resolveType_avoids id value fun t ht =>
      h t (by simp [TypeExpr.nodesOfFields, ht])) fun _ => ?_
    exact avoids_bind (resolveFields_avoids id rest fun t ht =>
      h t (by simp [TypeExpr.nodesOfFields, ht])) fun _ => avoids_ok _

end

/-- What is declared has its place and its type among those of the statements. -/
theorem Lies.declared (h : tree.Lies p) {id : ScopeId} {name : String} {type : TypeExpr} {span : Span}
    (hm : (name, type, span) ∈ typeDeclarations (tree.scope id).body ∨
      (name, type, span) ∈ varDeclarations (tree.scope id).body) :
    p span ∧ ∀ t ∈ type.nodes, p t.span := by
  obtain ⟨e, he, place, types⟩ : ∃ e ∈ (tree.scope id).body, e.span = span ∧ e.annotations = [type] := by
    rcases hm with hm | hm
    all_goals
      obtain ⟨e, he, found⟩ := List.mem_filterMap.mp hm
      split at found
      · cases found
        exact ⟨_, he, rfl, rfl⟩
      · cases found
  have places := h id e he e e.mem_nodes_self
  simp only [Expr.places, place, types, List.flatMap_cons, List.flatMap_nil, List.append_nil,
    List.forall_mem_cons, List.forall_mem_map] at places
  exact places

theorem declareType_avoids {id : ScopeId} {name : String} {type : TypeExpr} {span : Span}
    (place : p span) (types : ∀ t ∈ type.nodes, p t.span) :
    Avoids (BadCause (Astray p)) (declareType id tree (name, type, span)) :=
  avoids_ite (avoids_error (blames place))
    (avoids_bind (resolveType_avoids id type types) fun _ => avoids_ok _)

theorem declareVariable_avoids {id : ScopeId} {name : String} {type : TypeExpr} {span : Span}
    (place : p span) (types : ∀ t ∈ type.nodes, p t.span) :
    Avoids (BadCause (Astray p)) (declareVariable id tree (name, type, span)) :=
  avoids_ite (avoids_error (blames place))
    (avoids_bind (resolveType_avoids id type types) fun _ => avoids_ok _)

theorem declareTypes_avoids (h : tree.Lies p) :
    Avoids (BadCause (Astray p)) tree.declareTypes := by
  refine foldlM_avoids (Lies p) h fun t id _ ht => ⟨?_, fun t' done => ?_⟩
  · refine foldlM_avoids (fun _ => True) trivial fun u decl hd _ => ⟨?_, fun _ _ => trivial⟩
    obtain ⟨place, types⟩ := ht.declared (.inl hd)
    exact declareType_avoids place types
  · exact ht.same (same_foldlM done fun _ _ _ => same_declareType fun _ _ => rfl)

theorem declareVariables_avoids (h : tree.Lies p) :
    Avoids (BadCause (Astray p)) tree.declareVariables := by
  refine foldlM_avoids (Lies p) h fun t id _ ht => ⟨?_, fun t' done => ?_⟩
  · refine foldlM_avoids (fun _ => True) trivial fun u decl hd _ => ⟨?_, fun _ _ => trivial⟩
    obtain ⟨place, types⟩ := ht.declared (.inr hd)
    exact declareVariable_avoids place types
  · refine ht.same (same_foldlM done fun u decl u' hu => ?_)
    obtain ⟨ty, -, rfl⟩ := declareVariable_ok hu
    exact same_modify u id fun _ => rfl

theorem declareFunctions_avoids (h : tree.Lies p) :
    Avoids (BadCause (Astray p)) tree.declareFunctions := by
  refine foldlM_avoids (fun t => t.scopes = tree.scopes) rfl fun t id _ ht => ⟨?_, fun t' done => ?_⟩
  · refine foldlM_avoids (fun _ => True) trivial fun u decl hd _ => ⟨?_, fun _ _ => trivial⟩
    obtain ⟨e, he, found⟩ := List.mem_filterMap.mp hd
    split at found
    · obtain ⟨literal, -, rfl⟩ := Option.map_eq_some_iff.mp found
      have place := h id _ (by rw [ScopeTree.scope, ht] at he; exact he) _ (Expr.mem_nodes_self _) _
        (List.mem_cons_self ..)
      unfold declareFunction
      refine avoids_ite (avoids_error (blames place)) ?_
      split
      · exact avoids_ok _
      · exact avoids_error (blames place)
    · cases found
  · refine foldlM_keeps (fun u => u.scopes = tree.scopes) done ht fun u decl u' hu step => ?_
    exact (declareFunction_ok step).1.trans hu

theorem passTypes_avoids {node : ScopeId × Expr} (h : ∀ part ∈ node.2.parts, p part.span) :
    Avoids (BadCause (Astray p)) (tree.passTypes node) := by
  unfold passTypes
  dsimp only
  split
  · split
    · exact avoids_ok _
    · rename_i name type value span eq _ v found
      refine avoids_ite (avoids_error (blames (h value ?_))) (avoids_ok _)
      rw [eq]
      simp [Expr.parts]
  · split
    · exact avoids_ok _
    · exact avoids_ok _
  · refine avoids_ite ?_ (avoids_ok _)
    split
    · exact avoids_ok _
    · exact avoids_ok _
  · split
    · exact avoids_ok _
    · exact avoids_ok _
  · exact avoids_ok _

theorem composeArrow_avoids (h : tree.Lies p) {placed : PlacedLiteral} (place : p placed.span) :
    Avoids (BadCause (Astray p)) (tree.composeArrow placed) := by
  unfold composeArrow
  refine avoids_ite (avoids_ok _) ?_
  split
  · rename_i f g argument inner outer eq
    have whole := h.spared _ _ (List.mem_of_head? eq)
    refine avoids_bind (arrowOf_avoids h.spared _ whole.left) fun _ => ?_
    exact avoids_bind (arrowOf_avoids h.spared _ whole.right.left) fun _ => avoids_ok _
  · exact avoids_error (blames place)

theorem armArrow_avoids (h : tree.Lies p) (placed : PlacedLiteral) :
    Avoids (BadCause (Astray p)) (tree.armArrow placed) := by
  unfold armArrow
  refine avoids_ite (avoids_ok _) ?_
  split
  · rename_i last eq
    exact avoids_bind (infer_avoids h.spared _ (h.spared _ _ (List.mem_of_getLast? eq)))
      fun _ => avoids_ok _
  · exact avoids_ok _

theorem inferArrows_avoids (h : tree.Lies p) : Avoids (BadCause (Astray p)) tree.inferArrows := by
  intro e fails
  unfold inferArrows at fails
  rcases except_bind_error fails with fails | ⟨passed, first, fails⟩
  · refine foldlM_avoids (fun _ => True) trivial (fun t node hn _ => ⟨?_, fun _ _ => trivial⟩) e fails
    refine passTypes_avoids fun part hp => ?_
    exact h.node hn part (Expr.mem_nodes_part hp (Expr.mem_nodes_self _)) _ (by simp [Expr.places])
  have h := h.same (same_foldlM first fun _ _ _ => same_passTypes fun _ _ => rfl)
  rcases except_bind_error fails with fails | ⟨composed, second, fails⟩
  · refine foldlM_avoids (Lies p) h (fun t placed hp ht => ⟨?_, fun _ done => ?_⟩) e fails
    · exact composeArrow_avoids ht (h.literal hp)
    · exact ht.same (same_composeArrow (fun _ _ => rfl) done)
  have h := h.same (same_foldlM second fun _ _ _ => same_composeArrow fun _ _ => rfl)
  refine foldlM_avoids (Lies p) h (fun t placed _ ht => ⟨?_, fun _ done => ?_⟩) e fails
  · exact armArrow_avoids ht placed
  · exact ht.same (same_armArrow (fun _ _ => rfl) done)

theorem bindInputs_avoids (h : tree.Lies p) : Avoids (BadCause (Astray p)) tree.bindInputs := by
  refine foldlM_avoids (fun _ => True) trivial fun t placed hp _ => ⟨?_, fun _ _ => trivial⟩
  unfold bindInput
  dsimp only
  split
  · exact avoids_error (blames (h.literal hp))
  · split
    · exact avoids_error (blames (h.literal hp))
    · exact avoids_ok _

/-! ## Desugaring -/

/-- What a node becomes has its places, or the least span over it and a part of it. -/
theorem Stems.places {m n : Expr} (closed : ClosedPlaces p) (stems : tree'.Stems m n)
    (here : ∀ span ∈ m.places, p span) (parts : ∀ part ∈ m.parts, p part.span) :
    ∀ span ∈ n.places, p span := by
  have place : p m.span := here _ (List.mem_cons_self ..)
  cases stems with
  | same _ shell => rwa [Expr.places_of_shell shell]
  | literal => exact here
  | inner =>
    rename_i f g g' argument span
    simpa [Expr.places, Expr.annotations, Expr.span] using
      closed.merge _ _ (parts g (by simp [Expr.parts])) place
  | _ => simpa [Expr.places, Expr.annotations, Expr.span] using place

theorem Lies.occurs (h : tree.Lies p) {n : Expr}
    (occurs : tree.Occurs n tree.root.body) : (∀ span ∈ n.places, p span) ∧
      ∀ part ∈ n.parts, p part.span := by
  have found : ∃ id, ∃ e ∈ (tree.scope id).body, n ∈ e.nodes := by
    rcases occurs.found with ⟨e, he, node⟩ | found
    · exact ⟨rootId, e, he, node⟩
    · exact found
  obtain ⟨id, e, he, node⟩ := found
  refine ⟨h id e he n node, fun part hp => ?_⟩
  exact h id e he part (Expr.mem_nodes_part hp node) _ (by simp [Expr.places])

theorem Lies.desugar {parsed plain : ScopeTree} (closed : ClosedPlaces p) (read : parsed.Read)
    (h : parsed.Lies p) (done : parsed.desugar = .ok plain) : plain.Lies p := by
  intro id e he n node
  obtain ⟨ids, below, perm⟩ := (read.desugar done).owns
  have occurs := (below.formed perm).occurs he node
  obtain ⟨m, found, stems⟩ := (read.desugared.1 plain done).2.stems n occurs
  obtain ⟨here, parts⟩ := h.occurs found
  exact stems.places closed here parts

theorem Lies.renumber {plain : ScopeTree} (h : plain.Lies p) (same : plain.Renumbers tree) :
    tree.Lies p := by
  intro id e he n node
  obtain ⟨e', he', n', node', eq⟩ := same.node he node
  rw [← Expr.places_unnumbered, ← eq, Expr.places_unnumbered]
  exact h id e' he' n' node'

variable {parsed : ScopeTree}

theorem Lies.resolve (closed : ClosedPlaces p) (read : parsed.Read) (h : parsed.Lies p)
    (done : parsed.resolve = .ok tree) : tree.Lies p := by
  obtain ⟨plain, desugars, renumbers⟩ := renumbers_resolve done
  exact (h.desugar closed read desugars).renumber renumbers

/-- A fault of resolving is at the place of a node, or at one that desugaring made of two. -/
theorem resolve_avoids (closed : ClosedPlaces p) (read : parsed.Read) (h : parsed.Lies p) :
    Avoids (BadCause (Astray p)) parsed.resolve := by
  intro e fails
  unfold resolve at fails
  rcases except_bind_error fails with fails | ⟨plain, h₁, fails⟩
  · obtain ⟨n, occurs, cond, arms, span, rfl, -, rfl⟩ := read.desugared.2 e fails
    exact blames ((h.occurs occurs).2 arms (by simp [Expr.parts]))
  have h := (h.desugar closed read h₁).renumber (renumbers_number plain)
  rcases except_bind_error fails with fails | ⟨typed, h₂, fails⟩
  · exact declareTypes_avoids h e fails
  have h := h.same (same_declareTypes (fun _ _ => rfl) h₂)
  rcases except_bind_error fails with fails | ⟨declared, h₃, fails⟩
  · exact declareVariables_avoids h e fails
  have h := h.same (same_declareVariables (fun _ _ => rfl) h₃)
  rcases except_bind_error fails with fails | ⟨listed, h₄, fails⟩
  · exact declareFunctions_avoids h e fails
  have h : listed.Lies p := fun id => by
    rw [(declareFunctions_scope h₄).2]
    exact h id
  rcases except_bind_error fails with fails | ⟨inferred, h₅, fails⟩
  · exact inferArrows_avoids h e fails
  have h := h.same (same_inferArrows (fun _ _ => rfl) h₅)
  rcases except_bind_error fails with fails | ⟨bound, h₆, fails⟩
  · exact bindInputs_avoids h e fails
  · cases fails

/-- A fault of making code is at the place of a node, or has none, or is at the start of the text. -/
theorem Lies.compile_avoids (h : tree.Lies p) (zero : p .zero) : Avoids (Astray p) tree.compile := by
  have placeless (e : CompileError) (none : e.span? = .none) : ¬ e.Astray p := by
    rintro ⟨span, some, -⟩
    rw [none] at some
    cases some
  refine WindowedClosures.compile_avoids placeless (fun id => scopeCode_avoids placeless ?_) ?_
  · refine (clean_body placeless h.spared fun _ _ _ place _ => ?_).never
    exact blames (spares_iff.mp place)
  · exact fun _ _ _ _ _ _ _ => .inr (blames zero)

end ScopeTree

/-! ## Spans of a source text -/

theorem Span.Between.within {span : Span} {source : String} {low high : Nat}
    (h : span.Between (IsBoundary source) low high) : span.Within source :=
  .of_boundaries h.ordered h.start h.stop

theorem isBoundary_zero (source : String) : IsBoundary source 0 :=
  isBoundary_byteLength (List.nil_append _).symm

theorem closedPlaces_within (source : String) : ClosedPlaces (Span.Within · source) where
  zero := .of_boundaries (Nat.le_refl _) (isBoundary_zero source) (isBoundary_zero source)
  merge a b ha hb := by
    have whole {span : Span} (h : span.Within source) :
        span.Between (IsBoundary source) 0 source.utf8ByteSize :=
      ⟨Nat.zero_le _, h.ordered, h.inside, h.start, h.stop⟩
    exact ((whole ha).merge (whole hb)).within
  stop a ha := .of_boundaries (Nat.le_refl _) ha.stop ha.stop

theorem tokenize_fault {source : String} {e : LexError} (h : tokenize source = .error e) :
    e.span.Within source := by
  rcases except_bind_error h with h | ⟨flat, scanned, h⟩
  · exact (scanFrom_fault 0 1 0 none source.toList h).within
  · have scans := scan_eq_ok_iff.mp scanned
    have row := row_of_source scans
    have leaves : LeafSpansAll (Span.Within · source) flat := by
      refine leafSpansAll_iff.mpr fun t ht => ?_
      have place := (row.between_of_mem ht).within
      have leaf := isLeaf_of_scans scans t ht
      cases t with
      | leaf lexeme span line => exact place
      | group => cases leaf
    exact nest_fault h leaves

/-- Every span of a program lies in a text, and in the span of what it belongs to. -/
structure ScopeTree.Nested (source : String) (tree : ScopeTree) : Prop where
  scopes : ∀ id : ScopeId, (tree.scope id).span.Within source ∧
    ∀ e ∈ (tree.scope id).body, (tree.scope id).span.Contains e.span
  exprs : ∀ id : ScopeId, ∀ e ∈ (tree.scope id).body, ∀ n ∈ e.nodes, n.span.Within source ∧
    (∀ part ∈ n.parts, n.span.Contains part.span) ∧
    (∀ t ∈ n.annotations, n.span.Contains t.span) ∧
    ∀ literal, n.asFunction? = some literal → n.span.Contains (tree.scope literal.scope).span
  types : ∀ id : ScopeId, ∀ e ∈ (tree.scope id).body, ∀ n ∈ e.nodes, ∀ t ∈ n.annotations,
    ∀ m ∈ t.nodes, m.span.Within source ∧ ∀ part ∈ m.parts, m.span.Contains part.span

theorem ScopeTree.Placed.nested {source : String} {high : Nat} {tree : ScopeTree}
    (h : tree.Placed (IsBoundary source) high) : tree.Nested source where
  scopes id := ⟨(h.scopes id).between.within, (h.scopes id).holds⟩
  exprs id e he n hn := by
    obtain ⟨between, parts, types, body⟩ := h.nodes id e he n hn
    exact ⟨between.within, parts, fun t ht => (types t ht).1, fun literal eq => (body literal eq).1⟩
  types id e he n hn t ht m hm := by
    obtain ⟨between, parts⟩ := ((h.nodes id e he n hn).types t ht).2 m hm
    exact ⟨between.within, parts⟩

theorem ScopeTree.Nested.lies {source : String} {tree : ScopeTree} (h : tree.Nested source) :
    tree.Lies (Span.Within · source) := by
  intro id e he n hn span hs
  rcases List.mem_cons.mp hs with rfl | hs
  · exact (h.exprs id e he n hn).1
  · obtain ⟨t, ht, hs⟩ := List.mem_flatMap.mp hs
    obtain ⟨m, hm, rfl⟩ := List.mem_map.mp hs
    exact (h.types id e he n hn t ht m hm).1

section

variable {source : String} {tokens : List Token} {parsed tree : ScopeTree}

theorem readProgram_nested (row : Row (IsBoundary source) 0 tokens source.utf8ByteSize)
    (h : Grammar.readProgram tokens = .ok tree) : tree.Nested source :=
  (Grammar.readProgram_placed h row (isBoundary_zero source)).nested

theorem readProgram_within {e : ParseError}
    (row : Row (IsBoundary source) 0 tokens source.utf8ByteSize)
    (h : Grammar.readProgram tokens = .error e) : e.span.Within source :=
  Grammar.readProgram_error (closedPlaces_within source) (fun _ ht => (row.between ht).within) h

theorem ScopeTree.Nested.resolve_within {e : SemanticError} (h : parsed.Nested source)
    (read : parsed.Read) (fails : parsed.resolve = .error e) : e.span.Within source := by
  by_contra astray
  exact ScopeTree.resolve_avoids (closedPlaces_within source) read h.lies e fails ⟨_, rfl, astray⟩

/-- Neither the program as it was read nor what resolving makes of it leads code astray. -/
theorem ScopeTree.Nested.compile_within {e : CompileError} {span : Span} (h : parsed.Nested source)
    (read : parsed.Read) (made : tree = parsed ∨ parsed.resolve = .ok tree)
    (fails : tree.compile = .error e) (place : e.span? = some span) : span.Within source := by
  have lies : tree.Lies (Span.Within · source) := by
    rcases made with rfl | done
    · exact h.lies
    · exact h.lies.resolve (closedPlaces_within source) read done
  by_contra astray
  exact lies.compile_avoids (closedPlaces_within source).zero e fails ⟨span, place, astray⟩

/-- The stage that failed, with what the stages before it gave. -/
theorem compileSource_error {d : Diagnostic} (h : compileSource source = .error d) :
    (∃ e, tokenize source = .error e ∧ d = .lex e) ∨ ∃ tokens, tokenize source = .ok tokens ∧
      ((∃ e, Grammar.readProgram (Token.stripComments tokens) = .error e ∧ d = .parse e) ∨
        ∃ parsed, Grammar.readProgram (Token.stripComments tokens) = .ok parsed ∧
          ((∃ e, parsed.resolve = .error e ∧ d = .semantic e) ∨
            ∃ tree, parsed.resolve = .ok tree ∧ ∃ e, tree.compile = .error e ∧ d = .compile e)) := by
  simp only [compileSource, resolveSource, parseSource, readTokens] at h
  cases lexed : tokenize source with
  | error e =>
    rw [lexed] at h
    cases h
    exact .inl ⟨e, rfl, rfl⟩
  | ok tokens =>
    rw [lexed] at h
    refine .inr ⟨tokens, rfl, ?_⟩
    cases read : Grammar.readProgram (Token.stripComments tokens) with
    | error e =>
      simp only [Except.bind, bind, read] at h
      cases h
      exact .inl ⟨e, rfl, rfl⟩
    | ok parsed =>
      refine .inr ⟨parsed, rfl, ?_⟩
      cases resolved : parsed.resolve with
      | error e =>
        simp only [Except.bind, bind, read, resolved] at h
        cases h
        exact .inl ⟨e, rfl, rfl⟩
      | ok tree =>
        refine .inr ⟨tree, rfl, ?_⟩
        simp only [Except.bind, bind, read, resolved, compileTree] at h
        split at h
        · cases h
        · rename_i e fails
          cases h
          exact ⟨e, fails, rfl⟩

end

/-- Every span on the way from a text to its code starts before it ends and does both at boundaries
between characters of the text: those of tokens, of the program as it is read, whether its comments
are left out before or not, and of the faults of every stage. In the program each span lies in the
span of what it belongs to. -/
theorem spans_within_source (source : String) :
    (∀ e, tokenize source = .error e → e.span.Within source) ∧
    (∀ tokens, tokenize source = .ok tokens →
      (∀ t ∈ preorderAll tokens, t.span.Within source) ∧
      ∀ run, run = tokens ∨ run = Token.stripComments tokens →
        (∀ e, Grammar.readProgram run = .error e → e.span.Within source) ∧
        ∀ parsed, Grammar.readProgram run = .ok parsed → parsed.Nested source ∧
          (∀ e, parsed.resolve = .error e → e.span.Within source) ∧
          ∀ tree, tree = parsed ∨ parsed.resolve = .ok tree → ∀ e, tree.compile = .error e →
            ∀ span, e.span? = some span → span.Within source) ∧
    ∀ d, compileSource source = .error d → d.mark.Within source := by
  have staged {tokens run : List Token} (h : tokenize source = .ok tokens)
      (hr : run = tokens ∨ run = Token.stripComments tokens) :
      Row (IsBoundary source) 0 run source.utf8ByteSize := by
    rcases hr with rfl | rfl
    · exact row_of_tokenize h
    · exact (row_of_tokenize h).strip
  refine ⟨fun e => tokenize_fault, fun tokens h => ⟨?_, fun run hr => ⟨?_, ?_⟩⟩, ?_⟩
  · exact fun t ht => ((row_of_tokenize h).between ht).within
  · exact fun e => readProgram_within (staged h hr)
  · intro parsed hp
    have nested := readProgram_nested (staged h hr) hp
    have read := Grammar.readProgram_read hp
    exact ⟨nested, fun e => nested.resolve_within read,
      fun tree made e fails span => nested.compile_within read made fails⟩
  · intro d stopped
    rcases compileSource_error stopped with ⟨e, h, rfl⟩ | ⟨tokens, h, fails⟩
    · exact tokenize_fault h
    have row := staged h (.inr rfl)
    rcases fails with ⟨e, hp, rfl⟩ | ⟨parsed, hp, fails⟩
    · exact readProgram_within row hp
    have nested := readProgram_nested row hp
    have read := Grammar.readProgram_read hp
    rcases fails with ⟨e, hr, rfl⟩ | ⟨tree, made, e, fails, rfl⟩
    · exact nested.resolve_within read hr
    · cases place : e.span? with
      | none =>
        rw [Diagnostic.mark, Diagnostic.span?, place]
        exact (closedPlaces_within source).zero
      | some span =>
        rw [Diagnostic.mark, Diagnostic.span?, place]
        exact nested.compile_within read (.inr made) fails place

/-- A type that no scope declares, behind a comment with a character of two bytes. -/
theorem spans_within_source_unknown : ∃ tokens parsed,
    tokenize "; é\n[ a: (int, nt) = (1, \\x > \x7b x \x7d)" = .ok tokens ∧
      Grammar.readProgram (Token.stripComments tokens) = .ok parsed ∧
      parsed.resolve = .error (.unknownType "nt" ⟨16, 18⟩) ∧
      parsed.Nested "; é\n[ a: (int, nt) = (1, \\x > \x7b x \x7d)" ∧
      (⟨16, 18⟩ : Span).Within "; é\n[ a: (int, nt) = (1, \\x > \x7b x \x7d)" := by
  have found : (do
      let tokens ← (tokenize "; é\n[ a: (int, nt) = (1, \\x > \x7b x \x7d)").toOption
      let parsed ← (Grammar.readProgram (Token.stripComments tokens)).toOption
      match parsed.resolve with
      | .error e => if e = .unknownType "nt" ⟨16, 18⟩ then some () else none
      | .ok _ => none) = some () := by decide +kernel
  obtain ⟨tokens, ht, found⟩ := Option.bind_eq_some_iff.mp found
  obtain ⟨parsed, hp, found⟩ := Option.bind_eq_some_iff.mp found
  split at found
  · rename_i e fails
    split at found
    · rename_i eq
      subst eq
      obtain ⟨-, stages⟩ := (spans_within_source _).2.1 tokens (toOption_eq_some ht)
      obtain ⟨nested, blamed, -⟩ := (stages _ (.inr rfl)).2 parsed (toOption_eq_some hp)
      exact ⟨tokens, parsed, toOption_eq_some ht, toOption_eq_some hp, fails, nested, blamed _ fails⟩
    · cases found
  · cases found

end WindowedClosures
