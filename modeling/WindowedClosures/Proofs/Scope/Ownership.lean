import Mathlib.Data.List.Nodup
import Mathlib.Data.List.Pairwise
import WindowedClosures.Proofs.Code.Laying
import WindowedClosures.Proofs.Code.Requests
import WindowedClosures.Proofs.Scope.Ancestry

/-!
# Which literal owns a scope

Every scope but the program's is the body of one literal, and from the program the literals lead to
every scope. Reading gives scopes numbers from the inside out. Resolving keeps all this, numbers the
literals one after the other, and lists the functions so that nested ones come first; so every
function that code asks for has a label.
-/

namespace WindowedClosures

/-- Where lists have nothing twice, also not together, an element belongs to one of them. -/
theorem eq_of_mem_flatMap {α β : Type} {f : α → List β} {l : List α} (distinct : (l.flatMap f).Nodup)
    {a b : α} {x : β} (ha : a ∈ l) (hb : b ∈ l) (xa : x ∈ f a) (xb : x ∈ f b) : a = b := by
  by_contra different
  have : Std.Symm (Function.onFun List.Disjoint f) :=
    ⟨fun _ _ disjoint _ left right => disjoint right left⟩
  exact (List.nodup_flatMap.mp distinct).2.forall ha hb different xa xb

namespace ScopeTree

/-- The function literals of a tree, scope after scope. -/
def allLiterals (tree : ScopeTree) : List FunctionLiteral :=
  tree.ids.flatMap fun id => literalsOf (tree.scope id).body

/-- A literal in the statements of the first scope has the second as its body. -/
def Owns (tree : ScopeTree) (outer inner : ScopeId) : Prop := inner ∈ tree.children outer

/-- The second scope is the body of a literal somewhere inside the first. -/
def Holds (tree : ScopeTree) : ScopeId → ScopeId → Prop := Relation.TransGen tree.Owns

/-- The scopes form a tree below the program. -/
structure Formed (tree : ScopeTree) : Prop where
  /-- All scopes but the program's are bodies of literals, each of one. -/
  owned : (tree.allLiterals.map (·.scope)).Perm (List.range' 1 (tree.count - 1))
  reached : ∀ id : Nat, id < tree.count → Relation.ReflTransGen tree.Owns rootId id

variable {tree : ScopeTree} {a x ids : List ScopeId} {id : Nat}

theorem map_allLiterals (tree : ScopeTree) :
    tree.allLiterals.map (·.scope) = tree.ids.flatMap tree.children := by
  rw [allLiterals, List.map_flatMap]
  rfl

/-- A scope that is the body of one literal stands in one scope. -/
theorem owner_unique (owned : (tree.allLiterals.map (·.scope)).Nodup) {first second : ScopeId}
    (hf : tree.Owns first id) (hs : tree.Owns second id) : first = second := by
  rw [map_allLiterals] at owned
  exact eq_of_mem_flatMap owned (List.mem_range.mpr (lt_of_mem_children hf))
    (List.mem_range.mpr (lt_of_mem_children hs)) hf hs

/-- What is listed is the row and the children of what is listed, each as often. -/
theorem Below.perm (h : tree.Below a x) : x.Perm (a ++ x.flatMap tree.children) := by
  induction h with
  | nil => rfl
  | @cons first rest inner outer _ _ inside outside =>
    rw [List.flatMap_cons, List.flatMap_append, List.cons_append]
    refine ((inside.append outside).trans ?_).cons first
    rw [← List.append_assoc, ← List.append_assoc, ← List.append_assoc]
    refine List.Perm.append_right _ ?_
    rw [List.append_assoc rest]
    exact List.perm_append_comm

/-- The literals lead from the row to everything that is listed. -/
theorem Below.reached (h : tree.Below a x) :
    ∀ id ∈ x, ∃ first ∈ a, Relation.ReflTransGen tree.Owns first id := by
  induction h with
  | nil => simp
  | @cons first rest inner outer _ _ inside outside =>
    intro id hm
    rcases List.mem_cons.mp hm with rfl | hm
    · exact ⟨id, by simp, .refl⟩
    · rcases List.mem_append.mp hm with hm | hm
      · obtain ⟨child, hc, path⟩ := inside id hm
        exact ⟨first, by simp, .head hc path⟩
      · obtain ⟨other, ho, path⟩ := outside id hm
        exact ⟨other, by simp [ho], path⟩

/-- If all scopes lie below the program they are the program's and the bodies of literals. -/
theorem Below.literals (below : tree.Below [rootId] x) (perm : x.Perm (List.range tree.count)) :
    x.Perm (rootId :: tree.allLiterals.map (·.scope)) := by
  refine below.perm.trans (List.Perm.append_left [rootId] ?_)
  rw [map_allLiterals]
  exact perm.flatMap_right _

theorem Below.formed (below : tree.Below [rootId] x) (perm : x.Perm (List.range tree.count)) :
    tree.Formed := by
  have root : rootId ∈ List.range tree.count := perm.mem_iff.mp (below.mem_of_mem (by simp))
  have split : List.range tree.count = rootId :: List.range' 1 (tree.count - 1) := by
    obtain ⟨n, eq⟩ := Nat.exists_eq_succ_of_ne_zero (Nat.ne_of_gt (List.mem_range.mp root))
    rw [eq, List.range_eq_range', List.range'_succ]
    rfl
  refine ⟨?_, ?_⟩
  · have cons := (below.literals perm).symm.trans perm
    rw [split] at cons
    exact cons.cons_inv
  · intro id lt
    obtain ⟨first, hf, path⟩ := below.reached id (perm.mem_iff.mpr (List.mem_range.mpr lt))
    rwa [List.mem_singleton.mp hf] at path

/-! ## Numbers of literals -/

theorem Numbered.below_root (h : tree.Numbered ids) : tree.Below [rootId] (rootId :: ids) := by
  have below : tree.Below [rootId] (rootId :: (ids ++ [])) := .cons h.below .nil
  rwa [List.append_nil] at below

theorem Numbered.nodup (h : tree.Numbered ids) : ids.Nodup :=
  (List.nodup_cons.mp (h.perm.nodup_iff.mpr List.nodup_range)).2

/-- The literals have the scopes below the program as bodies. -/
theorem Numbered.scopes (h : tree.Numbered ids) : (tree.allLiterals.map (·.scope)).Perm ids :=
  (h.below_root.literals h.perm).cons_inv.symm

theorem Numbered.number (h : tree.Numbered ids) {l : FunctionLiteral} (hl : l ∈ tree.allLiterals) :
    l.id = ids.idxOf l.scope := by
  obtain ⟨id, hid, hl⟩ := List.mem_flatMap.mp hl
  obtain ⟨lt, found⟩ := List.getElem?_eq_some_iff.mp (h.numbers id (List.mem_range.mp hid) l hl)
  rw [← found, h.nodup.idxOf_getElem]

/-- The literals have the numbers from zero on, each one of them. -/
theorem Numbered.ids_perm (h : tree.Numbered ids) :
    (tree.allLiterals.map (·.id)).Perm (List.range (tree.count - 1)) := by
  have numbers : tree.allLiterals.map (·.id) =
      (tree.allLiterals.map (·.scope)).map fun scope => ids.idxOf scope := by
    rw [List.map_map]
    exact List.map_congr_left fun l hl => h.number hl
  have positions : ids.map (fun scope => ids.idxOf scope) = List.range ids.length := by
    refine List.ext_getElem (by simp) fun n _ _ => ?_
    rw [List.getElem_map, h.nodup.idxOf_getElem, List.getElem_range]
  have length : ids.length = tree.count - 1 := by
    have length := h.perm.length_eq
    rw [List.length_cons, List.length_range] at length
    omega
  rw [numbers, ← length, ← positions]
  exact h.scopes.map _

/-! ## The list of functions -/

/-- A listed literal comes behind those in its own body. -/
theorem Settled.before {done : List Nat} {found before after : List PlacedLiteral} {p : PlacedLiteral}
    (h : tree.Settled done found) (eq : found = before ++ p :: after) :
    ∀ child ∈ tree.children p.literal.scope, child ∈ before.map (·.literal.scope) ++ done := by
  induction before generalizing done found with
  | nil =>
    subst eq
    exact h.1
  | cons first before ih =>
    subst eq
    intro child hc
    have mem := ih h.2 rfl child hc
    simp only [List.map_cons, List.cons_append, List.mem_cons, List.mem_append] at mem ⊢
    tauto

/-- It comes behind all that is somewhere inside it. -/
theorem Settled.nested {found before after : List PlacedLiteral} {p : PlacedLiteral}
    (h : tree.Settled [] found) (eq : found = before ++ p :: after) {inner : ScopeId}
    (holds : tree.Holds p.literal.scope inner) : inner ∈ before.map (·.literal.scope) := by
  induction holds with
  | single owns => simpa using h.before eq _ owns
  | tail _ owns earlier =>
    obtain ⟨q, hq, same⟩ := List.mem_map.mp earlier
    obtain ⟨first, second, split⟩ := List.append_of_mem hq
    rw [← same] at owns
    have mem := h.before (by rw [eq, split, List.append_assoc, List.cons_append]) _ owns
    rw [split, List.map_append]
    exact List.mem_append_left _ (by simpa using mem)

/-- The chain of a scope leads to the program. -/
theorem Numbered.chain_last (h : tree.Numbered ids) {path : List Nat} (hc : tree.Chain id path)
    (lt : id < tree.count) : path.getLast? = some rootId := by
  induction hc with
  | @last id none =>
    by_contra other
    have ne : id ≠ rootId := fun eq => other (by simp [eq])
    obtain ⟨outer, -, -, parent⟩ := h.exists_parent ((h.mem_ids id).mpr ⟨lt, ne⟩)
    rw [none] at parent
    cases parent
  | step parent chain ih =>
    rw [List.getLast?_cons, ih (h.child_of_parent parent).1]
    rfl

/-- Numbers, parents and functions of a tree that fit its literals. -/
structure Indexed (tree : ScopeTree) : Prop where
  /-- The literals have the numbers from zero on, each one of them. -/
  numbers : (tree.allLiterals.map (·.id)).Perm (List.range (tree.count - 1))
  root : tree.root.parent = none
  /-- A literal's scope stands in the scope whose statements have the literal. -/
  parents : ∀ outer : Nat, outer < tree.count → ∀ l ∈ literalsOf (tree.scope outer).body,
    (tree.scope l.scope).parent = some outer
  /-- Looking outwards follows the parents up to the program. -/
  ancestors : ∀ id : Nat, id < tree.count → tree.Chain id (tree.ancestors id) ∧
    (tree.ancestors id).getLast? = some rootId
  /-- The functions are the literals, each once. -/
  functions : (tree.functions.map fun f => (f.id, f.scope)).Perm
    (tree.allLiterals.map fun l => (l.id, l.scope))
  /-- A function comes behind all functions inside its body. -/
  nested : ∀ before f after, tree.functions = before ++ f :: after →
    ∀ inner, tree.Holds f.scope inner → ∃ g ∈ before, g.scope = inner

theorem Resolved.numbered (h : tree.Resolved) : ∃ ids, tree.Numbered ids ∧
    tree.functions.map (fun f => (f.id, f.scope)) =
      (tree.literals .post).map fun p => (p.literal.id, p.literal.scope) := by
  obtain ⟨bound, ids, ready, rfl⟩ := h.ready
  have shape : Same Scope.shape bound bound.capture := same_capture (fun _ _ => rfl) bound
  refine ⟨ids, ready.numbered.congr shape.count shape.scopes, ?_⟩
  rw [shape.functions, literals_congr shape.count shape.scopes]
  exact ready.functions

theorem Resolved.indexed (h : tree.Resolved) : tree.Indexed := by
  obtain ⟨ids, numbered, functions⟩ := h.numbered
  have listing := listing_literals .post numbered.below numbered.perm
  refine ⟨numbered.ids_perm, numbered.root, ?_, ?_, ?_, ?_⟩
  · intro outer lt l hl
    exact numbered.parents outer lt l.scope (List.mem_map_of_mem hl)
  · intro id lt
    have chain := numbered.chain lt
    exact ⟨chain, numbered.chain_last chain lt⟩
  · -- both lists give every scope its position among the scopes below the program
    have listed : (tree.literals .post).map (fun p => (p.literal.id, p.literal.scope)) =
        ((tree.literals .post).map (·.literal.scope)).map fun scope => (ids.idxOf scope, scope) := by
      rw [List.map_map]
      refine List.map_congr_left fun p hp => ?_
      have mem : p.literal ∈ tree.allLiterals := by
        refine List.mem_flatMap.mpr ?_
        rcases listing.placed p hp with ⟨-, hl⟩ | ⟨ho, hl⟩
        · have root : rootId ∈ List.range tree.count := numbered.perm.mem_iff.mp (by simp)
          exact ⟨rootId, root, hl⟩
        · exact ⟨p.outer, List.mem_range.mpr ((numbered.mem_ids _).mp ho).1, hl⟩
      simp only [Function.comp_apply, numbered.number mem]
    have all : tree.allLiterals.map (fun l => (l.id, l.scope)) =
        (tree.allLiterals.map (·.scope)).map fun scope => (ids.idxOf scope, scope) := by
      rw [List.map_map]
      exact List.map_congr_left fun l hl => by simp only [Function.comp_apply, numbered.number hl]
    rw [functions, listed, all]
    exact (listing.perm.trans numbered.scopes.symm).map _
  · intro before f after eq inner holds
    rw [eq, List.map_append, List.map_cons] at functions
    obtain ⟨first, rest, split, hfirst, hrest⟩ := List.map_eq_append_iff.mp functions.symm
    obtain ⟨p, last, rfl, hp, -⟩ := List.map_eq_cons_iff.mp hrest
    have scope : p.literal.scope = f.scope := congrArg Prod.snd hp
    rw [← scope] at holds
    have mem := (listing.settled rfl []).nested split holds
    have same : first.map (·.literal.scope) = before.map (·.scope) := by
      have seconds := congrArg (List.map Prod.snd) hfirst
      rwa [List.map_map, List.map_map] at seconds
    rw [same] at mem
    exact List.mem_map.mp mem

/-! ## Functions that code asks for -/

theorem Indexed.mem_functions (h : tree.Indexed) {l : FunctionLiteral}
    (hl : l ∈ literalsOf (tree.scope id).body) : ∃ f ∈ tree.functions, f.id = l.id ∧ f.scope = l.scope := by
  have lt : id < tree.count := lt_of_mem_children (List.mem_map_of_mem hl)
  have mem : l ∈ tree.allLiterals := List.mem_flatMap.mpr ⟨id, List.mem_range.mpr lt, hl⟩
  have pair := h.functions.mem_iff.mpr (List.mem_map_of_mem (f := fun l => (l.id, l.scope)) mem)
  obtain ⟨f, hf, eq⟩ := List.mem_map.mp pair
  injection eq with number scope
  exact ⟨f, hf, number, scope⟩

theorem Indexed.clean_body (h : tree.Indexed) (id : Nat) :
    Emit.Clean (Asks tree (literalsOf (tree.scope id).body)) CompileError.IsUnknownFunction
      (lowerStatements ⟨tree, id⟩ (tree.scope id).body) := by
  refine WindowedClosures.clean_body CompileError.not_isUnknownFunction_of_span?
    (fun _ _ _ _ _ => harmless_isUnknownFunction _) fun l hl span _ unknown => ?_
  obtain ⟨f, hf, number, -⟩ := h.mem_functions hl
  have found : (tree.function? l.id).isSome := List.find?_isSome.mpr ⟨f, hf, by simp [number]⟩
  rw [Option.isNone_iff_eq_none.mp unknown] at found
  cases found

/-- The code of a scope goes on up to its return, and asks for the literals in its statements. -/
theorem Indexed.asks (h : tree.Indexed) {code : List Emitted} (hc : scopeCode tree id = .ok code) :
    ∃ body, code = body ++ [⟨⟨.ret, 0, 0⟩, none, none⟩] ∧
      ∀ e ∈ body, Asks tree (literalsOf (tree.scope id).body) e := by
  obtain ⟨result, hr, rfl⟩ := scopeCode_ok hc
  exact ⟨result.code, rfl, ((h.clean_body id).emits _ _ hr).1⟩

/-- Code asks for functions of the program only. -/
theorem Indexed.target_known (h : tree.Indexed) {code : List Emitted}
    (hc : scopeCode tree id = .ok code) {e : Emitted} (he : e ∈ code) {i : Nat}
    (target : e.target = some i) : ∃ f ∈ tree.functions, f.id = i := by
  obtain ⟨body, rfl, asks⟩ := h.asks hc
  rcases List.mem_append.mp he with he | he
  · obtain ⟨l, hl, rfl, -⟩ := (asks e he).target i target
    obtain ⟨f, hf, number, -⟩ := h.mem_functions hl
    exact ⟨f, hf, number⟩
  · rw [List.mem_singleton.mp he] at target
    cases target

/-- No function is unknown to the code of a program. -/
theorem Indexed.compile_known (h : tree.Indexed) :
    Avoids CompileError.IsUnknownFunction tree.compile :=
  compile_avoids CompileError.not_isUnknownFunction_of_span?
    (fun id => scopeCode_avoids CompileError.not_isUnknownFunction_of_span? (h.clean_body id).never)
    fun _ _ code _ he _ target => .inl (h.target_known code he target)

/-! ## Reading and resolving -/

theorem Formed.ne_root (h : tree.Formed) {outer inner : ScopeId} (owns : tree.Owns outer inner) :
    inner ≠ rootId := by
  have mem : inner ∈ tree.allLiterals.map (·.scope) := by
    rw [map_allLiterals]
    exact List.mem_flatMap.mpr ⟨outer, List.mem_range.mpr (lt_of_mem_children owns), owns⟩
  have bound := (List.mem_range'_1.mp (h.owned.mem_iff.mp mem)).1
  exact Nat.ne_of_gt bound

/-- If the scopes in the body of every literal are smaller, so is all that is inside. -/
theorem Formed.lt_of_holds (h : tree.Formed)
    (inner_lt : ∀ id : Nat, id ≠ rootId → ∀ child ∈ tree.children id, child < id)
    {outer inner : ScopeId} (ne : outer ≠ rootId) (holds : tree.Holds outer inner) :
    inner < outer := by
  induction holds using Relation.TransGen.head_induction_on with
  | single owns => exact inner_lt _ ne _ owns
  | head owns _ ih => exact Nat.lt_trans (ih (h.ne_root owns)) (inner_lt _ ne _ owns)

end ScopeTree

open ScopeTree in
/-- Reading a program yields a tree of scopes in which inner scopes have smaller numbers. Resolving
it yields a tree of scopes again, whose literals, parents and functions fit together, and making
code for it finds every function. -/
theorem scopes_formed {tokens : List Token} {parsed : ScopeTree}
    (h : Grammar.readProgram tokens = .ok parsed) :
    parsed.Formed ∧
    (∀ outer inner : ScopeId, outer ≠ rootId → parsed.Holds outer inner → inner < outer) ∧
    ∀ tree, parsed.resolve = .ok tree → tree.Formed ∧ tree.Indexed ∧
      ∀ e, tree.compile = .error e → ¬ e.IsUnknownFunction := by
  obtain ⟨ids, below, perm⟩ := (Grammar.readProgram_read h).owns
  have formed := below.formed perm
  refine ⟨formed, fun outer inner ne holds => ?_, fun tree resolves => ?_⟩
  · exact formed.lt_of_holds (fun id ne => Grammar.readProgram_inner h ne) ne holds
  · have resolved : tree.Resolved := ⟨tokens, parsed, h, resolves⟩
    obtain ⟨order, numbered, -⟩ := resolved.numbered
    exact ⟨numbered.below_root.formed numbered.perm, resolved.indexed,
      resolved.indexed.compile_known⟩

/-- A function in a function, and two arms that get scopes of their own only when resolved. -/
theorem scopes_formed_nested : ∃ tokens parsed tree,
    readTokens "[ f: int > int = \\x > \x7b
        [ g: int > int = \\y > \x7b y + x \x7d; g # x \x7d; [ r: int = f # 1 ? (2, 3)" = .ok tokens ∧
      Grammar.readProgram tokens = .ok parsed ∧ parsed.count = 3 ∧ parsed.Formed ∧
      parsed.resolve = .ok tree ∧ tree.count = 5 ∧
      tree.functions.map (fun f => (f.id, f.scope)) = [(1, 1), (0, 2), (2, 3), (3, 4)] ∧
      tree.Formed ∧ tree.Indexed := by
  have found : (do
      let tokens ← (readTokens "[ f: int > int = \\x > \x7b
        [ g: int > int = \\y > \x7b y + x \x7d; g # x \x7d; [ r: int = f # 1 ? (2, 3)").toOption
      let parsed ← (Grammar.readProgram tokens).toOption
      let tree ← parsed.resolve.toOption
      if parsed.count = 3 ∧ tree.count = 5 ∧
        tree.functions.map (fun f => (f.id, f.scope)) = [(1, 1), (0, 2), (2, 3), (3, 4)] then some ()
      else none) = some () := by decide +kernel
  obtain ⟨tokens, ht, found⟩ := Option.bind_eq_some_iff.mp found
  obtain ⟨parsed, hp, found⟩ := Option.bind_eq_some_iff.mp found
  obtain ⟨tree, hr, found⟩ := Option.bind_eq_some_iff.mp found
  split at found
  · rename_i facts
    obtain ⟨few, count, functions⟩ := facts
    obtain ⟨formed, -, resolved⟩ := scopes_formed (toOption_eq_some hp)
    obtain ⟨formed', indexed, -⟩ := resolved tree (toOption_eq_some hr)
    exact ⟨tokens, parsed, tree, toOption_eq_some ht, toOption_eq_some hp, few, formed,
      toOption_eq_some hr, count, functions, formed', indexed⟩
  · cases found

end WindowedClosures
