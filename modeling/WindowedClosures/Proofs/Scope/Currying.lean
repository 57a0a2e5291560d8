import Mathlib.Data.List.Pairwise
import WindowedClosures.Proofs.Scope.Arms
import WindowedClosures.Proofs.Scope.Names
import WindowedClosures.Proofs.Scope.Nesting
import WindowedClosures.Proofs.Scope.Preorder
import WindowedClosures.Proofs.Ty.Matching

/-!
# Curried literals

A declared value may be a literal whose body ends with a literal, whose body ends with a literal, and so
on. Each is reached by the walk that passes types on before its own inner literal is, so each gets the
part of the declared type that is left for it.
-/

namespace WindowedClosures

/-- The type of a function of several inputs, one at a time. -/
def Ty.curried (inputs : List Ty) (output : Ty) : Ty := inputs.foldr .function output

/-- What matches a function type is one, seen through aliases and parentheses. -/
theorem Ty.Matches.arrow {ty input output : Ty} (h : ty.Matches (.function input output)) :
    ∃ arrow, ty.arrow? = some arrow ∧ arrow.input.Matches input ∧ arrow.output.Matches output := by
  have both := h.arrows
  rw [show (Ty.function input output).arrow? = some ⟨input, output⟩ from rfl] at both
  generalize ty.arrow? = found at both ⊢
  cases both with
  | some matched => exact ⟨_, rfl, matched⟩

/-- What passing types on looks at. -/
def Scope.offers (s : Scope) : List Variable × List Expr := (s.vars, s.body)

namespace ScopeTree

/-- The literals of a curried value, outermost first: the value is a literal, perhaps in parentheses, and
the body of each ends with the next. -/
inductive Curried (tree : ScopeTree) : Expr → List ScopeId → Prop
  | last {e : Expr} {literal : FunctionLiteral} {span : Span} :
      e.unwrapped = .function literal span → Curried tree e [literal.scope]
  | next {e tail : Expr} {literal : FunctionLiteral} {span : Span} {scopes : List ScopeId} :
      e.unwrapped = .function literal span →
      (tree.scope literal.scope).body.getLast? = some tail → Curried tree tail scopes →
      Curried tree e (literal.scope :: scopes)

/-- Whether the literals of a curried value are these. -/
def isCurried (tree : ScopeTree) : Expr → List ScopeId → Bool
  | _, [] => false
  | e, scope :: rest =>
    match e.unwrapped.asFunction? with
    | none => false
    | some literal =>
      literal.scope == scope &&
        (rest.isEmpty ||
          match (tree.scope scope).body.getLast? with
          | some tail => isCurried tree tail rest
          | none => false)

theorem curried_iff {tree : ScopeTree} {e : Expr} {scopes : List ScopeId} :
    tree.isCurried e scopes = true ↔ tree.Curried e scopes := by
  constructor
  · intro passes
    induction scopes generalizing e with
    | nil => cases passes
    | cons scope rest ih =>
      rw [isCurried] at passes
      cases unwraps : e.unwrapped with
      | function literal span =>
        simp only [unwraps, Expr.asFunction?, Bool.and_eq_true, beq_iff_eq, Bool.or_eq_true,
          List.isEmpty_iff] at passes
        obtain ⟨rfl, rfl | passes⟩ := passes
        · exact .last unwraps
        · split at passes
          · rename_i tail last
            exact .next unwraps last (ih passes)
          · cases passes
      | _ => simp [unwraps, Expr.asFunction?] at passes
  · intro curried
    induction curried with
    | last unwraps => simp [isCurried, unwraps, Expr.asFunction?]
    | next unwraps last _ ih => simp [isCurried, unwraps, Expr.asFunction?, last, ih]

instance (tree : ScopeTree) (e : Expr) (scopes : List ScopeId) : Decidable (tree.Curried e scopes) :=
  decidable_of_iff _ curried_iff

/-- The literals of a curried value with the arrows that a type has for them. -/
inductive Fits (tree : ScopeTree) : Expr → Ty → List (ScopeId × Arrow) → Prop
  | last {e : Expr} {ty : Ty} {literal : FunctionLiteral} {span : Span} {arrow : Arrow} :
      e.unwrapped = .function literal span → ty.arrow? = some arrow →
      Fits tree e ty [(literal.scope, arrow)]
  | next {e tail : Expr} {ty : Ty} {literal : FunctionLiteral} {span : Span} {arrow : Arrow}
      {rest : List (ScopeId × Arrow)} :
      e.unwrapped = .function literal span → ty.arrow? = some arrow →
      (tree.scope literal.scope).body.getLast? = some tail → Fits tree tail arrow.output rest →
      Fits tree e ty ((literal.scope, arrow) :: rest)

variable {tree tree' : ScopeTree}

/-- A curried type has an arrow for each literal of a value that is curried as far. -/
theorem Curried.fits {e : Expr} {scopes : List ScopeId} (h : tree.Curried e scopes) {ty output : Ty}
    {inputs : List Ty} (length : inputs.length = scopes.length)
    (matched : ty.Matches (Ty.curried inputs output)) : ∃ arrows, tree.Fits e ty (scopes.zip arrows) ∧
      arrows.length = scopes.length ∧ ∀ (i : Nat) (arrow : Arrow) (input : Ty),
        arrows[i]? = some arrow → inputs[i]? = some input → arrow.input.Matches input ∧ arrow.output.Matches (Ty.curried (inputs.drop (i + 1)) output) := by
  induction h generalizing ty inputs with
  | last unwraps =>
    obtain ⟨input, rfl⟩ := List.length_eq_one_iff.mp length
    obtain ⟨arrow, found, left, right⟩ := matched.arrow
    refine ⟨[arrow], .last unwraps found, rfl, fun i a input' ha hi => ?_⟩
    cases i with
    | zero =>
      cases ha
      cases hi
      exact ⟨left, right⟩
    | succ i => cases ha
  | next unwraps tail inner ih =>
    cases inputs with
    | nil => cases length
    | cons input inputs =>
      obtain ⟨arrow, found, left, right⟩ := matched.arrow
      obtain ⟨arrows, fits, same, all⟩ := ih (Nat.succ.inj length) right
      refine ⟨arrow :: arrows, .next unwraps found tail fits, congrArg Nat.succ same, ?_⟩
      intro i a input' ha hi
      cases i with
      | zero =>
        cases ha
        cases hi
        exact ⟨left, right⟩
      | succ i => exact all i a input' ha hi

theorem Fits.head {e : Expr} {ty : Ty} {targets : List (ScopeId × Arrow)} (h : tree.Fits e ty targets) :
    ∃ literal span arrow rest, e.unwrapped = .function literal span ∧ ty.arrow? = some arrow ∧
      targets = (literal.scope, arrow) :: rest := by
  cases h with
  | last unwraps found => exact ⟨_, _, _, [], unwraps, found, rfl⟩
  | next unwraps found _ _ => exact ⟨_, _, _, _, unwraps, found, rfl⟩

/-! ## One literal at a time -/

variable {t t' : ScopeTree} {p : ScopeId × Arrow}

/-- The arrow of a target is open, or the one meant for it. -/
def Due (t : ScopeTree) (p : ScopeId × Arrow) : Prop :=
  (t.scope p.1).arrow = .unset ∨ (t.scope p.1).arrow = p.2

/-- The arrow of a target is the one meant for it. -/
def Given (t : ScopeTree) (p : ScopeId × Arrow) : Prop := (t.scope p.1).arrow = p.2

/-- The arrow of a target stays, or becomes the one meant for it. -/
def Moves (p : ScopeId × Arrow) (t t' : ScopeTree) : Prop := KeepsArrow p.1 t t' ∨ Given t' p

theorem Moves.due (h : Moves p t t') (due : Due t p) : Due t' p := by
  rcases h with kept | given
  · rw [Due, kept]
    exact due
  · exact .inr given

theorem Moves.given (h : Moves p t t') (given : Given t p) : Given t' p := by
  rcases h with kept | given'
  · rw [Given, kept]
    exact given
  · exact given'

theorem moves_fillArrow (t : ScopeTree) (p : ScopeId × Arrow) : Moves p t (t.fillArrow p.1 p.2) := by
  unfold fillArrow
  split
  · by_cases lt : p.1 < t.count
    · right
      rw [Given, setArrow, scope_modify_same _ _ _ lt]
    · left
      rw [KeepsArrow, setArrow, scope_modify, if_neg (fun h => lt h.2)]
  · exact .inl rfl

theorem given_fillArrow (due : Due t p) (lt : p.1 < t.count) : Given (t.fillArrow p.1 p.2) p := by
  unfold fillArrow
  split
  · rw [Given, setArrow, scope_modify_same _ _ _ lt]
  · rename_i set
    rcases due with unset | given
    · rw [unset] at set
      exact (set Arrow.isUnset_unset).elim
    · exact given

/-- The nodes that types are passed on from to a target: a declaration with the target's arrow, or the
literal around it, whose arrow leaves the target's. -/
inductive Feeds (tree : ScopeTree) (targets : List (ScopeId × Arrow)) (p : ScopeId × Arrow)
    (n : ScopeId × Expr) : Prop
  | declared {name : String} {type : TypeExpr} {value : Expr} {span literalSpan : Span}
      {literal : FunctionLiteral} {v : Variable} : n.2 = .varDecl name type value span →
      value.unwrapped = .function literal literalSpan → literal.scope = p.1 →
      (tree.scope n.1).vars.find? (·.name == name) = some v → v.ty.arrow? = some p.2 →
      Feeds tree targets p n
  | around {literal inner : FunctionLiteral} {span : Span} {q : ScopeId × Arrow} :
      n.2 = .function literal span → q ∈ targets → literal.scope = q.1 →
      tailLiteral? (tree.scope q.1).body = some inner → inner.scope = p.1 →
      q.2.output.arrow? = some p.2 → Feeds tree targets p n

theorem expectType_of_unwrapped {e : Expr} {ty : Ty} {literal : FunctionLiteral} {span : Span}
    {arrow : Arrow} (unwraps : e.unwrapped = .function literal span) (found : ty.arrow? = some arrow)
    (t : ScopeTree) : expectType e ty t = t.fillArrow literal.scope arrow := by
  induction e using Expr.unwrapped.induct with
  | case1 value _ ih =>
    rw [Expr.unwrapped_parens] at unwraps
    rw [expectType]
    exact ih unwraps
  | case2 e other =>
    rw [Expr.unwrapped] at unwraps
    · rw [unwraps, expectType, found]
    · exact other

theorem passTypes_declared {id : ScopeId} {name : String} {type : TypeExpr} {value : Expr}
    {span literalSpan : Span} {literal : FunctionLiteral} {v : Variable} {arrow : Arrow}
    (unwraps : value.unwrapped = .function literal literalSpan)
    (variable_ : (t.scope id).vars.find? (·.name == name) = some v) (found : v.ty.arrow? = some arrow) :
    t.passTypes (id, .varDecl name type value span) = .ok (t.fillArrow literal.scope arrow) := by
  simp only [passTypes, variable_, found, expectType_of_unwrapped unwraps found, Option.isNone_some,
    Bool.and_false, Bool.false_eq_true, if_false]

theorem passTypes_around {id : ScopeId} {literal inner : FunctionLiteral} {span : Span}
    (tail : tailLiteral? (t.scope literal.scope).body = some inner) :
    t.passTypes (id, .function literal span) =
      .ok (match (t.scope literal.scope).arrow.output.arrow? with
        | some arrow => t.fillArrow inner.scope arrow
        | none => t) := by
  simp only [passTypes, tail]
  cases (t.scope literal.scope).arrow.output.arrow? <;> rfl

/-- A tree on the way, in which every target still has a chance of its arrow. -/
structure Underway (tree : ScopeTree) (targets : List (ScopeId × Arrow)) (t : ScopeTree) : Prop where
  same : Same Scope.offers tree t
  due : ∀ p ∈ targets, Due t p

variable {targets : List (ScopeId × Arrow)} {n : ScopeId × Expr}

theorem Underway.moves (h : Underway tree targets t) (feeds : Feeds tree targets p n)
    (step : t.passTypes n = .ok t') : Moves p t t' := by
  obtain ⟨id, e⟩ := n
  cases feeds with
  | declared node unwraps here variable_ found =>
    cases node
    have vars : (t.scope id).vars = (tree.scope id).vars := congrArg Prod.fst (h.same.scopes id)
    rw [passTypes_declared unwraps (vars ▸ variable_) found] at step
    cases step
    rw [here]
    exact moves_fillArrow t p
  | @around literal inner _ q node mem outer tail here found =>
    cases node
    have body : (t.scope q.1).body = (tree.scope q.1).body := congrArg Prod.snd (h.same.scopes q.1)
    rw [passTypes_around (by rw [outer, body]; exact tail), outer] at step
    rcases h.due q mem with unset | given
    · rw [unset] at step
      cases step
      exact .inl rfl
    · rw [given, found, here] at step
      cases step
      exact moves_fillArrow t p

theorem Underway.step (h : Underway tree targets t)
    (feeds : ∀ p ∈ targets, p.1 ∈ tree.passedTo n.2 → Feeds tree targets p n)
    (step : t.passTypes n = .ok t') :
    Underway tree targets t' ∧ ∀ p ∈ targets, Moves p t t' := by
  have moves (p : ScopeId × Arrow) (mem : p ∈ targets) : Moves p t t' := by
    by_cases reached : p.1 ∈ tree.passedTo n.2
    · exact h.moves (feeds p mem reached) step
    · refine .inl (keepsArrow_passTypes ?_ step)
      rwa [passedTo_congr fun id => congrArg Prod.snd (h.same.scopes id)]
  exact ⟨⟨h.same.trans (same_passTypes (fun _ _ => rfl) step), fun p mem => (moves p mem).due (h.due p mem)⟩,
    moves⟩

/-- Passing types on from nodes leaves every target its chance, and those that have their arrow keep
it. -/
theorem Underway.nodes {nodes : List (ScopeId × Expr)} (h : Underway tree targets t)
    (feeds : ∀ n ∈ nodes, ∀ p ∈ targets, p.1 ∈ tree.passedTo n.2 → Feeds tree targets p n)
    (steps : nodes.foldlM passTypes t = .ok t') :
    Underway tree targets t' ∧ ∀ p ∈ targets, Given t p → Given t' p := by
  induction nodes generalizing t with
  | nil =>
    cases steps
    exact ⟨h, fun _ _ given => given⟩
  | cons n rest ih =>
    rw [List.foldlM_cons] at steps
    obtain ⟨middle, step, steps⟩ := except_bind_ok steps
    obtain ⟨underway, moves⟩ := h.step (feeds n List.mem_cons_self) step
    obtain ⟨ended, kept⟩ := ih underway (fun m hm => feeds m (List.mem_cons_of_mem _ hm)) steps
    exact ⟨ended, fun p mem given => kept p mem ((moves p mem).given given)⟩

/-- From a declaration, the literal that is its value gets its arrow. -/
theorem Underway.declared (h : Underway tree targets t) (mem : p ∈ targets) (lt : p.1 < tree.count)
    {id : ScopeId} {name : String} {type : TypeExpr} {value : Expr} {span literalSpan : Span}
    {literal : FunctionLiteral} {v : Variable} (unwraps : value.unwrapped = .function literal literalSpan)
    (here : literal.scope = p.1) (variable_ : (tree.scope id).vars.find? (·.name == name) = some v)
    (found : v.ty.arrow? = some p.2) (step : t.passTypes (id, .varDecl name type value span) = .ok t') :
    Given t' p := by
  have vars : (t.scope id).vars = (tree.scope id).vars := congrArg Prod.fst (h.same.scopes id)
  rw [passTypes_declared unwraps (vars ▸ variable_) found, here] at step
  cases step
  exact given_fillArrow (h.due p mem) (h.same.count ▸ lt)

/-- From a literal with its arrow, the literal that its body ends with gets what is left of it. -/
theorem Underway.around (h : Underway tree targets t) (mem : p ∈ targets) (lt : p.1 < tree.count)
    {q : ScopeId × Arrow} (given : Given t q) {id : ScopeId} {literal inner : FunctionLiteral}
    {span : Span} (outer : literal.scope = q.1) (tail : tailLiteral? (tree.scope q.1).body = some inner)
    (here : inner.scope = p.1) (found : q.2.output.arrow? = some p.2)
    (step : t.passTypes (id, .function literal span) = .ok t') : Given t' p := by
  have body : (t.scope q.1).body = (tree.scope q.1).body := congrArg Prod.snd (h.same.scopes q.1)
  rw [passTypes_around (by rw [outer, body]; exact tail), outer, given, found, here] at step
  cases step
  exact given_fillArrow (h.due p mem) (h.same.count ▸ lt)

/-! ## Which nodes reach a literal -/

/-- In redundant parentheses a literal is the only other node. -/
theorem mem_nodes_of_unwrapped {e n : Expr} {literal : FunctionLiteral} {span : Span}
    (unwraps : e.unwrapped = .function literal span) (mem : n ∈ e.nodes) :
    (∃ fields span', n = .tuple fields span') ∨ n = .function literal span := by
  induction e using Expr.unwrapped.induct with
  | case1 value span' ih =>
    rw [Expr.unwrapped_parens] at unwraps
    simp only [Expr.nodes, Expr.nodesOfFields, List.append_nil, List.mem_cons] at mem
    rcases mem with rfl | mem
    · exact .inl ⟨_, _, rfl⟩
    · exact ih unwraps mem
  | case2 e other =>
    rw [Expr.unwrapped] at unwraps
    · subst unwraps
      exact .inr (List.mem_singleton.mp mem)
    · exact other

theorem function_mem_nodes {e : Expr} {literal : FunctionLiteral} {span : Span}
    (unwraps : e.unwrapped = .function literal span) : .function literal span ∈ e.nodes :=
  Expr.nodes_unwrapped (unwraps ▸ Expr.mem_nodes_self _)

theorem mem_literals_of_unwrapped {e : Expr} {literal : FunctionLiteral} {span : Span}
    (unwraps : e.unwrapped = .function literal span) : literal ∈ e.literals := by
  rw [Expr.literals_eq]
  exact List.mem_filterMap.mpr ⟨_, function_mem_nodes unwraps, rfl⟩

theorem mem_literals_of_nodes {e held : Expr} (inside : ∀ n ∈ e.nodes, n ∈ held.nodes)
    {literal : FunctionLiteral} (mem : literal ∈ e.literals) : literal ∈ held.literals := by
  rw [Expr.literals_eq] at mem ⊢
  obtain ⟨n, hn, eq⟩ := List.mem_filterMap.mp mem
  exact List.mem_filterMap.mpr ⟨n, inside n hn, eq⟩

/-- A statement is a literal, perhaps in parentheses, or declares one. -/
def Bears (held e : Expr) : Prop := held = e ∨ ∃ name type span, held = .varDecl name type e span

theorem Bears.nodes {held e : Expr} (h : Bears held e) : ∀ n ∈ e.nodes, n ∈ held.nodes := by
  rcases h with rfl | ⟨name, type, span, rfl⟩
  · exact fun _ hn => hn
  · intro n hn
    rw [Expr.nodes]
    exact List.mem_cons_of_mem _ hn

/-- It has no other nodes than the declaration, parentheses and the literal. -/
theorem Bears.node {held e n : Expr} (h : Bears held e) {literal : FunctionLiteral} {span : Span}
    (unwraps : e.unwrapped = .function literal span) (mem : n ∈ held.nodes) :
    (∃ fields span', n = .tuple fields span') ∨ n = .function literal span ∨
      n = held ∧ ∃ name type span, held = .varDecl name type e span := by
  rcases h with rfl | ⟨name, type, span', rfl⟩
  · rcases mem_nodes_of_unwrapped unwraps mem with parens | found
    · exact .inl parens
    · exact .inr (.inl found)
  · rcases List.mem_cons.mp (by rwa [Expr.nodes] at mem) with found | mem
    · exact .inr (.inr ⟨found, name, type, span', rfl⟩)
    · rcases mem_nodes_of_unwrapped unwraps mem with parens | found
      · exact .inl parens
      · exact .inr (.inl found)

/-- A literal stands in one statement of one scope. -/
theorem Numbered.statement_unique {ids : List Nat} (h : tree.Numbered ids) {id id' : ScopeId}
    {e e' : Expr} {l l' : FunctionLiteral} (he : e ∈ (tree.scope id).body)
    (he' : e' ∈ (tree.scope id').body) (hl : l ∈ e.literals) (hl' : l' ∈ e'.literals)
    (same : l'.scope = l.scope) : id' = id ∧ e' = e := by
  have forest := (h.below_root.formed h.perm).forest
  have child' := mem_children_of_literal he' hl'
  rw [same] at child'
  cases owner_unique forest.owned child' (mem_children_of_literal he hl)
  refine ⟨rfl, ?_⟩
  have distinct := forest.nodup_children id
  rw [children, literalsOf, List.map_flatMap] at distinct
  exact eq_of_mem_flatMap distinct he' he (List.mem_map_of_mem hl') (same ▸ List.mem_map_of_mem hl)

/-- A literal that is the value of a declaration, or that a body ends with, is given types by that
declaration, or by the literal around it, alone. -/
theorem Numbered.passes_to {ids : List Nat} (h : tree.Numbered ids) {id : ScopeId} {e held : Expr}
    {literal : FunctionLiteral} {span : Span} (unwraps : e.unwrapped = .function literal span)
    (here : held ∈ (tree.scope id).body) (bears : Bears held e) {n : ScopeId × Expr}
    (mem : n ∈ tree.nodes .pre) (reached : literal.scope ∈ tree.passedTo n.2) :
    (n = (id, held) ∧ ∃ name type span, held = .varDecl name type e span) ∨
      ∃ outer span', n.2 = .function outer span' ∧ outer.scope = id ∧
        (tree.scope id).body.getLast? = some held ∧ held = e := by
  have own := mem_literals_of_nodes bears.nodes (mem_literals_of_unwrapped unwraps)
  obtain ⟨outer, node⟩ := n
  obtain ⟨e', he', inside⟩ := mem_nodes mem
  -- a node of another kind would stand in the statement itself, which has no such node
  have elsewhere (value : Expr) (inner : value ∈ node.parts) (offers : literal.scope ∈ offered value) :
      outer = id ∧ node ∈ held.nodes := by
    obtain ⟨l, hl, same⟩ := offered_literals value offers
    have found : l ∈ e'.literals :=
      mem_literals_of_nodes (fun m hm => Expr.nodes_trans hm e' (Expr.mem_nodes_part inner inside)) hl
    obtain ⟨rfl, rfl⟩ := h.statement_unique here he' own found same
    exact ⟨rfl, inside⟩
  cases node with
  | varDecl name type value span' =>
    obtain ⟨rfl, inside⟩ := elsewhere value (List.mem_singleton_self value) reached
    rcases bears.node unwraps inside with ⟨_, _, eq⟩ | eq | ⟨eq, declares⟩
    · cases eq
    · cases eq
    · exact .inl ⟨by rw [eq], declares⟩
  | binary op lhs rhs span' =>
    have offers : literal.scope ∈ offered rhs := by
      cases op <;> first | exact reached | cases reached
    obtain ⟨rfl, inside⟩ := elsewhere rhs (by simp [Expr.parts]) offers
    rcases bears.node unwraps inside with ⟨_, _, eq⟩ | eq | ⟨eq, _, _, _, declares⟩
    · cases eq
    · cases eq
    · cases eq.trans declares
  | function around span' =>
    right
    simp only [passedTo] at reached
    cases last : (tree.scope around.scope).body.getLast? with
    | none =>
      rw [last] at reached
      cases reached
    | some tail =>
      rw [last] at reached
      obtain ⟨l, hl, same⟩ := offered_literals tail reached
      obtain ⟨eq, rfl⟩ := h.statement_unique here (List.mem_of_getLast? last) own hl same
      refine ⟨around, span', rfl, eq, eq ▸ last, ?_⟩
      rcases bears with rfl | ⟨_, _, _, rfl⟩
      · rfl
      · cases reached
  | _ => cases reached

variable {ids : List Nat} {e : Expr} {ty : Ty}

/-- What a body ends with is given types by the literal around it. -/
theorem Fits.feeds_tail {rest : List (ScopeId × Arrow)} (fits : tree.Fits e ty rest)
    (h : tree.Numbered ids) (sub : ∀ p ∈ rest, p ∈ targets) {q : ScopeId × Arrow} (mem : q ∈ targets)
    (tail : (tree.scope q.1).body.getLast? = some e) (left : q.2.output = ty) :
    ∀ n ∈ tree.nodes .pre, ∀ p ∈ rest, p.1 ∈ tree.passedTo n.2 → Feeds tree targets p n := by
  have head {literal : FunctionLiteral} {span : Span} {arrow : Arrow} {e : Expr} {ty : Ty}
      {q : ScopeId × Arrow} (unwraps : e.unwrapped = .function literal span)
      (found : ty.arrow? = some arrow) (mem : q ∈ targets)
      (tail : (tree.scope q.1).body.getLast? = some e) (left : q.2.output = ty) :
      ∀ n ∈ tree.nodes .pre, literal.scope ∈ tree.passedTo n.2 →
        Feeds tree targets (literal.scope, arrow) n := by
    intro n hn reached
    rcases h.passes_to unwraps (List.mem_of_getLast? tail) (.inl rfl) hn reached with
      ⟨-, _, _, _, eq⟩ | ⟨outer, span', node, same, -, -⟩
    · rw [eq] at unwraps
      cases unwraps
    · refine .around node mem same ?_ rfl (left ▸ found)
      rw [tailLiteral?, tail, Option.bind_some, unwraps]
      rfl
  induction fits generalizing q with
  | last unwraps found =>
    intro n hn p hp reached
    cases List.mem_singleton.mp hp
    exact head unwraps found mem tail left n hn reached
  | next unwraps found inner _ ih =>
    intro n hn p hp reached
    rcases List.mem_cons.mp hp with rfl | hp
    · exact head unwraps found mem tail left n hn reached
    · exact ih (fun p hp => sub p (List.mem_cons_of_mem _ hp)) (sub _ List.mem_cons_self) inner rfl n hn p hp
        reached

/-- The literals of a declared value are given types by the declaration and by each other alone. -/
theorem Fits.feeds {id : ScopeId} {name : String} {type : TypeExpr} {span : Span} {v : Variable}
    (fits : tree.Fits e v.ty targets) (h : tree.Numbered ids)
    (declares : .varDecl name type e span ∈ (tree.scope id).body)
    (variable_ : (tree.scope id).vars.find? (·.name == name) = some v) :
    ∀ n ∈ tree.nodes .pre, ∀ p ∈ targets, p.1 ∈ tree.passedTo n.2 → Feeds tree targets p n := by
  have head {literal : FunctionLiteral} {span' : Span} {arrow : Arrow}
      (unwraps : e.unwrapped = .function literal span') (found : v.ty.arrow? = some arrow) :
      ∀ n ∈ tree.nodes .pre, literal.scope ∈ tree.passedTo n.2 →
        Feeds tree targets (literal.scope, arrow) n := by
    intro n hn reached
    rcases h.passes_to unwraps declares (.inr ⟨_, _, _, rfl⟩) hn reached with
      ⟨rfl, -⟩ | ⟨_, _, _, _, _, eq⟩
    · exact .declared rfl unwraps rfl variable_ found
    · rw [← eq] at unwraps
      cases unwraps
  intro n hn p hp reached
  cases fits with
  | last unwraps found =>
    cases List.mem_singleton.mp hp
    exact head unwraps found n hn reached
  | next unwraps found inner rest =>
    rcases List.mem_cons.mp hp with rfl | hp
    · exact head unwraps found n hn reached
    · exact rest.feeds_tail h (fun p hp => List.mem_cons_of_mem _ hp) List.mem_cons_self inner rfl n hn p hp
        reached

/-! ## From the outside in -/

/-- The node is the literal of a target. -/
def Shows (p : ScopeId × Arrow) (n : ScopeId × Expr) : Prop :=
  ∃ literal span, n.2 = .function literal span ∧ literal.scope = p.1

/-- The walk comes by the literals of a curried value one after the other. -/
theorem Fits.nodes (fits : tree.Fits e ty targets) {levels : Nat} {x : List ScopeId}
    (below : tree.Below (e.literals.map (·.scope)) x) (le : x.length ≤ levels) (outer : ScopeId) :
    ∃ ns, List.Forall₂ Shows targets ns ∧
      ns.Sublist (nodesWith .pre (tree.bodyNodesAt .pre levels) outer e) := by
  induction fits generalizing levels x outer with
  | @last e _ literal span _ unwraps _ =>
    have listed := literal_sublist_nodesWith (tree.bodyNodesAt .pre levels) outer e
      (function_mem_nodes unwraps)
    exact ⟨_, .cons ⟨literal, span, rfl, rfl⟩ .nil, (List.singleton_sublist.mpr List.mem_cons_self).trans listed⟩
  | @next e tail _ literal span _ _ unwraps _ last _ ih =>
    have listed := literal_sublist_nodesWith (tree.bodyNodesAt .pre levels) outer e
      (function_mem_nodes unwraps)
    obtain ⟨y, inside, fewer⟩ := below.child (List.mem_map_of_mem (mem_literals_of_unwrapped unwraps))
    obtain ⟨z, statement, less⟩ := inside.statement (List.mem_of_getLast? last)
    cases levels with
    | zero => omega
    | succ levels =>
      obtain ⟨ns, shown, sub⟩ := ih statement (show z.length ≤ levels by omega) literal.scope
      refine ⟨_, .cons ⟨literal, span, rfl, rfl⟩ shown, .trans (.cons_cons _ ?_) listed⟩
      exact sub.trans (sublist_flatMap _ (List.mem_of_getLast? last))

/-- What comes behind an element of a part of a list comes behind it in the list. -/
theorem sublist_behind {α : Type} {a : α} {part whole : List α} (h : (a :: part).Sublist whole) :
    ∃ front back, whole = front ++ a :: back ∧ part.Sublist back := by
  obtain ⟨r₁, r₂, rfl, mem, sub⟩ := List.cons_sublist_iff.mp h
  obtain ⟨front, middle, rfl⟩ := List.append_of_mem mem
  exact ⟨front, middle ++ r₂, by simp, sub.trans (List.sublist_append_right _ _)⟩

/-- A loop up to an element, over it and behind it. -/
theorem foldlM_around {α β ε : Type} {f : β → α → Except ε β} {front back : List α} {a : α}
    {start stop : β} (h : (front ++ a :: back).foldlM f start = .ok stop) :
    ∃ before after, front.foldlM f start = .ok before ∧ f before a = .ok after ∧
      back.foldlM f after = .ok stop := by
  rw [List.foldlM_append] at h
  obtain ⟨before, first, h⟩ := except_bind_ok h
  rw [List.foldlM_cons] at h
  obtain ⟨after, here, h⟩ := except_bind_ok h
  exact ⟨before, after, first, here, h⟩

/-- Once the outermost literal has its arrow, the walk over the literals gives each its own. -/
theorem Fits.given {rest : List (ScopeId × Arrow)} (fits : tree.Fits e ty rest)
    (sub : ∀ p ∈ rest, p ∈ targets) (small : ∀ p ∈ targets, p.1 < tree.count)
    {ns nodes : List (ScopeId × Expr)} (shown : List.Forall₂ Shows rest ns) (listed : ns.Sublist nodes)
    (feeds : ∀ n ∈ nodes, ∀ p ∈ targets, p.1 ∈ tree.passedTo n.2 → Feeds tree targets p n)
    (underway : Underway tree targets t) (first : ∀ p, rest.head? = some p → Given t p)
    (steps : nodes.foldlM passTypes t = .ok t') : ∀ p ∈ rest, Given t' p := by
  induction fits generalizing t ns nodes with
  | last =>
    intro p hp
    cases List.mem_singleton.mp hp
    exact (underway.nodes feeds steps).2 _ (sub _ List.mem_cons_self) (first _ rfl)
  | @next e tail _ literal span arrow rest unwraps found last inner ih =>
    have kept := (underway.nodes feeds steps).2 _ (sub _ List.mem_cons_self) (first _ rfl)
    obtain ⟨n, ns, ⟨literal', span', node, here⟩, others, rfl⟩ := List.forall₂_cons_left_iff.mp shown
    obtain ⟨front, back, rfl, behind⟩ := sublist_behind listed
    obtain ⟨before, after, steps, step, rest_steps⟩ := foldlM_around steps
    have feeds_front := fun m hm => feeds m (List.mem_append_left _ hm)
    have feeds_back := fun m hm => feeds m (List.mem_append_right _ (List.mem_cons_of_mem _ hm))
    obtain ⟨reached, holds⟩ := underway.nodes feeds_front steps
    have given : Given before (literal.scope, arrow) := holds _ (sub _ List.mem_cons_self) (first _ rfl)
    have beyond := (reached.step (feeds n (by simp)) step).1
    obtain ⟨literal₂, span₂, arrow₂, rest₂, unwraps₂, found₂, rfl⟩ := inner.head
    have next : Given after (literal₂.scope, arrow₂) := by
      obtain ⟨outer, e'⟩ := n
      cases node
      have mem := sub (literal₂.scope, arrow₂) (by simp)
      refine reached.around mem (small _ mem) given here ?_ rfl found₂ step
      rw [tailLiteral?, last, Option.bind_some, unwraps₂]
      rfl
    intro p hp
    rcases List.mem_cons.mp hp with rfl | hp
    · exact kept
    · refine ih (fun p hp => sub p (List.mem_cons_of_mem _ hp)) others behind feeds_back beyond ?_ rest_steps p hp
      intro p head
      cases head
      exact next

/-! ## All passes over a declaration -/

/-- The literals of a curried value have scopes if all literals of the tree do. -/
theorem Curried.small {scopes : List ScopeId} (curried : tree.Curried e scopes)
    (small : ∀ id : Nat, ∀ child ∈ tree.children id, child < tree.count) {id : Nat} {held : Expr}
    (here : held ∈ (tree.scope id).body) (bears : Bears held e) : ∀ s ∈ scopes, s < tree.count := by
  have own {literal : FunctionLiteral} {span : Span} {e held : Expr} {id : Nat}
      (unwraps : e.unwrapped = .function literal span) (here : held ∈ (tree.scope id).body)
      (bears : Bears held e) : literal.scope < tree.count :=
    small id _ (mem_children_of_literal here (mem_literals_of_nodes bears.nodes (mem_literals_of_unwrapped unwraps)))
  induction curried generalizing id held with
  | last unwraps => exact List.forall_mem_singleton.mpr (own unwraps here bears)
  | next unwraps last _ ih =>
    exact List.forall_mem_cons.mpr ⟨own unwraps here bears, ih (List.mem_of_getLast? last) (.inl rfl)⟩

theorem Fits.curried (fits : tree.Fits e ty targets) : tree.Curried e (targets.map (·.1)) := by
  induction fits with
  | last unwraps _ => exact .last unwraps
  | next unwraps _ last _ ih => exact .next unwraps last ih

theorem Numbered.small {ids : List Nat} (h : tree.Numbered ids) (id : Nat) :
    ∀ child ∈ tree.children id, child < tree.count := by
  intro child hc
  have listed : child ∈ tree.allLiterals.map (·.scope) := by
    rw [map_allLiterals]
    exact List.mem_flatMap.mpr ⟨id, List.mem_range.mpr (lt_of_mem_children hc), hc⟩
  exact ((h.mem_ids _).mp (h.scopes.mem_iff.mp listed)).1

theorem Read.small (h : tree.Read) (id : Nat) : ∀ child ∈ tree.children id, child < tree.count := by
  obtain ⟨ids, below, perm⟩ := h.owns
  intro child hc
  have listed : id ∈ ids := perm.mem_iff.mpr (List.mem_range.mpr (lt_of_mem_children hc))
  exact List.mem_range.mp (perm.mem_iff.mp (below.children_mem listed hc))

/-- Passing types on gives each literal of a declared value the arrow meant for it. -/
theorem Fits.passed {id : ScopeId} {name : String} {type : TypeExpr} {span : Span} {v : Variable}
    (fits : tree.Fits e v.ty targets) (h : tree.Numbered ids)
    (unset : ∀ id : Nat, (tree.scope id).arrow = .unset)
    (declares : .varDecl name type e span ∈ (tree.scope id).body)
    (variable_ : (tree.scope id).vars.find? (·.name == name) = some v)
    (steps : (tree.nodes .pre).foldlM passTypes tree = .ok tree') : ∀ p ∈ targets, Given tree' p := by
  have feeds := fits.feeds h declares variable_
  have small : ∀ p ∈ targets, p.1 < tree.count := fun p hp =>
    fits.curried.small h.small declares (.inr ⟨_, _, _, rfl⟩) p.1 (List.mem_map_of_mem hp)
  obtain ⟨levels, x, below, enough, listed⟩ := h.sublist_nodes (lt_of_mem_body declares)
  obtain ⟨y, statement, less⟩ := below.statement declares
  cases levels with
  | zero => omega
  | succ levels =>
    rw [Expr.literals] at statement
    obtain ⟨ns, shown, sub⟩ := fits.nodes statement (show y.length ≤ levels by omega) id
    have whole : ((id, Expr.varDecl name type e span) :: ns).Sublist (tree.nodes .pre) := by
      refine .trans ?_ ((sublist_flatMap _ declares).trans listed)
      rw [nodesWith]
      exact sub.cons_cons _
    obtain ⟨front, back, eq, behind⟩ := sublist_behind whole
    rw [eq] at steps feeds
    obtain ⟨before, after, front_steps, step, back_steps⟩ := foldlM_around steps
    have start : Underway tree targets tree := ⟨same_refl tree, fun p _ => .inl (unset p.1)⟩
    obtain ⟨reached, -⟩ := start.nodes (fun m hm => feeds m (List.mem_append_left _ hm)) front_steps
    have beyond := (reached.step (feeds _ (by simp)) step).1
    refine fits.given (fun _ hp => hp) small shown behind
      (fun m hm => feeds m (List.mem_append_right _ (List.mem_cons_of_mem _ hm))) beyond ?_ back_steps
    obtain ⟨literal, span', arrow, rest, unwraps, found, rfl⟩ := fits.head
    intro p head
    cases head
    have mem : (literal.scope, arrow) ∈ (literal.scope, arrow) :: rest := List.mem_cons_self
    exact reached.declared mem (small _ mem) unwraps rfl variable_ found step

/-- Finding arrows gives them their arrows for good, as none of them is made by desugaring. -/
theorem Fits.inferred {id : ScopeId} {name : String} {type : TypeExpr} {span : Span} {v : Variable}
    (fits : tree.Fits e v.ty targets) (h : tree.Numbered ids)
    (unset : ∀ id : Nat, (tree.scope id).arrow = .unset)
    (written : ∀ p ∈ targets, (tree.scope p.1).origin ≠ .composition ∧ (tree.scope p.1).origin ≠ .branch)
    (declares : .varDecl name type e span ∈ (tree.scope id).body)
    (variable_ : (tree.scope id).vars.find? (·.name == name) = some v)
    (infers : tree.inferArrows = .ok tree') : ∀ p ∈ targets, Given tree' p := by
  unfold inferArrows at infers
  obtain ⟨passed, first, infers⟩ := except_bind_ok infers
  obtain ⟨composed, second, third⟩ := except_bind_ok infers
  have passed_origin : Same (·.origin) tree passed :=
    same_foldlM first fun _ _ _ => same_passTypes fun _ _ => rfl
  have composed_origin : Same (·.origin) passed composed :=
    same_foldlM second fun _ _ _ => same_composeArrow fun _ _ => rfl
  intro p mem
  obtain ⟨plain, thick⟩ := written p mem
  rw [← passed_origin.scopes p.1] at plain thick
  have given := fits.passed h unset declares variable_ first p mem
  have kept := keepsArrow_composeArrows plain second
  rw [← composed_origin.scopes p.1] at thick
  exact ((keepsArrow_armArrows thick third).trans kept).trans given

end ScopeTree

/-! ## The declaration as it was read -/

section

variable {before after : ScopeTree}

theorem Desugared.split {e : Expr} {es ys : List Expr} (h : Desugared before after (e :: es) ys) :
    ∃ e' es', ys = e' :: es' ∧ Desugared before after [e] [e'] ∧ Desugared before after es es' := by
  cases h with
  | node stays shell inner rest => exact ⟨_, _, rfl, .node stays shell inner .nil, rest⟩
  | function scope inner rest => exact ⟨_, _, rfl, .function scope inner .nil, rest⟩
  | compose inner scope rest => exact ⟨_, _, rfl, .compose inner scope .nil, rest⟩
  | choose inner yes no rest => exact ⟨_, _, rfl, .choose inner yes no .nil, rest⟩

theorem Desugared.mem {xs ys : List Expr} (h : Desugared before after xs ys) {x : Expr} (hx : x ∈ xs) :
    ∃ y ∈ ys, Desugared before after [x] [y] := by
  induction xs generalizing ys with
  | nil => cases hx
  | cons first rest ih =>
    obtain ⟨e', es', rfl, here, behind⟩ := h.split
    rcases List.mem_cons.mp hx with rfl | hx
    · exact ⟨e', List.mem_cons_self, here⟩
    · obtain ⟨y, hy, inner⟩ := ih behind hx
      exact ⟨y, List.mem_cons_of_mem _ hy, inner⟩

theorem Desugared.getLast? {xs ys : List Expr} (h : Desugared before after xs ys) {x : Expr}
    (last : xs.getLast? = some x) : ∃ y, ys.getLast? = some y ∧ Desugared before after [x] [y] := by
  induction xs generalizing ys with
  | nil => cases last
  | cons first rest ih =>
    obtain ⟨e', es', rfl, here, behind⟩ := h.split
    cases rest with
    | nil =>
      cases behind
      cases last
      exact ⟨e', rfl, here⟩
    | cons second rest =>
      obtain ⟨y, found, inner⟩ := ih behind (by rwa [List.getLast?_cons_cons] at last)
      obtain ⟨_, _, rfl, -, -⟩ := behind.split
      exact ⟨y, by rwa [List.getLast?_cons_cons], inner⟩

/-- A declaration stays one, of the same name and type. -/
theorem Desugared.declaration {name : String} {type : TypeExpr} {value y : Expr} {span : Span}
    (h : Desugared before after [.varDecl name type value span] [y]) :
    ∃ value', y = .varDecl name type value' span ∧ Desugared before after [value] [value'] := by
  cases h with
  | node _ shell inner _ =>
    cases y with
    | varDecl name' type' value' span' =>
      cases shell
      exact ⟨value', rfl, inner⟩
    | _ => cases shell

/-- A literal stays one, in redundant parentheses too. -/
theorem Desugared.unwrapped {e e' : Expr} {literal : FunctionLiteral} {span : Span}
    (h : Desugared before after [e] [e']) (unwraps : e.unwrapped = .function literal span) :
    e'.unwrapped = .function literal span := by
  induction e using Expr.unwrapped.induct generalizing e' with
  | case1 value span' ih =>
    rw [Expr.unwrapped_parens] at unwraps
    cases h with
    | node _ shell inner _ =>
      cases e' with
      | tuple fields' span'' =>
        injection shell with labels
        obtain ⟨field, rfl, label⟩ := List.map_eq_singleton_iff.mp labels
        obtain ⟨label', value'⟩ := field
        cases label
        rw [Expr.unwrapped_parens]
        exact ih inner unwraps
      | _ => cases shell
  | case2 e other =>
    rw [Expr.unwrapped] at unwraps
    · subst unwraps
      cases h with
      | node stays => cases stays
      | function => rfl
    · exact other

end

namespace ScopeTree

variable {parsed plain listed : ScopeTree}

/-- Desugaring keeps curried values. -/
theorem Curried.desugared {e e' : Expr} {scopes : List ScopeId} (curried : parsed.Curried e scopes)
    (read : parsed.Read) (desugars : parsed.desugar = .ok plain) (h : Desugared parsed plain [e] [e']) :
    plain.Curried e' scopes := by
  induction curried generalizing e' with
  | last unwraps => exact .last (h.unwrapped unwraps)
  | next unwraps last _ ih =>
    obtain ⟨tail', last', inner⟩ :=
      (read.desugared_scope desugars (lt_of_mem_body (List.mem_of_getLast? last))).2.getLast? last
    exact .next (h.unwrapped unwraps) last' (ih inner)

theorem unwrapped_unnumbered (e : Expr) : e.unnumbered.unwrapped = e.unwrapped.unnumbered := by
  induction e using Expr.unwrapped.induct with
  | case1 value span ih =>
    rw [Expr.unnumbered, Expr.unnumberedFields, Expr.unnumberedFields, Expr.unwrapped_parens,
      Expr.unwrapped_parens, ih]
  | case2 e other =>
    rw [show e.unwrapped = e by rw [Expr.unwrapped]; exact other]
    cases e with
    | tuple fields span =>
      rcases fields with _ | ⟨⟨_ | label, value⟩, _ | ⟨_, _⟩⟩
      · rfl
      · exact (other value span rfl).elim
      · simp [Expr.unnumbered, Expr.unnumberedFields, Expr.unwrapped]
      · rfl
      · simp [Expr.unnumbered, Expr.unnumberedFields, Expr.unwrapped]
    | _ => rfl

/-- So does numbering. -/
theorem Renumbers.curried {e e' : Expr} {scopes : List ScopeId} (h : plain.Renumbers listed)
    (curried : plain.Curried e scopes) (same : e'.unnumbered = e.unnumbered) : listed.Curried e' scopes := by
  have literal {e e' : Expr} {literal : FunctionLiteral} {span : Span}
      (unwraps : e.unwrapped = .function literal span) (same : e'.unnumbered = e.unnumbered) :
      ∃ literal', e'.unwrapped = .function literal' span ∧ literal'.scope = literal.scope := by
    have eq := congrArg Expr.unwrapped same
    rw [unwrapped_unnumbered, unwrapped_unnumbered, unwraps, Expr.unnumbered] at eq
    cases found : e'.unwrapped with
    | function literal' span' =>
      rw [found, Expr.unnumbered] at eq
      simp only [Expr.function.injEq, FunctionLiteral.mk.injEq] at eq
      exact ⟨literal', by rw [eq.2], eq.1.2.2⟩
    | _ =>
      rw [found] at eq
      simp [Expr.unnumbered] at eq
  induction curried generalizing e' with
  | last unwraps =>
    obtain ⟨literal', unwraps', scope⟩ := literal unwraps same
    rw [← scope]
    exact .last unwraps'
  | next unwraps last _ ih =>
    obtain ⟨literal', unwraps', scope⟩ := literal unwraps same
    have texts := congrArg List.getLast? (h.body literal'.scope)
    rw [List.getLast?_map, List.getLast?_map, scope, last] at texts
    obtain ⟨tail', last', same'⟩ := Option.map_eq_some_iff.mp texts
    rw [← scope]
    exact .next unwraps' (scope ▸ last') (ih same')

/-- A declaration is numbered in its value. -/
theorem Renumbers.declaration (h : plain.Renumbers listed) {id : ScopeId} {name : String}
    {type : TypeExpr} {value : Expr} {span : Span}
    (declares : .varDecl name type value span ∈ (plain.scope id).body) :
    ∃ value', .varDecl name type value' span ∈ (listed.scope id).body ∧
      value'.unnumbered = value.unnumbered := by
  have found := List.mem_map_of_mem (f := Expr.unnumbered) declares
  rw [← h.body id] at found
  obtain ⟨e, he, eq⟩ := List.mem_map.mp found
  cases e with
  | varDecl name' type' value' span' =>
    simp only [Expr.unnumbered, Expr.varDecl.injEq] at eq
    obtain ⟨rfl, rfl, same, rfl⟩ := eq
    exact ⟨value', he, same⟩
  | _ => simp [Expr.unnumbered] at eq

/-- A variable declared in a scope is found under its name, with the type written for it. -/
theorem variable_of_entries {s : Scope} {name : String} {meaning : Except SemanticError Ty}
    (distinct : s.names.Nodup) (mem : (name, meaning) ∈ s.entries) :
    ∃ v, s.vars.find? (·.name == name) = some v ∧ meaning = .ok v.ty := by
  obtain ⟨v, hv, eq⟩ := List.mem_map.mp mem
  cases eq
  refine ⟨v, ?_, rfl⟩
  rw [Scope.names] at distinct
  generalize s.vars = vars at hv distinct
  induction vars with
  | nil => cases hv
  | cons first rest ih =>
    rw [List.map_cons, List.nodup_cons] at distinct
    rcases List.mem_cons.mp hv with rfl | hv
    · simp
    · rw [List.find?_cons_of_neg, ih hv distinct.2]
      simp only [beq_iff_eq]
      exact fun same => distinct.1 (same ▸ List.mem_map_of_mem hv)

/-- The passes up to the arrows of all literals. -/
def withArrows (tree : ScopeTree) : Except SemanticError ScopeTree := do
  let tree ← tree.desugar
  let tree ← tree.number.declareTypes
  let tree ← tree.declareVariables
  let tree ← tree.declareFunctions
  tree.inferArrows

/-- A program all of whose variables are declared with their types, and whose arrows are open. -/
structure Declared (plain listed : ScopeTree) : Prop where
  numbered : ∃ ids, listed.Numbered ids
  renumbers : plain.Renumbers listed
  unset : ∀ id : Nat, (listed.scope id).arrow = .unset
  declares : ∀ {id : ScopeId} {name : String} {type : TypeExpr} {value : Expr} {span : Span},
    .varDecl name type value span ∈ (listed.scope id).body →
      ∃ v, (listed.scope id).vars.find? (·.name == name) = some v ∧ listed.resolveType id type = .ok v.ty

theorem Read.declare {typed declared : ScopeTree} (h : plain.Read)
    (h₂ : plain.number.declareTypes = .ok typed) (h₃ : typed.declareVariables = .ok declared)
    (h₄ : declared.declareFunctions = .ok listed) : Declared plain listed := by
  obtain ⟨⟨ids, numbered⟩, undeclared⟩ := h.number
  obtain ⟨listed_count, listed_scope⟩ := declareFunctions_scope h₄
  have typed_shape : Same Scope.shape plain.number typed := same_declareTypes (fun _ _ => rfl) h₂
  have typed_arrow : Same (·.arrow) plain.number typed := same_declareTypes (fun _ _ => rfl) h₂
  have typed_vars : Same (·.vars) plain.number typed := same_declareTypes (fun _ _ => rfl) h₂
  have typed_numbered := numbered.congr typed_shape.count typed_shape.scopes
  have declared_shape : Same Scope.shape typed declared := same_declareVariables (fun _ _ => rfl) h₃
  have declared_arrow : Same (·.arrow) typed declared := same_declareVariables (fun _ _ => rfl) h₃
  have declared_typing : Same Scope.typing typed declared := same_declareVariables (fun _ _ => rfl) h₃
  have typing : SameTyping typed listed := declared_typing.typing.trans
    ⟨listed_count, fun id => congrArg Scope.typing (listed_scope id)⟩
  refine ⟨⟨ids, typed_numbered.congr (listed_count.trans declared_shape.count) fun id => ?_⟩,
    (renumbers_number plain).declare h₂ h₃ h₄, fun id => ?_, fun {id name type value span} declares => ?_⟩
  · rw [listed_scope]
    exact declared_shape.scopes id
  · rw [listed_scope]
    exact ((declared_arrow.scopes id).trans (typed_arrow.scopes id)).trans (undeclared id).1
  · obtain ⟨entries, distinct⟩ := typed_numbered.entries_declareVariables h₃
      (fun i => (typed_vars.scopes i).trans (undeclared i).2.1) id
    rw [listed_scope] at declares ⊢
    rw [← body_of_shape (declared_shape.scopes id)] at entries
    have listed_declares : (name, type, span) ∈ varDeclarations (declared.scope id).body :=
      List.mem_filterMap.mpr ⟨_, declares, rfl⟩
    obtain ⟨v, found, meaning⟩ := variable_of_entries distinct (entries ▸ List.mem_map_of_mem listed_declares)
    exact ⟨v, found, (typing.resolveType id type).trans meaning⟩

/-- In every program whose arrows can be found, the literals of a declared value that is curried as far
as its type have the arrows of the type: each takes the next input and gives what is left. -/
theorem curried_arrows {tokens : List Token} {parsed inferred : ScopeTree}
    (read : Grammar.readProgram tokens = .ok parsed) (infers : parsed.withArrows = .ok inferred)
    {id : ScopeId} {name : String} {type : TypeExpr} {value : Expr} {span : Span}
    (declares : .varDecl name type value span ∈ (parsed.scope id).body) {scopes : List ScopeId}
    (curried : parsed.Curried value scopes) {ty : Ty} (typed : inferred.resolveType id type = .ok ty)
    {inputs : List Ty} {output : Ty} (length : inputs.length = scopes.length)
    (matched : ty.Matches (Ty.curried inputs output)) {i : Nat} {scope : ScopeId} {input : Ty}
    (hs : scopes[i]? = some scope) (hi : inputs[i]? = some input) :
    (inferred.scope scope).arrow.input.Matches input ∧
      (inferred.scope scope).arrow.output.Matches (Ty.curried (inputs.drop (i + 1)) output) := by
  have unread := Grammar.readProgram_read read
  unfold withArrows at infers
  obtain ⟨plain, h₁, infers⟩ := except_bind_ok infers
  obtain ⟨typed_tree, h₂, infers⟩ := except_bind_ok infers
  obtain ⟨declared, h₃, infers⟩ := except_bind_ok infers
  obtain ⟨listed, h₄, h₅⟩ := except_bind_ok infers
  have known := (unread.desugar h₁).declare h₂ h₃ h₄
  obtain ⟨ids, numbered⟩ := known.numbered
  -- the declaration and its literals are still there, and its variable has the declared type
  obtain ⟨y, hy, stated⟩ := (unread.desugared_scope h₁ (lt_of_mem_body declares)).2.mem declares
  obtain ⟨value₁, rfl, inner⟩ := stated.declaration
  obtain ⟨value₂, declares₂, same⟩ := known.renumbers.declaration hy
  have curried₂ := known.renumbers.curried (curried.desugared unread h₁ inner) same
  obtain ⟨v, variable_, meaning⟩ := known.declares declares₂
  have typing : Same Scope.typing listed inferred := same_inferArrows (fun _ _ => rfl) h₅
  rw [typing.typing.resolveType, meaning] at typed
  cases typed
  obtain ⟨arrows, fits, same_length, all⟩ := curried₂.fits length matched
  have written (p : ScopeId × Arrow) (mem : p ∈ scopes.zip arrows) :
      (listed.scope p.1).origin ≠ .composition ∧ (listed.scope p.1).origin ≠ .branch := by
    have small := curried.small unread.small declares (.inr ⟨_, _, _, rfl⟩) p.1 (List.of_mem_zip mem).1
    rw [known.renumbers.origin, (unread.desugared_scope h₁ small).1]
    rcases Grammar.readProgram_written read p.1 with origin | origin <;> rw [origin] <;> decide
  obtain ⟨lt, -⟩ := List.getElem?_eq_some_iff.mp hs
  have found : arrows[i]? = some arrows[i] := List.getElem?_eq_getElem (same_length ▸ lt)
  have given : (inferred.scope scope).arrow = arrows[i] := by
    refine fits.inferred numbered known.unset written declares₂ variable_ h₅ (scope, arrows[i]) ?_
    exact List.mem_of_getElem? (List.getElem?_zip_eq_some.mpr ⟨hs, found⟩)
  rw [given]
  exact all i _ input found hi

/-- The first variable that a body declares: its name, the type written for it and its value. -/
def declaration? (body : List Expr) : Option (String × TypeExpr × Expr × Span) :=
  body.findSome? fun
    | .varDecl name type value span => some (name, type, value, span)
    | _ => none

theorem mem_of_declaration? {body : List Expr} {name : String} {type : TypeExpr} {value : Expr}
    {span : Span} (h : declaration? body = some (name, type, value, span)) :
    .varDecl name type value span ∈ body := by
  obtain ⟨e, mem, found⟩ := List.exists_of_findSome?_eq_some h
  cases e with
  | varDecl =>
    cases found
    exact mem
  | _ => cases found

/-- A type with an alias in it, a literal in parentheses and one behind another statement. -/
theorem curried_arrows_aliased : ∃ tokens parsed inferred name type value span ty,
    readTokens (": F = int > int; [ add: int > int > F = " ++
        "(\\a > \x7b [ d: int = a; (\\b > \\c > a + b + c) \x7d)") = .ok tokens ∧
      Grammar.readProgram tokens = .ok parsed ∧ parsed.withArrows = .ok inferred ∧
      .varDecl name type value span ∈ (parsed.scope 0).body ∧ parsed.Curried value [3, 2, 1] ∧
      inferred.resolveType 0 type = .ok ty ∧ ty.Matches (Ty.curried [.int, .int, .int] .int) ∧
      (inferred.scope 2).arrow.input.Matches .int ∧
      (inferred.scope 2).arrow.output.Matches (Ty.curried [.int] .int) := by
  have found : (do
      let tokens ← (readTokens (": F = int > int; [ add: int > int > F = " ++
        "(\\a > \x7b [ d: int = a; (\\b > \\c > a + b + c) \x7d)")).toOption
      let parsed ← (Grammar.readProgram tokens).toOption
      let inferred ← parsed.withArrows.toOption
      let declared ← declaration? (parsed.scope 0).body
      let ty ← (inferred.resolveType 0 declared.2.1).toOption
      if parsed.Curried declared.2.2.1 [3, 2, 1] ∧ ty.Matches (Ty.curried [.int, .int, .int] .int) then
        some ()
      else none) = some () := by decide +kernel
  obtain ⟨tokens, ht, found⟩ := Option.bind_eq_some_iff.mp found
  obtain ⟨parsed, hp, found⟩ := Option.bind_eq_some_iff.mp found
  obtain ⟨inferred, hr, found⟩ := Option.bind_eq_some_iff.mp found
  obtain ⟨⟨name, type, value, span⟩, first, found⟩ := Option.bind_eq_some_iff.mp found
  obtain ⟨ty, typed, found⟩ := Option.bind_eq_some_iff.mp found
  have declares := mem_of_declaration? first
  split at found
  · rename_i facts
    obtain ⟨input, output⟩ := curried_arrows (toOption_eq_some hp) (toOption_eq_some hr) declares
      facts.1 (toOption_eq_some typed) rfl facts.2 (i := 1) rfl rfl
    exact ⟨tokens, parsed, inferred, name, type, value, span, ty, toOption_eq_some ht,
      toOption_eq_some hp, toOption_eq_some hr, declares, facts.1, toOption_eq_some typed, facts.2,
      input, output⟩
  · cases found

end ScopeTree

end WindowedClosures
