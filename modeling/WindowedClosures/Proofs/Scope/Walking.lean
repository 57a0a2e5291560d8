import WindowedClosures.Proofs.Scope.Nesting
import WindowedClosures.Scope.Walk

/-!
# Walks that leave the tree as it was

A visitor that changes no statement is shown the nodes below a scope in order, until it fails for the
first time. Whenever it is called, the statements of the scope that it stands in and of those around it
on the walk are out of the tree. When the walk is over they are all back, however deep it failed.
-/

namespace WindowedClosures

namespace ScopeTree

variable {tree other : ScopeTree} {away away' : ScopeId → Prop} {id : ScopeId}

theorem ext_scopes (count : other.count = tree.count) (functions : other.functions = tree.functions)
    (scopes : ∀ id : ScopeId, other.scope id = tree.scope id) : other = tree := by
  cases tree with
  | mk all functions' =>
    cases other with
    | mk all' functions'' =>
      cases functions
      congr 1
      refine Array.ext count fun i lt' lt => ?_
      have same := scopes i
      rwa [scope, scope, Array.getElem?_eq_getElem lt', Array.getElem?_eq_getElem lt] at same

open Classical in
/-- The tree with the statements of some scopes moved out. -/
noncomputable def without (tree : ScopeTree) (away : ScopeId → Prop) : ScopeTree :=
  { tree with scopes := tree.scopes.mapIdx fun id s => if away id then { s with body := [] } else s }

@[simp] theorem count_without (tree : ScopeTree) (away : ScopeId → Prop) :
    (tree.without away).count = tree.count := by
  simp [without, count]

open Classical in
theorem scope_without (tree : ScopeTree) (away : ScopeId → Prop) (id : ScopeId) :
    (tree.without away).scope id =
      if away id then { tree.scope id with body := [] } else tree.scope id := by
  unfold without scope
  dsimp only
  rw [Array.getElem?_mapIdx]
  cases tree.scopes[id]? with
  | none => exact (ite_self _).symm
  | some s => rfl

theorem scope_without_of (away : ScopeId → Prop) (out : away id) :
    (tree.without away).scope id = { tree.scope id with body := [] } := by
  rw [scope_without, if_pos out]

theorem scope_without_of_not (kept : ¬ away id) : (tree.without away).scope id = tree.scope id := by
  rw [scope_without, if_neg kept]

theorem without_eq_self (none : ∀ id, ¬ away id) : tree.without away = tree :=
  ext_scopes (by simp) rfl fun id => scope_without_of_not (none id)

theorem without_congr (same : ∀ id, away' id ↔ away id) : tree.without away' = tree.without away := by
  rw [funext fun id => propext (same id)]

/-- The statements of one scope more are moved out. -/
theorem setBody_without (tree : ScopeTree) (away : ScopeId → Prop) (id : ScopeId) :
    (tree.without away).setBody id [] = tree.without fun other => other = id ∨ away other := by
  refine ext_scopes (by simp) rfl fun other => ?_
  rw [setBody, scope_modify, count_without]
  by_cases here : other = id
  · rw [scope_without_of (fun other => other = id ∨ away other) (.inl here)]
    split
    · by_cases out : away other
      · rw [scope_without_of away out]
      · rw [scope_without_of_not out]
    · rename_i missing
      have large : tree.count ≤ other := Nat.le_of_not_lt fun lt => missing ⟨here, here ▸ lt⟩
      rw [scope_of_count_le _ (by simpa using large), scope_of_count_le tree large]
      rfl
  · rw [if_neg (fun h => here h.1)]
    by_cases out : away other
    · rw [scope_without_of away out, scope_without_of (fun other => other = id ∨ away other) (.inr out)]
    · rw [scope_without_of_not out, scope_without_of_not (by tauto)]

/-- Statements that were moved out are put back. -/
theorem setBody_back (tree : ScopeTree) (id : ScopeId) :
    (tree.setBody id []).setBody id (tree.scope id).body = tree := by
  refine ext_scopes (by simp) rfl fun other => ?_
  rw [setBody, setBody, scope_modify, scope_modify]
  by_cases here : other = id ∧ id < tree.count
  · obtain ⟨rfl, lt⟩ := here
    rw [if_pos ⟨rfl, by simpa using lt⟩, if_pos ⟨rfl, lt⟩]
  · rw [count_modify, if_neg here, if_neg here]

end ScopeTree

/-! ## Calls of a visitor -/

variable {ε σ : Type}

/-- The visitor leaves the tree as it is, whether it fails or not. -/
def Visitor.KeepsTree (visit : Visitor ε σ) : Prop :=
  ∀ id e t, (∃ seen, visit id e t = .ok () ⟨t.tree, seen⟩) ∨
    ∃ fault seen, visit id e t = .error fault ⟨t.tree, seen⟩

/-- Call the visitor on one node after the other, each time with the tree that is there during a visit
of the node's scope, until it fails. -/
def Visitor.callAll (visit : Visitor ε σ) (during : ScopeId → ScopeTree) :
    List (ScopeId × Expr) → σ → Except ε Unit × σ
  | [], seen => (.ok (), seen)
  | (id, e) :: rest, seen =>
    match visit id e ⟨during id, seen⟩ with
    | .ok _ t => visit.callAll during rest t.seen
    | .error fault t => (.error fault, t.seen)

namespace Tour

/-- The end of a walk that leaves this tree. -/
def ended (tree : ScopeTree) : Except ε Unit × σ → EStateM.Result ε (Tour σ) Unit
  | (.ok _, seen) => .ok () ⟨tree, seen⟩
  | (.error fault, seen) => .error fault ⟨tree, seen⟩

variable {visit : Visitor ε σ} {during : ScopeId → ScopeTree} {tree : ScopeTree}
  {x y : EStateM ε (Tour σ) Unit} {a b : List (ScopeId × Expr)} {id : ScopeId} {order : Order}

/-- On this tree the visitor is called on these nodes, and the tree is left as it is. -/
def CallsOn (visit : Visitor ε σ) (during : ScopeId → ScopeTree) (tree : ScopeTree)
    (x : EStateM ε (Tour σ) Unit) (nodes : List (ScopeId × Expr)) : Prop :=
  ∀ seen, x ⟨tree, seen⟩ = ended tree (visit.callAll during nodes seen)

theorem callsOn_pure : CallsOn visit during tree (pure ()) [] := fun _ => rfl

theorem callsOn_visit (keeps : visit.KeepsTree) (here : during id = tree) (e : Expr) :
    CallsOn visit during tree (visit id e) [(id, e)] := by
  intro seen
  rw [Visitor.callAll, here]
  rcases keeps id e ⟨tree, seen⟩ with ⟨last, called⟩ | ⟨fault, last, called⟩
  · rw [called]
    rfl
  · rw [called]
    rfl

/-- What is behind a call that fails is not reached. -/
theorem callAll_append (seen : σ) : visit.callAll during (a ++ b) seen =
    match visit.callAll during a seen with
    | (.ok _, seen) => visit.callAll during b seen
    | failed => failed := by
  induction a generalizing seen with
  | nil => rfl
  | cons node rest ih =>
    rw [List.cons_append, Visitor.callAll, Visitor.callAll]
    split
    · exact ih _
    · rfl

theorem callsOn_bind (first : CallsOn visit during tree x a) (second : CallsOn visit during tree y b) :
    CallsOn visit during tree (x >>= fun _ => y) (a ++ b) := by
  intro seen
  have begun := first seen
  rw [callAll_append]
  cases called : visit.callAll during a seen with
  | mk result middle =>
    rw [called] at begun
    show EStateM.bind x (fun _ => y) _ = _
    rw [EStateM.bind, begun]
    cases result with
    | ok _ => exact second middle
    | error fault => rfl

theorem callsOn_visiting {node : ScopeId × Expr} (here : CallsOn visit during tree x [node])
    (children : CallsOn visit during tree y a) :
    CallsOn visit during tree (visiting order x y) (order.place node a) := by
  cases order with
  | pre => exact callsOn_bind here children
  | post => exact callsOn_bind children here

variable {enter : ScopeId → EStateM ε (Tour σ) Unit} {bodyNodes : ScopeId → List (ScopeId × Expr)}

theorem callsOn_walkAll {body : List Expr}
    (each : ∀ e ∈ body, CallsOn visit during tree (walkExpr visit order enter id e)
      (ScopeTree.nodesWith order bodyNodes id e)) :
    CallsOn visit during tree (walkAll visit order enter id body)
      (body.flatMap (ScopeTree.nodesWith order bodyNodes id)) := by
  induction body with
  | nil => exact callsOn_pure
  | cons e rest ih =>
    exact callsOn_bind (each e (by simp)) (ih fun e' mem => each e' (by simp [mem]))

/-- Walk the body of an expression that is a literal. -/
def walkBody (enter : ScopeId → EStateM ε (Tour σ) Unit) (e : Expr) : EStateM ε (Tour σ) Unit :=
  match e.asFunction? with
  | some l => enter l.scope
  | none => return ()

/-- A node is visited beside its body, if it is a literal, or its parts. -/
theorem walkExpr_eq (e : Expr) : walkExpr visit order enter id e = visiting order (visit id e) (do
    walkBody enter e
    walkAll visit order enter id e.parts) := by
  have of_fields (fields : List (Labelled Expr)) :
      walkFields visit order enter id fields = walkAll visit order enter id (fields.map (·.value)) := by
    induction fields with
    | nil => rfl
    | cons first rest ih => rw [walkFields, ih, List.map_cons, walkAll]
  cases e with
  | tuple fields span => simp [walkExpr, walkBody, Expr.asFunction?, Expr.parts, of_fields]
  | _ => cases order <;> simp [walkExpr, walkBody, Expr.asFunction?, Expr.parts, visiting, walkAll]

theorem callsOn_walkBody {e : Expr}
    (enters : ∀ l ∈ e.asFunction?, CallsOn visit during tree (enter l.scope) (bodyNodes l.scope)) :
    CallsOn visit during tree (walkBody enter e)
      (e.asFunction?.toList.flatMap fun l => bodyNodes l.scope) := by
  unfold walkBody
  cases found : e.asFunction? with
  | none => exact callsOn_pure
  | some l => simpa using enters l found

/-- An expression is visited node by node, if entering its literals shows the nodes of their bodies. -/
theorem callsOn_walkExpr (keeps : visit.KeepsTree) (order : Order) (here : during id = tree) (e : Expr)
    (enters : ∀ l ∈ e.literals, CallsOn visit during tree (enter l.scope) (bodyNodes l.scope)) :
    CallsOn visit during tree (walkExpr visit order enter id e)
      (ScopeTree.nodesWith order bodyNodes id e) := by
  induction e using Expr.of_parts with
  | step e ih =>
    rw [Expr.literals_eq_parts] at enters
    rw [walkExpr_eq, ScopeTree.nodesWith_eq]
    refine callsOn_visiting (callsOn_visit keeps here e) (callsOn_bind ?_ (callsOn_walkAll ?_))
    · exact callsOn_walkBody fun l hl => enters l (List.mem_append_left _ (by simpa using hl))
    · exact fun part hp => ih part hp fun l hl => enters l
        (List.mem_append_right _ (List.mem_flatMap.mpr ⟨part, hp, hl⟩))

/-- The statements of a scope are put back however their walk ends. -/
theorem walkScope_of_ended {nested : Bool} {levels : Nat} {t : Tour σ} {result : Except ε Unit × σ}
    (walked : walkAll visit order (if nested then walkScope visit order nested levels else fun _ => return ())
      id (t.tree.scope id).body (t.setBody id []) = ended tree result) :
    walkScope visit order nested (levels + 1) id t =
      ended (tree.setBody id (t.tree.scope id).body) result := by
  obtain ⟨outcome, last⟩ := result
  unfold walkScope
  cases outcome with
  | ok _ =>
    dsimp only
    split
    · rename_i found
      cases found.symm.trans walked
      rfl
    · rename_i found
      cases found.symm.trans walked
  | error fault =>
    dsimp only
    split
    · rename_i found
      cases found.symm.trans walked
    · rename_i found
      cases found.symm.trans walked
      rfl

end Tour

namespace ScopeTree

open Tour

variable {tree : ScopeTree} {start id : ScopeId} {visit : Visitor ε σ} {order : Order} {nested : Bool}
  {levels : Nat}

/-- The tree during a visit of a scope: its statements, and those of the scopes around it from the start
of the walk on, are moved out. -/
noncomputable def duringVisit (tree : ScopeTree) (start id : ScopeId) : ScopeTree :=
  tree.without fun outer => tree.Encloses start outer ∧ tree.Encloses outer id

/-- The tree before and after a visit of a scope: the statements of the scopes around it are moved out. -/
noncomputable def aroundVisit (tree : ScopeTree) (start id : ScopeId) : ScopeTree :=
  tree.without fun outer => tree.Encloses start outer ∧ tree.Holds outer id

theorem setBody_aroundVisit (path : tree.Encloses start id) :
    (tree.aroundVisit start id).setBody id [] = tree.duringVisit start id := by
  refine (setBody_without tree _ id).trans (without_congr fun outer => ?_)
  rw [encloses_iff (b := id), eq_comm (a := id)]
  constructor
  · rintro (rfl | ⟨begun, holds⟩)
    · exact ⟨path, .inl rfl⟩
    · exact ⟨begun, .inr holds⟩
  · rintro ⟨begun, rfl | holds⟩
    · exact .inl rfl
    · exact .inr ⟨begun, holds⟩

theorem Forest.aroundVisit_eq (h : tree.Forest) {child : ScopeId} (owns : tree.Owns id child) :
    tree.aroundVisit start child = tree.duringVisit start id :=
  without_congr fun _ => and_congr_right fun _ => h.holds_iff owns

/-- Walking a scope shows its nodes, if entering its literals shows the nodes of their bodies, and puts
its statements back. -/
theorem Forest.callsOn_walkScope_succ (h : tree.Forest) (keeps : visit.KeepsTree)
    (path : tree.Encloses start id) (enters : nested = true → ∀ child ∈ tree.children id,
      CallsOn visit (tree.duringVisit start) (tree.duringVisit start id)
        (walkScope visit order nested levels child) (tree.bodyNodesAt order levels child)) :
    CallsOn visit (tree.duringVisit start) (tree.aroundVisit start id)
      (walkScope visit order nested (levels + 1) id)
      ((tree.scope id).body.flatMap
        (nodesWith order (if nested then tree.bodyNodesAt order levels else fun _ => []) id)) := by
  have body : ((tree.aroundVisit start id).scope id).body = (tree.scope id).body := by
    rw [aroundVisit, scope_without_of_not fun out => h.apart id out.2]
  have entered : ∀ e ∈ (tree.scope id).body, ∀ l ∈ e.literals,
      CallsOn visit (tree.duringVisit start) (tree.duringVisit start id)
        ((if nested then walkScope visit order nested levels else fun _ => return ()) l.scope)
        ((if nested then tree.bodyNodesAt order levels else fun _ => []) l.scope) := by
    intro e he l hl
    have owns := mem_children_of_literal he hl
    split
    · rename_i all
      exact enters all l.scope owns
    · exact callsOn_pure
  have walked := callsOn_walkAll fun e he => callsOn_walkExpr keeps order rfl e (entered e he)
  intro seen
  have begun := walked seen
  rw [← setBody_aroundVisit path, ← body] at begun
  rw [walkScope_of_ended (t := ⟨tree.aroundVisit start id, seen⟩) begun, setBody_back, body]

/-- Walking a scope shows its nodes through all levels. -/
theorem Forest.callsOn_walkScope (h : tree.Forest) (keeps : visit.KeepsTree) (order : Order)
    (nested : Bool) (levels : Nat) (path : tree.Encloses start id) :
    CallsOn visit (tree.duringVisit start) (tree.aroundVisit start id)
      (walkScope visit order nested (levels + 1) id)
      ((tree.scope id).body.flatMap
        (nodesWith order (if nested then tree.bodyNodesAt order levels else fun _ => []) id)) := by
  induction levels generalizing id with
  | zero => exact h.callsOn_walkScope_succ keeps path fun _ _ _ => callsOn_pure
  | succ levels ih =>
    refine h.callsOn_walkScope_succ keeps path fun all child owns => ?_
    have below := ih (path.tail owns)
    rwa [h.aroundVisit_eq owns, if_pos all] at below

/-- Where a walk starts there are no scopes around it that it goes through. -/
theorem Forest.aroundVisit_start (h : tree.Forest) (start : ScopeId) :
    tree.aroundVisit start start = tree :=
  without_eq_self fun _ out => h.apart start (Relation.TransGen.trans_right out.1 out.2)

/-- A walk with a visitor that keeps the tree calls it on the nodes below the start, each once and in
order, up to the first call that fails; during each call the statements of the scope that is visited and
of those around it on the walk are moved out, and all others stand where they are. Behind the walk the
tree is what it was, whether and wherever the visitor failed. -/
theorem walk_keeps_tree (forest : tree.Forest) (keeps : visit.KeepsTree) (order : Order) (nested : Bool)
    (start : ScopeId) (seen : σ) :
    (∃ ended last,
      visit.callAll (tree.duringVisit start) (tree.nodesBelow order nested start) seen = (ended, last) ∧
        tree.walk visit order nested start seen = (ended, ⟨tree, last⟩)) ∧
      (∀ id, tree.nodesBelow order nested id = (tree.scope id).body.flatMap
        (nodesWith order (if nested then tree.nodesBelow order nested else fun _ => []) id)) ∧
      ∃ scopes : List ScopeId, scopes.Nodup ∧
        (∀ id, id ∈ scopes ↔ if nested then tree.Encloses start id else id = start) ∧
        (tree.nodesBelow order nested start).Perm (scopes.flatMap tree.ownNodes) := by
  refine ⟨?_, forest.nodesBelow_eq order nested, forest.nodesBelow_perm order nested start⟩
  have walked := forest.callsOn_walkScope keeps order nested tree.count
    (Relation.ReflTransGen.refl (a := start)) seen
  rw [forest.aroundVisit_start] at walked
  have met : tree.nodesBelow order nested start = (tree.scope start).body.flatMap
      (nodesWith order (if nested then tree.bodyNodesAt order tree.count else fun _ => []) start) := rfl
  rw [← met] at walked
  cases called : visit.callAll (tree.duringVisit start) (tree.nodesBelow order nested start) seen with
  | mk ended last =>
    refine ⟨ended, last, rfl, ?_⟩
    unfold walk
    rw [walked, called]
    cases ended <;> rfl

/-- A visitor that writes down every node, and fails at a name. -/
def notingUntil (name : String) : Visitor String (List String) := fun _ e t =>
  if e.asName? = some name then .error name { t with seen := t.seen ++ [e.render] }
  else .ok () { t with seen := t.seen ++ [e.render] }

theorem keepsTree_notingUntil (name : String) : (notingUntil name).KeepsTree := by
  intro id e t
  unfold notingUntil
  split
  · exact .inr ⟨_, _, rfl⟩
  · exact .inl ⟨_, rfl⟩

/-- The visitor fails in a function inside another, with statements left in both. -/
theorem walk_keeps_tree_nested : ∃ tokens tree,
    readTokens "[ f: int > int = \\x > \x7b [ g: int > int = \\y > \x7b 1 + y; 2 \x7d; g # x \x7d; f # 3" =
      .ok tokens ∧
      Grammar.readProgram tokens = .ok tree ∧ tree.Forest ∧ (notingUntil "y").KeepsTree ∧
      (notingUntil "y").callAll (tree.duringVisit rootId) (tree.nodesBelow .pre true rootId) [] =
        (.error "y", ["[ f: int > int = \\x > \x7bfn 0\x7d", "\\x > \x7bfn 0\x7d",
          "[ g: int > int = \\y > \x7bfn 0\x7d", "\\y > \x7bfn 0\x7d", "(1 + y)", "1", "y"]) ∧
      (tree.walk (notingUntil "y") .pre true rootId []).2.tree = tree := by
  have found : (do
      let tokens ← (readTokens
        "[ f: int > int = \\x > \x7b [ g: int > int = \\y > \x7b 1 + y; 2 \x7d; g # x \x7d; f # 3").toOption
      let tree ← (Grammar.readProgram tokens).toOption
      match tree.walk (notingUntil "y") .pre true rootId [] with
      | (.error "y", t) =>
        if t.seen = ["[ f: int > int = \\x > \x7bfn 0\x7d", "\\x > \x7bfn 0\x7d",
          "[ g: int > int = \\y > \x7bfn 0\x7d", "\\y > \x7bfn 0\x7d", "(1 + y)", "1", "y"]
        then some () else none
      | _ => none) = some () := by decide +kernel
  obtain ⟨tokens, ht, found⟩ := Option.bind_eq_some_iff.mp found
  obtain ⟨tree, hr, found⟩ := Option.bind_eq_some_iff.mp found
  obtain ⟨ids, below, perm⟩ := (Grammar.readProgram_read (toOption_eq_some hr)).owns
  have forest := (below.formed perm).forest
  obtain ⟨⟨ended, last, called, walked⟩, -⟩ :=
    walk_keeps_tree forest (keepsTree_notingUntil "y") .pre true rootId []
  rw [walked] at found
  split at found
  · rename_i same
    cases same
    split at found
    · rename_i seen
      have seen : last = _ := seen
      rw [seen] at called
      exact ⟨tokens, tree, toOption_eq_some ht, toOption_eq_some hr, forest,
        keepsTree_notingUntil "y", called, by rw [walked]⟩
    · cases found
  · cases found

end ScopeTree

end WindowedClosures
