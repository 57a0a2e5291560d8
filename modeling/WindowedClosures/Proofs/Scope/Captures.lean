import Mathlib.Tactic.Tauto
import WindowedClosures.Proofs.Code.Emission
import WindowedClosures.Proofs.Machine.Windows
import WindowedClosures.Proofs.Scope.Ancestry

/-!
# Captures are complete

Captures are found from the inside out. While a literal is treated, its enclosing scopes have
captured nothing yet, so a name means what it means without captures; and the literals inside it are
settled, so what they took is among the names it uses. Hence every captured value is at hand in the
scope around the literal, as a variable of that scope or because the scope captured it too.
-/

namespace WindowedClosures

mutual

/-- The names that stand in an expression as values, outside the bodies of literals. -/
def Expr.names : Expr → List String
  | .name value _ => [value]
  | .tuple fields _ => namesOfFields fields
  | .varDecl _ _ value _ => value.names
  | .binary .field lhs _ _ => lhs.names
  | .binary _ lhs rhs _ => lhs.names ++ rhs.names
  | .unary _ operand _ => operand.names
  | .function .. | .int .. | .hex .. | .float .. | .text .. | .typeDecl .. => []

def Expr.namesOfFields : List (Labelled Expr) → List String
  | [] => []
  | ⟨_, value⟩ :: rest => value.names ++ Expr.namesOfFields rest

end

/-- The names of values in statements. -/
def namesOf (body : List Expr) : List String := body.flatMap Expr.names

/-- The names of captured variables. -/
def Scope.captured (s : Scope) : List String := s.closure.map (·.name)

theorem mem_addName {names : List String} {name n : String} :
    n ∈ addName names name ↔ n ∈ names ∨ n = name := by
  unfold addName
  split
  · rename_i found
    have found : name ∈ names := by simpa using found
    constructor
    · exact .inl
    · rintro (h | rfl)
      · exact h
      · exact found
  · simp

theorem mem_foldl_addName (added names : List String) (n : String) :
    n ∈ added.foldl addName names ↔ n ∈ names ∨ n ∈ added := by
  induction added generalizing names with
  | nil => simp
  | cons first rest ih => rw [List.foldl_cons, ih, mem_addName, List.mem_cons, or_assoc]

namespace ScopeTree

variable {tree tree' : ScopeTree}

/-- Some literal among these has captured the name. -/
def CapturedBy (tree : ScopeTree) (literals : List FunctionLiteral) (n : String) : Prop :=
  ∃ l ∈ literals, n ∈ (tree.scope l.scope).captured

theorem capturedBy_append (a b : List FunctionLiteral) (n : String) :
    tree.CapturedBy (a ++ b) n ↔ tree.CapturedBy a n ∨ tree.CapturedBy b n := by
  simp only [CapturedBy, List.mem_append, or_and_right, exists_or]

theorem not_capturedBy_nil (n : String) : ¬ tree.CapturedBy [] n := by simp [CapturedBy]

theorem mem_freeNamesOfFields {n : String} {fields : List (Labelled Expr)} (names : List String)
    (each : ∀ field ∈ fields, ∀ names : List String, n ∈ tree.freeNames field.value names ↔
      n ∈ names ∨ n ∈ field.value.names ∨ tree.CapturedBy field.value.literals n) :
    n ∈ tree.freeNamesOfFields fields names ↔
      n ∈ names ∨ n ∈ Expr.namesOfFields fields ∨
        tree.CapturedBy (Expr.literalsOfFields fields) n := by
  induction fields generalizing names with
  | nil => simp [freeNamesOfFields, Expr.namesOfFields, Expr.literalsOfFields, not_capturedBy_nil]
  | cons field rest ih =>
    rw [List.forall_mem_cons] at each
    rw [freeNamesOfFields, Expr.namesOfFields, Expr.literalsOfFields, ih _ each.2, each.1,
      List.mem_append, capturedBy_append]
    tauto

/-- The names found in an expression are those that stand in it and those its literals took. -/
theorem mem_freeNames (tree : ScopeTree) (n : String) (e : Expr) (names : List String)
    (plain : e.PlainFields) :
    n ∈ tree.freeNames e names ↔ n ∈ names ∨ n ∈ e.names ∨ tree.CapturedBy e.literals n := by
  induction e using Expr.of_parts generalizing names with
  | step e ih =>
    cases e with
    | int | hex | float | text | typeDecl =>
      simp [freeNames, Expr.names, Expr.literals, not_capturedBy_nil]
    | name => simp [freeNames, mem_addName, Expr.names, Expr.literals, not_capturedBy_nil]
    | function literal span =>
      rw [freeNames, mem_foldl_addName]
      simp [Expr.names, Expr.literals, CapturedBy, Scope.captured]
    | varDecl declared type value span | unary op value span =>
      rw [Expr.PlainFields] at plain
      rw [freeNames, Expr.names, Expr.literals]
      exact ih value (by simp [Expr.parts]) names plain
    | tuple fields span =>
      rw [Expr.PlainFields, Expr.plainFieldsAll_iff] at plain
      rw [freeNames, Expr.names, Expr.literals]
      refine mem_freeNamesOfFields names fun field hm names => ?_
      exact ih field.value (List.mem_map_of_mem hm) names (plain field hm)
    | binary op lhs rhs span =>
      rw [Expr.PlainFields] at plain
      obtain ⟨pl, pr, pf⟩ := plain
      have left := ih lhs (by simp [Expr.parts]) names pl
      by_cases field : op = .field
      · -- the member of a field access is a bare name: it is no value and holds no literal
        subst field
        have none : rhs.literals = [] := by
          cases rhs with
          | name => rfl
          | _ => simp [Expr.asName?] at pf
        rwa [freeNames, Expr.names, Expr.literals, none, List.append_nil]
      · rw [freeNames, Expr.names, Expr.literals, ih rhs (by simp [Expr.parts]) _ pr, left,
          List.mem_append, capturedBy_append]
        · tauto
        · exact field
        · exact field

/-- A name that a scope uses: it stands in its statements, or a literal in them took it. -/
def Uses (tree : ScopeTree) (id : Nat) (n : String) : Prop :=
  n ∈ namesOf (tree.scope id).body ∨ tree.CapturedBy (literalsOf (tree.scope id).body) n

theorem mem_usedNames {id : Nat} (plain : (tree.scope id).PlainFields) (n : String) :
    n ∈ (tree.scope id).body.foldl (fun names e => tree.freeNames e names) [] ↔ tree.Uses id n := by
  have along (body : List Expr) (names : List String) (hp : ∀ e ∈ body, e.PlainFields) :
      n ∈ body.foldl (fun names e => tree.freeNames e names) names ↔
        n ∈ names ∨ n ∈ namesOf body ∨ tree.CapturedBy (literalsOf body) n := by
    induction body generalizing names with
    | nil => simp [namesOf, not_capturedBy_nil]
    | cons e rest ih =>
      rw [List.foldl_cons, ih _ fun e hm => hp e (by simp [hm]),
        mem_freeNames tree n e names (hp e (by simp)), literalsOf_cons, capturedBy_append]
      simp only [namesOf, List.flatMap_cons, List.mem_append]
      tauto
  rw [along _ _ plain, Uses]
  simp

end ScopeTree

/-! ## What a name means before anything is captured -/

/-- The labels of the scope are bound and it captured nothing. -/
structure Scope.Unclosed (s : Scope) : Prop where
  closure : s.closure = []
  labels : ∀ label ∈ s.labels, ∃ v ∈ s.vars, v.name = label

/-- A scope without captures knows the names of its variables, and has a type for each. -/
theorem Scope.Unclosed.knows_eq {s : Scope} (h : s.Unclosed) (n : String) :
    s.knows n = (s.valueType? n).isSome := by
  unfold Scope.knows Scope.valueType?
  cases hl : s.local? n with
  | some v => simp
  | none =>
    have free : ∀ v ∈ s.vars, v.name ≠ n := by
      unfold Scope.local? at hl
      split at hl
      · cases hl
      · rename_i hv
        intro v hm he
        exact List.find?_eq_none.mp hv v hm (by simp [he])
    have unlabelled : ∀ label ∈ s.labels, ¬ (label == n) = true := by
      intro label hm he
      obtain ⟨v, hv, hn⟩ := h.labels label hm
      exact free v hv (hn.trans (eq_of_beq he))
    have none : s.labels.findIdx? (· == n) = none := by
      simpa [List.findIdx?_eq_none_iff] using unlabelled
    have any : s.labels.any (· == n) = false := by
      simpa [List.any_eq_false] using unlabelled
    simp [Scope.labelType?, none, any]

namespace ScopeTree

variable {tree tree' : ScopeTree} {ids : List Nat}

theorem Ready.unclosed (h : tree.Ready ids) {id : Nat} (lt : id < tree.count) :
    (tree.scope id).Unclosed := by
  refine ⟨h.closure id, ?_⟩
  by_cases eq : id = rootId
  · intro label hm
    rw [eq] at hm
    rw [show (tree.scope rootId).labels = [] from h.numbered.labels] at hm
    cases hm
  · exact h.labels ((h.numbered.mem_ids id).mpr ⟨lt, eq⟩)

/-- A tree in which something more is captured. -/
structure Captures (before after : ScopeTree) : Prop where
  count : after.count = before.count
  scopes : ∀ id : Nat, after.scope id =
    { before.scope id with closure := (after.scope id).closure }

theorem captures_refl (tree : ScopeTree) : Captures tree tree := ⟨rfl, fun _ => rfl⟩

theorem Captures.shape (h : Captures tree tree') (id : Nat) :
    (tree'.scope id).shape = (tree.scope id).shape := by
  rw [h.scopes id]
  rfl

theorem Numbered.lt_of_mem_ancestors (h : tree.Numbered ids) {id a : Nat} (lt : id < tree.count)
    (ha : a ∈ tree.ancestors id) : a < tree.count := by
  have hc := h.chain lt
  generalize tree.ancestors id = path at ha hc
  induction hc with
  | last => rwa [List.mem_singleton.mp ha]
  | step hp _ ih =>
    rcases List.mem_cons.mp ha with rfl | ha
    · exact lt
    · exact ih (h.child_of_parent hp).1 ha

theorem findSome?_congr_mem {α β : Type} {f g : α → Option β} {items : List α}
    (h : ∀ a ∈ items, f a = g a) : items.findSome? f = items.findSome? g := by
  induction items with
  | nil => rfl
  | cons first rest ih =>
    rw [List.findSome?_cons, List.findSome?_cons, h first (by simp),
      ih fun a hm => h a (by simp [hm])]

/-- As long as the enclosing scopes of a literal captured nothing, a name means for it what it meant
before, and it can be captured if it has a type outside. -/
theorem Ready.lookup_eq (h : tree.Ready ids) (hc : Captures tree tree') {outer inner : Nat}
    (hp : (tree.scope inner).parent = some outer)
    (open_ : ∀ a ∈ tree.ancestors outer, (tree'.scope a).closure = []) (n : String) :
    tree'.lookup? outer n = tree.lookup? outer n ∧
      tree'.resolvable inner n = (tree.lookup? outer n).isSome := by
  have small := (h.numbered.child_of_parent hp).1
  have same (a : Nat) (ha : a ∈ tree.ancestors outer) : tree'.scope a = tree.scope a := by
    rw [hc.scopes a, open_ a ha, ← h.closure a]
  have eq : tree'.lookup? outer n = tree.lookup? outer n := by
    rw [lookup?, lookup?, ancestors_congr hc.count hc.shape]
    exact findSome?_congr_mem fun a ha => by rw [same a ha]
  refine ⟨eq, ?_⟩
  rw [resolvable, ancestors_congr hc.count hc.shape, h.numbered.ancestors_cons hp, List.tail_cons,
    lookup?, List.isSome_findSome?, Bool.eq_iff_iff, List.any_eq_true, List.any_eq_true]
  have knows (a : Nat) (ha : a ∈ tree.ancestors outer) :
      (tree'.scope a).knows n = ((tree.scope a).valueType? n).isSome := by
    rw [same a ha]
    exact (h.unclosed (h.numbered.lt_of_mem_ancestors small ha)).knows_eq n
  constructor
  · rintro ⟨a, ha, hk⟩
    exact ⟨a, ha, knows a ha ▸ hk⟩
  · rintro ⟨a, ha, hk⟩
    exact ⟨a, ha, (knows a ha).trans hk⟩

/-! ## One literal -/

/-- What a literal captured of the names treated so far: each that has a type outside and is no
variable of its own, once, with that type and behind the ones before it. -/
structure Closes (tree : ScopeTree) (outer inner : Nat) (names : List String)
    (closure : List Variable) : Prop where
  nodup : (closure.map (·.name)).Nodup
  foreign : ∀ v ∈ closure, ∀ w ∈ (tree.scope inner).vars, w.name ≠ v.name
  offsets : ∀ before v after, closure = before ++ v :: after → v.offset = sizeOfAll before
  types : ∀ v ∈ closure, tree.lookup? outer v.name = some v.ty
  complete : ∀ n ∈ names, (∃ v ∈ (tree.scope inner).vars, v.name = n) ∨
    n ∈ closure.map (·.name) ∨ tree.lookup? outer n = none

variable {outer inner : Nat} {names : List String} {closure : List Variable}

theorem closes_nil : Closes tree outer inner [] [] :=
  ⟨by simp, by simp, by simp, by simp, by simp⟩

theorem Closes.skip (h : Closes tree outer inner names closure) {n : String}
    (hn : (∃ v ∈ (tree.scope inner).vars, v.name = n) ∨ n ∈ closure.map (·.name) ∨
      tree.lookup? outer n = none) : Closes tree outer inner (n :: names) closure := by
  refine ⟨h.nodup, h.foreign, h.offsets, h.types, ?_⟩
  intro m hm
  rcases List.mem_cons.mp hm with rfl | hm
  · exact hn
  · exact h.complete m hm

theorem Closes.add (h : Closes tree outer inner names closure) {n : String} {ty : Ty}
    (own : ∀ v ∈ (tree.scope inner).vars, v.name ≠ n) (new : n ∉ closure.map (·.name))
    (hl : tree.lookup? outer n = some ty) :
    Closes tree outer inner (n :: names) (closure ++ [⟨n, ty, sizeOfAll closure, .closure⟩]) := by
  refine ⟨?_, ?_, ?_, ?_, ?_⟩
  · rw [List.map_append, List.nodup_append]
    refine ⟨h.nodup, by simp, ?_⟩
    intro a ha b hb eq
    rw [eq, List.mem_singleton.mp hb] at ha
    exact new ha
  · intro v hv
    rcases List.mem_append.mp hv with hv | hv
    · exact h.foreign v hv
    · rw [List.mem_singleton.mp hv]
      exact own
  · intro before v after eq
    rcases List.append_eq_append_iff.mp eq with ⟨more, rfl, last⟩ | ⟨more, rfl, last⟩
    · cases more with
      | nil =>
        cases last
        simp
      | cons first more =>
        simp at last
    · cases more with
      | nil =>
        cases last
        simp
      | cons first more =>
        rw [List.cons_append] at last
        injection last with first_eq rest_eq
        subst first_eq
        exact h.offsets before v more rfl
  · intro v hv
    rcases List.mem_append.mp hv with hv | hv
    · exact h.types v hv
    · rw [List.mem_singleton.mp hv]
      exact hl
  · intro m hm
    rcases List.mem_cons.mp hm with rfl | hm
    · exact .inr (.inl (by simp))
    · rcases h.complete m hm with own | taken | unknown
      · exact .inl own
      · exact .inr (.inl (by rw [List.map_append]; exact List.mem_append_left _ taken))
      · exact .inr (.inr unknown)

/-- A name is local if it names a variable or a capture. -/
theorem isSome_local?_iff (s : Scope) (n : String) :
    (s.local? n).isSome ↔ (∃ v ∈ s.vars, v.name = n) ∨ n ∈ s.captured := by
  unfold Scope.local? Scope.captured
  cases hv : s.vars.find? (·.name == n) with
  | some v =>
    have found := List.find?_some hv
    simp only [Option.isSome_some, true_iff]
    exact .inl ⟨v, List.mem_of_find?_eq_some hv, by simpa using found⟩
  | none =>
    have free := List.find?_eq_none.mp hv
    rw [List.find?_isSome, List.mem_map]
    constructor
    · rintro ⟨v, hm, he⟩
      exact .inr ⟨v, hm, eq_of_beq he⟩
    · rintro (⟨v, hm, he⟩ | ⟨v, hm, he⟩)
      · exact absurd (by simp [he]) (free v hm)
      · exact ⟨v, hm, by simp [he]⟩

/-- A literal while its names are treated: only its own captures differ from where it started. -/
structure Treating (tree start : ScopeTree) (outer inner : Nat) (names : List String)
    (now : ScopeTree) : Prop where
  captures : Captures tree now
  keeps : ∀ id : Nat, id ≠ inner → now.scope id = start.scope id
  closes : Closes tree outer inner names (now.scope inner).closure

theorem Treating.captureName {start now : ScopeTree} (h : tree.Ready ids)
    (ht : Treating tree start outer inner names now)
    (hp : (tree.scope inner).parent = some outer)
    (open_ : ∀ a ∈ tree.ancestors outer, (start.scope a).closure = []) (n : String) :
    Treating tree start outer inner (n :: names) (captureName outer inner now n) := by
  have apart := h.numbered.not_mem_ancestors hp
  obtain ⟨lookup, resolvable⟩ := h.lookup_eq ht.captures hp (fun a ha => by
    rw [ht.keeps a fun eq => apart (eq ▸ ha)]
    exact open_ a ha) n
  have vars : (now.scope inner).vars = (tree.scope inner).vars := by rw [ht.captures.scopes inner]
  have here := isSome_local?_iff (now.scope inner) n
  rw [vars] at here
  unfold ScopeTree.captureName
  rw [resolvable, lookup]
  by_cases known : (now.scope inner).local? n |>.isSome
  · rw [if_pos (by simp [known])]
    refine ⟨ht.captures, ht.keeps, ht.closes.skip ?_⟩
    rcases here.mp known with own | taken
    · exact .inl own
    · exact .inr (.inl taken)
  · cases hl : tree.lookup? outer n with
    | none =>
      rw [if_pos (by simp)]
      exact ⟨ht.captures, ht.keeps, ht.closes.skip (.inr (.inr hl))⟩
    | some ty =>
      rw [if_neg (by simpa using known)]
      have unknown := not_or.mp (mt here.mpr known)
      have own : ∀ v ∈ (tree.scope inner).vars, v.name ≠ n := fun v hv he => unknown.1 ⟨v, hv, he⟩
      have small : inner < now.count := by rw [ht.captures.count]; exact h.numbered.lt_of_parent hp
      refine ⟨⟨by rw [count_modify, ht.captures.count], fun id => ?_⟩, fun id ne => ?_, ?_⟩
      · rw [scope_modify]
        split
        · rw [ht.captures.scopes id]
        · exact ht.captures.scopes id
      · rw [scope_modify_other now inner id _ ne, ht.keeps id ne]
      · rw [scope_modify_same now inner _ small]
        exact ht.closes.add own unknown.2 hl

theorem Treating.captureNames {start now : ScopeTree} (h : tree.Ready ids)
    (ht : Treating tree start outer inner names now)
    (hp : (tree.scope inner).parent = some outer)
    (open_ : ∀ a ∈ tree.ancestors outer, (start.scope a).closure = []) (more : List String) :
    Treating tree start outer inner (more.reverse ++ names)
      (more.foldl (ScopeTree.captureName outer inner) now) := by
  induction more generalizing now names with
  | nil => exact ht
  | cons n more ih =>
    have next := ih (ht.captureName h hp open_ n)
    simpa using next

/-! ## All literals -/

/-- Captures while the literals are treated: those that are done are closed under nesting and have
taken what they use, and no other scope captured anything. -/
structure Progress (tree : ScopeTree) (done : List Nat) (now : ScopeTree) : Prop where
  captures : Captures tree now
  closed : ∀ id ∈ done, ∀ child ∈ tree.children id, child ∈ done
  blank : ∀ id : Nat, id ∉ done → (now.scope id).closure = []
  taken : ∀ id ∈ done, ∀ outer : Nat, (tree.scope id).parent = some outer →
    ∃ names, Closes tree outer id names (now.scope id).closure ∧ ∀ n, now.Uses id n → n ∈ names

theorem Captures.body {now : ScopeTree} (h : Captures tree now) (id : Nat) :
    (now.scope id).body = (tree.scope id).body := by rw [h.scopes id]

/-- What a scope uses depends on what the literals in it took. -/
theorem Uses.congr {now later : ScopeTree} {id : Nat} (body : (later.scope id).body = (now.scope id).body)
    (same : ∀ child ∈ now.children id, (later.scope child).closure = (now.scope child).closure)
    {n : String} (h : later.Uses id n) : now.Uses id n := by
  unfold Uses at h ⊢
  rw [body] at h
  refine h.imp_right ?_
  rintro ⟨l, hl, hn⟩
  refine ⟨l, hl, ?_⟩
  rw [Scope.captured, ← same l.scope (List.mem_map_of_mem hl)]
  exact hn

theorem Progress.captureLiteral {now : ScopeTree} {done : List Nat} (h : tree.Ready ids)
    (hp : Progress tree done now) {p : PlacedLiteral}
    (parent : (tree.scope p.literal.scope).parent = some p.outer) (fresh : p.literal.scope ∉ done)
    (settled : ∀ child ∈ tree.children p.literal.scope, child ∈ done) :
    Progress tree (p.literal.scope :: done) (now.captureLiteral p) := by
  have open_ (a : Nat) (ha : a ∈ tree.ancestors p.outer) : (now.scope a).closure = [] := by
    refine hp.blank a fun hd => fresh ?_
    have up : a ∈ tree.ancestors p.literal.scope := by
      rw [h.numbered.ancestors_cons parent]
      exact List.mem_cons_of_mem _ ha
    exact h.numbered.mem_of_ancestor hp.closed (h.numbered.lt_of_parent parent) up hd
  have start : Treating tree now p.outer p.literal.scope [] now :=
    ⟨hp.captures, fun _ _ => rfl, by rw [hp.blank _ fresh]; exact closes_nil⟩
  have last := start.captureNames h parent open_
    ((now.scope p.literal.scope).body.foldl (fun names e => now.freeNames e names) [])
  rw [List.append_nil] at last
  change Treating tree now p.outer p.literal.scope _ (now.captureLiteral p) at last
  have plain : (now.scope p.literal.scope).PlainFields := by
    intro e he
    rw [hp.captures.body] at he
    exact h.numbered.plain _ e he
  have body (id : Nat) : ((now.captureLiteral p).scope id).body = (now.scope id).body := by
    rw [last.captures.body, hp.captures.body]
  refine ⟨last.captures, ?_, ?_, ?_⟩
  · intro id hd child hc
    rcases List.mem_cons.mp hd with rfl | hd
    · exact List.mem_cons_of_mem _ (settled child hc)
    · exact List.mem_cons_of_mem _ (hp.closed id hd child hc)
  · intro id hn
    obtain ⟨ne, hn⟩ := not_or.mp (mt List.mem_cons.mpr hn)
    rw [last.keeps id ne]
    exact hp.blank id hn
  · intro id hd outer' hp'
    have children (hc : ∀ child ∈ tree.children id, child ∈ done) (child : Nat)
        (hm : child ∈ now.children id) :
        ((now.captureLiteral p).scope child).closure = (now.scope child).closure := by
      rw [children_congr (hp.captures.body id)] at hm
      rw [last.keeps child fun eq => fresh (eq ▸ hc child hm)]
    by_cases eq : id = p.literal.scope
    · subst eq
      rw [parent] at hp'
      cases hp'
      refine ⟨_, last.closes, fun n hn => ?_⟩
      rw [List.mem_reverse, mem_usedNames plain]
      exact hn.congr (body _) (children settled)
    · have hd : id ∈ done := (List.mem_cons.mp hd).resolve_left eq
      obtain ⟨names, closes, complete⟩ := hp.taken id hd outer' hp'
      refine ⟨names, by rw [last.keeps id eq]; exact closes, fun n hn => complete n ?_⟩
      exact hn.congr (body id) (children (hp.closed id hd))

theorem Progress.captureAll {now : ScopeTree} {done : List Nat} (h : tree.Ready ids)
    (hp : Progress tree done now) {found : List PlacedLiteral}
    (placed : ∀ p ∈ found, (tree.scope p.literal.scope).parent = some p.outer)
    (nodup : (found.map (·.literal.scope)).Nodup)
    (fresh : ∀ p ∈ found, p.literal.scope ∉ done) (settled : tree.Settled done found) :
    ∃ all : List Nat, Progress tree all (found.foldl ScopeTree.captureLiteral now) ∧
      ∀ id : Nat, id ∈ all ↔ id ∈ done ∨ id ∈ found.map (·.literal.scope) := by
  induction found generalizing now done with
  | nil => exact ⟨done, hp, by simp⟩
  | cons p rest ih =>
    have parent := placed p (by simp)
    rw [List.map_cons] at nodup
    obtain ⟨new, nodup⟩ := List.nodup_cons.mp nodup
    have next := hp.captureLiteral h parent (fresh p (by simp)) settled.1
    have others (q : PlacedLiteral) (hq : q ∈ rest) : q.literal.scope ∉ p.literal.scope :: done := by
      intro hd
      rcases List.mem_cons.mp hd with eq | hd
      · exact new (eq ▸ List.mem_map_of_mem hq)
      · exact fresh q (by simp [hq]) hd
    obtain ⟨all, progress, mem⟩ := ih next (fun q hq => placed q (by simp [hq])) nodup others
      settled.2
    refine ⟨all, progress, fun id => ?_⟩
    rw [mem, List.map_cons, List.mem_cons, List.mem_cons]
    tauto

theorem Ready.capture (h : tree.Ready ids) : Progress tree ids tree.capture := by
  have listing := listing_literals .post h.numbered.below h.numbered.perm
  have nodup := (List.nodup_cons.mp (h.numbered.perm.nodup_iff.mpr List.nodup_range)).2
  have start : Progress tree [] tree :=
    ⟨captures_refl tree, by simp, fun id _ => h.closure id, by simp⟩
  have small : 0 < tree.count := by
    have := h.numbered.perm.length_eq
    rw [List.length_cons, List.length_range] at this
    omega
  have placed (p : PlacedLiteral) (hp : p ∈ tree.literals .post) :
      (tree.scope p.literal.scope).parent = some p.outer := by
    rcases listing.placed p hp with ⟨ho, hl⟩ | ⟨ho, hl⟩
    · rw [ho]
      exact h.numbered.parents rootId small _ (List.mem_map_of_mem hl)
    · exact h.numbered.parents p.outer ((h.numbered.mem_ids _).mp ho).1 _ (List.mem_map_of_mem hl)
  obtain ⟨all, progress, mem⟩ := start.captureAll h placed (listing.perm.nodup_iff.mpr nodup)
    (by simp) (listing.settled rfl [])
  have same (id : Nat) : id ∈ all ↔ id ∈ ids := by
    rw [mem, listing.perm.mem_iff]
    simp
  refine ⟨progress.captures, ?_, ?_, ?_⟩
  · intro id hd child hc
    exact (same child).mp (progress.closed id ((same id).mpr hd) child hc)
  · intro id hn
    exact progress.blank id fun hd => hn ((same id).mp hd)
  · intro id hd
    exact progress.taken id ((same id).mpr hd)

/-! ## The scope around a literal -/

theorem Captures.local?_eq {now : ScopeTree} (hc : Captures tree now) {id : Nat} {n : String}
    {w : Variable} (hl : (now.scope id).local? n = some w) :
    (tree.scope id).vars.find? (·.name == n) = some w ∨
      ((tree.scope id).vars.find? (·.name == n) = none ∧ w ∈ (now.scope id).closure ∧ w.name = n) := by
  unfold Scope.local? at hl
  have vars : (now.scope id).vars = (tree.scope id).vars := by rw [hc.scopes id]
  rw [vars] at hl
  split at hl
  · rename_i v hv
    exact .inl (hv.trans hl)
  · rename_i hv
    exact .inr ⟨hv, List.mem_of_find?_eq_some hl, by simpa using List.find?_some hl⟩

/-- Before anything is captured a name means a variable of the scope, or what it means outside. -/
theorem Ready.lookup?_cons (h : tree.Ready ids) {id : Nat} (lt : id < tree.count) (n : String) :
    tree.lookup? id n = match (tree.scope id).vars.find? (·.name == n) with
      | some v => some v.ty
      | none => (tree.scope id).parent.bind fun parent => tree.lookup? parent n := by
  have unclosed := h.unclosed lt
  have value : (tree.scope id).valueType? n =
      ((tree.scope id).vars.find? (·.name == n)).map (·.ty) := by
    cases hv : (tree.scope id).vars.find? (·.name == n) with
    | some v => simp [Scope.valueType?, Scope.local?, hv]
    | none =>
      have unknown : (tree.scope id).knows n = false := by
        simp only [Scope.knows, Scope.local?, hv, unclosed.closure, List.find?_nil,
          Option.isSome_none, Bool.false_or, List.any_eq_false]
        intro label hm he
        obtain ⟨v, hv', hn⟩ := unclosed.labels label hm
        exact List.find?_eq_none.mp hv v hv' (by rw [hn]; exact he)
      rw [unclosed.knows_eq] at unknown
      simpa using unknown
  have chain := h.numbered.chain lt
  rw [lookup?]
  generalize tree.ancestors id = path at chain
  cases chain with
  | last hn =>
    rw [List.findSome?_cons, value, hn]
    cases (tree.scope id).vars.find? (·.name == n) <;> rfl
  | step hp hc =>
    rename_i parent rest
    have outer := h.numbered.chain (h.numbered.child_of_parent hp).1
    rw [List.findSome?_cons, value, hp, hc.unique outer]
    cases (tree.scope id).vars.find? (·.name == n) <;> rfl

/-- What a name means in a scope of the resolved program it meant before anything was captured. -/
theorem Ready.lookup?_of_local? (h : tree.Ready ids) {id : Nat} (lt : id < tree.count) {n : String}
    {w : Variable} (hl : (tree.capture.scope id).local? n = some w) :
    tree.lookup? id n = some w.ty := by
  rw [h.lookup?_cons lt]
  rcases h.capture.captures.local?_eq hl with own | ⟨none, taken, name⟩
  · rw [own]
  · rw [none]
    have hm : id ∈ ids := by
      apply Decidable.byContradiction
      intro hn
      rw [h.capture.blank id hn] at taken
      cases taken
    obtain ⟨outer, -, -, parent⟩ := h.numbered.exists_parent hm
    obtain ⟨names, closes, -⟩ := h.capture.taken id hm outer parent
    rw [parent]
    exact name ▸ closes.types w taken

/-- A name that a scope uses and that meant something is at hand in the resolved program. -/
theorem Ready.isSome_local? (h : tree.Ready ids) {id : Nat} (lt : id < tree.count) {n : String}
    (hu : tree.capture.Uses id n) (hl : (tree.lookup? id n).isSome) :
    ((tree.capture.scope id).local? n).isSome := by
  rw [isSome_local?_iff]
  have vars : (tree.capture.scope id).vars = (tree.scope id).vars := by
    rw [h.capture.captures.scopes id]
  rw [vars]
  rw [h.lookup?_cons lt] at hl
  cases hv : (tree.scope id).vars.find? (·.name == n) with
  | some v =>
    exact .inl ⟨v, List.mem_of_find?_eq_some hv, by simpa using List.find?_some hv⟩
  | none =>
    rw [hv] at hl
    cases parent : (tree.scope id).parent with
    | none => simp [parent] at hl
    | some outer =>
      simp only [parent, Option.bind_some] at hl
      obtain ⟨names, closes, complete⟩ :=
        h.capture.taken id (h.numbered.mem_of_parent parent) outer parent
      rcases closes.complete n (complete n hu) with own | taken | unknown
      · exact .inl own
      · exact .inr taken
      · simp [unknown] at hl

/-- What a literal captured is at hand in the scope around it, with the same type. -/
theorem Ready.captured_local? (h : tree.Ready ids) {inner outer : Nat}
    (hp : (tree.scope inner).parent = some outer) {v : Variable}
    (hv : v ∈ (tree.capture.scope inner).closure) :
    ∃ w, (tree.capture.scope outer).local? v.name = some w ∧ w.ty = v.ty := by
  obtain ⟨lt, child⟩ := h.numbered.child_of_parent hp
  obtain ⟨names, closes, -⟩ := h.capture.taken inner (h.numbered.mem_of_parent hp) outer hp
  have type := closes.types v hv
  have uses : tree.capture.Uses outer v.name := by
    rw [← children_congr (h.capture.captures.body outer)] at child
    obtain ⟨l, hl, rfl⟩ := List.mem_map.mp child
    exact .inr ⟨l, hl, List.mem_map_of_mem hv⟩
  have found := h.isSome_local? lt uses (by rw [type]; rfl)
  obtain ⟨w, hw⟩ := Option.isSome_iff_exists.mp found
  refine ⟨w, hw, ?_⟩
  have same := h.lookup?_of_local? lt hw
  rw [type] at same
  exact (Option.some.inj same).symm

/-- A name without a meaning names no variable and no label of an enclosing scope. -/
theorem Ready.unknown_outside (h : tree.Ready ids) {inner outer a : Nat}
    (hp : (tree.scope inner).parent = some outer) {n : String} (hl : tree.lookup? outer n = none)
    (ha : a ∈ tree.ancestors outer) :
    (∀ v ∈ (tree.scope a).vars, v.name ≠ n) ∧ n ∉ (tree.scope a).labels := by
  have unclosed := h.unclosed
    (h.numbered.lt_of_mem_ancestors (h.numbered.child_of_parent hp).1 ha)
  have free : ∀ v ∈ (tree.scope a).vars, v.name ≠ n := by
    intro v hv he
    have value : (tree.scope a).valueType? n = none := List.findSome?_eq_none_iff.mp hl a ha
    have known : (tree.scope a).knows n := by
      rw [Scope.knows, Bool.or_eq_true]
      exact .inl ((isSome_local?_iff _ _).mpr (.inl ⟨v, hv, he⟩))
    rw [unclosed.knows_eq, value] at known
    cases known
  refine ⟨free, fun hm => ?_⟩
  obtain ⟨v, hv, he⟩ := unclosed.labels n hm
  exact free v hv he

end ScopeTree

/-- A fault that reports a name as unknown. -/
def CompileError.IsUnknownName (e : CompileError) : Prop :=
  ∃ name span, e = .semantic (.unknownIdentifier name span)

/-- Where all captures of a literal are at hand, none of them is reported as unknown. -/
theorem never_unknown_function {s : Site} {literal : FunctionLiteral}
    (h : ∀ v ∈ (s.tree.scope literal.scope).closure, (s.scope.local? v.name).isSome) (span : Span)
    (dst : Register) :
    Emit.Never CompileError.IsUnknownName (Emit.function s literal span dst) := by
  have overflow (o : RegisterOverflow) : ¬ CompileError.IsUnknownName (.registerOverflow o) := by
    rintro ⟨_, _, eq⟩
    cases eq
  unfold Emit.function
  split
  · refine Emit.never_fail ?_
    rintro ⟨_, _, eq⟩
    cases eq
  · dsimp only
    split
    · exact Emit.never_pushFor _ _
    · refine Emit.never_bind (Emit.never_pushFor _ _) fun _ => Emit.never_forM _ fun v hv => ?_
      obtain ⟨w, hw⟩ := Option.isSome_iff_exists.mp (h v hv)
      have found : s.lookup v.name span = .ok w := by rw [Site.lookup, hw]
      unfold Emit.capture
      rw [found]
      refine Emit.never_bind (Emit.never_pure w) fun w => ?_
      refine Emit.never_bind (Emit.never_register overflow _) fun origin => ?_
      refine Emit.never_bind (Emit.never_register overflow _) fun slot => ?_
      exact Emit.never_copyFrom overflow slot origin 0 _

/-- What a function captures is laid out in its closure in a row, under names of its own, and is at
hand in the scope around it with the same type; every name it uses is at hand in it or means nothing
in any enclosing scope. So making the function value finds all it captures. -/
theorem captures_complete {tree : ScopeTree} (h : tree.Resolved) {inner outer : Nat}
    (hp : (tree.scope inner).parent = some outer) :
    ((tree.scope inner).closure.map (·.name)).Nodup ∧
    (∀ v ∈ (tree.scope inner).closure, ∀ w ∈ (tree.scope inner).vars, w.name ≠ v.name) ∧
    (∀ before v after, (tree.scope inner).closure = before ++ v :: after →
      v.offset = sizeOfAll before ∧ v.bank = .closure) ∧
    (∀ v ∈ (tree.scope inner).closure,
      ∃ w, (tree.scope outer).local? v.name = some w ∧ w.ty = v.ty) ∧
    (∀ n, tree.Uses inner n → ((tree.scope inner).local? n).isSome ∨
      ∀ a, tree.Enclosed inner a →
        (∀ v ∈ (tree.scope a).vars, v.name ≠ n) ∧ n ∉ (tree.scope a).labels) ∧
    ∀ (literal : FunctionLiteral) (span : Span) (dst : Register), literal.scope = inner →
      Emit.Never CompileError.IsUnknownName (Emit.function ⟨tree, outer⟩ literal span dst) := by
  obtain ⟨bound, ids, ready, rfl⟩ := h.ready
  have captures := ready.capture.captures
  have numbered : bound.capture.Numbered ids := ready.numbered.congr captures.count captures.shape
  have parent : (bound.scope inner).parent = some outer := by
    rw [← ScopeTree.parent_of_shape (captures.shape inner)]
    exact hp
  obtain ⟨names, closes, complete⟩ :=
    ready.capture.taken inner (ready.numbered.mem_of_parent parent) outer parent
  have vars (id : Nat) : (bound.capture.scope id).vars = (bound.scope id).vars := by
    rw [captures.scopes id]
  have local_ := fun v hv => ready.captured_local? parent (v := v) hv
  refine ⟨closes.nodup, ?_, ?_, local_, ?_, ?_⟩
  · rw [vars]
    exact closes.foreign
  · intro before v after eq
    have hv : v ∈ (bound.capture.scope inner).closure := by rw [eq]; simp
    exact ⟨closes.offsets before v after eq, ScopeTree.bank_capture ready.closure inner v hv⟩
  · intro n hu
    have known := ScopeTree.isSome_local?_iff (bound.capture.scope inner) n
    rw [vars] at known
    rcases closes.complete n (complete n hu) with own | taken | unknown
    · exact .inl (known.mpr (.inl own))
    · exact .inl (known.mpr (.inr taken))
    · refine .inr fun a ha => ?_
      have mem := numbered.mem_ancestors_of_enclosed hp ha
      rw [ScopeTree.ancestors_congr captures.count captures.shape] at mem
      rw [vars, ScopeTree.labels_of_shape (captures.shape a)]
      exact ready.unknown_outside parent unknown mem
  · rintro literal span dst rfl
    refine never_unknown_function (fun v hv => ?_) span dst
    obtain ⟨w, hw, -⟩ := local_ v hv
    exact Option.isSome_iff_exists.mpr ⟨w, hw⟩

/-- The inner of two nested functions takes a variable of the program, which the outer one takes for
it. -/
theorem captures_complete_nested : ∃ tree v w,
    resolveSource "[ a: int = 1; [ f: int > int = \\x > \x7b
        [ g: int > int = \\y > \x7b y + a \x7d; g # x \x7d; [ r: int = f # 1" = .ok tree ∧
      (tree.scope 1).parent = some 2 ∧ (tree.scope 2).parent = some 0 ∧
      (tree.scope 1).closure = [v] ∧ v.name = "a" ∧ v.offset = 0 ∧
      (tree.scope 2).local? "a" = some w ∧ w.bank = .closure ∧ w.ty = v.ty ∧
      ∀ span dst, Emit.Never CompileError.IsUnknownName
        (Emit.function ⟨tree, 2⟩ ⟨0, ["y"], 1⟩ span dst) := by
  have found : (do
      let tree ← (resolveSource "[ a: int = 1; [ f: int > int = \\x > \x7b
        [ g: int > int = \\y > \x7b y + a \x7d; g # x \x7d; [ r: int = f # 1").toOption
      let v ← (tree.scope 1).closure.head?
      let w ← (tree.scope 2).local? "a"
      if (tree.scope 1).parent = some 2 ∧ (tree.scope 2).parent = some 0 ∧
        (tree.scope 1).closure = [v] ∧ v.name = "a" ∧ w.bank = .closure then some ()
      else none) = some () := by decide +kernel
  obtain ⟨tree, ht, found⟩ := Option.bind_eq_some_iff.mp found
  obtain ⟨v, hv, found⟩ := Option.bind_eq_some_iff.mp found
  obtain ⟨w, hw, found⟩ := Option.bind_eq_some_iff.mp found
  split at found
  · rename_i facts
    obtain ⟨inner, outer, closure, name, bank⟩ := facts
    have source := toOption_eq_some ht
    obtain ⟨-, -, offsets, taken, -, made⟩ := captures_complete (resolveSource_ok source) inner
    obtain ⟨w', hw', type⟩ := taken v (by simp [closure])
    rw [name, hw] at hw'
    cases hw'
    exact ⟨tree, v, w, source, inner, outer, closure, name, (offsets [] v [] closure).1, hw, bank,
      type, fun span dst => made _ span dst rfl⟩
  · cases found

end WindowedClosures
