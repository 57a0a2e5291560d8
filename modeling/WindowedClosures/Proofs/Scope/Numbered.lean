import WindowedClosures.Proofs.Scope.Desugaring
import WindowedClosures.Scope.Numbering

/-!
# What numbering leaves behind

Numbering keeps which literals a scope has. Each literal gets the position of its scope among the
scopes below the program, so two literals of one number are one, and each scope learns the scope it
stands in.
-/

namespace WindowedClosures

namespace ScopeTree

/-- The touched scopes are known to their children, and the numbers of the literals in them are
positions in an order of scopes; nothing else has changed. -/
structure Numbers (before after : ScopeTree) (touched order : List Nat) (first : Nat) : Prop where
  count : after.count = before.count
  keeps : ∀ id : Nat, id ∉ touched → after.scope id = before.scope id
  rest : ∀ id : Nat, after.scope id =
    { before.scope id with parent := (after.scope id).parent, body := (after.scope id).body }
  children : ∀ id : Nat, after.children id = before.children id
  plain : (∀ id : Nat, (before.scope id).PlainFields) → ∀ id : Nat, (after.scope id).PlainFields
  parents : ∀ id ∈ touched, ∀ child ∈ before.children id, (after.scope child).parent = some id
  numbers : ∀ id ∈ touched, ∀ l ∈ literalsOf (after.scope id).body,
    first ≤ l.id ∧ order[l.id - first]? = some l.scope

/-- Literals of one scope that are numbered by an order of scopes. -/
def Places (tree : ScopeTree) (outer first : Nat) (order : List Nat)
    (literals : List FunctionLiteral) : Prop :=
  ∀ l ∈ literals, (tree.scope l.scope).parent = some outer ∧ first ≤ l.id ∧
    order[l.id - first]? = some l.scope

variable {before middle after : ScopeTree} {a b x y : List Nat} {first : Nat}

theorem numbers_refl (tree : ScopeTree) (first : Nat) : Numbers tree tree [] [] first where
  count := rfl
  keeps _ _ := rfl
  rest _ := rfl
  children _ := rfl
  plain h := h
  parents := by simp
  numbers := by simp

/-- One group of scopes after the other. -/
theorem Numbers.comp (h₁ : Numbers before middle x x first)
    (h₂ : Numbers middle after y y (first + x.length)) (hx : before.Below a x)
    (nodup : (x ++ y).Nodup) : Numbers before after (x ++ y) (x ++ y) first := by
  have apart (id : Nat) (hm : id ∈ x) : id ∉ y := fun hn =>
    (List.nodup_append.mp nodup).2.2 id hm id hn rfl
  refine ⟨h₂.count.trans h₁.count, ?_, ?_, ?_, fun h => h₂.plain (h₁.plain h), ?_, ?_⟩
  · intro id hn
    rw [h₂.keeps id fun hm => hn (List.mem_append_right _ hm),
      h₁.keeps id fun hm => hn (List.mem_append_left _ hm)]
  · intro id
    rw [h₂.rest id, h₁.rest id]
  · intro id
    rw [h₂.children id, h₁.children id]
  · intro id hm child hc
    rcases List.mem_append.mp hm with hm | hm
    · rw [h₂.keeps child (apart child (hx.children_mem hm hc))]
      exact h₁.parents id hm child hc
    · exact h₂.parents id hm child (h₁.children id ▸ hc)
  · intro id hm l hl
    rcases List.mem_append.mp hm with hm | hm
    · rw [h₂.keeps id (apart id hm)] at hl
      obtain ⟨le, found⟩ := h₁.numbers id hm l hl
      have bound := (List.getElem?_eq_some_iff.mp found).1
      exact ⟨le, by rw [List.getElem?_append_left bound, found]⟩
    · obtain ⟨le, found⟩ := h₂.numbers id hm l hl
      refine ⟨by omega, ?_⟩
      rw [List.getElem?_append_right (by omega), ← found, Nat.sub_sub]

theorem Places.append_right {outer : Nat} {literals : List FunctionLiteral}
    (h : before.Places outer first x literals) (h₂ : Numbers before after y y (first + x.length))
    (nodup : (x ++ y).Nodup) : after.Places outer first (x ++ y) literals := by
  intro l hl
  obtain ⟨parent, le, found⟩ := h l hl
  obtain ⟨bound, at_⟩ := List.getElem?_eq_some_iff.mp found
  have hm : l.scope ∈ x := at_ ▸ List.getElem_mem bound
  refine ⟨?_, le, by rw [List.getElem?_append_left bound, found]⟩
  rw [h₂.keeps l.scope fun hn => (List.nodup_append.mp nodup).2.2 _ hm _ hn rfl]
  exact parent

theorem Places.append_left {outer : Nat} {literals : List FunctionLiteral}
    (h : after.Places outer (first + x.length) y literals) :
    after.Places outer first (x ++ y) literals := by
  intro l hl
  obtain ⟨parent, le, found⟩ := h l hl
  refine ⟨parent, by omega, ?_⟩
  rw [List.getElem?_append_right (by omega), ← found, Nat.sub_sub]

theorem Places.append {outer : Nat} {literals others : List FunctionLiteral}
    (h₁ : after.Places outer first x literals) (h₂ : after.Places outer first x others) :
    after.Places outer first x (literals ++ others) := by
  intro l hl
  rcases List.mem_append.mp hl with hl | hl
  · exact h₁ l hl
  · exact h₂ l hl

/-- A literal takes the first number, those below it the next ones. -/
theorem Numbers.literal {outer child : Nat} {inner : List Nat}
    (h : Numbers (before.modify child fun s => { s with parent := some outer }) after
      (child :: inner) inner (first + 1)) :
    Numbers before after (child :: inner) (child :: inner) first := by
  have same (id : Nat) : ((before.modify child fun s => { s with parent := some outer }).scope id) =
      { before.scope id with
        parent := ((before.modify child fun s => { s with parent := some outer }).scope id).parent } := by
    rw [scope_modify]
    split <;> rfl
  refine ⟨by rw [h.count, count_modify], ?_, ?_, ?_, ?_, ?_, ?_⟩
  · intro id hn
    rw [h.keeps id hn, scope_modify_other _ _ _ _ fun he => hn (by simp [he])]
  · intro id
    rw [h.rest id, same id]
  · intro id
    rw [h.children id]
    exact children_congr (by rw [same id])
  · intro hp
    refine h.plain fun id => ?_
    rw [same id]
    exact hp id
  · intro id hm c hc
    have eq : (before.modify child fun s => { s with parent := some outer }).children id =
        before.children id := children_congr (by rw [same id])
    exact h.parents id hm c (eq ▸ hc)
  · intro id hm l hl
    obtain ⟨le, found⟩ := h.numbers id hm l hl
    refine ⟨by omega, ?_⟩
    rw [show l.id - first = l.id - (first + 1) + 1 by omega, List.getElem?_cons_succ, found]

/-- The statements of a scope go back into it once their literals are numbered. -/
theorem Numbers.body {id : Nat} {inner : List Nat} {body : List Expr}
    (h : Numbers before after inner inner first) (outside : id ∉ inner) (lt : id < before.count)
    (hb : (literalsOf body).map (·.scope) = before.children id)
    (plain : (∀ id : Nat, (before.scope id).PlainFields) → ∀ e ∈ body, e.PlainFields)
    (hp : after.Places id first inner (literalsOf body)) :
    Numbers before (after.setBody id body) (id :: inner) inner first := by
  have lt' : id < after.count := h.count ▸ lt
  have other (i : Nat) (ne : i ≠ id) : (after.setBody id body).scope i = after.scope i :=
    scope_modify_other after id i _ ne
  have self : (after.setBody id body).scope id = { after.scope id with body := body } :=
    scope_modify_same after id _ lt'
  have parent (i : Nat) : ((after.setBody id body).scope i).parent = (after.scope i).parent := by
    by_cases eq : i = id
    · rw [eq, self]
    · rw [other i eq]
  refine ⟨by rw [count_setBody, h.count], ?_, ?_, ?_, ?_, ?_, ?_⟩
  · intro i hn
    obtain ⟨ne, hn⟩ := not_or.mp (mt List.mem_cons.mpr hn)
    rw [other i ne, h.keeps i hn]
  · intro i
    by_cases eq : i = id
    · rw [eq, self, h.rest id]
    · rw [other i eq]
      exact h.rest i
  · intro i
    by_cases eq : i = id
    · rw [eq, ScopeTree.children, self, ← hb]
    · rw [ScopeTree.children, other i eq]
      exact h.children i
  · intro hu i
    by_cases eq : i = id
    · rw [eq, self]
      exact plain hu
    · rw [other i eq]
      exact h.plain hu i
  · intro i hm c hc
    rw [parent c]
    rcases List.mem_cons.mp hm with rfl | hm
    · rw [← hb] at hc
      obtain ⟨l, hl, rfl⟩ := List.mem_map.mp hc
      exact (hp l hl).1
    · exact h.parents i hm c hc
  · intro i hm l hl
    rcases List.mem_cons.mp hm with rfl | hm
    · rw [self] at hl
      exact (hp l hl).2
    · rw [other i fun he => outside (he ▸ hm)] at hl
      exact h.numbers i hm l hl

end ScopeTree

open ScopeTree

theorem numbering_bind {α β : Type} {m : StateM Numbering α} {f : α → StateM Numbering β}
    {s s' : Numbering} {b : β} (h : (m >>= f) s = (b, s')) :
    ∃ a middle, m s = (a, middle) ∧ f a middle = (b, s') :=
  ⟨(m s).1, (m s).2, rfl, h⟩

/-- Entering a literal numbers what is below it, if there are levels enough. -/
def EntersNumbering (enter : ScopeId → StateM Numbering Unit) (levels : Nat) : Prop :=
  ∀ (id : Nat) (inner : List Nat) (tree : ScopeTree) (first : Nat) (s : Numbering),
    tree.Below (tree.children id) inner → (id :: inner).Nodup →
    (∀ i : Nat, i ∈ id :: inner → i < tree.count) → inner.length < levels →
    (∀ i : Nat, (tree.scope i).PlainFields) → enter id ⟨tree, first⟩ = ((), s) →
    s.next = first + inner.length ∧ Numbers tree s.tree (id :: inner) inner first ∧
      (s.tree.scope id).parent = (tree.scope id).parent

/-- What numbering makes of literals that stand in a scope. -/
structure NumbersFrom (tree : ScopeTree) (outer first : Nat) (ids : List Nat)
    (literals literals' : List FunctionLiteral) (s : Numbering) : Prop where
  next : s.next = first + ids.length
  numbers : Numbers tree s.tree ids ids first
  scopes : literals'.map (·.scope) = literals.map (·.scope)
  places : s.tree.Places outer first ids literals'

theorem numbersFrom_nil (tree : ScopeTree) (outer first : Nat) :
    NumbersFrom tree outer first [] [] [] ⟨tree, first⟩ :=
  ⟨rfl, numbers_refl tree first, rfl, by simp [Places]⟩

theorem NumbersFrom.append {tree : ScopeTree} {outer first : Nat} {x y : List Nat}
    {a a' b b' : List FunctionLiteral} {s s' : Numbering}
    (h₁ : NumbersFrom tree outer first x a a' s) (h₂ : NumbersFrom s.tree outer s.next y b b' s')
    (hx : tree.Below (a.map (·.scope)) x) (nodup : (x ++ y).Nodup) :
    NumbersFrom tree outer first (x ++ y) (a ++ b) (a' ++ b') s' := by
  have numbers := h₂.numbers
  have places := h₂.places
  rw [h₁.next] at numbers places
  refine ⟨?_, h₁.numbers.comp numbers hx nodup, ?_, ?_⟩
  · rw [h₂.next, h₁.next, List.length_append]
    omega
  · rw [List.map_append, List.map_append, h₁.scopes, h₂.scopes]
  · exact (h₁.places.append_right numbers nodup).append places.append_left

variable {enter : ScopeId → StateM Numbering Unit} {levels : Nat}

/-- The step numbers the literals of one scope that it is made for, if there are levels enough. -/
def NumbersBy {α : Type} (levels outer : Nat) (literals : List FunctionLiteral)
    (m : StateM Numbering α) (q : α → List FunctionLiteral) (R : α → Prop) : Prop :=
  ∀ (ids : List Nat) (tree : ScopeTree) (first : Nat) (v : α) (s : Numbering),
    tree.Below (literals.map (·.scope)) ids → ids.Nodup → (∀ i : Nat, i ∈ ids → i < tree.count) →
    ids.length ≤ levels → (∀ i : Nat, (tree.scope i).PlainFields) → m ⟨tree, first⟩ = (v, s) →
    NumbersFrom tree outer first ids literals (q v) s ∧ R v

variable {α β γ : Type} {outer : Nat} {a b : List FunctionLiteral}

theorem numbersBy_pure {q : α → List FunctionLiteral} {R : α → Prop} (v : α) (hq : q v = [])
    (hr : R v) : NumbersBy levels outer [] (pure v) q R := by
  intro ids tree first v' s below nodup lt le hf h
  cases h
  cases below
  rw [hq]
  exact ⟨numbersFrom_nil tree outer first, hr⟩

theorem numbersBy_map {m : StateM Numbering α} {g : α → β} {q : α → List FunctionLiteral}
    {t : β → List FunctionLiteral} {R : α → Prop} {S : β → Prop} (hm : NumbersBy levels outer a m q R)
    (ht : ∀ v, t (g v) = q v) (hs : ∀ v, R v → S (g v)) :
    NumbersBy levels outer a (do let v ← m; return g v) t S := by
  intro ids tree first v' s below nodup lt le hf h
  obtain ⟨v, s', h₁, h⟩ := numbering_bind h
  cases h
  obtain ⟨numbers, hr⟩ := hm ids tree first v s below nodup lt le hf h₁
  rw [ht]
  exact ⟨numbers, hs v hr⟩

theorem numbersBy_map₂ {m : StateM Numbering α} {n : StateM Numbering β} {g : α → β → γ}
    {q : α → List FunctionLiteral} {r : β → List FunctionLiteral} {t : γ → List FunctionLiteral}
    {R : α → Prop} {S : β → Prop} {U : γ → Prop} (hm : NumbersBy levels outer a m q R)
    (hn : NumbersBy levels outer b n r S) (ht : ∀ v w, t (g v w) = q v ++ r w)
    (hu : ∀ v w, R v → S w → U (g v w)) :
    NumbersBy levels outer (a ++ b) (do let v ← m; let w ← n; return g v w) t U := by
  intro ids tree first _ s below nodup lt le hf h
  obtain ⟨v, s₁, h₁, h⟩ := numbering_bind h
  obtain ⟨w, s₂, h₂, h⟩ := numbering_bind h
  cases h
  rw [List.map_append] at below
  obtain ⟨x, y, rfl, hx, hy⟩ := below.split
  obtain ⟨nx, ny, -⟩ := List.nodup_append.mp nodup
  rw [List.length_append] at le
  obtain ⟨n₁, hr⟩ := hm x tree first v s₁ hx nx (fun i hm => lt i (List.mem_append_left _ hm))
    (by omega) hf h₁
  have hy' : s₁.tree.Below (b.map (·.scope)) y := hy.congr fun i _ => n₁.numbers.children i
  obtain ⟨n₂, hs⟩ := hn y s₁.tree s₁.next w s hy' ny
    (fun i hm => n₁.numbers.count ▸ lt i (List.mem_append_right _ hm)) (by omega) (n₁.numbers.plain hf) h₂
  rw [ht]
  exact ⟨n₁.append n₂ hx nodup, hu v w hr hs⟩

theorem numbersBy_function (he : EntersNumbering enter levels) (literal : FunctionLiteral)
    (span : Span) : NumbersBy levels outer [literal] (numberExpr enter outer (.function literal span))
      Expr.literals Expr.PlainFields := by
  intro ids tree first e' s below nodup lt le hf h
  rw [numberExpr] at h
  obtain ⟨_, _, hg, h⟩ := numbering_bind h
  cases hg
  obtain ⟨_, _, hm, h⟩ := numbering_bind h
  cases hm
  obtain ⟨_, s', hs, h⟩ := numbering_bind h
  cases h
  simp only [List.map_cons, List.map_nil] at below
  cases below with
  | cons inside outside =>
    cases outside
    rename_i inner
    rw [List.append_nil] at nodup lt le ⊢
    have small : literal.scope < tree.count := lt _ (by simp)
    have same (i : Nat) : ((tree.modify literal.scope fun s =>
        { s with parent := some outer }).children i) = tree.children i := by
      refine children_congr ?_
      rw [scope_modify]
      split <;> rfl
    have inside' : (tree.modify literal.scope fun s => { s with parent := some outer }).Below
        ((tree.modify literal.scope fun s => { s with parent := some outer }).children literal.scope)
        inner := by
      rw [same]
      exact inside.congr fun i _ => same i
    have plain (i : Nat) : ((tree.modify literal.scope fun s =>
        { s with parent := some outer }).scope i).PlainFields := by
      rw [scope_modify]
      split <;> exact hf i
    obtain ⟨next, numbers, parent⟩ := he literal.scope inner _ (first + 1) s inside' nodup
      (by simpa using lt) le plain hs
    rw [scope_modify_same _ _ _ small] at parent
    refine ⟨⟨?_, numbers.literal, rfl, ?_⟩, by simp [Expr.PlainFields]⟩
    · rw [next, List.length_cons]
      omega
    · intro l hl
      simp only [Expr.literals, List.mem_singleton] at hl
      subst hl
      exact ⟨parent, Nat.le_refl _, by simp⟩

/-- Numbering an expression of a scope. -/
def NumbersExpr (enter : ScopeId → StateM Numbering Unit) (levels outer : Nat) (e : Expr) : Prop :=
  e.PlainFields →
    NumbersBy levels outer e.literals (numberExpr enter outer e) Expr.literals Expr.PlainFields

theorem asName?_numberExpr {e e' : Expr} {s s' : Numbering} (h : numberExpr enter outer e s = (e', s'))
    (he : e.asName?.isSome) : e'.asName?.isSome := by
  cases e with
  | name value span =>
    rw [numberExpr] at h
    cases h
    rfl
  | _ => simp [Expr.asName?] at he

mutual

theorem numbers_expr (he : EntersNumbering enter levels) :
    ∀ e : Expr, NumbersExpr enter levels outer e
  | .function literal span, _ => numbersBy_function he literal span
  | .binary op lhs rhs span, hp => by
    rw [Expr.PlainFields] at hp
    rw [numberExpr, Expr.literals]
    have hr : NumbersBy levels outer rhs.literals (numberExpr enter outer rhs) Expr.literals
        fun e => e.PlainFields ∧ (op = .field → e.asName?.isSome) := by
      intro ids tree first v s below nodup lt le hf h
      obtain ⟨numbers, plain⟩ := numbers_expr he rhs hp.2.1 ids tree first v s below nodup lt le hf h
      exact ⟨numbers, plain, fun field => asName?_numberExpr h (hp.2.2 field)⟩
    refine numbersBy_map₂ (numbers_expr he lhs hp.1) hr ?_ ?_
    · intro v w
      rw [Expr.literals]
    · intro v w hv hw
      rw [Expr.PlainFields]
      exact ⟨hv, hw⟩
  | .unary op operand span, hp => by
    rw [Expr.PlainFields] at hp
    rw [numberExpr, Expr.literals]
    exact numbersBy_map (numbers_expr he operand hp) (fun _ => by rw [Expr.literals])
      fun _ hv => by rw [Expr.PlainFields]; exact hv
  | .tuple fields span, hp => by
    rw [Expr.PlainFields] at hp
    rw [numberExpr, Expr.literals]
    exact numbersBy_map (numbers_fields he fields hp) (fun _ => by rw [Expr.literals])
      fun _ hv => by rw [Expr.PlainFields]; exact hv
  | .varDecl name type value span, hp => by
    rw [Expr.PlainFields] at hp
    rw [numberExpr, Expr.literals]
    exact numbersBy_map (numbers_expr he value hp) (fun _ => by rw [Expr.literals])
      fun _ hv => by rw [Expr.PlainFields]; exact hv
  | .int .., hp | .hex .., hp | .float .., hp | .text .., hp | .name .., hp | .typeDecl .., hp => by
    rw [numberExpr, Expr.literals]
    exact numbersBy_pure _ (by rw [Expr.literals]) hp

theorem numbers_fields (he : EntersNumbering enter levels) :
    ∀ fields, Expr.plainFieldsAll fields →
      NumbersBy levels outer (Expr.literalsOfFields fields) (numberFields enter outer fields)
        Expr.literalsOfFields Expr.plainFieldsAll
  | [], hp => by
    rw [numberFields, Expr.literalsOfFields]
    exact numbersBy_pure _ (by rw [Expr.literalsOfFields]) hp
  | ⟨label, value⟩ :: rest, hp => by
    rw [Expr.plainFieldsAll] at hp
    rw [numberFields, Expr.literalsOfFields]
    refine numbersBy_map₂ (numbers_expr he value hp.1) (numbers_fields he rest hp.2) ?_ ?_
    · intro v w
      rw [Expr.literalsOfFields]
    · intro v w hv hw
      rw [Expr.plainFieldsAll]
      exact ⟨hv, hw⟩

end

theorem numbers_body (he : EntersNumbering enter levels) (body : List Expr)
    (hp : ∀ e ∈ body, e.PlainFields) :
    NumbersBy levels outer (literalsOf body) (body.mapM (numberExpr enter outer)) literalsOf
      fun body => ∀ e ∈ body, e.PlainFields := by
  induction body with
  | nil =>
    rw [List.mapM_nil]
    exact numbersBy_pure _ rfl (by simp)
  | cons e rest ih =>
    rw [List.mapM_cons, literalsOf_cons]
    refine numbersBy_map₂ (numbers_expr he e (hp e (by simp)))
      (ih fun e hm => hp e (by simp [hm])) (fun v w => literalsOf_cons v w) ?_
    intro v w hv hw
    simpa using ⟨hv, hw⟩

theorem enters_numberScope (fuel : Nat) : EntersNumbering (numberScope fuel) fuel := by
  induction fuel with
  | zero =>
    intro id inner tree first s below nodup lt le
    omega
  | succ fuel ih =>
    intro id inner tree first s below nodup lt le hf h
    rw [numberScope] at h
    obtain ⟨_, _, hg, h⟩ := numbering_bind h
    cases hg
    obtain ⟨body, s₁, hb, h⟩ := numbering_bind h
    cases h
    obtain ⟨outside, nodup⟩ := List.nodup_cons.mp nodup
    have small : id < tree.count := lt id (by simp)
    obtain ⟨numbers, plain⟩ := numbers_body ih (tree.scope id).body (hf id) inner tree first body s₁
      below nodup (fun i hm => lt i (by simp [hm])) (by omega) hf hb
    refine ⟨numbers.next, ?_, ?_⟩
    · exact numbers.numbers.body outside small numbers.scopes (fun _ => plain) numbers.places
    · show ((s₁.tree.setBody id body).scope id).parent = _
      rw [setBody, scope_modify_same s₁.tree id _ (numbers.numbers.count ▸ small),
        numbers.numbers.keeps id outside]

namespace ScopeTree

/-- A tree whose literals are numbered: the literals of a scope know it, and a literal's number is
the position of its scope among the scopes below the program. -/
structure Numbered (tree : ScopeTree) (ids : List Nat) : Prop where
  below : tree.Below (tree.children rootId) ids
  perm : (rootId :: ids).Perm (List.range tree.count)
  root : tree.root.parent = none
  parents : ∀ id : Nat, id < tree.count → ∀ child ∈ tree.children id,
    (tree.scope child).parent = some id
  numbers : ∀ id : Nat, id < tree.count → ∀ l ∈ literalsOf (tree.scope id).body,
    ids[l.id]? = some l.scope
  plain : ∀ id : Nat, (tree.scope id).PlainFields
  labels : tree.root.labels = []

/-- Nothing is known of the variables of a scope. -/
def Undeclared (tree : ScopeTree) : Prop :=
  ∀ id : Nat, (tree.scope id).arrow = .unset ∧ (tree.scope id).vars = [] ∧
    (tree.scope id).closure = []

/-- Numbering touches every scope. -/
theorem Read.numbers {tree : ScopeTree} (h : tree.Read) : ∃ ids, tree.Below (tree.children rootId) ids ∧
    (rootId :: ids).Perm (List.range tree.count) ∧ tree.Numbers tree.number (rootId :: ids) ids 0 ∧
    (tree.number.scope rootId).parent = (tree.scope rootId).parent := by
  obtain ⟨ids, below, perm⟩ := h.owns
  cases below with
  | cons inside outside =>
    cases outside
    rename_i ids
    rw [List.append_nil] at perm
    have length : ids.length < tree.count := by
      have := perm.length_eq
      rw [List.length_cons, List.length_range] at this
      omega
    obtain ⟨-, numbers, parent⟩ := enters_numberScope tree.count rootId ids tree 0 _ inside
      (perm.nodup_iff.mpr List.nodup_range) (fun i hm => List.mem_range.mp (perm.mem_iff.mp hm)) length
      (fun i => (h.unresolved i).2) rfl
    exact ⟨ids, inside, perm, numbers, parent⟩

/-- Numbering keeps the labels of every scope. -/
theorem Read.labels_number {tree : ScopeTree} (h : tree.Read) (id : Nat) :
    (tree.number.scope id).labels = (tree.scope id).labels := by
  obtain ⟨ids, -, -, numbers, -⟩ := h.numbers
  rw [numbers.rest id]

theorem Read.number {tree : ScopeTree} (h : tree.Read) :
    (∃ ids, tree.number.Numbered ids) ∧ tree.number.Undeclared := by
  obtain ⟨ids, inside, perm, numbers, parent⟩ := h.numbers
  have mem (i : Nat) : i ∈ rootId :: ids ↔ i < tree.count := perm.mem_iff.trans List.mem_range
  have count := numbers.count
  refine ⟨⟨ids, ?_, ?_, ?_, ?_, ?_, ?_, ?_⟩, ?_⟩
  · rw [numbers.children]
    exact inside.congr fun i _ => numbers.children i
  · rw [count]
    exact perm
  · exact parent.trans (h.unresolved 0).1.parent
  · intro id lt child hc
    rw [count] at lt
    rw [numbers.children] at hc
    exact numbers.parents id ((mem id).mpr lt) child hc
  · intro id lt l hl
    rw [count] at lt
    exact (numbers.numbers id ((mem id).mpr lt) l hl).2
  · exact numbers.plain fun i => (h.unresolved i).2
  · rw [root, numbers.rest]
    exact h.labels
  · intro id
    have blank := (h.unresolved id).1
    rw [numbers.rest id]
    exact ⟨blank.arrow, blank.vars, blank.closure⟩

end ScopeTree

end WindowedClosures
