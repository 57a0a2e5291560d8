import WindowedClosures.Proofs.Grammar.RoundTrip

/-!
# How operators group

Operands with operators between them have many trees. One of them has in each place an operator that
binds tightly enough: tighter than the one above it, or as tight on the side that this one groups to.
Climbing through the powers finds that tree.
-/

namespace WindowedClosures.Grammar

/-! ## Operators between operands -/

/-- A symbol that stands between operands, with how it binds them. -/
structure Operator where
  symbol : Symbol
  binding : Binding
  bound : binding? symbol = some binding
  deriving DecidableEq

namespace Operator

variable {o below deeper : Operator} {side : Grouping}

def token (o : Operator) (span : Span) (line : Nat) : Token := .leaf (.symbol o.symbol) span line

theorem one_le_power (o : Operator) : 1 ≤ o.binding.power := by
  obtain ⟨symbol, b, bound⟩ := o
  unfold binding? at bound
  split at bound <;> cases bound <;> decide

/-- The loosest operators and the two tightest ones group to the right, so operators of one power
group to one side. -/
theorem right_iff (o : Operator) :
    o.binding.grouping = .right ↔ o.binding.power = 1 ∨ 8 ≤ o.binding.power := by
  obtain ⟨symbol, b, bound⟩ := o
  unfold binding? at bound
  split at bound <;> cases bound <;> decide

theorem grouping_eq (h : o.binding.power = below.binding.power) :
    o.binding.grouping = below.binding.grouping := by
  have same : o.binding.grouping = .right ↔ below.binding.grouping = .right := by
    rw [right_iff, right_iff, h]
  generalize o.binding.grouping = g, below.binding.grouping = g' at same ⊢
  cases g <;> cases g' <;> simp_all

/-- What an operator holds right below it on a side: operators that bind tighter, and those that bind
as tightly if it groups to that side. -/
def Holds (o : Operator) (side : Grouping) (below : Operator) : Prop :=
  o.binding.power < below.binding.power ∨
    below.binding.power = o.binding.power ∧ o.binding.grouping = side

instance : Decidable (o.Holds side below) := inferInstanceAs (Decidable (_ ∨ _ ∧ _))

theorem Holds.le (h : o.Holds side below) : o.binding.power ≤ below.binding.power := by
  rcases h with lt | ⟨eq, -⟩
  · exact Nat.le_of_lt lt
  · exact Nat.le_of_eq eq.symm

theorem Holds.mono (h : o.Holds side below) (le : below.binding.power ≤ deeper.binding.power) :
    o.Holds side deeper := by
  rcases h with lt | ⟨eq, groups⟩
  · exact .inl (Nat.lt_of_lt_of_le lt le)
  · rcases Nat.lt_or_eq_of_le le with lt | eq'
    · exact .inl (eq ▸ lt)
    · exact .inr ⟨eq'.symm.trans eq, groups⟩

/-- Two operators do not hold each other on opposite sides. -/
theorem Holds.one_way (h : o.Holds .right below) : ¬ below.Holds .left o := by
  intro h'
  have power : below.binding.power = o.binding.power := Nat.le_antisymm h'.le h.le
  rcases h with lt | ⟨-, right⟩
  · omega
  · rcases h' with lt | ⟨-, left⟩
    · omega
    · have same := grouping_eq power
      rw [left, right] at same
      cases same

/-- What the right operand of an operator is read with is what it holds there. -/
theorem holds_right (le : o.binding.rightPower ≤ below.binding.power) : o.Holds .right below := by
  unfold Binding.rightPower at le
  split at le
  · exact .inl le
  · rename_i right
    rcases Nat.lt_or_eq_of_le le with lt | eq
    · exact .inl lt
    · exact .inr ⟨eq.symm, right⟩

/-- An operator that ends the right operand of another one holds this one on its left. -/
theorem holds_left (lt : o.binding.power < below.binding.rightPower) : o.Holds .left below := by
  unfold Binding.rightPower at lt
  split at lt
  · rename_i left
    rcases Nat.lt_or_eq_of_le (Nat.le_of_lt_succ lt) with lt | eq
    · exact .inl lt
    · exact .inr ⟨eq.symm, (grouping_eq eq).trans left⟩
  · exact .inl lt

end Operator

/-! ## Trees of operators -/

/-- Operands, whatever they are themselves, put together by operators. -/
inductive OperatorTree where
  | operand (e : Expr)
  | node (o : Operator) (lhs rhs : OperatorTree)

namespace OperatorTree

def toExpr : OperatorTree → Expr
  | operand e => e
  | node o lhs rhs => .ofOperands o.binding.op lhs.toExpr rhs.toExpr

/-- The operand that stands first. -/
def first : OperatorTree → Expr
  | operand e => e
  | node _ lhs _ => lhs.first

/-- The operators in the order in which they stand, each with the operand behind it. -/
def following : OperatorTree → List (Operator × Expr)
  | operand _ => []
  | node o lhs rhs => lhs.following ++ (o, rhs.first) :: rhs.following

def root? : OperatorTree → Option Operator
  | operand _ => none
  | node o _ _ => some o

/-- Each operator holds what stands right below it. -/
def Grouped : OperatorTree → Prop
  | operand _ => True
  | node o lhs rhs => (∀ l ∈ lhs.root?, o.Holds .left l) ∧ (∀ r ∈ rhs.root?, o.Holds .right r) ∧
      lhs.Grouped ∧ rhs.Grouped

instance decidableGrouped : ∀ t : OperatorTree, Decidable t.Grouped
  | operand _ => .isTrue trivial
  | node o lhs rhs =>
    have := decidableGrouped lhs
    have := decidableGrouped rhs
    inferInstanceAs (Decidable ((∀ l ∈ lhs.root?, o.Holds .left l) ∧
      (∀ r ∈ rhs.root?, o.Holds .right r) ∧ lhs.Grouped ∧ rhs.Grouped))

variable {o o' : Operator} {lhs rhs lhs' rhs' t u : OperatorTree} {side : Grouping}

/-- What an operator holds at the root of a tree it holds everywhere in it. -/
theorem Grouped.holds (h : t.Grouped) (top : ∀ b ∈ t.root?, o.Holds side b) {p : Operator × Expr}
    (mem : p ∈ t.following) : o.Holds side p.1 := by
  induction t generalizing o side with
  | operand e => cases mem
  | node b lhs rhs ihl ihr =>
    obtain ⟨left, right, hl, hr⟩ := h
    have here : o.Holds side b := top b rfl
    rcases List.mem_append.mp mem with mem | mem
    · exact here.mono (ihl hl left mem).le
    · rcases List.mem_cons.mp mem with rfl | mem
      · exact here
      · exact here.mono (ihr hr right mem).le

/-- The root of one tree is not behind the root of another one with the same operators. -/
theorem Grouped.not_behind (h : (node o lhs rhs).Grouped) (h' : (node o' lhs' rhs').Grouped)
    {between : List (Operator × Expr)} (before : lhs'.following = lhs.following ++ (o, rhs.first) :: between) :
    rhs.following ≠ between ++ (o', rhs'.first) :: rhs'.following := by
  intro behind
  obtain ⟨-, right, -, hr⟩ := h
  obtain ⟨left, -, hl, -⟩ := h'
  have below : o.Holds .right o' := hr.holds right (p := (o', rhs'.first)) (by simp [behind])
  have above : o'.Holds .left o := hl.holds left (p := (o, rhs.first)) (by simp [before])
  exact below.one_way above

/-- Trees of the same operators and operands have the same root. -/
theorem Grouped.same_root (h : (node o lhs rhs).Grouped) (h' : (node o' lhs' rhs').Grouped)
    (same : (node o lhs rhs).following = (node o' lhs' rhs').following) :
    lhs.following = lhs'.following ∧ o = o' ∧ rhs.first = rhs'.first ∧ rhs.following = rhs'.following := by
  rw [following, following] at same
  rcases List.append_eq_append_iff.mp same with ⟨between, before, behind⟩ | ⟨between, before, behind⟩
  · cases between with
    | nil => simp_all
    | cons p between =>
      rw [List.cons_append, List.cons.injEq] at behind
      obtain ⟨rfl, behind⟩ := behind
      exact absurd behind (h.not_behind h' before)
  · cases between with
    | nil => simp_all
    | cons p between =>
      rw [List.cons_append, List.cons.injEq] at behind
      obtain ⟨rfl, behind⟩ := behind
      exact absurd behind (h'.not_behind h before)

/-- Operands and operators in their order have at most one tree. -/
theorem Grouped.unique (h : t.Grouped) (h' : u.Grouped) (first : t.first = u.first)
    (same : t.following = u.following) : t = u := by
  induction t generalizing u with
  | operand e =>
    cases u with
    | operand e' => exact congrArg operand first
    | node o' lhs' rhs' => simp [following] at same
  | node o lhs rhs ihl ihr =>
    cases u with
    | operand e' => simp [following] at same
    | node o' lhs' rhs' =>
      obtain ⟨before, rfl, next, behind⟩ := h.same_root h' same
      obtain ⟨-, -, hl, hr⟩ := h
      obtain ⟨-, -, hl', hr'⟩ := h'
      rw [ihl hl hl' first before, ihr hr hr' next behind]

/-- A tree that is read by climbing from a power, in front of what follows it. -/
structure Ready (power : Nat) (t : OperatorTree) (next : List (Operator × Expr)) : Prop where
  grouped : t.Grouped
  tight : ∀ b ∈ t.root?, power ≤ b.binding.power
  ended : ∀ b ∈ t.root?, ∀ p ∈ next.head?, p.1.binding.power < b.binding.rightPower

variable {power : Nat} {e : Expr} {taken taken' left next : List (Operator × Expr)}

theorem Ready.operand : Ready power (operand e) next where
  grouped := trivial
  tight := fun _ none => absurd none (Option.not_mem_none _)
  ended := fun _ none => absurd none (Option.not_mem_none _)

/-- How a tree grows by what is taken from behind it, up to an operator that is too loose. -/
structure Grows (power : Nat) (t u : OperatorTree) (taken left : List (Operator × Expr)) : Prop where
  first : u.first = t.first
  following : u.following = t.following ++ taken
  ready : Ready power u left
  loose : ∀ p ∈ left.head?, p.1.binding.power < power

theorem Grows.refl (h : Ready power t left) (loose : ∀ p ∈ left.head?, p.1.binding.power < power) :
    Grows power t t [] left := ⟨rfl, (List.append_nil _).symm, h, loose⟩

/-- An operator and its right operand behind a tree. -/
theorem Ready.node (h : Ready power t ((o, e) :: next)) (le : power ≤ o.binding.power)
    (right : Grows o.binding.rightPower (.operand e) rhs taken left) :
    Ready power (node o t rhs) left where
  grouped := ⟨fun b hb => Operator.holds_left (h.ended b hb _ rfl),
    fun b hb => Operator.holds_right (right.ready.tight b hb), h.grouped, right.ready.grouped⟩
  tight := by
    rintro _ ⟨⟩
    exact le
  ended := by
    rintro _ ⟨⟩
    exact right.loose

theorem Grows.node (right : Grows o.binding.rightPower (.operand e) rhs taken left)
    (more : Grows power (node o t rhs) u taken' next) :
    Grows power t u ((o, e) :: (taken ++ taken')) next where
  first := more.first
  following := by
    rw [more.following, OperatorTree.following, right.first, right.following]
    simp [OperatorTree.first, OperatorTree.following]
  ready := more.ready
  loose := more.loose

end OperatorTree

/-! ## Climbing -/

section

variable {operand : Reader Expr} {rest : List Token} {stop : Nat} {tree tree' : ScopeTree} {c : Cursor}
  {fuel power : Nat} {e : Expr} {t : OperatorTree}

/-- Operators with an operand behind each of them, in front of the rest: an operand is what the reader
takes there. -/
inductive Follow (operand : Reader Expr) (rest : List Token) (stop : Nat) :
    List Token → ScopeTree → List (Operator × Expr) → ScopeTree → Prop
  | nil {tree : ScopeTree} : Follow operand rest stop [] tree [] tree
  | cons {o : Operator} {span : Span} {line : Nat} {tokens behind : List Token} {e : Expr}
      {following : List (Operator × Expr)} {tree tree' tree'' : ScopeTree} :
      operand ⟨tokens ++ (behind ++ rest), stop, tree⟩ = .ok e ⟨behind ++ rest, stop, tree'⟩ →
      Follow operand rest stop behind tree' following tree'' →
      Follow operand rest stop (o.token span line :: (tokens ++ behind)) tree ((o, e) :: following) tree''

/-- A loose operator, or none, ends the climb. -/
theorem climb_loose (h : ∀ b ∈ (symbolOf? (bareAll c.rest)).bind binding?, b.power < power) :
    climb operand fuel power e c = .ok e c := by
  cases fuel with
  | zero => rfl
  | succ fuel =>
    rw [climb, reader_bind_of_ok (peekSymbol?_eq _)]
    cases next : (symbolOf? (bareAll c.rest)).bind binding? with
    | none => rfl
    | some b =>
      dsimp only
      rw [if_pos (h b next)]
      rfl

/-- Climbing takes operators as long as they are tight enough, and leaves the others. -/
theorem climb_grows (ends : (symbolOf? (bareAll rest)).bind binding? = none) {tokens : List Token}
    {following : List (Operator × Expr)} (follow : Follow operand rest stop tokens tree following tree')
    (enough : following.length ≤ fuel) (ready : t.Ready power following) :
    ∃ u taken left behind between, following = taken ++ left ∧
      climb operand fuel power t.toExpr ⟨tokens ++ rest, stop, tree⟩ =
        .ok u.toExpr ⟨behind ++ rest, stop, between⟩ ∧
      Follow operand rest stop behind between left tree' ∧ t.Grows power u taken left := by
  -- Both the right operand and what follows it have fewer operators left than the whole.
  induction fuel generalizing power t tokens following tree with
  | zero =>
    obtain rfl := List.length_eq_zero_iff.mp (Nat.le_zero.mp enough)
    exact ⟨t, [], [], tokens, tree, rfl, rfl, follow, .refl ready (by simp)⟩
  | succ fuel ih =>
    cases follow with
    | nil =>
      refine ⟨t, [], [], [], _, rfl, climb_loose ?_, .nil, .refl ready (by simp)⟩
      rw [List.nil_append, ends]
      nofun
    | @cons o span line tokens behind e following _ tree₁ _ taken more =>
      by_cases loose : o.binding.power < power
      · refine ⟨t, [], _, _, tree, rfl, climb_loose ?_, .cons taken more, .refl ready ?_⟩
        · have here : (symbolOf? (bareAll (o.token span line :: (tokens ++ behind) ++ rest))).bind binding? =
            some o.binding := o.bound
          rw [here]
          rintro _ ⟨⟩
          exact loose
        · rintro _ ⟨⟩
          exact loose
      · rw [List.length_cons] at enough
        have alone : OperatorTree.Ready o.binding.rightPower (.operand e) following := .operand
        obtain ⟨rhs, inner, left, behind', tree₂, rfl, climbed, more, right⟩ :=
          ih more (Nat.le_of_succ_le_succ enough) alone
        obtain ⟨u, outer, left, behind'', tree₃, rfl, climbed', more', grows⟩ :=
          ih more (by simp at enough; omega) (ready.node (Nat.le_of_not_lt loose) right)
        refine ⟨u, _, left, behind'', tree₃, ?_, ?_, more', right.node grows⟩
        · simp
        · rw [List.cons_append, List.append_assoc, Operator.token,
            climb_sign o.bound (Nat.le_of_not_lt loose), reader_bind_of_ok taken]
          exact (reader_bind_of_ok climbed).trans climbed'

/-- An operator stands in front. -/
theorem Follow.front {tokens : List Token} {following : List (Operator × Expr)} {symbol : Symbol}
    (h : Follow operand rest stop tokens tree following tree') (front : symbolOf? (bareAll tokens) = some symbol) :
    ∃ o : Operator, o.symbol = symbol := by
  cases h with
  | nil => cases front
  | @cons o => exact ⟨o, Option.some.inj front⟩

/-- An operator has a token of its own. -/
theorem Follow.length_le {tokens : List Token} {following : List (Operator × Expr)}
    (h : Follow operand rest stop tokens tree following tree') : following.length ≤ Token.weightAll tokens := by
  induction h with
  | nil => exact Nat.le_refl _
  | cons _ _ ih =>
    rw [List.length_cons, Token.weightAll, weightAll_append, Operator.token, Token.weight]
    omega

end

section

variable {self : Reader Expr} {levels : Nat} {tokens behind rest : List Token} {stop : Nat}
  {tree between tree' : ScopeTree} {e : Expr} {following : List (Operator × Expr)}

/-- An operand, and operators with operands behind it, become a tree of them. -/
theorem operators_follow
    (first : operand self levels ⟨tokens ++ (behind ++ rest), stop, tree⟩ = .ok e ⟨behind ++ rest, stop, between⟩)
    (follow : Follow (operand self levels) rest stop behind between following tree')
    (ends : (symbolOf? (bareAll rest)).bind binding? = none) (enough : following.length ≤ levels) :
    ∃ t : OperatorTree,
      operators self levels ⟨tokens ++ (behind ++ rest), stop, tree⟩ = .ok t.toExpr ⟨rest, stop, tree'⟩ ∧
      t.first = e ∧ t.following = following ∧ t.Grouped := by
  have ready : OperatorTree.Ready 1 (.operand e) following := .operand
  obtain ⟨t, taken, left, _, _, rfl, climbed, more, grows⟩ := climb_grows ends follow enough ready
  -- No operator is looser than the power of the outermost climb, so none is left.
  have done : left = [] := by
    cases left with
    | nil => rfl
    | cons p left => exact absurd (grows.loose p rfl) (Nat.not_lt.mpr p.1.one_le_power)
  subst done
  cases more
  rw [List.append_nil]
  refine ⟨t, ?_, grows.first, grows.following, grows.ready.grouped⟩
  rw [operators, reader_bind_of_ok first]
  exact climbed

/-- A run of operands with operators between them, in front of anything but an operator, is read whole
if the levels allow for so many operators. It becomes the one tree of these operands and operators in
which each operator holds what stands right below it. -/
theorem operators_climb
    (first : operand self levels ⟨tokens ++ (behind ++ rest), stop, tree⟩ = .ok e ⟨behind ++ rest, stop, between⟩)
    (follow : Follow (operand self levels) rest stop behind between following tree')
    (ends : (symbolOf? (bareAll rest)).bind binding? = none) (enough : following.length ≤ levels) :
    ∃ t : OperatorTree,
      operators self levels ⟨tokens ++ (behind ++ rest), stop, tree⟩ = .ok t.toExpr ⟨rest, stop, tree'⟩ ∧
      t.first = e ∧ t.following = following ∧ t.Grouped ∧
      ∀ u : OperatorTree, u.first = e → u.following = following → u.Grouped → u = t := by
  obtain ⟨t, read, first', following', grouped⟩ := operators_follow first follow ends enough
  refine ⟨t, read, first', following', grouped, fun u hf hs hg => ?_⟩
  exact hg.unique grouped (hf.trans first'.symm) (hs.trans following'.symm)

def Operator.minus : Operator := ⟨.minus, _, rfl⟩

def Operator.bullet : Operator := ⟨.bullet, _, rfl⟩

/-- The tokens of `-a - *b - c • d • e`. -/
def signedRun : List Token :=
  [.leaf (.symbol .minus) ⟨0, 1⟩ 1, .leaf (.name "a") ⟨1, 2⟩ 1,
    .leaf (.symbol .minus) ⟨3, 4⟩ 1, .leaf (.symbol .star) ⟨5, 6⟩ 1, .leaf (.name "b") ⟨6, 7⟩ 1,
    .leaf (.symbol .minus) ⟨8, 9⟩ 1, .leaf (.name "c") ⟨10, 11⟩ 1,
    .leaf (.symbol .bullet) ⟨12, 15⟩ 1, .leaf (.name "d") ⟨16, 17⟩ 1,
    .leaf (.symbol .bullet) ⟨18, 21⟩ 1, .leaf (.name "e") ⟨22, 23⟩ 1]

/-- `(-a - *b) - (c • (d • e))`. -/
def signedTree : OperatorTree :=
  .node .minus
    (.node .minus (.operand (.unary .neg (.name "a" ⟨1, 2⟩) ⟨0, 2⟩))
      (.operand (.unary .deref (.name "b" ⟨6, 7⟩) ⟨5, 7⟩)))
    (.node .bullet (.operand (.name "c" ⟨10, 11⟩))
      (.node .bullet (.operand (.name "d" ⟨16, 17⟩)) (.operand (.name "e" ⟨22, 23⟩))))

theorem operators_climb_signedRun :
    operators (expressionAt 4) 4 ⟨signedRun, 23, .empty⟩ = .ok signedTree.toExpr ⟨[], 23, .empty⟩ := by
  have follow : Follow (operand (expressionAt 4) 4) [] 23 (signedRun.drop 2) .empty signedTree.following .empty := by
    refine @Follow.cons _ _ _ .minus _ _ [_, _] _ _ _ _ .empty _ rfl ?_
    refine @Follow.cons _ _ _ .minus _ _ [_] _ _ _ _ .empty _ rfl ?_
    refine @Follow.cons _ _ _ .bullet _ _ [_] _ _ _ _ .empty _ rfl ?_
    exact @Follow.cons _ _ _ .bullet _ _ [_] _ _ _ _ .empty _ rfl .nil
  have first : operand (expressionAt 4) 4 ⟨signedRun.take 2 ++ (signedRun.drop 2 ++ []), 23, .empty⟩ =
    .ok signedTree.first ⟨signedRun.drop 2 ++ [], 23, .empty⟩ := rfl
  obtain ⟨t, read, -, -, -, unique⟩ := operators_climb first follow rfl (by decide)
  rw [← unique signedTree rfl rfl (by decide)] at read
  exact read

/-! ## A program of one run -/

/-- An operand does not start like a declaration. -/
theorem operand_front {c c' : Cursor} (h : operand self levels c = .ok e c') :
    symbolOf? (bareAll c.rest) ≠ some .leftSquare ∧ symbolOf? (bareAll c.rest) ≠ some .colon := by
  obtain ⟨rest, stop, tree⟩ := c
  cases rest with
  | nil => exact ⟨nofun, nofun⟩
  | cons t rest =>
    cases t with
    | group => exact ⟨nofun, nofun⟩
    | leaf lexeme =>
      cases lexeme with
      | symbol symbol =>
        constructor
        · rintro ⟨⟩
          cases levels <;> cases h
        · rintro ⟨⟩
          cases levels <;> cases h
      | _ => exact ⟨nofun, nofun⟩

/-- An operand with operators behind it does not start like an assignment. -/
theorem Follow.not_assigns
    (first : operand self levels ⟨tokens ++ behind, stop, tree⟩ = .ok e ⟨behind, stop, between⟩)
    (follow : Follow (operand self levels) rest stop behind between following tree') :
    assigns (bareAll (tokens ++ behind)) = false := by
  cases is : assigns (bareAll (tokens ++ behind)) with
  | false => rfl
  | true =>
    unfold assigns at is
    split at is
    · rename_i eq
      obtain ⟨_, _, run, named, later⟩ := bareAll_eq_cons eq
      obtain ⟨_, more, rfl, sign, -⟩ := bareAll_eq_cons later
      obtain ⟨_, _, rfl⟩ := bare_eq_leaf named
      obtain ⟨_, _, rfl⟩ := bare_eq_leaf sign
      rw [run] at first
      -- The name is the whole operand, and an equal sign is no operator.
      have equal : symbolOf? (bareAll behind) = some .equal := by
        cases levels <;> cases first <;> rfl
      obtain ⟨o, same⟩ := follow.front equal
      have bound := o.bound
      rw [same] at bound
      cases bound
    · cases is

/-- A statement that starts with an operand and operators behind it is nothing but that. -/
theorem statement_follow
    (first : operand (expressionAt levels) levels ⟨tokens ++ behind, stop, tree⟩ = .ok e ⟨behind, stop, between⟩)
    (follow : Follow (operand (expressionAt levels) levels) rest stop behind between following tree') :
    statement (expressionAt (levels + 1)) ⟨tokens ++ behind, stop, tree⟩ =
      operators (expressionAt levels) levels ⟨tokens ++ behind, stop, tree⟩ := by
  obtain ⟨square, colon⟩ := operand_front first
  have plain : expressionAt (levels + 1) ⟨tokens ++ behind, stop, tree⟩ = _ :=
    expressionWith_operators (Follow.not_assigns first follow) levels
  rw [statement, reader_bind_of_ok (peekSymbol?_eq _)]
  cases front : symbolOf? (bareAll (tokens ++ behind)) with
  | none => exact plain
  | some symbol =>
    cases symbol with
    | leftSquare => exact absurd front square
    | colon => exact absurd front colon
    | _ => exact plain

/-- A program of one run has one statement, the tree of its operands and operators. It is read with
levels enough for them. -/
theorem readStatements_run (all : Token.weightAll (tokens ++ behind) = levels)
    (first : operand (expressionAt levels) levels (.start (tokens ++ behind) tree) =
      .ok e ⟨behind, Token.stopOf (tokens ++ behind), between⟩)
    (follow : Follow (operand (expressionAt levels) levels) [] (Token.stopOf (tokens ++ behind)) behind
      between following tree') :
    ∃ t : OperatorTree, readStatements (tokens ++ behind) tree = (.ok [t.toExpr], tree') ∧
      t.first = e ∧ t.following = following ∧ t.Grouped := by
  have some_token : tokens ++ behind ≠ [] := by
    intro none
    rw [none] at first
    cases levels <;> cases first
  have enough : following.length ≤ levels := by
    have := follow.length_le
    rw [weightAll_append] at all
    omega
  have start : operand (expressionAt levels) levels
      ⟨tokens ++ (behind ++ []), Token.stopOf (tokens ++ behind), tree⟩ =
        .ok e ⟨behind ++ [], Token.stopOf (tokens ++ behind), between⟩ := by
    rw [List.append_nil]
    exact first
  obtain ⟨t, read, tree⟩ := operators_follow start follow rfl enough
  rw [List.append_nil] at read
  refine ⟨t, ?_, tree⟩
  have statement : statement (expressionAt (levels + 1)) ⟨tokens ++ behind, _, _⟩ = _ :=
    (statement_follow first follow).trans read
  rw [readStatements, Cursor.start, all, EStateM.run,
    statementsFrom_single some_token (all ▸ weightAll_pos some_token) statement]

end

end WindowedClosures.Grammar
