import WindowedClosures.Proofs.Token.Bare

/-!
# Brackets matched in one pass

Nesting matches braces in one round over a whole row and parentheses in a second round, inside each
group of braces. `matchFrom` goes over the row once, with one stack for the open brackets of both
kinds. The two give the same trees: they succeed on the rows whose brackets stand in pairs that do
not cross, and what they build is the row again once the brackets are put around the children of
every group.
-/

namespace WindowedClosures

/-! ## Words of brackets -/

/-- The bracket that a token is. -/
def Token.bracket? : Token → Option Symbol
  | .leaf (.symbol (.opening bracket)) _ _ => some (.opening bracket)
  | .leaf (.symbol (.closing bracket)) _ _ => some (.closing bracket)
  | _ => none

/-- The brackets of a row, in order. -/
def brackets (tokens : List Token) : List Symbol := tokens.filterMap Token.bracket?

/-- A word of brackets that stand in pairs of one kind and do not cross. -/
inductive WellNested : List Symbol → Prop
  | nil : WellNested []
  | pair {bracket : Bracket} {inner rest : List Symbol} : WellNested inner → WellNested rest →
      WellNested (.opening bracket :: (inner ++ .closing bracket :: rest))

section

variable {t : Token} {bracket : Bracket} {flat trees : List Token}

theorem leaf_of_bracket? {symbol : Symbol} (h : t.bracket? = some symbol) :
    ∃ span line, t = .leaf (.symbol symbol) span line := by
  unfold Token.bracket? at h
  split at h <;> cases h <;> exact ⟨_, _, rfl⟩

theorem bracket?_of_plain {lexeme : Lexeme} (plain : lexeme.Plain) (span : Span) (line : Nat) :
    (Token.leaf lexeme span line).bracket? = none := by
  unfold Token.bracket?
  split
  · rename_i eq
    cases eq
    exact absurd rfl (plain _).1
  · rename_i eq
    cases eq
    exact absurd rfl (plain _).2
  · rfl

theorem plain_of_bracket? {lexeme : Lexeme} {span : Span} {line : Nat}
    (h : (Token.leaf lexeme span line).bracket? = none) : lexeme.Plain := by
  intro bracket
  constructor
  · rintro rfl
    cases h
  · rintro rfl
    cases h

@[simp] theorem brackets_nil : brackets [] = [] := rfl

@[simp] theorem brackets_append (a b : List Token) : brackets (a ++ b) = brackets a ++ brackets b :=
  List.filterMap_append ..

theorem brackets_cons_some {symbol : Symbol} (h : t.bracket? = some symbol) (rest : List Token) :
    brackets (t :: rest) = symbol :: brackets rest :=
  List.filterMap_cons_some h

theorem brackets_cons_none (h : t.bracket? = none) (rest : List Token) :
    brackets (t :: rest) = brackets rest :=
  List.filterMap_cons_none h

/-- A row of leaves without brackets stands for itself. -/
theorem nests_of_unbracketed (leaves : ∀ t ∈ flat, t.IsLeaf) (quiet : ∀ t ∈ flat, t.bracket? = none) :
    Nests flat flat := by
  induction flat with
  | nil => exact .nil
  | cons t rest ih =>
    rw [List.forall_mem_cons] at leaves quiet
    have later := ih leaves.2 quiet.2
    cases t with
    | leaf lexeme span line => exact .leaf (plain_of_bracket? quiet.1) later
    | group => exact (leaves.1 : False).elim

theorem Nests.wellNested (h : Nests flat trees) : WellNested (brackets flat) := by
  induction h with
  | nil => exact .nil
  | @leaf lexeme span line flat trees plain _ ih =>
    rwa [brackets_cons_none (bracket?_of_plain plain span line)]
  | @group bracket here there line lastLine inner flat children trees _ _ inner_ih ih =>
    have word : brackets (.leaf (.symbol (.opening bracket)) here line ::
        (inner ++ .leaf (.symbol (.closing bracket)) there lastLine :: flat)) =
        .opening bracket :: (brackets inner ++ .closing bracket :: brackets flat) := by
      rw [brackets_cons_some rfl, brackets_append, brackets_cons_some rfl]
    rw [word]
    exact .pair inner_ih ih

/-- Where the word of a row is cut at a bracket, the row is cut at a token. -/
theorem brackets_eq_cons {symbol : Symbol} {rest : List Symbol}
    (h : brackets flat = symbol :: rest) : ∃ front span line back,
      flat = front ++ .leaf (.symbol symbol) span line :: back ∧
        (∀ t ∈ front, t.bracket? = none) ∧ brackets back = rest := by
  obtain ⟨front, t, back, rfl, none, is, later⟩ := List.filterMap_eq_cons_iff.mp h
  obtain ⟨span, line, rfl⟩ := leaf_of_bracket? is
  exact ⟨front, span, line, back, rfl, none, later⟩

/-- Leaves whose brackets stand in pairs have trees. -/
theorem exists_nests {word : List Symbol} (h : WellNested word) :
    ∀ {flat : List Token}, (∀ t ∈ flat, t.IsLeaf) → brackets flat = word →
      ∃ trees, Nests flat trees := by
  induction h with
  | nil =>
    intro flat leaves eq
    exact ⟨flat, nests_of_unbracketed leaves (List.filterMap_eq_nil_iff.mp eq)⟩
  | @pair bracket inner rest _ _ inner_ih rest_ih =>
    intro flat leaves eq
    obtain ⟨front, here, line, back, rfl, plain, eq⟩ := brackets_eq_cons eq
    obtain ⟨row, behind, rfl, first, second⟩ := List.filterMap_eq_append_iff.mp eq
    obtain ⟨middle, there, lastLine, last, rfl, quiet, eq⟩ := brackets_eq_cons second
    have within : brackets (row ++ middle) = inner := by
      rw [brackets_append, show brackets middle = [] from List.filterMap_eq_nil_iff.mpr quiet,
        List.append_nil]
      exact first
    obtain ⟨children, inside⟩ := inner_ih (fun t ht => leaves t (by
      rcases List.mem_append.mp ht with ht | ht <;> simp [ht])) within
    obtain ⟨trees, nests⟩ := rest_ih (fun t ht => leaves t (by simp [ht])) eq
    have before := nests_of_unbracketed (fun t ht => leaves t (by simp [ht])) plain
    have behind : Nests (.leaf (.symbol (.opening bracket)) here line ::
        ((row ++ middle) ++ .leaf (.symbol (.closing bracket)) there lastLine :: last)) _ :=
      .group inside nests
    rw [List.append_assoc] at behind
    exact ⟨_, before.append behind⟩

/-! ## One stack -/

/-- An open bracket of either kind, with the tokens in front of it at its level in reverse. -/
structure OpenBracket where
  bracket : Bracket
  span : Span
  line : Nat
  before : List Token

/-- Match brackets of both kinds in one pass, with the open ones innermost first and the tokens
behind the innermost one in reverse. A closing bracket has to be of the kind of the innermost open
one. -/
def matchFrom (stack : List OpenBracket) (level : List Token) : List Token → Option (List Token)
  | [] => if stack.isEmpty then some level.reverse else none
  | t :: rest =>
    match t, stack with
    | .leaf (.symbol (.opening bracket)) span line, _ =>
      matchFrom (⟨bracket, span, line, level⟩ :: stack) [] rest
    | .leaf (.symbol (.closing bracket)) span _, o :: outer =>
      if o.bracket = bracket then
        matchFrom outer (.group bracket level.reverse (o.span.merge span) o.line :: o.before) rest
      else none
    | .leaf (.symbol (.closing _)) _ _, [] => none
    | t, _ => matchFrom stack (t :: level) rest

variable {stack : List OpenBracket} {level rest result : List Token}

theorem matchFrom_closing (o : OpenBracket) (span : Span) (line : Nat) :
    matchFrom (o :: stack) level (.leaf (.symbol (.closing o.bracket)) span line :: rest) =
      matchFrom stack
        (.group o.bracket level.reverse (o.span.merge span) o.line :: o.before) rest := by
  rw [matchFrom, if_pos rfl]

theorem matchFrom_plain (h : t.bracket? = none) :
    matchFrom stack level (t :: rest) = matchFrom stack (t :: level) rest := by
  rw [matchFrom.eq_def]
  dsimp only
  split
  · cases h
  · cases h
  · cases h
  · rfl

/-- Matching a row that nests puts its trees on the innermost level. -/
theorem Nests.matchFrom_append (h : Nests flat trees) : ∀ stack level rest,
    matchFrom stack level (flat ++ rest) = matchFrom stack (trees.reverse ++ level) rest := by
  induction h with
  | nil => intros; rfl
  | @leaf lexeme span line flat trees plain _ ih =>
    intro stack level rest
    rw [List.cons_append, matchFrom_plain (bracket?_of_plain plain span line), ih]
    simp
  | @group bracket here there line lastLine inner flat children trees _ _ inner_ih ih =>
    intro stack level rest
    rw [List.cons_append, List.append_assoc, matchFrom, inner_ih, List.cons_append,
      matchFrom_closing ⟨bracket, here, line, level⟩, ih]
    simp

/-- The rest of a row behind some open brackets: what is still missing behind the innermost one, its
closing bracket, and so on outwards. -/
inductive Unwinds : List OpenBracket → List Token → List Token → List Token → Prop
  | outside {level rest more : List Token} : Nests rest more →
      Unwinds [] level rest (level.reverse ++ more)
  | inside {o : OpenBracket} {stack : List OpenBracket} {there : Span} {lastLine : Nat}
      {level inner rest children result : List Token} : Nests inner children →
      Unwinds stack
        (.group o.bracket (level.reverse ++ children) (o.span.merge there) o.line :: o.before)
        rest result →
      Unwinds (o :: stack) level
        (inner ++ .leaf (.symbol (.closing o.bracket)) there lastLine :: rest) result

/-- The last tree of a level may be read from the row instead. -/
theorem Unwinds.unpush {front : List Token} (front_nests : Nests front [t])
    (h : Unwinds stack (t :: level) rest result) : Unwinds stack level (front ++ rest) result := by
  cases h with
  | outside more =>
    rw [List.reverse_cons, List.append_assoc]
    exact .outside (front_nests.append more)
  | inside within more =>
    rw [← List.append_assoc]
    refine .inside (front_nests.append within) ?_
    simpa using more

theorem unwinds_of_matchFrom : ∀ (tokens : List Token) (stack : List OpenBracket)
    (level : List Token), (∀ t ∈ tokens, t.IsLeaf) → matchFrom stack level tokens = some result →
      Unwinds stack level tokens result
  | [], [], level, _, h => by
    cases h
    have done : Unwinds [] level [] (level.reverse ++ []) := .outside .nil
    rwa [List.append_nil] at done
  | [], o :: stack, level, _, h => by cases h
  | .group .. :: rest, stack, level, leaves, h => by
    rw [List.forall_mem_cons] at leaves
    exact (leaves.1 : False).elim
  | .leaf lexeme span line :: rest, stack, level, leaves, h => by
    rw [List.forall_mem_cons] at leaves
    have later {stack : List OpenBracket} {level : List Token} :=
      unwinds_of_matchFrom rest stack level leaves.2
    cases is : (Token.leaf lexeme span line).bracket? with
    | none =>
      rw [matchFrom_plain is] at h
      exact (later h).unpush (.leaf (plain_of_bracket? is) .nil)
    | some symbol =>
      unfold Token.bracket? at is
      split at is
      · rename_i bracket _ _ eq
        cases eq
        cases later h with
        | @inside _ _ there lastLine _ inner rest children _ within more =>
          have front : Nests (.leaf (.symbol (.opening bracket)) span line ::
              (inner ++ [.leaf (.symbol (.closing bracket)) there lastLine])) _ :=
            .group within .nil
          simpa using more.unpush front
      · rename_i bracket _ _ eq
        cases eq
        cases stack with
        | nil => cases h
        | cons o stack =>
          rw [matchFrom] at h
          split at h
          · rename_i same
            subst same
            have more := later h
            have closed : Unwinds (o :: stack) level
              ([] ++ .leaf (.symbol (.closing o.bracket)) span line :: rest) result :=
              .inside .nil (by simpa using more)
            exact closed
          · cases h
      · cases is

theorem matchFrom_eq_some_iff (leaves : ∀ t ∈ flat, t.IsLeaf) :
    matchFrom [] [] flat = some trees ↔ Nests flat trees := by
  constructor
  · intro h
    cases unwinds_of_matchFrom flat [] [] leaves h with
    | outside nests => exact nests
  · intro h
    have whole := h.matchFrom_append [] [] []
    rw [List.append_nil, List.append_nil] at whole
    simpa [matchFrom] using whole

end

/-! ## Brackets put back -/

mutual

/-- The row of a token, with the brackets put back around the children of every group. A group keeps
the span over both of its brackets only, so they come back without a place. -/
def Token.unfolded : Token → List Token
  | .leaf lexeme span line => [.leaf lexeme span line]
  | .group bracket children _ _ =>
    .leaf (.symbol (.opening bracket)) .zero 0 ::
      (unfoldedAll children ++ [.leaf (.symbol (.closing bracket)) .zero 0])

def unfoldedAll : List Token → List Token
  | [] => []
  | t :: rest => t.unfolded ++ unfoldedAll rest

end

/-- A bracket without its place, and any other token as it is. -/
def Token.loose (t : Token) : Token :=
  match t.bracket? with
  | some symbol => .leaf (.symbol symbol) .zero 0
  | none => t

theorem Nests.unfolded {flat trees : List Token} (h : Nests flat trees) :
    unfoldedAll trees = flat.map Token.loose := by
  induction h with
  | nil => rfl
  | @leaf lexeme span line flat trees plain _ ih =>
    simp [unfoldedAll, Token.unfolded, Token.loose, bracket?_of_plain plain, ih]
  | group _ _ inner_ih ih =>
    simp [unfoldedAll, Token.unfolded, Token.loose, Token.bracket?, inner_ih, ih]

/-- No bracket is left among trees, at any depth. -/
theorem Nests.unbracketed {flat trees : List Token} (h : Nests flat trees) :
    ∀ t ∈ preorderAll trees, t.bracket? = none := by
  induction h with
  | nil => simp [preorderAll]
  | leaf plain _ ih =>
    simp only [preorderAll, Token.preorder, List.singleton_append, List.forall_mem_cons]
    exact ⟨bracket?_of_plain plain .., ih⟩
  | group _ _ inner_ih ih =>
    simp only [preorderAll, Token.preorder, List.cons_append, List.forall_mem_cons,
      List.forall_mem_append]
    exact ⟨rfl, inner_ih, ih⟩

/-- A row of leaves nests exactly when its brackets stand in pairs that do not cross. The trees are
those of a single pass with one stack, they are the row again with the brackets put back, and no
bracket is left in them. -/
theorem nest_matches {flat : List Token} (leaves : ∀ t ∈ flat, t.IsLeaf) :
    ((∃ trees, nest flat = .ok trees) ↔ WellNested (brackets flat)) ∧
      (nest flat).toOption = matchFrom [] [] flat ∧
      ∀ trees, nest flat = .ok trees → unfoldedAll trees = flat.map Token.loose ∧
        ∀ t ∈ preorderAll trees, t.bracket? = none := by
  refine ⟨⟨?_, ?_⟩, ?_, ?_⟩
  · rintro ⟨trees, h⟩
    exact ((nest_eq_ok_iff leaves).mp h).wellNested
  · intro h
    obtain ⟨trees, nests⟩ := exists_nests h leaves rfl
    exact ⟨trees, (nest_eq_ok_iff leaves).mpr nests⟩
  · refine Option.ext fun trees => ?_
    rw [matchFrom_eq_some_iff leaves, ← nest_eq_ok_iff leaves]
    exact ⟨toOption_eq_some, fun h => by rw [h]; rfl⟩
  · intro trees h
    have nests := (nest_eq_ok_iff leaves).mp h
    exact ⟨nests.unfolded, nests.unbracketed⟩

/-- The row `( { ) }`, in which each kind of bracket alone is balanced. -/
def crossingBrackets : List Token :=
  [.leaf (.symbol (.opening .paren)) ⟨0, 1⟩ 1, .leaf (.symbol (.opening .brace)) ⟨2, 3⟩ 1,
    .leaf (.symbol (.closing .paren)) ⟨4, 5⟩ 1, .leaf (.symbol (.closing .brace)) ⟨6, 7⟩ 1]

theorem nest_matches_crossing : (∀ t ∈ crossingBrackets, t.IsLeaf) ∧
    (group .brace crossingBrackets).isOk ∧ (group .paren crossingBrackets).isOk ∧
      ¬ WellNested (brackets crossingBrackets) := by
  have leaves : ∀ t ∈ crossingBrackets, t.IsLeaf := by simp [crossingBrackets, Token.IsLeaf]
  obtain ⟨nests, one, -⟩ := nest_matches leaves
  refine ⟨leaves, rfl, rfl, fun word => ?_⟩
  obtain ⟨trees, h⟩ := nests.mpr word
  rw [h] at one
  cases one

end WindowedClosures
