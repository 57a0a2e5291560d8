import WindowedClosures.Proofs.Outcome
import WindowedClosures.Token.Nest

/-!
# Nesting of brackets

`Balanced` says what matching one kind of bracket does to a row of tokens, and `Nests` what the two
rounds of matching do together: a flat row in which brackets stand in pairs that do not cross
becomes the trees with a group for each pair. A row that does not nest has no trees, and the fault
points at one of its brackets.
-/

namespace WindowedClosures

/-! ## One kind of bracket -/

/-- A row of tokens and the same row with a group in place of every pair of one kind of bracket. -/
inductive Balanced (bracket : Bracket) : List Token → List Token → Prop
  | nil : Balanced bracket [] []
  | other {t : Token} {rest out : List Token} : t.isSymbol (.opening bracket) = false →
      t.isSymbol (.closing bracket) = false → Balanced bracket rest out →
      Balanced bracket (t :: rest) (t :: out)
  | pair {opening closing : Token} {inner rest children out : List Token} :
      opening.isSymbol (.opening bracket) → closing.isSymbol (.closing bracket) →
      Balanced bracket inner children → Balanced bracket rest out →
      Balanced bracket (opening :: (inner ++ closing :: rest))
        (.group bracket children (opening.span.merge closing.span) opening.line :: out)

/-- The rest of a row behind some open groups: what is still missing of the innermost group, its
closing bracket, and so on outwards. -/
inductive Closes (bracket : Bracket) :
    List OpenGroup → List Token → List Token → List Token → Prop
  | outside {out rest more : List Token} : Balanced bracket rest more →
      Closes bracket [] out rest (out.reverse ++ more)
  | inside {g : OpenGroup} {groups : List OpenGroup} {closing : Token}
      {out inner rest children result : List Token} : Balanced bracket inner children →
      closing.isSymbol (.closing bracket) →
      Closes bracket
        (pushToken (.group bracket (g.children.reverse ++ children) (g.span.merge closing.span) g.line)
          groups out).1
        (pushToken (.group bracket (g.children.reverse ++ children) (g.span.merge closing.span) g.line)
          groups out).2
        rest result →
      Closes bracket (g :: groups) out (inner ++ closing :: rest) result

section

variable {bracket : Bracket} {t : Token} {groups : List OpenGroup} {out rest result : List Token}

/-- A token is one symbol only. -/
theorem eq_of_isSymbol {a b : Symbol} (ha : t.isSymbol a) (hb : t.isSymbol b) : a = b := by
  unfold Token.isSymbol at ha hb
  split at ha
  · simp only [beq_iff_eq] at ha hb
    exact ha.symm.trans hb
  · cases ha

theorem groupFrom_opening (h : t.isSymbol (.opening bracket)) :
    groupFrom bracket groups out (t :: rest) =
      groupFrom bracket (⟨t.span, t.line, []⟩ :: groups) out rest := by
  conv => lhs; unfold groupFrom
  simp [h]

theorem groupFrom_closing {g : OpenGroup} (h : t.isSymbol (.closing bracket)) :
    groupFrom bracket (g :: groups) out (t :: rest) =
      groupFrom bracket
        (pushToken (.group bracket g.children.reverse (g.span.merge t.span) g.line) groups out).1
        (pushToken (.group bracket g.children.reverse (g.span.merge t.span) g.line) groups out).2
        rest := by
  have no_opening : ¬ t.isSymbol (.opening bracket) := fun opens => by
    cases eq_of_isSymbol opens h
  conv => lhs; unfold groupFrom
  simp [h, no_opening]

theorem groupFrom_other (no_opening : t.isSymbol (.opening bracket) = false)
    (no_closing : t.isSymbol (.closing bracket) = false) :
    groupFrom bracket groups out (t :: rest) =
      groupFrom bracket (pushToken t groups out).1 (pushToken t groups out).2 rest := by
  conv => lhs; unfold groupFrom
  simp [no_opening, no_closing]

/-- What is pushed may be read from the row instead. -/
theorem Closes.unpush {front : List Token}
    (grows : ∀ {a b : List Token}, Balanced bracket a b → Balanced bracket (front ++ a) (t :: b))
    (h : Closes bracket (pushToken t groups out).1 (pushToken t groups out).2 rest result) :
    Closes bracket groups out (front ++ rest) result := by
  cases groups with
  | nil =>
    simp only [pushToken] at h
    cases h with
    | outside more =>
      rw [List.reverse_cons, List.append_assoc]
      exact .outside (grows more)
  | cons g groups =>
    simp only [pushToken] at h
    cases h with
    | inside balanced closes more =>
      rw [← List.append_assoc]
      refine .inside (grows balanced) closes ?_
      simpa using more

theorem closes_of_groupFrom : ∀ (tokens : List Token) (groups : List OpenGroup) (out : List Token),
    groupFrom bracket groups out tokens = .ok result → Closes bracket groups out tokens result
  | [], [], out, h => by
    cases h
    have done : Closes bracket [] out [] (out.reverse ++ []) := .outside .nil
    rwa [List.append_nil] at done
  | [], g :: groups, out, h => by cases h
  | t :: rest, groups, out, h => by
    by_cases opens : t.isSymbol (.opening bracket)
    · rw [groupFrom_opening opens] at h
      cases closes_of_groupFrom rest _ _ h with
      | @inside _ _ closing _ inner rest children _ balanced closes more =>
        have front : t :: (inner ++ closing :: rest) = (t :: (inner ++ [closing])) ++ rest := by simp
        rw [front]
        refine more.unpush fun {a b} behind => ?_
        simpa using Balanced.pair opens closes balanced behind
    · by_cases closes : t.isSymbol (.closing bracket)
      · cases groups with
        | nil =>
          unfold groupFrom at h
          simp [opens, closes] at h
        | cons g groups =>
          rw [groupFrom_closing closes] at h
          have more := closes_of_groupFrom rest _ _ h
          have whole : Closes bracket (g :: groups) out ([] ++ t :: rest) result :=
            .inside .nil closes (by simpa using more)
          exact whole
      · rw [Bool.not_eq_true] at opens closes
        rw [groupFrom_other opens closes] at h
        have whole : Closes bracket groups out ([t] ++ rest) result :=
          (closes_of_groupFrom rest _ _ h).unpush (Balanced.other opens closes)
        exact whole

/-- Add tokens one after the other. -/
def pushTokens : List Token → List OpenGroup → List Token → List OpenGroup × List Token
  | [], groups, out => (groups, out)
  | t :: rest, groups, out => pushTokens rest (pushToken t groups out).1 (pushToken t groups out).2

theorem pushTokens_cons (ts : List Token) (g : OpenGroup) (groups : List OpenGroup)
    (out : List Token) : pushTokens ts (g :: groups) out =
      (⟨g.span, g.line, ts.reverse ++ g.children⟩ :: groups, out) := by
  induction ts generalizing g with
  | nil => rfl
  | cons t rest ih => simp [pushTokens, pushToken, ih]

theorem pushTokens_nil (ts out : List Token) : pushTokens ts [] out = ([], ts.reverse ++ out) := by
  induction ts generalizing out with
  | nil => rfl
  | cons t rest ih => simp [pushTokens, pushToken, ih]

/-- Reading a balanced row pushes what it stands for. -/
theorem groupFrom_append {tokens trees : List Token} (h : Balanced bracket tokens trees) :
    ∀ groups out rest, groupFrom bracket groups out (tokens ++ rest) =
      groupFrom bracket (pushTokens trees groups out).1 (pushTokens trees groups out).2 rest := by
  induction h with
  | nil => intros; rfl
  | other no_opening no_closing _ ih =>
    intro groups out rest
    rw [List.cons_append, groupFrom_other no_opening no_closing, ih]
    rfl
  | pair opens closes _ _ inner_ih rest_ih =>
    intro groups out rest
    rw [List.cons_append, groupFrom_opening opens, List.append_assoc, inner_ih, pushTokens_cons,
      List.cons_append, groupFrom_closing closes, rest_ih]
    simp [pushTokens]

theorem group_eq_ok_iff {tokens trees : List Token} :
    group bracket tokens = .ok trees ↔ Balanced bracket tokens trees := by
  constructor
  · intro h
    cases closes_of_groupFrom tokens [] [] h with
    | outside balanced => simpa using balanced
  · intro h
    have read := groupFrom_append h [] [] []
    rw [List.append_nil, pushTokens_nil] at read
    simpa [group, groupFrom] using read

end

/-! ## Both kinds of bracket -/

/-- A lexeme that stands for itself among token trees. -/
def Lexeme.Plain (lexeme : Lexeme) : Prop :=
  ∀ bracket, lexeme ≠ .symbol (.opening bracket) ∧ lexeme ≠ .symbol (.closing bracket)

/-- A flat row of tokens and its trees: a group runs from its opening to its closing bracket and
starts on the line of the opening one. -/
inductive Nests : List Token → List Token → Prop
  | nil : Nests [] []
  | leaf {lexeme : Lexeme} {span : Span} {line : Nat} {flat trees : List Token} : lexeme.Plain →
      Nests flat trees → Nests (.leaf lexeme span line :: flat) (.leaf lexeme span line :: trees)
  | group {bracket : Bracket} {here there : Span} {line lastLine : Nat}
      {inner flat children trees : List Token} : Nests inner children → Nests flat trees →
      Nests (.leaf (.symbol (.opening bracket)) here line ::
          (inner ++ .leaf (.symbol (.closing bracket)) there lastLine :: flat))
        (.group bracket children (here.merge there) line :: trees)

section

variable {flat braced mid trees : List Token}

@[simp] theorem isSymbol_self (symbol : Symbol) (span : Span) (line : Nat) :
    (Token.leaf (.symbol symbol) span line).isSymbol symbol = true := by
  simp [Token.isSymbol]

theorem leaf_of_isSymbol {t : Token} {symbol : Symbol} (h : t.isSymbol symbol) :
    ∃ span line, t = .leaf (.symbol symbol) span line := by
  unfold Token.isSymbol at h
  split at h
  · simp only [beq_iff_eq] at h
    subst h
    exact ⟨_, _, rfl⟩
  · cases h

theorem isSymbol_of_plain {lexeme : Lexeme} {span : Span} {line : Nat} (plain : lexeme.Plain)
    (bracket : Bracket) : (Token.leaf lexeme span line).isSymbol (.opening bracket) = false ∧
      (Token.leaf lexeme span line).isSymbol (.closing bracket) = false := by
  constructor
  · cases opens : (Token.leaf lexeme span line).isSymbol (.opening bracket) with
    | false => rfl
    | true =>
      obtain ⟨_, _, eq⟩ := leaf_of_isSymbol opens
      cases eq
      exact absurd rfl (plain bracket).1
  · cases closes : (Token.leaf lexeme span line).isSymbol (.closing bracket) with
    | false => rfl
    | true =>
      obtain ⟨_, _, eq⟩ := leaf_of_isSymbol closes
      cases eq
      exact absurd rfl (plain bracket).2

theorem Balanced.append {bracket : Bracket} {a b c d : List Token} (ha : Balanced bracket a b)
    (hc : Balanced bracket c d) : Balanced bracket (a ++ c) (b ++ d) := by
  induction ha with
  | nil => exact hc
  | other no_opening no_closing _ ih => exact .other no_opening no_closing ih
  | pair opens closes inner _ _ ih =>
    rw [List.cons_append, List.append_assoc, List.cons_append]
    exact .pair opens closes inner ih

/-- Where the trees are cut, the row can be cut. -/
theorem Balanced.split {bracket : Bracket} {row b d : List Token} (h : Balanced bracket row (b ++ d)) :
    ∃ a c, row = a ++ c ∧ Balanced bracket a b ∧ Balanced bracket c d := by
  induction b generalizing row with
  | nil => exact ⟨[], row, rfl, .nil, h⟩
  | cons t rest ih =>
    cases h with
    | other no_opening no_closing more =>
      obtain ⟨a, c, rfl, ha, hc⟩ := ih more
      exact ⟨t :: a, c, rfl, .other no_opening no_closing ha, hc⟩
    | @pair opening closing inner _ _ _ opens closes inside more =>
      obtain ⟨a, c, rfl, ha, hc⟩ := ih more
      exact ⟨opening :: (inner ++ closing :: a), c, by simp, .pair opens closes inside ha, hc⟩

theorem nestParensAll_cons {t : Token} {rest out : List Token} :
    nestParensAll (t :: rest) = .ok out ↔
      ∃ tree more, t.nestParens = .ok tree ∧ nestParensAll rest = .ok more ∧ out = tree :: more := by
  rw [nestParensAll]
  constructor
  · intro h
    obtain ⟨tree, nested, h⟩ := except_bind_ok h
    obtain ⟨more, others, h⟩ := except_bind_ok h
    cases h
    exact ⟨tree, more, nested, others, rfl⟩
  · rintro ⟨tree, more, nested, others, rfl⟩
    rw [nested, others]
    rfl

theorem nestParensAll_append {a b c d : List Token} (ha : nestParensAll a = .ok b)
    (hc : nestParensAll c = .ok d) : nestParensAll (a ++ c) = .ok (b ++ d) := by
  induction a generalizing b with
  | nil =>
    cases ha
    exact hc
  | cons t rest ih =>
    obtain ⟨tree, more, nested, others, rfl⟩ := nestParensAll_cons.mp ha
    exact nestParensAll_cons.mpr ⟨tree, more ++ d, nested, ih others, rfl⟩

theorem nestParensAll_split {row b d : List Token} (h : nestParensAll row = .ok (b ++ d)) :
    ∃ a c, row = a ++ c ∧ nestParensAll a = .ok b ∧ nestParensAll c = .ok d := by
  induction b generalizing row with
  | nil => exact ⟨[], row, rfl, rfl, h⟩
  | cons tree more ih =>
    cases row with
    | nil => cases h
    | cons t rest =>
      obtain ⟨_, _, nested, others, eq⟩ := nestParensAll_cons.mp h
      cases eq
      obtain ⟨a, c, rfl, ha, hc⟩ := ih others
      exact ⟨t :: a, c, rfl, nestParensAll_cons.mpr ⟨_, _, nested, ha, rfl⟩, hc⟩

theorem nestParens_group {bracket : Bracket} {children : List Token} {span : Span} {line : Nat}
    {tree : Token} : (Token.group bracket children span line).nestParens = .ok tree ↔
      ∃ mid nested, nestParensAll children = .ok mid ∧ Balanced .paren mid nested ∧
        tree = .group bracket nested span line := by
  rw [Token.nestParens]
  constructor
  · intro h
    obtain ⟨mid, others, h⟩ := except_bind_ok h
    obtain ⟨nested, grouped, h⟩ := except_bind_ok h
    cases h
    exact ⟨mid, nested, others, group_eq_ok_iff.mp grouped, rfl⟩
  · rintro ⟨mid, nested, others, balanced, rfl⟩
    rw [others]
    change (do let children ← group .paren mid; _) = _
    rw [group_eq_ok_iff.mpr balanced]
    rfl

/-- The rows between the two rounds: with the braces matched, and with the parentheses inside
braces matched too. -/
theorem rounds_of_nests (h : Nests flat trees) : ∃ braced mid, Balanced .brace flat braced ∧
    nestParensAll braced = .ok mid ∧ Balanced .paren mid trees := by
  induction h with
  | nil => exact ⟨[], [], .nil, rfl, .nil⟩
  | leaf plain _ ih =>
    obtain ⟨braced, mid, hb, hn, hp⟩ := ih
    obtain ⟨no_opening, no_closing⟩ := isSymbol_of_plain plain .brace
    obtain ⟨no_left, no_right⟩ := isSymbol_of_plain plain .paren
    exact ⟨_, _, .other no_opening no_closing hb, nestParensAll_cons.mpr ⟨_, _, rfl, hn, rfl⟩,
      .other no_left no_right hp⟩
  | @group bracket here there line lastLine inner flat children trees _ _ inner_ih flat_ih =>
    obtain ⟨braced, mid, hb, hn, hp⟩ := inner_ih
    obtain ⟨braced', mid', hb', hn', hp'⟩ := flat_ih
    cases bracket with
    | brace =>
      exact ⟨_, _, .pair rfl rfl hb hb',
        nestParensAll_cons.mpr ⟨_, _, nestParens_group.mpr ⟨_, _, hn, hp, rfl⟩, hn', rfl⟩,
        .other rfl rfl hp'⟩
    | paren =>
      have whole : Balanced .paren (.leaf (.symbol (.opening .paren)) here line ::
          (mid ++ .leaf (.symbol (.closing .paren)) there lastLine :: mid')) _ :=
        .pair rfl rfl hp hp'
      refine ⟨_, _, .other rfl rfl (hb.append (.other rfl rfl hb')), ?_, whole⟩
      refine nestParensAll_cons.mpr ⟨_, _, rfl, nestParensAll_append hn ?_, rfl⟩
      exact nestParensAll_cons.mpr ⟨_, _, rfl, hn', rfl⟩

theorem plain_of_isSymbol {lexeme : Lexeme} {span : Span} {line : Nat}
    (h : ∀ bracket, (Token.leaf lexeme span line).isSymbol (.opening bracket) = false ∧
      (Token.leaf lexeme span line).isSymbol (.closing bracket) = false) : lexeme.Plain := by
  intro bracket
  constructor
  · rintro rfl
    simpa [Token.isSymbol] using (h bracket).1
  · rintro rfl
    simpa [Token.isSymbol] using (h bracket).2

/-- A bracket between the rounds was there before. -/
theorem eq_of_nestParens {t : Token} {symbol : Symbol} {span : Span} {line : Nat}
    (h : t.nestParens = .ok (.leaf (.symbol symbol) span line)) :
    t = .leaf (.symbol symbol) span line := by
  cases t with
  | leaf lexeme span line =>
    cases h
    rfl
  | group bracket children span line =>
    obtain ⟨_, _, _, _, eq⟩ := nestParens_group.mp h
    cases eq

def Token.IsLeaf : Token → Prop
  | .leaf .. => True
  | .group .. => False

/-- A row of leaves whose two rounds succeed nests. A group of braces may hold any part of the row,
so the induction is on the length of the row. -/
theorem nests_of_rounds (length : Nat) : ∀ {flat braced mid trees : List Token},
    flat.length < length → (∀ t ∈ flat, t.IsLeaf) → Balanced .brace flat braced →
    nestParensAll braced = .ok mid → Balanced .paren mid trees → Nests flat trees := by
  induction length with
  | zero => nofun
  | succ length ih =>
    intro flat braced mid trees short leaves braces inside parens
    cases parens with
    | nil =>
      cases braced with
      | nil =>
        cases braces
        exact .nil
      | cons t rest =>
        obtain ⟨_, _, _, _, eq⟩ := nestParensAll_cons.mp inside
        cases eq
    | @other t rest out no_left no_right more =>
      cases braced with
      | nil => cases inside
      | cons first others =>
        obtain ⟨_, _, nested, later, eq⟩ := nestParensAll_cons.mp inside
        cases eq
        cases braces with
        | @other _ flat _ no_opening no_closing braces =>
          cases first with
          | group bracket children span line =>
            exact (leaves (.group bracket children span line) (by simp) : False).elim
          | leaf lexeme span line =>
            cases nested
            have apart : ∀ bracket, (Token.leaf lexeme span line).isSymbol (.opening bracket) = false ∧
                (Token.leaf lexeme span line).isSymbol (.closing bracket) = false := by
              rintro (_ | _)
              · exact ⟨no_opening, no_closing⟩
              · exact ⟨no_left, no_right⟩
            exact .leaf (plain_of_isSymbol apart)
              (ih (by simpa using short) (fun t ht => leaves t (by simp [ht])) braces later more)
        | @pair opening closing row flat children _ opens closes inner braces =>
          obtain ⟨here, line, rfl⟩ := leaf_of_isSymbol opens
          obtain ⟨there, lastLine, rfl⟩ := leaf_of_isSymbol closes
          obtain ⟨mid, grouped, within, balanced, rfl⟩ := nestParens_group.mp nested
          simp only [List.length_cons, List.length_append] at short
          exact .group
            (ih (by omega) (fun t ht => leaves t (by simp [ht])) inner within balanced)
            (ih (by omega) (fun t ht => leaves t (by simp [ht])) braces later more)
    | @pair opening closing row rest children out opens closes inner more =>
      obtain ⟨here, line, rfl⟩ := leaf_of_isSymbol opens
      obtain ⟨there, lastLine, rfl⟩ := leaf_of_isSymbol closes
      cases braced with
      | nil => cases inside
      | cons first others =>
        obtain ⟨_, _, nested, later, eq⟩ := nestParensAll_cons.mp inside
        cases eq
        obtain rfl := eq_of_nestParens nested
        obtain ⟨front, back, rfl, within, later⟩ := nestParensAll_split later
        cases back with
        | nil => cases later
        | cons last others =>
          obtain ⟨_, _, nested, behind, eq⟩ := nestParensAll_cons.mp later
          cases eq
          obtain rfl := eq_of_nestParens nested
          cases braces with
          | other _ _ braces =>
            obtain ⟨flat, flat', rfl, first, second⟩ := braces.split
            cases second with
            | other _ _ second =>
              simp only [List.length_cons, List.length_append] at short
              exact .group (ih (by omega) (fun t ht => leaves t (by simp [ht])) first within inner)
                (ih (by omega) (fun t ht => leaves t (by simp [ht])) second behind more)

/-- The trees of a row of leaves are what the row nests to. -/
theorem nest_eq_ok_iff (leaves : ∀ t ∈ flat, t.IsLeaf) : nest flat = .ok trees ↔ Nests flat trees := by
  constructor
  · intro h
    obtain ⟨braced, braces, h⟩ := except_bind_ok h
    obtain ⟨mid, inside, h⟩ := except_bind_ok h
    exact nests_of_rounds _ (Nat.lt_succ_self _) leaves (group_eq_ok_iff.mp braces) inside
      (group_eq_ok_iff.mp h)
  · intro h
    obtain ⟨braced, mid, braces, inside, parens⟩ := rounds_of_nests h
    rw [nest, group_eq_ok_iff.mpr braces]
    change (do let mid ← nestParensAll braced; _) = _
    rw [inside]
    exact group_eq_ok_iff.mpr parens

end

/-! ## Faults of nesting -/

mutual

/-- The spans of all leaves of a tree have a property. -/
def Token.LeafSpans (p : Span → Prop) : Token → Prop
  | .leaf _ span _ => p span
  | .group _ children _ _ => LeafSpansAll p children

def LeafSpansAll (p : Span → Prop) : List Token → Prop
  | [] => True
  | t :: rest => t.LeafSpans p ∧ LeafSpansAll p rest

end

section

variable {p : Span → Prop} {bracket : Bracket} {e : LexError}

theorem leafSpansAll_iff {tokens : List Token} :
    LeafSpansAll p tokens ↔ ∀ t ∈ tokens, t.LeafSpans p := by
  induction tokens with
  | nil => simp [LeafSpansAll]
  | cons t rest ih => simp [LeafSpansAll, ih]

theorem Token.LeafSpans.span {t : Token} {symbol : Symbol} (h : t.LeafSpans p)
    (is : t.isSymbol symbol) : p t.span := by
  obtain ⟨span, line, rfl⟩ := leaf_of_isSymbol is
  exact h

theorem Balanced.leafSpans {row trees : List Token} (h : Balanced bracket row trees)
    (spans : LeafSpansAll p row) : LeafSpansAll p trees := by
  induction h with
  | nil => exact spans
  | other _ _ _ ih => exact ⟨spans.1, ih spans.2⟩
  | pair _ _ _ _ inner_ih rest_ih =>
    rw [leafSpansAll_iff] at spans
    refine ⟨inner_ih (leafSpansAll_iff.mpr fun t ht => spans t ?_),
      rest_ih (leafSpansAll_iff.mpr fun t ht => spans t ?_)⟩
    · simp [ht]
    · simp [ht]

theorem groupFrom_fault : ∀ (tokens : List Token) (groups : List OpenGroup) (out : List Token),
    groupFrom bracket groups out tokens = .error e → LeafSpansAll p tokens →
      (∀ g ∈ groups, p g.span) → p e.span
  | [], [], out, h, _, _ => by cases h
  | [], g :: groups, out, h, _, open_spans => by
    cases h
    exact open_spans g (by simp)
  | t :: rest, groups, out, h, spans, open_spans => by
    have pushed : ∀ {t groups out}, (∀ g ∈ groups, p g.span) →
        ∀ g ∈ (pushToken t groups out).1, p g.span := by
      intro t groups out all
      cases groups with
      | nil => simp [pushToken]
      | cons g groups => simpa [pushToken] using all
    by_cases opens : t.isSymbol (.opening bracket)
    · rw [groupFrom_opening opens] at h
      refine groupFrom_fault rest _ _ h spans.2 ?_
      simpa using ⟨spans.1.span opens, open_spans⟩
    · by_cases closes : t.isSymbol (.closing bracket)
      · cases groups with
        | nil =>
          unfold groupFrom at h
          simp only [opens, closes] at h
          cases h
          exact spans.1.span closes
        | cons g groups =>
          rw [groupFrom_closing closes] at h
          exact groupFrom_fault rest _ _ h spans.2
            (pushed fun g hg => open_spans g (by simp [hg]))
      · rw [Bool.not_eq_true] at opens closes
        rw [groupFrom_other opens closes] at h
        exact groupFrom_fault rest _ _ h spans.2 (pushed open_spans)

theorem group_fault {tokens : List Token} (h : group bracket tokens = .error e)
    (spans : LeafSpansAll p tokens) : p e.span :=
  groupFrom_fault tokens [] [] h spans (by simp)

mutual

theorem nestParens_leafSpans : ∀ (t : Token) {tree : Token}, t.nestParens = .ok tree →
    t.LeafSpans p → tree.LeafSpans p
  | .leaf .., _, h, spans => by
    cases h
    exact spans
  | .group bracket children span line, _, h, spans => by
    obtain ⟨mid, nested, within, balanced, rfl⟩ := nestParens_group.mp h
    exact balanced.leafSpans (nestParensAll_leafSpans children within spans)

theorem nestParensAll_leafSpans : ∀ (tokens : List Token) {trees : List Token},
    nestParensAll tokens = .ok trees → LeafSpansAll p tokens → LeafSpansAll p trees
  | [], _, h, spans => by
    cases h
    exact spans
  | t :: rest, _, h, spans => by
    obtain ⟨tree, more, nested, others, rfl⟩ := nestParensAll_cons.mp h
    exact ⟨nestParens_leafSpans t nested spans.1, nestParensAll_leafSpans rest others spans.2⟩

end

mutual

theorem nestParens_fault : ∀ (t : Token), t.nestParens = .error e → t.LeafSpans p → p e.span
  | .leaf .., h, _ => by cases h
  | .group bracket children span line, h, spans => by
    rw [Token.nestParens] at h
    rcases except_bind_error h with h | ⟨mid, within, h⟩
    · exact nestParensAll_fault children h spans
    · rcases except_bind_error h with h | ⟨nested, -, h⟩
      · exact group_fault h (nestParensAll_leafSpans children within spans)
      · cases h

theorem nestParensAll_fault : ∀ (tokens : List Token), nestParensAll tokens = .error e →
    LeafSpansAll p tokens → p e.span
  | [], h, _ => by cases h
  | t :: rest, h, spans => by
    rw [nestParensAll] at h
    rcases except_bind_error h with h | ⟨tree, -, h⟩
    · exact nestParens_fault t h spans.1
    · rcases except_bind_error h with h | ⟨more, -, h⟩
      · exact nestParensAll_fault rest h spans.2
      · cases h

end

/-- A fault points at one of the leaves that were to be nested. -/
theorem nest_fault {tokens : List Token} (h : nest tokens = .error e)
    (spans : LeafSpansAll p tokens) : p e.span := by
  rcases except_bind_error h with h | ⟨braced, braces, h⟩
  · exact group_fault h spans
  · have braced_spans := (group_eq_ok_iff.mp braces).leafSpans spans
    rcases except_bind_error h with h | ⟨mid, within, h⟩
    · exact nestParensAll_fault braced h braced_spans
    · exact group_fault h (nestParensAll_leafSpans braced within braced_spans)

end

end WindowedClosures
