import WindowedClosures.Proofs.Grammar.Annotations
import WindowedClosures.Proofs.Grammar.Sources

/-!
# Expressions read back

The printed text of an expression is read as that expression again, apart from places and from
redundant parentheses: the printer puts every operator into parentheses, which the reader keeps.
-/

namespace WindowedClosures

/-! ## Expressions without places and parentheses -/

namespace Expr

/-- A tuple of fields; a single field without a label stands for itself. -/
def ofFields : List (Labelled Expr) → Expr
  | [⟨none, value⟩] => value
  | fields => .tuple fields .zero

mutual

/-- An expression without the places in it and without redundant parentheses at any depth. -/
def stripped : Expr → Expr
  | .int value _ => .int value .zero
  | .hex value _ => .hex value .zero
  | .float value _ => .float value .zero
  | .text value _ => .text value .zero
  | .name value _ => .name value .zero
  | .tuple fields _ => ofFields (strippedFields fields)
  | .typeDecl declared type _ => .typeDecl declared type.unplaced .zero
  | .varDecl declared type value _ => .varDecl declared type.unplaced value.stripped .zero
  | .function literal _ => .function literal .zero
  | .binary op lhs rhs _ => .binary op lhs.stripped rhs.stripped .zero
  | .unary op operand _ => .unary op operand.stripped .zero

def strippedFields : List (Labelled Expr) → List (Labelled Expr)
  | [] => []
  | ⟨label, value⟩ :: rest => ⟨label, value.stripped⟩ :: strippedFields rest

end

theorem strippedFields_eq (fields : List (Labelled Expr)) :
    strippedFields fields = fields.map fun f => ⟨f.label, f.value.stripped⟩ := by
  induction fields with
  | nil => rfl
  | cons f rest ih => simp [strippedFields, ih]

/-! ## Tokens of an expression -/

/-- The symbol that an expression starts with, if it does. -/
def sign? : Expr → Option Symbol
  | .unary op _ _ => some op.sign
  | .varDecl .. => some .leftSquare
  | .typeDecl .. => some .colon
  | _ => none

/-- One token: a number, a text, a name or something in parentheses. -/
def isPrimary : Expr → Bool
  | .int .. | .hex .. | .text .. | .name .. | .tuple .. => true
  | .binary op _ _ _ => op.standsBetween
  | _ => false

end Expr

/-- The symbol that comes first, if one does. -/
def symbolOf? : List Bare → Option Symbol
  | .leaf (.symbol symbol) :: _ => some symbol
  | _ => none

/-- A name and an equal sign come first. -/
def assigns : List Bare → Bool
  | .leaf (.name _) :: .leaf (.symbol .equal) :: _ => true
  | _ => false

namespace Expr

variable {e : Expr}

theorem sign?_of_level (h : e.level = 0) : e.sign? = none := by
  cases e with
  | unary | varDecl | typeDecl => cases h
  | _ => rfl

theorem level_of_isPrimary (h : e.isPrimary) : e.level = 0 := by
  cases e with
  | binary op => exact level_operation h ..
  | unary | varDecl | typeDecl => cases h
  | _ => rfl

theorem Printable.bare_ne_nil (h : e.Printable) : e.bare ≠ [] := by
  cases h with
  | operation between =>
    rw [bare_operation between]
    simp
  | _ => simp [bare]

theorem Printable.bare_primary (h : e.Printable) (one : e.isPrimary) : ∃ b, e.bare = [b] := by
  cases h with
  | operation between => exact ⟨_, bare_operation between ..⟩
  | int | hex | text | name | tuple => exact ⟨_, rfl⟩
  | _ => cases one

theorem Printable.front (h : e.Printable) (rest : List Bare) : symbolOf? (e.bare ++ rest) = e.sign? := by
  induction h generalizing rest with
  | call _ tight _ ih _ | access _ tight _ _ ih | index _ tight _ _ ih _ =>
    rw [bare, List.append_assoc, ih, sign?_of_level tight]
    rfl
  | operation between =>
    rw [bare_operation between]
    rfl
  | _ => rfl

/-- An operand is no start of an assignment. -/
theorem Printable.not_assigns (h : e.Printable) (level : e.level ≤ 1) {rest : List Bare}
    (behind : symbolOf? rest ≠ some .equal) : assigns (e.bare ++ rest) = false := by
  induction h generalizing rest with
  | name =>
    cases rest with
    | nil => rfl
    | cons b rest =>
      unfold assigns
      split
      · rename_i eq
        simp only [bare, List.singleton_append, List.cons.injEq] at eq
        obtain ⟨-, rfl, -⟩ := eq
        exact absurd rfl behind
      · rfl
  | call _ tight _ ih _ | access _ tight _ _ ih | index _ tight _ _ ih _ =>
    rw [bare, List.append_assoc]
    exact ih (tight ▸ Nat.zero_le _) (by rintro ⟨⟩)
  | operation between =>
    rw [bare_operation between]
    rfl
  | assign | varDecl | typeDecl => cases level with | step h => cases h
  | _ => rfl

/-- A comma or a colon stands in parentheses. -/
theorem Printable.free (h : e.Printable) (level : e.level ≤ 2) {symbol : Symbol}
    (separates : symbol = .comma ∨ symbol = .colon) : Bare.leaf (.symbol symbol) ∉ e.bare := by
  have other (found : Symbol) (h : found ≠ .comma ∧ found ≠ .colon) :
      Bare.leaf (.symbol symbol) ≠ .leaf (.symbol found) := by
    rintro ⟨⟩
    rcases separates with rfl | rfl
    · exact h.1 rfl
    · exact h.2 rfl
  induction h with
  | call _ tight _ ih _ =>
    rw [bare, List.mem_append, not_or]
    exact ⟨ih (tight ▸ Nat.zero_le _), by simp [bare]⟩
  | access _ tight _ _ ih =>
    rw [bare, List.mem_append, not_or]
    exact ⟨ih (tight ▸ Nat.zero_le _), by simpa [bare] using other .dot (by decide)⟩
  | index _ tight _ inner ih ih' =>
    simp only [bare, List.mem_append, List.mem_cons, List.not_mem_nil, or_false, not_or]
    exact ⟨ih (tight ▸ Nat.zero_le _), other .leftSquare (by decide), ih' inner,
      other .rightSquare (by decide)⟩
  | operation between =>
    rw [bare_operation between]
    simp
  | @unary op _ _ _ inner ih =>
    rw [bare, List.mem_cons, not_or]
    exact ⟨other _ (by cases op <;> decide), ih (Nat.le_trans inner (Nat.le_succ _))⟩
  | assign _ _ inner ih =>
    simp only [bare, List.mem_append, List.mem_cons, List.not_mem_nil, or_false, not_or]
    exact ⟨by rintro ⟨⟩, other .equal (by decide), ih inner⟩
  | varDecl | typeDecl => cases level with | step h => cases h with | step h => cases h
  | _ => simp [bare]

end Expr

namespace Grammar

/-! ## Readers that take their tokens -/

variable {α β : Type}

/-- In front of the rest, a reader takes just these tokens, adds no scope and finds a value. -/
def Takes (m : Reader α) (tokens rest : List Token) (found : α → Prop) : Prop :=
  ∀ stop tree, ∃ a, m ⟨tokens ++ rest, stop, tree⟩ = .ok a ⟨rest, stop, tree⟩ ∧ found a

namespace Takes

variable {m : Reader α} {f : α → Reader β} {tokens more rest : List Token} {found : α → Prop}
  {found' : β → Prop}

theorem pure {a : α} (h : found a) : Takes (Pure.pure a) [] rest found := fun _ _ => ⟨a, rfl, h⟩

theorem bind (h : Takes m tokens (more ++ rest) found) (next : ∀ a, found a → Takes (f a) more rest found') :
    Takes (m >>= f) (tokens ++ more) rest found' := by
  intro stop tree
  obtain ⟨a, run, here⟩ := h stop tree
  obtain ⟨b, run', there⟩ := next a here stop tree
  refine ⟨b, ?_, there⟩
  rw [List.append_assoc, reader_bind_of_ok run]
  exact run'

/-- A reader that takes nothing, and another one behind it. -/
theorem still (h : Takes m [] rest found) (next : ∀ a, found a → Takes (f a) [] rest found') :
    Takes (m >>= f) [] rest found' := h.bind next

/-- Another reader comes to the same, perhaps behind other tokens. -/
theorem congr {m' : Reader α} (h : Takes m tokens rest found)
    (same : ∀ stop tree, m' ⟨more ++ rest, stop, tree⟩ = m ⟨tokens ++ rest, stop, tree⟩) :
    Takes m' more rest found := by
  intro stop tree
  obtain ⟨a, run, here⟩ := h stop tree
  exact ⟨a, (same stop tree).trans run, here⟩

theorem mono {found₂ : α → Prop} (h : Takes m tokens rest found) (le : ∀ a, found a → found₂ a) :
    Takes m tokens rest found₂ := by
  intro stop tree
  obtain ⟨a, run, here⟩ := h stop tree
  exact ⟨a, run, le a here⟩

/-- A whole run of its own. -/
theorem within (h : Takes m tokens [] found) : Takes (within tokens m) [] rest found := by
  intro stop tree
  obtain ⟨a, run, here⟩ := h (Token.stopOf tokens) tree
  rw [List.append_nil] at run
  exact ⟨a, reader_bind_of_ok run, here⟩

/-- Each item is read as the thing that stands at its place. -/
theorem mapM {γ δ : Type} {f : α → Reader β} {items : List α} {things : List β} {spelled : α → γ}
    {spelling : β → γ} {view : β → δ} (same : items.map spelled = things.map spelling)
    (h : ∀ a ∈ items, ∀ b ∈ things, spelled a = spelling b →
      Takes (f a) [] rest fun b' => view b' = view b) :
    Takes (items.mapM f) [] rest fun results => results.map view = things.map view := by
  induction items generalizing things with
  | nil =>
    rw [List.map_nil, eq_comm, List.map_eq_nil_iff] at same
    subst same
    exact pure rfl
  | cons a items ih =>
    cases things with
    | nil => cases same
    | cons b things =>
      rw [List.map_cons, List.map_cons, List.cons.injEq] at same
      rw [List.mapM_cons]
      have first := h a (by simp) b (by simp) same.1
      have later := ih same.2 fun a ha b hb => h a (List.mem_cons_of_mem _ ha) b (List.mem_cons_of_mem _ hb)
      refine first.still fun b' here => later.still fun results there => pure ?_
      rw [List.map_cons, List.map_cons, here, there]

end Takes

theorem peekSymbol?_eq (c : Cursor) : peekSymbol? c = .ok (symbolOf? (bareAll c.rest)) c := by
  obtain ⟨rest, stop, tree⟩ := c
  cases rest with
  | nil => rfl
  | cons t rest =>
    cases t with
    | leaf lexeme => cases lexeme <;> rfl
    | group => rfl

section

variable {self : Reader Expr} {tokens rest : List Token} {found : Expr → Prop} {span : Span}

/-! ## Fields -/

theorem takes_wholeExpression (some_token : tokens ≠ []) (h : Takes self tokens [] found) :
    Takes (wholeExpression self tokens span) [] rest found := by
  rw [wholeExpression, if_neg (by simpa using some_token)]
  have ends (e : Expr) (here : found e) : Takes (do expectEnd; return e) [] [] found :=
    (Takes.pure here).congr fun _ _ => rfl
  have whole : Takes (do let e ← self; expectEnd; return e) (tokens ++ []) [] found := h.bind ends
  rw [List.append_nil] at whole
  exact whole.within

/-- A field is read with its label. -/
theorem takes_field {label : Option String} {bs : List Bare} (h : bareAll tokens = Labelled.bare label bs)
    (some_token : bs ≠ []) (free : Bare.leaf (.symbol .colon) ∉ bs)
    (reads : ∀ value, bareAll value = bs → Token.weightAll value ≤ Token.weightAll tokens →
      Takes self value [] found) :
    Takes (field self span tokens) [] rest fun f => f.label = label ∧ found f.value := by
  have noColon (value : List Token) (same : bareAll value = bs) :
      ¬ value.any (Token.isSymbol .colon) = true := by
    rw [Bool.not_eq_true, List.any_eq_false]
    intro t hm
    rw [isSymbol_of_bare same free t hm]
    nofun
  cases label with
  | none =>
    have same : bareAll tokens = bs := h
    unfold field
    dsimp only
    split
    · rw [← same] at free
      simp [bareAll, Token.bare] at free
    · rw [if_neg (noColon tokens same)]
      have ne : tokens ≠ [] := by
        rintro rfl
        exact some_token same.symm
      exact (takes_wholeExpression ne (reads tokens same (Nat.le_refl _))).still fun e here =>
        .pure ⟨rfl, here⟩
  | some name =>
    obtain ⟨t, behind, rfl, here, later⟩ := bareAll_eq_cons h
    obtain ⟨colon, value, rfl, there, same⟩ := bareAll_eq_cons later
    obtain ⟨_, _, rfl⟩ := bare_eq_leaf here
    obtain ⟨_, _, rfl⟩ := bare_eq_leaf there
    cases value with
    | nil => exact absurd same.symm some_token
    | cons first value =>
      have read := reads _ same (by simp only [Token.weightAll]; omega)
      unfold field
      dsimp only
      rw [if_neg (noColon _ same)]
      exact (takes_wholeExpression (List.cons_ne_nil _ _) read).still fun e here => .pure ⟨rfl, here⟩

/-- Fields between commas. -/
theorem takes_fields {items : List (Labelled Expr)} (h : bareAll tokens = commas (Expr.bareFields items))
    (some_token : ∀ f ∈ items, f.value.bare ≠ [])
    (free : ∀ f ∈ items, ∀ symbol, symbol = .comma ∨ symbol = .colon →
      Bare.leaf (.symbol symbol) ∉ f.value.bare)
    (reads : ∀ f ∈ items, ∀ value, bareAll value = f.value.bare →
      Token.weightAll value ≤ Token.weightAll tokens →
        Takes self value [] fun e => e.stripped = f.value.stripped) :
    Takes (fields self tokens span) [] rest fun found =>
      Expr.strippedFields found = Expr.strippedFields items := by
  by_cases empty : items = []
  · subst empty
    obtain rfl := bareAll_eq_nil h
    exact .pure rfl
  · rw [Expr.bareFields_eq] at h
    have separate (run : List Bare) (hr : run ∈ items.map fun f => Labelled.bare f.label f.value.bare) :
        Bare.leaf (.symbol .comma) ∉ run := by
      obtain ⟨f, hf, rfl⟩ := List.mem_map.mp hr
      intro hm
      rcases Labelled.mem_bare hm with eq | hm
      · cases eq
      · exact free f hf .comma (.inl rfl) hm
    have split := splitWhere_commas (by simpa using empty) separate h
    have some_child : tokens ≠ [] := by
      rintro rfl
      refine commas_ne_nil (by simpa using empty) (fun run hr => ?_) h.symm
      obtain ⟨f, hf, rfl⟩ := List.mem_map.mp hr
      exact Labelled.bare_ne_nil (some_token f hf)
    rw [fields, if_neg (by simpa using some_child)]
    simp only [Expr.strippedFields_eq]
    refine Takes.mapM split fun run hr f hf eq => ?_
    refine (takes_field eq (some_token f hf) (free f hf .colon (.inr rfl)) fun value spelled le =>
      reads f hf value spelled (Nat.le_trans le (weightAll_splitWhere hr))).mono fun f' here => ?_
    rw [here.1, here.2]

/-- One expression in parentheses. -/
theorem takes_parens {bs : List Bare} (h : bareAll tokens = bs) (some_token : bs ≠ [])
    (free : ∀ symbol, symbol = .comma ∨ symbol = .colon → Bare.leaf (.symbol symbol) ∉ bs)
    (reads : ∀ value, bareAll value = bs → Token.weightAll value ≤ Token.weightAll tokens →
      Takes self value [] found) :
    Takes (tuple self tokens span) [] rest fun e => ∃ inner, e = .tuple [⟨none, inner⟩] span ∧ found inner := by
  have ne : tokens ≠ [] := by
    rintro rfl
    exact some_token h.symm
  have one := splitWhere_of_free (isSymbol_of_bare h (free .comma (.inl rfl)))
  have only : Takes (fields self tokens span) [] rest fun fs => ∃ inner, fs = [⟨none, inner⟩] ∧ found inner := by
    rw [fields, if_neg (by simpa using ne), one, List.mapM_cons]
    have same : bareAll tokens = Labelled.bare none bs := h
    refine (takes_field same some_token (free .colon (.inr rfl)) reads).still fun f here => ?_
    obtain ⟨label, value⟩ := f
    obtain ⟨rfl, there⟩ := here
    exact .pure ⟨value, rfl, there⟩
  refine only.still fun fs here => ?_
  obtain ⟨inner, rfl, there⟩ := here
  exact .pure ⟨inner, rfl, there⟩

end

/-! ## Operands and operators -/

section

variable {self : Reader Expr} {rest : List Token} {stop : Nat} {tree : ScopeTree}

/-- What may stand behind an operand: neither arguments, a field nor an index. -/
def EndsOperand (rest : List Token) : Prop :=
  ∀ t ∈ rest.head?, ∃ symbol, t.bare = .leaf (.symbol symbol) ∧ symbol ≠ .dot ∧ symbol ≠ .leftSquare

/-- What may stand behind an expression: nothing, or the end of an index. -/
def EndsExpression (rest : List Token) : Prop :=
  ∀ t ∈ rest.head?, t.bare = .leaf (.symbol .rightSquare)

theorem EndsExpression.operand (h : EndsExpression rest) : EndsOperand rest :=
  fun t ht => ⟨.rightSquare, h t ht, nofun, nofun⟩

theorem EndsExpression.symbol (h : EndsExpression rest) {symbol : Symbol}
    (first : symbolOf? (bareAll rest) = some symbol) : symbol = .rightSquare := by
  cases rest with
  | nil => cases first
  | cons t rest =>
    have here := h t rfl
    rw [bareAll, here] at first
    cases first
    rfl

theorem suffixes_end (h : EndsOperand rest) (fuel : Nat) (e : Expr) :
    suffixes self fuel e ⟨rest, stop, tree⟩ = .ok e ⟨rest, stop, tree⟩ := by
  cases fuel with
  | zero => rfl
  | succ fuel =>
    cases rest with
    | nil => rfl
    | cons t rest =>
      obtain ⟨symbol, bare, dot, square⟩ := h t rfl
      obtain ⟨_, _, rfl⟩ := bare_eq_leaf bare
      cases symbol with
      | dot => exact absurd rfl dot
      | leftSquare => exact absurd rfl square
      | _ => rfl

/-- Where no operator follows, an operand is all. -/
theorem takes_climb {operand : Reader Expr} {e : Expr} {found : Expr → Prop} {fuel power : Nat}
    (h : (symbolOf? (bareAll rest)).bind binding? = none) (here : found e) :
    Takes (climb operand fuel power e) [] rest found := by
  refine (Takes.pure here).congr fun stop tree => ?_
  cases fuel with
  | zero => rfl
  | succ fuel =>
    rw [climb, reader_bind_of_ok (peekSymbol?_eq _)]
    dsimp only [List.nil_append]
    rw [h]

/-- An operator that binds tightly enough takes what follows as its right operand. -/
theorem climb_sign {operand : Reader Expr} {symbol : Symbol} {b : Binding} {fuel power : Nat} {here : Span}
    {line : Nat} (bound : binding? symbol = some b) (le : power ≤ b.power) (lhs : Expr) :
    climb operand (fuel + 1) power lhs ⟨.leaf (.symbol symbol) here line :: rest, stop, tree⟩ =
      (do
        let rhs ← climb operand fuel b.rightPower (← operand)
        climb operand fuel power (.ofOperands b.op lhs rhs)) ⟨rest, stop, tree⟩ := by
  rw [climb, reader_bind_of_ok (peekSymbol?_eq _)]
  have first : (symbolOf? (bareAll (.leaf (.symbol symbol) here line :: rest))).bind binding? = some b := bound
  dsimp only
  rw [first]
  dsimp only
  rw [if_neg (Nat.not_lt.mpr le)]
  rfl

/-- Without an assignment in front, an expression is one of operators. -/
theorem expressionWith_operators {tokens : List Token} (h : assigns (bareAll tokens) = false) (fuel : Nat) :
    expressionWith self fuel ⟨tokens, stop, tree⟩ = operators self fuel ⟨tokens, stop, tree⟩ := by
  unfold expressionWith
  rw [reader_bind_of_ok (show (get : Reader Cursor) _ = .ok _ _ from rfl)]
  dsimp only
  split
  · cases h
  · rfl

end

/-! ## Expressions -/

section

variable {e : Expr}

/-- One token, read as the expression. -/
def ReadsPrimary (e : Expr) : Prop :=
  ∀ t fuel rest, [t.bare] = e.bare → t.weight ≤ fuel →
    Takes (primary (expressionAt fuel) fuel) [t] rest fun e' => e'.stripped = e.stripped

/-- Tokens that are read as the expression, before reading goes on behind them. Of the steps that
are allowed for this, fewer are gone than there are tokens. -/
def ReadsSuffixed (e : Expr) : Prop :=
  ∀ tokens fuel, bareAll tokens = e.bare → Token.weightAll tokens ≤ fuel → ∀ rest stop tree,
    ∃ e' left, fuel < left + Token.weightAll tokens ∧ e'.stripped = e.stripped ∧
      suffixed (expressionAt fuel) fuel ⟨tokens ++ rest, stop, tree⟩ =
        suffixes (expressionAt fuel) left e' ⟨rest, stop, tree⟩

/-- Tokens that are read as an operand. -/
def ReadsOperand (e : Expr) : Prop :=
  ∀ tokens fuel signs rest, bareAll tokens = e.bare → Token.weightAll tokens ≤ fuel →
    Token.weightAll tokens ≤ signs → EndsOperand rest →
      Takes (operandFrom (expressionAt fuel) fuel signs) tokens rest fun e' => e'.stripped = e.stripped

/-- Tokens that are read as a whole expression. -/
def ReadsExpression (e : Expr) : Prop :=
  ∀ tokens fuel rest, bareAll tokens = e.bare → Token.weightAll tokens ≤ fuel → EndsExpression rest →
    Takes (expressionAt (fuel + 1)) tokens rest fun e' => e'.stripped = e.stripped

theorem ReadsPrimary.suffixed (h : ReadsPrimary e) (one : ∃ b, e.bare = [b]) : ReadsSuffixed e := by
  intro tokens fuel same enough rest stop tree
  obtain ⟨b, single⟩ := one
  rw [single] at same
  obtain ⟨t, behind, rfl, here, later⟩ := bareAll_eq_cons same
  obtain rfl := bareAll_eq_nil later
  have light : t.weight ≤ fuel := by simpa [Token.weightAll] using enough
  obtain ⟨e', run, eq⟩ := h t fuel rest (by rw [single, here]) light stop tree
  refine ⟨e', fuel, ?_, eq, ?_⟩
  · have := t.weight_pos
    simp only [Token.weightAll]
    omega
  · exact reader_bind_of_ok run

theorem ReadsSuffixed.operand (h : ReadsSuffixed e) (printable : e.Printable) (level : e.level = 0) :
    ReadsOperand e := by
  intro tokens fuel signs rest same enough _ ends stop tree
  obtain ⟨e', left, -, eq, run⟩ := h tokens fuel same enough rest stop tree
  refine ⟨e', ?_, eq⟩
  rw [suffixes_end ends] at run
  rw [← run]
  cases signs with
  | zero => rfl
  | succ signs =>
    have first : symbolOf? (bareAll (tokens ++ rest)) = none := by
      rw [bareAll_append, same, printable.front, Expr.sign?_of_level level]
    rw [operandFrom, reader_bind_of_ok (peekSymbol?_eq _)]
    dsimp only
    rw [first]
    rfl

theorem ReadsOperand.expression (h : ReadsOperand e) (printable : e.Printable) (level : e.level ≤ 1) :
    ReadsExpression e := by
  intro tokens fuel rest same enough ends
  have behind : (symbolOf? (bareAll rest)).bind binding? = none := by
    cases first : symbolOf? (bareAll rest) with
    | none => rfl
    | some symbol =>
      rw [ends.symbol first]
      rfl
  have plain : assigns (bareAll (tokens ++ rest)) = false := by
    rw [bareAll_append, same]
    refine printable.not_assigns level fun equal => ?_
    cases ends.symbol equal
  have whole : Takes (operators (expressionAt fuel) fuel) (tokens ++ []) rest
      fun e' => e'.stripped = e.stripped :=
    (h tokens fuel fuel rest same enough enough ends.operand).bind fun _ here => takes_climb behind here
  rw [List.append_nil] at whole
  exact whole.congr fun _ _ => expressionWith_operators plain fuel

/-- Two operands with an operator between them. -/
theorem takes_operation {op : BinaryOp} {lhs rhs : Expr} (between : op.standsBetween)
    (printable : lhs.Printable) (level : lhs.level ≤ 1) (left : ReadsOperand lhs) (right : ReadsOperand rhs)
    {tokens : List Token} {fuel : Nat}
    (same : bareAll tokens = lhs.bare ++ .leaf (.symbol op.sign) :: rhs.bare)
    (enough : Token.weightAll tokens ≤ fuel) :
    Takes (expressionAt (fuel + 1)) tokens [] fun e => e.stripped = .binary op lhs.stripped rhs.stripped .zero := by
  obtain ⟨front, behind, rfl, here, later⟩ := bareAll_eq_append same
  obtain ⟨sign, back, rfl, symbol, there⟩ := bareAll_eq_cons later
  obtain ⟨span, line, rfl⟩ := bare_eq_leaf symbol
  obtain ⟨b, bound, rfl, power⟩ := binding?_sign between
  simp only [weightAll_append, Token.weightAll, Token.weight] at enough
  have ends : EndsOperand (.leaf (.symbol b.op.sign) span line :: back ++ []) := by
    intro t ht
    cases ht
    refine ⟨_, rfl, ?_, ?_⟩
    · intro dot
      rw [dot] at bound
      cases bound
    · intro square
      rw [square] at bound
      cases bound
  have plain : assigns (bareAll ((front ++ .leaf (.symbol b.op.sign) span line :: back) ++ [])) = false := by
    rw [List.append_nil, bareAll_append, here]
    refine printable.not_assigns level fun equal => ?_
    have eq : b.op.sign = .equal := by simpa [bareAll, Token.bare, symbolOf?] using equal
    rw [eq] at bound
    cases bound
  cases fuel with
  | zero => omega
  | succ fuel =>
    have first := left front (fuel + 1) (fuel + 1) _ here (by omega) (by omega) ends
    have second := right back (fuel + 1) (fuel + 1) [] there (by omega) (by omega) (by rintro t ⟨⟩)
    have whole : Takes (operators (expressionAt (fuel + 1)) (fuel + 1))
        (front ++ .leaf (.symbol b.op.sign) span line :: back) []
        fun e => e.stripped = .binary b.op lhs.stripped rhs.stripped .zero := by
      refine first.bind fun lhs' eq => ?_
      have operation : Takes (do
          let rhs ← climb (operand (expressionAt (fuel + 1)) (fuel + 1)) fuel b.rightPower
            (← operand (expressionAt (fuel + 1)) (fuel + 1))
          climb (operand (expressionAt (fuel + 1)) (fuel + 1)) fuel 1 (.ofOperands b.op lhs' rhs))
          (back ++ []) [] fun e => e.stripped = .binary b.op lhs.stripped rhs.stripped .zero := by
        refine second.bind fun rhs' eq' => (takes_climb rfl eq').still fun rhs' eq' => takes_climb rfl ?_
        rw [Expr.ofOperands, Expr.stripped, eq, eq']
      rw [List.append_nil] at operation
      exact operation.congr fun _ _ => climb_sign bound power lhs'
    exact whole.congr fun _ _ => expressionWith_operators plain (fuel + 1)

/-- A number, a text or a name. -/
theorem ReadsPrimary.of_leaf {lexeme : Lexeme} (bare : e.bare = [.leaf lexeme])
    (reads : ∀ self fuel here line rest stop tree, ∃ e',
      primary self fuel ⟨.leaf lexeme here line :: rest, stop, tree⟩ = .ok e' ⟨rest, stop, tree⟩ ∧
        e'.stripped = e.stripped) : ReadsPrimary e := by
  intro t fuel rest same _ stop tree
  rw [bare, List.cons.injEq] at same
  obtain ⟨here, line, rfl⟩ := bare_eq_leaf same.1
  exact reads _ fuel here line rest stop tree

/-- What stands in parentheses. -/
theorem ReadsPrimary.of_group {bs : List Bare} (bare : e.bare = [.group .paren bs])
    (reads : ∀ children fuel here rest, bareAll children = bs → Token.weightAll children ≤ fuel →
      Takes (tuple (expressionAt (fuel + 1)) children here) [] rest fun e' => e'.stripped = e.stripped) :
    ReadsPrimary e := by
  intro t fuel rest same enough
  rw [bare, List.cons.injEq] at same
  obtain ⟨children, here, line, rfl, inside⟩ := bare_eq_group same.1
  rw [Token.weight] at enough
  cases fuel with
  | zero => omega
  | succ fuel => exact (reads children fuel here rest inside (by omega)).congr fun _ _ => rfl

theorem ReadsPrimary.tuple {items : List (Labelled Expr)} {span : Span}
    (printable : ∀ f ∈ items, f.value.Printable) (levels : ∀ f ∈ items, f.value.level ≤ 2)
    (h : ∀ f ∈ items, ReadsExpression f.value) : ReadsPrimary (.tuple items span) := by
  refine .of_group rfl fun children fuel here rest inside enough => ?_
  refine (takes_fields inside (fun f hf => (printable f hf).bare_ne_nil)
    (fun f hf symbol => (printable f hf).free (levels f hf)) fun f hf value spelled le =>
      h f hf value fuel [] spelled (Nat.le_trans le enough) nofun).still fun fields same => .pure ?_
  rw [Expr.stripped, Expr.stripped, same]

/-- An operation is read in the parentheses that it is printed with. -/
theorem ReadsPrimary.operation {op : BinaryOp} {lhs rhs : Expr} {span : Span} (between : op.standsBetween)
    (left : lhs.Printable) (level : lhs.level ≤ 1) (right : rhs.Printable) (level' : rhs.level ≤ 1)
    (h : ReadsOperand lhs) (h' : ReadsOperand rhs) : ReadsPrimary (.binary op lhs rhs span) := by
  have free (symbol : Symbol) (separates : symbol = .comma ∨ symbol = .colon) :
      Bare.leaf (.symbol symbol) ∉ lhs.bare ++ .leaf (.symbol op.sign) :: rhs.bare := by
    obtain ⟨b, bound, rfl, -⟩ := binding?_sign between
    simp only [List.mem_append, List.mem_cons, Bare.leaf.injEq, Lexeme.symbol.injEq, not_or]
    refine ⟨left.free (Nat.le_succ_of_le level) separates, ?_, right.free (Nat.le_succ_of_le level') separates⟩
    rintro rfl
    rcases separates with eq | eq
    · rw [eq] at bound
      cases bound
    · rw [eq] at bound
      cases bound
  refine .of_group (Expr.bare_operation between ..) fun children fuel here rest inside enough => ?_
  refine (takes_parens inside (by simp) free fun value spelled le =>
    takes_operation between left level h h' spelled (Nat.le_trans le enough)).mono fun e' found => ?_
  obtain ⟨inner, rfl, same⟩ := found
  exact same

theorem ReadsSuffixed.call {f : Expr} {args : List (Labelled Expr)} {here span : Span}
    (h : ReadsSuffixed f) (h' : ReadsPrimary (.tuple args here)) :
    ReadsSuffixed (.binary .call f (.tuple args here) span) := by
  intro tokens fuel same enough rest stop tree
  obtain ⟨front, back, rfl, there, later⟩ := bareAll_eq_append same
  obtain ⟨t, behind, rfl, group, last⟩ := bareAll_eq_cons later
  obtain ⟨children, place, line, rfl, -⟩ := bare_eq_group group
  obtain rfl := bareAll_eq_nil last
  simp only [weightAll_append, Token.weightAll, Token.weight, Nat.add_zero] at enough ⊢
  obtain ⟨f', left, gone, eq, run⟩ := h front fuel there (by omega) (_ :: rest) stop tree
  obtain ⟨args', read, eq'⟩ := h' _ fuel rest (by rw [group]; rfl) (by rw [Token.weight]; omega) stop tree
  cases left with
  | zero => omega
  | succ left =>
    refine ⟨.ofOperands .call f' args', left, by omega, ?_, ?_⟩
    · rw [Expr.ofOperands, Expr.stripped, Expr.stripped, eq, eq']
    · rw [List.append_assoc]
      exact run.trans (reader_bind_of_ok read)

theorem ReadsSuffixed.access {value : String} {here span : Span} (h : ReadsSuffixed e) :
    ReadsSuffixed (.binary .field e (.name value here) span) := by
  intro tokens fuel same enough rest stop tree
  obtain ⟨front, back, rfl, there, later⟩ := bareAll_eq_append same
  obtain ⟨dot, behind, rfl, sign, last⟩ := bareAll_eq_cons later
  obtain ⟨name, behind, rfl, named, done⟩ := bareAll_eq_cons last
  obtain ⟨_, _, rfl⟩ := bare_eq_leaf sign
  obtain ⟨place, _, rfl⟩ := bare_eq_leaf named
  obtain rfl := bareAll_eq_nil done
  simp only [weightAll_append, Token.weightAll, Token.weight, Nat.add_zero] at enough ⊢
  obtain ⟨e', left, gone, eq, run⟩ := h front fuel there (by omega) (_ :: _ :: rest) stop tree
  cases left with
  | zero => omega
  | succ left =>
    refine ⟨.ofOperands .field e' (.name value place), left, by omega, ?_, ?_⟩
    · rw [Expr.ofOperands, Expr.stripped, Expr.stripped, eq]
      rfl
    · rw [List.append_assoc]
      exact run

theorem ReadsSuffixed.index {position : Expr} {span : Span} (h : ReadsSuffixed e)
    (h' : ReadsExpression position) : ReadsSuffixed (.binary .index e position span) := by
  intro tokens fuel same enough rest stop tree
  obtain ⟨front, back, rfl, there, later⟩ := bareAll_eq_append same
  obtain ⟨opening, behind, rfl, sign, last⟩ := bareAll_eq_cons later
  obtain ⟨inner, behind, rfl, inside, done⟩ := bareAll_eq_append last
  obtain ⟨closing, behind, rfl, sign', nothing⟩ := bareAll_eq_cons done
  obtain ⟨_, _, rfl⟩ := bare_eq_leaf sign
  obtain ⟨place, _, rfl⟩ := bare_eq_leaf sign'
  obtain rfl := bareAll_eq_nil nothing
  simp only [weightAll_append, Token.weightAll, Token.weight, Nat.add_zero] at enough ⊢
  cases fuel with
  | zero => omega
  | succ fuel =>
    obtain ⟨e', left, gone, eq, run⟩ := h front (fuel + 1) there (by omega) (_ :: (inner ++ _ :: rest)) stop tree
    obtain ⟨position', read, eq'⟩ := h' inner fuel (.leaf (.symbol .rightSquare) place _ :: rest) inside
      (by omega) (by rintro t ⟨⟩; rfl) stop tree
    cases left with
    | zero => omega
    | succ left =>
      refine ⟨.binary .index e' position' (e'.span.merge place), left, by omega, ?_, ?_⟩
      · rw [Expr.stripped, Expr.stripped, eq, eq']
      · rw [List.append_assoc, List.cons_append, List.append_assoc]
        exact run.trans (reader_bind_of_ok read)

theorem ReadsOperand.unary {op : UnaryOp} {span : Span} (h : ReadsOperand e) :
    ReadsOperand (.unary op e span) := by
  intro tokens fuel signs rest same enough allowed ends stop tree
  obtain ⟨sign, back, rfl, symbol, there⟩ := bareAll_eq_cons same
  obtain ⟨place, line, rfl⟩ := bare_eq_leaf symbol
  simp only [Token.weightAll, Token.weight] at enough allowed
  cases signs with
  | zero => omega
  | succ signs =>
    obtain ⟨e', read, eq⟩ := h back fuel signs rest there (by omega) (by omega) ends stop tree
    refine ⟨.unary op e' (place.merge e'.span), ?_, by simp [Expr.stripped, eq]⟩
    have first : (symbolOf? (bareAll (.leaf (.symbol op.sign) place line :: (back ++ rest)))).bind unary? = some op :=
      unary?_sign op
    rw [List.cons_append, operandFrom, reader_bind_of_ok (peekSymbol?_eq _)]
    dsimp only
    rw [first]
    exact reader_bind_of_ok read

theorem ReadsExpression.assign {value : String} {here span : Span} (h : ReadsExpression e) :
    ReadsExpression (.binary .assign (.name value here) e span) := by
  intro tokens fuel rest same enough ends stop tree
  obtain ⟨name, behind, rfl, named, later⟩ := bareAll_eq_cons same
  obtain ⟨equal, back, rfl, sign, there⟩ := bareAll_eq_cons later
  obtain ⟨place, _, rfl⟩ := bare_eq_leaf named
  obtain ⟨_, _, rfl⟩ := bare_eq_leaf sign
  simp only [Token.weightAll, Token.weight] at enough
  cases fuel with
  | zero => omega
  | succ fuel =>
    obtain ⟨e', read, eq⟩ := h back fuel rest there (by omega) ends stop tree
    refine ⟨.ofOperands .assign (.name value place) e', ?_, ?_⟩
    · exact reader_tryCatch_of_ok (reader_bind_of_ok read)
    · simp [Expr.ofOperands, Expr.stripped, eq]

/-- The tokens of an expression are read as the expression on every level of the grammar where it
may stand. -/
structure Reread (e : Expr) : Prop where
  primary : e.isPrimary → ReadsPrimary e
  suffixed : e.level = 0 → ReadsSuffixed e
  operand : e.level ≤ 1 → ReadsOperand e
  expression : e.level ≤ 2 → ReadsExpression e

theorem Reread.of_expression (level : 2 ≤ e.level) (many : e.isPrimary = false)
    (h : e.level ≤ 2 → ReadsExpression e) : Reread e := by
  constructor
  · intro one
    rw [many] at one
    cases one
  · omega
  · omega
  · exact h

theorem Reread.of_operand (printable : e.Printable) (level : e.level = 1) (many : e.isPrimary = false)
    (h : ReadsOperand e) : Reread e := by
  constructor
  · intro one
    rw [many] at one
    cases one
  · omega
  · exact fun _ => h
  · exact fun _ => h.expression printable (Nat.le_of_eq level)

theorem Reread.of_suffixed (printable : e.Printable) (level : e.level = 0)
    (primary : e.isPrimary → ReadsPrimary e) (h : ReadsSuffixed e) : Reread e := by
  have operand := h.operand printable level
  constructor
  · exact primary
  · exact fun _ => h
  · exact fun _ => operand
  · exact fun _ => operand.expression printable (level ▸ Nat.zero_le _)

theorem Reread.of_primary (printable : e.Printable) (one : e.isPrimary) (h : ReadsPrimary e) : Reread e :=
  .of_suffixed printable (Expr.level_of_isPrimary one) (fun _ => h)
    (h.suffixed (printable.bare_primary one))

end

end Grammar

/-- What is printed is read back. -/
theorem Expr.Printable.reread {e : Expr} (h : e.Printable) : Grammar.Reread e := by
  induction h with
  | int nonneg => exact .of_primary (.int nonneg) rfl (.of_leaf rfl fun _ _ _ _ _ _ _ => ⟨_, rfl, rfl⟩)
  | hex => exact .of_primary .hex rfl (.of_leaf rfl fun _ _ _ _ _ _ _ => ⟨_, rfl, rfl⟩)
  | text plain => exact .of_primary (.text plain) rfl (.of_leaf rfl fun _ _ _ _ _ _ _ => ⟨_, rfl, rfl⟩)
  | name named => exact .of_primary (.name named) rfl (.of_leaf rfl fun _ _ _ _ _ _ _ => ⟨_, rfl, rfl⟩)
  | tuple names levels printable ih =>
    exact .of_primary (.tuple names levels printable) rfl
      (.tuple printable levels fun f hf => (ih f hf).expression (levels f hf))
  | call printable tight tuple ih ih' =>
    exact .of_suffixed (.call printable tight tuple) rfl nofun ((ih.suffixed tight).call (ih'.primary rfl))
  | access printable tight integral named ih =>
    exact .of_suffixed (.access printable tight integral named) rfl nofun (ih.suffixed tight).access
  | index printable tight position inner ih ih' =>
    exact .of_suffixed (.index printable tight position inner) rfl nofun
      ((ih.suffixed tight).index (ih'.expression inner))
  | operation between left level right level' ih ih' =>
    exact .of_primary (.operation between left level right level') between
      (.operation between left level right level' (ih.operand level) (ih'.operand level'))
  | unary printable level ih =>
    exact .of_operand (.unary printable level) rfl rfl (ih.operand level).unary
  | assign named printable level ih =>
    exact .of_expression (Nat.le_refl _) rfl fun _ => (ih.expression level).assign
  | varDecl | typeDecl => exact .of_expression (Nat.le_succ _) rfl nofun

end WindowedClosures
