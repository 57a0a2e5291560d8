import WindowedClosures.Compilation
import WindowedClosures.Proofs.Outcome
import WindowedClosures.Proofs.Scope.Reading

/-!
# Assignments that are read alone

A name and an equal sign are read as an assignment if an expression follows, and otherwise as the name
alone, in front of the equal sign. Nothing that stands behind an expression takes an equal sign: it stays
where it is and gets in the way of whatever ends the run, the field, the index or the block. So what a
program reads as never depends on a name that was read alone.

`Repeats` compares two readers by what the one reads without an equal sign in its way. Every reader that
is built on a reader of nested expressions keeps that order.
-/

namespace WindowedClosures.Grammar

variable {α β : Type}

/-- No equal sign comes next. -/
def Cursor.Free (c : Cursor) : Prop :=
  ∀ span line rest, c.rest ≠ .leaf (.symbol .equal) span line :: rest

/-- What the one reader reads and leaves as stated, the other reads as well. -/
def Repeats (left : Cursor → Prop) (m m' : Reader α) : Prop :=
  ∀ c a d, m c = .ok a d → left d → m' c = .ok a d

/-- An equal sign in front of the reader stays in front, or makes it fail. -/
def Balks (m : Reader α) : Prop := ∀ c a d, m c = .ok a d → d.Free → c.Free

section

variable {left : Cursor → Prop} {m m' : Reader α} {f f' : α → Reader β}

theorem repeats_refl (m : Reader α) : Repeats left m m := fun _ _ _ run _ => run

theorem Repeats.bind {between : Cursor → Prop} (first : Repeats between m m')
    (later : ∀ a, Repeats left (f a) (f' a))
    (back : ∀ a c b d, f a c = .ok b d → left d → between c) : Repeats left (m >>= f) (m' >>= f') := by
  intro c b d run good
  obtain ⟨a, middle, run₁, run₂⟩ := reader_bind_ok run
  rw [reader_bind_of_ok (first c a middle run₁ (back a middle b d run₂ good))]
  exact later a middle b d run₂ good

/-- Behind a reader that reads what it reads in any case. -/
theorem Repeats.behind (first : Repeats (fun _ => True) m m') (later : ∀ a, Repeats left (f a) (f' a)) :
    Repeats left (m >>= f) (m' >>= f') :=
  first.bind later fun _ _ _ _ _ _ => trivial

theorem Repeats.after (m : Reader α) (later : ∀ a, Repeats left (f a) (f' a)) :
    Repeats left (m >>= f) (m >>= f') := (repeats_refl m).behind later

/-- A run of its own leaves the equal signs of the outer one alone. -/
theorem Repeats.within (h : Repeats (fun _ => True) m m') (tokens : List Token) :
    Repeats left (within tokens m) (within tokens m') :=
  .after get fun _ => .after (set _) fun _ => h.behind fun _ => repeats_refl _

theorem Repeats.mapM {f f' : α → Reader β} (h : ∀ a, Repeats (fun _ => True) (f a) (f' a))
    (items : List α) : Repeats left (items.mapM f) (items.mapM f') := by
  induction items generalizing left with
  | nil =>
    rw [List.mapM_nil, List.mapM_nil]
    exact repeats_refl _
  | cons first rest ih =>
    rw [List.mapM_cons, List.mapM_cons]
    exact (h first).behind fun b => ih.behind fun bs => repeats_refl _

theorem balks_pure (a : α) : Balks (pure a) := by
  intro c _ _ run free
  cases run
  exact free

theorem Balks.bind (first : Balks m) (later : ∀ a, Balks (f a)) : Balks (m >>= f) := by
  intro c b d run free
  obtain ⟨a, middle, run₁, run₂⟩ := reader_bind_ok run
  exact first c a middle run₁ (later a middle b d run₂ free)

/-- Another symbol has to come next. -/
theorem balks_expect {symbol : Symbol} (other : symbol ≠ .equal) (what : String)
    (f : Span → Reader β) : Balks (expect symbol what >>= f) := by
  intro c b d run _ span line rest eq
  obtain ⟨_, _, taken, -⟩ := reader_bind_ok run
  obtain ⟨_, stop, tree⟩ := c
  cases eq
  cases symbol <;> first | exact other rfl | cases taken

theorem free_of_expectEnd {f : Unit → Reader β} {c d : Cursor} {b : β}
    (run : (expectEnd >>= f) c = .ok b d) : c.Free := by
  intro span line rest eq
  obtain ⟨_, _, taken, -⟩ := reader_bind_ok run
  obtain ⟨_, stop, tree⟩ := c
  cases eq
  cases taken

end

/-! ## The readers of the grammar -/

theorem balks_suffixes (self : Reader Expr) (fuel : Nat) (e : Expr) : Balks (suffixes self fuel e) := by
  intro c _ _ run free span line rest eq
  obtain ⟨_, stop, tree⟩ := c
  cases eq
  cases fuel <;> cases run <;> exact free _ _ _ rfl

theorem balks_climb (operand : Reader Expr) (fuel power : Nat) (lhs : Expr) :
    Balks (climb operand fuel power lhs) := by
  intro c _ _ run free span line rest eq
  obtain ⟨_, stop, tree⟩ := c
  cases eq
  cases fuel <;> cases run <;> exact free _ _ _ rfl

section

variable {self self' : Reader Expr}

theorem repeats_wholeExpression (hs : Repeats Cursor.Free self self') (tokens : List Token) (span : Span) :
    Repeats (fun _ => True) (wholeExpression self tokens span) (wholeExpression self' tokens span) := by
  unfold wholeExpression
  split
  · exact repeats_refl _
  · exact .within (hs.bind (fun _ => repeats_refl _) fun _ _ _ _ run _ => free_of_expectEnd run) tokens

theorem repeats_field (hs : Repeats Cursor.Free self self') (span : Span) (tokens : List Token) :
    Repeats (fun _ => True) (field self span tokens) (field self' span tokens) := by
  unfold field
  dsimp only
  split
  · split
    · exact repeats_refl _
    · exact (repeats_wholeExpression hs _ span).behind fun _ => repeats_refl _
  · split
    · exact repeats_refl _
    · exact (repeats_wholeExpression hs _ span).behind fun _ => repeats_refl _

theorem repeats_tuple (hs : Repeats Cursor.Free self self') (children : List Token) (span : Span) :
    Repeats (fun _ => True) (tuple self children span) (tuple self' children span) := by
  have inside : Repeats (fun _ => True) (fields self children span) (fields self' children span) := by
    unfold fields
    split
    · exact repeats_refl _
    · exact .mapM (repeats_field hs span) _
  exact inside.behind fun _ => repeats_refl _

theorem repeats_suffixes (hs : Repeats Cursor.Free self self') (fuel : Nat) (e : Expr) :
    Repeats Cursor.Free (suffixes self fuel e) (suffixes self' fuel e) := by
  induction fuel generalizing e with
  | zero => exact repeats_refl _
  | succ fuel ih =>
    refine .after unread fun tokens => ?_
    split
    · exact .after advance fun _ => (repeats_tuple hs _ _).behind fun args => ih _
    · exact .after advance fun _ => .after expectName fun named => ih _
    · refine .after advance fun _ => hs.bind (fun position => .after _ fun closing => ih _) ?_
      exact fun _ => balks_expect (by decide) _ _
    · exact repeats_refl _

theorem repeats_climb {operand operand' : Reader Expr} (ho : Repeats Cursor.Free operand operand')
    (fuel power : Nat) (lhs : Expr) :
    Repeats Cursor.Free (climb operand fuel power lhs) (climb operand' fuel power lhs) := by
  induction fuel generalizing power lhs with
  | zero => exact repeats_refl _
  | succ fuel ih =>
    refine .after peekSymbol? fun symbol => ?_
    split
    · exact repeats_refl _
    · split
      · exact repeats_refl _
      · refine .after advance fun _ => ho.bind (fun first => (ih _ _).bind (fun rhs => ih _ _) ?_) ?_
        · exact fun rhs => balks_climb _ _ _ _
        · exact fun first => (balks_climb _ _ _ _).bind fun rhs => balks_climb _ _ _ _

theorem repeats_statement (hs : Repeats Cursor.Free self self') :
    Repeats Cursor.Free (statement self) (statement self') := by
  refine .after peekSymbol? fun symbol => ?_
  split
  · refine .after _ fun start => .after _ fun name => .after _ fun _ => .after _ fun tokens => ?_
    refine .after _ fun type => .after _ fun _ => hs.bind (fun value => repeats_refl _) ?_
    exact fun value => balks_pure _
  · exact repeats_refl _
  · exact hs

/-- Behind a statement comes a semicolon, or the end. -/
theorem repeats_statementsFrom (hs : Repeats Cursor.Free self self') (fuel : Nat) (found : List Expr) :
    Repeats (fun _ => True) (statementsFrom self fuel found) (statementsFrom self' fuel found) := by
  induction fuel generalizing found with
  | zero => exact repeats_refl _
  | succ fuel ih =>
    refine .after unread fun tokens => ?_
    split
    · exact repeats_refl _
    · refine (repeats_statement hs).bind (fun stmt => .after _ fun again => ?_) ?_
      · split
        · exact ih _
        · exact repeats_refl _
      · intro stmt c body d run _ span line rest eq
        obtain ⟨_, stop, tree⟩ := c
        cases eq
        cases run

theorem repeats_functionLiteral (hs : Repeats Cursor.Free self self') (fuel : Nat) (start : Span) :
    Repeats Cursor.Free (functionLiteral self fuel start) (functionLiteral self' fuel start) := by
  have body : Repeats Cursor.Free (literalBody self fuel) (literalBody self' fuel) := by
    refine .after unread fun tokens => ?_
    split
    · exact .after advance fun _ => (Repeats.within (repeats_statementsFrom hs fuel []) _).behind
        fun body => repeats_refl _
    · exact hs.bind (fun e => repeats_refl _) fun e => balks_pure _
  refine .after _ fun labels => .after _ fun _ => body.bind (fun body => repeats_refl _) ?_
  intro body c e d run free
  obtain ⟨scope, d, pushed, run⟩ := reader_bind_ok run
  cases pushed
  cases run
  exact free

theorem repeats_primary (hs : Repeats Cursor.Free self self') (fuel : Nat) :
    Repeats Cursor.Free (primary self fuel) (primary self' fuel) := by
  refine .after get fun c => ?_
  split
  · exact repeats_refl _
  · exact repeats_refl _
  · exact repeats_refl _
  · exact repeats_refl _
  · exact repeats_refl _
  · exact .after advance fun _ c e d run _ => repeats_tuple hs _ _ c e d run trivial
  · exact .after advance fun _ => repeats_functionLiteral hs fuel _
  · exact repeats_refl _

theorem repeats_operandFrom (hs : Repeats Cursor.Free self self') (fuel signs : Nat) :
    Repeats Cursor.Free (operandFrom self fuel signs) (operandFrom self' fuel signs) := by
  have suffixed : Repeats Cursor.Free (suffixed self fuel) (suffixed self' fuel) :=
    (repeats_primary hs fuel).bind (fun e => repeats_suffixes hs fuel e) fun e => balks_suffixes _ _ _
  induction signs with
  | zero => exact suffixed
  | succ signs ih =>
    refine .after peekSymbol? fun symbol => ?_
    split
    · exact .after _ fun start => .after advance fun _ => ih.bind (fun e => repeats_refl _)
        fun e => balks_pure _
    · exact suffixed

theorem repeats_operators (hs : Repeats Cursor.Free self self') (fuel : Nat) :
    Repeats Cursor.Free (operators self fuel) (operators self' fuel) := by
  have operand := repeats_operandFrom hs fuel fuel
  exact operand.bind (fun e => repeats_climb operand fuel 1 e) fun e => balks_climb _ _ _ _

end

/-! ## Assignments -/

/-- The name in front of an equal sign, and where the value starts. -/
def Cursor.assigned? (c : Cursor) : Option (Expr × Cursor) :=
  match c.rest with
  | .leaf (.name target) span _ :: .leaf (.symbol .equal) _ _ :: rest =>
    some (.name target span, { c with rest := rest })
  | _ => none

/-- As an expression is read, but with something else to do where a name and an equal sign have no
expression behind them. -/
def expressionOr (recover : Cursor → ParseError → Reader Expr) (self : Reader Expr) (fuel : Nat) :
    Reader Expr := do
  let start ← get
  match start.rest with
  | .leaf (.name target) span _ :: .leaf (.symbol .equal) _ _ :: rest =>
    set { start with rest := rest }
    tryCatch (do return .ofOperands .assign (.name target span) (← self)) (recover start)
  | _ => operators self fuel

section

variable {self self' : Reader Expr} {fuel : Nat} {c : Cursor}
  {recover : Cursor → ParseError → Reader Expr}

/-- Otherwise the name is read as an operand. -/
theorem expressionWith_eq (self : Reader Expr) (fuel : Nat) : expressionWith self fuel =
    expressionOr (fun start _ => do set start; operators self fuel) self fuel := rfl

theorem expressionOr_assigned {target : Expr} {value : Cursor}
    (ahead : c.assigned? = some (target, value)) : expressionOr recover self fuel c =
      match self value with
      | .ok e d => .ok (.ofOperands .assign target e) d
      | .error e d => recover c e d := by
  obtain ⟨rest, stop, tree⟩ := c
  unfold Cursor.assigned? at ahead
  split at ahead
  · rename_i eq
    cases eq
    cases ahead
    cases read : self { rest := _, stop := stop, tree := tree } with
    | ok e d => exact reader_tryCatch_of_ok (reader_bind_of_ok read)
    | error e d => exact reader_tryCatch_of_error (reader_bind_of_error read)
  · cases ahead

theorem expressionOr_other (ahead : c.assigned? = none) :
    expressionOr recover self fuel c = operators self fuel c := by
  have start : (get : Reader Cursor) c = .ok c c := rfl
  rw [expressionOr, reader_bind_of_ok start]
  unfold Cursor.assigned? at ahead
  split at ahead
  · cases ahead
  · rfl

/-- A name is an operand by itself. -/
theorem operandFrom_name {name : String} {span : Span} {line : Nat} {rest : List Token}
    (ahead : c.rest = .leaf (.name name) span line :: rest) (signs : Nat) :
    operandFrom self fuel signs c = suffixes self fuel (.name name span) { c with rest := rest } := by
  obtain ⟨_, stop, tree⟩ := c
  cases ahead
  cases signs <;> rfl

/-- A name that is read as an operand leaves the equal sign where it is. -/
theorem not_free_of_name {target e : Expr} {value d : Cursor}
    (ahead : c.assigned? = some (target, value)) (run : operators self fuel c = .ok e d) : ¬d.Free := by
  intro free
  obtain ⟨lhs, middle, run₁, run₂⟩ := reader_bind_ok run
  unfold Cursor.assigned? at ahead
  split at ahead
  · rename_i name span line place line' rest eq
    rw [operand, operandFrom_name eq] at run₁
    exact balks_suffixes _ _ _ _ _ _ run₁ (balks_climb _ _ _ _ _ _ _ run₂ free) place line' rest rfl
  · cases ahead

theorem repeats_expressionOr (hs : Repeats Cursor.Free self self') (fuel : Nat) :
    Repeats Cursor.Free (expressionWith self fuel) (expressionOr recover self' fuel) := by
  intro c e d run free
  rw [expressionWith_eq] at run
  cases ahead : c.assigned? with
  | none =>
    rw [expressionOr_other ahead] at run ⊢
    exact repeats_operators hs fuel c e d run free
  | some found =>
    obtain ⟨target, value⟩ := found
    rw [expressionOr_assigned ahead] at run ⊢
    split at run
    · rename_i read
      cases run
      rw [hs _ _ _ read free]
    · exact absurd free (not_free_of_name ahead run)

theorem repeats_expressionWith (hs : Repeats Cursor.Free self self') (fuel : Nat) :
    Repeats Cursor.Free (expressionWith self fuel) (expressionWith self' fuel) :=
  repeats_expressionOr hs fuel

end

/-! ## What a parse comes to -/

/-- From a cursor, a reader runs the reader of nested expressions at another: what it comes to depends
on what that one does there. -/
def Consults (reader : Reader Expr → Reader α) (self : Reader Expr) (c inner : Cursor) : Prop :=
  ∃ self' : Reader Expr, (∀ d, d ≠ inner → self' d = self d) ∧ reader self' c ≠ reader self c

/-- The expressions that reading a program comes to, at any depth: where each starts, and with how many
levels it is read. Those inside a value that turns out to be no expression are among them. -/
inductive Meets (tokens : List Token) : Nat → Cursor → Prop
  | statement {c : Cursor} :
      Consults (statementsFrom · (Token.weightAll tokens) []) (expressionAt (Token.weightAll tokens + 1))
        (.start tokens .empty) c → Meets tokens (Token.weightAll tokens + 1) c
  | nested {levels : Nat} {c inner : Cursor} : Meets tokens (levels + 1) c →
      Consults (expressionWith · levels) (expressionAt levels) c inner → Meets tokens levels inner

/-- What is read without an equal sign in its way was read from such expressions only. -/
theorem Consults.settled {reader : Reader Expr → Reader α} {left : Cursor → Prop}
    (keeps : ∀ {self self'}, Repeats Cursor.Free self self' → Repeats left (reader self) (reader self'))
    {self : Reader Expr} {c inner d : Cursor} (h : Consults reader self c inner) {a : α}
    (run : reader self c = .ok a d) (good : left d) : ∃ e d, self inner = .ok e d ∧ d.Free := by
  obtain ⟨self', same, differs⟩ := h
  by_cases settled : ∃ e d, self inner = .ok e d ∧ d.Free
  · exact settled
  refine (differs ?_).elim
  rw [run]
  refine keeps (fun b e d' read free => ?_) c a d run good
  rw [same b, read]
  rintro rfl
  exact settled ⟨e, d', read, free⟩

/-- The program that a run over all tokens comes to. -/
def programOf (tokens : List Token) :
    EStateM.Result ParseError Cursor (List Expr) → Except ParseError ScopeTree
  | .ok body c => .ok (c.tree.modify ScopeTree.rootId fun root =>
      { root with body := body, span := (Token.spanOf? tokens).getD .zero })
  | .error e _ => .error e

theorem readProgram_eq (tokens : List Token) : readProgram tokens = programOf tokens
    (statementsFrom (expressionAt (Token.weightAll tokens + 1)) (Token.weightAll tokens) []
      (.start tokens .empty)) := by
  unfold readProgram readStatements
  dsimp only [EStateM.run]
  cases statementsFrom (expressionAt (Token.weightAll tokens + 1)) (Token.weightAll tokens) []
    (.start tokens .empty) <;> rfl

theorem readProgram_ok {tokens : List Token} {tree : ScopeTree} (read : readProgram tokens = .ok tree) :
    ∃ body c, statementsFrom (expressionAt (Token.weightAll tokens + 1)) (Token.weightAll tokens) []
      (.start tokens .empty) = .ok body c := by
  rw [readProgram_eq] at read
  unfold programOf at read
  split at read
  · rename_i body c run
    exact ⟨body, c, run⟩
  · cases read

/-- Every expression that reading a program comes to is read, and no equal sign comes next. -/
theorem Meets.settled {tokens : List Token} {levels : Nat} {c : Cursor} (h : Meets tokens levels c)
    {tree : ScopeTree} (read : readProgram tokens = .ok tree) :
    ∃ e d, expressionAt levels c = .ok e d ∧ d.Free := by
  induction h with
  | statement consults =>
    obtain ⟨body, c, run⟩ := readProgram_ok read
    exact consults.settled (fun hs => repeats_statementsFrom hs _ []) run trivial
  | nested _ consults ih =>
    obtain ⟨e, d, run, free⟩ := ih
    exact consults.settled (fun hs => repeats_expressionWith hs _) run free

theorem exists_answer (self : Reader Expr) (inner : Cursor)
    (answer : EStateM.Result ParseError Cursor Expr) :
    ∃ self' : Reader Expr, self' inner = answer ∧ ∀ d, d ≠ inner → self' d = self d := by
  classical
  exact ⟨fun d => if d = inner then answer else self d, if_pos rfl, fun d hd => if_neg hd⟩

/-- After two answers there are two outcomes, one of which the reader does not come to. -/
theorem consults_of_ne {reader : Reader Expr → Reader α} {c inner : Cursor}
    {first second : EStateM.Result ParseError Cursor Expr} {a b : EStateM.Result ParseError Cursor α}
    (ha : ∀ self : Reader Expr, self inner = first → reader self c = a)
    (hb : ∀ self : Reader Expr, self inner = second → reader self c = b) (differ : a ≠ b)
    (self : Reader Expr) : Consults reader self c inner := by
  by_cases here : reader self c = a
  · obtain ⟨self', answer, same⟩ := exists_answer self inner second
    refine ⟨self', same, ?_⟩
    rw [hb self' answer, here]
    exact differ.symm
  · obtain ⟨self', answer, same⟩ := exists_answer self inner first
    refine ⟨self', same, ?_⟩
    rw [ha self' answer]
    exact Ne.symm here

/-- A program that starts with no declaration starts with an expression. -/
theorem meets_first {t : Token} {rest : List Token} (plain : t.isSymbol .leftSquare = false)
    (untyped : t.isSymbol .colon = false) :
    Meets (t :: rest) (Token.weightAll (t :: rest) + 1) (.start (t :: rest) .empty) := by
  have fails (e : ParseError) (self : Reader Expr) (fuel : Nat)
      (answer : self (.start (t :: rest) .empty) = .error e (.start (t :: rest) .empty)) :
      statementsFrom self (fuel + 1) [] (.start (t :: rest) .empty) =
        .error e (.start (t :: rest) .empty) := by
    have stated : statement self (.start (t :: rest) .empty) = self (.start (t :: rest) .empty) := by
      cases t with
      | group => rfl
      | leaf lexeme span line =>
        cases lexeme with
        | symbol symbol => cases symbol <;> first | rfl | simp [Token.isSymbol] at plain untyped
        | _ => rfl
    have ahead : unread (.start (t :: rest) .empty) = .ok (t :: rest) (.start (t :: rest) .empty) := rfl
    exact (reader_bind_of_ok ahead).trans (reader_bind_of_error (stated.trans answer))
  have some_token : 0 < Token.weightAll (t :: rest) := Nat.add_pos_left t.weight_pos _
  obtain ⟨fuel, enough⟩ := Nat.exists_eq_add_of_lt some_token
  rw [Nat.zero_add] at enough
  refine .statement ?_
  rw [enough]
  refine consults_of_ne (fun self => fails (.trailing "a" .zero) self fuel)
    (fun self => fails (.trailing "b" .zero) self fuel) ?_ _
  simp

/-- Behind a name and an equal sign, the value is tried. -/
theorem Meets.value {tokens : List Token} {levels : Nat} {c value : Cursor} {target : Expr}
    (h : Meets tokens (levels + 1) c) (ahead : c.assigned? = some (target, value)) :
    Meets tokens levels value := by
  have assigns (e : Expr) (self : Reader Expr) (answer : self value = .ok e value) :
      expressionWith self levels c = .ok (.ofOperands .assign target e) value := by
    rw [expressionWith_eq, expressionOr_assigned ahead, answer]
  refine h.nested (consults_of_ne (assigns (.int 0 .zero)) (assigns (.int 1 .zero)) ?_ _)
  simp [Expr.ofOperands]

/-! ## No assignment is dropped -/

/-- Nested expressions with so many levels, and with something else to do where an assignment fails. -/
def expressionsOr (recover : Nat → Cursor → ParseError → Reader Expr) : Nat → Reader Expr
  | 0 => expressionAt 0
  | fuel + 1 => expressionOr (recover fuel) (expressionsOr recover fuel) fuel

/-- As a program is read, but with something else to do where an assignment fails. -/
def readProgramOr (recover : Nat → Cursor → ParseError → Reader Expr) (tokens : List Token) :
    Except ParseError ScopeTree :=
  let levels := Token.weightAll tokens
  programOf tokens (statementsFrom (expressionsOr recover (levels + 1)) levels [] (.start tokens .empty))

/-- Reading the name as an operand is one such thing. -/
theorem readProgramOr_fallback (tokens : List Token) :
    readProgramOr (fun level start _ => do set start; operators (expressionAt level) level) tokens =
      readProgram tokens := by
  have same (level : Nat) : expressionsOr (fun level start _ => do
      set start
      operators (expressionAt level) level) level = expressionAt level := by
    induction level with
    | zero => rfl
    | succ level ih =>
      rw [expressionsOr, ih]
      rfl
  rw [readProgramOr, same, readProgram_eq]

theorem repeats_expressionsOr (recover : Nat → Cursor → ParseError → Reader Expr) (level : Nat) :
    Repeats Cursor.Free (expressionAt level) (expressionsOr recover level) := by
  induction level with
  | zero => exact repeats_refl _
  | succ level ih => exact repeats_expressionOr ih level

theorem readProgramOr_of_ok {tokens : List Token} {tree : ScopeTree}
    (read : readProgram tokens = .ok tree) (recover : Nat → Cursor → ParseError → Reader Expr) :
    readProgramOr recover tokens = .ok tree := by
  obtain ⟨body, c, run⟩ := readProgram_ok read
  have again := repeats_statementsFrom (repeats_expressionsOr recover (Token.weightAll tokens + 1))
    (Token.weightAll tokens) [] _ _ _ run trivial
  rw [readProgramOr, again, ← run, ← readProgram_eq, read]

/-- Reading a program comes to a name and an equal sign with no expression behind them, and reads the
name alone. -/
def DropsAssignment (tokens : List Token) : Prop :=
  ∃ levels c target value e d, Meets tokens (levels + 1) c ∧ c.assigned? = some (target, value) ∧
    expressionAt levels value = .error e d

/-- A program with an assignment that fails, however deep inside, is refused. In a program that is read,
every name and equal sign that an expression starts with is read as an assignment, and whatever else were
done where an assignment fails, the program would be read as the same. -/
theorem no_assignment_dropped (tokens : List Token) :
    (DropsAssignment tokens → ∃ e, readProgram tokens = .error e) ∧
      ∀ tree, readProgram tokens = .ok tree →
        (∀ levels c target value, Meets tokens (levels + 1) c → c.assigned? = some (target, value) →
          ∃ e d, expressionAt levels value = .ok e d ∧
            expressionAt (levels + 1) c = .ok (.ofOperands .assign target e) d) ∧
        ∀ recover, readProgramOr recover tokens = .ok tree := by
  have assigns {tree : ScopeTree} (read : readProgram tokens = .ok tree) {levels : Nat}
      {c value : Cursor} {target : Expr} (met : Meets tokens (levels + 1) c)
      (ahead : c.assigned? = some (target, value)) : ∃ e d, expressionAt levels value = .ok e d ∧
        expressionAt (levels + 1) c = .ok (.ofOperands .assign target e) d := by
    obtain ⟨e, d, run, -⟩ := (met.value ahead).settled read
    refine ⟨e, d, run, ?_⟩
    rw [expressionAt, expressionWith_eq, expressionOr_assigned ahead, run]
  refine ⟨?_, fun tree read => ⟨fun levels c target value => assigns read, readProgramOr_of_ok read⟩⟩
  rintro ⟨levels, c, target, value, e, d, met, ahead, fails⟩
  cases result : readProgram tokens with
  | error e => exact ⟨e, rfl⟩
  | ok tree =>
    obtain ⟨e', d', run, -⟩ := assigns result met ahead
    rw [fails] at run
    cases run

/-- A name that is to be assigned to another, to which nothing is assigned: the tokens of `a = b =`. -/
def unfinished : List Token :=
  [.leaf (.name "a") ⟨0, 1⟩ 1, .leaf (.symbol .equal) ⟨2, 3⟩ 1,
    .leaf (.name "b") ⟨4, 5⟩ 1, .leaf (.symbol .equal) ⟨6, 7⟩ 1]

/-- The unfinished assignment is refused, and a finished one is read without falling back. -/
theorem no_assignment_dropped_chain :
    (DropsAssignment unfinished ∧ ∃ e, readProgram unfinished = .error e) ∧
    ∃ tokens tree, readTokens "a = b = 1" = .ok tokens ∧ readProgram tokens = .ok tree ∧
      readProgramOr (fun _ _ e => throw e) tokens = .ok tree := by
  constructor
  · have first : Meets unfinished 5 (.start unfinished .empty) := meets_first rfl rfl
    have dropped : DropsAssignment unfinished := ⟨3, _, _, _, _, _, first.value rfl, rfl, rfl⟩
    exact ⟨dropped, (no_assignment_dropped unfinished).1 dropped⟩
  · have found : (do
        let tokens ← (readTokens "a = b = 1").toOption
        let tree ← (readProgram tokens).toOption
        some ()) = some () := by decide +kernel
    obtain ⟨tokens, lexed, found⟩ := Option.bind_eq_some_iff.mp found
    obtain ⟨tree, read, -⟩ := Option.bind_eq_some_iff.mp found
    have read := toOption_eq_some read
    exact ⟨tokens, tree, toOption_eq_some lexed, read, ((no_assignment_dropped tokens).2 tree read).2 _⟩

end WindowedClosures.Grammar
