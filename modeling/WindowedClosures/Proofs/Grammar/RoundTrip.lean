import WindowedClosures.Proofs.Grammar.Rereading

/-!
# Statements read back

The printed text of a statement is a program of one statement, the same one apart from places and
redundant parentheses. In a declaration the type ends at the equal sign or with the text, since no
printed type has an equal sign or a semicolon outside its parentheses.
-/

namespace WindowedClosures

namespace Grammar

section

variable {rest : List Token} {symbol : Symbol} {span : Span} {line : Nat}

/-! ## Signs, names and types in their places -/

/-- Another reader that comes to the same on these tokens. -/
theorem Takes.instead {α : Type} {m m' : Reader α} {tokens : List Token} {found : α → Prop}
    (h : Takes m tokens rest found)
    (same : ∀ stop tree, m' ⟨tokens ++ rest, stop, tree⟩ = m ⟨tokens ++ rest, stop, tree⟩) :
    Takes m' tokens rest found := h.congr same

theorem accept_here {stop : Nat} {tree : ScopeTree} :
    accept symbol ⟨.leaf (.symbol symbol) span line :: rest, stop, tree⟩ =
      .ok true ⟨rest, stop, tree⟩ := by
  have here : Token.isSymbol symbol (.leaf (.symbol symbol) span line) := isSymbol_iff.mpr rfl
  rw [accept, reader_bind_of_ok (show unread _ = .ok _ _ from rfl)]
  dsimp only
  rw [if_pos here]
  rfl

theorem takes_expect (what : String) :
    Takes (expect symbol what) [.leaf (.symbol symbol) span line] rest (· = span) :=
  fun _ _ => ⟨span, reader_bind_of_ok accept_here, rfl⟩

theorem takes_expectName {name : String} :
    Takes expectName [.leaf (.name name) span line] rest (·.1 = name) :=
  fun _ _ => ⟨_, rfl, rfl⟩

/-- A run without the symbol is taken up to the symbol or to the end. -/
theorem takes_takeUntil {tokens : List Token} (free : ∀ t ∈ tokens, t.isSymbol symbol = false)
    (ends : ∀ t ∈ rest.head?, t.isSymbol symbol) : Takes (takeUntil symbol) tokens rest (· = tokens) := by
  have front : ∀ t ∈ tokens, (!t.isSymbol symbol) = true := fun t ht => by rw [free t ht]; rfl
  have stops : ∀ t ∈ rest.head?, (!t.isSymbol symbol) = false := fun t ht => by rw [ends t ht]; rfl
  intro stop tree
  refine ⟨tokens, ?_, rfl⟩
  change EStateM.Result.ok ((tokens ++ rest).takeWhile fun t => !t.isSymbol symbol)
    (Cursor.mk ((tokens ++ rest).dropWhile fun t => !t.isSymbol symbol) stop tree) = _
  rw [takeWhile_run front stops, dropWhile_run front stops]

theorem takes_typeExpr {t : TypeExpr} {tokens : List Token} (h : t.Printable) (same : bareAll tokens = t.bare) :
    Takes (MonadExcept.ofExcept (typeExpr tokens)) [] rest fun t' => t'.unplaced = t.unplaced := by
  obtain ⟨t', read, eq⟩ := (typeReread h).whole tokens _ same (Nat.le_refl _)
  intro stop tree
  refine ⟨t', ?_, eq⟩
  rw [typeExpr, read]
  rfl

end

/-! ## Statements -/

/-- Tokens that are read as a statement, up to the end. -/
def ReadsStatement (e : Expr) : Prop :=
  ∀ tokens fuel, bareAll tokens = e.bare → Token.weightAll tokens ≤ fuel →
    Takes (statement (expressionAt (fuel + 1))) tokens [] fun e' => e'.stripped = e.stripped

variable {e : Expr}

theorem ReadsExpression.statement (h : ReadsExpression e) (printable : e.Printable) (level : e.level ≤ 2) :
    ReadsStatement e := by
  intro tokens fuel same enough
  refine (h tokens fuel [] same enough nofun).congr fun stop tree => ?_
  have first : symbolOf? (bareAll (tokens ++ [])) = e.sign? := by
    rw [List.append_nil, same, ← printable.front [], List.append_nil]
  rw [Grammar.statement, reader_bind_of_ok (peekSymbol?_eq _)]
  dsimp only
  rw [first]
  -- an expression starts with no sign, or with one of an operand
  cases e with
  | unary op => cases op <;> rfl
  | varDecl | typeDecl => cases level with | step h => cases h with | step h => cases h
  | _ => rfl

theorem ReadsStatement.varDecl {declared : String} {type : TypeExpr} {span : Span} (typed : type.Printable)
    (h : ReadsExpression e) : ReadsStatement (.varDecl declared type e span) := by
  intro tokens fuel same enough
  obtain ⟨square, behind, rfl, opening, later⟩ := bareAll_eq_cons same
  obtain ⟨name, behind, rfl, named, later⟩ := bareAll_eq_cons later
  obtain ⟨colon, behind, rfl, label, later⟩ := bareAll_eq_cons later
  obtain ⟨typeTokens, behind, rfl, there, later⟩ := bareAll_eq_append later
  obtain ⟨equal, value, rfl, sign, inner⟩ := bareAll_eq_cons later
  obtain ⟨start, _, rfl⟩ := bare_eq_leaf opening
  obtain ⟨_, _, rfl⟩ := bare_eq_leaf named
  obtain ⟨_, _, rfl⟩ := bare_eq_leaf label
  obtain ⟨_, _, rfl⟩ := bare_eq_leaf sign
  have absent : Bare.leaf (.symbol .equal) ∉ type.bare := typed.free (by decide) (by decide)
  have free := isSymbol_of_bare there absent
  simp only [weightAll_append, Token.weightAll, Token.weight] at enough
  have valued (start : Span) (type' : TypeExpr) (same : type'.unplaced = type.unplaced) :
      Takes (do
        let value ← expressionAt (fuel + 1)
        return Expr.varDecl declared type' value (start.merge value.span)) (value ++ []) []
        fun e' => e'.stripped = (Expr.varDecl declared type e span).stripped :=
    (h value fuel [] inner (by omega) (by rintro t ⟨⟩)).bind fun e' eq => .pure (by simp [Expr.stripped, same, eq])
  rw [List.append_nil] at valued
  refine Takes.instead (m := varDeclaration (expressionAt (fuel + 1))) ?_ fun _ _ => rfl
  refine (takes_expect _).bind fun start _ => takes_expectName.bind fun found name => ?_
  obtain ⟨_, place⟩ := found
  cases name
  refine (takes_expect _).bind fun _ _ => ?_
  refine (takes_takeUntil free (by rintro t ⟨⟩; rfl)).bind fun typeTokens eq => ?_
  subst eq
  refine (takes_typeExpr typed there).bind fun type' same => ?_
  exact (takes_expect _).bind fun _ _ => valued start type' same

theorem ReadsStatement.typeDecl {declared : String} {type : TypeExpr} {span : Span}
    (typed : type.Printable) : ReadsStatement (.typeDecl declared type span) := by
  intro tokens fuel same _
  obtain ⟨colon, behind, rfl, label, later⟩ := bareAll_eq_cons same
  obtain ⟨name, behind, rfl, named, later⟩ := bareAll_eq_cons later
  obtain ⟨equal, typeTokens, rfl, sign, there⟩ := bareAll_eq_cons later
  obtain ⟨_, _, rfl⟩ := bare_eq_leaf label
  obtain ⟨_, _, rfl⟩ := bare_eq_leaf named
  obtain ⟨_, _, rfl⟩ := bare_eq_leaf sign
  have absent : Bare.leaf (.symbol .semicolon) ∉ type.bare := typed.free (by decide) (by decide)
  have free := isSymbol_of_bare there absent
  have annotated (start : Span) : Takes (do
      let type ← MonadExcept.ofExcept (typeExpr (← takeUntil .semicolon))
      return Expr.typeDecl declared type (start.merge type.span)) (typeTokens ++ []) []
      fun e' => e'.stripped = (Expr.typeDecl declared type span).stripped := by
    refine (takes_takeUntil free (by rintro t ⟨⟩)).bind fun typeTokens eq => ?_
    subst eq
    exact (takes_typeExpr typed there).still fun type' same => .pure (by simp [Expr.stripped, same])
  rw [List.append_nil] at annotated
  refine Takes.instead (m := typeDeclaration) ?_ fun _ _ => rfl
  refine (takes_expect _).bind fun start _ => takes_expectName.bind fun found name => ?_
  obtain ⟨_, place⟩ := found
  cases name
  exact (takes_expect _).bind fun _ _ => annotated start

/-- One statement with nothing behind it is all that is read. -/
theorem statementsFrom_single {self : Reader Expr} {tokens : List Token} {fuel stop : Nat}
    {tree tree' : ScopeTree} (some_token : tokens ≠ []) (some_fuel : 0 < fuel)
    (h : statement self ⟨tokens, stop, tree⟩ = .ok e ⟨[], stop, tree'⟩) :
    statementsFrom self fuel [] ⟨tokens, stop, tree⟩ = .ok [e] ⟨[], stop, tree'⟩ := by
  have unfinished : unread ⟨tokens, stop, tree⟩ = .ok tokens ⟨tokens, stop, tree⟩ := rfl
  cases fuel with
  | zero => exact absurd some_fuel (Nat.lt_irrefl 0)
  | succ fuel =>
    rw [statementsFrom, reader_bind_of_ok unfinished, if_neg (by simpa using some_token),
      reader_bind_of_ok h]
    rfl

/-- The tokens of one statement are a program of that statement. -/
theorem readProgram_single {tokens : List Token} (some_token : tokens ≠ []) (h : ReadsStatement e)
    (same : bareAll tokens = e.bare) :
    ∃ tree e', readProgram tokens = .ok tree ∧ tree.root.body = [e'] ∧ e'.stripped = e.stripped := by
  obtain ⟨e', run, eq⟩ := h tokens _ same (Nat.le_refl _) (Token.stopOf tokens) .empty
  rw [List.append_nil] at run
  have whole := statementsFrom_single some_token (weightAll_pos some_token) run
  have statements : readStatements tokens .empty = (.ok [e'], .empty) := by
    rw [readStatements, Cursor.start, EStateM.run, whole]
  let tree := ScopeTree.empty.modify ScopeTree.rootId fun root =>
    { root with body := [e'], span := (Token.spanOf? tokens).getD .zero }
  refine ⟨tree, e', ?_, ?_, eq⟩
  · rw [readProgram, statements]
    rfl
  · exact congrArg Scope.body (ScopeTree.scope_modify_same _ _ _ (by decide))

end Grammar

/-- What is printed is read back as a statement. -/
theorem Expr.Printable.reads_statement {e : Expr} (h : e.Printable) : Grammar.ReadsStatement e := by
  by_cases level : e.level ≤ 2
  · exact (h.reread.expression level).statement h level
  · cases h with
    | varDecl _ typed value inner => exact .varDecl typed (value.reread.expression inner)
    | typeDecl _ typed => exact .typeDecl typed
    | operation between => exact absurd (Nat.zero_le _) (Expr.level_operation between .. ▸ level)
    | _ => exact absurd (by simp [Expr.level]) level

/-- The printed text of a statement is tokenized and read as one statement, which is the same up to
places and parentheses that can be left out. -/
theorem statements_read_back {source : String} {tokens : List Token} {tree : ScopeTree} {id : ScopeId}
    {e : Expr} (lexed : tokenize source = .ok tokens)
    (floatless : Floatless tokens)
    (read : Grammar.readProgram (Token.stripComments tokens) = .ok tree)
    (listed : e ∈ (tree.scope id).body) (explicit : e.Explicit) :
    ∃ printed again e', tokenize e.render = .ok printed ∧ Grammar.readProgram printed = .ok again ∧
      again.root.body = [e'] ∧ e'.stripped = e.stripped := by
  have legal := legalAll_stripComments (legalAll_of_tokenize lexed floatless)
  have printable := Grammar.readProgram_printable read legal listed explicit
  have lays := printable.draws.lays [] [] nofun .done
  rw [List.append_nil, List.append_nil] at lays
  obtain ⟨printed, tokenized, same⟩ := tokenize_of_lays lays
    (separated_of_anywhere printable.draws.anywhere _) printable.draws.nested
  have some_token : printed ≠ [] := by
    rintro rfl
    exact printable.bare_ne_nil same.symm
  obtain ⟨again, e', reads, body, eq⟩ :=
    Grammar.readProgram_single some_token printable.reads_statement same
  exact ⟨printed, again, e', tokenized, reads, body, eq⟩

/-- A declaration behind a comment, with a type in parentheses, an assignment in an index and a text
over two lines. -/
theorem statements_read_back_declaration : ∃ tokens tree e printed again e',
    tokenize "; c\n[ a: (x: int 2, (int > int) *) = -f(0x1F, y: \"s\n\")[c = b . d] * 2 # !g" = .ok tokens ∧
      Grammar.readProgram (Token.stripComments tokens) = .ok tree ∧ e ∈ (tree.scope 0).body ∧
      e.render = "[ a: (x: int 2, (int > int) *) = ((-f(0x1f, y: \"s\n\")[c = b.d] * 2) # !g)" ∧
      tokenize e.render = .ok printed ∧ Grammar.readProgram printed = .ok again ∧
      again.root.body = [e'] ∧ e'.stripped = e.stripped := by
  have found : (do
      let tokens ← (tokenize "; c\n[ a: (x: int 2, (int > int) *) = -f(0x1F, y: \"s\n\")[c = b . d] * 2 # !g").toOption
      let tree ← (Grammar.readProgram (Token.stripComments tokens)).toOption
      let e ← (tree.scope 0).body.head?
      if Floatless tokens ∧ e.Explicit ∧
        e.render = "[ a: (x: int 2, (int > int) *) = ((-f(0x1f, y: \"s\n\")[c = b.d] * 2) # !g)"
      then some () else none) = some () := by decide +kernel
  obtain ⟨tokens, lexed, found⟩ := Option.bind_eq_some_iff.mp found
  obtain ⟨tree, read, found⟩ := Option.bind_eq_some_iff.mp found
  obtain ⟨e, first, found⟩ := Option.bind_eq_some_iff.mp found
  split at found
  · rename_i good
    obtain ⟨floatless, explicit, text⟩ := good
    have listed := List.mem_of_mem_head? first
    obtain ⟨printed, again, e', tokenized, reads, body, same⟩ :=
      statements_read_back (toOption_eq_some lexed) floatless (toOption_eq_some read) listed explicit
    exact ⟨tokens, tree, e, printed, again, e', toOption_eq_some lexed, toOption_eq_some read, listed,
      text, tokenized, reads, body, same⟩
  · cases found

end WindowedClosures
