import WindowedClosures.Proofs.Grammar.Spelling

/-!
# Reading what tokens spell

Every reader of a part of a program reads a part that the tokens it consumes spell. A fault of grammar
points at tokens, or at the end of a run of tokens.
-/

namespace WindowedClosures.Grammar

variable {α : Type} {p : Span → Prop} {c : Cursor}

/-- A reader of a part of a program reads what tokens spell. -/
def Parses (p : Span → Prop) (m : Reader α) (phrase : α → Phrase) : Prop :=
  Finds p m fun used tree a => Spells tree used (phrase a)

theorem lasting_spells (phrase : α → Phrase) :
    Lasting fun used tree a => Spells tree used (phrase a) :=
  fun _ _ _ _ grows h => h.grows grows

/-- What does not speak of the tree lasts. -/
theorem lasting_const (found : List Token → α → Prop) : Lasting fun used _ a => found used a :=
  fun _ _ _ _ _ h => h

theorem placed_start (closed : ClosedPlaces p) {tokens : List Token} (h : PlacedAll p tokens)
    (tree : ScopeTree) : (Cursor.start tokens tree).Placed p :=
  ⟨h, closed.stopOf h⟩

variable {self : Reader Expr}

/-- One whole expression is spelled by all tokens of its run. -/
theorem finds_wholeExpression (closed : ClosedPlaces p) (hs : Parses p self .expression)
    {tokens : List Token} (placed : PlacedAll p tokens) {span : Span} (here : p span) :
    Finds p (wholeExpression self tokens span)
      fun used tree e => used = [] ∧ Spells tree tokens (.expression e) := by
  intro c _
  unfold wholeExpression
  split
  · exact .throw here
  · have start := placed_start closed placed c.tree
    have whole : FindsAt p (.start tokens c.tree) (do
        let e ← self
        expectEnd
        return e) fun _ tree e => Spells tree tokens (.expression e) := by
      refine .bind start (lasting_spells _) (hs _ start) ?_
      intro e used d eq _ behind _
      refine .expectEnd_bind behind fun ended => .pure fun spells => ?_
      rw [ended, List.append_nil] at eq
      rwa [show tokens = used from eq]
    exact (FindsAt.within whole).mono fun used tree e ⟨quiet, _, spells⟩ => ⟨quiet, spells⟩

theorem finds_field (closed : ClosedPlaces p) (hs : Parses p self .expression) {span : Span}
    (here : p span) {tokens : List Token} (placed : PlacedAll p tokens) :
    Finds p (field self span tokens)
      fun used tree f => used = [] ∧ Spells tree tokens (.field f) := by
  intro c behind
  have lasting (tokens : List Token) : Lasting fun used tree (e : Expr) =>
      used = [] ∧ Spells tree tokens (.expression e) :=
    fun _ _ _ _ grows h => ⟨h.1, h.2.grows grows⟩
  unfold field
  dsimp only
  split
  · rename_i label here' line there line' first rest
    have inside := (placedAll_cons.mp (placedAll_cons.mp placed).2).2
    split
    · exact .throw (closed.spanOf placed here)
    · refine .bind behind (lasting _) (finds_wholeExpression closed hs inside here c behind) ?_
      intro e used d _ _ _ _
      exact .pure fun ⟨quiet, spells⟩ => ⟨by simp [quiet], .labelledField spells⟩
  · split
    · exact .throw (closed.spanOf placed here)
    · refine .bind behind (lasting _) (finds_wholeExpression closed hs placed here c behind) ?_
      intro e used d _ _ _ _
      exact .pure fun ⟨quiet, spells⟩ => ⟨by simp [quiet], .plainField spells⟩

theorem finds_fields (closed : ClosedPlaces p) (hs : Parses p self .expression) {span : Span}
    (here : p span) {children : List Token} {runs : List (List Token)}
    (split : Token.splitWhere (Token.isSymbol .comma) children = runs) (placed : PlacedAll p children) :
    Finds p (runs.mapM (field self span))
      fun used tree fields => used = [] ∧ Spells tree children (.fields fields) := by
  induction runs generalizing children with
  | nil => exact absurd split (Token.splitWhere_ne_nil _ _)
  | cons run runs ih =>
    intro c behind
    rw [List.mapM_cons]
    obtain ⟨-, ⟨rfl, rfl⟩ | ⟨t, rest, comma, rfl, later⟩⟩ := splitWhere_cons split
    · refine .bind behind (fun _ _ _ _ grows h => ⟨h.1, h.2.grows grows⟩)
        (finds_field closed hs here placed c behind) ?_
      intro f used d _ _ _ _
      exact .pure fun ⟨quiet, spells⟩ => ⟨by simp [quiet], .lastField spells⟩
    · obtain ⟨sep, line, rfl⟩ := leaf_of_isSymbol comma
      rw [placedAll_append, placedAll_cons] at placed
      refine .bind behind (fun _ _ _ _ grows h => ⟨h.1, h.2.grows grows⟩)
        (finds_field closed hs here placed.1 c behind) ?_
      intro f used d _ _ placed' _
      refine .bind placed' (fun _ _ _ _ grows h => ⟨h.1, h.2.grows grows⟩)
        (ih later placed.2.2 d placed') ?_
      intro fs used' d' _ _ _ _
      exact .pure fun ⟨quiet', more⟩ ⟨quiet, spells⟩ =>
        ⟨by simp [quiet, quiet'], .moreFields spells more⟩

/-- A tuple is spelled by its group, which was stepped over. -/
theorem finds_tuple (closed : ClosedPlaces p) (hs : Parses p self .expression)
    {children : List Token} {span : Span} {line : Nat}
    (placed : PlacedAll p [.group .paren children span line]) :
    Finds p (tuple self children span) fun used tree e => used = [] ∧ ∃ fields,
      e = .tuple fields span ∧
        Spells tree [.group .paren children span line] (.primary (.tuple fields span)) := by
  intro c behind
  unfold tuple
  have inside : FindsAt p c (fields self children span) fun used tree fields => used = [] ∧
      Spells tree [.group .paren children span line] (.primary (.tuple fields span)) := by
    unfold fields
    split
    · rename_i empty
      rw [List.isEmpty_iff.mp empty]
      exact .pure ⟨rfl, .unit⟩
    · exact (finds_fields closed hs placed.span rfl placed.children c behind).mono
        fun _ _ _ ⟨quiet, spells⟩ => ⟨quiet, .tuple spells⟩
  refine .bind behind (fun _ _ _ _ grows h => ⟨h.1, h.2.grows grows⟩) inside ?_
  intro fs used d _ _ _ _
  exact .pure fun ⟨quiet, spells⟩ => ⟨by simp [quiet], fs, rfl, spells⟩

/-- What stands behind an expression goes on with it. -/
theorem finds_suffixes (closed : ClosedPlaces p) (hs : Parses p self .expression) (fuel : Nat)
    {e : Expr} {run : List Token} {c : Cursor} (placed : c.Placed p)
    (he : Spells c.tree run (.suffixed e)) :
    FindsAt p c (suffixes self fuel e) fun used tree e => Spells tree (run ++ used) (.suffixed e) := by
  induction fuel generalizing e run c with
  | zero => exact .pure (by rwa [List.append_nil])
  | succ fuel ih =>
    rw [suffixes]
    refine .unread_bind ?_
    split
    · rename_i children span line rest eq
      have tokens := placed.tokens
      rw [eq, placedAll_cons] at tokens
      refine .advance_bind eq ?_
      have behind : Cursor.Placed p { c with rest := rest } := ⟨tokens.2, placed.stop⟩
      refine .bind behind ?_ (finds_tuple closed hs tokens.1 _ behind) ?_
      · intro _ _ _ _ grows ⟨quiet, fields, eq, spells⟩
        exact ⟨quiet, fields, eq, spells.grows grows⟩
      · intro args used d _ grows behind' ⟨quiet, fields, eq, spells⟩
        subst eq
        refine (ih behind' ((he.grows grows).call spells)).mono fun used' tree e' spells' _ => ?_
        rw [quiet]
        simpa using spells'
    · rename_i here line rest eq
      have tokens := placed.tokens
      rw [eq, placedAll_cons] at tokens
      refine .advance_bind eq ?_
      have behind : Cursor.Placed p { c with rest := rest } := ⟨tokens.2, placed.stop⟩
      refine .bind behind (lasting_const _) (finds_expectName _ behind) ?_
      intro named used d _ grows behind' ⟨line', eq⟩
      have accessed : Spells d.tree (run ++ [.leaf (.symbol .dot) here line,
          .leaf (.name named.1) named.2 line']) (.suffixed
            (.ofOperands .field e (.name named.1 named.2))) := (he.grows grows).access
      refine (ih behind' accessed).mono fun used' tree e' spells' _ => ?_
      rw [eq]
      simpa using spells'
    · rename_i here line rest eq
      have tokens := placed.tokens
      rw [eq, placedAll_cons] at tokens
      refine .advance_bind eq ?_
      have behind : Cursor.Placed p { c with rest := rest } := ⟨tokens.2, placed.stop⟩
      refine .bind behind (lasting_spells _) (hs _ behind) ?_
      intro position used d _ grows behind' spells
      refine .bind behind' (lasting_const _) (finds_expect _ _ _ behind') ?_
      intro closing used' d' _ grows' behind'' ⟨line', eq⟩
      have indexed : Spells d'.tree (run ++ .leaf (.symbol .leftSquare) here line ::
          (used ++ [.leaf (.symbol .rightSquare) closing line'])) (.suffixed
            (.binary .index e position (e.span.merge closing))) :=
        (he.grows (grows.trans grows')).index (spells.grows grows')
      refine (ih behind'' indexed).mono fun used'' tree e' spells' _ _ => ?_
      rw [eq]
      simpa using spells'
    · exact .pure (by rwa [List.append_nil])

theorem finds_climb {operand : Reader Expr} (ho : Parses p operand .operand) (fuel power : Nat)
    {lhs : Expr} {run : List Token} {c : Cursor} (placed : c.Placed p)
    (hl : Spells c.tree run (.operators lhs)) :
    FindsAt p c (climb operand fuel power lhs)
      fun used tree e => Spells tree (run ++ used) (.operators e) := by
  induction fuel generalizing power lhs run c with
  | zero => exact .pure (by rwa [List.append_nil])
  | succ fuel ih =>
    rw [climb]
    refine .peekSymbol?_bind ?_ (.pure (by rwa [List.append_nil]))
    intro symbol here line rest eq
    dsimp only [Option.bind_some]
    split
    · exact .pure (by rwa [List.append_nil])
    · rename_i b binds
      split
      · exact .pure (by rwa [List.append_nil])
      · have tokens := placed.tokens
        rw [eq, placedAll_cons] at tokens
        have behind : Cursor.Placed p { c with rest := rest } := ⟨tokens.2, placed.stop⟩
        refine .advance_bind eq (.bind behind (lasting_spells _) (ho _ behind) ?_)
        intro first used d _ grows behind' spells
        refine .bind behind' (fun _ _ _ _ grows h => h.grows grows)
          (ih b.rightPower behind' (.ofOperand spells)) ?_
        intro rhs used' d' _ grows' behind'' spells'
        have joined : Spells d'.tree (run ++ .leaf (.symbol symbol) here line :: (used ++ used'))
            (.operators (.ofOperands b.op lhs rhs)) :=
          .operator binds (hl.grows (grows.trans grows')) spells'
        refine (ih power behind'' joined).mono fun used'' tree e spells'' _ _ => ?_
        simpa using spells''

theorem finds_typeExpr (closed : ClosedPlaces p) {tokens : List Token} (placed : PlacedAll p tokens) :
    Finds p (MonadExcept.ofExcept (typeExpr tokens))
      fun used _ type => used = [] ∧ TypeSpells tokens (.type type) := by
  have reads := typeReads_typeExprAt closed (Token.weightAll tokens + 1)
  exact finds_ofExcept (fun type h => (reads.ok tokens type h).1)
    fun e h => reads.error tokens e h placed

theorem parses_varDeclaration (closed : ClosedPlaces p) (hs : Parses p self .expression) :
    Parses p (varDeclaration self) .statement := by
  intro c placed
  refine .bind placed (lasting_const _) (finds_expect _ _ c placed) ?_
  intro start used d _ _ placed ⟨line, eq⟩
  subst eq
  refine .bind placed (lasting_const _) (finds_expectName d placed) ?_
  intro named used d _ _ placed ⟨line₁, eq⟩
  subst eq
  refine .bind placed (lasting_const _) (finds_expect _ _ d placed) ?_
  intro colon used d _ _ placed ⟨line₂, eq⟩
  subst eq
  refine .bind placed (lasting_const _) (finds_takeUntil _ d placed) ?_
  intro types used d' eq _ placed' eq'
  subst eq'
  have inside := placed.tokens
  rw [eq, placedAll_append] at inside
  refine .bind placed' (lasting_const _) (finds_typeExpr closed inside.1 d' placed') ?_
  intro type used d _ _ placed ⟨quiet, spelled⟩
  subst quiet
  refine .bind placed (lasting_const _) (finds_expect _ _ d placed) ?_
  intro equal used d _ _ placed ⟨line₃, eq⟩
  subst eq
  refine .bind placed (lasting_spells _) (hs d placed) ?_
  intro value used d _ _ _ _
  refine .pure fun spells _ _ _ _ _ _ => ?_
  simpa using Spells.varDecl spelled spells

theorem parses_typeDeclaration (closed : ClosedPlaces p) : Parses p typeDeclaration .statement := by
  intro c placed
  refine .bind placed (lasting_const _) (finds_expect _ _ c placed) ?_
  intro start used d _ _ placed ⟨line, eq⟩
  subst eq
  refine .bind placed (lasting_const _) (finds_expectName d placed) ?_
  intro named used d _ _ placed ⟨line₁, eq⟩
  subst eq
  refine .bind placed (lasting_const _) (finds_expect _ _ d placed) ?_
  intro equal used d _ _ placed ⟨line₂, eq⟩
  subst eq
  refine .bind placed (lasting_const _) (finds_takeUntil _ d placed) ?_
  intro types used d' eq _ placed' eq'
  subst eq'
  have inside := placed.tokens
  rw [eq, placedAll_append] at inside
  refine .bind placed' (lasting_const _) (finds_typeExpr closed inside.1 d' placed') ?_
  intro type used d _ _ placed ⟨quiet, spelled⟩
  subst quiet
  refine .pure fun _ _ _ _ _ => ?_
  simpa using Spells.typeDecl spelled

theorem parses_statement (closed : ClosedPlaces p) (hs : Parses p self .expression) :
    Parses p (statement self) .statement := by
  intro c placed
  have plain : FindsAt p c self fun used tree e => Spells tree used (.statement e) :=
    (hs c placed).mono fun _ _ _ spells => .ofExpression spells
  refine .peekSymbol?_bind ?_ plain
  intro symbol span line rest eq
  split
  · exact parses_varDeclaration closed hs c placed
  · exact parses_typeDeclaration closed c placed
  · exact plain

/-- The tokens in front are the statements found so far, in reverse, whatever statements follow. -/
def Opens (tree : ScopeTree) (front : List Token) (found : List Expr) : Prop :=
  ∀ later rest body, tree.Grows later → Spells later rest (.statements body) →
    Spells later (front ++ rest) (.statements (found.reverse ++ body))

theorem opens_nil (tree : ScopeTree) : Opens tree [] [] := fun _ _ _ _ spells => spells

theorem Opens.cons {tree : ScopeTree} {front run : List Token} {found : List Expr} {stmt : Expr}
    (h : Opens tree front found) {tree' : ScopeTree} (grows : tree.Grows tree')
    (spells : Spells tree' run (.statement stmt)) (here : Span) (line : Nat) :
    Opens tree' (front ++ (run ++ [.leaf (.symbol .semicolon) here line])) (stmt :: found) := by
  intro later rest body more spelled
  have next : Spells later (run ++ .leaf (.symbol .semicolon) here line :: rest)
      (.statements (stmt :: body)) := .moreStatements (spells.grows more) spelled
  simpa using h later _ _ (grows.trans more) next

/-- Statements up to the end of the run. -/
theorem finds_statementsFrom (closed : ClosedPlaces p) (hs : Parses p self .expression) (fuel : Nat)
    {found : List Expr} {front : List Token} {c : Cursor} (placed : c.Placed p)
    (before : Opens c.tree front found) :
    FindsAt p c (statementsFrom self fuel found) fun used tree body =>
      used = c.rest ∧ Spells tree (front ++ used) (.statements body) := by
  induction fuel generalizing found front c with
  | zero =>
    refine .expectEnd_bind placed fun ended => .pure ⟨ended.symm, ?_⟩
    simpa using before c.tree [] [] (ScopeTree.grows_refl _) .noStatement
  | succ fuel ih =>
    rw [statementsFrom]
    refine .unread_bind ?_
    split
    · rename_i ended
      refine .pure ⟨(List.isEmpty_iff.mp ended).symm, ?_⟩
      simpa using before c.tree [] [] (ScopeTree.grows_refl _) .noStatement
    · refine .bind placed (lasting_spells _) (parses_statement closed hs c placed) ?_
      intro stmt used d eq grows placed spells
      refine .bind placed (lasting_const _) (finds_accept .semicolon d placed) ?_
      intro taken used' d' eq' grows' placed here
      split
      · rename_i yes
        rw [if_pos yes] at here
        obtain ⟨span, line, rfl⟩ := here
        have next := ih placed (before.cons (grows.trans grows') (spells.grows grows') span line)
        refine next.mono fun used' tree body ⟨whole, spelled⟩ _ _ => ⟨?_, ?_⟩
        · rw [eq, eq', whole]
        · simpa using spelled
      · rename_i no
        rw [if_neg no] at here
        subst here
        refine .expectEnd_bind placed fun ended => .pure fun _ spells => ⟨?_, ?_⟩
        · rw [eq, eq', ended]
        · simpa using before d'.tree _ _ (grows.trans grows') (.lastStatement spells)

/-! ## Literals -/

/-- A reader that adds no scope and fails only at places of the set. -/
theorem finds_moreLabels (fuel : Nat) : Finds p (moreLabels fuel) fun _ _ _ => True := by
  induction fuel with
  | zero => exact fun c _ => .pure trivial
  | succ fuel ih =>
    intro c placed
    refine .bind placed (lasting_const _) (finds_accept .comma c placed) ?_
    intro taken used d _ _ placed _
    split
    · refine .bind placed (lasting_const _) (finds_expectName d placed) ?_
      intro named used d _ _ placed _
      refine .bind placed (lasting_const _) (ih d placed) ?_
      exact fun _ _ _ _ _ _ _ => .pure fun _ _ _ => trivial
    · exact .pure fun _ => trivial

theorem finds_labels (fuel : Nat) : Finds p (labels fuel) fun _ _ _ => True := by
  intro c placed
  refine .unread_bind ?_
  split
  · rename_i name span line rest eq
    have tokens := placed.tokens
    rw [eq, placedAll_cons] at tokens
    have behind : Cursor.Placed p { c with rest := rest } := ⟨tokens.2, placed.stop⟩
    refine .advance_bind eq (.bind behind (lasting_const _) (finds_moreLabels fuel _ behind) ?_)
    exact fun _ _ _ _ _ _ _ => .pure fun _ => trivial
  · exact .pure trivial

/-- A block with its statements, or one expression. -/
def BodySpelled (used : List Token) (tree : ScopeTree) (body : List Expr × Span) : Prop :=
  (∃ children line, used = [.group .brace children body.2 line] ∧
    Spells tree children (.statements body.1)) ∨
  ∃ e, body = ([e], e.span) ∧ Spells tree used (.expression e)

theorem lasting_bodySpelled : Lasting BodySpelled := by
  intro used before after body grows h
  rcases h with ⟨children, line, eq, spells⟩ | ⟨e, eq, spells⟩
  · exact .inl ⟨children, line, eq, spells.grows grows⟩
  · exact .inr ⟨e, eq, spells.grows grows⟩

theorem finds_literalBody (closed : ClosedPlaces p) (hs : Parses p self .expression) (fuel : Nat) :
    Finds p (literalBody self fuel) BodySpelled := by
  intro c placed
  refine .unread_bind ?_
  split
  · rename_i children span line rest eq
    have tokens := placed.tokens
    rw [eq, placedAll_cons] at tokens
    have behind : Cursor.Placed p { c with rest := rest } := ⟨tokens.2, placed.stop⟩
    have start := placed_start closed tokens.1.children c.tree
    refine .advance_bind eq (.bind behind ?_ (FindsAt.within
      (finds_statementsFrom closed hs fuel start (opens_nil _))) ?_)
    · intro _ _ _ _ grows ⟨quiet, inner, whole, spells⟩
      exact ⟨quiet, inner, whole, spells.grows grows⟩
    · intro body used d _ _ _ _
      refine .pure fun ⟨quiet, inner, whole, spells⟩ => .inl ⟨children, line, by simp [quiet], ?_⟩
      rw [whole] at spells
      exact spells
  · refine .bind placed (lasting_spells _) (hs c placed) ?_
    intro e used d _ _ _ _
    exact .pure fun spells => .inr ⟨e, rfl, by simpa using spells⟩

theorem finds_functionLiteral (closed : ClosedPlaces p) (hs : Parses p self .expression) (fuel : Nat)
    (start : Span) (line : Nat) : Finds p (functionLiteral self fuel start) fun used tree e =>
      Spells tree (.leaf (.symbol .backslash) start line :: used) (.primary e) := by
  intro c placed
  refine .bind placed (lasting_const _) (finds_labels fuel c placed) ?_
  intro labels used₁ d _ _ placed _
  refine .bind placed (lasting_const _) (finds_expect _ _ d placed) ?_
  intro sign used₂ d _ _ placed _
  refine .bind placed lasting_bodySpelled (finds_literalBody closed hs fuel d placed) ?_
  intro body used₃ d _ _ placed _
  obtain ⟨stmts, stop⟩ := body
  refine .allocate_bind (.pure fun spelled _ _ => ?_)
  have lt : d.tree.count < (d.tree.push (.fresh .literal labels stmts (start.merge stop))).count := by
    simp
  have scope := ScopeTree.scope_push_count d.tree (.fresh .literal labels stmts (start.merge stop))
  rcases spelled with ⟨children, line', eq, spells⟩ | ⟨e, eq, spells⟩
  · subst eq
    have whole : Spells _ (.leaf (.symbol .backslash) start line ::
        ((used₁ ++ used₂) ++ [.group .brace children stop line'])) _ := .block spells lt scope
    simpa using whole
  · cases eq
    have whole : Spells _ (.leaf (.symbol .backslash) start line :: ((used₁ ++ used₂) ++ used₃)) _ :=
      .lambda spells lt scope
    simpa using whole

theorem parses_primary (closed : ClosedPlaces p) (hs : Parses p self .expression) (fuel : Nat) :
    Parses p (primary self fuel) .primary := by
  intro c placed
  refine .get_bind ?_
  split
  · rename_i value span line rest eq
    exact .advance_bind eq (.pure .int)
  · rename_i value span line rest eq
    exact .advance_bind eq (.pure .hex)
  · rename_i value span line rest eq
    exact .advance_bind eq (.pure .float)
  · rename_i value span line rest eq
    exact .advance_bind eq (.pure .text)
  · rename_i value span line rest eq
    exact .advance_bind eq (.pure .name)
  · rename_i children span line rest eq
    have tokens := placed.tokens
    rw [eq, placedAll_cons] at tokens
    have behind : Cursor.Placed p { c with rest := rest } := ⟨tokens.2, placed.stop⟩
    refine .advance_bind eq ((finds_tuple closed hs tokens.1 _ behind).mono ?_)
    intro used tree e ⟨quiet, fields, eq, spells⟩
    rw [quiet, eq]
    exact spells
  · rename_i span line rest eq
    have tokens := placed.tokens
    rw [eq, placedAll_cons] at tokens
    have behind : Cursor.Placed p { c with rest := rest } := ⟨tokens.2, placed.stop⟩
    exact .advance_bind eq (finds_functionLiteral closed hs fuel span line _ behind)
  · exact .throw placed.here

theorem parses_suffixed (closed : ClosedPlaces p) (hs : Parses p self .expression) (fuel : Nat) :
    Parses p (suffixed self fuel) .suffixed := by
  intro c placed
  refine .bind placed (lasting_spells _) (parses_primary closed hs fuel c placed) ?_
  intro e used d _ _ placed spells
  exact (finds_suffixes closed hs fuel placed (.ofPrimary spells)).mono fun _ _ _ spells _ => spells

theorem parses_operandFrom (closed : ClosedPlaces p) (hs : Parses p self .expression)
    (fuel signs : Nat) : Parses p (operandFrom self fuel signs) .operand := by
  have plain : Parses p (suffixed self fuel) .operand := fun c placed =>
    (parses_suffixed closed hs fuel c placed).mono fun _ _ _ spells => .ofSuffixed spells
  induction signs with
  | zero => exact plain
  | succ signs ih =>
    intro c placed
    rw [operandFrom]
    refine .peekSymbol?_bind ?_ (plain c placed)
    intro symbol span line rest eq
    dsimp only [Option.bind_some]
    split
    · rename_i op signed
      have tokens := placed.tokens
      rw [eq, placedAll_cons] at tokens
      have behind : Cursor.Placed p { c with rest := rest } := ⟨tokens.2, placed.stop⟩
      have here : c.here = span := by simp [Cursor.here, eq, Token.span]
      refine .here_bind (.advance_bind eq (.bind behind (lasting_spells _) (ih _ behind) ?_))
      intro e used d _ _ _ _
      refine .pure fun spells => ?_
      rw [here, List.append_nil]
      exact .unary signed spells
    · exact plain c placed

theorem parses_operators (closed : ClosedPlaces p) (hs : Parses p self .expression) (fuel : Nat) :
    Parses p (operators self fuel) .operators := by
  intro c placed
  have operand : Parses p (operand self fuel) .operand := parses_operandFrom closed hs fuel fuel
  refine .bind placed (lasting_spells _) (operand c placed) ?_
  intro e used d _ _ placed spells
  exact (finds_climb operand fuel 1 placed (.ofOperand spells)).mono fun _ _ _ spells _ => spells

/-- An attempt behind some tokens, and what is tried instead from the start. -/
theorem FindsAt.attempt {m next : Reader α} {found : List Token → ScopeTree → α → Prop}
    {front rest : List Token} (eq : c.rest = front ++ rest)
    (hm : FindsAt p { c with rest := rest } m fun used tree a => found (front ++ used) tree a)
    (hn : FindsAt p c next found) :
    FindsAt p c (do
      set { c with rest := rest }
      tryCatch m fun _ => do
        set c
        next) found := by
  have same : (do
      set { c with rest := rest }
      tryCatch m fun _ => do
        set c
        next : Reader α) c = tryCatch m (fun _ => do set c; next) { c with rest := rest } := rfl
  constructor
  · intro a c' run
    rw [same, reader_tryCatch] at run
    split at run
    · rename_i got
      cases run
      obtain ⟨used, eq', stop, grows, here⟩ := hm.ok a c' got
      refine ⟨front ++ used, ?_, stop, grows, here⟩
      rw [eq, show rest = used ++ c'.rest from eq', List.append_assoc]
    · exact hn.ok a c' run
  · intro e c' run
    rw [same, reader_tryCatch] at run
    split at run
    · cases run
    · exact hn.error e c' run

theorem parses_expressionWith (closed : ClosedPlaces p) (hs : Parses p self .expression)
    (fuel : Nat) : Parses p (expressionWith self fuel) .expression := by
  intro c placed
  have plain : FindsAt p c (operators self fuel) fun used tree e => Spells tree used (.expression e) :=
    (parses_operators closed hs fuel c placed).mono fun _ _ _ spells => .ofOperators spells
  refine .get_bind ?_
  split
  · rename_i name span line there line' rest eq
    have tokens := placed.tokens
    rw [eq] at tokens
    have behind : Cursor.Placed p { c with rest := rest } :=
      ⟨(placedAll_cons.mp (placedAll_cons.mp tokens).2).2, placed.stop⟩
    have front : c.rest = [.leaf (.name name) span line, .leaf (.symbol .equal) there line'] ++ rest := eq
    refine .attempt front (.bind behind (lasting_spells _) (hs _ behind) ?_) plain
    intro e used d _ _ _ _
    refine .pure fun spells => ?_
    rw [List.append_nil]
    exact .assign spells
  · exact plain

theorem parses_expressionAt (closed : ClosedPlaces p) (fuel : Nat) :
    Parses p (expressionAt fuel) .expression := by
  induction fuel with
  | zero => exact fun c placed => .get_bind (.throw placed.here)
  | succ fuel ih => exact parses_expressionWith closed ih fuel

/-- All statements of a run. -/
theorem finds_program (closed : ClosedPlaces p) {tokens : List Token} (placed : PlacedAll p tokens)
    (tree : ScopeTree) (levels : Nat) :
    FindsAt p (.start tokens tree) (statementsFrom (expressionAt (levels + 1)) levels [])
      fun used tree body => used = tokens ∧ Spells tree used (.statements body) :=
  finds_statementsFrom closed (parses_expressionAt closed _) levels (placed_start closed placed tree)
    (opens_nil tree)

/-- The statements of a program are spelled by its tokens. -/
theorem readProgram_spells {tokens : List Token} {tree : ScopeTree}
    (h : readProgram tokens = .ok tree) : Spells tree tokens (.statements tree.root.body) ∧
      tree.root.span = (Token.spanOf? tokens).getD .zero := by
  have anywhere : ClosedPlaces fun _ => True :=
    ⟨trivial, fun _ _ _ _ => trivial, fun _ _ => trivial⟩
  unfold readProgram readStatements at h
  dsimp only at h
  split at h
  · rename_i body c run
    cases h
    obtain ⟨used, -, -, grows, rfl, spells⟩ := (finds_program anywhere (fun _ _ => trivial) .empty
      (Token.weightAll tokens)).ok body c run
    have here := c.tree.scope_modify_same ScopeTree.rootId (fun root => { root with
      body := body, span := (Token.spanOf? used).getD .zero }) grows.count
    rw [ScopeTree.root, here]
    refine ⟨spells.congr (by simp) fun id _ literal => ?_, rfl⟩
    -- the program's own scope is no literal's
    refine ScopeTree.scope_modify_other _ _ _ _ ?_
    rintro rfl
    rw [show c.tree.scope ScopeTree.rootId = _ from
      grows.keeps 0 (show 0 < ScopeTree.empty.count by decide)] at literal
    cases literal
  · cases h

/-- A fault of grammar has its place among those of the tokens. -/
theorem readProgram_error (closed : ClosedPlaces p) {tokens : List Token} (placed : PlacedAll p tokens)
    {e : ParseError} (h : readProgram tokens = .error e) : p e.span := by
  unfold readProgram readStatements at h
  dsimp only at h
  split at h
  · cases h
  · rename_i e' c run
    cases h
    exact (finds_program closed placed .empty (Token.weightAll tokens)).error e c run

end WindowedClosures.Grammar
