import WindowedClosures.Grammar.Expression
import WindowedClosures.Proofs.Grammar.Types
import WindowedClosures.Proofs.Scope.Reading

/-!
# What readers find

`FindsAt` says what a reader does from a cursor: it consumes tokens that are as stated and adds
scopes to the tree, or it fails at a place among those of the tokens. There is one rule for each way
to put readers together, and one for each of the small readers.
-/

namespace WindowedClosures

/-- Scopes were added, and those that were there stay. -/
structure ScopeTree.Grows (before after : ScopeTree) : Prop where
  count : before.count ≤ after.count
  keeps : ∀ id : Nat, id < before.count → after.scope id = before.scope id

namespace ScopeTree

variable {first second third : ScopeTree}

theorem grows_refl (tree : ScopeTree) : tree.Grows tree := ⟨Nat.le_refl _, fun _ _ => rfl⟩

theorem Grows.trans (h : first.Grows second) (h' : second.Grows third) : first.Grows third := by
  refine ⟨Nat.le_trans h.count h'.count, fun id lt => ?_⟩
  rw [h'.keeps id (Nat.lt_of_lt_of_le lt h.count), h.keeps id lt]

theorem grows_push (tree : ScopeTree) (s : Scope) : tree.Grows (tree.push s) :=
  ⟨by simp, fun id lt => scope_push_of_lt tree s id lt⟩

end ScopeTree

namespace Grammar

/-! ## Readers -/

variable {α β : Type} {p : Span → Prop} {c : Cursor}

theorem reader_bind_error {m : Reader α} {f : α → Reader β} {c' : Cursor} {e : ParseError}
    (h : (m >>= f) c = .error e c') :
    m c = .error e c' ∨ ∃ a d, m c = .ok a d ∧ f a d = .error e c' := by
  change EStateM.bind m f c = .error e c' at h
  cases hm : m c with
  | ok a d =>
    simp only [EStateM.bind, hm] at h
    exact .inr ⟨a, d, rfl, h⟩
  | error e' d =>
    simp only [EStateM.bind, hm] at h
    cases h
    exact .inl rfl

/-- The tokens ahead and the end of the run have their places in the set. -/
structure Cursor.Placed (p : Span → Prop) (c : Cursor) : Prop where
  tokens : PlacedAll p c.rest
  stop : p (.point c.stop)

/-- From a cursor, a reader consumes tokens that are as stated, or fails at a place of the set. -/
structure FindsAt (p : Span → Prop) (c : Cursor) (m : Reader α)
    (found : List Token → ScopeTree → α → Prop) : Prop where
  ok : ∀ a c', m c = .ok a c' → ∃ used, c.rest = used ++ c'.rest ∧ c'.stop = c.stop ∧
    c.tree.Grows c'.tree ∧ found used c'.tree a
  error : ∀ e c', m c = .error e c' → p e.span

/-- As `FindsAt`, from any cursor. -/
def Finds (p : Span → Prop) (m : Reader α) (found : List Token → ScopeTree → α → Prop) : Prop :=
  ∀ c : Cursor, c.Placed p → FindsAt p c m found

theorem Cursor.Placed.here (h : c.Placed p) : p c.here := by
  unfold Cursor.here
  split
  · rename_i t rest eq
    have tokens := h.tokens
    rw [eq] at tokens
    exact tokens.mem (by simp)
  · exact h.stop

/-- What was stated of the tokens consumed so far, and of a scope tree, stays when the tree grows. -/
def Lasting (found : List Token → ScopeTree → α → Prop) : Prop :=
  ∀ used before after a, before.Grows after → found used before a → found used after a

namespace FindsAt

variable {m : Reader α} {f : α → Reader β} {found : List Token → ScopeTree → α → Prop}
  {found' : List Token → ScopeTree → β → Prop}

theorem pure {a : α} (h : found [] c.tree a) : FindsAt p c (Pure.pure a) found := by
  constructor
  · intro _ _ run
    cases run
    exact ⟨[], rfl, rfl, ScopeTree.grows_refl _, h⟩
  · intro _ _ run
    cases run

theorem throw {e : ParseError} (h : p e.span) : FindsAt p c (MonadExcept.throw e) found := by
  constructor
  · intro _ _ run
    cases run
  · intro _ _ run
    cases run
    exact h

theorem bind (placed : c.Placed p) (lasting : Lasting found) (hm : FindsAt p c m found)
    (hf : ∀ a used d, c.rest = used ++ d.rest → c.tree.Grows d.tree → d.Placed p → found used d.tree a →
      FindsAt p d (f a) fun used' tree b => found used tree a → found' (used ++ used') tree b) :
    FindsAt p c (m >>= f) found' := by
  have next {a : α} {d : Cursor} (run : m c = .ok a d) : ∃ used, c.rest = used ++ d.rest ∧
      d.stop = c.stop ∧ c.tree.Grows d.tree ∧ found used d.tree a ∧ FindsAt p d (f a)
        fun used' tree b => found used tree a → found' (used ++ used') tree b := by
    obtain ⟨used, eq, stop, grows, here⟩ := hm.ok a d run
    have tokens := placed.tokens
    rw [eq, placedAll_append] at tokens
    exact ⟨used, eq, stop, grows, here,
      hf a used d eq grows ⟨tokens.2, stop ▸ placed.stop⟩ here⟩
  constructor
  · intro b c' run
    obtain ⟨a, d, run₁, run₂⟩ := reader_bind_ok run
    obtain ⟨used, eq, stop, grows, here, later⟩ := next run₁
    obtain ⟨used', eq', stop', grows', found⟩ := later.ok b c' run₂
    refine ⟨used ++ used', ?_, stop'.trans stop, grows.trans grows', ?_⟩
    · rw [eq, eq', List.append_assoc]
    · exact found (lasting _ _ _ _ grows' here)
  · intro e c' run
    rcases reader_bind_error run with run | ⟨a, d, run₁, run₂⟩
    · exact hm.error e c' run
    · obtain ⟨used, -, -, -, -, later⟩ := next run₁
      exact later.error e c' run₂

theorem congr {m' : Reader α} (h : FindsAt p c m found) (same : m' c = m c) :
    FindsAt p c m' found :=
  ⟨fun a c' run => h.ok a c' (same ▸ run), fun e c' run => h.error e c' (same ▸ run)⟩

theorem get_bind {f : Cursor → Reader β} (h : FindsAt p c (f c) found') :
    FindsAt p c (get >>= f) found' := h.congr rfl

theorem unread_bind {f : List Token → Reader β} (h : FindsAt p c (f c.rest) found') :
    FindsAt p c (unread >>= f) found' := h.congr rfl

theorem here_bind {f : Span → Reader β} (h : FindsAt p c (f c.here) found') :
    FindsAt p c (here >>= f) found' := h.congr rfl

/-- One token is stepped over. -/
theorem advance_bind {t : Token} {rest : List Token} {f : Unit → Reader β} (eq : c.rest = t :: rest)
    (h : FindsAt p { c with rest := rest } (f ()) fun used tree b => found' (t :: used) tree b) :
    FindsAt p c (advance >>= f) found' := by
  have same : (advance >>= f) c = f () { c with rest := rest } := by
    show f () { c with rest := c.rest.tail } = _
    rw [eq]
    rfl
  constructor
  · intro b c' run
    rw [same] at run
    obtain ⟨used, eq', stop, grows, found⟩ := h.ok b c' run
    refine ⟨t :: used, ?_, stop, grows, found⟩
    rw [eq, show rest = used ++ c'.rest from eq', List.cons_append]
  · intro e c' run
    rw [same] at run
    exact h.error e c' run

theorem mono {found₂ : List Token → ScopeTree → α → Prop} (h : FindsAt p c m found)
    (le : ∀ used tree a, found used tree a → found₂ used tree a) : FindsAt p c m found₂ := by
  constructor
  · intro a c' run
    obtain ⟨used, eq, stop, grows, here⟩ := h.ok a c' run
    exact ⟨used, eq, stop, grows, le _ _ _ here⟩
  · exact h.error

/-- Another run is read into the same tree. -/
theorem within {tokens : List Token} (h : FindsAt p (.start tokens c.tree) m found) :
    FindsAt p c (within tokens m) fun used tree a => used = [] ∧ ∃ inner, found inner tree a := by
  constructor
  · intro a c' run
    obtain ⟨outer, d, got, run⟩ := reader_bind_ok run
    cases got
    obtain ⟨_, d, got, run⟩ := reader_bind_ok run
    cases got
    obtain ⟨_, d, got, run⟩ := reader_bind_ok run
    obtain ⟨_, _, set, run⟩ := reader_bind_ok run
    cases set
    cases run
    obtain ⟨inner, -, -, grows, here⟩ := h.ok a d got
    exact ⟨[], rfl, rfl, grows, rfl, inner, here⟩
  · intro e c' run
    rcases reader_bind_error run with run | ⟨outer, d, got, run⟩
    · cases run
    cases got
    rcases reader_bind_error run with run | ⟨_, d, got, run⟩
    · cases run
    cases got
    rcases reader_bind_error run with run | ⟨b, d, got, run⟩
    · exact h.error e c' run
    rcases reader_bind_error run with run | ⟨_, _, _, run⟩
    · cases run
    · cases run

/-- The run has to be over. -/
theorem expectEnd_bind {f : Unit → Reader β} (placed : c.Placed p)
    (h : c.rest = [] → FindsAt p c (f ()) found') : FindsAt p c (expectEnd >>= f) found' := by
  obtain ⟨rest, stop, tree⟩ := c
  cases rest with
  | nil => exact (h rfl).congr rfl
  | cons t rest =>
    have fails : FindsAt p ⟨t :: rest, stop, tree⟩ (MonadExcept.throw
        (.trailing (Cursor.describe ⟨t :: rest, stop, tree⟩) t.span)) found' := .throw placed.here
    exact fails.congr rfl

/-- What comes next is a symbol or not. -/
theorem peekSymbol?_bind {f : Option Symbol → Reader β}
    (ahead : ∀ symbol span line rest, c.rest = .leaf (.symbol symbol) span line :: rest →
      FindsAt p c (f (some symbol)) found')
    (other : FindsAt p c (f none) found') : FindsAt p c (peekSymbol? >>= f) found' := by
  obtain ⟨rest, stop, tree⟩ := c
  cases rest with
  | nil => exact other.congr rfl
  | cons t rest =>
    cases t with
    | group => exact other.congr rfl
    | leaf lexeme span line =>
      cases lexeme with
      | symbol symbol => exact (ahead symbol span line rest rfl).congr rfl
      | _ => exact other.congr rfl

theorem allocate_bind {s : Scope} {f : ScopeId → Reader β}
    (h : FindsAt p { c with tree := c.tree.push s } (f c.tree.count) found') :
    FindsAt p c (allocate s >>= f) found' := by
  constructor
  · intro b c' run
    obtain ⟨used, eq, stop, grows, found⟩ := h.ok b c' run
    exact ⟨used, eq, stop, (ScopeTree.grows_push _ _).trans grows, found⟩
  · intro e c' run
    exact h.error e c' run

end FindsAt

theorem finds_accept (symbol : Symbol) : Finds p (accept symbol) fun used _ taken =>
    if taken then ∃ span line, used = [.leaf (.symbol symbol) span line] else used = [] := by
  intro c placed
  refine .unread_bind ?_
  split
  · rename_i t rest eq
    split
    · rename_i here
      obtain ⟨span, line, rfl⟩ := leaf_of_isSymbol here
      exact .advance_bind eq (.pure (by simp))
    · exact .pure (by simp)
  · exact .pure (by simp)

theorem finds_expect (symbol : Symbol) (what : String) : Finds p (expect symbol what)
    fun used _ span => ∃ line, used = [.leaf (.symbol symbol) span line] := by
  intro c placed
  refine .get_bind (.bind placed (fun _ _ _ _ _ h => h) (finds_accept symbol c placed) ?_)
  intro taken used d eq _ _ here
  split
  · rename_i yes
    rw [if_pos yes] at here
    obtain ⟨span, line, rfl⟩ := here
    have : c.here = span := by simp [Cursor.here, eq, Token.span]
    exact .pure fun _ => ⟨line, by rw [this]; rfl⟩
  · exact .throw placed.here

theorem finds_expectName : Finds p expectName
    fun used _ found => ∃ line, used = [.leaf (.name found.1) found.2 line] := by
  intro c placed
  refine .get_bind ?_
  split
  · rename_i name span line rest eq
    exact .advance_bind eq (.pure ⟨line, rfl⟩)
  · exact .throw placed.here

theorem finds_takeUntil (symbol : Symbol) : Finds p (takeUntil symbol) fun used _ run => used = run := by
  intro c placed
  constructor
  · intro a c' run
    cases run
    exact ⟨_, List.takeWhile_append_dropWhile.symm, rfl, ScopeTree.grows_refl _, rfl⟩
  · intro e c' run
    cases run

theorem finds_ofExcept {result : Except ParseError α} {found : α → Prop}
    (ok : ∀ a, result = .ok a → found a) (error : ∀ e, result = .error e → p e.span) :
    Finds p (MonadExcept.ofExcept result) fun used _ a => used = [] ∧ found a := by
  intro c placed
  cases result with
  | ok a => exact .pure ⟨rfl, ok a rfl⟩
  | error e => exact .throw (error e rfl)

end Grammar

end WindowedClosures
