import WindowedClosures.Proofs.Grammar.Parsing
import WindowedClosures.Proofs.Scope.Occurrences

/-!
# Where the parts of a program stand

If tokens stand in a row between two offsets, so does every part of a program that they spell, and
each part stands inside the part that it belongs to: expressions, written types, and the bodies of
literals.
-/

namespace WindowedClosures

/-! ## Spans between offsets -/

/-- The first span covers the second. -/
def Span.Contains (outer inner : Span) : Prop := outer.start ≤ inner.start ∧ inner.stop ≤ outer.stop

/-- A span between two offsets, with both ends in a set of offsets. -/
structure Span.Between (q : Nat → Prop) (low high : Nat) (span : Span) : Prop where
  low : low ≤ span.start
  ordered : span.start ≤ span.stop
  high : span.stop ≤ high
  start : q span.start
  stop : q span.stop

section

variable {q : Nat → Prop} {low high low' high' : Nat} {a b c : Span}

theorem Span.Between.le (h : a.Between q low high) : low ≤ high :=
  Nat.le_trans h.low (Nat.le_trans h.ordered h.high)

theorem Span.Between.widen (h : a.Between q low high) (le : low' ≤ low) (le' : high ≤ high') :
    a.Between q low' high' :=
  ⟨Nat.le_trans le h.low, h.ordered, Nat.le_trans h.high le', h.start, h.stop⟩

theorem Span.Between.merge (ha : a.Between q low high) (hb : b.Between q low high) :
    (a.merge b).Between q low high := by
  have := ha.ordered
  refine ⟨Nat.le_min.mpr ⟨ha.low, hb.low⟩, ?_, Nat.max_le.mpr ⟨ha.high, hb.high⟩, ?_, ?_⟩
  · simp only [Span.merge]
    omega
  · simp only [Span.merge]
    rcases Nat.le_total a.start b.start with le | le
    · rw [Nat.min_eq_left le]
      exact ha.start
    · rw [Nat.min_eq_right le]
      exact hb.start
  · simp only [Span.merge]
    rcases Nat.le_total a.stop b.stop with le | le
    · rw [Nat.max_eq_right le]
      exact hb.stop
    · rw [Nat.max_eq_left le]
      exact ha.stop

/-- Of two spans on either side of an offset, the first starts and ends first. -/
theorem Span.Between.order {middle : Nat} (ha : a.Between q low middle)
    (hb : b.Between q middle high) : a.start ≤ b.start ∧ a.stop ≤ b.stop := by
  have := ha.ordered
  have := ha.high
  have := hb.low
  have := hb.ordered
  omega

theorem Span.Between.around {middle : Nat} (ha : a.Between q low middle)
    (hb : b.Between q middle high) : (a.merge b).Between q low high :=
  (ha.widen (Nat.le_refl _) hb.le).merge (hb.widen ha.le (Nat.le_refl _))

theorem Span.contains_self (a : Span) : a.Contains a := ⟨Nat.le_refl _, Nat.le_refl _⟩

theorem Span.contains_merge_left (a b : Span) : (a.merge b).Contains a :=
  ⟨Nat.min_le_left .., Nat.le_max_left ..⟩

theorem Span.contains_merge_right (a b : Span) : (a.merge b).Contains b :=
  ⟨Nat.min_le_right .., Nat.le_max_right ..⟩

/-- What stands between two spans is covered by both together. -/
theorem Span.contains_merge (h : a.start ≤ c.start) (h' : c.stop ≤ b.stop) : (a.merge b).Contains c :=
  ⟨Nat.le_trans (Nat.min_le_left ..) h, Nat.le_trans h' (Nat.le_max_right ..)⟩

theorem Span.Between.contained (h : a.Between q b.start b.stop) : b.Contains a := ⟨h.low, h.high⟩

end

/-! ## Rows of tokens -/

namespace Row

variable {q : Nat → Prop} {low high : Nat} {t : Token} {tokens : List Token}

theorem between (h : Row q low tokens high) (hm : t ∈ preorderAll tokens) :
    t.span.Between q low high := by
  obtain ⟨low, ordered, high⟩ := h.bounds t hm
  obtain ⟨start, stop⟩ := h.ends t hm
  exact ⟨low, Nat.le_of_lt ordered, high, start, stop⟩

theorem between_of_mem (h : Row q low tokens high) (hm : t ∈ tokens) : t.span.Between q low high := by
  refine h.between ?_
  obtain ⟨before, after, rfl⟩ := List.append_of_mem hm
  clear hm h
  induction before with
  | nil => simp [preorderAll, mem_preorder_self]
  | cons first before ih => simp [preorderAll, ih]

theorem head (h : Row q low (t :: tokens) high) : t.span.Between q low high :=
  h.between_of_mem (List.mem_cons_self ..)

theorem first (h : Row q low (t :: tokens) high) : t.span.Between q low t.span.stop :=
  ⟨h.head.low, h.head.ordered, Nat.le_refl _, h.head.start, h.head.stop⟩

/-- What follows a token starts behind it. -/
theorem behind (h : Row q low (t :: tokens) high) : Row q t.span.stop tokens high := by
  cases h with
  | leaf _ _ _ _ rest => exact rest
  | group _ _ _ _ _ rest => exact rest

theorem tail (h : Row q low (t :: tokens) high) : Row q low tokens high := by
  exact h.behind.lower (Nat.le_trans h.head.low h.head.ordered)

/-- What is grouped stands in the group. -/
theorem inside {bracket : Bracket} {children : List Token} {span : Span} {line : Nat}
    (h : Row q low (.group bracket children span line :: tokens) high) :
    Row q span.start children span.stop := by
  cases h with
  | group _ _ _ eq inner _ => exact (inner.lower (Nat.le_succ _)).raise (eq ▸ Nat.le_succ _)

/-- Tokens on either side of another lie in the same row. -/
theorem parts {front : List Token} (h : Row q low (front ++ t :: tokens) high) :
    Row q low front high ∧ Row q low tokens high := by
  obtain ⟨middle, first, second⟩ := h.split
  exact ⟨first.raise second.le, second.tail.lower first.le⟩

/-- A row starts with its first token. -/
theorem from_head (h : Row q low (t :: tokens) high) : Row q t.span.start (t :: tokens) high := by
  cases h with
  | leaf _ ordered hs ht rest => exact .leaf (Nat.le_refl _) ordered hs ht rest
  | group _ hs ht eq inner rest => exact .group (Nat.le_refl _) hs ht eq inner rest

/-- A row ends with its last token. -/
theorem to_last (h : Row q low tokens high) (last : tokens.getLast? = some t) :
    Row q low tokens t.span.stop := by
  induction h with
  | nil => cases last
  | @leaf low high lexeme span line rest start ordered hs ht _ ih =>
    cases rest with
    | nil =>
      cases last
      exact .leaf start ordered hs ht (.nil (Nat.le_refl _))
    | cons next rest => exact .leaf start ordered hs ht (ih (by simpa using last))
  | @group low high last' bracket span line children rest start hs ht eq inner _ _ ih =>
    cases rest with
    | nil =>
      cases last
      exact .group start hs ht eq inner (.nil (Nat.le_refl _))
    | cons next rest => exact .group start hs ht eq inner (ih (by simpa using last))

/-- A row lies in the span from its first to its last token. -/
theorem spanOf? (h : Row q low tokens high) {span : Span} (eq : Token.spanOf? tokens = some span) :
    span.Between q low high ∧ Row q span.start tokens span.stop := by
  unfold Token.spanOf? at eq
  split at eq
  · rename_i first last hf hl
    cases eq
    have between := (h.between_of_mem (List.mem_of_head? hf)).merge
      (h.between_of_mem (List.mem_of_getLast? hl))
    obtain ⟨rest, rfl⟩ := List.head?_eq_some_iff.mp hf
    have row := h.from_head.to_last hl
    refine ⟨between, (row.lower (Nat.min_le_left ..)).raise (Nat.le_max_right ..)⟩
  · cases eq

/-- The same of a row from the start of a text, where it may be empty. -/
theorem spanOf (h : Row q 0 tokens high) (zero : q 0) :
    ((Token.spanOf? tokens).getD .zero).Between q 0 high ∧
      Row q ((Token.spanOf? tokens).getD .zero).start tokens ((Token.spanOf? tokens).getD .zero).stop := by
  cases eq : Token.spanOf? tokens with
  | some span => exact h.spanOf? eq
  | none =>
    have empty : tokens = [] := by
      cases tokens with
      | nil => rfl
      | cons t rest => simp [Token.spanOf?, List.getLast?_eq_getLast_of_ne_nil] at eq
    subst empty
    exact ⟨⟨Nat.le_refl _, Nat.le_refl _, Nat.zero_le _, zero, zero⟩, .nil (Nat.le_refl _)⟩

theorem strip (h : Row q low tokens high) : Row q low (Token.stripComments tokens) high := by
  induction h with
  | nil le => exact .nil le
  | leaf start ordered hs ht _ ih =>
    rw [Token.stripComments]
    split
    · exact ih.lower (by omega)
    · exact .leaf start ordered hs ht ih
  | group start hs ht eq _ _ inner_ih ih =>
    rw [Token.stripComments]
    split
    · rename_i comment
      cases comment
    · exact .group start hs ht eq inner_ih ih

end Row

/-! ## Types -/

/-- Every type inside a type is well placed and stands in the one it belongs to. -/
def TypeExpr.Sits (q : Nat → Prop) (low high : Nat) (t : TypeExpr) : Prop :=
  ∀ n ∈ t.nodes, n.span.Between q low high ∧ ∀ part ∈ n.parts, n.span.Contains part.span

theorem TypeExpr.sits_iff {q : Nat → Prop} {low high : Nat} {t : TypeExpr} : t.Sits q low high ↔
    t.span.Between q low high ∧ (∀ part ∈ t.parts, t.span.Contains part.span) ∧
      ∀ part ∈ t.parts, part.Sits q low high := by
  rw [Sits, nodes_eq]
  simp only [List.forall_mem_cons, List.mem_flatMap, forall_exists_index, and_imp, and_assoc, Sits]
  constructor
  · exact fun ⟨a, b, c⟩ => ⟨a, b, fun part hm n hn => c n part hm hn⟩
  · exact fun ⟨a, b, c⟩ => ⟨a, b, fun n part hm hn => c part hm n hn⟩

theorem TypeExpr.Sits.widen {q : Nat → Prop} {low high low' high' : Nat} {t : TypeExpr}
    (h : t.Sits q low high) (le : low' ≤ low) (le' : high ≤ high') : t.Sits q low' high' :=
  fun n hn => ⟨(h n hn).1.widen le le', (h n hn).2⟩

/-- A type without parts is where its tokens are. -/
theorem TypeExpr.sits_atom {q : Nat → Prop} {low high : Nat} {t : TypeExpr}
    (between : t.span.Between q low high) (plain : t.parts = []) : t.Sits q low high :=
  sits_iff.mpr ⟨between, by simp [plain], by simp [plain]⟩

/-- The types that a part of a type holds. -/
def TypePhrase.types : TypePhrase → List TypeExpr
  | .simple t => [t]
  | .type t => [t]
  | .field f => [f.value]
  | .fields fs => fs.map (·.value)

theorem TypeSpells.sits {q : Nat → Prop} {tokens : List Token} {phrase : TypePhrase}
    (h : TypeSpells tokens phrase) {low high : Nat} (row : Row q low tokens high) :
    ∀ t ∈ phrase.types, t.Sits q low high := by
  induction h generalizing low high with
  | named =>
    simp only [TypePhrase.types, List.forall_mem_singleton]
    exact TypeExpr.sits_atom row.head rfl
  | @array name here there line line' count =>
    have first : here.Between q low high := row.head
    have second : there.Between q low high := row.tail.head
    simp only [TypePhrase.types, List.forall_mem_singleton]
    refine TypeExpr.sits_iff.mpr ⟨first.merge second, ?_, ?_⟩
    · simpa [TypeExpr.parts, TypeExpr.span] using Span.contains_merge_left here there
    · simpa [TypeExpr.parts] using TypeExpr.sits_atom (t := .named name here) first rfl
  | @pointer run inner here span line _ whole ih =>
    obtain ⟨between, tight⟩ := row.spanOf? whole
    obtain ⟨middle, front, back⟩ := row.split
    obtain ⟨middle', front', back'⟩ := tight.split
    simp only [TypePhrase.types, List.forall_mem_singleton] at ih ⊢
    refine TypeExpr.sits_iff.mpr ⟨between, ?_, ?_⟩
    · have inside := ((ih front').widen (Nat.le_refl _) back'.le) inner inner.mem_nodes_self
      simpa [TypeExpr.parts, TypeExpr.span] using inside.1.contained
    · simpa [TypeExpr.parts] using (ih front).widen (Nat.le_refl _) back.le
  | unit =>
    simp only [TypePhrase.types, List.forall_mem_singleton]
    exact TypeExpr.sits_atom row.head rfl
  | @tuple children fields span line _ ih =>
    have between : span.Between q low high := row.head
    simp only [TypePhrase.types, List.forall_mem_singleton] at ih ⊢
    cases row with
    | group start hs ht eq inner rest =>
      refine TypeExpr.sits_iff.mpr ⟨between, ?_, ?_⟩
      · intro part hm
        have inside := ih inner part hm
        have := (inside part part.mem_nodes_self).1
        exact (this.widen (Nat.le_succ _) (by omega)).contained
      · intro part hm
        have := between.high
        exact (ih inner part hm).widen (by omega) (by omega)
  | ofSimple _ ih => exact ih row
  | @function run rest input output here line _ _ ih ih' =>
    obtain ⟨front, back⟩ := row.parts
    simp only [TypePhrase.types, List.forall_mem_singleton] at ih ih' ⊢
    have left := (ih front _ input.mem_nodes_self).1
    have right := (ih' back _ output.mem_nodes_self).1
    refine TypeExpr.sits_iff.mpr ⟨left.merge right, ?_, ?_⟩
    · simpa [TypeExpr.parts] using
        ⟨Span.contains_merge_left input.span output.span, Span.contains_merge_right _ _⟩
    · simpa [TypeExpr.parts] using ⟨ih front, ih' back⟩
  | plainField _ ih => exact ih row
  | labelledField _ ih => exact ih row.tail.tail
  | lastField _ ih => exact ih row
  | moreFields _ _ ih ih' =>
    obtain ⟨front, back⟩ := row.parts
    simp only [TypePhrase.types, List.forall_mem_singleton] at ih
    simp only [TypePhrase.types, List.map_cons, List.forall_mem_cons]
    exact ⟨ih front, ih' back⟩

/-! ## Expressions -/

/-- A scope stands between two offsets and holds its statements. -/
structure Scope.Placed (q : Nat → Prop) (low high : Nat) (scope : Scope) : Prop where
  between : scope.span.Between q low high
  holds : ∀ e ∈ scope.body, scope.span.Contains e.span

/-- A node stands between two offsets and holds its parts, the types written in it, and the body of
the literal that it is. -/
structure Expr.Placed (tree : ScopeTree) (q : Nat → Prop) (low high : Nat) (n : Expr) : Prop where
  between : n.span.Between q low high
  parts : ∀ part ∈ n.parts, n.span.Contains part.span
  types : ∀ t ∈ n.annotations, n.span.Contains t.span ∧ t.Sits q low high
  body : ∀ literal, n.asFunction? = some literal →
    n.span.Contains (tree.scope literal.scope).span ∧ (tree.scope literal.scope).Placed q low high

/-- All nodes of the statements, those in bodies of literals included, are well placed. -/
def SitsAll (tree : ScopeTree) (q : Nat → Prop) (low high : Nat) (es : List Expr) : Prop :=
  ∀ n, tree.Occurs n es → n.Placed tree q low high

section

variable {tree : ScopeTree} {q : Nat → Prop} {low high low' high' : Nat} {e : Expr} {es : List Expr}

theorem SitsAll.widen (h : SitsAll tree q low high es) (le : low' ≤ low) (le' : high ≤ high') :
    SitsAll tree q low' high' es := by
  intro n hn
  obtain ⟨between, parts, types, body⟩ := h n hn
  exact ⟨between.widen le le', parts, fun t ht => ⟨(types t ht).1, (types t ht).2.widen le le'⟩,
    fun literal eq => ⟨(body literal eq).1, (body literal eq).2.between.widen le le',
      (body literal eq).2.holds⟩⟩

theorem SitsAll.head (h : SitsAll tree q low high (e :: es)) : e.span.Between q low high :=
  (h e .here).between

theorem SitsAll.mem (h : SitsAll tree q low high es) (hm : e ∈ es) : e.span.Between q low high :=
  (h e (ScopeTree.Occurs.mem .here hm)).between

theorem sitsAll_cons : SitsAll tree q low high (e :: es) ↔
    SitsAll tree q low high [e] ∧ SitsAll tree q low high es := by
  cases es with
  | nil => simp [SitsAll]
  | cons next rest => simp [SitsAll, or_imp, forall_and]

/-- A node with its parts, and with the body if it is a literal. -/
theorem sitsAll_singleton (between : e.span.Between q low high)
    (parts : SitsAll tree q low high e.parts) (held : ∀ part ∈ e.parts, e.span.Contains part.span)
    (types : ∀ t ∈ e.annotations, e.span.Contains t.span ∧ t.Sits q low high)
    (body : ∀ literal, e.asFunction? = some literal →
      (e.span.Contains (tree.scope literal.scope).span ∧
        (tree.scope literal.scope).Placed q low high) ∧
          SitsAll tree q low high (tree.scope literal.scope).body) :
    SitsAll tree q low high [e] := by
  intro n hn
  rw [ScopeTree.occurs_cons_iff] at hn
  rcases hn with rfl | hn | ⟨literal, span, rfl, hn⟩ | hn
  · exact ⟨between, held, types, fun literal eq => (body literal eq).1⟩
  · exact parts n hn
  · exact (body literal rfl).2 n hn
  · cases hn

/-- A binary node over the span of both operands. -/
theorem sitsAll_ofOperands {op : BinaryOp} {lhs rhs : Expr} (left : SitsAll tree q low high [lhs])
    (right : SitsAll tree q low high [rhs]) : SitsAll tree q low high [.ofOperands op lhs rhs] := by
  refine sitsAll_singleton (left.head.merge right.head) ?_ ?_ (by simp [Expr.ofOperands, Expr.annotations])
    (by simp [Expr.ofOperands, Expr.asFunction?])
  · exact sitsAll_cons.mpr ⟨left, right⟩
  · simpa [Expr.ofOperands, Expr.parts, Expr.span] using
      ⟨Span.contains_merge_left lhs.span rhs.span, Span.contains_merge_right lhs.span rhs.span⟩

/-- A node without parts is where its one token is. -/
theorem sitsAll_atom {t : Token} {rest : List Token} (row : Row q low (t :: rest) high)
    (span : e.span = t.span) (parts : e.parts = []) (types : e.annotations = [])
    (plain : e.asFunction? = none) : SitsAll tree q low high [e] := by
  refine sitsAll_singleton (span ▸ row.head) ?_ ?_ ?_ ?_
  · simp [parts, SitsAll]
  · simp [parts]
  · simp [types]
  · simp [plain]

/-- A literal has the span of its body. -/
theorem sitsAll_function {id : ScopeId} {labels : List String} {span : Span}
    (between : span.Between q low high) (scope : tree.scope id = .fresh .literal labels es span)
    (inside : SitsAll tree q low high es) (holds : ∀ e ∈ es, span.Contains e.span) :
    SitsAll tree q low high [.function ⟨0, labels, id⟩ span] := by
  refine sitsAll_singleton between (by simp [Expr.parts, SitsAll]) (by simp [Expr.parts])
    (by simp [Expr.annotations]) ?_
  intro literal eq
  cases eq
  dsimp only
  rw [scope]
  exact ⟨⟨span.contains_self, between, holds⟩, inside⟩

/-- An element that is selected stands between its array and the closing bracket. -/
theorem sitsAll_index {array position : Expr} {closing : Span} {middle middle' : Nat}
    (left : SitsAll tree q low middle [array]) (right : SitsAll tree q middle middle' [position])
    (last : closing.Between q middle' high) :
    SitsAll tree q low high [.binary .index array position (array.span.merge closing)] := by
  refine sitsAll_singleton (left.head.around (last.widen right.head.le (Nat.le_refl _))) ?_ ?_
    (by simp [Expr.annotations]) (by simp [Expr.asFunction?])
  · exact sitsAll_cons.mpr ⟨left.widen (Nat.le_refl _) (Nat.le_trans right.head.le last.le),
      right.widen left.head.le last.le⟩
  · simp only [Expr.parts, List.forall_mem_cons]
    refine ⟨Span.contains_merge_left .., ?_, by simp⟩
    exact Span.contains_merge (left.head.order right.head).1 (right.head.order last).2

end

theorem Spells.sits {tree : ScopeTree} {q : Nat → Prop} {tokens : List Token} {phrase : Phrase}
    (h : Spells tree tokens phrase) {low high : Nat} (row : Row q low tokens high) :
    SitsAll tree q low high phrase.exprs := by
  induction h generalizing low high with
  | int | hex | float | text | name | unit => exact sitsAll_atom row rfl rfl rfl rfl
  | @tuple children fields span line _ ih =>
    have between : span.Between q low high := row.head
    cases row with
    | group start hs ht eq inner rest =>
      have inside := ih inner
      have := between.high
      refine sitsAll_singleton between (inside.widen (by omega) (by omega)) ?_
        (by simp [Expr.annotations]) (by simp [Expr.asFunction?])
      intro part hm
      exact ((inside.mem hm).widen (Nat.le_succ _) (by omega)).contained
  | @block head children labels body id here there line line' _ _ scope ih =>
    have row : Row q low ((.leaf (.symbol .backslash) here line :: head) ++ [_]) high := row
    obtain ⟨middle, front, back⟩ := row.split
    have first : here.Between q low middle := front.head
    have last : there.Between q middle high := back.head
    have inside := ih back.inside
    refine sitsAll_function (first.around last) scope
      (inside.widen (Nat.le_trans front.le last.low) last.high) fun e hm => ?_
    have here_first := (first.order last).1
    exact Span.contains_merge (Nat.le_trans here_first (inside.mem hm).low) (inside.mem hm).high
  | @lambda head run labels e id here line _ _ scope ih =>
    have first : here.Between q low high := row.head
    obtain ⟨middle, front, back⟩ := row.tail.split
    have inside := ih (back.lower front.le)
    refine sitsAll_function (first.merge inside.head) scope inside fun e hm => ?_
    rw [List.mem_singleton.mp hm]
    exact Span.contains_merge_right ..
  | ofPrimary _ ih => exact ih row
  | call _ _ ih ih' =>
    obtain ⟨middle, front, back⟩ := row.split
    exact sitsAll_ofOperands (ih (front.raise back.le)) (ih' (back.lower front.le))
  | access _ ih =>
    obtain ⟨front, back⟩ := row.parts
    exact sitsAll_ofOperands (ih front) (sitsAll_atom back rfl rfl rfl rfl)
  | @index run inner e position here there line line' _ _ ih ih' =>
    obtain ⟨middle, front, back⟩ := row.split
    obtain ⟨middle', inner, last⟩ := back.tail.split
    exact sitsAll_index (ih front) (ih' inner) last.head
  | ofSuffixed _ ih => exact ih row
  | @unary run symbol op e here line _ _ ih =>
    have first : here.Between q low high := row.head
    have operand := ih row.tail
    refine sitsAll_singleton (first.merge operand.head) operand ?_ (by simp [Expr.annotations])
      (by simp [Expr.asFunction?])
    simpa [Expr.parts, Expr.span] using Span.contains_merge_right here e.span
  | ofOperand _ ih => exact ih row
  | operator _ _ _ ih ih' =>
    obtain ⟨front, back⟩ := row.parts
    exact sitsAll_ofOperands (ih front) (ih' back)
  | ofOperators _ ih => exact ih row
  | @assign run e name here there line line' _ ih =>
    exact sitsAll_ofOperands (sitsAll_atom row rfl rfl rfl rfl) (ih row.tail.tail)
  | ofExpression _ ih => exact ih row
  | @varDecl types run declared type e here named colon equal line line₁ line₂ line₃ typed _ ih =>
    have first : here.Between q low here.stop := row.first
    obtain ⟨middle, front, back⟩ := row.behind.tail.tail.split
    have written := typed.sits front type (List.mem_singleton_self _)
    have value := ih back.tail
    have order := first.ordered
    refine sitsAll_singleton (first.around (value.head.widen front.le (Nat.le_refl _))) ?_ ?_ ?_
      (by simp [Expr.asFunction?])
    · exact value.widen (Nat.le_trans first.le front.le) (Nat.le_refl _)
    · simpa [Expr.parts, Expr.span] using Span.contains_merge_right here e.span
    · simp only [Expr.annotations, List.forall_mem_singleton]
      have whole := (written type type.mem_nodes_self).1
      -- the type stands between the sign in front and the value
      refine ⟨Span.contains_merge (first.order whole).1 (whole.order value.head).2, ?_⟩
      exact written.widen (Nat.le_trans first.low order) back.le
  | @typeDecl types declared type here named equal line line₁ line₂ typed =>
    have first : here.Between q low high := row.head
    have written := typed.sits row.tail.tail.tail type (List.mem_singleton_self _)
    refine sitsAll_singleton (first.merge (written type type.mem_nodes_self).1)
      (by simp [Expr.parts, SitsAll]) (by simp [Expr.parts]) ?_ (by simp [Expr.asFunction?])
    simpa [Expr.annotations, Expr.span] using ⟨Span.contains_merge_right here type.span, written⟩
  | noStatement => simp [Phrase.exprs, SitsAll]
  | lastStatement _ ih => exact ih row
  | moreStatements _ _ ih ih' =>
    obtain ⟨front, back⟩ := row.parts
    exact sitsAll_cons.mpr ⟨ih front, ih' back⟩
  | plainField _ ih => exact ih row
  | labelledField _ ih => exact ih row.tail.tail
  | lastField _ ih => exact ih row
  | moreFields _ _ ih ih' =>
    obtain ⟨front, back⟩ := row.parts
    exact sitsAll_cons.mpr ⟨ih front, ih' back⟩

/-! ## Programs -/

/-- Everything in a program is well placed. -/
structure ScopeTree.Placed (q : Nat → Prop) (high : Nat) (tree : ScopeTree) : Prop where
  scopes : ∀ id : ScopeId, (tree.scope id).Placed q 0 high
  nodes : ∀ id : ScopeId, ∀ e ∈ (tree.scope id).body, ∀ n ∈ e.nodes, n.Placed tree q 0 high

/-- The program is as wide as its tokens. -/
theorem Grammar.readProgram_root {tokens : List Token} {tree : ScopeTree} {q : Nat → Prop} {high : Nat}
    (h : readProgram tokens = .ok tree) (row : Row q 0 tokens high) (zero : q 0) :
    tree.root.Placed q 0 high := by
  obtain ⟨spells, span⟩ := readProgram_spells h
  obtain ⟨between, tight⟩ := row.spanOf zero
  rw [← span] at between tight
  exact ⟨between, fun e hm => ((spells.sits tight).mem hm).contained⟩

theorem Grammar.readProgram_placed {tokens : List Token} {tree : ScopeTree} {q : Nat → Prop} {high : Nat}
    (h : readProgram tokens = .ok tree) (row : Row q 0 tokens high) (zero : q 0) :
    tree.Placed q high := by
  obtain ⟨ids, below, perm⟩ := (readProgram_read h).owns
  have formed := below.formed perm
  have nodes (id : ScopeId) (e : Expr) (hm : e ∈ (tree.scope id).body) (n : Expr) (node : n ∈ e.nodes) :
      n.Placed tree q 0 high :=
    (readProgram_spells h).1.sits row n (formed.occurs hm node)
  refine ⟨fun id => ?_, nodes⟩
  by_cases lt : id < tree.count
  · rcases (Relation.ReflTransGen.cases_tail (formed.reached id lt)) with eq | ⟨outer, -, owns⟩
    · rw [eq]
      exact readProgram_root h row zero
    · obtain ⟨e, hm, literal, span, node, rfl⟩ := owns.node
      exact ((nodes outer e hm _ node).body literal rfl).2
  · rw [ScopeTree.scope_of_count_le tree (Nat.le_of_not_lt lt)]
    exact ⟨⟨Nat.le_refl _, Nat.le_refl _, Nat.zero_le _, zero, zero⟩, fun e hm => by cases hm⟩

end WindowedClosures
