import WindowedClosures.Proofs.Token.Grouping
import WindowedClosures.Proofs.Token.Scanning

/-!
# Tokens and the text they stand for

Where the tokens of a source text stand in it. Each token, at every depth, covers the piece of the
text that spells it; in pre-order the tokens move forward and are apart or one inside the other;
and each character that is no white space belongs to one token. `Row` is the form in which the
order of tokens is passed on: tokens one behind the other between two offsets.
-/

namespace WindowedClosures

/-! ## Offsets -/

theorem byteLength_ofList (text : List Char) : (String.ofList text).utf8ByteSize = byteLength text := by
  induction text with
  | nil => rfl
  | cons c rest ih =>
    rw [String.ofList_cons, String.utf8ByteSize_append, String.utf8ByteSize_singleton, ih,
      byteLength_cons]

theorem byteLength_toList (source : String) : byteLength source.toList = source.utf8ByteSize := by
  rw [← byteLength_ofList, String.ofList_toList]

theorem eq_nil_of_byteLength {text : List Char} (h : byteLength text = 0) : text = [] := by
  cases text with
  | nil => rfl
  | cons c rest =>
    have := c.utf8Size_pos
    rw [byteLength_cons] at h
    omega

theorem byteLength_pos {text : List Char} (h : text ≠ []) : 0 < byteLength text :=
  Nat.pos_of_ne_zero fun zero => h (eq_nil_of_byteLength zero)

/-- Of two beginnings of a text, the one with fewer bytes begins the other. -/
theorem append_of_byteLength_le {a b c d : List Char} (h : a ++ b = c ++ d)
    (le : byteLength a ≤ byteLength c) : ∃ between, c = a ++ between := by
  rcases List.append_eq_append_iff.mp h with ⟨between, eq, -⟩ | ⟨between, rfl, -⟩
  · exact ⟨between, eq⟩
  · rw [byteLength_append] at le
    exact ⟨[], by rw [eq_nil_of_byteLength (by omega : byteLength between = 0)]; simp⟩

theorem eq_of_byteLength_eq {a b c d : List Char} (h : a ++ b = c ++ d)
    (same : byteLength a = byteLength c) : a = c := by
  obtain ⟨between, rfl⟩ := append_of_byteLength_le h (Nat.le_of_eq same)
  rw [byteLength_append] at same
  rw [eq_nil_of_byteLength (by omega : byteLength between = 0), List.append_nil]

/-- A boundary between two characters of a text, or one of its ends. -/
def IsBoundary (source : String) (offset : Nat) : Prop := String.Pos.Raw.IsValid source ⟨offset⟩

theorem isBoundary_byteLength {source : String} {before after : List Char}
    (h : source.toList = before ++ after) : IsBoundary source (byteLength before) := by
  refine String.Pos.Raw.isValid_iff_exists_append.mpr
    ⟨String.ofList before, String.ofList after, ?_, ?_⟩
  · rw [← String.ofList_append, ← h, String.ofList_toList]
  · rw [← byteLength_ofList]
    rfl

theorem IsBoundary.le {source : String} {offset : Nat} (h : IsBoundary source offset) :
    offset ≤ source.utf8ByteSize := by
  obtain ⟨before, after, rfl, eq⟩ := String.Pos.Raw.isValid_iff_exists_append.mp h
  cases eq
  rw [String.utf8ByteSize_append]
  exact Nat.le_add_right _ _

/-- A span that starts and stops on boundaries of a text. -/
structure Span.Within (span : Span) (source : String) : Prop where
  ordered : span.start ≤ span.stop
  inside : span.stop ≤ source.utf8ByteSize
  start : IsBoundary source span.start
  stop : IsBoundary source span.stop

theorem Span.Within.of_boundaries {span : Span} {source : String} (ordered : span.start ≤ span.stop)
    (start : IsBoundary source span.start) (stop : IsBoundary source span.stop) :
    span.Within source :=
  ⟨ordered, stop.le, start, stop⟩

theorem Span.Covers.within {span : Span} {source : String} (h : span.Covers 0 source.toList) :
    span.Within source := by
  obtain ⟨before, piece, after, eq, rfl⟩ := h
  simp only [Nat.zero_add]
  refine .of_boundaries ?_ (isBoundary_byteLength (eq.trans (List.append_assoc _ _ _)))
    (isBoundary_byteLength eq)
  simp

/-! ## Tokens in a row -/

mutual

/-- A token and all tokens inside it, a group before what it holds. -/
def Token.preorder : Token → List Token
  | .leaf lexeme span line => [.leaf lexeme span line]
  | .group bracket children span line =>
    .group bracket children span line :: preorderAll children

def preorderAll : List Token → List Token
  | [] => []
  | t :: rest => t.preorder ++ preorderAll rest

end


theorem mem_preorder_self (t : Token) : t ∈ t.preorder := by
  cases t <;> simp [Token.preorder]

theorem mem_preorderAll {tokens : List Token} {t : Token} (h : t ∈ tokens) : t ∈ preorderAll tokens := by
  induction tokens with
  | nil => cases h
  | cons first rest ih =>
    rw [preorderAll, List.mem_append]
    rcases List.mem_cons.mp h with rfl | h
    · exact .inl (mem_preorder_self t)
    · exact .inr (ih h)

/-- Tokens one behind the other between two offsets, with their ends in a set of offsets. What a
group holds stands between its brackets, which take one byte each. -/
inductive Row (p : Nat → Prop) : Nat → List Token → Nat → Prop
  | nil {low high : Nat} : low ≤ high → Row p low [] high
  | leaf {low high : Nat} {lexeme : Lexeme} {span : Span} {line : Nat} {rest : List Token} :
      low ≤ span.start → span.start < span.stop → p span.start → p span.stop →
      Row p span.stop rest high → Row p low (.leaf lexeme span line :: rest) high
  | group {low high last : Nat} {bracket : Bracket} {span : Span} {line : Nat}
      {children rest : List Token} :
      low ≤ span.start → p span.start → p span.stop → span.stop = last + 1 →
      Row p (span.start + 1) children last → Row p span.stop rest high →
      Row p low (.group bracket children span line :: rest) high

namespace Row

variable {p : Nat → Prop} {low middle high : Nat} {front tokens : List Token}

theorem le (h : Row p low tokens high) : low ≤ high := by
  induction h with
  | nil h => exact h
  | leaf low ordered _ _ _ ih => omega
  | group low _ _ eq _ _ inner_ih rest_ih => omega

theorem lower (h : Row p middle tokens high) (le : low ≤ middle) : Row p low tokens high := by
  cases h with
  | nil h => exact .nil (Nat.le_trans le h)
  | leaf start ordered hs ht rest => exact .leaf (Nat.le_trans le start) ordered hs ht rest
  | group start hs ht eq inner rest => exact .group (Nat.le_trans le start) hs ht eq inner rest

theorem raise (h : Row p low tokens middle) (le : middle ≤ high) : Row p low tokens high := by
  induction h with
  | nil h => exact .nil (Nat.le_trans h le)
  | leaf start ordered hs ht _ ih => exact .leaf start ordered hs ht (ih le)
  | group start hs ht eq inner _ _ ih => exact .group start hs ht eq inner (ih le)

theorem split (h : Row p low (front ++ tokens) high) :
    ∃ middle, Row p low front middle ∧ Row p middle tokens high := by
  induction front generalizing low with
  | nil => exact ⟨low, .nil (Nat.le_refl _), h⟩
  | cons t rest ih =>
    cases h with
    | leaf start ordered hs ht rest =>
      obtain ⟨middle, first, second⟩ := ih rest
      exact ⟨middle, .leaf start ordered hs ht first, second⟩
    | group start hs ht eq inner rest =>
      obtain ⟨middle, first, second⟩ := ih rest
      exact ⟨middle, .group start hs ht eq inner first, second⟩

theorem bounds (h : Row p low tokens high) : ∀ t ∈ preorderAll tokens,
    low ≤ t.span.start ∧ t.span.start < t.span.stop ∧ t.span.stop ≤ high := by
  induction h with
  | nil => simp [preorderAll]
  | @leaf low high lexeme span line rest start ordered _ _ row ih =>
    intro t ht
    simp only [preorderAll, Token.preorder, List.singleton_append, List.mem_cons] at ht
    rcases ht with rfl | later
    · exact ⟨start, ordered, row.le⟩
    · have := ih t later
      exact ⟨by omega, this.2⟩
  | @group low high last bracket span line children rest start _ _ eq inner row inner_ih ih =>
    intro t ht
    have inside := inner.le
    have behind := row.le
    simp only [preorderAll, Token.preorder, List.cons_append, List.mem_cons, List.mem_append] at ht
    rcases ht with rfl | within | later
    · exact ⟨start, (by omega : span.start < span.stop), behind⟩
    · have := inner_ih t within
      exact ⟨by omega, this.2.1, by omega⟩
    · have := ih t later
      exact ⟨by omega, this.2⟩

theorem le_of_append (h : Row p low (front ++ tokens) high) {t u : Token} (ht : t ∈ front)
    (hu : u ∈ tokens) : t.span.stop ≤ u.span.start := by
  obtain ⟨middle, first, second⟩ := h.split
  exact Nat.le_trans (first.bounds t (mem_preorderAll ht)).2.2
    (second.bounds u (mem_preorderAll hu)).1

theorem ends (h : Row p low tokens high) : ∀ t ∈ preorderAll tokens, p t.span.start ∧ p t.span.stop := by
  induction h with
  | nil => simp [preorderAll]
  | leaf _ _ hs ht _ ih =>
    simp only [preorderAll, Token.preorder, List.singleton_append, List.forall_mem_cons]
    exact ⟨⟨hs, ht⟩, ih⟩
  | group _ hs ht _ _ _ inner_ih ih =>
    simp only [preorderAll, Token.preorder, List.cons_append, List.forall_mem_cons,
      List.forall_mem_append]
    exact ⟨⟨hs, ht⟩, inner_ih, ih⟩

end Row

/-- A token that comes later starts later, and stands behind the other or inside it. -/
def Token.Precedes (a b : Token) : Prop :=
  a.span.start < b.span.start ∧ (a.span.stop ≤ b.span.start ∨ b.span.stop < a.span.stop)

theorem Row.pairwise {p : Nat → Prop} {low high : Nat} {tokens : List Token}
    (h : Row p low tokens high) : (preorderAll tokens).Pairwise Token.Precedes := by
  induction h with
  | nil => exact .nil
  | @leaf low high lexeme span line rest start ordered _ _ row ih =>
    simp only [preorderAll, Token.preorder, List.singleton_append, List.pairwise_cons]
    refine ⟨fun b hb => ?_, ih⟩
    have := row.bounds b hb
    exact ⟨Nat.lt_of_lt_of_le ordered this.1, .inl this.1⟩
  | @group low high last bracket span line children rest start _ _ eq inner row inner_ih ih =>
    have inside := inner.le
    simp only [preorderAll, Token.preorder, List.cons_append, List.pairwise_cons, List.mem_append,
      List.pairwise_append]
    refine ⟨fun b hb => ?_, inner_ih, ih, fun a ha b hb => ?_⟩
    · rcases hb with within | later
      · have := inner.bounds b within
        exact ⟨(by omega : span.start < b.span.start), .inr (by omega : b.span.stop < span.stop)⟩
      · have := row.bounds b later
        exact ⟨(by omega : span.start < b.span.start), .inl this.1⟩
    · have first := inner.bounds a ha
      have second := row.bounds b hb
      exact ⟨by omega, .inl (by omega)⟩

/-- At each offset at most one token starts. -/
theorem Row.eq_of_start {p : Nat → Prop} {low high : Nat} {tokens : List Token}
    (h : Row p low tokens high) {t u : Token} (ht : t ∈ preorderAll tokens)
    (hu : u ∈ preorderAll tokens) (same : t.span.start = u.span.start) : t = u := by
  obtain ⟨i, hi, rfl⟩ := List.getElem_of_mem ht
  obtain ⟨j, hj, rfl⟩ := List.getElem_of_mem hu
  have ordered := List.pairwise_iff_getElem.mp h.pairwise
  rcases Nat.lt_trichotomy i j with lt | rfl | lt
  · have := (ordered i j hi hj lt).1
    omega
  · rfl
  · have := (ordered j i hj hi lt).1
    omega

theorem Lexeme.Spelled.ne_nil {lexeme : Lexeme} {written behind : List Char}
    (h : lexeme.Spelled written behind) : written ≠ [] := by
  cases h with
  | text | comment | name => simp
  | number formed =>
    obtain ⟨c, rest, eq, -⟩ := NumberText.written_cons formed
    simp [eq]
  | symbol spelled => cases spelled <;> simp

theorem Lexeme.Spelled.byteLength_pos {lexeme : Lexeme} {written behind : List Char}
    (h : lexeme.Spelled written behind) : 0 < byteLength written :=
  WindowedClosures.byteLength_pos h.ne_nil

/-- A bracket is written by its one character, of one byte. -/
theorem Lexeme.Spelled.bracket {symbol : Symbol} {bracket : Bracket} {written behind : List Char}
    (h : (Lexeme.symbol symbol).Spelled written behind)
    (is : symbol = .opening bracket ∨ symbol = .closing bracket) :
    ∃ c, written = [c] ∧ Symbol.ofChar? c = some symbol ∧ c.utf8Size = 1 := by
  cases h with
  | @number n _ _ _ _ value =>
    cases n with
    | hex digits | int digits =>
      simp only [NumberText.lexeme] at value
      split at value <;> cases value
    | float whole fraction => cases value
  | symbol spelled =>
    cases spelled with
    | @single c _ hc =>
      refine ⟨c, rfl, hc, ?_⟩
      unfold Symbol.ofChar? at hc
      split at hc
      all_goals first
        | rfl
        | cases hc; rcases is with other | other <;> cases other
        | cases hc
    | pair _ _ joined =>
      unfold Symbol.pair? at joined
      split at joined <;> cases joined <;> rcases is with other | other <;> cases other

/-- The tokens of a scan stand in a row. -/
theorem row_of_scans {p : Nat → Prop} {last : Option Nat} {line offset : Nat} {text : List Char}
    {tokens : List Token} (h : Scans last line offset text tokens)
    (all : ∀ before after, text = before ++ after → p (offset + byteLength before)) :
    Row p offset tokens (offset + byteLength text) := by
  induction h with
  | done => exact .nil (by simp)
  | @blank last line offset c text tokens _ _ ih =>
    have later : Row p (offset + c.utf8Size) tokens (offset + c.utf8Size + byteLength text) := by
      refine ih fun before after eq => ?_
      have := all (c :: before) after (by rw [eq]; rfl)
      rwa [byteLength_cons, ← Nat.add_assoc] at this
    rw [byteLength_cons, ← Nat.add_assoc]
    exact later.lower (Nat.le_add_right _ _)
  | @lexeme last line offset lexeme written text tokens spelled _ _ ih =>
    rw [byteLength_append, ← Nat.add_assoc]
    refine .leaf (Nat.le_refl _) ?_ (all [] _ rfl) (all written text rfl) (ih ?_)
    · exact Nat.lt_add_of_pos_right spelled.byteLength_pos
    · intro before after eq
      have := all (written ++ before) after (by rw [eq, List.append_assoc])
      rwa [byteLength_append, ← Nat.add_assoc] at this

/-- The brackets among tokens take one byte. -/
def BracketsShort (tokens : List Token) : Prop :=
  ∀ t ∈ tokens, ∀ bracket, t.isSymbol (.opening bracket) ∨ t.isSymbol (.closing bracket) →
    t.span.stop = t.span.start + 1

/-- Where the brackets take one byte, so do those of a group, and those inside and behind it. -/
theorem BracketsShort.group {bracket : Bracket} {here there : Span} {line lastLine : Nat}
    {inner flat : List Token}
    (h : BracketsShort (.leaf (.symbol (.opening bracket)) here line ::
      (inner ++ .leaf (.symbol (.closing bracket)) there lastLine :: flat))) :
    here.stop = here.start + 1 ∧ there.stop = there.start + 1 ∧ BracketsShort inner ∧
      BracketsShort flat :=
  ⟨h (.leaf (.symbol (.opening bracket)) here line) (by simp) bracket (.inl (isSymbol_self _ _ _)),
    h (.leaf (.symbol (.closing bracket)) there lastLine) (by simp) bracket
      (.inr (isSymbol_self _ _ _)),
    fun t ht => h t (by simp [ht]), fun t ht => h t (by simp [ht])⟩

/-- The span of a group runs from the start of its opening bracket to the end of the closing
one. -/
theorem merge_of_le {here there : Span} (h : here.stop ≤ there.start) (first : here.start < here.stop)
    (second : there.start < there.stop) : here.merge there = ⟨here.start, there.stop⟩ := by
  rw [Span.merge, Nat.min_eq_left (by omega), Nat.max_eq_right (by omega)]

/-- Nesting keeps a row. -/
theorem Nests.row {p : Nat → Prop} {flat trees : List Token} (h : Nests flat trees)
    (short : BracketsShort flat) {low high : Nat} (row : Row p low flat high) :
    Row p low trees high := by
  induction h generalizing low high with
  | nil => exact row
  | leaf _ _ ih =>
    cases row with
    | leaf start ordered hs ht rest =>
      exact .leaf start ordered hs ht (ih (fun t ht => short t (by simp [ht])) rest)
  | @group bracket here there line lastLine inner flat children trees _ _ inner_ih flat_ih =>
    cases row with
    | leaf start ordered hs ht rest =>
      obtain ⟨middle, inner_row, rest⟩ := rest.split
      cases rest with
      | leaf start' ordered' hs' ht' rest =>
        obtain ⟨one, one', inner_short, flat_short⟩ := short.group
        have span := merge_of_le (Nat.le_trans inner_row.le start') ordered ordered'
        have inner_row := inner_ih inner_short (inner_row.raise start')
        have rest := flat_ih flat_short rest
        rw [span]
        rw [one] at inner_row
        exact .group start hs ht' one' inner_row rest

/-! ## Tokens and their text -/

/-- A token stands for the piece of a text that it covers. Its line is one more than the lines that
end in front of it. What a group holds stands between its brackets. -/
inductive Token.StandsIn (source : List Char) : Token → Prop
  | leaf {lexeme : Lexeme} {before written after : List Char} :
      source = before ++ written ++ after → lexeme.Spelled written after →
      StandsIn source (.leaf lexeme ⟨byteLength before, byteLength (before ++ written)⟩
        (1 + before.count '\n'))
  | group {bracket : Bracket} {children : List Token} {before inner after : List Char}
      {opening closing : Char} : source = before ++ (opening :: (inner ++ [closing])) ++ after →
      Symbol.ofChar? opening = some (.opening bracket) →
      Symbol.ofChar? closing = some (.closing bracket) →
      (∀ t ∈ preorderAll children, byteLength before < t.span.start ∧
        t.span.stop < byteLength (before ++ (opening :: (inner ++ [closing])))) →
      StandsIn source (.group bracket children
        ⟨byteLength before, byteLength (before ++ (opening :: (inner ++ [closing])))⟩
        (1 + before.count '\n'))

theorem standsIn_of_scans {source : List Char} {last : Option Nat} {line offset : Nat}
    {text : List Char} {tokens : List Token} (h : Scans last line offset text tokens) :
    ∀ before, source = before ++ text → line = 1 + before.count '\n' → offset = byteLength before →
      ∀ t ∈ tokens, t.StandsIn source := by
  induction h with
  | done => simp
  | @blank last line offset c text tokens _ _ ih =>
    rintro before whole rfl rfl
    refine ih (before ++ [c]) ?_ ?_ ?_
    · simp [whole]
    · rw [List.count_append, Nat.add_assoc]
    · simp
  | @lexeme last line offset lexeme written text tokens spelled _ _ ih =>
    rintro before whole rfl rfl
    rw [← List.append_assoc] at whole
    rw [← byteLength_append]
    refine List.forall_mem_cons.mpr ⟨.leaf whole spelled, ih (before ++ written) whole ?_ ?_⟩
    · rw [List.count_append, Nat.add_assoc]
    · rw [byteLength_append]

theorem Token.StandsIn.bracket {source : List Char} {t : Token} {symbol : Symbol} {bracket : Bracket}
    (h : t.StandsIn source) (is : t.isSymbol symbol)
    (kind : symbol = .opening bracket ∨ symbol = .closing bracket) :
    ∃ before c after, source = before ++ c :: after ∧ Symbol.ofChar? c = some symbol ∧
      c.utf8Size = 1 ∧ t.span = ⟨byteLength before, byteLength before + 1⟩ ∧
      t.line = 1 + before.count '\n' := by
  obtain ⟨span, line, rfl⟩ := leaf_of_isSymbol is
  cases h with
  | @leaf _ before written after whole spelled =>
    obtain ⟨c, rfl, hc, one⟩ := spelled.bracket kind
    exact ⟨before, c, after, by simpa using whole, hc, one, by simp [Token.span, one], rfl⟩

theorem bracketsShort_of_standsIn {source : List Char} {tokens : List Token}
    (h : ∀ t ∈ tokens, t.StandsIn source) : BracketsShort tokens := by
  intro t ht bracket is
  rcases is with opens | closes
  · obtain ⟨before, c, after, -, -, -, span, -⟩ := (h t ht).bracket opens (.inl rfl)
    rw [span]
  · obtain ⟨before, c, after, -, -, -, span, -⟩ := (h t ht).bracket closes (.inr rfl)
    rw [span]

/-- A group stands for the text from its opening to its closing bracket. -/
theorem Nests.standsIn {source : List Char} {p : Nat → Prop} {flat trees : List Token}
    (h : Nests flat trees) (stands : ∀ t ∈ flat, t.StandsIn source) {low high : Nat}
    (row : Row p low flat high) : ∀ t ∈ preorderAll trees, t.StandsIn source := by
  induction h generalizing low high with
  | nil => simp [preorderAll]
  | leaf _ _ ih =>
    cases row with
    | leaf _ _ _ _ rest =>
      simp only [preorderAll, Token.preorder, List.singleton_append, List.forall_mem_cons]
      exact ⟨stands _ (by simp), ih (fun t ht => stands t (by simp [ht])) rest⟩
  | @group bracket here there line lastLine inner flat children trees inside _ inner_ih flat_ih =>
    have inner_stands : ∀ t ∈ inner, t.StandsIn source := fun t ht => stands t (by simp [ht])
    have flat_stands : ∀ t ∈ flat, t.StandsIn source := fun t ht => stands t (by simp [ht])
    obtain ⟨before, opening, behind, whole, opens, one, here_eq, line_eq⟩ :=
      (stands (.leaf (.symbol (.opening bracket)) here line) (by simp)).bracket
        (isSymbol_self _ _ _) (.inl rfl)
    obtain ⟨front, closing, after, whole', closes, one', there_eq, -⟩ :=
      (stands (.leaf (.symbol (.closing bracket)) there lastLine) (by simp)).bracket
        (isSymbol_self _ _ _) (.inr rfl)
    cases here_eq
    cases there_eq
    cases line_eq
    cases row with
    | leaf _ ordered _ _ rest =>
      obtain ⟨middle, inner_row, rest⟩ := rest.split
      cases rest with
      | leaf start' ordered' _ _ rest =>
        have apart : byteLength before + 1 ≤ byteLength front := Nat.le_trans inner_row.le start'
        obtain ⟨between, rfl⟩ : ∃ between, front = (before ++ [opening]) ++ between := by
          have eq : (before ++ [opening]) ++ behind = front ++ closing :: after := by
            rw [← whole', whole]
            simp
          exact append_of_byteLength_le eq (by simpa [one] using apart)
        have children_row := inside.row (bracketsShort_of_standsIn inner_stands) inner_row
        have piece : byteLength (before ++ [opening] ++ between) + 1 =
            byteLength (before ++ (opening :: (between ++ [closing]))) := by
          simp [one', Nat.add_assoc]
        rw [merge_of_le apart ordered ordered']
        simp only [preorderAll, Token.preorder, List.cons_append, List.forall_mem_cons,
          List.forall_mem_append]
        refine ⟨?_, inner_ih inner_stands inner_row, flat_ih flat_stands rest⟩
        rw [piece]
        refine .group (by simpa using whole') opens closes fun t ht => ?_
        have bounds := children_row.bounds t ht
        rw [← piece]
        have := bounds.1
        exact ⟨this, Nat.lt_succ_of_le (Nat.le_trans bounds.2.2 start')⟩

/-! ## Characters and their tokens -/

/-- Whether the character at an offset belongs to the token itself: to the text of a leaf, or to
the brackets of a group. -/
def Token.owns (offset : Nat) : Token → Bool
  | .leaf _ span _ => span.start ≤ offset && offset < span.stop
  | .group _ _ span _ => offset == span.start || offset + 1 == span.stop

/-- Nothing in a row owns what stands in front of it. -/
theorem countP_owns_of_lt {p : Nat → Prop} {low high : Nat} {tokens : List Token}
    (h : Row p low tokens high) {offset : Nat} (lt : offset < low) :
    tokens.countP (Token.owns offset) = 0 := by
  induction h with
  | nil => rfl
  | leaf start ordered _ _ _ ih =>
    rw [List.countP_cons_of_neg, ih (by omega)]
    simp [Token.owns]
    omega
  | group start _ _ eq inner _ _ ih =>
    have := inner.le
    rw [List.countP_cons_of_neg, ih (by omega)]
    simp [Token.owns]
    omega

/-- A character that is no white space belongs to one token of a scan. -/
theorem countP_owns_of_scans {last : Option Nat} {line offset : Nat} {text : List Char}
    {tokens : List Token} (h : Scans last line offset text tokens) :
    ∀ {before after : List Char} {c : Char}, text = before ++ c :: after →
      Text.isWhiteSpace c = false →
      tokens.countP (Token.owns (offset + byteLength before)) = 1 := by
  induction h with
  | done => simp
  | @blank last line offset d text tokens blank _ ih =>
    intro before after c eq ink
    cases before with
    | nil =>
      cases eq
      rw [blank] at ink
      cases ink
    | cons first before =>
      cases eq
      rw [byteLength_cons, ← Nat.add_assoc]
      exact ih rfl ink
  | @lexeme last line offset lexeme written text tokens spelled _ scans ih =>
    intro before after c eq ink
    by_cases inside : byteLength before < byteLength written
    · have first : (Token.leaf lexeme ⟨offset, offset + byteLength written⟩ line).owns
          (offset + byteLength before) := by
        simpa [Token.owns] using inside
      have behind : Row (fun _ => True) _ tokens _ := row_of_scans scans fun _ _ _ => trivial
      rw [List.countP_cons_of_pos first, countP_owns_of_lt behind (by omega)]
    · obtain ⟨front, rfl⟩ := append_of_byteLength_le eq (Nat.le_of_not_lt inside)
      have first : ¬ (Token.leaf lexeme ⟨offset, offset + byteLength written⟩ line).owns
          (offset + byteLength (written ++ front)) := by
        simp [Token.owns]
      rw [List.countP_cons_of_neg first, byteLength_append, ← Nat.add_assoc]
      rw [List.append_assoc, List.append_cancel_left_eq] at eq
      exact ih eq ink

/-- Nesting keeps the owners: a group owns what its brackets owned. -/
theorem Nests.countP_owns {p : Nat → Prop} {flat trees : List Token} (h : Nests flat trees)
    (short : BracketsShort flat) {low high : Nat} (row : Row p low flat high) (offset : Nat) :
    (preorderAll trees).countP (Token.owns offset) = flat.countP (Token.owns offset) := by
  induction h generalizing low high with
  | nil => rfl
  | leaf _ _ ih =>
    cases row with
    | leaf _ _ _ _ rest =>
      simp only [preorderAll, Token.preorder, List.singleton_append, List.countP_cons]
      rw [ih (fun t ht => short t (by simp [ht])) rest]
  | @group bracket here there line lastLine inner flat children trees inside _ inner_ih flat_ih =>
    cases row with
    | leaf _ ordered _ _ rest =>
      obtain ⟨middle, inner_row, rest⟩ := rest.split
      cases rest with
      | leaf start' ordered' _ _ rest =>
        obtain ⟨one, one', inner_short, flat_short⟩ := short.group
        have apart := Nat.le_trans inner_row.le start'
        -- the two brackets of the row, one behind the other, own what the group owns
        have brackets : (if (Token.leaf (.symbol (.opening bracket)) here line).owns offset then 1 else 0) +
            (if (Token.leaf (.symbol (.closing bracket)) there lastLine).owns offset then 1 else 0) =
            if (Token.group bracket children ⟨here.start, there.stop⟩ line).owns offset then 1 else 0 := by
          simp only [Token.owns, Bool.and_eq_true, Bool.or_eq_true, decide_eq_true_eq, beq_iff_eq]
          split <;> split <;> split <;> omega
        rw [merge_of_le apart ordered ordered']
        simp only [preorderAll, Token.preorder, List.cons_append, List.countP_cons,
          List.countP_append]
        rw [inner_ih inner_short inner_row, flat_ih flat_short rest]
        omega

/-! ## The tokens of a source text -/

theorem isLeaf_of_scans {last : Option Nat} {line offset : Nat} {text : List Char}
    {tokens : List Token} (h : Scans last line offset text tokens) : ∀ t ∈ tokens, t.IsLeaf := by
  induction h with
  | done => simp
  | blank _ _ ih => exact ih
  | lexeme _ _ _ ih => exact List.forall_mem_cons.mpr ⟨trivial, ih⟩

/-- The tokens of a text are the nesting of its scan. -/
theorem tokenize_eq_ok_iff {source : String} {tokens : List Token} :
    tokenize source = .ok tokens ↔
      ∃ flat, Scans none 1 0 source.toList flat ∧ Nests flat tokens := by
  constructor
  · intro h
    obtain ⟨flat, scanned, h⟩ := except_bind_ok h
    have scans := scan_eq_ok_iff.mp scanned
    exact ⟨flat, scans, (nest_eq_ok_iff (isLeaf_of_scans scans)).mp h⟩
  · rintro ⟨flat, scans, nests⟩
    rw [tokenize, scan_eq_ok_iff.mpr scans]
    exact (nest_eq_ok_iff (isLeaf_of_scans scans)).mpr nests

/-- The lexemes of a text stand in a row between its ends. -/
theorem row_of_source {source : String} {flat : List Token}
    (scans : Scans none 1 0 source.toList flat) :
    Row (IsBoundary source) 0 flat source.utf8ByteSize := by
  have row : Row (IsBoundary source) 0 flat (0 + byteLength source.toList) :=
    row_of_scans scans fun before after eq => by
      rw [Nat.zero_add]
      exact isBoundary_byteLength eq
  rwa [Nat.zero_add, byteLength_toList] at row

/-- The tokens of a text stand in a row between its ends. -/
theorem row_of_tokenize {source : String} {tokens : List Token} (h : tokenize source = .ok tokens) :
    Row (IsBoundary source) 0 tokens source.utf8ByteSize := by
  obtain ⟨flat, scans, nests⟩ := tokenize_eq_ok_iff.mp h
  have stands := standsIn_of_scans scans [] rfl rfl rfl
  exact nests.row (bracketsShort_of_standsIn stands) (row_of_source scans)

/-- In pre-order the tokens of a text move forward through it, each on boundaries of characters and
each standing for the piece it covers; and every character that is no white space belongs to one
leaf or is a bracket of one group. -/
theorem tokens_cover_source {source : String} {tokens : List Token}
    (h : tokenize source = .ok tokens) :
    (∀ t ∈ preorderAll tokens, t.span.Within source ∧ t.StandsIn source.toList) ∧
      (preorderAll tokens).Pairwise Token.Precedes ∧
      ∀ before c after, source.toList = before ++ c :: after → Text.isWhiteSpace c = false →
        (preorderAll tokens).countP (Token.owns (byteLength before)) = 1 := by
  have row := row_of_tokenize h
  obtain ⟨flat, scans, nests⟩ := tokenize_eq_ok_iff.mp h
  have stands := standsIn_of_scans scans [] rfl rfl rfl
  have flat_row : Row (fun _ => True) 0 flat _ := row_of_scans scans fun _ _ _ => trivial
  refine ⟨fun t ht => ⟨?_, nests.standsIn stands flat_row t ht⟩, row.pairwise, ?_⟩
  · obtain ⟨start, stop⟩ := row.ends t ht
    exact .of_boundaries (Nat.le_of_lt (row.bounds t ht).2.1) start stop
  · intro before c after eq ink
    rw [nests.countP_owns (bracketsShort_of_standsIn stands) flat_row]
    simpa using countP_owns_of_scans scans eq ink

theorem tokens_cover_source_nested : ∃ tokens,
    tokenize "(é,\n \"a\nb\") \x7b !=\x7d\n;•" = .ok tokens ∧
    (preorderAll tokens).map (fun t => (t.span.start, t.span.stop, t.line)) =
      [(0, 12, 1), (1, 3, 1), (3, 4, 1), (6, 11, 2), (13, 18, 3), (15, 17, 3), (19, 23, 4)] ∧
    (∀ t ∈ preorderAll tokens, t.span.Within "(é,\n \"a\nb\") \x7b !=\x7d\n;•") ∧
    (preorderAll tokens).countP (Token.owns 17) = 1 := by
  have found : (do
      let tokens ← (tokenize "(é,\n \"a\nb\") \x7b !=\x7d\n;•").toOption
      if (preorderAll tokens).map (fun t => (t.span.start, t.span.stop, t.line)) =
        [(0, 12, 1), (1, 3, 1), (3, 4, 1), (6, 11, 2), (13, 18, 3), (15, 17, 3), (19, 23, 4)]
      then some () else none) = some () := by decide +kernel
  obtain ⟨tokens, ht, found⟩ := Option.bind_eq_some_iff.mp found
  split at found
  · rename_i places
    obtain ⟨stand, -, owned⟩ := tokens_cover_source (toOption_eq_some ht)
    refine ⟨tokens, toOption_eq_some ht, places, fun t mem => (stand t mem).1, ?_⟩
    exact owned "(é,\n \"a\nb\") \x7b !=".toList '\x7d' "\n;•".toList (by decide) (by decide)
  · cases found

end WindowedClosures
