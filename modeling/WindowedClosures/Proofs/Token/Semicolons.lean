import WindowedClosures.Proofs.Token.Bare

/-!
# Semicolons of a text

A semicolon outside texts and comments starts a comment or separates, and which of the two it does
can be read off what stands in front of it on its line. It starts a comment if that is white space
only. A text that starts on an earlier line counts as standing there and not where it ends, so
behind such a text, too, a semicolon starts a comment; everywhere else it separates.
-/

namespace WindowedClosures

/-! ## Lines and texts -/

/-- What stands in front of a place on its line, the nearest character first. -/
def lineFront (before : List Char) : List Char := before.reverse.takeWhile (· != '\n')

/-- Only white space stands in front of a place on its line. -/
def OpensLine (before : List Char) : Prop := ∀ c ∈ lineFront before, Text.isWhiteSpace c

instance (before : List Char) : Decidable (OpensLine before) :=
  List.decidableBAll (fun c => Text.isWhiteSpace c = true) (lineFront before)

section

variable {front gap : List Char}

theorem opensLine_of_blank (h : ∀ c ∈ front, Text.isWhiteSpace c) : OpensLine front := fun c hc =>
  h c (List.mem_reverse.mp ((List.takeWhile_sublist _).mem hc))

theorem opensLine_of_newline (newline : '\n' ∈ gap) (blank : ∀ c ∈ gap, Text.isWhiteSpace c) :
    OpensLine (front ++ gap) := by
  have ends : ¬ (gap.reverse.takeWhile (· != '\n')).length = gap.reverse.length := by
    intro same
    have whole := (List.takeWhile_sublist _).eq_of_length same
    have inside : '\n' ∈ gap.reverse.takeWhile (· != '\n') := by simpa [whole] using newline
    simpa using of_mem_takeWhile inside
  intro c hc
  rw [lineFront, List.reverse_append, List.takeWhile_append, if_neg ends] at hc
  exact blank c (List.mem_reverse.mp ((List.takeWhile_sublist _).mem hc))

/-- What stands on the line of a place, if no line ends behind it. -/
theorem OpensLine.blank (h : OpensLine (front ++ gap)) (line : '\n' ∉ gap) :
    ∀ c ∈ gap, Text.isWhiteSpace c := by
  have run : ∀ c ∈ gap.reverse, (c != '\n') := fun c hc => by
    simpa using fun eq : c = '\n' => line (eq ▸ List.mem_reverse.mp hc)
  intro c hc
  refine h c ?_
  rw [lineFront, List.reverse_append, List.takeWhile_append_of_pos run]
  exact List.mem_append_left _ (List.mem_reverse.mpr hc)

end

namespace Token

def isText : Token → Bool
  | .leaf (.text _) _ _ => true
  | _ => false

end Token

/-- Neither a text nor a comment goes on over an offset. -/
def Outside (tokens : List Token) (offset : Nat) : Prop :=
  ∀ t ∈ preorderAll tokens, t.isText ∨ t.isComment → ¬ (t.span.start < offset ∧ offset < t.span.stop)

/-- A comment starts at an offset. -/
def CommentAt (tokens : List Token) (offset : Nat) : Prop :=
  ∃ t ∈ preorderAll tokens, t.isComment ∧ t.span.start = offset

/-- A semicolon that separates stands at an offset. -/
def SeparatorAt (tokens : List Token) (offset : Nat) : Prop :=
  ∃ t ∈ preorderAll tokens, t.isSymbol .semicolon ∧ t.span.start = offset

/-- A text from an earlier line ends on the line of a place, and only white space stands between
the two. -/
def TextEnds (tokens : List Token) (before : List Char) : Prop :=
  ∃ front gap, before = front ++ gap ∧ '\n' ∉ gap ∧ (∀ c ∈ gap, Text.isWhiteSpace c) ∧
    ∃ t ∈ preorderAll tokens, t.isText ∧ t.span.stop = byteLength front ∧
      t.line < 1 + before.count '\n'

instance (tokens : List Token) (offset : Nat) : Decidable (Outside tokens offset) :=
  inferInstanceAs (Decidable (∀ t ∈ preorderAll tokens,
    t.isText ∨ t.isComment → ¬ (t.span.start < offset ∧ offset < t.span.stop)))

instance (tokens : List Token) (offset : Nat) : Decidable (CommentAt tokens offset) :=
  inferInstanceAs (Decidable (∃ t ∈ preorderAll tokens, t.isComment ∧ t.span.start = offset))

instance (tokens : List Token) (offset : Nat) : Decidable (SeparatorAt tokens offset) :=
  inferInstanceAs (Decidable (∃ t ∈ preorderAll tokens, t.isSymbol .semicolon ∧ t.span.start = offset))

/-! ## Spellings -/

section

variable {lexeme : Lexeme} {written behind : List Char}

theorem Lexeme.Spelled.front (h : lexeme.Spelled written behind) :
    ∃ c rest, written = c :: rest ∧ Text.isWhiteSpace c = false := by
  cases h with
  | text | comment => exact ⟨_, _, rfl, by decide⟩
  | name alphabetic => exact ⟨_, _, rfl, (inked_of_isAlphabetic alphabetic).1.blank⟩
  | number formed =>
    obtain ⟨c, rest, eq, digit⟩ := NumberText.written_cons formed
    exact ⟨c, rest, eq, (inked_of_isDigit digit).1.blank⟩
  | symbol spelled =>
    cases spelled with
    | single hc => exact ⟨_, _, rfl, (inked_of_ofChar? hc).1.blank⟩
    | pair ha => exact ⟨_, _, rfl, (inked_of_ofChar? ha).1.blank⟩

/-- Of all lexemes only a text goes on over the end of a line. -/
theorem Lexeme.Spelled.text_of_newline (h : lexeme.Spelled written behind) (newline : '\n' ∈ written) :
    ∃ value, lexeme = .text value := by
  cases h with
  | text => exact ⟨_, rfl⟩
  | comment no_newline => exact absurd newline (by simpa using no_newline)
  | name alphabetic all => exact absurd newline (newline_not_mem_name alphabetic all)
  | number formed => exact absurd newline (NumberText.newline_not_mem_written formed)
  | symbol spelled => exact absurd newline (newline_not_mem_symbols spelled)

theorem pair?_semicolon (symbol : Symbol) : symbol.pair? .semicolon = none := by
  cases symbol <;> rfl

/-- A lexeme with a semicolon in it is a text around it, a comment, or the separator. -/
theorem Lexeme.Spelled.semicolon {before after : List Char}
    (h : lexeme.Spelled (before ++ ';' :: after) behind) :
    ((∃ value, lexeme = .text value) ∧ before ≠ [] ∧ after ≠ []) ∨ (∃ value, lexeme = .comment value) ∨
      (lexeme = .symbol .semicolon ∧ before = []) := by
  generalize eq : before ++ ';' :: after = written at h
  have mem : ';' ∈ written := by simp [← eq]
  cases h with
  | text =>
    refine .inl ⟨⟨_, rfl⟩, ?_, ?_⟩
    · rintro rfl
      cases eq
    · rintro rfl
      have last := congrArg List.getLast? eq
      rw [List.getLast?_concat, ← List.cons_append, List.getLast?_concat] at last
      cases last
  | comment => exact .inr (.inl ⟨_, rfl⟩)
  | name alphabetic all =>
    rcases List.mem_cons.mp mem with rfl | inside
    · exact absurd alphabetic (by decide +kernel)
    · exact absurd (all _ inside) (by decide +kernel)
  | number formed =>
    rcases NumberText.of_mem_written formed mem with hex | mark | point
    · exact absurd hex (by decide)
    · cases mark
    · cases point
  | symbol spelled =>
    have first : Symbol.ofChar? ';' = some .semicolon := rfl
    cases spelled with
    | @single c symbol hc =>
      obtain rfl : ';' = c := by simpa using mem
      cases first.symm.trans hc
      refine .inr (.inr ⟨rfl, ?_⟩)
      have length := congrArg List.length eq
      simp only [List.length_append, List.length_cons, List.length_nil] at length
      exact List.eq_nil_of_length_eq_zero (by omega)
    | @pair a b first second symbol ha hb joined =>
      simp only [List.mem_cons, List.not_mem_nil, or_false] at mem
      rcases mem with rfl | rfl
      · cases ha
        cases joined
      · cases hb
        rw [pair?_semicolon] at joined
        cases joined

end

/-! ## Lexemes one behind the other -/

section

variable {last : Option Nat} {line offset : Nat} {text : List Char}

/-- The first lexeme of a text stands behind white space, begins according to the lexeme in front of
the text, and is what the one behind it begins according to. -/
theorem Scans.first {t : Token} {later : List Token} (h : Scans last line offset text (t :: later)) :
    ∃ lexeme gap written rest, text = gap ++ (written ++ rest) ∧ (∀ c ∈ gap, Text.isWhiteSpace c) ∧
      t = .leaf lexeme ⟨offset + byteLength gap, offset + byteLength gap + byteLength written⟩
        (line + gap.count '\n') ∧
      lexeme.Spelled written rest ∧ lexeme.Begins last (line + gap.count '\n') ∧
      Scans (some (line + gap.count '\n')) (line + gap.count '\n' + written.count '\n')
        (offset + byteLength gap + byteLength written) rest later := by
  generalize eq : t :: later = tokens at h
  induction h with
  | done => cases eq
  | @blank last line offset c text tokens blank _ ih =>
    obtain ⟨lexeme, gap, written, rest, rfl, blanks, rfl, spelled, begins, more⟩ := ih eq
    have lines : line + [c].count '\n' + gap.count '\n' = line + (c :: gap).count '\n' := by
      rw [Nat.add_assoc, ← List.count_append, List.singleton_append]
    have bytes : offset + c.utf8Size + byteLength gap = offset + byteLength (c :: gap) := by
      rw [Nat.add_assoc, ← byteLength_cons]
    rw [lines] at begins more
    rw [bytes] at more
    refine ⟨lexeme, c :: gap, written, rest, rfl, List.forall_mem_cons.mpr ⟨blank, blanks⟩, ?_,
      spelled, begins, more⟩
    rw [lines, bytes]
  | lexeme spelled begins more =>
    cases eq
    exact ⟨_, [], _, _, rfl, by simp, rfl, spelled, begins, more⟩

/-- Behind some of its lexemes, a text is scanned on its own. -/
theorem Scans.drop {done more : List Token} (h : Scans last line offset text (done ++ more)) :
    ∃ last' front rest, text = front ++ rest ∧
      Scans last' (line + front.count '\n') (offset + byteLength front) rest more := by
  induction done generalizing last line offset text with
  | nil => exact ⟨last, [], text, rfl, h⟩
  | cons t done ih =>
    obtain ⟨-, gap, written, rest, rfl, -, -, -, -, later⟩ := h.first
    obtain ⟨last', front, rest, rfl, behind⟩ := ih later
    refine ⟨last', gap ++ (written ++ front), rest, by simp, ?_⟩
    simpa [Nat.add_assoc] using behind

/-- Between a lexeme and the one behind it stands white space, and the second begins according to the
first. -/
theorem Scans.neighbours {source : List Char} {done later : List Token} {t u : Token}
    (h : Scans last 1 0 source (done ++ t :: u :: later)) : ∃ front written gap behind,
      source = (front ++ (written ++ gap)) ++ behind ∧ (∀ c ∈ gap, Text.isWhiteSpace c) ∧
      (∃ lexeme rest, lexeme.Spelled written rest ∧ t = .leaf lexeme
        ⟨byteLength front, byteLength (front ++ written)⟩ (1 + front.count '\n')) ∧
      (∃ lexeme, lexeme.Begins (some t.line) u.line ∧ u = .leaf lexeme u.span u.line) ∧
      u.span.start = byteLength (front ++ (written ++ gap)) ∧
      u.line = 1 + (front ++ (written ++ gap)).count '\n' := by
  obtain ⟨_, before, rest, rfl, first⟩ := h.drop
  obtain ⟨lexeme, blank, written, rest, rfl, -, rfl, spelled, -, second⟩ := first.first
  obtain ⟨lexeme', gap, written', rest, rfl, blanks, rfl, -, begins, -⟩ := second.first
  refine ⟨before ++ blank, written, gap, written' ++ rest, by simp, blanks,
    ⟨lexeme, _, spelled, ?_⟩, ⟨lexeme', begins, rfl⟩, ?_, ?_⟩
  · simp [Nat.add_assoc]
  · simp [Token.span, Nat.add_assoc]
  · simp [Token.line, Nat.add_assoc]

end

/-- A leaf that stands for itself among trees. -/
def Token.IsPlain : Token → Prop
  | .leaf lexeme _ _ => lexeme.Plain
  | .group .. => False

section

variable {t : Token}

theorem isPlain_of_isText (h : t.isText) : t.IsPlain := by
  unfold Token.isText at h
  split at h
  · exact fun _ => ⟨nofun, nofun⟩
  · cases h

theorem isPlain_of_isComment (h : t.isComment) : t.IsPlain := by
  cases t with
  | leaf lexeme =>
    cases lexeme with
    | comment => exact fun _ => ⟨nofun, nofun⟩
    | _ => cases h
  | group => cases h

theorem isPlain_of_semicolon (h : t.isSymbol .semicolon) : t.IsPlain := by
  obtain ⟨span, line, rfl⟩ := leaf_of_isSymbol h
  exact fun _ => ⟨nofun, nofun⟩

/-- A leaf other than a bracket stands among the trees of a row if it stands in the row. -/
theorem Nests.mem_preorder {flat trees : List Token} (h : Nests flat trees) (plain : t.IsPlain) :
    t ∈ preorderAll trees ↔ t ∈ flat := by
  induction h with
  | nil => simp [preorderAll]
  | leaf _ _ ih => simp [preorderAll, Token.preorder, ih]
  | @group bracket here there line lastLine inner flat children trees _ _ inner_ih ih =>
    have whole : t ≠ .group bracket children (here.merge there) line := by
      rintro rfl
      exact plain
    have opens : t ≠ .leaf (.symbol (.opening bracket)) here line := by
      rintro rfl
      exact (plain bracket).1 rfl
    have closes : t ≠ .leaf (.symbol (.closing bracket)) there lastLine := by
      rintro rfl
      exact (plain bracket).2 rfl
    simp [preorderAll, Token.preorder, inner_ih, ih, whole, opens, closes]

end

/-! ## What a semicolon is -/

section

variable {source : List Char} {flat : List Token} {before after : List Char}

/-- A semicolon outside texts and comments starts a comment, or it separates. -/
theorem Scans.semicolon (h : Scans none 1 0 source flat) (here : source = before ++ ';' :: after)
    (outside : ∀ t ∈ flat, t.isText ∨ t.isComment →
      ¬ (t.span.start < byteLength before ∧ byteLength before < t.span.stop)) :
    ∃ t ∈ flat, t.span.start = byteLength before ∧ (t.isComment ∨ t.isSymbol .semicolon) := by
  have one := countP_owns_of_scans h here (by decide)
  rw [Nat.zero_add] at one
  obtain ⟨t, ht, owns⟩ := List.countP_pos_iff.mp (one ▸ Nat.one_pos)
  have leaf := isLeaf_of_scans h t ht
  cases standsIn_of_scans h [] rfl rfl rfl t ht with
  | group => cases leaf
  | @leaf lexeme front written rest whole spelled =>
    simp only [Token.owns, Bool.and_eq_true, decide_eq_true_eq] at owns
    -- the spelling that owns the semicolon, cut there
    have cut : front ++ (written ++ rest) = before ++ ';' :: after := by
      rw [← here, ← List.append_assoc, ← whole, List.nil_append]
    obtain ⟨inside, rfl⟩ := append_of_byteLength_le cut owns.1
    rw [List.append_assoc, List.append_cancel_left_eq] at cut
    have one : Char.utf8Size ';' = 1 := rfl
    have reaches : byteLength (inside ++ [';']) ≤ byteLength written := by
      have owned := owns.2
      simp only [byteLength_append, byteLength_cons, byteLength_nil, one] at owned ⊢
      omega
    obtain ⟨behind, rfl⟩ := append_of_byteLength_le
      (show (inside ++ [';']) ++ after = written ++ rest by simpa using cut.symm) reaches
    rw [List.append_assoc, List.singleton_append] at spelled
    have start (first : inside = []) : byteLength front = byteLength (front ++ inside) := by
      rw [first, List.append_nil]
    have within (later : inside ≠ []) : byteLength front < byteLength (front ++ inside) := by
      have := byteLength_pos later
      rw [byteLength_append]
      omega
    rcases spelled.semicolon with ⟨⟨value, rfl⟩, later, -⟩ | ⟨value, rfl⟩ | ⟨rfl, first⟩
    · exact absurd ⟨within later, owns.2⟩ (outside _ ht (.inl rfl))
    · refine ⟨_, ht, start (Classical.not_not.mp fun later => ?_), .inl rfl⟩
      exact outside _ ht (.inr rfl) ⟨within later, owns.2⟩
    · exact ⟨_, ht, start first, .inr rfl⟩

/-- The first lexeme of a text starts a comment if it is a semicolon, and only white space stands in
front of it. -/
theorem Scans.opening {t : Token} {later : List Token} (h : Scans none 1 0 source (t :: later))
    (here : source = before ++ ';' :: after) (start : t.span.start = byteLength before) :
    OpensLine before ∧ t.isSymbol .semicolon = false := by
  obtain ⟨lexeme, gap, written, rest, text, blanks, rfl, -, begins, -⟩ := h.first
  have same : before = gap := by
    refine eq_of_byteLength_eq (here.symm.trans text) ?_
    simpa [Token.span] using start.symm
  refine ⟨opensLine_of_blank (same ▸ blanks), ?_⟩
  cases is : (Token.leaf lexeme ⟨0 + byteLength gap, 0 + byteLength gap + byteLength written⟩
      (1 + gap.count '\n')).isSymbol .semicolon with
  | false => rfl
  | true =>
    obtain ⟨_, _, eq⟩ := leaf_of_isSymbol is
    cases eq
    cases begins

/-- Behind another lexeme, a comment starts on a line of its own or behind a text that goes on over a
line end. -/
theorem Scans.commented {done later trees : List Token} {t u : Token}
    (h : Scans none 1 0 source (done ++ t :: u :: later)) (nests : Nests (done ++ t :: u :: later) trees)
    (here : source = before ++ ';' :: after) (start : u.span.start = byteLength before)
    (comment : u.isComment) : OpensLine before ∨ TextEnds trees before := by
  obtain ⟨front, written, gap, behind, whole, blanks, ⟨lexeme, rest, spelled, rfl⟩,
    ⟨lexeme', begins, eq⟩, place, line⟩ := h.neighbours
  obtain rfl : before = front ++ (written ++ gap) :=
    eq_of_byteLength_eq (here.symm.trans whole) (start.symm.trans place)
  have newline : '\n' ∈ written ++ gap := by
    refine List.count_pos_iff.mp (Nat.pos_of_ne_zero fun none => ?_)
    rw [eq] at comment
    cases lexeme' with
    | comment => exact begins (by rw [line, List.count_append, none, Nat.add_zero]; rfl)
    | _ => cases comment
  by_cases ends : '\n' ∈ gap
  · rw [← List.append_assoc]
    exact .inl (opensLine_of_newline ends blanks)
  · have inside := (List.mem_append.mp newline).resolve_right ends
    obtain ⟨value, rfl⟩ := spelled.text_of_newline inside
    have among := (nests.mem_preorder (isPlain_of_isText rfl)).mpr
      (List.mem_append_right done (List.mem_cons_self ..))
    refine .inr ⟨front ++ written, gap, by simp, ends, blanks, _, among, rfl, rfl, ?_⟩
    rw [List.count_append, ← Nat.add_assoc]
    exact Nat.lt_add_of_pos_right (List.count_pos_iff.mpr newline)

/-- A semicolon separates where a lexeme in front of it has started on its line. -/
theorem Scans.separates {done later trees : List Token} {t u : Token}
    (h : Scans none 1 0 source (done ++ t :: u :: later)) (nests : Nests (done ++ t :: u :: later) trees)
    (here : source = before ++ ';' :: after) (start : u.span.start = byteLength before)
    (separator : u.isSymbol .semicolon) : ¬ (OpensLine before ∨ TextEnds trees before) := by
  obtain ⟨front, written, gap, behind, whole, blanks, ⟨lexeme, rest, spelled, rfl⟩,
    ⟨lexeme', begins, eq⟩, place, line⟩ := h.neighbours
  obtain rfl : before = front ++ (written ++ gap) :=
    eq_of_byteLength_eq (here.symm.trans whole) (start.symm.trans place)
  have lines : (written ++ gap).count '\n' = 0 := by
    rw [eq] at separator
    obtain ⟨_, _, is⟩ := leaf_of_isSymbol separator
    cases is
    have same : 1 + front.count '\n' = u.line := Option.some.inj begins
    rw [line, List.count_append, ← Nat.add_assoc] at same
    omega
  obtain ⟨c, tail, rfl, ink⟩ := spelled.front
  have inked (mem : c ∈ front ++ (c :: tail ++ gap)) (blank : Text.isWhiteSpace c) : False := by
    rw [ink] at blank
    cases blank
  rintro (opens | ⟨front', gap', cut, -, blanks', v, hv, text, stop, earlier⟩)
  · exact inked (by simp) (opens.blank (List.count_eq_zero.mp lines) c (by simp))
  · -- the text ends behind the start of the nearest lexeme, which is no white space
    have reaches : byteLength front < v.span.stop := by
      refine Nat.lt_of_not_le fun le => ?_
      obtain ⟨between, rfl⟩ := append_of_byteLength_le cut.symm (stop ▸ le)
      rw [List.append_assoc, List.append_cancel_left_eq] at cut
      exact inked (by simp) (blanks' c (by simp [← cut]))
    have front_le : v.span.stop ≤ u.span.start := by
      rw [stop, place, cut, byteLength_append]
      exact Nat.le_add_right ..
    have row : Row (fun _ => True) 0 _ _ := row_of_scans h fun _ _ _ => trivial
    have among := (nests.mem_preorder (isPlain_of_isText text)).mp hv
    have ordered := (row.bounds _ (mem_preorderAll among)).2.1
    rcases List.mem_append.mp among with early | late
    · have := row.le_of_append early (List.mem_cons_self ..)
      exact absurd this (Nat.not_le.mpr reaches)
    · simp only [List.mem_cons] at late
      rcases late with same | same | late
      · rw [same, List.count_append, lines] at earlier
        exact Nat.lt_irrefl _ earlier
      · rw [same] at front_le ordered
        omega
      · rw [List.append_cons, List.append_cons] at row
        have := row.le_of_append (t := u) (by simp) late
        have := (row.bounds u (mem_preorderAll (by simp))).2.1
        omega

/-- What a semicolon became tells what stands in front of it. -/
theorem Scans.semicolon_front {trees : List Token} {t : Token} (h : Scans none 1 0 source flat)
    (nests : Nests flat trees) (ht : t ∈ flat) (here : source = before ++ ';' :: after)
    (start : t.span.start = byteLength before) :
    (t.isComment → OpensLine before ∨ TextEnds trees before) ∧
      (t.isSymbol .semicolon → ¬ (OpensLine before ∨ TextEnds trees before)) := by
  obtain ⟨done, later, rfl⟩ := List.append_of_mem ht
  rcases List.eq_nil_or_concat done with rfl | ⟨done, v, rfl⟩
  · obtain ⟨opens, no_separator⟩ := h.opening here start
    exact ⟨fun _ => .inl opens, fun separates => absurd separates (by simp [no_separator])⟩
  · rw [List.concat_eq_append, List.append_assoc, List.singleton_append] at h nests
    exact ⟨h.commented nests here start, h.separates nests here start⟩

end

/-- A semicolon outside texts and comments starts a comment exactly if only white space stands in
front of it on its line, or a text from an earlier line ends there with only white space behind it.
Everywhere else it separates. -/
theorem semicolon_read {source : String} {tokens : List Token} {before after : List Char}
    (h : tokenize source = .ok tokens) (here : source.toList = before ++ ';' :: after)
    (outside : Outside tokens (byteLength before)) :
    (CommentAt tokens (byteLength before) ↔ OpensLine before ∨ TextEnds tokens before) ∧
      (SeparatorAt tokens (byteLength before) ↔ ¬ CommentAt tokens (byteLength before)) := by
  have row := row_of_tokenize h
  obtain ⟨flat, scans, nests⟩ := tokenize_eq_ok_iff.mp h
  obtain ⟨t, ht, start, kind⟩ := scans.semicolon here fun t ht quoted =>
    outside t ((nests.mem_preorder (quoted.elim isPlain_of_isText isPlain_of_isComment)).mpr ht) quoted
  have among : t ∈ preorderAll tokens :=
    (nests.mem_preorder (kind.elim isPlain_of_isComment isPlain_of_semicolon)).mpr ht
  have only {u : Token} (hu : u ∈ preorderAll tokens) (there : u.span.start = byteLength before) :
      u = t := row.eq_of_start hu among (there.trans start.symm)
  have starts := scans.semicolon_front nests ht here start
  rcases kind with comment | separates
  · have here : CommentAt tokens (byteLength before) := ⟨t, among, comment, start⟩
    refine ⟨iff_of_true here (starts.1 comment), iff_of_false ?_ (not_not_intro here)⟩
    rintro ⟨u, hu, separates, there⟩
    rw [only hu there] at separates
    exact starts.2 separates (starts.1 comment)
  · have no_comment : ¬ CommentAt tokens (byteLength before) := by
      rintro ⟨u, hu, comment, there⟩
      rw [only hu there] at comment
      exact starts.2 separates (starts.1 comment)
    exact ⟨iff_of_false no_comment (starts.2 separates),
      iff_of_true ⟨t, among, separates, start⟩ no_comment⟩

/-- Another lexeme stands between the end of the text and the semicolon. -/
theorem semicolon_read_separates : ∃ tokens, tokenize "\"a\nb\" c; (d\n ; e\n)" = .ok tokens ∧
    Outside tokens 7 ∧ SeparatorAt tokens 7 ∧ Outside tokens 13 ∧ OpensLine "\"a\nb\" c; (d\n ".toList ∧
      CommentAt tokens 13 := by
  have found : (do
      let tokens ← (tokenize "\"a\nb\" c; (d\n ; e\n)").toOption
      if Outside tokens 7 ∧ ¬ CommentAt tokens 7 ∧ Outside tokens 13
      then some () else none) = some () := by decide +kernel
  obtain ⟨tokens, lexed, found⟩ := Option.bind_eq_some_iff.mp found
  have lexed := toOption_eq_some lexed
  split at found
  · rename_i facts
    obtain ⟨outside, no_comment, inside⟩ := facts
    have opens : OpensLine "\"a\nb\" c; (d\n ".toList := by decide +kernel
    have front : "\"a\nb\" c; (d\n ; e\n)".toList = "\"a\nb\" c".toList ++ ';' :: " (d\n ; e\n)".toList := rfl
    have front' : "\"a\nb\" c; (d\n ; e\n)".toList = "\"a\nb\" c; (d\n ".toList ++ ';' :: " e\n)".toList := rfl
    have separates := (semicolon_read lexed front outside).2.mpr no_comment
    have comment := (semicolon_read lexed front' inside).1.mpr (.inl opens)
    exact ⟨tokens, lexed, outside, separates, inside, opens, comment⟩
  · cases found

/-- Behind a text that ends on its line, a semicolon starts a comment. -/
theorem semicolon_behind_text : ∃ tokens, tokenize "\"a\nb\"; x" = .ok tokens ∧ Outside tokens 5 ∧
    ¬ OpensLine "\"a\nb\"".toList ∧ CommentAt tokens 5 ∧ ¬ SeparatorAt tokens 5 := by
  have found : (do
      let tokens ← (tokenize "\"a\nb\"; x").toOption
      if Outside tokens 5 ∧ CommentAt tokens 5 ∧ ¬ SeparatorAt tokens 5
      then some () else none) = some () := by decide +kernel
  obtain ⟨tokens, lexed, found⟩ := Option.bind_eq_some_iff.mp found
  split at found
  · rename_i facts
    exact ⟨tokens, toOption_eq_some lexed, facts.1, by decide +kernel, facts.2⟩
  · cases found

end WindowedClosures
