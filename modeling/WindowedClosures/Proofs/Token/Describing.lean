import WindowedClosures.Proofs.Token.Bare

/-!
# Tokens described and read again

A run of tokens is described on one line, with a blank between neighbours. The tokens of a text
without fractional numbers, once the comments are left out, are read again from their description.
A semicolon among them is a separator again: in the text it stood behind a lexeme that had started
on its line, so neither a comment nor a text over several lines comes right in front of it.
-/

namespace WindowedClosures

/-! ## Comments left out -/

/-- The lexemes that are no comments. -/
def visible (lexemes : List Lexeme) : List Lexeme := lexemes.filter fun lexeme => !lexeme.isComment

@[simp] theorem visible_append (a b : List Lexeme) : visible (a ++ b) = visible a ++ visible b :=
  List.filter_append ..

theorem visible_cons_of_isComment {lexeme : Lexeme} (h : lexeme.isComment) (rest : List Lexeme) :
    visible (lexeme :: rest) = visible rest := by
  simp [visible, h]

@[simp] theorem visible_symbol (symbol : Symbol) (rest : List Lexeme) :
    visible (.symbol symbol :: rest) = .symbol symbol :: visible rest := rfl

theorem visible_cons {lexeme : Lexeme} (h : lexeme.isComment = false) (rest : List Lexeme) :
    visible (lexeme :: rest) = lexeme :: visible rest := by
  simp [visible, h]

theorem lexemes_stripComments : ∀ tokens : List Token,
    lexemesAll (bareAll (Token.stripComments tokens)) = visible (lexemesAll (bareAll tokens))
  | [] => rfl
  | .leaf lexeme span line :: rest => by
    have later := lexemes_stripComments rest
    rw [Token.stripComments, Token.isComment]
    split
    · rename_i comment
      simp [bareAll, Token.bare, lexemesAll, Bare.lexemes, visible_cons_of_isComment comment, later]
    · rename_i other
      have other : lexeme.isComment = false := by simpa using other
      simp [bareAll, Token.bare, Token.stripped, lexemesAll, Bare.lexemes, visible_cons other, later]
  | .group bracket children span line :: rest => by
    have inner := lexemes_stripComments children
    have later := lexemes_stripComments rest
    simp [Token.stripComments, Token.isComment, bareAll, Token.bare, Token.stripped, lexemesAll,
      Bare.lexemes, inner, later]

theorem nestedAll_stripComments : ∀ {tokens : List Token}, NestedAll (bareAll tokens) →
    NestedAll (bareAll (Token.stripComments tokens))
  | [], _ => trivial
  | .leaf lexeme span line :: rest, nested => by
    have later := nestedAll_stripComments nested.2
    rw [Token.stripComments]
    split
    · exact later
    · exact ⟨nested.1, later⟩
  | .group bracket children span line :: rest, nested => by
    rw [Token.stripComments]
    have inner : NestedAll (bareAll children) := nested.1
    exact ⟨nestedAll_stripComments inner, nestedAll_stripComments nested.2⟩

theorem Nests.nestedAll {flat trees : List Token} (h : Nests flat trees) : NestedAll (bareAll trees) := by
  induction h with
  | nil => trivial
  | leaf plain _ ih => exact ⟨plain, ih⟩
  | group _ _ inner_ih ih => exact ⟨inner_ih, ih⟩

/-! ## Semicolons of a text -/

theorem isInline_of_number {n : NumberText} {lexeme : Lexeme} (h : n.lexeme = .ok lexeme) :
    lexeme.isInline := by
  cases n with
  | hex digits | int digits =>
    simp only [NumberText.lexeme] at h
    split at h <;> cases h
    rfl
  | float whole fraction =>
    cases h
    rfl

/-- A lexeme other than a comment whose line does not go on behind it is a text over several lines. -/
theorem isInline_of_spelled {lexeme : Lexeme} {written behind : List Char}
    (h : lexeme.Spelled written behind) (other : lexeme.isComment = false) (newline : '\n' ∉ written) :
    lexeme.isInline := by
  cases h with
  | text => simpa [Lexeme.isInline] using newline
  | comment => cases other
  | name => rfl
  | number _ _ value => exact isInline_of_number value
  | symbol => rfl

/-- In a text, a semicolon that separates stands behind a lexeme that has started on its line. The
flag tells of the last visible lexeme; behind a comment nothing but the end of the line comes. -/
theorem Scans.separated {last : Option Nat} {line offset : Nat} {text : List Char} {flat : List Token}
    (h : Scans last line offset text flat) {front : Bool}
    (past : ∀ before, last = some before → before ≤ line)
    (here : last = some line → front ∨ ∀ c ∈ text.head?, c = '\n') :
    Separated front (visible (lexemesAll (bareAll flat))) := by
  induction h generalizing front with
  | done => trivial
  | @blank last line offset c text flat _ _ ih =>
    refine ih (fun before eq => Nat.le_add_right_of_le (past before eq)) fun eq => .inl ?_
    -- the same line goes on, so the blank is no newline
    have same : line + [c].count '\n' ≤ line := past _ eq
    have newline : c ≠ '\n' := by
      rintro rfl
      rw [List.count_singleton_self] at same
      omega
    have stays : [c].count '\n' = 0 := by omega
    rw [stays] at eq
    exact (here eq).resolve_right fun all => newline (all c rfl)
  | @lexeme last line offset lexeme written text flat spelled begins _ ih =>
    rw [bareAll, lexemesAll, Token.bare, Bare.lexemes, List.singleton_append]
    have later (before : Nat) (eq : some line = some before) : before ≤ line + written.count '\n' := by
      cases eq
      exact Nat.le_add_right _ _
    cases comment : lexeme.isComment with
    | true =>
      rw [visible_cons_of_isComment comment]
      cases spelled with
      | comment _ ends => exact ih later fun _ => .inr ends
      | number _ _ value => cases lexeme <;> cases comment; cases isInline_of_number value
      | _ => cases comment
    | false =>
      rw [visible_cons comment]
      refine ⟨fun last' line' behind => ?_, ih later fun eq => .inl ?_⟩
      · cases lexeme with
        | comment => cases comment
        | symbol symbol =>
          cases symbol with
          | semicolon =>
            refine behind ((here begins).resolve_right fun all => ?_)
            obtain ⟨c, rest, rfl⟩ := List.exists_cons_of_ne_nil spelled.ne_nil
            have first : c = '\n' := all c rfl
            exact newline_not_mem_spelled spelled rfl (first ▸ List.mem_cons_self ..)
          | _ => trivial
        | _ => trivial
      · refine isInline_of_spelled spelled comment (List.count_eq_zero.mp ?_)
        have same := Option.some.inj eq
        omega

/-! ## Descriptions -/

theorem Symbol.written_render (symbol : Symbol) : symbol.Written symbol.render.toList := by
  cases symbol with
  | opening bracket => cases bracket <;> exact .single rfl
  | closing bracket => cases bracket <;> exact .single rfl
  | equalEqual | bangEqual | lessEqual | greaterEqual => exact .pair rfl rfl rfl
  | _ => exact .single rfl

/-- What comes behind a token of a description: a blank or the end of a group. -/
def endsToken (c : Char) : Prop := c = ' ' ∨ c = ')' ∨ c = '\x7d'

theorem breaksNumber_of_endsToken {c : Char} (h : endsToken c) : breaksNumber c := by
  rcases h with rfl | rfl | rfl <;> decide +kernel

theorem pair?_of_endsToken {c : Char} (h : endsToken c) (symbol next : Symbol)
    (found : Symbol.ofChar? c = some next) : symbol.pair? next = none := by
  rcases h with rfl | rfl | rfl <;> cases found <;> cases symbol <;> rfl

/-- A lexeme is read again from the way it is described. -/
theorem Lexeme.Legal.spelled {lexeme : Lexeme} (legal : lexeme.Legal) (other : lexeme.isComment = false)
    {behind : List Char} (ends : ∀ c ∈ behind.head?, endsToken c) :
    lexeme.Spelled lexeme.render.toList behind := by
  have stops : ∀ c ∈ behind.head?, breaksNumber c := fun c hc => breaksNumber_of_endsToken (ends c hc)
  cases lexeme with
  | hex value => exact spelled_hex value fun c hc => (stops c hc).1
  | int value =>
    obtain ⟨n, small, rfl, text⟩ := exists_natural legal
    rw [Lexeme.render, text]
    exact spelled_decimal small stops
  | float value => cases legal
  | text value => exact spelled_text legal behind
  | name value => exact spelled_name legal fun c hc => (stops c hc).1
  | comment value => cases other
  | symbol symbol => exact .symbol symbol.written_render fun c hc => pair?_of_endsToken (ends c hc) symbol

mutual

theorem lays_render : ∀ (t : Token) {behind : List Char} {lexemes : List Lexeme},
    (∀ lexeme ∈ t.bare.lexemes, lexeme.Legal ∧ lexeme.isComment = false) →
    (∀ c ∈ behind.head?, endsToken c) → Lays behind lexemes →
    Lays (t.render.toList ++ behind) (t.bare.lexemes ++ lexemes)
  | .leaf lexeme span line, behind, lexemes, good, ends, lays => by
    obtain ⟨legal, other⟩ := good lexeme (List.mem_singleton_self _)
    exact .lexeme (legal.spelled other ends) lays
  | .group bracket children span line, behind, lexemes, good, _, lays => by
    have inner : ∀ lexeme ∈ lexemesAll (bareAll children), lexeme.Legal ∧ lexeme.isComment = false :=
      fun lexeme hm => good lexeme (by simp [Token.bare, Bare.lexemes, hm])
    cases bracket with
    | brace =>
      have closed := lays_bracket (c := '\x7d') rfl ⟨.brace, .inr rfl⟩ lays
      have inside := lays_renderAll children inner (by rintro c ⟨⟩; exact .inr (.inr rfl)) closed
      have opened := lays_bracket (c := '\x7b') rfl ⟨.brace, .inl rfl⟩ inside
      simpa [Token.render, Symbol.render, Token.bare, Bare.lexemes] using opened
    | paren =>
      have closed := lays_bracket (c := ')') rfl ⟨.paren, .inr rfl⟩ lays
      have inside := lays_renderAll children inner (by rintro c ⟨⟩; exact .inr (.inl rfl)) closed
      have opened := lays_bracket (c := '(') rfl ⟨.paren, .inl rfl⟩ inside
      simpa [Token.render, Symbol.render, Token.bare, Bare.lexemes] using opened

theorem lays_renderAll : ∀ (tokens : List Token) {behind : List Char} {lexemes : List Lexeme},
    (∀ lexeme ∈ lexemesAll (bareAll tokens), lexeme.Legal ∧ lexeme.isComment = false) →
    (∀ c ∈ behind.head?, endsToken c) → Lays behind lexemes →
    Lays ((" ".intercalate (Token.renderAll tokens)).toList ++ behind)
      (lexemesAll (bareAll tokens) ++ lexemes)
  | [], behind, lexemes, _, _, lays => by simpa [Token.renderAll, bareAll, lexemesAll] using lays
  | [t], behind, lexemes, good, ends, lays => by
    simp only [bareAll, lexemesAll, List.append_nil] at good
    simpa [Token.renderAll, bareAll, lexemesAll] using lays_render t good ends lays
  | t :: next :: rest, behind, lexemes, good, ends, lays => by
    rw [bareAll, lexemesAll, List.forall_mem_append] at good
    have later := lays_renderAll (next :: rest) good.2 ends lays
    have first := lays_render t good.1 (by rintro c ⟨⟩; exact .inl rfl) later.blank
    rw [Token.renderAll, bareAll, lexemesAll, List.append_assoc]
    simpa [Token.renderAll, String.intercalate_cons_cons] using first

end

/-- The tokens of a text without fractional numbers, comments left out, are read again from their
description, apart from places. -/
theorem tokenize_describe {source : String} {tokens : List Token} (h : tokenize source = .ok tokens)
    (floatless : Floatless tokens) :
    ∃ again, tokenize (Token.describe (Token.stripComments tokens)) = .ok again ∧
      bareAll again = bareAll (Token.stripComments tokens) := by
  have legal := legalAll_stripComments (legalAll_of_tokenize h floatless)
  obtain ⟨flat, scans, nests⟩ := tokenize_eq_ok_iff.mp h
  have separated : Separated false (lexemesAll (bareAll (Token.stripComments tokens))) := by
    rw [lexemes_stripComments, nests.lexemes]
    exact scans.separated nofun nofun
  have good : ∀ lexeme ∈ lexemesAll (bareAll (Token.stripComments tokens)),
      lexeme.Legal ∧ lexeme.isComment = false := by
    intro lexeme hm
    refine ⟨legal lexeme hm, ?_⟩
    rw [lexemes_stripComments] at hm
    simpa using (List.mem_filter.mp hm).2
  have lays := lays_renderAll (Token.stripComments tokens) good (by rintro c ⟨⟩) .done
  rw [List.append_nil, List.append_nil] at lays
  exact tokenize_of_lays lays separated (nestedAll_stripComments nests.nestedAll)

/-- A comment behind a text over two lines, and semicolons in groups. -/
theorem tokenize_describe_lines : ∃ tokens again,
    tokenize "x = \"a\nb\" ; c\n\x7b(y ;= =);\x7d 0x0F" = .ok tokens ∧
      Token.describe (Token.stripComments tokens) = "x = \"a\nb\" \x7b(y ; = =) ;\x7d 0xf" ∧
      tokenize "x = \"a\nb\" \x7b(y ; = =) ;\x7d 0xf" = .ok again ∧
      bareAll again = bareAll (Token.stripComments tokens) := by
  have found : (do
      let tokens ← (tokenize "x = \"a\nb\" ; c\n\x7b(y ;= =);\x7d 0x0F").toOption
      if Floatless tokens ∧
        Token.describe (Token.stripComments tokens) = "x = \"a\nb\" \x7b(y ; = =) ;\x7d 0xf"
      then some () else none) = some () := by decide +kernel
  obtain ⟨tokens, lexed, found⟩ := Option.bind_eq_some_iff.mp found
  split at found
  · rename_i good
    obtain ⟨again, read, same⟩ := tokenize_describe (toOption_eq_some lexed) good.1
    rw [good.2] at read
    exact ⟨tokens, again, toOption_eq_some lexed, good.2, read, same⟩
  · cases found

end WindowedClosures
