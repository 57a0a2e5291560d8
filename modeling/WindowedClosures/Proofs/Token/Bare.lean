import WindowedClosures.Proofs.Token.Coverage

/-!
# Tokens without their places

What a token is apart from where it stands. A text on one line that is laid out in lexemes with
blanks between them is tokenized, and its tokens can be read off the lexemes, if each of these may
stand behind the one in front of it. The lexemes that a text can have are written so that they are
read again.
-/

namespace WindowedClosures

/-- A token without its place. -/
inductive Bare where
  | leaf (lexeme : Lexeme)
  | group (bracket : Bracket) (children : List Bare)

mutual

/-- What a token is, apart from where it stands. -/
def Token.bare : Token → Bare
  | .leaf lexeme _ _ => .leaf lexeme
  | .group bracket children _ _ => .group bracket (bareAll children)

def bareAll : List Token → List Bare
  | [] => []
  | t :: rest => t.bare :: bareAll rest

end

mutual

/-- The lexemes of a token in order, brackets included. -/
def Bare.lexemes : Bare → List Lexeme
  | .leaf lexeme => [lexeme]
  | .group bracket children =>
    .symbol (.opening bracket) :: (lexemesAll children ++ [.symbol (.closing bracket)])

def lexemesAll : List Bare → List Lexeme
  | [] => []
  | b :: rest => b.lexemes ++ lexemesAll rest

end

mutual

/-- No bracket stands outside a group. -/
def Bare.Nested : Bare → Prop
  | .leaf lexeme => lexeme.Plain
  | .group _ children => NestedAll children

def NestedAll : List Bare → Prop
  | [] => True
  | b :: rest => b.Nested ∧ NestedAll rest

end

section

variable {a b : List Bare} {tokens : List Token} {t : Token}

theorem bareAll_eq (tokens : List Token) : bareAll tokens = tokens.map Token.bare := by
  induction tokens with
  | nil => rfl
  | cons t rest ih => simp [bareAll, ih]

@[simp] theorem lexemesAll_append : lexemesAll (a ++ b) = lexemesAll a ++ lexemesAll b := by
  induction a with
  | nil => rfl
  | cons first rest ih => simp [lexemesAll, ih]

@[simp] theorem nestedAll_append : NestedAll (a ++ b) ↔ NestedAll a ∧ NestedAll b := by
  induction a with
  | nil => simp [NestedAll]
  | cons first rest ih => simp [NestedAll, ih, and_assoc]

theorem bareAll_eq_nil (h : bareAll tokens = []) : tokens = [] := by
  rw [bareAll_eq] at h
  exact List.map_eq_nil_iff.mp h

theorem bareAll_eq_cons {first : Bare} (h : bareAll tokens = first :: a) :
    ∃ t rest, tokens = t :: rest ∧ t.bare = first ∧ bareAll rest = a := by
  rw [bareAll_eq] at h
  obtain ⟨t, rest, rfl, here, later⟩ := List.map_eq_cons_iff.mp h
  exact ⟨t, rest, rfl, here, (bareAll_eq rest).trans later⟩

theorem bareAll_eq_append (h : bareAll tokens = a ++ b) :
    ∃ front back, tokens = front ++ back ∧ bareAll front = a ∧ bareAll back = b := by
  rw [bareAll_eq] at h
  obtain ⟨front, back, rfl, first, second⟩ := List.map_eq_append_iff.mp h
  exact ⟨front, back, rfl, (bareAll_eq front).trans first, (bareAll_eq back).trans second⟩

theorem bare_eq_leaf {lexeme : Lexeme} (h : t.bare = .leaf lexeme) :
    ∃ span line, t = .leaf lexeme span line := by
  cases t with
  | leaf found span line =>
    cases h
    exact ⟨span, line, rfl⟩
  | group => cases h

theorem bare_eq_group {bracket : Bracket} {children : List Bare} (h : t.bare = .group bracket children) :
    ∃ inner span line, t = .group bracket inner span line ∧ bareAll inner = children := by
  cases t with
  | leaf => cases h
  | group found inner span line =>
    cases h
    exact ⟨inner, span, line, rfl, rfl⟩

end

/-! ## From lexemes to tokens -/

theorem Nests.append {flat trees more others : List Token} (h : Nests flat trees)
    (h' : Nests more others) : Nests (flat ++ more) (trees ++ others) := by
  induction h with
  | nil => exact h'
  | leaf plain _ ih => exact .leaf plain ih
  | group inner _ _ ih =>
    rw [List.cons_append, List.append_assoc]
    exact .group inner ih

mutual

/-- A flat row with the lexemes of a token nests into that token. -/
theorem nests_of_bare : ∀ (b : Bare) {flat : List Token}, b.Nested →
    bareAll flat = b.lexemes.map Bare.leaf → ∃ t, Nests flat [t] ∧ t.bare = b
  | .leaf lexeme, flat, plain, eq => by
    obtain ⟨t, rest, rfl, here, later⟩ := bareAll_eq_cons eq
    obtain ⟨span, line, rfl⟩ := bare_eq_leaf here
    obtain rfl := bareAll_eq_nil later
    exact ⟨_, .leaf plain .nil, rfl⟩
  | .group bracket children, flat, nested, eq => by
    simp only [Bare.lexemes, List.map_cons, List.map_append, List.map_nil] at eq
    obtain ⟨first, rest, rfl, here, later⟩ := bareAll_eq_cons eq
    obtain ⟨inner, back, rfl, inside, behind⟩ := bareAll_eq_append later
    obtain ⟨last, rest, rfl, there, none⟩ := bareAll_eq_cons behind
    obtain ⟨start, line, rfl⟩ := bare_eq_leaf here
    obtain ⟨stop, lastLine, rfl⟩ := bare_eq_leaf there
    obtain rfl := bareAll_eq_nil none
    obtain ⟨trees, nests, same⟩ := nests_of_bareAll children nested inside
    exact ⟨_, .group nests .nil, by rw [Token.bare, same]⟩

theorem nests_of_bareAll : ∀ (bs : List Bare) {flat : List Token}, NestedAll bs →
    bareAll flat = (lexemesAll bs).map Bare.leaf → ∃ trees, Nests flat trees ∧ bareAll trees = bs
  | [], flat, _, eq => by
    obtain rfl := bareAll_eq_nil eq
    exact ⟨[], .nil, rfl⟩
  | b :: bs, flat, nested, eq => by
    rw [lexemesAll, List.map_append] at eq
    obtain ⟨front, back, rfl, first, second⟩ := bareAll_eq_append eq
    obtain ⟨t, nests, same⟩ := nests_of_bare b nested.1 first
    obtain ⟨trees, more, others⟩ := nests_of_bareAll bs nested.2 second
    exact ⟨t :: trees, nests.append more, by rw [bareAll, same, others]⟩

end

/-! ## From text to lexemes -/

/-- A text is spelled by lexemes with blanks between them. -/
inductive Lays : List Char → List Lexeme → Prop
  | done : Lays [] []
  | blank {text : List Char} {lexemes : List Lexeme} : Lays text lexemes → Lays (' ' :: text) lexemes
  | lexeme {lexeme : Lexeme} {written text : List Char} {lexemes : List Lexeme} :
      lexeme.Spelled written text → Lays text lexemes → Lays (written ++ text) (lexeme :: lexemes)

/-- Whether the line that a lexeme starts on goes on behind it, with room for a semicolon. -/
def Lexeme.isInline : Lexeme → Bool
  | .text value => '\n' ∉ value.toList
  | .comment _ => false
  | _ => true

/-- Every lexeme of a row may begin where it stands, if blanks are all that is between two of them.
The flag says whether a lexeme in front of the row has started on the same line. -/
def Separated : Bool → List Lexeme → Prop
  | _, [] => True
  | front, lexeme :: rest =>
    (∀ last line, (front → last = some line) → lexeme.Begins last line) ∧
      Separated lexeme.isInline rest

/-- A lexeme that may stand anywhere on a line. -/
def Lexeme.Anywhere (lexeme : Lexeme) : Prop := ∀ last line, lexeme.Begins last line

theorem separated_of_anywhere {lexemes : List Lexeme} (h : ∀ lexeme ∈ lexemes, lexeme.Anywhere)
    (front : Bool) : Separated front lexemes := by
  induction lexemes generalizing front with
  | nil => trivial
  | cons lexeme rest ih =>
    have here := h lexeme (List.mem_cons_self ..)
    exact ⟨fun last line _ => here last line, ih (fun x hx => h x (List.mem_cons_of_mem _ hx)) _⟩

theorem newline_not_mem_spelled {lexeme : Lexeme} {written behind : List Char}
    (h : lexeme.Spelled written behind) (inline : lexeme.isInline) : '\n' ∉ written := by
  cases h with
  | text => simpa [Lexeme.isInline] using inline
  | comment => cases inline
  | name alphabetic all _ => exact newline_not_mem_name alphabetic all
  | number formed => exact NumberText.newline_not_mem_written formed
  | symbol spelled => exact newline_not_mem_symbols spelled

theorem Lays.scans {text : List Char} {lexemes : List Lexeme} (h : Lays text lexemes) {front : Bool}
    (separated : Separated front lexemes) {last : Option Nat} {line : Nat}
    (behind : front → last = some line) (offset : Nat) :
    ∃ flat, Scans last line offset text flat ∧ bareAll flat = lexemes.map Bare.leaf := by
  induction h generalizing front last line offset with
  | done => exact ⟨[], .done, rfl⟩
  | blank _ ih =>
    obtain ⟨flat, scans, same⟩ := ih separated behind (offset + ' '.utf8Size)
    exact ⟨flat, .blank (by decide) scans, same⟩
  | @lexeme lexeme written _ _ spelled _ ih =>
    have goes_on : lexeme.isInline → some line = some (line + written.count '\n') := by
      intro inline
      rw [List.count_eq_zero.mpr (newline_not_mem_spelled spelled inline), Nat.add_zero]
    obtain ⟨flat, scans, same⟩ := ih separated.2 goes_on (offset + byteLength written)
    exact ⟨_, .lexeme spelled (separated.1 last line behind) scans, by simp [bareAll, Token.bare, same]⟩

/-- A text laid out in the lexemes of tokens has these tokens. -/
theorem tokenize_of_lays {source : String} {bs : List Bare} (lays : Lays source.toList (lexemesAll bs))
    (separated : Separated false (lexemesAll bs)) (nested : NestedAll bs) :
    ∃ tokens, tokenize source = .ok tokens ∧ bareAll tokens = bs := by
  have first : false → (none : Option Nat) = some 1 := nofun
  obtain ⟨flat, scans, same⟩ := lays.scans separated first 0
  obtain ⟨tokens, nests, eq⟩ := nests_of_bareAll bs nested same
  exact ⟨tokens, tokenize_eq_ok_iff.mpr ⟨flat, scans, nests⟩, eq⟩

theorem lays_bracket {c : Char} {symbol : Symbol} (h : Symbol.ofChar? c = some symbol)
    (kind : ∃ bracket, symbol = .opening bracket ∨ symbol = .closing bracket) {behind : List Char}
    {lexemes : List Lexeme} (lays : Lays behind lexemes) :
    Lays (c :: behind) (.symbol symbol :: lexemes) := by
  have spelled : (Lexeme.symbol symbol).Spelled [c] behind := by
    refine .symbol (.single h) fun _ _ next _ => ?_
    obtain ⟨bracket, rfl | rfl⟩ := kind <;> rfl
  exact .lexeme spelled lays

/-! ## Lexemes as they are written -/

/-- A character that does not run on a name, and not a number either. -/
abbrev breaks (c : Char) : Prop := isNameChar c = false

/-- A character that a number with a point does not go on with either. -/
abbrev breaksNumber (c : Char) : Prop := isNameChar c = false ∧ c ≠ '.'

/-- A text that is a name. -/
def IsName (name : String) : Prop :=
  ∃ c rest, name = String.ofList (c :: rest) ∧ Text.isAlphabetic c ∧ ∀ x ∈ rest, isNameChar x

theorem spelled_name {name : String} (h : IsName name) {behind : List Char}
    (ends : ∀ c ∈ behind.head?, breaks c) : (Lexeme.name name).Spelled name.toList behind := by
  obtain ⟨c, rest, rfl, alphabetic, all⟩ := h
  rw [String.toList_ofList]
  exact .name alphabetic all ends

theorem spelled_text {value : String} (h : '"' ∉ value.toList) (behind : List Char) :
    (Lexeme.text value).Spelled ("\"" ++ value ++ "\"").toList behind := by
  have spelled : (Lexeme.text (String.ofList value.toList)).Spelled _ behind := .text h
  rw [String.ofList_toList] at spelled
  simpa using spelled

theorem digitValue_digitChar {d : Nat} (h : d < 16) : NumberText.digitValue d.digitChar = d := by
  have all : ∀ d : Fin 16, NumberText.digitValue d.val.digitChar = d.val := by decide
  exact all ⟨d, h⟩

theorem isHexDigit_digitChar {d : Nat} (h : d < 16) : NumberText.isHexDigit d.digitChar := by
  have all : ∀ d : Fin 16, NumberText.isHexDigit d.val.digitChar := by decide
  exact all ⟨d, h⟩

/-- Reading the digits of a number gives the number. -/
theorem valueOf_toDigits {base : Nat} (one : 1 < base) (le : base ≤ 16) (n : Nat) :
    NumberText.valueOf base (Nat.toDigits base n) = n := by
  induction n using Nat.strongRecOn with
  | ind n ih =>
    by_cases small : n < base
    · rw [Nat.toDigits_of_lt_base small]
      simp [NumberText.valueOf, digitValue_digitChar (Nat.lt_of_lt_of_le small le)]
    · have large := Nat.le_of_not_lt small
      have digit : n % base < 16 := Nat.lt_of_lt_of_le (Nat.mod_lt n (by omega)) le
      have front := ih (n / base) (Nat.div_lt_self (by omega) one)
      rw [NumberText.valueOf] at front ⊢
      rw [Nat.toDigits_of_base_le one large, List.foldl_append, front]
      simp only [List.foldl_cons, List.foldl_nil, digitValue_digitChar digit]
      rw [Nat.mul_comm]
      exact Nat.div_add_mod n base

theorem isHexDigit_of_mem_toDigits {n : Nat} {c : Char} (h : c ∈ Nat.toDigits 16 n) :
    NumberText.isHexDigit c := by
  induction n using Nat.strongRecOn with
  | ind n ih =>
    by_cases small : n < 16
    · rw [Nat.toDigits_of_lt_base small, List.mem_singleton] at h
      rw [h]
      exact isHexDigit_digitChar small
    · rw [Nat.toDigits_of_base_le (by decide) (Nat.le_of_not_lt small), List.mem_append,
        List.mem_singleton] at h
      rcases h with front | rfl
      · exact ih (n / 16) (Nat.div_lt_self (by omega) (by decide)) front
      · exact isHexDigit_digitChar (Nat.mod_lt n (by decide))

/-- The digits of a number might go on a name. -/
theorem isNameChar_of_isHexDigit {c : Char} (h : NumberText.isHexDigit c) : isNameChar c := by
  have ascii : c.toNat < 128 := by
    simp only [NumberText.isHexDigit, Char.isDigit, Bool.or_eq_true, Bool.and_eq_true,
      decide_eq_true_eq] at h
    rcases h with (⟨-, high⟩ | ⟨-, high⟩) | ⟨-, high⟩
    · exact Nat.lt_of_le_of_lt high (by decide)
    · exact Nat.lt_of_le_of_lt high (by decide)
    · exact Nat.lt_of_le_of_lt high (by decide)
  have all : ∀ k < 128, NumberText.isHexDigit (Char.ofNat k) → isNameChar (Char.ofNat k) := by
    decide +kernel
  have found := all c.toNat ascii
  rw [Char.ofNat_toNat] at found
  exact found h

theorem breaks.isHexDigit {c : Char} (h : breaks c) : NumberText.isHexDigit c = false := by
  cases hex : NumberText.isHexDigit c with
  | false => rfl
  | true => exact absurd ((isNameChar_of_isHexDigit hex).symm.trans h) (by decide)

theorem breaks.isDigit {c : Char} (h : breaks c) : c.isDigit = false := by
  have none := h.isHexDigit
  simp only [NumberText.isHexDigit, Bool.or_eq_false_iff] at none
  exact none.1.1

/-- Decimal digits, as a count or a number that is not negative is written. -/
theorem spelled_decimal {n : Nat} (h : n < 0x80000000) {behind : List Char}
    (ends : ∀ c ∈ behind.head?, breaksNumber c) :
    (Lexeme.int (Int32.ofNat n)).Spelled (toString n).toList behind := by
  have digits : (toString n).toList = (NumberText.int (Nat.toDigits 10 n)).written := by
    rw [Nat.toString_eq_ofList_toDigits, String.toList_ofList]
    rfl
  have formed : (NumberText.int (Nat.toDigits 10 n)).Formed :=
    ⟨Nat.toDigits_ne_nil, fun _ => Nat.isDigit_of_mem_toDigits (by decide) (by decide)⟩
  have value : (NumberText.int (Nat.toDigits 10 n)).lexeme = .ok (.int (Int32.ofNat n)) := by
    simp [NumberText.lexeme, valueOf_toDigits, h]
  rw [digits]
  refine .number formed ?_ value
  intro c hc
  obtain ⟨stops, point⟩ := ends c hc
  refine ⟨breaks.isDigit stops, point, ?_⟩
  rintro - rfl
  exact absurd stops (by decide +kernel)

/-- A number that is not negative is a natural number of 31 bits. -/
theorem exists_natural {value : Int32} (h : 0 ≤ value.toInt) :
    ∃ n < 0x80000000, Int32.ofNat n = value ∧ toString value.toInt = toString n := by
  obtain ⟨n, eq⟩ := Int.eq_ofNat_of_zero_le h
  refine ⟨n, ?_, ?_, ?_⟩
  · have := value.toInt_lt
    omega
  · rw [← Int32.ofInt_eq_ofNat, ← eq, Int32.ofInt_toInt]
  · rw [eq]
    rfl

theorem spelled_hex (value : UInt32) {behind : List Char} (ends : ∀ c ∈ behind.head?, breaks c) :
    (Lexeme.hex value).Spelled ("0x" ++ Text.hexDigits value.toNat).toList behind := by
  have written : ("0x" ++ Text.hexDigits value.toNat).toList =
      (NumberText.hex (Nat.toDigits 16 value.toNat)).written := by
    simp [Text.hexDigits, NumberText.written]
  have lexeme : (NumberText.hex (Nat.toDigits 16 value.toNat)).lexeme = .ok (.hex value) := by
    simp [NumberText.lexeme, valueOf_toDigits, Nat.toDigits_ne_nil, value.toNat_lt_size]
  rw [written]
  exact .number (fun _ => isHexDigit_of_mem_toDigits) (fun c hc => breaks.isHexDigit (ends c hc)) lexeme

/-! ## Lexemes of a text -/

/-- What every lexeme of a text is that has no fractional number. -/
def Lexeme.Legal : Lexeme → Prop
  | .name value => IsName value
  | .text value => '"' ∉ value.toList
  | .int value => 0 ≤ value.toInt
  | .float _ => False
  | _ => True

/-- A fractional number. -/
def Lexeme.isFloat : Lexeme → Bool
  | .float _ => true
  | _ => false

/-- No fractional number stands among tokens, at any depth. -/
def Floatless (tokens : List Token) : Prop :=
  ∀ lexeme ∈ lexemesAll (bareAll tokens), lexeme.isFloat = false

instance (tokens : List Token) : Decidable (Floatless tokens) :=
  inferInstanceAs (Decidable (∀ lexeme ∈ lexemesAll (bareAll tokens), lexeme.isFloat = false))

/-- The lexemes of tokens, at every depth, are legal. -/
def LegalAll (tokens : List Token) : Prop := ∀ lexeme ∈ lexemesAll (bareAll tokens), lexeme.Legal

section

variable {tokens rest : List Token} {lexeme : Lexeme} {bracket : Bracket} {span : Span} {line : Nat}

@[simp] theorem bareAll_append : bareAll (tokens ++ rest) = bareAll tokens ++ bareAll rest := by
  simp [bareAll_eq]

@[simp] theorem legalAll_nil : LegalAll [] := by simp [LegalAll, bareAll, lexemesAll]

@[simp] theorem legalAll_append : LegalAll (tokens ++ rest) ↔ LegalAll tokens ∧ LegalAll rest := by
  simp [LegalAll, or_imp, forall_and]

@[simp] theorem legalAll_leaf :
    LegalAll (.leaf lexeme span line :: rest) ↔ lexeme.Legal ∧ LegalAll rest := by
  simp [LegalAll, bareAll, Token.bare, lexemesAll, Bare.lexemes]

@[simp] theorem legalAll_group :
    LegalAll (.group bracket tokens span line :: rest) ↔ LegalAll tokens ∧ LegalAll rest := by
  simp [LegalAll, bareAll, Token.bare, lexemesAll, Bare.lexemes, or_imp, forall_and, Lexeme.Legal]

end

theorem Lexeme.Spelled.legal {lexeme : Lexeme} {written behind : List Char}
    (h : lexeme.Spelled written behind) (floatless : lexeme.isFloat = false) : lexeme.Legal := by
  cases h with
  | text plain => simpa [Lexeme.Legal] using plain
  | comment => trivial
  | @name c rest _ alphabetic all _ => exact ⟨c, rest, rfl, alphabetic, all⟩
  | symbol => trivial
  | @number n _ _ formed _ value =>
    cases n with
    | hex digits =>
      simp only [NumberText.lexeme] at value
      split at value <;> cases value
      trivial
    | int digits =>
      simp only [NumberText.lexeme] at value
      split at value
      · rename_i small
        cases value
        rw [Lexeme.Legal, Int32.toInt_ofNat_of_lt small]
        exact Int.natCast_nonneg _
      · cases value
    | float front fraction =>
      cases value
      cases floatless

/-- Nesting keeps the lexemes. -/
theorem Nests.lexemes {flat trees : List Token} (h : Nests flat trees) :
    lexemesAll (bareAll trees) = lexemesAll (bareAll flat) := by
  induction h with
  | nil => rfl
  | leaf _ _ ih => simp [bareAll, Token.bare, lexemesAll, ih]
  | group _ _ inner_ih ih =>
    simp [bareAll, Token.bare, lexemesAll, Bare.lexemes, inner_ih, ih]

/-- Leaving out comments leaves out lexemes only. -/
theorem legalAll_stripComments : ∀ {tokens : List Token}, LegalAll tokens →
    LegalAll (Token.stripComments tokens)
  | [], _ => by simp [Token.stripComments]
  | .leaf lexeme span line :: rest, h => by
    rw [legalAll_leaf] at h
    rw [Token.stripComments]
    split
    · exact legalAll_stripComments h.2
    · exact legalAll_leaf.mpr ⟨h.1, legalAll_stripComments h.2⟩
  | .group bracket children span line :: rest, h => by
    rw [legalAll_group] at h
    rw [Token.stripComments]
    exact legalAll_group.mpr ⟨legalAll_stripComments h.1, legalAll_stripComments h.2⟩

theorem Scans.legal {last : Option Nat} {line offset : Nat} {text : List Char} {flat : List Token}
    (h : Scans last line offset text flat) (floatless : Floatless flat) : LegalAll flat := by
  induction h with
  | done => simp
  | blank _ _ ih => exact ih floatless
  | lexeme spelled _ _ ih =>
    simp only [Floatless, bareAll, Token.bare, lexemesAll, Bare.lexemes, List.singleton_append,
      List.forall_mem_cons] at floatless
    exact legalAll_leaf.mpr ⟨spelled.legal floatless.1, ih floatless.2⟩

theorem legalAll_of_tokenize {source : String} {tokens : List Token} (h : tokenize source = .ok tokens)
    (floatless : Floatless tokens) : LegalAll tokens := by
  obtain ⟨flat, scans, nests⟩ := tokenize_eq_ok_iff.mp h
  rw [Floatless, nests.lexemes] at floatless
  intro lexeme hm
  rw [nests.lexemes] at hm
  exact scans.legal floatless lexeme hm

end WindowedClosures
