import WindowedClosures.Proofs.Outcome
import WindowedClosures.Token.Scan

/-!
# What a scan reads

A text that can be scanned is a row of spellings with white space between them. `Lexeme.Spelled`
says how a lexeme is written and what may stand behind it: nothing that would continue it. `Scans`
puts spellings into a row and gives each the place where it starts. A scan succeeds with the
lexemes of such a row and with nothing else, so the row is the one way to read the text.
-/

namespace WindowedClosures

/-! ## Classes of characters -/

namespace Text

theorem mem_of_inRanges {n : Nat} {ranges : List (Nat × Nat)} (h : inRanges n ranges) :
    ∃ range ∈ ranges, range.1 ≤ n ∧ n ≤ range.2 := by
  induction ranges with
  | nil => cases h
  | cons range rest ih =>
    simp only [inRanges, Bool.and_eq_true, Bool.or_eq_true, decide_eq_true_eq] at h
    rcases h with ⟨low, high | later⟩
    · exact ⟨range, by simp, low, high⟩
    · obtain ⟨found, mem, bounds⟩ := ih later
      exact ⟨found, by simp [mem], bounds⟩

/-- No letter is white space. -/
theorem isAlphabetic_of_isWhiteSpace {c : Char} (h : isWhiteSpace c) : isAlphabetic c = false := by
  have apart : ∀ range ∈ whiteSpaceRanges, ∀ k ≤ range.2 - range.1,
      inRanges (range.1 + k) alphabeticRanges = false := by decide +kernel
  obtain ⟨range, mem, low, high⟩ := mem_of_inRanges h
  have found := apart range mem (c.toNat - range.1) (by omega)
  rwa [Nat.add_sub_cancel' low] at found

/-- An ASCII digit is one of ten code points. -/
theorem toNat_of_isDigit {c : Char} (h : c.isDigit) : ∃ k ≤ 9, c.toNat = 48 + k := by
  simp only [Char.isDigit, Bool.and_eq_true, decide_eq_true_eq, ge_iff_le] at h
  have low : 48 ≤ c.toNat := h.1
  have high : c.toNat ≤ 57 := h.2
  exact ⟨c.toNat - 48, by omega, by omega⟩

theorem isAlphabetic_of_isDigit {c : Char} (h : c.isDigit) : isAlphabetic c = false := by
  have apart : ∀ k ≤ 9, inRanges (48 + k) alphabeticRanges = false := by decide
  obtain ⟨k, le, eq⟩ := toNat_of_isDigit h
  rw [isAlphabetic, eq, apart k le]

theorem isWhiteSpace_of_isDigit {c : Char} (h : c.isDigit) : isWhiteSpace c = false := by
  have apart : ∀ k ≤ 9, inRanges (48 + k) whiteSpaceRanges = false := by decide
  obtain ⟨k, le, eq⟩ := toNat_of_isDigit h
  rw [isWhiteSpace, eq, apart k le]

end Text

/-- A character that starts none of the other things a scan looks for before it looks for letters,
digits and symbols. -/
structure Inked (c : Char) : Prop where
  newline : c ≠ '\n'
  blank : Text.isWhiteSpace c = false
  quote : c ≠ '"'

theorem inked_of_isAlphabetic {c : Char} (h : Text.isAlphabetic c) : Inked c ∧ c ≠ ';' := by
  refine ⟨⟨?_, ?_, ?_⟩, ?_⟩
  · rintro rfl
    revert h
    decide
  · cases blank : Text.isWhiteSpace c with
    | false => rfl
    | true => rw [Text.isAlphabetic_of_isWhiteSpace blank] at h; cases h
  · rintro rfl
    revert h
    decide
  · rintro rfl
    revert h
    decide

theorem inked_of_isDigit {c : Char} (h : c.isDigit) : Inked c ∧ c ≠ ';' := by
  refine ⟨⟨?_, Text.isWhiteSpace_of_isDigit h, ?_⟩, ?_⟩ <;> rintro rfl <;> revert h <;> decide

theorem inked_of_ofChar? {c : Char} {symbol : Symbol} (h : Symbol.ofChar? c = some symbol) :
    Inked c ∧ Text.isAlphabetic c = false ∧ c.isDigit = false ∧ isNameChar c = false := by
  unfold Symbol.ofChar? at h
  split at h
  all_goals first
    | cases h; done
    | exact ⟨⟨by decide, by decide, by decide⟩, by decide +kernel, by decide, by decide +kernel⟩

theorem isSymbolChar_of_ofChar? {c : Char} {symbol : Symbol} (h : Symbol.ofChar? c = some symbol) :
    isSymbolChar c := by
  simp [isSymbolChar, h]

/-! ## Runs of a class -/

section

variable {α : Type} {p : α → Bool} {run text : List α}

theorem takeWhile_run (hr : ∀ c ∈ run, p c) (ht : ∀ c ∈ text.head?, p c = false) :
    (run ++ text).takeWhile p = run := by
  rw [List.takeWhile_append_of_pos hr]
  cases text with
  | nil => simp
  | cons c rest => simp [ht c rfl]

theorem dropWhile_run (hr : ∀ c ∈ run, p c) (ht : ∀ c ∈ text.head?, p c = false) :
    (run ++ text).dropWhile p = text := by
  rw [List.dropWhile_append_of_pos hr]
  cases text with
  | nil => rfl
  | cons c rest => simp [ht c rfl]

theorem of_mem_takeWhile {c : α} (h : c ∈ text.takeWhile p) : p c :=
  List.all_eq_true.mp List.all_takeWhile c h

theorem head?_behind_run : ∀ c ∈ (text.dropWhile p).head?, p c = false := by
  intro c hc
  have stops := List.head?_dropWhile_not p text
  rw [hc] at stops
  exact stops

end

/-- A text behind a quote, cut behind the next quote. -/
theorem quoted_append {rest after : List Char} {quote : Char}
    (behind : rest.dropWhile (· != '"') = quote :: after) :
    '"' :: rest = ('"' :: (rest.takeWhile (· != '"') ++ ['"'])) ++ after := by
  have stops : (quote != '"') = false :=
    head?_behind_run quote (List.head?_eq_some_iff.mpr ⟨after, behind⟩)
  obtain rfl : quote = '"' := by simpa using stops
  have parts : rest.takeWhile (· != '"') ++ '"' :: after = rest := by
    rw [← behind]
    exact List.takeWhile_append_dropWhile
  rw [List.cons_append, List.append_assoc, List.singleton_append, parts]

theorem byteLength_quoted (offset : Nat) (body : List Char) :
    offset + byteLength ('"' :: (body ++ ['"'])) = offset + byteLength body + 2 := by
  have one : Char.utf8Size '"' = 1 := rfl
  simp only [byteLength_cons, byteLength_append, byteLength_nil, one]
  omega

theorem byteLength_semicolon (offset : Nat) (body : List Char) :
    offset + byteLength (';' :: body) = offset + 1 + byteLength body := by
  have one : Char.utf8Size ';' = 1 := rfl
  simp only [byteLength_cons, one]
  omega

/-! ## Numbers -/

namespace NumberText

/-- The digits are digits, and a decimal number has some in front of its point. -/
def Formed : NumberText → Prop
  | .hex digits => ∀ c ∈ digits, isHexDigit c
  | .int digits => digits ≠ [] ∧ ∀ c ∈ digits, c.isDigit
  | .float whole fraction => whole ≠ [] ∧ (∀ c ∈ whole, c.isDigit) ∧ ∀ c ∈ fraction, c.isDigit

/-- The text behind the number does not continue it. -/
def Ends : NumberText → List Char → Prop
  | .hex _, behind => ∀ c ∈ behind.head?, isHexDigit c = false
  | .int digits, behind =>
    ∀ c ∈ behind.head?, c.isDigit = false ∧ c ≠ '.' ∧ (digits = ['0'] → c ≠ 'x')
  | .float _ _, behind => ∀ c ∈ behind.head?, c.isDigit = false

theorem take_formed {c : Char} (h : c.isDigit) (rest : List Char) :
    (take (c :: rest)).1.Formed ∧ (take (c :: rest)).1.Ends (take (c :: rest)).2 := by
  have some_digits : (c :: rest).takeWhile Char.isDigit ≠ [] := by simp [h]
  unfold take
  split
  · exact ⟨fun _ => of_mem_takeWhile, head?_behind_run⟩
  · rename_i not_hex
    split
    · exact ⟨⟨some_digits, fun _ => of_mem_takeWhile, fun _ => of_mem_takeWhile⟩, head?_behind_run⟩
    · rename_i behind not_point
      refine ⟨⟨some_digits, fun _ => of_mem_takeWhile⟩, ?_⟩
      intro d hd
      refine ⟨head?_behind_run d hd, ?_, ?_⟩
      · rintro rfl
        obtain ⟨tail, eq⟩ := List.head?_eq_some_iff.mp hd
        exact not_point tail eq
      · rintro single rfl
        obtain ⟨tail, eq⟩ := List.head?_eq_some_iff.mp hd
        have whole := List.takeWhile_append_dropWhile (p := Char.isDigit) (l := c :: rest)
        rw [single, show (c :: rest).dropWhile Char.isDigit = 'x' :: tail from eq] at whole
        exact not_hex tail whole.symm

/-- Where the mark of a hexadecimal number follows a zero, the zero is the only decimal digit. -/
theorem zero_of_hex {digits behind rest : List Char} (some_digits : digits ≠ [])
    (all : ∀ c ∈ digits, c.isDigit) (eq : digits ++ behind = '0' :: 'x' :: rest) :
    digits = ['0'] ∧ behind = 'x' :: rest := by
  match digits with
  | [] => exact absurd rfl some_digits
  | [first] => simpa using eq
  | first :: second :: more =>
    simp only [List.cons_append, List.cons.injEq] at eq
    exact absurd (all second (by simp)) (by simp [eq.2.1])

theorem take_written {n : NumberText} {behind : List Char} (formed : n.Formed)
    (ends : n.Ends behind) : take (n.written ++ behind) = (n, behind) := by
  cases n with
  | hex digits =>
    simp only [written, List.cons_append, take]
    rw [takeWhile_run formed ends, dropWhile_run formed ends]
  | int digits =>
    obtain ⟨some_digits, all⟩ := formed
    have stops : ∀ c ∈ behind.head?, c.isDigit = false := fun c hc => (ends c hc).1
    simp only [written]
    unfold take
    split
    · rename_i rest eq
      obtain ⟨rfl, mark⟩ := zero_of_hex some_digits all eq
      exact absurd rfl ((ends 'x' (by simp [mark])).2.2 rfl)
    · rw [dropWhile_run all stops, takeWhile_run all stops]
      split
      · exact absurd rfl (ends '.' (by simp)).2.1
      · rfl
  | float whole fraction =>
    obtain ⟨some_digits, all, rest⟩ := formed
    have point : ∀ c ∈ ('.' :: (fraction ++ behind)).head?, Char.isDigit c = false := by
      intro c hc
      cases hc
      decide
    simp only [written, List.append_assoc, List.cons_append]
    unfold take
    split
    · rename_i tail eq
      cases (zero_of_hex some_digits all eq).2
    · rw [dropWhile_run all point, takeWhile_run all point]
      simp only
      rw [dropWhile_run rest ends, takeWhile_run rest ends]

/-- A number that has a value starts with a digit. -/
theorem written_cons {n : NumberText} (formed : n.Formed) :
    ∃ c rest, n.written = c :: rest ∧ c.isDigit := by
  cases n with
  | hex digits => exact ⟨'0', 'x' :: digits, rfl, by decide⟩
  | int digits =>
    obtain ⟨c, rest, rfl⟩ := List.exists_cons_of_ne_nil formed.1
    exact ⟨c, rest, rfl, formed.2 c (by simp)⟩
  | float whole fraction =>
    obtain ⟨c, rest, rfl⟩ := List.exists_cons_of_ne_nil formed.1
    exact ⟨c, rest ++ '.' :: fraction, rfl, formed.2.1 c (by simp)⟩

/-- A number is written with digits, the mark of a hexadecimal number and a point. -/
theorem of_mem_written {n : NumberText} (formed : n.Formed) {c : Char} (h : c ∈ n.written) :
    isHexDigit c ∨ c = 'x' ∨ c = '.' := by
  have digit {d : Char} (hd : d.isDigit) : isHexDigit d := by simp [isHexDigit, hd]
  cases n with
  | hex digits =>
    simp only [written, List.mem_cons] at h
    rcases h with rfl | rfl | h
    · exact .inl (by decide)
    · exact .inr (.inl rfl)
    · exact .inl (formed _ h)
  | int digits => exact .inl (digit (formed.2 _ h))
  | float whole fraction =>
    simp only [written, List.mem_append, List.mem_cons] at h
    rcases h with h | rfl | h
    · exact .inl (digit (formed.2.1 _ h))
    · exact .inr (.inr rfl)
    · exact .inl (digit (formed.2.2 _ h))

/-- No line ends inside a number. -/
theorem newline_not_mem_written {n : NumberText} (formed : n.Formed) : '\n' ∉ n.written := by
  intro mem
  rcases of_mem_written formed mem with h | h | h
  · exact absurd h (by decide)
  · cases h
  · cases h

end NumberText

/-! ## Spellings -/

/-- How a symbol is written: by its character, or by two for a comparison. -/
inductive Symbol.Written : Symbol → List Char → Prop
  | single {c : Char} {symbol : Symbol} : ofChar? c = some symbol → Written symbol [c]
  | pair {a b : Char} {first second symbol : Symbol} : ofChar? a = some first →
      ofChar? b = some second → pair? first second = some symbol → Written symbol [a, b]

/-- A lexeme, how it is written, and a text behind it that does not continue it. -/
inductive Lexeme.Spelled : Lexeme → List Char → List Char → Prop
  | text {body behind : List Char} : '"' ∉ body →
      Spelled (.text (String.ofList body)) ('"' :: (body ++ ['"'])) behind
  | comment {body behind : List Char} : '\n' ∉ body → (∀ c ∈ behind.head?, c = '\n') →
      Spelled (.comment (String.ofList body)) (';' :: body) behind
  | name {c : Char} {rest behind : List Char} : Text.isAlphabetic c → (∀ x ∈ rest, isNameChar x) →
      (∀ x ∈ behind.head?, isNameChar x = false) →
      Spelled (.name (String.ofList (c :: rest))) (c :: rest) behind
  | number {n : NumberText} {lexeme : Lexeme} {behind : List Char} : n.Formed → n.Ends behind →
      n.lexeme = .ok lexeme → Spelled lexeme n.written behind
  | symbol {symbol : Symbol} {written behind : List Char} : symbol.Written written →
      (∀ c ∈ behind.head?, ∀ next, Symbol.ofChar? c = some next → Symbol.pair? symbol next = none) →
      Spelled (.symbol symbol) written behind

/-- A semicolon starts a comment where no lexeme has started on the line, and only there. -/
def Lexeme.Begins (last : Option Nat) (line : Nat) : Lexeme → Prop
  | .comment _ => last ≠ some line
  | .symbol .semicolon => last = some line
  | _ => True

/-- The lexemes of a text with their places, where the last lexeme in front of the text started on
line `last`. -/
inductive Scans : Option Nat → Nat → Nat → List Char → List Token → Prop
  | done {last : Option Nat} {line offset : Nat} : Scans last line offset [] []
  | blank {last : Option Nat} {line offset : Nat} {c : Char} {text : List Char}
      {tokens : List Token} : Text.isWhiteSpace c →
      Scans last (line + [c].count '\n') (offset + c.utf8Size) text tokens →
      Scans last line offset (c :: text) tokens
  | lexeme {last : Option Nat} {line offset : Nat} {lexeme : Lexeme} {written text : List Char}
      {tokens : List Token} : lexeme.Spelled written text → lexeme.Begins last line →
      Scans (some line) (line + written.count '\n') (offset + byteLength written) text tokens →
      Scans last line offset (written ++ text)
        (.leaf lexeme ⟨offset, offset + byteLength written⟩ line :: tokens)

/-! ## Runs of symbols -/

theorem symbolsOf_cons {c : Char} {symbol : Symbol} (h : Symbol.ofChar? c = some symbol)
    (offset : Nat) (rest : List Char) : symbolsOf offset (c :: rest) =
      (symbol, ⟨offset, offset + c.utf8Size⟩) :: symbolsOf (offset + c.utf8Size) rest := by
  simp [symbolsOf, h]

theorem newline_not_mem_symbols {written : List Char} {symbol : Symbol}
    (h : symbol.Written written) : '\n' ∉ written := by
  cases h with
  | single hc =>
    have inked := (inked_of_ofChar? hc).1
    simp [inked.newline.symm]
  | pair ha hb _ =>
    have first := (inked_of_ofChar? ha).1
    have second := (inked_of_ofChar? hb).1
    simp [first.newline.symm, second.newline.symm]

theorem begins_of_ofChar? {c : Char} {symbol : Symbol} (h : Symbol.ofChar? c = some symbol)
    {last : Option Nat} {line : Nat} (hs : c = ';' → last = some line) :
    (Lexeme.symbol symbol).Begins last line := by
  unfold Lexeme.Begins
  split
  · trivial
  · rename_i eq
    injection eq with eq
    subst eq
    refine hs ?_
    unfold Symbol.ofChar? at h
    split at h <;> first | rfl | cases h
  · trivial

theorem begins_of_pair? {first second symbol : Symbol} (h : Symbol.pair? first second = some symbol)
    (last : Option Nat) (line : Nat) : (Lexeme.symbol symbol).Begins last line := by
  unfold Symbol.pair? at h
  split at h <;> first | cases h; done | cases h; trivial

theorem pair?_of_pair? {first second symbol : Symbol} (h : Symbol.pair? first second = some symbol)
    (next : Symbol) : symbol.pair? next = none := by
  unfold Symbol.pair? at h
  split at h <;> cases h <;> rfl

/-- The tokens that a run of symbols becomes. -/
def symbolTokens (offset line : Nat) (run : List Char) : List Token :=
  (joinPairs (symbolsOf offset run)).map fun (symbol, span) => .leaf (.symbol symbol) span line

section

variable {line : Nat} {run : List Char}

theorem symbolTokens_single {c : Char} {symbol : Symbol} (h : Symbol.ofChar? c = some symbol)
    (apart : ∀ d ∈ run.head?, ∀ next, Symbol.ofChar? d = some next → symbol.pair? next = none)
    (all : ∀ d ∈ run, isSymbolChar d) (offset : Nat) :
    symbolTokens offset line (c :: run) =
      .leaf (.symbol symbol) ⟨offset, offset + c.utf8Size⟩ line ::
        symbolTokens (offset + c.utf8Size) line run := by
  unfold symbolTokens
  rw [symbolsOf_cons h]
  cases run with
  | nil => simp [symbolsOf, joinPairs]
  | cons d rest =>
    obtain ⟨next, hd⟩ := Option.isSome_iff_exists.mp (all d (by simp))
    rw [symbolsOf_cons hd, joinPairs, apart d rfl next hd]
    rfl

theorem symbolTokens_pair {a b : Char} {first second symbol : Symbol}
    (ha : Symbol.ofChar? a = some first) (hb : Symbol.ofChar? b = some second)
    (h : first.pair? second = some symbol) (offset : Nat) :
    symbolTokens offset line (a :: b :: run) =
      .leaf (.symbol symbol) ⟨offset, offset + byteLength [a, b]⟩ line ::
        symbolTokens (offset + byteLength [a, b]) line run := by
  unfold symbolTokens
  rw [symbolsOf_cons ha, symbolsOf_cons hb, joinPairs, h]
  simp [Span.merge, Nat.add_assoc]

end

theorem newline_not_mem_name {c : Char} {rest : List Char} (alphabetic : Text.isAlphabetic c)
    (all : ∀ x ∈ rest, isNameChar x) : '\n' ∉ c :: rest := by
  intro mem
  rcases List.mem_cons.mp mem with here | inside
  · exact (inked_of_isAlphabetic alphabetic).1.newline here.symm
  · exact absurd (all _ inside) (by decide)

theorem begins_of_number {n : NumberText} {lexeme : Lexeme} (h : n.lexeme = .ok lexeme)
    {last : Option Nat} {line : Nat} : lexeme.Begins last line := by
  cases n with
  | hex digits | int digits =>
    simp only [NumberText.lexeme] at h
    split at h <;> cases h
    trivial
  | float whole fraction =>
    cases h
    trivial

/-- Where no line ends inside a lexeme, the scan goes on behind it on the same line. -/
theorem Scans.inline {last : Option Nat} {line offset : Nat} {lexeme : Lexeme}
    {written text : List Char} {tokens : List Token} (spelled : lexeme.Spelled written text)
    (begins : lexeme.Begins last line) (newline : '\n' ∉ written)
    (more : Scans (some line) line (offset + byteLength written) text tokens) :
    Scans last line offset (written ++ text)
      (.leaf lexeme ⟨offset, offset + byteLength written⟩ line :: tokens) := by
  refine .lexeme spelled begins ?_
  rw [List.count_eq_zero_of_not_mem newline]
  exact more

/-- A run of symbols is a row of spellings: a comparison where two symbols make one, or else a
single symbol. -/
theorem scans_run {line : Nat} {text : List Char} {tokens : List Token}
    (stops : ∀ c ∈ text.head?, isSymbolChar c = false) :
    ∀ (run : List Char) (last : Option Nat) (offset : Nat), (∀ c ∈ run, isSymbolChar c) →
      (run.head? = none ∨ run.head? = some ';' → last = some line) →
      Scans (some line) line (offset + byteLength run) text tokens →
      Scans last line offset (run ++ text) (symbolTokens offset line run ++ tokens)
  | [], last, offset, _, begins, more => by
    rw [begins (.inl rfl)]
    exact more
  | [c], last, offset, all, begins, more => by
    obtain ⟨symbol, hc⟩ := Option.isSome_iff_exists.mp (all c (by simp))
    rw [symbolTokens_single hc (by simp) (by simp)]
    refine .inline (.symbol (.single hc) ?_)
      (begins_of_ofChar? hc (fun eq => begins (.inr (by simp [eq]))))
      (newline_not_mem_symbols (.single hc)) more
    intro d hd next hn
    have none := stops d hd
    rw [isSymbolChar, hn] at none
    cases none
  | a :: b :: rest, last, offset, all, begins, more => by
    obtain ⟨first, ha⟩ := Option.isSome_iff_exists.mp (all a (by simp))
    obtain ⟨second, hb⟩ := Option.isSome_iff_exists.mp (all b (by simp))
    cases joined : first.pair? second with
    | none =>
      have apart : ∀ d ∈ (b :: rest).head?, ∀ next, Symbol.ofChar? d = some next →
          first.pair? next = none := by
        intro d hd next hn
        cases hd
        cases hb.symm.trans hn
        exact joined
      rw [symbolTokens_single ha apart (fun d hd => all d (by simp [hd]))]
      refine .inline ((.symbol (.single ha) apart : Lexeme.Spelled _ _ (b :: rest ++ text)))
        (begins_of_ofChar? ha (fun eq => begins (.inr (by simp [eq]))))
        (newline_not_mem_symbols (.single ha)) ?_
      refine scans_run stops (b :: rest) (some line) _ (fun d hd => all d (by simp [hd]))
        (fun _ => rfl) ?_
      simpa [Nat.add_assoc] using more
    | some symbol =>
      rw [symbolTokens_pair ha hb joined]
      refine .inline (.symbol (.pair ha hb joined) (fun d _ next _ => pair?_of_pair? joined next))
        (begins_of_pair? joined last line) (newline_not_mem_symbols (.pair ha hb joined)) ?_
      refine scans_run stops rest (some line) _ (fun d hd => all d (by simp [hd]))
        (fun _ => rfl) ?_
      simpa [Nat.add_assoc] using more

/-! ## The scan and the row -/

theorem scans_of_scanFrom (offset line index : Nat) (last : Option Nat) (text : List Char) :
    ∀ {tokens : List Token}, scanFrom offset line index last text = .ok tokens →
      Scans last line offset text tokens := by
  fun_induction scanFrom offset line index last text with
  | case1 =>
    intro tokens h
    cases h
    exact .done
  | case2 offset line index last rest ih =>
    intro tokens h
    exact .blank (by decide) (ih h)
  | case3 offset line index last c rest newline blank ih =>
    intro tokens h
    refine .blank blank ?_
    simpa [newline] using ih h
  | case4 => nofun
  | case5 offset line index last rest body quote after behind stop lines =>
    rename_i ih
    intro tokens h
    obtain ⟨more, scanned, h⟩ := except_bind_ok h
    cases h
    have long : stop = offset + byteLength ('"' :: (body ++ ['"'])) := by
      rw [byteLength_quoted]
    rw [quoted_append behind, long]
    refine .lexeme (.text ?_) trivial ?_
    · intro mem
      simpa using of_mem_takeWhile mem
    · have lines_eq : ('"' :: (body ++ ['"'])).count '\n' = body.count '\n' := by simp
      rw [lines_eq, ← long]
      exact ih scanned
  | case6 offset line index last c rest newline blank quote starts body stop =>
    rename_i ih
    intro tokens h
    obtain ⟨more, scanned, h⟩ := except_bind_ok h
    cases h
    obtain ⟨rfl, begins⟩ := starts
    have whole : ';' :: rest = (';' :: body) ++ rest.dropWhile (· != '\n') := by
      simp [body, List.takeWhile_append_dropWhile]
    have long : stop = offset + byteLength (';' :: body) := by
      rw [byteLength_semicolon]
    have inside : '\n' ∉ body := fun mem => by simpa using of_mem_takeWhile mem
    rw [whole, long]
    refine .inline (.comment inside ?_) begins ?_ (long ▸ ih scanned)
    · intro c hc
      simpa using head?_behind_run c hc
    · simpa using inside
  | case7 offset line index last c rest newline blank quote starts alphabetic name stop =>
    rename_i ih
    intro tokens h
    obtain ⟨more, scanned, h⟩ := except_bind_ok h
    cases h
    have whole : c :: rest = name ++ rest.dropWhile isNameChar := by
      simp [name, List.takeWhile_append_dropWhile]
    rw [whole]
    exact .inline (.name alphabetic (fun _ => of_mem_takeWhile) head?_behind_run) trivial
      (newline_not_mem_name alphabetic fun _ => of_mem_takeWhile) (ih scanned)
  | case8 => nofun
  | case9 offset line index last c rest newline blank quote starts alphabetic digit number stop
      lexeme value =>
    rename_i ih
    intro tokens h
    obtain ⟨more, scanned, h⟩ := except_bind_ok h
    cases h
    obtain ⟨formed, ends⟩ := NumberText.take_formed digit rest
    rw [← NumberText.written_append_take (c :: rest)]
    exact .inline (.number formed ends value) (begins_of_number value)
      (NumberText.newline_not_mem_written formed) (ih scanned)
  | case10 offset line index last c rest newline blank quote starts alphabetic digit symbol run =>
    rename_i ih
    intro tokens h
    obtain ⟨more, scanned, h⟩ := except_bind_ok h
    cases h
    have whole : c :: rest = run ++ rest.dropWhile isSymbolChar := by
      simp [run, List.takeWhile_append_dropWhile]
    rw [whole]
    refine scans_run head?_behind_run run last offset ?_ ?_ (ih scanned)
    · intro d mem
      rcases List.mem_cons.mp mem with rfl | inside
      · exact symbol
      · exact of_mem_takeWhile inside
    · intro first
      simp only [run, List.head?_cons, reduceCtorEq, Option.some.injEq, false_or] at first
      exact Classical.not_not.mp fun other => starts ⟨first, other⟩
  | case11 => nofun

section

variable {offset line index : Nat} {last : Option Nat}

theorem scanFrom_symbol {c : Char} (h : isSymbolChar c) (starts : c = ';' → last = some line)
    (rest : List Char) :
    scanFrom offset line index last (c :: rest) = (do
      let run := c :: rest.takeWhile isSymbolChar
      let tokens := symbolTokens offset line run
      let more ← scanFrom (offset + byteLength run) line (index + tokens.length) (some line)
        (rest.dropWhile isSymbolChar)
      .ok (tokens ++ more)) := by
  obtain ⟨symbol, hc⟩ := Option.isSome_iff_exists.mp h
  obtain ⟨⟨newline, blank, quote⟩, alphabetic, digit, -⟩ := inked_of_ofChar? hc
  have no_comment : ¬ (c = ';' ∧ last ≠ some line) := fun both => both.2 (starts both.1)
  rw [scanFrom]
  simp [newline, blank, quote, no_comment, alphabetic, digit, h, symbolTokens]

/-- Behind a lexeme of the same line, the symbols at the front of a text are read together. -/
theorem scanFrom_symbols (text : List Char) :
    scanFrom offset line index (some line) text = (do
      let run := text.takeWhile isSymbolChar
      let tokens := symbolTokens offset line run
      let more ← scanFrom (offset + byteLength run) line (index + tokens.length) (some line)
        (text.dropWhile isSymbolChar)
      .ok (tokens ++ more)) := by
  by_cases h : ∃ c rest, text = c :: rest ∧ isSymbolChar c
  · obtain ⟨c, rest, rfl, h⟩ := h
    rw [scanFrom_symbol h (fun _ => rfl)]
    simp [h]
  · have stops : ∀ c ∈ text.head?, isSymbolChar c = false := by
      intro c hc
      obtain ⟨rest, rfl⟩ := List.head?_eq_some_iff.mp hc
      simpa using fun symbol => h ⟨c, rest, rfl, symbol⟩
    have no_run : ∀ c ∈ ([] : List Char), isSymbolChar c := by simp
    have none : text.takeWhile isSymbolChar = [] := takeWhile_run no_run stops
    have whole : text.dropWhile isSymbolChar = text := dropWhile_run no_run stops
    rw [none, whole]
    cases eq : scanFrom offset line index (some line) text with
    | error e => simp [symbolTokens, symbolsOf, joinPairs, eq]; rfl
    | ok tokens => simp [symbolTokens, symbolsOf, joinPairs, eq]; rfl

/-- A symbol in front of a text is read apart from the symbols behind it if the run of both is. -/
theorem scanFrom_symbol_append {written text : List Char} {t : Token} {tokens : List Token}
    (some_written : written ≠ []) (all : ∀ c ∈ written, isSymbolChar c)
    (starts : written.head? = some ';' → last = some line)
    (apart : symbolTokens offset line (written ++ text.takeWhile isSymbolChar) =
      t :: symbolTokens (offset + byteLength written) line (text.takeWhile isSymbolChar))
    (more : ∀ index, scanFrom (offset + byteLength written) line index (some line) text = .ok tokens) :
    scanFrom offset line index last (written ++ text) = .ok (t :: tokens) := by
  obtain ⟨c, rest, rfl⟩ := List.exists_cons_of_ne_nil some_written
  have symbols : ∀ d ∈ rest, isSymbolChar d := fun d hd => all d (by simp [hd])
  have later := more (index + 1)
  rw [scanFrom_symbols] at later
  obtain ⟨others, scanned, eq⟩ := except_bind_ok later
  cases eq
  rw [List.cons_append, scanFrom_symbol (all c (by simp)) (fun eq => starts (by simp [eq])),
    List.takeWhile_append_of_pos symbols, List.dropWhile_append_of_pos symbols]
  simp only [← List.cons_append, apart, byteLength_append, List.length_cons, ← Nat.add_assoc]
  rw [Nat.add_right_comm index _ 1, scanned]
  rfl

/-- A symbol is read whatever symbols stand behind it. -/
theorem scanFrom_written {symbol : Symbol} {written text : List Char} {tokens : List Token}
    (h : symbol.Written written)
    (apart : ∀ c ∈ text.head?, ∀ next, Symbol.ofChar? c = some next → symbol.pair? next = none)
    (begins : (Lexeme.symbol symbol).Begins last line)
    (more : ∀ index, scanFrom (offset + byteLength written) line index (some line) text = .ok tokens) :
    scanFrom offset line index last (written ++ text) =
      .ok (.leaf (.symbol symbol) ⟨offset, offset + byteLength written⟩ line :: tokens) := by
  have front : ∀ d ∈ (text.takeWhile isSymbolChar).head?, d ∈ text.head? := by
    intro d hd
    cases text with
    | nil => cases hd
    | cons first rest =>
      by_cases h : isSymbolChar first
      · simpa [h] using hd
      · simp [h] at hd
  cases h with
  | @single c _ hc =>
    refine scanFrom_symbol_append (by simp) (by simpa using isSymbolChar_of_ofChar? hc) ?_ ?_ more
    · intro eq
      cases eq
      cases hc
      exact begins
    · exact symbolTokens_single hc (fun d hd => apart d (front d hd))
        (fun _ => of_mem_takeWhile) offset
  | @pair a b first second _ ha hb joined =>
    refine scanFrom_symbol_append (by simp)
      (by simpa using ⟨isSymbolChar_of_ofChar? ha, isSymbolChar_of_ofChar? hb⟩) ?_ ?_ more
    · intro eq
      cases eq
      cases ha
      cases joined
    · exact symbolTokens_pair ha hb joined offset

/-- A spelling at the front of a text is read as its lexeme, and the scan goes on behind it. -/
theorem scanFrom_spelled {lexeme : Lexeme} {written text : List Char} {tokens : List Token}
    (spelled : lexeme.Spelled written text) (begins : lexeme.Begins last line)
    (more : ∀ index, scanFrom (offset + byteLength written) (line + written.count '\n') index
      (some line) text = .ok tokens) :
    scanFrom offset line index last (written ++ text) =
      .ok (.leaf lexeme ⟨offset, offset + byteLength written⟩ line :: tokens) := by
  cases spelled with
  | @text body _ no_quote =>
    have all : ∀ c ∈ body, (c != '"') := fun c hc => by
      simpa using fun eq : c = '"' => no_quote (eq ▸ hc)
    have stops : ∀ c ∈ ('"' :: text).head?, (c != '"') = false := by simp
    have behind : (body ++ '"' :: text).dropWhile (· != '"') = '"' :: text :=
      dropWhile_run all stops
    rw [show '"' :: (body ++ ['"']) ++ text = '"' :: (body ++ '"' :: text) by simp, scanFrom,
      if_neg (by decide), if_neg (by decide), if_pos rfl, takeWhile_run all stops]
    have lines : ('"' :: (body ++ ['"'])).count '\n' = body.count '\n' := by simp
    rw [byteLength_quoted, lines] at more
    rw [byteLength_quoted]
    split
    · rename_i none
      cases behind.symm.trans none
    · rename_i after eq
      cases behind.symm.trans eq
      simp only [more]
      rfl
  | @comment body _ no_newline stops =>
    have all : ∀ c ∈ body, (c != '\n') := fun c hc => by
      simpa using fun eq : c = '\n' => no_newline (eq ▸ hc)
    have stops : ∀ c ∈ text.head?, (c != '\n') = false := by simpa using stops
    have lines : (';' :: body).count '\n' = 0 :=
      List.count_eq_zero_of_not_mem (by simpa using no_newline)
    rw [List.cons_append, scanFrom, if_neg (by decide), if_neg (by decide), if_neg (by decide),
      if_pos ⟨rfl, begins⟩, takeWhile_run all stops, dropWhile_run all stops]
    simp only [lines, byteLength_semicolon, Nat.add_zero] at more ⊢
    rw [more]
    rfl
  | @name c rest _ alphabetic all stops =>
    obtain ⟨⟨newline, blank, quote⟩, semicolon⟩ := inked_of_isAlphabetic alphabetic
    have lines := List.count_eq_zero_of_not_mem (newline_not_mem_name alphabetic all)
    rw [List.cons_append, scanFrom, if_neg newline, if_neg (by simp [blank]), if_neg quote,
      if_neg (by simp [semicolon]), if_pos alphabetic, takeWhile_run all stops,
      dropWhile_run all stops]
    simp only [lines, Nat.add_zero] at more ⊢
    rw [more]
    rfl
  | @number n lexeme _ formed ends value =>
    obtain ⟨c, rest, eq, digit⟩ := NumberText.written_cons formed
    obtain ⟨⟨newline, blank, quote⟩, semicolon⟩ := inked_of_isDigit digit
    have lines := List.count_eq_zero_of_not_mem (NumberText.newline_not_mem_written formed)
    have taken := NumberText.take_written formed ends
    rw [eq, List.cons_append] at taken
    rw [lines] at more
    have front : n.written ++ text = c :: (rest ++ text) := by rw [eq, List.cons_append]
    rw [front, scanFrom, if_neg newline, if_neg (by simp [blank]), if_neg quote,
      if_neg (by simp [semicolon]), if_neg (by simp [Text.isAlphabetic_of_isDigit digit]),
      dif_pos digit]
    simp only [taken, value]
    rw [Nat.add_zero] at more
    rw [more]
    rfl
  | @symbol symbol written _ spelled apart =>
    rw [List.count_eq_zero_of_not_mem (newline_not_mem_symbols spelled)] at more
    exact scanFrom_written spelled apart begins more

end

theorem scanFrom_of_scans {offset line : Nat} {last : Option Nat} {text : List Char}
    {tokens : List Token} (h : Scans last line offset text tokens) (index : Nat) :
    scanFrom offset line index last text = .ok tokens := by
  induction h generalizing index with
  | done => rw [scanFrom]
  | @blank last line offset c text tokens blank _ ih =>
    rw [scanFrom]
    by_cases newline : c = '\n'
    · subst newline
      exact ih index
    · rw [if_neg newline, if_pos blank]
      simpa [newline] using ih index
  | @lexeme last line offset lexeme written text tokens spelled begins _ ih => exact scanFrom_spelled spelled begins ih

/-- A scan succeeds with the lexemes of a row of spellings, and with nothing else. -/
theorem scan_eq_ok_iff {source : String} {tokens : List Token} :
    scan source = .ok tokens ↔ Scans none 1 0 source.toList tokens :=
  ⟨scans_of_scanFrom 0 1 0 none source.toList, fun h => scanFrom_of_scans h 0⟩

/-! ## Faults of a scan -/

/-- A span that covers a piece of a text which starts at an offset. -/
def Span.Covers (span : Span) (offset : Nat) (text : List Char) : Prop :=
  ∃ before piece after, text = before ++ piece ++ after ∧
    span = ⟨offset + byteLength before, offset + byteLength (before ++ piece)⟩

theorem Span.Covers.append {span : Span} {offset : Nat} {text : List Char} (front : List Char)
    (h : span.Covers (offset + byteLength front) text) : span.Covers offset (front ++ text) := by
  obtain ⟨before, piece, after, rfl, rfl⟩ := h
  exact ⟨front ++ before, piece, after, by simp, by simp [Nat.add_assoc]⟩

theorem Span.Covers.front (offset : Nat) (piece after : List Char) :
    (Span.mk offset (offset + byteLength piece)).Covers offset (piece ++ after) :=
  ⟨[], piece, after, by simp, by simp⟩

/-- A fault points at a piece of the text. -/
theorem scanFrom_fault (offset line index : Nat) (last : Option Nat) (text : List Char) :
    ∀ {e : LexError}, scanFrom offset line index last text = .error e → e.span.Covers offset text := by
  fun_induction scanFrom offset line index last text with
  | case1 => nofun
  | case2 offset line index last rest ih =>
    intro e h
    exact (ih h).append ['\n']
  | case3 offset line index last c rest newline blank ih =>
    intro e h
    exact (ih h).append [c]
  | case4 offset line index last rest =>
    intro e h
    cases h
    exact ⟨[], '"' :: rest, [], by simp, rfl⟩
  | case5 offset line index last rest body quote after behind stop =>
    rename_i ih
    intro e h
    rcases except_bind_error h with h | ⟨more, -, h⟩
    · have later := ih h
      rw [quoted_append behind]
      rw [show stop = offset + byteLength ('"' :: (body ++ ['"'])) by rw [byteLength_quoted]] at later
      exact later.append _
    · cases h
  | case6 offset line index last c rest newline blank quote starts body stop =>
    rename_i ih
    intro e h
    obtain ⟨rfl, -⟩ := starts
    rcases except_bind_error h with h | ⟨more, -, h⟩
    · have later := ih h
      rw [show stop = offset + byteLength (';' :: body) by rw [byteLength_semicolon]] at later
      simpa [body, List.takeWhile_append_dropWhile] using later.append (';' :: body)
    · cases h
  | case7 offset line index last c rest newline blank quote starts alphabetic name stop =>
    rename_i ih
    intro e h
    rcases except_bind_error h with h | ⟨more, -, h⟩
    · simpa [name, List.takeWhile_append_dropWhile] using (ih h).append name
    · cases h
  | case8 offset line index last c rest newline blank quote starts alphabetic digit number stop =>
    intro e h
    cases h
    rw [← NumberText.written_append_take (c :: rest)]
    exact Span.Covers.front offset _ _
  | case9 offset line index last c rest newline blank quote starts alphabetic digit number stop =>
    rename_i ih
    intro e h
    rcases except_bind_error h with h | ⟨more, -, h⟩
    · rw [← NumberText.written_append_take (c :: rest)]
      exact (ih h).append _
    · cases h
  | case10 offset line index last c rest newline blank quote starts alphabetic digit symbol run =>
    rename_i ih
    intro e h
    rcases except_bind_error h with h | ⟨more, -, h⟩
    · simpa [run, List.takeWhile_append_dropWhile] using (ih h).append run
    · cases h
  | case11 offset line index last c rest =>
    intro e h
    cases h
    exact Span.Covers.front offset [c] rest

end WindowedClosures
