import WindowedClosures.Text.Numeric
import WindowedClosures.Text.WhiteSpace
import WindowedClosures.Token.Basic
import WindowedClosures.Token.Number

/-!
# Scanning

From characters to a flat list of lexemes with their places. White space separates lexemes and is
dropped. A symbol run is split into its characters, of which the comparisons `==`, `!=`, `<=` and
`>=` are put together again. A semicolon starts a comment up to the end of the line if the last
lexeme did not start on this line; anywhere else it is a symbol. The first fault ends the scan.
-/

namespace WindowedClosures

/-- The bytes that characters take in UTF-8. -/
def byteLength : List Char → Nat
  | [] => 0
  | c :: rest => c.utf8Size + byteLength rest

@[simp] theorem byteLength_nil : byteLength [] = 0 := rfl

@[simp] theorem byteLength_cons (c : Char) (text : List Char) :
    byteLength (c :: text) = c.utf8Size + byteLength text := rfl

@[simp] theorem byteLength_append (a b : List Char) :
    byteLength (a ++ b) = byteLength a + byteLength b := by
  induction a with
  | nil => simp
  | cons c rest ih => simp [ih, Nat.add_assoc]

def isNameChar (c : Char) : Bool := Text.isAlphanumeric c || c == '_'

def isSymbolChar (c : Char) : Bool := (Symbol.ofChar? c).isSome

/-- The symbols of a run of symbol characters, with their spans. -/
def symbolsOf (offset : Nat) : List Char → List (Symbol × Span)
  | [] => []
  | c :: rest =>
    let stop := offset + c.utf8Size
    match Symbol.ofChar? c with
    | some symbol => (symbol, ⟨offset, stop⟩) :: symbolsOf stop rest
    | none => symbolsOf stop rest

/-- Put the comparisons of a run together, from left to right. -/
def joinPairs : List (Symbol × Span) → List (Symbol × Span)
  | (a, here) :: (b, there) :: rest =>
    match Symbol.pair? a b with
    | some symbol => (symbol, here.merge there) :: joinPairs rest
    | none => (a, here) :: joinPairs ((b, there) :: rest)
  | run => run

/-- The lexemes of a text that starts at a byte offset, on a line, after `index` lexemes of which
the last started on line `lastLine`. -/
def scanFrom (offset line index : Nat) (lastLine : Option Nat) (text : List Char) :
    Except LexError (List Token) :=
  match text with
  | [] => .ok []
  | c :: rest =>
    if c = '\n' then scanFrom (offset + 1) (line + 1) index lastLine rest
    else if Text.isWhiteSpace c then scanFrom (offset + c.utf8Size) line index lastLine rest
    else if c = '"' then
      let body := rest.takeWhile (· != '"')
      match h : rest.dropWhile (· != '"') with
      | [] => .error (.unterminatedString line index ⟨offset, offset + byteLength (c :: rest)⟩)
      | _ :: after => do
        let stop := offset + byteLength body + 2
        let lines := line + body.count '\n'
        let more ← scanFrom stop lines (index + 1) (some line) after
        .ok (.leaf (.text (String.ofList body)) ⟨offset, stop⟩ line :: more)
    else if c = ';' ∧ lastLine ≠ some line then do
      let body := rest.takeWhile (· != '\n')
      let stop := offset + 1 + byteLength body
      let more ← scanFrom stop line (index + 1) (some line) (rest.dropWhile (· != '\n'))
      .ok (.leaf (.comment (String.ofList body)) ⟨offset, stop⟩ line :: more)
    else if Text.isAlphabetic c then do
      let name := c :: rest.takeWhile isNameChar
      let stop := offset + byteLength name
      let more ← scanFrom stop line (index + 1) (some line) (rest.dropWhile isNameChar)
      .ok (.leaf (.name (String.ofList name)) ⟨offset, stop⟩ line :: more)
    else if digit : c.isDigit then do
      let number := NumberText.take (c :: rest)
      let stop := offset + byteLength number.1.written
      match number.1.lexeme with
      | .error bounded =>
        .error (.literal bounded (String.ofList number.1.written) line index ⟨offset, stop⟩)
      | .ok lexeme =>
        let more ← scanFrom stop line (index + 1) (some line) number.2
        .ok (.leaf lexeme ⟨offset, stop⟩ line :: more)
    else if isSymbolChar c then do
      let run := c :: rest.takeWhile isSymbolChar
      let tokens := (joinPairs (symbolsOf offset run)).map fun (symbol, span) =>
        Token.leaf (.symbol symbol) span line
      let more ← scanFrom (offset + byteLength run) line (index + tokens.length) (some line)
        (rest.dropWhile isSymbolChar)
      .ok (tokens ++ more)
    else .error (.unexpectedChar c line index ⟨offset, offset + c.utf8Size⟩)
termination_by text.length
decreasing_by
  · simp
  · simp
  · have := (List.dropWhile_sublist (· != '"') (l := rest)).length_le
    simp only [h, List.length_cons] at this ⊢
    omega
  · have := (List.dropWhile_sublist (· != '\n') (l := rest)).length_le
    simp only [List.length_cons]
    omega
  · have := (List.dropWhile_sublist isNameChar (l := rest)).length_le
    simp only [List.length_cons]
    omega
  · exact NumberText.length_take_lt digit
  · have := (List.dropWhile_sublist isSymbolChar (l := rest)).length_le
    simp only [List.length_cons]
    omega

/-- The lexemes of a whole text, in order. -/
def scan (source : String) : Except LexError (List Token) :=
  scanFrom 0 1 0 none source.toList

end WindowedClosures
