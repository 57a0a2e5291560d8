import WindowedClosures.Decimal.Shortest
import WindowedClosures.Text.Columns

/-!
# Lexemes

The smallest pieces of a source text: literals, names, comments and symbols. Braces and
parentheses are symbols here; grouping turns them into the two kinds of bracket group.
-/

namespace WindowedClosures

/-- The brackets that group tokens. Square brackets are ordinary symbols. -/
inductive Bracket where
  | brace | paren
  deriving DecidableEq, Repr

inductive Symbol where
  | colon | semicolon | comma | backslash
  | opening (bracket : Bracket)
  | closing (bracket : Bracket)
  | leftSquare | rightSquare
  | dot | equal | equalEqual | bangEqual | less | greater | lessEqual | greaterEqual
  | plus | minus | star | slash | percent | bang | tilde | hash | ampersand | bar
  | question | caret | quote | bullet
  deriving DecidableEq, Repr

namespace Symbol

/-- The symbol of a single character. -/
def ofChar? : Char → Option Symbol
  | ':' => some .colon
  | ';' => some .semicolon
  | ',' => some .comma
  | '\\' => some .backslash
  | '\x7b' => some (.opening .brace)
  | '\x7d' => some (.closing .brace)
  | '(' => some (.opening .paren)
  | ')' => some (.closing .paren)
  | '[' => some .leftSquare
  | ']' => some .rightSquare
  | '.' => some .dot
  | '=' => some .equal
  | '<' => some .less
  | '>' => some .greater
  | '+' => some .plus
  | '-' => some .minus
  | '*' => some .star
  | '/' => some .slash
  | '%' => some .percent
  | '!' => some .bang
  | '~' => some .tilde
  | '#' => some .hash
  | '&' => some .ampersand
  | '|' => some .bar
  | '?' => some .question
  | '^' => some .caret
  | '\x27' => some .quote
  | '•' => some .bullet
  | _ => none

/-- Two adjacent symbols that are written together for one comparison. -/
def pair? : Symbol → Symbol → Option Symbol
  | .equal, .equal => some .equalEqual
  | .bang, .equal => some .bangEqual
  | .less, .equal => some .lessEqual
  | .greater, .equal => some .greaterEqual
  | _, _ => none

def render : Symbol → String
  | .colon => ":"
  | .semicolon => ";"
  | .comma => ","
  | .backslash => "\\"
  | .opening .brace => "\x7b"
  | .closing .brace => "\x7d"
  | .opening .paren => "("
  | .closing .paren => ")"
  | .leftSquare => "["
  | .rightSquare => "]"
  | .dot => "."
  | .equal => "="
  | .equalEqual => "=="
  | .bangEqual => "!="
  | .less => "<"
  | .greater => ">"
  | .lessEqual => "<="
  | .greaterEqual => ">="
  | .plus => "+"
  | .minus => "-"
  | .star => "*"
  | .slash => "/"
  | .percent => "%"
  | .bang => "!"
  | .tilde => "~"
  | .hash => "#"
  | .ampersand => "&"
  | .bar => "|"
  | .question => "?"
  | .caret => "^"
  | .quote => "\x27"
  | .bullet => "•"

end Symbol

inductive Lexeme where
  | hex (value : UInt32)
  | int (value : Int32)
  | float (value : Binary32)
  | text (value : String)
  | name (value : String)
  /-- The text of a line comment behind its semicolon. -/
  | comment (value : String)
  | symbol (value : Symbol)
  deriving DecidableEq, Repr

namespace Lexeme

def render : Lexeme → String
  | .hex value => "0x" ++ Text.hexDigits value.toNat
  | .int value => toString value.toInt
  | .float value => value.render
  | .text value => "\"" ++ value ++ "\""
  | .name value => value
  | .comment value => ";" ++ value
  | .symbol value => value.render

def isComment : Lexeme → Bool
  | .comment _ => true
  | _ => false

end Lexeme

end WindowedClosures
