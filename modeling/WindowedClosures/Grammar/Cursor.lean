import WindowedClosures.Grammar.Error
import WindowedClosures.Scope.Basic
import WindowedClosures.Token.Basic

/-!
# Reading tokens

A reader consumes a run of tokens from the left and adds the bodies of function literals to a scope
tree. When it fails, the scopes it added so far remain.
-/

namespace WindowedClosures.Grammar

/-- What is left of a run of tokens, where the run ends, and the scopes read so far. -/
structure Cursor where
  rest : List Token
  stop : Nat
  tree : ScopeTree

/-- At the start of a run. -/
def Cursor.start (tokens : List Token) (tree : ScopeTree) : Cursor :=
  ⟨tokens, Token.stopOf tokens, tree⟩

/-- The span of the next token, or the end of the run. -/
def Cursor.here (c : Cursor) : Span :=
  match c.rest with
  | t :: _ => t.span
  | [] => .point c.stop

/-- The unread tokens as a fault shows them. -/
def Cursor.describe (c : Cursor) : String :=
  if c.rest.isEmpty then "end of input" else Token.describe c.rest

abbrev Reader := EStateM ParseError Cursor

/-- The unread tokens. -/
def unread : Reader (List Token) := do return (← get).rest

def here : Reader Span := do return (← get).here

/-- Step over the next token. -/
def advance : Reader Unit := modify fun c => { c with rest := c.rest.tail }

/-- The next token if it is a symbol. -/
def peekSymbol? : Reader (Option Symbol) := do
  match ← unread with
  | .leaf (.symbol s) _ _ :: _ => return some s
  | _ => return none

/-- Step over a symbol if it comes next. -/
def accept (symbol : Symbol) : Reader Bool := do
  match ← unread with
  | t :: _ => if t.isSymbol symbol then do advance; return true else return false
  | [] => return false

/-- Step over a symbol that has to come next. -/
def expect (symbol : Symbol) (what : String) : Reader Span := do
  let c ← get
  if ← accept symbol then return c.here else throw (.expected what c.describe c.here)

/-- Step over a name that has to come next. -/
def expectName : Reader (String × Span) := do
  let c ← get
  match c.rest with
  | .leaf (.name name) span _ :: _ => do advance; return (name, span)
  | _ => throw (.expected "identifier" c.describe c.here)

/-- Step over the tokens in front of a symbol, or to the end. -/
def takeUntil (symbol : Symbol) : Reader (List Token) := do
  let c ← get
  let isOther : Token → Bool := fun t => !t.isSymbol symbol
  set { c with rest := c.rest.dropWhile isOther }
  return c.rest.takeWhile isOther

/-- Read another run of tokens into the same tree, then go on with this one. -/
def within (tokens : List Token) (reader : Reader α) : Reader α := do
  let outer ← get
  set (Cursor.start tokens outer.tree)
  let result ← reader
  modify fun c => { outer with tree := c.tree }
  return result

/-- Add a scope to the tree. -/
def allocate (s : Scope) : Reader ScopeId := do
  let c ← get
  set { c with tree := c.tree.push s }
  return c.tree.count

/-- Fail unless the run is read to its end. -/
def expectEnd : Reader Unit := do
  let c ← get
  if c.rest.isEmpty then return () else throw (.trailing c.describe c.here)

end WindowedClosures.Grammar
