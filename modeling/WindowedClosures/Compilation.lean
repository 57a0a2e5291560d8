import WindowedClosures.Code.Layout
import WindowedClosures.Diagnostic
import WindowedClosures.Grammar.Expression
import WindowedClosures.Machine.Run
import WindowedClosures.Scope.Resolve
import WindowedClosures.Token.Nest

/-!
# From source text to a run

The stages one after the other. The first fault of any stage is the result.
-/

namespace WindowedClosures

/-- The tokens of a source text without its comments. -/
def readTokens (source : String) : Except Diagnostic (List Token) :=
  match tokenize source with
  | .ok tokens => .ok (Token.stripComments tokens)
  | .error e => .error (.lex e)

/-- The program of a source text, nothing of which is resolved. -/
def parseSource (source : String) : Except Diagnostic ScopeTree := do
  let tokens ← readTokens source
  match Grammar.readProgram tokens with
  | .ok tree => .ok tree
  | .error e => .error (.parse e)

/-- The resolved program of a source text. -/
def resolveSource (source : String) : Except Diagnostic ScopeTree := do
  let tree ← parseSource source
  match tree.resolve with
  | .ok tree => .ok tree
  | .error e => .error (.semantic e)

/-- A program with the scopes it was made from. -/
structure Compiled where
  tree : ScopeTree
  program : Program

/-- Make code for a scope tree. -/
def compileTree (tree : ScopeTree) : Except Diagnostic Compiled :=
  match tree.compile with
  | .ok program => .ok ⟨tree, program⟩
  | .error e => .error (.compile e)

/-- Resolve a source text and make code for it. -/
def compileSource (source : String) : Except Diagnostic Compiled := do
  compileTree (← resolveSource source)

/-- Run a compiled program on a new machine and read so many registers of its window. -/
def Compiled.execute (c : Compiled) (limit registers : Nat) :
    Except Diagnostic Machine.Execution :=
  match Machine.fresh.execute limit c.program registers with
  | .ok execution => .ok execution
  | .error e => .error (.runtime e)

/-- Compile a source text and run it; the registers are those of the program's variables. -/
def runSource (source : String) : Except Diagnostic Machine.Execution := do
  let c ← compileSource source
  c.execute defaultTickLimit c.tree.root.size

end WindowedClosures
