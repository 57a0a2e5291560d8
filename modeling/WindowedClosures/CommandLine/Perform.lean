import WindowedClosures.CommandLine.Arguments
import WindowedClosures.CommandLine.Path
import WindowedClosures.Compilation
import WindowedClosures.Scope.Dump
import WindowedClosures.Text.Utf8

/-!
# Commands

What each command prints and writes, given the contents of its input file. A malformed command line
ends with exit code 2 and any other failure with 1; what was printed before the failure stays.
-/

namespace WindowedClosures.CommandLine

/-- What a command does to the outside. A file is written before anything is said about it, and if
it cannot be written the command fails. -/
structure Reply where
  exit : Nat
  stdout : String
  stderr : String
  file : Option (String × List UInt8)
  deriving DecidableEq, Repr

namespace Reply

def success (stdout : String) : Reply := ⟨0, stdout, "", none⟩

/-- A failure with a message, after something was printed. -/
def failure (message : String) (stdout : String) : Reply :=
  ⟨1, stdout, "error: " ++ message ++ "\n", none⟩

/-- A malformed command line. -/
def usage : Reply := ⟨2, "", "error: malformed command line\n", none⟩

/-- The reply once its file could not be written. -/
def unwritten (r : Reply) : Reply := failure "the output cannot be written" r.stdout

end Reply

def versionText : String := "regalc 0.1.0\n"

/-- One token as a line: its line number, its span and its text. -/
def tokenLine (t : Token) : String :=
  let span := toString t.span.start ++ ".." ++ toString t.span.stop
  Text.alignRight 4 (toString t.line) ++ "  " ++ Text.alignLeft 8 span ++ "  " ++ t.render ++ "\n"

/-- One executed instruction as a line. -/
def traceLine (call : Nat × Instruction) : String :=
  Text.alignRight 5 (toString call.1) ++ "  " ++ call.2.render ++ "\n"

/-- The registers of the program's window that exist, a line each. -/
def registerLines (m : Machine) (count : Nat) : List String :=
  (List.range (min count Register.bankSize)).filterMap fun i =>
    (m.register? .window i).map fun word =>
      "r" ++ Text.alignLeft 3 (toString i) ++ " " ++ toString word.toInt ++ "\n"

/-- The source text of a file. -/
def sourceOf (contents : List UInt8) (use : String → Reply) : Reply :=
  match Utf8.decode? contents with
  | some source => use source
  | none => .failure "the input is not UTF-8" ""

/-- Go on with a result, or fail with its diagnostic. -/
def orFail {α : Type} (result : Except Diagnostic α) (use : α → Reply) : Reply :=
  match result with
  | .ok a => use a
  | .error d => .failure d.message ""

/-- A file holds a compiled program only if its extension says so. -/
def isBytecode (path : String) : Bool := extension? path = some "rgb"

/-- Run a program and show the first registers of its window. -/
def runProgram (program : Program) (registers : Nat) (trace : Bool) (maxTicks : Nat) : Reply :=
  let outcome := Machine.fresh.run maxTicks Trap.none program.instructions
  let stdout := String.join outcome.prints ++ "\n"
  let stderr := if trace then String.join (outcome.calls.map traceLine) else ""
  let status := outcome.halt.status
  if status ≠ 0 then
    let failed := Reply.failure (RuntimeError.mk status).message stdout
    { failed with stderr := stderr ++ failed.stderr }
  else
    ⟨0, stdout ++ String.join (registerLines outcome.machine registers), stderr, none⟩

/-- Carry out a command on the contents of its input file. -/
def perform (command : Command) (contents : List UInt8) : Reply :=
  match command with
  | .lex _ => sourceOf contents fun source =>
    orFail (readTokens source) fun tokens => .success (String.join (tokens.map tokenLine))
  | .parse _ => sourceOf contents fun source =>
    orFail (parseSource source) fun tree =>
      .success (String.join (tree.root.body.map fun e => e.render ++ "\n"))
  | .check _ => sourceOf contents fun source =>
    orFail (resolveSource source) fun tree => .success tree.render
  | .compile input output listing => sourceOf contents fun source =>
    orFail (compileSource source) fun compiled =>
      let path := output.getD (withExtension input "rgb")
      let stdout := if listing then compiled.program.listing else ""
      let count := toString compiled.program.instructions.length
      ⟨0, stdout, "Compiled " ++ count ++ " instructions to " ++ path ++ "\n",
        some (path, compiled.program.toBytes)⟩
  | .run input trace maxTicks =>
    if isBytecode input then
      match Program.ofBytes contents with
      | .ok program => runProgram program 0 trace maxTicks
      | .error e => .failure e.message ""
    else sourceOf contents fun source =>
      orFail (compileSource source) fun compiled =>
        runProgram compiled.program compiled.tree.root.size trace maxTicks

/-- The reply to a command line, given how to read a file. -/
def respond (args : List String) (read : String → Option (List UInt8)) : Reply :=
  match request? defaultTickLimit args with
  | none => .usage
  | some .version => .success versionText
  | some (.perform _ command) =>
    match read command.input with
    | none => .failure "the input cannot be read" ""
    | some contents => perform command contents

/-- Carry out a command line in a directory, and write what it asks for. -/
def respondIn (d : Directory) (args : List String) : Reply × Directory :=
  let reply := respond args d.read?
  match reply.file with
  | none => (reply, d)
  | some (path, contents) =>
    match d.write? path contents with
    | some d => (reply, d)
    | none => (reply.unwritten, d)

end WindowedClosures.CommandLine
