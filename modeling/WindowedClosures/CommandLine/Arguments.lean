/-!
# Arguments

The grammar of the command line: a flag, a command, and the command's operand and options in any
order. An option's value stands behind an equal sign or in the next argument; two hyphens end the
options. No flag or option may be given twice.
-/

namespace WindowedClosures.CommandLine

/-- What to do with an input file. -/
inductive Command where
  | lex (input : String)
  | parse (input : String)
  | check (input : String)
  | compile (input : String) (output : Option String) (listing : Bool)
  | run (input : String) (trace : Bool) (maxTicks : Nat)
  deriving DecidableEq, Repr

/-- A well-formed command line. -/
inductive Request where
  | version
  | perform (verbose : Bool) (command : Command)
  deriving DecidableEq, Repr

def Command.input : Command → String
  | .lex input => input
  | .parse input => input
  | .check input => input
  | .compile input _ _ => input
  | .run input _ _ => input

/-- Flags and options of a command, by their long names. -/
structure Options where
  flags : List String
  valued : List String
  /-- The short form of a valued option. -/
  short : List (Char × String)

/-- What was given for a command. -/
structure Given where
  operands : List String
  flags : List String
  values : List (String × String)

def Given.nothing : Given := ⟨[], [], []⟩

namespace Given

/-- Add an operand; there is at most one, and it is not empty. -/
def addOperand (g : Given) (operand : String) : Option Given :=
  if g.operands.isEmpty ∧ operand ≠ "" then some { g with operands := [operand] } else none

def addFlag (g : Given) (name : String) : Option Given :=
  if g.flags.contains name then none else some { g with flags := name :: g.flags }

/-- Add an option's value, which is not empty. -/
def addValue (g : Given) (name value : String) : Option Given :=
  if (g.values.lookup name).isSome ∨ value = "" then none
  else some { g with values := (name, value) :: g.values }

end Given

/-- Whether an argument has the form of an option. A single hyphen has not. -/
def looksLikeOption (arg : String) : Bool :=
  match arg.toList with
  | '-' :: _ :: _ => true
  | _ => false

/-- A long option without its hyphens, split at the first equal sign. -/
def splitEqual (body : List Char) : String × Option String :=
  let name := String.ofList (body.takeWhile (· != '='))
  match body.dropWhile (· != '=') with
  | [] => (name, none)
  | _ :: value => (name, some (String.ofList value))

/-- The arguments of a command. -/
def readOptions (options : Options) (g : Given) : List String → Option Given
  | [] => some g
  | arg :: rest =>
    match arg.toList with
    | ['-', '-'] => rest.foldlM Given.addOperand g
    | '-' :: '-' :: body =>
      match splitEqual body with
      | (name, some value) =>
        if options.valued.contains name then do readOptions options (← g.addValue name value) rest
        else none
      | (name, none) =>
        if options.flags.contains name then do readOptions options (← g.addFlag name) rest
        else if options.valued.contains name then
          match rest with
          | value :: rest =>
            if looksLikeOption value then none
            else do readOptions options (← g.addValue name value) rest
          | [] => none
        else none
    | '-' :: c :: body =>
      match options.short.lookup c, body, rest with
      | none, _, _ => none
      | some name, '=' :: value, rest => do
        readOptions options (← g.addValue name (String.ofList value)) rest
      | some name, c :: value, rest => do
        readOptions options (← g.addValue name (String.ofList (c :: value))) rest
      | some name, [], value :: rest =>
        if looksLikeOption value then none
        else do readOptions options (← g.addValue name value) rest
      | some _, [], [] => none
    | _ => do readOptions options (← g.addOperand arg) rest

/-- A count of ticks: decimal digits with an optional sign, within 32 bits. -/
def readTicks (text : String) : Option Nat :=
  let (negative, digits) := match text.toList with
    | '-' :: digits => (true, digits)
    | '+' :: digits => (false, digits)
    | digits => (false, digits)
  if digits.isEmpty ∨ ¬ digits.all Char.isDigit then none
  else
    let n := digits.foldl (fun n c => n * 10 + (c.toNat - '0'.toNat)) 0
    if n < UInt32.size ∧ (negative → n = 0) then some n else none

def noOptions : Options := ⟨[], [], []⟩

def compileOptions : Options := ⟨["listing"], ["output"], [('o', "output")]⟩

def runOptions : Options := ⟨["trace"], ["max-ticks"], []⟩

/-- The operand and options of a command. -/
def readFor (options : Options) (args : List String) : Option (String × Given) := do
  let g ← readOptions options .nothing args
  let input ← g.operands.head?
  return (input, g)

/-- A command by its name. -/
def readCommand (defaultTicks : Nat) (name : String) (args : List String) : Option Command :=
  match name with
  | "lex" => do return .lex (← readFor noOptions args).1
  | "parse" => do return .parse (← readFor noOptions args).1
  | "check" => do return .check (← readFor noOptions args).1
  | "compile" => do
    let (input, g) ← readFor compileOptions args
    return .compile input (g.values.lookup "output") (g.flags.contains "listing")
  | "run" => do
    let (input, g) ← readFor runOptions args
    let ticks ← match g.values.lookup "max-ticks" with
      | some text => readTicks text
      | none => some defaultTicks
    return .run input (g.flags.contains "trace") ticks
  | _ => none

/-- What a cluster of short flags asks for: whether it is verbose, or the version. -/
def readShortFlags (verbose : Bool) : List Char → Option (Bool ⊕ Unit)
  | [] => some (.inl verbose)
  | 'V' :: _ => some (.inr ())
  | 'v' :: rest => if verbose then none else readShortFlags true rest
  | _ => none

/-- The whole command line, with a flag that may stand in front of the command. -/
def readRequest (defaultTicks : Nat) (verbose : Bool) : List String → Option Request
  | [] => none
  | arg :: rest =>
    match arg.toList with
    | ['-', '-'] => none
    | '-' :: '-' :: body =>
      match String.ofList body with
      | "version" => some .version
      | "verbose" => if verbose then none else readRequest defaultTicks true rest
      | _ => none
    | '-' :: c :: flags =>
      match readShortFlags verbose (c :: flags) with
      | some (.inl verbose) => readRequest defaultTicks verbose rest
      | some (.inr _) => some .version
      | none => none
    | _ => do return .perform verbose (← readCommand defaultTicks arg rest)

/-- The request of a command line, if it is well-formed. -/
def request? (defaultTicks : Nat) (args : List String) : Option Request :=
  readRequest defaultTicks false args

end WindowedClosures.CommandLine
