/-!
# How a run ends

A run ends because the program's body returned, because of a fault, or because a trap asked for it
with a status of its own. Each end has a numeric status, and 0 is success.
-/

namespace WindowedClosures

inductive Halt where
  | finished
  /-- An empty program, or no ticks left. -/
  | exhausted
  | invalidOpcode
  | memoryFault
  | divisionByZero
  | trapped (status : Int32)
  deriving DecidableEq, Repr

def Halt.status : Halt → Int32
  | .finished => 0
  | .exhausted => -1
  | .invalidOpcode => -2
  | .memoryFault => -3
  | .divisionByZero => -4
  | .trapped status => status

/-- A status that is not success. -/
structure RuntimeError where
  status : Int32
  deriving DecidableEq, Repr

namespace RuntimeError

def reason (e : RuntimeError) : String :=
  if e.status = -1 then "empty program or tick limit reached"
  else if e.status = -2 then "invalid opcode"
  else if e.status = -3 then "memory fault"
  else if e.status = -4 then "division by zero"
  else if 0 < e.status then "halted by trap"
  else "unknown failure"

def message (e : RuntimeError) : String :=
  "machine halted with status " ++ toString e.status.toInt ++ " (" ++ e.reason ++ ")"

end RuntimeError

end WindowedClosures
