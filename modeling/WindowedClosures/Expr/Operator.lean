/-!
# Operators

The operators of expressions, by what they do with their operands.
-/

namespace WindowedClosures

inductive Arithmetic where
  | add | sub | mul | div | mod
  deriving DecidableEq, Repr

inductive Comparison where
  | eq | ne | gt | ge | lt | le
  deriving DecidableEq, Repr

inductive Connective where
  | and | or
  deriving DecidableEq, Repr

inductive BinaryOp where
  | arithmetic (op : Arithmetic)
  | comparison (op : Comparison)
  | connective (op : Connective)
  | assign
  /-- A call written with `#`, whose argument is the whole right side. -/
  | apply
  /-- The composition of two functions, the right one first. -/
  | compose
  /-- The choice between two arms by a condition. -/
  | choose
  /-- A call written with an argument tuple. -/
  | call
  | field
  | index
  deriving DecidableEq, Repr

inductive UnaryOp where
  | neg | not | deref | ref
  deriving DecidableEq, Repr

def Arithmetic.render : Arithmetic → String
  | .add => "+"
  | .sub => "-"
  | .mul => "*"
  | .div => "/"
  | .mod => "%"

def Comparison.render : Comparison → String
  | .eq => "=="
  | .ne => "!="
  | .gt => ">"
  | .ge => ">="
  | .lt => "<"
  | .le => "<="

def Connective.render : Connective → String
  | .and => "&"
  | .or => "|"

namespace BinaryOp

/-- The two ways of writing a call. -/
def isCall : BinaryOp → Bool
  | .call | .apply => true
  | _ => false

def render : BinaryOp → String
  | .arithmetic op => op.render
  | .comparison op => op.render
  | .connective op => op.render
  | .assign => "="
  | .apply => "#"
  | .compose => "•"
  | .choose => "?"
  | .call => "()"
  | .field => "."
  | .index => "[]"

end BinaryOp

def UnaryOp.render : UnaryOp → String
  | .neg => "-"
  | .not => "!"
  | .deref => "*"
  | .ref => "&"

end WindowedClosures
