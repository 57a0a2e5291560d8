/-!
# Fields with an optional label

Tuples of values, of written types and of types all have fields that may carry a label.
-/

namespace WindowedClosures

structure Labelled (α : Type) where
  label : Option String
  value : α
  deriving DecidableEq, Repr

namespace Labelled

/-- A field's text, with the label and a colon in front if there is one. -/
def render (label : Option String) (value : String) : String :=
  match label with
  | some name => name ++ ": " ++ value
  | none => value

/-- Field texts between parentheses. -/
def renderTuple (fields : List String) : String := "(" ++ ", ".intercalate fields ++ ")"

end Labelled

end WindowedClosures
