import WindowedClosures.Labelled
import WindowedClosures.Text.Span

/-!
# Written types

A type as it stands in the source: names are not looked up yet.
-/

namespace WindowedClosures

inductive TypeExpr where
  | named (name : String) (span : Span)
  | array (elem : TypeExpr) (count : Nat) (span : Span)
  | function (input output : TypeExpr) (span : Span)
  | pointer (inner : TypeExpr) (span : Span)
  | tuple (fields : List (Labelled TypeExpr)) (span : Span)
  deriving Repr

namespace TypeExpr

instance : Inhabited TypeExpr := ⟨.tuple [] .zero⟩

def span : TypeExpr → Span
  | .named _ span => span
  | .array _ _ span => span
  | .function _ _ span => span
  | .pointer _ span => span
  | .tuple _ span => span

def isFunction : TypeExpr → Bool
  | .function .. => true
  | _ => false

mutual

/-- The type as it is written; an input that is itself a function stands in parentheses. -/
def render : TypeExpr → String
  | .named name _ => name
  | .array elem count _ => elem.render ++ " " ++ toString count
  | .function input output _ =>
    (if input.isFunction then "(" ++ input.render ++ ")" else input.render) ++ " > " ++
      output.render
  | .pointer inner _ => inner.render ++ " *"
  | .tuple fields _ => Labelled.renderTuple (renderFields fields)

def renderFields : List (Labelled TypeExpr) → List String
  | [] => []
  | ⟨label, value⟩ :: rest => Labelled.render label value.render :: renderFields rest

end

end TypeExpr

end WindowedClosures
