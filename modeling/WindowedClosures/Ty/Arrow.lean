import WindowedClosures.Ty.Basic

/-!
# Arrows

The input and output of a function. A function literal starts with the arrow from nothing to
nothing, which therefore counts as not yet known.
-/

namespace WindowedClosures

structure Arrow where
  input : Ty
  output : Ty
  deriving DecidableEq, Repr

namespace Arrow

/-- The arrow of a literal before its type is known. -/
def unset : Arrow := ⟨.void, .void⟩

instance : Inhabited Arrow := ⟨unset⟩

def isUnset (arrow : Arrow) : Bool := arrow == unset

def toTy (arrow : Arrow) : Ty := .function arrow.input arrow.output

def normalized (arrow : Arrow) : Arrow := ⟨arrow.input.normalized, arrow.output.normalized⟩

def render (arrow : Arrow) : String := arrow.toTy.render

@[simp] theorem isUnset_unset : unset.isUnset = true := by simp [isUnset]

end Arrow

/-- The arrow of a function type, seen through aliases. -/
def Ty.arrow? (ty : Ty) : Option Arrow :=
  match ty.resolved with
  | .function input output => some ⟨input, output⟩
  | _ => none

end WindowedClosures
