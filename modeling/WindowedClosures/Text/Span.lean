/-!
# Spans

A span is a range of byte offsets into a source text, the end exclusive. Every token, every node
and every error that can be placed carries one.
-/

namespace WindowedClosures

/-- Byte range of a source text. -/
structure Span where
  start : Nat
  stop : Nat
  deriving DecidableEq, Repr

namespace Span

/-- The empty span at the start of the text, used where there is nothing to point at. -/
def zero : Span := ⟨0, 0⟩

instance : Inhabited Span := ⟨zero⟩

/-- The least span that covers both. -/
def merge (a b : Span) : Span := ⟨min a.start b.start, max a.stop b.stop⟩

def length (s : Span) : Nat := s.stop - s.start

/-- The empty span at one offset. -/
def point (offset : Nat) : Span := ⟨offset, offset⟩

@[simp] theorem merge_self (s : Span) : s.merge s = s := by simp [merge]

end Span

end WindowedClosures
