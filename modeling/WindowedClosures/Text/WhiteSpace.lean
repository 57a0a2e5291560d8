import WindowedClosures.Text.Ranges

/-!
# White space

The characters with the Unicode property White_Space.
-/

namespace WindowedClosures.Text

def whiteSpaceRanges : List (Nat × Nat) :=
  [(0x9, 0xd), (0x20, 0x20), (0x85, 0x85), (0xa0, 0xa0), (0x1680, 0x1680), (0x2000, 0x200a),
   (0x2028, 0x2029), (0x202f, 0x202f), (0x205f, 0x205f), (0x3000, 0x3000)]

example : isIncreasing whiteSpaceRanges := by decide +kernel

/-- White space, the line feed included. -/
def isWhiteSpace (c : Char) : Bool := inRanges c.toNat whiteSpaceRanges

example : isWhiteSpace '\n' ∧ isWhiteSpace '\u00a0' ∧ ¬ isWhiteSpace '\u200b' := by decide

end WindowedClosures.Text
