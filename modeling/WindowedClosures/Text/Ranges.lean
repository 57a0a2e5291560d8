/-!
# Tables of code point ranges

A character property is a list of closed ranges of code points in increasing order. Membership
stops at the first range that starts beyond the character.
-/

namespace WindowedClosures.Text

/-- Whether a range of the list, taken up to the first one that starts beyond `n`, holds `n`. -/
def inRanges (n : Nat) : List (Nat × Nat) → Bool
  | [] => false
  | (low, high) :: rest => low ≤ n && (n ≤ high || inRanges n rest)

/-- Each range is not empty and ends before the next one starts. -/
def isIncreasing : List (Nat × Nat) → Bool
  | [] => true
  | [(low, high)] => low ≤ high
  | (low, high) :: (low', high') :: rest =>
    low ≤ high && high < low' && isIncreasing ((low', high') :: rest)

end WindowedClosures.Text
