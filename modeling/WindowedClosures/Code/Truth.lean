import WindowedClosures.Code.Emit

/-!
# Comparisons and truth values

Code for comparisons on registers. The results are 0 or 1 for all words. With `d = a - b`, the sign
of `d ^ ((a ^ b) & (d ^ a))` is the sign that `a - b` would have without wrapping around; shifted
right by 31 it is -1 or 0, and its square 1 or 0. A word is not zero exactly when `v | -v` has its
sign bit set. The negation of 0 or 1 is its complement plus 2.
-/

namespace WindowedClosures.Emit

/-- Bitwise exclusive or. The destination must not lie above the watermark. -/
def xor (dst a b : Register) : Emit Unit := releasing do
  let t ← temp
  let u ← temp
  let v ← temp
  triple .nand t a b
  triple .nand u a t
  triple .nand v b t
  triple .nand dst u v

/-- 1 if `a < b`, else 0. -/
def less (dst a b : Register) : Emit Unit := do
  let d ← temp
  let x ← temp
  let y ← temp
  triple .sub d a b
  xor x a b
  xor y d a
  triple .nand x x y
  triple .nand x x x
  xor y d x
  let amount ← constant 31
  triple .shr y y amount
  triple .mul dst y y

/-- 1 if the value is not zero, else 0. -/
def nonzero (dst value : Register) : Emit Unit := do
  let zero ← constant 0
  let negative ← temp
  let complement ← temp
  triple .sub negative zero value
  triple .nand negative negative negative
  triple .nand complement value value
  triple .nand dst complement negative
  let amount ← constant 31
  triple .shr dst dst amount
  triple .mul dst dst dst

/-- 1 for 0 and 0 for 1. -/
def invert (dst value : Register) : Emit Unit := do
  triple .nand dst value value
  push (.wide .inc dst 2)

/-- The truth value of a comparison. -/
def compare (op : Comparison) (dst a b : Register) : Emit Unit := do
  match op with
  | .lt => less dst a b
  | .ge =>
    less dst a b
    invert dst dst
  | .gt => less dst b a
  | .le =>
    less dst b a
    invert dst dst
  | .ne =>
    let d ← temp
    triple .sub d a b
    nonzero dst d
  | .eq =>
    let d ← temp
    triple .sub d a b
    nonzero dst d
    invert dst dst

/-- The connective of two truth values. -/
def connect (op : Connective) (dst a b : Register) : Emit Unit := do
  match op with
  | .and => triple .mul dst a b
  | .or =>
    let na ← temp
    let nb ← temp
    triple .nand na a a
    triple .nand nb b b
    triple .nand dst na nb

end WindowedClosures.Emit
