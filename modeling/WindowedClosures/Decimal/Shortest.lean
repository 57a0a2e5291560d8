import WindowedClosures.Decimal.Binary32

/-!
# The fewest digits that read back

A finite number is written with the fewest significant digits whose decimal rounds to it again;
of two such decimals the nearer one, and of two equally near ones the larger. `Binary32.render`
lays the digits out: positionally with at least one place behind the point, or with an exponent
for a number that is not zero and lies below `1e-4` or not below `1e16`.
-/

namespace WindowedClosures.Binary32

/-- A positive decimal `digits * 10 ^ exponent`. -/
structure Scaled where
  digits : Nat
  exponent : Int
  deriving DecidableEq, Repr

/-- The number a decimal rounds to. -/
def Scaled.toBinary32 (d : Scaled) : Binary32 :=
  ofRatio (d.digits * Nat.pow 10 d.exponent.toNat) (Nat.pow 10 (-d.exponent).toNat)

/-- The exponent `e` with `10 ^ e ≤ num / den < 10 ^ (e + 1)`, by search downwards from an upper
bound. -/
def decimalMagnitude (num den : Nat) : Nat → Int → Int
  | 0, e => e
  | fuel + 1, e =>
    if den * Nat.pow 10 e.toNat ≤ num * Nat.pow 10 (-e).toNat then e
    else decimalMagnitude num den fuel (e - 1)

/-- The decimal on the grid `10 ^ exponent` nearest to `x` among its two neighbours that read back
as `x`. -/
def onGrid? (x : Binary32) (exponent : Int) : Option Scaled :=
  let (num, den) := x.ratio
  let scaledNum := num * Nat.pow 10 (-exponent).toNat
  let scaledDen := den * Nat.pow 10 exponent.toNat
  let below := scaledNum / scaledDen
  let low : Scaled := ⟨below, exponent⟩
  let high : Scaled := ⟨below + 1, exponent⟩
  let lowReads := low.toBinary32 = x
  let highReads := high.toBinary32 = x
  if lowReads ∧ (¬ highReads ∨ 2 * (scaledNum % scaledDen) < scaledDen) then some low
  else if highReads then some high
  else none

/-- The first grid with a hit, starting with one digit. Nine digits always suffice. -/
def searchGrids (x : Binary32) (top : Int) : Nat → Nat → Scaled
  | 0, _ => ⟨0, 0⟩
  | fuel + 1, count =>
    match onGrid? x (top - count) with
    | some d => d
    | none => searchGrids x top fuel (count + 1)

/-- The shortest decimal of a finite number that is not zero. -/
def shortest (x : Binary32) : Scaled :=
  let (num, den) := x.ratio
  searchGrids x (decimalMagnitude num den 100 39) 10 0

/-- A digit string without its trailing zeros, and the exponent moved accordingly. -/
def Scaled.trimmed (d : Scaled) : List Char × Int :=
  let digits := Nat.toDigits 10 d.digits
  let kept := (digits.reverse.dropWhile (· == '0')).reverse
  (kept, d.exponent + (digits.length - kept.length : Nat))

/-- Digits with a point and at least one place behind it. -/
def positional (digits : List Char) (exponent : Int) : String :=
  if 0 ≤ exponent then
    String.ofList (digits ++ List.replicate exponent.toNat '0') ++ ".0"
  else
    let places := (-exponent).toNat
    if places < digits.length then
      String.ofList (digits.take (digits.length - places)) ++ "." ++
        String.ofList (digits.drop (digits.length - places))
    else
      "0." ++ String.ofList (List.replicate (places - digits.length) '0' ++ digits)

/-- One digit in front of the point, the point only if more digits follow, then the exponent. -/
def scientific (digits : List Char) (exponent : Int) : String :=
  let power := exponent + (digits.length - 1 : Nat)
  let fraction := digits.drop 1
  String.ofList (digits.take 1) ++
    (if fraction.isEmpty then "" else "." ++ String.ofList fraction) ++ "e" ++ toString power

/-- Numbers from here on, and those below `positionalFrom`, are written with an exponent. -/
def positionalBelow : Binary32 := ofDecimal (Nat.pow 10 16) 0

def positionalFrom : Binary32 := ofDecimal 1 4

/-- The text of a non-negative number. -/
def render (x : Binary32) : String :=
  if x.isInfinite then "inf"
  else if x.bits = 0 then "0.0"
  else
    let (digits, exponent) := x.shortest.trimmed
    if x.bits < positionalFrom.bits ∨ positionalBelow.bits ≤ x.bits then
      scientific digits exponent
    else positional digits exponent

end WindowedClosures.Binary32
