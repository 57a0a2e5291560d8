/-!
# Single precision numbers from decimals

A float literal is a decimal fraction without sign or exponent. `Binary32.ofRatio` rounds a ratio
of naturals to the nearest number of single precision, a tie to the even significand, and gives
the infinity beyond the largest one. Only non-negative numbers arise, and these are ordered as
their bit patterns.
-/

namespace WindowedClosures

/-- A number of single precision by its bit pattern. -/
structure Binary32 where
  bits : UInt32
  deriving DecidableEq, Repr

namespace Binary32

def infinity : Binary32 := ⟨0x7f800000⟩

def isInfinite (x : Binary32) : Bool := x == infinity

/-- The least exponent of a last place: the spacing of the subnormal numbers is `2 ^ leastPlace`. -/
def leastPlace : Int := -149

/-- The quotient rounded to the nearest natural, a tie to the even one. -/
def roundDiv (num den : Nat) : Nat :=
  let q := num / den
  let r := num % den
  if 2 * r < den then q
  else if den < 2 * r then q + 1
  else q + q % 2

/-- The exponent `e` with `2 ^ e ≤ num / den < 2 ^ (e + 1)`, for positive arguments. -/
def magnitude (num den : Nat) : Int :=
  let e : Int := (Nat.log2 num : Int) - (Nat.log2 den : Int)
  if den <<< e.toNat ≤ num <<< (-e).toNat then e else e - 1

/-- `num / den` in units of `2 ^ place`, rounded. -/
def inUnits (num den : Nat) (place : Int) : Nat :=
  roundDiv (num <<< (-place).toNat) (den <<< place.toNat)

/-- The nearest number of single precision to `num / den`. The significand in units of its last
place is added to the place's share of the exponent field, so a carry moves into the exponent. -/
def ofRatio (num den : Nat) : Binary32 :=
  if num = 0 then ⟨0⟩
  else
    let place := max (magnitude num den - 23) leastPlace
    let bits := (place - leastPlace).toNat <<< 23 + inUnits num den place
    if bits < 0x7f800000 then ⟨UInt32.ofNat bits⟩ else infinity

/-- The number written as `digits` with the last `places` of them behind the point. -/
def ofDecimal (digits places : Nat) : Binary32 := ofRatio digits (Nat.pow 10 places)

/-- Significand and place of a finite number: its value is `significand * 2 ^ place`. -/
def significand (x : Binary32) : Nat × Int :=
  let field := x.bits.toNat >>> 23
  let fraction := x.bits.toNat % (1 <<< 23)
  if field = 0 then (fraction, leastPlace)
  else (fraction + 1 <<< 23, leastPlace + (field - 1 : Nat))

/-- A finite number as a ratio of naturals. -/
def ratio (x : Binary32) : Nat × Nat :=
  let (m, place) := x.significand
  (m <<< place.toNat, 1 <<< (-place).toNat)

end Binary32

end WindowedClosures
