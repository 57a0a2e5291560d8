/-!
# The pool of closures

There are 256 closures. Number 0 belongs to all functions that capture nothing and is never handed
out or taken back. The others stand in one order: those in use first, the free ones behind them.
Counts of references wrap around at eight bits.
-/

namespace WindowedClosures

structure ClosurePool where
  order : Vector UInt8 255
  /-- How many of the order are in use. -/
  used : Nat
  counts : Vector UInt8 256

namespace ClosurePool

/-- All closures free, in increasing order. -/
def fresh : ClosurePool :=
  ⟨⟨((List.range' 1 255).map UInt8.ofNat).toArray, by simp⟩, 0, Vector.replicate 256 0⟩

/-- Hand out the first free closure, or closure 0 if none is free. -/
def alloc (p : ClosurePool) : UInt8 × ClosurePool :=
  if h : p.used < 255 then (p.order[p.used], { p with used := p.used + 1 }) else (0, p)

def count (p : ClosurePool) (closure : UInt8) : UInt8 :=
  p.counts.get ⟨closure.toNat, closure.toNat_lt⟩

def setCount (p : ClosurePool) (closure : UInt8) (n : UInt8) : ClosurePool :=
  { p with counts := p.counts.set closure.toNat n closure.toNat_lt }

/-- Add a reference. -/
def retain (p : ClosurePool) (closure : UInt8) : ClosurePool :=
  p.setCount closure (p.count closure + 1)

/-- The last position up to a bound where a closure stands. -/
def lastPosition? (p : ClosurePool) (closure : UInt8) : Nat → Option Nat
  | 0 => if p.order[0]? = some closure then some 0 else none
  | n + 1 => if p.order[n + 1]? = some closure then some (n + 1) else p.lastPosition? closure n

/-- Drop a reference. A closure whose count comes to zero leaves those in use: their number falls
by one, and the closure trades places with the last of them. -/
def release (p : ClosurePool) (closure : UInt8) : ClosurePool :=
  if closure = 0 then p
  else
    let p := p.setCount closure (p.count closure - 1)
    if p.count closure ≠ 0 ∨ p.used = 0 then p
    else
      let last := p.used - 1
      match p.lastPosition? closure last with
      | some i => { p with order := p.order.swapIfInBounds i last, used := last }
      | none => { p with used := last }

end ClosurePool

end WindowedClosures
