import WindowedClosures.Proofs.Machine.Pool

/-!
# Bounds of the pool

The number of closures in use is kept in a byte, and the order is a table of 255 places. Here closures
are handed out and taken back with every bound checked. On a pool that has served any requests no check
fails, and neither does one at any step of a run, whatever was run before and however it ended.
-/

namespace WindowedClosures

namespace ClosurePool

/-! ## Checked requests -/

/-- The pool with another number of closures in use, if the number fits its byte. -/
def withUsed? (p : ClosurePool) (used : Int) : Option ClosurePool :=
  if 0 ≤ used ∧ used ≤ 255 then some { p with used := used.toNat } else none

/-- The last position up to a bound where a closure stands, if all the places looked at are there. -/
def search? (p : ClosurePool) (closure : UInt8) : Nat → Option (Option Nat)
  | 0 => do
    let here ← p.order[0]?
    return if here = closure then some 0 else none
  | n + 1 => do
    let here ← p.order[n + 1]?
    if here = closure then return some (n + 1) else p.search? closure n

/-- The pool with two closures traded, if both places are there. -/
def trade? (p : ClosurePool) (i j : Nat) : Option ClosurePool :=
  if h : i < 255 ∧ j < 255 then some { p with order := p.order.swap i j h.1 h.2 } else none

/-- `alloc` with its bounds checked. -/
def alloc? (p : ClosurePool) : Option (UInt8 × ClosurePool) :=
  if p.used < 255 then do
    let closure ← p.order[p.used]?
    let p ← p.withUsed? (p.used + 1)
    return (closure, p)
  else return (0, p)

/-- `release` with its bounds checked. The counts have a place for every byte and wrap around, so they
need no check. -/
def release? (p : ClosurePool) (closure : UInt8) : Option ClosurePool :=
  if closure = 0 then return p
  else
    let p := p.setCount closure (p.count closure - 1)
    if p.count closure ≠ 0 ∨ p.used = 0 then return p
    else do
      let p ← p.withUsed? (p.used - 1)
      match ← p.search? closure p.used with
      | some i => p.trade? i p.used
      | none => return p

variable {p q : ClosurePool} {k : UInt8}

theorem search?_eq {n : Nat} (lt : n < 255) : p.search? k n = some (p.lastPosition? k n) := by
  induction n with
  | zero =>
    rw [search?, lastPosition?, Vector.getElem?_eq_getElem lt]
    simp
  | succ n ih =>
    rw [search?, lastPosition?, Vector.getElem?_eq_getElem lt, ih (by omega)]
    by_cases here : p.order[n + 1] = k <;> simp [here]

theorem lastPosition?_congr {n : Nat} (order : q.order = p.order) :
    q.lastPosition? k n = p.lastPosition? k n := by
  induction n with
  | zero => rw [lastPosition?, lastPosition?, order]
  | succ n ih => rw [lastPosition?, lastPosition?, order, ih]

theorem withUsed?_succ (free : p.used < 255) :
    p.withUsed? (p.used + 1) = some { p with used := p.used + 1 } := by
  rw [withUsed?, if_pos (by omega)]
  rfl

theorem withUsed?_pred (some_used : 0 < p.used) (few : p.used ≤ 255) :
    p.withUsed? (p.used - 1) = some { p with used := p.used - 1 } := by
  have counted : ((p.used : Int) - 1).toNat = p.used - 1 := by omega
  rw [withUsed?, if_pos (by omega), counted]

theorem trade?_eq {i j : Nat} (hi : i < 255) (hj : j < 255) :
    p.trade? i j = some { p with order := p.order.swapIfInBounds i j } := by
  rw [trade?, dif_pos ⟨hi, hj⟩, swapIfInBounds_eq p.order hi hj]

theorem alloc?_eq (p : ClosurePool) : p.alloc? = some p.alloc := by
  unfold alloc? alloc
  split
  · rename_i free
    rw [Vector.getElem?_eq_getElem free, withUsed?_succ free]
    rfl
  · rfl

theorem release?_eq (few : p.used ≤ 255) (k : UInt8) : p.release? k = some (p.release k) := by
  unfold release? release
  split
  · rfl
  · dsimp only
    generalize counted : p.setCount k (p.count k - 1) = q
    have same : q.used = p.used := by rw [← counted]; rfl
    split
    · rfl
    · rename_i last
      rw [not_or] at last
      have some_used : 0 < q.used := Nat.pos_of_ne_zero last.2
      have lt : q.used - 1 < 255 := by omega
      have same_search : ({ q with used := q.used - 1 } : ClosurePool).lastPosition? k (q.used - 1) =
          q.lastPosition? k (q.used - 1) := lastPosition?_congr rfl
      rw [withUsed?_pred some_used (by omega), Option.bind_eq_bind, Option.bind_some, search?_eq lt,
        Option.bind_eq_bind, Option.bind_some, same_search]
      cases found : q.lastPosition? k (q.used - 1) with
      | some i => exact trade?_eq (Nat.lt_of_le_of_lt (lastPosition?_some found).1 lt) lt
      | none => rfl

/-! ## Any requests -/

/-- The order of a pool is one of the closures 1 to 255, so that closure 0 is neither free nor in use.
A closure that is handed out is none of those in use, and joins them behind the others. Nothing is
handed out or taken back out of bounds. -/
structure Intact (p : ClosurePool) : Prop where
  order : (p.order.toList.map UInt8.toNat).Perm (List.range' 1 255)
  used : p.used ≤ 255
  zero : 0 ∉ p.order.toList
  handed : p.used < 255 →
    p.alloc.1 ≠ 0 ∧ p.alloc.1 ∉ p.inUse ∧ p.alloc.2.inUse = p.inUse ++ [p.alloc.1] ∧
      p.alloc.2.order = p.order
  alloc : p.alloc? = some p.alloc
  release : ∀ k, p.release? k = some (p.release k)

theorem alloc_of_free (free : p.used < 255) :
    p.alloc = (p.order[p.used], { p with used := p.used + 1 }) := dif_pos free

theorem Sound.intact (h : p.Sound) : p.Intact where
  order := order_fresh ▸ h.order.map UInt8.toNat
  used := h.used
  zero := h.zero_not_mem
  handed := by
    intro free
    refine ⟨?_, h.alloc_not_mem, ?_, ?_⟩
    · intro zero
      rw [alloc_of_free free] at zero
      exact h.zero_not_mem (zero ▸ Vector.mem_toList_iff.mpr (Vector.getElem_mem free))
    · rw [alloc_of_free free, inUse, inUse, List.take_add_one]
      simp [free]
    · rw [alloc_of_free free]
  alloc := alloc?_eq p
  release := release?_eq h.used

end ClosurePool

/-! ## Any runs -/

namespace Machine

/-- A run on a machine whose pool served requests, of a program that fits or of one that does not,
leaves such a pool. -/
theorem pool_run_of_served (m : Machine) {before : List ClosurePool.Request}
    (served : m.pool = ClosurePool.fresh.serveAll before) (limit : Nat) (trap : Trap)
    (program : List Instruction) :
    ∃ requests, (m.run limit trap program).machine.pool = ClosurePool.fresh.serveAll requests := by
  by_cases fits : program ≠ [] ∧ program.length ≤ stackSize
  · exact pool_run m limit trap fits.1 fits.2
  · rw [run_machine_of_unfit m limit trap (by grind)]
    exact ⟨before, served⟩

theorem pool_serve_of_served (m : Machine) {before : List ClosurePool.Request}
    (served : m.pool = ClosurePool.fresh.serveAll before) (earlier : List Request) :
    ∃ requests, (m.serve earlier).pool = ClosurePool.fresh.serveAll requests := by
  induction earlier generalizing m before with
  | nil => exact ⟨before, served⟩
  | cons q rest ih =>
    obtain ⟨requests, ran⟩ := pool_run_of_served m served q.limit q.trap q.program
    exact ih _ ran

/-- The pool is intact whatever closures and references it was asked for, in any order and with any
words. It is intact at every step of every run, since a run within a limit is the beginning of the run
within any larger one: whatever the program and the trap are, after however many ticks the run is cut
off, whether it ended by itself before and how, and whatever was run on the machine before it. -/
theorem pool_intact :
    (∀ requests, (ClosurePool.fresh.serveAll requests).Intact) ∧
      ∀ earlier limit trap program, ((fresh.serve earlier).run limit trap program).machine.pool.Intact := by
  have intact (requests : List ClosurePool.Request) : (ClosurePool.fresh.serveAll requests).Intact :=
    (ClosurePool.sound_fresh.serveAll requests).intact
  have fresh_served : fresh.pool = ClosurePool.fresh.serveAll [] := rfl
  refine ⟨intact, fun earlier limit trap program => ?_⟩
  obtain ⟨before, served⟩ := pool_serve_of_served fresh fresh_served earlier
  obtain ⟨requests, pool⟩ := pool_run_of_served _ served limit trap program
  exact pool ▸ intact requests

end Machine

end WindowedClosures
