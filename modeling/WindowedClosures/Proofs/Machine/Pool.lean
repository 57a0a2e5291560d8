import Mathlib.Data.List.Nodup
import WindowedClosures.Proofs.Machine.Runs

/-!
# Closures that come back

Instructions may ask the pool for a closure, and count references to any closure up and down, whether
it is in use or not. The order of the pool stays an order of the closures 1 to 255. A closure leaves
those in use when its last reference is dropped; but if the dropped reference is to a closure that is
not in use, the last of those in use leaves in its stead, and is handed out a second time.
-/

namespace WindowedClosures

namespace ClosurePool

/-- What an instruction asks of the pool: a closure, or a reference more or less to the closure of a
function word. -/
inductive Request where
  | make
  | retain (word : Int32)
  | release (word : Int32)
  deriving DecidableEq, Repr

def serve (p : ClosurePool) : Request → ClosurePool
  | .make => p.alloc.2
  | .retain word => p.retain (FunctionWord.ofWord word).closure
  | .release word => p.release (FunctionWord.ofWord word).closure

/-- One request after the other. -/
def serveAll (p : ClosurePool) (requests : List Request) : ClosurePool := requests.foldl serve p

/-- The closures in use. -/
def inUse (p : ClosurePool) : List UInt8 := p.order.toList.take p.used

theorem serveAll_append (p : ClosurePool) (first second : List Request) :
    p.serveAll (first ++ second) = (p.serveAll first).serveAll second := List.foldl_append

/-! ## An order of all closures -/

/-- The order has the closures 1 to 255, and no more of them are in use than there are. -/
structure Sound (p : ClosurePool) : Prop where
  order : p.order.toList.Perm fresh.order.toList
  used : p.used ≤ 255

theorem sound_fresh : fresh.Sound := ⟨.refl _, Nat.zero_le _⟩

variable {p q : ClosurePool} {k c : UInt8}

theorem order_fresh : fresh.order.toList.map UInt8.toNat = List.range' 1 255 := by decide +kernel

theorem Sound.nodup (h : p.Sound) : p.order.toList.Nodup := by
  have distinct : fresh.order.toList.Nodup :=
    List.Nodup.of_map UInt8.toNat (order_fresh ▸ List.nodup_range')
  exact h.order.nodup_iff.mpr distinct

/-- Closure 0 is never handed out or taken back. -/
theorem Sound.zero_not_mem (h : p.Sound) : 0 ∉ p.order.toList := by
  intro mem
  have found : 0 ∈ fresh.order.toList.map UInt8.toNat := List.mem_map_of_mem (h.order.mem_iff.mp mem)
  rw [order_fresh] at found
  simp at found

theorem mem_inUse_iff : c ∈ p.inUse ↔ ∃ i, i < p.used ∧ p.order[i]? = some c := by
  rw [inUse, List.mem_iff_getElem?]
  constructor
  · rintro ⟨i, hi⟩
    rw [List.getElem?_take] at hi
    split at hi
    · rename_i lt
      exact ⟨i, lt, by simpa using hi⟩
    · cases hi
  · rintro ⟨i, lt, hi⟩
    refine ⟨i, ?_⟩
    rw [List.getElem?_take, if_pos lt]
    simpa using hi

/-- What is handed out is not in use. -/
theorem Sound.alloc_not_mem (h : p.Sound) : p.alloc.1 ∉ p.inUse := by
  unfold alloc
  split
  · rename_i free
    have split : p.order.toList.take (p.used + 1) = p.inUse ++ [p.order[p.used]] := by
      rw [inUse, List.take_add_one]
      simp [free]
    have distinct : (p.inUse ++ [p.order[p.used]]).Nodup :=
      split ▸ h.nodup.sublist (List.take_sublist _ _)
    intro mem
    exact (List.nodup_append.mp distinct).2.2 _ mem _ (by simp) rfl
  · exact fun mem => h.zero_not_mem (List.mem_of_mem_take mem)

/-- A closure is handed out from behind those in use, which stay where they are. -/
theorem inUse_alloc (p : ClosurePool) : p.inUse <+: p.alloc.2.inUse := by
  unfold alloc
  split
  · exact List.take_prefix_take_left (Nat.le_succ _)
  · exact List.prefix_rfl

theorem Sound.alloc (h : p.Sound) : p.alloc.2.Sound := by
  unfold ClosurePool.alloc
  split
  · rename_i free
    exact ⟨h.order, free⟩
  · exact h

@[simp] theorem inUse_setCount (p : ClosurePool) (k n : UInt8) : (p.setCount k n).inUse = p.inUse := rfl

@[simp] theorem count_setCount (p : ClosurePool) (k n : UInt8) : (p.setCount k n).count k = n := by
  show (p.counts.set k.toNat n k.toNat_lt).get ⟨k.toNat, k.toNat_lt⟩ = n
  exact Vector.getElem_set_self k.toNat_lt

/-! ## Dropping a reference -/

theorem lastPosition?_some {n i : Nat} (h : p.lastPosition? k n = some i) :
    i ≤ n ∧ p.order[i]? = some k := by
  induction n with
  | zero =>
    rw [lastPosition?] at h
    split at h
    · cases h
      exact ⟨Nat.le_refl _, ‹_›⟩
    · cases h
  | succ n ih =>
    rw [lastPosition?] at h
    split at h
    · cases h
      exact ⟨Nat.le_refl _, ‹_›⟩
    · exact ⟨Nat.le_succ_of_le (ih h).1, (ih h).2⟩

theorem lastPosition?_none {n : Nat} (h : p.lastPosition? k n = none) :
    ∀ i, i ≤ n → p.order[i]? ≠ some k := by
  induction n with
  | zero =>
    rw [lastPosition?] at h
    split at h
    · cases h
    · intro i le
      rwa [Nat.le_zero.mp le]
  | succ n ih =>
    rw [lastPosition?] at h
    split at h
    · cases h
    · intro i le
      rcases Nat.le_succ_iff.mp le with le | rfl
      · exact ih h i le
      · assumption

theorem swapIfInBounds_eq {α : Type} {n : Nat} (xs : Vector α n) {i j : Nat} (hi : i < n) (hj : j < n) :
    xs.swapIfInBounds i j = xs.swap i j := by
  refine Vector.toArray_inj.mp ?_
  rw [Vector.toArray_swapIfInBounds, Array.swapIfInBounds_def, Vector.toArray_swap,
    dif_pos (by simpa using hi), dif_pos (by simpa using hj)]

/-- Two places among the first ones trade what they hold. -/
theorem take_swap_perm {α : Type} {n : Nat} (xs : Vector α n) {i j m : Nat} (hi : i < n) (hj : j < n)
    (im : i < m) (jm : j < m) : ((xs.swap i j).toList.take m).Perm (xs.toList.take m) := by
  have whole : (xs.swap i j).toList.Perm xs.toList := (Vector.swap_perm hi hj).toList
  have behind : (xs.swap i j).toList.drop m = xs.toList.drop m := by
    refine List.ext_getElem (by simp) fun l _ _ => ?_
    simp only [List.getElem_drop, Vector.getElem_toList]
    exact Vector.getElem_swap_of_ne (by omega) (by omega)
  rw [← List.take_append_drop m (xs.swap i j).toList, ← List.take_append_drop m xs.toList, behind]
    at whole
  exact (List.perm_append_right_iff _).mp whole

/-- The place of one of the first elements is taken by the last of them. -/
theorem take_perm_swap {α : Type} {n : Nat} (xs : Vector α n) {i m : Nat} (le : i ≤ m) (hm : m < n) :
    (xs.toList.take (m + 1)).Perm
      (xs[i] :: (xs.swap i m (Nat.lt_of_le_of_lt le hm) hm).toList.take m) := by
  have hi : i < n := Nat.lt_of_le_of_lt le hm
  have traded := take_swap_perm xs hi hm (Nat.lt_succ_of_le le) (Nat.lt_succ_self m)
  have last : (xs.swap i m hi hm).toList.take (m + 1) =
      (xs.swap i m hi hm).toList.take m ++ [xs[i]] := by
    rw [List.take_add_one]
    simp [hm]
  rw [last] at traded
  exact traded.symm.trans (List.perm_append_singleton _ _)

/-- What becomes of the closures in use when a reference is dropped. -/
inductive Released (p q : ClosurePool) (k : UInt8) : Prop
  /-- Other references are left, or there is nothing to take back. -/
  | stays : k = 0 ∨ p.count k ≠ 1 ∨ p.inUse = [] → q.order = p.order → q.used = p.used → Released p q k
  /-- The closure is taken back. -/
  | leaves : k ≠ 0 → p.count k = 1 → q.order.toList.Perm p.order.toList → q.used ≤ p.used →
      p.inUse.Perm (k :: q.inUse) → Released p q k
  /-- The closure is not in use, and the last one in use is taken back. -/
  | slips : k ≠ 0 → p.count k = 1 → k ∉ p.inUse → p.inUse ≠ [] → q.order = p.order →
      q.used = p.used - 1 → Released p q k

theorem inUse_eq_nil_iff (p : ClosurePool) : p.inUse = [] ↔ p.used = 0 := by
  rw [inUse, List.take_eq_nil_iff]
  refine ⟨fun h => h.resolve_right fun empty => ?_, .inl⟩
  have length := congrArg List.length empty
  rw [Vector.length_toList] at length
  cases length

/-- A closure that stands among those in use trades places with the last of them, and leaves. -/
theorem inUse_perm_swap {i : Nat} (used : 0 < p.used) (few : p.used ≤ 255) (le : i ≤ p.used - 1)
    (here : p.order[i]? = some k) : p.inUse.Perm
      (k :: (p.order.swapIfInBounds i (p.used - 1)).toList.take (p.used - 1)) := by
  have lt : p.used - 1 < 255 := by omega
  obtain ⟨hi, eq⟩ := Vector.getElem?_eq_some_iff.mp here
  have taken := take_perm_swap p.order le lt
  rwa [Nat.sub_add_cancel used, eq, ← swapIfInBounds_eq p.order hi lt] at taken

theorem order_perm_swap (p : ClosurePool) (i j : Nat) :
    (p.order.swapIfInBounds i j).toList.Perm p.order.toList := by
  by_cases inside : i < 255 ∧ j < 255
  · rw [swapIfInBounds_eq p.order inside.1 inside.2]
    exact (Vector.swap_perm _ _).toList
  · have same : p.order.swapIfInBounds i j = p.order := by
      refine Vector.toArray_inj.mp ?_
      rw [Vector.toArray_swapIfInBounds, Array.swapIfInBounds_def]
      simp only [Vector.size_toArray]
      split
      · rw [dif_neg (by omega)]
      · rfl
    rw [same]

theorem released (few : p.used ≤ 255) (k : UInt8) : Released p (p.release k) k := by
  unfold release
  split
  · rename_i zero
    exact .stays (.inl zero) rfl rfl
  · rename_i nonzero
    dsimp only
    rw [count_setCount]
    split
    · rename_i more
      refine .stays (.inr ?_) rfl rfl
      rw [inUse_eq_nil_iff]
      rcases more with more | none
      · exact .inl fun one => more (by rw [one]; rfl)
      · exact .inr none
    · rename_i last
      rw [not_or, not_not] at last
      have one : p.count k = 1 := by
        have := last.1
        grind
      have used : 0 < p.used := Nat.pos_of_ne_zero last.2
      split
      · rename_i i found
        obtain ⟨le, here⟩ := lastPosition?_some found
        exact .leaves nonzero one (order_perm_swap p _ _) (Nat.sub_le _ _)
          (inUse_perm_swap used few le here)
      · rename_i absent
        refine .slips nonzero one ?_ (fun nil => last.2 ((inUse_eq_nil_iff p).mp nil)) rfl rfl
        intro mem
        obtain ⟨i, lt, here⟩ := mem_inUse_iff.mp mem
        exact lastPosition?_none absent i (Nat.le_sub_one_of_lt lt) here

theorem Sound.release (h : p.Sound) (k : UInt8) : (p.release k).Sound := by
  cases released h.used k with
  | stays _ order used => exact ⟨order ▸ h.order, used ▸ h.used⟩
  | leaves _ _ order used _ => exact ⟨order.trans h.order, Nat.le_trans used h.used⟩
  | slips _ _ _ _ order used => exact ⟨order ▸ h.order, used ▸ Nat.le_trans (Nat.sub_le _ _) h.used⟩

theorem Sound.serve (h : p.Sound) (request : Request) : (p.serve request).Sound := by
  cases request with
  | make => exact h.alloc
  | retain word => exact ⟨h.order, h.used⟩
  | release word => exact h.release _

/-- Whatever is asked of the pool, its order is one of the closures 1 to 255. -/
theorem Sound.serveAll (h : p.Sound) (requests : List Request) : (p.serveAll requests).Sound := by
  induction requests generalizing p with
  | nil => exact h
  | cons request rest ih => exact ih (h.serve request)

/-! ## Closures that stay in use -/

/-- A dropped reference to the closure takes back another one in its stead. -/
def Slips (p : ClosurePool) (k : UInt8) : Prop :=
  k ≠ 0 ∧ p.count k = 1 ∧ k ∉ p.inUse ∧ p.inUse ≠ []

instance (p : ClosurePool) (k : UInt8) : Decidable (p.Slips k) := inferInstanceAs (Decidable (_ ∧ _))

theorem inUse_congr (order : q.order = p.order) (used : q.used = p.used) : q.inUse = p.inUse := by
  rw [inUse, inUse, order, used]

/-- The last of the closures in use is taken back. -/
theorem inUse_of_slips (few : p.used ≤ 255) (slips : p.Slips k) :
    (p.release k).inUse = p.inUse.dropLast := by
  cases released few k with
  | stays still _ _ =>
    obtain ⟨nonzero, one, -, some⟩ := slips
    exact (still.elim nonzero (Or.elim · (· one) some)).elim
  | leaves _ _ _ _ perm => exact (slips.2.2.1 (perm.mem_iff.mpr (by simp))).elim
  | slips _ _ _ _ order used =>
    have length : p.inUse.length = p.used := by
      rw [inUse, List.length_take, Vector.length_toList]
      omega
    rw [List.dropLast_eq_take, length, inUse, order, used, inUse, List.take_take,
      Nat.min_eq_left (Nat.sub_le _ _)]

/-- Otherwise no closure but the one named leaves. -/
theorem inUse_of_not_slips (few : p.used ≤ 255) (own : ¬p.Slips k) :
    (p.release k).inUse = p.inUse ∨ p.count k = 1 ∧ p.inUse.Perm (k :: (p.release k).inUse) := by
  cases released few k with
  | stays _ order used => exact .inl (inUse_congr order used)
  | leaves _ one _ _ perm => exact .inr ⟨one, perm⟩
  | slips nonzero one absent some _ _ => exact (own ⟨nonzero, one, absent, some⟩).elim

/-- Another closure leaves exactly when the dropped reference slips. -/
theorem Sound.slips_iff (h : p.Sound) :
    (∃ c ∈ p.inUse, c ≠ k ∧ c ∉ (p.release k).inUse) ↔ p.Slips k := by
  constructor
  · rintro ⟨c, mem, other, gone⟩
    by_contra own
    rcases inUse_of_not_slips h.used own with same | ⟨-, perm⟩
    · exact gone (same ▸ mem)
    · exact ((List.mem_cons.mp (perm.mem_iff.mp mem)).elim other gone)
  · intro slips
    have distinct : p.inUse.Nodup := h.nodup.sublist (List.take_sublist _ _)
    have last := List.dropLast_append_getLast slips.2.2.2
    refine ⟨p.inUse.getLast slips.2.2.2, List.getLast_mem _, ?_, ?_⟩
    · exact fun eq => slips.2.2.1 (eq ▸ List.getLast_mem _)
    · rw [inUse_of_slips h.used slips]
      intro mem
      rw [← last] at distinct
      exact (List.nodup_append.mp distinct).2.2 _ mem _ (by simp) rfl

/-- A request that leaves a closure in use: neither its last reference is dropped, nor one that takes
back another closure. -/
def Spares (p : ClosurePool) (c : UInt8) : Request → Prop
  | .make | .retain _ => True
  | .release word =>
    ¬p.Slips (FunctionWord.ofWord word).closure ∧
      ((FunctionWord.ofWord word).closure = c → p.count c ≠ 1)

instance (p : ClosurePool) (c : UInt8) : (request : Request) → Decidable (p.Spares c request)
  | .make | .retain _ => isTrue trivial
  | .release _ => inferInstanceAs (Decidable (_ ∧ _))

/-- Each of some requests leaves a closure in use. -/
def SparesAll (p : ClosurePool) (c : UInt8) : List Request → Prop
  | [] => True
  | request :: rest => p.Spares c request ∧ (p.serve request).SparesAll c rest

theorem Sound.mem_inUse_serve (h : p.Sound) {request : Request} (mem : c ∈ p.inUse)
    (spares : p.Spares c request) : c ∈ (p.serve request).inUse := by
  cases request with
  | make => exact (inUse_alloc p).mem mem
  | retain word => exact mem
  | release word =>
    obtain ⟨own, others⟩ := spares
    rcases inUse_of_not_slips h.used own with same | ⟨one, perm⟩
    · exact same ▸ mem
    · refine (List.mem_cons.mp (perm.mem_iff.mp mem)).resolve_left fun eq => ?_
      subst eq
      exact others rfl one

theorem Sound.mem_inUse_serveAll (h : p.Sound) {requests : List Request} (mem : c ∈ p.inUse)
    (spares : p.SparesAll c requests) : c ∈ (p.serveAll requests).inUse := by
  induction requests generalizing p with
  | nil => exact mem
  | cons request rest ih => exact ih (h.serve request) (h.mem_inUse_serve mem spares.1) spares.2

end ClosurePool

/-! ## Runs -/

namespace Exec

variable {α β : Type}

/-- Whatever comes of it, the pool is asked for closures and references only. -/
def Asks (x : Exec α) : Prop :=
  ∀ r : Run, ∃ requests, (left (x r)).machine.pool = r.machine.pool.serveAll requests

theorem asks_of_pool_eq {x : Exec α} (h : ∀ r, (left (x r)).machine.pool = r.machine.pool) : Asks x :=
  fun r => ⟨[], h r⟩

theorem asks_pure (a : α) : Asks (pure a) := asks_of_pool_eq fun _ => rfl

theorem asks_throw (halt : Halt) : Asks (throw halt : Exec α) := asks_of_pool_eq fun _ => rfl

theorem asks_bind {x : Exec α} {f : α → Exec β} (hx : Asks x) (hf : ∀ a, Asks (f a)) :
    Asks (x >>= f) := by
  intro r
  obtain ⟨first, begun⟩ := hx r
  cases hr : x r with
  | error halt t =>
    rw [hr] at begun
    exact ⟨first, by rw [bind_of_error hr]; exact begun⟩
  | ok a t =>
    rw [hr] at begun
    obtain ⟨second, ended⟩ := hf a t
    refine ⟨first ++ second, ?_⟩
    rw [bind_of_ok hr, ended, ClosurePool.serveAll_append, ← begun]
    rfl

theorem asks_machine : Asks machine := asks_of_pool_eq fun _ => rfl

theorem asks_change {f : Machine → Machine} (hf : ∀ m, (f m).pool = m.pool) :
    Asks (do modifyMachine f; skip) := asks_of_pool_eq fun r => hf r.machine

theorem asks_read (byte : UInt8) : Asks (read byte) := by
  refine asks_bind asks_machine fun m => ?_
  split
  · exact asks_pure _
  · exact asks_throw _

theorem asks_store (byte : UInt8) (word : Int32) : Asks (store byte word) := by
  refine asks_bind (asks_bind asks_machine fun m => ?_) fun _ => asks_of_pool_eq fun _ => rfl
  split
  · exact asks_of_pool_eq fun r => r.machine.writeCell_pool _ _
  · exact asks_throw _

theorem asks_stackAddress (base : Int32) (offset : UInt8) : Asks (stackAddress base offset) := by
  unfold stackAddress
  split
  · exact asks_pure _
  · exact asks_throw _

theorem asks_arithmetic (i : Instruction) : Asks (arithmetic i) := by
  refine asks_bind (asks_read _) fun a => asks_bind (asks_read _) fun b => ?_
  split
  · exact asks_store _ _
  · exact asks_throw _

theorem asks_leave : Asks leave := by
  refine asks_bind (asks_of_pool_eq fun _ => rfl) fun r => ?_
  split
  · exact asks_pure _
  · refine asks_bind (asks_of_pool_eq fun _ => rfl) fun _ => ?_
    split
    · exact asks_pure _
    · exact asks_of_pool_eq fun _ => rfl

/-- One request is made of the pool. -/
theorem asks_serve (request : ClosurePool.Request) (f : Machine → Machine)
    (hf : ∀ m, (f m).pool = m.pool.serve request) : Asks (modifyMachine f) :=
  fun r => ⟨[request], hf r.machine⟩

theorem asks_step (i : Instruction) : Asks (step i) := by
  unfold step
  split
  · exact asks_store _ _
  · exact asks_bind (asks_read _) fun _ => asks_store _ _
  · exact asks_bind (asks_read _) fun _ => asks_store _ _
  · refine asks_bind (asks_read _) fun _ => asks_bind (asks_stackAddress _ _) fun _ => ?_
    exact asks_bind asks_machine fun _ => asks_store _ _
  · refine asks_bind (asks_read _) fun _ => asks_bind (asks_stackAddress _ _) fun _ => ?_
    exact asks_bind (asks_read _) fun _ => asks_change fun _ => rfl
  · exact asks_bind (asks_read _) fun _ => asks_store _ _
  iterate 8 exact asks_arithmetic i
  · exact asks_of_pool_eq fun _ => rfl
  · refine asks_bind asks_machine fun _ => ?_
    dsimp only
    split
    · exact asks_throw _
    · exact asks_change fun _ => rfl
  · intro r
    obtain ⟨rest, stored⟩ :=
      asks_store i.x (FunctionWord.word r.machine.pool.alloc.1 i.yz) (selecting r)
    exact ⟨.make :: rest, stored⟩
  · refine asks_bind (asks_read _) fun word => asks_bind ?_ fun _ => asks_of_pool_eq fun _ => rfl
    exact asks_serve (.retain word) _ fun _ => rfl
  · refine asks_bind (asks_read _) fun word => asks_bind ?_ fun _ => asks_of_pool_eq fun _ => rfl
    exact asks_serve (.release word) _ fun _ => rfl
  · exact asks_change fun _ => rfl
  · exact asks_of_pool_eq fun _ => rfl
  · exact asks_bind (asks_read _) fun _ => asks_of_pool_eq fun _ => rfl
  · exact asks_leave
  · exact asks_of_pool_eq fun _ => rfl

theorem asks_tick (trap : Trap) : Asks (tick trap) := by
  intro r
  rcases left_tick trap r with ⟨counted, -⟩ | ⟨i, -, stepped⟩
  · exact ⟨[], by rw [counted]; rfl⟩
  · obtain ⟨requests, served⟩ := asks_step i (r.charge i)
    exact ⟨requests, by rw [stepped]; exact served⟩

/-- However many ticks a run takes and however it ends, its pool has served requests. -/
theorem asks_ticks (trap : Trap) (n : Nat) : Asks (ticks trap n) := by
  induction n with
  | zero => exact asks_throw _
  | succ n ih =>
    refine asks_bind (asks_tick trap) fun ended => ?_
    split
    · exact asks_pure _
    · exact ih

end Exec

/-- Every run leaves a pool that served requests from the start. -/
theorem Machine.pool_run (m : Machine) (limit : Nat) (trap : Trap) {program : List Instruction}
    (given : program ≠ []) (fits : program.length ≤ stackSize) :
    ∃ requests, (m.run limit trap program).machine.pool = ClosurePool.fresh.serveAll requests := by
  obtain ⟨requests, served⟩ :=
    Exec.asks_ticks trap limit (.start program.dropLast (program.getLast given).yz)
  exact ⟨requests, by rw [run_eq_outcome m limit trap given fits, Exec.outcome_machine, served]; rfl⟩

open ClosurePool

/-- Whatever is asked of a pool, a dropped reference takes a closure other than its own out of use
exactly when it is the only one counted for a closure that is not in use while others are; then it
takes the last of them. Otherwise the closure itself leaves, if it was the last reference, or none.
A closure in use stays so, and is not handed out again, as long as references to it are left and no
dropped reference slips. -/
theorem release_takes (requests : List Request) (word : Int32) :
    let p := ClosurePool.fresh.serveAll requests
    let k := (FunctionWord.ofWord word).closure
    ((∃ c ∈ p.inUse, c ≠ k ∧ c ∉ (p.release k).inUse) ↔ p.Slips k) ∧
      (p.Slips k → (p.release k).inUse = p.inUse.dropLast) ∧
      (¬p.Slips k → (p.release k).inUse = p.inUse ∨
        p.count k = 1 ∧ p.inUse.Perm (k :: (p.release k).inUse)) ∧
      ∀ c ∈ p.inUse, ∀ later, p.SparesAll c later →
        c ∈ (p.serveAll later).inUse ∧ (p.serveAll later).alloc.1 ≠ c := by
  intro p k
  have sound : p.Sound := sound_fresh.serveAll requests
  refine ⟨sound.slips_iff, inUse_of_slips sound.used, inUse_of_not_slips sound.used, ?_⟩
  intro c mem later spares
  have stays := sound.mem_inUse_serveAll mem spares
  exact ⟨stays, fun eq => (sound.serveAll later).alloc_not_mem (eq ▸ stays)⟩

/-- Of two closures in use the first is taken back and handed out again, and the second stays. -/
theorem release_takes_first :
    ∃ p : ClosurePool, p = ClosurePool.fresh.serveAll [.make, .make, .retain (FunctionWord.word 1 0)] ∧
      p.inUse = [1, 2] ∧ ¬p.Slips 1 ∧ (p.release 1).inUse = [2] ∧
      2 ∈ (p.serveAll [.release (FunctionWord.word 1 0), .make]).inUse ∧
      (p.serveAll [.release (FunctionWord.word 1 0)]).alloc.1 = 1 := by
  have taken := release_takes [.make, .make, .retain (FunctionWord.word 1 0)] (FunctionWord.word 1 0)
  have own : ¬(ClosurePool.fresh.serveAll [.make, .make, .retain (FunctionWord.word 1 0)]).Slips 1 := by
    decide +kernel
  have stays := taken.2.2.2 2 (by decide +kernel) [.release (FunctionWord.word 1 0), .make]
    ⟨by decide +kernel, trivial, trivial⟩
  exact ⟨_, rfl, by decide +kernel, own, by decide +kernel, stays.1, by decide +kernel⟩

/-- Closure 1 is in use and closure 3 is not, and a reference to closure 3 is counted up and down:
closure 1 is handed out a second time. -/
theorem release_takes_another :
    (ClosurePool.fresh.serveAll [.make, .retain (FunctionWord.word 3 0)]).inUse = [1] ∧
      (ClosurePool.fresh.serveAll
        [.make, .retain (FunctionWord.word 3 0), .release (FunctionWord.word 3 0)]).inUse = [] ∧
      (ClosurePool.fresh.serveAll
        [.make, .retain (FunctionWord.word 3 0), .release (FunctionWord.word 3 0)]).alloc.1 = 1 ∧
      ∃ outcome : Outcome, outcome = Machine.fresh.run 7 .none [⟨.closureMake, 0, 0⟩, ⟨.loadLow, 1, 0⟩,
          ⟨.loadHigh, 1, 0x300⟩, ⟨.retain, 1, 0⟩, ⟨.release, 1, 0⟩, ⟨.closureMake, 2, 0⟩, ⟨.ret, 0, 0⟩,
          ⟨.brk, 0, 0⟩] ∧
        outcome.halt.status = 0 ∧
        (List.range 3).map (outcome.machine.register? .window) =
          [some (FunctionWord.word 1 0), some (FunctionWord.word 3 0), some (FunctionWord.word 1 0)] :=
  ⟨by decide +kernel, by decide +kernel, by decide +kernel, _, rfl, by decide +kernel, by decide +kernel⟩

end WindowedClosures
