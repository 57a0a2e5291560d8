import WindowedClosures.Proofs.Code.Footprint
import WindowedClosures.Proofs.Machine.Passage

/-!
# Comparisons on the machine

The code of comparisons, negations and connectives leaves exactly 1 or 0, whatever words it compares,
also where a difference of them wraps around. The destination may be one of the operands or the first
free scratch register, since no operand is read once it is written; besides it only free scratch
registers change.
-/

namespace WindowedClosures

/-- A comparison of integers. -/
def Comparison.relates (op : Comparison) (a b : Int) : Bool :=
  match op with
  | .eq => decide (a = b)
  | .ne => decide (a ≠ b)
  | .gt => decide (a > b)
  | .ge => decide (a ≥ b)
  | .lt => decide (a < b)
  | .le => decide (a ≤ b)

/-- Words are compared as the signed integers they stand for. -/
theorem Comparison.holds_eq_relates (op : Comparison) (a b : Int32) :
    op.holds a b = op.relates a.toInt b.toInt := by
  cases op <;> simp [holds, relates, Int32.toInt_inj, Int32.lt_iff_toInt_lt, Int32.le_iff_toInt_le]

theorem Int32.ne_zero_iff_toInt (a : Int32) : a ≠ 0 ↔ a.toInt ≠ 0 := by
  rw [ne_eq, ne_eq, ← Int32.toInt_inj, Int32.toInt_zero]

/-- Behind so many instructions a register has a word. No other register has changed but free scratch
registers, and neither has anything else. -/
structure Run.Leaves (r s : Run) (count watermark : Nat) (dst : Register) (word : Int32) : Prop where
  through : r.Through s count
  word : s.machine.readCell? (s.machine.cell dst) = some word
  others : ∀ c, c ≠ r.machine.cell dst →
    (∀ k, watermark ≤ k → k < 64 → c ≠ .stack (r.machine.top + k)) →
      s.machine.readCell? c = r.machine.readCell? c
  aux : s.machine.aux = r.machine.aux
  pool : s.machine.pool = r.machine.pool

/-- The registers that code for a destination may change. -/
def Footprint.into (dst : Register) (watermark : Nat) : Footprint :=
  ⟨fun _ => True, fun t => t = dst ∨ t.bank = .aux ∨ t.bank = .window ∧ watermark ≤ t.offset,
    fun _ => True⟩

theorem Footprint.free_into (dst : Register) (watermark : Nat) :
    (Footprint.into dst watermark).Free watermark where
  scratch _ bank inside := ⟨trivial, .inr (.inr ⟨bank, inside⟩)⟩
  aux _ bank := .inr (.inl bank)
  frames _ _ := trivial

theorem Footprint.uses_into (dst : Register) (watermark : Nat) :
    (Footprint.into dst watermark).Uses dst := ⟨trivial, .inl rfl⟩

/-- Code that can be played writes near registers only. -/
theorem near_of_play {code : List Instruction} {file after : RegisterFile}
    (h : play code file = .ok after) {i : Instruction} (mem : i ∈ code) {t : Register}
    (writes : i.writes? = some t) : t.Near := by
  induction code generalizing file with
  | nil => cases mem
  | cons first rest ih =>
    rw [play] at h
    split at h
    · rename_i computes
      split at h
      · rcases List.mem_cons.mp mem with rfl | mem
        · have target : t = .ofByte i.x := by
            unfold Instruction.writes? at writes
            split at writes <;> simp_all
          rw [target]
          exact computes.2
        · exact ih h mem
      · cases h
    · cases h

namespace Emit

/-- With six scratch registers left the emission succeeds. Its code writes the destination and free
scratch registers only, and from any machine with these words in its registers a run through it leaves
the given word in the destination. -/
structure Leaves (m : Emit Unit) (watermark : Nat) (file : RegisterFile) (dst : Register) (word : Int32) :
    Prop where
  emitted : watermark + 6 ≤ 64 → ∃ result, m watermark = .ok result
  writes : ∀ result, m watermark = .ok result → ∀ e ∈ result.code, ∀ t,
    e.instruction.writes? = some t → t = dst ∨ t.bank = .window ∧ watermark ≤ t.offset
  run : ∀ result, m watermark = .ok result → ∀ r : Run, r.machine.Seated → r.machine.Shows file →
    r.machine.Ahead (result.code.map (·.instruction)) →
      ∃ s, r.Leaves s result.code.length watermark dst word

open RegisterFile

variable {watermark : Nat} {file : RegisterFile} {dst a b : Register} {word : Int32} {m : Emit Unit}
  {Q : Unit → Nat → Prop}

/-- What the table computes within a footprint, the machine computes too. -/
theorem leaves_of_makes (near : dst.Near) (emitted : watermark + 6 ≤ 64 → Succeeds m watermark fun _ _ => True)
    (treads : Treads m watermark (.into dst watermark) fun _ _ => True)
    (makes : Makes m watermark file False fun _ _ after => Sets watermark dst word file after) :
    Leaves m watermark file dst word := by
  refine ⟨fun room => ?_, fun result hr e he t writes => ?_, fun result hr r seated shows_ ahead => ?_⟩
  · obtain ⟨result, hr, -⟩ := emitted room
    exact ⟨result, hr⟩
  · obtain ⟨after, found, -⟩ := makes.played hr
    rcases ((treads result hr).1 e he).writes t writes with rfl | aux | scratch
    · exact .inl rfl
    · have written : t.Near := near_of_play found (List.mem_map_of_mem he) writes
      rcases written with bank | bank <;> rw [bank] at aux <;> cases aux
    · exact .inr scratch
  · obtain ⟨after, found, sets⟩ := makes.played hr
    obtain ⟨s, through, beside, shown, -⟩ := (gets_of_play shows_ ahead found).through seated
    rw [List.length_map] at through
    have kept : Sets watermark dst word r.machine.file after := by
      refine ⟨sets.same, fun t below ne => ?_⟩
      rw [sets.other t below ne, shows_ t below.near]
    refine ⟨s, through, ?_, fun c ne scratch => ?_, beside.aux, beside.pool⟩
    · rw [(beside.seated seated).readCell? near, shown dst near, sets.same]
    · exact readCell?_of_sets seated beside shown kept ne scratch

/-! ## The emissions succeed -/

theorem succeeds_xor (room : watermark + 3 ≤ 64) (h : Q () watermark) :
    Succeeds (xor dst a b) watermark Q := by
  refine succeeds_releasing (succeeds_bind (succeeds_temp (by omega) fun t => ?_))
  refine succeeds_bind (succeeds_temp (by omega) fun u => ?_)
  refine succeeds_bind (succeeds_temp (by omega) fun v => ?_)
  exact succeeds_bind (succeeds_push (succeeds_bind (succeeds_push (succeeds_bind (succeeds_push
    (succeeds_push h))))))

theorem succeeds_less (room : watermark + 6 ≤ 64) (h : ∀ mark, mark ≤ watermark + 4 → Q () mark) :
    Succeeds (less dst a b) watermark Q := by
  refine succeeds_bind (succeeds_temp (by omega) fun d => ?_)
  refine succeeds_bind (succeeds_temp (by omega) fun x => ?_)
  refine succeeds_bind (succeeds_temp (by omega) fun y => ?_)
  refine succeeds_bind (succeeds_push ?_)
  refine succeeds_bind (succeeds_xor (by omega) ?_)
  refine succeeds_bind (succeeds_xor (by omega) ?_)
  refine succeeds_bind (succeeds_push (succeeds_bind (succeeds_push ?_)))
  refine succeeds_bind (succeeds_xor (by omega) ?_)
  refine succeeds_bind (succeeds_constant (by omega) fun amount => ?_)
  exact succeeds_bind (succeeds_push (succeeds_push (h _ (by omega))))

theorem succeeds_nonzero (room : watermark + 4 ≤ 64) (h : ∀ mark, Q () mark) :
    Succeeds (nonzero dst a) watermark Q := by
  refine succeeds_bind (succeeds_constant (by omega) fun zero => ?_)
  refine succeeds_bind (succeeds_temp (by omega) fun negative => ?_)
  refine succeeds_bind (succeeds_temp (by omega) fun complement => ?_)
  refine succeeds_bind (succeeds_push (succeeds_bind (succeeds_push (succeeds_bind (succeeds_push
    (succeeds_bind (succeeds_push ?_)))))))
  refine succeeds_bind (succeeds_constant (by omega) fun amount => ?_)
  exact succeeds_bind (succeeds_push (succeeds_push (h _)))

theorem succeeds_invert (h : Q () watermark) : Succeeds (invert dst a) watermark Q :=
  succeeds_bind (succeeds_push (succeeds_push h))

theorem succeeds_compare (op : Comparison) (room : watermark + 6 ≤ 64) :
    Succeeds (Emit.compare op dst a b) watermark fun _ _ => True := by
  have inverted (mark : Nat) : Succeeds (invert dst dst) mark fun _ _ => True :=
    succeeds_invert trivial
  cases op with
  | lt | gt => exact succeeds_less room fun _ _ => trivial
  | ge | le => exact succeeds_bind (succeeds_less room fun mark _ => inverted mark)
  | ne =>
    refine succeeds_bind (succeeds_temp (by omega) fun d => succeeds_bind (succeeds_push ?_))
    exact succeeds_nonzero (by omega) fun _ => trivial
  | eq =>
    refine succeeds_bind (succeeds_temp (by omega) fun d => succeeds_bind (succeeds_push ?_))
    exact succeeds_bind (succeeds_nonzero (by omega) inverted)

theorem succeeds_connect (op : Connective) (room : watermark + 2 ≤ 64) :
    Succeeds (connect op dst a b) watermark fun _ _ => True := by
  cases op with
  | and => exact succeeds_push trivial
  | or =>
    refine succeeds_bind (succeeds_temp (by omega) fun m => ?_)
    refine succeeds_bind (succeeds_temp (by omega) fun n => ?_)
    exact succeeds_bind (succeeds_push (succeeds_bind (succeeds_push (succeeds_push trivial))))

/-! ## What they leave -/

variable {p q : Bool}

theorem leaves_less (hd : dst.Near) (ha : a.Below watermark) (hb : b.Below watermark) :
    Leaves (less dst a b) watermark file dst
      (truthWord (decide ((file a).toInt < (file b).toInt))) := by
  refine leaves_of_makes hd (fun room => succeeds_less room fun _ _ => trivial) ?_ ?_
  · exact treads_less (Footprint.free_into dst watermark) (Footprint.uses_into dst watermark).2 trivial
      trivial fun _ _ => trivial
  · simp only [← Int32.lt_iff_toInt_lt]
    exact makes_less hd ha hb fun _ _ _ sets => sets

theorem leaves_nonzero (hd : dst.Below (watermark + 1)) (ha : a.Below watermark) :
    Leaves (nonzero dst a) watermark file dst (truthWord (decide ((file a).toInt ≠ 0))) := by
  refine leaves_of_makes hd.near (fun room => succeeds_nonzero (by omega) fun _ => trivial) ?_ ?_
  · exact treads_nonzero (Footprint.free_into dst watermark) (Footprint.uses_into dst watermark) trivial
      fun _ _ => trivial
  · simp only [← Int32.ne_zero_iff_toInt]
    exact makes_nonzero hd ha fun _ _ _ sets => sets

theorem leaves_invert (hd : dst.Near) (ha : a.Near) (truth : file a = truthWord p) :
    Leaves (invert dst a) watermark file dst (truthWord !p) :=
  leaves_of_makes hd (fun _ => succeeds_invert trivial)
    (treads_invert (Footprint.uses_into dst watermark) trivial trivial)
    (makes_invert hd ha truth fun _ sets => sets)

/-- The negation of a word that is no truth value yet. -/
theorem leaves_negation (hd : dst.Near) (ha : a.Below watermark) :
    Leaves (do let t ← temp; nonzero t a; invert dst t) watermark file dst
      (truthWord (decide ((file a).toInt = 0))) := by
  refine leaves_of_makes hd (fun room => ?_) ?_ ?_
  · refine succeeds_bind (succeeds_temp (by omega) fun t => ?_)
    exact succeeds_bind (succeeds_nonzero (by omega) fun _ => succeeds_invert trivial)
  · refine treads_bind (treads_temp (Footprint.free_into dst watermark) fun t _ uses free => ?_)
    refine treads_bind (treads_nonzero free uses trivial fun _ _ => ?_)
    exact treads_invert (Footprint.uses_into dst watermark) uses.1 trivial
  · refine makes_bind (makes_temp fun t at_t => ?_)
    refine makes_bind (makes_nonzero (at_t.below (by omega)) (ha.mono (by omega)) fun f w le sets => ?_)
    refine makes_invert hd (.inl at_t.1) sets.same fun after inverted => ?_
    have opposite : (!decide (file a ≠ 0)) = decide ((file a).toInt = 0) := by
      rw [← decide_not, decide_eq_decide, Int32.ne_zero_iff_toInt, ne_eq, Decidable.not_not]
    rw [opposite] at inverted
    exact .after at_t sets (inverted.mono le)

theorem leaves_compare (op : Comparison) (hd : dst.Below (watermark + 1)) (ha : a.Below watermark)
    (hb : b.Below watermark) :
    Leaves (Emit.compare op dst a b) watermark file dst
      (truthWord (op.relates (file a).toInt (file b).toInt)) := by
  refine leaves_of_makes hd.near (succeeds_compare op) ?_ ?_
  · exact treads_compare op (Footprint.free_into dst watermark) (Footprint.uses_into dst watermark) trivial
      trivial fun _ _ => trivial
  · simp only [← Comparison.holds_eq_relates]
    exact makes_compare op hd ha hb fun _ _ _ sets => sets

theorem leaves_connect (op : Connective) (hd : dst.Near) (ha : a.Below watermark)
    (hb : b.Below watermark) (left : file a = truthWord p) (right : file b = truthWord q) :
    Leaves (connect op dst a b) watermark file dst (truthWord (op.apply p q)) := by
  refine leaves_of_makes hd (fun room => succeeds_connect op (by omega)) ?_ ?_
  · exact treads_connect op (Footprint.free_into dst watermark) (Footprint.uses_into dst watermark).2
      trivial trivial fun _ _ => trivial
  · exact makes_connect op hd ha hb left right fun _ _ sets => sets

end Emit

open Emit in
/-- The code of comparisons leaves 1 or 0 as the words of its operands compare as signed integers, that
of truth tests and negations as a word is zero or not, and that of connectives as two truth values say,
for all words. Operands are registers in use, also one and the same; the destination may be one of them
or the first scratch register that is free. -/
theorem truth_values_exact {watermark : Nat} {dst a b : Register} (hd : dst.Below (watermark + 1))
    (ha : a.Below watermark) (hb : b.Below watermark) (file : RegisterFile) :
    Leaves (less dst a b) watermark file dst
        (truthWord (decide ((file a).toInt < (file b).toInt))) ∧
      (∀ op : Comparison, Leaves (Emit.compare op dst a b) watermark file dst
        (truthWord (op.relates (file a).toInt (file b).toInt))) ∧
      Leaves (nonzero dst a) watermark file dst (truthWord (decide ((file a).toInt ≠ 0))) ∧
      Leaves (do let t ← temp; nonzero t a; invert dst t) watermark file dst
        (truthWord (decide ((file a).toInt = 0))) ∧
      ∀ p, file a = truthWord p → Leaves (invert dst a) watermark file dst (truthWord !p) ∧
        ∀ q, file b = truthWord q → ∀ op : Connective,
          Leaves (connect op dst a b) watermark file dst (truthWord (op.apply p q)) := by
  refine ⟨leaves_less hd.near ha hb, fun op => leaves_compare op hd ha hb, leaves_nonzero hd ha,
    leaves_negation hd.near ha, fun p left => ⟨leaves_invert hd.near ha.near left, fun q right op => ?_⟩⟩
  exact leaves_connect op hd.near ha hb left right

open Emit in
/-- The least word is less than the greatest, though their difference is 1: in place, between the window
and the closure, and into the first free register. -/
theorem truth_values_exact_wrapping :
    let file : RegisterFile := fun r => if r.bank = .window then -2147483648 else 2147483647
    Leaves (Emit.compare .lt ⟨.window, 0⟩ ⟨.window, 0⟩ ⟨.closure, 5⟩) 1 file ⟨.window, 0⟩ 1 ∧
      Leaves (Emit.compare .ge ⟨.window, 1⟩ ⟨.window, 0⟩ ⟨.closure, 5⟩) 1 file ⟨.window, 1⟩ 0 := by
  intro file
  have window : Register.Below 1 ⟨.window, 0⟩ := .inr ⟨rfl, by decide⟩
  have closure : Register.Below 1 ⟨.closure, 5⟩ := .inl rfl
  have in_place : Register.Below 2 ⟨.window, 0⟩ := .inr ⟨rfl, by decide⟩
  have free : Register.Below 2 ⟨.window, 1⟩ := .inr ⟨rfl, by decide⟩
  exact ⟨(truth_values_exact in_place window closure file).2.1 .lt,
    (truth_values_exact free window closure file).2.1 .ge⟩

end WindowedClosures
