import WindowedClosures.Proofs.Code.Evaluation
import WindowedClosures.Proofs.Code.Handing
import WindowedClosures.Proofs.Code.Places

/-!
# Numbers keep off functions

Code that computes a number changes its destination and scratch registers, and none of them is known
to hold a function. What is known before the code is known behind it, and of a truth value also that
it is 0 or 1.
-/

namespace WindowedClosures

theorem Expr.unwrapped_unwrapped (e : Expr) : e.unwrapped.unwrapped = e.unwrapped := by
  fun_induction Expr.unwrapped e with
  | case1 value span ih => exact ih
  | case2 e other =>
    unfold Expr.unwrapped
    split
    · rename_i value span
      exact (other value span rfl).elim
    · rfl

theorem Site.size_of_checkIntegral {v : Variable} {span : Span}
    (h : Site.checkIntegral v span = .ok ()) : v.ty.size = 1 := by
  unfold Site.checkIntegral at h
  split at h
  · cases h
  · split at h
    · rename_i integral
      rw [← Ty.size_resolved]
      exact Ty.size_of_isIntegral integral
    · cases h

/-- A truth value is no constant. -/
theorem constant?_of_isTruthValue {e : Expr} (h : Emit.isTruthValue e = true) :
    e.constant? = .ok none := by
  unfold Emit.isTruthValue at h
  split at h
  · simp [Expr.constant?]
  · simp [Expr.constant?]
  · simp [Expr.constant?]
  · cases h

namespace Emit

/-- Where the watermark is behind an emission does not depend on the registers. -/
theorem watermark_of_makes {α : Type} {m : Emit α} {watermark : Nat} {F : Nat → Prop}
    (h : Makes m watermark (fun _ => 0) False fun _ mark _ => F mark) {result : Emission α}
    (hr : m watermark = .ok result) : F result.watermark := by
  have made := h result hr
  cases played : play (result.code.map (·.plain)) (fun _ => 0) with
  | ok after =>
    rw [played] at made
    exact made
  | error halt =>
    rw [played] at made
    exact made.2.elim

end Emit

namespace Laid

open Emit
open RegisterFile (Sets)

variable {tree : ScopeTree} {program : Program} {l : Laid tree program} {id : Nat}
  {names : List String} {watermark : Nat} {Γ : Claims} {dst : Register} {α : Type}

/-- Code that sets a register of which nothing is known. -/
theorem hands_sets {m : Emit α} (N : Claim → Prop) {K : α → Nat → Assertion → Prop}
    (knows : (tree.scope id).Knows names watermark Γ) (reach : (tree.scope id).Reaches dst)
    (free : ∀ c, ¬ (tree.scope id).Owes Γ dst c)
    (makes : ∀ w n, l.Stands id Γ 64 w n → Makes m watermark n.file True fun _ _ after =>
      ∃ word, Sets watermark dst word n.file after ∧ ∀ c, N c → l.Meets w c word)
    (suits : ∀ result, m watermark = .ok result →
      K result.value result.watermark (l.Stands id (Γ.add dst N) 64)) :
    l.Hands m watermark (l.Stands id Γ 64) K := by
  refine hands_of_makes (Q := fun _ _ => l.Stands id (Γ.add dst N) 64) (fun w n stands => ?_) suits
  refine (makes w n stands).mono (fun reason => reason) ?_
  rintro a mark after ⟨word, sets, new⟩ n' beside shows
  exact stands.sets beside shows sets knows.within reach (fun c owes => (free c owes).elim) new

/-- The claim on a word that was loaded. -/
def IsTruth (value : Int32) (c : Claim) : Prop := c = .bit ∧ (value = 0 ∨ value = 1)

theorem IsTruth.meets {value : Int32} {c : Claim} (h : IsTruth value c) (w : World) :
    l.Meets w c value := by
  obtain ⟨rfl, bit⟩ := h
  exact bit

theorem hands_loadInt {value : Int32} {K : Unit → Nat → Assertion → Prop}
    (knows : (tree.scope id).Knows names watermark Γ) (reach : (tree.scope id).Reaches dst)
    (free : ∀ c, ¬ (tree.scope id).Owes Γ dst c)
    (h : K () watermark (l.Stands id (Γ.add dst (IsTruth value)) 64)) :
    l.Hands (loadInt dst value) watermark (l.Stands id Γ 64) K := by
  refine hands_sets (IsTruth value) knows reach free (fun w n _ => ?_) fun result hr => ?_
  · exact makes_loadInt reach.near fun after sets => ⟨value, sets, fun c truth => truth.meets w⟩
  · have mark : result.watermark = watermark :=
      watermark_of_makes (F := (· = watermark)) (makes_loadInt reach.near fun _ _ => rfl) hr
    rw [mark]
    exact h

/-- Nothing is known of a register that is free. -/
theorem free_of_at (knows : (tree.scope id).Knows names watermark Γ) {t : Register} {offset : Nat}
    (at_t : t.At offset) (le : watermark ≤ offset) (c : Claim) :
    ¬ (tree.scope id).Owes Γ t c := by
  rintro (⟨-, claim⟩ | ⟨bank, -⟩)
  · have within := knows.within _ c claim
    have place := at_t.2
    omega
  · rw [at_t.1] at bank
    cases bank

/-- A register that holds a value, behind code that leaves everything known before as it is. -/
def Scratch (l : Laid tree program) (id : Nat) (names : List String) (watermark : Nat) (Γ : Claims)
    (N : Claim → Prop) (a : Register) (mark : Nat) (R : Assertion) : Prop :=
  ∃ Γ', (tree.scope id).Grows names watermark Γ mark Γ' ∧ a.Below mark ∧
    (∀ c, N c → (tree.scope id).Owes Γ' a c) ∧ R = l.Stands id Γ' 64

/-- A scratch register with a value of which something is known. -/
theorem scratch_of_at (knows : (tree.scope id).Knows names watermark Γ) {t : Register} {offset mark : Nat}
    (at_t : t.At offset) (le : watermark ≤ offset) (lt : offset < mark) (N : Claim → Prop) :
    l.Scratch id names watermark Γ N t mark (l.Stands id (Γ.add t N) 64) := by
  refine ⟨_, knows.grows_add at_t le lt N, at_t.below lt, fun c new => .inl ⟨at_t.1, ?_⟩, rfl⟩
  exact .inr ⟨⟨at_t.1, rfl⟩, new⟩

theorem hands_constant (knows : (tree.scope id).Knows names watermark Γ) (value : Int32) :
    l.Hands (constant value) watermark (l.Stands id Γ 64)
      (l.Scratch id names watermark Γ (IsTruth value)) := by
  refine hands_bind (hands_temp fun t at_t => hands_bind ?_)
  refine hands_loadInt (knows.mono (Nat.le_succ _)) (.inl at_t.1)
    (free_of_at knows at_t (Nat.le_refl _)) (hands_pure ?_)
  exact scratch_of_at knows at_t (Nat.le_refl _) (Nat.lt_succ_self _) _

/-! ## Operands -/

/-- A lowering that puts a number into any register that no function lies in; a truth value where
that is said. -/
def Computes (l : Laid tree program) (id : Nat) (names : List String) (truth : Bool)
    (lowered : Lowering) : Prop :=
  ∀ watermark Γ dst, (tree.scope id).Knows names watermark Γ →
    (tree.scope id).Takes Γ watermark dst .int 1 →
    l.Turns (lowered dst .int) watermark (l.Stands id Γ 64)
      (l.Stands id (Γ.add dst fun c => truth = true ∧ c = .bit) 64)

theorem Computes.releasing {truth : Bool} {lowered : Lowering} (h : l.Computes id names truth lowered)
    (knows : (tree.scope id).Knows names watermark Γ)
    (takes : (tree.scope id).Takes Γ watermark dst .int 1) {K : Unit → Nat → Assertion → Prop}
    (suits : K () watermark (l.Stands id (Γ.add dst fun c => truth = true ∧ c = .bit) 64)) :
    l.Hands (Emit.releasing (lowered dst .int)) watermark (l.Stands id Γ 64) K :=
  (h watermark Γ dst knows takes).releasing suits

/-- A scratch register takes a number. -/
theorem takes_number (knows : (tree.scope id).Knows names watermark Γ) {t : Register}
    (at_t : t.At watermark) : (tree.scope id).Takes Γ (watermark + 1) t .int 1 := by
  have place := at_t.2
  exact knows.takes (by omega) at_t.1 (by omega) (Nat.le_refl 1)

theorem hands_operand {e : Expr} {lowered : Lowering} (rowed : (tree.scope id).Rowed)
    (computes : l.Computes id names (isTruthValue e.unwrapped) lowered)
    (knows : (tree.scope id).Knows names watermark Γ) :
    l.Hands (operand ⟨tree, id⟩ e lowered) watermark (l.Stands id Γ 64)
      (l.Scratch id names watermark Γ fun c => isTruthValue e.unwrapped = true ∧ c = .bit) := by
  unfold operand
  dsimp only
  split
  · rename_i name hn
    obtain ⟨span, eq⟩ := asName?_some hn
    refine hands_bind (hands_lift fun v hv => hands_bind (hands_lift fun _ integral => ?_))
    refine hands_register fun r hr => ⟨Γ, knows.grows (Nat.le_refl _), ?_, ?_, rfl⟩
    · have arranged : (tree.scope id).Arranged := ⟨rowed.toKeepsBanks, rowed.inside⟩
      have known : (tree.scope id).local? name = some v := by
        unfold Site.lookup at hv
        split at hv
        · rename_i found
          cases hv
          exact found
        · cases hv
      have size := Site.size_of_checkIntegral integral
      exact (arranged.below (Scope.local?_mem known) size hr).mono knows.size
    · rintro c ⟨truth, -⟩
      rw [eq] at truth
      cases truth
  · refine hands_bind (hands_lift fun found constant => ?_)
    cases found with
    | some value =>
      refine (hands_constant knows value).mono (fun _ _ h => h) ?_
      rintro a mark R ⟨Γ', grows, below, -, eq⟩
      refine ⟨Γ', grows, below, ?_, eq⟩
      rintro c ⟨truth, -⟩
      rw [constant?_of_isTruthValue truth] at constant
      cases constant
    | none =>
      dsimp only
      split
      · exact hands_fail _
      · refine hands_bind (hands_temp fun t at_t => hands_bind ?_)
        refine computes.releasing (knows.mono (Nat.le_succ _)) (takes_number knows at_t) ?_
        refine hands_pure (scratch_of_at knows at_t (Nat.le_refl _) (Nat.lt_succ_self _) _)

/-- A register that holds 0 or 1. -/
theorem hands_truth {e : Expr} {lowered : Lowering} (rowed : (tree.scope id).Rowed)
    (computes : l.Computes id names (isTruthValue e.unwrapped) lowered)
    (knows : (tree.scope id).Knows names watermark Γ) :
    l.Hands (truth ⟨tree, id⟩ e lowered) watermark (l.Stands id Γ 64)
      (l.Scratch id names watermark Γ (· = .bit)) := by
  rw [← Expr.unwrapped_unwrapped] at computes
  have operand := hands_operand rowed computes knows
  rw [Expr.unwrapped_unwrapped] at operand
  unfold truth
  by_cases already : isTruthValue e.unwrapped = true
  · simp only [already, if_true]
    refine operand.mono (fun _ _ h => h) ?_
    rintro a mark R ⟨Γ', grows, below, bit, eq⟩
    exact ⟨Γ', grows, below, fun c hc => bit c ⟨already, hc⟩, eq⟩
  · simp only [already]
    refine hands_bind (hands_lift fun found _ => ?_)
    cases found with
    | some value =>
      refine (hands_constant knows _).mono (fun _ _ h => h) ?_
      rintro a mark R ⟨Γ', grows, below, bit, eq⟩
      refine ⟨Γ', grows, below, fun c hc => bit c ⟨hc, ?_⟩, eq⟩
      by_cases zero : value = 0
      · simp [zero]
      · simp [zero]
    | none =>
      refine hands_bind (operand.mono (fun _ _ h => h) ?_)
      rintro a mark R ⟨Γ', grows, below, -, rfl⟩
      refine hands_bind (hands_temp fun t at_t => hands_bind ?_)
      have knows' := grows.knows.mono (Nat.le_succ mark)
      have below_t : t.Below (mark + 1) := at_t.below (Nat.lt_succ_self _)
      have below_a : a.Below (mark + 1) := below.mono (Nat.le_succ _)
      refine hands_sets (· = .bit) knows' (.inl at_t.1)
        (free_of_at grows.knows at_t (Nat.le_refl _)) (fun w n _ => ?_) fun result hr => ?_
      · refine makes_nonzero (below_t.mono (Nat.le_succ _)) below_a fun after _ _ sets => ⟨_, sets, ?_⟩
        rintro c rfl
        cases decide (n.file a ≠ 0)
        · exact .inl rfl
        · exact .inr rfl
      · have le : mark + 1 ≤ result.watermark :=
          watermark_of_makes (F := (mark + 1 ≤ ·))
            (makes_nonzero (below_t.mono (Nat.le_succ _)) below_a fun _ _ le _ => le) hr
        refine hands_pure ?_
        obtain ⟨Γ'', grows', below', bit, eq⟩ := scratch_of_at (l := l) grows.knows at_t
          (Nat.le_refl _) (Nat.lt_of_lt_of_le (Nat.lt_succ_self _) le) (· = .bit)
        exact ⟨Γ'', grows.trans grows', below', bit, eq⟩

/-! ## Into a destination -/

theorem plain_int : ∀ k a, ¬ Ty.int.Calls k a := Ty.plain_of_hasFunctions rfl

/-- Nothing is known of the first register of a place for a value without functions. -/
theorem free_of_takes {ty : Ty} {room : Nat} (takes : (tree.scope id).Takes Γ watermark dst ty room)
    (knows : (tree.scope id).Knows names watermark Γ) (plain : ∀ k a, ¬ ty.Calls k a)
    (pos : 0 < room) (c : Claim) : ¬ (tree.scope id).Owes Γ dst c := by
  intro owes
  obtain ⟨a, -, calls⟩ := takes.owes knows pos (shift_zero dst) owes
  exact plain 0 a calls

/-- Code that puts a number into a place that no function lies in. -/
theorem turns_sets {m : Emit Unit} (N : Claim → Prop)
    (knows : (tree.scope id).Knows names watermark Γ)
    (takes : (tree.scope id).Takes Γ watermark dst .int 1)
    (makes : ∀ w n, l.Stands id Γ 64 w n → Makes m watermark n.file True fun _ _ after =>
      ∃ word, Sets watermark dst word n.file after ∧ ∀ c, N c → l.Meets w c word) :
    l.Turns m watermark (l.Stands id Γ 64) (l.Stands id (Γ.add dst N) 64) := by
  have free := free_of_takes takes knows plain_int Nat.one_pos
  exact (hands_sets N knows (takes.reaches (shift_zero dst)) free makes
    fun _ _ => fun _ _ stands => stands).turns

theorem turns_loadInt (knows : (tree.scope id).Knows names watermark Γ)
    (takes : (tree.scope id).Takes Γ watermark dst .int 1) (value : Int32) :
    l.Turns (loadInt dst value) watermark (l.Stands id Γ 64) (l.Stands id Γ 64) := by
  refine (turns_sets (fun _ => False) knows takes fun w n _ => ?_).mono (fun _ _ h => h)
    fun _ _ stands => stands.mono fun _ _ claim => .inl claim
  exact makes_loadInt (takes.below Nat.one_pos).near fun after sets => ⟨value, sets, fun _ h => h.elim⟩

/-- An operand in a register of its own or in the destination. -/
theorem hands_operandIn {e : Expr} {lowered : Lowering} (rowed : (tree.scope id).Rowed)
    (computes : l.Computes id names (isTruthValue e.unwrapped) lowered)
    (knows : (tree.scope id).Knows names watermark Γ)
    (takes : (tree.scope id).Takes Γ watermark dst .int 1) (own : Bool) :
    l.Hands (operandIn ⟨tree, id⟩ e lowered own dst) watermark (l.Stands id Γ 64)
      (l.Scratch id names watermark Γ fun _ => False) := by
  cases own with
  | true =>
    refine (hands_operand rowed computes knows).mono (fun _ _ h => h) ?_
    rintro a mark R ⟨Γ', grows, below, -, eq⟩
    exact ⟨Γ', grows, below, fun _ h => h.elim, eq⟩
  | false =>
    have lowered := (computes watermark Γ dst knows takes).mono (fun _ _ h => h)
      fun _ _ stands => stands.mono fun _ _ claim => .inl claim
    refine hands_bind (lowered.releasing (hands_pure ?_))
    exact ⟨Γ, knows.grows (Nat.le_refl _), takes.below Nat.one_pos, fun _ h => h.elim, rfl⟩

/-- The last instruction of arithmetic. -/
theorem turns_operation (op : Arithmetic) (knows : (tree.scope id).Knows names watermark Γ)
    (takes : (tree.scope id).Takes Γ watermark dst .int 1) {a b : Register} (near_a : a.Near)
    (near_b : b.Near) :
    l.Turns (triple (operationOf op) dst a b) watermark (l.Stands id Γ 64) (l.Stands id Γ 64) := by
  refine (turns_sets (fun _ => False) knows takes fun w n _ => ?_).mono (fun _ _ h => h)
    fun _ _ stands => stands.mono fun _ _ claim => .inl claim
  refine makes_operation op (takes.below Nat.one_pos).near near_a near_b (fun _ => trivial) ?_
  exact fun word after _ sets => ⟨word, sets, fun _ h => h.elim⟩

/-- A variable of the scope lies in a near register. -/
theorem near_of_lookup (rowed : (tree.scope id).Rowed) {n : String} {span : Span} {v : Variable}
    (hv : Site.lookup ⟨tree, id⟩ n span = .ok v) {r : Register} (hr : v.register = .ok r) : r.Near := by
  have bank := (Register.ofOffset_ok hr).1
  unfold Site.lookup at hv
  split at hv
  · rename_i found hf
    cases hv
    rcases Scope.local?_mem hf with own | captured
    · exact .inl (bank.trans (rowed.vars v own))
    · exact .inr (bank.trans (rowed.closure v captured))
  · cases hv

theorem turns_arithmetic (rowed : (tree.scope id).Rowed) (op : Arithmetic) (whole : Expr)
    {lhs rhs : Expr} {lowerLhs lowerRhs : Lowering}
    (left : l.Computes id names (isTruthValue lhs.unwrapped) lowerLhs)
    (right : l.Computes id names (isTruthValue rhs.unwrapped) lowerRhs)
    (knows : (tree.scope id).Knows names watermark Γ)
    (takes : (tree.scope id).Takes Γ watermark dst .int 1) :
    l.Turns (arithmetic ⟨tree, id⟩ op whole lhs rhs lowerLhs lowerRhs dst) watermark
      (l.Stands id Γ 64) (l.Stands id Γ 64) := by
  rw [← Expr.unwrapped_unwrapped] at left right
  refine Hands.turns ?_
  unfold arithmetic
  refine hands_bind (hands_lift fun found _ => ?_)
  cases found with
  | some value => exact (turns_loadInt knows takes value).last
  | none =>
    dsimp only
    split
    · refine hands_bind (hands_lift fun v hv => hands_bind (hands_lift fun u hu => ?_))
      split
      · refine hands_bind (hands_lift fun _ _ => ?_)
        refine hands_bind (hands_register fun a ha => hands_bind (hands_register fun b hb => ?_))
        exact (turns_operation op knows takes (near_of_lookup rowed hv ha)
          (near_of_lookup rowed hu hb)).last
      · exact hands_fail _
    · refine hands_bind ((hands_operandIn rowed left knows takes _).mono (fun _ _ h => h) ?_)
      rintro a mark R ⟨Γ', grows, below_a, -, rfl⟩
      have takes' := takes.grows grows
      refine hands_bind
        ((hands_operandIn rowed right grows.knows takes' _).mono (fun _ _ h => h) ?_)
      rintro b mark' R ⟨Γ'', grows', below_b, -, rfl⟩
      refine ((turns_operation op grows'.knows (takes'.grows grows') below_a.near
        below_b.near).mono (fun _ _ h => h) fun _ _ stands => ?_).last
      exact stands.mono fun o c claim => grows'.old o c (grows.old o c claim)

/-- A register that is known to hold 0 or 1 shows the word of a truth value. -/
theorem Stands.truthWord {w : World} {n : Machine} (h : l.Stands id Γ 64 w n) {a : Register}
    (bit : (tree.scope id).Owes Γ a .bit) : ∃ b, n.file a = truthWord b := by
  unfold Machine.file
  cases read : n.readCell? (n.cell a) with
  | none => exact ⟨false, rfl⟩
  | some word =>
    rcases h.meets bit (.inl rfl) read with rfl | rfl
    · exact ⟨false, rfl⟩
    · exact ⟨true, rfl⟩

theorem meets_truthWord (b : Bool) (w : World) {c : Claim} (h : c = .bit) :
    l.Meets w c (truthWord b) := by
  rw [h]
  cases b
  · exact .inl rfl
  · exact .inr rfl

theorem turns_invert (knows : (tree.scope id).Knows names watermark Γ)
    (takes : (tree.scope id).Takes Γ watermark dst .int 1) {a : Register} (near : a.Near)
    (bit : (tree.scope id).Owes Γ a .bit) :
    l.Turns (invert dst a) watermark (l.Stands id Γ 64) (l.Stands id (Γ.add dst (· = .bit)) 64) := by
  refine turns_sets _ knows takes fun w n stands => ?_
  obtain ⟨b, word⟩ := stands.truthWord bit
  refine makes_invert (takes.below Nat.one_pos).near near word fun after sets => ⟨_, sets, ?_⟩
  exact fun c hc => meets_truthWord _ w hc

theorem turns_compare (op : Comparison) (knows : (tree.scope id).Knows names watermark Γ)
    (takes : (tree.scope id).Takes Γ watermark dst .int 1) {a b : Register}
    (below_a : a.Below watermark) (below_b : b.Below watermark) :
    l.Turns (Emit.compare op dst a b) watermark (l.Stands id Γ 64)
      (l.Stands id (Γ.add dst (· = .bit)) 64) := by
  refine turns_sets _ knows takes fun w n _ => ?_
  refine makes_compare op ((takes.below Nat.one_pos).mono (Nat.le_succ _)) below_a below_b fun after _ _ sets => ⟨_, sets, ?_⟩
  exact fun c hc => meets_truthWord _ w hc

theorem turns_connect (op : Connective) (knows : (tree.scope id).Knows names watermark Γ)
    (takes : (tree.scope id).Takes Γ watermark dst .int 1) {a b : Register}
    (below_a : a.Below watermark) (below_b : b.Below watermark)
    (bit_a : (tree.scope id).Owes Γ a .bit) (bit_b : (tree.scope id).Owes Γ b .bit) :
    l.Turns (connect op dst a b) watermark (l.Stands id Γ 64)
      (l.Stands id (Γ.add dst (· = .bit)) 64) := by
  refine turns_sets _ knows takes fun w n stands => ?_
  obtain ⟨p, word_a⟩ := stands.truthWord bit_a
  obtain ⟨q, word_b⟩ := stands.truthWord bit_b
  refine makes_connect op (takes.below Nat.one_pos).near below_a below_b word_a word_b
    fun after _ sets => ⟨_, sets, ?_⟩
  exact fun c hc => meets_truthWord _ w hc

end Laid

end WindowedClosures
