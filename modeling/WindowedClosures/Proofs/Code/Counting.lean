import WindowedClosures.Code.Place
import WindowedClosures.Proofs.Outcome
import WindowedClosures.Proofs.Ty.Selection

/-!
# Counted sizes

A size that is counted without an overflow is the size, and the parts that selections lead to are
counted with it. So offsets that lie inside a value whose size is counted fit as well.
-/

namespace WindowedClosures

theorem Register.counted_eq_ok_iff {n m : Nat} : counted n = .ok m ↔ n = m ∧ n < UInt64.size := by
  unfold counted
  split <;> simp [*]

/-- What fits the window fits the count. -/
theorem Register.counted_of_lt {n : Nat} (small : n < 64) : counted n = .ok n :=
  counted_eq_ok_iff.mpr ⟨rfl, Nat.lt_trans small (by decide)⟩

theorem Site.inWindow_eq_ok_iff {α : Type} {found : Except RegisterOverflow α} {a : α} :
    inWindow found = .ok a ↔ found = .ok a := by
  unfold inWindow
  split <;> simp

namespace Ty

variable {ty elem part last : Ty} {n start offset count : Nat} {name : String} {s : Selector}

theorem countedFields_ok {fields : List (Labelled Ty)}
    (inner : ∀ field ∈ fields, ∀ n, field.value.counted = .ok n → n = field.value.size)
    (h : countedFields fields = .ok n) : n = sizeFields fields ∧ n < UInt64.size := by
  induction fields generalizing n with
  | nil =>
    cases h
    exact ⟨rfl, by decide⟩
  | cons first rest ih =>
    obtain ⟨size, here, h⟩ := except_bind_ok h
    obtain ⟨behind, later, h⟩ := except_bind_ok h
    obtain rfl := inner first (by simp) size here
    obtain ⟨rfl, -⟩ := ih (fun field mem => inner field (by simp [mem])) later
    obtain ⟨rfl, fits⟩ := Register.counted_eq_ok_iff.mp h
    exact ⟨by rw [sizeFields], fits⟩

/-- A count that succeeds gives the size. -/
theorem counted_ok (h : ty.counted = .ok n) : n = ty.size ∧ n < UInt64.size := by
  induction ty using of_forms generalizing n with
  | named name target ih =>
    rw [counted] at h
    rw [size]
    exact ih h
  | parens value ih =>
    rw [counted] at h
    rw [size]
    exact countedFields_ok (by simpa using fun n h => (ih h).1) h
  | tuple fields several ih =>
    rw [counted] at h
    rw [size]
    exact countedFields_ok (fun field mem n h => (ih field mem h).1) h
  | array elem count ih =>
    rw [counted] at h
    rw [size]
    cases shape : elem.resolved with
    | char | bool =>
      rw [shape] at h
      obtain ⟨total, whole, h⟩ := except_bind_ok h
      obtain ⟨rfl, fits⟩ := Register.counted_eq_ok_iff.mp whole
      cases h
      exact ⟨rfl, Nat.lt_of_le_of_lt (Nat.div_le_self _ _) fits⟩
    | _ =>
      rw [shape] at h
      obtain ⟨size, one, h⟩ := except_bind_ok h
      obtain ⟨rfl, -⟩ := ih one
      obtain ⟨rfl, fits⟩ := Register.counted_eq_ok_iff.mp h
      exact ⟨rfl, fits⟩
  | int | float | char | bool | void | pointer | function =>
    cases h
    exact ⟨rfl, by decide⟩

theorem counted_eq_size (h : ty.counted = .ok n) : ty.counted = .ok ty.size := by
  rw [h, (counted_ok h).1]

/-! ## Parts -/

end Ty

/-! ## Variables and scopes -/

variable {vars : List Variable} {v : Variable} {n : Nat}

/-- The end of a variable is counted exactly if its size is and the end fits. -/
theorem Variable.counted_eq_ok_iff : v.counted = .ok n ↔
    v.ty.counted = .ok v.ty.size ∧ v.offset + v.ty.size < UInt64.size ∧ n = v.offset + v.ty.size := by
  constructor
  · intro h
    obtain ⟨size, own, h⟩ := except_bind_ok h
    obtain ⟨rfl, fits⟩ := Register.counted_eq_ok_iff.mp h
    obtain ⟨rfl, -⟩ := Ty.counted_ok own
    exact ⟨own, fits, rfl⟩
  · rintro ⟨own, fits, rfl⟩
    rw [Variable.counted, own]
    exact Register.counted_eq_ok_iff.mpr ⟨rfl, fits⟩

theorem countedVariables_ok (h : countedVariables vars = .ok n) :
    n = sizeOfAll vars ∧ ∀ v ∈ vars, v.ty.counted = .ok v.ty.size := by
  induction vars generalizing n with
  | nil =>
    cases h
    exact ⟨rfl, by simp⟩
  | cons first rest ih =>
    obtain ⟨size, here, h⟩ := except_bind_ok h
    obtain ⟨behind, later, h⟩ := except_bind_ok h
    obtain ⟨rfl, -⟩ := Register.counted_eq_ok_iff.mp h
    obtain ⟨rfl, others⟩ := ih later
    exact ⟨by rw [sizeOfAll, (Ty.counted_ok here).1],
      List.forall_mem_cons.mpr ⟨Ty.counted_eq_size here, others⟩⟩

/-- In a scope whose size is counted, the size of every own variable is. -/
theorem Scope.counted_ok {s : Scope} (h : s.counted = .ok n) :
    n = s.size ∧ n < UInt64.size ∧ ∀ v ∈ s.vars, v.ty.counted = .ok v.ty.size := by
  obtain ⟨own, first, h⟩ := except_bind_ok h
  obtain ⟨output, last, h⟩ := except_bind_ok h
  obtain ⟨rfl, fits⟩ := Register.counted_eq_ok_iff.mp h
  obtain ⟨rfl, each⟩ := countedVariables_ok first
  obtain ⟨rfl, -⟩ := Ty.counted_ok last
  exact ⟨rfl, fits, each⟩

theorem Scope.counted_of_vars_nil {s : Scope} (vars : s.vars = [])
    (output : s.arrow.output.counted = .ok s.arrow.output.size) : s.counted = .ok s.size := by
  obtain ⟨-, fits⟩ := Ty.counted_ok output
  rw [Scope.size, Scope.counted, vars, output]
  refine Register.counted_eq_ok_iff.mpr ⟨rfl, ?_⟩
  rwa [Nat.zero_add]

end WindowedClosures
