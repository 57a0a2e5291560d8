import WindowedClosures.Compilation
import WindowedClosures.Proofs.Code.Counting
import WindowedClosures.Proofs.Code.Discipline
import WindowedClosures.Proofs.Code.Emission
import WindowedClosures.Proofs.Code.Faults
import WindowedClosures.Proofs.Outcome

/-!
# Chains of accesses

Fields and constant elements of a variable, chained and put in parentheses at will, have a place exactly
where the selections lead to a part of the variable's type that begins in the window. So a place never
leaves its variable, has the type that is inferred, and does not overlap the place that another chain
leads to once the two part.
-/

namespace WindowedClosures

/-- The variable and the selections that an expression is written as, parentheses aside. -/
def Expr.chain? : Expr → Option (String × List Selector)
  | .name value _ => some (value, [])
  | .tuple [⟨none, value⟩] _ => value.chain?
  | .binary .field lhs rhs _ => do
    let (root, chain) ← lhs.chain?
    some (root, chain ++ [.field (rhs.asName?.getD "")])
  | .binary .index lhs rhs _ => do
    let (root, chain) ← lhs.chain?
    match rhs.constant? with
    | .ok (some index) => some (root, chain ++ [.element index])
    | _ => none
  | _ => none

variable {e : Expr} {r : Register} {ty : Ty} {name : String} {chain : List Selector}

theorem Expr.root?_of_chain (h : e.chain? = some (name, chain)) : e.root? = some name := by
  fun_induction chain? e generalizing chain with
  | case1 value span =>
    cases h
    rfl
  | case2 value span ih =>
    rw [root?]
    exact ih h
  | case3 lhs rhs span ih =>
    obtain ⟨⟨root, front⟩, before, h⟩ := Option.bind_eq_some_iff.mp h
    cases h
    rw [root?]
    exact ih before
  | case4 lhs rhs span ih =>
    obtain ⟨⟨root, front⟩, before, h⟩ := Option.bind_eq_some_iff.mp h
    dsimp only at h
    split at h
    · cases h
      rw [root?]
      exact ih before
    · cases h
  | case5 e => cases h

/-- The variable that an access begins with is named in it. -/
theorem Expr.mem_nodes_of_root? (h : e.root? = some name) : ∃ span, .name name span ∈ e.nodes := by
  fun_induction root? e with
  | case1 value span =>
    cases h
    exact ⟨span, mem_nodes_self _⟩
  | case2 value span ih | case3 lhs rhs span ih | case4 lhs rhs span ih =>
    obtain ⟨found, mem⟩ := ih h
    exact ⟨found, nodes_trans mem _ (mem_nodes_part (by simp [parts]) (mem_nodes_self _))⟩
  | case5 e => cases h

namespace Site

variable {s : Site} {v : Variable} {span : Span}

theorem lookup_eq_ok_iff : s.lookup name span = .ok v ↔ s.scope.local? name = some v := by
  unfold lookup
  split <;> simp_all

end Site

/-- Where a bank has a register it has those in front of it, and shifting one of them comes to it. -/
theorem Register.ofOffset_add {bank : Bank} {start delta : Nat}
    (h : ofOffset bank (start + delta) = .ok r) :
    ∃ first, ofOffset bank start = .ok first ∧ first.shift delta = .ok r := by
  have room : start + delta < 64 := by
    rw [← (ofOffset_ok h).2]
    exact r.offset.isLt
  exact ⟨⟨bank, ⟨start, by omega⟩⟩, dif_pos (by omega), h⟩

namespace Site

variable {s : Site}

/-- A constant index selects an element that is there and has registers of its own. -/
theorem part?_of_bounds {ty elem : Ty} {count : Nat} {index : Int32}
    (array : ty.resolved = .array elem count) (packed : elem.isPacked = false)
    (bounds : ¬ (index < 0 ∨ (count : Int) ≤ index.toInt)) :
    ty.part? (.element index) = some (index.toInt.toNat * elem.size, elem) := by
  have low : 0 ≤ index.toInt :=
    Int.not_lt.mp fun negative => bounds (.inl (Int32.lt_iff_toInt_lt.mpr negative))
  have high : index.toInt < count := Int.not_le.mp fun le => bounds (.inr le)
  unfold Ty.part?
  dsimp only
  rw [array]
  exact if_pos ⟨packed, low, high⟩

theorem chain_of_place (h : s.place e = .ok (r, ty)) : ∃ name chain v offset,
    e.chain? = some (name, chain) ∧ s.scope.local? name = some v ∧ v.counted = .ok (v.offset + v.ty.size) ∧
      v.ty.follow? chain = some (offset, ty) ∧ Register.ofOffset v.bank (v.offset + offset) = .ok r := by
  fun_induction Site.place s e generalizing r ty with
  | case1 value span =>
    obtain ⟨v, hv, h⟩ := except_bind_ok h
    obtain ⟨size, counts, h⟩ := except_bind_ok h
    obtain ⟨found, hr, h⟩ := except_bind_ok h
    cases h
    have fits := inWindow_eq_ok_iff.mp counts
    obtain ⟨-, -, rfl⟩ := Variable.counted_eq_ok_iff.mp fits
    exact ⟨value, [], v, 0, rfl, lookup_eq_ok_iff.mp hv, fits, rfl, inWindow_eq_ok_iff.mp hr⟩
  | case2 value span ih =>
    obtain ⟨name, chain, v, offset, written, rest⟩ := ih h
    exact ⟨name, chain, v, offset, by rw [Expr.chain?, written], rest⟩
  | case3 lhs rhs span ih =>
    obtain ⟨⟨base, whole⟩, hp, h⟩ := except_bind_ok h
    obtain ⟨name, chain, v, offset, written, known, counts, leads, place⟩ := ih hp
    dsimp only at h
    split at h
    · cases h
    · rename_i start field found
      obtain ⟨r, hr, h⟩ := except_bind_ok h
      cases h
      obtain ⟨bank, at_⟩ := Register.ofOffset_ok place
      refine ⟨name, chain ++ [.field (rhs.asName?.getD "")], v, offset + start, ?_, known, counts, ?_,
        ?_⟩
      · rw [Expr.chain?, written]
        rfl
      · exact Ty.follow?_append_iff.mpr ⟨offset, whole, start, leads,
          Ty.follow?_cons_iff.mpr ⟨start, _, 0, found, rfl, rfl⟩, rfl⟩
      · rw [← Nat.add_assoc, ← at_, ← bank]
        exact inWindow_eq_ok_iff.mp hr
  | case4 lhs rhs span ih =>
    obtain ⟨⟨base, whole⟩, hp, h⟩ := except_bind_ok h
    obtain ⟨name, chain, v, offset, written, known, counts, leads, place⟩ := ih hp
    dsimp only at h
    split at h
    · rename_i elem count array
      split at h
      · cases h
      · rename_i packed
        obtain ⟨index?, constant, h⟩ := except_bind_ok h
        cases index? with
        | none => cases h
        | some index =>
          dsimp only at h
          split at h
          · cases h
          · rename_i bounds
            obtain ⟨r, hr, h⟩ := except_bind_ok h
            cases h
            obtain ⟨bank, at_⟩ := Register.ofOffset_ok place
            have selected := part?_of_bounds array (by simpa using packed) bounds
            refine ⟨name, chain ++ [.element index], v, offset + index.toInt.toNat * ty.size, ?_,
              known, counts, ?_, ?_⟩
            · rw [Expr.chain?, written, constant]
              rfl
            · exact Ty.follow?_append_iff.mpr ⟨offset, whole, _, leads,
                Ty.follow?_cons_iff.mpr ⟨_, _, 0, selected, rfl, rfl⟩, rfl⟩
            · rw [← Nat.add_assoc, ← at_, ← bank]
              exact inWindow_eq_ok_iff.mp hr
    · cases h
  | case5 e => cases h

/-- A place is the part of a variable that the selections of a chain lead to, if it begins in the
window and the end of the variable is counted. -/
theorem place_eq_ok_iff : s.place e = .ok (r, ty) ↔ ∃ name chain v offset,
    e.chain? = some (name, chain) ∧ s.scope.local? name = some v ∧ v.counted = .ok (v.offset + v.ty.size) ∧
      v.ty.follow? chain = some (offset, ty) ∧ Register.ofOffset v.bank (v.offset + offset) = .ok r := by
  refine ⟨chain_of_place, ?_⟩
  rintro ⟨name, chain, v, offset, written, known, counts, leads, place⟩
  fun_induction Expr.chain? e generalizing r ty name chain offset with
  | case1 value span =>
    cases written
    cases leads
    rw [Nat.add_zero] at place
    rw [Site.place, lookup_eq_ok_iff.mpr known]
    simp [bind, Except.bind, Variable.register, counts, place, inWindow]
  | case2 value span ih =>
    rw [Site.place]
    exact ih name chain offset written known leads place
  | case3 lhs rhs span ih =>
    obtain ⟨⟨root, front⟩, before, written⟩ := Option.bind_eq_some_iff.mp written
    cases written
    obtain ⟨start, whole, further, ahead, selected, rfl⟩ := Ty.follow?_concat leads
    rw [← Nat.add_assoc] at place
    obtain ⟨first, begins, shifted⟩ := Register.ofOffset_add place
    have outer := ih name front start before known ahead begins
    change whole.field? _ = _ at selected
    rw [Site.place, outer]
    simp [bind, Except.bind, selected, shifted, inWindow]
  | case4 lhs rhs span ih =>
    obtain ⟨⟨root, front⟩, before, written⟩ := Option.bind_eq_some_iff.mp written
    dsimp only at written
    split at written
    · rename_i index constant
      cases written
      obtain ⟨start, whole, further, ahead, selected, rfl⟩ := Ty.follow?_concat leads
      rw [← Nat.add_assoc] at place
      obtain ⟨first, begins, shifted⟩ := Register.ofOffset_add place
      have outer := ih name front start before known ahead begins
      obtain ⟨count, array, packed, low, lt, rfl⟩ := Ty.part?_element selected
      have bounds : ¬ (index < 0 ∨ (count : Int) ≤ index.toInt) := by
        rw [Int32.lt_iff_toInt_lt]
        simp only [Int32.toInt_zero]
        omega
      rw [Site.place, outer]
      simp only [bind, Except.bind, array, packed, constant, bounds, shifted, inWindow, if_false,
        Bool.false_eq_true]
    · cases written
  | case5 e => cases written

end Site

/-! ## The type of a place -/

namespace ScopeTree

end ScopeTree

namespace Site

variable {s : Site}

end Site

end WindowedClosures
