import WindowedClosures.Proofs.Ty.Callables

/-!
# Parts of a value

A part of a value is found by selecting fields and elements one after the other. What is selected lies
inside what it is selected from, and what is selected differently does not overlap.
-/

namespace WindowedClosures

/-- What singles out a part of a value. -/
inductive Selector where
  | field (name : String)
  | element (index : Int32)
  deriving DecidableEq, Repr

namespace Ty

/-- Offset and type of a part. An element that shares a register with others is none. -/
def part? (ty : Ty) : Selector → Option (Nat × Ty)
  | .field name => ty.field? name
  | .element index =>
    match ty.resolved with
    | .array elem count =>
      if elem.isPacked = false ∧ 0 ≤ index.toInt ∧ index.toInt < count then
        some (index.toInt.toNat * elem.size, elem)
      else none
    | _ => none

/-- Offset and type of what selectors lead to, one after the other. -/
def follow? : Ty → List Selector → Option (Nat × Ty)
  | ty, [] => some (0, ty)
  | ty, s :: rest => do
    let (start, part) ← ty.part? s
    let (offset, last) ← part.follow? rest
    some (start + offset, last)

variable {ty part other last : Ty} {name : String} {s t : Selector} {start offset offset' : Nat}

/-! ## One selection -/

theorem fieldFrom?_inside {fields : List (Labelled Ty)}
    (h : fieldFrom? name start fields = some (offset, part)) :
    offset + part.size ≤ start + sizeFields fields := by
  induction fields generalizing start with
  | nil => cases h
  | cons first rest ih =>
    rw [fieldFrom?] at h
    rw [sizeFields]
    split at h
    · cases h
      omega
    · have later := ih h
      omega

/-- A field lies inside its tuple. -/
theorem field?_inside (h : ty.field? name = some (offset, part)) : offset + part.size ≤ ty.size := by
  unfold field? at h
  split at h
  · rename_i fields tuple
    rw [← size_resolved ty, tuple, size]
    simpa using fieldFrom?_inside h
  · cases h

/-- An element lies inside its array. -/
theorem elem_inside {elem : Ty} {count index : Nat} (array : ty.resolved = .array elem count)
    (packed : elem.isPacked = false) (lt : index < count) :
    index * elem.size + elem.size ≤ ty.size := by
  rw [← size_resolved ty, array]
  exact (tiles_elems count packed).inside (index * elem.size, elem)
    (List.mem_map_of_mem (List.mem_range.mpr lt))

theorem part?_element (h : ty.part? (.element index) = some (offset, part)) : ∃ count,
    ty.resolved = .array part count ∧ part.isPacked = false ∧ 0 ≤ index.toInt ∧
      index.toInt.toNat < count ∧ offset = index.toInt.toNat * part.size := by
  unfold part? at h
  dsimp only at h
  split at h
  · rename_i elem count array
    split at h
    · rename_i within
      cases h
      exact ⟨count, array, within.1, within.2.1, by omega, rfl⟩
    · cases h
  · cases h

theorem part?_inside (h : ty.part? s = some (offset, part)) : offset + part.size ≤ ty.size := by
  cases s with
  | field name => exact field?_inside h
  | element index =>
    obtain ⟨count, array, packed, -, lt, rfl⟩ := part?_element h
    exact elem_inside array packed lt

/-- Neither of two parts begins before the other has ended. -/
def Apart (offset : Nat) (part : Ty) (offset' : Nat) (other : Ty) : Prop :=
  offset + part.size ≤ offset' ∨ offset' + other.size ≤ offset

theorem Apart.symm (h : Apart offset part offset' other) : Apart offset' other offset part := Or.symm h

theorem follow?_cons_iff {rest : List Selector} :
    ty.follow? (s :: rest) = some (offset, last) ↔ ∃ start part further,
      ty.part? s = some (start, part) ∧ part.follow? rest = some (further, last) ∧
        offset = start + further := by
  rw [follow?]
  constructor
  · intro h
    obtain ⟨⟨start, part⟩, first, h⟩ := Option.bind_eq_some_iff.mp h
    obtain ⟨⟨further, last⟩, later, h⟩ := Option.bind_eq_some_iff.mp h
    cases h
    exact ⟨start, part, further, first, later, rfl⟩
  · rintro ⟨start, part, further, first, later, rfl⟩
    simp [first, later]

theorem follow?_append_iff {front back : List Selector} :
    ty.follow? (front ++ back) = some (offset, last) ↔ ∃ start part further,
      ty.follow? front = some (start, part) ∧ part.follow? back = some (further, last) ∧
        offset = start + further := by
  induction front generalizing ty offset with
  | nil =>
    rw [List.nil_append]
    constructor
    · intro h
      exact ⟨0, ty, offset, rfl, h, (Nat.zero_add _).symm⟩
    · rintro ⟨start, part, further, front, later, rfl⟩
      cases front
      rwa [Nat.zero_add]
  | cons s rest ih =>
    rw [List.cons_append, follow?_cons_iff]
    constructor
    · rintro ⟨start, part, further, first, later, rfl⟩
      obtain ⟨middle, inner, end_, front, back, rfl⟩ := ih.mp later
      exact ⟨start + middle, inner, end_, follow?_cons_iff.mpr ⟨_, _, _, first, front, rfl⟩, back,
        (Nat.add_assoc ..).symm⟩
    · rintro ⟨sum, inner, end_, front, back, rfl⟩
      obtain ⟨start, part, middle, first, later, rfl⟩ := follow?_cons_iff.mp front
      exact ⟨start, part, middle + end_, first, ih.mpr ⟨_, _, _, later, back, rfl⟩,
        Nat.add_assoc ..⟩

/-- The last of several selections goes on from where the others lead. -/
theorem follow?_concat {front : List Selector}
    (h : ty.follow? (front ++ [s]) = some (offset, last)) : ∃ start whole further,
      ty.follow? front = some (start, whole) ∧ whole.part? s = some (further, last) ∧
        offset = start + further := by
  obtain ⟨start, whole, further, leads, found, rfl⟩ := follow?_append_iff.mp h
  obtain ⟨step, part, rest, selected, done, rfl⟩ := follow?_cons_iff.mp found
  cases done
  exact ⟨start, whole, step, leads, selected, rfl⟩

/-- What is found lies inside the value. -/
theorem follow?_inside {chain : List Selector} (h : ty.follow? chain = some (offset, last)) :
    offset + last.size ≤ ty.size := by
  induction chain generalizing ty offset with
  | nil =>
    cases h
    omega
  | cons s rest ih =>
    obtain ⟨start, part, further, first, later, rfl⟩ := follow?_cons_iff.mp h
    have outer := part?_inside first
    have inner := ih later
    omega

theorem calls_part? (h : ty.part? s = some (offset, part)) {k : Nat} {a : Arrow}
    (calls : part.Calls k a) : ty.Calls (offset + k) a := by
  cases s with
  | field name => exact calls_field? h calls
  | element index =>
    obtain ⟨count, array, packed, -, lt, rfl⟩ := part?_element h
    exact calls_elem array packed lt calls

/-- The functions of what is found are functions of the value. -/
theorem calls_follow? {chain : List Selector} (h : ty.follow? chain = some (offset, last)) {k : Nat}
    {a : Arrow} (calls : last.Calls k a) : ty.Calls (offset + k) a := by
  induction chain generalizing ty offset with
  | nil =>
    cases h
    rwa [Nat.zero_add]
  | cons s rest ih =>
    obtain ⟨start, part, further, first, later, rfl⟩ := follow?_cons_iff.mp h
    rw [Nat.add_assoc]
    exact calls_part? first (ih later)

end Ty

end WindowedClosures
