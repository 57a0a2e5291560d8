import WindowedClosures.Code.Lower
import WindowedClosures.Proofs.Scope.Passes

/-!
# Functions inside values

A value of a tuple or array type may hold function words among its registers. Which ones, and for
which arrows, is the same for types that match, and the parts of a type hold the functions of the
whole.
-/

namespace WindowedClosures

namespace Ty

/-! ## Normal forms -/

attribute [local simp] normalized

theorem normalized_resolved (ty : Ty) : ty.resolved.normalized = ty.normalized := by
  fun_induction Ty.resolved ty with
  | case1 name target ih => rw [ih, normalized]
  | case2 value ih => rw [ih, normalized]
  | case3 ty named single => rfl

theorem normalizedFields_eq (fields : List (Labelled Ty)) :
    normalizedFields fields = fields.map fun f => ⟨f.label, f.value.normalized⟩ := by
  induction fields with
  | nil => rfl
  | cons first rest ih => rw [normalizedFields, ih]; rfl

/-- A tuple of one field without a label is only that field. -/
def Single (fields : List (Labelled Ty)) : Prop := ∃ value, fields = [⟨none, value⟩]

theorem normalized_tuple {fields : List (Labelled Ty)} (h : ¬ Single fields) :
    normalized (.tuple fields) = .tuple (normalizedFields fields) := by
  rw [normalized]
  exact fun value eq => h ⟨value, eq⟩

theorem not_single_normalizedFields {fields : List (Labelled Ty)} (h : ¬ Single fields) :
    ¬ Single (normalizedFields fields) := by
  rintro ⟨value, eq⟩
  rw [normalizedFields_eq] at eq
  cases fields with
  | nil => cases eq
  | cons first rest =>
    obtain ⟨label, inner⟩ := first
    cases rest with
    | cons second rest => simp at eq
    | nil =>
      simp only [List.map_cons, List.map_nil, List.cons.injEq, Labelled.mk.injEq, and_true] at eq
      exact h ⟨inner, by rw [eq.1]⟩

theorem resolved_tuple {fields : List (Labelled Ty)} (h : ¬ Single fields) :
    resolved (.tuple fields) = .tuple fields := by
  rw [resolved]
  · simp
  · exact fun value eq => h ⟨value, by injection eq⟩

/-- A normal form has nothing to look through. -/
theorem resolved_normalized (ty : Ty) : ty.normalized.resolved = ty.normalized := by
  fun_induction Ty.resolved ty with
  | case1 name target ih => rw [normalized]; exact ih
  | case2 value ih => rw [normalized]; exact ih
  | case3 ty named single =>
    cases ty with
    | named name target => exact (named name target rfl).elim
    | tuple fields =>
      have many : ¬ Single fields := by
        rintro ⟨value, rfl⟩
        exact single value rfl
      rw [normalized_tuple many, resolved_tuple (not_single_normalizedFields many)]
    | _ => rfl

/-- Looking through aliases commutes with removing them everywhere. -/
theorem resolved_normalized_eq (ty : Ty) : ty.normalized.resolved = ty.resolved.normalized := by
  rw [resolved_normalized, normalized_resolved]

theorem size_array {elem : Ty} (count : Nat) (h : elem.isPacked = false) :
    (array elem count).size = elem.size * count := by
  unfold isPacked at h
  rw [size]
  split
  · simp_all
  · simp_all
  · rfl

/-- What is left behind aliases and redundant tuples is neither. -/
theorem resolved_plain (ty : Ty) : (∀ name target, ty.resolved ≠ .named name target) ∧
    ∀ fields, ty.resolved = .tuple fields → ¬ Single fields := by
  fun_induction Ty.resolved ty with
  | case1 name target ih => exact ih
  | case2 value ih => exact ih
  | case3 ty named single =>
    refine ⟨named, ?_⟩
    rintro fields rfl ⟨value, eq⟩
    exact single value (by rw [eq])

theorem isPacked_normalized (ty : Ty) : ty.normalized.isPacked = ty.isPacked := by
  obtain ⟨named, many⟩ := resolved_plain ty
  rw [isPacked, isPacked, resolved_normalized_eq]
  cases h : ty.resolved with
  | named name target => exact (named name target h).elim
  | tuple fields => rw [normalized_tuple (many fields h)]
  | _ => simp

/-- Induction on types as they are compared: a tuple of one field without a label is no tuple. -/
@[elab_as_elim]
theorem of_forms {p : Ty → Prop} (int : p .int) (float : p .float) (char : p .char) (bool : p .bool)
    (void : p .void) (named : ∀ name target, p target → p (.named name target))
    (array : ∀ elem count, p elem → p (.array elem count))
    (parens : ∀ value, p value → p (.tuple [⟨none, value⟩]))
    (tuple : ∀ fields, ¬ Single fields → (∀ field ∈ fields, p field.value) → p (.tuple fields))
    (pointer : ∀ inner, p inner → p (.pointer inner))
    (function : ∀ input output, p input → p output → p (.function input output)) (ty : Ty) : p ty := by
  have fields (fields : List (Labelled Ty)) (inner : ∀ field ∈ fields, p field.value) :
      p (.tuple fields) := by
    by_cases single : Single fields
    · obtain ⟨value, rfl⟩ := single
      exact parens value (inner ⟨none, value⟩ (by simp))
    · exact tuple fields single inner
  exact @Ty.rec p (fun fields => ∀ field ∈ fields, p field.value) (fun field => p field.value)
    int float char bool void named array fields pointer function (List.forall_mem_nil _)
    (fun _ _ first rest => List.forall_mem_cons.mpr ⟨first, rest⟩) (fun _ _ value => value) ty

theorem sizeFields_normalized {fields : List (Labelled Ty)}
    (inner : ∀ field ∈ fields, field.value.normalized.size = field.value.size) :
    sizeFields (normalizedFields fields) = sizeFields fields := by
  induction fields with
  | nil => rfl
  | cons field fields ih =>
    rw [normalizedFields, sizeFields, sizeFields, inner field (by simp),
      ih fun other mem => inner other (by simp [mem])]

theorem size_normalized (ty : Ty) : ty.normalized.size = ty.size := by
  induction ty using of_forms with
  | named name target ih => rw [normalized, size, ih]
  | parens value ih => simp [size, sizeFields, ih]
  | tuple fields several ih => rw [normalized_tuple several, size, size, sizeFields_normalized ih]
  | array elem count ih =>
    obtain ⟨named, many⟩ := resolved_plain elem
    rw [normalized, size, size, ih, resolved_normalized_eq]
    cases h : elem.resolved with
    | named name target => exact (named name target h).elim
    | tuple fields => rw [normalized_tuple (many fields h)]
    | _ => simp
  | int | float | char | bool | void | pointer | function => rfl

theorem normalized_normalized (ty : Ty) : ty.normalized.normalized = ty.normalized := by
  induction ty using of_forms with
  | named name target ih | parens target ih => rw [normalized]; exact ih
  | tuple fields several ih =>
    rw [normalized_tuple several, normalized_tuple (not_single_normalizedFields several)]
    simp only [normalizedFields_eq, List.map_map]
    exact congrArg tuple (List.map_congr_left fun field mem => by simp [ih field mem])
  | array elem count ih => rw [normalized, normalized, ih]
  | pointer inner ih => rw [normalized, normalized, ih]
  | function input output left right => rw [normalized, normalized, left, right]
  | int | float | char | bool | void => rfl

/-! ## Function registers -/

mutual

/-- At an offset of a value of the type lies a function word for an arrow, aliases removed. -/
def Calls : Ty → Nat → Arrow → Prop
  | .function input output, n, a => n = 0 ∧ a = ⟨input.normalized, output.normalized⟩
  | .named _ target, n, a => target.Calls n a
  | .array elem count, n, a =>
    elem.isPacked = false ∧ ∃ i k, i < count ∧ n = i * elem.size + k ∧ elem.Calls k a
  | .tuple fields, n, a => CallsIn fields n a
  | _, _, _ => False

def CallsIn : List (Labelled Ty) → Nat → Arrow → Prop
  | [], _, _ => False
  | ⟨_, value⟩ :: rest, n, a => value.Calls n a ∨ ∃ k, n = value.size + k ∧ CallsIn rest k a

end

mutual

/-- Whether a value of the type may hold functions. -/
def hasFunctions : Ty → Bool
  | .function .. => true
  | .named _ target => target.hasFunctions
  | .array elem _ => elem.hasFunctions
  | .tuple fields => hasFunctionsIn fields
  | _ => false

def hasFunctionsIn : List (Labelled Ty) → Bool
  | [] => false
  | ⟨_, value⟩ :: rest => value.hasFunctions || hasFunctionsIn rest

end

mutual

theorem Calls.hasFunctions {a : Arrow} :
    ∀ {ty : Ty} {n : Nat}, ty.Calls n a → ty.hasFunctions = true
  | .function .., _, _ => rfl
  | .named _ target, _, h => by
    rw [Calls] at h
    rw [Ty.hasFunctions]
    exact Calls.hasFunctions h
  | .array elem count, _, h => by
    rw [Calls] at h
    obtain ⟨-, i, k, -, -, inner⟩ := h
    rw [Ty.hasFunctions]
    exact Calls.hasFunctions inner
  | .tuple fields, _, h => by
    rw [Calls] at h
    rw [Ty.hasFunctions]
    exact CallsIn.hasFunctions h

theorem CallsIn.hasFunctions {a : Arrow} :
    ∀ {fields : List (Labelled Ty)} {n : Nat}, CallsIn fields n a → hasFunctionsIn fields = true
  | ⟨_, value⟩ :: rest, _, h => by
    rw [CallsIn] at h
    rw [hasFunctionsIn, Bool.or_eq_true]
    rcases h with here | ⟨k, -, later⟩
    · exact .inl (Calls.hasFunctions here)
    · exact .inr (CallsIn.hasFunctions later)

end

/-- A type without functions has no function registers. -/
theorem not_calls_of_hasFunctions {ty : Ty} (h : ty.hasFunctions = false) {n : Nat} {a : Arrow} :
    ¬ ty.Calls n a := by
  intro calls
  rw [calls.hasFunctions] at h
  cases h

mutual

theorem Calls.lt_size {a : Arrow} : ∀ {ty : Ty} {n : Nat}, ty.Calls n a → n < ty.size
  | .function .., _, h => by
    rw [Calls] at h
    rw [h.1, size]
    exact Nat.zero_lt_one
  | .named _ target, _, h => by
    rw [Calls] at h
    rw [size]
    exact Calls.lt_size h
  | .array elem count, n, h => by
    rw [Calls] at h
    obtain ⟨packed, i, k, lt, rfl, inner⟩ := h
    have bound := Calls.lt_size inner
    rw [size_array count packed]
    calc i * elem.size + k < i * elem.size + elem.size := by omega
      _ = elem.size * (i + 1) := by rw [Nat.mul_add, Nat.mul_comm, Nat.mul_one]
      _ ≤ elem.size * count := Nat.mul_le_mul_left _ lt
  | .tuple fields, _, h => by
    rw [Calls] at h
    rw [size]
    exact CallsIn.lt_size h

theorem CallsIn.lt_size {a : Arrow} :
    ∀ {fields : List (Labelled Ty)} {n : Nat}, CallsIn fields n a → n < sizeFields fields
  | ⟨_, value⟩ :: rest, _, h => by
    rw [CallsIn] at h
    rw [sizeFields]
    rcases h with here | ⟨k, rfl, later⟩
    · have bound := Calls.lt_size here
      omega
    · have bound := CallsIn.lt_size later
      omega

end

theorem callsIn_normalized {a : Arrow} {fields : List (Labelled Ty)}
    (inner : ∀ field ∈ fields, ∀ n, field.value.normalized.Calls n a ↔ field.value.Calls n a) (n : Nat) :
    CallsIn (normalizedFields fields) n a ↔ CallsIn fields n a := by
  induction fields generalizing n with
  | nil => exact Iff.rfl
  | cons field fields ih =>
    rw [normalizedFields, CallsIn, CallsIn, inner field (by simp), size_normalized]
    simp only [ih fun other mem => inner other (by simp [mem])]

theorem calls_normalized {a : Arrow} (ty : Ty) (n : Nat) : ty.normalized.Calls n a ↔ ty.Calls n a := by
  induction ty using of_forms generalizing n with
  | named name target ih =>
    rw [normalized, Calls]
    exact ih n
  | parens value ih =>
    rw [normalized, ih n, Calls, CallsIn]
    simp [CallsIn]
  | tuple fields several ih => rw [normalized_tuple several, Calls, Calls, callsIn_normalized ih n]
  | array elem count ih =>
    rw [normalized, Calls, Calls, isPacked_normalized, size_normalized]
    simp only [ih]
  | function input output =>
    rw [normalized, Calls, Calls, normalized_normalized, normalized_normalized]
  | pointer => simp [Calls]
  | int | float | char | bool | void => exact Iff.rfl

/-- Matching types have functions for the same arrows in the same registers. -/
theorem Matches.calls_iff {ty other : Ty} (h : ty.Matches other) (n : Nat) (a : Arrow) :
    ty.Calls n a ↔ other.Calls n a := by
  rw [← calls_normalized ty, ← calls_normalized other, h]

theorem Matches.size_eq {ty other : Ty} (h : ty.Matches other) : ty.size = other.size := by
  rw [← size_normalized ty, ← size_normalized other, h]

theorem calls_resolved (ty : Ty) (n : Nat) (a : Arrow) : ty.resolved.Calls n a ↔ ty.Calls n a := by
  rw [← calls_normalized, normalized_resolved, calls_normalized]

/-- A function type has one function, in its only register. -/
theorem calls_of_arrow? {ty : Ty} {arrow : Arrow} (h : ty.arrow? = some arrow) :
    ty.size = 1 ∧ ∀ n a, ty.Calls n a ↔ n = 0 ∧ a = arrow.normalized := by
  unfold arrow? at h
  split at h
  · rename_i input output eq
    cases h
    refine ⟨by rw [← size_resolved, eq, size], fun n a => ?_⟩
    rw [← calls_resolved, eq, Calls]
    rfl
  · cases h

theorem arrow?_toTy (arrow : Arrow) : arrow.toTy.arrow? = some arrow := rfl

theorem calls_of_isVoid {ty : Ty} (h : ty.isVoid = true) :
    ty.size = 0 ∧ ∀ n a, ¬ ty.Calls n a := by
  unfold isVoid at h
  split at h
  · rename_i eq
    refine ⟨by rw [← size_resolved, eq, size], fun n a calls => ?_⟩
    rw [← calls_resolved, eq] at calls
    exact calls
  · cases h

/-! ## Parts -/

theorem callsIn_fieldFrom? {name : String} {fields : List (Labelled Ty)} {start offset : Nat}
    {field : Ty} (h : fieldFrom? name start fields = some (offset, field)) {k : Nat} {a : Arrow}
    (calls : field.Calls k a) : ∃ n, offset + k = start + n ∧ CallsIn fields n a := by
  induction fields generalizing start with
  | nil => cases h
  | cons first rest ih =>
    obtain ⟨label, value⟩ := first
    rw [fieldFrom?] at h
    split at h
    · cases h
      exact ⟨k, rfl, .inl calls⟩
    · obtain ⟨n, eq, later⟩ := ih h
      exact ⟨value.size + n, by omega, .inr ⟨n, rfl, later⟩⟩

/-- The functions of a field are functions of the tuple. -/
theorem calls_field? {ty field : Ty} {name : String} {offset : Nat}
    (h : ty.field? name = some (offset, field)) {k : Nat} {a : Arrow} (calls : field.Calls k a) :
    ty.Calls (offset + k) a := by
  unfold field? at h
  split at h
  · rename_i fields eq
    obtain ⟨n, place, inside⟩ := callsIn_fieldFrom? h calls
    rw [Nat.zero_add] at place
    rw [place, ← calls_resolved, eq, Calls]
    exact inside
  · cases h

/-- The functions of an element are functions of the array. -/
theorem calls_elem {ty elem : Ty} {count i : Nat} (h : ty.resolved = .array elem count)
    (packed : elem.isPacked = false) (lt : i < count) {k : Nat} {a : Arrow}
    (calls : elem.Calls k a) : ty.Calls (i * elem.size + k) a := by
  rw [← calls_resolved, h, Calls]
  exact ⟨packed, i, k, lt, rfl, calls⟩

/-- Slots that a value of the type consists of: each lies inside it, and the functions of the value
are those of the slots. -/
structure Tiles (ty : Ty) (slots : List (Nat × Ty)) : Prop where
  inside : ∀ slot ∈ slots, slot.1 + slot.2.size ≤ ty.size
  here : ∀ slot ∈ slots, ∀ k a, k < slot.2.size → (ty.Calls (slot.1 + k) a ↔ slot.2.Calls k a)
  cover : ∀ n a, ty.Calls n a → ∃ slot ∈ slots, ∃ k, n = slot.1 + k ∧ slot.2.Calls k a

theorem tiles_fieldSlots (fields : List (Labelled Ty)) (start : Nat) :
    (∀ slot ∈ Emit.fieldSlots start fields,
      start ≤ slot.1 ∧ slot.1 + slot.2.size ≤ start + sizeFields fields) ∧
    (∀ slot ∈ Emit.fieldSlots start fields, ∀ k a, k < slot.2.size →
      (CallsIn fields (slot.1 + k - start) a ↔ slot.2.Calls k a)) ∧
    ∀ n a, CallsIn fields n a →
      ∃ slot ∈ Emit.fieldSlots start fields, ∃ k, start + n = slot.1 + k ∧ slot.2.Calls k a := by
  induction fields generalizing start with
  | nil => simp [Emit.fieldSlots, CallsIn]
  | cons first rest ih =>
    obtain ⟨label, value⟩ := first
    obtain ⟨inside, here, cover⟩ := ih (start + value.size)
    rw [Emit.fieldSlots, sizeFields]
    refine ⟨?_, ?_, ?_⟩
    · intro slot hs
      rcases List.mem_cons.mp hs with rfl | hs
      · refine ⟨Nat.le_refl _, ?_⟩
        dsimp only
        omega
      · have bounds := inside slot hs
        omega
    · intro slot hs k a lt
      rw [CallsIn]
      rcases List.mem_cons.mp hs with rfl | hs
      · dsimp only at lt ⊢
        constructor
        · rintro (calls | ⟨n, eq, later⟩)
          · rwa [show start + k - start = k by omega] at calls
          · omega
        · intro calls
          exact .inl (by rwa [show start + k - start = k by omega])
      · have bounds := inside slot hs
        constructor
        · rintro (calls | ⟨n, eq, later⟩)
          · have bound := calls.lt_size
            omega
          · refine (here slot hs k a lt).mp ?_
            rwa [show slot.1 + k - (start + value.size) = n by omega]
        · intro calls
          refine .inr ⟨_, ?_, (here slot hs k a lt).mpr calls⟩
          omega
    · intro n a calls
      rw [CallsIn] at calls
      rcases calls with calls | ⟨k, rfl, later⟩
      · exact ⟨_, List.mem_cons_self, n, rfl, calls⟩
      · obtain ⟨slot, hs, k', eq, calls⟩ := cover k a later
        exact ⟨slot, List.mem_cons_of_mem _ hs, k', by omega, calls⟩

/-- Where two positions in a row of equal parts agree, the parts and the places in them do. -/
theorem part_unique {size i j k l : Nat} (hk : k < size) (hl : l < size)
    (h : i * size + k = j * size + l) : i = j ∧ k = l := by
  have quotient (n m : Nat) (hm : m < size) : (n * size + m) / size = n := by
    rw [Nat.mul_comm, Nat.mul_add_div (by omega), Nat.div_eq_of_lt hm, Nat.add_zero]
  have parts : i = j := by
    rw [← quotient i k hk, h, quotient j l hl]
  subst parts
  exact ⟨rfl, by omega⟩

theorem tiles_elems {elem : Ty} (count : Nat) (packed : elem.isPacked = false) :
    (array elem count).Tiles ((List.range count).map fun i => (i * elem.size, elem)) := by
  refine ⟨?_, ?_, ?_⟩
  · intro slot hs
    obtain ⟨i, lt, rfl⟩ := List.mem_map.mp hs
    rw [size_array count packed]
    calc i * elem.size + elem.size = elem.size * (i + 1) := by
          rw [Nat.mul_add, Nat.mul_comm, Nat.mul_one]
      _ ≤ elem.size * count := Nat.mul_le_mul_left _ (List.mem_range.mp lt)
  · intro slot hs k a lt
    obtain ⟨i, mem, rfl⟩ := List.mem_map.mp hs
    rw [Calls]
    constructor
    · rintro ⟨-, j, l, -, eq, calls⟩
      rw [(part_unique lt calls.lt_size eq).2]
      exact calls
    · intro calls
      exact ⟨packed, i, k, List.mem_range.mp mem, rfl, calls⟩
  · intro n a calls
    rw [Calls] at calls
    obtain ⟨-, i, k, lt, rfl, calls⟩ := calls
    exact ⟨_, List.mem_map_of_mem (List.mem_range.mpr lt), k, rfl, calls⟩

theorem Tiles.of_resolved {ty : Ty} {slots : List (Nat × Ty)} (h : ty.resolved.Tiles slots) :
    ty.Tiles slots := by
  refine ⟨?_, ?_, ?_⟩
  · rw [← size_resolved]
    exact h.inside
  · intro slot hs k a lt
    rw [← calls_resolved]
    exact h.here slot hs k a lt
  · intro n a calls
    exact h.cover n a ((calls_resolved ty n a).mpr calls)

/-- The slots of a tuple literal make up the value it is built for. -/
theorem tiles_of_slots? {ty : Ty} {count : Nat} {slots : List (Nat × Ty)}
    (h : Emit.slots? ty count = some slots) : ty.Tiles slots ∧ slots.length = count := by
  unfold Emit.slots? at h
  split at h
  · rename_i eq
    split at h
    · rename_i none
      cases h
      refine ⟨.of_resolved ?_, none.symm⟩
      rw [eq]
      exact ⟨by simp, by simp, fun n a calls => calls.elim⟩
    · cases h
  · rename_i types eq
    split at h
    · rename_i length
      cases h
      obtain ⟨inside, here, cover⟩ := tiles_fieldSlots types 0
      refine ⟨.of_resolved ?_, ?_⟩
      · rw [eq]
        refine ⟨?_, ?_, ?_⟩
        · intro slot hs
          have bounds := inside slot hs
          rw [size]
          omega
        · intro slot hs k a lt
          rw [Calls]
          exact here slot hs k a lt
        · intro n a calls
          rw [Calls] at calls
          obtain ⟨slot, hs, k, place, found⟩ := cover n a calls
          exact ⟨slot, hs, k, by omega, found⟩
      · rw [← length]
        clear length eq inside here cover
        generalize 0 = start
        induction types generalizing start with
        | nil => rfl
        | cons first rest ih => simp [Emit.fieldSlots, ih]
    · cases h
  · rename_i elem length eq
    split at h
    · rename_i fits
      cases h
      refine ⟨.of_resolved ?_, by simp⟩
      rw [eq, fits.1]
      exact tiles_elems count (by simpa using fits.2)
    · cases h
  · cases h

end Ty

end WindowedClosures
