import WindowedClosures.Proofs.Ty.Callables

/-!
# Types that match

Two types match if they are the same once aliases and redundant tuples are removed. What a type is asked
for depends on neither, so matching types give the same answers, and a part of a type may be replaced by
one that matches it, however deep it lies.
-/

namespace WindowedClosures

namespace Ty

/-! ## Parts -/

/-- One layer of a type around one of its parts. -/
inductive Layer where
  | named (name : String)
  | array (count : Nat)
  | tuple (before : List (Labelled Ty)) (label : Option String) (after : List (Labelled Ty))
  | pointer
  | argument (output : Ty)
  | result (input : Ty)

/-- The layer with its part in place. -/
def Layer.around : Layer → Ty → Ty
  | .named name, part => .named name part
  | .array count, part => .array part count
  | .tuple before label after, part => .tuple (before ++ ⟨label, part⟩ :: after)
  | .pointer, part => .pointer part
  | .argument output, part => .function part output
  | .result input, part => .function input part

/-- A part inside layers, the outermost layer first. -/
def within (layers : List Layer) (part : Ty) : Ty := layers.foldr Layer.around part

variable {ty other a b : Ty}

/-- What stands in a tuple does not decide whether the tuple is redundant. -/
theorem single_append_iff {before after : List (Labelled Ty)} {label : Option String} :
    Single (before ++ ⟨label, a⟩ :: after) ↔ before = [] ∧ label = none ∧ after = [] := by
  constructor
  · rintro ⟨value, eq⟩
    cases before with
    | nil =>
      simp only [List.nil_append, List.cons.injEq, Labelled.mk.injEq] at eq
      exact ⟨rfl, eq.1.1, eq.2⟩
    | cons first rest => simp at eq
  · rintro ⟨rfl, rfl, rfl⟩
    exact ⟨a, rfl⟩

theorem Matches.around (h : a.Matches b) (layer : Layer) :
    (layer.around a).Matches (layer.around b) := by
  rw [Matches] at h
  cases layer with
  | tuple before label after =>
    rw [Matches, Layer.around, Layer.around]
    by_cases single : before = [] ∧ label = none ∧ after = []
    · obtain ⟨rfl, rfl, rfl⟩ := single
      simpa only [List.nil_append, normalized] using h
    · rw [normalized_tuple ((not_congr single_append_iff).mpr single),
        normalized_tuple ((not_congr single_append_iff).mpr single)]
      simp [normalizedFields_eq, h]
  | _ => simp [Matches, Layer.around, normalized, h]

/-- Replacing a part by one that matches it gives a type that matches. -/
theorem Matches.within (h : a.Matches b) (layers : List Layer) :
    (within layers a).Matches (Ty.within layers b) := by
  induction layers with
  | nil => exact h
  | cons layer rest ih => exact ih.around layer

theorem named_matches (name : String) (ty : Ty) : (named name ty).Matches ty := by
  rw [Matches, normalized]

theorem parens_matches (ty : Ty) : (tuple [⟨none, ty⟩]).Matches ty := by
  rw [Matches, normalized]

theorem matches_equivalence : Equivalence Matches := ⟨fun _ => rfl, Eq.symm, Eq.trans⟩

/-- Neither of two matching types can be told from the other by a third. -/
theorem Matches.congr (h : a.Matches b) (other : Ty) : a.Matches other ↔ b.Matches other :=
  ⟨h.symm.trans, h.trans⟩

/-! ## Answers -/

theorem isIntegral_normalized (ty : Ty) : ty.normalized.isIntegral = ty.isIntegral := by
  obtain ⟨named, many⟩ := resolved_plain ty
  rw [isIntegral, isIntegral, resolved_normalized_eq]
  cases h : ty.resolved with
  | named name target => exact (named name target h).elim
  | tuple fields => rw [normalized_tuple (many fields h)]
  | _ => simp [normalized]

theorem arrow?_normalized (ty : Ty) : ty.normalized.arrow? = ty.arrow?.map Arrow.normalized := by
  obtain ⟨named, many⟩ := resolved_plain ty
  rw [arrow?, arrow?, resolved_normalized_eq]
  cases h : ty.resolved with
  | named name target => exact (named name target h).elim
  | tuple fields => rw [normalized_tuple (many fields h)]; rfl
  | _ => simp [normalized, Arrow.normalized]

/-- Fields keep their offsets, since no part changes its size. -/
theorem fieldFrom?_normalized (name : String) (start : Nat) (fields : List (Labelled Ty)) :
    fieldFrom? name start (normalizedFields fields) =
      (fieldFrom? name start fields).map fun slot => (slot.1, slot.2.normalized) := by
  induction fields generalizing start with
  | nil => rfl
  | cons first rest ih =>
    obtain ⟨label, value⟩ := first
    rw [normalizedFields, fieldFrom?, fieldFrom?]
    split
    · rfl
    · rw [size_normalized, ih]

theorem field?_normalized (ty : Ty) (name : String) :
    ty.normalized.field? name = (ty.field? name).map fun slot => (slot.1, slot.2.normalized) := by
  obtain ⟨named, many⟩ := resolved_plain ty
  rw [field?, field?, resolved_normalized_eq]
  cases h : ty.resolved with
  | named name target => exact (named name target h).elim
  | tuple fields =>
    rw [normalized_tuple (many fields h)]
    exact fieldFrom?_normalized name 0 fields
  | _ => simp [normalized]

theorem rel_of_map_eq {α β : Type} {f : α → β} {R : α → α → Prop} (hR : ∀ x y, f x = f y → R x y)
    {x y : Option α} (h : x.map f = y.map f) : Option.Rel R x y := by
  cases x with
  | none =>
    cases y with
    | none => exact .none
    | some b => cases h
  | some a =>
    cases y with
    | none => cases h
    | some b => exact .some (hR a b (Option.some.inj h))

/-- Both are functions or neither is. -/
theorem Matches.arrows (h : ty.Matches other) :
    Option.Rel (fun f g => f.input.Matches g.input ∧ f.output.Matches g.output)
      ty.arrow? other.arrow? := by
  refine rel_of_map_eq (f := Arrow.normalized) (fun f g same => ?_) ?_
  · simpa [Arrow.normalized, Matches] using same
  · rw [← arrow?_normalized, ← arrow?_normalized, h]

/-- Both have a field of the name, at the same offset, or neither has. -/
theorem Matches.fields (h : ty.Matches other) (name : String) :
    Option.Rel (fun a b => a.1 = b.1 ∧ a.2.Matches b.2) (ty.field? name) (other.field? name) := by
  refine rel_of_map_eq (f := fun slot : Nat × Ty => (slot.1, slot.2.normalized))
    (fun a b same => ?_) ?_
  · simpa [Matches] using same
  · rw [← field?_normalized, ← field?_normalized, h]

theorem Matches.isIntegral_eq (h : ty.Matches other) : ty.isIntegral = other.isIntegral := by
  rw [← isIntegral_normalized ty, ← isIntegral_normalized other, h]

/-- Removing aliases and redundant tuples is done once and for all and changes no size. Types that are
the same after it are matched with each other, whatever is put around a part of them or taken off it as
an alias or as parentheses; and they have one size, the same arrow, the same fields in the same places,
and the same part in arithmetic. -/
theorem matching_types_agree (ty other : Ty) :
    ty.normalized.normalized = ty.normalized ∧ ty.normalized.size = ty.size ∧
      Equivalence Matches ∧
      (∀ layers part name, ∀ wrapped ∈ [named name part, tuple [⟨none, part⟩]],
        ((within layers wrapped).Matches other ↔ (within layers part).Matches other)) ∧
      (ty.Matches other →
        ty.size = other.size ∧
        Option.Rel (fun f g => f.input.Matches g.input ∧ f.output.Matches g.output)
          ty.arrow? other.arrow? ∧
        ty.isIntegral = other.isIntegral ∧
        ∀ name, Option.Rel (fun a b => a.1 = b.1 ∧ a.2.Matches b.2)
          (ty.field? name) (other.field? name)) := by
  refine ⟨normalized_normalized ty, size_normalized ty, matches_equivalence, ?_, ?_⟩
  · intro layers part name wrapped wraps
    have redundant : wrapped.Matches part := by
      simp only [List.mem_cons, List.not_mem_nil, or_false] at wraps
      rcases wraps with rfl | rfl
      · exact named_matches name part
      · exact parens_matches part
    exact (redundant.within layers).congr other
  · intro same
    exact ⟨same.size_eq, same.arrows, same.isIntegral_eq, same.fields⟩

/-- A row of letters is packed also where its letters are behind an alias and parentheses, so what comes
behind it in a tuple keeps its place. -/
theorem matching_types_agree_packed :
    ∃ ty other : Ty,
      ty = .tuple [⟨some "name", .array (.tuple [⟨none, .named "letter" .char⟩]) 9⟩,
        ⟨some "next", .named "link" (.function .int .char)⟩] ∧
      other = .tuple [⟨some "name", .array .char 9⟩, ⟨some "next", .function .int .char⟩] ∧
      ty.Matches other ∧ ty ≠ other ∧ ty.size = other.size ∧
      ty.field? "next" = some (3, .named "link" (.function .int .char)) ∧
      Option.Rel (fun a b => a.1 = b.1 ∧ a.2.Matches b.2) (ty.field? "next") (other.field? "next") ∧
      (within [.tuple [] (some "name") [⟨some "next", .function .int .char⟩], .array 9]
        (.named "letter" .char)).Matches other := by
  let ty : Ty := .tuple [⟨some "name", .array (.tuple [⟨none, .named "letter" .char⟩]) 9⟩,
    ⟨some "next", .named "link" (.function .int .char)⟩]
  let other : Ty := .tuple [⟨some "name", .array .char 9⟩, ⟨some "next", .function .int .char⟩]
  have same : ty.Matches other := by decide +kernel
  have agree := matching_types_agree ty other
  have wraps := (matching_types_agree other other).2.2.2.1
  obtain ⟨size, -, -, fields⟩ := agree.2.2.2.2 same
  refine ⟨ty, other, rfl, rfl, same, by decide +kernel, size, by decide +kernel, fields "next", ?_⟩
  exact (wraps [.tuple [] (some "name") [⟨some "next", .function .int .char⟩], .array 9] .char "letter" _
    (by simp)).mpr rfl

end Ty

end WindowedClosures
