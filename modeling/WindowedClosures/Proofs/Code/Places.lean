import WindowedClosures.Proofs.Code.Discipline
import WindowedClosures.Proofs.Machine.Claims
import WindowedClosures.Proofs.Scope.Rows

/-!
# Places for values

What is known of the registers while the code of a scope is made, and the places that values go to:
the registers of a variable, of the output, of a field of either, or scratch registers. A place
takes a value if the functions that are known to lie there are those of the value's type.
-/

namespace WindowedClosures

/-- Claims with the functions of a value added that starts at a register. -/
def Claims.put (Γ : Claims) (dst : Register) (ty : Ty) : Claims :=
  fun o c => Γ o c ∨ dst.bank = .window ∧ ty.claims dst.offset o c

/-- A value without functions adds nothing. -/
theorem Claims.put_plain {Γ : Claims} {dst : Register} {ty : Ty} (plain : ∀ k a, ¬ ty.Calls k a)
    {o : Nat} {c : Claim} (h : Γ.put dst ty o c) : Γ o c := by
  rcases h with old | ⟨-, k, a, -, calls, -⟩
  · exact old
  · exact (plain k a calls).elim

theorem Ty.plain_of_hasFunctions {ty : Ty} (h : ty.hasFunctions = false) : ∀ k a, ¬ ty.Calls k a :=
  fun _ _ => ty.not_calls_of_hasFunctions h

theorem Ty.takesNumber_iff {ty : Ty} {room : Nat} :
    ty.takesNumber room = true ↔ ty.hasFunctions = false ∧ 0 < room := by
  simp [Ty.takesNumber]

namespace Scope

/-- What is known while the code of a scope is made: only registers below the watermark count, those
of variables hold what their types say, and of the variables that are set all of it is known. -/
structure Knows (s : Scope) (names : List String) (watermark : Nat) (Γ : Claims) : Prop where
  size : s.size ≤ watermark
  within : ∀ o c, Γ o c → o < watermark
  lawful : ∀ o c, Γ o c → o < s.size → ∃ a, c = .calls a ∧ s.Lays o a
  covers : ∀ n ∈ names, ∀ v, s.local? n = some v → v ∈ s.vars → ∀ k a, v.ty.Calls k a →
    Γ (v.offset + k) (.calls a)

/-- So many registers can take a value of a type: the functions that may lie there are functions of
the type, and where they belong to a variable or to the output, the other way round too. -/
structure Takes (s : Scope) (Γ : Claims) (watermark : Nat) (dst : Register) (ty : Ty) (room : Nat) :
    Prop where
  near : dst.bank = .window ∧ dst.offset + room ≤ watermark ∨
    dst.bank = .closure ∧ s.closure ≠ []
  fits : ty.size ≤ room
  holds : dst.bank = .window → ∀ k < room, dst.offset + k < s.size →
    ∀ a, s.Lays (dst.offset + k) a → ty.Calls k a
  lays : dst.bank = .window → ∀ k a, dst.offset + k < s.size → ty.Calls k a →
    s.Lays (dst.offset + k) a
  above : dst.bank = .window → ∀ k < room, s.size ≤ dst.offset + k →
    ∀ c, Γ (dst.offset + k) c → ∃ a, c = .calls a ∧ ty.Calls k a
  encloses : dst.bank = .closure → ∀ k < room, ∀ a, s.Encloses (dst.offset + k) a → ty.Calls k a

/-- More is known behind some code, but only of registers that were free before. -/
structure Grows (s : Scope) (names : List String) (watermark : Nat) (Γ : Claims) (mark : Nat)
    (Γ' : Claims) : Prop where
  le : watermark ≤ mark
  knows : s.Knows names mark Γ'
  old : ∀ o c, Γ o c → Γ' o c
  below : ∀ o c, o < watermark → Γ' o c → Γ o c

variable {s : Scope} {names : List String} {watermark mark : Nat} {Γ Γ' : Claims} {dst : Register}
  {ty : Ty} {room : Nat}

theorem Knows.mono (h : s.Knows names watermark Γ) (le : watermark ≤ mark) : s.Knows names mark Γ :=
  ⟨Nat.le_trans h.size le, fun o c claim => Nat.lt_of_lt_of_le (h.within o c claim) le, h.lawful,
    h.covers⟩

theorem Knows.grows (h : s.Knows names watermark Γ) (le : watermark ≤ mark) :
    s.Grows names watermark Γ mark Γ :=
  ⟨le, h.mono le, fun _ _ claim => claim, fun _ _ _ claim => claim⟩

theorem Grows.trans {higher : Nat} {Γ'' : Claims} (h : s.Grows names watermark Γ mark Γ')
    (h' : s.Grows names mark Γ' higher Γ'') : s.Grows names watermark Γ higher Γ'' := by
  refine ⟨Nat.le_trans h.le h'.le, h'.knows, fun o c claim => h'.old o c (h.old o c claim), ?_⟩
  intro o c lt claim
  exact h.below o c lt (h'.below o c (Nat.lt_of_lt_of_le lt h.le) claim)

/-- A place stays one while nothing but its own type becomes known of it. -/
theorem Takes.congr (h : s.Takes Γ watermark dst ty room) (le : watermark ≤ mark)
    (same : ∀ k < room, s.size ≤ dst.offset + k → ∀ c, Γ' (dst.offset + k) c →
      Γ.put dst ty (dst.offset + k) c) : s.Takes Γ' mark dst ty room := by
  refine ⟨?_, h.fits, h.holds, h.lays, ?_, h.encloses⟩
  · rcases h.near with ⟨bank, inside⟩ | captured
    · exact .inl ⟨bank, Nat.le_trans inside le⟩
    · exact .inr captured
  · intro bank k lt free c claim
    rcases same k lt free c claim with old | ⟨-, j, a, eq, calls, rfl⟩
    · exact h.above bank k lt free c old
    · have place : k = j := by omega
      exact ⟨a, rfl, place ▸ calls⟩

theorem Takes.grows (h : s.Takes Γ watermark dst ty room) (grows : s.Grows names watermark Γ mark Γ') :
    s.Takes Γ' mark dst ty room := by
  rcases h.near with ⟨bank, inside⟩ | ⟨bank, captured⟩
  · refine h.congr grows.le fun k lt _ c claim => .inl (grows.below _ c ?_ claim)
    omega
  · refine ⟨.inr ⟨bank, captured⟩, h.fits, h.holds, h.lays, ?_, h.encloses⟩
    intro window
    rw [bank] at window
    cases window

/-- A place for a value without functions takes any number. -/
theorem Takes.number (h : s.Takes Γ watermark dst ty room) (plain : ∀ k a, ¬ ty.Calls k a)
    (pos : 0 < room) : s.Takes Γ watermark dst .int 1 := by
  refine ⟨?_, Nat.le_refl 1, ?_, ?_, ?_, ?_⟩
  · rcases h.near with ⟨bank, inside⟩ | captured
    · exact .inl ⟨bank, by omega⟩
    · exact .inr captured
  · intro bank k lt small a lays
    exact (plain k a (h.holds bank k (by omega) small a lays)).elim
  · intro bank k a small calls
    cases calls
  · intro bank k lt free c claim
    obtain ⟨a, -, calls⟩ := h.above bank k (by omega) free c claim
    exact (plain k a calls).elim
  · intro bank k lt a encloses
    exact (plain k a (h.encloses bank k (by omega) a encloses)).elim

/-- What is known of a register of a place is a function of the type. -/
theorem Takes.owes (h : s.Takes Γ watermark dst ty room) (knows : s.Knows names watermark Γ) {k : Nat}
    (lt : k < room) {r : Register} (hr : dst.shift k = .ok r) {c : Claim} (owes : s.Owes Γ r c) :
    ∃ a, c = .calls a ∧ ty.Calls k a := by
  obtain ⟨bank, offset⟩ := Register.shift_ok hr
  rcases owes with ⟨window, claim⟩ | ⟨captured, a, encloses, rfl⟩
  · rw [bank] at window
    rw [offset] at claim
    by_cases small : dst.offset + k < s.size
    · obtain ⟨a, rfl, lays⟩ := knows.lawful _ c claim small
      exact ⟨a, rfl, h.holds window k lt small a lays⟩
    · exact h.above window k lt (Nat.le_of_not_lt small) c claim
  · rw [bank] at captured
    rw [offset] at encloses
    exact ⟨a, rfl, h.encloses captured k lt a encloses⟩

theorem Takes.reaches (h : s.Takes Γ watermark dst ty room) {k : Nat} {r : Register}
    (hr : dst.shift k = .ok r) : s.Reaches r := by
  have bank := (Register.shift_ok hr).1
  rcases h.near with ⟨window, -⟩ | ⟨captured, closure⟩
  · exact .inl (bank.trans window)
  · exact .inr ⟨bank.trans captured, closure⟩

theorem Takes.below (h : s.Takes Γ watermark dst ty room) (pos : 0 < room) : dst.Below watermark := by
  rcases h.near with ⟨window, inside⟩ | ⟨captured, -⟩
  · exact .inr ⟨window, by omega⟩
  · exact .inl captured

/-- A value was put into a place. -/
theorem Knows.put (h : s.Knows names watermark Γ) (takes : s.Takes Γ watermark dst ty room) :
    s.Knows names watermark (Γ.put dst ty) := by
  refine ⟨h.size, ?_, ?_, fun n hn v known own k a calls => .inl (h.covers n hn v known own k a calls)⟩
  · rintro o c (claim | ⟨bank, k, a, rfl, calls, rfl⟩)
    · exact h.within o c claim
    · have lt := calls.lt_size
      have fits := takes.fits
      rcases takes.near with ⟨-, inside⟩ | ⟨other, -⟩
      · omega
      · rw [bank] at other
        cases other
  · rintro o c (claim | ⟨bank, k, a, rfl, calls, rfl⟩) small
    · exact h.lawful o c claim small
    · exact ⟨a, rfl, takes.lays bank k a small calls⟩

/-- A part of a place is a place for a part of the value. -/
theorem Takes.slot (h : s.Takes Γ watermark dst ty room) {offset : Nat} {part : Ty}
    (inside : offset + part.size ≤ ty.size)
    (here : ∀ k a, k < part.size → (ty.Calls (offset + k) a ↔ part.Calls k a)) {r : Register}
    (hr : dst.shift offset = .ok r) : s.Takes Γ watermark r part part.size := by
  obtain ⟨bank, place⟩ := Register.shift_ok hr
  have fits := h.fits
  refine ⟨?_, Nat.le_refl _, ?_, ?_, ?_, ?_⟩
  · rw [bank, place]
    rcases h.near with ⟨window, near⟩ | captured
    · exact .inl ⟨window, by omega⟩
    · exact .inr captured
  · intro window k lt small a lays
    rw [place, Nat.add_assoc] at small lays
    rw [bank] at window
    exact (here k a lt).mp (h.holds window (offset + k) (by omega) small a lays)
  · intro window k a small calls
    rw [place, Nat.add_assoc] at small ⊢
    rw [bank] at window
    exact h.lays window (offset + k) a small ((here k a calls.lt_size).mpr calls)
  · intro window k lt free c claim
    rw [place, Nat.add_assoc] at free claim
    rw [bank] at window
    obtain ⟨a, rfl, calls⟩ := h.above window (offset + k) (by omega) free c claim
    exact ⟨a, rfl, (here k a lt).mp calls⟩
  · intro captured k lt a encloses
    rw [place, Nat.add_assoc] at encloses
    rw [bank] at captured
    exact (here k a lt).mp (h.encloses captured (offset + k) (by omega) a encloses)

/-! ## Scratch registers -/

theorem Knows.takes (h : s.Knows names watermark Γ) (le : watermark ≤ dst.offset)
    (bank : dst.bank = .window) (inside : dst.offset + room ≤ mark) (fits : ty.size ≤ room) :
    s.Takes Γ mark dst ty room := by
  have size := h.size
  refine ⟨.inl ⟨bank, inside⟩, fits, ?_, ?_, ?_, ?_⟩
  · intro _ k lt small
    omega
  · intro _ k a small
    omega
  · intro _ k lt free c claim
    have within := h.within _ c claim
    omega
  · intro captured
    rw [bank] at captured
    cases captured

/-- A value was put into scratch registers. -/
theorem Knows.grows_put (h : s.Knows names watermark Γ) (le : watermark ≤ dst.offset)
    (bank : dst.bank = .window) (inside : dst.offset + room ≤ mark) (fits : ty.size ≤ room) :
    s.Grows names watermark Γ mark (Γ.put dst ty) := by
  have higher : watermark ≤ mark := by omega
  refine ⟨higher, (h.mono higher).put (h.takes le bank inside fits), fun o c claim => .inl claim, ?_⟩
  rintro o c lt (claim | ⟨-, k, a, rfl, -, -⟩)
  · exact claim
  · omega

/-- Something became known of a scratch register. -/
theorem Knows.grows_add (h : s.Knows names watermark Γ) {t : Register} {offset : Nat} (at_t : t.At offset)
    (le : watermark ≤ offset) (lt : offset < mark) (N : Claim → Prop) :
    s.Grows names watermark Γ mark (Γ.add t N) := by
  have size := h.size
  have place := at_t.2
  refine ⟨by omega, ⟨by omega, ?_, ?_, ?_⟩, fun o c claim => .inl claim, ?_⟩
  · rintro o c (claim | ⟨at_o, -⟩)
    · have within := h.within o c claim
      omega
    · have place' := at_o.2
      omega
  · rintro o c (claim | ⟨at_o, -⟩) small
    · exact h.lawful o c claim small
    · have place' := at_o.2
      omega
  · exact fun n hn v known own k a calls => .inl (h.covers n hn v known own k a calls)
  · rintro o c small (claim | ⟨at_o, -⟩)
    · exact claim
    · have place' := at_o.2
      omega

/-! ## Variables and the output -/

variable {v : Variable} {r : Register} {n : String}

/-- The registers of a variable take a value of its type. -/
theorem Rowed.takes (h : s.Rowed) (le : s.size ≤ watermark) (known : s.local? n = some v)
    (hr : v.register = .ok r) : s.Takes Γ watermark r v.ty v.ty.size := by
  obtain ⟨bank, offset⟩ := Register.ofOffset_ok hr
  rcases local?_mem known with own | captured
  · have inside := h.inside v own
    have window := bank.trans (h.vars v own)
    refine ⟨.inl ⟨window, by omega⟩, Nat.le_refl _, ?_, ?_, ?_, ?_⟩
    · intro _ k lt small a lays
      rw [offset] at lays
      exact h.calls_variable own lt lays
    · intro _ k a small calls
      exact .inr ⟨v, own, k, by rw [offset], calls⟩
    · intro _ k lt free
      omega
    · intro captured
      rw [window] at captured
      cases captured
  · have closure := bank.trans (h.closure v captured)
    refine ⟨.inr ⟨closure, List.ne_nil_of_mem captured⟩, Nat.le_refl _, ?_, ?_, ?_, ?_⟩
    · intro window
      rw [closure] at window
      cases window
    · intro window
      rw [closure] at window
      cases window
    · intro window
      rw [closure] at window
      cases window
    · intro _ k lt a encloses
      rw [offset] at encloses
      exact h.calls_captured captured lt encloses

/-- Another place stays one when a variable is set. -/
theorem Takes.put_variable (h : s.Takes Γ watermark dst ty room) (rowed : s.Rowed)
    (known : s.local? n = some v) (hr : v.register = .ok r) :
    s.Takes (Γ.put r v.ty) watermark dst ty room := by
  obtain ⟨bank, offset⟩ := Register.ofOffset_ok hr
  refine h.congr (Nat.le_refl _) ?_
  rintro k lt free c (claim | ⟨window, j, a, place, calls, -⟩)
  · exact .inl claim
  · rcases local?_mem known with own | captured
    · have inside := rowed.inside v own
      have bound := calls.lt_size
      omega
    · rw [bank, rowed.closure v captured] at window
      cases window

/-- A variable is known when it was set. -/
theorem Knows.put_variable (h : s.Knows names watermark Γ) (rowed : s.Rowed) (known : s.local? n = some v)
    (hr : v.register = .ok r) : s.Knows (n :: names) watermark (Γ.put r v.ty) := by
  obtain ⟨bank, offset⟩ := Register.ofOffset_ok hr
  have put := h.put (rowed.takes h.size known hr)
  refine ⟨put.size, put.within, put.lawful, ?_⟩
  intro m hm u known' own k a calls
  rcases List.mem_cons.mp hm with rfl | hm
  · rw [known] at known'
    cases known'
    exact .inr ⟨bank.trans (rowed.vars v own), k, a, by rw [offset], calls, rfl⟩
  · exact put.covers m hm u known' own k a calls

/-- The functions of a variable that is set are known of its registers. -/
theorem Knows.owes (h : s.Knows names watermark Γ) (rowed : s.Rowed) (known : s.local? n = some v)
    (hn : n ∈ names) {r : Register} (bank : r.bank = v.bank) {k : Nat} (offset : r.offset.val = v.offset + k)
    {a : Arrow} (calls : v.ty.Calls k a) : s.Owes Γ r (.calls a) := by
  rcases local?_mem known with own | captured
  · refine .inl ⟨bank.trans (rowed.vars v own), ?_⟩
    rw [offset]
    exact h.covers n hn v known own k a calls
  · refine .inr ⟨bank.trans (rowed.closure v captured), a, ?_, rfl⟩
    exact ⟨v, captured, k, offset, calls⟩

/-- The output takes a value of its type. -/
theorem Rowed.takes_output (h : s.Rowed) (le : s.size ≤ watermark) :
    s.Takes Γ watermark .first s.arrow.output s.arrow.output.size := by
  have size : s.arrow.output.size ≤ s.size := Nat.le_add_left ..
  have zero : (Register.first.offset : Nat) = 0 := rfl
  refine ⟨.inl ⟨rfl, by omega⟩, Nat.le_refl _, ?_, ?_, ?_, ?_⟩
  · intro _ k lt small a lays
    rw [zero, Nat.zero_add] at lays
    exact h.calls_output lt lays
  · intro _ k a small calls
    rw [zero, Nat.zero_add]
    exact .inl calls
  · intro _ k lt free
    omega
  · intro captured
    cases captured

end Scope

end WindowedClosures
