import WindowedClosures.Proofs.Code.Playing
import WindowedClosures.Proofs.Machine.Contracts

/-!
# Claims on registers

What is known of the registers that code of a scope can name, and what becomes of it when words are
stored: a word may go to a register if it is what the register is known to hold, and more may be
known of the register then.
-/

namespace WindowedClosures

namespace Scope

/-- What is known of a near register of a scope. -/
def Owes (s : Scope) (Γ : Claims) (r : Register) (c : Claim) : Prop :=
  r.bank = .window ∧ Γ r.offset c ∨ r.bank = .closure ∧ ∃ a, s.Encloses r.offset a ∧ c = .calls a

/-- A register that code of a scope may change. -/
def Reaches (s : Scope) (r : Register) : Prop :=
  r.bank = .window ∨ r.bank = .closure ∧ s.closure ≠ []

theorem Reaches.near {s : Scope} {r : Register} (h : s.Reaches r) : r.Near := by
  rcases h with bank | ⟨bank, -⟩
  · exact .inl bank
  · exact .inr bank

end Scope

/-- Claims with those on one register added. -/
def Claims.add (Γ : Claims) (r : Register) (N : Claim → Prop) : Claims :=
  fun o c => Γ o c ∨ r.At o ∧ N c

theorem Machine.isSome_readCell?_congr (m n : Machine) (c : Cell) :
    (m.readCell? c).isSome = (n.readCell? c).isSome := by
  cases c with
  | stack address | closures address =>
    rw [Bool.eq_iff_iff, Machine.readCell?, Machine.readCell?, Memory.isSome_get?_iff,
      Memory.isSome_get?_iff]

/-- What the words have to satisfy depends on two pointers of the machine only. -/
theorem owed_congr {tree : ScopeTree} {Γ : Claims} {filled : Nat} {w : World} {m n : Machine}
    (top : n.top = m.top) (aux : n.aux = m.aux) {cell : Cell} {c : Claim}
    (h : Owed tree Γ filled w n cell c) : Owed tree Γ filled w m cell c := by
  cases cell with
  | stack address =>
    obtain ⟨o, eq, claim⟩ := h
    exact ⟨o, by rw [eq, top], claim⟩
  | closures address =>
    obtain ⟨k, o, id, a, eq, lt, world, free, rest⟩ := h
    exact ⟨k, o, id, a, eq, lt, world, fun h => free (h.trans aux.symm), rest⟩

namespace Laid

variable {tree : ScopeTree} {program : Program} {l : Laid tree program} {id : Nat} {Γ : Claims}
  {filled : Nat} {w : World} {m n : Machine}

/-- What the cell of a near register has to satisfy is known of the register. -/
theorem Stands.owes_of_owed (h : l.Stands id Γ filled w m) {r : Register}
    (reach : (tree.scope id).Reaches r) {c : Claim} (owed : Owed tree Γ filled w m (m.cell r) c) :
    (tree.scope id).Owes Γ r c := by
  rcases reach with bank | ⟨bank, captures⟩
  · rw [show m.cell r = .stack (m.top + r.offset) by simp [Machine.cell, bank]] at owed
    obtain ⟨o, eq, claim⟩ := owed
    have offset : r.offset.val = o := by omega
    exact .inl ⟨bank, by rw [offset]; exact claim⟩
  · rw [show m.cell r = .closures (m.closure * 64 + r.offset) by simp [Machine.cell, bank]] at owed
    obtain ⟨k, o, other, a, eq, lt, world, -, encloses, rfl⟩ := owed
    have bound := r.offset.isLt
    have closure : m.closure = k := by omega
    have offset : r.offset.val = o := by omega
    have own := h.closure.resolve_left captures
    rw [closure, world] at own
    cases own
    exact .inr ⟨bank, a, by rw [offset]; exact encloses, rfl⟩

/-- The word in a near register is what is known of the register. -/
theorem Stands.meets (h : l.Stands id Γ filled w m) {r : Register} {c : Claim}
    (owes : (tree.scope id).Owes Γ r c)
    (other : filled = 64 ∨ ((tree.scope id).closure ≠ [] → m.closure ≠ m.aux)) {word : Int32}
    (read : m.readCell? (m.cell r) = some word) : l.Meets w c word := by
  refine h.words _ c word ?_ read
  rcases owes with ⟨bank, claim⟩ | ⟨bank, a, encloses, rfl⟩
  · rw [show m.cell r = .stack (m.top + r.offset) by simp [Machine.cell, bank]]
    exact ⟨r.offset, rfl, claim⟩
  · rw [show m.cell r = .closures (m.closure * 64 + r.offset) by simp [Machine.cell, bank]]
    have captures : (tree.scope id).closure ≠ [] := by
      obtain ⟨v, hv, -⟩ := encloses
      exact List.ne_nil_of_mem hv
    have bound := r.offset.isLt
    refine ⟨m.closure, r.offset, id, a, rfl, bound, h.closure.resolve_left captures, ?_, encloses, rfl⟩
    intro eq
    rcases other with full | ne
    · omega
    · exact (ne captures eq).elim

/-- A word may be stored in a register if it is what the register has to hold. -/
theorem Stands.store (h : l.Stands id Γ filled w m) {byte : UInt8} {word : Int32}
    (isSome : (m.read? byte).isSome) {Γ' : Claims} {filled' : Nat}
    (step : ∀ cell c, Owed tree Γ' filled' w m cell c →
      Owed tree Γ filled w m cell c ∧ cell ≠ m.cell (.ofByte byte) ∨
        cell = m.cell (.ofByte byte) ∧ l.Meets w c word) :
    l.Stands id Γ' filled' w (m.write byte word) := by
  refine ⟨⟨fun cell c found owed read => ?_, ?_, ?_, ?_⟩, ?_⟩
  · rw [Machine.write] at read
    have owed' : Owed tree Γ' filled' w m cell c :=
      owed_congr (by simp) (by simp [Machine.write]) owed
    rcases step cell c owed' with ⟨before, ne⟩ | ⟨rfl, meets⟩
    · rw [Machine.readCell?_writeCell_other m _ _ word ne] at read
      exact h.words cell c found before read
    · rw [Machine.readCell?_writeCell_same m _ word isSome] at read
      cases read
      exact meets
  · rw [Machine.write, Machine.writeCell_pool]
    exact h.order
  · rw [Machine.write, Machine.writeCell_pool]
    exact h.used
  · rw [Machine.write, Machine.writeCell_pool]
    exact h.bound
  · rw [Machine.write_closure]
    exact h.closure

/-- A word is stored in a near register, of which more is known then. -/
theorem Stands.write (h : l.Stands id Γ filled w m) {r : Register} {word : Int32}
    (isSome : (m.read? r.toByte).isSome) (reach : (tree.scope id).Reaches r)
    (owes : ∀ c, (tree.scope id).Owes Γ r c → l.Meets w c word) {N : Claim → Prop}
    (new : ∀ c, N c → l.Meets w c word) :
    l.Stands id (Γ.add r N) filled w (m.write r.toByte word) := by
  refine h.store isSome fun cell c owed => ?_
  rw [Register.ofByte_toByte]
  by_cases here : cell = m.cell r
  · refine .inr ⟨here, ?_⟩
    cases cell with
    | closures address =>
      refine owes c (h.owes_of_owed reach ?_)
      rw [← here]
      exact owed
    | stack address =>
      obtain ⟨o, eq, claim | ⟨-, claim⟩⟩ := owed
      · refine owes c (h.owes_of_owed reach ?_)
        rw [← here]
        exact ⟨o, eq, claim⟩
      · exact new c claim
  · refine .inl ⟨?_, here⟩
    cases cell with
    | closures address => exact owed
    | stack address =>
      obtain ⟨o, eq, claim | ⟨⟨bank, offset⟩, -⟩⟩ := owed
      · exact ⟨o, eq, claim⟩
      · exact (here (by simp [Machine.cell, bank, offset, eq])).elim

/-- Straight-line code that sets a register and leaves the others that are not free alone. -/
theorem Stands.sets (h : l.Stands id Γ 64 w m) (beside : m.Beside n) {after : RegisterFile}
    (shows : n.Shows after) {watermark : Nat} {dst : Register} {word : Int32}
    (sets : RegisterFile.Sets watermark dst word m.file after)
    (within : ∀ o c, Γ o c → o < watermark) (reach : (tree.scope id).Reaches dst)
    (owes : ∀ c, (tree.scope id).Owes Γ dst c → l.Meets w c word) {N : Claim → Prop}
    (new : ∀ c, N c → l.Meets w c word) : l.Stands id (Γ.add dst N) 64 w n := by
  refine ⟨⟨fun cell c found owed read => ?_, ?_, ?_, ?_⟩, ?_⟩
  · have owed' := owed_congr beside.top beside.aux owed
    by_cases near : ∃ r : Register, r.Near ∧ m.cell r = cell
    · obtain ⟨r, near, rfl⟩ := near
      have value : found = after r := by
        rw [← shows r near, Machine.file, beside.cell r, read, Option.getD_some]
      by_cases eq : r = dst
      · subst eq
        rw [value, sets.same]
        rcases near with bank | bank
        · rw [show m.cell r = .stack (m.top + r.offset) by simp [Machine.cell, bank]] at owed'
          obtain ⟨o, place, claim | ⟨-, claim⟩⟩ := owed'
          · have offset : r.offset.val = o := by omega
            exact owes c (.inl ⟨bank, by rw [offset]; exact claim⟩)
          · exact new c claim
        · refine owes c (h.owes_of_owed reach ?_)
          rw [show m.cell r = .closures (m.closure * 64 + r.offset) by simp [Machine.cell, bank]]
            at owed' ⊢
          exact owed'
      · have before : Owed tree Γ 64 w m (m.cell r) c ∧ r.Below watermark := by
          rcases near with bank | bank
          · rw [show m.cell r = .stack (m.top + r.offset) by simp [Machine.cell, bank]] at owed' ⊢
            obtain ⟨o, place, claim | ⟨⟨bank', offset⟩, -⟩⟩ := owed'
            · have offset : r.offset.val = o := by omega
              exact ⟨⟨o, place, claim⟩, .inr ⟨bank, by rw [offset]; exact within o c claim⟩⟩
            · refine (eq ?_).elim
              obtain ⟨rb, ro⟩ := r
              obtain ⟨db, d⟩ := dst
              simp only at bank bank' offset place
              rw [bank, bank']
              congr 1
              omega
          · rw [show m.cell r = .closures (m.closure * 64 + r.offset) by simp [Machine.cell, bank]]
              at owed' ⊢
            exact ⟨owed', .inl bank⟩
        have isSome : (m.readCell? (m.cell r)).isSome := by
          rw [Machine.isSome_readCell?_congr m n, read]
          rfl
        obtain ⟨old, hold⟩ := Option.isSome_iff_exists.mp isSome
        have same : found = old := by
          rw [value, sets.other r before.2 eq, Machine.file, hold, Option.getD_some]
        rw [same]
        exact h.words _ c old before.1 hold
    · have same := beside.cells cell fun r hr eq => near ⟨r, hr, eq⟩
      rw [same] at read
      refine h.words cell c found ?_ read
      cases cell with
      | closures address => exact owed'
      | stack address =>
        obtain ⟨o, eq, claim | ⟨⟨bank, offset⟩, -⟩⟩ := owed'
        · exact ⟨o, eq, claim⟩
        · exact (near ⟨dst, .inl bank, by simp [Machine.cell, bank, offset, eq]⟩).elim
  · rw [beside.pool]
    exact h.order
  · rw [beside.pool]
    exact h.used
  · rw [beside.pool]
    exact h.bound
  · rw [beside.closure]
    exact h.closure

end Laid

end WindowedClosures
