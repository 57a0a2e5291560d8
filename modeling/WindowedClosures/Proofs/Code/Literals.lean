import WindowedClosures.Proofs.Code.Copying
import WindowedClosures.Proofs.Machine.Closures

/-!
# Function values are made whole

A function literal becomes a word with the address of its function. If it captures variables, a
closure is taken for it first and then filled, one captured register after the other. While the
closure is filled the functions in its front registers are in place, and behind the last captured
variable it holds all that its scope expects there.
-/

namespace WindowedClosures

namespace FunctionWord

theorem ofWord_word (closure : UInt8) (address : UInt16) :
    ofWord (word closure address) = ⟨address.toNat, closure⟩ := by
  have hc := closure.toNat_lt
  have ha := address.toNat_lt
  have bits : (word closure address).toUInt32.toNat = closure.toNat * 16777216 + address.toNat := by
    rw [word, UInt32.toUInt32_toInt32, UInt32.toNat_ofNat']
    omega
  rw [ofWord, bits]
  congr 1
  · omega
  · rw [show (closure.toNat * 16777216 + address.toNat) / 16777216 = closure.toNat by omega,
      UInt8.ofNat_toNat]

/-- The word of a function that captures nothing. -/
theorem address_ofWord_ofNat (address : UInt16) :
    (ofWord (Int32.ofNat address.toNat)).address = address.toNat := by
  have ha := address.toNat_lt
  have bits : (Int32.ofNat address.toNat).toUInt32.toNat = address.toNat := by
    rw [Int32.toUInt32_ofNat', UInt32.toNat_ofNat']
    omega
  rw [ofWord, bits]
  dsimp only
  omega

end FunctionWord

/-- Where a row of variables ends. -/
theorem InRow.end_le {vars : List Variable} {start : Nat} (h : InRow start vars) :
    ∀ v ∈ vars, v.offset + v.ty.size ≤ start + sizeOfAll vars := by
  induction vars generalizing start with
  | nil => simp
  | cons first rest ih =>
    intro v hv
    have place := h.1
    rw [sizeOfAll_cons]
    rcases List.mem_cons.mp hv with rfl | hv
    · omega
    · have later := ih h.2 v hv
      omega

/-- The destination is the register of the variable that is being set, if one is. -/
def Scope.Owns (s : Scope) (own : Option String) (dst : Register) (ty : Ty) : Prop :=
  ∀ n, own = some n → ∃ v, s.local? n = some v ∧ v.register = .ok dst ∧ v.ty = ty

theorem Scope.Knows.put_own {s : Scope} {names : List String} {watermark : Nat} {Γ : Claims}
    {own : Option String} {dst : Register} {ty : Ty} {room : Nat} (h : s.Knows names watermark Γ)
    (rowed : s.Rowed) (takes : s.Takes Γ watermark dst ty room) (owns : s.Owns own dst ty) :
    s.Knows (own.toList ++ names) watermark (Γ.put dst ty) := by
  cases own with
  | none => exact h.put takes
  | some n =>
    obtain ⟨v, known, hr, rfl⟩ := owns n rfl
    exact h.put_variable rowed known hr

namespace Laid

open Emit

variable {tree : ScopeTree} {program : Program} {l : Laid tree program} {id : Nat}
  {names : List String} {watermark : Nat} {Γ : Claims} {dst : Register} {ty : Ty} {room : Nat}
  {w : World} {m : Machine} {literal : FunctionLiteral}

/-- A function of the tree has a label. -/
theorem exists_label (l : Laid tree program) {number : Nat}
    (h : (tree.function? number).isSome) : ∃ label, program.labels.find? (·.id == number) = some label := by
  obtain ⟨f, hf⟩ := Option.isSome_iff_exists.mp h
  have mem := List.mem_of_find?_eq_some hf
  have number_eq : f.id = number := by simpa using List.find?_some hf
  have listed : (f.id, f.name) ∈ program.labels.map fun label => (label.id, label.name) := by
    rw [l.labels_eq, layBlocks_labels l.functions]
    exact List.mem_map_of_mem (List.mem_reverse.mpr mem)
  obtain ⟨label, hl, eq⟩ := List.mem_map.mp listed
  injection eq with same
  have found : (program.labels.find? (·.id == number)).isSome := by
    rw [List.find?_isSome]
    exact ⟨label, hl, by simp [same, number_eq]⟩
  exact Option.isSome_iff_exists.mp found

/-- The word of a literal is callable with the arrow of its scope. -/
theorem callable_of_label (l : Laid tree program)
    (scopes : ∀ f ∈ tree.functions, f.id = literal.id → f.scope = literal.scope) {label : Label}
    (found : program.labels.find? (·.id == literal.id) = some label) {word : Int32}
    (address : (FunctionWord.ofWord word).address = label.address.toNat)
    (closure : (tree.scope literal.scope).closure = [] ∨
      w (FunctionWord.ofWord word).closure.toNat = some literal.scope) :
    l.Callable w (tree.scope literal.scope).arrow.normalized word := by
  obtain ⟨f, entry, same⟩ := l.entry_of_label (List.mem_of_find?_eq_some found)
  have number : label.id = literal.id := by simpa using List.find?_some found
  have scope := scopes f entry.mem (same.trans number)
  rw [← scope] at closure ⊢
  exact ⟨f, label.address, entry, address, rfl, closure⟩

/-! ## Taking a closure -/

/-- The closure that is taken belongs to a scope from then on, and nothing in it counts yet. -/
theorem Stands.select (h : l.Stands id Γ 64 w m) (spare : m.pool.used < 255) (scope : Nat) :
    m.selecting.aux = m.pool.used + 1 ∧ m.pool.alloc.1.toNat = m.pool.used + 1 ∧
      w.Extends (Function.update w (m.pool.used + 1) (some scope)) ∧
      l.Stands id Γ 0 (Function.update w (m.pool.used + 1) (some scope)) m.selecting := by
  have handed : m.pool.Handed m.pool.used := ⟨h.order, by omega⟩
  obtain ⟨number, order, used⟩ := handed.alloc
  rw [ClosurePool.nth, if_pos spare] at number
  have extends_ : w.Extends (Function.update w (m.pool.used + 1) (some scope)) := by
    intro k other hk
    have bound := h.bound k other hk
    rwa [Function.update_of_ne (by omega)]
  refine ⟨number, number, extends_, ⟨⟨fun cell c word owed read => ?_, order, ?_, ?_⟩, ?_⟩⟩
  · have before : Owed tree Γ 64 w m cell c := by
      cases cell with
      | stack address => exact owed
      | closures address =>
        obtain ⟨k, o, other, a, eq, lt, world, free, encloses, rfl⟩ := owed
        have ne : k ≠ m.pool.used + 1 := fun same => absurd (free (same.trans number.symm)) (by omega)
        rw [Function.update_of_ne ne] at world
        exact ⟨k, o, other, a, eq, lt, world, fun _ => lt, encloses, rfl⟩
    have same : m.selecting.readCell? cell = m.readCell? cell := by cases cell <;> rfl
    rw [same] at read
    exact (h.words cell c word before read).extends extends_
  · show m.pool.alloc.2.used ≤ 255
    omega
  · intro k other hk
    show 0 < k ∧ k ≤ m.pool.alloc.2.used
    by_cases new : k = m.pool.used + 1
    · omega
    · rw [Function.update_of_ne new] at hk
      have bound := h.bound k other hk
      omega
  · exact h.closure.imp_right (extends_ _ _)

/-- The word of a literal is put into a place for it. -/
theorem Stands.put_literal {filled : Nat} (h : l.Stands id Γ filled w m)
    (knows : (tree.scope id).Knows names watermark Γ)
    (takes : (tree.scope id).Takes Γ watermark dst ty room) (pos : 0 < room) {arrow : Arrow}
    (calls : ∀ k a, ty.Calls k a → k = 0 ∧ a = arrow) {word : Int32}
    (callable : l.Callable w arrow word) (isSome : (m.read? dst.toByte).isSome) :
    l.Stands id (Γ.put dst ty) filled w (m.write dst.toByte word) := by
  refine (h.write isSome (takes.reaches (shift_zero dst)) (N := (· = .calls arrow)) ?_ ?_).mono ?_
  · intro c owes
    obtain ⟨a, rfl, here⟩ := takes.owes knows pos (shift_zero dst) owes
    rw [(calls 0 a here).2]
    exact callable
  · rintro c rfl
    exact callable
  · rintro o c (old | ⟨bank, k, a, place, here, rfl⟩)
    · exact .inl old
    · obtain ⟨rfl, rfl⟩ := calls k a here
      exact .inr ⟨⟨bank, place.symm⟩, rfl⟩

/-- A closure of a scope is being filled, and its first so many registers are in place. -/
def Filling (l : Laid tree program) (id scope : Nat) (Γ : Claims) (filled : Nat) : Assertion :=
  fun w m => l.Stands id Γ filled w m ∧ w m.aux = some scope ∧
    ((tree.scope id).closure ≠ [] → m.closure ≠ m.aux)

/-- The word of a literal goes to its destination with a closure that is still to be filled. -/
theorem carries_make (knows : (tree.scope id).Knows names watermark Γ)
    (takes : (tree.scope id).Takes Γ watermark dst ty room) (pos : 0 < room)
    (scopes : ∀ f ∈ tree.functions, f.id = literal.id → f.scope = literal.scope)
    (exists_ : (tree.function? literal.id).isSome)
    (arrow : ∀ k a, ty.Calls k a → k = 0 ∧ a = (tree.scope literal.scope).arrow.normalized) :
    l.Carries (l.Stands id Γ 64) ⟨.wide .closureMake dst 0, some literal.id, none⟩
      (l.Filling id literal.scope (Γ.put dst ty) 0) := by
  obtain ⟨label, found⟩ := l.exists_label exists_
  refine .make { Instruction.wide .closureMake dst 0 with yz := label.address }
    (by simp only [link, found]) rfl fun w m stands spare isSome => ?_
  obtain ⟨aux, number, le, selected⟩ := stands.select spare literal.scope
  have callable : l.Callable (Function.update w (m.pool.used + 1) (some literal.scope))
      (tree.scope literal.scope).arrow.normalized
      (FunctionWord.word m.pool.alloc.1 label.address) := by
    refine l.callable_of_label scopes found (by rw [FunctionWord.ofWord_word]) (.inr ?_)
    rw [FunctionWord.ofWord_word, number, Function.update_self]
  refine ⟨_, le, ⟨?_, ?_, ?_⟩⟩
  · exact selected.put_literal knows takes pos arrow callable isSome
  · show Function.update w (m.pool.used + 1) _ (m.selecting.write _ _).aux = _
    rw [Machine.write, Machine.writeCell_aux, aux, Function.update_self]
  · intro captures
    have own := stands.closure.resolve_left captures
    have bound := stands.bound _ _ own
    show (m.selecting.write _ _).closure ≠ (m.selecting.write _ _).aux
    rw [Machine.write_closure, Machine.write, Machine.writeCell_aux, aux]
    show m.closure ≠ m.pool.used + 1
    omega

/-! ## Filling it -/

/-- One more register of the closure gets its word. -/
theorem carries_fill {scope filled : Nat} {slot origin : Register} (bank : slot.bank = .aux)
    (offset : slot.offset.val = filled)
    (source : ∀ a, (tree.scope scope).Encloses filled a →
      (tree.scope id).Owes Γ origin (.calls a)) :
    l.Carries (l.Filling id scope Γ filled) ⟨.triple .move slot origin .first, none, none⟩
      (l.Filling id scope Γ (filled + 1)) := by
  refine .data _ rfl rfl fun w m word holds result isSome => ?_
  obtain ⟨stands, world, other⟩ := holds
  have read : m.readCell? (m.cell origin) = some word := by
    have found := result_move result
    rwa [Machine.read?, Register.ofByte_toByte] at found
  rw [Instruction.x_triple] at isSome ⊢
  have bound := slot.offset.isLt
  have target : m.cell slot = .closures (m.aux * 64 + filled) := by
    simp [Machine.cell, bank, offset]
  refine ⟨stands.store isSome fun cell c owed => ?_, ?_, ?_⟩
  · rw [Register.ofByte_toByte, target]
    cases cell with
    | stack address => exact .inl ⟨owed, by simp⟩
    | closures address =>
      obtain ⟨k, o, other', a, eq, lt, known, free, encloses, rfl⟩ := owed
      by_cases here : k = m.aux ∧ o = filled
      · obtain ⟨rfl, rfl⟩ := here
        rw [world] at known
        cases known
        exact .inr ⟨by rw [eq], stands.meets (source a encloses) (.inr other) read⟩
      · refine .inl ⟨⟨k, o, other', a, eq, lt, known, fun same => ?_, encloses, rfl⟩, ?_⟩
        · have small := free same
          have ne : o ≠ filled := fun last => here ⟨same, last⟩
          omega
        · intro same
          injection same with same
          exact here ⟨by omega, by omega⟩
  · rw [Machine.write, Machine.writeCell_aux]
    exact world
  · rw [Machine.write_closure, Machine.write, Machine.writeCell_aux]
    exact other

theorem turns_fillFrom {scope : Nat} {slot origin : Register} (bank : slot.bank = .aux)
    (count start : Nat)
    (source : ∀ k, start ≤ k → k < start + count → ∀ a,
      (tree.scope scope).Encloses (slot.offset + k) a → ∀ r, origin.shift k = .ok r →
        (tree.scope id).Owes Γ r (.calls a)) :
    l.Turns (copyFrom slot origin start count) watermark
      (l.Filling id scope Γ (slot.offset + start))
      (l.Filling id scope Γ (slot.offset + (start + count))) := by
  induction count generalizing start with
  | zero => exact Hands.turns (hands_pure fun _ _ holds => holds)
  | succ count ih =>
    refine Hands.turns (hands_bind (hands_register fun r hr => ?_))
    refine hands_bind (hands_register fun s hs => ?_)
    obtain ⟨same, offset⟩ := Register.shift_ok hr
    refine hands_bind (hands_push (carries_fill (same.trans bank) offset fun a encloses =>
      source start (Nat.le_refl _) (by omega) a encloses s hs) ?_)
    have rest := ih (start + 1) fun k low high => source k (by omega) (by omega)
    rw [show start + 1 + count = start + (count + 1) by omega] at rest
    exact rest.last

/-- The captured variables of a literal are at hand where it is made, and those that hold functions
are set. -/
structure Captured (s inner : Scope) (names : List String) : Prop where
  known : ∀ v ∈ inner.closure, ∃ u, s.local? v.name = some u ∧ u.ty = v.ty
  isSet : ∀ v ∈ inner.closure, v.ty.hasFunctions = true → v.name ∈ names

/-- A captured variable is copied behind those before it. -/
theorem turns_capture (rowed : (tree.scope id).Rowed) (rowed' : (tree.scope literal.scope).Rowed)
    (knows : (tree.scope id).Knows names watermark Γ)
    (captured : Captured (tree.scope id) (tree.scope literal.scope) names) (span : Span)
    {v : Variable} (hv : v ∈ (tree.scope literal.scope).closure) (mark : Nat) :
    l.Turns (capture ⟨tree, id⟩ span v) mark (l.Filling id literal.scope Γ v.offset)
      (l.Filling id literal.scope Γ (v.offset + v.ty.size)) := by
  refine Hands.turns (hands_bind (hands_lift fun u hu => hands_bind (hands_register fun origin ho => ?_)))
  refine hands_bind (hands_register fun slot hs => ?_)
  obtain ⟨bank, offset⟩ := Register.ofOffset_ok hs
  obtain ⟨bank', offset'⟩ := Register.ofOffset_ok ho
  have local_ : (tree.scope id).local? v.name = some u := Site.lookup_eq_ok_iff.mp hu
  obtain ⟨u', known, same⟩ := captured.known v hv
  rw [local_] at known
  cases known
  have source (k : Nat) (lt : k < v.ty.size) (a : Arrow)
      (encloses : (tree.scope literal.scope).Encloses (slot.offset + k) a) (r : Register)
      (hr : origin.shift k = .ok r) : (tree.scope id).Owes Γ r (.calls a) := by
    rw [offset] at encloses
    have calls := rowed'.calls_captured hv lt encloses
    obtain ⟨bank'', offset''⟩ := Register.shift_ok hr
    refine knows.owes rowed local_ (captured.isSet v hv calls.hasFunctions) (bank''.trans bank') ?_
      (same ▸ calls)
    omega
  have filled : l.Turns (copyFrom slot origin 0 v.ty.size) mark _ _ :=
    turns_fillFrom bank v.ty.size 0 fun k _ lt => source k (by omega)
  rw [offset, Nat.add_zero, Nat.zero_add] at filled
  exact filled.last

theorem turns_captures (rowed : (tree.scope id).Rowed) (rowed' : (tree.scope literal.scope).Rowed)
    (knows : (tree.scope id).Knows names watermark Γ)
    (captured : Captured (tree.scope id) (tree.scope literal.scope) names) (span : Span)
    {vars : List Variable} {start : Nat} (row : InRow start vars)
    (sub : ∀ v ∈ vars, v ∈ (tree.scope literal.scope).closure) (mark : Nat) :
    l.Turns (vars.forM (capture ⟨tree, id⟩ span)) mark (l.Filling id literal.scope Γ start)
      (l.Filling id literal.scope Γ (start + sizeOfAll vars)) := by
  induction vars generalizing start mark with
  | nil => exact Hands.turns (hands_pure fun _ _ holds => holds)
  | cons v rest ih =>
    obtain ⟨place, row⟩ := row
    have first := turns_capture (l := l) rowed rowed' knows captured span (sub v (by simp)) mark
    rw [place] at first
    refine Hands.turns (hands_bind (first.next fun mark' => ?_))
    have behind := ih row (fun u hu => sub u (List.mem_cons_of_mem v hu)) mark'
    rw [Nat.add_assoc, ← sizeOfAll_cons] at behind
    exact behind.last

/-- A closure that holds all captured variables is like any other. -/
theorem Filling.done {w : World} {m : Machine} (rowed : (tree.scope literal.scope).Rowed)
    (h : l.Filling id literal.scope Γ (sizeOfAll (tree.scope literal.scope).closure) w m) :
    l.Stands id Γ 64 w m := by
  obtain ⟨stands, world, -⟩ := h
  refine ⟨⟨fun cell c word owed => stands.words cell c word ?_, stands.order, stands.used,
    stands.bound⟩, stands.closure⟩
  cases cell with
  | stack address => exact owed
  | closures address =>
    obtain ⟨k, o, scope, a, eq, lt, known, -, encloses, rfl⟩ := owed
    refine ⟨k, o, scope, a, eq, lt, known, fun same => ?_, encloses, rfl⟩
    rw [same, world] at known
    cases known
    obtain ⟨v, hv, j, rfl, calls⟩ := encloses
    have inside := rowed.closure_row.end_le v hv
    have bound := calls.lt_size
    omega

/-! ## Literals -/

/-- The functions of a place for a literal: none, or one with the arrow of the literal. -/
theorem admitsLiteral_ok {s : Site} {set : List String} (h : s.admitsLiteral set literal ty room = true)
    (fits : ty.size ≤ room) : 0 < room ∧ (∀ k a, ty.Calls k a →
        k = 0 ∧ a = (s.tree.scope literal.scope).arrow.normalized) ∧
      ∀ v ∈ (s.tree.scope literal.scope).closure, v.ty.hasFunctions = true → v.name ∈ set := by
  rw [Site.admitsLiteral, Bool.and_eq_true, Bool.or_eq_true, List.all_eq_true] at h
  obtain ⟨all, place⟩ := h
  have captured (v : Variable) (hv : v ∈ (s.tree.scope literal.scope).closure)
      (functions : v.ty.hasFunctions = true) : v.name ∈ set := by
    simpa [functions] using all v hv
  rcases place with number | arrow
  · obtain ⟨plain, pos⟩ := Ty.takesNumber_iff.mp number
    exact ⟨pos, fun k a calls => (Ty.plain_of_hasFunctions plain k a calls).elim, captured⟩
  · rw [decide_eq_true_iff, Option.map_eq_some_iff] at arrow
    obtain ⟨found, ha, same⟩ := arrow
    obtain ⟨size, calls⟩ := Ty.calls_of_arrow? ha
    refine ⟨by omega, fun k a hc => ?_, captured⟩
    rw [← same]
    exact (calls k a).mp hc

/-- The address alone is the word of a literal that captures nothing. -/
theorem carries_load (knows : (tree.scope id).Knows names watermark Γ)
    (takes : (tree.scope id).Takes Γ watermark dst ty room) (pos : 0 < room)
    (scopes : ∀ f ∈ tree.functions, f.id = literal.id → f.scope = literal.scope)
    (exists_ : (tree.function? literal.id).isSome) (bare : (tree.scope literal.scope).closure = [])
    (arrow : ∀ k a, ty.Calls k a → k = 0 ∧ a = (tree.scope literal.scope).arrow.normalized) :
    l.Carries (l.Stands id Γ 64) ⟨.wide .loadLow dst 0, some literal.id, none⟩
      (l.Stands id (Γ.put dst ty) 64) := by
  obtain ⟨label, found⟩ := l.exists_label exists_
  refine .data { Instruction.wide .loadLow dst 0 with yz := label.address }
    (by simp only [link, found]) rfl fun w m word stands result isSome => ?_
  cases result
  have callable : l.Callable w (tree.scope literal.scope).arrow.normalized
      (Int32.ofNat label.address.toNat) :=
    l.callable_of_label scopes found (FunctionWord.address_ofWord_ofNat _) (.inl bare)
  exact stands.put_literal knows takes pos arrow callable isSome

theorem turns_function (resolved : tree.Resolved) (lt : id < tree.count)
    (knows : (tree.scope id).Knows names watermark Γ)
    (takes : (tree.scope id).Takes Γ watermark dst ty room) {own : Option String}
    (owns : (tree.scope id).Owns own dst ty)
    (admits : Site.admitsLiteral ⟨tree, id⟩ (own.toList ++ names) literal ty room = true)
    (mem : literal ∈ literalsOf (tree.scope id).body) (span : Span) :
    l.Turns (function ⟨tree, id⟩ literal span dst) watermark (l.Stands id Γ 64)
      (l.Stands id (Γ.put dst ty) 64) := by
  obtain ⟨pos, arrow, isSet⟩ := admitsLiteral_ok admits takes.fits
  obtain ⟨scopes, known⟩ := ScopeTree.literal_of_resolved resolved lt mem
  have rowed := ScopeTree.rowed_of_resolved resolved id
  have rowed' := ScopeTree.rowed_of_resolved resolved literal.scope
  unfold function
  split
  · exact Hands.turns (hands_fail _)
  · rename_i some
    have exists_ : (tree.function? literal.id).isSome :=
      Option.isSome_iff_ne_none.mpr (by simpa using some)
    dsimp only
    split
    · rename_i empty
      refine Hands.turns (hands_pushFor (carries_load knows takes pos scopes exists_ ?_ arrow) ?_)
      · simpa using empty
      · exact fun _ _ stands => stands
    · refine Hands.turns (hands_bind (hands_pushFor
        (carries_make knows takes pos scopes exists_ arrow) ?_))
      have filled := turns_captures (l := l) rowed rowed' (knows.put_own rowed takes owns)
        ⟨known, isSet⟩ span rowed'.closure_row (fun v hv => hv) watermark
      rw [Nat.zero_add] at filled
      exact (filled.mono (fun _ _ holds => holds) fun _ _ holds => Filling.done rowed' holds).last

end Laid

end WindowedClosures
