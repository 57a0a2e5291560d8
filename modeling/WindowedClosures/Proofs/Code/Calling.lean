import WindowedClosures.Proofs.Code.Literals

/-!
# Calls keep contracts

A call relies on what is known of the function word and of its argument, and when the callee
returns, what was known of the registers below the frame is still known, and the output is a value
of its type. A choice between two functions computes one of the two words from both.
-/

namespace WindowedClosures

namespace Laid

open Emit
open RegisterFile (Sets)

variable {tree : ScopeTree} {program : Program} {l : Laid tree program} {id : Nat}
  {names : List String} {watermark : Nat} {Γ : Claims} {dst : Register} {ty : Ty} {room : Nat}

/-- A lowering that puts a value of a type into any place for it. -/
def Supplies (l : Laid tree program) (id : Nat) (names : List String) (ty : Ty) (room : Nat)
    (lowered : Lowering) : Prop :=
  ∀ watermark Γ dst, (tree.scope id).Knows names watermark Γ →
    (tree.scope id).Takes Γ watermark dst ty room →
    l.Turns (lowered dst ty) watermark (l.Stands id Γ 64) (l.Stands id (Γ.put dst ty) 64)

/-! ## Returning -/

/-- A callee leaves what is known below its frame, and its output is a value of its type. -/
theorem Stands.returned {w w' : World} {m m' : Machine} {frame : Nat} {arrow : Arrow}
    (h : l.Stands id Γ 64 w m) (within : ∀ o c, Γ o c → o < frame)
    (ret : l.Returned frame arrow w m w' m') :
    l.Stands id (fun o c => Γ o c ∨ arrow.output.claims frame o c) 64 w' m' := by
  refine ⟨⟨fun cell c word owed read => ?_, ret.sound.order, ret.sound.used, ret.sound.bound⟩, ?_⟩
  · cases cell with
    | closures address => exact ret.sound.words (.closures address) c word owed read
    | stack address =>
      obtain ⟨o, rfl, old | new⟩ := owed
      · have lt := within o c old
        rw [Machine.readCell?, ret.top, ret.agrees _ (by omega)] at read
        exact (h.words (.stack (m.top + o)) c word ⟨o, rfl, old⟩ read).extends ret.le
      · exact ret.sound.words (.stack (m'.top + o)) c word ⟨o, rfl, new⟩ read
  · rw [ret.closure]
    exact h.closure.imp_right (ret.le _ _)

/-! ## Calling -/

/-- The argument lies behind the output of the callee. -/
theorem hands_placeArgument {argument : Option Lowering} {start : Nat}
    (knows : (tree.scope id).Knows names watermark Γ) (le : watermark ≤ start)
    (supplies : ∀ lowered, argument = some lowered → l.Supplies id names ty ty.size lowered)
    (plain : argument = none → ∀ k a, ¬ ty.Calls k a) :
    l.Hands (placeArgument argument start ty) (start + ty.size) (l.Stands id Γ 64)
      fun _ mark R => mark = start + ty.size ∧ ∃ Γ',
        (tree.scope id).Grows names watermark Γ (start + ty.size) Γ' ∧
          (∀ o c, ty.claims start o c → Γ' o c) ∧ R = l.Stands id Γ' 64 := by
  cases argument with
  | none =>
    refine hands_pure ⟨rfl, Γ, knows.grows (by omega), ?_, rfl⟩
    rintro o c ⟨k, a, -, calls, -⟩
    exact (plain rfl k a calls).elim
  | some lowered =>
    refine hands_bind (hands_register fun r hr => ?_)
    obtain ⟨bank, offset⟩ := Register.ofOffset_ok hr
    have takes : (tree.scope id).Takes Γ (start + ty.size) r ty ty.size :=
      knows.takes (by omega) bank (by omega) (Nat.le_refl _)
    refine (supplies lowered rfl _ Γ r (knows.mono (by omega)) takes).releasing ⟨rfl, _, ?_, ?_, rfl⟩
    · exact knows.grows_put (by omega) bank (by omega) (Nat.le_refl _)
    · intro o c claim
      rw [← offset] at claim
      exact .inr ⟨bank, claim⟩

/-- The instruction of a call names its frame and its function. -/
theorem callRegister_fields {frame : Nat} (small : frame ≤ 64) (function : Register) :
    (Instruction.mk .callRegister (UInt8.ofNat frame)
        (UInt16.ofNat function.toByte.toNat)).x.toNat = frame ∧
      (Instruction.mk .callRegister (UInt8.ofNat frame)
        (UInt16.ofNat function.toByte.toNat)).y = function.toByte := by
  have lt := function.toByte.toNat_lt
  refine ⟨?_, ?_⟩
  · rw [UInt8.toNat_ofNat']
    omega
  · rw [Instruction.y, UInt16.toNat_ofNat', Nat.mod_eq_of_lt (by omega), Nat.mod_eq_of_lt (by omega),
      UInt8.ofNat_toNat]

/-- The instruction of a call, from a known function word and a known argument to a known output. -/
theorem carries_call {frame : Nat} {function : Register} {arrow : Arrow} {Γ' : Claims}
    (small : frame ≤ 64) (knows : (tree.scope id).Knows names frame Γ)
    (old : ∀ o c, Γ o c → Γ' o c) (callable : (tree.scope id).Owes Γ function (.calls arrow.normalized))
    (argument : ∀ o c, arrow.input.claims (frame + arrow.output.size) o c → Γ' o c) :
    l.Carries (l.Stands id Γ' 64)
      ⟨⟨.callRegister, UInt8.ofNat frame, UInt16.ofNat function.toByte.toNat⟩, none, some arrow⟩
      (l.Stands id (fun o c => Γ o c ∨ arrow.output.claims frame o c) 64) := by
  obtain ⟨x, y⟩ := callRegister_fields small function
  refine .call _ rfl rfl arrow rfl fun w m word stands read => ⟨?_, ?_, ?_⟩
  · rw [y, Machine.read?, Register.ofByte_toByte] at read
    exact stands.meets (callable.mono old) (.inl rfl) read
  · rw [x]
    exact stands.toSound.mono argument
  · intro w' m' returned
    rw [x] at returned
    exact (stands.mono old).returned knows.within returned

theorem turns_invoke {function : Register} {arrow : Arrow} {argument : Option Lowering}
    (knows : (tree.scope id).Knows names watermark Γ)
    (takes : (tree.scope id).Takes Γ watermark dst ty room)
    (callable : (tree.scope id).Owes Γ function (.calls arrow.normalized))
    (supplies : ∀ lowered, argument = some lowered →
      l.Supplies id names arrow.input arrow.input.size lowered)
    (plain : argument = none → ∀ k a, ¬ arrow.input.Calls k a) (span : Span) :
    l.Turns (invoke dst function arrow argument ty span) watermark (l.Stands id Γ 64)
      (l.Stands id (Γ.put dst ty) 64) := by
  unfold invoke
  split
  · exact Hands.turns (hands_fail _)
  · rename_i suits
    refine Hands.turns (hands_bind (hands_alloc fun small => hands_bind (hands_alloc fun _ => ?_)))
    refine hands_bind ((hands_placeArgument knows (Nat.le_add_right _ _) supplies plain).mono
      (fun _ _ h => h) ?_)
    rintro _ mark R ⟨rfl, Γ', grows, placed, rfl⟩
    refine hands_bind (hands_pushCall (carries_call (by omega) knows grows.old callable placed) ?_)
    refine hands_bind (hands_register fun out ho => ?_)
    obtain ⟨bank, offset⟩ := Register.ofOffset_ok ho
    have fits : out.offset + arrow.output.size ≤
        watermark + arrow.output.size + arrow.input.size := by omega
    have later := knows.grows_put (by omega) bank fits (Nat.le_refl _)
    have source (k : Nat) (a : Arrow) (calls : ty.Calls k a) : k < arrow.output.size ∧
        ∀ r, out.shift k = .ok r → (tree.scope id).Owes (Γ.put out arrow.output) r (.calls a) := by
      have matches_ : arrow.output.Matches ty := by
        have solid : ty.isVoid = false := by
          by_contra void
          exact (Ty.calls_of_isVoid (by simpa using void)).2 k a calls
        simpa [solid] using suits
      have calls' := (matches_.calls_iff k a).mpr calls
      refine ⟨calls'.lt_size, fun r hr => ?_⟩
      obtain ⟨bank', offset'⟩ := Register.shift_ok hr
      exact .inl ⟨bank'.trans bank, .inr ⟨bank, k, a, offset', calls', rfl⟩⟩
    refine ((turns_copy later.knows (takes.grows later) source).mono (fun _ _ stands => ?_)
      fun _ _ stands => ?_).last
    · refine stands.mono ?_
      rintro o c (old | ⟨-, claim⟩)
      · exact .inl old
      · rw [offset] at claim
        exact .inr claim
    · refine stands.mono ?_
      rintro o c (old | new)
      · exact .inl (.inl old)
      · exact .inr new

theorem turns_print {lowered : Lowering} (knows : (tree.scope id).Knows names watermark Γ)
    (supplies : l.Supplies id names printBuffer printBuffer.size lowered) :
    l.Turns (print lowered) watermark (l.Stands id Γ 64) (l.Stands id Γ 64) := by
  refine Hands.turns (hands_bind (hands_alloc fun _ => hands_bind (hands_register fun buffer hb => ?_)))
  obtain ⟨bank, offset⟩ := Register.ofOffset_ok hb
  have grows := knows.grows (Nat.le_add_right watermark printBuffer.size)
  refine hands_bind ((supplies _ Γ buffer grows.knows
    (knows.takes (by omega) bank (by omega) (Nat.le_refl _))).releasing ?_)
  refine hands_push (.print _ rfl rfl fun _ _ stands => stands) fun _ _ stands => ?_
  exact stands.mono fun _ _ claim => .inl claim

/-- A scratch register for a function word. -/
theorem function_at (knows : (tree.scope id).Knows names watermark Γ) {t : Register}
    (at_t : t.At watermark) (arrow : Arrow) :
    (tree.scope id).Grows names watermark Γ (watermark + 1) (Γ.put t arrow.toTy) ∧
      (tree.scope id).Takes Γ (watermark + 1) t arrow.toTy 1 ∧
      (tree.scope id).Owes (Γ.put t arrow.toTy) t (.calls arrow.normalized) := by
  have place := at_t.2
  have calls := (Ty.calls_of_arrow? (Ty.arrow?_toTy arrow)).2
  refine ⟨knows.grows_put (by omega) at_t.1 (by omega) (Nat.le_refl 1),
    knows.takes (by omega) at_t.1 (by omega) (Nat.le_refl 1), .inl ⟨at_t.1, .inr ?_⟩⟩
  exact ⟨at_t.1, 0, _, rfl, (calls 0 _).mpr ⟨rfl, rfl⟩, rfl⟩

/-- A call of a variable, of the built-in function or of another function value. -/
theorem turns_call (rowed : (tree.scope id).Rowed) {callee : Expr} {lowerCallee lowerArgument : Lowering}
    (knows : (tree.scope id).Knows names watermark Γ)
    (takes : (tree.scope id).Takes Γ watermark dst ty room)
    (variable_ : ∀ n v arrow, callee.unwrapped.asName? = some n →
      (tree.scope id).local? n = some v → v.ty.arrow? = some arrow →
        n ∈ names ∧ l.Supplies id names arrow.input arrow.input.size lowerArgument)
    (builtin : ∀ n, callee.unwrapped.asName? = some n → (tree.scope id).local? n = none →
      l.Supplies id names printBuffer printBuffer.size lowerArgument ∧ ∀ k a, ¬ ty.Calls k a)
    (value : ∀ arrow, callee.unwrapped.asName? = none →
      tree.arrowOf id callee.unwrapped = .ok arrow → l.Supplies id names arrow.toTy 1 lowerCallee ∧
        l.Supplies id names arrow.input arrow.input.size lowerArgument) (span : Span) :
    l.Turns (call ⟨tree, id⟩ callee lowerCallee lowerArgument span dst ty) watermark
      (l.Stands id Γ 64) (l.Stands id (Γ.put dst ty) 64) := by
  unfold call
  dsimp only
  split
  · rename_i n name
    cases known : (tree.scope id).local? n with
    | some v =>
      rw [show Site.scope ⟨tree, id⟩ = tree.scope id from rfl, known]
      dsimp only
      split
      · rename_i arrow ha
        obtain ⟨isSet, supplies⟩ := variable_ n v arrow name known ha
        refine Hands.turns (hands_bind (hands_register fun r hr => ?_))
        obtain ⟨bank, offset⟩ := Register.ofOffset_ok hr
        have calls := ((Ty.calls_of_arrow? ha).2 0 arrow.normalized).mpr ⟨rfl, rfl⟩
        have owes := knows.owes rowed known isSet bank (by rw [offset, Nat.add_zero]) calls
        refine (turns_invoke knows takes owes ?_ (by simp) span).last
        intro lowered eq
        cases eq
        exact supplies
      · exact Hands.turns (hands_fail _)
    | none =>
      rw [show Site.scope ⟨tree, id⟩ = tree.scope id from rfl, known]
      dsimp only
      split
      · obtain ⟨supplies, plain⟩ := builtin n name known
        refine (turns_print knows supplies).mono (fun _ _ stands => stands) fun _ _ stands => ?_
        exact stands.mono fun _ _ claim => Claims.put_plain plain claim
      · exact Hands.turns (hands_fail _)
  · rename_i name
    cases found : tree.arrowOf id callee.unwrapped with
    | error e => exact Hands.turns (hands_fail _)
    | ok arrow =>
      obtain ⟨supplies, argument⟩ := value arrow name found
      refine Hands.turns (hands_bind (hands_temp fun t at_t => hands_bind ?_))
      obtain ⟨grows, takes', owes⟩ := function_at knows at_t arrow
      refine (supplies _ Γ t (knows.mono (Nat.le_succ _)) takes').releasing ?_
      refine ((turns_invoke grows.knows (takes.grows grows) owes ?_ (by simp) span).mono
        (fun _ _ stands => stands) fun _ _ stands => stands.mono ?_).last
      · intro lowered eq
        cases eq
        exact argument
      · rintro o c (old | new)
        · exact .inl (.inl old)
        · exact .inr new

/-- Setting a variable. -/
theorem hands_assign (rowed : (tree.scope id).Rowed) {target : Expr} {lowered : Lowering}
    (knows : (tree.scope id).Knows names watermark Γ)
    (sets : ∀ n v r, target.asName? = some n → (tree.scope id).local? n = some v →
      v.register = .ok r → l.Turns (lowered r v.ty) watermark (l.Stands id Γ 64)
        (l.Stands id (Γ.put r v.ty) 64)) :
    l.Hands (assign ⟨tree, id⟩ target lowered) watermark (l.Stands id Γ 64) fun v mark R =>
      mark = watermark ∧ ∃ n r, target.asName? = some n ∧ (tree.scope id).local? n = some v ∧
        v.register = .ok r ∧ (tree.scope id).Knows (n :: names) watermark (Γ.put r v.ty) ∧
        R = l.Stands id (Γ.put r v.ty) 64 := by
  unfold assign
  split
  · exact hands_fail _
  · rename_i n name
    refine hands_bind (hands_lift fun v hv => hands_bind (hands_register fun r hr => hands_bind ?_))
    have known := Site.lookup_eq_ok_iff.mp hv
    refine (sets n v r name known hr).releasing (hands_pure ⟨rfl, n, r, name, known, hr, ?_, rfl⟩)
    exact knows.put_variable rowed known hr

/-! ## Choosing -/

/-- A register holds a word computed from the registers of a machine of which something is known, and
all others below the watermark are as they were. The registers that were read are there. -/
def Computed (l : Laid tree program) (id : Nat) (Γ : Claims) (watermark : Nat) (t : Register)
    (used : List Register) (word : RegisterFile → Int32) : Assertion :=
  fun w n => ∃ m after, l.Stands id Γ 64 w m ∧ m.Beside n ∧ n.Shows after ∧
    Sets watermark t (word m.file) m.file after ∧ ∀ r ∈ used, (m.readCell? (m.cell r)).isSome

theorem computed_of_stands {t : Register} {w : World} {n : Machine} (h : l.Stands id Γ 64 w n) :
    l.Computed id Γ watermark t [] (· t) w n :=
  ⟨n, n.file, h, .refl n, fun _ _ => rfl, ⟨rfl, fun _ _ _ => rfl⟩, by simp⟩

/-- An operation that has a word has read both operands. -/
theorem result_operands {op : Operation} {f : Int32 → Int32 → Int32} {x y z : Register}
    {read : UInt8 → Option Int32} {word : Int32} (value : ∀ a b, alu? op a b = some (f a b))
    (combines : ∀ i : Instruction, i.op = op → i.result read = i.combine read)
    (h : (Instruction.triple op x y z).result read = .ok word) :
    ∃ a b, read y.toByte = some a ∧ read z.toByte = some b ∧ word = f a b := by
  rw [combines _ rfl, Instruction.combine, Instruction.y_triple, Instruction.z_triple] at h
  split at h
  · rename_i a b ha hb
    rw [show (Instruction.triple op x y z).op = op from rfl, value a b] at h
    cases h
    exact ⟨a, b, ha, hb, rfl⟩
  · cases h

/-- One more operation on the word. -/
theorem carries_computed {op : Operation} {f : Int32 → Int32 → Int32} {t b : Register}
    {used : List Register} {word : RegisterFile → Int32} (value : ∀ x y, alu? op x y = some (f x y))
    (data : op.isData = true)
    (combines : ∀ (i : Instruction) read, i.op = op → i.result read = i.combine read)
    (at_t : t.Below watermark) (at_b : b.Below watermark) (ne : b ≠ t) :
    l.Carries (l.Computed id Γ watermark t used word) ⟨.triple op t t b, none, none⟩
      (l.Computed id Γ watermark t (t :: b :: used) fun file => f (word file) (file b)) := by
  refine .data _ rfl data fun w n found holds result isSome => ?_
  obtain ⟨m, after, stands, beside, shows_, sets, there⟩ := holds
  obtain ⟨x, y, hx, hy, rfl⟩ := result_operands value (fun i => combines i n.read?) result
  rw [Machine.read?, Register.ofByte_toByte] at hx hy
  have first : x = word m.file := by
    rw [← sets.same, ← shows_ t at_t.near, Machine.file, hx, Option.getD_some]
  have second : y = m.file b := by
    rw [← sets.other b at_b ne, ← shows_ b at_b.near, Machine.file, hy, Option.getD_some]
  rw [Instruction.x_triple] at isSome ⊢
  have near : (Register.ofByte t.toByte).Near := by
    rw [Register.ofByte_toByte]
    exact at_t.near
  have shown := shows_.write near isSome (f x y)
  rw [Register.ofByte_toByte] at shown
  refine ⟨m, _, stands, beside.trans (n.beside_write near _), shown, ⟨?_, fun r below other => ?_⟩, ?_⟩
  · rw [Function.update_self, first, second]
  · rw [Function.update_of_ne other, sets.other r below other]
  · have kept {r : Register} {word : Int32} (hr : n.readCell? (n.cell r) = some word) :
        (m.readCell? (m.cell r)).isSome := by
      rw [← beside.cell r, Machine.isSome_readCell?_congr m n, hr]
      rfl
    intro r hr
    rcases List.mem_cons.mp hr with rfl | hr
    · exact kept hx
    · rcases List.mem_cons.mp hr with rfl | hr
      · exact kept hy
      · exact there r hr

/-- The word computed from two functions and a truth value is one of the two. -/
theorem stands_of_computed {a : Arrow} {c t e : Register} {used : List Register}
    (knows : (tree.scope id).Knows names watermark Γ) (window : t.bank = .window)
    (only : ∀ claim, (tree.scope id).Owes Γ t claim → claim = .calls a)
    (yes : (tree.scope id).Owes Γ t (.calls a)) (no : (tree.scope id).Owes Γ e (.calls a))
    (bit : (tree.scope id).Owes Γ c .bit) (read : t ∈ used ∧ e ∈ used) {w : World} {n : Machine}
    (h : l.Computed id Γ watermark t used (fun file => (file t - file e) * file c + file e) w n) :
    l.Stands id Γ 64 w n := by
  obtain ⟨m, after, stands, beside, shows_, sets, there⟩ := h
  have meets {r : Register} (known : (tree.scope id).Owes Γ r (.calls a))
      (isSome : (m.readCell? (m.cell r)).isSome) : l.Meets w (.calls a) (m.file r) := by
    obtain ⟨word, hw⟩ := Option.isSome_iff_exists.mp isSome
    rw [Machine.file, hw]
    exact stands.meets known (.inl rfl) hw
  have chosen : l.Meets w (.calls a) ((m.file t - m.file e) * m.file c + m.file e) := by
    obtain ⟨b, hb⟩ := stands.truthWord bit
    rw [hb]
    cases b with
    | false =>
      rw [show (m.file t - m.file e) * truthWord false + m.file e = m.file e by simp [truthWord]]
      exact meets no (there e read.2)
    | true =>
      rw [show (m.file t - m.file e) * truthWord true + m.file e = m.file t by simp [truthWord]]
      exact meets yes (there t read.1)
  refine (stands.sets beside shows_ sets knows.within (.inl window) (N := fun _ => False) ?_ ?_).mono
    fun _ _ claim => .inl claim
  · intro claim owes
    rw [only claim owes]
    exact chosen
  · exact fun _ never => never.elim

/-- The instructions that compute the word of a choice. -/
theorem hands_select {a : Arrow} {c t e : Register} {next : Emit Unit}
    {K : Unit → Nat → Assertion → Prop} (knows : (tree.scope id).Knows names watermark Γ)
    (window : t.bank = .window) (at_t : t.Below watermark) (at_e : e.Below watermark)
    (at_c : c.Below watermark) (other_e : e ≠ t) (other_c : c ≠ t)
    (only : ∀ claim, (tree.scope id).Owes Γ t claim → claim = .calls a)
    (yes : (tree.scope id).Owes Γ t (.calls a)) (no : (tree.scope id).Owes Γ e (.calls a))
    (bit : (tree.scope id).Owes Γ c .bit) (h : l.Hands next watermark (l.Stands id Γ 64) K) :
    l.Hands (do
      triple .sub t t e
      triple .mul t t c
      triple .add t t e
      next) watermark (l.Stands id Γ 64) K := by
  have combines (op : Operation) (ho : op = .sub ∨ op = .mul ∨ op = .add) (i : Instruction)
      (read : UInt8 → Option Int32) (eq : i.op = op) : i.result read = i.combine read := by
    rcases ho with rfl | rfl | rfl <;> rw [Instruction.result, eq]
  have sub : l.Carries (l.Computed id Γ watermark t [] (· t)) ⟨.triple .sub t t e, none, none⟩ _ :=
    carries_computed (f := (· - ·)) (fun _ _ => rfl) rfl (combines _ (.inl rfl)) at_t at_e other_e
  refine hands_bind (hands_push (sub.mono fun _ _ stands => computed_of_stands stands) ?_)
  refine hands_bind (hands_push (carries_computed (f := (· * ·)) (fun _ _ => rfl) rfl
    (combines _ (.inr (.inl rfl))) at_t at_c other_c) ?_)
  refine hands_bind (hands_push (carries_computed (f := (· + ·)) (fun _ _ => rfl) rfl
    (combines _ (.inr (.inr rfl))) at_t at_e other_e) ?_)
  refine h.mono (fun w n holds => ?_) fun _ _ _ suits => suits
  exact stands_of_computed knows window only yes no bit (by simp) holds

/-- A choice calls one of two functions that both have the arrow. -/
theorem turns_choose (rowed : (tree.scope id).Rowed) {cond yes no : Expr}
    {lowerCond lowerYes lowerNo : Lowering}
    (knows : (tree.scope id).Knows names watermark Γ)
    (takes : (tree.scope id).Takes Γ watermark dst ty room)
    (computes : l.Computes id names (isTruthValue cond.unwrapped) lowerCond)
    (supplies : ∀ arrow, tree.arrowOf id yes = .ok arrow →
      l.Supplies id names arrow.toTy 1 lowerYes ∧ l.Supplies id names arrow.toTy 1 lowerNo ∧
        ∀ k a, ¬ arrow.input.Calls k a) (span : Span) :
    l.Turns (choose ⟨tree, id⟩ cond yes no lowerCond lowerYes lowerNo span dst ty) watermark
      (l.Stands id Γ 64) (l.Stands id (Γ.put dst ty) 64) := by
  unfold choose armArrow
  dsimp only
  cases found : tree.arrowOf id yes with
  | error e => exact Hands.turns (hands_bind (hands_fail _))
  | ok arrow =>
    obtain ⟨first, second, plain⟩ := supplies arrow found
    have calls := (Ty.calls_of_arrow? (Ty.arrow?_toTy arrow)).2
    refine Hands.turns (hands_bind (hands_pure (hands_bind ?_)))
    cases tree.arrowOf id no with
    | error e => exact hands_fail _
    | ok other =>
      refine hands_pure ?_
      split
      · exact hands_fail _
      · refine hands_bind (hands_lift fun constant _ => ?_)
        cases constant with
        | some value =>
          refine hands_bind (hands_temp fun t at_t => hands_bind ?_)
          obtain ⟨grows, takes', owes⟩ := function_at knows at_t arrow
          have selected : l.Supplies id names arrow.toTy 1
              (if value ≠ 0 then lowerYes else lowerNo) := by
            split
            · exact first
            · exact second
          refine (selected _ Γ t (knows.mono (Nat.le_succ _)) takes').releasing ?_
          refine ((turns_invoke grows.knows (takes.grows grows) owes (by simp) (fun _ => plain)
            span).mono (fun _ _ stands => stands) fun _ _ stands => stands.mono ?_).last
          rintro o c (old | new)
          · exact .inl (.inl old)
          · exact .inr new
        | none =>
          refine hands_bind ((hands_truth rowed computes knows).mono (fun _ _ h => h) ?_)
          rintro c mark R ⟨Γ₁, grows₁, below, bit, rfl⟩
          refine hands_bind (hands_temp fun t at_t => hands_bind ?_)
          obtain ⟨grows₂, takes₂, owes₂⟩ := function_at grows₁.knows at_t arrow
          refine (first _ Γ₁ t (grows₁.knows.mono (Nat.le_succ _)) takes₂).releasing ?_
          refine hands_bind (hands_temp fun e at_e => hands_bind ?_)
          obtain ⟨grows₃, takes₃, owes₃⟩ := function_at grows₂.knows at_e arrow
          refine (second _ _ e (grows₂.knows.mono (Nat.le_succ _)) takes₃).releasing ?_
          have grows := (grows₁.trans grows₂).trans grows₃
          have below_t : t.Below (mark + 1 + 1) := at_t.below (by omega)
          have below_c : c.Below (mark + 1 + 1) := below.mono (by omega)
          refine hands_select grows₃.knows at_t.1 below_t (at_e.below (by omega)) below_c ?_ ?_ ?_
            (owes₂.mono grows₃.old) owes₃ ((bit _ rfl).mono fun o c claim =>
              grows₃.old o c (grows₂.old o c claim)) ?_
          · exact at_e.ne at_t (by omega)
          · exact below.ne at_t (Nat.le_refl _)
          · -- the register is free below, and the other function lies behind it
            rintro claim (⟨-, ((old | ⟨-, k, a, -, here, rfl⟩) | ⟨-, k, a, place, -, -⟩)⟩ | ⟨bank, -⟩)
            · have within := grows₁.knows.within _ _ old
              have place := at_t.2
              omega
            · rw [((calls k a).mp here).2]
            · have low := at_t.2
              have high := at_e.2
              omega
            · rw [at_t.1] at bank
              cases bank
          · refine ((turns_invoke grows.knows (takes.grows grows) (owes₂.mono grows₃.old) (by simp)
              (fun _ => plain) span).mono (fun _ _ stands => stands) fun _ _ stands =>
                stands.mono ?_).last
            rintro o c (old | new)
            · exact .inl (grows.old o c old)
            · exact .inr new

end Laid

end WindowedClosures
