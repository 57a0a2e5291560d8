import WindowedClosures.Proofs.Code.Calling

/-!
# Code that keeps functions apart

The code of an expression that is admitted at a place puts a value of the place's type there, with
the functions that the type says, and leaves everything that was known. So the code of a scope whose
statements are admitted leads from what the scope may rely on to what it owes.
-/

namespace WindowedClosures

namespace Laid

open Emit

variable {tree : ScopeTree} {program : Program} {l : Laid tree program} {id : Nat}
  {names : List String} {watermark : Nat} {Γ : Claims} {dst : Register} {ty : Ty} {room : Nat}
  {own : Option String} {e : Expr} {lowered : Lowering}

/-- A value was put into a place; a truth value is 0 or 1. -/
def Placed (l : Laid tree program) (id : Nat) (Γ : Claims) (dst : Register) (ty : Ty) (e : Expr) :
    Assertion :=
  l.Stands id ((Γ.put dst ty).add dst fun c => isTruthValue e.unwrapped = true ∧ c = .bit) 64

/-- A lowering that puts the value of an expression wherever that is admitted. -/
def Puts (l : Laid tree program) (id : Nat) (names : List String) (own : Option String) (e : Expr)
    (lowered : Lowering) : Prop :=
  ∀ watermark Γ dst ty room, (tree.scope id).Knows names watermark Γ →
    (tree.scope id).Takes Γ watermark dst ty room → (tree.scope id).Owns own dst ty →
    Site.admits ⟨tree, id⟩ names own e ty room = true →
    l.Turns (lowered dst ty) watermark (l.Stands id Γ 64) (l.Placed id Γ dst ty e)

theorem owns_none : (tree.scope id).Owns none dst ty := fun _ h => by cases h

theorem Placed.stands {w : World} {m : Machine} (h : l.Placed id Γ dst ty e w m) :
    l.Stands id (Γ.put dst ty) 64 w m :=
  h.mono fun _ _ claim => .inl claim

theorem Puts.supplies (h : l.Puts id names none e lowered)
    (admits : Site.admits ⟨tree, id⟩ names none e ty room = true) :
    l.Supplies id names ty room lowered := by
  intro watermark Γ dst knows takes
  exact (h watermark Γ dst ty room knows takes owns_none admits).mono (fun _ _ stands => stands)
    fun _ _ placed => placed.stands

theorem Puts.computes (h : l.Puts id names none e lowered)
    (admits : Site.admits ⟨tree, id⟩ names none e .int 1 = true) :
    l.Computes id names (isTruthValue e.unwrapped) lowered := by
  intro watermark Γ dst knows takes
  refine (h watermark Γ dst .int 1 knows takes owns_none admits).mono (fun _ _ stands => stands)
    fun _ _ placed => placed.mono ?_
  rintro o c (old | bit)
  · exact .inl (.inl old)
  · exact .inr bit

/-- A value that is no truth value. -/
theorem turns_placed {m : Emit Unit} {P : Assertion} (no : isTruthValue e.unwrapped = false)
    (h : l.Turns m watermark P (l.Stands id (Γ.put dst ty) 64)) :
    l.Turns m watermark P (l.Placed id Γ dst ty e) := by
  refine h.mono (fun _ _ hp => hp) fun _ _ stands => stands.mono ?_
  rintro o c (claim | ⟨-, truth, -⟩)
  · exact claim
  · rw [no] at truth
    cases truth

/-- A number in a place without functions. -/
theorem turns_number {m : Emit Unit} (takes : (tree.scope id).Takes Γ watermark dst ty room)
    (number : ty.takesNumber room = true)
    (h : (tree.scope id).Takes Γ watermark dst .int 1 → l.Turns m watermark (l.Stands id Γ 64)
      (l.Stands id (Γ.add dst fun c => isTruthValue e.unwrapped = true ∧ c = .bit) 64)) :
    l.Turns m watermark (l.Stands id Γ 64) (l.Placed id Γ dst ty e) := by
  obtain ⟨functions, pos⟩ := Ty.takesNumber_iff.mp number
  have plain := Ty.plain_of_hasFunctions functions
  refine (h (takes.number plain pos)).mono (fun _ _ hp => hp) fun _ _ stands => stands.mono ?_
  rintro o c (claim | bit)
  · exact .inl (Claims.put_plain plain claim)
  · exact .inr bit

theorem turns_plain_number {m : Emit Unit} (takes : (tree.scope id).Takes Γ watermark dst ty room)
    (number : ty.takesNumber room = true) (no : isTruthValue e.unwrapped = false)
    (h : (tree.scope id).Takes Γ watermark dst .int 1 →
      l.Turns m watermark (l.Stands id Γ 64) (l.Stands id Γ 64)) :
    l.Turns m watermark (l.Stands id Γ 64) (l.Placed id Γ dst ty e) := by
  refine turns_number takes number fun takes' => (h takes').mono (fun _ _ hp => hp)
    fun _ _ stands => stands.mono ?_
  rintro o c (claim | ⟨-, truth, -⟩)
  · exact claim
  · rw [no] at truth
    cases truth

/-- A truth value in a place without functions. -/
theorem turns_truth {m : Emit Unit} (takes : (tree.scope id).Takes Γ watermark dst ty room)
    (number : ty.takesNumber room = true)
    (h : (tree.scope id).Takes Γ watermark dst .int 1 → l.Turns m watermark (l.Stands id Γ 64)
      (l.Stands id (Γ.add dst (· = .bit)) 64)) :
    l.Turns m watermark (l.Stands id Γ 64) (l.Placed id Γ dst ty e) := by
  refine turns_number takes number fun takes' => (h takes').mono (fun _ _ hp => hp)
    fun _ _ stands => stands.mono ?_
  rintro o c (claim | ⟨here, -, bit⟩)
  · exact .inl claim
  · exact .inr ⟨here, bit⟩

/-- A tuple is no truth value, unless it is a value in parentheses. -/
theorem isTruthValue_tuple {fields : List (Labelled Expr)} {span : Span}
    (many : ∀ value, fields ≠ [⟨none, value⟩]) :
    isTruthValue (Expr.tuple fields span).unwrapped = false := by
  unfold Expr.unwrapped
  split
  · rename_i value _ eq
    injection eq with same
    exact (many value same).elim
  · rfl

/-! ## Operators -/

variable {lhs rhs operand : Expr} {lowerLhs lowerRhs : Lowering} {span : Span}

theorem turns_neg (rowed : (tree.scope id).Rowed)
    (computes : l.Computes id names (isTruthValue operand.unwrapped) lowered)
    (knows : (tree.scope id).Knows names watermark Γ)
    (takes : (tree.scope id).Takes Γ watermark dst .int 1) :
    l.Turns (do
      match ← lift (Expr.unary .neg operand span).constant? with
      | some value => loadInt dst value
      | none =>
        let zero ← constant 0
        let value ← Emit.operand ⟨tree, id⟩ operand lowered
        triple .sub dst zero value) watermark (l.Stands id Γ 64) (l.Stands id Γ 64) := by
  refine Hands.turns (hands_bind (hands_lift fun found _ => ?_))
  cases found with
  | some value => exact (turns_loadInt knows takes value).last
  | none =>
    refine hands_bind ((hands_constant knows 0).mono (fun _ _ h => h) ?_)
    rintro zero mark R ⟨Γ₁, grows₁, below₁, -, rfl⟩
    refine hands_bind ((hands_operand rowed computes grows₁.knows).mono (fun _ _ h => h) ?_)
    rintro value mark' R ⟨Γ₂, grows₂, below₂, -, rfl⟩
    refine ((turns_operation .sub grows₂.knows ((takes.grows grows₁).grows grows₂) below₁.near
      below₂.near).mono (fun _ _ h => h) fun _ _ stands => stands.mono ?_).last
    exact fun o c claim => grows₂.old o c (grows₁.old o c claim)

theorem turns_not (rowed : (tree.scope id).Rowed)
    (computes : l.Computes id names (isTruthValue operand.unwrapped) lowered)
    (knows : (tree.scope id).Knows names watermark Γ)
    (takes : (tree.scope id).Takes Γ watermark dst .int 1) :
    l.Turns (do
      let value ← truth ⟨tree, id⟩ operand lowered
      invert dst value) watermark (l.Stands id Γ 64) (l.Stands id (Γ.add dst (· = .bit)) 64) := by
  refine Hands.turns (hands_bind ((hands_truth rowed computes knows).mono (fun _ _ h => h) ?_))
  rintro value mark R ⟨Γ', grows, below, bit, rfl⟩
  refine ((turns_invert grows.knows (takes.grows grows) below.near (bit _ rfl)).mono
    (fun _ _ h => h) fun _ _ stands => stands.mono ?_).last
  rintro o c (claim | new)
  · exact .inl (grows.old o c claim)
  · exact .inr new

/-- Two values in registers of their own, one behind the other. -/
theorem hands_two {f : Expr → Lowering → Emit Register} {N : Expr → Claim → Prop}
    {next : Register → Register → Emit Unit} {Q : Assertion}
    (first : l.Hands (f lhs lowerLhs) watermark (l.Stands id Γ 64)
      (l.Scratch id names watermark Γ (N lhs)))
    (second : ∀ mark Γ', (tree.scope id).Knows names mark Γ' → l.Hands (f rhs lowerRhs) mark
      (l.Stands id Γ' 64) (l.Scratch id names mark Γ' (N rhs)))
    (last : ∀ a b mark Γ', (tree.scope id).Grows names watermark Γ mark Γ' → a.Below mark →
      b.Below mark → (∀ c, N lhs c → (tree.scope id).Owes Γ' a c) →
      (∀ c, N rhs c → (tree.scope id).Owes Γ' b c) →
        l.Turns (next a b) mark (l.Stands id Γ' 64) Q) :
    l.Turns (do
      let a ← f lhs lowerLhs
      let b ← f rhs lowerRhs
      next a b) watermark (l.Stands id Γ 64) Q := by
  refine Hands.turns (hands_bind (first.mono (fun _ _ h => h) ?_))
  rintro a mark R ⟨Γ₁, grows₁, below_a, owes_a, rfl⟩
  refine hands_bind ((second mark Γ₁ grows₁.knows).mono (fun _ _ h => h) ?_)
  rintro b mark' R ⟨Γ₂, grows₂, below_b, owes_b, rfl⟩
  refine (last a b mark' Γ₂ (grows₁.trans grows₂) (below_a.mono grows₂.le) below_b ?_ owes_b).last
  exact fun c hc => (owes_a c hc).mono grows₂.old

theorem turns_comparison (rowed : (tree.scope id).Rowed) (op : Comparison)
    (left : l.Computes id names (isTruthValue lhs.unwrapped) lowerLhs)
    (right : l.Computes id names (isTruthValue rhs.unwrapped) lowerRhs)
    (knows : (tree.scope id).Knows names watermark Γ)
    (takes : (tree.scope id).Takes Γ watermark dst .int 1) :
    l.Turns (do
      let a ← Emit.operand ⟨tree, id⟩ lhs lowerLhs
      let b ← Emit.operand ⟨tree, id⟩ rhs lowerRhs
      Emit.compare op dst a b) watermark (l.Stands id Γ 64)
      (l.Stands id (Γ.add dst (· = .bit)) 64) := by
  refine hands_two (f := Emit.operand ⟨tree, id⟩)
    (N := fun e c => isTruthValue e.unwrapped = true ∧ c = .bit)
    (hands_operand rowed left knows) (fun mark Γ' knows' => hands_operand rowed right knows') ?_
  intro a b mark Γ' grows below_a below_b _ _
  refine (turns_compare op grows.knows (takes.grows grows) below_a below_b).mono (fun _ _ h => h)
    fun _ _ stands => stands.mono ?_
  rintro o c (claim | new)
  · exact .inl (grows.old o c claim)
  · exact .inr new

theorem turns_connective (rowed : (tree.scope id).Rowed) (op : Connective)
    (left : l.Computes id names (isTruthValue lhs.unwrapped) lowerLhs)
    (right : l.Computes id names (isTruthValue rhs.unwrapped) lowerRhs)
    (knows : (tree.scope id).Knows names watermark Γ)
    (takes : (tree.scope id).Takes Γ watermark dst .int 1) :
    l.Turns (do
      let a ← truth ⟨tree, id⟩ lhs lowerLhs
      let b ← truth ⟨tree, id⟩ rhs lowerRhs
      connect op dst a b) watermark (l.Stands id Γ 64)
      (l.Stands id (Γ.add dst (· = .bit)) 64) := by
  refine hands_two (f := truth ⟨tree, id⟩) (N := fun _ c => c = .bit)
    (hands_truth rowed left knows) (fun mark Γ' knows' => hands_truth rowed right knows') ?_
  intro a b mark Γ' grows below_a below_b bit_a bit_b
  refine (turns_connect op grows.knows (takes.grows grows) below_a below_b (bit_a _ rfl)
    (bit_b _ rfl)).mono (fun _ _ h => h) fun _ _ stands => stands.mono ?_
  rintro o c (claim | new)
  · exact .inl (grows.old o c claim)
  · exact .inr new

/-- A call as an expression. -/
theorem turns_call_admitted (rowed : (tree.scope id).Rowed) {op : BinaryOp}
    (ho : op = .call ∨ op = .apply) (left : l.Puts id names none lhs lowerLhs)
    (right : l.Puts id names none rhs lowerRhs) (knows : (tree.scope id).Knows names watermark Γ)
    (takes : (tree.scope id).Takes Γ watermark dst ty room)
    (admits : Site.admits ⟨tree, id⟩ names own (.binary op lhs rhs span) ty room = true) :
    l.Turns (call ⟨tree, id⟩ lhs lowerLhs lowerRhs span dst ty) watermark (l.Stands id Γ 64)
      (l.Stands id (Γ.put dst ty) 64) := by
  have scope : Site.scope ⟨tree, id⟩ = tree.scope id := rfl
  refine turns_call rowed knows takes ?_ ?_ ?_ span
  · intro n v arrow name known ha
    rcases ho with rfl | rfl <;>
    · simp only [Site.admits, name, scope, known, ha, Bool.and_eq_true, List.contains_iff_mem] at admits
      exact ⟨admits.1, right.supplies admits.2⟩
  · intro n name unknown
    rcases ho with rfl | rfl <;>
    · simp only [Site.admits, name, scope, unknown, Bool.and_eq_true, Bool.not_eq_true'] at admits
      exact ⟨right.supplies admits.1, Ty.plain_of_hasFunctions admits.2⟩
  · intro arrow name found
    rcases ho with rfl | rfl <;>
    · simp only [Site.admits, name, found, Bool.and_eq_true] at admits
      exact ⟨left.supplies admits.1, right.supplies admits.2⟩

theorem turns_choose_admitted (rowed : (tree.scope id).Rowed) {yes no : Expr}
    {yesLabel noLabel : Option String} {armsSpan : Span} {lowerYes lowerNo : Lowering}
    (cond : l.Puts id names none lhs lowerLhs) (first : l.Puts id names none yes lowerYes)
    (second : l.Puts id names none no lowerNo) (knows : (tree.scope id).Knows names watermark Γ)
    (takes : (tree.scope id).Takes Γ watermark dst ty room)
    (admits : Site.admits ⟨tree, id⟩ names own
      (.binary .choose lhs (.tuple [⟨yesLabel, yes⟩, ⟨noLabel, no⟩] armsSpan) span) ty room = true) :
    l.Turns (choose ⟨tree, id⟩ lhs yes no lowerLhs lowerYes lowerNo span dst ty) watermark
      (l.Stands id Γ 64) (l.Stands id (Γ.put dst ty) 64) := by
  cases found : tree.arrowOf id yes with
  | error e =>
    unfold choose armArrow
    dsimp only
    rw [found]
    exact Hands.turns (hands_bind (hands_fail _))
  | ok arrow =>
    simp only [Site.admits, found, Bool.and_eq_true, Bool.not_eq_true'] at admits
    obtain ⟨⟨⟨admits_cond, admits_yes⟩, admits_no⟩, functions⟩ := admits
    refine turns_choose rowed knows takes (cond.computes admits_cond) ?_ span
    intro other ho
    rw [found] at ho
    cases ho
    exact ⟨first.supplies admits_yes, second.supplies admits_no, Ty.plain_of_hasFunctions functions⟩

/-- A part of a variable as an expression. -/
theorem turns_part_admitted (rowed : (tree.scope id).Rowed) {op : BinaryOp}
    (ho : op = .field ∨ op = .index) (knows : (tree.scope id).Knows names watermark Γ)
    (takes : (tree.scope id).Takes Γ watermark dst ty room)
    (admits : Site.admits ⟨tree, id⟩ names own (.binary op lhs rhs span) ty room = true) :
    l.Turns (do
      let (src, srcTy) ← lift (Site.place ⟨tree, id⟩ (.binary op lhs rhs span))
      copy dst src srcTy ty) watermark (l.Stands id Γ 64) (l.Stands id (Γ.put dst ty) 64) := by
  refine Hands.turns (hands_bind (hands_lift fun found place => ?_))
  obtain ⟨n, v, d, root, known, bank, offset, inner⟩ := place_ok place
  refine (turns_copy_part rowed knows takes known bank offset inner ?_).last
  rcases ho with rfl | rfl
  all_goals
    rw [Expr.root?] at root
    simp only [Site.admits, place, root, Option.any_some] at admits
    exact admits

/-- An assignment as an expression. -/
theorem turns_assign_admitted (rowed : (tree.scope id).Rowed)
    (value : l.Puts id names lhs.asName? rhs lowerRhs)
    (knows : (tree.scope id).Knows names watermark Γ)
    (takes : (tree.scope id).Takes Γ watermark dst ty room)
    (admits : Site.admits ⟨tree, id⟩ names own (.binary .assign lhs rhs span) ty room = true) :
    l.Turns (do
      let v ← assign ⟨tree, id⟩ lhs lowerRhs
      if ty.isVoid then pure () else copyVariable dst v ty) watermark (l.Stands id Γ 64)
      (l.Stands id (Γ.put dst ty) 64) := by
  have scope : Site.scope ⟨tree, id⟩ = tree.scope id := rfl
  have admitted {n : String} {v : Variable} (name : lhs.asName? = some n)
      (known : (tree.scope id).local? n = some v) :
      Site.admits ⟨tree, id⟩ names (some n) rhs v.ty v.ty.size = true ∧
        ty.takesCopy v.ty true = true := by
    simpa only [Site.admits, name, scope, Option.bind_some, known, Bool.and_eq_true] using admits
  refine Hands.turns (hands_bind ((hands_assign rowed knows ?_).mono (fun _ _ h => h) ?_))
  · intro n v r name known hr
    rw [name] at value
    refine (value watermark Γ r v.ty v.ty.size knows (rowed.takes knows.size known hr) ?_
      (admitted name known).1).mono (fun _ _ stands => stands) fun _ _ placed => placed.stands
    rintro m eq
    cases eq
    exact ⟨v, known, hr, rfl⟩
  · rintro v mark R ⟨rfl, n, r, name, known, hr, knows', rfl⟩
    split
    · rename_i void
      refine hands_pure fun _ _ stands => stands.mono fun _ _ claim => .inl ?_
      exact Claims.put_plain (Ty.calls_of_isVoid void).2 claim
    · refine ((turns_copyVariable rowed knows' (takes.put_variable rowed known hr) known ?_).mono
        (fun _ _ stands => stands) fun _ _ stands => stands.mono ?_).last
      · rw [show (n :: names).contains n = true by simp]
        exact (admitted name known).2
      · rintro o c (old | new)
        · exact .inl (.inl old)
        · exact .inr new

/-! ## Tuples -/

/-- Claims with the functions of parts of a value added. -/
def Parts (Γ : Claims) (dst : Register) (slots : List (Nat × Ty)) : Claims :=
  fun o c => Γ o c ∨ ∃ slot ∈ slots, dst.bank = .window ∧ slot.2.claims (dst.offset + slot.1) o c

/-- Fields that are put into their slots of a place. -/
theorem turns_field {slot : Nat × Ty} {slots rest : List (Nat × Ty)} (tiles : ty.Tiles slots)
    (hs : slot ∈ slots) (knows : (tree.scope id).Knows names watermark Γ)
    (takes : (tree.scope id).Takes Γ watermark dst ty room)
    (value : l.Supplies id names slot.2 slot.2.size lowered) {next : Emit Unit}
    (h : ∀ Γ', (tree.scope id).Knows names watermark Γ' →
      (tree.scope id).Takes Γ' watermark dst ty room →
        l.Turns next watermark (l.Stands id Γ' 64) (l.Stands id (Parts Γ' dst rest) 64)) :
    l.Turns (do
      let r ← register (dst.shift slot.1)
      releasing (lowered r slot.2)
      next) watermark (l.Stands id Γ 64) (l.Stands id (Parts Γ dst (slot :: rest)) 64) := by
  refine Hands.turns (hands_bind (hands_register fun r hr => hands_bind ?_))
  obtain ⟨bank, offset⟩ := Register.shift_ok hr
  have here := takes.slot (tiles.inside slot hs) (tiles.here slot hs) hr
  refine (value watermark Γ r knows here).releasing ?_
  have inner {o : Nat} {c : Claim} (claim : slot.2.claims r.offset o c) : ty.claims dst.offset o c := by
    obtain ⟨k, a, rfl, calls, rfl⟩ := claim
    exact ⟨slot.1 + k, a, by omega, (tiles.here slot hs k a calls.lt_size).mpr calls, rfl⟩
  have takes' : (tree.scope id).Takes (Γ.put r slot.2) watermark dst ty room := by
    refine takes.congr (Nat.le_refl _) ?_
    rintro k lt free c (old | ⟨window, claim⟩)
    · exact .inl old
    · exact .inr ⟨bank.symm.trans window, inner claim⟩
  refine ((h _ (knows.put here) takes').mono (fun _ _ stands => stands)
    fun _ _ stands => stands.mono ?_).last
  rintro o c (old | ⟨other, ho, window, claim⟩)
  · exact .inl (.inl old)
  · rcases List.mem_cons.mp ho with rfl | ho
    · rw [← offset] at claim
      exact .inl (.inr ⟨bank.trans window, claim⟩)
    · exact .inr ⟨other, ho, window, claim⟩

/-- The slots of a value are all of it. -/
theorem put_le_parts {slots : List (Nat × Ty)} (tiles : ty.Tiles slots) {o : Nat} {c : Claim}
    (h : Γ.put dst ty o c) : Parts Γ dst slots o c := by
  rcases h with old | ⟨window, k, a, rfl, calls, rfl⟩
  · exact .inl old
  · obtain ⟨slot, hs, j, rfl, calls'⟩ := tiles.cover k a calls
    exact .inr ⟨slot, hs, window, j, a, by omega, calls', rfl⟩

/-! ## Expressions -/

/-- The literals of an expression are literals of the scope. -/
abbrev Within (tree : ScopeTree) (id : Nat) (literals : List FunctionLiteral) : Prop :=
  ∀ literal ∈ literals, literal ∈ literalsOf (tree.scope id).body

theorem Within.left {a b : List FunctionLiteral} (h : Within tree id (a ++ b)) : Within tree id a :=
  fun literal hl => h literal (List.mem_append_left b hl)

theorem Within.right {a b : List FunctionLiteral} (h : Within tree id (a ++ b)) : Within tree id b :=
  fun literal hl => h literal (List.mem_append_right a hl)

theorem Within.field {fields : List (Labelled Expr)} (h : Within tree id (Expr.literalsOfFields fields))
    {field : Labelled Expr} (mem : field ∈ fields) : Within tree id field.value.literals :=
  fun literal hl => h literal (Expr.mem_literalsOfFields mem hl)

/-- The fields of a tuple fill the slots of its place. -/
theorem turns_lowerFields {fields : List (Labelled Expr)}
    (puts : ∀ field ∈ fields, l.Puts id names none field.value (lower ⟨tree, id⟩ field.value))
    {slots all : List (Nat × Ty)} (tiles : ty.Tiles all) (sub : ∀ slot ∈ slots, slot ∈ all)
    (length : fields.length = slots.length) (knows : (tree.scope id).Knows names watermark Γ)
    (takes : (tree.scope id).Takes Γ watermark dst ty room)
    (admits : Site.admitsFields ⟨tree, id⟩ names fields slots = true) :
    l.Turns (lowerFields ⟨tree, id⟩ fields slots dst) watermark (l.Stands id Γ 64)
      (l.Stands id (Parts Γ dst slots) 64) := by
  induction fields generalizing slots Γ with
  | nil =>
    obtain rfl := List.length_eq_zero_iff.mp length.symm
    rw [lowerFields]
    · refine Hands.turns (hands_pure fun _ _ stands => stands.mono ?_)
      rintro o c (old | ⟨slot, hs, -⟩)
      · exact old
      · cases hs
    · simp
  | cons field fields ih =>
    cases slots with
    | nil => cases length
    | cons slot slots =>
      rw [Site.admitsFields, Bool.and_eq_true] at admits
      rw [lowerFields]
      refine turns_field tiles (sub slot (by simp)) knows takes
        ((puts field (by simp)).supplies admits.1) fun Γ' knows' takes' => ?_
      exact ih (fun other mem => puts other (by simp [mem]))
        (fun other hs => sub other (List.mem_cons_of_mem _ hs)) (by simpa using length) knows' takes'
        admits.2

/-- The code of an expression puts its value wherever that is admitted. -/
theorem puts_lower (resolved : tree.Resolved) (lt : id < tree.count) (e : Expr) (own : Option String)
    (literals : Within tree id e.literals) : l.Puts id names own e (lower ⟨tree, id⟩ e) := by
  have rowed := ScopeTree.rowed_of_resolved resolved id
  induction e using Expr.of_forms generalizing own with
  | int value span =>
    intro watermark Γ dst ty room knows takes _ admits
    rw [Site.admits] at admits
    rw [lower]
    exact turns_plain_number takes admits rfl fun takes' => turns_loadInt knows takes' value
  | hex value span =>
    intro watermark Γ dst ty room knows takes _ admits
    rw [Site.admits] at admits
    rw [lower]
    exact turns_plain_number takes admits rfl fun takes' => turns_loadInt knows takes' _
  | float | varDecl =>
    intro watermark Γ dst ty room knows takes _ admits
    rw [lower]
    exact Hands.turns (hands_fail _)
  | text value span =>
    intro watermark Γ dst ty room knows takes _ admits
    rw [lower]
    exact turns_placed rfl (turns_text knows takes value span)
  | name value span =>
    intro watermark Γ dst ty room knows takes _ admits
    rw [lower]
    refine turns_placed rfl (Hands.turns (hands_bind (hands_lift fun v hv => ?_)))
    have known : (tree.scope id).local? value = some v := Site.lookup_eq_ok_iff.mp hv
    simp only [Site.admits, show Site.scope ⟨tree, id⟩ = tree.scope id from rfl, known] at admits
    exact (turns_copyVariable rowed knows takes known admits).last
  | typeDecl =>
    intro watermark Γ dst ty room knows takes _ admits
    rw [Site.admits, Bool.not_eq_true'] at admits
    rw [lower]
    refine turns_placed rfl (Hands.turns (hands_pure fun _ _ stands => stands.mono ?_))
    exact fun _ _ claim => Claims.put_plain (Ty.plain_of_hasFunctions admits) claim
  | function literal span =>
    intro watermark Γ dst ty room knows takes owns admits
    rw [Site.admits] at admits
    rw [lower]
    exact turns_placed rfl (turns_function resolved lt knows takes owns admits
      (literals literal (by simp [Expr.literals])) span)
  | parens value span inner =>
    intro watermark Γ dst ty room knows takes owns admits
    rw [Expr.literals] at literals
    rw [Site.admits] at admits
    rw [lower, Placed, Expr.unwrapped_parens]
    have mem : (⟨none, value⟩ : Labelled Expr) ∈ [⟨none, value⟩] := List.mem_singleton_self _
    exact inner own (literals.field mem) watermark Γ dst ty room knows takes owns admits
  | tuple fields span several inner =>
    intro watermark Γ dst ty room knows takes _ admits
    rw [Expr.literals] at literals
    rw [lower_tuple fields span dst ty several]
    rw [Site.admits] at admits
    · refine turns_placed (isTruthValue_tuple several) ?_
      split
      · rename_i slots hs
        rw [hs] at admits
        obtain ⟨tiles, length⟩ := Ty.tiles_of_slots? hs
        have puts (field : Labelled Expr) (mem : field ∈ fields) :=
          inner field mem none (literals.field mem)
        refine (turns_lowerFields puts tiles (fun _ h => h) length.symm knows takes admits).mono
          (fun _ _ h => h) fun _ _ stands => stands.mono fun _ _ claim => put_le_parts tiles claim
      · exact Hands.turns (hands_fail _)
    · exact several
  | unary op operand span inner =>
    intro watermark Γ dst ty room knows takes _ admits
    rw [Expr.literals] at literals
    rw [Site.admits, Bool.and_eq_true] at admits
    have computes := (inner none literals).computes admits.1
    cases op with
    | neg =>
      rw [lower]
      exact turns_plain_number takes admits.2 rfl fun takes' => turns_neg rowed computes knows takes'
    | not =>
      rw [lower]
      exact turns_truth takes admits.2 fun takes' => turns_not rowed computes knows takes'
    | deref | ref => rw [lower]; exact Hands.turns (hands_fail _)
  | binary op lhs rhs span other left right =>
    intro watermark Γ dst ty room knows takes _ admits
    rw [Expr.literals] at literals
    have hl := left none literals.left
    have hr := right none literals.right
    cases op with
    | choose => exact absurd rfl other
    | call | apply =>
      rw [lower]
      exact turns_placed rfl (turns_call_admitted rowed (by simp) hl hr knows takes admits)
    | arithmetic op =>
      simp only [Site.admits, Bool.and_eq_true] at admits
      rw [lower]
      exact turns_plain_number takes admits.2 rfl fun takes' => turns_arithmetic rowed op _
        (hl.computes admits.1.1) (hr.computes admits.1.2) knows takes'
    | comparison op =>
      simp only [Site.admits, Bool.and_eq_true] at admits
      rw [lower]
      refine turns_truth takes admits.2 fun takes' => turns_comparison rowed op
        (hl.computes admits.1.1) (hr.computes admits.1.2) knows takes'
    | connective op =>
      simp only [Site.admits, Bool.and_eq_true] at admits
      rw [lower]
      refine turns_truth takes admits.2 fun takes' => turns_connective rowed op
        (hl.computes admits.1.1) (hr.computes admits.1.2) knows takes'
    | field | index =>
      rw [lower]
      exact turns_placed rfl (turns_part_admitted rowed (by simp) knows takes admits)
    | assign =>
      rw [lower]
      exact turns_placed rfl (turns_assign_admitted rowed (right lhs.asName? literals.right) knows takes
        admits)
    | compose =>
      rw [lower]
      exact Hands.turns (hands_fail _)
  | choose cond yes no armsSpan span hc hy hn =>
    intro watermark Γ dst ty room knows takes _ admits
    simp only [Expr.literals, Expr.literalsOfFields, List.append_nil] at literals
    rw [lower]
    exact turns_placed rfl (turns_choose_admitted rowed (hc none literals.left)
      (hy none literals.right.left) (hn none literals.right.right) knows takes admits)
  | unpaired cond arms span lacks =>
    intro watermark Γ dst ty room knows takes _ admits
    rw [lower_unpaired cond lacks]
    exact Hands.turns (hands_fail _)

end Laid

end WindowedClosures
