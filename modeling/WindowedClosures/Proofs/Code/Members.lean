import WindowedClosures.Proofs.Code.Mentions

/-!
# Words built in place

Literals, integral variables, fields and elements, and what addition, subtraction and multiplication
make of these: the word of such an expression, computed from the registers alone, and its code. The
code leaves the word in its destination and changes nothing else below the scratch registers, also
where the expression reads the destination, unless its own left operand is built there first.
-/

namespace WindowedClosures

open Emit RegisterFile

/-! ## Members and their words -/

/-- What the members of a tuple of words are made of. -/
inductive Site.Member (s : Site) : Expr → Prop
  | int (n : Int32) (span : Span) : Member s (.int n span)
  | hex (n : UInt32) (span : Span) : Member s (.hex n span)
  | float (n : Binary32) (span : Span) : Member s (.float n span)
  | text (value : String) (span : Span) : Member s (.text value span)
  | name {n : String} {v : Variable} (span : Span) (known : s.scope.local? n = some v)
    (integral : v.ty.isIntegral = true) : Member s (.name n span)
  | part {op : BinaryOp} {lhs rhs : Expr} {span : Span} (access : op = .field ∨ op = .index)
    (solid : ∀ first ty, s.place (.binary op lhs rhs span) = .ok (first, ty) → 0 < ty.size) :
    Member s (.binary op lhs rhs span)
  | parens {e : Expr} (span : Span) (inner : Member s e) : Member s (.tuple [⟨none, e⟩] span)
  | neg {e : Expr} (span : Span) (inner : Member s e) : Member s (.unary .neg e span)
  | arithmetic {op : Arithmetic} {lhs rhs : Expr} (span : Span) (total : op ≠ .div ∧ op ≠ .mod)
    (left : Member s lhs) (right : Member s rhs) : Member s (.binary (.arithmetic op) lhs rhs span)

/-- The word of a member, given the words in the registers. -/
@[grind =] def Site.word (s : Site) (file : RegisterFile) : Expr → Option Int32
  | .int n _ => some n
  | .hex n _ => some n.toInt32
  | .text value _ =>
    match literalBytes value with
    | [c, _] => some (Int32.ofNat c.toNat)
    | _ => none
  | .name n _ => (s.scope.local? n).bind fun v => v.register.toOption.map file
  | .tuple [⟨none, e⟩] _ => s.word file e
  | .unary .neg e _ => (s.word file e).map fun a => -a
  | .binary op lhs rhs span =>
    match op with
    | .arithmetic op => do
      let a ← s.word file lhs
      let b ← s.word file rhs
      op.eval? a b
    | .field | .index => (s.place (.binary op lhs rhs span)).toOption.map fun found => file found.1
    | _ => none
  | _ => none

/-- Whether code that builds a member in a register leaves alone what it still has to read: where the
left operand of arithmetic is built there, the right one must not depend on it. -/
@[grind =] def Site.buildsIn (s : Site) (dst : Register) : Expr → Bool
  | .tuple [⟨none, e⟩] _ => s.buildsIn dst e
  | .binary (.arithmetic _) lhs rhs _ =>
    s.mentions dst rhs ||
      if isLeaf lhs.unwrapped then s.buildsIn dst rhs else s.buildsIn dst lhs && !s.sees dst rhs
  | _ => true

/-- The registers of a variable are not free where those of the scope end. -/
theorem Scope.Arranged.below_of_inRow {s : Scope} (h : s.Arranged) {v : Variable}
    (mem : v ∈ s.vars ∨ v ∈ s.closure) {r : Register}
    (inRow : r.inRow v.bank v.offset v.ty.size = true) : r.Below s.size := by
  obtain ⟨bank, -, high⟩ := Register.inRow_iff.mp inRow
  exact h.below_of_bank mem bank high

namespace Site

variable {s : Site} {e : Expr} {r dst : Register} {file after : RegisterFile}

theorem sees_access {op : BinaryOp} {lhs rhs : Expr} {span : Span}
    (access : op = .field ∨ op = .index) :
    s.sees r (.binary op lhs rhs span) = (s.place (.binary op lhs rhs span)).toOption.any fun found =>
      r.inRow found.1.bank found.1.offset found.2.size := by
  rcases access with rfl | rfl <;> cases placed : s.place (.binary _ lhs rhs span) <;>
    simp only [sees, placed, Except.toOption, Option.any]

theorem word_access {op : BinaryOp} {lhs rhs : Expr} {span : Span}
    (access : op = .field ∨ op = .index) : s.word file (.binary op lhs rhs span) =
      (s.place (.binary op lhs rhs span)).toOption.map fun found => file found.1 := by
  rcases access with rfl | rfl <;> rw [word]

theorem word_arithmetic (op : Arithmetic) {lhs rhs : Expr} {span : Span} {a b : Int32}
    (ha : s.word file lhs = some a) (hb : s.word file rhs = some b) :
    s.word file (.binary (.arithmetic op) lhs rhs span) = op.eval? a b := by
  rw [word, ha, hb]
  rfl

/-- Only registers that a member depends on matter for its word. -/
theorem Member.word_congr (h : s.Member e)
    (agree : ∀ r : Register, s.sees r e = true → after r = file r) :
    s.word after e = s.word file e := by
  induction h with
  | int | hex | float | text => rfl
  | @name n v span known integral =>
    simp only [word, known, Option.bind_some]
    cases hr : v.register with
    | error overflow => rfl
    | ok r =>
      have one := Ty.size_of_isIntegral integral
      have seen : s.sees r (.name n span) = true := by
        rw [sees, holds, known]
        exact Register.inRow_variable hr (shift_zero r) (by omega)
      simp only [Except.toOption, Option.map_some, agree r seen]
  | @part op lhs rhs span access solid =>
    rw [word_access access, word_access access]
    cases placed : s.place (.binary op lhs rhs span) with
    | error error => rfl
    | ok found =>
      obtain ⟨first, ty⟩ := found
      have seen : s.sees first (.binary op lhs rhs span) = true := by
        rw [sees_access access, placed]
        exact Register.inRow_shift (shift_zero first) (solid first ty placed)
      simp only [Except.toOption, Option.map_some, agree first seen]
  | parens span inner ih =>
    rw [word, word]
    exact ih fun r seen => agree r (by simp [sees, seesField, seen])
  | neg span inner ih => rw [word, word, ih fun r seen => agree r (by simp [sees, seen])]
  | arithmetic span total left right ihl ihr =>
    rw [word, word, ihl fun r seen => agree r (by simp [sees, seen]),
      ihr fun r seen => agree r (by simp [sees, seen])]

/-- A member depends on registers of variables only. -/
theorem Member.below_of_sees (h : s.Member e) (arranged : s.scope.Arranged) (seen : s.sees r e = true) :
    r.Below s.scope.size := by
  induction h with
  | int | hex | float | text => cases seen
  | name span known integral =>
    rw [sees, holds, known] at seen
    exact arranged.below_of_inRow (Scope.local?_mem known) seen
  | @part op lhs rhs span access solid =>
    rw [sees_access access, Option.any_eq_true] at seen
    obtain ⟨⟨first, ty⟩, placed, inRow⟩ := seen
    dsimp only at inRow
    obtain ⟨_, _, v, -, known, bank, low, high⟩ := place_inside (toOption_eq_some placed)
    obtain ⟨bank', low', high'⟩ := Register.inRow_iff.mp inRow
    refine arranged.below_of_inRow (Scope.local?_mem known) ?_
    exact Register.inRow_iff.mpr ⟨bank'.trans bank, by omega, by omega⟩
  | parens span inner ih => exact ih (by simpa [sees, seesField] using seen)
  | neg span inner ih => exact ih (by simpa [sees] using seen)
  | arithmetic span total left right ihl ihr =>
    rw [sees, Bool.or_eq_true] at seen
    · exact seen.elim ihl ihr
    all_goals simp

/-- The register of a variable holds its word. -/
theorem Member.register {n : String} {span : Span} (h : s.Member (.name n span))
    (arranged : s.scope.Arranged) {v : Variable} (hv : s.lookup n span = .ok v)
    (hr : v.register = .ok r) :
    r.Below s.scope.size ∧ ∀ file, s.word file (.name n span) = some (file r) := by
  have found := Site.lookup_eq_ok_iff.mp hv
  cases h with
  | name _ known integral =>
    rw [found] at known
    cases known
    refine ⟨arranged.below (Scope.local?_mem found) (Ty.size_of_isIntegral integral) hr, fun file => ?_⟩
    simp [word, found, hr, Except.toOption]

/-- The word stays the same while no register of a variable changes. -/
theorem Member.word_of_keeps (h : s.Member e) (arranged : s.scope.Arranged) {watermark : Nat}
    (size : s.scope.size ≤ watermark) (keeps : Keeps watermark file after) :
    s.word after e = s.word file e :=
  h.word_congr fun r seen => keeps r ((h.below_of_sees arranged seen).mono size)

/-- A constant has its word wherever it stands. -/
theorem Member.word_of_constant? (h : s.Member e) {word : Int32}
    (constant : e.constant? = .ok (some word)) (file : RegisterFile) : s.word file e = some word := by
  induction h generalizing word with
  | int | hex =>
    cases constant
    rfl
  | float | text | name => simp [Expr.constant?] at constant
  | part access solid => rcases access with rfl | rfl <;> simp [Expr.constant?] at constant
  | parens span inner ih =>
    rw [Expr.constant?] at constant
    rw [Site.word]
    exact ih constant
  | neg span inner ih =>
    rw [Expr.constant?] at constant
    obtain ⟨found, hf, eq⟩ := except_bind_ok constant
    cases found with
    | none => simp at eq
    | some n =>
      simp only [Option.map_some, Except.ok.injEq, Option.some.injEq] at eq
      rw [Site.word, ih hf, ← eq]
      rfl
  | arithmetic span total left right ihl ihr =>
    rw [Expr.constant?] at constant
    obtain ⟨a, ha, constant⟩ := except_bind_ok constant
    obtain ⟨b, hb, constant⟩ := except_bind_ok constant
    split at constant
    · split at constant
      · rename_i a b value heval
        simp only [Except.ok.injEq, Option.some.injEq] at constant
        rw [word_arithmetic _ (ihl ha) (ihr hb), ← constant]
        exact heval
      · cases constant
    · simp at constant

/-- Redundant parentheses change nothing. -/
theorem Member.unwrapped (h : s.Member e) : s.Member e.unwrapped := by
  induction h with
  | parens span inner ih => simpa using ih
  | int n span => exact .int n span
  | hex n span => exact .hex n span
  | float n span => exact .float n span
  | text value span => exact .text value span
  | name span known integral => exact .name span known integral
  | part access solid => exact .part access solid
  | neg span inner => exact .neg span inner
  | arithmetic span total left right => exact .arithmetic span total left right

theorem word_unwrapped (s : Site) (file : RegisterFile) (e : Expr) :
    s.word file e.unwrapped = s.word file e := by
  fun_induction Expr.unwrapped e with
  | case1 value span ih => rw [ih, word]
  | case2 => rfl

theorem buildsIn_unwrapped (s : Site) (r : Register) (e : Expr) :
    s.buildsIn r e.unwrapped = s.buildsIn r e := by
  fun_induction Expr.unwrapped e with
  | case1 value span ih => rw [ih, buildsIn]
  | case2 => rfl

theorem sees_unwrapped (s : Site) (r : Register) (e : Expr) :
    s.sees r e.unwrapped = s.sees r e := by
  fun_induction Expr.unwrapped e with
  | case1 value span ih => rw [ih, sees, seesField, seesField, Bool.or_false]
  | case2 => rfl

/-- A register that a member does not depend on can hold it. -/
theorem buildsIn_of_unseen (h : s.sees r e = false) : s.buildsIn r e = true := by
  fun_induction Site.buildsIn s r e with
  | case1 e span ih => exact ih (by simpa [sees, seesField] using h)
  | case2 op lhs rhs span right left =>
    rw [sees, Bool.or_eq_false_iff] at h
    · simp [left h.1, right h.2, h.2]
    all_goals simp
  | case3 => rfl

end Site

/-! ## Code for members -/

/-- Types of one register that do not hold a text. -/
def Ty.IsWord (ty : Ty) : Prop := ty.size = 1 ∧ charCapacity ty = 0

theorem Ty.isWord_of_isIntegral {ty : Ty} (h : ty.isIntegral = true) : ty.IsWord := by
  refine ⟨size_of_isIntegral h, ?_⟩
  unfold charCapacity
  split
  · rename_i array
    simp [isIntegral, array] at h
  · rfl

namespace Emit

variable {s : Site} {e : Expr} {lowered : Lowering} {watermark : Nat} {file : RegisterFile}

/-- A lowering leaves the word of a member in every register that can hold it. -/
def Builds (s : Site) (e : Expr) (lowered : Lowering) : Prop :=
  ∀ watermark file dst ty, s.scope.size ≤ watermark → dst.Below watermark → s.buildsIn dst e = true →
    ty.IsWord → Makes (lowered dst ty) watermark file False fun _ _ after =>
      ∃ word, s.word file e = some word ∧ Sets watermark dst word file after

theorem Builds.unwrapped (h : Builds s e lowered) : Builds s e.unwrapped lowered := by
  intro watermark file dst ty size hd safe word
  rw [s.buildsIn_unwrapped] at safe
  rw [s.word_unwrapped]
  exact h watermark file dst ty size hd safe word

/-- A text of one character is a word. -/
theorem makes_text (value : String) (span : Span) {dst : Register} {ty : Ty} (word : ty.IsWord)
    (hd : dst.Near) : Makes (text value span dst ty) watermark file False fun _ _ after =>
      ∃ word, s.word file (.text value span) = some word ∧ Sets watermark dst word file after := by
  unfold text
  dsimp only
  split
  · rename_i c zero _ bytes
    have small : (UInt16.ofNat c.toNat).toNat = c.toNat := by
      have bound := c.toNat_lt
      rw [UInt16.toNat_ofNat']
      omega
    refine makes_push rfl rfl hd (show _ = Except.ok (Int32.ofNat c.toNat) from ?_) ?_
    · exact congrArg (fun n => Except.ok (Int32.ofNat n)) small
    · exact fun after sets => ⟨_, by rw [Site.word, bytes], sets⟩
  · rw [word.2, if_pos (Nat.zero_le _)]
    exact makes_fail _ _

/-- A member in a register of its own. -/
theorem makes_member_operand (file : RegisterFile) (arranged : s.scope.Arranged) (he : s.Member e)
    (hl : Builds s e lowered) (size : s.scope.size ≤ watermark) :
    Makes (operand s e lowered) watermark file False fun a w after =>
      watermark ≤ w ∧ a.Below w ∧ s.word file e = some (after a) ∧ Keeps watermark file after := by
  have he' := he.unwrapped
  have hl' := hl.unwrapped
  rw [← s.word_unwrapped file e]
  unfold operand
  dsimp only
  generalize e.unwrapped = e' at he' hl'
  split
  · rename_i name named
    obtain ⟨span, rfl⟩ := asName?_some named
    refine makes_bind (makes_lift fun v hv => ?_)
    refine makes_bind (makes_lift fun _ _ => makes_register fun r hr => ?_)
    obtain ⟨below, word⟩ := he'.register arranged hv hr
    exact ⟨Nat.le_refl _, below.mono size, word file, fun _ _ => rfl⟩
  · refine makes_bind (makes_lift fun found constant => ?_)
    cases found with
    | some word =>
      refine makes_constant fun t after at_t sets => ?_
      refine ⟨by omega, at_t.below (by omega), ?_, sets.keeps at_t⟩
      rw [he'.word_of_constant? constant, sets.same]
    | none =>
      dsimp only
      split
      · exact makes_fail _ _
      · refine makes_bind (makes_temp fun t at_t => makes_bind (makes_releasing ?_))
        -- nothing depends on a scratch register
        have unseen : s.sees t e' = false := by
          rw [Bool.eq_false_iff]
          intro seen
          exact ((he'.below_of_sees arranged seen).mono size).ne at_t (Nat.le_refl _) rfl
        have made := hl' (watermark + 1) file t .int (by omega) (at_t.below (by omega))
          (Site.buildsIn_of_unseen unseen) (Ty.isWord_of_isIntegral rfl)
        refine made.mono id fun _ _ after filled => makes_pure ?_
        obtain ⟨word, value, sets⟩ := filled
        refine ⟨by omega, at_t.below (by omega), ?_, sets.keeps at_t⟩
        rw [value, sets.same]

/-- A member in a register of its own or in the destination. -/
theorem makes_member_operandIn (file : RegisterFile) (arranged : s.scope.Arranged) (he : s.Member e)
    (hl : Builds s e lowered) (size : s.scope.size ≤ watermark) {dst : Register}
    (hd : dst.Below watermark) {own : Bool} (safe : own = false → s.buildsIn dst e = true) :
    Makes (operandIn s e lowered own dst) watermark file False
      fun a w after => watermark ≤ w ∧ a.Below w ∧ (own = false → a = dst) ∧
        s.word file e = some (after a) ∧
        ∀ r : Register, r.Below watermark → (own = false → r ≠ dst) → after r = file r := by
  cases own with
  | true =>
    refine (makes_member_operand file arranged he hl size).mono id fun a w after made => ?_
    obtain ⟨le, below, word, keeps⟩ := made
    exact ⟨le, below, by simp, word, fun r hr _ => keeps r hr⟩
  | false =>
    have made := hl watermark file dst .int size hd (safe rfl) (Ty.isWord_of_isIntegral rfl)
    refine makes_bind (makes_releasing (made.mono id ?_))
    rintro _ _ after ⟨word, value, sets⟩
    refine makes_pure ⟨Nat.le_refl _, hd, fun _ => rfl, ?_, fun r hr ne => sets.other r hr (ne rfl)⟩
    rw [value, sets.same]

theorem eval?_ne_none {op : Arithmetic} (total : op ≠ .div ∧ op ≠ .mod) (a b : Int32) :
    op.eval? a b ≠ none := by
  obtain ⟨div, mod⟩ := total
  cases op <;> simp_all [Arithmetic.eval?]

/-- Two members, each in a register of its own or in the destination. The first one is built in the
destination only if the second does not depend on it. -/
theorem makes_member_operands (arranged : s.scope.Arranged) {op : Arithmetic}
    (total : op ≠ .div ∧ op ≠ .mod) {lhs rhs : Expr} {span : Span} {lowerLhs lowerRhs : Lowering}
    (left : s.Member lhs) (right : s.Member rhs) (hl : Builds s lhs lowerLhs)
    (hr : Builds s rhs lowerRhs) (size : s.scope.size ≤ watermark) {dst : Register}
    (hd : dst.Below watermark) {own : Bool} {later : Register → Bool}
    (first : own = false → s.buildsIn dst lhs = true ∧ s.sees dst rhs = false)
    (second : ∀ a, later a = false → a ≠ dst ∧ (own = true → s.buildsIn dst rhs = true)) :
    Makes (do
      let a ← operandIn s lhs lowerLhs own dst
      let b ← operandIn s rhs lowerRhs (later a) dst
      triple (operationOf op) dst a b) watermark file False fun _ _ after =>
        ∃ word, s.word file (.binary (.arithmetic op) lhs rhs span) = some word ∧
          Sets watermark dst word file after := by
  have made := makes_member_operandIn file arranged left hl size hd fun free => (first free).1
  refine makes_bind (made.mono id ?_)
  rintro a w₁ f₁ ⟨le₁, below_a, inPlace, word_a, other₁⟩
  have same : s.word f₁ rhs = s.word file rhs := by
    refine right.word_congr fun r seen => ?_
    refine other₁ r ((right.below_of_sees arranged seen).mono size) fun free eq => ?_
    rw [eq, (first free).2] at seen
    cases seen
  -- the second member is built in the destination only if the first has a register of its own
  have safe (free : later a = false) : s.buildsIn dst rhs = true := by
    obtain ⟨apart, safe⟩ := second a free
    refine safe ?_
    rw [← Bool.not_eq_false]
    exact fun free => apart (inPlace free)
  have made := makes_member_operandIn f₁ arranged right hr (Nat.le_trans size le₁) (hd.mono le₁) safe
  rw [same] at made
  refine makes_bind (made.mono id ?_)
  rintro b w₂ f₂ ⟨le₂, below_b, -, word_b, other₂⟩
  have kept : f₂ a = f₁ a := other₂ a below_a fun free => (second a free).1
  rw [← kept] at word_a
  rw [Site.word_arithmetic op word_a word_b]
  refine makes_operation op hd.near below_a.near below_b.near (eval?_ne_none total _ _) ?_
  intro word after eval sets
  refine ⟨word, eval, sets.same, fun r below ne => ?_⟩
  rw [sets.other r (below.mono (by omega)) ne, other₂ r (below.mono le₁) fun _ => ne,
    other₁ r below fun _ => ne]

theorem builds_arithmetic (arranged : s.scope.Arranged) {op : Arithmetic}
    (total : op ≠ .div ∧ op ≠ .mod) {lhs rhs : Expr} {span : Span} {lowerLhs lowerRhs : Lowering}
    (left : s.Member lhs) (right : s.Member rhs) (hl : Builds s lhs lowerLhs)
    (hr : Builds s rhs lowerRhs) :
    Builds s (.binary (.arithmetic op) lhs rhs span) fun dst _ =>
      arithmetic s op (.binary (.arithmetic op) lhs rhs span) lhs rhs lowerLhs lowerRhs dst := by
  intro watermark file dst ty size hd safe _
  unfold arithmetic
  refine makes_bind (makes_lift fun found constant => ?_)
  cases found with
  | some word =>
    refine makes_loadInt hd.near fun after sets => ⟨word, ?_, sets⟩
    exact (Site.Member.arithmetic span total left right).word_of_constant? constant _
  | none =>
    have left' := left.unwrapped
    have right' := right.unwrapped
    have hl' := hl.unwrapped
    have hr' := hr.unwrapped
    have whole : s.word file (.binary (.arithmetic op) lhs rhs span) =
        s.word file (.binary (.arithmetic op) lhs.unwrapped rhs.unwrapped span) := by
      rw [Site.word, Site.word, s.word_unwrapped, s.word_unwrapped]
    rw [Site.buildsIn, ← s.mentions_unwrapped, ← s.buildsIn_unwrapped dst lhs,
      ← s.buildsIn_unwrapped dst rhs, ← s.sees_unwrapped] at safe
    rw [whole]
    dsimp only
    generalize lhs.unwrapped = l at left' hl' safe
    generalize rhs.unwrapped = r at right' hr' safe
    split
    · rename_i m n name_l name_r
      obtain ⟨span_l, rfl⟩ := asName?_some name_l
      obtain ⟨span_r, rfl⟩ := asName?_some name_r
      refine makes_bind (makes_lift fun v hv => makes_bind (makes_lift fun w hw => ?_))
      split
      · refine makes_bind (makes_lift fun _ _ => ?_)
        refine makes_bind (makes_register fun a ha => makes_bind (makes_register fun b hb => ?_))
        obtain ⟨below_a, word_a⟩ := left'.register arranged hv ha
        obtain ⟨below_b, word_b⟩ := right'.register arranged hw hb
        rw [Site.word_arithmetic op (word_a file) (word_b file)]
        refine makes_operation op hd.near below_a.near below_b.near (eval?_ne_none total _ _) ?_
        exact fun word after eval sets => ⟨word, eval, sets⟩
      · exact makes_fail _ _
    · refine makes_member_operands arranged total left' right' hl' hr' size hd ?_ ?_
      · intro free
        obtain ⟨compound, silent⟩ := Bool.or_eq_false_iff.mp free
        simpa [compound, silent] using safe
      · intro a free
        simp only [Bool.or_eq_false_iff, beq_eq_false_iff_ne] at free
        obtain ⟨⟨-, apart⟩, silent⟩ := free
        refine ⟨apart, fun own => ?_⟩
        rw [silent, Bool.or_false] at own
        simpa [own, silent] using safe

theorem lower_access {op : BinaryOp} {lhs rhs : Expr} {span : Span}
    (access : op = .field ∨ op = .index) (dst : Register) (ty : Ty) :
    lower s (.binary op lhs rhs span) dst ty = (do
      let (src, srcTy) ← lift (s.place (.binary op lhs rhs span))
      copy dst src srcTy ty) := by
  rcases access with rfl | rfl <;> rw [lower]

/-- The code for a member leaves its word in the destination. -/
theorem builds_of_member (arranged : s.scope.Arranged) (he : s.Member e) : Builds s e (lower s e) := by
  induction he with
  | int n span =>
    intro watermark file dst ty size hd _ _
    exact makes_loadInt hd.near fun after sets => ⟨n, rfl, sets⟩
  | hex n span =>
    intro watermark file dst ty size hd _ _
    exact makes_loadInt hd.near fun after sets => ⟨n.toInt32, rfl, sets⟩
  | float n span =>
    intro watermark file dst ty size hd _ _
    exact makes_fail _ _
  | text value span =>
    intro watermark file dst ty size hd _ word
    exact makes_text value span word hd.near
  | name span known integral =>
    intro watermark file dst ty size hd _ word
    rw [lower]
    refine makes_bind (makes_lift fun v hv => ?_)
    have read {r : Register} (hr : v.register = .ok r) :=
      (Site.Member.name span known integral).register arranged hv hr
    rw [Site.lookup_eq_ok_iff.mp hv] at known
    cases known
    refine makes_copyVariable word.1 (Ty.size_of_isIntegral integral) hd.near ?_ ?_
    · exact fun r hr => (read hr).1.near
    · exact fun r after hr sets => ⟨file r, (read hr).2 file, sets⟩
  | @part op lhs rhs span access solid =>
    intro watermark file dst ty size hd _ word
    rw [lower_access access]
    refine makes_bind (makes_lift ?_)
    rintro ⟨first, part⟩ placed
    have seen : s.sees first (.binary op lhs rhs span) = true := by
      rw [Site.sees_access access, placed]
      exact Register.inRow_shift (shift_zero first) (solid first part placed)
    have below := (Site.Member.part access solid).below_of_sees arranged seen
    refine makes_copy word.1 (solid first part placed) hd.near below.near fun after sets => ?_
    exact ⟨file first, by rw [Site.word_access access, placed]; rfl, sets⟩
  | parens span inner ih =>
    intro watermark file dst ty size hd safe word
    rw [lower, Site.word]
    rw [Site.buildsIn] at safe
    exact ih watermark file dst ty size hd safe word
  | @neg e span inner ih =>
    intro watermark file dst ty size hd _ _
    rw [lower]
    refine makes_bind (makes_lift fun found constant => ?_)
    cases found with
    | some word =>
      refine makes_loadInt hd.near fun after sets => ⟨word, ?_, sets⟩
      exact (Site.Member.neg span inner).word_of_constant? constant _
    | none =>
      refine makes_bind (makes_constant fun z f₁ at_z h₁ => ?_)
      have same := inner.word_of_keeps arranged size (h₁.keeps at_z)
      have made := makes_member_operand f₁ arranged inner ih (show s.scope.size ≤ watermark + 1 by omega)
      rw [same] at made
      refine makes_bind (made.mono id ?_)
      rintro a w f₂ ⟨le, below, value, keeps⟩
      have below_z : z.Below (watermark + 1) := at_z.below (by omega)
      refine makes_total rfl rfl (by decide) hd.near below_z.near below.near fun f₃ h₃ => ?_
      refine ⟨-f₂ a, by rw [Site.word, value]; rfl, ?_, fun r hr ne => ?_⟩
      · rw [h₃.same, keeps z below_z, h₁.same, Int32.zero_sub]
      · rw [h₃.other r (hr.mono (by omega)) ne, keeps r (hr.mono (by omega)), h₁.keeps at_z r hr]
  | arithmetic span total left right ihl ihr =>
    intro watermark file dst ty size hd safe word
    rw [lower]
    exact builds_arithmetic arranged total left right ihl ihr watermark file dst ty size hd safe word

/-- The product of `(p.x * 2) + p.y` must not be built in the register of `p.y`. -/
example : (do
    let tree ← (resolveSource "[ p: (x: int, y: int) = (1, 2); p = (p.x, (p.x * 2) + p.y)").toOption
    let e ← (tree.scope 0).body[1]?
    let b ← e.binds?
    let member ← b.2.parts[1]?
    some (Site.buildsIn ⟨tree, 0⟩ ⟨.window, 1⟩ member)) = some false := by decide +kernel

end Emit

end WindowedClosures
