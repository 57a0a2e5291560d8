import WindowedClosures.Proofs.Code.Counting
import WindowedClosures.Proofs.Code.Playing
import WindowedClosures.Proofs.Machine.Windows

/-!
# Integer expressions

The value of an expression of integer literals, integral variables, arithmetic, comparisons and
connectives, computed from the variables alone, and the code for it: played or run, it leaves that
value in its destination, also where the destination is read by the expression, and changes nothing
else below the scratch registers. It stops exactly where the value divides by zero.
-/

namespace WindowedClosures

/-- The word of an expression, given the words of its variables; none where it divides by zero. -/
@[grind =] def Expr.value (read : String → Int32) : Expr → Option Int32
  | .int n _ => some n
  | .hex n _ => some n.toInt32
  | .name n _ => some (read n)
  | .tuple [⟨none, e⟩] _ => e.value read
  | .unary .neg e _ => (e.value read).map fun a => -a
  | .unary .not e _ => (e.value read).map fun a => truthWord (decide (a = 0))
  | .binary (.arithmetic op) lhs rhs _ => do
    let a ← lhs.value read
    let b ← rhs.value read
    op.eval? a b
  | .binary (.comparison op) lhs rhs _ => do
    let a ← lhs.value read
    let b ← rhs.value read
    some (truthWord (op.holds a b))
  | .binary (.connective op) lhs rhs _ => do
    let a ← lhs.value read
    let b ← rhs.value read
    some (truthWord (op.apply (decide (a ≠ 0)) (decide (b ≠ 0))))
  | _ => none

/-- Expressions of integers over the integral variables of a scope. -/
inductive Expr.Integral (s : Scope) : Expr → Prop
  | int (n : Int32) (span : Span) : Integral s (.int n span)
  | hex (n : UInt32) (span : Span) : Integral s (.hex n span)
  | name {n : String} {v : Variable} (span : Span) (known : s.local? n = some v)
    (integral : v.ty.isIntegral = true) : Integral s (.name n span)
  | parens {e : Expr} (span : Span) (inner : Integral s e) : Integral s (.tuple [⟨none, e⟩] span)
  | neg {e : Expr} (span : Span) (inner : Integral s e) : Integral s (.unary .neg e span)
  | not {e : Expr} (span : Span) (inner : Integral s e) : Integral s (.unary .not e span)
  | arithmetic (op : Arithmetic) {lhs rhs : Expr} (span : Span) (left : Integral s lhs)
    (right : Integral s rhs) : Integral s (.binary (.arithmetic op) lhs rhs span)
  | comparison (op : Comparison) {lhs rhs : Expr} (span : Span) (left : Integral s lhs)
    (right : Integral s rhs) : Integral s (.binary (.comparison op) lhs rhs span)
  | connective (op : Connective) {lhs rhs : Expr} (span : Span) (left : Integral s lhs)
    (right : Integral s rhs) : Integral s (.binary (.connective op) lhs rhs span)

/-- The word of a variable of the scope. -/
def Site.read (s : Site) (file : RegisterFile) (name : String) : Int32 :=
  match s.scope.local? name with
  | some v =>
    match v.register with
    | .ok r => file r
    | .error _ => 0
  | none => 0

theorem Ty.size_of_isIntegral {ty : Ty} (h : ty.isIntegral = true) : ty.size = 1 := by
  rw [← Ty.size_resolved]
  unfold Ty.isIntegral at h
  split at h
  · rename_i eq
    rw [eq]
    rfl
  · rename_i eq
    rw [eq]
    rfl
  · rename_i eq
    rw [eq]
    rfl
  · cases h

namespace Scope

/-- The variables of a scope lie in their banks, those of the window within the scope's size. -/
structure Arranged (s : Scope) : Prop extends s.KeepsBanks where
  inside : ∀ v ∈ s.vars, v.offset + v.ty.size ≤ s.size

variable {s : Scope} {v : Variable} {r : Register}

theorem KeepsBanks.near_of_bank (h : s.KeepsBanks) (mem : v ∈ s.vars ∨ v ∈ s.closure)
    (bank : r.bank = v.bank) : r.Near := by
  rcases mem with mem | mem
  · exact .inl (bank.trans (h.vars v mem))
  · exact .inr (bank.trans (h.closure v mem))

/-- The registers of a variable are not free where those of the scope end. -/
theorem Arranged.below_of_bank (h : s.Arranged) (mem : v ∈ s.vars ∨ v ∈ s.closure) (bank : r.bank = v.bank)
    (lt : r.offset < v.offset + v.ty.size) : r.Below s.size := by
  rcases mem with mem | mem
  · have inside := h.inside v mem
    exact .inr ⟨bank.trans (h.vars v mem), by omega⟩
  · exact .inl (bank.trans (h.closure v mem))

theorem Arranged.below (h : s.Arranged) (mem : v ∈ s.vars ∨ v ∈ s.closure) (size : v.ty.size = 1)
    (hr : v.register = .ok r) : r.Below s.size := by
  obtain ⟨bank, offset⟩ := Register.ofOffset_ok hr
  exact h.below_of_bank mem bank (by omega)

/-- Where the size of the scope is counted, its variables end within the count. -/
theorem Arranged.counted_variable (h : s.Arranged) (counts : s.counted = .ok s.size) (mem : v ∈ s.vars) :
    v.counted = .ok (v.offset + v.ty.size) := by
  obtain ⟨-, fits, each⟩ := counted_ok counts
  exact Variable.counted_eq_ok_iff.mpr
    ⟨each v mem, Nat.lt_of_le_of_lt (h.inside v mem) fits, rfl⟩

end Scope

theorem arranged_of_resolved {tree : ScopeTree} (h : tree.Resolved) (id : Nat) :
    (tree.scope id).Arranged := by
  obtain ⟨bound, ids, ready, eq⟩ := h.ready
  obtain ⟨start, stacked, size⟩ := ready.stacked id
  refine ⟨keepsBanks_of_resolved h id, ?_⟩
  rw [eq]
  intro v hv
  have inside := ScopeTree.inside_of_stacked stacked v hv
  omega

namespace Expr

variable {s : Site} {e : Expr} {file after : RegisterFile}

/-- Only registers that an expression mentions matter for its value, and none of them is free. -/
theorem Integral.value_congr (h : Integral s.scope e) (arranged : s.scope.Arranged)
    (agree : ∀ r : Register, r.Below s.scope.size → s.mentions r e = true → after r = file r) :
    e.value (s.read after) = e.value (s.read file) := by
  induction h with
  | int n span => rfl
  | hex n span => rfl
  | @name n v span known integral =>
    simp only [value, Site.read, known]
    cases hr : v.register with
    | error overflow => rfl
    | ok r =>
      have below := arranged.below (Scope.local?_mem known) (Ty.size_of_isIntegral integral) hr
      have mention : s.mentions r (.name n span) = true := by
        simp [Site.mentions, known, hr, Except.toOption]
      simp only [agree r below mention]
  | parens span inner ih =>
    rw [value, value]
    refine ih fun r below mention => agree r below ?_
    simp [Site.mentions, Site.mentionsField, mention]
  | neg span inner ih | not span inner ih =>
    rw [value, value, ih fun r below mention => agree r below (by simp [Site.mentions, mention])]
  | arithmetic op span left right ihl ihr | comparison op span left right ihl ihr
  | connective op span left right ihl ihr =>
    rw [value, value, ihl fun r below mention => agree r below (by simp [Site.mentions, mention]),
      ihr fun r below mention => agree r below (by simp [Site.mentions, mention])]

/-- A constant has its value wherever it stands. -/
theorem Integral.value_of_constant? {s : Scope} (h : Integral s e) {word : Int32}
    (constant : e.constant? = .ok (some word)) (read : String → Int32) : e.value read = some word := by
  induction h generalizing word with
  | int n span | hex n span =>
    cases constant
    rfl
  | name span known integral => simp [constant?] at constant
  | parens span inner ih =>
    rw [constant?] at constant
    rw [value]
    exact ih constant
  | neg span inner ih =>
    rw [constant?] at constant
    obtain ⟨found, hf, eq⟩ := except_bind_ok constant
    cases found with
    | none => simp at eq
    | some n =>
      simp only [Option.map_some, Except.ok.injEq, Option.some.injEq] at eq
      rw [value, ih hf, ← eq]
      rfl
  | not span inner ih => simp [constant?] at constant
  | arithmetic op span left right ihl ihr =>
    rw [constant?] at constant
    obtain ⟨a, ha, constant⟩ := except_bind_ok constant
    obtain ⟨b, hb, constant⟩ := except_bind_ok constant
    split at constant
    · split at constant
      · rename_i a b value' heval
        simp only [Except.ok.injEq, Option.some.injEq] at constant
        rw [value, ihl ha, ihr hb, ← constant]
        exact heval
      · cases constant
    · simp at constant
  | comparison op span left right ihl ihr => simp [constant?] at constant
  | connective op span left right ihl ihr => simp [constant?] at constant

/-- Redundant parentheses change neither the value nor the code. -/
theorem Integral.unwrapped {s : Scope} (h : Integral s e) :
    Integral s e.unwrapped ∧ e.unwrapped.unwrapped = e.unwrapped ∧
      (∀ read, e.unwrapped.value read = e.value read) := by
  induction h with
  | parens span inner ih =>
    obtain ⟨integral, idem, value'⟩ := ih
    refine ⟨by simpa using integral, by simpa using idem, fun read => ?_⟩
    rw [unwrapped_parens, value, value' read]
  | int n span => exact ⟨.int n span, rfl, fun _ => rfl⟩
  | hex n span => exact ⟨.hex n span, rfl, fun _ => rfl⟩
  | name span known integral => exact ⟨.name span known integral, rfl, fun _ => rfl⟩
  | neg span inner ih => exact ⟨.neg span inner, rfl, fun _ => rfl⟩
  | not span inner ih => exact ⟨.not span inner, rfl, fun _ => rfl⟩
  | arithmetic op span left right ihl ihr =>
    exact ⟨.arithmetic op span left right, rfl, fun _ => rfl⟩
  | comparison op span left right ihl ihr =>
    exact ⟨.comparison op span left right, rfl, fun _ => rfl⟩
  | connective op span left right ihl ihr =>
    exact ⟨.connective op span left right, rfl, fun _ => rfl⟩

end Expr

namespace RegisterFile

/-- The registers that are not free at a watermark are as before. -/
def Keeps (watermark : Nat) (before after : RegisterFile) : Prop :=
  ∀ r : Register, r.Below watermark → after r = before r

theorem Sets.keeps {watermark : Nat} {t : Register} {word : Int32} {before after : RegisterFile}
    (h : Sets (watermark + 1) t word before after) (at_t : t.At watermark) :
    Keeps watermark before after :=
  fun r hr => h.other r (hr.mono (by omega)) (hr.ne at_t (by omega))

end RegisterFile

namespace Emit

open RegisterFile

/-- A lowering that leaves the value of an expression in every destination that is not free. -/
def Lowers (s : Site) (e : Expr) (lowered : Lowering) : Prop :=
  ∀ watermark file dst, s.scope.size ≤ watermark → dst.Below watermark →
    Makes (lowered dst .int) watermark file (e.value (s.read file) = none) fun _ _ after =>
      ∃ word, e.value (s.read file) = some word ∧ Sets watermark dst word file after

variable {s : Site} {e : Expr} {lowered : Lowering} {watermark : Nat} {file : RegisterFile}

/-- The value stays the same while no register of a variable changes. -/
theorem value_of_keeps (he : e.Integral s.scope) (arranged : s.scope.Arranged)
    (size : s.scope.size ≤ watermark) {after : RegisterFile} (keeps : Keeps watermark file after) :
    e.value (s.read after) = e.value (s.read file) :=
  he.value_congr arranged fun r below _ => keeps r (below.mono size)

theorem Lowers.unwrapped (hl : Lowers s e lowered) (he : e.Integral s.scope) :
    Lowers s e.unwrapped lowered := by
  intro w f dst below
  rw [he.unwrapped.2.2]
  exact hl w f dst below

/-- The register of an integral variable. -/
theorem read_of_lookup (arranged : s.scope.Arranged) {n : String} {v w : Variable} {span : Span}
    {r : Register} (known : s.scope.local? n = some v) (integral : v.ty.isIntegral = true)
    (hw : s.lookup n span = .ok w) (hr : w.register = .ok r) :
    r.Below s.scope.size ∧
      ∀ file place, (Expr.name n place).value (s.read file) = some (file r) := by
  rw [Site.lookup, known] at hw
  cases hw
  refine ⟨arranged.below (Scope.local?_mem known) (Ty.size_of_isIntegral integral) hr, ?_⟩
  intro file place
  simp only [Expr.value, Site.read, known, hr]

theorem value_of_isTruthValue (h : isTruthValue e = true) {read : String → Int32} {word : Int32}
    (value : e.value read = some word) : ∃ b, word = truthWord b := by
  unfold isTruthValue at h
  split at h
  · rw [Expr.value] at value
    obtain ⟨a, -, value⟩ := Option.bind_eq_some_iff.mp value
    obtain ⟨b, -, value⟩ := Option.bind_eq_some_iff.mp value
    exact ⟨_, (Option.some.inj value).symm⟩
  · rw [Expr.value] at value
    obtain ⟨a, -, value⟩ := Option.bind_eq_some_iff.mp value
    obtain ⟨b, -, value⟩ := Option.bind_eq_some_iff.mp value
    exact ⟨_, (Option.some.inj value).symm⟩
  · rw [Expr.value] at value
    obtain ⟨a, -, value⟩ := Option.map_eq_some_iff.mp value
    exact ⟨_, value.symm⟩
  · cases h

/-- A constant, or else what a lowering leaves in a scratch register. -/
theorem makes_compound (file : RegisterFile) (he : e.Integral s.scope) (hl : Lowers s e lowered)
    (size : s.scope.size ≤ watermark) :
    Makes (do
      match ← lift e.constant? with
      | some value => constant value
      | none =>
        let r ← temp
        releasing (lowered r .int)
        return r) watermark file (e.value (s.read file) = none) fun a w after =>
      watermark ≤ w ∧ a.Below w ∧ e.value (s.read file) = some (after a) ∧
        Keeps watermark file after := by
  refine makes_bind (makes_lift fun found constant => ?_)
  cases found with
  | some word =>
    refine makes_constant fun t after at_t sets => ?_
    refine ⟨by omega, at_t.below (by omega), ?_, sets.keeps at_t⟩
    rw [he.value_of_constant? constant, sets.same]
  | none =>
    refine makes_bind (makes_temp fun t at_t => makes_bind (makes_releasing ?_))
    have made := hl (watermark + 1) file t (by omega) (at_t.below (by omega))
    refine made.mono id fun _ _ after filled => makes_pure ?_
    obtain ⟨word, value, sets⟩ := filled
    refine ⟨by omega, at_t.below (by omega), ?_, sets.keeps at_t⟩
    rw [value, sets.same]

theorem makes_operand (file : RegisterFile) (arranged : s.scope.Arranged) (he : e.Integral s.scope)
    (hl : Lowers s e lowered) (size : s.scope.size ≤ watermark) :
    Makes (operand s e lowered) watermark file (e.value (s.read file) = none) fun a w after =>
      watermark ≤ w ∧ a.Below w ∧ e.value (s.read file) = some (after a) ∧
        Keeps watermark file after := by
  obtain ⟨he', -, value⟩ := he.unwrapped
  have hl' := hl.unwrapped he
  rw [← value]
  unfold operand
  generalize e.unwrapped = e' at he' hl'
  have compound := makes_compound file he' hl' size
  cases he' with
  | @name n v span known integral =>
    refine makes_bind (makes_lift fun w hw => ?_)
    refine makes_bind (makes_lift fun _ _ => makes_register fun r hr => ?_)
    obtain ⟨below, value⟩ := read_of_lookup arranged known integral hw hr
    exact ⟨Nat.le_refl _, below.mono size, value file span, fun _ _ => rfl⟩
  | int | hex | parens | neg | not | arithmetic | comparison | connective => exact compound

/-- A truth value in a register. -/
theorem makes_truth (file : RegisterFile) (arranged : s.scope.Arranged) (he : e.Integral s.scope)
    (hl : Lowers s e lowered) (size : s.scope.size ≤ watermark) :
    Makes (truth s e lowered) watermark file (e.value (s.read file) = none) fun a w after =>
      watermark ≤ w ∧ a.Below w ∧ Keeps watermark file after ∧
        ∃ word, e.value (s.read file) = some word ∧ after a = truthWord (decide (word ≠ 0)) := by
  obtain ⟨he', idem, value⟩ := he.unwrapped
  have hl' := hl.unwrapped he
  rw [← value]
  unfold truth
  have operand := makes_operand file arranged he' hl' size
  by_cases already : isTruthValue e.unwrapped = true
  · simp only [already, if_true]
    refine operand.mono id fun a w after made => ?_
    obtain ⟨le, below, word, keeps⟩ := made
    refine ⟨le, below, keeps, _, word, ?_⟩
    obtain ⟨b, hb⟩ := value_of_isTruthValue already word
    rw [hb]
    cases b <;> decide
  · simp only [already]
    refine makes_bind (makes_lift fun found constant => ?_)
    cases found with
    | some word =>
      refine makes_constant fun t after at_t sets => ?_
      refine ⟨by omega, at_t.below (by omega), sets.keeps at_t, word,
        he'.value_of_constant? constant _, ?_⟩
      rw [sets.same]
      by_cases zero : word = 0 <;> simp [zero, truthWord]
    | none =>
      refine makes_bind (operand.mono id fun a w between made => ?_)
      obtain ⟨le, below, word, keeps⟩ := made
      refine makes_bind (makes_temp fun t at_t => ?_)
      refine makes_bind (makes_nonzero (at_t.below (by omega)) (below.mono (by omega)) ?_)
      intro after w' le' sets
      refine makes_pure ⟨by omega, at_t.below (by omega), ?_, _, word, sets.same⟩
      intro r hr
      rw [sets.other r (hr.mono (by omega)) (hr.ne at_t le), keeps r hr]

/-- An operand in a register of its own or in the destination. -/
theorem makes_operandIn (file : RegisterFile) (arranged : s.scope.Arranged) (he : e.Integral s.scope)
    (hl : Lowers s e lowered) (size : s.scope.size ≤ watermark) {dst : Register}
    (hd : dst.Below watermark) (own : Bool) :
    Makes (operandIn s e lowered own dst) watermark file (e.value (s.read file) = none)
      fun a w after => watermark ≤ w ∧ a.Below w ∧ e.value (s.read file) = some (after a) ∧
        ∀ r : Register, r.Below watermark → (own = false → r ≠ dst) → after r = file r := by
  cases own with
  | true =>
    refine (makes_operand file arranged he hl size).mono id fun a w after made => ?_
    obtain ⟨le, below, word, keeps⟩ := made
    exact ⟨le, below, word, fun r hr _ => keeps r hr⟩
  | false =>
    refine makes_bind (makes_releasing ((hl watermark file dst size hd).mono id ?_))
    rintro _ _ after ⟨word, value, sets⟩
    refine makes_pure ⟨Nat.le_refl _, hd, ?_, fun r hr ne => sets.other r hr (ne rfl)⟩
    rw [value, sets.same]

theorem alu?_operationOf (op : Arithmetic) (a b : Int32) :
    alu? (operationOf op) a b = op.eval? a b := by
  cases op <;> rfl

/-- The last instruction of arithmetic. -/
theorem makes_operation (op : Arithmetic) {dst a b : Register} {fault : Prop}
    {Q : Unit → Nat → RegisterFile → Prop} (hd : dst.Near) (ha : a.Near) (hb : b.Near)
    (none : op.eval? (file a) (file b) = none → fault)
    (h : ∀ word after, op.eval? (file a) (file b) = some word →
      Sets watermark dst word file after → Q () watermark after) :
    Makes (triple (operationOf op) dst a b) watermark file fault Q := by
  have arithmetic : (operationOf op).isArithmetic = true := by cases op <;> rfl
  have inc : operationOf op ≠ .inc := by cases op <;> decide
  refine makes_triple arithmetic inc hd ha hb ?_ ?_
  · rw [alu?_operationOf]
    exact none
  · rw [alu?_operationOf]
    exact h

theorem asName?_some {name : String} (h : e.asName? = some name) : ∃ span, e = .name name span := by
  unfold Expr.asName? at h
  split at h
  · cases h
    exact ⟨_, rfl⟩
  · cases h

theorem value_arithmetic (op : Arithmetic) {lhs rhs : Expr} {span : Span} {read : String → Int32}
    {a b : Int32} (ha : lhs.value read = some a) (hb : rhs.value read = some b) :
    (Expr.binary (.arithmetic op) lhs rhs span).value read = op.eval? a b := by
  rw [Expr.value, ha, hb]
  rfl

/-- Two operands, each in a register of its own or in the destination: the second one does not
disturb the first, nor the first what the second reads. -/
theorem makes_operands (arranged : s.scope.Arranged) (op : Arithmetic) {lhs rhs : Expr}
    {span : Span} {lowerLhs lowerRhs : Lowering} (left : lhs.Integral s.scope)
    (right : rhs.Integral s.scope) (hl : Lowers s lhs lowerLhs) (hr : Lowers s rhs lowerRhs)
    (size : s.scope.size ≤ watermark) {dst : Register} (hd : dst.Below watermark) {own : Bool}
    (later : Register → Bool) (kept : own = false → s.mentions dst rhs = false)
    (apart : ∀ a, later a = false → a ≠ dst) :
    Makes (do
      let a ← operandIn s lhs lowerLhs own dst
      let b ← operandIn s rhs lowerRhs (later a) dst
      triple (operationOf op) dst a b) watermark file
      ((Expr.binary (.arithmetic op) lhs rhs span).value (s.read file) = none) fun _ _ after =>
        ∃ word, (Expr.binary (.arithmetic op) lhs rhs span).value (s.read file) = some word ∧
          Sets watermark dst word file after := by
  have fault_l (zero : lhs.value (s.read file) = none) :
      (Expr.binary (.arithmetic op) lhs rhs span).value (s.read file) = none := by
    rw [Expr.value, zero]
    rfl
  refine makes_bind ((makes_operandIn file arranged left hl size hd own).mono fault_l ?_)
  rintro a w₁ f₁ ⟨le₁, below_a, value_a, other₁⟩
  have same : rhs.value (s.read f₁) = rhs.value (s.read file) := by
    refine right.value_congr arranged fun r below mention => ?_
    refine other₁ r (below.mono size) fun free eq => ?_
    rw [eq, kept free] at mention
    cases mention
  have second := makes_operandIn f₁ arranged right hr (Nat.le_trans size le₁)
    (hd.mono le₁) (later a)
  rw [same] at second
  have fault_r (zero : rhs.value (s.read file) = none) :
      (Expr.binary (.arithmetic op) lhs rhs span).value (s.read file) = none := by
    rw [Expr.value, value_a, zero]
    rfl
  refine makes_bind (second.mono fault_r ?_)
  rintro b w₂ f₂ ⟨le₂, below_b, value_b, other₂⟩
  have first_kept : f₂ a = f₁ a := other₂ a below_a (apart a)
  rw [← first_kept] at value_a
  rw [value_arithmetic op value_a value_b]
  refine makes_operation op hd.near below_a.near below_b.near id ?_
  intro word after eval sets
  refine ⟨word, eval, sets.same, fun r below ne => ?_⟩
  rw [sets.other r (below.mono (by omega)) ne, other₂ r (below.mono le₁) fun _ => ne,
    other₁ r below fun _ => ne]

theorem lowers_arithmetic (arranged : s.scope.Arranged) (op : Arithmetic) {lhs rhs : Expr}
    {span : Span} {lowerLhs lowerRhs : Lowering} (left : lhs.Integral s.scope)
    (right : rhs.Integral s.scope) (hl : Lowers s lhs lowerLhs) (hr : Lowers s rhs lowerRhs) :
    Lowers s (.binary (.arithmetic op) lhs rhs span) fun dst _ =>
      arithmetic s op (.binary (.arithmetic op) lhs rhs span) lhs rhs lowerLhs lowerRhs dst := by
  intro watermark file dst size hd
  unfold arithmetic
  refine makes_bind (makes_lift fun found constant => ?_)
  cases found with
  | some word =>
    refine makes_loadInt hd.near fun after sets => ⟨word, ?_, sets⟩
    exact (Expr.Integral.arithmetic op span left right).value_of_constant? constant _
  | none =>
    obtain ⟨left', -, value_l⟩ := left.unwrapped
    obtain ⟨right', -, value_r⟩ := right.unwrapped
    have hl' := hl.unwrapped left
    have hr' := hr.unwrapped right
    have whole : (Expr.binary (.arithmetic op) lhs rhs span).value (s.read file) =
        (Expr.binary (.arithmetic op) lhs.unwrapped rhs.unwrapped span).value (s.read file) := by
      rw [Expr.value, Expr.value, value_l, value_r]
    rw [whole]
    dsimp only
    generalize lhs.unwrapped = l at left' hl'
    generalize rhs.unwrapped = r at right' hr'
    split
    · rename_i m n name_l name_r
      obtain ⟨span_l, rfl⟩ := asName?_some name_l
      obtain ⟨span_r, rfl⟩ := asName?_some name_r
      refine makes_bind (makes_lift fun v hv => makes_bind (makes_lift fun w hw => ?_))
      split
      · refine makes_bind (makes_lift fun _ _ => ?_)
        refine makes_bind (makes_register fun a ha => makes_bind (makes_register fun b hb => ?_))
        cases left' with
        | @name _ v' _ known_l integral_l =>
          cases right' with
          | @name _ w' _ known_r integral_r =>
            obtain ⟨below_a, value_a⟩ := read_of_lookup arranged known_l integral_l hv ha
            obtain ⟨below_b, value_b⟩ := read_of_lookup arranged known_r integral_r hw hb
            rw [value_arithmetic op (value_a file span_l) (value_b file span_r)]
            refine makes_operation op hd.near below_a.near below_b.near id ?_
            exact fun word after eval sets => ⟨word, eval, sets⟩
      · exact makes_fail _ _
    · refine makes_operands arranged op left' right' hl' hr' size hd
        (fun a => isLeaf r || a == dst || s.mentions dst r) ?_ ?_
      · intro free
        exact (Bool.or_eq_false_iff.mp free).2
      · intro a free
        have first := (Bool.or_eq_false_iff.mp free).1
        have second := (Bool.or_eq_false_iff.mp first).2
        exact fun eq => by simp [eq] at second

theorem shift_zero (r : Register) : r.shift 0 = .ok r := by
  simp [Register.shift, Register.ofOffset]

/-- Copying a value to a place of one register. -/
theorem makes_copy {dst src : Register} {srcTy ty : Ty} {fault : Prop}
    {Q : Unit → Nat → RegisterFile → Prop} (one : ty.size = 1) (pos : 0 < srcTy.size) (hd : dst.Near)
    (hs : src.Near) (h : ∀ after, Sets watermark dst (file src) file after → Q () watermark after) :
    Makes (copy dst src srcTy ty) watermark file fault Q := by
  have solid : ¬ ty.isVoid = true := by
    intro void
    unfold Ty.isVoid at void
    split at void
    · rename_i eq
      rw [← Ty.size_resolved, eq] at one
      cases one
    · cases void
  have single : copy dst src srcTy ty = copyFrom dst src 0 1 := by
    rw [copy, if_neg solid, show min srcTy.size ty.size = 1 by omega]
    rfl
  rw [single, copyFrom, shift_zero, shift_zero]
  refine makes_bind (makes_register fun slot hslot => makes_bind (makes_register fun origin ho => ?_))
  cases hslot
  cases ho
  exact makes_bind (makes_move hd hs fun after sets => makes_pure (h after sets))

/-- Copying a variable of one register. -/
theorem makes_copyVariable {v : Variable} {dst : Register} {ty : Ty} {fault : Prop}
    {Q : Unit → Nat → RegisterFile → Prop} (one : ty.size = 1) (size : v.ty.size = 1) (hd : dst.Near)
    (near : ∀ r, v.register = .ok r → r.Near)
    (h : ∀ r after, v.register = .ok r → Sets watermark dst (file r) file after →
      Q () watermark after) :
    Makes (copyVariable dst v ty) watermark file fault Q := by
  refine makes_bind (makes_register fun src hs => ?_)
  exact makes_copy one (by omega) hd (near src hs) fun after sets => h src after hs sets

theorem lowers_name (arranged : s.scope.Arranged) {n : String} {v : Variable} (span : Span)
    (known : s.scope.local? n = some v) (integral : v.ty.isIntegral = true) :
    Lowers s (.name n span) (lower s (.name n span)) := by
  intro watermark file dst size hd
  rw [lower]
  refine makes_bind (makes_lift fun w hw => ?_)
  have eq : w = v := by
    rw [Site.lookup, known] at hw
    exact (Except.ok.inj hw).symm
  have read (r : Register) (hr : w.register = .ok r) := read_of_lookup arranged known integral hw hr
  refine makes_copyVariable rfl (by rw [eq]; exact Ty.size_of_isIntegral integral) hd.near ?_ ?_
  · exact fun r hr => (read r hr).1.near
  · exact fun r after hr sets => ⟨file r, (read r hr).2 file span, sets⟩

theorem lowers_neg (arranged : s.scope.Arranged) (span : Span) (inner : e.Integral s.scope)
    (he : Lowers s e (lower s e)) :
    Lowers s (.unary .neg e span) (lower s (.unary .neg e span)) := by
  intro watermark file dst size hd
  rw [lower]
  refine makes_bind (makes_lift fun found constant => ?_)
  cases found with
  | some word =>
    refine makes_loadInt hd.near fun after sets => ⟨word, ?_, sets⟩
    exact (Expr.Integral.neg span inner).value_of_constant? constant _
  | none =>
    refine makes_bind (makes_constant fun z f₁ at_z h₁ => ?_)
    have same := value_of_keeps inner arranged size (h₁.keeps at_z)
    have operand := makes_operand f₁ arranged inner he
      (show s.scope.size ≤ watermark + 1 by omega)
    rw [same] at operand
    refine makes_bind (operand.mono (fun zero => by rw [Expr.value, zero]; rfl) ?_)
    rintro a w f₂ ⟨le, below, value, keeps⟩
    have below_z : z.Below (watermark + 1) := at_z.below (by omega)
    refine makes_total rfl rfl (by decide) hd.near below_z.near below.near fun f₃ h₃ => ?_
    refine ⟨-f₂ a, by rw [Expr.value, value]; rfl, ?_, fun r hr ne => ?_⟩
    · rw [h₃.same, keeps z below_z, h₁.same, Int32.zero_sub]
    · rw [h₃.other r (hr.mono (by omega)) ne, keeps r (hr.mono (by omega)), h₁.keeps at_z r hr]

theorem lowers_not (arranged : s.scope.Arranged) (span : Span) (inner : e.Integral s.scope)
    (he : Lowers s e (lower s e)) :
    Lowers s (.unary .not e span) (lower s (.unary .not e span)) := by
  intro watermark file dst size hd
  rw [lower]
  have truth := makes_truth file arranged inner he size
  refine makes_bind (truth.mono (fun zero => by rw [Expr.value, zero]; rfl) ?_)
  rintro a w f₁ ⟨le, below, keeps, word, value, truth⟩
  refine makes_invert hd.near below.near truth fun after sets => ?_
  have opposite : (!decide (word ≠ 0)) = decide (word = 0) := by simp
  rw [opposite] at sets
  refine ⟨_, by rw [Expr.value, value]; rfl, sets.same, fun r hr ne => ?_⟩
  rw [sets.other r (hr.mono le) ne, keeps r hr]

theorem lowers_comparison (arranged : s.scope.Arranged) (op : Comparison) {lhs rhs : Expr} (span : Span)
    (left : lhs.Integral s.scope) (right : rhs.Integral s.scope) (hl : Lowers s lhs (lower s lhs))
    (hr : Lowers s rhs (lower s rhs)) :
    Lowers s (.binary (.comparison op) lhs rhs span)
      (lower s (.binary (.comparison op) lhs rhs span)) := by
  intro watermark file dst size hd
  rw [lower]
  have first := makes_operand file arranged left hl size
  refine makes_bind (first.mono (fun zero => by rw [Expr.value, zero]; rfl) ?_)
  rintro a w₁ f₁ ⟨le₁, below_a, value_a, keeps₁⟩
  have second := makes_operand f₁ arranged right hr (Nat.le_trans size le₁)
  rw [value_of_keeps right arranged size keeps₁] at second
  refine makes_bind (second.mono (fun zero => by rw [Expr.value, value_a, zero]; rfl) ?_)
  rintro b w₂ f₂ ⟨le₂, below_b, value_b, keeps₂⟩
  refine makes_compare op (hd.mono (by omega)) (below_a.mono le₂) below_b fun after w _ sets => ?_
  refine ⟨_, ?_, sets.same, fun r below ne => ?_⟩
  · rw [Expr.value, value_a, value_b, keeps₂ a below_a]
    rfl
  · rw [sets.other r (below.mono (by omega)) ne, keeps₂ r (below.mono le₁), keeps₁ r below]

theorem lowers_connective (arranged : s.scope.Arranged) (op : Connective) {lhs rhs : Expr} (span : Span)
    (left : lhs.Integral s.scope) (right : rhs.Integral s.scope) (hl : Lowers s lhs (lower s lhs))
    (hr : Lowers s rhs (lower s rhs)) :
    Lowers s (.binary (.connective op) lhs rhs span)
      (lower s (.binary (.connective op) lhs rhs span)) := by
  intro watermark file dst size hd
  rw [lower]
  have first := makes_truth file arranged left hl size
  refine makes_bind (first.mono (fun zero => by rw [Expr.value, zero]; rfl) ?_)
  rintro a w₁ f₁ ⟨le₁, below_a, keeps₁, word_a, value_a, truth_a⟩
  have second := makes_truth f₁ arranged right hr (Nat.le_trans size le₁)
  rw [value_of_keeps right arranged size keeps₁] at second
  refine makes_bind (second.mono (fun zero => by rw [Expr.value, value_a, zero]; rfl) ?_)
  rintro b w₂ f₂ ⟨le₂, below_b, keeps₂, word_b, value_b, truth_b⟩
  have truth_a' : f₂ a = truthWord (decide (word_a ≠ 0)) := by rw [keeps₂ a below_a, truth_a]
  refine makes_connect op hd.near (below_a.mono le₂) below_b truth_a' truth_b ?_
  intro after w sets
  refine ⟨_, ?_, sets.same, fun r below ne => ?_⟩
  · rw [Expr.value, value_a, value_b]
    rfl
  · rw [sets.other r (below.mono (by omega)) ne, keeps₂ r (below.mono le₁), keeps₁ r below]

/-- The code for an integer expression leaves its value in the destination. -/
theorem lowers_of_integral (arranged : s.scope.Arranged) (he : e.Integral s.scope) :
    Lowers s e (lower s e) := by
  induction he with
  | int n span =>
    intro watermark file dst size hd
    exact makes_loadInt hd.near fun after sets => ⟨n, rfl, sets⟩
  | hex n span =>
    intro watermark file dst size hd
    exact makes_loadInt hd.near fun after sets => ⟨n.toInt32, rfl, sets⟩
  | name span known integral => exact lowers_name arranged span known integral
  | parens span inner ih =>
    intro watermark file dst size hd
    rw [lower, Expr.value]
    exact ih watermark file dst size hd
  | neg span inner ih => exact lowers_neg arranged span inner ih
  | not span inner ih => exact lowers_not arranged span inner ih
  | arithmetic op span left right ihl ihr =>
    intro watermark file dst size hd
    rw [lower]
    exact lowers_arithmetic arranged op left right ihl ihr watermark file dst size hd
  | comparison op span left right ihl ihr =>
    exact lowers_comparison arranged op span left right ihl ihr
  | connective op span left right ihl ihr =>
    exact lowers_connective arranged op span left right ihl ihr

end Emit

/-- A part of loaded code is ahead where it starts. -/
theorem Machine.Holds.ahead {m : Machine} (front part back : List Instruction)
    (h : m.Holds (front ++ part ++ back)) (pc : m.pc = front.length)
    (top : (front ++ part ++ back).length ≤ m.top) : m.Ahead part := by
  intro k i hi
  have lt : k < part.length := (List.getElem?_eq_some_iff.mp hi).1
  have address : front.length + k < (front ++ part ++ back).length := by
    simp only [List.length_append]
    omega
  have stands : (front ++ part ++ back)[front.length + k]? = some i := by
    rw [List.append_assoc, List.getElem?_append_right (by omega), Nat.add_sub_cancel_left,
      List.getElem?_append_left lt, hi]
  rw [pc, h _ address, stands]
  refine ⟨?_, by omega⟩
  simp [Instruction.decode?_encode]

/-- Loaded code is ahead of its first instruction. -/
theorem Run.ahead_start {code : List Instruction} (fits : code.length ≤ stackSize) :
    (Run.start code 0).machine.Ahead code :=
  Machine.Holds.ahead (m := Machine.load code 0) [] code []
    (by simpa using Machine.holds_load code 0 fits) rfl (by simp [Machine.load])

/-- The first window lies behind the code, so it is in the memory when there is room for it. -/
theorem Run.seated_start {code : List Instruction} (room : code.length + 64 ≤ stackSize) :
    (Run.start code 0).machine.Seated :=
  ⟨room, show 0 < 256 by decide⟩

open Relation (ReflTransGen) in
/-- Wherever a run of a compiled program gets, the code from there on is ahead as it was compiled. -/
theorem ahead_of_reached {tree : ScopeTree} {program : Program} (hr : tree.Resolved)
    (hc : tree.compile = .ok program) {trap : Trap} {r : Run}
    (reached : ReflTransGen (Exec.Goes trap program.code) program.start r)
    {front part back : List Instruction} (cut : front ++ part ++ back = program.code)
    (pc : front.length = r.machine.pc) : r.machine.Ahead part := by
  obtain ⟨fits, confined⟩ := confined_of_compiled hr hc
  have intact := (Exec.intact_start program.code (program.entry?.getD 0) fits).run confined reached
  exact Machine.Holds.ahead front part back (by rw [cut]; exact intact.holds) pc.symm
    (by rw [cut]; exact intact.above.top)

/-- A cell that is neither a register that changed nor a scratch register is the same behind the
code. -/
theorem readCell?_of_kept {m n : Machine} {watermark : Nat} {after : RegisterFile}
    (changed : Register → Prop) (seated : m.Seated) (beside : m.Beside n) (shows : n.Shows after)
    (kept : ∀ r : Register, r.Below watermark → ¬ changed r → after r = m.file r) {c : Cell}
    (ne : ∀ r, changed r → c ≠ m.cell r)
    (scratch : ∀ k, watermark ≤ k → k < 64 → c ≠ .stack (m.top + k)) :
    n.readCell? c = m.readCell? c := by
  by_cases near : ∃ r : Register, r.Near ∧ m.cell r = c
  · obtain ⟨r, near, rfl⟩ := near
    have below : r.Below watermark := by
      rcases near with bank | bank
      · refine .inr ⟨bank, ?_⟩
        by_contra free
        exact scratch r.offset (by omega) r.offset.isLt (by simp [Machine.cell, bank])
      · exact .inl bank
    have other : ¬ changed r := fun hr => ne r hr rfl
    have read := (beside.seated seated).readCell? near
    rw [beside.cell r] at read
    rw [read, seated.readCell? near, shows r near, kept r below other]
  · exact beside.cells c fun r hr eq => near ⟨r, hr, eq⟩

/-- A cell that is neither the destination nor a scratch register is the same behind the code. -/
theorem readCell?_of_sets {m n : Machine} {watermark : Nat} {dst : Register} {word : Int32}
    {after : RegisterFile} (seated : m.Seated) (beside : m.Beside n) (shows : n.Shows after)
    (sets : RegisterFile.Sets watermark dst word m.file after) {c : Cell} (ne : c ≠ m.cell dst)
    (scratch : ∀ k, watermark ≤ k → k < 64 → c ≠ .stack (m.top + k)) :
    n.readCell? c = m.readCell? c :=
  readCell?_of_kept (· = dst) seated beside shows sets.other (fun _ eq => eq ▸ ne) scratch

/-- The code for an integer expression, run from any state, leaves the value of the expression in its
destination and everything else but the scratch registers as it was, or it stops where the value
divides by zero. -/
theorem evaluation_exact {tree : ScopeTree} (h : tree.Resolved) {id : ScopeId} {e : Expr}
    (he : e.Integral (tree.scope id)) {watermark : Nat} (size : (tree.scope id).size ≤ watermark)
    {dst : Register}
    (hd : (∃ v, (v ∈ (tree.scope id).vars ∨ v ∈ (tree.scope id).closure) ∧ v.ty.size = 1 ∧
      v.register = .ok dst) ∨ dst.bank = .window ∧ dst.offset.val < watermark)
    {result : Emission Unit} (emitted : eval ⟨tree, id⟩ e dst .int watermark = .ok result)
    {r : Run} (seated : r.machine.Seated)
    (ahead : r.machine.Ahead (result.code.map (·.instruction))) :
    match e.value (Site.read ⟨tree, id⟩ r.machine.file) with
    | some word => ∃ s : Run,
        (∀ n, Exec.ticks .none (result.code.length + n) r = Exec.ticks .none n s) ∧
        s.machine.readCell? (s.machine.cell dst) = some word ∧
        (∀ c, c ≠ r.machine.cell dst →
          (∀ k, watermark ≤ k → k < 64 → c ≠ .stack (r.machine.top + k)) →
          s.machine.readCell? c = r.machine.readCell? c) ∧
        s.machine.pc = r.machine.pc + result.code.length ∧ s.machine.top = r.machine.top ∧
        s.machine.base = r.machine.base ∧ s.machine.closure = r.machine.closure ∧
        s.machine.aux = r.machine.aux ∧ s.machine.pool = r.machine.pool ∧
        s.callers = r.callers ∧ s.prints = r.prints
    | none => ∃ s : Run, ∀ n, result.code.length ≤ n →
        Exec.ticks .none n r = .error .divisionByZero s := by
  have arranged := arranged_of_resolved h id
  have below : dst.Below watermark := by
    rcases hd with ⟨v, mem, one, hr⟩ | inWindow
    · exact (arranged.below mem one hr).mono size
    · exact .inr inWindow
  obtain ⟨inner, lowered, rfl⟩ := Emit.releasing_ok emitted
  have made := Emit.lowers_of_integral (s := ⟨tree, id⟩) arranged he watermark r.machine.file dst size
    below inner lowered
  have shows : r.machine.Shows r.machine.file := fun _ _ => rfl
  cases played : play (inner.code.map (·.plain)) r.machine.file with
  | error halt =>
    rw [played] at made
    obtain ⟨rfl, zero⟩ := made
    rw [zero]
    rw [← play_plain (by rw [played]; simp)] at played
    obtain ⟨s, ticks⟩ := ticks_of_play_error seated shows ahead played
    rw [List.length_map] at ticks
    exact ⟨s, ticks⟩
  | ok after =>
    rw [played] at made
    obtain ⟨word, value, sets⟩ := made
    rw [value]
    rw [← play_plain (by rw [played]; simp)] at played
    obtain ⟨s, ticks, beside, shows', pc, callers, prints⟩ :=
      ticks_of_play seated shows ahead played
    rw [List.length_map] at ticks pc
    refine ⟨s, ticks, ?_, ?_, pc, beside.top, beside.base, beside.closure, beside.aux, beside.pool,
      callers, prints⟩
    · rw [(beside.seated seated).readCell? below.near, shows' dst below.near, sets.same]
    · exact fun c ne scratch => readCell?_of_sets seated beside shows' sets ne scratch

/-- `7 / (a + 2) - (a < 1) * 100` is computed in the register of `a`, which holds 0 before. -/
theorem evaluation_exact_in_place : ∃ tree e result s,
    resolveSource "[ a: int = 5" = .ok tree ∧
      e = Expr.binary (.arithmetic .sub)
        (.binary (.arithmetic .div) (.int 7 .zero)
          (.tuple [⟨none, .binary (.arithmetic .add) (.name "a" .zero) (.int 2 .zero) .zero⟩] .zero)
          .zero)
        (.binary (.arithmetic .mul)
          (.tuple [⟨none, .binary (.comparison .lt) (.name "a" .zero) (.int 1 .zero) .zero⟩] .zero)
          (.int 100 .zero) .zero) .zero ∧
      eval ⟨tree, 0⟩ e ⟨.window, 0⟩ .int 1 = .ok result ∧
      (∀ n, Exec.ticks .none (result.code.length + n)
        (.start (result.code.map (·.instruction)) 0) = Exec.ticks .none n s) ∧
      s.machine.readCell? (s.machine.cell ⟨.window, 0⟩) = some (-97) := by
  let e := Expr.binary (.arithmetic .sub)
    (.binary (.arithmetic .div) (.int 7 .zero)
      (.tuple [⟨none, .binary (.arithmetic .add) (.name "a" .zero) (.int 2 .zero) .zero⟩] .zero) .zero)
    (.binary (.arithmetic .mul)
      (.tuple [⟨none, .binary (.comparison .lt) (.name "a" .zero) (.int 1 .zero) .zero⟩] .zero)
      (.int 100 .zero) .zero) .zero
  have found : (do
      let tree ← (resolveSource "[ a: int = 5").toOption
      let v ← (tree.scope 0).local? "a"
      let result ← (eval ⟨tree, 0⟩ e ⟨.window, 0⟩ .int 1).toOption
      if v.ty.isIntegral ∧ (tree.scope 0).size ≤ 1 ∧
        result.code.length + 64 ≤ stackSize ∧ e.value (Site.read ⟨tree, 0⟩
          (Run.start (result.code.map (·.instruction)) 0).machine.file) = some (-97) then some ()
      else none) = some () := by decide +kernel
  obtain ⟨tree, ht, found⟩ := Option.bind_eq_some_iff.mp found
  obtain ⟨v, hv, found⟩ := Option.bind_eq_some_iff.mp found
  obtain ⟨result, hr, found⟩ := Option.bind_eq_some_iff.mp found
  split at found
  · rename_i facts
    obtain ⟨integral, size, fits, value⟩ := facts
    have source := toOption_eq_some ht
    have emitted := toOption_eq_some hr
    have name : Expr.Integral (tree.scope 0) (.name "a" .zero) := .name .zero hv integral
    have he : e.Integral (tree.scope 0) :=
      .arithmetic .sub _
        (.arithmetic .div _ (.int _ _) (.parens _ (.arithmetic .add _ name (.int _ _))))
        (.arithmetic .mul _ (.parens _ (.comparison .lt _ name (.int _ _))) (.int _ _))
    let code := result.code.map (·.instruction)
    have length : code.length = result.code.length := List.length_map _
    have ahead : (Run.start code 0).machine.Ahead code := Run.ahead_start (by omega)
    have seated : (Run.start code 0).machine.Seated := Run.seated_start (by omega)
    have exact := evaluation_exact (resolveSource_ok source) he size
      (.inr ⟨rfl, by decide⟩) emitted seated ahead
    rw [value] at exact
    obtain ⟨s, ticks, word, -⟩ := exact
    exact ⟨tree, e, result, s, source, rfl, emitted, ticks, word⟩
  · cases found

end WindowedClosures
