import WindowedClosures.Proofs.Code.Copying
import WindowedClosures.Proofs.Code.Frames
import WindowedClosures.Proofs.Expr.Nodes

/-!
# The footprint of code

Which registers the code of an expression looks at and which it changes. It looks at the variables
that the expression names or its literals capture, at the place it fills and at scratch registers; it
changes that place, the places of assignments inside the expression, scratch registers and the closure
that is being filled. How far a place reaches depends on the expression: most values take one
register, whatever the type says.
-/

namespace WindowedClosures

open Emit (slots?)

namespace Instruction

/-- Whether the machine looks at the word in a register when it carries out the instruction. A text
is read from its first register on. -/
def reads (i : Instruction) (r : Register) : Bool :=
  match i.op with
  | .loadHigh | .inc | .retain | .release => r == .ofByte i.x
  | .move | .loadStack | .callRegister => r == .ofByte i.y
  | .storeStack => r == .ofByte i.x || r == .ofByte i.z
  | .add | .sub | .mul | .div | .mod | .nand | .shl | .shr => r == .ofByte i.y || r == .ofByte i.z
  | .print => r.bank == (Register.ofByte i.x).bank && decide ((Register.ofByte i.x).offset ≤ r.offset)
  | _ => false

/-- The register that an instruction gives a new word. -/
def writes? (i : Instruction) : Option Register :=
  match i.op with
  | .loadLow | .loadHigh | .move | .loadStack | .inc | .closureMake => some (.ofByte i.x)
  | .add | .sub | .mul | .div | .mod | .nand | .shl | .shr => some (.ofByte i.x)
  | _ => none

@[simp] theorem op_triple (op : Operation) (x y z : Register) : (triple op x y z).op = op := rfl

theorem reads_triple {op : Operation} (arithmetic : op.isArithmetic = true) (inc : op ≠ .inc)
    (x y z r : Register) : (triple op x y z).reads r = (r == y || r == z) := by
  cases op <;> simp_all [Operation.isArithmetic, reads]

theorem writes?_triple {op : Operation} (arithmetic : op.isArithmetic = true) (x y z : Register) :
    (triple op x y z).writes? = some x := by
  cases op <;> simp_all [Operation.isArithmetic, writes?]

end Instruction

/-- Whether a register is one of so many in a row. -/
def Register.inRow (r : Register) (bank : Bank) (start count : Nat) : Bool :=
  r.bank == bank && decide (start ≤ r.offset) && decide (r.offset < start + count)

mutual

/-- How many registers from its destination on the code of an expression may touch when it is made
for a type. A number takes one even where the type has none. -/
def Expr.extent : Expr → Ty → Nat
  | .tuple [⟨none, value⟩] _, ty => value.extent ty
  | .tuple fields _, ty =>
    match slots? ty fields.length with
    | some slots => Expr.extentOfFields fields slots
    | none => 0
  | .text .., ty | .name .., ty => ty.size
  | .binary op _ _ _, ty =>
    match op with
    | .arithmetic _ | .comparison _ | .connective _ => 1
    | _ => ty.size
  | .typeDecl .., _ => 0
  | _, _ => 1

def Expr.extentOfFields : List (Labelled Expr) → List (Nat × Ty) → Nat
  | ⟨_, value⟩ :: fields, (offset, ty) :: slots =>
    max (offset + value.extent ty) (Expr.extentOfFields fields slots)
  | _, _ => 0

end

/-- The variable that a declaration or an assignment sets, and the value it gets. -/
def Expr.binds? : Expr → Option (String × Expr)
  | .varDecl declared _ value _ => some (declared, value)
  | .binary .assign target value _ => target.asName?.map (·, value)
  | _ => none

namespace Site

/-- Whether a register belongs to a variable of the scope. -/
def holds (s : Site) (r : Register) (name : String) : Bool :=
  match s.scope.local? name with
  | some v => r.inRow v.bank v.offset v.ty.size
  | none => false

/-- Whether a register is copied into the closure of a literal. -/
def captures (s : Site) (r : Register) (literal : FunctionLiteral) : Bool :=
  (s.tree.scope literal.scope).closure.any fun c =>
    match s.scope.local? c.name with
    | some v => r.inRow v.bank v.offset c.ty.size
    | none => false

mutual

/-- Whether the value of an expression may depend on a register: that of a variable it names, of the
field or element it names, or of a variable that one of its literals captures. -/
def sees (s : Site) (r : Register) : Expr → Bool
  | .name value _ => s.holds r value
  | .tuple fields _ => s.seesField r fields
  | .varDecl _ _ value _ => s.sees r value
  | .function literal _ => s.captures r literal
  | .unary _ operand _ => s.sees r operand
  | .binary op lhs rhs span =>
    match op with
    | .field | .index =>
      match s.place (.binary op lhs rhs span) with
      | .ok (first, ty) => r.inRow first.bank first.offset ty.size
      | .error _ => false
    | _ => s.sees r lhs || s.sees r rhs
  | _ => false

def seesField (s : Site) (r : Register) : List (Labelled Expr) → Bool
  | [] => false
  | ⟨_, value⟩ :: rest => s.sees r value || s.seesField r rest

end

/-- A register that a declaration or an assignment inside an expression may touch. -/
def Sets (s : Site) (e : Expr) (r : Register) : Prop :=
  ∃ n ∈ e.nodes, ∃ name value v, n.binds? = some (name, value) ∧ s.scope.local? name = some v ∧
    r.inRow v.bank v.offset (value.extent v.ty) = true

end Site

theorem Register.inRow_iff {r : Register} {bank : Bank} {start count : Nat} :
    r.inRow bank start count = true ↔
      r.bank = bank ∧ start ≤ r.offset ∧ r.offset < start + count := by
  simp [Register.inRow, and_assoc]

theorem Register.inRow_shift {first r : Register} {count k : Nat} (h : first.shift k = .ok r)
    (lt : k < count) : r.inRow first.bank first.offset count = true := by
  obtain ⟨bank, offset⟩ := Register.shift_ok h
  exact Register.inRow_iff.mpr ⟨bank, by omega, by omega⟩

/-- A register of a variable. -/
theorem Register.inRow_variable {v : Variable} {first r : Register} {count k : Nat}
    (hf : v.register = .ok first) (h : first.shift k = .ok r) (lt : k < count) :
    r.inRow v.bank v.offset count = true := by
  obtain ⟨bank, offset⟩ := Register.ofOffset_ok hf
  have inRow := Register.inRow_shift h lt
  rwa [bank, offset] at inRow

theorem Register.shift_shift {r s t : Register} {j k : Nat} (h : r.shift j = .ok s)
    (h' : s.shift k = .ok t) : r.shift (j + k) = .ok t := by
  obtain ⟨bank, offset⟩ := Register.shift_ok h
  rw [Register.shift, bank, offset, Nat.add_assoc] at h'
  exact h'

namespace Expr

theorem extent_tuple (fields : List (Labelled Expr)) (span : Span) (ty : Ty)
    (h : ∀ value, fields ≠ [⟨none, value⟩]) :
    (Expr.tuple fields span).extent ty = match slots? ty fields.length with
      | some slots => extentOfFields fields slots
      | none => 0 := by
  rw [extent]
  exact fun value hv => h value hv

/-- A number is touched in one register. -/
theorem extent_int (e : Expr) : e.extent .int ≤ 1 := by
  induction e using Expr.unwrapped.induct with
  | case1 value span ih =>
    rw [extent]
    exact ih
  | case2 e other =>
    cases e with
    | tuple fields span =>
      rw [extent_tuple fields span .int fun value hv => other value span (by rw [hv])]
      exact Nat.zero_le 1
    | binary op lhs rhs span => cases op <;> simp [extent, Ty.size]
    | _ => simp [extent, Ty.size]

theorem extent_unwrapped (e : Expr) (ty : Ty) : e.unwrapped.extent ty = e.extent ty := by
  fun_induction Expr.unwrapped e with
  | case1 value span ih => rw [ih, extent]
  | case2 => rfl

end Expr

/-! ## Footprints -/

/-- The registers that code may look at, those it may change, and where it may put frames. -/
structure Footprint where
  reads : Register → Prop
  writes : Register → Prop
  frames : Nat → Prop

namespace Footprint

/-- An instruction keeps to a footprint. It does not return, it prints a text of its own window, and
only a function value leaves its immediate open. -/
structure Holds (f : Footprint) (e : Emitted) : Prop where
  reads : ∀ r, e.instruction.reads r = true → f.reads r
  writes : ∀ r, e.instruction.writes? = some r → f.writes r
  frame : e.instruction.op = .callRegister → f.frames e.instruction.x.toNat
  stays : e.instruction.op ≠ .ret
  text : e.instruction.op = .print → (Register.ofByte e.instruction.x).bank = .window
  target : e.target.isSome → e.instruction.op = .loadLow ∨ e.instruction.op = .closureMake

/-- Registers of a kind are looked at, all but one, and frames lie above a watermark. -/
def avoids (among : Register → Prop) (r : Register) (watermark : Nat) : Footprint :=
  ⟨fun t => among t ∧ t ≠ r, fun _ => True, fun n => watermark ≤ n⟩

/-- Near registers are looked at. -/
def near : Footprint := ⟨Register.Near, fun _ => True, fun _ => True⟩

/-- Linking fills in an immediate that names no register. -/
theorem Holds.link {f : Footprint} {e : Emitted} (h : f.Holds e) {labels : List Label}
    {i : Instruction} (hl : link labels e = .ok i) : f.Holds ⟨i, none, none⟩ := by
  unfold WindowedClosures.link at hl
  split at hl
  · cases hl
    exact ⟨h.reads, h.writes, h.frame, h.stays, h.text, by simp⟩
  · rename_i function target
    split at hl
    · cases hl
      have op := h.target (by rw [target]; rfl)
      have written (r : Register) (yz : UInt16) :
          ({ e.instruction with yz := yz } : Instruction).writes? = some r → f.writes r := h.writes r
      refine ⟨fun r read => ?_, fun r => written r _, h.frame, h.stays, h.text, by simp⟩
      rcases op with op | op <;> simp [Instruction.reads, op] at read
    · cases hl

/-- A register that may be looked at and changed. -/
def Uses (f : Footprint) (r : Register) : Prop := f.reads r ∧ f.writes r

/-- All scratch registers from a watermark on are at hand, and so is the closure that is being
filled. -/
structure Free (f : Footprint) (watermark : Nat) : Prop where
  scratch : ∀ r : Register, r.bank = .window → watermark ≤ r.offset → f.Uses r
  aux : ∀ r : Register, r.bank = .aux → f.writes r
  frames : ∀ n, watermark ≤ n → f.frames n

/-- So many registers from a destination on are at hand. -/
def Takes (f : Footprint) (dst : Register) (count : Nat) : Prop :=
  ∀ k < count, ∀ r, dst.shift k = .ok r → f.Uses r

/-- What an expression depends on may be looked at, and what it assigns changed. -/
structure Serves (f : Footprint) (s : Site) (e : Expr) : Prop where
  reads : ∀ r, s.sees r e = true → f.reads r
  sets : ∀ r, s.Sets e r → f.Uses r

variable {f : Footprint} {watermark mark : Nat} {dst : Register} {s : Site} {e : Expr}

theorem Free.mono (h : f.Free watermark) (le : watermark ≤ mark) : f.Free mark :=
  ⟨fun r bank inside => h.scratch r bank (Nat.le_trans le inside), h.aux,
    fun n inside => h.frames n (Nat.le_trans le inside)⟩

theorem Takes.mono {count less : Nat} (h : f.Takes dst count) (le : less ≤ count) :
    f.Takes dst less := fun k lt => h k (Nat.lt_of_lt_of_le lt le)

theorem Takes.first {count : Nat} (h : f.Takes dst count) (pos : 0 < count) : f.Uses dst :=
  h 0 pos dst (Emit.shift_zero dst)

/-- Scratch registers take whatever is put there. -/
theorem Free.takes (h : f.Free watermark) (bank : dst.bank = .window) (inside : watermark ≤ dst.offset)
    (count : Nat) : f.Takes dst count := by
  intro k _ r hr
  obtain ⟨bank', offset⟩ := Register.shift_ok hr
  exact h.scratch r (bank'.trans bank) (by omega)

theorem Takes.slot {r : Register} {offset count : Nat} (h : f.Takes dst (offset + count))
    (hr : dst.shift offset = .ok r) : f.Takes r count :=
  fun k lt t ht => h (offset + k) (by omega) t (Register.shift_shift hr ht)

attribute [local simp] Site.sees Site.seesField

/-- What serves an expression serves its parts, as far as they are seen. -/
theorem Serves.part {part : Expr} (h : f.Serves s e) (mem : part ∈ e.parts)
    (sees : ∀ r, s.sees r part = true → s.sees r e = true) : f.Serves s part := by
  refine ⟨fun r seen => h.reads r (sees r seen), ?_⟩
  rintro r ⟨n, node, set⟩
  exact h.sets r ⟨n, Expr.nodes_trans node e (Expr.mem_nodes_part mem e.mem_nodes_self), set⟩

theorem Serves.operand {op : UnaryOp} {span : Span} (h : f.Serves s (.unary op e span)) :
    f.Serves s e :=
  h.part (by simp [Expr.parts]) fun r seen => by simpa using seen

theorem Serves.left {op : BinaryOp} {lhs rhs : Expr} {span : Span}
    (h : f.Serves s (.binary op lhs rhs span)) (whole : op ≠ .field ∧ op ≠ .index) :
    f.Serves s lhs := by
  refine h.part (by simp [Expr.parts]) fun r seen => ?_
  cases op <;> simp_all

theorem Serves.right {op : BinaryOp} {lhs rhs : Expr} {span : Span}
    (h : f.Serves s (.binary op lhs rhs span)) (whole : op ≠ .field ∧ op ≠ .index) :
    f.Serves s rhs := by
  refine h.part (by simp [Expr.parts]) fun r seen => ?_
  cases op <;> simp_all

theorem seesField_of_mem {fields : List (Labelled Expr)} {field : Labelled Expr} {r : Register}
    (mem : field ∈ fields) (seen : s.sees r field.value = true) : s.seesField r fields = true := by
  induction fields with
  | nil => cases mem
  | cons first rest ih =>
    rw [Site.seesField, Bool.or_eq_true]
    rcases List.mem_cons.mp mem with rfl | mem
    · exact .inl seen
    · exact .inr (ih mem)

theorem Serves.field {fields : List (Labelled Expr)} {span : Span}
    (h : f.Serves s (.tuple fields span)) (field : Labelled Expr) (mem : field ∈ fields) :
    f.Serves s field.value := by
  refine h.part (List.mem_map_of_mem mem) fun r seen => ?_
  rw [Site.sees]
  exact seesField_of_mem mem seen

/-- Redundant parentheses do not matter. -/
theorem serves_unwrapped : f.Serves s e.unwrapped ↔ f.Serves s e := by
  fun_induction Expr.unwrapped e with
  | case1 value span ih =>
    rw [ih]
    constructor
    · intro h
      refine ⟨fun r seen => h.reads r (by simpa using seen), ?_⟩
      rintro r ⟨n, node, name, value', v, binds, rest⟩
      rw [Expr.nodes, List.mem_cons] at node
      rcases node with rfl | node
      · cases binds
      · exact h.sets r ⟨n, by simpa [Expr.nodesOfFields] using node, name, value', v, binds, rest⟩
    · exact fun h => h.field ⟨none, value⟩ (by simp)
  | case2 => rfl

end Footprint

namespace Emit

open Footprint

variable {α β : Type}

/-- Whenever the emission succeeds at a watermark, its instructions keep to a footprint, and its
value and the watermark behind it are such. -/
def Treads (m : Emit α) (watermark : Nat) (f : Footprint) (Q : α → Nat → Prop) : Prop :=
  ∀ result, m watermark = .ok result →
    (∀ e ∈ result.code, f.Holds e) ∧ Q result.value result.watermark

variable {f : Footprint} {watermark : Nat}

theorem treads_pure {a : α} {Q : α → Nat → Prop} (h : Q a watermark) :
    Treads (pure a) watermark f Q := by
  intro result hr
  rw [pure_ok hr]
  exact ⟨by simp, h⟩

theorem treads_fail (e : CompileError) (Q : α → Nat → Prop) : Treads (fail e) watermark f Q := by
  intro result hr
  exact (fail_ok hr).elim

theorem treads_bind {m : Emit α} {g : α → Emit β} {Q : β → Nat → Prop}
    (h : Treads m watermark f fun a mark => Treads (g a) mark f Q) :
    Treads (m >>= g) watermark f Q := by
  intro result hr
  obtain ⟨first, second, h₁, h₂, rfl⟩ := bind_ok hr
  obtain ⟨front, next⟩ := h first h₁
  obtain ⟨back, last⟩ := next second h₂
  refine ⟨fun e he => ?_, last⟩
  rcases List.mem_append.mp he with he | he
  · exact front e he
  · exact back e he

theorem Treads.mono {m : Emit α} {Q R : α → Nat → Prop} (h : Treads m watermark f Q)
    (le : ∀ a mark, Q a mark → R a mark) : Treads m watermark f R :=
  fun result hr => ⟨(h result hr).1, le _ _ (h result hr).2⟩

theorem treads_releasing {m : Emit α} {Q : α → Nat → Prop}
    (h : Treads m watermark f fun a _ => Q a watermark) : Treads (releasing m) watermark f Q := by
  intro result hr
  obtain ⟨inner, hm, rfl⟩ := releasing_ok hr
  exact h inner hm

theorem treads_lift {found : Except CompileError α} {Q : α → Nat → Prop}
    (h : ∀ a, found = .ok a → Q a watermark) : Treads (lift found) watermark f Q := by
  intro result hr
  obtain ⟨a, ha, rfl⟩ := lift_ok hr
  exact ⟨by simp, h a ha⟩

theorem treads_register {found : Except RegisterOverflow Register} {Q : Register → Nat → Prop}
    (h : ∀ r, found = .ok r → Q r watermark) : Treads (register found) watermark f Q := by
  intro result hr
  obtain ⟨r, hf, rfl⟩ := register_ok hr
  exact ⟨by simp, h r hf⟩

theorem treads_alloc {size : Nat} {Q : Nat → Nat → Prop}
    (h : watermark + size ≤ 64 → Q watermark (watermark + size)) :
    Treads (alloc size) watermark f Q := by
  intro result hr
  obtain ⟨fits, rfl⟩ := alloc_ok hr
  exact ⟨by simp, h fits⟩

theorem treads_temp (free : f.Free watermark) {Q : Register → Nat → Prop}
    (h : ∀ t : Register, t.At watermark → f.Uses t → f.Free (watermark + 1) → Q t (watermark + 1)) :
    Treads temp watermark f Q := by
  intro result hr
  obtain ⟨bank, offset, code, after⟩ := temp_ok hr
  rw [code, after]
  refine ⟨by simp, h result.value ⟨bank, offset⟩ ?_ (free.mono (Nat.le_succ _))⟩
  exact free.scratch _ bank (by omega)

theorem treads_push {i : Instruction} {Q : Unit → Nat → Prop} (holds : f.Holds ⟨i, none, none⟩)
    (h : Q () watermark) : Treads (push i) watermark f Q := by
  intro result hr
  rw [push_ok hr]
  exact ⟨by simpa using holds, h⟩

theorem treads_forM {g : α → Emit Unit} (items : List α)
    (h : ∀ a ∈ items, Treads (g a) watermark f fun _ mark => mark = watermark) :
    Treads (items.forM g) watermark f fun _ mark => mark = watermark := by
  induction items with
  | nil => exact treads_pure rfl
  | cons first rest ih =>
    refine treads_bind ((h first (by simp)).mono fun _ mark same => ?_)
    subst same
    exact ih fun a ha => h a (by simp [ha])

section

variable {Q : Unit → Nat → Prop} {dst a b : Register}

/-- An operation on two registers. -/
theorem treads_triple {op : Operation} (arithmetic : op.isArithmetic = true) (inc : op ≠ .inc)
    (hd : f.writes dst) (ha : f.reads a) (hb : f.reads b) (h : Q () watermark) :
    Treads (triple op dst a b) watermark f Q := by
  refine treads_push ⟨?_, ?_, ?_, ?_, ?_, by simp⟩ h
  · intro r read
    rw [Instruction.reads_triple arithmetic inc, Bool.or_eq_true, beq_iff_eq, beq_iff_eq] at read
    rcases read with rfl | rfl
    · exact ha
    · exact hb
  · intro r written
    rw [Instruction.writes?_triple arithmetic] at written
    cases written
    exact hd
  · rintro rfl
    cases arithmetic
  · rintro rfl
    cases arithmetic
  · rintro rfl
    cases arithmetic

theorem treads_move (hd : f.writes dst) (ha : f.reads a) (h : Q () watermark) :
    Treads (move dst a) watermark f Q := by
  refine treads_push ⟨?_, ?_, ?_, ?_, ?_, by simp⟩ h
  · intro r read
    simp only [Instruction.reads, Instruction.op_triple, Instruction.y_triple, Register.ofByte_toByte,
      beq_iff_eq] at read
    rw [read]
    exact ha
  · intro r written
    simp only [Instruction.writes?, Instruction.op_triple, Instruction.x_triple,
      Register.ofByte_toByte, Option.some.injEq] at written
    rw [← written]
    exact hd
  · rintro ⟨⟩
  · rintro ⟨⟩
  · rintro ⟨⟩

theorem treads_loadInt (hd : f.Uses dst) (value : Int32) (h : Q () watermark) :
    Treads (loadInt dst value) watermark f Q := by
  have half (op : Operation) (hop : op = .loadLow ∨ op = .loadHigh) (yz : UInt16) :
      f.Holds ⟨.wide op dst yz, none, none⟩ := by
    rcases hop with rfl | rfl
    · refine ⟨?_, ?_, ?_, ?_, ?_, by simp⟩ <;>
        simp [Instruction.wide, Instruction.reads, Instruction.writes?, hd.2]
    · refine ⟨?_, ?_, ?_, ?_, ?_, by simp⟩ <;>
        simp [Instruction.wide, Instruction.reads, Instruction.writes?, hd.1, hd.2]
  unfold loadInt
  refine treads_bind (treads_push (half .loadLow (.inl rfl) _) ?_)
  split
  · exact treads_push (half .loadHigh (.inr rfl) _) h
  · exact treads_pure h

theorem treads_constant (free : f.Free watermark) (value : Int32) {Q : Register → Nat → Prop}
    (h : ∀ t, f.Uses t → f.Free (watermark + 1) → Q t (watermark + 1)) :
    Treads (constant value) watermark f Q := by
  refine treads_bind (treads_temp free fun t _ uses free₁ => ?_)
  exact treads_bind (treads_loadInt uses value (treads_pure (h t uses free₁)))

theorem treads_copyFrom (start count : Nat)
    (hd : ∀ k < start + count, ∀ r, dst.shift k = .ok r → f.writes r)
    (ha : ∀ k < start + count, ∀ r, a.shift k = .ok r → f.reads r) (h : Q () watermark) :
    Treads (copyFrom dst a start count) watermark f Q := by
  induction count generalizing start with
  | zero => exact treads_pure h
  | succ count ih =>
    refine treads_bind (treads_register fun slot hslot => ?_)
    refine treads_bind (treads_register fun origin ho => ?_)
    have next : start + 1 + count = start + (count + 1) := by omega
    refine treads_bind (treads_move (hd start (by omega) slot hslot) (ha start (by omega) origin ho) ?_)
    exact ih (start + 1) (by rw [next]; exact hd) (by rw [next]; exact ha)

theorem treads_copy {srcTy ty : Ty} (hd : f.Takes dst ty.size)
    (ha : ∀ k < srcTy.size, ∀ r, a.shift k = .ok r → f.reads r) (h : Q () watermark) :
    Treads (copy dst a srcTy ty) watermark f Q := by
  unfold copy
  split
  · exact treads_pure h
  · refine treads_copyFrom 0 _ (fun k lt r hr => (hd k (by omega) r hr).2) ?_ h
    exact fun k lt r hr => ha k (by omega) r hr

/-! ## Comparisons and truth values -/

theorem treads_xor (free : f.Free watermark) (hd : f.writes dst) (ha : f.reads a) (hb : f.reads b)
    (h : Q () watermark) : Treads (xor dst a b) watermark f Q := by
  refine treads_releasing ?_
  refine treads_bind (treads_temp free fun t _ ht free₁ => ?_)
  refine treads_bind (treads_temp free₁ fun u _ hu free₂ => ?_)
  refine treads_bind (treads_temp free₂ fun v _ hv _ => ?_)
  refine treads_bind (treads_triple rfl (by decide) ht.2 ha hb ?_)
  refine treads_bind (treads_triple rfl (by decide) hu.2 ha ht.1 ?_)
  refine treads_bind (treads_triple rfl (by decide) hv.2 hb ht.1 ?_)
  exact treads_triple rfl (by decide) hd hu.1 hv.1 h

theorem treads_less (free : f.Free watermark) (hd : f.writes dst) (ha : f.reads a) (hb : f.reads b)
    (h : ∀ mark, watermark ≤ mark → Q () mark) : Treads (less dst a b) watermark f Q := by
  refine treads_bind (treads_temp free fun d _ ud free₁ => ?_)
  refine treads_bind (treads_temp free₁ fun x _ ux free₂ => ?_)
  refine treads_bind (treads_temp free₂ fun y _ uy free₃ => ?_)
  refine treads_bind (treads_triple rfl (by decide) ud.2 ha hb ?_)
  refine treads_bind (treads_xor free₃ ux.2 ha hb ?_)
  refine treads_bind (treads_xor free₃ uy.2 ud.1 ha ?_)
  refine treads_bind (treads_triple rfl (by decide) ux.2 ux.1 uy.1 ?_)
  refine treads_bind (treads_triple rfl (by decide) ux.2 ux.1 ux.1 ?_)
  refine treads_bind (treads_xor free₃ uy.2 ud.1 ux.1 ?_)
  refine treads_bind (treads_constant free₃ 31 fun amount ha _ => ?_)
  refine treads_bind (treads_triple rfl (by decide) uy.2 uy.1 ha.1 ?_)
  exact treads_triple rfl (by decide) hd uy.1 uy.1 (h _ (by omega))

theorem treads_nonzero (free : f.Free watermark) (hd : f.Uses dst) (ha : f.reads a)
    (h : ∀ mark, watermark ≤ mark → Q () mark) : Treads (nonzero dst a) watermark f Q := by
  refine treads_bind (treads_constant free 0 fun zero hz free₁ => ?_)
  refine treads_bind (treads_temp free₁ fun n _ hn free₂ => ?_)
  refine treads_bind (treads_temp free₂ fun c _ hc free₃ => ?_)
  refine treads_bind (treads_triple rfl (by decide) hn.2 hz.1 ha ?_)
  refine treads_bind (treads_triple rfl (by decide) hn.2 hn.1 hn.1 ?_)
  refine treads_bind (treads_triple rfl (by decide) hc.2 ha ha ?_)
  refine treads_bind (treads_triple rfl (by decide) hd.2 hc.1 hn.1 ?_)
  refine treads_bind (treads_constant free₃ 31 fun amount ham _ => ?_)
  refine treads_bind (treads_triple rfl (by decide) hd.2 hd.1 ham.1 ?_)
  exact treads_triple rfl (by decide) hd.2 hd.1 hd.1 (h _ (by omega))

theorem treads_invert (hd : f.Uses dst) (ha : f.reads a) (h : Q () watermark) :
    Treads (invert dst a) watermark f Q := by
  refine treads_bind (treads_triple rfl (by decide) hd.2 ha ha ?_)
  refine treads_push ⟨?_, ?_, ?_, ?_, ?_, by simp⟩ h <;>
    simp [Instruction.wide, Instruction.reads, Instruction.writes?, hd.1, hd.2]

theorem treads_compare (op : Comparison) (free : f.Free watermark) (hd : f.Uses dst) (ha : f.reads a)
    (hb : f.reads b) (h : ∀ mark, watermark ≤ mark → Q () mark) :
    Treads (Emit.compare op dst a b) watermark f Q := by
  -- the negated comparisons invert their opposite in place
  have inverted (mark : Nat) (le : watermark ≤ mark) : Treads (invert dst dst) mark f Q :=
    treads_invert hd hd.1 (h mark le)
  cases op with
  | lt => exact treads_less free hd.2 ha hb h
  | gt => exact treads_less free hd.2 hb ha h
  | ge => exact treads_bind (treads_less free hd.2 ha hb inverted)
  | le => exact treads_bind (treads_less free hd.2 hb ha inverted)
  | ne =>
    refine treads_bind (treads_temp free fun d _ ud free₁ => ?_)
    refine treads_bind (treads_triple rfl (by decide) ud.2 ha hb ?_)
    exact treads_nonzero free₁ hd ud.1 fun mark le => h mark (by omega)
  | eq =>
    refine treads_bind (treads_temp free fun d _ ud free₁ => ?_)
    refine treads_bind (treads_triple rfl (by decide) ud.2 ha hb ?_)
    exact treads_bind (treads_nonzero free₁ hd ud.1 fun mark le => inverted mark (by omega))

theorem treads_connect (op : Connective) (free : f.Free watermark) (hd : f.writes dst)
    (ha : f.reads a) (hb : f.reads b) (h : ∀ mark, watermark ≤ mark → Q () mark) :
    Treads (connect op dst a b) watermark f Q := by
  cases op with
  | and => exact treads_triple rfl (by decide) hd ha hb (h _ (Nat.le_refl _))
  | or =>
    refine treads_bind (treads_temp free fun m _ um free₁ => ?_)
    refine treads_bind (treads_temp free₁ fun n _ un _ => ?_)
    refine treads_bind (treads_triple rfl (by decide) um.2 ha ha ?_)
    refine treads_bind (treads_triple rfl (by decide) un.2 hb hb ?_)
    exact treads_triple rfl (by decide) hd um.1 un.1 (h _ (by omega))

end

end Emit

end WindowedClosures
