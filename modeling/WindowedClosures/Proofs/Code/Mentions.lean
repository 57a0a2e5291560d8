import WindowedClosures.Proofs.Code.Effects
import WindowedClosures.Proofs.Machine.Lockstep

/-!
# Registers that an expression does not mention

An operand may be built in the destination of an operation if the other operand does not mention that
register. An expression mentions a register if it names a variable that starts there. It can depend on
a register in other ways: through a field or an element of a variable, or a variable as a whole, that
only goes on there, and through the variables that a function literal or the arm of a choice captures.
Where it does not, the code of an expression that does not mention a register never reads it.
-/

namespace WindowedClosures

open Emit Footprint

/-! ## Places -/

namespace Site

/-- A place is a part of the variable that it names first. -/
theorem place_inside {s : Site} {e : Expr} {r : Register} {part : Ty}
    (h : s.place e = .ok (r, part)) : ∃ name span v, .name name span ∈ e.nodes ∧
      s.scope.local? name = some v ∧ r.bank = v.bank ∧ v.offset ≤ r.offset ∧
      r.offset + part.size ≤ v.offset + v.ty.size := by
  obtain ⟨name, chain, v, offset, written, known, -, leads, begins⟩ := place_eq_ok_iff.mp h
  obtain ⟨span, mem⟩ := Expr.mem_nodes_of_root? (Expr.root?_of_chain written)
  obtain ⟨bank, at_⟩ := Register.ofOffset_ok begins
  have inside := Ty.follow?_inside leads
  exact ⟨name, span, v, mem, known, bank, by omega, by omega⟩

/-! ## Depending and mentioning -/

/-- Whether a node depends on a register in no other way than by naming the variable that starts
there: no other variable it names holds the register, no literal captures it, and what is assigned
stays inside its variable. Declarations are no part of expressions. -/
def namesOnly (s : Site) (r : Register) : Expr → Bool
  | .name value _ =>
    match s.scope.local? value with
    | some v => !r.inRow v.bank v.offset v.ty.size || v.register.toOption == some r
    | none => true
  | .function literal _ => !s.captures r literal
  | .varDecl .. => false
  | n => s.setsInside n

variable {s : Site} {r : Register}

/-- A variable that is named and holds a register starts there. -/
theorem register_of_namesOnly {name : String} {span : Span} {v : Variable}
    (h : s.namesOnly r (.name name span) = true) (known : s.scope.local? name = some v)
    (inRow : r.inRow v.bank v.offset v.ty.size = true) : v.register = .ok r := by
  simp only [namesOnly, known, inRow, Bool.not_true, Bool.false_or, beq_iff_eq] at h
  exact toOption_eq_some h

theorem mentions_name {name : String} {v : Variable} (known : s.scope.local? name = some v)
    (starts : v.register = .ok r) (span : Span) : s.mentions r (.name name span) = true := by
  rw [mentions, known]
  simp [starts, Except.toOption]

/-- A node of an expression depends on a register: it names a variable that holds the register, or it
is a literal that captures one. -/
def Reaches (s : Site) (r : Register) (e : Expr) : Prop :=
  (∃ name span v, .name name span ∈ e.nodes ∧ s.scope.local? name = some v ∧
    r.inRow v.bank v.offset v.ty.size = true) ∨
  ∃ literal span, .function literal span ∈ e.nodes ∧ s.captures r literal = true

theorem Reaches.trans {part e : Expr} (h : s.Reaches r part) (mem : part ∈ e.nodes) :
    s.Reaches r e := by
  rcases h with ⟨name, span, v, node, rest⟩ | ⟨literal, span, node, captured⟩
  · exact .inl ⟨name, span, v, Expr.nodes_trans node e mem, rest⟩
  · exact .inr ⟨literal, span, Expr.nodes_trans node e mem, captured⟩

theorem reaches_of_place {e : Expr} {first : Register} {part : Ty} (h : s.place e = .ok (first, part))
    (inRow : r.inRow first.bank first.offset part.size = true) : s.Reaches r e := by
  obtain ⟨name, span, v, mem, known, bank, low, high⟩ := place_inside h
  obtain ⟨bank', low', high'⟩ := Register.inRow_iff.mp inRow
  exact .inl ⟨name, span, v, mem, known,
    Register.inRow_iff.mpr ⟨bank'.trans bank, by omega, by omega⟩⟩

mutual

/-- An expression depends on a register through one of its nodes. -/
theorem reaches_of_sees : ∀ e : Expr, s.sees r e = true → s.Reaches r e
  | .name value span, seen => by
    rw [sees, holds] at seen
    split at seen
    · rename_i v known
      exact .inl ⟨value, span, v, Expr.mem_nodes_self _, known, seen⟩
    · cases seen
  | .tuple fields span, seen => by
    rw [sees] at seen
    obtain ⟨field, mem, reaches⟩ := reaches_of_seesField fields seen
    exact reaches.trans (Expr.mem_nodes_part (List.mem_map_of_mem mem) (Expr.mem_nodes_self _))
  | .varDecl declared type value span, seen => by
    rw [sees] at seen
    exact (reaches_of_sees value seen).trans
      (Expr.mem_nodes_part (by simp [Expr.parts]) (Expr.mem_nodes_self _))
  | .function literal span, seen => by
    rw [sees] at seen
    exact .inr ⟨literal, span, Expr.mem_nodes_self _, seen⟩
  | .unary op operand span, seen => by
    rw [sees] at seen
    exact (reaches_of_sees operand seen).trans
      (Expr.mem_nodes_part (by simp [Expr.parts]) (Expr.mem_nodes_self _))
  | .binary op lhs rhs span, seen => by
    have both (seen : (s.sees r lhs || s.sees r rhs) = true) : s.Reaches r (.binary op lhs rhs span) := by
      rw [Bool.or_eq_true] at seen
      rcases seen with seen | seen
      · exact (reaches_of_sees lhs seen).trans
          (Expr.mem_nodes_part (by simp [Expr.parts]) (Expr.mem_nodes_self _))
      · exact (reaches_of_sees rhs seen).trans
          (Expr.mem_nodes_part (by simp [Expr.parts]) (Expr.mem_nodes_self _))
    have part (placed : (match s.place (.binary op lhs rhs span) with
        | .ok (first, ty) => r.inRow first.bank first.offset ty.size
        | .error _ => false) = true) : s.Reaches r (.binary op lhs rhs span) := by
      split at placed
      · rename_i first ty found
        exact reaches_of_place found placed
      · cases placed
    cases op with
    | field | index =>
      rw [sees] at seen
      exact part seen
    | _ =>
      rw [sees] at seen
      · exact both seen
      all_goals simp
  | .int .., seen | .hex .., seen | .float .., seen | .text .., seen | .typeDecl .., seen => by
    cases seen

theorem reaches_of_seesField : ∀ fields : List (Labelled Expr), s.seesField r fields = true →
    ∃ field ∈ fields, s.Reaches r field.value
  | [], seen => by cases seen
  | ⟨label, value⟩ :: rest, seen => by
    rw [seesField, Bool.or_eq_true] at seen
    rcases seen with seen | seen
    · exact ⟨⟨label, value⟩, by simp, reaches_of_sees value seen⟩
    · obtain ⟨field, mem, reaches⟩ := reaches_of_seesField rest seen
      exact ⟨field, by simp [mem], reaches⟩

end

mutual

/-- What a part mentions is mentioned by the whole, declarations apart. -/
theorem mentions_of_node {n : Expr} (mentioned : s.mentions r n = true) : ∀ e : Expr,
    (∀ n ∈ e.nodes, s.namesOnly r n = true) → n ∈ e.nodes → s.mentions r e = true
  | .tuple fields span, names, mem => by
    rw [Expr.nodes, List.mem_cons] at mem
    rcases mem with rfl | mem
    · exact mentioned
    · rw [mentions]
      refine mentionsField_of_node mentioned fields (fun field mem n node => names n ?_) mem
      exact Expr.nodes_trans node _
        (Expr.mem_nodes_part (List.mem_map_of_mem mem) (Expr.mem_nodes_self _))
  | .varDecl declared type value span, names, mem => by
    cases names _ (Expr.mem_nodes_self _)
  | .unary op operand span, names, mem => by
    rw [Expr.nodes, List.mem_cons] at mem
    rcases mem with rfl | mem
    · exact mentioned
    · rw [mentions]
      exact mentions_of_node mentioned operand (fun n node => names n (by simp [Expr.nodes, node])) mem
  | .binary op lhs rhs span, names, mem => by
    rw [Expr.nodes, List.mem_cons, List.mem_append] at mem
    rcases mem with rfl | mem | mem
    · exact mentioned
    · rw [mentions, Bool.or_eq_true]
      exact .inl (mentions_of_node mentioned lhs
        (fun n node => names n (by simp [Expr.nodes, node])) mem)
    · rw [mentions, Bool.or_eq_true]
      exact .inr (mentions_of_node mentioned rhs
        (fun n node => names n (by simp [Expr.nodes, node])) mem)
  | .int .., _, mem | .hex .., _, mem | .float .., _, mem | .text .., _, mem | .name .., _, mem
  | .typeDecl .., _, mem | .function .., _, mem => by
    rw [Expr.nodes, List.mem_singleton] at mem
    exact mem ▸ mentioned

theorem mentionsField_of_node {n : Expr} (mentioned : s.mentions r n = true) :
    ∀ fields : List (Labelled Expr),
      (∀ field ∈ fields, ∀ n ∈ field.value.nodes, s.namesOnly r n = true) →
        n ∈ Expr.nodesOfFields fields → s.mentionsField r fields = true
  | [], _, mem => by cases mem
  | ⟨label, value⟩ :: rest, names, mem => by
    rw [Expr.nodesOfFields, List.mem_append] at mem
    rw [mentionsField, Bool.or_eq_true]
    refine mem.imp (mentions_of_node mentioned value (names ⟨label, value⟩ (by simp))) ?_
    exact mentionsField_of_node mentioned rest fun field mem => names field (by simp [mem])

end

/-- An expression that depends on a register by names only mentions it. -/
theorem mentions_of_sees {e : Expr} (names : ∀ n ∈ e.nodes, s.namesOnly r n = true)
    (seen : s.sees r e = true) : s.mentions r e = true := by
  rcases reaches_of_sees e seen with ⟨name, span, v, mem, known, inRow⟩ | ⟨literal, span, mem, captured⟩
  · have starts := register_of_namesOnly (names _ mem) known inRow
    exact mentions_of_node (mentions_name known starts span) e names mem
  · have free := names _ mem
    simp [namesOnly, captured] at free

/-- Expressions depend on registers of the window and of the closure only. -/
theorem near_of_sees (banks : s.scope.KeepsBanks) {e : Expr} (seen : s.sees r e = true) : r.Near := by
  rcases reaches_of_sees e seen with ⟨name, span, v, mem, known, inRow⟩ | ⟨literal, span, mem, captured⟩
  · exact banks.near_of_bank (Scope.local?_mem known) (Register.inRow_iff.mp inRow).1
  · obtain ⟨c, -, inRow⟩ := List.any_eq_true.mp captured
    split at inRow
    · rename_i v known
      exact banks.near_of_bank (Scope.local?_mem known) (Register.inRow_iff.mp inRow).1
    · cases inRow

/-- Assignments reach registers of the window and of the closure only. -/
theorem near_of_sets (banks : s.scope.KeepsBanks) {e : Expr} (h : s.Sets e r) : r.Near := by
  obtain ⟨n, -, name, value, v, -, known, inRow⟩ := h
  exact banks.near_of_bank (Scope.local?_mem known) (Register.inRow_iff.mp inRow).1

/-- An expression that assigns a register mentions it. -/
theorem mentions_of_sets {e : Expr} (names : ∀ n ∈ e.nodes, s.namesOnly r n = true)
    (h : s.Sets e r) : s.mentions r e = true := by
  obtain ⟨n, node, name, value, v, binds, known, inRow⟩ := h
  have here := names n node
  unfold Expr.binds? at binds
  split at binds
  · cases here
  · rename_i target value' span
    rw [Option.map_eq_some_iff] at binds
    obtain ⟨_, named, eq⟩ := binds
    cases eq
    obtain ⟨span', rfl⟩ := asName?_some named
    have inside := extent_of_setsInside (n := .binary .assign (.name name span') value span) here rfl known
    have target : Expr.name name span' ∈ e.nodes :=
      Expr.mem_nodes_part (by simp [Expr.parts]) node
    have starts := register_of_namesOnly (names _ target) known (Register.inRow_mono inRow inside)
    exact mentions_of_node (mentions_name known starts span') e names target
  · cases binds

end Site

/-! ## Code that does not read a register -/

variable {s : Site} {e : Expr} {r : Register} {watermark : Nat} {among : Register → Prop}

theorem Footprint.free_avoids (near : ∀ t : Register, t.Near → among t) (below : r.Below watermark) :
    (Footprint.avoids among r watermark).Free watermark := by
  refine ⟨fun t bank above => ⟨⟨near t (.inl bank), ?_⟩, trivial⟩, fun _ _ => trivial, fun _ le => le⟩
  exact (below.ne ⟨bank, rfl⟩ above).symm

theorem Footprint.serves_avoids (near : ∀ t : Register, t.Near → among t)
    (banks : s.scope.KeepsBanks) (silent : s.mentions r e = false)
    (names : ∀ n ∈ e.nodes, s.namesOnly r n = true) :
    (Footprint.avoids among r watermark).Serves s e := by
  refine ⟨fun t seen => ⟨near t (Site.near_of_sees banks seen), ?_⟩,
    fun t sets => ⟨⟨near t (Site.near_of_sets banks sets), ?_⟩, trivial⟩⟩
  · rintro rfl
    rw [Site.mentions_of_sees names seen] at silent
    cases silent
  · rintro rfl
    rw [Site.mentions_of_sets names sets] at silent
    cases silent

/-- The code of an operand that does not mention a register looks at others only, and it yields
another one. -/
theorem treads_unmentioned (banks : s.scope.KeepsBanks) (below : r.Below watermark)
    (silent : s.mentions r e = false) (names : ∀ n ∈ e.nodes, s.namesOnly r n = true) :
    Treads (operand s e (lower s e)) watermark (.avoids Register.Near r watermark)
      fun a _ => a.Near ∧ a ≠ r :=
  treads_operand (fits_lower e) (free_avoids (fun _ near => near) below)
    (serves_avoids (fun _ near => near) banks silent names) fun _ _ reads _ _ => reads

/-- So does the code that puts the word of such an expression into another register. -/
theorem treads_unmentioned_into (banks : s.scope.KeepsBanks) (below : r.Below watermark)
    (silent : s.mentions r e = false) (names : ∀ n ∈ e.nodes, s.namesOnly r n = true)
    {dst : Register} (other : dst ≠ r) :
    Treads (eval s e dst .int) watermark (.avoids (fun _ => True) r watermark)
      fun _ mark => mark = watermark := by
  refine (fits_lower e).releasing (free_avoids (fun _ _ => trivial) below) ?_
    (serves_avoids (fun _ _ => trivial) banks silent names) rfl
  intro k lt t ht
  have one := e.extent_int
  obtain rfl : k = 0 := by omega
  rw [shift_zero] at ht
  cases ht
  exact ⟨⟨trivial, other⟩, trivial⟩

theorem reads_eq_false_of_avoids {i : Emitted}
    (h : (Footprint.avoids among r watermark).Holds i) : i.instruction.reads r = false := by
  rw [Bool.eq_false_iff]
  exact fun read => (h.reads r read).2 rfl

/-! ## Programs -/

/-- All code of a scope but its return looks at near registers. -/
theorem near_of_scopeCode {tree : ScopeTree} (hr : tree.Resolved) {id : Nat} {code : List Emitted}
    (hc : scopeCode tree id = .ok code) :
    ∀ i ∈ code, i.instruction.op = .ret ∨ Footprint.near.Holds i := by
  obtain ⟨result, lowered, rfl⟩ := scopeCode_ok hc
  have banks : (Site.scope ⟨tree, id⟩).KeepsBanks := keepsBanks_of_resolved hr id
  have treads := treads_statements (s := ⟨tree, id⟩) (f := Footprint.near) (tree.scope id).body
    ⟨fun _ bank _ => ⟨.inl bank, trivial⟩, fun _ _ => trivial, fun _ _ => trivial⟩
    (fun e _ => ⟨fun _ seen => Site.near_of_sees banks seen,
      fun _ sets => ⟨Site.near_of_sets banks sets, trivial⟩⟩)
    (fun e _ _ k _ t ht => ⟨.inl (Register.shift_ok ht).1, trivial⟩) result lowered
  intro i mem
  rcases List.mem_append.mp mem with mem | mem
  · exact .inr (treads.1 i mem)
  · rw [List.mem_singleton] at mem
    exact .inl (by rw [mem])

theorem near_of_compiled {tree : ScopeTree} {program : Program} (hr : tree.Resolved)
    (hc : tree.compile = .ok program) :
    ∀ i ∈ program.code, i.op = .ret ∨ Footprint.near.Holds ⟨i, none, none⟩ := by
  obtain ⟨l⟩ := compile_ok hc
  intro i mem
  rw [l.code_eq] at mem
  obtain ⟨e, he, linked⟩ := mapM_mem l.links mem
  rcases l.forall_code (fun id code found => near_of_scopeCode hr found) e he with ret | holds
  · exact .inl ((link_ok linked).1.trans ret)
  · exact .inr (holds.link linked)

open Exec in
open Relation (ReflTransGen) in
/-- Code that lies somewhere in a program does not depend on a register: a run through it, calls
included, goes the same way whatever word the register holds before, and the word it leaves in
another register is the same. -/
def Program.Ignores (program : Program) (code : List Emitted) (value r : Register) : Prop :=
  ∀ linked, code.mapM (link program.labels) = .ok linked →
  ∀ (trap : Trap) (start after : Run) (word : Int32), Intact program.code start →
    linked <+: program.code.drop start.machine.pc →
    ReflTransGen (Passes trap program.code start linked.length) start after →
    let start' := { start with machine := start.machine.writeCell (start.machine.cell r) word }
    ∃ after', ReflTransGen (Passes trap program.code start' linked.length) start' after' ∧
      after.AgreesOff (start.machine.cell r) after' ∧
      (Arrived start linked.length after → Arrived start' linked.length after' ∧
        after'.machine.readCell? (after'.machine.cell value) =
          after.machine.readCell? (after.machine.cell value))

open Exec in
/-- Behind the part a run stands in the window again. -/
theorem Exec.Passing.level_of_arrived {start a : Run} {count watermark : Nat} {dst : Register}
    (h : Passing start count watermark dst a) (arrived : Arrived start count a) :
    Level start count a := by
  cases h with
  | level level => exact level
  | inside q floor window level behind above inside =>
    obtain ⟨deeper, eq, -⟩ := inside.callers
    have same := arrived.1
    rw [eq, ← level.callers] at same
    simp at same
    omega

open Exec in
theorem ignores_of_unmentioned {tree : ScopeTree} {program : Program} (hr : tree.Resolved)
    (hc : tree.compile = .ok program) {code : List Emitted} {value : Register}
    (below : r.Below watermark)
    (avoids : ∀ i ∈ code, (Footprint.avoids Register.Near r watermark).Holds i)
    (calls : r.bank = .closure → ∀ i ∈ code, i.instruction.op ≠ .callRegister)
    (yields : value.Near ∧ value ≠ r) : program.Ignores code value r := by
  intro linked hl trap start after word intact lies path start'
  obtain ⟨-, confined⟩ := confined_of_compiled hr hc
  have watches : Watches program.code linked start watermark r := by
    refine ⟨lies, fun i mem => ?_, below, fun bank i mem op => ?_⟩
    · obtain ⟨e, he, linked⟩ := mapM_mem hl mem
      exact (avoids e he).link linked
    · obtain ⟨e, he, linked⟩ := mapM_mem hl mem
      exact calls bank e he ((link_ok linked).1.symm.trans op)
  have agrees : start.AgreesOff (start.machine.cell r) start' := start.agreesOff_writeCell word
  obtain ⟨after', path', together, -, passing⟩ :=
    passes_agreesOff confined (near_of_compiled hr hc) watches intact agrees path
  refine ⟨after', path', together, fun arrived => ⟨?_, ?_⟩⟩
  · obtain ⟨stack, closures, same, -⟩ := agrees
    obtain ⟨stack', closures', rfl, -⟩ := together
    rw [same]
    exact arrived
  · have level := passing.level_of_arrived arrived
    have place : start.machine.cell r = after.machine.cell r := by
      rcases below with bank | ⟨bank, -⟩
      · simp only [Machine.cell, bank, level.closure]
      · simp only [Machine.cell, bank, level.top]
    have other : after.machine.cell value ≠ start.machine.cell r := by
      rw [place]
      exact fun same => yields.2 (after.machine.cell_injective yields.1 below.near same)
    rw [together.cell]
    obtain ⟨stack, closures, rfl, cells⟩ := together
    exact cells _ other

/-! ## Operands in place -/

theorem Site.mentions_unwrapped (s : Site) (r : Register) (e : Expr) :
    s.mentions r e.unwrapped = s.mentions r e := by
  fun_induction Expr.unwrapped e with
  | case1 value span ih => rw [ih, mentions, mentionsField, mentionsField, Bool.or_false]
  | case2 => rfl

theorem operand_unwrapped (s : Site) (e : Expr) (lowered : Lowering) :
    operand s e.unwrapped lowered = operand s e lowered := by
  unfold operand
  rw [Expr.unwrapped_unwrapped]

/-- An operand that needs code of its own is built in the destination if the other operand does not
mention that. The other one is then computed behind it, into a register of its own. -/
theorem lower_in_place {op : Arithmetic} {lhs rhs : Expr} {span : Span} {ty : Ty} {result : Emission Unit}
    (h : lower s (.binary (.arithmetic op) lhs rhs span) r ty watermark = .ok result)
    (compound : isLeaf lhs.unwrapped = false)
    (varies : (Expr.binary (.arithmetic op) lhs rhs span).constant? = .ok none)
    (silent : s.mentions r rhs = false) : ∃ left right,
      eval s lhs r .int watermark = .ok left ∧
      operand s rhs (lower s rhs) watermark = .ok right ∧
      result.code = left.code ++ right.code ++
        [⟨.triple (operationOf op) r r right.value, none, none⟩] := by
  have unnamed : lhs.unwrapped.asName? = none := by
    rw [isLeaf, Bool.or_eq_false_iff, Expr.unwrapped_unwrapped, Option.isSome_eq_false_iff,
      Option.isNone_iff_eq_none] at compound
    exact compound.1
  rw [lower] at h
  unfold arithmetic at h
  obtain ⟨constant?, behind, hf, h₁, rfl⟩ := bind_ok h
  obtain ⟨found, eq, rfl⟩ := lift_ok hf
  rw [varies] at eq
  cases eq
  simp only [unnamed, compound, Site.mentions_unwrapped, silent, Bool.or_false] at h₁
  obtain ⟨a, rest, hl, h₂, rfl⟩ := bind_ok h₁
  obtain ⟨left, last, lowered, hp, rfl⟩ := bind_ok hl
  rw [pure_ok hp] at h₂
  obtain ⟨inner, hi, rfl⟩ := releasing_ok lowered
  obtain ⟨right, final, hr, hs, rfl⟩ := bind_ok h₂
  have own : operand s rhs (lower s rhs) watermark = .ok right := by
    simpa [operandIn, operand_unwrapped] using hr
  refine ⟨_, right, lowered, own, ?_⟩
  rw [push_ok hs, pure_ok hp]
  simp

/-- In every scope of a resolved program: code for an expression that does not mention a register, and
that depends on registers by names only, never reads it. So where an operand is built in the
destination, the other operand computes what it would compute without that. -/
theorem unmentioned_unread {tree : ScopeTree} (hr : tree.Resolved) {id : Nat} {e : Expr}
    {watermark : Nat} {r : Register} (below : r.Below watermark)
    (silent : Site.mentions ⟨tree, id⟩ r e = false)
    (names : ∀ n ∈ e.nodes, Site.namesOnly ⟨tree, id⟩ r n = true) :
    (∀ dst result, dst ≠ r → eval ⟨tree, id⟩ e dst .int watermark = .ok result →
      ∀ i ∈ result.code, i.instruction.reads r = false) ∧
    (∀ result, operand ⟨tree, id⟩ e (lower ⟨tree, id⟩ e) watermark = .ok result →
      (∀ i ∈ result.code, i.instruction.reads r = false) ∧ result.value ≠ r ∧
      ∀ program, tree.compile = .ok program →
        (r.bank = .closure → ∀ i ∈ result.code, i.instruction.op ≠ .callRegister) →
        program.Ignores result.code result.value r) ∧
    ∀ op lhs span ty result,
      lower ⟨tree, id⟩ (.binary (.arithmetic op) lhs e span) r ty watermark = .ok result →
      isLeaf lhs.unwrapped = false → (Expr.binary (.arithmetic op) lhs e span).constant? = .ok none →
      ∃ left right, eval ⟨tree, id⟩ lhs r .int watermark = .ok left ∧
        operand ⟨tree, id⟩ e (lower ⟨tree, id⟩ e) watermark = .ok right ∧
        result.code = left.code ++ right.code ++
          [⟨.triple (operationOf op) r r right.value, none, none⟩] := by
  have banks : (Site.scope ⟨tree, id⟩).KeepsBanks := keepsBanks_of_resolved hr id
  refine ⟨fun dst result other emitted i mem => ?_, fun result emitted => ?_,
    fun op lhs span ty result lowered compound varies => ?_⟩
  · have treads := treads_unmentioned_into (s := ⟨tree, id⟩) banks below silent names other
    exact reads_eq_false_of_avoids ((treads result emitted).1 i mem)
  · obtain ⟨avoids, yields⟩ := treads_unmentioned (s := ⟨tree, id⟩) banks below silent names result emitted
    refine ⟨fun i mem => reads_eq_false_of_avoids (avoids i mem), yields.2, fun program hc calls => ?_⟩
    exact ignores_of_unmentioned hr hc below avoids calls yields
  · exact lower_in_place lowered compound varies silent

/-- The call in `x = (a * 3) + (f # a)` does not depend on the register of `x`, where the product is
built before. -/
theorem unmentioned_unread_call : ∃ c e value rhs result,
    compileSource "[ f: int > int = \\n > n + 1; [ a: int = 4; [ x: int = 10; x = (a * 3) + (f # a)"
      = .ok c ∧
      (c.tree.scope 0).body[3]? = some e ∧ e.binds? = some ("x", value) ∧ value.parts[1]? = some rhs ∧
      operand ⟨c.tree, 0⟩ rhs (lower ⟨c.tree, 0⟩ rhs) 3 = .ok result ∧
      (∃ i ∈ result.code, i.instruction.op = .callRegister) ∧
      (∀ i ∈ result.code, i.instruction.reads ⟨.window, 2⟩ = false) ∧
      c.program.Ignores result.code result.value ⟨.window, 2⟩ := by
  have found : (do
      let c ← (compileSource
        "[ f: int > int = \\n > n + 1; [ a: int = 4; [ x: int = 10; x = (a * 3) + (f # a)").toOption
      let e ← (c.tree.scope 0).body[3]?
      let b ← e.binds?
      let rhs ← b.2.parts[1]?
      let result ← (operand ⟨c.tree, 0⟩ rhs (lower ⟨c.tree, 0⟩ rhs) 3).toOption
      if b.1 = "x" ∧ Site.mentions ⟨c.tree, 0⟩ ⟨.window, 2⟩ rhs = false ∧
        rhs.nodes.all (Site.namesOnly ⟨c.tree, 0⟩ ⟨.window, 2⟩) ∧
        result.code.any (fun i => decide (i.instruction.op = .callRegister)) then some ()
      else none) = some () := by decide +kernel
  obtain ⟨c, hc, found⟩ := Option.bind_eq_some_iff.mp found
  obtain ⟨e, he, found⟩ := Option.bind_eq_some_iff.mp found
  obtain ⟨⟨name, value⟩, binds, found⟩ := Option.bind_eq_some_iff.mp found
  obtain ⟨rhs, right, found⟩ := Option.bind_eq_some_iff.mp found
  obtain ⟨result, hr, found⟩ := Option.bind_eq_some_iff.mp found
  split at found
  · rename_i facts
    obtain ⟨rfl, silent, names, calls⟩ := facts
    have source := toOption_eq_some hc
    have emitted := toOption_eq_some hr
    obtain ⟨resolved, compiled⟩ := compileSource_ok source
    have below : Register.Below 3 ⟨.window, 2⟩ := .inr ⟨rfl, by decide⟩
    obtain ⟨-, operands, -⟩ := unmentioned_unread resolved below silent (List.all_eq_true.mp names)
    obtain ⟨unread, -, ignores⟩ := operands result emitted
    obtain ⟨i, mem, op⟩ := List.any_eq_true.mp calls
    exact ⟨c, e, value, rhs, result, source, he, binds, right, emitted, ⟨i, mem, of_decide_eq_true op⟩,
      unread, ignores c.program compiled (by simp)⟩
  · cases found

/-- `x` is captured by an arm of `c ? (x, 1)`, which does not mention its register: the product built
there is what the arm gives back, and `x` becomes 12 and not 16. -/
theorem captured_unmentioned : ∃ c e value rhs result,
    compileSource "[ a: int = 2; [ b: int = 3; [ c: int = 1; [ x: int = 10;
      x = (a * b) + (c ? (x, 1))" = .ok c ∧
      (c.tree.scope 0).body[4]? = some e ∧ e.binds? = some ("x", value) ∧ value.parts[1]? = some rhs ∧
      Site.mentions ⟨c.tree, 0⟩ ⟨.window, 3⟩ rhs = false ∧
      operand ⟨c.tree, 0⟩ rhs (lower ⟨c.tree, 0⟩ rhs) 4 = .ok result ∧
      (∃ i ∈ result.code, i.instruction.reads ⟨.window, 3⟩ = true) ∧
      Machine.fresh.execute 64 c.program 4 = .ok ⟨[2, 3, 1, 12], ""⟩ := by
  have found : (do
      let c ← (compileSource "[ a: int = 2; [ b: int = 3; [ c: int = 1; [ x: int = 10;
      x = (a * b) + (c ? (x, 1))").toOption
      let e ← (c.tree.scope 0).body[4]?
      let b ← e.binds?
      let rhs ← b.2.parts[1]?
      let result ← (operand ⟨c.tree, 0⟩ rhs (lower ⟨c.tree, 0⟩ rhs) 4).toOption
      let ran ← (Machine.fresh.execute 64 c.program 4).toOption
      if b.1 = "x" ∧ Site.mentions ⟨c.tree, 0⟩ ⟨.window, 3⟩ rhs = false ∧
        result.code.any (fun i => i.instruction.reads ⟨.window, 3⟩) ∧
        ran = ⟨[2, 3, 1, 12], ""⟩ then some ()
      else none) = some () := by decide +kernel
  obtain ⟨c, hc, found⟩ := Option.bind_eq_some_iff.mp found
  obtain ⟨e, he, found⟩ := Option.bind_eq_some_iff.mp found
  obtain ⟨⟨name, value⟩, binds, found⟩ := Option.bind_eq_some_iff.mp found
  obtain ⟨rhs, right, found⟩ := Option.bind_eq_some_iff.mp found
  obtain ⟨result, hr, found⟩ := Option.bind_eq_some_iff.mp found
  obtain ⟨ran, hx, found⟩ := Option.bind_eq_some_iff.mp found
  split at found
  · rename_i facts
    obtain ⟨rfl, silent, reads, rfl⟩ := facts
    exact ⟨c, e, value, rhs, result, toOption_eq_some hc, he, binds, right, silent,
      toOption_eq_some hr, List.any_eq_true.mp reads, toOption_eq_some hx⟩
  · cases found

end WindowedClosures
