import WindowedClosures.Proofs.Code.Folding
import WindowedClosures.Proofs.Scope.Ownership
import WindowedClosures.Proofs.Scope.Rows

/-!
# Records of numbers

A record is a tuple whose fields have names. A literal for it is built like any tuple, its members one
behind the other in the registers of the variable, while a field is looked up by name in the type of the
variable. So a field is worth the member that stands at its position, whatever name the literal gives
that member.
-/

namespace WindowedClosures

open Emit

/-! ## Positions -/

theorem sizeFields_of_words {types : List (Labelled Ty)} (words : ∀ t ∈ types, t.value.size = 1) :
    Ty.sizeFields types = types.length := by
  induction types with
  | nil => rfl
  | cons first rest ih =>
    rw [Ty.sizeFields, words first (by simp), ih fun t mem => words t (by simp [mem]), List.length_cons,
      Nat.add_comm]

/-- A name that no other field has leads to the position of its field. -/
theorem Ty.fieldFrom?_of_words {types : List (Labelled Ty)} (words : ∀ t ∈ types, t.value.size = 1)
    {names : List String} (labels : types.map (·.label) = names.map some) (distinct : names.Nodup)
    {i : Nat} {name : String} (found : names[i]? = some name) (start : Nat) :
    ∃ ty, fieldFrom? name start types = some (start + i, ty) := by
  induction types generalizing names i start with
  | nil =>
    obtain rfl := List.map_eq_nil_iff.mp labels.symm
    cases found
  | cons first rest ih =>
    obtain ⟨here, others, rfl, same, labels⟩ := List.map_eq_cons_iff.mp labels.symm
    rw [List.nodup_cons] at distinct
    rw [fieldFrom?, show first.label = some here from same.symm]
    cases i with
    | zero =>
      cases found
      exact ⟨first.value, by simp⟩
    | succ i =>
      have other : here ≠ name := by
        rintro rfl
        exact distinct.1 (List.mem_of_getElem? found)
      rw [if_neg (by simpa using other), words first (by simp)]
      obtain ⟨ty, place⟩ := ih (fun t mem => words t (by simp [mem])) labels.symm distinct.2 found
        (start + 1)
      exact ⟨ty, by rw [place, Nat.add_assoc, Nat.add_comm 1]⟩

/-! ## Loading numbers one behind the other -/

/-- The instructions that load numbers into registers. -/
def Emit.loadsAll (pairs : List (Register × Int32)) : List Instruction :=
  pairs.flatMap fun p => loads p.1 p.2

theorem Emit.length_loadsAll (pairs : List (Register × Int32)) :
    (loadsAll pairs).length ≤ 2 * pairs.length := by
  induction pairs with
  | nil => exact Nat.zero_le _
  | cons first rest ih =>
    have two := length_loads first.1 first.2
    rw [loadsAll, List.flatMap_cons, List.length_append, List.length_cons]
    rw [loadsAll] at ih
    omega

/-- Numbers for different registers are all there behind the code. -/
theorem Emit.play_loadsAll {pairs : List (Register × Int32)} (near : ∀ p ∈ pairs, p.1.Near)
    (distinct : (pairs.map (·.1)).Nodup) (file : RegisterFile) :
    ∃ after, play (loadsAll pairs) file = .ok after ∧ (∀ p ∈ pairs, after p.1 = p.2) ∧
      ∀ r : Register, r.Near → r ∉ pairs.map (·.1) → after r = file r := by
  induction pairs generalizing file with
  | nil => exact ⟨file, rfl, by simp, fun _ _ _ => rfl⟩
  | cons first rest ih =>
    obtain ⟨dst, word⟩ := first
    rw [List.map_cons, List.nodup_cons] at distinct
    have here := near (dst, word) (by simp)
    obtain ⟨between, loaded, sets⟩ := play_loads here word file
    obtain ⟨after, played, values, others⟩ := ih (fun p mem => near p (by simp [mem])) distinct.2 between
    refine ⟨after, ?_, ?_, ?_⟩
    · rw [loadsAll, List.flatMap_cons, play_append, loaded]
      exact played
    · intro p mem
      rcases List.mem_cons.mp mem with rfl | mem
      · exact (others dst here distinct.1).trans sets.same
      · exact values p mem
    · intro r hr apart
      rw [List.map_cons, List.mem_cons, not_or] at apart
      have below : r.Below 64 := hr.symm.imp id fun bank => ⟨bank, r.offset.isLt⟩
      exact (others r hr apart.2).trans (sets.other r below apart.1)

/-- The registers of a row lie in one bank, as many of them as there are from its start on. -/
theorem bounds_of_shifts {α : Type} {f : α → Register} {start : Register} {xs : List α}
    (shifts : ∀ (k : Nat) x, xs[k]? = some x → start.shift k = .ok (f x)) {x : α} (mem : x ∈ xs) :
    (f x).bank = start.bank ∧ start.offset ≤ (f x).offset.val ∧
      (f x).offset < start.offset.val + xs.length := by
  obtain ⟨k, found⟩ := List.getElem?_of_mem mem
  obtain ⟨bank, offset⟩ := Register.shift_ok (shifts k x found)
  have lt := (List.getElem?_eq_some_iff.mp found).1
  exact ⟨bank, by omega, by omega⟩

/-- Registers one behind the other are different ones of the window, so there are no more than it has. -/
theorem different_of_shift {α : Type} {first : Register} {pairs : List (Register × α)}
    (shifted : ∀ (i : Nat) (p : Register × α), pairs[i]? = some p → first.shift i = .ok p.1) :
    (pairs.map (·.1)).Nodup ∧ pairs.length ≤ 64 := by
  have offset (i : Nat) (lt : i < pairs.length) : pairs[i].1.offset.val = first.offset + i :=
    (Register.shift_ok (shifted i _ (List.getElem?_eq_getElem lt))).2
  constructor
  · refine List.nodup_iff_getElem?_ne_getElem?.mpr fun i j lt small same => ?_
    rw [List.length_map] at small
    have hi := offset i (Nat.lt_trans lt small)
    have hj := offset j small
    rw [List.getElem?_map, List.getElem?_map, List.getElem?_eq_getElem (Nat.lt_trans lt small),
      List.getElem?_eq_getElem small, Option.map_some, Option.map_some, Option.some.injEq] at same
    rw [same] at hi
    omega
  · by_contra many
    have last := offset 64 (by omega)
    omega

/-- A program that loads numbers into registers of its window, one behind the other, leaves them there. -/
theorem execute_loadsAll {first : Register} (window : first.bank = .window)
    {pairs : List (Register × Int32)}
    (shifted : ∀ (i : Nat) (p : Register × Int32), pairs[i]? = some p → first.shift i = .ok p.1)
    (labels : List Label) (m : Machine) {limit : Nat} (enough : 2 * pairs.length + 1 ≤ limit)
    (count : Nat) :
    ∃ registers, m.execute limit ⟨loadsAll pairs ++ [⟨.ret, 0, 0⟩] ++ [⟨.call, 0, 0⟩], labels⟩ count =
        .ok ⟨registers, ""⟩ ∧
      ∀ p ∈ pairs, p.1.bank = .window ∧
        (p.1.offset.val < count → registers[p.1.offset.val]? = some p.2) := by
  have inWindow (p : Register × Int32) (mem : p ∈ pairs) : p.1.bank = .window :=
    (bounds_of_shifts shifted mem).1.trans window
  obtain ⟨different, few⟩ := different_of_shift shifted
  have short := length_loadsAll pairs
  have fits : (loadsAll pairs).length + 66 ≤ stackSize := by rw [stackSize]; omega
  have ticks : (loadsAll pairs).length + 1 ≤ limit := by omega
  obtain ⟨after, played, values, -⟩ := play_loadsAll (fun p mem => .inl (inWindow p mem)) different
    (Run.start (loadsAll pairs ++ [⟨.ret, 0, 0⟩]) 0).machine.file
  obtain ⟨registers, ran, -, found⟩ := execute_of_play labels m fits ticks played count
  refine ⟨registers, ran, fun p mem => ⟨inWindow p mem, fun lt => ?_⟩⟩
  rw [found p.1 (inWindow p mem) lt, values p mem]

/-- The code for fields of one register each loads their numbers, each into the register at its
position. -/
theorem lowerFields_ok {s : Site} {fields : List (Labelled Expr)}
    (numeric : ∀ field ∈ fields, field.value.Numeric) {types : List (Labelled Ty)}
    (words : ∀ t ∈ types, t.value.size = 1) (length : types.length = fields.length) {start : Nat}
    {dst : Register} {watermark : Nat} {result : Emission Unit}
    (h : lowerFields s fields (fieldSlots start types) dst watermark = .ok result) :
    ∃ pairs : List (Register × Int32), result.code = (loadsAll pairs).map (fun i => ⟨i, none, none⟩) ∧
      fields.map (·.value.wrapped) = pairs.map (fun p => some p.2) ∧
      ∀ (i : Nat) (p : Register × Int32), pairs[i]? = some p → dst.shift (start + i) = .ok p.1 := by
  induction fields generalizing types start result with
  | nil =>
    obtain rfl := List.length_eq_zero_iff.mp length
    rw [pure_ok h]
    exact ⟨[], rfl, rfl, by simp⟩
  | cons field fields ih =>
    obtain ⟨type, types, rfl⟩ := List.exists_cons_of_length_eq_add_one length
    rw [fieldSlots, words type (by simp), lowerFields] at h
    obtain ⟨_, _, placed, behind, rfl⟩ := bind_ok h
    obtain ⟨t, ht, rfl⟩ := register_ok placed
    obtain ⟨_, rest, released, others, rfl⟩ := bind_ok behind
    obtain ⟨inner, lowered, rfl⟩ := releasing_ok released
    have number := numeric field (by simp)
    have constant := number.constant?_eq
    cases value : field.value.wrapped with
    | none =>
      rw [value] at constant
      obtain ⟨span, fault⟩ := constant
      rw [number.lower_of_error fault] at lowered
      exact (fail_ok lowered).elim
    | some word =>
      rw [value] at constant
      rw [number.lower_of_ok constant, loadInt_eq] at lowered
      cases lowered
      obtain ⟨pairs, code, worth, places⟩ := ih (fun f mem => numeric f (by simp [mem]))
        (fun t mem => words t (by simp [mem])) (by simpa using length) others
      refine ⟨(t, word) :: pairs, ?_, by rw [List.map_cons, List.map_cons, value, worth], ?_⟩
      · rw [loadsAll, List.flatMap_cons, List.map_append, code]
        rfl
      · intro i p found
        cases i with
        | zero =>
          cases found
          exact ht
        | succ i =>
          rw [show start + (i + 1) = start + 1 + i by omega]
          exact places i p found

/-! ## Programs without functions -/

/-- A program whose statements have no literals has no functions. -/
theorem functions_of_root {tree : ScopeTree} (h : tree.Resolved)
    (none : literalsOf tree.root.body = []) : tree.functions = [] := by
  obtain ⟨ids, numbered, -⟩ := h.numbered
  have below := numbered.below
  rw [ScopeTree.children, show (tree.scope ScopeTree.rootId).body = tree.root.body from rfl, none]
    at below
  cases below
  have one : tree.count = 1 := by
    have length := numbered.perm.length_eq
    rw [List.length_range] at length
    exact length.symm
  have all : tree.allLiterals = [] := by
    rw [ScopeTree.allLiterals, ScopeTree.ids, one]
    simpa [ScopeTree.root, ScopeTree.rootId] using none
  have functions := h.indexed.functions
  rw [all] at functions
  exact List.map_eq_nil_iff.mp functions.eq_nil

/-- It is the code of its statements and a return. -/
theorem compile_of_no_functions {tree : ScopeTree} {program : Program} (h : tree.compile = .ok program)
    (none : tree.functions = []) :
    ∃ result, lowerStatements ⟨tree, ScopeTree.rootId⟩ tree.root.body tree.root.size = .ok result ∧
      ∀ code : List Instruction, result.code = code.map (fun i => ⟨i, .none, .none⟩) →
        program = ⟨code ++ [⟨.ret, 0, 0⟩] ++ [⟨.call, 0, 0⟩], []⟩ := by
  obtain ⟨⟨blocks, body, entry, linked, laid, main, -, -, links, rfl⟩⟩ := compile_ok h
  rw [none] at laid
  cases laid
  obtain ⟨result, emitted, rfl⟩ := scopeCode_ok main
  refine ⟨result, emitted, fun code eq => ?_⟩
  have linked_eq := mapM_link [] (code ++ [⟨.ret, 0, 0⟩])
  rw [List.map_append, ← eq] at linked_eq
  rw [List.flatMap_nil, List.nil_append, List.map_nil] at links
  rw [show [(⟨.ret, 0, 0⟩ : Instruction)].map (fun i => (⟨i, .none, .none⟩ : Emitted)) =
    [⟨⟨.ret, 0, 0⟩, .none, .none⟩] from rfl, links] at linked_eq
  cases linked_eq
  rfl

/-- Declared types have no code. -/
theorem lowerStatements_declared {s : Site} {declared : List Expr}
    (named : ∀ e ∈ declared, ∃ name type span, e = .typeDecl name type span) (e : Expr) :
    lowerStatements s (declared ++ [e]) = lowerStatement s true e := by
  induction declared with
  | nil => rfl
  | cons first rest ih =>
    obtain ⟨name, type, span, rfl⟩ := named first (by simp)
    rw [List.cons_append, lowerStatements, lowerStatement, ih fun e mem => named e (by simp [mem])]
    · exact pure_bind () _
    · simp

theorem literalsOf_declared {declared : List Expr}
    (named : ∀ e ∈ declared, ∃ name type span, e = .typeDecl name type span) :
    literalsOf declared = [] := by
  refine List.flatMap_eq_nil_iff.mpr fun e mem => ?_
  obtain ⟨name, type, span, rfl⟩ := named e mem
  rfl

theorem literalsOfFields_numeric {fields : List (Labelled Expr)}
    (numeric : ∀ field ∈ fields, field.value.Numeric) : Expr.literalsOfFields fields = [] := by
  induction fields with
  | nil => rfl
  | cons first rest ih =>
    rw [Expr.literalsOfFields, (numeric first (by simp)).literals_eq,
      ih fun field mem => numeric field (by simp [mem])]
    rfl

/-! ## Declaring a record -/

/-- The word that an access reads from the registers of the program's window. -/
def Site.reads (s : Site) (registers : List Int32) (e : Expr) : Option Int32 :=
  match s.place e with
  | .ok (r, _) => if r.bank = .window then registers[r.offset.val]? else none
  | .error _ => none

/-- A field of a variable of the program is worth what a number comes to. -/
def ScopeTree.FieldHolds (tree : ScopeTree) (registers : List Int32) (n name : String) (e : Expr) :
    Prop :=
  ∃ word, e.wrapped = some word ∧ ∀ s₁ s₂ s₃, Site.reads ⟨tree, ScopeTree.rootId⟩ registers
    (.binary .field (.name n s₁) (.name name s₂) s₃) = some word

/-- A field of a variable lies at its position in the registers of the variable. -/
theorem Site.place_field {s : Site} {n : String} {v : Variable} (known : s.scope.local? n = some v)
    (counts : v.counted = .ok (v.offset + v.ty.size)) {first : Register}
    (place : v.register = .ok first) {types : List (Labelled Ty)}
    (record : v.ty.resolved = .tuple types) (words : ∀ t ∈ types, t.value.size = 1)
    {names : List String} (labels : types.map (·.label) = names.map some) (distinct : names.Nodup)
    {i : Nat} {name : String} (found : names[i]? = some name) {t : Register}
    (shifted : first.shift i = .ok t) (s₁ s₂ s₃ : Span) :
    ∃ ty, s.place (.binary .field (.name n s₁) (.name name s₂) s₃) = .ok (t, ty) := by
  obtain ⟨ty, field⟩ := Ty.fieldFrom?_of_words words labels distinct found 0
  have base : s.place (.name n s₁) = .ok (first, v.ty) := by
    simp [Site.place, Site.lookup, known, counts, place, Site.inWindow, bind, Except.bind]
  rw [Nat.zero_add] at field
  refine ⟨ty, ?_⟩
  rw [Site.place, base]
  simp [bind, Except.bind, Expr.asName?, Ty.field?, record, field, shifted, Site.inWindow]

/-- The code that declares a record loads its numbers into the registers of the variable, one behind
the other. -/
theorem lowerStatement_record_ok {s : Site} {n : String} {v : Variable}
    (known : s.scope.local? n = some v) {types : List (Labelled Ty)}
    (record : v.ty.resolved = .tuple types) (words : ∀ t ∈ types, t.value.size = 1)
    {fields : List (Labelled Expr)} (length : types.length = fields.length)
    (labelled : ∀ field ∈ fields, field.label ≠ none)
    (numeric : ∀ field ∈ fields, field.value.Numeric) {isLast : Bool} {written : TypeExpr}
    {s₁ s₂ : Span} {watermark : Nat} {result : Emission Unit}
    (h : lowerStatement s isLast (.varDecl n written (.tuple fields s₁) s₂) watermark = .ok result) :
    ∃ first pairs, v.register = .ok first ∧
      result.code = (loadsAll pairs).map (fun i => ⟨i, none, none⟩) ∧
      fields.map (·.value.wrapped) = pairs.map (fun p => some p.2) ∧
      ∀ (i : Nat) (p : Register × Int32), pairs[i]? = some p → first.shift i = .ok p.1 := by
  obtain ⟨_, _, looked, behind, rfl⟩ := bind_ok h
  obtain ⟨u, hu, rfl⟩ := lift_ok looked
  rw [Site.lookup, known] at hu
  cases hu
  obtain ⟨_, _, placed, evaluated, rfl⟩ := bind_ok behind
  obtain ⟨first, hf, rfl⟩ := register_ok placed
  obtain ⟨inner, lowered, rfl⟩ := releasing_ok evaluated
  -- only a single member without a label is lowered like one in parentheses
  have tuple : lower s (.tuple fields s₁) first v.ty =
      lowerFields s fields (fieldSlots 0 types) first := by
    rw [lower, slots?, record]
    · simp only [length, if_true]
    · rintro value rfl
      exact labelled ⟨none, value⟩ (by simp) rfl
  rw [tuple] at lowered
  obtain ⟨pairs, code, worth, places⟩ := lowerFields_ok numeric words length lowered
  exact ⟨first, pairs, hf, code, worth, fun i p found => by simpa using places i p found⟩

/-- A program that declares types and a record of numbers leaves each number in the field at its own
position, on every machine. So a field has the number that the literal gives its name wherever the
literal has the names in the order of the type. -/
theorem record_built_in_order {source : String} {c : Compiled} (compiled : compileSource source = .ok c)
    {declared : List Expr} (named : ∀ e ∈ declared, ∃ name type span, e = .typeDecl name type span)
    {n : String} {written : TypeExpr} {fields : List (Labelled Expr)} {s₁ s₂ : Span}
    (body : c.tree.root.body = declared ++ [.varDecl n written (.tuple fields s₁) s₂])
    {v : Variable} (known : c.tree.root.local? n = some v) {types : List (Labelled Ty)}
    (record : v.ty.resolved = .tuple types) (integral : ∀ t ∈ types, t.value.isIntegral = true)
    {names : List String} (labels : types.map (·.label) = names.map some) (distinct : names.Nodup)
    (given : (fields.map (·.label)).Perm (names.map some))
    (numeric : ∀ field ∈ fields, field.value.Numeric) (m : Machine) {limit : Nat}
    (enough : 2 * fields.length + 1 ≤ limit) :
    ∃ registers, m.execute limit c.program c.tree.root.size = .ok ⟨registers, ""⟩ ∧
      (∀ (i : Nat) (name : String) (field : Labelled Expr), names[i]? = some name →
        fields[i]? = some field → c.tree.FieldHolds registers n name field.value) ∧
      (fields.map (·.label) = names.map some → ∀ field ∈ fields, ∀ name, field.label = some name →
        c.tree.FieldHolds registers n name field.value) := by
  obtain ⟨resolved, made⟩ := compileSource_ok compiled
  have words : ∀ t ∈ types, t.value.size = 1 := fun t mem => Ty.size_of_isIntegral (integral t mem)
  have count : types.length = fields.length := by
    have same := given.length_eq
    have length := congrArg List.length labels
    simp only [List.length_map] at same length
    omega
  have labelled : ∀ field ∈ fields, field.label ≠ none := by
    intro field mem none
    have inside := given.mem_iff.mp (List.mem_map_of_mem (f := Labelled.label) mem)
    rw [none] at inside
    simp at inside
  have literals : literalsOf c.tree.root.body = [] := by
    rw [body, literalsOf_append, literalsOf_declared named]
    simp [Expr.literals, literalsOfFields_numeric numeric]
  obtain ⟨result, emitted, program⟩ := compile_of_no_functions made (functions_of_root resolved literals)
  rw [body, lowerStatements_declared named] at emitted
  obtain ⟨first, pairs, place, code, worth, places⟩ :=
    lowerStatement_record_ok (s := ⟨c.tree, ScopeTree.rootId⟩) known record words count labelled numeric
      emitted
  have length : pairs.length = fields.length := by simpa using (congrArg List.length worth).symm
  -- the variable lies in the program's window
  have arranged := arranged_of_resolved resolved ScopeTree.rootId
  have mem : v ∈ c.tree.root.vars := by
    rcases Scope.local?_mem known with own | captured
    · exact own
    · rw [ScopeTree.root_closure_of_resolved resolved] at captured
      cases captured
  obtain ⟨l⟩ := compile_ok made
  have counts := arranged.counted_variable (counted_of_scopeCode l.main) mem
  obtain ⟨bank, offset⟩ := Register.ofOffset_ok place
  have inside : v.offset + fields.length ≤ c.tree.root.size := by
    have size : v.ty.size = fields.length := by
      rw [← Ty.size_resolved, record, Ty.size, sizeFields_of_words words, count]
    rw [← size]
    exact arranged.inside v mem
  obtain ⟨registers, ran, found⟩ := execute_loadsAll (bank.trans (arranged.vars v mem)) places [] m
    (length.symm ▸ enough) c.tree.root.size
  rw [← program _ code] at ran
  have positions : ∀ (i : Nat) (name : String) (field : Labelled Expr), names[i]? = some name →
      fields[i]? = some field → c.tree.FieldHolds registers n name field.value := by
    intro i name field hn hf
    have here := congrArg (·[i]?) worth
    have lt : i < pairs.length := length ▸ (List.getElem?_eq_some_iff.mp hf).1
    have pair := List.getElem?_eq_getElem lt
    simp only [List.getElem?_map, hf, pair, Option.map_some, Option.some.injEq] at here
    refine ⟨_, here, fun s₃ s₄ s₅ => ?_⟩
    obtain ⟨ty, placed⟩ := Site.place_field (s := ⟨c.tree, ScopeTree.rootId⟩) known counts place record
      words labels distinct hn (places i _ pair) s₃ s₄ s₅
    obtain ⟨window, holds⟩ := found _ (List.mem_of_getElem? pair)
    have behind := (Register.shift_ok (places i _ pair)).2
    simp only [Site.reads, placed]
    rw [if_pos window, holds (by omega)]
  refine ⟨registers, ran, positions, fun same field hf name label => ?_⟩
  obtain ⟨i, here⟩ := List.getElem?_of_mem hf
  refine positions i name field ?_ here
  have at_i := congrArg (·[i]?) same
  simpa [here, label] using at_i.symm

/-- The variable and the members of the record that is all a body declares. -/
def declaredRecord? : List Expr → Option (String × List (Labelled Expr))
  | [.varDecl n _ (.tuple fields _) _] => some (n, fields)
  | _ => none

theorem eq_of_declaredRecord? {body : List Expr} {n : String} {fields : List (Labelled Expr)}
    (h : declaredRecord? body = some (n, fields)) :
    ∃ written s₁ s₂, body = [.varDecl n written (.tuple fields s₁) s₂] := by
  unfold declaredRecord? at h
  split at h
  · cases h
    exact ⟨_, _, _, rfl⟩
  · cases h

/-- In `(c: 0x1, a: 2, b: -3)` the fields `a`, `b` and `c` of the type have the numbers 1, 2 and -3. -/
theorem record_built_in_order_rotated : ∃ c registers fields,
    compileSource "[ v: (a: int, b: char, c: bool) = (c: 0x1, a: 2, b: -3)" = .ok c ∧
      declaredRecord? c.tree.root.body = some ("v", fields) ∧
      fields.map (fun f => (f.label, f.value.wrapped)) =
        [(some "c", some 1), (some "a", some 2), (some "b", some (-3))] ∧
      Machine.fresh.execute 7 c.program c.tree.root.size = .ok ⟨registers, ""⟩ ∧
      ∀ p ∈ ["a", "b", "c"].zip fields, c.tree.FieldHolds registers "v" p.1 p.2.value := by
  have found : (do
      let c ← (compileSource "[ v: (a: int, b: char, c: bool) = (c: 0x1, a: 2, b: -3)").toOption
      let v ← c.tree.root.local? "v"
      let record ← declaredRecord? c.tree.root.body
      if record.1 = "v" ∧ v.ty.resolved = .tuple [⟨some "a", .int⟩, ⟨some "b", .char⟩, ⟨some "c", .bool⟩] ∧
        record.2.map (fun f => (f.label, f.value.wrapped)) =
          [(some "c", some 1), (some "a", some 2), (some "b", some (-3))] ∧
        ∀ field ∈ record.2, field.value.Numeric then some ()
      else none) = some () := by decide +kernel
  obtain ⟨c, hc, found⟩ := Option.bind_eq_some_iff.mp found
  obtain ⟨v, known, found⟩ := Option.bind_eq_some_iff.mp found
  obtain ⟨⟨n, fields⟩, declared, found⟩ := Option.bind_eq_some_iff.mp found
  split at found
  · rename_i facts
    obtain ⟨rfl, record, worth, numeric⟩ := facts
    obtain ⟨written, s₁, s₂, body⟩ := eq_of_declaredRecord? declared
    have length : fields.length = 3 := by simpa using congrArg List.length worth
    have labels : fields.map (·.label) = [some "c", some "a", some "b"] := by
      simpa [Function.comp_def] using congrArg (List.map Prod.fst) worth
    obtain ⟨registers, ran, positions, -⟩ := record_built_in_order (toOption_eq_some hc)
      (by simp) (show c.tree.root.body = [] ++ [_] from body) known record
      (by simp [Ty.isIntegral, Ty.resolved]) (show _ = ["a", "b", "c"].map some from rfl) (by decide)
      (by rw [labels]; decide) numeric .fresh (show 2 * fields.length + 1 ≤ 7 by omega)
    refine ⟨c, registers, fields, toOption_eq_some hc, declared, worth, ran, fun p mem => ?_⟩
    obtain ⟨i, found⟩ := List.getElem?_of_mem mem
    obtain ⟨name, field⟩ := List.getElem?_zip_eq_some.mp found
    exact positions i p.1 p.2 name field
  · cases found

/-- The literal `(y: 1, x: 2)` gives `x` the number 2, but the field `x` is worth 1. -/
theorem labels_not_followed : ∃ c registers fields v,
    compileSource "[ v: (x: int, y: int) = (y: 1, x: 2)" = .ok c ∧
      declaredRecord? c.tree.root.body = some ("v", fields) ∧
      fields.map (fun f => (f.label, f.value.wrapped)) = [(some "y", some 1), (some "x", some 2)] ∧
      c.tree.root.local? "v" = some v ∧ v.ty = .tuple [⟨some "x", .int⟩, ⟨some "y", .int⟩] ∧
      Machine.fresh.execute 64 c.program c.tree.root.size = .ok ⟨registers, ""⟩ ∧
      Site.reads ⟨c.tree, ScopeTree.rootId⟩ registers
        (.binary .field (.name "v" .zero) (.name "x" .zero) .zero) = some 1 ∧
      Site.reads ⟨c.tree, ScopeTree.rootId⟩ registers
        (.binary .field (.name "v" .zero) (.name "y" .zero) .zero) = some 2 := by
  have found : (do
      let c ← (compileSource "[ v: (x: int, y: int) = (y: 1, x: 2)").toOption
      let v ← c.tree.root.local? "v"
      let record ← declaredRecord? c.tree.root.body
      let ran ← (Machine.fresh.execute 64 c.program c.tree.root.size).toOption
      if record.1 = "v" ∧
        record.2.map (fun f => (f.label, f.value.wrapped)) = [(some "y", some 1), (some "x", some 2)] ∧
        v.ty = .tuple [⟨some "x", .int⟩, ⟨some "y", .int⟩] ∧ ran.output = "" ∧
        Site.reads ⟨c.tree, ScopeTree.rootId⟩ ran.registers
          (.binary .field (.name "v" .zero) (.name "x" .zero) .zero) = some 1 ∧
        Site.reads ⟨c.tree, ScopeTree.rootId⟩ ran.registers
          (.binary .field (.name "v" .zero) (.name "y" .zero) .zero) = some 2 then some ()
      else none) = some () := by decide +kernel
  obtain ⟨c, hc, found⟩ := Option.bind_eq_some_iff.mp found
  obtain ⟨v, known, found⟩ := Option.bind_eq_some_iff.mp found
  obtain ⟨⟨n, fields⟩, declared, found⟩ := Option.bind_eq_some_iff.mp found
  obtain ⟨⟨registers, output⟩, ran, found⟩ := Option.bind_eq_some_iff.mp found
  split at found
  · rename_i facts
    obtain ⟨rfl, worth, ty, rfl, x, y⟩ := facts
    exact ⟨c, registers, fields, v, toOption_eq_some hc, declared, worth, known, ty,
      toOption_eq_some ran, x, y⟩
  · cases found

end WindowedClosures
