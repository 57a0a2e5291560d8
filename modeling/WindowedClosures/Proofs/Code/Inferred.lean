import WindowedClosures.Proofs.Code.Texts
import WindowedClosures.Proofs.Scope.Arms
import WindowedClosures.Proofs.Scope.Names
import WindowedClosures.Proofs.Ty.Callables

/-!
# Literals in the type inferred for them

The type inferred for integer literals, texts and tuples of them has a place for each part, so making
code in that type goes wrong in one way only. The array inferred for a text has one character more than
the text has bytes, while the code wants room for one character more than that behind the ASCII
characters. So a text does not fit exactly if all its characters are ASCII.
-/

namespace WindowedClosures

namespace Expr

/-- Integers, texts and tuples of such. -/
inductive Literal : Expr → Prop
  | int (value : Int32) (span : Span) : Literal (.int value span)
  | hex (value : UInt32) (span : Span) : Literal (.hex value span)
  | text (value : String) (span : Span) : Literal (.text value span)
  | tuple {fields : List (Labelled Expr)} {span : Span} :
      (∀ field ∈ fields, Literal field.value) → Literal (.tuple fields span)

/-- The fault of a text that is all ASCII: the array inferred for it ends with its zero. -/
def overlong? : Expr → Option CompileError
  | .text value span =>
    if value.toList.all (·.toNat < 128) then
      some (.literalTooLarge value.utf8ByteSize (value.utf8ByteSize + 1) span)
    else none
  | _ => none

/-- The fault of the first text that is all ASCII. -/
def misfit? (e : Expr) : Option CompileError := e.nodes.findSome? overlong?

end Expr

/-- The fault of a result. -/
def fault? {ε α : Type} : Except ε α → Option ε
  | .ok _ => none
  | .error e => some e

theorem eq_error_of_fault? {ε α : Type} {x : Except ε α} {e : ε} (h : fault? x = some e) :
    x = .error e := by
  cases x with
  | ok a => cases h
  | error e' =>
    cases h
    rfl

theorem fault?_map {ε α β : Type} (x : Except ε α) (f : α → β) :
    fault? (x >>= fun a => .ok (f a)) = fault? x := by
  cases x <;> rfl

namespace Emit

variable {α β : Type} {m : Emit α} {f : α → Emit β} {watermark : Nat}

theorem fault?_bind : fault? ((m >>= f) watermark) =
    match m watermark with
    | .ok first => fault? (f first.value first.watermark)
    | .error e => some e := by
  cases first : m watermark with
  | error e => simp only [bind, first, fault?]
  | ok a => cases second : f a.value a.watermark <;> simp only [bind, first, second, fault?]

theorem fault?_releasing : fault? (releasing m watermark) = fault? (m watermark) := by
  cases result : m watermark <;> simp only [releasing, result, fault?]

end Emit

/-- The result has this fault or, if there is none, no fault; or else it misses a register, and there
are none as far as to an offset. -/
def EndsIn {α : Type} (fault : Option CompileError) (last : Nat) (result : Except CompileError α) : Prop :=
  fault? result = fault ∨ 64 ≤ last ∧ ∃ overflow, fault? result = some (.registerOverflow overflow)

namespace EndsIn

variable {α β : Type} {fault fault' : Option CompileError} {last last' watermark : Nat}

theorem mono {result : Except CompileError α} (h : EndsIn fault last result) (le : last ≤ last') :
    EndsIn fault last' result :=
  h.imp id fun ⟨far, overflow⟩ => ⟨Nat.le_trans far le, overflow⟩

theorem releasing {m : Emit α} (h : EndsIn fault last (m watermark)) :
    EndsIn fault last (Emit.releasing m watermark) := by
  rwa [EndsIn, Emit.fault?_releasing]

/-- Of two emissions the second only matters if the first ends well. -/
theorem bind {m : Emit α} {f : α → Emit β} (hm : EndsIn fault last (m watermark))
    (hf : ∀ first, m watermark = .ok first → EndsIn fault' last (f first.value first.watermark)) :
    EndsIn (fault.or fault') last ((m >>= f) watermark) := by
  rw [EndsIn, Emit.fault?_bind]
  cases first : m watermark with
  | error e =>
    rw [first] at hm
    exact hm.imp (fun same => by rw [← same]; rfl) id
  | ok a =>
    rw [first] at hm
    rcases hm with same | ⟨_, _, none⟩
    · rw [← same]
      exact hf a first
    · cases none

theorem of_succeeds {m : Emit α} {Q : α → Nat → Prop} (h : m.Succeeds watermark Q) :
    EndsIn none last (m watermark) := by
  obtain ⟨result, ok, -⟩ := h
  rw [ok]
  exact .inl rfl

/-- A register that is not there is behind the last one. -/
theorem register {r : Register} {delta : Nat} {f : Register → Emit β} (le : r.offset + delta ≤ last)
    (hf : ∀ t : Register, t.offset.val = r.offset + delta → EndsIn fault last (f t watermark)) :
    EndsIn fault last ((Emit.register (r.shift delta) >>= f) watermark) := by
  rw [EndsIn, Emit.fault?_bind]
  cases there : r.shift delta with
  | ok t => exact hf t (Register.shift_ok there).2
  | error overflow =>
    have outside : ¬ r.offset + delta < 64 := fun inside => by
      rw [Register.shift, Register.ofOffset, dif_pos inside] at there
      cases there
    exact .inr ⟨by omega, overflow, rfl⟩

end EndsIn

namespace Emit

/-- A text has at least as many bytes as ASCII characters, and no more only if all of it is ASCII. -/
theorem ascii_of_byteLength (text : List Char) :
    (text.filter fun c => c.toNat < 128).length ≤ byteLength text ∧
      (byteLength text ≤ (text.filter fun c => c.toNat < 128).length ↔
        text.all (·.toNat < 128) = true) := by
  induction text with
  | nil => exact ⟨Nat.le_refl _, by simp [byteLength]⟩
  | cons c rest ih =>
    have one : c.utf8Size = 1 ↔ c.toNat < 128 := by
      rw [Char.utf8Size_eq_one_iff, UInt32.le_iff_toNat_le]
      exact Nat.lt_succ_iff.symm
    have positive := c.utf8Size_pos
    rw [byteLength_cons, List.filter_cons, List.all_cons]
    by_cases ascii : c.toNat < 128
    · simp only [ascii, decide_true, if_true, List.length_cons, Bool.true_and, one.mpr ascii, ← ih.2]
      omega
    · have more : c.utf8Size ≠ 1 := fun eq => ascii (one.mp eq)
      simp only [ascii, decide_false, Bool.false_eq_true, if_false, Bool.false_and, iff_false]
      omega

/-- Words are loaded unless there are no registers for them. -/
theorem endsIn_loadWords_from {dst : Register} {words : List Int32} {start watermark last : Nat}
    (le : dst.offset + start + words.length ≤ last) :
    EndsIn none last (((words.zipIdx start).forM fun (word, i) => do
      loadInt (← register (dst.shift i)) word : Emit Unit) watermark) := by
  induction words generalizing start watermark with
  | nil => exact .inl rfl
  | cons word rest ih =>
    rw [List.length_cons] at le
    have first : EndsIn none last ((do loadInt (← register (dst.shift start)) word : Emit Unit) watermark) :=
      .register (by omega) fun t _ => .of_succeeds (succeeds_loadInt (Q := fun _ _ => True) trivial)
    exact first.bind fun _ _ => ih (by omega)

theorem endsIn_loadWords {dst : Register} {words : List Int32} {watermark last : Nat}
    (le : dst.offset + words.length ≤ last) : EndsIn none last (loadWords dst words watermark) :=
  endsIn_loadWords_from (by omega)

/-- A text in the array inferred for it. -/
theorem endsIn_text (value : String) (span : Span) (dst : Register) (watermark : Nat) :
    EndsIn (Expr.text value span).misfit? (dst.offset + (Ty.array .char (value.utf8ByteSize + 1)).size)
      (text value span dst (.array .char (value.utf8ByteSize + 1)) watermark) := by
  obtain ⟨le, ascii⟩ := ascii_of_byteLength value.toList
  rw [← asciiOf, byteLength_toList] at le ascii
  have capacity : charCapacity (.array .char (value.utf8ByteSize + 1)) = value.utf8ByteSize + 1 := rfl
  have size : (Ty.array .char (value.utf8ByteSize + 1)).size = (value.utf8ByteSize + 1 + 3) / 4 := rfl
  have misfit : (Expr.text value span).misfit? = if value.utf8ByteSize ≤ (asciiOf value).length then
      some (.literalTooLarge value.utf8ByteSize (value.utf8ByteSize + 1) span) else none := by
    simp only [Expr.misfit?, Expr.nodes, List.findSome?_singleton, Expr.overlong?, ascii]
  rw [text_eq (by simp [Ty.resolved]), capacity, size, misfit]
  by_cases all : value.utf8ByteSize ≤ (asciiOf value).length
  · rw [if_pos all, if_pos (by omega), show (asciiOf value).length = value.utf8ByteSize by omega]
    exact .inl rfl
  · rw [if_neg all, if_neg (by omega)]
    exact endsIn_loadWords (by rw [length_wordsOf]; omega)

end Emit

/-! ## Inference -/

namespace ScopeTree

/-- The types of the fields of a tuple have the labels of the fields. -/
theorem labels_inferFieldsWith {tree : ScopeTree} {armType : ScopeId → Except SemanticError Ty}
    {id : ScopeId} {fields : List (Labelled Expr)} {types : List (Labelled Ty)}
    (h : tree.inferFieldsWith armType id fields = .ok types) :
    types.map (·.label) = fields.map (·.label) := by
  induction fields generalizing types with
  | nil =>
    rw [inferFieldsWith] at h
    cases h
    rfl
  | cons first rest ih =>
    rw [inferFieldsWith] at h
    obtain ⟨ty, -, h⟩ := except_bind_ok h
    obtain ⟨others, later, h⟩ := except_bind_ok h
    cases h
    rw [List.map_cons, List.map_cons, ih later]

theorem inferWith_tuple (tree : ScopeTree) (armType : ScopeId → Except SemanticError Ty) (id : ScopeId)
    {fields : List (Labelled Expr)} (many : ∀ value, fields ≠ [⟨none, value⟩]) (span : Span) :
    tree.inferWith armType id (.tuple fields span) = (do
      let types ← tree.inferFieldsWith armType id fields
      .ok (.tuple types)) := by
  rw [inferWith]
  exact many

/-- So they are those of one value in parentheses only if the fields are. -/
theorem many_inferFieldsWith {tree : ScopeTree} {armType : ScopeId → Except SemanticError Ty}
    {id : ScopeId} {fields : List (Labelled Expr)} {types : List (Labelled Ty)}
    (many : ∀ value, fields ≠ [⟨none, value⟩])
    (h : tree.inferFieldsWith armType id fields = .ok types) : ¬ Ty.Single types := by
  rintro ⟨ty, rfl⟩
  obtain ⟨⟨label, value⟩, rfl, same⟩ := List.map_eq_singleton_iff.mp (labels_inferFieldsWith h).symm
  cases same
  exact many value rfl

/-- Fields whose types do not depend on the scope have the same row of types in every scope. -/
theorem inferFieldsWith_of_each {fields : List (Labelled Expr)}
    (each : ∀ field ∈ fields, ∃ ty : Ty, ty.isVoid = false ∧
      ∀ (tree : ScopeTree) armType id, tree.inferWith armType id field.value = .ok ty) :
    ∃ types, ∀ (tree : ScopeTree) armType id, tree.inferFieldsWith armType id fields = .ok types := by
  induction fields with
  | nil => exact ⟨[], fun _ _ _ => by rw [inferFieldsWith]⟩
  | cons field fields ih =>
    obtain ⟨ty, -, infers⟩ := each field List.mem_cons_self
    obtain ⟨types, later⟩ := ih fun other mem => each other (List.mem_cons_of_mem _ mem)
    refine ⟨⟨field.label, ty⟩ :: types, fun tree armType id => ?_⟩
    rw [inferFieldsWith, infers, later]
    rfl

end ScopeTree

/-- A literal has the same type in every scope, and it is not void. -/
theorem Expr.Literal.infers {e : Expr} (h : e.Literal) : ∃ ty : Ty, ty.isVoid = false ∧
    ∀ (tree : ScopeTree) armType id, tree.inferWith armType id e = .ok ty := by
  induction h with
  | int | hex => exact ⟨.int, rfl, fun _ _ _ => by rw [ScopeTree.inferWith]⟩
  | text value span => exact ⟨_, rfl, fun _ _ _ => by rw [ScopeTree.inferWith]⟩
  | @tuple fields span _ each =>
    by_cases single : ∃ value, fields = [⟨none, value⟩]
    · obtain ⟨value, rfl⟩ := single
      obtain ⟨ty, full, infers⟩ := each _ (List.mem_singleton_self _)
      exact ⟨ty, full, fun tree armType id => by rw [ScopeTree.inferWith, infers]⟩
    · have many (value : Expr) : fields ≠ [⟨none, value⟩] := fun eq => single ⟨value, eq⟩
      obtain ⟨types, infers⟩ := ScopeTree.inferFieldsWith_of_each each
      have typed : Ty.isVoid (.tuple types) = false := by
        rw [Ty.isVoid, Ty.resolved_tuple
          (ScopeTree.many_inferFieldsWith many (infers default (fun _ => .ok .void) 0))]
      refine ⟨.tuple types, typed, fun tree armType id => ?_⟩
      rw [ScopeTree.inferWith_tuple tree armType id many, infers]
      rfl

/-! ## The size of the inferred type -/

section

variable {tree : ScopeTree} {armType : ScopeId → Except SemanticError Ty} {id : ScopeId}

theorem counted_inferFieldsWith {fields : List (Labelled Expr)} {types : List (Labelled Ty)}
    (each : ∀ field ∈ fields, ∀ ty, tree.inferWith armType id field.value = .ok ty → ty.size < 64 →
      ty.counted = .ok ty.size)
    (infers : tree.inferFieldsWith armType id fields = .ok types) (small : Ty.sizeFields types < 64) :
    Ty.countedFields types = .ok (Ty.sizeFields types) := by
  induction fields generalizing types with
  | nil =>
    rw [ScopeTree.inferFieldsWith] at infers
    cases infers
    rfl
  | cons first rest ih =>
    rw [ScopeTree.inferFieldsWith] at infers
    obtain ⟨ty, here, infers⟩ := except_bind_ok infers
    obtain ⟨others, later, infers⟩ := except_bind_ok infers
    cases infers
    rw [Ty.sizeFields] at small ⊢
    rw [Ty.countedFields, each first List.mem_cons_self ty here (by omega),
      ih (fun field mem => each field (List.mem_cons_of_mem _ mem)) later (by omega)]
    exact Register.counted_of_lt small

/-- A literal that would fit the window has a type whose size is counted. -/
theorem Expr.Literal.counted {e : Expr} (h : e.Literal) : ∀ ty, tree.inferWith armType id e = .ok ty →
    ty.size < 64 → ty.counted = .ok ty.size := by
  induction h with
  | int | hex =>
    intro ty infers _
    rw [ScopeTree.inferWith] at infers
    cases infers
    rfl
  | text value span =>
    intro ty infers small
    rw [ScopeTree.inferWith] at infers
    cases infers
    have size : (Ty.array .char (value.utf8ByteSize + 1)).size = (value.utf8ByteSize + 1 + 3) / 4 := rfl
    have fits : Register.counted (value.utf8ByteSize + 1 + 3) = .ok (value.utf8ByteSize + 1 + 3) :=
      Register.counted_eq_ok_iff.mpr ⟨rfl, by rw [UInt64.size]; omega⟩
    rw [Ty.counted, size]
    simp only [Ty.resolved, fits, bind, Except.bind]
  | @tuple fields span _ each =>
    intro ty infers small
    by_cases single : ∃ value, fields = [⟨none, value⟩]
    · obtain ⟨value, rfl⟩ := single
      rw [ScopeTree.inferWith] at infers
      exact each _ (List.mem_singleton_self _) ty infers small
    · rw [ScopeTree.inferWith_tuple tree armType id fun value eq => single ⟨value, eq⟩] at infers
      obtain ⟨types, row, infers⟩ := except_bind_ok infers
      cases infers
      rw [Ty.size] at small ⊢
      rw [Ty.counted]
      exact counted_inferFieldsWith each row small

end

/-- A scope that takes nothing and declares nothing has no variables. -/
theorem ScopeTree.Resolved.vars_eq_nil {tree : ScopeTree} {id : ScopeId} (resolved : tree.Resolved)
    (takes : (tree.scope id).arrow.input = .void) (declares : declaredNames (tree.scope id).body = [])
    (lt : id < tree.count) : (tree.scope id).vars = [] := by
  obtain ⟨params, locals, parameters, windowed⟩ := resolved.windowed lt
  have labels : (tree.scope id).labels = [] := by
    unfold parameters? at parameters
    rw [takes] at parameters
    cases none : (tree.scope id).labels with
    | nil => rfl
    | cons label rest =>
      rw [none] at parameters
      cases parameters
  have names := (resolved.named id).names
  rw [labels, declares] at names
  exact List.map_eq_nil_iff.mp names

/-! ## Making code in the inferred type -/

theorem Expr.misfit?_fields (label : Option String) (value : Expr) (rest : List (Labelled Expr)) :
    (nodesOfFields (⟨label, value⟩ :: rest)).findSome? overlong? =
      value.misfit?.or ((nodesOfFields rest).findSome? overlong?) := by
  rw [nodesOfFields, List.findSome?_append]
  rfl

theorem Expr.misfit?_tuple (fields : List (Labelled Expr)) (span : Span) :
    (Expr.tuple fields span).misfit? = (nodesOfFields fields).findSome? overlong? := by
  rw [misfit?, nodes, List.findSome?_cons]
  rfl

section

variable {s : Site} {tree : ScopeTree} {armType : ScopeId → Except SemanticError Ty} {id : ScopeId}

/-- In the type inferred for it an expression fails for the first text that does not fit. -/
def Expr.EndsInferred (s : Site) (tree : ScopeTree) (armType : ScopeId → Except SemanticError Ty)
    (id : ScopeId) (e : Expr) : Prop :=
  ∀ ty, tree.inferWith armType id e = .ok ty → ∀ (dst : Register) (watermark : Nat),
    EndsIn e.misfit? (dst.offset + ty.size) (lower s e dst ty watermark)

/-- Fields are lowered one behind the other, so the first that fails ends the tuple. -/
theorem endsIn_fields {fields : List (Labelled Expr)} {types : List (Labelled Ty)} {dst : Register}
    {start watermark : Nat} (each : ∀ field ∈ fields, field.value.EndsInferred s tree armType id)
    (infers : tree.inferFieldsWith armType id fields = .ok types) :
    EndsIn ((Expr.nodesOfFields fields).findSome? Expr.overlong?)
      (dst.offset + start + Ty.sizeFields types)
      (lowerFields s fields (Emit.fieldSlots start types) dst watermark) := by
  induction fields generalizing types start watermark with
  | nil =>
    rw [lowerFields]
    · exact .inl rfl
    · rintro _ _ _ _ _ _ ⟨⟩
  | cons first rest ih =>
    rw [ScopeTree.inferFieldsWith] at infers
    obtain ⟨ty, here, infers⟩ := except_bind_ok infers
    obtain ⟨others, later, infers⟩ := except_bind_ok infers
    cases infers
    rw [Emit.fieldSlots, lowerFields, Ty.sizeFields, Expr.misfit?_fields]
    refine .register (by omega) fun t at_t => .bind (.releasing ?_) fun _ _ => ?_
    · exact (each first List.mem_cons_self ty here t watermark).mono (by omega)
    · exact (ih (fun field mem => each field (List.mem_cons_of_mem _ mem)) later).mono (by omega)

theorem Expr.Literal.endsInferred {e : Expr} (h : e.Literal) : e.EndsInferred s tree armType id := by
  induction h with
  | int value span | hex value span =>
    intro ty _ dst watermark
    rw [lower]
    exact .of_succeeds (Emit.succeeds_loadInt (Q := fun _ _ => True) trivial)
  | text value span =>
    intro ty infers dst watermark
    rw [ScopeTree.inferWith] at infers
    cases infers
    rw [lower]
    exact Emit.endsIn_text value span dst watermark
  | @tuple fields span _ each =>
    intro ty infers dst watermark
    by_cases single : ∃ value, fields = [⟨none, value⟩]
    · obtain ⟨value, rfl⟩ := single
      rw [ScopeTree.inferWith] at infers
      rw [lower, misfit?_tuple, misfit?_fields, nodesOfFields, List.findSome?_nil, Option.or_none]
      exact each _ (List.mem_singleton_self _) ty infers dst watermark
    · have many (value : Expr) : fields ≠ [⟨none, value⟩] := fun eq => single ⟨value, eq⟩
      rw [ScopeTree.inferWith_tuple tree armType id many] at infers
      obtain ⟨types, row, infers⟩ := except_bind_ok infers
      cases infers
      have count : types.length = fields.length := by
        simpa using congrArg List.length (ScopeTree.labels_inferFieldsWith row)
      have slots : Emit.slots? (.tuple types) fields.length = some (Emit.fieldSlots 0 types) := by
        rw [Emit.slots?, Ty.resolved_tuple (ScopeTree.many_inferFieldsWith many row)]
        exact if_pos count
      rw [lower_tuple fields span dst _ many, slots, misfit?_tuple, Ty.size]
      exact endsIn_fields each row

/-- A literal is no declaration and no assignment, so it gives the output of the scope it ends. -/
theorem Expr.Literal.lowerStatement {e : Expr} (h : e.Literal) (s : Site)
    (full : s.scope.arrow.output.isVoid = false) :
    lowerStatement s true e = eval s e .first s.scope.arrow.output := by
  cases h <;> simp [WindowedClosures.lowerStatement, full]

/-- The code of a scope that is a literal, in the type inferred for it. -/
theorem Expr.Literal.endsIn_scopeCode {e : Expr} (h : e.Literal)
    (infers : tree.inferWith armType id e = .ok (tree.scope id).arrow.output)
    (full : (tree.scope id).arrow.output.isVoid = false) (body : (tree.scope id).body = [e])
    (vars : (tree.scope id).vars = []) :
    EndsIn e.misfit? (tree.scope id).arrow.output.size (scopeCode tree id) := by
  have statements : EndsIn e.misfit? (tree.scope id).arrow.output.size ((do
      lowerStatements ⟨tree, id⟩ (tree.scope id).body
      Emit.push ⟨.ret, 0, 0⟩ : Emit Unit) (tree.scope id).size) := by
    rw [body, lowerStatements, h.lowerStatement ⟨tree, id⟩ full, ← Option.or_none (o := e.misfit?)]
    refine .bind (.releasing ?_) fun _ _ => .inl rfl
    exact (h.endsInferred _ infers .first _).mono (by simp [Register.first])
  rw [scopeCode]
  show EndsIn _ _ (Site.inWindow (tree.scope id).counted >>= _)
  cases counts : (tree.scope id).counted with
  | error overflow =>
    -- a scope that is nothing but its output overflows the count only far behind the window
    refine .inr ⟨Nat.le_of_not_lt fun small => ?_, overflow, rfl⟩
    rw [Scope.counted_of_vars_nil vars (h.counted _ infers small)] at counts
    cases counts
  | ok size =>
    obtain ⟨rfl, -⟩ := Scope.counted_ok counts
    rw [EndsIn] at statements ⊢
    rwa [← fault?_map _ Emission.code] at statements

end

namespace Expr

variable {e : Expr}

theorem misfit?_some {fault : CompileError} (h : e.misfit? = some fault) : ∃ value span,
    .text value span ∈ e.nodes ∧
      fault = .literalTooLarge value.utf8ByteSize (value.utf8ByteSize + 1) span := by
  obtain ⟨n, mem, found⟩ := List.exists_of_findSome?_eq_some h
  unfold overlong? at found
  split at found
  · split at found
    · cases found
      exact ⟨_, _, mem, rfl⟩
    · cases found
  · cases found

theorem misfit?_none : e.misfit? = none ↔
    ∀ value span, .text value span ∈ e.nodes → ∃ c ∈ value.toList, 128 ≤ c.toNat := by
  rw [misfit?, List.findSome?_eq_none_iff]
  constructor
  · intro h value span mem
    have here := h _ mem
    simpa [overlong?] using here
  · intro h n mem
    unfold overlong?
    split
    · rename_i value span
      obtain ⟨c, inside, large⟩ := h value span mem
      exact if_neg fun all => by
        have small := List.all_eq_true.mp all c inside
        simp only [decide_eq_true_eq] at small
        omega
    · rfl

end Expr

/-- Every literal has a type, in any scope, and code for it in that type fails in two ways only: with the
fault of its first text that is all ASCII, or because the value reaches behind the last register. So it
never fails for a type, and never for a text with a character that is not ASCII. The arrow of an arm that
is such a literal is the one inferred for it, and the code of the arm fails in the same ways. -/
theorem inferred_type_fits {tree : ScopeTree} {id : ScopeId} {e : Expr} (literal : e.Literal) :
    ∃ ty, tree.infer id e = .ok ty ∧
      (∀ (dst : Register) (watermark : Nat),
        EndsIn e.misfit? (dst.offset + ty.size) (lower ⟨tree, id⟩ e dst ty watermark)) ∧
      (∀ fault, e.misfit? = some fault → ∃ value span, .text value span ∈ e.nodes ∧
        fault = .literalTooLarge value.utf8ByteSize (value.utf8ByteSize + 1) span) ∧
      (e.misfit? = none ↔
        ∀ value span, .text value span ∈ e.nodes → ∃ c ∈ value.toList, 128 ≤ c.toNat) ∧
      (tree.Resolved → (tree.scope id).origin = .branch → (tree.scope id).body = [e] →
        (tree.scope id).arrow = ⟨.void, ty⟩ ∧ EndsIn e.misfit? ty.size (scopeCode tree id)) := by
  obtain ⟨ty, full, infers⟩ := literal.infers
  have inferred : tree.infer id e = .ok ty := infers tree _ id
  refine ⟨ty, inferred, literal.endsInferred ty inferred, fun _ => Expr.misfit?_some,
    Expr.misfit?_none, fun resolved arm body => ?_⟩
  have arrow : (tree.scope id).arrow = ⟨.void, ty⟩ :=
    resolved.arm_arrow arm (by rw [body]; rfl) fun t => infers t _ id
  refine ⟨arrow, ?_⟩
  have output : (tree.scope id).arrow.output = ty := by rw [arrow]
  subst output
  have lt : id < tree.count := Nat.lt_of_not_le fun le => by
    rw [ScopeTree.scope_of_count_le tree le] at body
    cases body
  have declares : declaredNames (tree.scope id).body = [] := by
    rw [body]
    cases literal <;> rfl
  exact literal.endsIn_scopeCode inferred full body
    (resolved.vars_eq_nil (by rw [arrow]) declares lt)

/-- The text that is all of a body, and where it stands. -/
def loneText? : List Expr → Option (String × Span)
  | [.text value span] => some (value, span)
  | _ => none

theorem eq_of_loneText? {body : List Expr} {value : String} {span : Span}
    (h : loneText? body = some (value, span)) : body = [.text value span] := by
  unfold loneText? at h
  split at h
  · cases h
    rfl
  · cases h

/-- An arm that is an accented text, which has one byte more than characters. -/
theorem inferred_type_fits_accented : ∃ tree id e ty code,
    resolveSource "1 ? (\"é\", \"è\")" = .ok tree ∧ e.Literal ∧
      (tree.scope id).origin = .branch ∧ (tree.scope id).body = [e] ∧ tree.infer id e = .ok ty ∧
      (tree.scope id).arrow = ⟨.void, ty⟩ ∧ scopeCode tree id = .ok code := by
  have found : (do
      let tree ← (resolveSource "1 ? (\"é\", \"è\")").toOption
      let text ← loneText? (tree.scope 1).body
      let ty ← (tree.infer 1 (.text text.1 text.2)).toOption
      if (tree.scope 1).origin = .branch ∧ text.1 = "é" ∧ ty.size < 64 then some () else none) =
        some () := by decide +kernel
  obtain ⟨tree, ht, found⟩ := Option.bind_eq_some_iff.mp found
  obtain ⟨⟨value, span⟩, lone, found⟩ := Option.bind_eq_some_iff.mp found
  obtain ⟨ty, infers, found⟩ := Option.bind_eq_some_iff.mp found
  split at found
  · rename_i facts
    obtain ⟨arm, rfl, small⟩ := facts
    have source := toOption_eq_some ht
    have body := eq_of_loneText? lone
    obtain ⟨ty', infers', -, -, fits, arms⟩ := inferred_type_fits (.text "é" span)
    obtain rfl : ty' = ty := by
      rw [toOption_eq_some infers] at infers'
      cases infers'
      rfl
    obtain ⟨arrow, code⟩ := arms (resolveSource_ok source) arm body
    have none : (Expr.text "é" span).misfit? = none := rfl
    rw [none] at code
    rcases code with fine | ⟨far, -⟩
    · cases made : scopeCode tree 1 with
      | ok code => exact ⟨tree, 1, _, _, code, source, .text "é" span, arm, body, infers', arrow, made⟩
      | error fault =>
        rw [made] at fine
        cases fine
    · omega
  · cases found

/-- The arms are texts of two characters, and no code is made for them. -/
theorem inferred_type_overflows : ∃ tree value span ty,
    resolveSource "1 ? (\"ab\", \"cd\")" = .ok tree ∧ (tree.scope 2).origin = .branch ∧
      (tree.scope 2).body = [.text value span] ∧ tree.infer 2 (.text value span) = .ok ty ∧ ty.size = 1 ∧
      lower ⟨tree, 2⟩ (.text value span) .first ty 0 = .error (.literalTooLarge 2 3 span) ∧
      compileSource "1 ? (\"ab\", \"cd\")" = .error (.compile (.literalTooLarge 2 3 span)) := by
  have found : (do
      let tree ← (resolveSource "1 ? (\"ab\", \"cd\")").toOption
      let text ← loneText? (tree.scope 2).body
      let ty ← (tree.infer 2 (.text text.1 text.2)).toOption
      if (tree.scope 2).origin = .branch ∧ ty.size = 1 ∧
        fault? (lower ⟨tree, 2⟩ (.text text.1 text.2) .first ty 0) = some (.literalTooLarge 2 3 text.2) ∧
        fault? tree.compile = some (.literalTooLarge 2 3 text.2) then some () else none) = some () := by
    decide +kernel
  obtain ⟨tree, ht, found⟩ := Option.bind_eq_some_iff.mp found
  obtain ⟨⟨value, span⟩, lone, found⟩ := Option.bind_eq_some_iff.mp found
  obtain ⟨ty, infers, found⟩ := Option.bind_eq_some_iff.mp found
  split at found
  · rename_i facts
    obtain ⟨arm, size, lowered, compiled⟩ := facts
    have source := toOption_eq_some ht
    have fails : compileSource "1 ? (\"ab\", \"cd\")" = .error (.compile (.literalTooLarge 2 3 span)) := by
      rw [compileSource, source]
      show compileTree tree = _
      rw [compileTree, eq_error_of_fault? compiled]
    exact ⟨tree, value, span, ty, source, arm, eq_of_loneText? lone, toOption_eq_some infers, size,
      eq_error_of_fault? lowered, fails⟩
  · cases found

end WindowedClosures
