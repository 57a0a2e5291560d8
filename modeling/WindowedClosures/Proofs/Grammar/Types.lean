import WindowedClosures.Grammar.Types
import WindowedClosures.Proofs.Outcome
import WindowedClosures.Proofs.Token.Coverage

/-!
# The types that tokens spell

`TypeSpells` says of a run of tokens which type it is, part by part. Reading a type yields one that
the tokens spell. A fault points at tokens of the run.
-/

namespace WindowedClosures

/-! ## Places of tokens -/

/-- A set of places that holds the start of the text, the least span over two of them, and the end of
each. -/
structure ClosedPlaces (p : Span → Prop) : Prop where
  zero : p .zero
  merge : ∀ a b, p a → p b → p (a.merge b)
  stop : ∀ a, p a → p (.point a.stop)

/-- All tokens, at every depth, have their places in a set. -/
def PlacedAll (p : Span → Prop) (tokens : List Token) : Prop := ∀ t ∈ preorderAll tokens, p t.span

section

variable {p : Span → Prop} {tokens rest : List Token} {t : Token}

@[simp] theorem placedAll_nil : PlacedAll p [] := by simp [PlacedAll, preorderAll]

theorem placedAll_cons : PlacedAll p (t :: rest) ↔ PlacedAll p [t] ∧ PlacedAll p rest := by
  simp [PlacedAll, preorderAll, or_imp, forall_and]

@[simp] theorem placedAll_append :
    PlacedAll p (tokens ++ rest) ↔ PlacedAll p tokens ∧ PlacedAll p rest := by
  induction tokens with
  | nil => simp
  | cons t tokens ih => rw [List.cons_append, placedAll_cons, ih, @placedAll_cons p tokens, and_assoc]

theorem PlacedAll.span (h : PlacedAll p [t]) : p t.span :=
  h t (by simp [preorderAll, mem_preorder_self])

theorem PlacedAll.mem (h : PlacedAll p tokens) (hm : t ∈ tokens) : p t.span := h t (mem_preorderAll hm)

theorem PlacedAll.children {bracket : Bracket} {children : List Token} {span : Span} {line : Nat}
    (h : PlacedAll p [.group bracket children span line]) : PlacedAll p children :=
  fun t ht => h t (by simp [preorderAll, Token.preorder, ht])

@[simp] theorem spanOf?_singleton (t : Token) : Token.spanOf? [t] = some t.span := by
  simp [Token.spanOf?]

theorem ClosedPlaces.spanOf? (closed : ClosedPlaces p) (h : PlacedAll p tokens) {span : Span}
    (eq : Token.spanOf? tokens = some span) : p span := by
  unfold Token.spanOf? at eq
  split at eq
  · rename_i first last hf hl
    cases eq
    exact closed.merge _ _ (h.mem (List.mem_of_head? hf)) (h.mem (List.mem_of_getLast? hl))
  · cases eq

theorem ClosedPlaces.spanOf (closed : ClosedPlaces p) (h : PlacedAll p tokens) {default : Span}
    (hd : p default) : p ((Token.spanOf? tokens).getD default) := by
  cases eq : Token.spanOf? tokens with
  | none => exact hd
  | some span => exact closed.spanOf? h eq

theorem ClosedPlaces.stopOf (closed : ClosedPlaces p) (h : PlacedAll p tokens) :
    p (.point (Token.stopOf tokens)) := by
  unfold Token.stopOf
  cases last : tokens.getLast? with
  | none => exact closed.zero
  | some t => exact closed.stop _ (h.mem (List.mem_of_getLast? last))

end

/-! ## Runs between separators -/

/-- The first run has no separator, and there is one behind it if there are more runs. -/
theorem splitWhere_cons {sep : Token → Bool} {tokens run : List Token} {runs : List (List Token)}
    (h : Token.splitWhere sep tokens = run :: runs) : (∀ t ∈ run, sep t = false) ∧
      ((runs = [] ∧ tokens = run) ∨ ∃ t rest, sep t ∧ tokens = run ++ t :: rest ∧
        Token.splitWhere sep rest = runs) := by
  induction tokens generalizing run with
  | nil =>
    cases h
    simp
  | cons t tokens ih =>
    rw [Token.splitWhere] at h
    split at h
    · rename_i here
      cases h
      exact ⟨by simp, .inr ⟨t, tokens, here, rfl, rfl⟩⟩
    · rename_i here
      cases split : Token.splitWhere sep tokens with
      | nil => exact absurd split (Token.splitWhere_ne_nil sep tokens)
      | cons first rest =>
        rw [split] at h
        cases h
        obtain ⟨free, ends⟩ := ih split
        refine ⟨by simpa [here] using free, ?_⟩
        rcases ends with ⟨rfl, rfl⟩ | ⟨s, rest, hs, rfl, eq⟩
        · exact .inl ⟨rfl, rfl⟩
        · exact .inr ⟨s, rest, hs, rfl, eq⟩

theorem splitWhere_of_free {sep : Token → Bool} {tokens : List Token}
    (h : ∀ t ∈ tokens, sep t = false) : Token.splitWhere sep tokens = [tokens] := by
  induction tokens with
  | nil => rfl
  | cons t rest ih =>
    rw [Token.splitWhere, ih fun t hm => h t (List.mem_cons_of_mem _ hm)]
    simp [h t (by simp)]

theorem PlacedAll.split {p : Span → Prop} {sep : Token → Bool} {tokens : List Token}
    (h : PlacedAll p tokens) : ∀ run ∈ Token.splitWhere sep tokens, PlacedAll p run := by
  generalize eq : Token.splitWhere sep tokens = runs
  induction runs generalizing tokens with
  | nil => simp
  | cons first runs ih =>
    obtain ⟨-, ⟨rfl, rfl⟩ | ⟨t, rest, -, rfl, later⟩⟩ := splitWhere_cons eq
    · simpa using h
    · rw [placedAll_append, placedAll_cons] at h
      exact List.forall_mem_cons.mpr ⟨h.1, ih h.2.2 later⟩

/-! ## Types -/

/-- A part of a type, with what it denotes: a type without `>` at its top, a type, one field or
several. -/
inductive TypePhrase where
  | simple (type : TypeExpr)
  | type (type : TypeExpr)
  | field (field : Labelled TypeExpr)
  | fields (fields : List (Labelled TypeExpr))

/-- The tokens are this part of a type. -/
inductive TypeSpells : List Token → TypePhrase → Prop
  | named {name : String} {span : Span} {line : Nat} :
      TypeSpells [.leaf (.name name) span line] (.simple (.named name span))
  | array {name : String} {here there : Span} {line line' : Nat} {count : Int32} :
      0 ≤ count.toInt → TypeSpells [.leaf (.name name) here line, .leaf (.int count) there line']
        (.simple (.array (.named name here) count.toInt.toNat (here.merge there)))
  | pointer {run : List Token} {inner : TypeExpr} {here span : Span} {line : Nat} :
      TypeSpells run (.simple inner) →
      Token.spanOf? (run ++ [.leaf (.symbol .star) here line]) = some span →
      TypeSpells (run ++ [.leaf (.symbol .star) here line]) (.simple (.pointer inner span))
  | unit {span : Span} {line : Nat} :
      TypeSpells [.group .paren [] span line] (.simple (.tuple [] span))
  | tuple {children : List Token} {fields : List (Labelled TypeExpr)} {span : Span} {line : Nat} :
      TypeSpells children (.fields fields) →
      TypeSpells [.group .paren children span line] (.simple (.tuple fields span))
  | ofSimple {run : List Token} {type : TypeExpr} :
      TypeSpells run (.simple type) → TypeSpells run (.type type)
  | function {run rest : List Token} {input output : TypeExpr} {here : Span} {line : Nat} :
      TypeSpells run (.simple input) → TypeSpells rest (.type output) →
      TypeSpells (run ++ .leaf (.symbol .greater) here line :: rest)
        (.type (.function input output (input.span.merge output.span)))
  | plainField {run : List Token} {type : TypeExpr} :
      TypeSpells run (.type type) → TypeSpells run (.field ⟨none, type⟩)
  | labelledField {run : List Token} {type : TypeExpr} {label : String} {here there : Span}
      {line line' : Nat} : TypeSpells run (.type type) →
      TypeSpells (.leaf (.name label) here line :: .leaf (.symbol .colon) there line' :: run)
        (.field ⟨some label, type⟩)
  | lastField {run : List Token} {field : Labelled TypeExpr} :
      TypeSpells run (.field field) → TypeSpells run (.fields [field])
  | moreFields {run rest : List Token} {field : Labelled TypeExpr}
      {fields : List (Labelled TypeExpr)} {here : Span} {line : Nat} :
      TypeSpells run (.field field) → TypeSpells rest (.fields fields) →
      TypeSpells (run ++ .leaf (.symbol .comma) here line :: rest) (.fields (field :: fields))

namespace Grammar

/-- No `>` stands at the top of a run. -/
def NoArrow (tokens : List Token) : Prop := ∀ t ∈ tokens, t.isSymbol .greater = false

/-- Types are read as they are spelled, and a fault has its place among those of the tokens. -/
structure TypeReads (p : Span → Prop) (read : List Token → Except ParseError TypeExpr) : Prop where
  ok : ∀ tokens type, read tokens = .ok type →
    TypeSpells tokens (.type type) ∧ (NoArrow tokens → TypeSpells tokens (.simple type))
  error : ∀ tokens e, read tokens = .error e → PlacedAll p tokens → p e.span

theorem withoutStar?_eq {tokens inner : List Token} (h : withoutStar? tokens = some inner) :
    ∃ here line, tokens = inner ++ [.leaf (.symbol .star) here line] := by
  unfold withoutStar? at h
  split at h
  · rename_i star last
    split at h
    · rename_i found
      cases h
      rw [Bool.and_eq_true] at found
      obtain ⟨here, line, rfl⟩ := leaf_of_isSymbol found.1
      obtain ⟨front, rfl⟩ := List.getLast?_eq_some_iff.mp last
      exact ⟨here, line, by simp⟩
    · cases h
  · cases h

theorem invalidType_placed {p : Span → Prop} (closed : ClosedPlaces p) {tokens : List Token}
    (h : PlacedAll p tokens) : p (invalidType tokens).span :=
  closed.spanOf h closed.zero

variable {p : Span → Prop} {self : List Token → Except ParseError TypeExpr}

theorem typeSpells_field (hs : TypeReads p self) {tokens : List Token} {field : Labelled TypeExpr}
    (h : simpleType.field self tokens = .ok field) : TypeSpells tokens (.field field) := by
  unfold simpleType.field at h
  split at h
  · obtain ⟨type, ht, h⟩ := except_bind_ok h
    cases h
    exact .labelledField (hs.ok _ _ ht).1
  · obtain ⟨type, ht, h⟩ := except_bind_ok h
    cases h
    exact .plainField (hs.ok _ _ ht).1

theorem typeSpells_fields (hs : TypeReads p self) {children : List Token}
    {runs : List (List Token)} (split : Token.splitWhere (Token.isSymbol .comma) children = runs)
    {fields : List (Labelled TypeExpr)} (h : runs.mapM (simpleType.field self) = .ok fields) :
    TypeSpells children (.fields fields) := by
  induction runs generalizing children fields with
  | nil => exact absurd split (Token.splitWhere_ne_nil _ _)
  | cons run runs ih =>
    rw [List.mapM_cons] at h
    obtain ⟨field, hf, h⟩ := except_bind_ok h
    obtain ⟨others, ho, h⟩ := except_bind_ok h
    cases h
    have first := typeSpells_field hs hf
    obtain ⟨-, ⟨rfl, rfl⟩ | ⟨t, rest, comma, rfl, later⟩⟩ := splitWhere_cons split
    · cases ho
      exact .lastField first
    · obtain ⟨here, line, rfl⟩ := leaf_of_isSymbol comma
      exact .moreFields first (ih later ho)

theorem typeSpells_simpleType (hs : TypeReads p self) {tokens : List Token} {type : TypeExpr}
    (plain : NoArrow tokens) (h : simpleType self tokens = .ok type) :
    TypeSpells tokens (.simple type) := by
  unfold simpleType at h
  split at h
  · cases h
  · rename_i span whole
    split at h
    · cases h
      rw [spanOf?_singleton] at whole
      cases whole
      exact .named
    · split at h
      · rename_i counts
        cases h
        cases whole
        exact .array counts
      · cases h
    · split at h
      · rename_i inner star
        obtain ⟨type, ht, h⟩ := except_bind_ok h
        cases h
        obtain ⟨here, line, rfl⟩ := withoutStar?_eq star
        refine .pointer ((hs.ok _ _ ht).2 ?_) whole
        exact fun t hm => plain t (List.mem_append_left _ hm)
      · rw [spanOf?_singleton] at whole
        cases whole
        dsimp only at h
        split at h
        · rename_i empty
          cases h
          rw [List.isEmpty_iff.mp empty]
          exact .unit
        · obtain ⟨fields, hf, h⟩ := except_bind_ok h
          cases h
          exact .tuple (typeSpells_fields hs rfl hf)
      · cases h

theorem field_error (hs : TypeReads p self) {tokens : List Token} {e : ParseError}
    (placed : PlacedAll p tokens) (h : simpleType.field self tokens = .error e) : p e.span := by
  unfold simpleType.field at h
  split at h
  · rcases except_bind_error h with h | ⟨_, _, h⟩
    · exact hs.error _ _ h (placedAll_cons.mp (placedAll_cons.mp placed).2).2
    · cases h
  · rcases except_bind_error h with h | ⟨_, _, h⟩
    · exact hs.error _ _ h placed
    · cases h

theorem simpleType_error (closed : ClosedPlaces p) (hs : TypeReads p self) {tokens : List Token}
    {e : ParseError} (placed : PlacedAll p tokens) (h : simpleType self tokens = .error e) :
    p e.span := by
  unfold simpleType at h
  split at h
  · cases h
    exact invalidType_placed closed placed
  · split at h
    · cases h
    · split at h
      · cases h
      · cases h
        exact invalidType_placed closed placed
    · split at h
      · rename_i inner star
        rcases except_bind_error h with h | ⟨_, _, h⟩
        · obtain ⟨here, line, rfl⟩ := withoutStar?_eq star
          exact hs.error _ _ h (placedAll_append.mp placed).1
        · cases h
      · dsimp only at h
        split at h
        · cases h
        · rcases except_bind_error h with h | ⟨_, _, h⟩
          · obtain ⟨run, hm, h⟩ := mapM_error h
            exact field_error hs (placed.children.split run hm) h
          · cases h
      · cases h
        exact invalidType_placed closed placed

/-- Types between signs, the last of them the result. -/
theorem typeSpells_arrowChain (hs : TypeReads p self) {tokens : List Token}
    {runs : List (List Token)} (split : Token.splitWhere (Token.isSymbol .greater) tokens = runs)
    {types front : List TypeExpr} {result : TypeExpr} (h : runs.mapM self = .ok types)
    (eq : types = front ++ [result]) : TypeSpells tokens (.type (arrowChain front result)) := by
  induction runs generalizing tokens types front with
  | nil => exact absurd split (Token.splitWhere_ne_nil _ _)
  | cons run runs ih =>
    rw [List.mapM_cons] at h
    obtain ⟨type, ht, h⟩ := except_bind_ok h
    obtain ⟨others, ho, h⟩ := except_bind_ok h
    cases h
    obtain ⟨free, ⟨rfl, rfl⟩ | ⟨t, rest, greater, rfl, later⟩⟩ := splitWhere_cons split
    · cases ho
      cases front with
      | nil =>
        cases eq
        exact (hs.ok _ _ ht).1
      | cons first more => simp at eq
    · obtain ⟨here, line, rfl⟩ := leaf_of_isSymbol greater
      cases front with
      | nil =>
        -- behind the sign there is another run, so another type
        cases eq
        cases runs with
        | nil => exact absurd later (Token.splitWhere_ne_nil _ _)
        | cons next runs => cases (mapM_ok ho).1
      | cons first more =>
        cases eq
        exact .function ((hs.ok _ _ ht).2 free) (ih later ho rfl)

theorem typeReads_typeExprAt (closed : ClosedPlaces p) (fuel : Nat) :
    TypeReads p (typeExprAt fuel) := by
  induction fuel with
  | zero =>
    constructor
    · intro tokens type h
      cases h
    · intro tokens e h placed
      cases h
      exact invalidType_placed closed placed
  | succ fuel ih =>
    constructor
    · intro tokens type h
      have simple (run : List Token) (split : Token.splitWhere (Token.isSymbol .greater) tokens = [run])
          (h : simpleType (typeExprAt fuel) tokens = .ok type) : TypeSpells tokens (.simple type) := by
        obtain ⟨free, ⟨-, rfl⟩ | ⟨_, _, _, _, later⟩⟩ := splitWhere_cons split
        · exact typeSpells_simpleType ih free h
        · exact absurd later (Token.splitWhere_ne_nil _ _)
      rw [typeExprAt] at h
      split at h
      · rename_i split
        exact absurd split (Token.splitWhere_ne_nil _ _)
      · rename_i run split
        exact ⟨.ofSimple (simple run split h), fun _ => simple run split h⟩
      · rename_i several
        obtain ⟨types, ht, h⟩ := except_bind_ok h
        split at h
        · rename_i result last
          cases h
          obtain ⟨front, rfl⟩ := List.getLast?_eq_some_iff.mp last
          rw [List.dropLast_concat]
          refine ⟨typeSpells_arrowChain ih rfl ht rfl, fun plain => ?_⟩
          exact absurd (splitWhere_of_free plain) (several tokens)
        · cases h
    · intro tokens e h placed
      rw [typeExprAt] at h
      split at h
      · exact simpleType_error closed ih placed h
      · exact simpleType_error closed ih placed h
      · rcases except_bind_error h with h | ⟨types, _, h⟩
        · obtain ⟨run, hm, h⟩ := mapM_error h
          exact ih.error _ _ h (placed.split run hm)
        · split at h
          · cases h
          · cases h
            exact invalidType_placed closed placed

end Grammar

end WindowedClosures
