import WindowedClosures.Proofs.Grammar.Printing

/-!
# Types read back

The tokens of a printed type are read as that type again. Where a type stands decides nothing but
the places in it.
-/

namespace WindowedClosures

/-! ## Tokens apart from their places -/

section

variable {a b tokens run rest : List Token} {t : Token} {symbol : Symbol} {bs : List Bare}

theorem isSymbol_iff : t.isSymbol symbol ↔ t.bare = .leaf (.symbol symbol) := by
  cases t with
  | leaf lexeme span line => cases lexeme <;> simp [Token.isSymbol, Token.bare]
  | group => simp [Token.isSymbol, Token.bare]

theorem isSymbol_of_bare (h : bareAll tokens = bs) (free : .leaf (.symbol symbol) ∉ bs) :
    ∀ t ∈ tokens, t.isSymbol symbol = false := by
  intro t hm
  rw [Bool.eq_false_iff, Ne, isSymbol_iff]
  intro eq
  rw [← h, bareAll_eq] at free
  exact free (List.mem_map.mpr ⟨t, hm, eq⟩)

@[simp] theorem weightAll_append :
    Token.weightAll (a ++ b) = Token.weightAll a + Token.weightAll b := by
  induction a with
  | nil => simp [Token.weightAll]
  | cons t rest ih => simp [Token.weightAll, ih, Nat.add_assoc]

theorem weightAll_pos (h : tokens ≠ []) : 0 < Token.weightAll tokens := by
  cases tokens with
  | nil => exact absurd rfl h
  | cons t rest =>
    have := t.weight_pos
    rw [Token.weightAll]
    omega

/-- A run is no heavier than what it was split from. -/
theorem weightAll_splitWhere {sep : Token → Bool} (h : run ∈ Token.splitWhere sep tokens) :
    Token.weightAll run ≤ Token.weightAll tokens := by
  generalize eq : Token.splitWhere sep tokens = runs at h
  induction runs generalizing tokens with
  | nil => cases h
  | cons first runs ih =>
    obtain ⟨-, ⟨rfl, rfl⟩ | ⟨t, rest, -, rfl, later⟩⟩ := splitWhere_cons eq
    · cases List.mem_singleton.mp h
      exact Nat.le_refl _
    · rw [weightAll_append, Token.weightAll]
      rcases List.mem_cons.mp h with rfl | h
      · omega
      · have := ih later h
        omega

theorem splitWhere_append {sep : Token → Bool} (free : ∀ t ∈ run, sep t = false) (here : sep t) :
    Token.splitWhere sep (run ++ t :: rest) = run :: Token.splitWhere sep rest := by
  induction run with
  | nil => simp [Token.splitWhere, here]
  | cons first run ih =>
    rw [List.cons_append, Token.splitWhere, ih fun t hm => free t (List.mem_cons_of_mem _ hm)]
    simp [free first (by simp)]

/-- Runs joined by commas are found again. -/
theorem splitWhere_commas {runs : List (List Bare)} (some_run : runs ≠ [])
    (free : ∀ run ∈ runs, Bare.leaf (.symbol .comma) ∉ run) (h : bareAll tokens = commas runs) :
    (Token.splitWhere (Token.isSymbol .comma) tokens).map bareAll = runs := by
  induction runs generalizing tokens with
  | nil => exact absurd rfl some_run
  | cons first runs ih =>
    have here := free first (by simp)
    cases runs with
    | nil =>
      have whole : bareAll tokens = first := by simpa [commas] using h
      rw [splitWhere_of_free (isSymbol_of_bare whole here), List.map_singleton, whole]
    | cons next runs =>
      have joined : bareAll tokens = first ++ .leaf (.symbol .comma) :: commas (next :: runs) := by
        simpa [commas] using h
      obtain ⟨front, back, rfl, same, behind⟩ := bareAll_eq_append joined
      obtain ⟨comma, back, rfl, sep, later⟩ := bareAll_eq_cons behind
      rw [splitWhere_append (isSymbol_of_bare same here) (isSymbol_iff.mpr sep), List.map_cons, same,
        ih (List.cons_ne_nil _ _) (fun run hm => free run (List.mem_cons_of_mem _ hm)) later]

theorem commas_ne_nil {runs : List (List Bare)} (some_run : runs ≠ []) (h : ∀ run ∈ runs, run ≠ []) :
    commas runs ≠ [] := by
  cases runs with
  | nil => exact absurd rfl some_run
  | cons first runs =>
    have here := h first (by simp)
    cases runs with
    | nil => simpa [commas] using here
    | cons next runs => simp [commas, here]

theorem Labelled.bare_ne_nil {label : Option String} (h : bs ≠ []) : Labelled.bare label bs ≠ [] := by
  cases label with
  | none => exact h
  | some name => exact List.cons_ne_nil _ _

/-- A label adds a name and a colon. -/
theorem Labelled.mem_bare {label : Option String} (h : .leaf (.symbol symbol) ∈ Labelled.bare label bs) :
    symbol = .colon ∨ .leaf (.symbol symbol) ∈ bs := by
  cases label with
  | none => exact .inr h
  | some name => simpa [Labelled.bare] using h

end

/-! ## Types -/

namespace TypeExpr

mutual

/-- A type without the places in it. -/
def unplaced : TypeExpr → TypeExpr
  | .named name _ => .named name .zero
  | .array elem count _ => .array elem.unplaced count .zero
  | .function input output _ => .function input.unplaced output.unplaced .zero
  | .pointer inner _ => .pointer inner.unplaced .zero
  | .tuple fields _ => .tuple (unplacedFields fields) .zero

def unplacedFields : List (Labelled TypeExpr) → List (Labelled TypeExpr)
  | [] => []
  | ⟨label, value⟩ :: rest => ⟨label, value.unplaced⟩ :: unplacedFields rest

end

theorem unplacedFields_eq (fields : List (Labelled TypeExpr)) :
    unplacedFields fields = fields.map fun f => ⟨f.label, f.value.unplaced⟩ := by
  induction fields with
  | nil => rfl
  | cons f rest ih => simp [unplacedFields, ih]

variable {t : TypeExpr}

theorem Printable.bare_ne_nil (h : t.Printable) : t.bare ≠ [] := by
  cases h <;> simp [bare]

/-- Outside parentheses a type has only its own signs. -/
theorem Printable.marks (h : t.Printable) {symbol : Symbol}
    (hm : Bare.leaf (.symbol symbol) ∈ t.bare) : symbol = .star ∨ symbol = .greater ∧ t.isFunction := by
  induction h with
  | named | array => simp [bare] at hm
  | @function input output span _ simple _ ih ih' =>
    simp only [bare, simple, Bool.false_eq_true, if_false, List.mem_append, List.mem_cons,
      Bare.leaf.injEq, Lexeme.symbol.injEq] at hm
    rcases hm with hm | rfl | hm
    · rcases ih hm with eq | ⟨eq, -⟩
      · exact .inl eq
      · exact .inr ⟨eq, rfl⟩
    · exact .inr ⟨rfl, rfl⟩
    · rcases ih' hm with eq | ⟨eq, -⟩
      · exact .inl eq
      · exact .inr ⟨eq, rfl⟩
  | pointer _ simple ih =>
    simp only [bare, List.mem_append, List.mem_singleton, Bare.leaf.injEq, Lexeme.symbol.injEq] at hm
    rcases hm with hm | rfl
    · rcases ih hm with eq | ⟨-, function⟩
      · exact .inl eq
      · rw [simple] at function
        cases function
    · exact .inl rfl
  | tuple => simp [bare] at hm

/-- Outside parentheses no type has a sign that is none of its own. -/
theorem Printable.free (h : t.Printable) {symbol : Symbol} (star : symbol ≠ .star)
    (greater : symbol ≠ .greater) : Bare.leaf (.symbol symbol) ∉ t.bare := by
  intro hm
  rcases h.marks hm with eq | ⟨eq, -⟩
  · exact star eq
  · exact greater eq

end TypeExpr

namespace Grammar

/-- Each item is read as the thing that stands at its place. -/
theorem mapM_of_map {α β γ δ ε : Type} {f : α → Except ε β} {items : List α} {found : List β}
    {spelled : α → γ} {spelling : β → γ} {view : β → δ} (same : items.map spelled = found.map spelling)
    (h : ∀ a ∈ items, ∀ b ∈ found, spelled a = spelling b → ∃ b', f a = .ok b' ∧ view b' = view b) :
    ∃ results, items.mapM f = .ok results ∧ results.map view = found.map view := by
  induction items generalizing found with
  | nil =>
    rw [List.map_nil, eq_comm, List.map_eq_nil_iff] at same
    subst same
    exact ⟨[], rfl, rfl⟩
  | cons a items ih =>
    cases found with
    | nil => cases same
    | cons b found =>
      rw [List.map_cons, List.map_cons, List.cons.injEq] at same
      obtain ⟨b', first, here⟩ := h a (by simp) b (by simp) same.1
      obtain ⟨results, rest, later⟩ := ih same.2 fun a ha b hb =>
        h a (List.mem_cons_of_mem _ ha) b (List.mem_cons_of_mem _ hb)
      refine ⟨b' :: results, ?_, by rw [List.map_cons, List.map_cons, here, later]⟩
      rw [List.mapM_cons, first, rest]
      rfl

section

variable {self : List Token → Except ParseError TypeExpr} {tokens : List Token}

theorem spanOf?_of_ne_nil (h : tokens ≠ []) : ∃ span, Token.spanOf? tokens = some span := by
  cases tokens with
  | nil => exact absurd rfl h
  | cons t rest => exact ⟨_, by simp [Token.spanOf?, List.getLast?_cons]; rfl⟩

theorem simpleType_star {here : Span} {line : Nat} (h : tokens ≠ []) {inner : TypeExpr}
    (read : self tokens = .ok inner) :
    ∃ span, simpleType self (tokens ++ [.leaf (.symbol .star) here line]) = .ok (.pointer inner span) := by
  have whole : tokens ++ [.leaf (.symbol .star) here line] ≠ [] := by simp
  obtain ⟨span, eq⟩ := spanOf?_of_ne_nil whole
  have inside : withoutStar? (tokens ++ [.leaf (.symbol .star) here line]) = some tokens := by
    have long := List.length_pos_iff.mpr h
    simp [withoutStar?, Token.isSymbol, long]
  refine ⟨span, ?_⟩
  rw [simpleType, eq]
  dsimp only
  split
  · rename_i single
    cases tokens with
    | nil => exact absurd rfl h
    | cons => simp at single
  · rename_i pair
    cases tokens with
    | nil => exact absurd rfl h
    | cons first rest =>
      cases rest with
      | nil | cons => simp at pair
  · rw [inside]
    dsimp only
    rw [read]
    rfl

/-- A field of a type is read with its label. -/
theorem simpleType_field {f : Labelled TypeExpr} {run : List Token}
    (h : bareAll run = Labelled.bare f.label f.value.bare) (printable : f.value.Printable)
    (reads : ∀ value, bareAll value = f.value.bare → Token.weightAll value ≤ Token.weightAll run →
      ∃ t, self value = .ok t ∧ t.unplaced = f.value.unplaced) :
    ∃ t, simpleType.field self run = .ok ⟨f.label, t⟩ ∧ t.unplaced = f.value.unplaced := by
  obtain ⟨label, value⟩ := f
  cases label with
  | none =>
    have h : bareAll run = value.bare := h
    have free : Bare.leaf (.symbol .colon) ∉ value.bare := printable.free nofun nofun
    obtain ⟨t, read, same⟩ := reads run h (Nat.le_refl _)
    refine ⟨t, ?_, same⟩
    unfold simpleType.field
    split
    · rw [← h] at free
      simp [bareAll, Token.bare] at free
    · rw [read]
      rfl
  | some name =>
    obtain ⟨t, rest, rfl, here, later⟩ := bareAll_eq_cons h
    obtain ⟨colon, run, rfl, there, behind⟩ := bareAll_eq_cons later
    obtain ⟨span, line, rfl⟩ := bare_eq_leaf here
    obtain ⟨span', line', rfl⟩ := bare_eq_leaf there
    cases run with
    | nil => exact absurd behind.symm printable.bare_ne_nil
    | cons first run =>
      obtain ⟨t, read, same⟩ := reads (first :: run) behind (by simp only [Token.weightAll]; omega)
      refine ⟨t, ?_, same⟩
      rw [simpleType.field, read]
      rfl

theorem simpleType_tuple {fields : List (Labelled TypeExpr)} {children : List Token} {here span : Span}
    {line : Nat} (h : bareAll children = commas (TypeExpr.bareFields fields))
    (printable : ∀ f ∈ fields, f.value.Printable)
    (reads : ∀ f ∈ fields, ∀ value, bareAll value = f.value.bare →
      Token.weightAll value ≤ Token.weightAll children →
        ∃ t, self value = .ok t ∧ t.unplaced = f.value.unplaced) :
    ∃ t, simpleType self [.group .paren children here line] = .ok t ∧
      t.unplaced = (TypeExpr.tuple fields span).unplaced := by
  have alone : withoutStar? [.group .paren children here line] = none := rfl
  rw [simpleType, spanOf?_singleton]
  dsimp only
  rw [alone]
  dsimp only
  by_cases empty : fields = []
  · subst empty
    obtain rfl := bareAll_eq_nil h
    exact ⟨_, rfl, rfl⟩
  · rw [TypeExpr.bareFields_eq] at h
    have free (run : List Bare) (hr : run ∈ fields.map fun f => Labelled.bare f.label f.value.bare) :
        Bare.leaf (.symbol .comma) ∉ run := by
      obtain ⟨f, hf, rfl⟩ := List.mem_map.mp hr
      intro hm
      rcases Labelled.mem_bare hm with eq | hm
      · cases eq
      · exact absurd hm ((printable f hf).free nofun nofun)
    have split := splitWhere_commas (by simpa using empty) free h
    obtain ⟨results, read, same⟩ : ∃ results, List.mapM (simpleType.field self) _ = .ok results ∧
        results.map (fun f => Labelled.mk f.label f.value.unplaced) =
          fields.map fun f => ⟨f.label, f.value.unplaced⟩ := by
      refine mapM_of_map split fun run hr f hf eq => ?_
      obtain ⟨t, read, same⟩ := simpleType_field eq (printable f hf) fun value spelled le =>
        reads f hf value spelled (Nat.le_trans le (weightAll_splitWhere hr))
      exact ⟨_, read, by rw [same]⟩
    have some_child : children ≠ [] := by
      rintro rfl
      refine commas_ne_nil (by simpa using empty) (fun run hr => ?_) h.symm
      obtain ⟨f, hf, rfl⟩ := List.mem_map.mp hr
      exact Labelled.bare_ne_nil (printable f hf).bare_ne_nil
    rw [if_neg (by simpa using some_child), read]
    refine ⟨_, rfl, ?_⟩
    rw [TypeExpr.unplaced, TypeExpr.unplaced, TypeExpr.unplacedFields_eq, TypeExpr.unplacedFields_eq, same]

end

/-- The tokens of a printed type are read as the type, whole or split at the signs of functions. -/
structure TypeReread (t : TypeExpr) : Prop where
  whole : ∀ tokens fuel, bareAll tokens = t.bare → Token.weightAll tokens ≤ fuel →
    ∃ t', typeExprAt (fuel + 1) tokens = .ok t' ∧ t'.unplaced = t.unplaced
  chain : ∀ tokens fuel, bareAll tokens = t.bare → Token.weightAll tokens ≤ fuel →
    ∃ inputs result,
      (Token.splitWhere (Token.isSymbol .greater) tokens).mapM (typeExprAt (fuel + 1)) =
        .ok (inputs ++ [result]) ∧ (arrowChain inputs result).unplaced = t.unplaced

/-- A type without `>` at its top is one run. -/
theorem TypeReread.of_simple {t : TypeExpr} (printable : t.Printable) (simple : t.isFunction = false)
    (h : ∀ tokens fuel, bareAll tokens = t.bare → Token.weightAll tokens ≤ fuel →
      ∃ t', simpleType (typeExprAt fuel) tokens = .ok t' ∧ t'.unplaced = t.unplaced) : TypeReread t := by
  have one (tokens : List Token) (same : bareAll tokens = t.bare) :
      Token.splitWhere (Token.isSymbol .greater) tokens = [tokens] := by
    refine splitWhere_of_free (isSymbol_of_bare same fun hm => ?_)
    rcases printable.marks hm with eq | ⟨-, function⟩
    · cases eq
    · rw [simple] at function
      cases function
  have whole (tokens : List Token) (fuel : Nat) (same : bareAll tokens = t.bare)
      (enough : Token.weightAll tokens ≤ fuel) :
      ∃ t', typeExprAt (fuel + 1) tokens = .ok t' ∧ t'.unplaced = t.unplaced := by
    rw [typeExprAt, one tokens same]
    exact h tokens fuel same enough
  constructor
  · exact whole
  · intro tokens fuel same enough
    obtain ⟨t', read, eq⟩ := whole tokens fuel same enough
    refine ⟨[], t', ?_, eq⟩
    rw [one tokens same, List.mapM_cons, read]
    rfl

theorem TypeReread.function {input output : TypeExpr} {span : Span} (printable : input.Printable)
    (simple : input.isFunction = false) (h : TypeReread input) (h' : TypeReread output) :
    TypeReread (.function input output span) := by
  -- both ways, the input is a run of its own and the output is split further
  have chain (tokens : List Token) (fuel : Nat)
      (same : bareAll tokens = (TypeExpr.function input output span).bare)
      (enough : Token.weightAll tokens ≤ fuel + 1) : ∃ first inputs result,
        (Token.splitWhere (Token.isSymbol .greater) tokens).mapM (typeExprAt (fuel + 1)) =
          .ok (first :: (inputs ++ [result])) ∧
            (arrowChain (first :: inputs) result).unplaced =
              (TypeExpr.function input output span).unplaced := by
    rw [TypeExpr.bare, simple] at same
    obtain ⟨front, behind, rfl, here, later⟩ := bareAll_eq_append same
    obtain ⟨arrow, back, rfl, sign, there⟩ := bareAll_eq_cons later
    rw [weightAll_append, Token.weightAll] at enough
    have := arrow.weight_pos
    have free : Bare.leaf (.symbol .greater) ∉ input.bare := fun hm => by
      rcases printable.marks hm with eq | ⟨-, function⟩
      · cases eq
      · rw [simple] at function
        cases function
    obtain ⟨first, read, eq⟩ := h.whole front fuel here (by omega)
    obtain ⟨inputs, result, reads, eq'⟩ := h'.chain back fuel there (by omega)
    refine ⟨first, inputs, result, ?_, ?_⟩
    · rw [splitWhere_append (isSymbol_of_bare here free) (isSymbol_iff.mpr sign), List.mapM_cons, read,
        reads]
      rfl
    · rw [arrowChain, TypeExpr.unplaced, TypeExpr.unplaced, eq, eq']
  constructor
  · intro tokens fuel same enough
    have some_token : tokens ≠ [] := by
      rintro rfl
      simp [TypeExpr.bare, bareAll] at same
    have := weightAll_pos some_token
    obtain ⟨fuel, rfl⟩ := Nat.exists_eq_add_of_lt (Nat.lt_of_lt_of_le this enough)
    rw [Nat.zero_add] at enough ⊢
    obtain ⟨first, inputs, result, read, eq⟩ := chain tokens fuel same enough
    have length := (mapM_ok read).1
    refine ⟨_, ?_, eq⟩
    rw [typeExprAt]
    split
    · rename_i none
      rw [none] at length
      simp at length
    · rename_i one
      rw [one] at length
      simp at length
    · have last : (first :: (inputs ++ [result])).getLast? = some result := by
        rw [← List.cons_append, List.getLast?_concat]
      have init : (first :: (inputs ++ [result])).dropLast = first :: inputs := by
        rw [← List.cons_append, List.dropLast_concat]
      rw [read]
      simp only [bind, Except.bind, last, init]
  · intro tokens fuel same enough
    obtain ⟨first, inputs, result, read, eq⟩ := chain tokens fuel same (by omega)
    exact ⟨first :: inputs, result, read, eq⟩

theorem typeReread {t : TypeExpr} (h : t.Printable) : TypeReread t := by
  induction h with
  | named name =>
    refine .of_simple (.named name) rfl fun tokens fuel same _ => ?_
    obtain ⟨t, rest, rfl, here, later⟩ := bareAll_eq_cons same
    obtain ⟨span, line, rfl⟩ := bare_eq_leaf here
    obtain rfl := bareAll_eq_nil later
    exact ⟨_, rfl, rfl⟩
  | @array name count here span named small =>
    refine .of_simple (.array named small) rfl fun tokens fuel same _ => ?_
    obtain ⟨t, rest, rfl, here, later⟩ := bareAll_eq_cons same
    obtain ⟨t', rest, rfl, there, behind⟩ := bareAll_eq_cons later
    obtain ⟨span, line, rfl⟩ := bare_eq_leaf here
    obtain ⟨span', line', rfl⟩ := bare_eq_leaf there
    obtain rfl := bareAll_eq_nil behind
    have value : (Int32.ofNat count).toInt = count := Int32.toInt_ofNat_of_lt small
    have counts : 0 ≤ (Int32.ofNat count).toInt := by
      rw [value]
      exact Int.natCast_nonneg count
    refine ⟨_, if_pos counts, ?_⟩
    rw [TypeExpr.unplaced, TypeExpr.unplaced, TypeExpr.unplaced, TypeExpr.unplaced, value,
      Int.toNat_natCast]
  | function printable simple _ ih ih' => exact .function printable simple ih ih'
  | pointer printable simple ih =>
    refine .of_simple (.pointer printable simple) rfl fun tokens fuel same enough => ?_
    obtain ⟨inner, rest, rfl, here, later⟩ := bareAll_eq_append same
    obtain ⟨star, rest, rfl, sign, behind⟩ := bareAll_eq_cons later
    obtain ⟨span, line, rfl⟩ := bare_eq_leaf sign
    obtain rfl := bareAll_eq_nil behind
    have ne : inner ≠ [] := by
      rintro rfl
      exact printable.bare_ne_nil here.symm
    simp only [weightAll_append, Token.weightAll, Token.weight] at enough
    cases fuel with
    | zero => omega
    | succ fuel =>
      obtain ⟨t', read, eq⟩ := ih.whole inner fuel here (by omega)
      obtain ⟨span, whole⟩ := simpleType_star ne read
      exact ⟨_, whole, by rw [TypeExpr.unplaced, TypeExpr.unplaced, eq]⟩
  | tuple names printable ih =>
    refine .of_simple (.tuple names printable) rfl fun tokens fuel same enough => ?_
    obtain ⟨t, rest, rfl, here, later⟩ := bareAll_eq_cons same
    obtain ⟨children, span, line, rfl, inside⟩ := bare_eq_group here
    obtain rfl := bareAll_eq_nil later
    simp only [Token.weightAll, Token.weight] at enough
    cases fuel with
    | zero => omega
    | succ fuel =>
      exact simpleType_tuple inside printable fun f hf value spelled le =>
        (ih f hf).whole value fuel spelled (by omega)

end Grammar

end WindowedClosures
