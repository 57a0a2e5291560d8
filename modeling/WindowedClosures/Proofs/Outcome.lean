/-!
# Steps that may fail

Inversion of sequences, loops and folds of steps that succeed, and of those that fail.
-/

namespace WindowedClosures

variable {ε α β : Type}

theorem except_bind_ok {x : Except ε α} {f : α → Except ε β} {b : β}
    (h : (x >>= f) = .ok b) : ∃ a, x = .ok a ∧ f a = .ok b := by
  cases x with
  | error e => cases h
  | ok a => exact ⟨a, rfl, h⟩

/-- A sequence fails in its first step, or behind it. -/
theorem except_bind_error {x : Except ε α} {f : α → Except ε β} {e : ε}
    (h : (x >>= f) = .error e) : x = .error e ∨ ∃ a, x = .ok a ∧ f a = .error e := by
  cases x with
  | error _ =>
    cases h
    exact .inl rfl
  | ok a => exact .inr ⟨a, rfl, h⟩

theorem toOption_eq_some {result : Except ε α} {a : α} (h : result.toOption = some a) :
    result = .ok a := by
  cases result with
  | ok b =>
    cases h
    rfl
  | error e => cases h

/-- A loop that fails does so at one of its items. -/
theorem mapM_error {f : α → Except ε β} {items : List α} {e : ε}
    (h : items.mapM f = .error e) : ∃ a ∈ items, f a = .error e := by
  induction items with
  | nil =>
    rw [List.mapM_nil] at h
    cases h
  | cons first rest ih =>
    rw [List.mapM_cons] at h
    rcases except_bind_error h with here | ⟨b, -, h⟩
    · exact ⟨first, by simp, here⟩
    · rcases except_bind_error h with later | ⟨others, -, h⟩
      · obtain ⟨a, ha, fails⟩ := ih later
        exact ⟨a, by simp [ha], fails⟩
      · cases h

/-- A loop that succeeds turns each item into the one at the same place. -/
theorem mapM_ok {f : α → Except ε β} {items : List α} {results : List β}
    (h : items.mapM f = .ok results) :
    results.length = items.length ∧
      ∀ n : Nat, ∀ a, items[n]? = some a → ∃ b, results[n]? = some b ∧ f a = .ok b := by
  induction items generalizing results with
  | nil =>
    rw [List.mapM_nil] at h
    cases h
    simp
  | cons first rest ih =>
    rw [List.mapM_cons] at h
    obtain ⟨b, hb, h⟩ := except_bind_ok h
    obtain ⟨others, ho, h⟩ := except_bind_ok h
    cases h
    obtain ⟨length, at_⟩ := ih ho
    refine ⟨by simp [length], ?_⟩
    intro n a ha
    cases n with
    | zero =>
      simp only [List.getElem?_cons_zero, Option.some.injEq] at ha
      subst ha
      exact ⟨b, rfl, hb⟩
    | succ n => exact at_ n a (by simpa using ha)

/-- Every result of a loop that succeeds comes from an item. -/
theorem mapM_mem {f : α → Except ε β} {items : List α} {results : List β}
    (h : items.mapM f = .ok results) {b : β} (hb : b ∈ results) : ∃ a ∈ items, f a = .ok b := by
  obtain ⟨length, each⟩ := mapM_ok h
  obtain ⟨n, hn⟩ := List.mem_iff_getElem?.mp hb
  have bound : n < items.length := length ▸ (List.getElem?_eq_some_iff.mp hn).1
  have found : items[n]? = some items[n] := List.getElem?_eq_getElem bound
  obtain ⟨b', hb', hf⟩ := each n _ found
  rw [hn] at hb'
  cases hb'
  exact ⟨_, List.mem_of_getElem? found, hf⟩

/-- A fold keeps what each step keeps, with the items that are left in view. -/
theorem foldlM_along {f : β → α → Except ε β} (Inv : List α → β → Prop) {items : List α}
    {start stop : β} (h : items.foldlM f start = .ok stop) (hs : Inv items start)
    (step : ∀ a rest b c, Inv (a :: rest) b → f b a = .ok c → Inv rest c) : Inv [] stop := by
  induction items generalizing start with
  | nil =>
    cases h
    exact hs
  | cons first rest ih =>
    rw [List.foldlM_cons] at h
    obtain ⟨middle, hm, h⟩ := except_bind_ok h
    exact ih h (step first rest start middle hs hm)

/-- What one step of a fold keeps, the fold keeps. -/
theorem foldlM_keeps {f : β → α → Except ε β} (Inv : β → Prop) {items : List α} {start stop : β}
    (h : items.foldlM f start = .ok stop) (hs : Inv start)
    (step : ∀ b a c, Inv b → f b a = .ok c → Inv c) : Inv stop :=
  foldlM_along (fun _ => Inv) h hs fun a _ b c => step b a c

/-- A loop over two parts is one over each. -/
theorem mapM_append_ok {f : α → Except ε β} {front back : List α} {results : List β}
    (h : (front ++ back).mapM f = .ok results) :
    ∃ first second, front.mapM f = .ok first ∧ back.mapM f = .ok second ∧ results = first ++ second := by
  rw [List.mapM_append] at h
  obtain ⟨first, hf, h⟩ := except_bind_ok h
  obtain ⟨second, hs, h⟩ := except_bind_ok h
  cases h
  exact ⟨first, second, hf, hs, rfl⟩

/-- A fold whose steps change nothing. -/
theorem foldlM_stays {f : β → α → Except ε β} {items : List α} {b : β}
    (h : ∀ a ∈ items, f b a = .ok b) : items.foldlM f b = .ok b := by
  induction items with
  | nil => rfl
  | cons first rest ih =>
    rw [List.foldlM_cons, h first (by simp)]
    exact ih fun a mem => h a (by simp [mem])

end WindowedClosures
