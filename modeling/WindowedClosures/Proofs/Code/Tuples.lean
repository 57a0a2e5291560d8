import WindowedClosures.Proofs.Code.Members

/-!
# Tuples assigned in place

A tuple that is assigned to a variable is built in the registers of the variable, one member after the
other. So a member is worth what it is worth once the members before it are in place: where it reads
none of their slots, that is its word before the assignment.
-/

namespace WindowedClosures

open Emit RegisterFile

/-- Registers with a word in one of them are those with the word put there. -/
theorem RegisterFile.Sets.keeps_update {watermark : Nat} {dst : Register} {word : Int32}
    {file after : RegisterFile} (h : Sets watermark dst word file after) :
    Keeps watermark (Function.update file dst word) after := by
  intro r below
  by_cases eq : r = dst
  · rw [eq, Function.update_self, h.same]
  · rw [Function.update_of_ne eq, h.other r below eq]

/-- The slots of a tuple come one after the other. -/
theorem Ty.ordered_of_slots? {ty : Ty} {count : Nat} {slots : List (Nat × Ty)}
    (h : slots? ty count = some slots) : slots.Pairwise fun a b => a.1 + a.2.size ≤ b.1 := by
  have fields (types : List (Labelled Ty)) (start : Nat) :
      (fieldSlots start types).Pairwise fun a b => a.1 + a.2.size ≤ b.1 := by
    induction types generalizing start with
    | nil => exact .nil
    | cons first rest ih =>
      refine .cons (fun slot mem => ?_) (ih _)
      exact ((tiles_fieldSlots rest _).1 slot mem).1
  unfold slots? at h
  split at h
  · split at h
    · cases h
      exact .nil
    · cases h
  · split at h
    · cases h
      exact fields _ 0
    · cases h
  · rename_i elem length _
    split at h
    · cases h
      refine List.pairwise_map.mpr (List.pairwise_lt_range.imp fun {i j} lt => ?_)
      calc i * elem.size + elem.size = (i + 1) * elem.size := by rw [Nat.add_mul, Nat.one_mul]
        _ ≤ j * elem.size := Nat.mul_le_mul_right _ lt
    · cases h
  · cases h

namespace Site

/-- Members put into slots one after the other: each gets the word it has once those before it are in
place. -/
inductive Fills (s : Site) (dst : Register) :
    List (Labelled Expr × (Nat × Ty)) → RegisterFile → RegisterFile → Prop
  | nil (file : RegisterFile) : Fills s dst [] file file
  | cons {field : Labelled Expr} {slot : Nat × Ty} {t : Register} {word : Int32}
    {pairs : List (Labelled Expr × (Nat × Ty))} {file after : RegisterFile}
    (place : dst.shift slot.1 = .ok t) (value : s.word file field.value = some word)
    (rest : Fills s dst pairs (Function.update file t word) after) :
    Fills s dst ((field, slot) :: pairs) file after

/-- Whether an expression depends on none of some slots. -/
def unread (s : Site) (dst : Register) (slots : List (Nat × Ty)) (e : Expr) : Bool :=
  slots.all fun slot =>
    match dst.shift slot.1 with
    | .ok t => !s.sees t e
    | .error _ => true

variable {s : Site} {dst : Register} {pairs : List (Labelled Expr × (Nat × Ty))}
  {file after : RegisterFile}

/-- Only registers that are not free matter, and only they are changed. -/
theorem Fills.congr (h : s.Fills dst pairs file after) (arranged : s.scope.Arranged)
    (members : ∀ p ∈ pairs, s.Member p.1.value) {watermark : Nat} (size : s.scope.size ≤ watermark)
    {other : RegisterFile} (agree : Keeps watermark other file) :
    ∃ last, s.Fills dst pairs other last ∧ Keeps watermark last after := by
  induction h generalizing other with
  | nil file => exact ⟨other, .nil other, agree⟩
  | @cons field slot t word pairs file after place value rest ih =>
    have same := (members (field, slot) (by simp)).word_of_keeps arranged size agree
    have updated : Keeps watermark (Function.update other t word) (Function.update file t word) := by
      intro r below
      by_cases eq : r = t
      · rw [eq, Function.update_self, Function.update_self]
      · rw [Function.update_of_ne eq, Function.update_of_ne eq, agree r below]
    obtain ⟨last, fills, keeps⟩ := ih (fun p mem => members p (by simp [mem])) updated
    exact ⟨last, .cons place (by rw [← same]; exact value) fills, keeps⟩

/-- Other registers than the slots stay as they are. -/
theorem Fills.other (h : s.Fills dst pairs file after) {r : Register}
    (apart : ∀ p ∈ pairs, dst.shift p.2.1 ≠ .ok r) : after r = file r := by
  induction h with
  | nil file => rfl
  | @cons field slot t word pairs file after place value rest ih =>
    rw [ih fun p mem => apart p (by simp [mem]), Function.update_of_ne]
    rintro rfl
    exact apart (field, slot) (by simp) place

/-- Every member has its slot. One that depends on no slot before its own gets the word it had at the
start. -/
theorem Fills.slot (h : s.Fills dst pairs file after) (members : ∀ p ∈ pairs, s.Member p.1.value)
    (ordered : (pairs.map (·.2.1)).Pairwise (· < ·)) {i : Nat} {field : Labelled Expr}
    {slot : Nat × Ty} (found : pairs[i]? = some (field, slot)) :
    ∃ t, dst.shift slot.1 = .ok t ∧
      (s.unread dst ((pairs.take i).map (·.2)) field.value = true →
        s.word file field.value = some (after t)) := by
  induction h generalizing i with
  | nil file => cases found
  | @cons first place t word pairs file after shifted value rest ih =>
    rw [List.map_cons, List.pairwise_cons] at ordered
    cases i with
    | zero =>
      cases found
      refine ⟨t, shifted, fun _ => ?_⟩
      -- the slots filled later lie behind this one
      rw [value, rest.other fun p mem same => ?_, Function.update_self]
      have lt : slot.1 < p.2.1 := ordered.1 p.2.1 (List.mem_map_of_mem mem)
      have here := (Register.shift_ok shifted).2
      have there := (Register.shift_ok same).2
      omega
    | succ i =>
      obtain ⟨u, hu, same⟩ := ih (fun p mem => members p (by simp [mem])) ordered.2 found
      refine ⟨u, hu, fun unread => ?_⟩
      rw [List.take_succ_cons, List.map_cons, Site.unread, List.all_cons, Bool.and_eq_true,
        shifted] at unread
      rw [← same unread.2]
      refine ((members (field, slot) (List.mem_of_getElem? found)).word_congr fun r seen => ?_).symm
      refine Function.update_of_ne ?_ ..
      rintro rfl
      simp [seen] at unread

end Site

/-- A tuple of one word is laid out like the word. -/
theorem Ty.single_of_slots? {ty : Ty} {slots : List (Nat × Ty)} (h : slots? ty 1 = some slots)
    (words : ∀ slot ∈ slots, slot.2.IsWord) : ty.IsWord ∧ ∃ part, slots = [(0, part)] := by
  unfold slots? at h
  split at h
  · cases h
  · rename_i types tuple
    split at h
    · rename_i one
      cases h
      obtain ⟨⟨label, part⟩, rfl⟩ := List.length_eq_one_iff.mp one
      have word := words (0, part) (by simp [fieldSlots])
      refine ⟨⟨?_, by simp [charCapacity, tuple]⟩, part, rfl⟩
      rw [← size_resolved, tuple, size, sizeFields, sizeFields]
      exact word.1
    · cases h
  · rename_i elem length array
    split at h
    · rename_i fits
      obtain ⟨rfl, packed⟩ := fits
      cases h
      have word := words (0, elem) (by simp)
      refine ⟨⟨?_, ?_⟩, elem, by simp⟩
      · rw [← size_resolved, array, size_array 1 (by simpa using packed), word.1]
      · simp only [charCapacity, array]
        split
        · rename_i char
          exact (packed (by simp [isPacked, char])).elim
        · rfl
    · cases h
  · cases h

/-- Members were put into slots one after the other, as far as registers are not free. -/
def Site.Filled (s : Site) (watermark : Nat) (dst : Register)
    (pairs : List (Labelled Expr × (Nat × Ty))) (file after : RegisterFile) : Prop :=
  ∃ filled, s.Fills dst pairs file filled ∧ Keeps watermark filled after

/-- A member with its slot: of one register that is not free and can hold the member. -/
structure Site.Slotted (s : Site) (watermark : Nat) (dst : Register)
    (p : Labelled Expr × (Nat × Ty)) : Prop where
  member : s.Member p.1.value
  word : p.2.2.IsWord
  below : ∀ t, dst.shift p.2.1 = .ok t → t.Below watermark
  safe : ∀ t, dst.shift p.2.1 = .ok t → s.buildsIn t p.1.value = true

namespace Emit

variable {s : Site} {watermark : Nat} {dst : Register}

/-- The code for the members of a tuple puts them into their slots one after the other. -/
theorem makes_lowerFields (arranged : s.scope.Arranged) (size : s.scope.size ≤ watermark)
    (fields : List (Labelled Expr)) (slots : List (Nat × Ty)) (file : RegisterFile)
    (slotted : ∀ p ∈ fields.zip slots, s.Slotted watermark dst p) :
    Makes (lowerFields s fields slots dst) watermark file False fun _ _ after =>
      s.Filled watermark dst (fields.zip slots) file after := by
  induction fields generalizing slots file with
  | nil => exact makes_pure ⟨file, .nil file, fun _ _ => rfl⟩
  | cons field fields ih =>
    cases slots with
    | nil => exact makes_pure ⟨file, .nil file, fun _ _ => rfl⟩
    | cons slot slots =>
      have first := slotted (field, slot) (by simp)
      rw [lowerFields]
      refine makes_bind (makes_register fun t ht => makes_bind (makes_releasing ?_))
      have made := builds_of_member arranged first.member watermark file t slot.2 size
        (first.below t ht) (first.safe t ht) first.word
      refine made.mono id ?_
      rintro _ _ between ⟨word, value, sets⟩
      have rest := ih slots between fun p mem => slotted p (by simp [mem])
      refine rest.mono id ?_
      rintro _ _ after ⟨filled, fills, keeps⟩
      obtain ⟨last, fills', keeps'⟩ := fills.congr arranged
        (fun p mem => (slotted p (by simp [mem])).member) size sets.keeps_update
      refine ⟨last, .cons ht value fills', fun r below => ?_⟩
      rw [keeps r below, keeps' r below]

/-- So does the code for the tuple. -/
theorem makes_tuple (arranged : s.scope.Arranged) (size : s.scope.size ≤ watermark) {ty : Ty}
    {fields : List (Labelled Expr)} {slots : List (Nat × Ty)}
    (shape : slots? ty fields.length = some slots) (file : RegisterFile)
    (slotted : ∀ p ∈ fields.zip slots, s.Slotted watermark dst p) (span : Span) :
    Makes (lower s (.tuple fields span) dst ty) watermark file False fun _ _ after =>
      s.Filled watermark dst (fields.zip slots) file after := by
  by_cases single : ∃ value, fields = [⟨none, value⟩]
  · -- a single member is lowered like one in parentheses, for the type of the whole tuple
    obtain ⟨value, rfl⟩ := single
    have length := (Ty.tiles_of_slots? shape).2
    obtain ⟨slot, rfl⟩ := List.length_eq_one_iff.mp length
    have only := slotted (⟨none, value⟩, slot) (by simp)
    obtain ⟨word, part, eq⟩ := Ty.single_of_slots? shape fun p mem => by
      rw [List.mem_singleton.mp mem]
      exact only.word
    cases eq
    have here : dst.shift 0 = .ok dst := shift_zero dst
    rw [lower]
    refine (builds_of_member arranged only.member watermark file dst ty size (only.below dst here)
      (only.safe dst here) word).mono id ?_
    rintro _ _ after ⟨word, value', sets⟩
    exact ⟨_, .cons here value' (.nil _), sets.keeps_update⟩
  · have fields_eq : lower s (.tuple fields span) dst ty = lowerFields s fields slots dst := by
      rw [lower, shape]
      exact fun value hv => single ⟨value, hv⟩
    rw [fields_eq]
    exact makes_lowerFields arranged size fields slots file slotted

end Emit

/-- So does a statement that assigns the tuple to a variable. -/
theorem makes_assignment {s : Site} (arranged : s.scope.Arranged) {n : String} {v : Variable}
    (known : s.scope.local? n = some v) {fields : List (Labelled Expr)} {slots : List (Nat × Ty)}
    (shape : slots? v.ty fields.length = some slots) {first : Register}
    (place : v.register = .ok first) (file : RegisterFile)
    (slotted : ∀ p ∈ fields.zip slots, s.Slotted s.scope.size first p) (isLast : Bool)
    (s₁ s₂ s₃ : Span) :
    Makes (lowerStatement s isLast (.binary .assign (.name n s₁) (.tuple fields s₂) s₃))
      s.scope.size file False fun _ _ after =>
        s.Filled s.scope.size first (fields.zip slots) file after := by
  have assigned : Makes (assign s (.name n s₁) (lower s (.tuple fields s₂))) s.scope.size file False
      fun _ _ after => s.Filled s.scope.size first (fields.zip slots) file after := by
    refine makes_bind (makes_lift fun u hu => makes_bind (makes_register fun t ht => ?_))
    rw [Site.lookup_eq_ok_iff.mp hu] at known
    cases known
    rw [place] at ht
    cases ht
    have made := makes_tuple arranged (Nat.le_refl _) shape file slotted s₂
    exact makes_bind (makes_releasing (made.mono id fun _ _ after filled => makes_pure filled))
  exact makes_bind (assigned.mono id fun _ _ after filled => makes_pure filled)

/-- A tuple that is assigned to a variable of words goes to the slots of the variable one member after
the other, and nothing else but scratch registers changes. A member that reads none of the slots before
its own leaves the word there that it had before the assignment. -/
theorem tuple_assigned_in_order {tree : ScopeTree} (h : tree.Resolved) {id : ScopeId} {n : String}
    {v : Variable} (known : (tree.scope id).local? n = some v) {fields : List (Labelled Expr)}
    {slots : List (Nat × Ty)} (shape : slots? v.ty fields.length = some slots)
    (integral : ∀ slot ∈ slots, slot.2.isIntegral = true)
    (members : ∀ field ∈ fields, Site.Member ⟨tree, id⟩ field.value)
    {first : Register} (place : v.register = .ok first)
    (safe : ∀ p ∈ fields.zip slots, ∀ t, first.shift p.2.1 = .ok t →
      Site.buildsIn ⟨tree, id⟩ t p.1.value = true)
    {isLast : Bool} {s₁ s₂ s₃ : Span} {result : Emission Unit}
    (emitted : lowerStatement ⟨tree, id⟩ isLast
      (.binary .assign (.name n s₁) (.tuple fields s₂) s₃) (tree.scope id).size = .ok result)
    {r : Run} (seated : r.machine.Seated)
    (ahead : r.machine.Ahead (result.code.map (·.instruction))) :
    ∃ (s : Run) (filled : RegisterFile),
      Site.Fills ⟨tree, id⟩ first (fields.zip slots) r.machine.file filled ∧
      (∀ k, Exec.ticks .none (result.code.length + k) r = Exec.ticks .none k s) ∧
      (∀ i field slot, fields[i]? = some field → slots[i]? = some slot →
        ∃ t, first.shift slot.1 = .ok t ∧
          s.machine.readCell? (s.machine.cell t) = some (filled t) ∧
          (Site.unread ⟨tree, id⟩ first (slots.take i) field.value = true →
            s.machine.readCell? (s.machine.cell t) =
              Site.word ⟨tree, id⟩ r.machine.file field.value)) ∧
      (∀ c, (∀ t, t.inRow v.bank v.offset v.ty.size = true → c ≠ r.machine.cell t) →
        (∀ k, (tree.scope id).size ≤ k → k < 64 → c ≠ .stack (r.machine.top + k)) →
        s.machine.readCell? c = r.machine.readCell? c) ∧
      s.machine.pc = r.machine.pc + result.code.length ∧ s.machine.top = r.machine.top ∧
      s.machine.base = r.machine.base ∧ s.machine.closure = r.machine.closure ∧
      s.machine.aux = r.machine.aux ∧ s.machine.pool = r.machine.pool ∧
      s.callers = r.callers ∧ s.prints = r.prints := by
  have arranged := arranged_of_resolved h id
  obtain ⟨tiles, length⟩ := Ty.tiles_of_slots? shape
  have inRow (slot : Nat × Ty) (mem : slot ∈ slots) {t : Register} (ht : first.shift slot.1 = .ok t) :
      t.inRow v.bank v.offset v.ty.size = true := by
    have inside := tiles.inside slot mem
    have one := Ty.size_of_isIntegral (integral slot mem)
    exact Register.inRow_variable place ht (by omega)
  have slotted : ∀ p ∈ fields.zip slots, Site.Slotted ⟨tree, id⟩ (tree.scope id).size first p := by
    intro p mem
    obtain ⟨field, slot⟩ := List.of_mem_zip mem
    exact ⟨members _ field, Ty.isWord_of_isIntegral (integral _ slot),
      fun t ht => arranged.below_of_inRow (Scope.local?_mem known) (inRow _ slot ht), safe p mem⟩
  have seconds : (fields.zip slots).map (·.2) = slots := List.map_snd_zip (by omega)
  have ordered : ((fields.zip slots).map (·.2.1)).Pairwise (· < ·) := by
    rw [show (fun p : Labelled Expr × (Nat × Ty) => p.2.1) = (·.1) ∘ (·.2) from rfl, ← List.map_map,
      seconds, List.pairwise_map]
    refine (Ty.ordered_of_slots? shape).imp_of_mem fun {a b} mem _ le => ?_
    have one := Ty.size_of_isIntegral (integral a mem)
    omega
  have made := makes_assignment (s := ⟨tree, id⟩) arranged known shape place r.machine.file slotted isLast
    s₁ s₂ s₃ result emitted
  have shows : r.machine.Shows r.machine.file := fun _ _ => rfl
  cases played : play (result.code.map (·.plain)) r.machine.file with
  | error halt =>
    rw [played] at made
    exact made.2.elim
  | ok after =>
    rw [played] at made
    obtain ⟨filled, fills, keeps⟩ := made
    rw [← play_plain (by rw [played]; simp)] at played
    obtain ⟨s, ticks, beside, shows', pc, callers, prints⟩ :=
      ticks_of_play seated shows ahead played
    rw [List.length_map] at ticks pc
    refine ⟨s, filled, fills, ticks, ?_, ?_, pc, beside.top, beside.base, beside.closure, beside.aux,
      beside.pool, callers, prints⟩
    · intro i field slot hf hs
      have found : (fields.zip slots)[i]? = some (field, slot) :=
        List.getElem?_zip_eq_some.mpr ⟨hf, hs⟩
      obtain ⟨t, ht, same⟩ := fills.slot (fun p mem => (slotted p mem).member) ordered found
      have below := (slotted _ (List.mem_of_getElem? found)).below t ht
      have read : s.machine.readCell? (s.machine.cell t) = some (filled t) := by
        rw [(beside.seated seated).readCell? below.near, shows' t below.near, keeps t below]
      refine ⟨t, ht, read, fun unread => ?_⟩
      rw [read, same]
      rwa [List.map_take, seconds]
    · intro c apart scratch
      refine readCell?_of_kept (fun t => t.inRow v.bank v.offset v.ty.size = true) seated beside shows'
        (fun t below other => ?_) apart scratch
      rw [keeps t below]
      refine fills.other fun p mem ht => other ?_
      exact inRow p.2 (List.of_mem_zip mem).2 ht

/-- The place of a number has a register. -/
theorem size_of_placed {s : Site} {e : Expr} {r : Register}
    (found : (s.place e).toOption = some (r, .int)) (first : Register) (ty : Ty)
    (placed : s.place e = .ok (first, ty)) : 0 < ty.size := by
  rw [toOption_eq_some found] at placed
  cases placed
  exact Nat.one_pos

/-- In `p = (p.y - 5, (q.x * 2) + 7)` the first member reads a slot of `p` that is filled later, and
the second one none. -/
theorem tuple_assigned_in_order_pair : ∃ tree fields result s,
    resolveSource "[ p: (x: int, y: int) = (1, 2); [ q: (x: int, y: int) = (3, 4)" = .ok tree ∧
      fields = [⟨none, Expr.binary (.arithmetic .sub)
          (.binary .field (.name "p" .zero) (.name "y" .zero) .zero) (.int 5 .zero) .zero⟩,
        ⟨none, .binary (.arithmetic .add)
          (.binary (.arithmetic .mul) (.binary .field (.name "q" .zero) (.name "x" .zero) .zero)
            (.int 2 .zero) .zero) (.int 7 .zero) .zero⟩] ∧
      lowerStatement ⟨tree, 0⟩ false
        (.binary .assign (.name "p" .zero) (.tuple fields .zero) .zero) (tree.scope 0).size =
          .ok result ∧
      (∀ k, Exec.ticks .none (result.code.length + k)
        (.start (result.code.map (·.instruction)) 0) = Exec.ticks .none k s) ∧
      s.machine.readCell? (s.machine.cell ⟨.window, 0⟩) = some (-5) ∧
      s.machine.readCell? (s.machine.cell ⟨.window, 1⟩) = some 7 := by
  let y := Expr.binary .field (.name "p" .zero) (.name "y" .zero) .zero
  let x := Expr.binary .field (.name "q" .zero) (.name "x" .zero) .zero
  let e₁ := Expr.binary (.arithmetic .sub) y (.int 5 .zero) .zero
  let e₂ := Expr.binary (.arithmetic .add)
    (.binary (.arithmetic .mul) x (.int 2 .zero) .zero) (.int 7 .zero) .zero
  let fields : List (Labelled Expr) := [⟨none, e₁⟩, ⟨none, e₂⟩]
  have found : (do
      let tree ← (resolveSource
        "[ p: (x: int, y: int) = (1, 2); [ q: (x: int, y: int) = (3, 4)").toOption
      let v ← (tree.scope 0).local? "p"
      let slots ← slots? v.ty fields.length
      let result ← (lowerStatement ⟨tree, 0⟩ false
        (.binary .assign (.name "p" .zero) (.tuple fields .zero) .zero) (tree.scope 0).size).toOption
      let file := (Run.start (result.code.map (·.instruction)) 0).machine.file
      if v.register.toOption = some ⟨.window, 0⟩ ∧ slots = [(0, .int), (1, .int)] ∧
        (Site.place ⟨tree, 0⟩ y).toOption = some (⟨.window, 1⟩, .int) ∧
        (Site.place ⟨tree, 0⟩ x).toOption = some (⟨.window, 2⟩, .int) ∧
        Site.buildsIn ⟨tree, 0⟩ ⟨.window, 0⟩ e₁ = true ∧
        Site.buildsIn ⟨tree, 0⟩ ⟨.window, 1⟩ e₂ = true ∧
        Site.unread ⟨tree, 0⟩ ⟨.window, 0⟩ [(0, .int)] e₂ = true ∧
        Site.word ⟨tree, 0⟩ file e₁ = some (-5) ∧ Site.word ⟨tree, 0⟩ file e₂ = some 7 ∧
        result.code.length + 64 ≤ stackSize then some ()
      else none) = some () := by decide +kernel
  obtain ⟨tree, ht, found⟩ := Option.bind_eq_some_iff.mp found
  obtain ⟨v, hv, found⟩ := Option.bind_eq_some_iff.mp found
  obtain ⟨slots, shape, found⟩ := Option.bind_eq_some_iff.mp found
  obtain ⟨result, hr, found⟩ := Option.bind_eq_some_iff.mp found
  dsimp only at found
  split at found
  · rename_i facts
    obtain ⟨place, rfl, place_y, place_x, safe₁, safe₂, unread, word₁, word₂, fits⟩ := facts
    have source := toOption_eq_some ht
    have emitted := toOption_eq_some hr
    have member₁ : Site.Member ⟨tree, 0⟩ e₁ :=
      .arithmetic _ (by decide) (.part (.inl rfl) (size_of_placed place_y)) (.int _ _)
    have member₂ : Site.Member ⟨tree, 0⟩ e₂ :=
      .arithmetic _ (by decide)
        (.arithmetic _ (by decide) (.part (.inl rfl) (size_of_placed place_x)) (.int _ _)) (.int _ _)
    have members : ∀ field ∈ fields, Site.Member ⟨tree, 0⟩ field.value := by
      simp [fields, member₁, member₂]
    have safe : ∀ p ∈ fields.zip [(0, Ty.int), (1, .int)], ∀ t,
        Register.shift ⟨.window, 0⟩ p.2.1 = .ok t → Site.buildsIn ⟨tree, 0⟩ t p.1.value = true := by
      simp only [fields, List.zip_cons_cons, List.zip_nil_right, List.mem_cons, List.not_mem_nil,
        or_false]
      rintro p (rfl | rfl) t shifted
      · cases shifted
        exact safe₁
      · cases shifted
        exact safe₂
    let code := result.code.map (·.instruction)
    have length : code.length = result.code.length := List.length_map _
    have ahead : (Run.start code 0).machine.Ahead code := Run.ahead_start (by omega)
    have seated : (Run.start code 0).machine.Seated := Run.seated_start (by omega)
    obtain ⟨s, filled, -, ticks, cells, -⟩ := tuple_assigned_in_order (resolveSource_ok source) hv shape
      (by simp [Ty.isIntegral, Ty.resolved]) members (toOption_eq_some place) safe emitted seated ahead
    obtain ⟨t₁, shift₁, -, cell₁⟩ := cells 0 _ _ rfl rfl
    obtain ⟨t₂, shift₂, -, cell₂⟩ := cells 1 _ _ rfl rfl
    cases shift₁
    cases shift₂
    exact ⟨tree, _, result, s, source, rfl, emitted, ticks, (cell₁ rfl).trans word₁,
      (cell₂ unread).trans word₂⟩
  · cases found

/-- `p = (p.y, p.x)` does not swap: with 1 and 2 in `p` its members are worth 2 and 1, but the second
one is read when the first is in place. -/
theorem swap_repeats : ∃ before c e value y x,
    compileSource "[ p: (x: int, y: int) = (1, 2)" = .ok before ∧
      Machine.fresh.execute 64 before.program 2 = .ok ⟨[1, 2], ""⟩ ∧
      compileSource "[ p: (x: int, y: int) = (1, 2); p = (p.y, p.x)" = .ok c ∧
      (c.tree.scope 0).body[1]? = some e ∧ e.binds? = some ("p", value) ∧
      value.parts[0]? = some y ∧ value.parts[1]? = some x ∧
      Site.word ⟨c.tree, 0⟩ (fun r => [1, 2].getD r.offset 0) y = some 2 ∧
      Site.word ⟨c.tree, 0⟩ (fun r => [1, 2].getD r.offset 0) x = some 1 ∧
      Machine.fresh.execute 64 c.program 2 = .ok ⟨[2, 2], ""⟩ := by
  have found : (do
      let before ← (compileSource "[ p: (x: int, y: int) = (1, 2)").toOption
      let start ← (Machine.fresh.execute 64 before.program 2).toOption
      let c ← (compileSource "[ p: (x: int, y: int) = (1, 2); p = (p.y, p.x)").toOption
      let e ← (c.tree.scope 0).body[1]?
      let b ← e.binds?
      let y ← b.2.parts[0]?
      let x ← b.2.parts[1]?
      let ran ← (Machine.fresh.execute 64 c.program 2).toOption
      if start = ⟨[1, 2], ""⟩ ∧ b.1 = "p" ∧
        Site.word ⟨c.tree, 0⟩ (fun r => [1, 2].getD r.offset 0) y = some 2 ∧
        Site.word ⟨c.tree, 0⟩ (fun r => [1, 2].getD r.offset 0) x = some 1 ∧
        ran = ⟨[2, 2], ""⟩ then some ()
      else none) = some () := by decide +kernel
  obtain ⟨before, hb, found⟩ := Option.bind_eq_some_iff.mp found
  obtain ⟨start, hs, found⟩ := Option.bind_eq_some_iff.mp found
  obtain ⟨c, hc, found⟩ := Option.bind_eq_some_iff.mp found
  obtain ⟨e, he, found⟩ := Option.bind_eq_some_iff.mp found
  obtain ⟨⟨name, value⟩, binds, found⟩ := Option.bind_eq_some_iff.mp found
  obtain ⟨y, hy, found⟩ := Option.bind_eq_some_iff.mp found
  obtain ⟨x, hx, found⟩ := Option.bind_eq_some_iff.mp found
  obtain ⟨ran, hr, found⟩ := Option.bind_eq_some_iff.mp found
  split at found
  · rename_i facts
    obtain ⟨rfl, rfl, word_y, word_x, rfl⟩ := facts
    exact ⟨before, c, e, value, y, x, toOption_eq_some hb, toOption_eq_some hs, toOption_eq_some hc, he,
      binds, hy, hx, word_y, word_x, toOption_eq_some hr⟩
  · cases found

end WindowedClosures
