import WindowedClosures.Proofs.Code.Treading
import WindowedClosures.Proofs.Scope.Rows

/-!
# What a statement changes

A statement that sets a variable changes the registers of that variable, those of variables that are
assigned inside the value, scratch registers and the closure that is being filled. A value that takes
more registers than its variable has is the exception: a number is put into one register even where
its type has none, and that register belongs to the next variable.
-/

namespace WindowedClosures

namespace Ty

mutual

/-- Whether every part of a type has a register. -/
def isSolid : Ty → Bool
  | .void => false
  | .named _ target => target.isSolid
  | .array elem count => decide (0 < count) && elem.isSolid
  | .tuple fields => !fields.isEmpty && solidFields fields
  | _ => true

def solidFields : List (Labelled Ty) → Bool
  | [] => true
  | ⟨_, value⟩ :: rest => value.isSolid && solidFields rest

end

theorem isSolid_resolved (ty : Ty) : ty.resolved.isSolid = ty.isSolid := by
  fun_induction resolved ty with
  | case1 name target ih => rw [ih, isSolid]
  | case2 value ih => simp [ih, isSolid, solidFields]
  | case3 => rfl

theorem size_pos_of_isSolid : ∀ ty : Ty, ty.isSolid = true → 0 < ty.size
  | .void, h => by cases h
  | .named _ target, h => by
    rw [isSolid] at h
    rw [size]
    exact size_pos_of_isSolid target h
  | .array elem count, h => by
    rw [isSolid, Bool.and_eq_true, decide_eq_true_eq] at h
    have inner := size_pos_of_isSolid elem h.2
    rw [size]
    split
    · omega
    · omega
    · exact Nat.mul_pos inner h.1
  | .tuple [], h => by cases h
  | .tuple (⟨_, value⟩ :: rest), h => by
    rw [isSolid, Bool.and_eq_true, solidFields, Bool.and_eq_true] at h
    have first := size_pos_of_isSolid value h.2.1
    rw [size, sizeFields]
    omega
  | .int, _ | .float, _ | .char, _ | .bool, _ | .pointer _, _ | .function _ _, _ => by simp [size]

theorem isSolid_of_fieldSlots {fields : List (Labelled Ty)} {start : Nat}
    (h : solidFields fields = true) : ∀ slot ∈ Emit.fieldSlots start fields, slot.2.isSolid = true := by
  induction fields generalizing start with
  | nil => simp [Emit.fieldSlots]
  | cons first rest ih =>
    rw [solidFields, Bool.and_eq_true] at h
    intro slot mem
    rw [Emit.fieldSlots, List.mem_cons] at mem
    rcases mem with rfl | mem
    · exact h.1
    · exact ih h.2 slot mem

theorem isSolid_of_slots? {ty : Ty} (h : ty.isSolid = true) {count : Nat} {slots : List (Nat × Ty)}
    (hs : Emit.slots? ty count = some slots) : ∀ slot ∈ slots, slot.2.isSolid = true := by
  rw [← isSolid_resolved] at h
  unfold Emit.slots? at hs
  split at hs
  · rename_i void
    rw [void] at h
    cases h
  · rename_i types tuple
    rw [tuple, isSolid, Bool.and_eq_true] at h
    split at hs
    · cases hs
      exact isSolid_of_fieldSlots h.2
    · cases hs
  · rename_i elem length array
    rw [array, isSolid, Bool.and_eq_true] at h
    split at hs
    · cases hs
      intro slot mem
      obtain ⟨i, -, rfl⟩ := List.mem_map.mp mem
      exact h.2
    · cases hs
  · cases hs

end Ty

namespace Expr

theorem extentOfFields_le_size {fields : List (Labelled Expr)}
    (inner : ∀ field ∈ fields, ∀ ty : Ty, ty.isSolid = true → field.value.extent ty ≤ ty.size)
    {slots : List (Nat × Ty)} {room : Nat} (inside : ∀ slot ∈ slots, slot.1 + slot.2.size ≤ room)
    (solid : ∀ slot ∈ slots, slot.2.isSolid = true) : extentOfFields fields slots ≤ room := by
  induction fields generalizing slots with
  | nil => simp [extentOfFields]
  | cons field fields ih =>
    cases slots with
    | nil => simp [extentOfFields]
    | cons slot slots =>
      rw [extentOfFields]
      have here := inner field (by simp) slot.2 (solid slot (by simp))
      have fits := inside slot (by simp)
      have rest : extentOfFields fields slots ≤ room :=
        ih (fun other mem => inner other (by simp [mem])) (fun other mem => inside other (by simp [mem]))
          fun other mem => solid other (by simp [mem])
      omega

/-- Where every part of the type has a register, a value stays in the registers of its type. -/
theorem extent_le_size (e : Expr) (ty : Ty) (solid : ty.isSolid = true) : e.extent ty ≤ ty.size := by
  induction e using of_forms generalizing ty with
  | parens value span inner =>
    rw [extent]
    exact inner ty solid
  | tuple fields span several inner =>
    rw [extent_tuple fields span ty several]
    split
    · rename_i slots found
      exact extentOfFields_le_size inner (Ty.tiles_of_slots? found).1.inside
        (Ty.isSolid_of_slots? solid found)
    · exact Nat.zero_le _
  | text | name | choose | unpaired => exact Nat.le_refl _
  | typeDecl => exact Nat.zero_le _
  | binary op =>
    have pos := Ty.size_pos_of_isSolid _ solid
    cases op <;> simp only [extent] <;> omega
  | int | hex | float | varDecl | function | unary => exact Ty.size_pos_of_isSolid _ solid

end Expr

namespace Site

/-- Whether a value that a variable is set to stays in the registers of the variable. -/
def setsInside (s : Site) (n : Expr) : Bool :=
  match n.binds? with
  | some (name, value) =>
    match s.scope.local? name with
    | some v => decide (value.extent v.ty ≤ v.ty.size)
    | none => true
  | none => true

/-- A variable that is set somewhere inside an expression. -/
def Assigns (s : Site) (e : Expr) (u : Variable) : Prop :=
  ∃ n ∈ e.nodes, ∃ name value, n.binds? = some (name, value) ∧ s.scope.local? name = some u

theorem extent_of_setsInside {s : Site} {n value : Expr} {name : String} {v : Variable}
    (h : s.setsInside n = true) (binds : n.binds? = some (name, value))
    (known : s.scope.local? name = some v) : value.extent v.ty ≤ v.ty.size := by
  simpa [setsInside, binds, known] using h

/-- Variables of which every part has a register hold what they are set to. -/
theorem setsInside_of_isSolid {s : Site}
    (solid : ∀ v, v ∈ s.scope.vars ∨ v ∈ s.scope.closure → v.ty.isSolid = true) (n : Expr) :
    s.setsInside n = true := by
  unfold setsInside
  split
  · split
    · rename_i v known
      rw [decide_eq_true_eq]
      exact Expr.extent_le_size _ v.ty (solid v (Scope.local?_mem known))
    · rfl
  · rfl

end Site

theorem Register.inRow_mono {r : Register} {bank : Bank} {start count more : Nat}
    (h : r.inRow bank start count = true) (le : count ≤ more) : r.inRow bank start more = true := by
  rw [Register.inRow_iff] at h ⊢
  exact ⟨h.1, h.2.1, by omega⟩

/-- A register belongs to one variable of a scope. -/
theorem Scope.Rowed.eq_of_inRow {s : Scope} (h : s.Rowed) {u v : Variable}
    (hu : u ∈ s.vars ∨ u ∈ s.closure) (hv : v ∈ s.vars ∨ v ∈ s.closure) {r : Register}
    (inU : r.inRow u.bank u.offset u.ty.size = true)
    (inV : r.inRow v.bank v.offset v.ty.size = true) : u = v := by
  obtain ⟨bank, low, high⟩ := Register.inRow_iff.mp inU
  obtain ⟨bank', low', high'⟩ := Register.inRow_iff.mp inV
  have same : u.offset + (r.offset - u.offset) = v.offset + (r.offset - v.offset) := by omega
  rcases hu with hu | hu <;> rcases hv with hv | hv
  · exact h.vars_row.unique hu hv (by omega) (by omega) same
  · rw [h.vars u hu] at bank
    rw [h.closure v hv, bank] at bank'
    cases bank'
  · rw [h.closure u hu] at bank
    rw [h.vars v hv, bank] at bank'
    cases bank'
  · exact h.closure_row.unique hu hv (by omega) (by omega) same

open Emit

/-- The registers that a statement may change: those of the variable it sets, those of variables that
are set inside the value, scratch registers, and the closure that is being filled. -/
def Site.MayChange (s : Site) (v : Variable) (value : Expr) (r : Register) : Prop :=
  r.inRow v.bank v.offset v.ty.size = true ∨
    (∃ u, s.Assigns value u ∧ r.inRow u.bank u.offset u.ty.size = true) ∨
    (r.bank = .window ∧ s.scope.size ≤ r.offset) ∨ r.bank = .aux

variable {s : Site} {e value : Expr} {name : String} {v : Variable}

/-- A node that sets a variable is the statement itself or lies in its value. -/
theorem mem_nodes_of_binds? (binds : e.binds? = some (name, value)) {n : Expr} (mem : n ∈ e.nodes)
    (sets : n.binds?.isSome) : n = e ∨ n ∈ value.nodes := by
  unfold Expr.binds? at binds
  split at binds
  · cases binds
    simpa [Expr.nodes] using mem
  · rename_i target value' span
    rw [Option.map_eq_some_iff] at binds
    obtain ⟨_, named, eq⟩ := binds
    cases eq
    obtain ⟨span', rfl⟩ := asName?_some named
    simp only [Expr.nodes, List.cons_append, List.nil_append, List.mem_cons] at mem
    rcases mem with rfl | rfl | mem
    · exact .inl rfl
    · simp [Expr.binds?] at sets
    · exact .inr mem
  · cases binds

theorem mayChange_of_sets (binds : e.binds? = some (name, value)) (known : s.scope.local? name = some v)
    (inside : ∀ n ∈ e.nodes, s.setsInside n = true) {r : Register} (h : s.Sets e r) :
    s.MayChange v value r := by
  obtain ⟨n, mem, name', value', u, binds', known', inRow⟩ := h
  have room := Site.extent_of_setsInside (inside n mem) binds' known'
  replace inRow := Register.inRow_mono inRow room
  rcases mem_nodes_of_binds? binds mem (by rw [binds']; rfl) with rfl | mem
  · rw [binds] at binds'
    cases binds'
    rw [known] at known'
    cases known'
    exact .inl inRow
  · exact .inr (.inl ⟨u, ⟨n, mem, name', value', binds', known'⟩, inRow⟩)

/-- A statement that sets a variable changes nothing but the registers it may change. -/
theorem treads_setting (isLast : Bool) (binds : e.binds? = some (name, value))
    (known : s.scope.local? name = some v) (inside : ∀ n ∈ e.nodes, s.setsInside n = true) :
    Treads (lowerStatement s isLast e) s.scope.size
      ⟨fun _ => True, s.MayChange v value, fun _ => True⟩ fun _ mark => mark = s.scope.size := by
  refine treads_statement isLast ⟨?_, ?_, fun _ _ => trivial⟩ ⟨fun _ _ => trivial, ?_⟩ ?_
  · exact fun r window above => ⟨trivial, .inr (.inr (.inl ⟨window, above⟩))⟩
  · exact fun r aux => .inr (.inr (.inr aux))
  · exact fun r sets => ⟨trivial, mayChange_of_sets binds known inside sets⟩
  · intro _ unbound
    rw [binds] at unbound
    cases unbound

/-- In every scope that code is made for, the instructions of a statement that declares or assigns a
variable change only registers of that variable, of variables set inside the value, scratch registers
and the closure that is being filled, and so no register of any other variable, as long as values stay
inside the variables they are put into. -/
theorem setting_changes_own {tree : ScopeTree} (h : tree.Resolved) {id : Nat} {code : List Emitted}
    (hc : scopeCode tree id = .ok code) {before after : List Expr} {e value : Expr} {name : String}
    {v : Variable} (body : (tree.scope id).body = before ++ e :: after)
    (binds : e.binds? = some (name, value)) (known : (tree.scope id).local? name = some v)
    (inside : ∀ n ∈ e.nodes, Site.setsInside ⟨tree, id⟩ n = true) :
    ∃ front part back, lowerStatement ⟨tree, id⟩ after.isEmpty e (tree.scope id).size = .ok part ∧
      code = front ++ part.code ++ back ∧
      ∀ i ∈ part.code, ∀ r, i.instruction.writes? = some r →
        Site.MayChange ⟨tree, id⟩ v value r ∧
        ∀ u, u ∈ (tree.scope id).vars ∨ u ∈ (tree.scope id).closure →
          r.inRow u.bank u.offset u.ty.size = true → u = v ∨ Site.Assigns ⟨tree, id⟩ value u := by
  obtain ⟨result, hr, rfl⟩ := scopeCode_ok hc
  rw [body] at hr
  obtain ⟨front, part, back, found, eq⟩ := lowerStatements_split hr
  refine ⟨front, part, back ++ [⟨⟨.ret, 0, 0⟩, none, none⟩], found, by simp [eq], ?_⟩
  intro i mem r written
  have rowed := ScopeTree.rowed_of_resolved h id
  have changes : Site.MayChange ⟨tree, id⟩ v value r :=
    ((treads_setting (s := ⟨tree, id⟩) after.isEmpty binds known inside part found).1 i mem).writes r
      written
  refine ⟨changes, fun u hu inU => ?_⟩
  rcases changes with own | ⟨w, assigns, inW⟩ | ⟨window, above⟩ | aux
  · exact .inl (rowed.eq_of_inRow hu (Scope.local?_mem known) inU own)
  · right
    obtain ⟨n, node, m, value', binds', known'⟩ := assigns
    obtain rfl := rowed.eq_of_inRow hu (Scope.local?_mem known') inU inW
    exact ⟨n, node, m, value', binds', known'⟩
  · obtain ⟨bank, low, high⟩ := Register.inRow_iff.mp inU
    rcases hu with hu | hu
    · have fits := rowed.inside u hu
      have above : (tree.scope id).size ≤ r.offset := above
      omega
    · rw [rowed.closure u hu, window] at bank
      cases bank
  · obtain ⟨bank, -, -⟩ := Register.inRow_iff.mp inU
    rcases hu with hu | hu
    · rw [rowed.vars u hu, aux] at bank
      cases bank
    · rw [rowed.closure u hu, aux] at bank
      cases bank

theorem body_split {body : List Expr} {n : Nat} {e : Expr} (h : body[n]? = some e) :
    body = body.take n ++ e :: body.drop (n + 1) := by
  obtain ⟨lt, rfl⟩ := List.getElem?_eq_some_iff.mp h
  rw [List.getElem_cons_drop, List.take_append_drop]

/-- A pair is set from a nested assignment and the variable assigned there. -/
theorem setting_changes_own_nested : ∃ tree e value v code front part back,
    resolveSource "[ a: int = 1; [ t: (int, int) = (2, 3); t = (a = 5, a)" = .ok tree ∧
      (tree.scope 0).body[2]? = some e ∧ e.binds? = some ("t", value) ∧
      (tree.scope 0).local? "t" = some v ∧ scopeCode tree 0 = .ok code ∧
      lowerStatement ⟨tree, 0⟩ true e (tree.scope 0).size = .ok part ∧
      code = front ++ part.code ++ back ∧ part.code.length = 3 ∧
      ∀ i ∈ part.code, ∀ r, i.instruction.writes? = some r → Site.MayChange ⟨tree, 0⟩ v value r := by
  have found : (do
      let tree ← (resolveSource "[ a: int = 1; [ t: (int, int) = (2, 3); t = (a = 5, a)").toOption
      let e ← (tree.scope 0).body[2]?
      let b ← e.binds?
      let v ← (tree.scope 0).local? b.1
      let code ← (scopeCode tree 0).toOption
      let part ← (lowerStatement ⟨tree, 0⟩ true e (tree.scope 0).size).toOption
      if b.1 = "t" ∧ e.nodes.all (Site.setsInside ⟨tree, 0⟩) ∧ (tree.scope 0).body.length = 3 ∧
        part.code.length = 3 then some () else none) = some () := by decide +kernel
  obtain ⟨tree, ht, found⟩ := Option.bind_eq_some_iff.mp found
  obtain ⟨e, he, found⟩ := Option.bind_eq_some_iff.mp found
  obtain ⟨⟨name, value⟩, binds, found⟩ := Option.bind_eq_some_iff.mp found
  obtain ⟨v, known, found⟩ := Option.bind_eq_some_iff.mp found
  obtain ⟨code, hc, found⟩ := Option.bind_eq_some_iff.mp found
  obtain ⟨part, hp, found⟩ := Option.bind_eq_some_iff.mp found
  split at found
  · rename_i facts
    obtain ⟨rfl, inside, three, length⟩ := facts
    have source := toOption_eq_some ht
    have emitted := toOption_eq_some hc
    obtain ⟨front, part', back, found', eq, changes⟩ := setting_changes_own (resolveSource_ok source)
      emitted (body_split he) binds known (List.all_eq_true.mp inside)
    have last : ((tree.scope 0).body.drop 3).isEmpty = true := by
      simp [three]
    have lowered := toOption_eq_some hp
    rw [last, lowered] at found'
    cases found'
    exact ⟨tree, e, value, v, code, front, part, back, source, he, binds, known, emitted, lowered, eq,
      length, fun i mem r written => (changes i mem r written).1⟩
  · cases found

/-- A number for a variable without registers is put into the next variable. -/
theorem number_set_beside : ∃ tree e value v u part i r,
    resolveSource "[ v: void = (); [ x: int = 7; v = 5" = .ok tree ∧
      (tree.scope 0).body[2]? = some e ∧ e.binds? = some ("v", value) ∧
      (tree.scope 0).local? "v" = some v ∧ (tree.scope 0).local? "x" = some u ∧
      lowerStatement ⟨tree, 0⟩ true e (tree.scope 0).size = .ok part ∧ i ∈ part.code ∧
      i.instruction.writes? = some r ∧ r.inRow u.bank u.offset u.ty.size = true ∧ u ≠ v ∧
      ¬ Site.Assigns ⟨tree, 0⟩ value u ∧ ¬ Site.MayChange ⟨tree, 0⟩ v value r := by
  have found : (do
      let tree ← (resolveSource "[ v: void = (); [ x: int = 7; v = 5").toOption
      let e ← (tree.scope 0).body[2]?
      let b ← e.binds?
      let v ← (tree.scope 0).local? "v"
      let u ← (tree.scope 0).local? "x"
      let part ← (lowerStatement ⟨tree, 0⟩ true e (tree.scope 0).size).toOption
      let i ← part.code[0]?
      let r ← i.instruction.writes?
      if b.1 = "v" ∧ r.inRow u.bank u.offset u.ty.size = true ∧ u ≠ v ∧
        b.2.nodes.all (fun n => n.binds?.isNone) ∧ r.inRow v.bank v.offset v.ty.size = false ∧
        r.offset < (tree.scope 0).size ∧ r.bank ≠ .aux then some () else none) = some () := by
    decide +kernel
  obtain ⟨tree, ht, found⟩ := Option.bind_eq_some_iff.mp found
  obtain ⟨e, he, found⟩ := Option.bind_eq_some_iff.mp found
  obtain ⟨⟨name, value⟩, binds, found⟩ := Option.bind_eq_some_iff.mp found
  obtain ⟨v, known, found⟩ := Option.bind_eq_some_iff.mp found
  obtain ⟨u, beside, found⟩ := Option.bind_eq_some_iff.mp found
  obtain ⟨part, hp, found⟩ := Option.bind_eq_some_iff.mp found
  obtain ⟨i, hi, found⟩ := Option.bind_eq_some_iff.mp found
  obtain ⟨r, written, found⟩ := Option.bind_eq_some_iff.mp found
  split at found
  · rename_i facts
    obtain ⟨rfl, inU, other, plain, outside, below, notAux⟩ := facts
    have nothing (w : Variable) : ¬ Site.Assigns ⟨tree, 0⟩ value w := by
      rintro ⟨n, mem, m, value', binds', -⟩
      have free := List.all_eq_true.mp plain n mem
      rw [binds'] at free
      cases free
    have source := toOption_eq_some ht
    have emitted := toOption_eq_some hp
    have mem := List.mem_of_getElem? hi
    refine ⟨tree, e, value, v, u, part, i, r, source, he, binds, known, beside, emitted, mem, written,
      inU, other, nothing u, ?_⟩
    rintro (own | ⟨w, assigns, -⟩ | ⟨-, above⟩ | aux)
    · rw [outside] at own
      cases own
    · exact nothing w assigns
    · exact absurd below (Nat.not_lt.mpr above)
    · exact notAux aux
  · cases found

end WindowedClosures
