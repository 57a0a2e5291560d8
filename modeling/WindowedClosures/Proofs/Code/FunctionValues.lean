import WindowedClosures.Proofs.Code.Literals
import WindowedClosures.Proofs.Machine.Passage
import WindowedClosures.Proofs.Scope.Ownership

/-!
# Function values hold what they capture

The code for a function literal leaves the word of the literal in its destination. If the literal
captures variables, it takes the next free closure and puts the words of their registers into it, one
variable behind the other, after the destination has its word: so a function that captures its own
destination captures itself. Where the word is called, the body reads these words as its captured
variables. Nothing else changes.
-/

namespace WindowedClosures

open Emit

/-- A register of the value of a variable, counted from its first one. -/
def Variable.part (v : Variable) (j : Nat) : Except RegisterOverflow Register :=
  Register.ofOffset v.bank (v.offset + j)

theorem Variable.part_of_shift {v : Variable} {first t : Register} {j : Nat}
    (place : v.register = .ok first) (shift : first.shift j = .ok t) : v.part j = .ok t := by
  obtain ⟨bank, offset⟩ := Register.ofOffset_ok place
  rw [Register.shift, bank, offset] at shift
  exact shift

theorem Scope.KeepsBanks.near {s : Scope} (h : s.KeepsBanks) {n : String} {v : Variable}
    (known : s.local? n = some v) {j : Nat} {t : Register} (part : v.part j = .ok t) : t.Near :=
  h.near_of_bank (Scope.local?_mem known) (Register.ofOffset_ok part).1

/-- Near registers do not lie in another closure than the running one. -/
theorem Machine.cell_ne_closures {m : Machine} {t : Register} (near : t.Near) {k o : Nat}
    (other : k ≠ m.closure) (lt : o < 64) : m.cell t ≠ .closures (k * 64 + o) := by
  have bound := t.offset.isLt
  rcases near with bank | bank
  · simp [Machine.cell, bank]
  · simp only [Machine.cell, bank, ne_eq, Cell.closures.injEq]
    omega

/-! ## Filling a closure -/

/-- Words of a closure changed from a place on, and nothing else of a machine. -/
structure Machine.Fills (m n : Machine) (k start : Nat) : Prop where
  top : n.top = m.top
  closure : n.closure = m.closure
  aux : n.aux = m.aux
  pool : n.pool = m.pool
  other : ∀ c, (∀ o, start ≤ o → o < 64 → c ≠ .closures (k * 64 + o)) → n.readCell? c = m.readCell? c

namespace Machine.Fills

variable {l m n : Machine} {k start : Nat}

theorem refl (m : Machine) (k start : Nat) : m.Fills m k start := ⟨rfl, rfl, rfl, rfl, fun _ _ => rfl⟩

theorem trans {next : Nat} (h : l.Fills m k start) (h' : m.Fills n k next) (le : start ≤ next) :
    l.Fills n k start where
  top := h'.top.trans h.top
  closure := h'.closure.trans h.closure
  aux := h'.aux.trans h.aux
  pool := h'.pool.trans h.pool
  other c apart := by
    rw [h'.other c fun o low high => apart o (by omega) high, h.other c apart]

/-- The registers of the running function are not in the closure. -/
theorem near (h : m.Fills n k start) (other : k ≠ m.closure) {t : Register} (near : t.Near) :
    n.cell t = m.cell t ∧ n.readCell? (m.cell t) = m.readCell? (m.cell t) := by
  refine ⟨?_, h.other _ fun o _ lt => cell_ne_closures near other lt⟩
  rcases near with bank | bank
  · simp only [cell, bank, h.top]
  · simp only [cell, bank, h.closure]

end Machine.Fills

namespace Emit

variable {labels : List Label} {watermark : Nat} {r : Run} {k : Nat}

/-- Moving a register into the selected closure. -/
theorem passes_fill {slot origin : Register} (bank : slot.bank = .aux) (near : origin.Near)
    (aux : r.machine.aux = k) (lt : k < 256) :
    Passes labels (move slot origin) watermark r fun _ w s => w = watermark ∧
      r.machine.Fills s.machine k slot.offset ∧
      s.machine.readCell? (.closures (k * 64 + slot.offset)) =
        r.machine.readCell? (r.machine.cell origin) := by
  have target : (Register.ofByte (Instruction.triple .move slot origin .first).x) = slot := by
    rw [Instruction.x_triple, Register.ofByte_toByte]
  have cell : r.machine.cell slot = .closures (k * 64 + slot.offset) := by
    simp only [Machine.cell, bank, aux]
  have isSome : (r.machine.readCell? (r.machine.cell slot)).isSome := by
    have bound := slot.offset.isLt
    rw [cell, Machine.readCell?, Memory.isSome_get?_iff, closureWords]
    omega
  have step := Exec.step_data (.triple .move slot origin .first)
    (r.charge (.triple .move slot origin .first)) rfl
  have op : (Instruction.triple .move slot origin .first).op = .move := rfl
  have source : (r.charge (.triple .move slot origin .first)).machine.read? origin.toByte =
      r.machine.readCell? (r.machine.cell origin) := by
    rw [Machine.read?, Register.ofByte_toByte]
    rfl
  simp only [Instruction.result, op, Instruction.y_triple, source] at step
  refine passes_push fun ahead => ?_
  cases read : r.machine.readCell? (r.machine.cell origin) with
  | none =>
    rw [read] at step
    have tick : Exec.tick .none r = _ := Exec.tick_of_instruction ahead.instruction? rfl
    rw [step] at tick
    refine .inr ⟨fun seated => ?_, .of_tick tick 0⟩
    rw [seated.readCell? near] at read
    cases read
  | some word =>
    rw [read] at step
    refine (gets_of_store r.machine.pool r.machine.aux ahead rfl step ?_ fun _ => ?_).mono ?_
    · rw [target, bank]
      decide
    · rw [Machine.read?, target]
      exact isSome
    · rintro s - ⟨there, machine⟩
      have written (c : Cell) : s.machine.readCell? c =
          if c = r.machine.cell slot then some word else r.machine.readCell? c := by
        rw [machine, Machine.readCell?_write_advance _ there, target]
        rfl
      refine ⟨rfl, ⟨?_, ?_, ?_, ?_, fun c apart => ?_⟩, ?_⟩
      · simp [machine, Machine.write]
      · simp [machine, Machine.write]
      · simp [machine, Machine.write]
      · simp [machine, Machine.write]
      · rw [written, if_neg]
        rw [cell]
        exact apart slot.offset (Nat.le_refl _) slot.offset.isLt
      · rw [written, cell, if_pos rfl]

theorem passes_fillFrom {slot origin : Register} (bank : slot.bank = .aux) (near : origin.Near)
    (aux : r.machine.aux = k) (lt : k < 256) (other : k ≠ r.machine.closure) (count start : Nat) :
    Passes labels (copyFrom slot origin start count) watermark r fun _ w s => w = watermark ∧
      r.machine.Fills s.machine k (slot.offset + start) ∧ ∀ j, start ≤ j → j < start + count →
        slot.offset + j < 64 ∧ ∃ t, origin.shift j = .ok t ∧
          s.machine.readCell? (.closures (k * 64 + (slot.offset + j))) =
            r.machine.readCell? (r.machine.cell t) := by
  induction count generalizing start r with
  | zero => exact passes_pure ⟨rfl, .refl _ _ _, fun j _ _ => by omega⟩
  | succ count ih =>
    refine passes_bind (passes_register fun slot' hs => ?_)
    refine passes_bind (passes_register fun origin' ho => ?_)
    obtain ⟨bank', offset'⟩ := Register.shift_ok hs
    have near' : origin'.Near := by
      rw [Register.Near, (Register.shift_ok ho).1]
      exact near
    refine passes_bind ((passes_fill (bank'.trans bank) near' aux lt).mono ?_)
    rintro - _ s _ - ⟨rfl, fills, value⟩
    rw [offset'] at fills value
    refine (ih (fills.aux.trans aux) (by rw [fills.closure]; exact other) (start + 1)).mono ?_
    rintro - _ s' _ - ⟨rfl, fills', slots⟩
    refine ⟨rfl, fills.trans fills' (by omega), fun j low high => ?_⟩
    by_cases here : j = start
    · subst here
      refine ⟨offset' ▸ slot'.offset.isLt, origin', ho, ?_⟩
      rw [fills'.other, value]
      intro o above _ same
      injection same with same
      omega
    · obtain ⟨lt, t, shift, same⟩ := slots j (by omega) (by omega)
      have near'' : t.Near := by
        rw [Register.Near, (Register.shift_ok shift).1]
        exact near
      obtain ⟨cell, read⟩ := fills.near other near''
      exact ⟨lt, t, shift, by rw [same, cell, read]⟩

end Emit

/-- A closure has, in place of a captured variable, the words of the variable in the scope where it is
made. -/
def Site.Copied (s : Site) (k : Nat) (v : Variable) (words : Register → Option Int32) (n : Machine) :
    Prop :=
  ∀ j < v.ty.size, v.offset + j < 64 ∧ ∃ u t, s.scope.local? v.name = some u ∧ u.part j = .ok t ∧
    n.readCell? (.closures (k * 64 + (v.offset + j))) = words t

/-- The word of a register. -/
def Machine.wordOf (m : Machine) (t : Register) : Option Int32 := m.readCell? (m.cell t)

namespace Site

variable {s : Site} {k : Nat} {v : Variable} {words others : Register → Option Int32} {m n : Machine}

/-- Only the closure matters. -/
theorem Copied.congr (h : s.Copied k v words m)
    (same : ∀ o < 64, n.readCell? (.closures (k * 64 + o)) = m.readCell? (.closures (k * 64 + o))) :
    s.Copied k v words n := by
  intro j small
  obtain ⟨lt, u, t, known, part, eq⟩ := h j small
  exact ⟨lt, u, t, known, part, (same _ lt).trans eq⟩

/-- Only the words of the variable matter. -/
theorem Copied.of_words (h : s.Copied k v words m)
    (same : ∀ j < v.ty.size, ∀ u t, s.scope.local? v.name = some u → u.part j = .ok t →
      words t = others t) : s.Copied k v others m := by
  intro j small
  obtain ⟨lt, u, t, known, part, eq⟩ := h j small
  exact ⟨lt, u, t, known, part, eq.trans (same j small u t known part)⟩

end Site

namespace Emit

variable {labels : List Label} {watermark : Nat} {r : Run} {k : Nat} {s : Site}

theorem passes_capture (banks : s.scope.KeepsBanks) (aux : r.machine.aux = k) (lt : k < 256)
    (other : k ≠ r.machine.closure) (span : Span) (v : Variable) :
    Passes labels (capture s span v) watermark r fun _ w q => w = watermark ∧
      r.machine.Fills q.machine k v.offset ∧ s.Copied k v r.machine.wordOf q.machine := by
  refine passes_bind (passes_lift fun u hu => passes_bind (passes_register fun origin ho => ?_))
  refine passes_bind (passes_register fun slot hs => ?_)
  obtain ⟨bank, offset⟩ := Register.ofOffset_ok hs
  have known : s.scope.local? v.name = some u := Site.lookup_eq_ok_iff.mp hu
  have near : origin.Near := banks.near known (Variable.part_of_shift ho (shift_zero origin))
  refine (passes_fillFrom bank near aux lt other v.ty.size 0).mono ?_
  rintro - _ q _ - ⟨rfl, fills, slots⟩
  rw [offset, Nat.add_zero] at fills
  refine ⟨rfl, fills, fun j small => ?_⟩
  obtain ⟨lt, t, shift, same⟩ := slots j (Nat.zero_le j) (by omega)
  rw [offset] at lt same
  exact ⟨lt, u, t, known, Variable.part_of_shift ho shift, same⟩

/-- All captured variables in a row. -/
theorem passes_captures (banks : s.scope.KeepsBanks) (aux : r.machine.aux = k) (lt : k < 256)
    (other : k ≠ r.machine.closure) (span : Span) {vars : List Variable} {start : Nat}
    (row : InRow start vars) :
    Passes labels (vars.forM (capture s span)) watermark r fun _ w q => w = watermark ∧
      r.machine.Fills q.machine k start ∧ ∀ v ∈ vars, s.Copied k v r.machine.wordOf q.machine := by
  induction vars generalizing start r with
  | nil => exact passes_pure ⟨rfl, .refl _ _ _, by simp⟩
  | cons v rest ih =>
    obtain ⟨place, row⟩ := row
    refine passes_bind ((passes_capture banks aux lt other span v).mono ?_)
    rintro - _ q _ - ⟨rfl, fills, copied⟩
    rw [place] at fills
    refine (ih (fills.aux.trans aux) (by rw [fills.closure]; exact other) row).mono ?_
    rintro - _ q' _ - ⟨rfl, fills', rest_copied⟩
    refine ⟨rfl, fills.trans fills' (by omega), fun u hu => ?_⟩
    rcases List.mem_cons.mp hu with rfl | hu
    · intro j small
      obtain ⟨lt, w, t, known, part, same⟩ := copied j small
      refine ⟨lt, w, t, known, part, ?_⟩
      -- the variables behind it lie higher
      rw [fills'.other, same]
      intro o above _ eq
      injection eq with eq
      omega
    · refine (rest_copied u hu).of_words fun j _ w t known part => ?_
      obtain ⟨cell, read⟩ := fills.near other (banks.near known part)
      rw [Machine.wordOf, cell, read, Machine.wordOf]

end Emit

/-! ## The whole value -/

namespace Site

/-- The word of a function literal with a closure: the address alone if nothing is captured. -/
def functionWord (s : Site) (literal : FunctionLiteral) (k : UInt8) (address : UInt16) : Int32 :=
  if (s.tree.scope literal.scope).closure.isEmpty then Int32.ofNat address.toNat
  else FunctionWord.word k address

/-- A machine with the value of a function literal in a register. -/
structure Makes (s : Site) (literal : FunctionLiteral) (address : UInt16) (dst : Register)
    (m n : Machine) : Prop where
  word : n.readCell? (m.cell dst) = some (s.functionWord literal m.pool.alloc.1 address)
  captured : ∀ v ∈ (s.tree.scope literal.scope).closure,
    s.Copied m.pool.alloc.1.toNat v (fun t =>
      if t = dst then some (s.functionWord literal m.pool.alloc.1 address) else m.wordOf t) n
  pool : n.pool = if (s.tree.scope literal.scope).closure.isEmpty then m.pool else m.pool.alloc.2
  other : ∀ c, c ≠ m.cell dst →
    ((s.tree.scope literal.scope).closure ≠ [] →
      ∀ o < 64, c ≠ .closures (m.pool.alloc.1.toNat * 64 + o)) → n.readCell? c = m.readCell? c

/-- A call through the word enters the function, and its captured variables have the words that the
closure got where it was made. -/
theorem enters {s : Site} {literal : FunctionLiteral} {k : UInt8} {address : UInt16}
    {words : Register → Option Int32} {call : Instruction} (op : call.op = .callRegister) {q : Run}
    (read : q.machine.read? call.y = some (s.functionWord literal k address))
    (captured : ∀ v ∈ (s.tree.scope literal.scope).closure, s.Copied k.toNat v words q.machine) :
    ∃ body, Exec.step call q = .ok false body ∧ body.machine.pc = address.toNat ∧
      ∀ v ∈ (s.tree.scope literal.scope).closure, ∀ j < v.ty.size, ∃ u t,
        s.scope.local? v.name = some u ∧ u.part j = .ok t ∧
          body.machine.register? .closure (v.offset + j) = words t := by
  have step := Exec.step_callRegister op q
  rw [read] at step
  refine ⟨_, step, ?_, fun v hv j small => ?_⟩
  · show (FunctionWord.ofWord (s.functionWord literal k address)).address = address.toNat
    unfold functionWord
    split
    · exact FunctionWord.address_ofWord_ofNat address
    · rw [FunctionWord.ofWord_word]
  · obtain ⟨lt, u, t, known, part, same⟩ := captured v hv j small
    refine ⟨u, t, known, part, ?_⟩
    have filled : ¬ (s.tree.scope literal.scope).closure.isEmpty := by
      simpa using List.ne_nil_of_mem hv
    have closure : (FunctionWord.ofWord (s.functionWord literal k address)).closure = k := by
      rw [functionWord, if_neg filled, FunctionWord.ofWord_word]
    have register : Register.ofOffset .closure (v.offset + j) = .ok ⟨.closure, ⟨v.offset + j, lt⟩⟩ :=
      dif_pos lt
    rw [Machine.register?, register]
    show q.machine.readCell? (.closures ((FunctionWord.ofWord
      (s.functionWord literal k address)).closure.toNat * 64 + (v.offset + j))) = words t
    rw [closure, same]

end Site

open Emit in
/-- The code for a function literal makes its value. -/
theorem passes_function {labels : List Label} {s : Site} {literal : FunctionLiteral} {label : Label}
    (found : labels.find? (·.id == literal.id) = some label) (banks : s.scope.KeepsBanks)
    (row : InRow 0 (s.tree.scope literal.scope).closure) {dst : Register} (near : dst.Near)
    (span : Span) {watermark : Nat} {r : Run}
    (other : r.machine.pool.alloc.1.toNat ≠ r.machine.closure) :
    Passes labels (function s literal span dst) watermark r fun _ w q => w = watermark ∧
      s.Makes literal label.address dst r.machine q.machine := by
  unfold function
  split
  · exact passes_fail _ _
  dsimp only
  split
  · rename_i empty
    have word : s.functionWord literal r.machine.pool.alloc.1 label.address =
        Int32.ofNat label.address.toNat := if_pos empty
    refine passes_pushFor found fun ahead => ?_
    have step := Exec.step_data (.wide .loadLow dst label.address)
      (r.charge (.wide .loadLow dst label.address)) rfl
    refine (gets_into near rfl r.machine.pool r.machine.aux ahead rfl step).mono ?_
    rintro q - ⟨pool, -, written⟩
    refine ⟨rfl, ?_, fun v hv => ?_, by rw [pool, if_pos empty], fun c ne _ => by rw [written, if_neg ne]⟩
    · rw [written, if_pos rfl, word]
      rfl
    · rw [List.isEmpty_iff.mp empty] at hv
      cases hv
  · rename_i filled
    have word : s.functionWord literal r.machine.pool.alloc.1 label.address =
        FunctionWord.word r.machine.pool.alloc.1 label.address := if_neg filled
    have bound := r.machine.pool.alloc.1.toNat_lt
    refine passes_bind (passes_pushFor found fun ahead => ?_)
    have step := Exec.step_closureMake (i := .wide .closureMake dst label.address) rfl
      (r.charge (.wide .closureMake dst label.address))
    refine (gets_into near rfl r.machine.pool.alloc.2 r.machine.pool.alloc.1.toNat ahead rfl step).mono ?_
    rintro q through ⟨pool, aux, written⟩
    refine (passes_captures banks aux (by omega) (by rw [through.closure]; exact other) span row).mono ?_
    rintro - _ q' _ - ⟨rfl, fills, copied⟩
    refine ⟨rfl, ?_, fun v hv => ?_, ?_, fun c ne apart => ?_⟩
    · rw [fills.other _ fun o _ lt => Machine.cell_ne_closures near other lt, written, if_pos rfl, word]
      rfl
    · refine (copied v hv).of_words fun j _ u t known part => ?_
      have near' : t.Near := banks.near known part
      have other' : t.bank ≠ .aux := by
        rcases near' with bank | bank <;> rw [bank] <;> decide
      rw [Machine.wordOf, through.cell other', written, word]
      by_cases self : t = dst
      · rw [self, if_pos rfl, if_pos rfl]
        rfl
      · rw [if_neg fun eq => self (r.machine.cell_injective near' near eq), if_neg self, Machine.wordOf]
    · rw [fills.pool, pool, if_neg filled]
    · rw [fills.other c fun o _ lt => apart (by simpa using filled) o lt, written, if_neg ne]

/-- The halves of a function word do not overlap. -/
theorem FunctionWord.word_eq_or (closure : UInt8) (address : UInt16) :
    word closure address = (UInt32.ofNat (closure.toNat <<< 24 ||| address.toNat)).toInt32 := by
  have low : address.toNat < 2 ^ 24 := by
    have bound := address.toNat_lt
    omega
  rw [word, ← Nat.shiftLeft_add_eq_or_of_lt low, Nat.shiftLeft_eq]

/-- Only a scope of the program has literals. -/
theorem ScopeTree.lt_of_mem_literals {tree : ScopeTree} {id : ScopeId} {literal : FunctionLiteral}
    (mem : literal ∈ literalsOf (tree.scope id).body) : id < tree.count := by
  by_contra outside
  rw [tree.scope_of_count_le (Nat.le_of_not_lt outside)] at mem
  cases mem

/-- The function of a literal of a resolved program lies under its label. -/
theorem Laid.entry_of_literal {tree : ScopeTree} {program : Program} (l : Laid tree program)
    (resolved : tree.Resolved) {id : ScopeId} {literal : FunctionLiteral}
    (mem : literal ∈ literalsOf (tree.scope id).body) :
    ∃ (f : Function) (label : Label), l.Entry f label.address ∧ f.id = literal.id ∧
      f.scope = literal.scope ∧ program.labels.find? (·.id == literal.id) = some label := by
  obtain ⟨g, hg, number, scope⟩ := resolved.indexed.mem_functions mem
  have exists_ : (tree.function? literal.id).isSome :=
    List.find?_isSome.mpr ⟨g, hg, by simp [number]⟩
  obtain ⟨label, found⟩ := l.exists_label exists_
  obtain ⟨f, entry, same⟩ := l.entry_of_label (List.mem_of_find?_eq_some found)
  have number : f.id = literal.id := same.trans (by simpa using List.find?_some found)
  have scopes := (ScopeTree.literal_of_resolved resolved (ScopeTree.lt_of_mem_literals mem) mem).1
  exact ⟨f, label, entry, number, scopes f entry.mem number, found⟩

/-- What a literal of a resolved program captures is at hand where it is made, with the same type. -/
theorem ScopeTree.captured_of_literal {tree : ScopeTree} (resolved : tree.Resolved) {id : ScopeId}
    {literal : FunctionLiteral} (mem : literal ∈ literalsOf (tree.scope id).body) {v : Variable}
    (hv : v ∈ (tree.scope literal.scope).closure) {u : Variable}
    (known : (tree.scope id).local? v.name = some u) : u.ty = v.ty := by
  obtain ⟨w, found, ty⟩ := (literal_of_resolved resolved (lt_of_mem_literals mem) mem).2 v hv
  rw [known] at found
  cases found
  exact ty

open Emit in
/-- The code for a function literal of a scope leaves the word of its function in the destination, with
the next free closure in the top byte if the literal captures variables, and changes that closure only.
A call through the word enters the function. There a register of a captured variable has the word that
the variable of the scope had in that register before the code, or the function word itself if that
register is the destination. -/
theorem function_value_made {tree : ScopeTree} {program : Program} (resolved : tree.Resolved)
    (l : Laid tree program) {id : ScopeId} {literal : FunctionLiteral}
    (mem : literal ∈ literalsOf (tree.scope id).body) {dst : Register} (near : dst.Near) {span : Span}
    {watermark : Nat} {result : Emission Unit}
    (emitted : function ⟨tree, id⟩ literal span dst watermark = .ok result) {code : List Instruction}
    (links : result.code.mapM (link program.labels) = .ok code) {r : Run}
    (ahead : r.machine.Ahead code) {k : UInt8} (free : r.machine.pool.alloc.1 = k)
    (other : k.toNat ≠ r.machine.closure) :
    ∃ (f : Function) (address : UInt16) (word : Int32),
      l.Entry f address ∧ f.id = literal.id ∧ f.scope = literal.scope ∧
      word = (if (tree.scope literal.scope).closure = [] then Int32.ofNat address.toNat
        else (UInt32.ofNat (k.toNat <<< 24 ||| address.toNat)).toInt32) ∧
      r.Gets code.length fun s =>
        s.machine.readCell? (s.machine.cell dst) = some word ∧
        (∀ c, c ≠ r.machine.cell dst → ((tree.scope literal.scope).closure ≠ [] →
          ∀ o < 64, c ≠ .closures (k.toNat * 64 + o)) →
            s.machine.readCell? c = r.machine.readCell? c) ∧
        ∀ (call : Instruction) (q : Run), call.op = .callRegister →
          q.machine.read? call.y = some word →
          (∀ o < 64, q.machine.readCell? (.closures (k.toNat * 64 + o)) =
            s.machine.readCell? (.closures (k.toNat * 64 + o))) →
          ∃ body, Exec.step call q = .ok false body ∧ body.machine.pc = address.toNat ∧
            ∀ v ∈ (tree.scope literal.scope).closure, ∀ j < v.ty.size, ∃ u t,
              (tree.scope id).local? v.name = some u ∧ u.ty = v.ty ∧ u.part j = .ok t ∧
              body.machine.register? .closure (v.offset + j) =
                if t = dst then some word else r.machine.wordOf t := by
  subst free
  obtain ⟨f, label, entry, number, scope, found⟩ := l.entry_of_literal resolved mem
  have passes := passes_function (s := ⟨tree, id⟩) found (keepsBanks_of_resolved resolved id)
    (ScopeTree.rowed_of_resolved resolved literal.scope).closure_row near span other result code emitted
    links ahead
  refine ⟨f, label.address, Site.functionWord ⟨tree, id⟩ literal r.machine.pool.alloc.1 label.address,
    entry, number, scope, ?_, passes.mono ?_⟩
  · simp only [Site.functionWord, List.isEmpty_iff, FunctionWord.word_eq_or]
  · rintro s through ⟨-, made⟩
    have cell : s.machine.cell dst = r.machine.cell dst :=
      through.cell (by rcases near with bank | bank <;> rw [bank] <;> decide)
    refine ⟨cell ▸ made.word, made.other, fun call q op read kept => ?_⟩
    obtain ⟨body, step, pc, words⟩ :=
      Site.enters op read fun v hv => (made.captured v hv).congr kept
    refine ⟨body, step, pc, fun v hv j small => ?_⟩
    obtain ⟨u, t, known, part, value⟩ := words v hv j small
    exact ⟨u, t, known, ScopeTree.captured_of_literal resolved mem hv known, part, value⟩

open Exec Relation in
/-- A function that captures a pair and itself: a call enters it with the pair in the first registers
of closure 1 and its own word behind them. -/
theorem function_value_made_recursive : ∃ c r s body,
    compileSource "[ p: (x: int, y: int) = (7, 8); [ f: int > int = \\n > \x7b p.y + (f # n) \x7d" =
      .ok c ∧
      ReflTransGen (Goes .none c.program.code) c.program.start r ∧ r.Through s 4 ∧
      s.machine.register? .window 2 = some 16777216 ∧
      step ⟨.callRegister, 3, 2⟩ s = .ok false body ∧ body.machine.pc = 0 ∧
      body.machine.register? .closure 0 = some 7 ∧ body.machine.register? .closure 1 = some 8 ∧
      body.machine.register? .closure 2 = some 16777216 := by
  have found : (do
      let c ← (compileSource
        "[ p: (x: int, y: int) = (7, 8); [ f: int > int = \\n > \x7b p.y + (f # n) \x7d").toOption
      let r ← goes? .none c.program.code 2 c.program.start
      let literal ← (literalsOf (c.tree.scope 0).body)[0]?
      let result ← (Emit.function ⟨c.tree, 0⟩ literal .zero ⟨.window, 2⟩ 3).toOption
      let code ← (result.code.mapM (link c.program.labels)).toOption
      let p ← (c.tree.scope literal.scope).closure[0]?
      let f ← (c.tree.scope literal.scope).closure[1]?
      let p' ← (c.tree.scope 0).local? p.name
      let f' ← (c.tree.scope 0).local? f.name
      if (p.offset, p.ty.size, f.offset, f.ty.size) = (0, 2, 2, 1) ∧
        (p'.part 0).toOption = some ⟨.window, 0⟩ ∧ (p'.part 1).toOption = some ⟨.window, 1⟩ ∧
        (f'.part 0).toOption = some ⟨.window, 2⟩ ∧
        r.machine.readCell? (r.machine.cell ⟨.window, 0⟩) = some 7 ∧
        r.machine.readCell? (r.machine.cell ⟨.window, 1⟩) = some 8 ∧
        r.machine.pool.alloc.1 = 1 ∧ r.machine.closure = 0 ∧ r.machine.top + 64 ≤ stackSize ∧
        c.program.labels = [⟨0, "f", 0⟩] ∧ code.length = 4 ∧
        c.program.code.take r.machine.pc ++ code ++ c.program.code.drop (r.machine.pc + 4) =
          c.program.code ∧ (c.program.code.take r.machine.pc).length = r.machine.pc then some ()
      else none) = some () := by decide +kernel
  obtain ⟨c, hc, found⟩ := Option.bind_eq_some_iff.mp found
  obtain ⟨r, hr, found⟩ := Option.bind_eq_some_iff.mp found
  obtain ⟨literal, hl, found⟩ := Option.bind_eq_some_iff.mp found
  obtain ⟨result, emitted, found⟩ := Option.bind_eq_some_iff.mp found
  obtain ⟨code, links, found⟩ := Option.bind_eq_some_iff.mp found
  obtain ⟨p, hp, found⟩ := Option.bind_eq_some_iff.mp found
  obtain ⟨f, hf, found⟩ := Option.bind_eq_some_iff.mp found
  obtain ⟨p', known_p, found⟩ := Option.bind_eq_some_iff.mp found
  obtain ⟨f', known_f, found⟩ := Option.bind_eq_some_iff.mp found
  split at found
  · rename_i facts
    obtain ⟨places, first, second, self, seven, eight, free, closure, fits, labels, length, cut,
      front⟩ := facts
    simp only [Prod.mk.injEq] at places
    obtain ⟨offset_p, size_p, offset_f, size_f⟩ := places
    have source := toOption_eq_some hc
    obtain ⟨resolved, compiled⟩ := compileSource_ok source
    obtain ⟨l⟩ := compile_ok compiled
    have reached := run_of_goes? hr
    have ahead : r.machine.Ahead code := ahead_of_reached resolved compiled reached cut front
    obtain ⟨g, address, word, entry, -, -, value, gets⟩ := function_value_made resolved l
      (List.mem_of_getElem? hl) (.inl rfl) (toOption_eq_some emitted) (toOption_eq_some links) ahead free
      (by rw [closure]; decide)
    have address_eq : address = 0 := by
      have label := entry.label
      rw [labels, List.mem_singleton] at label
      injection label
    have word_eq : word = 16777216 := by
      rw [value, if_neg (List.ne_nil_of_mem (List.mem_of_getElem? hp)), address_eq]
      decide
    obtain ⟨s, through, read, -, calls⟩ := gets.through ⟨fits, by rw [closure]; decide⟩
    rw [word_eq] at read calls
    obtain ⟨body, stepped, pc, words⟩ := calls ⟨.callRegister, 3, 2⟩ s rfl read fun _ _ => rfl
    have captured {v u : Variable} (hv : v ∈ (c.tree.scope literal.scope).closure)
        (known : (c.tree.scope 0).local? v.name = some u) {j : Nat} (lt : j < v.ty.size) {t : Register}
        (part : (u.part j).toOption = some t) : body.machine.register? .closure (v.offset + j) =
          if t = ⟨.window, 2⟩ then some 16777216 else r.machine.wordOf t := by
      obtain ⟨u', t', known', -, part', read⟩ := words v hv j lt
      rw [known] at known'
      cases known'
      rw [toOption_eq_some part] at part'
      cases part'
      exact read
    have mem_p := List.mem_of_getElem? hp
    have first := captured mem_p known_p (by omega) first
    have second := captured mem_p known_p (by omega) second
    have third := captured (List.mem_of_getElem? hf) known_f (by omega) self
    rw [offset_p] at first second
    rw [offset_f] at third
    rw [length] at through
    exact ⟨c, r, s, body, source, reached, through, read, stepped, pc.trans (by rw [address_eq]; rfl),
      first.trans seven, second.trans eight, third⟩
  · cases found

end WindowedClosures
