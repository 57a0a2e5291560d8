import WindowedClosures.Proofs.Code.Calling
import WindowedClosures.Proofs.Code.FunctionValues
import WindowedClosures.Proofs.Code.Shapes

/-!
# A choice calls one arm

The code for a choice finds the word of one of its two arms and calls it, and makes no other call. A
constant condition decides which arm is made at all. Otherwise both are made, and the word is computed
as `no + condition * (yes - no)` with a condition that is 0 or 1: the differences of words wrap around,
but what is taken away is put back.
-/

namespace WindowedClosures

open Emit RegisterFile

namespace Emit

/-- The word of an arm in a scratch register. -/
def arm (lowered : Lowering) (arrow : Arrow) : Emit Register := do
  let t ← temp
  releasing (lowered t arrow.toTy)
  return t

/-- The word of one arm or of the other, by a truth value. -/
def blend (c : Register) (arrow : Arrow) (lowerYes lowerNo : Lowering) : Emit Register := do
  let t ← arm lowerYes arrow
  let e ← arm lowerNo arrow
  triple .sub t t e
  triple .mul t t c
  triple .add t t e
  return t

/-- The word of the arm that a choice calls. -/
def select (s : Site) (cond : Expr) (arrow : Arrow) (lowerCond lowerYes lowerNo : Lowering) :
    Emit Register := do
  match ← lift cond.constant? with
  | some value => arm (if value ≠ 0 then lowerYes else lowerNo) arrow
  | none =>
    let c ← truth s cond lowerCond
    blend c arrow lowerYes lowerNo

/-- A choice finds the word of an arm and calls it. -/
theorem choose_eq (s : Site) (cond yes no : Expr) (lowerCond lowerYes lowerNo : Lowering) (span : Span)
    (dst : Register) (ty : Ty) :
    choose s cond yes no lowerCond lowerYes lowerNo span dst ty = (do
      let arrow ← armArrow s yes
      let other ← armArrow s no
      if ¬ arrow.output.Matches other.output then
        fail (.semantic (.typeMismatch arrow.output.render other.output.render no.span))
      else do
        let word ← select s cond arrow lowerCond lowerYes lowerNo
        invoke dst word arrow none ty span) := by
  unfold choose
  refine bind_congr fun arrow => bind_congr fun other => ?_
  split
  · rfl
  · rw [select, bind_assoc]
    refine bind_congr fun constant => ?_
    cases constant with
    | some value => simp only [arm, bind_assoc, pure_bind]
    | none => simp only [blend, arm, bind_assoc, pure_bind]

theorem armArrow_ok {s : Site} {arm : Expr} {watermark : Nat} {result : Emission Arrow}
    (h : armArrow s arm watermark = .ok result) : result = ⟨result.value, [], watermark⟩ := by
  rw [armArrow] at h
  cases found : s.tree.arrowOf s.id arm with
  | error e =>
    rw [found] at h
    exact (fail_ok h).elim
  | ok arrow =>
    rw [found] at h
    rw [pure_ok h]

/-- A call without an argument is one instruction, with moves behind it. -/
theorem invoke_none_ok {dst function : Register} {arrow : Arrow} {ty : Ty} {span : Span}
    {watermark : Nat} {result : Emission Unit}
    (h : invoke dst function arrow none ty span watermark = .ok result) :
    ∃ frame copies, frame ≤ 64 ∧
      result.code = ⟨⟨.callRegister, UInt8.ofNat frame, UInt16.ofNat function.toByte.toNat⟩, none,
        some arrow⟩ :: copies ∧ ∀ e ∈ copies, e.instruction.op = .move := by
  obtain ⟨inside, -, output, placed, copied, before, -, -, copies, code⟩ := invoke_ok h
  rw [(placeArgument_ok before).2.1 rfl, List.nil_append] at code
  refine ⟨watermark, copied.code, by omega, code, ?_⟩
  rw [copy] at copies
  split at copies
  · rw [pure_ok copies]
    simp
  · exact (emits_copyFrom (fun _ _ => rfl) dst output 0 _ _ _ copies).1

/-- A choice finds a word and calls it, with moves behind the call. -/
theorem choose_ok {s : Site} {cond yes no : Expr} {lowerCond lowerYes lowerNo : Lowering} {span : Span}
    {dst : Register} {ty : Ty} {watermark : Nat} {result : Emission Unit}
    (h : choose s cond yes no lowerCond lowerYes lowerNo span dst ty watermark = .ok result) :
    ∃ arrow word frame copies,
      select s cond arrow lowerCond lowerYes lowerNo watermark = .ok word ∧ frame ≤ 64 ∧
      result.code = word.code ++ ⟨⟨.callRegister, UInt8.ofNat frame,
        UInt16.ofNat word.value.toByte.toNat⟩, none, some arrow⟩ :: copies ∧
      ∀ e ∈ copies, e.instruction.op = .move := by
  rw [choose_eq] at h
  obtain ⟨arrow, behind, ha, h₁, rfl⟩ := bind_ok h
  obtain ⟨other, rest, ho, h₂, rfl⟩ := bind_ok h₁
  have first := armArrow_ok ha
  have second := armArrow_ok ho
  split at h₂
  · exact (fail_ok h₂).elim
  · obtain ⟨word, called, hw, hc, rfl⟩ := bind_ok h₂
    obtain ⟨frame, copies, small, code, moves⟩ := invoke_none_ok hc
    rw [second, first] at hw
    refine ⟨arrow.value, word, frame, copies, hw, small, ?_, moves⟩
    rw [first, second, code]
    rfl

end Emit

/-- An operation that computes a word for a register, maybe with a fresh closure, and goes on with the
next instruction. -/
def Operation.Computes (op : Operation) : Prop := op.isData = true ∨ op = .closureMake

/-- Linking keeps the operations. -/
theorem computes_of_linked {labels : List Label} {code : List Emitted} {linked : List Instruction}
    (links : code.mapM (link labels) = .ok linked) (h : ∀ e ∈ code, e.instruction.op.Computes) :
    ∀ i ∈ linked, i.op.Computes := by
  induction code generalizing linked with
  | nil =>
    cases links
    simp
  | cons e rest ih =>
    rw [List.mapM_cons] at links
    obtain ⟨i, here, links⟩ := except_bind_ok links
    obtain ⟨others, behind, links⟩ := except_bind_ok links
    cases links
    rintro j (_ | ⟨_, mem⟩)
    · rw [(link_ok here).1]
      exact h e (by simp)
    · exact ih behind (fun f hf => h f (by simp [hf])) j mem

/-- Code that can be played computes words. -/
theorem computes_of_play {code : List Emitted} {file after : RegisterFile}
    (h : play (code.map (·.plain)) file = .ok after) : ∀ e ∈ code, e.instruction.op.Computes := by
  induction code generalizing file with
  | nil => simp
  | cons e rest ih =>
    obtain ⟨i, target, arrow⟩ := e
    rw [List.map_cons, play] at h
    split at h
    · rename_i computes
      split at h
      · rintro f (_ | ⟨_, mem⟩)
        · cases target with
          | none => exact .inl computes.1
          | some id => cases computes.1
        · exact ih h f mem
      · cases h
    · cases h

namespace Emit

theorem emits_function (s : Site) (literal : FunctionLiteral) (span : Span) (dst : Register) :
    Emits (·.instruction.op.Computes) (function s literal span dst) fun _ => True := by
  unfold function
  split
  · exact emits_fail _
  dsimp only
  split
  · exact emits_pushFor (.inl rfl)
  · refine emits_bind (emits_pushFor (.inr rfl)) fun _ _ => emits_forM _ fun v _ => ?_
    refine emits_bind (emits_lift (Q := fun _ => True) fun _ _ => trivial) fun u _ => ?_
    refine emits_bind (emits_register (Q := fun _ => True) fun _ _ => trivial) fun origin _ => ?_
    refine emits_bind (emits_register (Q := fun _ => True) fun _ _ => trivial) fun slot _ => ?_
    exact emits_copyFrom (fun _ _ => .inl rfl) slot origin 0 _

theorem emits_arm {lowered : Lowering}
    (h : ∀ t ty, Emits (·.instruction.op.Computes) (lowered t ty) fun _ => True) (arrow : Arrow) :
    Emits (·.instruction.op.Computes) (arm lowered arrow) fun _ => True :=
  emits_bind emits_temp fun t _ =>
    emits_bind (emits_releasing (h t arrow.toTy)) fun _ _ => emits_pure t trivial

theorem emits_blend {lowerYes lowerNo : Lowering}
    (yes : ∀ t ty, Emits (·.instruction.op.Computes) (lowerYes t ty) fun _ => True)
    (no : ∀ t ty, Emits (·.instruction.op.Computes) (lowerNo t ty) fun _ => True) (c : Register)
    (arrow : Arrow) :
    Emits (·.instruction.op.Computes) (blend c arrow lowerYes lowerNo) fun _ => True := by
  refine emits_bind (emits_arm yes arrow) fun t _ => emits_bind (emits_arm no arrow) fun e _ => ?_
  refine emits_bind (emits_push (.inl rfl)) fun _ _ => emits_bind (emits_push (.inl rfl)) fun _ _ => ?_
  exact emits_bind (emits_push (.inl rfl)) fun _ _ => emits_pure t trivial

/-- The instructions that find the word of an arm make no call. -/
theorem computes_of_select {s : Site} {cond : Expr} {arrow : Arrow} {lowerYes lowerNo : Lowering}
    (arranged : s.scope.Arranged) (integral : cond.Integral s.scope)
    (yes : ∀ t ty, Emits (·.instruction.op.Computes) (lowerYes t ty) fun _ => True)
    (no : ∀ t ty, Emits (·.instruction.op.Computes) (lowerNo t ty) fun _ => True)
    {watermark : Nat} (size : s.scope.size ≤ watermark) (file : RegisterFile) {v : Int32}
    (value : cond.value (s.read file) = some v) {result : Emission Register}
    (h : select s cond arrow (lower s cond) lowerYes lowerNo watermark = .ok result) :
    ∀ e ∈ result.code, e.instruction.op.Computes := by
  obtain ⟨constant, rest, hc, hr, rfl⟩ := bind_ok h
  obtain ⟨constant, -, rfl⟩ := lift_ok hc
  rw [List.nil_append]
  cases constant with
  | some word =>
    refine (emits_arm (fun t ty => ?_) arrow _ _ hr).1
    split
    · exact yes t ty
    · exact no t ty
  | none =>
    obtain ⟨truth, behind, ht, hb, rfl⟩ := bind_ok hr
    have made := makes_truth file arranged integral (lowers_of_integral arranged integral) size truth ht
    have front : ∀ e ∈ truth.code, e.instruction.op.Computes := by
      cases played : play (truth.code.map (·.plain)) file with
      | ok after => exact computes_of_play played
      | error halt =>
        rw [played, value] at made
        cases made.2
    intro e mem
    rcases List.mem_append.mp mem with mem | mem
    · exact front e mem
    · exact (emits_blend yes no truth.value arrow _ _ hb).1 e mem

end Emit

/-! ## The words of the arms -/

/-- What was taken away is put back, also where the difference wraps around. -/
theorem blend_words (t e : Int32) (b : Bool) : (t - e) * truthWord b + e = if b then t else e := by
  cases b with
  | false | true => simp [truthWord]

/-- The next two closures that are handed out are two, and neither is the running one. -/
structure Machine.SparesTwo (m : Machine) : Prop where
  first : m.pool.alloc.1.toNat ≠ m.closure
  second : m.pool.alloc.2.alloc.1.toNat ≠ m.closure
  apart : m.pool.alloc.1.toNat ≠ m.pool.alloc.2.alloc.1.toNat

/-- While closures are left, the next ones lie behind those in use. -/
theorem Machine.sparesTwo_of_handed {m : Machine} {n : Nat} (handed : m.pool.Handed n) (left : n < 254)
    (running : m.closure ≤ n) : m.SparesTwo := by
  obtain ⟨first, handed'⟩ := handed.alloc
  obtain ⟨second, -⟩ := handed'.alloc
  rw [ClosurePool.nth, if_pos (by omega)] at first second
  exact ⟨by omega, by omega, by omega⟩

theorem Scope.Arranged.below_part {s : Scope} (h : s.Arranged) {n : String} {u : Variable}
    (known : s.local? n = some u) {j : Nat} (small : j < u.ty.size) {t : Register}
    (part : u.part j = .ok t) : t.Below s.size := by
  obtain ⟨bank, offset⟩ := Register.ofOffset_ok part
  exact h.below_of_bank (Scope.local?_mem known) bank (by omega)

namespace Site

variable {s : Site} {literal : FunctionLiteral} {l m n : Machine} {k : UInt8}

/-- A literal that the code of a site can make: its function has a label, what it captures lies in a row
in its closure, and the scope has it with the same type. -/
structure Offers (s : Site) (labels : List Label) (literal : FunctionLiteral) (label : Label) : Prop where
  found : labels.find? (·.id == literal.id) = some label
  row : InRow 0 (s.tree.scope literal.scope).closure
  types : ∀ v ∈ (s.tree.scope literal.scope).closure, ∀ u, s.scope.local? v.name = some u → u.ty = v.ty

/-- A closure has what a literal captures, with the words of a machine. -/
def Captures (s : Site) (literal : FunctionLiteral) (k : UInt8) (m n : Machine) : Prop :=
  ∀ v ∈ (s.tree.scope literal.scope).closure, s.Copied k.toNat v m.wordOf n

/-- The closure counts only if something is captured. -/
theorem Captures.congr (h : s.Captures literal k l m)
    (same : (s.tree.scope literal.scope).closure ≠ [] → ∀ o < 64,
      n.readCell? (.closures (k.toNat * 64 + o)) = m.readCell? (.closures (k.toNat * 64 + o))) :
    s.Captures literal k l n :=
  fun v hv => (h v hv).congr (same (List.ne_nil_of_mem hv))

/-- Words of variables count only. -/
theorem Captures.of_words (h : s.Captures literal k l n) {labels : List Label} {label : Label}
    (offers : s.Offers labels literal label) (arranged : s.scope.Arranged)
    (same : ∀ t : Register, t.Below s.scope.size → l.wordOf t = m.wordOf t) :
    s.Captures literal k m n :=
  fun v hv => (h v hv).of_words fun j small u t known part =>
    same t (arranged.below_part known (by rw [offers.types v hv u known]; exact small) part)

/-- A literal made in a scratch register does not capture the register. -/
theorem Makes.captures {address : UInt16} {t : Register} (h : s.Makes literal address t m n)
    {labels : List Label} {label : Label} (offers : s.Offers labels literal label)
    (arranged : s.scope.Arranged) {watermark : Nat} (at_t : t.At watermark)
    (size : s.scope.size ≤ watermark) : s.Captures literal m.pool.alloc.1 m n := by
  intro v hv
  refine (h.captured v hv).of_words fun j small u x known part => ?_
  have below := arranged.below_part known (by rw [offers.types v hv u known]; exact small) part
  exact if_neg (below.ne at_t size)

end Site

namespace Machine

variable {m n : Machine} {after : RegisterFile} {t : Register}

theorem file_eq (m : Machine) (t : Register) : m.file t = (m.wordOf t).getD 0 := rfl

theorem file_of_wordOf {word : Int32} (h : m.wordOf t = some word) : m.file t = word := by
  rw [file_eq, h, Option.getD_some]

/-- The word of a register behind straight-line code. -/
theorem wordOf_of_shows (beside : m.Beside n) (shows_ : n.Shows after) (near : t.Near) :
    n.wordOf t = (m.wordOf t).map fun _ => after t := by
  have isSome : (n.wordOf t).isSome = (m.wordOf t).isSome := by
    rw [Machine.wordOf, beside.cell]
    exact Machine.isSome_readCell?_congr n m (m.cell t)
  cases hn : n.wordOf t with
  | none =>
    have none : m.wordOf t = none := by simpa [hn] using isSome.symm
    rw [none, Option.map_none]
  | some word =>
    rw [hn] at isSome
    obtain ⟨before, hm⟩ := Option.isSome_iff_exists.mp isSome.symm
    rw [hm, Option.map_some, ← shows_ t near, file_of_wordOf hn]

/-- A register that straight-line code leaves alone has the same word. -/
theorem wordOf_of_kept (beside : m.Beside n) (shows_ : n.Shows after) (near : t.Near)
    (same : after t = m.file t) : n.wordOf t = m.wordOf t := by
  rw [wordOf_of_shows beside shows_ near, same]
  cases hm : m.wordOf t with
  | none => rfl
  | some word => rw [Option.map_some, file_of_wordOf hm]

/-- Straight-line code leaves the other closures alone. -/
theorem Beside.closures (h : m.Beside n) {k : Nat} (other : k ≠ m.closure) {o : Nat} (lt : o < 64) :
    n.readCell? (.closures (k * 64 + o)) = m.readCell? (.closures (k * 64 + o)) :=
  h.cells _ fun _ near => cell_ne_closures near other lt

end Machine

/-- A register that a literal was not made in has the same word. -/
theorem Site.Makes.wordOf {s : Site} {literal : FunctionLiteral} {address : UInt16} {dst t : Register}
    {r q : Run} {count : Nat} (h : s.Makes literal address dst r.machine q.machine)
    (through : r.Through q count) (near : t.Near) (ne : t ≠ dst) (near' : dst.Near)
    (other : r.machine.pool.alloc.1.toNat ≠ r.machine.closure) :
    q.machine.wordOf t = r.machine.wordOf t := by
  have cell := through.cell (x := t) (by rcases near with bank | bank <;> rw [bank] <;> decide)
  rw [Machine.wordOf, cell, h.other, Machine.wordOf]
  · exact fun same => ne (r.machine.cell_injective near near' same)
  · exact fun _ o lt => Machine.cell_ne_closures near other lt

/-- The register that a literal was made in has its word. -/
theorem Site.Makes.wordOf_self {s : Site} {literal : FunctionLiteral} {address : UInt16}
    {dst : Register} {r q : Run} {count : Nat} (h : s.Makes literal address dst r.machine q.machine)
    (through : r.Through q count) (near : dst.Near) :
    q.machine.wordOf dst = some (s.functionWord literal r.machine.pool.alloc.1 address) := by
  have cell := through.cell (x := dst) (by rcases near with bank | bank <;> rw [bank] <;> decide)
  rw [Machine.wordOf, cell, h.word]

namespace Emit

variable {labels : List Label} {s : Site} {watermark : Nat} {r : Run}

theorem passes_arm {literal : FunctionLiteral} {label : Label} (offers : s.Offers labels literal label)
    (banks : s.scope.KeepsBanks) (span : Span) (arrow : Arrow)
    (other : r.machine.pool.alloc.1.toNat ≠ r.machine.closure) :
    Passes labels (arm (fun t _ => function s literal span t) arrow) watermark r fun t w q =>
      t.At watermark ∧ w = watermark + 1 ∧ s.Makes literal label.address t r.machine q.machine := by
  refine passes_bind (passes_temp fun t at_t => passes_bind (passes_releasing ?_))
  refine (passes_function offers.found banks offers.row (.inl at_t.1) span other).mono ?_
  rintro - _ q _ - ⟨-, made⟩
  exact passes_pure ⟨at_t, rfl, made⟩

/-- The instructions that choose between two words. -/
theorem makes_between {file : RegisterFile} {t e c : Register} {b : Bool} {fault : Prop}
    (at_t : t.At watermark) (at_e : e.At (watermark + 1)) (below : c.Below watermark)
    (truth : file c = truthWord b) :
    Makes (do
      triple .sub t t e
      triple .mul t t c
      triple .add t t e
      return t) (watermark + 2) file fault fun a _ after =>
        a = t ∧ after t = if b then file t else file e := by
  have near_t : t.Near := .inl at_t.1
  have below_e : e.Below (watermark + 2) := at_e.below (by omega)
  have apart : e ≠ t := at_e.ne at_t (by omega)
  refine makes_bind (makes_total rfl rfl (by decide) near_t near_t below_e.near fun f₁ h₁ => ?_)
  refine makes_bind (makes_total rfl rfl (by decide) near_t near_t below.near fun f₂ h₂ => ?_)
  refine makes_bind (makes_total rfl rfl (by decide) near_t near_t below_e.near fun f₃ h₃ => ?_)
  refine makes_pure ⟨rfl, ?_⟩
  rw [h₃.same, h₂.same, h₂.other e below_e apart, h₁.same, h₁.other e below_e apart,
    h₁.other c (below.mono (by omega)) (below.ne at_t (Nat.le_refl _)), truth, blend_words]

variable {literals : Bool → FunctionLiteral} {marks : Bool → Label} {b : Bool}

/-- With both arms made, the word of the one that the truth value chooses is computed. -/
theorem passes_blend (offers : ∀ b, s.Offers labels (literals b) (marks b))
    (arranged : s.scope.Arranged) (spans : Bool → Span) (arrow : Arrow)
    (size : s.scope.size ≤ watermark) (free : r.machine.SparesTwo) {c : Register}
    (below : c.Below watermark) (truth : r.machine.file c = truthWord b) :
    Passes labels (blend c arrow (fun t _ => function s (literals true) (spans true) t)
      fun t _ => function s (literals false) (spans false) t) watermark r fun t _ q =>
        t.Near ∧ ∃ k, q.machine.wordOf t = some (s.functionWord (literals b) k (marks b).address) ∧
          s.Captures (literals b) k r.machine q.machine := by
  refine passes_bind ((passes_arm (offers true) arranged.toKeepsBanks (spans true) arrow
    free.first).mono ?_)
  rintro t _ q₁ _ through₁ ⟨at_t, rfl, yes⟩
  have near_t : t.Near := .inl at_t.1
  have free₂ : q₁.machine.pool.alloc.1.toNat ≠ q₁.machine.closure := by
    rw [yes.pool, through₁.closure]
    split
    · exact free.first
    · exact free.second
  refine passes_bind ((passes_arm (offers false) arranged.toKeepsBanks (spans false) arrow
    free₂).mono ?_)
  rintro e _ q₂ _ through₂ ⟨at_e, rfl, no⟩
  have near_e : e.Near := .inl at_e.1
  have word_t := (no.wordOf through₂ near_t (at_t.ne at_e (by omega)) near_e free₂).trans
    (yes.wordOf_self through₁ near_t)
  have word_e := no.wordOf_self through₂ near_e
  have file_c : q₂.machine.file c = truthWord b := by
    rw [← truth, Machine.file_eq, Machine.file_eq,
      no.wordOf through₂ below.near (below.ne at_e (by omega)) near_e free₂,
      yes.wordOf through₁ below.near (below.ne at_t (Nat.le_refl _)) near_t free.first]
  have captures_yes : s.Captures (literals true) r.machine.pool.alloc.1 r.machine q₂.machine := by
    refine (yes.captures (offers true) arranged at_t size).congr fun captured o lt => ?_
    refine no.other _ (Machine.cell_ne_closures near_e ?_ lt).symm fun _ o' lt' same => ?_
    · rw [through₁.closure]
      exact free.first
    · -- the second closure is another one
      have apart := free.apart
      rw [yes.pool, if_neg (by simpa using captured)] at same
      injection same with same
      omega
  have captures_no : s.Captures (literals false) q₁.machine.pool.alloc.1 r.machine q₂.machine := by
    refine (no.captures (offers false) arranged at_e (by omega)).of_words (offers false) arranged
      fun x hx => ?_
    exact yes.wordOf through₁ hx.near (hx.ne at_t size) near_t free.first
  refine (passes_of_makes (makes_between at_t at_e below file_c) not_false).mono ?_
  rintro _ _ q₃ _ - ⟨beside, after, shows_, rfl, value⟩
  have found := Machine.wordOf_of_shows beside shows_ near_t
  rw [word_t, Option.map_some, value, Machine.file_of_wordOf word_t, Machine.file_of_wordOf word_e]
    at found
  refine ⟨near_t, ?_⟩
  cases b with
  | true =>
    rw [if_pos rfl] at found
    refine ⟨_, found, captures_yes.congr fun _ o lt => beside.closures ?_ lt⟩
    rw [through₂.closure, through₁.closure]
    exact free.first
  | false =>
    rw [if_neg (by decide)] at found
    refine ⟨_, found, captures_no.congr fun _ o lt => beside.closures ?_ lt⟩
    rw [through₂.closure]
    exact free₂

/-- The word of the arm that the condition chooses is found, on either path. -/
theorem passes_select {cond : Expr} (offers : ∀ b, s.Offers labels (literals b) (marks b))
    (arranged : s.scope.Arranged) (spans : Bool → Span) (arrow : Arrow)
    (size : s.scope.size ≤ watermark) (free : r.machine.SparesTwo) (integral : cond.Integral s.scope)
    {v : Int32} (value : cond.value (s.read r.machine.file) = some v) :
    Passes labels (select s cond arrow (lower s cond)
      (fun t _ => function s (literals true) (spans true) t)
      fun t _ => function s (literals false) (spans false) t) watermark r fun t _ q =>
        t.Near ∧ ∃ k, q.machine.wordOf t =
            some (s.functionWord (literals (decide (v ≠ 0))) k (marks (decide (v ≠ 0))).address) ∧
          s.Captures (literals (decide (v ≠ 0))) k r.machine q.machine := by
  refine passes_bind (passes_lift fun constant known => ?_)
  cases constant with
  | some word =>
    rw [integral.value_of_constant? known] at value
    cases value
    have chosen : (if v ≠ 0 then (fun t (_ : Ty) => function s (literals true) (spans true) t)
        else fun t _ => function s (literals false) (spans false) t) =
          fun t _ => function s (literals (decide (v ≠ 0))) (spans (decide (v ≠ 0))) t := by
      by_cases zero : v = 0 <;> simp [zero]
    dsimp only
    rw [chosen]
    refine (passes_arm (offers _) arranged.toKeepsBanks (spans _) arrow free.first).mono ?_
    rintro t _ q _ through ⟨at_t, rfl, made⟩
    exact ⟨.inl at_t.1, _, made.wordOf_self through (.inl at_t.1),
      made.captures (offers _) arranged at_t size⟩
  | none =>
    have made := makes_truth r.machine.file arranged integral (lowers_of_integral arranged integral) size
    rw [value] at made
    refine passes_bind ((passes_of_makes made (by simp)).mono ?_)
    rintro c w q _ through ⟨beside, after, shows_, le, below, keeps, word, same, truth⟩
    cases same
    have free' : q.machine.SparesTwo :=
      ⟨by rw [beside.pool, beside.closure]; exact free.first,
        by rw [beside.pool, beside.closure]; exact free.second, by rw [beside.pool]; exact free.apart⟩
    refine (passes_blend offers arranged spans arrow (Nat.le_trans size le) free' below
      ((shows_ c below.near).trans truth)).mono ?_
    rintro t _ q' _ - ⟨near, k, found, captures⟩
    refine ⟨near, k, found, captures.of_words (offers _) arranged fun x hx => ?_⟩
    exact Machine.wordOf_of_kept beside shows_ hx.near (keeps x (hx.mono size))

end Emit

/-! ## Arms of a resolved program -/

namespace ScopeTree

/-- The function that an arm became: one without inputs, with the arm for a body. -/
def IsThunk (tree : ScopeTree) (literal : FunctionLiteral) : Prop :=
  literal.labels = [] ∧ ∃ arm, (tree.scope literal.scope).body = [arm]

theorem Renumbers.isThunk {first second : ScopeTree} (renumbers : first.Renumbers second) {e e' : Expr}
    (arm : first.IsArm e') (same : e'.unnumbered = e.unnumbered) :
    ∃ literal span, e = .function literal span ∧ second.IsThunk literal := by
  cases e' with
  | function literal' span' =>
    obtain ⟨labels, -, arm, body⟩ := arm
    cases e with
    | function literal span =>
      simp only [Expr.unnumbered, Expr.function.injEq, FunctionLiteral.mk.injEq, true_and] at same
      have bodies := renumbers.body literal.scope
      rw [← same.1.2, body, List.map_singleton, List.map_eq_singleton_iff] at bodies
      obtain ⟨inner, body', -⟩ := bodies
      rw [same.1.2] at body'
      exact ⟨literal, span, rfl, same.1.1.symm.trans labels, inner, body'⟩
    | _ => simp [Expr.unnumbered] at same
  | _ => exact arm.elim

/-- The arms of a choice in a resolved program are two functions of it. -/
theorem arms_of_resolved {tree : ScopeTree} (resolved : tree.Resolved) {id : ScopeId}
    {e cond arms : Expr} {span : Span} (mem : e ∈ (tree.scope id).body)
    (node : .binary .choose cond arms span ∈ e.nodes) :
    ∃ a yes s₁ b no s₂ s₃, arms = .tuple [⟨a, .function yes s₁⟩, ⟨b, .function no s₂⟩] s₃ ∧
      tree.IsThunk yes ∧ tree.IsThunk no ∧ yes ∈ literalsOf (tree.scope id).body ∧
      no ∈ literalsOf (tree.scope id).body := by
  obtain ⟨tokens, parsed, hp, hr⟩ := resolved
  have read := Grammar.readProgram_read hp
  obtain ⟨plain, desugars, renumbers⟩ := renumbers_resolve hr
  obtain ⟨e', mem', n', node', same⟩ := renumbers.node mem node
  obtain ⟨ids, below, perm⟩ := (read.desugar desugars).owns
  have free := read.sugarFree desugars ((below.formed perm).occurs mem' node')
  obtain ⟨cond', arms', rfl, -, sameArms⟩ := Expr.unnumbered_eq_binary same
  obtain ⟨yes', no', s₃', rfl⟩ := free.isPair.eq
  have pair : arms.IsPair := by
    rw [← Expr.isPair_unnumbered, ← sameArms]
    trivial
  obtain ⟨⟨a, yes⟩, ⟨b, no⟩, s₃, rfl⟩ := pair.eq
  simp only [Expr.unnumbered, Expr.unnumberedFields, Expr.tuple.injEq, List.cons.injEq,
    Labelled.mk.injEq] at sameArms
  obtain ⟨yes, s₁, rfl, yesThunk⟩ := renumbers.isThunk free.1 sameArms.1.1.2
  obtain ⟨no, s₂, rfl, noThunk⟩ := renumbers.isThunk free.2 sameArms.1.2.1.2
  have listed (literal : FunctionLiteral) (s : Span) (part : .function literal s ∈
      (Expr.binary .choose cond (.tuple [⟨a, .function yes s₁⟩, ⟨b, .function no s₂⟩] s₃) span).nodes) :
      literal ∈ literalsOf (tree.scope id).body := by
    refine List.mem_flatMap.mpr ⟨e, mem, ?_⟩
    rw [Expr.literals_eq]
    exact List.mem_filterMap.mpr ⟨_, Expr.nodes_trans part e node, rfl⟩
  exact ⟨a, yes, s₁, b, no, s₂, s₃, rfl, yesThunk, noThunk,
    listed yes s₁ (by simp [Expr.nodes, Expr.nodesOfFields]),
    listed no s₂ (by simp [Expr.nodes, Expr.nodesOfFields])⟩

end ScopeTree

/-- A choice of a resolved program, lowered from any state with two closures left, makes one call: of
the first arm if the condition is not zero, of the second if it is. The instructions before it only
compute words, and so do those behind it. The word that is called is that of the arm's function, which
is entered with the words that the captured variables had before the choice. It is so whether the
condition is constant or not, since the word computed from those of both arms is the one or the other,
whatever they are. -/
theorem choice_calls_arm {tree : ScopeTree} {program : Program} (resolved : tree.Resolved)
    (l : Laid tree program) {id : ScopeId} {e cond arms : Expr} {span : Span}
    (mem : e ∈ (tree.scope id).body) (node : .binary .choose cond arms span ∈ e.nodes)
    (integral : cond.Integral (tree.scope id)) {dst : Register} {ty : Ty} {watermark : Nat}
    (size : (tree.scope id).size ≤ watermark) {result : Emission Unit}
    (emitted : lower ⟨tree, id⟩ (.binary .choose cond arms span) dst ty watermark = .ok result)
    {code : List Instruction} (links : result.code.mapM (link program.labels) = .ok code) {r : Run}
    (ahead : r.machine.Ahead code) {v : Int32}
    (value : cond.value (Site.read ⟨tree, id⟩ r.machine.file) = some v) (free : r.machine.SparesTwo) :
    ∃ yes no : FunctionLiteral,
      (∃ a s₁ b s₂ s₃, arms = .tuple [⟨a, .function yes s₁⟩, ⟨b, .function no s₂⟩] s₃) ∧
      tree.IsThunk yes ∧ tree.IsThunk no ∧
      (∀ t e : Int32, (t - e) * truthWord (decide (v ≠ 0)) + e = if v ≠ 0 then t else e) ∧
      ∃ before call after, code = before ++ call :: after ∧ call.op = .callRegister ∧
        (∀ i ∈ before ++ after, i.op.Computes) ∧
        ∃ (f : Function) (address : UInt16), l.Entry f address ∧
          f.id = (if v ≠ 0 then yes else no).id ∧ f.scope = (if v ≠ 0 then yes else no).scope ∧
          r.Gets before.length fun s => ∃ (k : UInt8) (word : Int32) (body : Run),
            word = (if (tree.scope f.scope).closure = [] then Int32.ofNat address.toNat
              else (UInt32.ofNat (k.toNat <<< 24 ||| address.toNat)).toInt32) ∧
            s.machine.instruction? = some call ∧ s.machine.read? call.y = some word ∧
            Exec.tick .none s = .ok false body ∧ body.machine.pc = address.toNat ∧
            ∀ v ∈ (tree.scope f.scope).closure, ∀ j < v.ty.size, ∃ u t,
              (tree.scope id).local? v.name = some u ∧ u.ty = v.ty ∧ u.part j = .ok t ∧
              body.machine.register? .closure (v.offset + j) = r.machine.wordOf t := by
  obtain ⟨a, yes, s₁, b, no, s₂, s₃, rfl, yesThunk, noThunk, yesListed, noListed⟩ :=
    ScopeTree.arms_of_resolved resolved mem node
  refine ⟨yes, no, ⟨a, s₁, b, s₂, s₃, rfl⟩, yesThunk, noThunk,
    fun t e => by simpa using blend_words t e (decide (v ≠ 0)), ?_⟩
  let literals : Bool → FunctionLiteral := fun b => if b then yes else no
  let spans : Bool → Span := fun b => if b then s₁ else s₂
  have listed (b : Bool) : literals b ∈ literalsOf (tree.scope id).body := by
    cases b
    · exact noListed
    · exact yesListed
  choose f mark entry number scope found using fun b => l.entry_of_literal resolved (listed b)
  have arranged := arranged_of_resolved resolved id
  have offers (b : Bool) : Site.Offers ⟨tree, id⟩ program.labels (literals b) (mark b) :=
    ⟨found b, (ScopeTree.rowed_of_resolved resolved (literals b).scope).closure_row,
      fun v hv u known => ScopeTree.captured_of_literal resolved (listed b) hv known⟩
  have lowers (literal : FunctionLiteral) (s : Span) : lower ⟨tree, id⟩ (.function literal s) =
      fun t _ => function ⟨tree, id⟩ literal s t := by
    funext t ty
    rw [lower]
  rw [lower] at emitted
  obtain ⟨arrow, word, frame, copies, hw, small, code_eq, moves⟩ := choose_ok emitted
  rw [lowers, lowers] at hw
  have computes := computes_of_select (s := ⟨tree, id⟩) arranged integral
    (fun t _ => emits_function _ yes s₁ t) (fun t _ => emits_function _ no s₂ t) size r.machine.file value hw
  have passes := passes_select (s := ⟨tree, id⟩) offers arranged spans arrow size free integral value
  rw [code_eq] at links
  obtain ⟨before, tail, front, back, rfl⟩ := mapM_append_ok links
  rw [List.mapM_cons] at back
  obtain ⟨call, hcall, back⟩ := except_bind_ok back
  obtain ⟨after, behind, back⟩ := except_bind_ok back
  cases back
  cases hcall
  have quiet : ∀ i ∈ before ++ after, i.op.Computes := by
    intro i hi
    rcases List.mem_append.mp hi with hi | hi
    · exact computes_of_linked front computes i hi
    · exact computes_of_linked behind (fun e he => .inl (by rw [moves e he]; rfl)) i hi
  refine ⟨before, _, after, rfl, rfl, quiet, f (decide (v ≠ 0)), _, entry _, ?_, ?_, ?_⟩
  · simpa [literals] using number (decide (v ≠ 0))
  · simpa [literals] using scope (decide (v ≠ 0))
  · refine (passes word before hw front ahead.front).mono ?_
    rintro s through ⟨near, k, found, captures⟩
    have here := (through.ahead ahead).instruction?
    have read : s.machine.read? (Instruction.mk .callRegister (UInt8.ofNat frame)
        (UInt16.ofNat word.value.toByte.toNat)).y = s.machine.wordOf word.value := by
      rw [(Laid.callRegister_fields small word.value).2, Machine.read?, Register.ofByte_toByte]
      rfl
    rw [found] at read
    obtain ⟨body, step, pc, words⟩ := Site.enters (q := s.charge _)
      (show (Instruction.mk .callRegister (UInt8.ofNat frame) _).op = .callRegister from rfl) read
      fun v hv => (captures v hv).congr fun _ _ => rfl
    refine ⟨k, _, body, ?_, here, read, ?_, pc, fun u hu j small => ?_⟩
    · simp only [Site.functionWord, scope, List.isEmpty_iff, FunctionWord.word_eq_or]
    · rw [Exec.tick_of_instruction here rfl, step]
    · rw [scope] at hu
      obtain ⟨x, t, known, part, same⟩ := words u hu j small
      exact ⟨x, t, known, ScopeTree.captured_of_literal resolved (listed _) hu known, part, same⟩

/-- The condition and the arms of a choice, and where it stands. -/
def Expr.choice? : Expr → Option (Expr × Expr × Span)
  | .binary .choose cond arms span => some (cond, arms, span)
  | _ => none

theorem Expr.eq_of_choice? {e cond arms : Expr} {span : Span} (h : e.choice? = some (cond, arms, span)) :
    e = .binary .choose cond arms span := by
  unfold choice? at h
  split at h
  · cases h
    rfl
  · cases h

open Exec Relation in
/-- With 5 in `a` the condition is worth 5, so the first arm is called, which captures `a`. -/
theorem choice_calls_arm_captured : ∃ c r s count call body,
    compileSource "[ a: int = 5; [ r: int = a ? (a + 1, 9)" = .ok c ∧
      ReflTransGen (Goes .none c.program.code) c.program.start r ∧ r.Through s count ∧
      s.machine.instruction? = some call ∧ call.op = .callRegister ∧
      tick .none s = .ok false body ∧ body.machine.pc = 2 ∧
      body.machine.register? .closure 0 = some 5 := by
  have found : (do
      let c ← (compileSource "[ a: int = 5; [ r: int = a ? (a + 1, 9)").toOption
      let r ← goes? .none c.program.code 1 c.program.start
      let e ← (c.tree.scope 0).body[1]?
      let a ← (c.tree.scope 0).local? "a"
      let value ← e.parts[0]?
      let choice ← value.choice?
      let result ← (lower ⟨c.tree, 0⟩ (.binary .choose choice.1 choice.2.1 choice.2.2) ⟨.window, 1⟩ .int
        (c.tree.scope 0).size).toOption
      let code ← (result.code.mapM (link c.program.labels)).toOption
      let yes ← choice.2.1.literals[0]?
      let v ← (c.tree.scope yes.scope).closure[0]?
      let u ← (c.tree.scope 0).local? v.name
      if a.ty.isIntegral = true ∧ choice.1.asName? = some "a" ∧
        choice.1.value (Site.read ⟨c.tree, 0⟩ r.machine.file) = some 5 ∧
        (yes.id, v.offset, v.ty.size) = (0, 0, 1) ∧ (u.part 0).toOption = some ⟨.window, 0⟩ ∧
        r.machine.wordOf ⟨.window, 0⟩ = some 5 ∧ r.machine.pool.alloc.1 = 1 ∧
        r.machine.pool.alloc.2.alloc.1 = 2 ∧ r.machine.closure = 0 ∧
        r.machine.top + 64 ≤ stackSize ∧ c.program.labels = [⟨1, "", 0⟩, ⟨0, "", 2⟩] ∧
        c.program.code.take r.machine.pc ++ code ++
          c.program.code.drop (r.machine.pc + code.length) = c.program.code ∧
        (c.program.code.take r.machine.pc).length = r.machine.pc then some ()
      else none) = some () := by decide +kernel
  obtain ⟨c, hc, found⟩ := Option.bind_eq_some_iff.mp found
  obtain ⟨r, hr, found⟩ := Option.bind_eq_some_iff.mp found
  obtain ⟨e, he, found⟩ := Option.bind_eq_some_iff.mp found
  obtain ⟨a, ha, found⟩ := Option.bind_eq_some_iff.mp found
  obtain ⟨value, part, found⟩ := Option.bind_eq_some_iff.mp found
  obtain ⟨⟨cond, arms, span⟩, chosen, found⟩ := Option.bind_eq_some_iff.mp found
  obtain ⟨result, emitted, found⟩ := Option.bind_eq_some_iff.mp found
  obtain ⟨code, links, found⟩ := Option.bind_eq_some_iff.mp found
  obtain ⟨yes, hy, found⟩ := Option.bind_eq_some_iff.mp found
  obtain ⟨v, hv, found⟩ := Option.bind_eq_some_iff.mp found
  obtain ⟨u, hu, found⟩ := Option.bind_eq_some_iff.mp found
  split at found
  · rename_i facts
    obtain ⟨integral, named, worth, places, placed, five, first, second, closure, fits, labels, cut,
      front⟩ := facts
    obtain ⟨span', rfl⟩ := asName?_some named
    obtain rfl := Expr.eq_of_choice? chosen
    simp only [Prod.mk.injEq] at places
    obtain ⟨number, offset, size⟩ := places
    have source := toOption_eq_some hc
    obtain ⟨resolved, compiled⟩ := compileSource_ok source
    obtain ⟨l⟩ := compile_ok compiled
    have reached := run_of_goes? hr
    have ahead : r.machine.Ahead code := ahead_of_reached resolved compiled reached cut front
    have free : r.machine.SparesTwo := by
      refine ⟨?_, ?_, ?_⟩ <;> simp only [first, second, closure] <;> decide
    have node : .binary .choose (.name "a" span') arms span ∈ e.nodes :=
      Expr.mem_nodes_part (List.mem_of_getElem? part) (Expr.mem_nodes_self _)
    obtain ⟨yes', no', ⟨_, _, _, _, _, rfl⟩, -, -, -, before, call, after, -, op, -, f, address, entry,
      id_eq, scope_eq, gets⟩ := choice_calls_arm resolved l (List.mem_of_getElem? he) node
        (.name _ ha integral) (Nat.le_refl _) (toOption_eq_some emitted) (toOption_eq_some links) ahead
        worth free
    rw [if_pos (by decide)] at id_eq scope_eq
    obtain rfl : yes' = yes := by simpa [Expr.literals, Expr.literalsOfFields] using hy
    have address_eq : address = 2 := by
      have label := entry.label
      rw [labels, id_eq, number, List.mem_pair] at label
      rcases label with first | second
      · injection first with one
        cases one
      · injection second
    obtain ⟨s, through, k, word, body, -, here, -, ticked, pc, words⟩ :=
      gets.through ⟨fits, by rw [closure]; decide⟩
    obtain ⟨u', t, known, -, part', same⟩ :=
      words v (by rw [scope_eq]; exact List.mem_of_getElem? hv) 0 (by omega)
    rw [hu] at known
    cases known
    rw [toOption_eq_some placed] at part'
    cases part'
    rw [offset] at same
    exact ⟨c, r, s, _, call, body, source, reached, through, here, op, ticked,
      pc.trans (by rw [address_eq]; rfl), same.trans five⟩
  · cases found

end WindowedClosures
