import Mathlib.Data.List.Forall2
import WindowedClosures.Proofs.Machine.Windows
import WindowedClosures.Proofs.Scope.Ownership

/-!
# The blocks of a program

Cut at its labels and at its entry, the code of a program falls into the code of its functions, the
last of the list first, and that of its own body. Every block ends in its only return, and wherever
the code makes the value of a literal stands the address of the block of that literal.
-/

namespace WindowedClosures

open Emit

variable {α : Type}

/-- The pieces of a list between cuts, the last one up to its end. -/
def pieces (xs : List α) : List Nat → List (List α)
  | [] => []
  | [start] => [xs.drop start]
  | start :: stop :: rest => (xs.drop start).take (stop - start) :: pieces xs (stop :: rest)

/-- Where lists that lie one behind the other start. -/
def starts (first : Nat) : List (List α) → List Nat
  | [] => []
  | xs :: rest => first :: starts (first + xs.length) rest

/-- Cut where they start, lists one behind the other fall apart again. -/
theorem pieces_flatten (before : List α) (lists : List (List α)) :
    pieces (before ++ lists.flatten) (starts before.length lists) = lists := by
  induction lists generalizing before with
  | nil => rfl
  | cons xs rest ih =>
    cases rest with
    | nil => simp [starts, pieces]
    | cons ys rest =>
      have next := ih (before ++ xs)
      rw [List.append_assoc, List.length_append] at next
      rw [starts, starts, pieces, List.flatten_cons, List.drop_left, Nat.add_sub_cancel_left,
        List.take_left]
      exact congrArg _ next

theorem starts_ge (first : Nat) (lists : List (List α)) : ∀ n ∈ starts first lists, first ≤ n := by
  induction lists generalizing first with
  | nil => simp [starts]
  | cons xs rest ih =>
    intro n hn
    rcases List.mem_cons.mp hn with rfl | hn
    · exact Nat.le_refl _
    · exact Nat.le_trans (Nat.le_add_right _ _) (ih _ n hn)

theorem starts_increase (first : Nat) {lists : List (List α)} (h : ∀ xs ∈ lists, xs ≠ []) :
    (starts first lists).Pairwise (· < ·) := by
  induction lists generalizing first with
  | nil => exact .nil
  | cons xs rest ih =>
    refine .cons (fun n hn => ?_) (ih _ fun ys hy => h ys (by simp [hy]))
    have later := starts_ge _ rest n hn
    have long := List.length_pos_of_ne_nil (h xs (by simp))
    omega

theorem starts_congr {β : Type} (first : Nat) {lists : List (List α)} {others : List (List β)}
    (h : List.Forall₂ (fun xs ys => ys.length = xs.length) lists others) :
    starts first others = starts first lists := by
  induction h generalizing first with
  | nil => rfl
  | cons same _ ih => rw [starts, starts, same, ih]

/-- A loop over lists one behind the other is a loop over each of them. -/
theorem mapM_flatten_ok {ε β : Type} {f : α → Except ε β} {lists : List (List α)} {results : List β}
    (h : lists.flatten.mapM f = .ok results) :
    ∃ parts, List.Forall₂ (fun xs ys => xs.mapM f = .ok ys) lists parts ∧
      results = parts.flatten := by
  induction lists generalizing results with
  | nil =>
    cases h
    exact ⟨[], .nil, rfl⟩
  | cons xs rest ih =>
    rw [List.flatten_cons, List.mapM_append] at h
    obtain ⟨ys, here, h⟩ := except_bind_ok h
    obtain ⟨others, later, h⟩ := except_bind_ok h
    cases h
    obtain ⟨parts, each, rfl⟩ := ih later
    exact ⟨ys :: parts, .cons here each, rfl⟩

theorem forall₂_mem_right {β : Type} {R : α → β → Prop} {xs : List α} {ys : List β}
    (h : List.Forall₂ R xs ys) : ∀ y ∈ ys, ∃ x ∈ xs, R x y := by
  induction h with
  | nil => simp
  | cons first _ ih =>
    intro y hy
    rcases List.mem_cons.mp hy with rfl | hy
    · exact ⟨_, by simp, first⟩
    · obtain ⟨x, hx, related⟩ := ih y hy
      exact ⟨x, by simp [hx], related⟩

/-! ## Functions and their blocks -/

theorem layBlocks_codes {tree : ScopeTree} {functions : List Function} {start stop : Nat}
    {blocks : List Block} (h : layBlocks tree start functions = .ok (blocks, stop)) :
    List.Forall₂ (fun scope code => scopeCode tree scope = .ok code) (functions.map (·.scope))
      (blocks.map (·.code)) := by
  induction functions generalizing start blocks with
  | nil =>
    cases h
    exact .nil
  | cons f rest ih =>
    obtain ⟨address, -, h⟩ := except_bind_ok h
    obtain ⟨code, hc, h⟩ := except_bind_ok h
    obtain ⟨⟨others, last⟩, ho, h⟩ := except_bind_ok h
    cases h
    exact .cons hc (ih ho)

/-- The addresses of the labels are where the blocks start, and behind them starts the body. -/
theorem layBlocks_starts {tree : ScopeTree} {functions : List Function} {start stop : Nat}
    {blocks : List Block} (h : layBlocks tree start functions = .ok (blocks, stop))
    (body : List Emitted) :
    (blocks.map (·.label)).map (·.address.toNat) ++ [stop] =
      starts start (blocks.map (·.code) ++ [body]) := by
  induction functions generalizing start blocks with
  | nil =>
    cases h
    rfl
  | cons f rest ih =>
    obtain ⟨address, ha, h⟩ := except_bind_ok h
    obtain ⟨code, -, h⟩ := except_bind_ok h
    obtain ⟨⟨others, last⟩, ho, h⟩ := except_bind_ok h
    cases h
    obtain ⟨lt, rfl⟩ := codeAddress_ok ha
    simp only [List.map_cons, List.cons_append, starts, ih ho, UInt16.toNat_ofNat',
      Nat.mod_eq_of_lt lt]

/-- Where the code of a program is cut: at its labels, and at the address in its marker. -/
def Program.cuts (p : Program) : List Nat :=
  p.labels.map (·.address.toNat) ++ p.entry?.toList.map (·.toNat)

/-- How the code of a scope tree lies in its program. -/
structure Arranged (tree : ScopeTree) (program : Program) : Prop where
  small : program.instructions.length ≤ 65535
  /-- The last instruction is the marker. -/
  marker : ∃ entry, program.entry? = some entry ∧
    program.instructions = program.code ++ [⟨.call, 0, entry⟩]
  no_call : ∀ i ∈ program.code, i.op ≠ .call
  labels : program.labels.map (fun l => (l.id, l.name)) =
    tree.functions.reverse.map fun f => (f.id, f.name)
  distinct : (program.labels.map (·.id)).Nodup
  first : program.cuts.head? = some 0
  increase : program.cuts.Pairwise (· < ·)
  /-- Between the cuts lies the linked code of the functions and of the program. -/
  blocks : ∃ codes,
    List.Forall₂ (fun scope code => scopeCode tree scope = .ok code)
      (tree.functions.reverse.map (·.scope) ++ [ScopeTree.rootId]) codes ∧
    List.Forall₂ (fun code piece => code.mapM (link program.labels) = .ok piece) codes
      (pieces program.code program.cuts)
  returns : ∀ piece ∈ pieces program.code program.cuts,
    ∃ body, piece = body ++ [⟨.ret, 0, 0⟩] ∧ ∀ i ∈ body, i.op ≠ .ret
  /-- The value of a literal is made by its first instruction, which asks for the literal's
  function. -/
  values : ∀ (s : Site) (literal : FunctionLiteral) (span : Span) (dst : Register) (watermark : Nat)
    (result : Emission Unit), Emit.function s literal span dst watermark = .ok result →
    ∃ op rest, op ∈ [.loadLow, .closureMake] ∧
      result.code = ⟨.wide op dst 0, some literal.id, none⟩ :: rest ∧ ∀ e ∈ rest, e.target = none
  /-- Nothing else asks for a function or makes a closure, and linking fills in the address. -/
  requests : ∀ (id : Nat) (code : List Emitted), scopeCode tree id = .ok code → ∀ e ∈ code,
    (e.instruction.op = .closureMake → e.target.isSome) ∧ ∀ i, e.target = some i →
      (∃ literal ∈ literalsOf (tree.scope id).body, literal.id = i) ∧
      e.instruction.op ∈ [.loadLow, .closureMake] ∧
      ∃ label ∈ program.labels, label.id = i ∧
        link program.labels e = .ok { e.instruction with yz := label.address }

/-- The code of a function value. -/
theorem Emit.function_ok {s : Site} {literal : FunctionLiteral} {span : Span} {dst : Register}
    {watermark : Nat} {result : Emission Unit}
    (h : Emit.function s literal span dst watermark = .ok result) :
    ∃ op rest, op ∈ [.loadLow, .closureMake] ∧
      result.code = ⟨.wide op dst 0, some literal.id, none⟩ :: rest ∧ ∀ e ∈ rest, e.target = none := by
  unfold Emit.function at h
  split at h
  · exact (fail_ok h).elim
  · dsimp only at h
    split at h
    · rw [pushFor_ok h]
      exact ⟨.loadLow, [], by simp, rfl, by simp⟩
    · obtain ⟨first, second, made, filled, rfl⟩ := bind_ok h
      rw [pushFor_ok made]
      -- what fills the closure only moves registers
      have mild : Mild (fun e => e.target = none) fun _ => False :=
        ⟨fun _ _ _ => rfl, fun _ _ => not_false⟩
      have place : Spares (fun _ => False) span := fun _ _ _ => not_false
      have clean := clean_forM (s.tree.scope literal.scope).closure fun v _ =>
        (clean_bind (clean_lift (s.lookup_avoids place v.name)) fun u =>
          clean_bind (clean_register mild u.register) fun origin =>
            clean_bind (clean_register mild (Register.ofOffset .aux v.offset)) fun slot =>
              clean_copyFrom mild slot origin 0 v.ty.size)
      exact ⟨.closureMake, second.code, by simp, rfl, (clean.emits _ _ filled).1⟩

namespace Laid

variable {tree : ScopeTree} {program : Program}

theorem instructions_eq (l : Laid tree program) :
    program.instructions = l.linked ++ [⟨.call, 0, UInt16.ofNat l.entry⟩] :=
  congrArg (·.instructions) l.program_eq

theorem entry?_eq (l : Laid tree program) : program.entry? = some (UInt16.ofNat l.entry) := by
  simp [Program.entry?, l.instructions_eq]

/-- The codes of the functions as they lie in the program, and of its body. -/
def codes (l : Laid tree program) : List (List Emitted) := l.blocks.map (·.code) ++ [l.body]

theorem scopes_codes (l : Laid tree program) :
    List.Forall₂ (fun scope code => scopeCode tree scope = .ok code)
      (tree.functions.reverse.map (·.scope) ++ [ScopeTree.rootId]) l.codes :=
  List.rel_append (layBlocks_codes l.functions) (.cons l.main .nil)

theorem cuts_eq (l : Laid tree program) : program.cuts = starts 0 l.codes := by
  rw [Program.cuts, l.entry?_eq, l.labels_eq]
  simp only [Option.toList_some, List.map_cons, List.map_nil, UInt16.toNat_ofNat',
    Nat.mod_eq_of_lt l.entry_lt]
  exact layBlocks_starts l.functions l.body

/-- The pieces of the program are the codes, linked. -/
theorem pieces_linked (l : Laid tree program) :
    List.Forall₂ (fun code piece => code.mapM (link program.labels) = .ok piece) l.codes
      (pieces program.code program.cuts) := by
  have links := l.links
  have flat : l.blocks.flatMap (·.code) ++ l.body = l.codes.flatten := by
    simp [codes, List.flatMap]
  rw [flat, ← l.labels_eq] at links
  obtain ⟨parts, each, eq⟩ := mapM_flatten_ok links
  have same : starts 0 parts = starts 0 l.codes :=
    starts_congr 0 (each.imp fun _ _ h => (mapM_ok h).1)
  have cut := pieces_flatten [] parts
  rw [List.nil_append, List.length_nil, same, ← eq, ← l.code_eq, ← l.cuts_eq] at cut
  rw [cut]
  exact each

end Laid

/-- An instruction that asks for a function with a label gets its address. -/
theorem link_target {labels : List Label} {e : Emitted} {i : Nat} (h : i ∈ labels.map (·.id))
    (target : e.target = some i) :
    ∃ label ∈ labels, label.id = i ∧ link labels e = .ok { e.instruction with yz := label.address } := by
  unfold link
  rw [target]
  cases found : labels.find? (·.id == i) with
  | none =>
    obtain ⟨label, hl, eq⟩ := List.mem_map.mp h
    have differs := List.find?_eq_none.mp found label hl
    simp [eq] at differs
  | some label =>
    have number := List.find?_some found
    exact ⟨label, List.mem_of_find?_eq_some found, by simpa using number, by simp only [found]⟩

/-- A linked body and its return. -/
theorem linked_returns {labels : List Label} {tree : ScopeTree} {literals : List FunctionLiteral}
    {body : List Emitted} {piece : List Instruction} (asks : ∀ e ∈ body, Asks tree literals e)
    (h : (body ++ [(⟨⟨.ret, 0, 0⟩, none, none⟩ : Emitted)]).mapM (link labels) = .ok piece) :
    ∃ init, piece = init ++ [⟨.ret, 0, 0⟩] ∧ ∀ i ∈ init, i.op ≠ .ret := by
  rw [List.mapM_append] at h
  obtain ⟨init, hi, h⟩ := except_bind_ok h
  cases h
  refine ⟨init, rfl, fun i mem => ?_⟩
  obtain ⟨e, he, links⟩ := mapM_mem hi mem
  rw [(link_ok links).1]
  exact (asks e he).goes_on

/-- The code of a resolved program lies in blocks, and function values are addresses of blocks. -/
theorem code_arranged {tree : ScopeTree} {program : Program} (hr : tree.Resolved)
    (hc : tree.compile = .ok program) : Arranged tree program := by
  obtain ⟨l⟩ := compile_ok hc
  have indexed := hr.indexed
  have labels : program.labels.map (fun l => (l.id, l.name)) =
      tree.functions.reverse.map fun f => (f.id, f.name) := by
    rw [l.labels_eq]
    exact layBlocks_labels l.functions
  have numbers : program.labels.map (·.id) = tree.functions.reverse.map (·.id) := by
    have firsts := congrArg (List.map Prod.fst) labels
    rwa [List.map_map, List.map_map] at firsts
  have distinct : (program.labels.map (·.id)).Nodup := by
    have literals := (indexed.functions.map Prod.fst)
    rw [List.map_map, List.map_map] at literals
    rw [numbers, List.map_reverse, List.nodup_reverse]
    exact (literals.trans indexed.numbers).nodup_iff.mpr List.nodup_range
  have codes (code : List Emitted) (mem : code ∈ l.codes) : ∃ id, scopeCode tree id = .ok code := by
    obtain ⟨id, -, found⟩ := forall₂_mem_right l.scopes_codes code mem
    exact ⟨id, found⟩
  refine ⟨?_, ⟨_, l.entry?_eq, ?_⟩, ?_, labels, distinct, ?_, ?_, ⟨l.codes, l.scopes_codes,
    l.pieces_linked⟩, ?_, fun _ _ _ _ _ _ => Emit.function_ok, ?_⟩
  · have small := l.small
    rw [l.instructions_eq, List.length_append, l.length_linked]
    exact small
  · rw [l.code_eq, l.instructions_eq]
  · intro i mem eq
    have confined := (confined_of_compiled hr hc).2 i mem
    simp [Instruction.Confined, eq] at confined
  · rw [l.cuts_eq]
    cases found : l.codes with
    | nil => simp [Laid.codes] at found
    | cons first rest => rfl
  · rw [l.cuts_eq]
    refine starts_increase 0 fun code mem => ?_
    obtain ⟨id, found⟩ := codes code mem
    obtain ⟨body, rfl, -⟩ := indexed.asks found
    simp
  · intro piece mem
    obtain ⟨code, hcode, links⟩ := forall₂_mem_right l.pieces_linked piece mem
    obtain ⟨id, found⟩ := codes code hcode
    obtain ⟨body, rfl, asks⟩ := indexed.asks found
    exact linked_returns asks links
  · intro id code found e mem
    obtain ⟨body, rfl, asks⟩ := indexed.asks found
    rcases List.mem_append.mp mem with mem | mem
    · refine ⟨(asks e mem).makes, fun i target => ?_⟩
      obtain ⟨literal, hl, number, op⟩ := (asks e mem).target i target
      obtain ⟨f, hf, same, -⟩ := indexed.mem_functions hl
      have labelled : i ∈ program.labels.map (·.id) := by
        rw [numbers, ← number, ← same]
        exact List.mem_map_of_mem (by simpa using hf)
      refine ⟨⟨literal, hl, number⟩, ?_, ?_⟩
      · rw [op]
        split <;> simp
      · exact link_target labelled target
    · rw [List.mem_singleton.mp mem]
      simp

/-- One function that captures a variable and one that does not: the second of the list lies first,
and the program makes a closure for the one and loads the address of the other. -/
theorem code_arranged_two : ∃ c,
    compileSource "[ a: int = 1; [ f: int > int = \\x > \x7b x + a \x7d;
      [ g: int > int = \\x > \x7b x \x7d; [ r: int = f # (g # 2)" = .ok c ∧ Arranged c.tree c.program ∧
      c.program.labels = [⟨1, "g", 0⟩, ⟨0, "f", 2⟩] ∧ c.program.cuts = [0, 2, 4] ∧
      c.program.code[5]? = some (.wide .closureMake ⟨.window, 1⟩ 2) ∧
      c.program.code[7]? = some (.wide .loadLow ⟨.window, 2⟩ 0) := by
  have found : (do
      let c ← (compileSource "[ a: int = 1; [ f: int > int = \\x > \x7b x + a \x7d;
      [ g: int > int = \\x > \x7b x \x7d; [ r: int = f # (g # 2)").toOption
      if c.program.labels = [⟨1, "g", 0⟩, ⟨0, "f", 2⟩] ∧ c.program.cuts = [0, 2, 4] ∧
        c.program.code[5]? = some (.wide .closureMake ⟨.window, 1⟩ 2) ∧
        c.program.code[7]? = some (.wide .loadLow ⟨.window, 2⟩ 0) then some ()
      else none) = some () := by decide +kernel
  obtain ⟨c, hc, found⟩ := Option.bind_eq_some_iff.mp found
  split at found
  · rename_i facts
    have hc := toOption_eq_some hc
    obtain ⟨resolved, compiled⟩ := compileSource_ok hc
    exact ⟨c, hc, code_arranged resolved compiled, facts⟩
  · cases found

end WindowedClosures
