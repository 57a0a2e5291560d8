import WindowedClosures.Code.Layout
import WindowedClosures.Proofs.Outcome

/-!
# Where the code of a program lies

A program that was laid out is the code of its functions, block behind block, the code of its own
body and the marker. Linking changes the immediate of an instruction at most.
-/

namespace WindowedClosures

/-- The parts of a program as it was laid out. -/
structure Laid (tree : ScopeTree) (program : Program) where
  blocks : List Block
  body : List Emitted
  entry : Nat
  linked : List Instruction
  functions : layBlocks tree 0 tree.functions.reverse = .ok (blocks, entry)
  main : scopeCode tree ScopeTree.rootId = .ok body
  small : (blocks.flatMap (·.code) ++ body).length < 65535
  entry_lt : entry < 65536
  links : (blocks.flatMap (·.code) ++ body).mapM (link (blocks.map (·.label))) = .ok linked
  program_eq : program = ⟨linked ++ [⟨.call, 0, UInt16.ofNat entry⟩], blocks.map (·.label)⟩

namespace Laid

variable {tree : ScopeTree} {program : Program}

/-- The instructions before they were linked. -/
def code (l : Laid tree program) : List Emitted := l.blocks.flatMap (·.code) ++ l.body

theorem length_linked (l : Laid tree program) : l.linked.length = l.code.length :=
  (mapM_ok l.links).1

end Laid

theorem codeAddress_ok {n : Nat} {address : UInt16} (h : codeAddress n = .ok address) :
    n < 65536 ∧ address = UInt16.ofNat n := by
  unfold codeAddress at h
  split at h
  · rename_i hn
    cases h
    exact ⟨hn, rfl⟩
  · cases h

theorem compile_ok {tree : ScopeTree} {program : Program} (h : tree.compile = .ok program) :
    Nonempty (Laid tree program) := by
  unfold ScopeTree.compile at h
  obtain ⟨⟨blocks, entry⟩, hb, h⟩ := except_bind_ok h
  obtain ⟨address, he, h⟩ := except_bind_ok h
  obtain ⟨body, hm, h⟩ := except_bind_ok h
  dsimp only at h
  split at h
  · cases h
  · rename_i small
    obtain ⟨linked, hl, h⟩ := except_bind_ok h
    obtain ⟨entry_lt, rfl⟩ := codeAddress_ok he
    cases h
    exact ⟨⟨blocks, body, entry, linked, hb, hm, by omega, entry_lt, hl, rfl⟩⟩

/-- Linking keeps the operation and the first byte. -/
theorem link_ok {labels : List Label} {e : Emitted} {i : Instruction} (h : link labels e = .ok i) :
    i.op = e.instruction.op ∧ i.x = e.instruction.x := by
  unfold link at h
  split at h
  · cases h
    exact ⟨rfl, rfl⟩
  · split at h
    · cases h
      exact ⟨rfl, rfl⟩
    · cases h

/-- Instructions whose immediates are known stay as they are. -/
theorem mapM_link (labels : List Label) (code : List Instruction) :
    (code.map fun i => (⟨i, none, none⟩ : Emitted)).mapM (link labels) = .ok code := by
  induction code with
  | nil => rfl
  | cons i rest ih =>
    rw [List.map_cons, List.mapM_cons, ih]
    rfl

/-- What holds of the code of every function and of the program's own body holds of all code. -/
theorem Laid.forall_code {tree : ScopeTree} {program : Program} (l : Laid tree program)
    {P : Emitted → Prop} (h : ∀ id code, scopeCode tree id = .ok code → ∀ e ∈ code, P e) :
    ∀ e ∈ l.code, P e := by
  have blocks (functions : List Function) (start stop : Nat) (blocks : List Block)
      (hb : layBlocks tree start functions = .ok (blocks, stop)) :
      ∀ b ∈ blocks, ∀ e ∈ b.code, P e := by
    induction functions generalizing start blocks with
    | nil =>
      cases hb
      simp
    | cons f rest ih =>
      obtain ⟨address, ha, hb⟩ := except_bind_ok hb
      obtain ⟨code, hc, hb⟩ := except_bind_ok hb
      obtain ⟨⟨others, last⟩, ho, hb⟩ := except_bind_ok hb
      cases hb
      intro b hbm
      rcases List.mem_cons.mp hbm with rfl | hbm
      · exact h _ _ hc
      · exact ih _ _ ho b hbm
  intro e he
  rcases List.mem_append.mp he with he | he
  · obtain ⟨b, hb, he⟩ := List.mem_flatMap.mp he
    exact blocks _ _ _ _ l.functions b hb e he
  · exact h _ _ l.main e he

/-! ## Blocks and labels -/

/-- Blocks lie one behind the other, each under the label of its function. -/
theorem layBlocks_ok {tree : ScopeTree} {functions : List Function} {start stop : Nat}
    {blocks : List Block} (h : layBlocks tree start functions = .ok (blocks, stop)) :
    stop = start + (blocks.flatMap (·.code)).length ∧ ∀ before b after, blocks = before ++ b :: after →
      start + (before.flatMap (·.code)).length < 65536 ∧ ∃ f ∈ functions,
        b.label = ⟨f.id, f.name, UInt16.ofNat (start + (before.flatMap (·.code)).length)⟩ ∧
          scopeCode tree f.scope = .ok b.code := by
  induction functions generalizing start blocks with
  | nil =>
    cases h
    simp
  | cons f rest ih =>
    obtain ⟨address, ha, h⟩ := except_bind_ok h
    obtain ⟨code, hc, h⟩ := except_bind_ok h
    obtain ⟨⟨others, last⟩, ho, h⟩ := except_bind_ok h
    cases h
    obtain ⟨lt, rfl⟩ := codeAddress_ok ha
    obtain ⟨behind, each⟩ := ih ho
    refine ⟨by rw [behind, List.flatMap_cons, List.length_append, ← Nat.add_assoc], ?_⟩
    intro before b after eq
    cases before with
    | nil =>
      injection eq with first
      subst first
      exact ⟨lt, f, by simp, rfl, hc⟩
    | cons first before =>
      injection eq with first eq
      subst first
      obtain ⟨small, g, hg, label, found⟩ := each before b after eq
      rw [List.flatMap_cons, List.length_append, ← Nat.add_assoc]
      exact ⟨small, g, by simp [hg], label, found⟩

/-- The labels are those of the functions in order. -/
theorem layBlocks_labels {tree : ScopeTree} {functions : List Function} {start stop : Nat}
    {blocks : List Block} (h : layBlocks tree start functions = .ok (blocks, stop)) :
    (blocks.map (·.label)).map (fun l => (l.id, l.name)) =
      functions.map fun f => (f.id, f.name) := by
  induction functions generalizing start blocks with
  | nil =>
    cases h
    rfl
  | cons f rest ih =>
    obtain ⟨address, -, h⟩ := except_bind_ok h
    obtain ⟨code, -, h⟩ := except_bind_ok h
    obtain ⟨⟨others, last⟩, ho, h⟩ := except_bind_ok h
    cases h
    simp only [List.map_cons, ih ho]

namespace Laid

variable {tree : ScopeTree} {program : Program}

theorem labels_eq (l : Laid tree program) : program.labels = l.blocks.map (·.label) :=
  congrArg (·.labels) l.program_eq

/-- A function lies at an address: under its label, and with the code of its scope. -/
structure Entry (l : Laid tree program) (f : Function) (address : UInt16) : Prop where
  mem : f ∈ tree.functions
  label : ⟨f.id, f.name, address⟩ ∈ program.labels
  code : ∃ code, scopeCode tree f.scope = .ok code ∧ code <+: l.code.drop address.toNat

theorem entry_of_label (l : Laid tree program) {label : Label} (h : label ∈ program.labels) :
    ∃ f, l.Entry f label.address ∧ f.id = label.id := by
  rw [l.labels_eq] at h
  obtain ⟨b, hb, rfl⟩ := List.mem_map.mp h
  obtain ⟨before, after, eq⟩ := List.append_of_mem hb
  obtain ⟨small, f, hf, label, found⟩ := (layBlocks_ok l.functions).2 before b after eq
  rw [Nat.zero_add] at small label
  have address : b.label.address.toNat = (before.flatMap (·.code)).length := by
    rw [label, UInt16.toNat_ofNat', Nat.mod_eq_of_lt small]
  refine ⟨f, ⟨by simpa using hf, ?_, b.code, found, ?_⟩, by rw [label]⟩
  · rw [l.labels_eq]
    have eta : b.label = ⟨f.id, f.name, b.label.address⟩ := by rw [label]
    rw [← eta]
    exact List.mem_map_of_mem hb
  · rw [address, Laid.code, eq, List.flatMap_append, List.flatMap_cons, List.append_assoc,
      List.drop_left, List.append_assoc]
    exact List.prefix_append _ _

/-- The program's own body lies behind all functions. -/
theorem drop_entry (l : Laid tree program) : l.code.drop l.entry = l.body := by
  have stop := (layBlocks_ok l.functions).1
  rw [Nat.zero_add] at stop
  rw [stop, Laid.code, List.drop_left]

/-- The instruction at an address is the linked one. -/
theorem linked_at (l : Laid tree program) {address : Nat} {e : Emitted} {rest : List Emitted}
    (h : e :: rest <+: l.code.drop address) :
    ∃ i, l.linked[address]? = some i ∧ link program.labels e = .ok i := by
  obtain ⟨tail, eq⟩ := h
  have found : l.code[address]? = some e := by
    have first := congrArg (·[0]?) eq
    simpa using first.symm
  rw [l.labels_eq]
  exact (mapM_ok l.links).2 address e found

end Laid

end WindowedClosures
