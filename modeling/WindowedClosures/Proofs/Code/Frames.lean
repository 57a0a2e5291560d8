import WindowedClosures.Proofs.Code.Confinement
import WindowedClosures.Proofs.Machine.Stepping
import WindowedClosures.Proofs.Scope.Captures
import WindowedClosures.Proofs.Ty.Callables

/-!
# Frames of calls

A scope lays out its window from the output on: parameters behind it, then locals. A call lays out a
frame without looking at the scope it calls, from the arrow alone: the output first, the argument
behind it. Both agree: what the caller puts into its own registers is what the callee finds in its
parameters, and what it copies back is the callee's output.
-/

namespace WindowedClosures

open Emit

/-! ## Windows of scopes -/

/-- The window of a scope: output, parameters and locals one behind the other. -/
structure Scope.Windowed (s : Scope) (params locals : List Variable) : Prop where
  vars : s.vars = params ++ locals
  names : params.map (·.name) = s.labels
  stacked : Stacked s.arrow.output.size s.vars
  ends : s.arrow.output.size + sizeOfAll s.vars = s.size
  room : sizeOfAll params = s.arrow.input.size
  locals : Stacked (s.arrow.output.size + s.arrow.input.size) locals

theorem Scope.windowed {s : Scope} {params locals : List Variable} (vars : s.vars = params ++ locals)
    (parameters : parameters? s.labels s.arrow = some params)
    (stacked : Stacked s.arrow.output.size s.vars) : s.Windowed params locals := by
  obtain ⟨-, room, names⟩ := parameters?_ok parameters
  refine ⟨vars, names, stacked, Nat.add_comm _ _, room, ?_⟩
  rw [vars, stacked_append, room] at stacked
  exact stacked.2

namespace ScopeTree

variable {tree : ScopeTree} {id : Nat}

/-- The parameters of every scope fit its labels and its arrow; the program has none. -/
theorem Resolved.windowed (h : tree.Resolved) (lt : id < tree.count) : ∃ params locals,
    parameters? (tree.scope id).labels (tree.scope id).arrow = some params ∧
      (tree.scope id).Windowed params locals := by
  obtain ⟨bound, ids, ready, rfl⟩ := h.ready
  have captures := ready.capture.captures
  rw [captures.count] at lt
  by_cases eq : id = rootId
  · have labels := ready.numbered.labels
    have unset := ready.unset
    have vars := ready.root
    rw [root, ← eq] at labels unset vars
    have parameters : parameters? (bound.capture.scope id).labels (bound.capture.scope id).arrow =
        some [] := by
      rw [captures.scopes id]
      simp only [labels, unset]
      rfl
    refine ⟨[], (bound.scope id).vars, parameters, Scope.windowed ?_ parameters ?_⟩
    · rw [captures.scopes id]
      rfl
    · rw [captures.scopes id]
      simp only [unset]
      exact vars
  · have mem := (ready.numbered.mem_ids id).mpr ⟨lt, eq⟩
    obtain ⟨params, locals, parameters, vars⟩ := ready.inputs id mem
    have stacked := ready.vars id mem
    have parameters : parameters? (bound.capture.scope id).labels (bound.capture.scope id).arrow =
        some params := by
      rw [captures.scopes id]
      exact parameters
    refine ⟨params, locals, parameters, Scope.windowed ?_ parameters ?_⟩
    · rw [captures.scopes id]
      exact vars
    · rw [captures.scopes id]
      exact stacked

end ScopeTree

/-! ## Frames -/

/-- The code puts the value of an expression, in the shape of a type, into the registers from an
offset of a frame on. -/
def Fills (s : Site) (e : Expr) (frame offset : Nat) (ty : Ty) (code : List Emitted) : Prop :=
  ∃ (r : Register) (watermark : Nat) (result : Emission Unit), r.bank = .window ∧
    r.offset.val = frame + offset ∧ lower s e r ty watermark = .ok result ∧ result.code = code

/-- The code puts the value of each field into the registers of the variable at its place. -/
inductive FillsAll (s : Site) (frame : Nat) :
    List (Labelled Expr) → List Variable → List Emitted → Prop
  | nil : FillsAll s frame [] [] []
  | cons {field : Labelled Expr} {fields : List (Labelled Expr)} {v : Variable}
      {vars : List Variable} {here rest : List Emitted} : Fills s field.value frame v.offset v.ty here →
      FillsAll s frame fields vars rest → FillsAll s frame (field :: fields) (v :: vars) (here ++ rest)

variable {s : Site}

/-- The fields of a tuple go where the labels for the fields of the input lie. -/
theorem fillsAll_of_lowerFields {frame : Nat} {dst : Register} (hd : dst.bank = .window)
    {fields : List (Labelled Expr)} {types : List (Labelled Ty)} {labels : List String}
    {offset start watermark : Nat} {result : Emission Unit}
    (place : dst.offset.val + offset = frame + start) (hf : fields.length = types.length)
    (hl : labels.length = types.length)
    (h : lowerFields s fields (fieldSlots offset types) dst watermark = .ok result) :
    FillsAll s frame fields (consecutive start (labels.zip (types.map (·.value)))) result.code := by
  induction types generalizing fields labels offset start watermark result with
  | nil =>
    obtain rfl := List.length_eq_zero_iff.mp hf
    rw [lowerFields] at h
    · rw [pure_ok h]
      simpa [consecutive] using FillsAll.nil
    · simp
  | cons ty types ih =>
    cases fields with
    | nil => simp at hf
    | cons field fields =>
      cases labels with
      | nil => simp at hl
      | cons label labels =>
        rw [fieldSlots, lowerFields] at h
        obtain ⟨first, second, hr, hs, rfl⟩ := bind_ok h
        obtain ⟨r, shift, rfl⟩ := register_ok hr
        obtain ⟨bank, moved⟩ := Register.shift_ok shift
        obtain ⟨value, rest, hv, ho, rfl⟩ := bind_ok hs
        obtain ⟨inner, found, rfl⟩ := releasing_ok hv
        rw [List.map_cons, List.zip_cons_cons, consecutive]
        have here : Fills s field.value frame start ty.value inner.code :=
          ⟨r, _, inner, bank.trans hd, moved.trans place, found, rfl⟩
        have next : dst.offset.val + (offset + ty.value.size) = frame + (start + ty.value.size) := by
          omega
        have others := ih next (by simpa using hf) (by simpa using hl) ho
        show FillsAll s frame _ _ (inner.code ++ rest.code)
        exact .cons (v := ⟨label, ty.value, start, .window⟩) here others

theorem lower_unwrapped (s : Site) (e : Expr) : lower s e.unwrapped = lower s e := by
  fun_induction Expr.unwrapped e with
  | case1 value span ih =>
    rw [ih]
    funext dst ty
    rw [lower]
  | case2 => rfl

theorem unwrapped_ne_parens (e value : Expr) (span : Span) :
    e.unwrapped ≠ .tuple [⟨none, value⟩] span := by
  fun_induction Expr.unwrapped e with
  | case1 _ _ ih => exact ih
  | case2 e other => exact fun eq => other value span eq

/-- What stands in front of a call: nothing if the call has no argument, and otherwise code that puts
the argument into the registers of the parameters. -/
def FitsArgument (s : Site) (argument : Option Expr) (frame : Nat) (callee : Scope)
    (params : List Variable) (before : List Emitted) : Prop :=
  match argument with
  | none => before = []
  | some e =>
    -- the argument as a whole fills the room of all parameters, and so the only one
    Fills s e frame callee.arrow.output.size callee.arrow.input before ∧
    (∀ v, params = [v] → Fills s e frame v.offset v.ty before) ∧
    ∀ fields span, 1 < params.length → e.unwrapped = .tuple fields span →
      FillsAll s frame fields params before

/-- How the code of a call, with or without an argument, fits the window of the scope whose arrow it
is made for. -/
structure FitsWindow (s : Site) (argument : Option Expr) (dst function : Register) (ty : Ty)
    (frame : Nat) (callee : Scope) (params : List Variable) (code : List Emitted) : Prop where
  /-- Output and input of the callee have registers of the caller. -/
  inside : frame + callee.arrow.output.size + callee.arrow.input.size ≤ 64
  parts : ∃ before after, code = before ++
      ⟨⟨.callRegister, UInt8.ofNat frame, UInt16.ofNat function.toByte.toNat⟩, none,
        some callee.arrow⟩ :: after ∧
    FitsArgument s argument frame callee params before ∧
    (ty.isVoid = true → after = []) ∧
    (ty.isVoid = false → after.length = callee.arrow.output.size ∧
      ∀ k < callee.arrow.output.size, ∃ target source : Register, dst.shift k = .ok target ∧
        source.bank = .window ∧ source.offset.val = frame + k ∧
        after[k]? = some ⟨.triple .move target source .first, none, none⟩)

/-- Each instruction of a copy. -/
theorem copyFrom_ok {dst src : Register} {start count watermark : Nat} {result : Emission Unit}
    (h : copyFrom dst src start count watermark = .ok result) : result.code.length = count ∧
      ∀ k < count, ∃ target source, dst.shift (start + k) = .ok target ∧ src.shift (start + k) = .ok source ∧
        result.code[k]? = some ⟨.triple .move target source .first, none, none⟩ := by
  obtain ⟨pairs, code, length, each⟩ := copyFrom_moves h
  rw [code]
  refine ⟨by rw [List.length_map, moves, List.length_map, length], fun k lt => ?_⟩
  have found : pairs[k]? = some pairs[k] := List.getElem?_eq_getElem (by omega)
  obtain ⟨ht, hs⟩ := each k _ found
  refine ⟨_, _, ht, hs, ?_⟩
  rw [List.getElem?_map, moves, List.getElem?_map, found]
  rfl

/-- One parameter is the whole input. -/
theorem parameters?_single {labels : List String} {arrow : Arrow} {v : Variable}
    (h : parameters? labels arrow = some [v]) :
    v.offset = arrow.output.size ∧ v.ty = arrow.input := by
  obtain rfl : [v.name] = labels := (parameters?_ok h).2.2
  unfold parameters? at h
  dsimp only at h
  split at h
  · cases h
  · cases h
  · cases h
    exact ⟨rfl, rfl⟩
  · rename_i several
    exact (several _ rfl).elim
  · cases h

/-- Several parameters are the fields of the input. -/
theorem parameters?_several {labels : List String} {arrow : Arrow} {params : List Variable}
    (h : parameters? labels arrow = some params) (several : 1 < params.length) :
    ∃ types, arrow.input.resolved = .tuple types ∧ labels.length = types.length ∧
      params = consecutive arrow.output.size (labels.zip (types.map (·.value))) := by
  unfold parameters? at h
  dsimp only at h
  split at h
  · cases h
    simp at several
  · cases h
  · cases h
    simp [consecutive] at several
  · rename_i types resolved _
    split at h
    · rename_i lengths
      cases h
      exact ⟨types, resolved, lengths.2.symm, rfl⟩
    · cases h
  · cases h

/-- The argument of a call through the arrow of a scope goes where its parameters lie. -/
theorem fitsArgument_of_placeArgument {argument : Option Expr} {frame watermark : Nat} {callee : Scope}
    {params : List Variable} {placed : Emission Unit}
    (parameters : parameters? callee.labels callee.arrow = some params)
    (h : placeArgument (argument.map (lower s)) (frame + callee.arrow.output.size) callee.arrow.input
      watermark = .ok placed) : FitsArgument s argument frame callee params placed.code := by
  obtain ⟨-, nothing, lowers⟩ := placeArgument_ok h
  cases argument with
  | none => exact nothing rfl
  | some e =>
    obtain ⟨r, emission, bank, offset, found, code⟩ := lowers _ rfl
    have whole : Fills s e frame callee.arrow.output.size callee.arrow.input placed.code :=
      ⟨r, _, emission, bank, offset, found, code.symm⟩
    refine ⟨whole, ?_, ?_⟩
    · rintro v rfl
      obtain ⟨start, ty⟩ := parameters?_single parameters
      rw [start, ty]
      exact whole
    · intro fields span several tuple
      obtain ⟨types, resolved, lengths, rfl⟩ := parameters?_several parameters several
      rw [← lower_unwrapped, tuple, lower_tuple fields span r _ fun value eq =>
        unwrapped_ne_parens e value span (by rw [tuple, eq])] at found
      rw [code]
      unfold slots? at found
      rw [resolved] at found
      dsimp only at found
      split at found
      · rename_i slots fits
        split at fits
        · rename_i same
          cases fits
          exact fillsAll_of_lowerFields bank (by rw [offset]; rfl) same.symm lengths found
        · cases fits
      · exact (fail_ok found).elim

/-- A call through the arrow of a scope fits its window. -/
theorem fitsWindow_of_invoke {argument : Option Expr} {dst function : Register} {ty : Ty} {span : Span}
    {frame : Nat} {callee : Scope} {params : List Variable} {result : Emission Unit}
    (parameters : parameters? callee.labels callee.arrow = some params)
    (h : invoke dst function callee.arrow (argument.map (lower s)) ty span frame = .ok result) :
    FitsWindow s argument dst function ty frame callee params result.code := by
  obtain ⟨inside, agrees, output, placed, copied, before, bank, offset, copies, code⟩ := invoke_ok h
  refine ⟨inside, placed.code, copied.code, code, fitsArgument_of_placeArgument parameters before,
    ?_, ?_⟩
  · intro void
    rw [copy, if_pos void] at copies
    rw [pure_ok copies]
  · intro needed
    have same : min callee.arrow.output.size ty.size = callee.arrow.output.size := by
      rw [(agrees needed).size_eq, Nat.min_self]
    rw [copy, if_neg (by simp [needed]), same] at copies
    obtain ⟨length, each⟩ := copyFrom_ok copies
    refine ⟨length, fun k lt => ?_⟩
    obtain ⟨target, source, ht, hs, moves⟩ := each k lt
    rw [Nat.zero_add] at ht hs
    obtain ⟨bank', place⟩ := Register.shift_ok hs
    exact ⟨target, source, ht, bank'.trans bank, by rw [place, offset], moves⟩

/-- A call moves the window, so that a register of the caller is one of the callee. -/
theorem cell_of_entered {frame : Nat} (small : frame < 256) {yz : UInt16} {run after : Run}
    {ended : Bool} (h : Exec.step ⟨.callRegister, UInt8.ofNat frame, yz⟩ run = .ok ended after)
    {outer inner : Register} (ho : outer.bank = .window) (hi : inner.bank = .window)
    (place : outer.offset.val = frame + inner.offset) :
    after.machine.cell inner = run.machine.cell outer := by
  rw [Exec.step_callRegister rfl] at h
  split at h
  · cases h
    have amount : (UInt8.ofNat frame).toNat = frame := by simp [Nat.mod_eq_of_lt small]
    simp only [Run.entering, Machine.cell, ho, hi, place, amount, Nat.add_assoc]
  · cases h

/-- In every scope of a resolved program output, parameters and locals lie one behind the other, and
a call through the arrow of a scope, with an argument or, like that of an arm, without one, fits that
layout, with the window that the machine gives the callee. -/
theorem frames_fit {tree : ScopeTree} (h : tree.Resolved) {id : Nat} (lt : id < tree.count) :
    ∃ params locals, (tree.scope id).Windowed params locals ∧
      ∀ (s : Site) (argument : Option Expr) (dst function : Register) (ty : Ty) (span : Span)
        (frame : Nat) (result : Emission Unit),
        invoke dst function (tree.scope id).arrow (argument.map (lower s)) ty span frame = .ok result →
        FitsWindow s argument dst function ty frame (tree.scope id) params result.code ∧
        ∀ (yz : UInt16) (run after : Run) (ended : Bool),
          Exec.step ⟨.callRegister, UInt8.ofNat frame, yz⟩ run = .ok ended after →
          ∀ outer inner : Register, outer.bank = .window → inner.bank = .window →
            outer.offset.val = frame + inner.offset →
              after.machine.cell inner = run.machine.cell outer := by
  obtain ⟨params, locals, parameters, windowed⟩ := h.windowed lt
  refine ⟨params, locals, windowed, ?_⟩
  intro s argument dst function ty span frame result invoked
  have fits := fitsWindow_of_invoke parameters invoked
  refine ⟨fits, fun yz run after ended stepped outer inner ho hi place => ?_⟩
  exact cell_of_entered (by have := fits.inside; omega) stepped ho hi place

/-- Two labels of one register each behind an output of one: a tuple of two numbers goes there. The arm
behind the literal has an output only: nothing stands in front of its call. -/
theorem frames_fit_pair : ∃ tree params locals result called,
    resolveSource "[ f: (int, int) > int = \\x, y > \x7b [ z: int = x; z + y \x7d; 1 ? (2, 3)" =
        .ok tree ∧
      (tree.scope 1).Windowed params locals ∧ params.map (·.offset) = [1, 2] ∧
      locals.map (·.offset) = [3] ∧
      invoke ⟨.window, 1⟩ .first (tree.scope 1).arrow
        (some (lower ⟨tree, 0⟩ (.tuple [⟨none, .int 7 .zero⟩, ⟨none, .int 8 .zero⟩] .zero)))
        .int .zero 2 = .ok result ∧
      FitsWindow ⟨tree, 0⟩ (some (.tuple [⟨none, .int 7 .zero⟩, ⟨none, .int 8 .zero⟩] .zero))
        ⟨.window, 1⟩ .first .int 2 (tree.scope 1) params result.code ∧
      (tree.scope 2).origin = .branch ∧
      invoke ⟨.window, 1⟩ .first (tree.scope 2).arrow none .int .zero 2 = .ok called ∧
      FitsWindow ⟨tree, 0⟩ none ⟨.window, 1⟩ .first .int 2 (tree.scope 2) [] called.code := by
  have found : (do
      let tree ← (resolveSource
        "[ f: (int, int) > int = \\x, y > \x7b [ z: int = x; z + y \x7d; 1 ? (2, 3)").toOption
      let result ← (invoke ⟨.window, 1⟩ .first (tree.scope 1).arrow
        (some (lower ⟨tree, 0⟩ (.tuple [⟨none, .int 7 .zero⟩, ⟨none, .int 8 .zero⟩] .zero)))
        .int .zero 2).toOption
      let called ← (invoke ⟨.window, 1⟩ .first (tree.scope 2).arrow none .int .zero 2).toOption
      if 2 < tree.count ∧ (tree.scope 1).labels.length = 2 ∧
        (tree.scope 1).vars.map (·.offset) = [1, 2] ++ [3] ∧ result.code.length = 4 ∧
        (tree.scope 2).origin = .branch ∧ (tree.scope 2).labels = [] ∧ called.code.length = 2 then some ()
      else none) = some () := by decide +kernel
  obtain ⟨tree, ht, found⟩ := Option.bind_eq_some_iff.mp found
  obtain ⟨result, hi, found⟩ := Option.bind_eq_some_iff.mp found
  obtain ⟨called, hc, found⟩ := Option.bind_eq_some_iff.mp found
  split at found
  · rename_i facts
    obtain ⟨lt, labels, offsets, -, arm, plain, -⟩ := facts
    have source := toOption_eq_some ht
    have invoked := toOption_eq_some hi
    have chosen := toOption_eq_some hc
    obtain ⟨params, locals, windowed, calls⟩ := frames_fit (resolveSource_ok source)
      (Nat.lt_trans (by decide : 1 < 2) lt)
    have length : params.length = 2 := by
      rw [← labels, ← windowed.names, List.length_map]
    rw [windowed.vars, List.map_append] at offsets
    obtain ⟨first, second⟩ := List.append_inj offsets (by simp [length])
    obtain ⟨params', _, windowed', calls'⟩ := frames_fit (resolveSource_ok source) lt
    obtain rfl : params' = [] := by
      rw [← List.map_eq_nil_iff, windowed'.names, plain]
    exact ⟨tree, params, locals, result, called, source, windowed, first, second, invoked,
      (calls _ (some _) _ _ _ _ _ _ invoked).1, arm, chosen, (calls' _ none _ _ _ _ _ _ chosen).1⟩
  · cases found

end WindowedClosures
