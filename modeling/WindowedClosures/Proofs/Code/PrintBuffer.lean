import WindowedClosures.Proofs.Code.Texts
import WindowedClosures.Proofs.Machine.Lockstep

/-!
# Printing a variable

`print` copies its argument into a buffer of 24 bytes and prints what the machine reads there. The copy
of a variable stops where the buffer ends. A literal in the variable that fits the buffer with its zero is
printed as it is; one that does not is cut, and then there may be no zero in the buffer, so that the
machine reads on in the registers behind it.
-/

namespace WindowedClosures

namespace Emit

/-! ## Moving registers in a row -/

variable {pairs : List (Register × Register)}

theorem play_move {dst src : Register} (hd : dst.Near) (hs : src.Near) (file : RegisterFile) :
    ∃ after, play [.triple .move dst src .first] file = .ok after ∧
      RegisterFile.Sets 64 dst (file src) file after := by
  have makes : Makes (move dst src) 64 file False fun _ _ after =>
      RegisterFile.Sets 64 dst (file src) file after := makes_move hd hs fun after sets => sets
  exact makes.played rfl

/-- Registers that are moved where none of them lies are all there behind the code. -/
theorem play_moves (near : ∀ p ∈ pairs, p.1.Near ∧ p.2.Near) (different : (pairs.map (·.1)).Nodup)
    (apart : ∀ p ∈ pairs, p.2 ∉ pairs.map (·.1)) (file : RegisterFile) :
    ∃ after, play (moves pairs) file = .ok after ∧ (∀ p ∈ pairs, after p.1 = file p.2) ∧
      ∀ r : Register, r.Near → r ∉ pairs.map (·.1) → after r = file r := by
  induction pairs generalizing file with
  | nil => exact ⟨file, rfl, by simp, fun _ _ _ => rfl⟩
  | cons first rest ih =>
    obtain ⟨dst, src⟩ := first
    simp only [List.map_cons, List.mem_cons, not_or] at apart
    rw [List.map_cons, List.nodup_cons] at different
    obtain ⟨hd, hs⟩ := near (dst, src) (by simp)
    obtain ⟨between, moved, sets⟩ := play_move hd hs file
    have kept (r : Register) (hr : r.Near) (ne : r ≠ dst) : between r = file r :=
      sets.other r (hr.symm.imp id fun bank => ⟨bank, r.offset.isLt⟩) ne
    obtain ⟨after, played, values, others⟩ := ih (fun p mem => near p (by simp [mem])) different.2
      (fun p mem => (apart p (.inr mem)).2) between
    refine ⟨after, ?_, ?_, fun r hr outside => ?_⟩
    · rw [moves, List.map_cons, ← List.singleton_append, play_append, moved]
      exact played
    · intro p mem
      rcases List.mem_cons.mp mem with rfl | mem
      · exact (others dst hd different.1).trans sets.same
      · rw [values p mem, kept p.2 (near p (by simp [mem])).2 (apart p (.inr mem)).1]
    · rw [List.map_cons, List.mem_cons, not_or] at outside
      rw [others r hr outside.2, kept r hr outside.1]

/-! ## The code of the statement -/

theorem print_ok {lowered : Lowering} {watermark : Nat} {result : Emission Unit}
    (h : print lowered watermark = .ok result) : ∃ buffer part, buffer.bank = .window ∧
      buffer.offset.val = watermark ∧ watermark + 6 ≤ 64 ∧
      lowered buffer printBuffer (watermark + 6) = .ok part ∧
      result.code = part.code ++ [⟨.wide .print buffer 0, none, none⟩] := by
  obtain ⟨first, second, ha, h₂, rfl⟩ := bind_ok h
  obtain ⟨room, rfl⟩ := alloc_ok ha
  obtain ⟨third, fourth, hb, h₄, rfl⟩ := bind_ok h₂
  obtain ⟨buffer, ho, rfl⟩ := register_ok hb
  obtain ⟨bank, offset⟩ := Register.ofOffset_ok ho
  obtain ⟨fifth, sixth, hr, hp, rfl⟩ := bind_ok h₄
  obtain ⟨part, emitted, rfl⟩ := releasing_ok hr
  rw [push_ok hp]
  exact ⟨buffer, part, bank, offset, room, emitted, rfl⟩

end Emit

open Emit

variable {s : Site} {watermark : Nat} {result : Emission Unit}

/-- The buffer of a statement that prints lies among the scratch registers. -/
theorem lowerStatement_print_ok (free : s.scope.local? "print" = none) {isLast : Bool}
    {argument : Expr} {p₁ p₂ : Span}
    (h : lowerStatement s isLast (.binary .apply (.name "print" p₁) argument p₂) watermark = .ok result) :
    ∃ mark inner, watermark ≤ mark ∧ print (lower s argument) mark = .ok inner ∧
      result.code = inner.code := by
  simp only [lowerStatement, eval, lower_print free] at h
  split at h
  · obtain ⟨inner, printed, rfl⟩ := releasing_ok h
    exact ⟨watermark, inner, Nat.le_refl _, printed, rfl⟩
  · obtain ⟨outer, reserved, rfl⟩ := releasing_ok h
    obtain ⟨first, second, ht, released, rfl⟩ := bind_ok reserved
    obtain ⟨-, -, none, mark⟩ := temp_ok ht
    obtain ⟨inner, printed, rfl⟩ := releasing_ok released
    exact ⟨first.watermark, inner, by omega, printed, by rw [none]; rfl⟩

/-- The argument is moved into the buffer as far as both reach. -/
theorem lower_variable_ok {n : String} {v : Variable} (known : s.scope.local? n = some v) {span : Span}
    {buffer : Register} (h : lower s (.name n span) buffer printBuffer watermark = .ok result) :
    ∃ origin pairs, v.register = .ok origin ∧
      result.code = (moves pairs).map (fun i => ⟨i, none, none⟩) ∧ pairs.length = min v.ty.size 6 ∧
      ∀ (k : Nat) p, pairs[k]? = some p → buffer.shift k = .ok p.1 ∧ origin.shift k = .ok p.2 := by
  rw [lower] at h
  obtain ⟨first, second, hv, copied, rfl⟩ := bind_ok h
  obtain ⟨u, found, rfl⟩ := lift_ok hv
  have same := Site.lookup_eq_ok_iff.mp found
  rw [known] at same
  cases same
  obtain ⟨third, fourth, ho, moved, rfl⟩ := bind_ok copied
  obtain ⟨origin, there, rfl⟩ := register_ok ho
  obtain ⟨pairs, code, length, each⟩ :=
    copyFrom_moves (show copyFrom buffer origin 0 (min v.ty.size 6) watermark = _ from moved)
  refine ⟨origin, pairs, there, code, length, fun k p found => ?_⟩
  have places := each k p found
  rwa [Nat.zero_add] at places

/-! ## The bytes of the buffer -/

theorem Memory.flatMap_take (words : List Int32) (count : Nat) :
    (words.take count).flatMap bytesOf = (words.flatMap bytesOf).take (4 * count) := by
  induction words generalizing count with
  | nil => simp
  | cons word rest ih =>
    cases count with
    | zero => simp
    | succ count =>
      have four : (bytesOf word).length = 4 := rfl
      have whole : (bytesOf word).take (4 * (count + 1)) = bytesOf word :=
        List.take_of_length_le (by omega)
      rw [List.take_succ_cons, List.flatMap_cons, List.flatMap_cons, ih, List.take_append, four, whole,
        show 4 * (count + 1) - 4 = 4 * count by omega]

theorem takeWhile_take_of_mem {α : Type} {p : α → Bool} {items : List α} {x : α} {count : Nat}
    (mem : x ∈ items.take count) (stops : p x = false) :
    (items.take count).takeWhile p = items.takeWhile p := by
  conv_rhs => rw [← List.take_append_drop count items, List.takeWhile_append]
  rw [if_neg fun all => ?_]
  have self := (List.takeWhile_prefix (l := items.take count) p).eq_of_length all
  have holds := List.takeWhile_eq_self_iff.mp self x mem
  rw [stops] at holds
  cases holds

/-- A NUL among ASCII characters is a zero among their bytes. -/
theorem zero_mem_bytes_iff {chars : List Char} (ascii : ∀ c ∈ chars, c.toNat < 128) :
    (0 : UInt8) ∈ chars.map (fun c => UInt8.ofNat c.toNat) ↔ '\x00' ∈ chars := by
  rw [List.mem_map]
  constructor
  · rintro ⟨c, mem, zero⟩
    have small := ascii c mem
    rw [← UInt8.toNat_inj, UInt8.toNat_ofNat'] at zero
    have same : c.toNat = 0 := by
      rw [← Nat.mod_eq_of_lt (show c.toNat < 2 ^ 8 by omega)]
      exact zero
    rwa [← Char.toNat_inj.mp (show c.toNat = '\x00'.toNat from same)]
  · exact fun mem => ⟨_, mem, rfl⟩

/-- What is printed of a literal by way of the buffer when this text lies behind it: the ASCII characters
up to the first NUL if the buffer has a zero, and else the first 24 of them and the text behind. -/
def printedText (value : String) (behind : List UInt8) : String :=
  if (asciiOf value).length < 24 ∨ '\x00' ∈ (asciiOf value).take 24 then
    String.ofList ((asciiOf value).takeWhile (· != '\x00'))
  else String.ofList ((asciiOf value).take 24) ++ Utf8.decodeLossy behind

/-- The text at a register whose row starts with the first six words of a literal. -/
theorem Machine.HoldsRow.decode_take {m : Machine} {r : Register} {value : String}
    (h : m.HoldsRow r ((wordsOf value).take 6)) :
    Utf8.decodeLossy (m.textAt r.toByte) = printedText value (m.textFrom ((m.cell r).behind 6)) := by
  have small (c : Char) (mem : c ∈ asciiOf value) : c.toNat < 128 := toNat_of_mem_asciiOf mem
  have small_take (c : Char) (mem : c ∈ (asciiOf value).take 24) : c.toNat < 128 :=
    small c (List.mem_of_mem_take mem)
  obtain ⟨zeros, bytes⟩ := bytes_wordsOf value
  have front : ((wordsOf value).take 6).flatMap Memory.bytesOf =
      ((asciiOf value).take 24).map (fun c => UInt8.ofNat c.toNat) ++
        (0 :: List.replicate zeros 0).take (24 - (asciiOf value).length) := by
    rw [Memory.flatMap_take, bytes, List.take_append, List.length_map, List.map_take]
  have zero : (0 : UInt8) ∈ ((wordsOf value).take 6).flatMap Memory.bytesOf ↔
      (asciiOf value).length < 24 ∨ '\x00' ∈ (asciiOf value).take 24 := by
    rw [front, List.mem_append, zero_mem_bytes_iff small_take, or_comm]
    refine or_congr_left ⟨fun mem => ?_, fun lt => ?_⟩
    · by_contra long
      rw [show 24 - (asciiOf value).length = 0 by omega] at mem
      cases mem
    · obtain ⟨k, eq⟩ : ∃ k, 24 - (asciiOf value).length = k + 1 := ⟨23 - (asciiOf value).length, by omega⟩
      rw [eq, List.take_succ_cons]
      exact List.mem_cons_self
  rw [h.textAt, printedText]
  by_cases stops : (0 : UInt8) ∈ ((wordsOf value).take 6).flatMap Memory.bytesOf
  · rw [if_pos stops, if_pos (zero.mp stops)]
    rw [Memory.flatMap_take] at stops ⊢
    rw [takeWhile_take_of_mem stops rfl, bytes, takeWhile_bytes small]
    exact Utf8.decodeLossy_ascii fun c mem => small c (List.takeWhile_subset _ mem)
  · have long : ¬ (asciiOf value).length < 24 := fun lt => stops (zero.mpr (.inl lt))
    have count : ((wordsOf value).take 6).length = 6 := by
      rw [List.length_take, length_wordsOf]
      omega
    rw [if_neg stops, if_neg (zero.not.mp stops), front, count,
      show 24 - (asciiOf value).length = 0 by omega, List.take_zero, List.append_nil,
      Utf8.decodeLossy_append small_take]

/-! ## Running it -/

theorem through_moves {pairs : List (Register × Register)} (near : ∀ p ∈ pairs, p.1.Near ∧ p.2.Near)
    (different : (pairs.map (·.1)).Nodup) (apart : ∀ p ∈ pairs, p.2 ∉ pairs.map (·.1)) {r : Run}
    (seated : r.machine.Seated) (ahead : r.machine.Ahead (moves pairs)) :
    ∃ s, r.Through s (moves pairs).length ∧
      (∀ p ∈ pairs, s.machine.readCell? (s.machine.cell p.1) = r.machine.readCell? (r.machine.cell p.2)) ∧
      ∀ c, (∀ p ∈ pairs, c ≠ r.machine.cell p.1) → s.machine.readCell? c = r.machine.readCell? c := by
  obtain ⟨after, played, values, others⟩ := play_moves near different apart r.machine.file
  obtain ⟨s, through, words, kept⟩ := through_of_play (· ∈ pairs.map (·.1)) seated ahead played others
  refine ⟨s, through, fun p mem => ?_, fun c apart => kept c fun t mem => ?_⟩
  · rw [words p.1 (near p mem).1, values p mem, seated.readCell? (near p mem).2]
  · obtain ⟨p, hp, rfl⟩ := List.mem_map.mp mem
    exact apart p hp

/-- A copied row starts with the words that were there. -/
theorem Machine.HoldsRow.copied {m n : Machine} {dst src : Register} {words : List Int32}
    (h : m.HoldsRow src words) {pairs : List (Register × Register)}
    (places : ∀ (k : Nat) p, pairs[k]? = some p → dst.shift k = .ok p.1 ∧ src.shift k = .ok p.2)
    (values : ∀ p ∈ pairs, n.readCell? (n.cell p.1) = m.readCell? (m.cell p.2)) {count : Nat}
    (enough : min words.length count ≤ pairs.length) : n.HoldsRow dst (words.take count) := by
  intro k word found
  have lt := (List.getElem?_eq_some_iff.mp found).1
  rw [List.length_take] at lt
  rw [List.getElem?_take_of_lt (by omega)] at found
  obtain ⟨t, shifted, read⟩ := h k word found
  have pair : pairs[k]? = some pairs[k] := List.getElem?_eq_getElem (by omega)
  obtain ⟨target, source⟩ := places k _ pair
  rw [shifted] at source
  cases source
  exact ⟨_, target, (values _ (List.mem_of_getElem? pair)).trans read⟩

/-- A row that holds a literal is copied to a buffer behind it and printed from there. -/
theorem buffer_printed {buffer origin : Register} (bank : buffer.bank = .window)
    {pairs : List (Register × Register)} (few : pairs.length ≤ 6)
    (places : ∀ (k : Nat) p, pairs[k]? = some p → buffer.shift k = .ok p.1 ∧ origin.shift k = .ok p.2)
    (sources : ∀ p ∈ pairs, p.2.Below buffer.offset) {value : String}
    (enough : min (wordsOf value).length 6 ≤ pairs.length) {r : Run} (seated : r.machine.Seated)
    (ahead : r.machine.Ahead (moves pairs ++ [.wide .print buffer 0]))
    (holds : r.machine.HoldsRow origin (wordsOf value)) :
    ∃ s, r.Prints s ((moves pairs).length + 1)
        (printedText value (r.machine.stack.text (r.machine.top + buffer.offset + 6))) ∧
      ∀ c, (∀ k < 6, c ≠ .stack (r.machine.top + buffer.offset + k)) →
        s.machine.readCell? c = r.machine.readCell? c := by
  have targets (p : Register × Register) (mem : p ∈ pairs) : p.1.bank = .window ∧
      buffer.offset ≤ p.1.offset.val ∧ p.1.offset < buffer.offset.val + 6 := by
    obtain ⟨bank', low, high⟩ := bounds_of_shifts (fun k p found => (places k p found).1) mem
    exact ⟨bank'.trans bank, low, by omega⟩
  have near (p : Register × Register) (mem : p ∈ pairs) : p.1.Near ∧ p.2.Near :=
    ⟨.inl (targets p mem).1, (sources p mem).near⟩
  have apart (p : Register × Register) (mem : p ∈ pairs) : p.2 ∉ pairs.map (·.1) := by
    intro met
    obtain ⟨q, hq, eq⟩ := List.mem_map.mp met
    obtain ⟨inWindow, low, -⟩ := targets q hq
    rcases sources p mem with bank' | ⟨-, high⟩
    · rw [← eq, inWindow] at bank'
      cases bank'
    · rw [← eq] at high
      omega
  obtain ⟨t, through, values, kept⟩ := through_moves near
    (different_of_shift fun k p found => (places k p found).1).1 apart seated ahead.front
  obtain ⟨s, prints, cells⟩ := through.prints_text (through.ahead ahead)
  have row : t.machine.HoldsRow buffer ((wordsOf value).take 6) := holds.copied places values enough
  have start : t.machine.cell buffer = .stack (r.machine.top + buffer.offset) := by
    rw [Machine.cell, bank, through.top]
  have outside (c : Cell) (far : ∀ k < 6, c ≠ .stack (r.machine.top + buffer.offset + k)) :
      t.machine.readCell? c = r.machine.readCell? c := by
    refine kept c fun p mem eq => ?_
    obtain ⟨inWindow, low, high⟩ := targets p mem
    refine far (p.1.offset - buffer.offset) (by omega) ?_
    rw [eq, Machine.cell, inWindow]
    exact congrArg Cell.stack (by omega)
  -- the text behind the buffer is still what it was
  have behind : t.machine.textFrom ((t.machine.cell buffer).behind 6) =
      r.machine.stack.text (r.machine.top + buffer.offset + 6) := by
    rw [start]
    refine Memory.textFrom_congr (fun a above => ?_) _ _
    refine outside (.stack a) fun k lt eq => ?_
    injection eq with eq
    omega
  rw [row.decode_take, behind] at prints
  exact ⟨s, prints, fun c far => (cells c).trans (outside c far)⟩

/-- A statement that prints a variable which holds a literal prints its ASCII characters up to the first
NUL, if the buffer has room for them and a zero or for that NUL. Otherwise it prints the first 24 of them
and then what lies in the stack behind the buffer. It changes the buffer only. -/
theorem variable_printed {tree : ScopeTree} (h : tree.Resolved) {id : ScopeId} {n : String} {v : Variable}
    (known : (tree.scope id).local? n = some v) (free : (tree.scope id).local? "print" = none)
    {value : String} (fits : (asciiOf value).length + 1 < charCapacity v.ty) {isLast : Bool}
    {p₁ p₂ p₃ : Span} {watermark : Nat} (size : (tree.scope id).size ≤ watermark)
    {result : Emission Unit}
    (emitted : lowerStatement ⟨tree, id⟩ isLast (.binary .apply (.name "print" p₁) (.name n p₂) p₃)
      watermark = .ok result)
    {origin : Register} (place : v.register = .ok origin) {r : Run} (seated : r.machine.Seated)
    (ahead : r.machine.Ahead (result.code.map (·.instruction)))
    (holds : r.machine.HoldsRow origin (wordsOf value)) :
    ∃ buffer s, watermark ≤ buffer ∧ buffer + 6 ≤ 64 ∧
      r.Prints s result.code.length
        (printedText value (r.machine.stack.text (r.machine.top + buffer + 6))) ∧
      ∀ c, (∀ k < 6, c ≠ .stack (r.machine.top + buffer + k)) →
        s.machine.readCell? c = r.machine.readCell? c := by
  obtain ⟨mark, inner, le, printed, same⟩ := lowerStatement_print_ok (s := ⟨tree, id⟩) free emitted
  obtain ⟨buffer, part, bank, rfl, room, lowered, whole⟩ := print_ok printed
  obtain ⟨origin', pairs, place', code, count, places⟩ := lower_variable_ok (s := ⟨tree, id⟩) known lowered
  rw [place] at place'
  cases place'
  have arranged := arranged_of_resolved h id
  have words : (wordsOf value).length ≤ v.ty.size := by
    have room := (Laid.charCapacity_pos (show 0 < charCapacity v.ty by omega)).2
    rw [length_wordsOf]
    omega
  -- the variable does not reach up to the buffer
  have sources (p : Register × Register) (mem : p ∈ pairs) : p.2.Below buffer.offset := by
    obtain ⟨bank', low, high⟩ := bounds_of_shifts (fun k p found => (places k p found).2) mem
    obtain ⟨bank'', offset⟩ := Register.ofOffset_ok place
    have below := arranged.below_of_bank (Scope.local?_mem known) (bank'.trans bank'') (by omega)
    exact below.mono (Nat.le_trans size le)
  rw [same, whole, code, List.map_append, map_instruction] at ahead
  obtain ⟨s, prints, kept⟩ :=
    buffer_printed bank (by omega) places sources (by omega) seated ahead holds
  refine ⟨buffer.offset, s, le, room, ?_, kept⟩
  rw [same, whole, code, List.length_append, List.length_map]
  exact prints

/-- A short text in an array with room to spare. -/
theorem variable_printed_short : ∃ (tree : ScopeTree) (result : Emission Unit) (r s : Run),
    resolveSource "[ v: char 12 = \"hi\"; print # v" = .ok tree ∧
      lowerStatement ⟨tree, 0⟩ true (.binary .apply (.name "print" .zero) (.name "v" .zero) .zero) 3 =
        .ok result ∧
      r.machine.HoldsRow .first (wordsOf "hi") ∧ r.Prints s result.code.length "hi" := by
  have found : (do
      let tree ← (resolveSource "[ v: char 12 = \"hi\"; print # v").toOption
      let v ← (tree.scope 0).local? "v"
      let loaded ← (text "hi" .zero .first (.array .char 12) 9).toOption
      let result ← (lowerStatement ⟨tree, 0⟩ true
        (.binary .apply (.name "print" .zero) (.name "v" .zero) .zero) 3).toOption
      if ((tree.scope 0).local? "print").isNone ∧ 3 < charCapacity v.ty ∧ (tree.scope 0).size ≤ 3 ∧
        v.register.toOption = some .first ∧
        loaded.code.length + result.code.length + 64 ≤ stackSize then some () else none) = some () := by
    decide +kernel
  obtain ⟨tree, ht, found⟩ := Option.bind_eq_some_iff.mp found
  obtain ⟨v, known, found⟩ := Option.bind_eq_some_iff.mp found
  obtain ⟨loaded, hl, found⟩ := Option.bind_eq_some_iff.mp found
  obtain ⟨result, hr, found⟩ := Option.bind_eq_some_iff.mp found
  split at found
  · rename_i facts
    obtain ⟨free, capacity, size, place, short⟩ := facts
    let code := loaded.code.map (·.instruction) ++ result.code.map (·.instruction)
    have length : code.length = loaded.code.length + result.code.length := by simp [code]
    have ahead : (Run.start code 0).machine.Ahead code := Run.ahead_start (by omega)
    have seated : (Run.start code 0).machine.Seated := Run.seated_start (by omega)
    have loads := loadsText_of_ok (.inl rfl) (by decide) (toOption_eq_some hl)
    obtain ⟨r, through, holds, -⟩ := loads.run _ seated ahead.front
    have fits : (asciiOf "hi").length + 1 < charCapacity v.ty := capacity
    obtain ⟨buffer, s, -, -, prints, -⟩ := variable_printed
      (resolveSource_ok (toOption_eq_some ht)) known (Option.isNone_iff_eq_none.mp free) fits size
      (toOption_eq_some hr) (toOption_eq_some place) (through.seated.mpr seated)
      (through.ahead ahead) holds
    exact ⟨tree, result, r, s, toOption_eq_some ht, toOption_eq_some hr, holds, prints⟩
  · cases found

/-- The 24 letters fill the buffer, so the sign bits that a comparison left behind it are printed too. -/
theorem print_overruns :
    (runSource "[ v: char 32 = \"abcdefghijklmnopqrstuvwx\"; [ x: int = 1 < 2; print # v").toOption.map
      (·.output) = some "abcdefghijklmnopqrstuvwx\ufffd\ufffd\ufffd\ufffd" := by
  decide +kernel

end WindowedClosures
