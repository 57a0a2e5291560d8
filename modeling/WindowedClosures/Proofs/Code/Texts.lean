import WindowedClosures.Proofs.Code.Records
import WindowedClosures.Proofs.Code.Treading
import WindowedClosures.Proofs.Grammar.RoundTrip
import WindowedClosures.Proofs.Machine.Texts

/-!
# Texts are read back

A string literal is packed into words and loaded into registers in a row. The machine reads the bytes of
a row of registers up to the first zero, and finds the ASCII characters of the literal as far as its
first NUL character; the words behind the literal do not matter. A program that prints a literal which
fits the buffer prints its ASCII characters.
-/

namespace WindowedClosures

namespace Emit

/-! ## Packed bytes -/

/-- The characters of a literal that are stored. -/
def asciiOf (value : String) : List Char := value.toList.filter fun c => c.toNat < 128

/-- The words of a literal. -/
def wordsOf (value : String) : List Int32 := packWords (literalBytes value)

theorem toNat_of_mem_asciiOf {value : String} {c : Char} (mem : c ∈ asciiOf value) : c.toNat < 128 := by
  simpa using (List.mem_filter.mp mem).2

theorem length_literalBytes (value : String) :
    (literalBytes value).length = (asciiOf value).length + 1 := by
  rw [literalBytes, List.length_append, List.length_map, asciiOf, List.length_singleton]

theorem length_wordsOf (value : String) : (wordsOf value).length = ((asciiOf value).length + 1 + 3) / 4 := by
  rw [wordsOf, Laid.length_packWords, length_literalBytes]

theorem bytesOf_word (a b c d : UInt8) : Memory.bytesOf (packWords.word a b c d) = [a, b, c, d] := by
  have bits : (packWords.word a b c d).toUInt32 = Program.wordOf a b c d := Int32.toUInt32_ofNat' ..
  rw [← Program.wordBytes_wordOf a b c d, ← bits]
  rfl

/-- The bytes of packed words are those that were packed, and zeros up to a whole word. -/
theorem flatMap_packWords (bytes : List UInt8) : ∃ zeros,
    (packWords bytes).flatMap Memory.bytesOf = bytes ++ List.replicate zeros 0 := by
  fun_induction packWords bytes with
  | case1 => exact ⟨0, rfl⟩
  | case2 a => exact ⟨3, by rw [List.flatMap_singleton, bytesOf_word]; rfl⟩
  | case3 a b => exact ⟨2, by rw [List.flatMap_singleton, bytesOf_word]; rfl⟩
  | case4 a b c => exact ⟨1, by rw [List.flatMap_singleton, bytesOf_word]; rfl⟩
  | case5 a b c d rest ih =>
    obtain ⟨zeros, eq⟩ := ih
    exact ⟨zeros, by rw [List.flatMap_cons, bytesOf_word, eq]; rfl⟩

/-- The bytes of characters up to the first zero are those of the characters up to the first NUL. -/
theorem takeWhile_bytes {chars : List Char} (ascii : ∀ c ∈ chars, c.toNat < 128) (behind : List UInt8) :
    ((chars.map fun c => UInt8.ofNat c.toNat) ++ 0 :: behind).takeWhile (· != 0) =
      (chars.takeWhile (· != '\x00')).map fun c => UInt8.ofNat c.toNat := by
  induction chars with
  | nil => rfl
  | cons c rest ih =>
    have small := ascii c List.mem_cons_self
    have same : (UInt8.ofNat c.toNat != 0) = (c != '\x00') := by
      rw [Bool.eq_iff_iff, bne_iff_ne, bne_iff_ne, ne_eq, ne_eq, ← UInt8.toNat_inj, ← Char.toNat_inj,
        UInt8.toNat_ofNat']
      show ¬ c.toNat % 256 = 0 ↔ ¬ c.toNat = 0
      omega
    rw [List.map_cons, List.cons_append, List.takeWhile_cons, List.takeWhile_cons, same,
      ih fun d mem => ascii d (List.mem_cons_of_mem c mem)]
    split <;> rfl

/-- Behind the characters of a literal there is a zero. -/
theorem bytes_wordsOf (value : String) : ∃ zeros, (wordsOf value).flatMap Memory.bytesOf =
    ((asciiOf value).map fun c => UInt8.ofNat c.toNat) ++ 0 :: List.replicate zeros 0 := by
  obtain ⟨zeros, bytes⟩ := flatMap_packWords (literalBytes value)
  rw [literalBytes, List.append_assoc, List.singleton_append] at bytes
  exact ⟨zeros, bytes⟩

end Emit

open Emit

/-- The text at a register whose row holds the words of a literal. -/
theorem Machine.HoldsRow.decode {m : Machine} {r : Register} {value : String}
    (h : m.HoldsRow r (wordsOf value)) : Utf8.decodeLossy (m.textAt r.toByte) =
      String.ofList ((asciiOf value).takeWhile (· != '\x00')) := by
  obtain ⟨zeros, bytes⟩ := bytes_wordsOf value
  rw [h.textAt, bytes, if_pos (by simp), takeWhile_bytes fun c mem => toNat_of_mem_asciiOf mem]
  exact Utf8.decodeLossy_ascii fun c mem => toNat_of_mem_asciiOf (List.takeWhile_subset _ mem)

/-! ## Loading them -/

namespace Emit

variable {dst : Register} {words : List Int32} {watermark : Nat} {result : Emission Unit}
  {pairs : List (Register × Int32)}

theorem loadWords_from_ok {start : Nat} (h : ((words.zipIdx start).forM fun (word, i) => do
      loadInt (← register (dst.shift i)) word : Emit Unit) watermark = .ok result) :
    ∃ pairs : List (Register × Int32), result.code = (loadsAll pairs).map (fun i => ⟨i, none, none⟩) ∧
      pairs.map (·.2) = words ∧
      ∀ (i : Nat) (p : Register × Int32), pairs[i]? = some p → dst.shift (start + i) = .ok p.1 := by
  induction words generalizing start result with
  | nil =>
    rw [pure_ok h]
    exact ⟨[], rfl, rfl, by simp⟩
  | cons word rest ih =>
    obtain ⟨_, _, first, behind, rfl⟩ := bind_ok h
    obtain ⟨_, _, placed, loaded, rfl⟩ := bind_ok first
    obtain ⟨t, ht, rfl⟩ := register_ok placed
    rw [loadInt_eq] at loaded
    cases loaded
    obtain ⟨pairs, code, same, places⟩ := ih behind
    refine ⟨(t, word) :: pairs, ?_, by rw [List.map_cons, same], ?_⟩
    · rw [loadsAll, List.flatMap_cons, List.map_append, code]
      rfl
    · intro i p found
      cases i with
      | zero =>
        cases found
        exact ht
      | succ i =>
        rw [show start + (i + 1) = start + 1 + i by omega]
        exact places i p found

theorem succeeds_loadWords_from {dst : Register} {words : List Int32} {start watermark : Nat}
    {Q : Unit → Nat → Prop}
    (fits : dst.offset + start + words.length ≤ 64) (h : Q () watermark) :
    Succeeds ((words.zipIdx start).forM fun (word, i) => do
      loadInt (← register (dst.shift i)) word : Emit Unit) watermark Q := by
  induction words generalizing start with
  | nil => exact succeeds_pure h
  | cons word rest ih =>
    rw [List.length_cons] at fits
    have there : dst.shift start = .ok ⟨dst.bank, ⟨dst.offset + start, by omega⟩⟩ := dif_pos _
    refine succeeds_bind (succeeds_bind (succeeds_register there (succeeds_loadInt ?_)))
    exact ih (by omega)

/-- Words can be loaded as far as there are registers. -/
theorem succeeds_loadWords {Q : Unit → Nat → Prop} (fits : dst.offset + words.length ≤ 64)
    (h : Q () watermark) : Succeeds (loadWords dst words) watermark Q :=
  succeeds_loadWords_from (by omega) h

/-- The code that loads words has them each into the register at its position. -/
theorem loadWords_ok (h : loadWords dst words watermark = .ok result) :
    ∃ pairs : List (Register × Int32), result.code = (loadsAll pairs).map (fun i => ⟨i, none, none⟩) ∧
      pairs.map (·.2) = words ∧
      ∀ (i : Nat) (p : Register × Int32), pairs[i]? = some p → dst.shift i = .ok p.1 := by
  obtain ⟨pairs, code, same, places⟩ := loadWords_from_ok h
  exact ⟨pairs, code, same, fun i p found => by rw [← places i p found, Nat.zero_add]⟩

/-- The registers that such code writes. -/
theorem writes_loadsAll {t : Register} :
    (∃ i ∈ loadsAll pairs, i.writes? = some t) ↔ ∃ p ∈ pairs, p.1 = t := by
  have low (p : Register × Int32) (i : Instruction) (mem : i ∈ loads p.1 p.2) : i.writes? = some p.1 := by
    unfold loads at mem
    split at mem <;> simp only [List.mem_cons, List.not_mem_nil, or_false] at mem
    · rw [mem]
      simp [Instruction.writes?, Instruction.wide]
    · rcases mem with rfl | rfl <;> simp [Instruction.writes?, Instruction.wide]
  constructor
  · rintro ⟨i, mem, writes⟩
    obtain ⟨p, hp, mem⟩ := List.mem_flatMap.mp mem
    rw [low p i mem] at writes
    exact ⟨p, hp, Option.some.inj writes⟩
  · rintro ⟨p, hp, rfl⟩
    have first : Instruction.wide .loadLow p.1 (UInt16.ofNat p.2.toUInt32.toNat) ∈ loads p.1 p.2 :=
      List.mem_cons_self
    exact ⟨_, List.mem_flatMap.mpr ⟨p, hp, first⟩, low p _ first⟩

/-- A literal that is no single character is loaded as words if there is room for one more character. -/
theorem text_eq {ty : Ty} (array : ty.resolved ≠ .char) (value : String) (span : Span) (dst : Register) :
    text value span dst ty =
      if charCapacity ty ≤ (asciiOf value).length + 1 then
        fail (.literalTooLarge (asciiOf value).length (charCapacity ty) span)
      else loadWords dst (wordsOf value) := by
  rw [← length_literalBytes]
  unfold text
  dsimp only
  split
  · rename_i char _
    exact (array char).elim
  · rw [show (asciiOf value).length = (literalBytes value).length - 1 by rw [length_literalBytes]; rfl]
    rfl

theorem text_ok {value : String} {span : Span} {ty : Ty} (array : ty.resolved ≠ .char)
    (h : text value span dst ty watermark = .ok result) :
    loadWords dst (wordsOf value) watermark = .ok result ∧ (wordsOf value).length ≤ ty.size := by
  rw [text_eq array] at h
  split at h
  · exact (fail_ok h).elim
  · rename_i capacity
    have size := (Laid.charCapacity_pos (show 0 < charCapacity ty by omega)).2
    refine ⟨h, ?_⟩
    rw [length_wordsOf]
    omega

/-- A run through code that can be played leaves the table in the registers and changes no others than
the code does. -/
theorem through_of_play {code : List Instruction} {r : Run} {after : RegisterFile}
    (changed : Register → Prop) (seated : r.machine.Seated) (ahead : r.machine.Ahead code)
    (played : play code r.machine.file = .ok after)
    (others : ∀ t : Register, t.Near → ¬ changed t → after t = r.machine.file t) :
    ∃ s, r.Through s code.length ∧
      (∀ t : Register, t.Near → s.machine.readCell? (s.machine.cell t) = some (after t)) ∧
      ∀ c, (∀ t, changed t → c ≠ r.machine.cell t) → s.machine.readCell? c = r.machine.readCell? c := by
  obtain ⟨s, through, beside, shows_, -⟩ := (gets_of_play (fun _ _ => rfl) ahead played).through seated
  refine ⟨s, through, fun t near => ?_, fun c apart => ?_⟩
  · rw [(beside.seated seated).readCell? near, shows_ t near]
  · have kept (t : Register) (below : t.Below 64) (other : ¬ changed t) : after t = r.machine.file t :=
      others t below.near other
    exact readCell?_of_kept changed seated beside shows_ kept apart fun k _ _ => by omega

theorem through_loadsAll (near : ∀ p ∈ pairs, p.1.Near) (different : (pairs.map (·.1)).Nodup) {r : Run}
    (seated : r.machine.Seated) (ahead : r.machine.Ahead (loadsAll pairs)) :
    ∃ s, r.Through s (loadsAll pairs).length ∧
      (∀ p ∈ pairs, s.machine.readCell? (s.machine.cell p.1) = some p.2) ∧
      ∀ c, (∀ p ∈ pairs, c ≠ r.machine.cell p.1) → s.machine.readCell? c = r.machine.readCell? c := by
  obtain ⟨after, played, values, others⟩ := play_loadsAll near different r.machine.file
  obtain ⟨s, through, words, kept⟩ := through_of_play (· ∈ pairs.map (·.1)) seated ahead played others
  refine ⟨s, through, fun p mem => ?_, fun c apart => kept c fun t mem => ?_⟩
  · rw [words p.1 (near p mem), values p mem]
  · obtain ⟨p, hp, rfl⟩ := List.mem_map.mp mem
    exact apart p hp

/-- Code that loads a literal into the registers from a destination on. It writes no others, there are
as many as the ASCII characters and a zero need, and they belong to the type. From every machine on which
all registers exist a run through it leaves the characters up to the first NUL there for the machine to
read, and no other cell has changed. -/
structure LoadsText (value : String) (dst : Register) (ty : Ty) (code : List Instruction) : Prop where
  inside : ((asciiOf value).length + 1 + 3) / 4 ≤ ty.size
  writes : ∀ t, (∃ i ∈ code, i.writes? = some t) ↔
    ∃ k < ((asciiOf value).length + 1 + 3) / 4, dst.shift k = .ok t
  run : ∀ r : Run, r.machine.Seated → r.machine.Ahead code → ∃ s, r.Through s code.length ∧
    s.machine.HoldsRow dst (wordsOf value) ∧
    Utf8.decodeLossy (s.machine.textAt dst.toByte) =
      String.ofList ((asciiOf value).takeWhile (· != '\x00')) ∧
    ∀ c, (∀ t, (∃ i ∈ code, i.writes? = some t) → c ≠ r.machine.cell t) →
      s.machine.readCell? c = r.machine.readCell? c

theorem loadsText_of_ok {value : String} {span : Span} {ty : Ty} (near : dst.Near)
    (array : ty.resolved ≠ .char) (h : text value span dst ty watermark = .ok result) :
    LoadsText value dst ty (result.code.map (·.instruction)) := by
  obtain ⟨loaded, room⟩ := text_ok array h
  obtain ⟨pairs, code, words, places⟩ := loadWords_ok loaded
  have same : result.code.map (·.instruction) = loadsAll pairs := by
    rw [code, map_instruction]
  have count : pairs.length = ((asciiOf value).length + 1 + 3) / 4 := by
    rw [← length_wordsOf, ← words, List.length_map]
  have registers (t : Register) : (∃ p ∈ pairs, p.1 = t) ↔
      ∃ k < ((asciiOf value).length + 1 + 3) / 4, dst.shift k = .ok t := by
    rw [← count]
    constructor
    · rintro ⟨p, mem, rfl⟩
      obtain ⟨k, found⟩ := List.getElem?_of_mem mem
      exact ⟨k, (List.getElem?_eq_some_iff.mp found).1, places k p found⟩
    · rintro ⟨k, lt, shifted⟩
      have place := places k pairs[k] (List.getElem?_eq_getElem lt)
      rw [shifted] at place
      exact ⟨pairs[k], List.getElem_mem lt, (Except.ok.inj place).symm⟩
  have inBank (p : Register × Int32) (mem : p ∈ pairs) : p.1.Near := by
    have bank := (bounds_of_shifts places mem).1
    rwa [Register.Near, bank]
  rw [same]
  refine ⟨by rw [← count, ← List.length_map (f := (·.2)), words]; exact room, fun t => ?_, ?_⟩
  · rw [writes_loadsAll, registers]
  · intro r seated ahead
    obtain ⟨s, through, values, kept⟩ :=
      through_loadsAll inBank (different_of_shift places).1 seated ahead
    have row : s.machine.HoldsRow dst (wordsOf value) := by
      intro k word found
      rw [← words, List.getElem?_map, Option.map_eq_some_iff] at found
      obtain ⟨p, found, rfl⟩ := found
      exact ⟨p.1, places k p found, values p (List.mem_of_getElem? found)⟩
    refine ⟨s, through, row, row.decode, fun c apart => kept c fun p mem => ?_⟩
    exact apart p.1 (writes_loadsAll.mpr ⟨p, mem, rfl⟩)

end Emit

/-! ## Printing a literal -/

/-- Unless a variable has that name, `print` is the built-in function. -/
theorem lower_print {s : Site} (free : s.scope.local? "print" = none) (argument : Expr)
    (p₁ p₂ : Span) (dst : Register) (ty : Ty) :
    lower s (.binary .apply (.name "print" p₁) argument p₂) dst ty = print (lower s argument) := by
  rw [lower]
  simp only [call, Expr.unwrapped, Expr.asName?, free]
  rfl

/-- A statement that prints has a scratch register that is not used. -/
theorem lowerStatement_print {s : Site} (free : s.scope.local? "print" = none) (isLast : Bool)
    (noOutput : isLast = true → s.scope.arrow.output.isVoid) (argument : Expr) (p₁ p₂ : Span) :
    lowerStatement s isLast (.binary .apply (.name "print" p₁) argument p₂) =
      releasing (temp >>= fun _ => releasing (print (lower s argument))) := by
  have unused : (isLast && !s.scope.arrow.output.isVoid) = false := by
    cases isLast with
    | false => rfl
    | true => simp [noOutput rfl]
  simp only [lowerStatement, unused, eval, lower_print free]
  rfl

/-- The buffer takes the first six scratch registers. -/
theorem print_eq (lowered : Lowering) {watermark : Nat} (room : watermark + 6 ≤ 64) :
    print lowered watermark = (releasing (lowered ⟨.window, ⟨watermark, by omega⟩⟩ printBuffer) >>=
      fun _ => push (.wide .print ⟨.window, ⟨watermark, by omega⟩⟩ 0)) (watermark + 6) := by
  have reserved : alloc printBuffer.size watermark = .ok ⟨watermark, [], watermark + 6⟩ := if_pos room
  have buffer : Register.ofOffset .window watermark = .ok ⟨.window, ⟨watermark, by omega⟩⟩ :=
    dif_pos (by omega)
  rw [print, bind_silent reserved, buffer]
  exact bind_silent rfl

/-- A program that loads a literal, prints it and returns does so on every machine. -/
theorem Emit.LoadsText.execute {value : String} {buffer : Register} {ty : Ty} {code : List Instruction}
    (h : LoadsText value buffer ty code) (labels : List Label) (m : Machine)
    (fits : code.length + 66 ≤ stackSize) {limit : Nat} (enough : code.length + 2 ≤ limit) :
    m.execute limit ⟨code ++ [.wide .print buffer 0] ++ [⟨.ret, 0, 0⟩] ++ [⟨.call, 0, 0⟩], labels⟩ 0 =
      .ok ⟨[], String.ofList ((asciiOf value).takeWhile (· != '\x00'))⟩ := by
  generalize hp : code ++ [.wide .print buffer 0] ++ [(⟨.ret, 0, 0⟩ : Instruction)] = placed
  have length : placed.length = code.length + 2 := by
    rw [← hp, List.length_append, List.length_append]
    rfl
  have ahead : (Run.start placed 0).machine.Ahead
      (code ++ [.wide .print buffer 0] ++ [⟨.ret, 0, 0⟩]) := by
    rw [hp]
    exact Run.ahead_start (by omega)
  have seated : (Run.start placed 0).machine.Seated := Run.seated_start (by omega)
  -- the loads, then the text, then the return
  obtain ⟨s, through, -, read, -⟩ := h.run _ seated ahead.front.front
  obtain ⟨t, printed, -⟩ := through.prints_text (through.ahead ahead.front)
  have behind : t.machine.Ahead [⟨.ret, 0, 0⟩] :=
    ahead.behind (by simpa using printed.pc) printed.top printed.stack
  have tick : Exec.tick .none t = _ := Exec.tick_of_instruction behind.instruction? rfl
  rw [Exec.step_ret rfl] at tick
  rw [show (t.charge ⟨.ret, 0, 0⟩).callers = [⟨0, placed.length, 0⟩] from printed.callers] at tick
  have ticks : Exec.ticks .none limit (.start placed 0) =
      .ok () ((t.charge ⟨.ret, 0, 0⟩).leaving ⟨0, placed.length, 0⟩ []) := by
    obtain ⟨k, rfl⟩ : ∃ k, limit = code.length + 1 + (k + 1) := ⟨limit - code.length - 2, by omega⟩
    rw [printed.ticks, Exec.ticks_of_end tick]
  rw [execute_of_ticks labels m (by omega) ticks 0]
  show Except.ok (Machine.Execution.mk [] (String.join t.prints.reverse)) = _
  rw [printed.prints, read]
  simp [Run.start, String.join]

namespace ScopeTree

variable {value : String} {p₁ p₂ p₃ p₄ : Span}

/-- The program of one statement that prints a literal. -/
def printing (value : String) (p₁ p₂ p₃ p₄ : Span) : ScopeTree :=
  .single (.binary .apply (.name "print" p₁) (.text value p₂) p₃) p₄ [] []

theorem closed_print : (Expr.binary .apply (.name "print" p₁) (.text value p₂) p₃).Closed where
  literals := rfl
  desugared _ := by simp [desugarExpr]
  numbered _ _ := by simp [numberExpr]
  placed order bodyNodes id node mem := by
    simp only [nodesWith, Order.mem_place_iff, List.mem_append, List.mem_singleton] at mem
    rcases mem with rfl | rfl | rfl <;> rfl

theorem resolve_printing :
    (printing value p₁ p₂ p₃ p₄).resolve = .ok (printing value p₁ p₂ p₃ p₄) := by
  have types : (printing value p₁ p₂ p₃ p₄).number.declareTypes = .ok (printing value p₁ p₂ p₃ p₄) := by
    rw [printing, Closed.number closed_print]
    rfl
  exact resolve_ok_iff.mpr ⟨_, _, _, _, _, _, Closed.desugar closed_print, types, rfl, rfl, rfl, rfl, rfl⟩

/-- The first scratch register is not used, the buffer takes the next six. -/
theorem compile_printing (short : (asciiOf value).length ≤ 22) : ∃ code,
    (printing value p₁ p₂ p₃ p₄).compile =
      .ok ⟨code ++ [.wide .print ⟨.window, 1⟩ 0] ++ [⟨.ret, 0, 0⟩] ++ [⟨.call, 0, 0⟩], []⟩ ∧
    LoadsText value ⟨.window, 1⟩ printBuffer code ∧ code.length ≤ 12 := by
  let s : Site := ⟨printing value p₁ p₂ p₃ p₄, rootId⟩
  have few := length_wordsOf value
  have loads : Succeeds (loadWords ⟨.window, 1⟩ (wordsOf value)) 7 fun _ mark => mark = 7 :=
    succeeds_loadWords (show 1 + _ ≤ 64 by omega) rfl
  obtain ⟨⟨_, code, _⟩, loaded, rfl⟩ := loads
  obtain ⟨pairs, rfl, words, -⟩ := loadWords_ok loaded
  have room : ¬ charCapacity printBuffer ≤ (asciiOf value).length + 1 := by
    show ¬ 24 ≤ _
    omega
  have built : text value p₂ ⟨.window, 1⟩ printBuffer 7 =
      .ok ⟨(), (loadsAll pairs).map fun i => ⟨i, none, none⟩, 7⟩ := by
    rw [text_eq (by decide), if_neg room, loaded]
  have two := length_loadsAll pairs
  rw [show pairs.length = (wordsOf value).length by rw [← words, List.length_map]] at two
  have emitted : lowerStatement s true (.binary .apply (.name "print" p₁) (.text value p₂) p₃) 0 =
      .ok ⟨(), (loadsAll pairs ++ [Instruction.wide .print ⟨.window, 1⟩ 0]).map fun i => ⟨i, none, none⟩,
        0⟩ := by
    have printed : print (lower s (.text value p₂)) 1 = .ok ⟨(), (loadsAll pairs ++
        [Instruction.wide .print ⟨.window, 1⟩ 0]).map fun i => ⟨i, none, none⟩, 7⟩ := by
      rw [print_eq _ (by decide)]
      show (releasing (lower s (.text value p₂) ⟨.window, 1⟩ printBuffer) >>= fun _ =>
        Emit.push (.wide .print ⟨.window, 1⟩ 0)) 7 = _
      rw [lower]
      simp only [bind, releasing, built, Emit.push, List.map_append, List.map_cons, List.map_nil]
    rw [lowerStatement_print rfl true fun _ => rfl, releasing,
      bind_silent (show temp 0 = .ok ⟨.first, [], 1⟩ from rfl), releasing, printed]
  refine ⟨loadsAll pairs, compile_of_lowered rfl rfl emitted rfl ?_, ?_, by omega⟩
  · rw [List.length_append, List.length_singleton]
    omega
  · have loads := loadsText_of_ok (.inl rfl) (by decide) built
    rwa [map_instruction] at loads

end ScopeTree

theorem parse_printing {value : String} (quote : '"' ∉ value.toList) : ∃ p₁ p₂ p₃ p₄,
    parseSource ("print # \"" ++ value ++ "\"") = .ok (.printing value p₁ p₂ p₃ p₄) := by
  have name : IsName "print" :=
    ⟨'p', ['r', 'i', 'n', 't'], rfl, by decide, List.all_eq_true.mp (by decide)⟩
  have hash : Draws anyChar [' ', '#', ' '] [.leaf (.symbol .hash)] := .sign rfl (.single rfl)
  have draws := ((Draws.name name).append hash (by simp; decide)).append (Draws.text quote)
    fun _ _ => trivial
  have lays := draws.lays [] [] nofun .done
  have source : "print".toList ++ [' ', '#', ' '] ++ ("\"" ++ value ++ "\"").toList =
      ("print # \"" ++ value ++ "\"").toList := by simp
  rw [List.append_nil, List.append_nil, source] at lays
  obtain ⟨tokens, tokenized, same⟩ :=
    tokenize_of_lays lays (separated_of_anywhere draws.anywhere _) draws.nested
  obtain ⟨_, _, rfl, first, same⟩ := bareAll_eq_cons same
  obtain ⟨_, _, rfl, second, same⟩ := bareAll_eq_cons same
  obtain ⟨_, _, rfl, third, same⟩ := bareAll_eq_cons same
  obtain rfl := bareAll_eq_nil same
  obtain ⟨p₁, _, rfl⟩ := bare_eq_leaf first
  obtain ⟨_, _, rfl⟩ := bare_eq_leaf second
  obtain ⟨p₂, _, rfl⟩ := bare_eq_leaf third
  rw [parseSource, readTokens, tokenized]
  exact ⟨p₁, p₂, _, _, rfl⟩

theorem compileSource_of_stages {source : String} {parsed tree : ScopeTree} {program : Program}
    (read : parseSource source = .ok parsed) (resolved : parsed.resolve = .ok tree)
    (compiled : tree.compile = .ok program) : compileSource source = .ok ⟨tree, program⟩ := by
  simp only [compileSource, resolveSource, compileTree, read, resolved, compiled, bind, Except.bind]

/-- Where a literal is lowered into an array its ASCII characters are read back up to the first NUL, and
the code writes no registers but those they need, which all belong to the array. A program that prints a
literal of at most 22 ASCII characters, none of them NUL, prints these. -/
theorem texts_read_back (value : String) :
    (∀ {dst : Register} {ty : Ty} {span : Span} {watermark : Nat} {result : Emission Unit},
      dst.Near → ty.resolved ≠ .char → text value span dst ty watermark = .ok result →
        LoadsText value dst ty (result.code.map (·.instruction))) ∧
    ('"' ∉ value.toList → '\x00' ∉ value.toList → (asciiOf value).length ≤ 22 →
      ∃ c, compileSource ("print # \"" ++ value ++ "\"") = .ok c ∧ c.tree.root.size = 0 ∧
        ∀ (m : Machine) (limit : Nat), 14 ≤ limit →
          m.execute limit c.program 0 = .ok ⟨[], String.ofList (asciiOf value)⟩) := by
  refine ⟨loadsText_of_ok, fun quote nul short => ?_⟩
  obtain ⟨p₁, p₂, p₃, p₄, parsed⟩ := parse_printing quote
  obtain ⟨code, compiled, loads, few⟩ := ScopeTree.compile_printing short
  refine ⟨_, compileSource_of_stages parsed ScopeTree.resolve_printing compiled, rfl, ?_⟩
  intro m limit enough
  have all : (asciiOf value).takeWhile (· != '\x00') = asciiOf value := by
    rw [List.takeWhile_eq_self_iff]
    intro c mem
    have inside := (List.mem_filter.mp mem).1
    simpa using fun same : c = '\x00' => nul (same ▸ inside)
  have fits : code.length + 66 ≤ stackSize := by
    rw [stackSize]
    omega
  rw [loads.execute [] m fits (by omega), all]

/-- A literal of 22 ASCII characters and one more fits the buffer exactly, and it can be lowered into
captured registers. -/
theorem texts_read_back_full :
    (∃ result, text "naïve, exactly full now" .zero ⟨.closure, 3⟩ (.array .char 24) 9 = .ok result ∧
      LoadsText "naïve, exactly full now" ⟨.closure, 3⟩ (.array .char 24)
        (result.code.map (·.instruction))) ∧
    ∃ c, compileSource "print # \"naïve, exactly full now\"" = .ok c ∧
      Machine.fresh.execute 14 c.program 0 = .ok ⟨[], "nave, exactly full now"⟩ := by
  obtain ⟨lowered, printed⟩ := texts_read_back "naïve, exactly full now"
  constructor
  · have found : (text "naïve, exactly full now" .zero ⟨.closure, 3⟩ (.array .char 24) 9).toOption.isSome := by
      decide +kernel
    obtain ⟨result, emitted⟩ := Option.isSome_iff_exists.mp found
    exact ⟨result, toOption_eq_some emitted, lowered (.inr rfl) (by decide) (toOption_eq_some emitted)⟩
  · obtain ⟨c, compiled, -, runs⟩ := printed (by decide) (by decide) (by decide)
    exact ⟨c, compiled, runs .fresh 14 (by decide)⟩

end WindowedClosures
