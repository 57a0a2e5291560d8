import WindowedClosures.Proofs.Code.Chains
import WindowedClosures.Proofs.Code.Numbers
import WindowedClosures.Proofs.Code.Requests

/-!
# Copies keep functions

Copying the registers of a value that is known to hold the functions of its type makes them known
of the destination too. A text has no functions, and its words stay inside its place.
-/

namespace WindowedClosures

theorem Scope.Owes.mono {s : Scope} {Γ Γ' : Claims} {r : Register} {c : Claim} (h : s.Owes Γ r c)
    (le : ∀ o c, Γ o c → Γ' o c) : s.Owes Γ' r c := by
  rcases h with ⟨bank, claim⟩ | captured
  · exact .inl ⟨bank, le _ c claim⟩
  · exact .inr captured

namespace Laid

open Emit

variable {tree : ScopeTree} {program : Program} {l : Laid tree program} {id : Nat}
  {names : List String} {watermark : Nat} {Γ : Claims} {dst src : Register} {ty : Ty} {room : Nat}

/-- Claims with the functions of the first so many registers of a value added. -/
def Part (Γ : Claims) (dst : Register) (ty : Ty) (count : Nat) : Claims :=
  fun o c => Γ o c ∨ dst.bank = .window ∧ ∃ k a, k < count ∧ o = dst.offset + k ∧ ty.Calls k a ∧
    c = .calls a

theorem part_le_put (Γ : Claims) (dst : Register) (ty : Ty) (count o : Nat) (c : Claim)
    (h : Part Γ dst ty count o c) : Γ.put dst ty o c := by
  rcases h with old | ⟨bank, k, a, -, place, calls, eq⟩
  · exact .inl old
  · exact .inr ⟨bank, k, a, place, calls, eq⟩

/-- A word that was moved is the word that was read. -/
theorem result_move {slot origin : Register} {read : UInt8 → Option Int32} {word : Int32}
    (h : (Instruction.triple .move slot origin .first).result read = .ok word) :
    read origin.toByte = some word := by
  have op : (Instruction.triple .move slot origin .first).op = .move := rfl
  simp only [Instruction.result, op, Instruction.y_triple] at h
  split at h
  · rename_i found
    cases h
    exact found
  · cases h

/-- A register of a place gets the word of a register that holds what the place has to. -/
theorem carries_move (knows : (tree.scope id).Knows names watermark Γ)
    (takes : (tree.scope id).Takes Γ watermark dst ty room) {k : Nat} (lt : k < room)
    {slot origin : Register} (hslot : dst.shift k = .ok slot)
    (source : ∀ a, ty.Calls k a → (tree.scope id).Owes Γ origin (.calls a)) :
    l.Carries (l.Stands id Γ 64) ⟨.triple .move slot origin .first, none, none⟩
      (l.Stands id (Γ.add slot fun c => ∃ a, ty.Calls k a ∧ c = .calls a) 64) := by
  refine .data _ rfl rfl fun w m word stands result isSome => ?_
  have read : m.readCell? (m.cell origin) = some word := by
    have found := result_move result
    rwa [Machine.read?, Register.ofByte_toByte] at found
  have meets (a : Arrow) (calls : ty.Calls k a) : l.Meets w (.calls a) word :=
    stands.meets (source a calls) (.inl rfl) read
  rw [Instruction.x_triple] at isSome ⊢
  refine stands.write isSome (takes.reaches hslot) ?_ ?_
  · intro c owes
    obtain ⟨a, rfl, calls⟩ := takes.owes knows lt hslot owes
    exact meets a calls
  · rintro c ⟨a, calls, rfl⟩
    exact meets a calls

theorem turns_copyFrom (knows : (tree.scope id).Knows names watermark Γ)
    (takes : (tree.scope id).Takes Γ watermark dst ty room)
    (source : ∀ k a, ty.Calls k a → ∀ r, src.shift k = .ok r →
      (tree.scope id).Owes Γ r (.calls a)) (count start : Nat) (fits : start + count ≤ room) :
    l.Turns (copyFrom dst src start count) watermark (l.Stands id (Part Γ dst ty start) 64)
      (l.Stands id (Part Γ dst ty (start + count)) 64) := by
  induction count generalizing start with
  | zero => exact Hands.turns (hands_pure fun _ _ stands => stands)
  | succ count ih =>
    refine Hands.turns ?_
    refine hands_bind (hands_register fun slot hslot => ?_)
    refine hands_bind (hands_register fun origin horigin => ?_)
    have knows' : (tree.scope id).Knows names watermark (Part Γ dst ty start) := by
      have put := knows.put takes
      refine ⟨put.size, ?_, ?_, fun n hn v known own k a calls =>
        .inl (knows.covers n hn v known own k a calls)⟩
      · exact fun o c claim => put.within o c (part_le_put _ _ _ _ _ _ claim)
      · exact fun o c claim => put.lawful o c (part_le_put _ _ _ _ _ _ claim)
    have takes' : (tree.scope id).Takes (Part Γ dst ty start) watermark dst ty room :=
      takes.congr (Nat.le_refl _) fun k _ _ c claim => part_le_put _ _ _ _ _ _ claim
    refine hands_bind (hands_push (carries_move knows' takes' (by omega) hslot fun a calls =>
      (source start a calls origin horigin).mono fun _ _ claim => .inl claim) ?_)
    obtain ⟨bank, place⟩ := Register.shift_ok hslot
    refine ((ih (start + 1) (by omega)).mono (fun w n stands => ?_) fun w n stands => ?_).last
    · refine stands.mono ?_
      rintro o c (old | ⟨window, k, a, lt, rfl, calls, rfl⟩)
      · exact .inl (.inl old)
      · by_cases last : k = start
        · subst last
          exact .inr ⟨⟨bank.trans window, place⟩, a, calls, rfl⟩
        · exact .inl (.inr ⟨window, k, a, by omega, rfl, calls, rfl⟩)
    · rwa [show start + 1 + count = start + (count + 1) by omega] at stands

/-- Copying a value makes its functions known of the destination. -/
theorem turns_copy (knows : (tree.scope id).Knows names watermark Γ)
    (takes : (tree.scope id).Takes Γ watermark dst ty room) {srcTy : Ty}
    (source : ∀ k a, ty.Calls k a → k < srcTy.size ∧ ∀ r, src.shift k = .ok r →
      (tree.scope id).Owes Γ r (.calls a)) :
    l.Turns (copy dst src srcTy ty) watermark (l.Stands id Γ 64) (l.Stands id (Γ.put dst ty) 64) := by
  unfold copy
  split
  · rename_i void
    refine Hands.turns (hands_pure fun _ _ stands => stands.mono fun _ _ claim => ?_)
    exact Claims.put_plain (Ty.calls_of_isVoid void).2 claim
  · have fits := takes.fits
    refine (turns_copyFrom knows takes (fun k a calls => (source k a calls).2)
      (min srcTy.size ty.size) 0 (by omega)).mono (fun w n stands => ?_) fun w n stands => ?_
    · refine stands.mono ?_
      rintro o c (old | ⟨-, k, a, lt, -⟩)
      · exact old
      · omega
    · refine stands.mono ?_
      rintro o c (old | ⟨window, k, a, place, calls, eq⟩)
      · exact .inl old
      · have inside := (source k a calls).1
        have bound := calls.lt_size
        exact .inr ⟨window, k, a, by omega, place, calls, eq⟩

/-! ## Variables and their parts -/

/-- What a copy may rely on: where functions are expected the source has them, and it is set. -/
theorem takesCopy_ok {source : Ty} {isSet : Bool} (h : ty.takesCopy source isSet = true) {k : Nat}
    {a : Arrow} (calls : ty.Calls k a) : source.Calls k a ∧ isSet = true := by
  rw [Ty.takesCopy, calls.hasFunctions, Bool.not_true, Bool.false_or, Bool.and_eq_true,
    decide_eq_true_iff] at h
  exact ⟨(h.1.calls_iff k a).mpr calls, h.2⟩

/-- A place is a part of a variable, and its functions are functions of the variable. -/
theorem place_ok {e : Expr} {r : Register} {part : Ty}
    (h : Site.place ⟨tree, id⟩ e = .ok (r, part)) :
    ∃ n v d, e.root? = some n ∧ (tree.scope id).local? n = some v ∧ r.bank = v.bank ∧
      r.offset.val = v.offset + d ∧ ∀ k a, part.Calls k a → v.ty.Calls (d + k) a := by
  obtain ⟨n, chain, v, d, written, known, -, leads, begins⟩ := Site.place_eq_ok_iff.mp h
  obtain ⟨bank, offset⟩ := Register.ofOffset_ok begins
  exact ⟨n, v, d, Expr.root?_of_chain written, known, bank, offset,
    fun k a calls => Ty.calls_follow? leads calls⟩

/-- Copying a part of a variable. -/
theorem turns_copy_part (rowed : (tree.scope id).Rowed)
    (knows : (tree.scope id).Knows names watermark Γ)
    (takes : (tree.scope id).Takes Γ watermark dst ty room) {n : String} {v : Variable}
    (known : (tree.scope id).local? n = some v) {d : Nat} {part : Ty} (bank : src.bank = v.bank)
    (offset : src.offset.val = v.offset + d)
    (inner : ∀ k a, part.Calls k a → v.ty.Calls (d + k) a)
    (admits : ty.takesCopy part (names.contains n) = true) :
    l.Turns (copy dst src part ty) watermark (l.Stands id Γ 64) (l.Stands id (Γ.put dst ty) 64) := by
  refine turns_copy knows takes fun k a calls => ?_
  obtain ⟨calls', isSet⟩ := takesCopy_ok admits calls
  refine ⟨calls'.lt_size, fun r hr => ?_⟩
  obtain ⟨bank', offset'⟩ := Register.shift_ok hr
  refine knows.owes rowed known (by simpa using isSet) (bank'.trans bank) ?_ (inner k a calls')
  omega

theorem turns_copyVariable (rowed : (tree.scope id).Rowed)
    (knows : (tree.scope id).Knows names watermark Γ)
    (takes : (tree.scope id).Takes Γ watermark dst ty room) {n : String} {v : Variable}
    (known : (tree.scope id).local? n = some v)
    (admits : ty.takesCopy v.ty (names.contains n) = true) :
    l.Turns (copyVariable dst v ty) watermark (l.Stands id Γ 64)
      (l.Stands id (Γ.put dst ty) 64) := by
  refine Hands.turns (hands_bind (hands_register fun r hr => ?_))
  obtain ⟨bank, offset⟩ := Register.ofOffset_ok hr
  refine (turns_copy_part rowed knows takes known bank (d := 0) offset ?_ admits).last
  intro k a calls
  rwa [Nat.zero_add]

/-! ## Texts -/

theorem length_packWords (bytes : List UInt8) : (packWords bytes).length = (bytes.length + 3) / 4 := by
  fun_induction packWords bytes with
  | case1 => rfl
  | case2 a | case3 a b | case4 a b c => simp
  | case5 a b c d rest ih =>
    simp only [List.length_cons, ih]
    omega

/-- An array with room for characters has no functions, and so many words for them. -/
theorem charCapacity_pos (h : 0 < charCapacity ty) :
    (∀ k a, ¬ ty.Calls k a) ∧ ty.size = (charCapacity ty + 3) / 4 := by
  unfold charCapacity at h ⊢
  split at h
  · rename_i elem count array
    split at h
    · rename_i char
      rw [← Ty.size_resolved, array]
      refine ⟨fun k a calls => ?_, by simp only [Ty.size, char]⟩
      rw [← Ty.calls_resolved, array, Ty.Calls, Ty.isPacked, char] at calls
      cases calls.1
    · cases h
  · cases h

theorem turns_loadWords (knows : (tree.scope id).Knows names watermark Γ)
    (takes : (tree.scope id).Takes Γ watermark dst ty room) (plain : ∀ k a, ¬ ty.Calls k a)
    (words : List Int32) (fits : words.length ≤ room) :
    l.Turns (loadWords dst words) watermark (l.Stands id Γ 64) (l.Stands id Γ 64) := by
  refine Hands.turns ((hands_forM words.zipIdx (A := fun _ => l.Stands id Γ 64) ?_).mono
    (fun _ _ h => h) ?_)
  · rintro n ⟨word, i⟩ found
    rw [List.getElem?_zipIdx, Option.map_eq_some_iff] at found
    obtain ⟨word', found, eq⟩ := found
    injection eq with _ index
    have lt : i < room := by
      have := (List.getElem?_eq_some_iff.mp found).1
      omega
    refine hands_bind (hands_register fun r hr => ?_)
    have free (c : Claim) : ¬ (tree.scope id).Owes Γ r c := by
      intro owes
      obtain ⟨a, -, calls⟩ := takes.owes knows lt hr owes
      exact plain i a calls
    intro result emitted
    obtain ⟨R, checks, mark, le⟩ := hands_loadInt (l := l) knows (takes.reaches hr) free
      (K := fun _ mark R => mark = watermark ∧ ∀ w m, R w m → l.Stands id Γ 64 w m)
      ⟨rfl, fun _ _ stands => stands.mono fun _ _ claim => .inl claim⟩ result emitted
    exact ⟨_, checks.mono (fun _ _ h => h) le, mark, rfl⟩
  · rintro _ mark R ⟨-, rfl⟩ w m stands
    exact stands

theorem turns_text (knows : (tree.scope id).Knows names watermark Γ)
    (takes : (tree.scope id).Takes Γ watermark dst ty room) (value : String) (span : Span) :
    l.Turns (text value span dst ty) watermark (l.Stands id Γ 64)
      (l.Stands id (Γ.put dst ty) 64) := by
  unfold text
  dsimp only
  split
  · rename_i c last char bytes
    have plain : ∀ k a, ¬ ty.Calls k a := by
      intro k a calls
      rw [← Ty.calls_resolved, char] at calls
      exact calls
    have size : ty.size = 1 := by
      rw [← Ty.size_resolved, char, Ty.size]
    have fits := takes.fits
    have takes' := takes.number plain (by omega)
    refine (turns_sets (fun _ => False) knows takes' fun w n _ => ?_).mono (fun _ _ h => h)
      fun _ _ stands => stands.mono fun _ _ claim => .inl (Claims.put_plain plain claim)
    exact makes_push rfl rfl (takes'.below Nat.one_pos).near rfl
      fun after sets => ⟨_, sets, fun _ h => h.elim⟩
  · split
    · exact Hands.turns (hands_fail _)
    · rename_i capacity
      obtain ⟨plain, size⟩ := charCapacity_pos (show 0 < charCapacity ty by omega)
      have fits := takes.fits
      refine (turns_loadWords knows takes plain _ ?_).mono (fun _ _ h => h) fun w m stands =>
        stands.mono fun _ _ claim => Claims.put_plain plain claim
      rw [length_packWords]
      omega

end Laid

end WindowedClosures
