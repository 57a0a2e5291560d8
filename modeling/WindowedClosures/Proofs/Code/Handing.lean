import WindowedClosures.Proofs.Code.Playing
import WindowedClosures.Proofs.Machine.Contracts

/-!
# Emissions between assertions

A rule for "the emitted code leads from this assertion to one that suits", which composes the way
emissions do. Straight-line code leads wherever playing it ends.
-/

namespace WindowedClosures

namespace Laid

open Emit

variable {tree : ScopeTree} {program : Program} {α β : Type}

/-- Whenever the emission succeeds at a watermark, its code leads from an assertion to one that
suits. -/
def Hands (l : Laid tree program) (m : Emit α) (watermark : Nat) (P : Assertion)
    (K : α → Nat → Assertion → Prop) : Prop :=
  ∀ result, m watermark = .ok result →
    ∃ R, l.Checks result.code P R ∧ K result.value result.watermark R

/-- Whenever the emission succeeds at a watermark, its code leads from one assertion to another. -/
def Turns (l : Laid tree program) (m : Emit Unit) (watermark : Nat) (P Q : Assertion) : Prop :=
  ∀ result, m watermark = .ok result → l.Checks result.code P Q

variable {l : Laid tree program} {watermark : Nat} {P P' Q Q' R : Assertion}
  {K K' : α → Nat → Assertion → Prop}

theorem Hands.mono {m : Emit α} (h : l.Hands m watermark P K) (before : ∀ w n, P' w n → P w n)
    (suits : ∀ a w R, K a w R → K' a w R) : l.Hands m watermark P' K' := by
  intro result hr
  obtain ⟨R, checks, k⟩ := h result hr
  exact ⟨R, checks.mono before fun _ _ hr => hr, suits _ _ _ k⟩

theorem Turns.mono {m : Emit Unit} (h : l.Turns m watermark P Q) (before : ∀ w n, P' w n → P w n)
    (after : ∀ w n, Q w n → Q' w n) : l.Turns m watermark P' Q' :=
  fun result hr => (h result hr).mono before after

theorem Hands.turns {m : Emit Unit}
    (h : l.Hands m watermark P fun _ _ R => ∀ w n, R w n → Q w n) : l.Turns m watermark P Q := by
  intro result hr
  obtain ⟨R, checks, le⟩ := h result hr
  exact checks.mono (fun _ _ hp => hp) le

/-- Code whose scratch registers are given back. -/
theorem Turns.releasing {m : Emit Unit} {K : Unit → Nat → Assertion → Prop}
    (h : l.Turns m watermark P Q) (suits : K () watermark Q) :
    l.Hands (releasing m) watermark P K := by
  intro result hr
  obtain ⟨inner, hm, rfl⟩ := releasing_ok hr
  exact ⟨Q, h inner hm, suits⟩

/-- Code behind which the watermark does not matter. -/
theorem Turns.next {m : Emit Unit} {K : Unit → Nat → Assertion → Prop} (h : l.Turns m watermark P Q)
    (suits : ∀ mark, K () mark Q) : l.Hands m watermark P K :=
  fun result hr => ⟨Q, h result hr, suits result.watermark⟩

theorem Turns.last {m : Emit Unit} (h : l.Turns m watermark P Q) :
    l.Hands m watermark P fun _ _ R => ∀ w n, R w n → Q w n :=
  h.next fun _ _ _ hq => hq

theorem hands_pure {a : α} (h : K a watermark P) : l.Hands (pure a) watermark P K := by
  intro result hr
  rw [pure_ok hr]
  exact ⟨P, fun _ _ hp => hp, h⟩

theorem hands_fail (e : CompileError) : l.Hands (fail e) watermark P K := by
  intro result hr
  exact (fail_ok hr).elim

theorem hands_bind {m : Emit α} {f : α → Emit β} {K : β → Nat → Assertion → Prop}
    (h : l.Hands m watermark P fun a w R => l.Hands (f a) w R K) :
    l.Hands (m >>= f) watermark P K := by
  intro result hr
  obtain ⟨first, second, h₁, h₂, rfl⟩ := bind_ok hr
  obtain ⟨R, front, next⟩ := h first h₁
  obtain ⟨S, back, k⟩ := next second h₂
  exact ⟨S, front.append back, k⟩

theorem hands_releasing {m : Emit α}
    (h : l.Hands m watermark P fun a _ R => K a watermark R) :
    l.Hands (releasing m) watermark P K := by
  intro result hr
  obtain ⟨inner, hm, rfl⟩ := releasing_ok hr
  exact h inner hm

theorem hands_lift {found : Except CompileError α} (h : ∀ a, found = .ok a → K a watermark P) :
    l.Hands (lift found) watermark P K := by
  intro result hr
  obtain ⟨a, ha, rfl⟩ := lift_ok hr
  exact ⟨P, fun _ _ hp => hp, h a ha⟩

theorem hands_register {found : Except RegisterOverflow Register}
    {K : Register → Nat → Assertion → Prop} (h : ∀ r, found = .ok r → K r watermark P) :
    l.Hands (register found) watermark P K := by
  intro result hr
  obtain ⟨r, hf, rfl⟩ := register_ok hr
  exact ⟨P, fun _ _ hp => hp, h r hf⟩

theorem hands_alloc {size : Nat} {K : Nat → Nat → Assertion → Prop}
    (h : watermark + size ≤ 64 → K watermark (watermark + size) P) :
    l.Hands (alloc size) watermark P K := by
  intro result hr
  obtain ⟨fits, rfl⟩ := alloc_ok hr
  exact ⟨P, fun _ _ hp => hp, h fits⟩

theorem hands_temp {K : Register → Nat → Assertion → Prop}
    (h : ∀ t : Register, t.At watermark → K t (watermark + 1) P) :
    l.Hands temp watermark P K := by
  refine hands_bind (hands_alloc fun _ => hands_register fun t ht => h t ?_)
  exact Register.ofOffset_ok ht

theorem hands_push {i : Instruction} {K : Unit → Nat → Assertion → Prop}
    (carries : l.Carries P ⟨i, none, none⟩ R) (h : K () watermark R) :
    l.Hands (push i) watermark P K := by
  intro result hr
  rw [push_ok hr]
  exact ⟨R, ⟨R, carries, fun _ _ hr => hr⟩, h⟩

theorem hands_pushFor {i : Instruction} {function : Nat} {K : Unit → Nat → Assertion → Prop}
    (carries : l.Carries P ⟨i, some function, none⟩ R) (h : K () watermark R) :
    l.Hands (pushFor i function) watermark P K := by
  intro result hr
  rw [pushFor_ok hr]
  exact ⟨R, ⟨R, carries, fun _ _ hr => hr⟩, h⟩

theorem hands_pushCall {i : Instruction} {arrow : Arrow} {K : Unit → Nat → Assertion → Prop}
    (carries : l.Carries P ⟨i, none, some arrow⟩ R) (h : K () watermark R) :
    l.Hands (pushCall i arrow) watermark P K := by
  intro result hr
  rw [pushCall_ok hr]
  exact ⟨R, ⟨R, carries, fun _ _ hr => hr⟩, h⟩

/-- Emissions for a list of items, with an assertion for each place in the list. -/
theorem hands_forM {f : α → Emit Unit} (items : List α) {A : Nat → Assertion}
    (h : ∀ n a, items[n]? = some a →
      l.Hands (f a) watermark (A n) fun _ w R => w = watermark ∧ R = A (n + 1)) :
    l.Hands (items.forM f) watermark (A 0) fun _ w R => w = watermark ∧ R = A items.length := by
  induction items generalizing A with
  | nil => exact hands_pure ⟨rfl, rfl⟩
  | cons a rest ih =>
    refine hands_bind ((h 0 a rfl).mono (fun _ _ hp => hp) ?_)
    rintro _ w R ⟨rfl, rfl⟩
    refine (ih (A := fun n => A (n + 1)) fun n a ha => h (n + 1) a ?_).mono (fun _ _ hp => hp) ?_
    · simpa using ha
    · rintro _ w R ⟨rfl, rfl⟩
      exact ⟨rfl, rfl⟩

/-! ## Straight-line code -/

/-- The code can be played on the registers of a machine, and wherever it gets through, the machine
with those registers satisfies an assertion. -/
def Plays (code : List Emitted) (R : Assertion) (w : World) (m : Machine) : Prop :=
  ∃ file, m.Shows file ∧
    match play (code.map (·.plain)) file with
    | .ok after => ∀ n, m.Beside n → n.Shows after → R w n
    | .error halt => halt = .divisionByZero

/-- A table of the registers does not contradict the machine that shows it. -/
theorem agree_of_shows {m : Machine} {file : RegisterFile} (shows : m.Shows file) (byte : UInt8)
    (a b : Int32) (ha : m.read? byte = some a) (hb : file.read? byte = some b) : a = b := by
  unfold RegisterFile.read? at hb
  split at hb
  · rename_i near
    cases hb
    have cell : m.readCell? (m.cell (.ofByte byte)) = some a := ha
    rw [← shows _ near, Machine.file, cell, Option.getD_some]
  · cases hb

theorem checks_of_plays {code : List Emitted} (h : ∀ w m, P w m → Plays code R w m) :
    l.Checks code P R := by
  induction code generalizing P with
  | nil =>
    intro w m hp
    obtain ⟨file, shows, ends⟩ := h w m hp
    exact ends m (.refl m) shows
  | cons e rest ih =>
    by_cases reached : ∃ w m, P w m
    · obtain ⟨i, target, arrow⟩ := e
      obtain ⟨w₀, m₀, hp₀⟩ := reached
      obtain ⟨file₀, -, ends₀⟩ := h w₀ m₀ hp₀
      cases target with
      | some id => cases ends₀
      | none =>
        rw [List.map_cons, Emitted.plain_none, play] at ends₀
        have computes : i.op.isData = true ∧ (Register.ofByte i.x).Near := by
          by_contra other
          rw [if_neg other] at ends₀
          cases ends₀
        refine ⟨Plays rest R, .data i rfl computes.1 ?_, ih fun _ _ hr => hr⟩
        intro w m word hp result isSome
        obtain ⟨file, shows, ends⟩ := h w m hp
        rw [List.map_cons, Emitted.plain_none, play, if_pos computes] at ends
        have known : i.result file.read? ≠ .error .memoryFault := by
          intro fault
          rw [fault] at ends
          cases ends
        have same := Instruction.result_agree (agree_of_shows shows) i (by rw [result]; simp) known
        rw [same, result] at ends
        dsimp only at ends
        refine ⟨_, shows.write computes.2 isSome word, ?_⟩
        cases played : play (rest.map (·.plain)) (Function.update file (.ofByte i.x) word) with
        | error halt =>
          rw [played] at ends
          exact ends
        | ok after =>
          rw [played] at ends
          intro n beside shown
          exact ends n ((m.beside_write computes.2 word).trans beside) shown
    · exact checks_never (fun w m hp => reached ⟨w, m, hp⟩) _

/-- An emission that makes registers of registers leads wherever the machine with those registers
is. -/
theorem hands_of_makes {m : Emit α} {Q : α → Nat → Assertion}
    (h : ∀ w n, P w n → Makes m watermark n.file True fun a mark after =>
      ∀ n', n.Beside n' → n'.Shows after → Q a mark w n')
    (suits : ∀ result, m watermark = .ok result →
      K result.value result.watermark (Q result.value result.watermark)) :
    l.Hands m watermark P K := by
  intro result hr
  refine ⟨_, checks_of_plays fun w n hp => ⟨n.file, fun _ _ => rfl, ?_⟩, suits result hr⟩
  have made := h w n hp result hr
  cases played : play (result.code.map (·.plain)) n.file with
  | ok after =>
    rw [played] at made
    exact made
  | error halt =>
    rw [played] at made
    exact made.1

end Laid

end WindowedClosures
