import WindowedClosures.Token.Error

/-!
# Number literals

A number starts with an ASCII digit. Behind `0x` stand hexadecimal digits; otherwise digits, and
behind a point further digits, of which there may be none. `NumberText.take` splits a number off
the front of a text and loses nothing of it.
-/

namespace WindowedClosures

/-- The digits of a number literal by its shape. -/
inductive NumberText where
  | hex (digits : List Char)
  | int (digits : List Char)
  | float (whole fraction : List Char)
  deriving DecidableEq, Repr

namespace NumberText

def isHexDigit (c : Char) : Bool :=
  c.isDigit || ('a' ≤ c && c ≤ 'f') || ('A' ≤ c && c ≤ 'F')

/-- The value of one hexadecimal digit. -/
def digitValue (c : Char) : Nat :=
  if c.isDigit then c.toNat - '0'.toNat
  else if 'a' ≤ c then c.toNat - 'a'.toNat + 10
  else c.toNat - 'A'.toNat + 10

/-- The value of digits in a base, the highest digit first. -/
def valueOf (base : Nat) (digits : List Char) : Nat :=
  digits.foldl (fun n c => n * base + digitValue c) 0

/-- The number as it was written. -/
def written : NumberText → List Char
  | .hex digits => '0' :: 'x' :: digits
  | .int digits => digits
  | .float whole fraction => whole ++ '.' :: fraction

/-- The number at the front of a text, and the rest of the text. -/
def take (text : List Char) : NumberText × List Char :=
  match text with
  | '0' :: 'x' :: rest => (.hex (rest.takeWhile isHexDigit), rest.dropWhile isHexDigit)
  | _ =>
    match text.dropWhile Char.isDigit with
    | '.' :: rest =>
      (.float (text.takeWhile Char.isDigit) (rest.takeWhile Char.isDigit),
        rest.dropWhile Char.isDigit)
    | rest => (.int (text.takeWhile Char.isDigit), rest)

theorem written_append_take (text : List Char) :
    (take text).1.written ++ (take text).2 = text := by
  simp only [take]
  split
  · simp [written, List.takeWhile_append_dropWhile]
  · split
    · rename_i rest h
      have := List.takeWhile_append_dropWhile (p := Char.isDigit) (l := text)
      simp only [written, List.append_assoc, List.cons_append,
        List.takeWhile_append_dropWhile]
      rw [← h]
      exact this
    · simp [written, List.takeWhile_append_dropWhile]

/-- A digit at the front of a text belongs to its number. -/
theorem length_take_lt {c : Char} {rest : List Char} (h : c.isDigit) :
    (take (c :: rest)).2.length < (c :: rest).length := by
  have whole := congrArg List.length (written_append_take (c :: rest))
  have some_written : 0 < (take (c :: rest)).1.written.length := by
    simp only [take]
    split
    · simp [written]
    · split <;> simp [written, h]
  simp only [List.length_append] at whole
  omega

/-- The lexeme of a number whose value fits, and otherwise what it should have been. -/
def lexeme : NumberText → Except BoundedNumber Lexeme
  | .hex digits =>
    if digits ≠ [] ∧ valueOf 16 digits < UInt32.size then
      .ok (.hex (UInt32.ofNat (valueOf 16 digits)))
    else .error .hex
  | .int digits =>
    if valueOf 10 digits < 0x80000000 then .ok (.int (Int32.ofNat (valueOf 10 digits)))
    else .error .int
  | .float whole fraction =>
    .ok (.float (Binary32.ofDecimal (valueOf 10 (whole ++ fraction)) fraction.length))

end NumberText

end WindowedClosures
