/-!
# Text in columns

Right and left alignment in a field of a given width, counted in characters, and hexadecimal
digits. A text that is wider than its field is written whole.
-/

namespace WindowedClosures.Text

/-- Blanks in front until the text is `width` characters long. -/
def alignRight (width : Nat) (text : String) : String :=
  String.ofList (List.replicate (width - text.length) ' ') ++ text

/-- Blanks behind until the text is `width` characters long. -/
def alignLeft (width : Nat) (text : String) : String :=
  text ++ String.ofList (List.replicate (width - text.length) ' ')

/-- Lower-case hexadecimal digits without leading zeros. -/
def hexDigits (n : Nat) : String := String.ofList (Nat.toDigits 16 n)

end WindowedClosures.Text
