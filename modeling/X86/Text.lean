/-!
# How numbers and highlighted words are written

Numbers are written in lower-case hexadecimal, and words that a terminal should highlight stand
between two escape sequences.

* `hex`, `hexPadded`, `address`: a number with the fewest digits, with a least number of digits,
  and with the mark `0x`;
* `Color.paint`: a word in a colour, with the colour reset behind it.
-/

namespace X86.Text

/-- The fewest hexadecimal digits of `n`. -/
def hex (n : Nat) : String :=
  String.ofList (Nat.toDigits 16 n)

/-- At least `len` hexadecimal digits of `n`, filled with zeros from the left. -/
def hexPadded (len n : Nat) : String :=
  let digits := Nat.toDigits 16 n
  String.ofList (List.replicate (len - digits.length) '0' ++ digits)

/-- A number marked as hexadecimal. -/
def address (n : Nat) : String :=
  "0x" ++ hex n

inductive Color where
  | red | green | yellow | blue

def Color.code : Color → String
  | .red => "91"
  | .green => "92"
  | .yellow => "93"
  | .blue => "94"

/-- A text in a colour, with the colour reset behind it. -/
def Color.paint (c : Color) (text : String) : String :=
  "\x1b[" ++ c.code ++ "m" ++ text ++ "\x1b[0m"

end X86.Text
