import X86.Error

/-!
# Operations with a limited range

Shifts by all bits of a value or more, negative differences, divisions by zero and results of more
than 128 bits have no value. They end in a trap instead of a number.

* `shiftLeft`, `shiftRight`, `shiftRightSigned`: shifts by fewer bits than there are;
* `sub`: a difference that is not negative;
* `wide`, `wideProduct`: a result and a product of 128 bits;
* `quotient?`, `quotient`, `remainder`: divisions of 128 bits, and `wrappingQuotient`,
  `wrappingRemainder`, which cut their result.
-/

namespace X86

/-- A product or dividend of two words. -/
abbrev Wide := BitVec 128

namespace Checked

variable {n : Nat}

/-- Goes on with a shift by fewer bits than there are. -/
def shift (amount : Nat) (v : BitVec n) : Except Cause (BitVec n) :=
  if amount < n then .ok v else .error (.trap (.shift n amount))

/-- Shifts towards the top, with zeros from below. -/
def shiftLeft (v : BitVec n) (amount : Nat) : Except Cause (BitVec n) :=
  shift amount (v <<< amount)

/-- Shifts towards the bottom, with zeros from above. -/
def shiftRight (v : BitVec n) (amount : Nat) : Except Cause (BitVec n) :=
  shift amount (v >>> amount)

/-- Shifts towards the bottom, with copies of the top bit from above. -/
def shiftRightSigned (v : BitVec n) (amount : Nat) : Except Cause (BitVec n) :=
  shift amount (v.sshiftRight amount)

/-- Shifts towards the bottom as the signedness asks for. -/
def shiftRightBy (s : Sign) (v : BitVec n) (amount : Nat) : Except Cause (BitVec n) :=
  match s with
  | .unsigned => shiftRight v amount
  | .signed => shiftRightSigned v amount

/-- The difference of two numbers of which the first is not the smaller one. -/
def sub (a b : Nat) : Except Cause Nat :=
  if b ≤ a then .ok (a - b) else .error (.trap (.difference a b))

/-- The integer that 128 bits stand for. -/
def wideValue (s : Sign) (p : Wide) : Int :=
  match s with
  | .unsigned => p.toNat
  | .signed => p.toInt

/-- The product of two integers, if 128 bits can stand for it. -/
def wideProduct (s : Sign) (a b : Int) : Except Cause Wide :=
  let p := BitVec.ofInt 128 (a * b)
  if wideValue s p = a * b then .ok p else .error (.trap .product)

/-- Whether 128 bits can stand for an integer. -/
def isWide (s : Sign) (n : Int) : Bool :=
  wideValue s (.ofInt 128 n) = n

/-- A result, if 128 bits can stand for it. -/
def wide (s : Sign) (n : Int) : Except Cause Int :=
  if isWide s n then .ok n else .error (.trap .overflow)

/-- The quotient rounded toward zero, if there is one and 128 bits can stand for it. -/
def quotient? (s : Sign) (n d : Int) : Option Int :=
  if d ≠ 0 ∧ isWide s (n.tdiv d) then some (n.tdiv d) else none

/-- A number that is divided by another one, which must not be zero. -/
def divided (f : Int → Int → Int) (n d : Int) : Except Cause Int :=
  if d = 0 then .error (.trap .divisor) else .ok (f n d)

/-- The quotient rounded toward zero, if 128 bits can stand for it. -/
def quotient (s : Sign) (n d : Int) : Except Cause Int := do
  wide s (← divided .tdiv n d)

/-- The remainder of the quotient, if 128 bits can stand for both. -/
def remainder (s : Sign) (n d : Int) : Except Cause Int := do
  let _ ← quotient s n d
  divided .tmod n d

/-- The quotient cut to 128 bits. -/
def wrappingQuotient (s : Sign) (n d : Int) : Except Cause Int := do
  return wideValue s (.ofInt 128 (← divided .tdiv n d))

/-- The remainder cut to 128 bits. -/
def wrappingRemainder (s : Sign) (n d : Int) : Except Cause Int := do
  return wideValue s (.ofInt 128 (← divided .tmod n d))

end Checked

end X86
