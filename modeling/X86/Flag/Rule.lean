import X86.Width

/-!
# How a result determines the flags

The carry and overflow flags of an operation follow one of four rules, the other flags depend on
the operands and the result alone. All functions take whole words and look at the low bits that
count at the width.

* `Rule.apply`, `Rule.carry`, `Rule.overflow`: the result of an addition or a subtraction and its
  two range flags;
* `Rule.carryChain`: the carry of an operation with three operands, formed in two stages;
* `evenParity`, `isZero`, `auxCarry`: the flags that do not depend on the rule;
* `productLost`: whether truncation loses a part of a product.
-/

namespace X86

/-- The rule that determines the carry and overflow flags of an operation. -/
inductive Rule where
  | add | sub | mul | logical
  deriving DecidableEq

/-- Whether the low byte of a result has an even number of set bits. -/
def evenParity (res : Word) : Bool :=
  (List.range 8).countP (res.getLsbD ·) % 2 == 0

/-- Whether the bits that count are all clear. -/
def isZero (w : Width) (res : Word) : Bool :=
  w.trunc res == 0

/-- Whether a carry or a borrow crosses from bit 3 into bit 4. -/
def auxCarry (lhs rhs res : Word) : Bool :=
  (lhs ^^^ rhs ^^^ res).getLsbD 4

namespace Rule

/-- The difference under the rule of subtraction and the sum under every other rule. -/
def apply : Rule → Width → Word → Word → Word
  | .sub, w, lhs, rhs => w.trunc (lhs - rhs)
  | _, w, lhs, rhs => w.trunc (lhs + rhs)

/-- The carry of a sum or the borrow of a difference. -/
def carry : Rule → Width → (lhs rhs res : Word) → Bool
  | .add, w, lhs, _, res => w.trunc res < w.trunc lhs
  | .sub, w, lhs, rhs, _ => w.trunc lhs < w.trunc rhs
  | .mul, _, _, _, _ | .logical, _, _, _, _ => false

/-- Whether a sum or a difference leaves the range of two's complement numbers. -/
def overflow : Rule → Width → (lhs rhs res : Word) → Bool
  | .add, w, lhs, rhs, res => w.isNegative ((lhs ^^^ res) &&& (rhs ^^^ res))
  | .sub, w, lhs, rhs, res => w.isNegative ((lhs ^^^ rhs) &&& (lhs ^^^ res))
  | .mul, _, _, _, _ | .logical, _, _, _, _ => false

/-- The carry of an operation with three operands: it arises in the first stage, which joins `a`
and `b`, or in the second, which joins their result and `c`. -/
def carryChain (r : Rule) (w : Width) (a b c : Word) : Bool :=
  let ab := r.apply w a b
  r.carry w a b ab || r.carry w ab c (r.apply w ab c)

end Rule

/-- Whether a product is a different number once it is truncated. -/
def productLost (s : Sign) (w : Width) (p : Int) : Bool :=
  s.value w (w.trunc (BitVec.ofInt 64 p)) != p

end X86
