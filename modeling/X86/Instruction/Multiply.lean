import X86.Instruction.Action
import X86.Instruction.Checked

/-!
# Multiplication

A product has twice the width of its factors and is split into two halves.

* `Product`, `Product.ofFactors`: the halves of a product, and whether the low one is all of it;
* `Invocation.multiply`: IMUL with two or three operands, which keeps the low half;
* `Invocation.multiplyAccumulator`: MUL and IMUL with one operand;
* `Invocation.multiplyExtended`: MULX.
-/

namespace X86

/-- A product of double width, split into halves. -/
structure Product where
  low : Word
  high : Word
  /-- the low half alone stands for a different number -/
  lost : Bool
  deriving DecidableEq

/-- The product of the low bits of two words. -/
def Product.ofFactors (s : Sign) (w : Width) (a b : Word) : Except Cause Product := do
  let p ← Checked.wideProduct s (s.value w a) (s.value w b)
  let high := w.trunc ((← Checked.shiftRightBy s p w.bits).setWidth 64)
  return {
    low := w.trunc (p.setWidth 64)
    high
    lost := match s with
      | .unsigned => high != 0
      | .signed => productLost s w p.toInt }

namespace Invocation

/-- IMUL with two or three operands: the low half of the product of operands 1 and 2. -/
def multiply (i : Invocation) : Fetch (List Action) := do
  let a ← i.word 1
  let b ← i.word 2
  let dst ← i.operand 0
  let p ← .ofExcept (Product.ofFactors i.sign i.width a b)
  return [
    .write dst (.ofWord p.low),
    .barrier .compiler,
    .assign (.product p.lost i.sign i.width p.low)]

/-- Where the accumulator forms of a multiplication put the two halves: bytes go to AX, all wider
products to two registers. -/
def accumulate (w : Width) (p : Product) : List Action :=
  match w with
  | .w8 => [.write (.regW (Gpr.rax.view .w16)) (.ofWord (p.high <<< 8 ||| p.low))]
  | _ => [.write (.regW (Gpr.rax.view w)) (.ofWord p.low),
          .write (.regW (Gpr.rdx.view w)) (.ofWord p.high)]

/-- MUL and IMUL with one operand: the product of operand 0 and the accumulator. -/
def multiplyAccumulator (i : Invocation) : Fetch (List Action) := do
  let src ← i.word 0
  let acc ← i.register .rax
  let p ← .ofExcept (Product.ofFactors i.sign i.width acc src)
  return accumulate i.width p ++ [
    .barrier .compiler,
    .assign (.product p.lost i.sign i.width p.low)]

/-- MULX: the unsigned product of operand 2 and RDX. The high half is written last, so that it
stays when both halves go to the same register. -/
def multiplyExtended (i : Invocation) : Fetch (List Action) := do
  let src ← i.word 2
  let rdx ← i.register .rdx
  let high ← i.operand 0
  let low ← i.operand 1
  let p ← .ofExcept (Product.ofFactors .unsigned i.width rdx src)
  return [.write low (.ofWord p.low), .write high (.ofWord p.high)]

end Invocation

end X86
