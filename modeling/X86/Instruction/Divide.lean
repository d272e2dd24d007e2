import X86.Instruction.Action
import X86.Instruction.Checked

/-!
# Division

DIV and IDIV divide a dividend of double width. The quotient is rounded toward zero, and the
remainder has the sign of the dividend.

* `Quotient`, `Quotient.ofDividend`: the quotient and the remainder, or the fault;
* `Quotient.wide?`, `Quotient.fits`: dividing 128 bits, and the range of a quotient;
* `Invocation.divide`: DIV and IDIV.
-/

namespace X86

structure Quotient where
  quotient : Word
  remainder : Word
  deriving DecidableEq

/-- The integer that the two halves of a dividend stand for together. -/
def dividend (s : Sign) (w : Width) (high low : Word) : Except Cause Int := do
  let joined := (← Checked.shiftLeft ((w.trunc high).setWidth 128) w.bits)
    ||| (w.trunc low).setWidth 128
  match s with
  | .unsigned => return joined.toNat
  | .signed => do
    let fill ← Checked.sub 128 (2 * w.bits)
    let top ← Checked.shiftLeft joined fill
    return (← Checked.shiftRightSigned top fill).toInt

namespace Quotient

/-- Quotient and remainder of 128 bits. A signed quotient that needs more is cut, or there is none
if it is checked. -/
def wide? (s : Sign) (checked : Bool) (n d : Int) : Except Cause (Option (Int × Int)) :=
  match s with
  | .unsigned => do
    let q ← Checked.quotient .unsigned n d
    return some (q, ← Checked.remainder .unsigned n d)
  | .signed =>
    match Checked.quotient? .signed n d with
    | some q => do return some (q, ← Checked.wrappingRemainder .signed n d)
    | none =>
      if checked then .ok none
      else do
        let q ← Checked.wrappingQuotient .signed n d
        return some (q, ← Checked.wrappingRemainder .signed n d)

/-- Whether the bits that count can stand for a quotient. -/
def fits (s : Sign) (w : Width) (q : Int) : Except Cause Bool :=
  match s with
  | .unsigned => do return (← Checked.shiftRight (BitVec.ofInt 128 q) w.bits) == 0
  | .signed => do
    let top ← Checked.shiftLeft (1 : Wide) (← Checked.sub w.bits 1)
    let least ← Checked.wide .signed (-top.toInt)
    let greatest ← Checked.wide .signed (top.toInt - 1)
    return least ≤ q ∧ q ≤ greatest

/-- Divides a dividend given in two halves. A quotient that is out of range raises a fault if it
is checked, and is cut otherwise. -/
def ofDividend (s : Sign) (w : Width) (checked : Bool) (high low divisor : Word) :
    Except Cause Quotient := do
  let n ← dividend s w high low
  if w.trunc divisor = 0 then .error (.divideByZero w)
  else
    match ← wide? s checked n (s.value w divisor) with
    | none => .error (.divideOverflow w high low divisor)
    | some (q, r) =>
      if checked ∧ ¬ (← fits s w q) then .error (.divideOverflow w high low divisor)
      else return { quotient := w.trunc (.ofInt 64 q), remainder := w.trunc (.ofInt 64 r) }

end Quotient

namespace Invocation

/-- The halves of the dividend: the bytes of AX, or two registers. -/
def dividendHalves (i : Invocation) : Fetch (Word × Word) :=
  match i.width with
  | .w8 => do
    let ax ← .word (.reg (Gpr.rax.view .w16)) .done
    return (ax >>> 8, ax &&& 0xff)
  | _ => do
    let high ← i.register .rdx
    let low ← i.register .rax
    return (high, low)

/-- Where the quotient and the remainder go: to the bytes of AX, or to two registers. -/
def deliver (w : Width) (q : Quotient) : List Action :=
  match w with
  | .w8 => [.write (.regW (Gpr.rax.view .w8)) (.ofWord q.quotient),
            .write (.regW (.gpr .rax .high8)) (.ofWord q.remainder)]
  | _ => [.write (.regW (Gpr.rax.view w)) (.ofWord q.quotient),
          .write (.regW (Gpr.rdx.view w)) (.ofWord q.remainder)]

/-- DIV and IDIV: the accumulator is divided by operand 0, and all flags end undefined. -/
def divide (i : Invocation) (checked : Bool) : Fetch (List Action) := do
  let divisor ← i.word 0
  let (high, low) ← i.dividendHalves
  let q ← .ofExcept (Quotient.ofDividend i.sign i.width checked high low divisor)
  return deliver i.width q ++ [.barrier .compiler, .assign .undefined]

end Invocation

end X86
