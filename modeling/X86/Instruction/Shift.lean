import X86.Instruction.Action
import X86.Instruction.Checked

/-!
# Shifts

SHL, SHR and SAR shift operand 1 by the number in operand 2, of which the processor looks at the
low six bits at 64 bits and at the low five otherwise. A shift by zero does nothing at all.

* `Shifted`, `Shifted.left`, `Shifted.right`: the result of a shift with its two range flags;
* `Invocation.shiftLeft`, `Invocation.shiftRight`: the instructions.
-/

namespace X86

structure Shifted where
  result : Word
  carry : Flag
  overflow : Flag
  deriving DecidableEq

namespace Shifted

/-- A shift to the left by a positive number. The carry flag takes the last bit that is pushed
out, and the overflow flag is defined only for single steps. -/
def left (w : Width) (v : Word) (count : Nat) : Except Cause Shifted :=
  if count = 1 then
    let res := w.trunc (v <<< 1)
    .ok ⟨res, .ofBool (w.isNegative v), .ofBool (w.isNegative v != w.isNegative res)⟩
  else if count < w.bits then do
    let part := w.trunc (← Checked.shiftLeft v (← Checked.sub count 1))
    return ⟨w.trunc (part <<< 1), .ofBool (w.isNegative part), .undefined⟩
  else .ok ⟨0, .undefined, .undefined⟩

/-- The bits of a value moved to the right, below zeros or below copies of the top bit. -/
def moveRight (s : Sign) (w : Width) (v : Word) (count : Nat) : Except Cause Word :=
  match s with
  | .unsigned => Checked.shiftRight v count
  | .signed => do return w.trunc (← Checked.shiftRightSigned (.ofInt 64 (w.signed v)) count)

/-- A shift to the right by a positive number, with the sign filled in for signed values. -/
def right (s : Sign) (w : Width) (v : Word) (count : Nat) : Except Cause Shifted :=
  if count = 1 then do
    let overflow := match s with
      | .unsigned => w.isNegative v
      | .signed => false
    return ⟨← moveRight s w v 1, .ofBool (v.getLsbD 0), .ofBool overflow⟩
  else if count < w.bits then do
    let part ← moveRight s w v (← Checked.sub count 1)
    return ⟨← moveRight s w v count, .ofBool (part.getLsbD 0), .undefined⟩
  else
    let fill := match s with
      | .unsigned => 0
      | .signed => if w.isNegative v then w.mask else 0
    .ok ⟨fill, .undefined, .undefined⟩

end Shifted

namespace Invocation

/-- Shifts operand 1 by operand 2 and writes the result to operand 0. -/
def shiftWith (i : Invocation) (f : Word → Nat → Except Cause Shifted) :
    Fetch (List Action) := do
  let v ← i.scalar 1
  let count := ((← i.word 2) &&& i.width.countMask).toNat
  if count = 0 then return []
  else
    let dst ← i.operand 0
    let r ← .ofExcept (f v count)
    return [
      .write dst (.ofWord r.result),
      .barrier .compiler,
      .assign (.shift r.carry r.overflow i.width r.result)]

def shiftLeft (i : Invocation) : Fetch (List Action) :=
  i.shiftWith (Shifted.left i.width)

/-- SHR at unsigned and SAR at signed forms. -/
def shiftRight (i : Invocation) : Fetch (List Action) :=
  i.shiftWith (Shifted.right i.sign i.width)

end Invocation

end X86
