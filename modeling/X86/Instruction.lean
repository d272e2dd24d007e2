import X86.Instruction.Arithmetic
import X86.Instruction.Divide
import X86.Instruction.Exchange
import X86.Instruction.Logic
import X86.Instruction.Multiply
import X86.Instruction.Packed
import X86.Instruction.Shift

/-!
# Instructions

The operations that instruction forms perform, and the evaluation of one operation.

* `Op`, `Op.actions`: an operation, what it depends on and what it does;
* `Op.eval`: the transaction in which an operation is performed.
-/

namespace X86

/-- The operation of an instruction form. -/
inductive Op where
  | add | sub | adc | sbb | inc | dec | neg | cmp
  | and | or | xor | not | test
  | pand | pandn | por | pxor | ptest
  | imul | mulAcc | mulx | divAcc
  | shl | shr
  | xadd
  deriving DecidableEq

namespace Op

/-- What an operation asks for, and what it does with the answers. -/
def actions (op : Op) (options : Options) (i : Invocation) : Fetch (List Action) :=
  match op with
  | add => i.combine .add
  | sub => i.combine .sub
  | adc => i.combineCarry .add
  | sbb => i.combineCarry .sub
  | inc => i.stepBy .add
  | dec => i.stepBy .sub
  | neg => i.negate
  | cmp => i.compare
  | and => i.bitwise (· &&& ·)
  | or => i.bitwise (· ||| ·)
  | xor => i.bitwise (· ^^^ ·)
  | not => i.complement
  | test => i.testBits
  | pand => i.packed (· &&& ·)
  | pandn => i.packed (~~~· &&& ·)
  | por => i.packed (· ||| ·)
  | pxor => i.packed (· ^^^ ·)
  | ptest => i.packedTest
  | imul => i.multiply
  | mulAcc => i.multiplyAccumulator
  | mulx => i.multiplyExtended
  | divAcc => i.divide options.divChecks
  | shl => i.shiftLeft
  | shr => i.shiftRight
  | xadd => i.exchangeAdd

def eval (op : Op) (i : Invocation) (t : Transaction) : Except Cause Transaction := do
  t.perform (← (op.actions t.options i).run t)

end Op

end X86
