import X86.Instruction.Action

/-!
# Exchange and add

XADD adds two operands and leaves the old value of the first one in the place of the second. Its
operands are the first destination and its source, then the second destination and its source.
-/

namespace X86.Invocation

/-- XADD. With a register as first operand it starts with a full fence; in memory the fence is not
its own. -/
def exchangeAdd (i : Invocation) : Fetch (List Action) := do
  let src1 ← i.scalar 1
  let src2 ← i.scalar 3
  let dst ← i.operand 0
  let exchanged ← i.operand 2
  let res := Rule.add.apply i.width src1 src2
  return (if dst.isRegister then [.barrier .storeLoad] else []) ++ [
    .write dst (.ofWord res),
    .barrier .compiler,
    .write exchanged (.ofWord src1),
    .barrier .compiler,
    .assign (.arith (Rule.add.carry i.width src1 src2 res) .add i.width src1 src2 res)]

end X86.Invocation
