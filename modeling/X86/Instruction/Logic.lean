import X86.Instruction.Action

/-!
# Bitwise instructions on words

* `Invocation.bitwise`: AND, OR and XOR;
* `Invocation.complement`: NOT, which touches no flag;
* `Invocation.testBits`: TEST, which keeps only the flags of AND.
-/

namespace X86.Invocation

/-- AND, OR and XOR: operands 1 and 2 are joined bit by bit. -/
def bitwise (i : Invocation) (f : Word → Word → Word) : Fetch (List Action) := do
  let lhs ← i.scalar 1
  let rhs ← i.scalar 2
  let dst ← i.operand 0
  let res := i.width.trunc (f lhs rhs)
  return [
    .write dst (.ofWord res),
    .barrier .compiler,
    .assign (.logical i.width res)]

/-- NOT: every bit of operand 1 is turned over. -/
def complement (i : Invocation) : Fetch (List Action) := do
  let val ← i.word 1
  let dst ← i.operand 0
  return [.write dst (.ofWord (i.width.trunc (~~~val)))]

/-- TEST: the flags of the bits that are set in both operands. -/
def testBits (i : Invocation) : Fetch (List Action) := do
  let lhs ← i.word 0
  let rhs ← i.word 1
  return [.assign (.logical i.width (i.width.trunc (lhs &&& rhs)))]

end X86.Invocation
