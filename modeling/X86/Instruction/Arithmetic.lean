import X86.Instruction.Action

/-!
# Addition and subtraction

ADD, SUB, ADC, SBB, INC, DEC, NEG and CMP. Those that write list the destination first and the
place of the first source, which is usually the same, behind it.

* `Invocation.combine`, `Invocation.combineCarry`: ADD and SUB, ADC and SBB;
* `Invocation.stepBy`: INC and DEC, which leave the carry flag alone;
* `Invocation.negate`, `Invocation.compare`: NEG and CMP.
-/

namespace X86.Invocation

/-- ADD and SUB: operands 1 and 2 are joined and the result is written to operand 0. -/
def combine (i : Invocation) (r : Rule) : Fetch (List Action) := do
  let lhs ← i.scalar 1
  let rhs ← i.scalar 2
  let dst ← i.operand 0
  let res := r.apply i.width lhs rhs
  return [
    .write dst (.ofWord res),
    .barrier .compiler,
    .assign (.arith (r.carry i.width lhs rhs res) r i.width lhs rhs res)]

/-- CMP: operands 0 and 1 are subtracted and only the flags are kept. -/
def compare (i : Invocation) : Fetch (List Action) := do
  let lhs ← i.scalar 0
  let rhs ← i.scalar 1
  let res := Rule.sub.apply i.width lhs rhs
  return [
    .barrier .compiler,
    .assign (.arith (Rule.sub.carry i.width lhs rhs res) .sub i.width lhs rhs res)]

/-- ADC and SBB: operands 1 and 2 are joined, then the carry flag is joined to the result. -/
def combineCarry (i : Invocation) (r : Rule) : Fetch (List Action) := do
  let lhs ← i.scalar 1
  let rhs ← i.scalar 2
  let carry ← .carry fun b => .done (if b then 1 else 0 : Word)
  let dst ← i.operand 0
  let res := r.apply i.width (r.apply i.width lhs rhs) carry
  return [
    .write dst (.ofWord res),
    .barrier .compiler,
    .assign (.arith (r.carryChain i.width lhs rhs carry) r i.width lhs rhs res)]

/-- INC and DEC: operand 1 is joined with one. -/
def stepBy (i : Invocation) (r : Rule) : Fetch (List Action) := do
  let val ← i.scalar 1
  let dst ← i.operand 0
  let res := r.apply i.width val 1
  return [
    .write dst (.ofWord res),
    .barrier .compiler,
    .assign (.step r i.width val 1 res)]

/-- NEG: operand 1 is subtracted from zero, which borrows unless it is zero. -/
def negate (i : Invocation) : Fetch (List Action) := do
  let val ← i.scalar 1
  let dst ← i.operand 0
  let res := Rule.sub.apply i.width 0 val
  return [
    .write dst (.ofWord res),
    .barrier .compiler,
    .assign (.arith (val != 0) .sub i.width 0 val res)]

end X86.Invocation
