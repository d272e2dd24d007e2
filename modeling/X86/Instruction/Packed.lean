import X86.Instruction.Action

/-!
# Bitwise instructions on vector registers

They work on the full width of the vector register that is their first operand, whatever the width
of the instruction form, and leave no flag undefined.

* `Invocation.packed`: PAND, PANDN, POR, PXOR and their variants;
* `Invocation.packedTest`: PTEST and VPTEST.
-/

namespace X86.Invocation

/-- The width of the vector register at a position. -/
def vectorWidth (i : Invocation) (position : Nat) : Fetch Width := do
  let op ← i.operand position
  match op.register? with
  | some r => if r.isGpr then .fail (.notVector op) else return r.width
  | none => .fail (.notVector op)

/-- PAND, PANDN, POR and PXOR: operands 1 and 2 are joined bit by bit and written to operand 0. -/
def packed (i : Invocation) (f : Lanes → Lanes → Lanes) : Fetch (List Action) := do
  let w ← i.vectorWidth 0
  let src1 ← i.lanes 1
  let src2 ← i.lanes 2
  let dst ← i.operand 0
  return [
    .write dst (.trunc w (f src1 src2)),
    .barrier .compiler,
    .assign .packed]

/-- PTEST: the zero flag tells that no bit is set in both operands, the carry flag that every bit
of operand 1 is set in operand 0. -/
def packedTest (i : Invocation) : Fetch (List Action) := do
  let w ← i.vectorWidth 0
  let src1 ← i.lanes 0
  let src2 ← i.lanes 1
  let both := Lanes.trunc w (src1 &&& src2)
  let missing := Lanes.trunc w (~~~src1 &&& src2)
  return [
    .barrier .compiler,
    .assign (.test (missing == 0) (both == 0))]

end X86.Invocation
