import X86.Error

/-!
# Shapes

The shape of an instruction form is the list of operand kinds that it expects. Operands are
checked against the shape before an instruction is evaluated, from the first position on.
-/

namespace X86

abbrev Shape := List Kind

namespace Shape

/-- Checks the operands from a position on, kind by kind. -/
def checkFrom (position : Nat) : Shape → List Operand → Except Cause Unit
  | k :: ks, op :: ops =>
    if k.accepts op then checkFrom (position + 1) ks ops
    else .error (.operandMismatch position op k)
  | _, _ => .ok ()

/-- Checks that there are as many operands as kinds and that every operand is accepted. -/
def check (s : Shape) (ops : List Operand) : Except Cause Unit :=
  if s.length = ops.length then checkFrom 0 s ops
  else .error (.operandCount s.length ops.length)

end Shape

end X86
