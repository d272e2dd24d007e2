import X86.Memory

/-!
# The machine state

Registers and memory together, and the value of an operand in a state.
-/

namespace X86

/-- The state of the machine that instructions see. -/
structure State where
  regs : RegFile := {}
  mem : Memory := {}
  deriving DecidableEq

/-- The value of an operand in a state, with zeros above its width. -/
def State.read (s : State) : Operand → Except Cause Lanes
  | .reg r | .regW r => .ok (s.regs.read r)
  | .mem m | .memW m => s.mem.read m.address m.width
  | .imm v w => .ok (.ofWord (w.trunc v))

end X86
