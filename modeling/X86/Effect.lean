import X86.State

/-!
# Effects

What an instruction does, as a list of effects in the order in which they happen: writes to
registers and memory, assignments to flags, and marks that limit reordering.

* `Effect`, `Effect.render`;
* `Effect.act`, `Effect.replay`: the state after one effect and after a list of effects.
-/

namespace X86

/-- A mark that limits how effects may be reordered. -/
inductive Barrier where
  /-- a compiler does not move effects across it -/
  | compiler
  /-- a full fence between loads and stores -/
  | storeLoad
  deriving DecidableEq

def Barrier.name : Barrier → String
  | compiler => "Compiler"
  | storeLoad => "StoreLoad"

/-- One thing that an instruction does. -/
inductive Effect where
  | writeReg (r : Reg) (v : Lanes)
  | writeMem (m : MemRef) (v : Lanes)
  | barrier (b : Barrier)
  | setFlag (n : FlagName) (v : Flag)
  deriving DecidableEq

namespace Effect

/-- Writes and assignments are written with an arrow, barriers with their names. -/
def render : Effect → String
  | writeReg r v => r.render ++ " <- " ++ v.render
  | writeMem m v => m.render ++ " <- " ++ v.render
  | barrier b => Text.Color.yellow.paint "barrier" ++ " " ++ b.name
  | setFlag n v => n.short ++ " <- " ++ String.singleton v.symbol

/-- The state after an effect. Memory is written without regard to whether it is mapped. -/
def act (s : State) : Effect → State
  | writeReg r v => { s with regs := s.regs.write r v }
  | writeMem m v => { s with mem := s.mem.load m.address (v.toBytes m.width) }
  | barrier _ => s
  | setFlag n v => { s with regs := s.regs.setFlag n v }

def replay (s : State) (fx : List Effect) : State :=
  fx.foldl act s

end Effect

end X86
