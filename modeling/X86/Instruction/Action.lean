import X86.Fetch

/-!
# Invocations and actions

An invocation is what an instruction form is applied with: a width, a signedness and operands. An
instruction asks for what it depends on, answers with a list of actions, and the actions are then
performed in a transaction one after the other.

* `Invocation`, `Invocation.operand`, `Invocation.word`, `Invocation.scalar`: asking for operands;
* `Action`, `Transaction.act`, `Transaction.perform`: writes, barriers and flag updates.
-/

namespace X86

/-- What an instruction form is applied with. -/
structure Invocation where
  width : Width
  sign : Sign
  operands : List Operand
  deriving DecidableEq

namespace Invocation

/-- The operand at a position. -/
def operand (i : Invocation) (position : Nat) : Fetch Operand :=
  match i.operands[position]? with
  | some op => .done op
  | none => .fail (.trap (.missingOperand position))

/-- The value of the operand at a position. -/
def word (i : Invocation) (position : Nat) : Fetch Word := do
  .word (← i.operand position) .done

/-- The bits that count of the operand at a position. -/
def scalar (i : Invocation) (position : Nat) : Fetch Word := do
  return i.width.trunc (← i.word position)

/-- The full value of the operand at a position. -/
def lanes (i : Invocation) (position : Nat) : Fetch Lanes := do
  .lanes (← i.operand position) .done

/-- The low bits of a general purpose register, at the width of the instruction. -/
def register (i : Invocation) (g : Gpr) : Fetch Word :=
  .word (.reg (g.view i.width)) .done

end Invocation

/-- One thing that an instruction does once it has read everything that it depends on. -/
inductive Action where
  | write (op : Operand) (v : Lanes)
  | barrier (b : Barrier)
  | assign (u : FlagUpdate)
  deriving DecidableEq

/-- The transaction after one action. -/
def Transaction.act (t : Transaction) : Action → Except Cause Transaction
  | .write op v => t.writeLanes op v
  | .barrier b => .ok (t.barrier b)
  | .assign u => .ok (t.setFlags u)

/-- The transaction after a list of actions, performed in order until one of them fails. -/
def Transaction.perform (t : Transaction) : List Action → Except Cause Transaction
  | [] => .ok t
  | a :: as => do (← t.act a).perform as

end X86
