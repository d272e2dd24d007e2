import X86.Table

/-!
# Log events

What the machine reports to a log: that a table is built, that an undefined carry flag is given a
value, that a division faults, and on request every instruction with its effects.

* `Event`, with `Event.level`, `Event.message` and `Event.fields`;
* `Event.ofExecution`: the events of one executed instruction.
-/

namespace X86

inductive Level where
  | debug | warn
  deriving DecidableEq

def Level.name : Level → String
  | debug => "DEBUG"
  | warn => "WARN"

/-- Something that a log shows. -/
inductive Event where
  | tableBuilt (entries : Nat) (longMode vex : Bool)
  | carryAssumed (value : Bool)
  | faulted (cause : Cause) (rax rdx : Word)
  | executed (name : String) (operands : List Operand)
  | effect (e : Effect)
  deriving DecidableEq

namespace Event

/-- Faults and assumptions are warnings. -/
def level : Event → Level
  | carryAssumed _ | faulted _ _ _ => .warn
  | _ => .debug

def message : Event → String
  | tableBuilt _ _ _ => "built selection table"
  | carryAssumed _ => "reading undefined CF"
  | faulted c _ _ => c.message
  | executed name operands => name ++ " " ++ ", ".intercalate (operands.map Operand.render)
  | effect e => "    " ++ e.render

def fields : Event → List (String × String)
  | tableBuilt entries longMode vex =>
    [("entries", toString entries), ("long_mode", toString longMode), ("vex", toString vex)]
  | carryAssumed value => [("value", toString value)]
  | faulted c rax rdx =>
    [("kind", c.kind.name), ("rax", toString rax.toNat), ("rdx", toString rdx.toNat)]
  | executed _ _ | effect _ => []

/-- The event of a table that was built under the given options. -/
def ofTable (t : Table) (o : Options) : Event :=
  .tableBuilt t.size o.longMode o.vex

/-- The event of a fault in a state. -/
def ofFault (s : State) (e : Error) : Event :=
  .faulted e.cause (s.regs.get .rax) (s.regs.get .rdx)

/-- The events of an instruction that was executed with the given effects. -/
def ofExecution (name : String) (operands : List Operand) (fx : List Effect) : List Event :=
  .executed name operands :: fx.map .effect

end Event

end X86
