import X86.Event

/-!
# The machine

Executes one instruction at a time: the entry is looked up, the operands are checked against its
shape, the operation is evaluated, and only then the state changes.

* `Machine`, `Machine.ofOptions`: a machine with the table that belongs to its options;
* `Machine.exec`, `Machine.execEntry`: executing an instruction by key or by entry;
* `Response`: the machine afterwards, the effects or the error, the faults that a handler is
  called with and the events for the log.
-/

namespace X86

/-- A machine that executes instructions. -/
structure Machine where
  state : State := {}
  options : Options := {}
  table : Table := {}
  /-- the number of instructions executed so far -/
  executed : Nat := 0

/-- What comes of a request to execute an instruction. -/
structure Response where
  machine : Machine
  result : Except Error (List Effect)
  /-- the values that undefined carry flags were given -/
  assumed : List Bool := []
  /-- the faults that the fault handler is called with, each with the state it sees -/
  faults : List (State × Error) := []
  /-- the events of an executed instruction, if it is traced -/
  trace : List Event := []

namespace Response

/-- The events of a request, in order. A fault is an event unless a handler takes it. -/
def log (r : Response) (handled : Bool) : List Event :=
  r.assumed.map .carryAssumed
    ++ (if handled then [] else r.faults.map fun (s, e) => .ofFault s e)
    ++ r.trace

end Response

namespace Machine

/-- A machine in the initial state with the table of the given rows. -/
def ofRows (rows : List Row) (o : Options) : Except Cause Machine := do
  return { options := o, table := ← Table.build rows o }

/-- A machine in the initial state with the table of all instruction forms. -/
def ofOptions (o : Options) : Except Cause Machine :=
  ofRows Rows.all o

/-- A request that fails changes nothing. Division faults are handed to the fault handler. -/
def refuse (m : Machine) (e : Error) (assumed : List Bool) : Response :=
  { machine := m, result := .error e, assumed,
    faults := if e.isFault then [(m.state, e)] else [] }

/-- An executed instruction changes the state and is counted. -/
def accept (m : Machine) (e : Entry) (operands : List Operand) (assumed : List Bool)
    (s : State) (fx : List Effect) : Response :=
  { machine := { m with state := s, executed := m.executed + 1 }
    result := .ok fx
    assumed
    trace := if m.options.trace then Event.ofExecution e.name operands fx else [] }

/-- The state after an entry is evaluated on operands, with the effects. -/
def evaluate (m : Machine) (e : Entry) (operands : List Operand) :
    Except Cause (State × List Effect) := do
  e.shape.check operands
  let t ← e.op.eval (e.invoke operands) (.begin m.state m.options)
  return (← t.commit, t.effects)

/-- The values that undefined carry flags are given when an entry is evaluated. -/
def assumptions (m : Machine) (e : Entry) (operands : List Operand) : List Bool :=
  match e.shape.check operands with
  | .ok _ => (e.op.actions m.options (e.invoke operands)).assumed (.begin m.state m.options)
  | .error _ => []

/-- Executes an entry, which need not belong to the table of the machine. -/
def execEntry (m : Machine) (e : Entry) (operands : List Operand) : Response :=
  let assumed := m.assumptions e operands
  match m.evaluate e operands with
  | .ok (s, fx) => m.accept e operands assumed s fx
  | .error c => m.refuse (.ofCause m.state.regs c) assumed

/-- Executes the instruction with a key. -/
def exec (m : Machine) (key : String) (operands : List Operand) : Response :=
  match m.table.lookup key with
  | .ok e => m.execEntry e operands
  | .error c => m.refuse (.ofCause m.state.regs c) []

end Machine

end X86
