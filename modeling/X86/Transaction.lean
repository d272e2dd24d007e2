import X86.Effect
import X86.Flag.Update
import X86.Options

/-!
# Transactions

While an instruction is evaluated, nothing touches the machine state. A transaction collects a
working copy of the registers, the stores that are not made yet, and the effects in order. Reads
see the working registers and the pending stores, and the state changes at once when the
transaction is committed.

* `Transaction.begin`: the transaction of an instruction that has done nothing yet;
* `Transaction.read`, `Transaction.readLanes`, `Transaction.carryIn`: what an instruction reads;
* `Transaction.write`, `Transaction.writeLanes`, `Transaction.barrier`, `Transaction.setFlags`:
  what it does;
* `Transaction.commit`: the state afterwards.
-/

namespace X86

/-- What an instruction has done so far. -/
structure Transaction where
  /-- the state that the instruction started from -/
  before : State
  options : Options := {}
  /-- the registers as the instruction leaves them -/
  regs : RegFile := before.regs
  /-- the stores to be made, in order -/
  stores : List Store := []
  effects : List Effect := []

namespace Transaction

/-- The transaction of an instruction that has done nothing yet. -/
def begin (s : State) (options : Options) : Transaction where
  before := s
  options := options

/-! ## Reads -/

/-- The byte at an address: the last pending store that covers it decides, else the memory. -/
def readByte (t : Transaction) (a : Address) : Except Cause Byte :=
  match t.stores.reverse.findSome? (·.byteAt? a) with
  | some b => .ok b
  | none => t.before.mem.readByte a

/-- The bytes of a range. The first address that has none is reported. -/
def readBytes (t : Transaction) (a : Address) : (len : Nat) → Except Cause (List Byte)
  | 0 => .ok []
  | len + 1 => do
    let b ← t.readByte a
    let bs ← t.readBytes (a + 1) len
    return b :: bs

/-- The value of an operand, with zeros above its width. -/
def readLanes (t : Transaction) : Operand → Except Cause Lanes
  | .reg r | .regW r => .ok (t.regs.read r)
  | .mem m | .memW m => do return Lanes.ofBytes (← t.readBytes m.address m.width.bytes)
  | .imm v w => .ok (.ofWord (w.trunc v))

/-- The value of an operand that fits a word. -/
def read (t : Transaction) (op : Operand) : Except Cause Word :=
  if op.width.isScalar then do return (← t.readLanes op).low
  else .error (.notScalar op)

def readReg (t : Transaction) (r : Reg) : Word :=
  (t.regs.read r).low

def flag (t : Transaction) (n : FlagName) : Flag :=
  t.regs.flags.get n

/-- The concrete value that stands in for an undefined carry flag, if the options allow one. -/
def assumedCarry? (t : Transaction) : Option Bool :=
  match t.options.undefinedRead with
  | .clear => some false
  | .set => some true
  | .error => none

/-- The carry flag as an operand. The options decide what an undefined one stands for. -/
def carryIn (t : Transaction) : Except Cause Bool :=
  match (t.flag .cf).value? with
  | some b => .ok b
  | none =>
    match t.assumedCarry? with
    | some b => .ok b
    | none => .error .undefinedCarry

/-! ## Writes -/

/-- Writes a register. The value is cut to its width. -/
def writeReg (t : Transaction) (r : Reg) (v : Lanes) : Transaction :=
  let v := Lanes.trunc r.width v
  { t with regs := t.regs.write r v, effects := t.effects ++ [.writeReg r v] }

/-- Notes a store. The value is cut to its width. -/
def store (t : Transaction) (m : MemRef) (v : Lanes) : Transaction :=
  let v := Lanes.trunc m.width v
  { t with
    stores := t.stores ++ [⟨m.address, m.width, v⟩],
    effects := t.effects ++ [.writeMem m v] }

/-- Writes an operand, which has to be writable and, in memory, mapped. -/
def writeLanes (t : Transaction) (op : Operand) (v : Lanes) : Except Cause Transaction :=
  match op with
  | .regW r => .ok (t.writeReg r v)
  | .memW m => do
    t.before.mem.check m.address m.width
    return t.store m v
  | _ => .error (.readOnly op)

def write (t : Transaction) (op : Operand) (v : Word) : Except Cause Transaction :=
  t.writeLanes op (.ofWord v)

def barrier (t : Transaction) (b : Barrier) : Transaction :=
  { t with effects := t.effects ++ [.barrier b] }

def setFlag (t : Transaction) (n : FlagName) (v : Flag) : Transaction :=
  { t with regs := t.regs.setFlag n v, effects := t.effects ++ [.setFlag n v] }

def setFlags (t : Transaction) (u : FlagUpdate) : Transaction :=
  u.foldl (fun t (n, v) => t.setFlag n v) t

/-! ## The end of an instruction -/

def commit (t : Transaction) : Except Cause State := do
  return ⟨t.regs, ← t.before.mem.commit t.stores⟩

/-- The error that a cause amounts to for this instruction. -/
def error (t : Transaction) (c : Cause) : Error :=
  .ofCause t.before.regs c

end Transaction

end X86
