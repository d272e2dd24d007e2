import X86.Operand
import X86.Register.File

/-!
# Errors

An error is a cause and, for some causes, the registers that the instruction started from. The
wording of every cause is in `Cause.message`, its kind in `Cause.kind`.

* `Cause`, `Cause.kind`, `Cause.message`;
* `Error`, `Error.ofCause`, `Error.render`;
* `ErrorKind.isFault`: the errors that a processor raises as an exception.
-/

namespace X86

inductive ErrorKind where
  | divideByZero
  /-- a quotient that does not fit its destination -/
  | divideOverflow
  /-- an instruction depends on an undefined flag -/
  | undefinedFlag
  /-- operands in the wrong number or of the wrong kind -/
  | operand
  /-- access to memory that is not mapped -/
  | memory
  | lookup
  | general
  deriving DecidableEq

namespace ErrorKind

def name : ErrorKind → String
  | divideByZero => "DivideByZero"
  | divideOverflow => "DivideOverflow"
  | undefinedFlag => "UndefinedFlag"
  | operand => "Operand"
  | memory => "Memory"
  | lookup => "Lookup"
  | general => "General"

/-- A processor raises the two kinds of division errors as exceptions. -/
def isFault : ErrorKind → Bool
  | divideByZero | divideOverflow => true
  | _ => false

end ErrorKind

/-- A computation without a value. No instruction of the selection table runs into one. -/
inductive Trap where
  /-- the instruction has no operand at a position -/
  | missingOperand (position : Nat)
  /-- a value is shifted by all its bits or more -/
  | shift (bits amount : Nat)
  /-- a number is taken from a smaller one -/
  | difference (minuend subtrahend : Nat)
  /-- a product needs more than 128 bits -/
  | product
  /-- another result needs more than 128 bits -/
  | overflow
  | divisor
  deriving DecidableEq

def Trap.message : Trap → String
  | missingOperand position => "no operand " ++ toString position
  | shift bits amount => "shift of " ++ toString bits ++ " bits by " ++ toString amount
  | difference minuend subtrahend =>
    "difference of " ++ toString minuend ++ " and " ++ toString subtrahend
  | product => "product exceeds 128 bits"
  | overflow => "result exceeds 128 bits"
  | divisor => "division by zero"

inductive Cause where
  | divideByZero (w : Width)
  | divideOverflow (w : Width) (high low divisor : Word)
  | undefinedCarry
  | operandCount (expected actual : Nat)
  | operandMismatch (position : Nat) (op : Operand) (expected : Kind)
  | notScalar (op : Operand)
  | notVector (op : Operand)
  | readOnly (op : Operand)
  | unmappedRead (a : Address)
  | unmappedWrite (w : Width) (a : Address)
  | malformedKey (key : String)
  | unknownKey (key : String)
  | duplicateKey (key : String)
  | trap (t : Trap)
  /-- an error that a host reports in its own words -/
  | reported (kind : ErrorKind) (text : String)
  deriving DecidableEq

namespace Cause

def kind : Cause → ErrorKind
  | divideByZero _ => .divideByZero
  | divideOverflow _ _ _ _ => .divideOverflow
  | undefinedCarry => .undefinedFlag
  | operandCount _ _ | operandMismatch _ _ _ | notScalar _ | notVector _ | readOnly _ => .operand
  | unmappedRead _ | unmappedWrite _ _ => .memory
  | malformedKey _ | unknownKey _ => .lookup
  | duplicateKey _ | trap _ => .general
  | reported kind _ => kind

/-- What stands in front of the wording of a cause: the family of the error. -/
def heading : Cause → Option String
  | divideByZero _ | divideOverflow _ _ _ _ | undefinedCarry => some "Runtime Error"
  | operandCount _ _ | operandMismatch _ _ _ | notScalar _ | notVector _ | readOnly _ =>
    some "Operand Error"
  | unmappedRead _ | unmappedWrite _ _ => some "Memory Error"
  | malformedKey _ | unknownKey _ => some "Lookup Error"
  | duplicateKey _ | trap _ | reported _ _ => none

def detail : Cause → String
  | divideByZero w => w.render ++ "-bit divide by zero"
  | divideOverflow w high low divisor =>
    w.render ++ "-bit quotient of " ++ Text.address high.toNat ++ ":" ++ Text.address low.toNat
      ++ " / " ++ Text.address divisor.toNat ++ " does not fit"
  | undefinedCarry => "instruction reads CF while it is undefined"
  | operandCount expected actual =>
    "expected " ++ toString expected ++ " operands, got " ++ toString actual
  | operandMismatch position op expected =>
    "operand " ++ toString position ++ " (" ++ op.render ++ ") does not match " ++ expected.name
  | notScalar op => op.render ++ " is not a scalar operand"
  | notVector op => op.render ++ " is not a vector register"
  | readOnly op => "cannot write to read-only operand " ++ op.render
  | unmappedRead a => "read of unmapped address " ++ Text.address a.toNat
  | unmappedWrite w a =>
    "write of " ++ toString w.bytes ++ " bytes to unmapped address " ++ Text.address a.toNat
  | malformedKey key => "malformed selection key '" ++ key ++ "'"
  | unknownKey key => "no selection entry for " ++ key
  | duplicateKey key => "duplicate selection key " ++ key
  | trap t => t.message
  | reported _ text => text

/-- The wording of a cause behind the family of the error. -/
def message (c : Cause) : String :=
  match c.heading with
  | some heading => Text.Color.red.paint heading ++ " " ++ c.detail
  | none => c.detail

/-- Whether errors with this cause show the registers that the instruction started from. -/
def showsRegisters : Cause → Bool
  | divideByZero _ | divideOverflow _ _ _ _ | undefinedCarry => true
  | _ => false

end Cause

structure Error where
  cause : Cause
  /-- the registers that the instruction started from -/
  context : Option RegFile := none
  deriving DecidableEq

namespace Error

/-- The error of an instruction that started from the given registers. -/
def ofCause (before : RegFile) (c : Cause) : Error :=
  ⟨c, if c.showsRegisters then some before else none⟩

def kind (e : Error) : ErrorKind :=
  e.cause.kind

def message (e : Error) : String :=
  e.cause.message

/-- Whether a processor raises the error as an exception. -/
def isFault (e : Error) : Bool :=
  e.kind.isFault

/-- The wording of an error, followed by the registers and flags that it shows. -/
def render (e : Error) : String :=
  match e.context with
  | some r => e.message ++ "\nContext: " ++ r.render ++ " -> (" ++ r.flags.render ++ ")"
  | none => e.message

/-- One line with the kind of an error and its wording. -/
def describe (e : Error) : String :=
  Text.Color.red.paint "x86sem::Error" ++ "(" ++ e.kind.name ++ "): " ++ e.message

end Error

end X86
