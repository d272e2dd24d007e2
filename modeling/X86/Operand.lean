import X86.Register

/-!
# Operands

What a decoder delivers for one operand position: a register, a piece of memory at an address that
is already computed, or an immediate value. A register or memory operand is either read-only or
also writable.

* `Operand`, `Operand.kind`, `Operand.width`;
* `Kind`: what an instruction expects at an operand position, with `Kind.accepts`.
-/

namespace X86

/-- A piece of memory: the bytes from an address on, as many as the width has. -/
structure MemRef where
  address : Address
  width : Width
  deriving DecidableEq

/-- A piece of memory is written as its width and its address. -/
def MemRef.render (m : MemRef) : String :=
  "m" ++ m.width.render ++ "[" ++ Text.address m.address.toNat ++ "]"

inductive Operand where
  | reg (r : Reg)
  /-- a register that is read and written -/
  | regW (r : Reg)
  | mem (m : MemRef)
  /-- memory that is read and written -/
  | memW (m : MemRef)
  /-- a value, of which the low bits count -/
  | imm (v : Word) (w : Width)
  deriving DecidableEq

/-- What an instruction expects at an operand position. -/
inductive Kind where
  /-- a register to read -/
  | r
  /-- a register to read and write -/
  | rw
  /-- memory to read -/
  | m
  /-- memory to read and write -/
  | mw
  | i
  deriving DecidableEq

def Kind.name : Kind → String
  | r => "R"
  | rw => "RW"
  | m => "M"
  | mw => "MW"
  | i => "I"

namespace Operand

/-- An immediate value of which only the bits that count are kept. -/
def immediate (v : Word) (w : Width) : Operand :=
  imm (w.trunc v) w

/-- The kind of position that an operand is made for. -/
def kind : Operand → Kind
  | reg _ => .r
  | regW _ => .rw
  | mem _ => .m
  | memW _ => .mw
  | imm _ _ => .i

def width : Operand → Width
  | reg r | regW r => r.width
  | mem m | memW m => m.width
  | imm _ w => w

def register? : Operand → Option Reg
  | reg r | regW r => some r
  | _ => none

def memory? : Operand → Option MemRef
  | mem m | memW m => some m
  | _ => none

def isRegister (op : Operand) : Bool :=
  op.register?.isSome

def isWritable : Operand → Bool
  | regW _ | memW _ => true
  | _ => false

/-- Registers and memory are written as such, immediate values behind a dollar sign. -/
def render : Operand → String
  | reg r | regW r => r.render
  | mem m | memW m => m.render
  | imm v _ => "$" ++ Text.address v.toNat

end Operand

/-- A position that is only read accepts both access modes, every other one its own kind. -/
def Kind.accepts : Kind → Operand → Bool
  | r, op => op.isRegister
  | m, op => op.memory?.isSome
  | k, op => k = op.kind

end X86
