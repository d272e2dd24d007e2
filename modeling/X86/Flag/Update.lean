import X86.Flag
import X86.Flag.Rule

/-!
# Flag updates

What an instruction does to the flags is a list of assignments, each to a different flag and in
the order of the bits in RFLAGS. The lists here are named for the instructions that use them.

* `FlagUpdate.arith`, `FlagUpdate.step`: sums and differences, and those that keep the carry flag;
* `FlagUpdate.product`, `FlagUpdate.logical`, `FlagUpdate.shift`;
* `FlagUpdate.packed`, `FlagUpdate.test`: packed instructions, which leave no flag undefined;
* `FlagUpdate.undefined`: divisions.
-/

namespace X86

/-- Assignments to flags, in the order in which they are made. -/
abbrev FlagUpdate := List (FlagName × Flag)

namespace FlagUpdate

/-- All flags but the carry flag, for `lhs` and `rhs` joined to `res` under the given rule. -/
def step (r : Rule) (w : Width) (lhs rhs res : Word) : FlagUpdate :=
  [(.pf, .ofBool (evenParity res)),
   (.af, .ofBool (auxCarry lhs rhs res)),
   (.zf, .ofBool (isZero w res)),
   (.sf, .ofBool (w.isNegative res)),
   (.of, .ofBool (r.overflow w lhs rhs res))]

/-- All flags, for `lhs` and `rhs` joined to `res` with a known carry. -/
def arith (carry : Bool) (r : Rule) (w : Width) (lhs rhs res : Word) : FlagUpdate :=
  (.cf, .ofBool carry) :: step r w lhs rhs res

/-- The carry and overflow flags tell whether a part of the product is lost. The sign flag is
that of the low half for signed products. -/
def product (lost : Bool) (s : Sign) (w : Width) (res : Word) : FlagUpdate :=
  [(.cf, .ofBool lost),
   (.pf, .undefined),
   (.af, .undefined),
   (.zf, .undefined),
   (.sf, match s with
    | .signed => .ofBool (w.isNegative res)
    | .unsigned => .undefined),
   (.of, .ofBool lost)]

/-- The carry and overflow flags end clear, and the auxiliary carry is undefined. -/
def logical (w : Width) (res : Word) : FlagUpdate :=
  [(.cf, .clear),
   (.pf, .ofBool (evenParity res)),
   (.af, .undefined),
   (.zf, .ofBool (isZero w res)),
   (.sf, .ofBool (w.isNegative res)),
   (.of, .clear)]

def shift (carry overflow : Flag) (w : Width) (res : Word) : FlagUpdate :=
  [(.cf, carry),
   (.pf, .ofBool (evenParity res)),
   (.af, .undefined),
   (.zf, .ofBool (isZero w res)),
   (.sf, .ofBool (w.isNegative res)),
   (.of, overflow)]

def packed : FlagUpdate :=
  FlagName.all.map fun n => (n, .clear)

/-- The carry and zero flags are given, every other flag ends clear. -/
def test (carry zero : Bool) : FlagUpdate :=
  [(.cf, .ofBool carry),
   (.pf, .clear),
   (.af, .clear),
   (.zf, .ofBool zero),
   (.sf, .clear),
   (.of, .clear)]

def undefined : FlagUpdate :=
  FlagName.all.map fun n => (n, .undefined)

end FlagUpdate

end X86
