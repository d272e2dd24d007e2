/-!
# Options

What a host can choose: the processor mode, the instruction set extensions, the checks of
divisions, the treatment of undefined flags, and whether every instruction is logged.
-/

namespace X86

/-- What happens when an instruction depends on an undefined flag. -/
inductive UndefinedRead where
  | clear
  | set
  | error
  deriving DecidableEq

def UndefinedRead.name : UndefinedRead → String
  | clear => "Clear"
  | set => "Set"
  | error => "Error"

/-- The choices of a host. -/
structure Options where
  /-- model 32-bit protected mode instead of 64-bit long mode -/
  ia32 : Bool := false
  /-- leave out the instruction forms with VEX encoding -/
  noVex : Bool := false
  /-- cut quotients that do not fit instead of raising an error -/
  noDivChecks : Bool := false
  undefinedRead : UndefinedRead := .clear
  /-- log every instruction and its effects -/
  trace : Bool := false
  deriving DecidableEq

namespace Options

/-- Whether the processor is in 64-bit long mode. -/
def longMode (o : Options) : Bool :=
  !o.ia32

/-- Whether instruction forms with VEX encoding are available. -/
def vex (o : Options) : Bool :=
  !o.noVex

/-- Whether a quotient that does not fit raises an error. -/
def divChecks (o : Options) : Bool :=
  !o.noDivChecks

end Options

end X86
