import X86.Instruction
import X86.Operand.Shape
import X86.Options
import X86.Table.Key

/-!
# Rows of the selection table

A row describes an instruction form at several widths at once. Depending on the options, it gives
rise to one entry of the table for each of its widths, for some of them or for none.

* `Row`, `Sizes`, `Mode`, `Extension`;
* `Row.expansion`: the widths of a row, each with the processor modes in which it exists;
* `Row.instances`: those that the options permit.
-/

namespace X86

/-- The widths at which a row exists. -/
inductive Sizes where
  | byte
  | words
  | scalars
  | only (w : Width)
  deriving DecidableEq

/-- The widths of a row, in ascending order. -/
def Sizes.widths : Sizes → List Width
  | byte => [.w8]
  | words => [.w16, .w32, .w64]
  | scalars => [.w8, .w16, .w32, .w64]
  | only w => [w]

/-- The processor modes in which an instruction form exists. -/
inductive Mode where
  | any
  | long
  | legacy
  deriving DecidableEq

namespace Mode

/-- The name of a mode. -/
def name : Mode → String
  | any => "Any"
  | long => "Long"
  | legacy => "Legacy"

/-- Whether a form exists in the mode that the options choose. -/
def applies (o : Options) : Mode → Bool
  | any => true
  | long => o.longMode
  | legacy => !o.longMode

end Mode

/-- The extension of the instruction set that a form belongs to. -/
inductive Extension where
  | base | vex
  deriving DecidableEq

/-- The name of an extension. -/
def Extension.name : Extension → String
  | base => "Base"
  | vex => "Vex"

/-- Whether the options include an extension. -/
def Extension.included (o : Options) : Extension → Bool
  | base => true
  | vex => o.vex

/-- The name of a signedness. -/
def Sign.name : Sign → String
  | unsigned => "Unsigned"
  | signed => "Signed"

/-- An instruction form at several widths. -/
structure Row where
  /-- the key without the width at its end -/
  stem : String
  op : Op
  sign : Sign := .unsigned
  shape : Shape
  sizes : Sizes
  mode : Mode := .any
  extension : Extension := .base
  deriving DecidableEq

namespace Row

/-- The key of a row at a width. -/
def key (r : Row) (w : Width) : String :=
  r.stem ++ "_" ++ w.render

/-- The modes in which a row exists at a width. Rows with several widths have the 64-bit one in
long mode only, and not at all if they are confined to other modes. -/
def modeAt (r : Row) (w : Width) : Option Mode :=
  if w = .w64 ∧ r.sizes ≠ .only .w64 then
    match r.mode with
    | .legacy => none
    | .any | .long => some .long
  else some r.mode

/-- The widths of a row with the modes in which it exists there. -/
def expansion (r : Row) : List (Width × Mode) :=
  r.sizes.widths.filterMap fun w => (r.modeAt w).map (w, ·)

/-- The widths of a row that the options permit, with their modes. -/
def instances (o : Options) (r : Row) : List (Width × Mode) :=
  if r.extension.included o then r.expansion.filter fun (_, m) => m.applies o else []

end Row

end X86
