import X86.Lanes

/-!
# Registers and their views

A register operand is a view of a slot of the register file: the general purpose registers, the
eight MMX registers and the sixteen YMM registers are slots. Views overlap, for instance the bytes
AL and AH, the word AX and the doubleword EAX are views of the slot RAX.

* `Gpr`, `Part`: the general purpose registers and the parts of one that an operand can name;
* `Reg`: a register operand; `Reg.slot`, `Reg.offset`, `Reg.width` say which bits it names;
* `Reg.clearsRest`: whether a write also clears the other bits of the slot.
-/

namespace X86

/-- The general purpose registers, in the order of their encoding. -/
inductive Gpr where
  | rax | rcx | rdx | rbx | rsp | rbp | rsi | rdi | r8 | r9 | r10 | r11 | r12 | r13 | r14 | r15
  deriving DecidableEq

namespace Gpr

def all : List Gpr :=
  [rax, rcx, rdx, rbx, rsp, rbp, rsi, rdi, r8, r9, r10, r11, r12, r13, r14, r15]

/-- The number that encodes a register. -/
def index : Gpr → Fin 16
  | rax => 0
  | rcx => 1
  | rdx => 2
  | rbx => 3
  | rsp => 4
  | rbp => 5
  | rsi => 6
  | rdi => 7
  | r8 => 8
  | r9 => 9
  | r10 => 10
  | r11 => 11
  | r12 => 12
  | r13 => 13
  | r14 => 14
  | r15 => 15

def name : Gpr → String
  | rax => "rax"
  | rcx => "rcx"
  | rdx => "rdx"
  | rbx => "rbx"
  | rsp => "rsp"
  | rbp => "rbp"
  | rsi => "rsi"
  | rdi => "rdi"
  | r8 => "r8"
  | r9 => "r9"
  | r10 => "r10"
  | r11 => "r11"
  | r12 => "r12"
  | r13 => "r13"
  | r14 => "r14"
  | r15 => "r15"

theorem mem_all (g : Gpr) : g ∈ all := by
  cases g <;> decide

def ofIndex (i : Fin 16) : Gpr :=
  all[i]

@[simp] theorem ofIndex_index (g : Gpr) : ofIndex g.index = g := by
  cases g <;> rfl

theorem index_ofIndex : ∀ i : Fin 16, (ofIndex i).index = i := by
  decide

theorem index_injective {g h : Gpr} (e : g.index = h.index) : g = h := by
  rw [← ofIndex_index g, e, ofIndex_index]

end Gpr

/-- The part of a general purpose register that an operand names. -/
inductive Part where
  | low8
  | high8
  | word
  /-- bits 31 to 0, of which a write clears bits 63 to 32 -/
  | dword
  | qword
  deriving DecidableEq

namespace Part

def width : Part → Width
  | low8 | high8 => .w8
  | word => .w16
  | dword => .w32
  | qword => .w64

def name : Part → String
  | low8 => "Low8"
  | high8 => "High8"
  | word => "Word"
  | dword => "Dword"
  | qword => "Qword"

end Part

/-- The encoding of an instruction that writes an XMM register. -/
inductive Encoding where
  /-- bits 255 to 128 of the YMM register stay -/
  | legacy
  /-- bits 255 to 128 of the YMM register are cleared -/
  | vex
  deriving DecidableEq

/-- A register operand. The number of a vector register counts modulo the size of its bank. -/
inductive Reg where
  | gpr (g : Gpr) (part : Part)
  | mmx (i : UInt8)
  | xmm (i : UInt8) (enc : Encoding)
  | ymm (i : UInt8)
  deriving DecidableEq

/-- A place of the register file that holds one full register. -/
inductive Slot where
  | gpr (g : Gpr)
  | mmx (i : Fin 8)
  | ymm (i : Fin 16)
  deriving DecidableEq

def Slot.width : Slot → Width
  | .gpr _ | .mmx _ => .w64
  | .ymm _ => .w256

namespace Reg

/-- The slot of which a register is a view. -/
def slot : Reg → Slot
  | gpr g _ => .gpr g
  | mmx i => .mmx (Fin.ofNat 8 i.toNat)
  | xmm i _ => .ymm (Fin.ofNat 16 i.toNat)
  | ymm i => .ymm (Fin.ofNat 16 i.toNat)

/-- The lowest bit of the slot that a register names. -/
def offset : Reg → Nat
  | gpr _ .high8 => 8
  | _ => 0

def width : Reg → Width
  | gpr _ p => p.width
  | mmx _ => .w64
  | xmm _ _ => .w128
  | ymm _ => .w256

/-- Whether a write to a register clears all bits of its slot that it does not name. -/
def clearsRest : Reg → Bool
  | gpr _ .dword => true
  | xmm _ .vex => true
  | _ => false

/-- Whether a register is a view of a general purpose register. -/
def isGpr : Reg → Bool
  | gpr _ _ => true
  | _ => false

/-- A full general purpose register is written as its name, a part of one with the part behind a
point. -/
def render : Reg → String
  | gpr g .qword => g.name
  | gpr g p => g.name ++ "." ++ p.name
  | mmx i => "mm" ++ toString i.toNat
  | xmm i _ => "xmm" ++ toString i.toNat
  | ymm i => "ymm" ++ toString i.toNat

theorem offset_add_bits_le (r : Reg) : r.offset + r.width.bits ≤ r.slot.width.bits := by
  cases r with
  | gpr g p => cases p <;> simp [offset, width, slot, Part.width, Slot.width, Width.bits]
  | _ => simp [offset, width, slot, Slot.width, Width.bits]

end Reg

namespace Gpr

/-- The low bits of a register as an operand: AL, AX, EAX and RAX are such views of RAX. -/
def view (g : Gpr) : Width → Reg
  | .w8 => .gpr g .low8
  | .w16 => .gpr g .word
  | .w32 => .gpr g .dword
  | _ => .gpr g .qword

/-- The byte above the lowest one, which only the first four registers have as an operand. -/
def high? : Gpr → Option Reg
  | g@rax | g@rcx | g@rdx | g@rbx => some (.gpr g .high8)
  | _ => none

theorem width_view {w : Width} (h : w.isScalar) (g : Gpr) : (g.view w).width = w := by
  cases w <;> first | rfl | exact absurd h (by decide)

end Gpr

end X86
