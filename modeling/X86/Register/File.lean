import X86.Flag
import X86.Register

/-!
# The register file

All registers and the status flags. Reading and writing an operand goes through its slot: a read
takes the bits that the operand names, a write replaces them and keeps or clears the others.

* `RegFile.slot`, `RegFile.setSlot`: the content of a slot, with `slot_setSlot` and `ext_slot`;
* `RegFile.read`, `RegFile.write`: the content of a register operand.

Main statements: `read_write`, what is written to an operand is read from it;
`slot_write_of_ne` and `getLsbD_slot_write`, what a write changes and what it leaves alone.
-/

namespace X86

/-- The register file. An XMM register is the low half of a YMM register. -/
structure RegFile where
  gpr : Vector Word 16 := Vector.replicate 16 0
  mmx : Vector Word 8 := Vector.replicate 8 0
  ymm : Vector Lanes 16 := Vector.replicate 16 0
  flags : Flags := {}
  deriving DecidableEq

namespace RegFile

def get (r : RegFile) (g : Gpr) : Word :=
  r.gpr[g.index]

def set (r : RegFile) (g : Gpr) (v : Word) : RegFile :=
  { r with gpr := r.gpr.set g.index v }

/-- The content of a slot, with zeros above it. -/
def slot (r : RegFile) : Slot → Lanes
  | .gpr g => .ofWord (r.get g)
  | .mmx i => .ofWord (r.mmx.get i)
  | .ymm i => r.ymm.get i

def setSlot (r : RegFile) (s : Slot) (v : Lanes) : RegFile :=
  match s with
  | .gpr g => r.set g v.low
  | .mmx i => { r with mmx := r.mmx.set i v.low }
  | .ymm i => { r with ymm := r.ymm.set i v }

def setFlag (r : RegFile) (n : FlagName) (v : Flag) : RegFile :=
  { r with flags := r.flags.set n v }

/-- The content of a register operand, with zeros above it. -/
def read (r : RegFile) (reg : Reg) : Lanes :=
  Lanes.trunc reg.width (r.slot reg.slot >>> reg.offset)

/-- The registers after a write to a register operand. The bits that it names change to the low
bits of the value; the other bits of its slot stay unless the operand clears them. -/
def write (r : RegFile) (reg : Reg) (v : Lanes) : RegFile :=
  let old := if reg.clearsRest then 0 else r.slot reg.slot
  r.setSlot reg.slot (Lanes.splice reg.width reg.offset old v)

/-- The general purpose registers with their names, in the order of their encoding. -/
def render (r : RegFile) : String :=
  " ".intercalate <| Gpr.all.map fun g =>
    Text.Color.blue.paint (g.name ++ ":") ++ Text.hex (r.get g).toNat

/-! ## Slots are independent -/

@[simp] theorem get_set (r : RegFile) (g h : Gpr) (v : Word) :
    (r.set g v).get h = if g = h then v else r.get h := by
  by_cases e : g = h
  · subst e
    simp [get, set]
  · have : (g.index : Nat) ≠ h.index := fun i => e (Gpr.index_injective (Fin.ext i))
    simp [get, set, e, this]

@[simp] theorem flags_setSlot (r : RegFile) (s : Slot) (v : Lanes) :
    (r.setSlot s v).flags = r.flags := by
  cases s <;> rfl

@[simp] theorem slot_setFlag (r : RegFile) (n : FlagName) (f : Flag) (s : Slot) :
    (r.setFlag n f).slot s = r.slot s := by
  cases s <;> rfl

@[simp] theorem flags_setFlag (r : RegFile) (n : FlagName) (f : Flag) :
    (r.setFlag n f).flags = r.flags.set n f :=
  rfl

/-- A replaced slot holds the value, cut to its width, and every other slot what it held. -/
theorem slot_setSlot (r : RegFile) (s t : Slot) (v : Lanes) :
    (r.setSlot s v).slot t = if s = t then Lanes.trunc s.width v else r.slot t := by
  cases s with
  | gpr g =>
    cases t with
    | gpr h =>
      simp only [setSlot, slot, get_set, Slot.gpr.injEq, Slot.width]
      split
      · exact Lanes.ofWord_low v
      · rfl
    | mmx j => rfl
    | ymm j => rfl
  | mmx i =>
    cases t with
    | gpr h => rfl
    | mmx j =>
      simp only [setSlot, slot, Slot.mmx.injEq, Slot.width]
      change Lanes.ofWord (r.mmx.set i v.low)[j] = if i = j then _ else Lanes.ofWord r.mmx[j]
      by_cases e : i = j
      · subst e
        simp [Lanes.ofWord_low]
      · have : (i : Nat) ≠ j := fun h => e (Fin.ext h)
        simp [e, this]
    | ymm j => rfl
  | ymm i =>
    cases t with
    | gpr h => rfl
    | mmx j => rfl
    | ymm j =>
      simp only [setSlot, slot, Slot.ymm.injEq, Slot.width]
      change (r.ymm.set i v)[j] = if i = j then _ else r.ymm[j]
      by_cases e : i = j
      · subst e
        simp [Lanes.trunc, Width.bits]
      · have : (i : Nat) ≠ j := fun h => e (Fin.ext h)
        simp [e, this]

theorem ext_slot {r q : RegFile} (hs : ∀ s, r.slot s = q.slot s) (hf : r.flags = q.flags) :
    r = q := by
  obtain ⟨g, m, y, f⟩ := r
  obtain ⟨g', m', y', f'⟩ := q
  have hg : g = g' := by
    apply Vector.ext
    intro i hi
    have h := congrArg Lanes.low (hs (.gpr (Gpr.ofIndex ⟨i, hi⟩)))
    simpa [slot, get, Gpr.index_ofIndex] using h
  have hm : m = m' := by
    apply Vector.ext
    intro i hi
    have h := congrArg Lanes.low (hs (.mmx ⟨i, hi⟩))
    simp only [slot, Lanes.low_ofWord] at h
    exact h
  have hy : y = y' := by
    apply Vector.ext
    intro i hi
    exact hs (.ymm ⟨i, hi⟩)
  simp only at hf
  simp [hg, hm, hy, hf]

/-! ## Views of a slot -/

@[simp] theorem flags_write (r : RegFile) (reg : Reg) (v : Lanes) :
    (r.write reg v).flags = r.flags :=
  flags_setSlot _ _ _

theorem slot_write_of_ne (r : RegFile) {reg : Reg} {s : Slot} (h : reg.slot ≠ s) (v : Lanes) :
    (r.write reg v).slot s = r.slot s := by
  simp [write, slot_setSlot, h]

/-- The bits that an operand names come from the written value. The other bits of its slot stay,
or are cleared if the operand clears them. -/
theorem getLsbD_slot_write (r : RegFile) (reg : Reg) (v : Lanes) (i : Nat)
    (hi : i < reg.slot.width.bits) :
    ((r.write reg v).slot reg.slot).getLsbD i =
      if reg.offset ≤ i ∧ i < reg.offset + reg.width.bits then v.getLsbD (i - reg.offset)
      else !reg.clearsRest && (r.slot reg.slot).getLsbD i := by
  have hs : reg.slot.width.bits ≤ 256 := by
    cases reg <;> simp [Reg.slot, Slot.width, Width.bits]
  simp only [write, slot_setSlot, if_true, Lanes.getLsbD_trunc, hi, decide_true, Bool.true_and]
  rw [Lanes.getLsbD_splice _ _ _ _ _ (by omega)]
  cases reg.clearsRest <;> simp

/-- What is written to an operand is read from it, cut to its width. -/
@[simp] theorem read_write (r : RegFile) (reg : Reg) (v : Lanes) :
    (r.write reg v).read reg = Lanes.trunc reg.width v := by
  apply BitVec.eq_of_getLsbD_eq
  intro i _
  have hb := reg.offset_add_bits_le
  simp only [read, Lanes.getLsbD_trunc, BitVec.getLsbD_ushiftRight]
  by_cases h : i < reg.width.bits
  · rw [getLsbD_slot_write _ _ _ _ (by omega), if_pos (by omega), Nat.add_sub_cancel_left]
  · simp [h]

end RegFile

end X86
