import Mathlib.Tactic.SplitIfs
import X86.Register.File

/-!
# Views of registers

The low part of a general purpose register is its truncation. A write changes one slot, and there
the bits that the operand names; the policy for the others depends on the operand.

* `RegFile.low_read_view`: what the low part of a register reads as;
* `Reg.Aliases`, `Reg.bitAfter`: operands that share a slot, and the bits of a slot after a write;
* `RegFile.write_write`, `RegFile.write_comm`: two writes, one after the other;
* `Reg.Spares`, `RegFile.read_write_of_spares`: writes that another register does not see;
* **`RegFile.view_laws`**: reads, writes and what they leave alone, for all operands.
-/

namespace X86

namespace Reg

/-- A write to the first register changes no bit of the second one. -/
def Spares (a b : Reg) : Prop :=
  a.slot ≠ b.slot ∨
    a.clearsRest = false ∧
      (a.offset + a.width.bits ≤ b.offset ∨ b.offset + b.width.bits ≤ a.offset)

theorem low8_spares (g : Gpr) : (gpr g .low8).Spares (gpr g .high8) :=
  .inr ⟨rfl, .inl (Nat.le_refl 8)⟩

theorem high8_spares (g : Gpr) : (gpr g .high8).Spares (gpr g .low8) :=
  .inr ⟨rfl, .inr (Nat.le_refl 8)⟩

/-- Two operands name parts of one register. MMX registers count modulo eight. XMM and YMM
registers count modulo sixteen and share their numbers. -/
def Aliases : Reg → Reg → Prop
  | gpr g _, gpr h _ => g = h
  | mmx i, mmx j => i.toNat % 8 = j.toNat % 8
  | xmm i _, xmm j _ | xmm i _, ymm j | ymm i, xmm j _ | ymm i, ymm j =>
    i.toNat % 16 = j.toNat % 16
  | _, _ => False

/-- A bit of a register that held `old`, after `new` is written to a part of it. -/
def bitAfter : Reg → (old new : Lanes) → Nat → Bool
  | gpr _ .low8, old, new, i => if i < 8 then new.getLsbD i else old.getLsbD i
  | gpr _ .high8, old, new, i => if 8 ≤ i ∧ i < 16 then new.getLsbD (i - 8) else old.getLsbD i
  | gpr _ .word, old, new, i => if i < 16 then new.getLsbD i else old.getLsbD i
  | gpr _ .dword, _, new, i => if i < 32 then new.getLsbD i else false
  | xmm _ .legacy, old, new, i => if i < 128 then new.getLsbD i else old.getLsbD i
  | xmm _ .vex, _, new, i => if i < 128 then new.getLsbD i else false
  | gpr _ .qword, _, new, i | mmx _, _, new, i | ymm _, _, new, i => new.getLsbD i

theorem slot_eq_iff {a b : Reg} : a.slot = b.slot ↔ a.Aliases b := by
  cases a with
  | gpr g p => cases b <;> simp [slot, Aliases]
  | mmx i =>
    cases b <;>
      simp only [slot, Aliases, reduceCtorEq, Slot.mmx.injEq, Fin.ext_iff, Fin.val_ofNat]
  | xmm i enc | ymm i =>
    cases b <;>
      simp only [slot, Aliases, reduceCtorEq, Slot.ymm.injEq, Fin.ext_iff, Fin.val_ofNat]

end Reg

namespace RegFile

variable {r q : RegFile} {x y : Reg}

theorem write_trunc (r : RegFile) (reg : Reg) (v : Lanes) :
    r.write reg (Lanes.trunc reg.width v) = r.write reg v := by
  simp only [write, Lanes.splice, Lanes.trunc_trunc]

theorem low_read_view (r : RegFile) {w : Width} (hw : w.isScalar) (g : Gpr) :
    (r.read (g.view w)).low = w.trunc (r.get g) := by
  have hb := Width.scalarBits_eq_bits hw
  have hv : (g.view w).slot = .gpr g ∧ (g.view w).offset = 0 := by
    cases w <;> exact ⟨rfl, rfl⟩
  apply BitVec.eq_of_getLsbD_eq
  intro i hi
  rw [Lanes.getLsbD_low, decide_eq_true hi, Bool.true_and, read, hv.1, hv.2, Gpr.width_view hw,
    Lanes.getLsbD_trunc, BitVec.getLsbD_ushiftRight, Nat.zero_add, slot, Lanes.getLsbD_ofWord,
    Width.getLsbD_trunc, hb]

theorem read_write_of_spares (r : RegFile) {a b : Reg} (h : a.Spares b) (v : Lanes) :
    (r.write a v).read b = r.read b := by
  rw [read, read]
  by_cases hs : a.slot = b.slot
  · obtain ⟨hc, hd⟩ := h.resolve_left fun hne => hne hs
    have hb := b.offset_add_bits_le
    apply BitVec.eq_of_getLsbD_eq
    intro i _
    rw [Lanes.getLsbD_trunc, Lanes.getLsbD_trunc, BitVec.getLsbD_ushiftRight,
      BitVec.getLsbD_ushiftRight]
    by_cases hi : i < b.width.bits
    · rw [← hs] at hb ⊢
      rw [getLsbD_slot_write _ _ _ _ (by omega), if_neg (by omega), hc]
      rfl
    · simp [hi]
  · rw [slot_write_of_ne r hs]

/-! ## Two writes -/

theorem getLsbD_slot_of_le {s : Slot} {i : Nat} (h : s.width.bits ≤ i) :
    (r.slot s).getLsbD i = false := by
  cases s with
  | gpr g => exact (Lanes.getLsbD_ofWord _ _).trans (BitVec.getLsbD_of_ge _ _ h)
  | mmx j => exact (Lanes.getLsbD_ofWord _ _).trans (BitVec.getLsbD_of_ge _ _ h)
  | ymm j => exact BitVec.getLsbD_of_ge _ _ h

theorem slot_congr {s : Slot}
    (h : ∀ i < s.width.bits, (r.slot s).getLsbD i = (q.slot s).getLsbD i) :
    r.slot s = q.slot s := by
  apply BitVec.eq_of_getLsbD_eq
  intro i _
  by_cases hi : i < s.width.bits
  · exact h i hi
  · rw [getLsbD_slot_of_le (Nat.not_lt.mp hi), getLsbD_slot_of_le (Nat.not_lt.mp hi)]

theorem write_write (r : RegFile) (x : Reg) (u v : Lanes) :
    (r.write x u).write x v = r.write x v := by
  refine ext_slot (fun s => ?_) (by simp)
  by_cases h : x.slot = s
  · subst h
    refine slot_congr fun i hi => ?_
    rw [getLsbD_slot_write _ x _ _ hi, getLsbD_slot_write _ x _ _ hi, getLsbD_slot_write _ x _ _ hi]
    split
    · rfl
    · cases x.clearsRest <;> rfl
  · simp only [slot_write_of_ne _ h]

theorem slot_write_congr (h : r.slot x.slot = q.slot x.slot) (v : Lanes) :
    (r.write x v).slot x.slot = (q.write x v).slot x.slot := by
  simp only [write, slot_setSlot, if_true, h]

theorem write_comm_of_ne (r : RegFile) (h : x.slot ≠ y.slot) (u v : Lanes) :
    (r.write x u).write y v = (r.write y v).write x u := by
  refine ext_slot (fun s => ?_) (by simp)
  by_cases hx : x.slot = s
  · subst hx
    rw [slot_write_of_ne _ (Ne.symm h)]
    exact slot_write_congr (slot_write_of_ne r (Ne.symm h) v).symm u
  · rw [slot_write_of_ne (r.write y v) hx]
    by_cases hy : y.slot = s
    · subst hy
      exact slot_write_congr (slot_write_of_ne r h u) v
    · rw [slot_write_of_ne _ hy, slot_write_of_ne _ hx, slot_write_of_ne _ hy]

/-- **Writes commute** if each of them leaves the bits of the other alone. -/
theorem write_comm (r : RegFile) (hx : x.Spares y) (hy : y.Spares x) (u v : Lanes) :
    (r.write x u).write y v = (r.write y v).write x u := by
  by_cases h : x.slot = y.slot
  · obtain ⟨hcx, hd⟩ := hx.resolve_left fun hne => hne h
    obtain ⟨hcy, -⟩ := hy.resolve_left fun hne => hne h.symm
    refine ext_slot (fun s => ?_) (by simp)
    by_cases hs : y.slot = s
    · subst hs
      refine slot_congr fun i hi => ?_
      rw [getLsbD_slot_write _ y _ _ hi]
      rw [← h] at hi ⊢
      rw [getLsbD_slot_write _ x _ _ hi, getLsbD_slot_write _ x _ _ hi, h,
        getLsbD_slot_write _ y _ _ (h ▸ hi), hcx, hcy]
      -- no bit belongs to both operands
      split_ifs <;> first | rfl | omega
    · rw [slot_write_of_ne _ hs, slot_write_of_ne _ (h ▸ hs), slot_write_of_ne _ (h ▸ hs),
        slot_write_of_ne _ hs]
  · exact write_comm_of_ne r h u v

theorem getLsbD_slot_write_eq (r : RegFile) (x : Reg) (v : Lanes) {i : Nat}
    (hi : i < x.slot.width.bits) :
    ((r.write x v).slot x.slot).getLsbD i = x.bitAfter (r.slot x.slot) v i := by
  rw [getLsbD_slot_write r x v i hi]
  cases x with
  | gpr g p =>
    cases p with
    | low8 | high8 | word | dword =>
      simp [Reg.bitAfter, Reg.offset, Reg.width, Part.width, Width.bits, Reg.clearsRest]
    | qword => exact if_pos ⟨Nat.zero_le i, hi⟩
  | xmm j enc =>
    cases enc <;> simp [Reg.bitAfter, Reg.offset, Reg.width, Width.bits, Reg.clearsRest]
  | mmx j | ymm j => exact if_pos ⟨Nat.zero_le i, hi⟩

theorem getLsbD_slot_write_xmm (r : RegFile) (j : UInt8) (enc : Encoding) (v : Lanes)
    {i : Nat} (hi : 128 ≤ i) :
    ((r.write (.xmm j enc) v).slot (Reg.xmm j enc).slot).getLsbD i =
      (decide (enc = .legacy) && (r.slot (Reg.xmm j enc).slot).getLsbD i) := by
  by_cases h : i < (Reg.xmm j enc).slot.width.bits
  · rw [getLsbD_slot_write_eq r _ v h]
    cases enc <;> simp [Reg.bitAfter, Nat.not_lt.mpr hi]
  · rw [getLsbD_slot_of_le (Nat.not_lt.mp h), getLsbD_slot_of_le (Nat.not_lt.mp h), Bool.and_false]

/-! ## All operands -/

/-- **Views of registers.** What is written to an operand is read from it, cut to its width. In the
register that the operand is a part of, a write changes the bits of the operand, and clears the
higher ones of a doubleword and of an XMM register in VEX encoding. It keeps all bits of other
registers and the flags. The last one of two writes to an operand counts. Writes to parts of
different registers, and to the two low bytes of a register, commute. -/
theorem view_laws (r : RegFile) (x : Reg) (u v : Lanes) :
    (r.write x v).read x = Lanes.trunc x.width v ∧
    (∀ i < x.slot.width.bits,
      ((r.write x v).slot x.slot).getLsbD i = x.bitAfter (r.slot x.slot) v i) ∧
    (∀ s ≠ x.slot, (r.write x v).slot s = r.slot s) ∧ (r.write x v).flags = r.flags ∧
    (r.write x u).write x v = r.write x v ∧
    ∀ y, (x.slot = y.slot ↔ x.Aliases y) ∧
      (¬ x.Aliases y ∨ (∃ g, x = .gpr g .low8 ∧ y = .gpr g .high8) →
        (r.write x u).write y v = (r.write y v).write x u) := by
  refine ⟨read_write r x v, fun i hi => getLsbD_slot_write_eq r x v hi,
    fun s hs => slot_write_of_ne r hs.symm v, flags_write r x v, write_write r x u v,
    fun y => ⟨Reg.slot_eq_iff, ?_⟩⟩
  rintro (h | ⟨g, rfl, rfl⟩)
  · exact write_comm_of_ne r (mt Reg.slot_eq_iff.mp h) u v
  · exact write_comm r (Reg.low8_spares g) (Reg.high8_spares g) u v

end RegFile

end X86
