import X86.Instruction.Divide
import X86.Instruction.Multiply
import X86.Instruction.Shift
import X86.Proofs.Memory
import X86.Proofs.Width

/-!
# Arithmetic that cannot fail

Operations with a limited range fail with traps and nothing else. At the widths of words all
operands are in range.

* `Except.TrapsOnly`: the only errors are traps, with a rule for sequences, and traps are no
  faults;
* `Checked.shift_of_lt`, `Checked.sub_of_le`, `Checked.divided_of_ne`: operations in range;
* `Checked.isWide_unsigned`, `Checked.isWide_signed`: the integers that 128 bits stand for;
* `Quotient.wide?_eq`, `Quotient.fits_eq`: divisions of 128 bits, and the range of their quotients.
-/

/-- Whether a cause is no fault. -/
def X86.Cause.Plain (c : Cause) : Prop :=
  c.kind.isFault = false

namespace Except

variable {α β : Type}

/-- A computation that fails with nothing but traps. -/
def TrapsOnly (x : Except X86.Cause α) : Prop :=
  ∀ c, x = .error c → ∃ t, c = .trap t

theorem TrapsOnly.bind {x : Except X86.Cause α} {f : α → Except X86.Cause β} (hx : x.TrapsOnly)
    (hf : ∀ a, (f a).TrapsOnly) : (x >>= f).TrapsOnly := by
  intro c h
  rcases bind_eq_error_iff.mp h with h | ⟨a, -, h⟩
  · exact hx c h
  · exact hf a c h

theorem TrapsOnly.plain {x : Except X86.Cause α} {c : X86.Cause} (hx : x.TrapsOnly)
    (h : x = .error c) : c.Plain := by
  obtain ⟨t, rfl⟩ := hx c h
  rfl

theorem TrapsOnly.ok (a : α) : TrapsOnly (ok a) :=
  fun _ h => nomatch h

theorem TrapsOnly.ite {p : Prop} [Decidable p] {x : Except X86.Cause α} {t : X86.Trap}
    (hx : x.TrapsOnly) : (if p then x else .error (.trap t)).TrapsOnly := by
  intro c h
  split at h
  · exact hx c h
  · cases h
    exact ⟨t, rfl⟩

end Except

namespace X86

open Except (TrapsOnly)

/-! ## Single operations -/

namespace Checked

variable {n amount : Nat} {a b : Nat} {s : Sign} {k d : Int}

theorem trapsOnly_shift {v : BitVec n} : (shift amount v).TrapsOnly :=
  .ite (.ok v)

theorem shift_of_lt (h : amount < n) (v : BitVec n) : shift amount v = .ok v :=
  if_pos h

theorem trapsOnly_shiftRightBy {v : BitVec n} : (shiftRightBy s v amount).TrapsOnly := by
  cases s <;> exact trapsOnly_shift

theorem trapsOnly_sub : (sub a b).TrapsOnly :=
  .ite (.ok _)

theorem sub_of_le (h : b ≤ a) : sub a b = .ok (a - b) :=
  if_pos h

theorem trapsOnly_wideProduct : (wideProduct s k d).TrapsOnly :=
  .ite (.ok _)

theorem trapsOnly_wide : (wide s k).TrapsOnly :=
  .ite (.ok _)

theorem wide_of_isWide (h : isWide s k) : wide s k = .ok k :=
  if_pos h

theorem trapsOnly_divided {f : Int → Int → Int} : (divided f k d).TrapsOnly := by
  intro c h
  unfold divided at h
  split at h
  · cases h
    exact ⟨.divisor, rfl⟩
  · cases h

theorem divided_of_ne {f : Int → Int → Int} (h : d ≠ 0) : divided f k d = .ok (f k d) :=
  if_neg h

theorem trapsOnly_quotient : (quotient s k d).TrapsOnly :=
  trapsOnly_divided.bind fun _ => trapsOnly_wide

theorem trapsOnly_remainder : (remainder s k d).TrapsOnly :=
  trapsOnly_quotient.bind fun _ => trapsOnly_divided

theorem trapsOnly_wrappingQuotient : (wrappingQuotient s k d).TrapsOnly :=
  trapsOnly_divided.bind fun _ => .ok _

theorem trapsOnly_wrappingRemainder : (wrappingRemainder s k d).TrapsOnly :=
  trapsOnly_divided.bind fun _ => .ok _

/-! ## The integers of 128 bits -/

theorem isWide_unsigned : isWide .unsigned k ↔ 0 ≤ k ∧ k < 2 ^ 128 := by
  have hv : wideValue .unsigned (.ofInt 128 k) = k % 2 ^ 128 := by
    change ((BitVec.ofInt 128 k).toNat : Int) = _
    rw [BitVec.toNat_ofInt, Int.toNat_of_nonneg (Int.emod_nonneg _ (by norm_num))]
    norm_num
  rw [isWide, hv, decide_eq_true_iff]
  omega

theorem isWide_signed : isWide .signed k ↔ -2 ^ 127 ≤ k ∧ k < 2 ^ 127 := by
  have hv : wideValue .signed (.ofInt 128 k) = k.bmod (2 ^ 128) := BitVec.toInt_ofInt k
  rw [isWide, hv, decide_eq_true_iff]
  constructor
  · intro h
    have hl := Int.le_bmod (x := k) (m := 2 ^ 128) (by norm_num)
    have hu := Int.bmod_lt (x := k) (m := 2 ^ 128) (by norm_num)
    rw [h] at hl hu
    norm_num at hl hu ⊢
    omega
  · rintro ⟨hl, hu⟩
    exact Int.bmod_eq_of_le (by norm_num; omega) (by norm_num; omega)

theorem isWide_wideValue (s : Sign) (p : Wide) : isWide s (wideValue s p) := by
  cases s with
  | unsigned =>
    rw [isWide_unsigned]
    exact ⟨Int.natCast_nonneg _, Int.ofNat_lt.mpr p.isLt⟩
  | signed =>
    rw [isWide_signed]
    exact ⟨BitVec.le_toInt p, BitVec.toInt_lt⟩

theorem isWide_of_inRange {w : Width} (h : s.InRange w k) : isWide s k := by
  have hle := w.scalarBits_le
  cases s with
  | unsigned =>
    have hp : (2 : Int) ^ w.scalarBits ≤ 2 ^ 64 := pow_le_pow_right₀ (by norm_num) hle
    rw [Sign.inRange_unsigned] at h
    rw [isWide_unsigned]
    omega
  | signed =>
    have hp : (2 : Int) ^ (w.scalarBits - 1) ≤ 2 ^ 63 :=
      pow_le_pow_right₀ (by norm_num) (by omega)
    rw [Sign.inRange_signed] at h
    rw [isWide_signed]
    omega

theorem isWide_mul (s : Sign) (w : Width) (a b : Word) :
    isWide s (s.value w a * s.value w b) := by
  cases s with
  | unsigned =>
    have ha := Sign.inRange_unsigned.mp (Sign.unsigned.inRange_value w a)
    have hb := Sign.inRange_unsigned.mp (Sign.unsigned.inRange_value w b)
    have hw : (2 : Int) ^ w.scalarBits ≤ 2 ^ 64 := pow_le_pow_right₀ (by norm_num) w.scalarBits_le
    rw [isWide_unsigned]
    exact ⟨mul_nonneg ha.1 hb.1, by nlinarith only [ha.1, ha.2, hb.1, hb.2, hw]⟩
  | signed =>
    have hw : (2 : Int) ^ (w.scalarBits - 1) ≤ 2 ^ 63 :=
      pow_le_pow_right₀ (by norm_num) (by have := w.scalarBits_le; omega)
    have hab : |Sign.signed.value w a * Sign.signed.value w b| ≤ 2 ^ 63 * 2 ^ 63 :=
      (Sign.abs_signed_mul_le w a b).trans (mul_le_mul hw hw (by positivity) (by norm_num))
    rw [abs_le] at hab
    rw [isWide_signed]
    omega

theorem ofInt_wideValue (s : Sign) (k : Int) :
    BitVec.ofInt 64 (wideValue s (.ofInt 128 k)) = BitVec.ofInt 64 k := by
  apply BitVec.eq_of_toInt_eq
  rw [BitVec.toInt_ofInt, BitVec.toInt_ofInt]
  cases s with
  | unsigned =>
    change (((BitVec.ofInt 128 k).toNat : Int)).bmod _ = _
    rw [BitVec.toNat_ofInt, Int.toNat_of_nonneg (Int.emod_nonneg _ (by norm_num))]
    rw [Int.bmod_def, Int.bmod_def, Int.emod_emod_of_dvd _ (by norm_num)]
  | signed =>
    change ((BitVec.ofInt 128 k).toInt).bmod _ = _
    rw [BitVec.toInt_ofInt]
    exact Int.bmod_bmod_of_dvd (by norm_num)

/-! ## Products and shifts of 128 bits -/

theorem wideProduct_of_isWide (h : isWide s (k * d)) :
    wideProduct s k d = .ok (.ofInt 128 (k * d)) :=
  if_pos (of_decide_eq_true h)

theorem exists_shiftRightBy (s : Sign) (p : Wide) (h : amount < 128) :
    ∃ q, shiftRightBy s p amount = .ok q ∧ wideValue s q = wideValue s p / 2 ^ amount := by
  cases s with
  | unsigned =>
    refine ⟨_, shift_of_lt h _, ?_⟩
    change ((p >>> amount).toNat : Int) = (p.toNat : Int) / 2 ^ amount
    rw [BitVec.toNat_ushiftRight, Nat.shiftRight_eq_div_pow]
    push_cast
    rfl
  | signed =>
    refine ⟨_, shift_of_lt h _, ?_⟩
    change (p.sshiftRight amount).toInt = p.toInt / 2 ^ amount
    rw [BitVec.toInt_sshiftRight, Int.shiftRight_eq_div_pow]
    push_cast
    rfl

theorem setWidth_eq_ofInt (s : Sign) (p : Wide) :
    p.setWidth 64 = BitVec.ofInt 64 (wideValue s p) := by
  have hu : p.setWidth 64 = BitVec.ofInt 64 (wideValue .unsigned p) := by
    change _ = BitVec.ofInt 64 (p.toNat : Int)
    rw [BitVec.ofInt_natCast, BitVec.ofNat_toNat]
  cases s with
  | unsigned => exact hu
  | signed =>
    have h := ofInt_wideValue .unsigned p.toInt
    rw [BitVec.ofInt_toInt] at h
    exact hu.trans h

end Checked

/-! ## Products, shifts and quotients -/

theorem Product.trapsOnly_ofFactors {s : Sign} {w : Width} {a b : Word} :
    (ofFactors s w a b).TrapsOnly :=
  Checked.trapsOnly_wideProduct.bind fun _ =>
    Checked.trapsOnly_shiftRightBy.bind fun _ => .ok _

namespace Shifted

variable {s : Sign} {w : Width} {v : Word} {count : Nat}

theorem trapsOnly_left : (left w v count).TrapsOnly := by
  unfold left
  split
  · exact .ok _
  · split
    · exact Checked.trapsOnly_sub.bind fun _ => Checked.trapsOnly_shift.bind fun _ => .ok _
    · exact .ok _

theorem trapsOnly_moveRight : (moveRight s w v count).TrapsOnly := by
  cases s with
  | unsigned => exact Checked.trapsOnly_shift
  | signed => exact Checked.trapsOnly_shift.bind fun _ => .ok _

theorem trapsOnly_right : (right s w v count).TrapsOnly := by
  unfold right
  split
  · exact trapsOnly_moveRight.bind fun _ => .ok _
  · split
    · exact Checked.trapsOnly_sub.bind fun _ => trapsOnly_moveRight.bind fun _ =>
        trapsOnly_moveRight.bind fun _ => .ok _
    · exact .ok _

end Shifted

theorem trapsOnly_dividend {s : Sign} {w : Width} {high low : Word} :
    (dividend s w high low).TrapsOnly := by
  refine Checked.trapsOnly_shift.bind fun _ => ?_
  cases s with
  | unsigned => exact .ok _
  | signed =>
    exact Checked.trapsOnly_sub.bind fun _ => Checked.trapsOnly_shift.bind fun _ =>
      Checked.trapsOnly_shift.bind fun _ => .ok _

theorem isWide_of_dividend {s : Sign} {w : Width} {high low : Word} {n : Int}
    (h : dividend s w high low = .ok n) : Checked.isWide s n := by
  obtain ⟨p, -, h⟩ := Except.bind_eq_ok_iff.mp h
  cases s with
  | unsigned =>
    cases h
    exact Checked.isWide_wideValue .unsigned _
  | signed =>
    obtain ⟨fill, -, h⟩ := Except.bind_eq_ok_iff.mp h
    obtain ⟨top, -, h⟩ := Except.bind_eq_ok_iff.mp h
    obtain ⟨q, -, h⟩ := Except.bind_eq_ok_iff.mp h
    cases h
    exact Checked.isWide_wideValue .signed q

theorem dividend_of_not_scalar {s : Sign} {w : Width} (hw : ¬ w.isScalar) (high low : Word) :
    dividend s w high low = .error (.trap (.shift 128 w.bits)) := by
  have hbits : ¬ w.bits < 128 := by
    revert hw
    cases w <;> decide
  unfold dividend
  rw [Checked.shiftLeft, Checked.shift, if_neg hbits]
  rfl

namespace Quotient

variable {s : Sign} {w : Width} {checked : Bool} {n d q : Int}

theorem trapsOnly_wide? : (wide? s checked n d).TrapsOnly := by
  cases s with
  | unsigned =>
    exact Checked.trapsOnly_quotient.bind fun _ =>
      Checked.trapsOnly_remainder.bind fun _ => .ok _
  | signed =>
    unfold wide?
    dsimp only
    split
    · exact Checked.trapsOnly_wrappingRemainder.bind fun _ => .ok _
    · split
      · exact .ok _
      · exact Checked.trapsOnly_wrappingQuotient.bind fun _ =>
          Checked.trapsOnly_wrappingRemainder.bind fun _ => .ok _

theorem trapsOnly_fits : (fits s w q).TrapsOnly := by
  cases s with
  | unsigned => exact Checked.trapsOnly_shift.bind fun _ => .ok _
  | signed =>
    exact Checked.trapsOnly_sub.bind fun _ => Checked.trapsOnly_shift.bind fun _ =>
      Checked.trapsOnly_wide.bind fun _ => Checked.trapsOnly_wide.bind fun _ => .ok _

/-- **Dividing 128 bits** gives quotient and remainder of the integers, up to a multiple of
`2 ^ 128` where the quotient needs more. -/
theorem wide?_eq (hn : Checked.isWide s n) (hd : d ≠ 0) (hs : s = .unsigned → 0 ≤ d) :
    wide? s checked n d =
      if Checked.isWide s (n.tdiv d) then .ok (some (n.tdiv d, n.tmod d))
      else if checked then .ok none
      else .ok (some (Checked.wideValue s (.ofInt 128 (n.tdiv d)), n.tmod d)) := by
  cases s with
  | unsigned =>
    have hq : Checked.isWide .unsigned (n.tdiv d) := by
      have hd := hs rfl
      rw [Checked.isWide_unsigned] at hn ⊢
      exact ⟨Int.tdiv_nonneg hn.1 hd, lt_of_le_of_lt (Int.tdiv_le_self _ hn.1) hn.2⟩
    have hquot : Checked.quotient .unsigned n d = .ok (n.tdiv d) := by
      rw [Checked.quotient, Checked.divided_of_ne hd]
      exact Checked.wide_of_isWide hq
    have hrem : Checked.remainder .unsigned n d = .ok (n.tmod d) := by
      rw [Checked.remainder, hquot, Checked.divided_of_ne hd]
      rfl
    rw [if_pos hq, wide?, hquot]
    change (Checked.remainder .unsigned n d >>= _) = _
    rw [hrem]
    rfl
  | signed =>
    have hr : Checked.isWide .signed (n.tmod d) := by
      rw [Checked.isWide_signed] at hn ⊢
      have habs : (n.tmod d).natAbs ≤ n.natAbs := by
        rw [Int.natAbs_tmod]
        exact Nat.mod_le _ _
      rcases le_or_gt 0 n with h | h
      · have := Int.tmod_nonneg d h
        omega
      · have := Int.tmod_nonneg d (Int.neg_nonneg.mpr h.le)
        rw [Int.neg_tmod] at this
        omega
    have hrem : Checked.wrappingRemainder .signed n d = .ok (n.tmod d) := by
      rw [Checked.wrappingRemainder, Checked.divided_of_ne hd]
      exact congrArg Except.ok (of_decide_eq_true hr)
    have hquot : Checked.wrappingQuotient .signed n d =
        .ok (Checked.wideValue .signed (.ofInt 128 (n.tdiv d))) := by
      rw [Checked.wrappingQuotient, Checked.divided_of_ne hd]
      rfl
    rw [wide?, Checked.quotient?]
    by_cases hq : Checked.isWide .signed (n.tdiv d)
    · rw [if_pos ⟨hd, hq⟩, if_pos hq, hrem]
      rfl
    · rw [if_neg (fun h => hq h.2), if_neg hq, hrem, hquot]
      rfl

/-- **The range of a quotient** is that of the bits that count. -/
theorem fits_eq (hw : w.isScalar) (hq : Checked.isWide s q) :
    fits s w q = .ok (decide (s.InRange w q)) := by
  have hb := Width.scalarBits_eq_bits hw
  have hbits : 0 < w.bits ∧ w.bits ≤ 64 := ⟨hb ▸ w.scalarBits_pos, hb ▸ w.scalarBits_le⟩
  cases s with
  | unsigned =>
    rw [fits, Checked.shiftRight, Checked.shift_of_lt (by omega)]
    refine congrArg Except.ok ?_
    rw [Checked.isWide_unsigned] at hq
    have hv : ((BitVec.ofInt 128 q).toNat : Int) = q :=
      of_decide_eq_true (Checked.isWide_unsigned.mpr hq)
    rw [Bool.eq_iff_iff, beq_iff_eq, decide_eq_true_iff, Sign.inRange_unsigned, hb,
      ← BitVec.toNat_inj, BitVec.toNat_ushiftRight, Nat.shiftRight_eq_div_pow]
    change _ / _ = 0 ↔ _
    have hp : ((2 ^ w.bits : Nat) : Int) = 2 ^ w.bits := by norm_cast
    have hpos : 0 < 2 ^ w.bits := by positivity
    rw [Nat.div_eq_zero_iff, ← hp]
    omega
  | signed =>
    rw [fits, Checked.sub_of_le (by omega)]
    change (Checked.shiftLeft (1 : Wide) (w.bits - 1) >>= _) = _
    rw [Checked.shiftLeft, Checked.shift_of_lt (by omega)]
    have hv : ((1 : Wide) <<< (w.bits - 1)).toInt = 2 ^ (w.bits - 1) := by
      rcases Width.scalar_cases hw with rfl | rfl | rfl | rfl <;> decide
    have hp : (2 : Int) ^ (w.bits - 1) ≤ 2 ^ 63 := pow_le_pow_right₀ (by norm_num) (by omega)
    have hpos : (0 : Int) < 2 ^ (w.bits - 1) := by positivity
    have hl := Checked.wide_of_isWide
      (Checked.isWide_signed (k := -2 ^ (w.bits - 1)).mpr (by omega))
    have hu := Checked.wide_of_isWide
      (Checked.isWide_signed (k := 2 ^ (w.bits - 1) - 1).mpr (by omega))
    change (Checked.wide .signed (-((1 : Wide) <<< (w.bits - 1)).toInt) >>= fun least =>
      Checked.wide .signed (((1 : Wide) <<< (w.bits - 1)).toInt - 1) >>= fun greatest =>
        Except.ok (decide (least ≤ q ∧ q ≤ greatest))) = _
    rw [hv, hl, hu]
    refine congrArg Except.ok ?_
    rw [decide_eq_decide, Sign.inRange_signed, hb]
    omega

end Quotient

end X86
