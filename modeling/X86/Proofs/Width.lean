import Mathlib
import X86.Lanes

/-!
# Words as integers

At a width with `n` bits, a word stands for its remainder modulo `2 ^ n`, or for the integer in
`[-2 ^ (n - 1), 2 ^ (n - 1))` with the same remainder.

* `Width.scalar_cases`, `Width.toNat_mask_succ`: the four widths of scalar values, and how many
  words there are at a width;
* `Width.toNat_trunc`, `Width.isNegative_eq`, `Width.signed_eq`: truncation, sign and signed value;
* `Lanes.toNat_trunc`, `Lanes.toNat_ofWord`, `Lanes.toNat_trunc_low`: the numbers of wider values;
* `Sign.inRange_unsigned`, `Sign.inRange_signed`: the two ranges;
* `Sign.inRange_value`, `Sign.value_ofInt`: values are in range, and integers in range are values;
* `Sign.abs_signed_mul_le`: how large the product of two signed words is;
* `Sign.trunc_ofInt_value`: the bits of a value are those of the word that stands for it;
* `Sign.value_eq_zero_iff`: only the word that is truncated to zero stands for zero.
-/

namespace X86

namespace Width

variable {w : Width} {v : Word}

theorem scalar_cases (h : w.isScalar) : w = .w8 ∨ w = .w16 ∨ w = .w32 ∨ w = .w64 := by
  cases w with
  | w8 | w16 | w32 | w64 => simp
  | w128 | w256 => exact absurd h (by decide)

theorem isScalar_iff : w.isScalar ↔ w.bits ≤ 64 := by
  cases w <;> decide

theorem two_pow_bits (w : Width) : (2 : Nat) ^ w.bits = 2 * 2 ^ (w.bits - 1) := by
  cases w <;> rfl

theorem toNat_mask_succ (w : Width) : w.mask.toNat + 1 = 2 ^ w.scalarBits := by
  cases w <;> rfl

theorem toNat_trunc (w : Width) (v : Word) : (w.trunc v).toNat = v.toNat % 2 ^ w.scalarBits := by
  have h : v.toNat % 2 ^ w.scalarBits < 2 ^ 64 := lt_of_le_of_lt (Nat.mod_le _ _) v.isLt
  simp only [trunc, BitVec.toNat_setWidth]
  exact Nat.mod_eq_of_lt h

theorem toNat_trunc_lt (w : Width) (v : Word) : (w.trunc v).toNat < 2 ^ w.scalarBits := by
  rw [toNat_trunc]
  exact Nat.mod_lt _ (Nat.two_pow_pos _)

theorem trunc_of_lt (h : v.toNat < 2 ^ w.scalarBits) : w.trunc v = v := by
  apply BitVec.eq_of_toNat_eq
  rw [toNat_trunc, Nat.mod_eq_of_lt h]

theorem toNat_trunc_ofInt (w : Width) (n : Int) :
    ((w.trunc (.ofInt 64 n)).toNat : Int) = n % 2 ^ w.scalarBits := by
  have hd : ((2 ^ w.scalarBits : Nat) : Int) ∣ (2 ^ 64 : Nat) :=
    Int.natCast_dvd_natCast.mpr (pow_dvd_pow 2 w.scalarBits_le)
  rw [toNat_trunc, Int.natCast_emod, BitVec.toNat_ofInt,
    Int.toNat_of_nonneg (Int.emod_nonneg n (by positivity)), Int.emod_emod_of_dvd n hd]
  push_cast
  rfl

theorem isNegative_eq (w : Width) (v : Word) :
    w.isNegative v = decide (2 ^ (w.scalarBits - 1) ≤ v.toNat % 2 ^ w.scalarBits) := by
  have h : w.isNegative v = (v.setWidth w.scalarBits).msb := by
    unfold isNegative
    rw [BitVec.msb_setWidth]
    simp [w.scalarBits_pos]
  rw [h, BitVec.msb_eq_decide, BitVec.toNat_setWidth]

theorem signed_eq (w : Width) (v : Word) :
    w.signed v = (w.trunc v).toNat - (if w.isNegative v then 2 ^ w.scalarBits else 0) := by
  rw [signed, BitVec.toInt_eq_msb_cond, isNegative_eq, BitVec.msb_eq_decide, BitVec.toNat_setWidth,
    toNat_trunc]
  split
  · push_cast
    rfl
  · rw [sub_zero]

theorem setWidth_ofInt (w : Width) (n : Int) :
    (BitVec.ofInt 64 n).setWidth w.scalarBits = BitVec.ofInt w.scalarBits n := by
  apply BitVec.eq_of_toNat_eq
  rw [BitVec.toNat_setWidth, ← toNat_trunc, ← Int.natCast_inj, toNat_trunc_ofInt,
    BitVec.toNat_ofInt, Int.toNat_of_nonneg (Int.emod_nonneg n (by positivity))]
  push_cast
  rfl

end Width

theorem Lanes.toNat_trunc (w : Width) (l : Lanes) : (trunc w l).toNat = l.toNat % 2 ^ w.bits := by
  have hlt : l.toNat % 2 ^ w.bits < 2 ^ 256 := lt_of_le_of_lt (Nat.mod_le _ _) l.isLt
  rw [trunc, BitVec.toNat_setWidth, BitVec.toNat_setWidth, Nat.mod_eq_of_lt hlt]

theorem Lanes.toNat_ofWord (v : Word) : (ofWord v).toNat = v.toNat := by
  have hlt : v.toNat < 2 ^ 256 := lt_trans v.isLt (by norm_num)
  rw [ofWord, BitVec.toNat_setWidth, Nat.mod_eq_of_lt hlt]

theorem Lanes.toNat_trunc_low {w : Width} {l : Lanes} (hw : w.isScalar) (h : l.toNat < 2 ^ w.bits) :
    (w.trunc l.low).toNat = l.toNat := by
  have hle : 2 ^ w.bits ≤ 2 ^ 64 := Nat.pow_le_pow_right (by decide) (Width.isScalar_iff.mp hw)
  rw [Width.toNat_trunc, Width.scalarBits_eq_bits hw, low, BitVec.toNat_setWidth,
    Nat.mod_eq_of_lt (h.trans_le hle), Nat.mod_eq_of_lt h]

namespace Sign

variable {w : Width} {n : Int}

theorem inRange_unsigned : unsigned.InRange w n ↔ 0 ≤ n ∧ n < 2 ^ w.scalarBits := by
  have h : ((BitVec.allOnes w.scalarBits).toNat : Int) = 2 ^ w.scalarBits - 1 := by
    rw [BitVec.toNat_allOnes, Nat.cast_sub Nat.one_le_two_pow]
    push_cast
    rfl
  unfold InRange
  rw [h]
  omega

theorem inRange_signed :
    signed.InRange w n ↔ -2 ^ (w.scalarBits - 1) ≤ n ∧ n < 2 ^ (w.scalarBits - 1) := by
  have hmin : (BitVec.intMin w.scalarBits).toInt = -2 ^ (w.scalarBits - 1) := by
    rw [BitVec.toInt_intMin_of_pos w.scalarBits_pos]
  have hmax : (BitVec.intMax w.scalarBits).toInt = 2 ^ (w.scalarBits - 1) - 1 := by
    rw [BitVec.toInt_intMax]
  rw [InRange, hmin, hmax]
  omega

theorem inRange_value (s : Sign) (w : Width) (v : Word) : s.InRange w (s.value w v) := by
  cases s with
  | unsigned =>
    have h := w.toNat_trunc_lt v
    rw [inRange_unsigned, value]
    exact ⟨Int.natCast_nonneg _, by exact_mod_cast h⟩
  | signed =>
    rw [inRange_signed, value, Width.signed]
    exact ⟨BitVec.le_toInt _, BitVec.toInt_lt⟩

theorem abs_signed_mul_le (w : Width) (a b : Word) : |signed.value w a * signed.value w b| ≤
    2 ^ (w.scalarBits - 1) * 2 ^ (w.scalarBits - 1) := by
  have habs (v : Word) : |signed.value w v| ≤ 2 ^ (w.scalarBits - 1) := by
    obtain ⟨hl, hu⟩ := inRange_signed.mp (signed.inRange_value w v)
    exact abs_le.mpr ⟨hl, hu.le⟩
  rw [abs_mul]
  exact mul_le_mul (habs a) (habs b) (abs_nonneg _) (by positivity)

theorem value_trunc (s : Sign) (w : Width) (v : Word) : s.value w (w.trunc v) = s.value w v := by
  cases s with
  | unsigned => rw [value, value, Width.trunc_trunc]
  | signed =>
    have hn : w.isNegative (w.trunc v) = w.isNegative v := by
      rw [Width.isNegative_eq, Width.isNegative_eq, Width.toNat_trunc, Nat.mod_mod]
    rw [value, value, Width.signed_eq, Width.signed_eq, Width.trunc_trunc, hn]

theorem value_ofInt {s : Sign} (h : s.InRange w n) : s.value w (.ofInt 64 n) = n := by
  cases s with
  | unsigned =>
    obtain ⟨h₀, h₁⟩ := inRange_unsigned.mp h
    rw [value, Width.toNat_trunc_ofInt, Int.emod_eq_of_lt h₀ h₁]
  | signed =>
    obtain ⟨h₀, h₁⟩ := inRange_signed.mp h
    rw [value, Width.signed, Width.setWidth_ofInt]
    exact BitVec.toInt_ofInt_eq_self w.scalarBits_pos h₀ h₁

theorem value_trunc_ofInt {s : Sign} (h : s.InRange w n) :
    s.value w (w.trunc (.ofInt 64 n)) = n := by
  rw [value_trunc, value_ofInt h]

theorem trunc_ofInt_value (s : Sign) (w : Width) (v : Word) :
    w.trunc (.ofInt 64 (s.value w v)) = w.trunc v := by
  have hlt : ((w.trunc v).toNat : Int) < 2 ^ w.scalarBits := by exact_mod_cast w.toNat_trunc_lt v
  have hmod : ((w.trunc v).toNat : Int) % 2 ^ w.scalarBits = (w.trunc v).toNat :=
    Int.emod_eq_of_lt (by omega) hlt
  apply BitVec.eq_of_toNat_eq
  rw [← Int.natCast_inj, Width.toNat_trunc_ofInt]
  cases s with
  | unsigned => rw [value, hmod]
  | signed =>
    rw [value, Width.signed_eq]
    split
    · rw [Int.sub_emod_right, hmod]
    · rw [sub_zero, hmod]

/-- **An integer is in range when some word stands for it.** -/
theorem inRange_iff {s : Sign} : s.InRange w n ↔ ∃ v, s.value w v = n :=
  ⟨fun h => ⟨_, value_ofInt h⟩, fun ⟨v, h⟩ => h ▸ s.inRange_value w v⟩

theorem value_eq_zero_iff {s : Sign} {v : Word} : s.value w v = 0 ↔ w.trunc v = 0 := by
  have hz : w.trunc v = 0 ↔ ((w.trunc v).toNat : Int) = 0 := by
    rw [← BitVec.toNat_inj]
    simp
  cases s with
  | unsigned => exact hz.symm
  | signed =>
    have hlt : ((w.trunc v).toNat : Int) < 2 ^ w.scalarBits := by exact_mod_cast w.toNat_trunc_lt v
    rw [value, Width.signed_eq, hz]
    split
    · next hneg =>
      rw [Width.isNegative_eq, decide_eq_true_eq, ← Width.toNat_trunc] at hneg
      have hpos := Nat.two_pow_pos (w.scalarBits - 1)
      omega
    · rw [sub_zero]

end Sign

end X86
