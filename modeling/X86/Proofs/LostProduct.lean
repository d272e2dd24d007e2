import X86.Proofs.Product

/-!
# When a part of a product is lost

Two tests tell whether the low half of a product stands for it. One extends the low half and
compares it with the product. The other one looks at the high half, which has to be zero without
signs, and has to repeat the sign of the low half otherwise. Both tell whether the product is in
range.

* `Product.productLost_eq_false_iff`: the first test, for any integer at any width;
* `Product.inRange_toInt_iff`: products that are read as signed numbers of 128 bits;
* `Product.halves`: the high and the low half together;
* `Product.signFill`, `Product.high_ne_signFill_iff`: the second test, for products of signed words;
* **`Product.lost_exact`**: the tests agree on every product of two words.
-/

namespace X86

namespace Product

variable {s : Sign} {w : Width} {n : Int}

/-! ## The test that extends the low half -/

theorem productLost_eq_false_iff : productLost s w n = false ↔
    match s with
    | .unsigned => 0 ≤ n ∧ n < 2 ^ min w.bits 64
    | .signed => -2 ^ (min w.bits 64 - 1) ≤ n ∧ n < 2 ^ (min w.bits 64 - 1) := by
  rw [Bool.eq_false_iff, ne_eq, productLost_iff, not_not]
  cases s with
  | unsigned => exact Sign.inRange_unsigned
  | signed => exact Sign.inRange_signed

theorem inRange_toInt_iff (hn : 0 ≤ n) (hlt : n < 2 ^ 128) :
    Sign.unsigned.InRange w (BitVec.ofInt 128 n).toInt ↔ Sign.unsigned.InRange w n := by
  have hpow : (2 : Int) ^ w.scalarBits ≤ 2 ^ 64 :=
    pow_le_pow_right₀ (by norm_num) w.scalarBits_le
  rw [Sign.inRange_unsigned, Sign.inRange_unsigned, BitVec.toInt_ofInt, Int.bmod_def]
  -- From `2 ^ 127` on the signed number is negative, and the product is out of range as well.
  omega

/-! ## The halves of a product -/

theorem toNat_low (hw : w.isScalar) :
    ((ofInt s w n).low.toNat : Int) = n % 2 ^ w.bits := by
  rw [ofInt, Width.toNat_trunc_ofInt, Width.scalarBits_eq_bits hw]

theorem toNat_high_emod (hw : w.isScalar) :
    ((ofInt s w n).high.toNat : Int) = n / 2 ^ w.bits % 2 ^ w.bits := by
  rw [ofInt, Width.toNat_trunc_ofInt, Width.scalarBits_eq_bits hw]

theorem halves (hw : w.isScalar) :
    ((ofInt s w n).high.toNat : Int) * 2 ^ w.bits + (ofInt s w n).low.toNat =
      n % 2 ^ (2 * w.bits) := by
  obtain ⟨hlow, hhigh⟩ := emod_double n w
  rw [toNat_high_emod hw, toNat_low hw, ← hlow, ← hhigh, Int.ediv_mul_add_emod]

/-! ## The test that looks at the high half -/

/-- What the high half of a signed number is if the low half is all of it. -/
def signFill (w : Width) (low : Word) : Word :=
  if w.isNegative low then w.mask else 0

/-- **A product of signed words is lost** if the high half does not repeat the sign of the low
half. -/
theorem high_ne_signFill_iff (hw : w.isScalar) (a b : Word) :
    let q := ofInt .signed w (Sign.signed.value w a * Sign.signed.value w b)
    q.high ≠ signFill w q.low ↔
      ¬ Sign.signed.InRange w (Sign.signed.value w a * Sign.signed.value w b) := by
  intro q
  have hlow : (q.low.toNat : Int) = _ := toNat_low hw
  have hhigh : (q.high.toNat : Int) = _ := toNat_high_emod hw
  have hlt : q.low.toNat < 2 ^ w.bits := Width.scalarBits_eq_bits hw ▸ w.toNat_trunc_lt _
  have hn := abs_le.mp (Sign.abs_signed_mul_le w a b)
  rw [Width.scalarBits_eq_bits hw] at hn
  have hfill : ((signFill w q.low).toNat : Int) =
      if 2 ^ (w.bits - 1) ≤ q.low.toNat then 2 ^ w.bits - 1 else 0 := by
    have hmask := w.toNat_mask_succ
    rw [Width.scalarBits_eq_bits hw] at hmask
    rw [signFill, Terms.isNegative_of_lt hw hlt]
    simp only [decide_eq_true_eq]
    split
    · exact eq_sub_of_add_eq (by exact_mod_cast hmask)
    · rfl
  rw [ne_eq, not_iff_not, ← BitVec.toNat_inj, ← Int.natCast_inj, hhigh, hfill,
    Sign.inRange_signed, Width.scalarBits_eq_bits hw]
  -- The quotient is so small that its low bits are those of 0 and of -1 nowhere else.
  generalize Sign.signed.value w a * Sign.signed.value w b = n at hlow hn ⊢
  by_cases hneg : 2 ^ (w.bits - 1) ≤ q.low.toNat
  · rw [if_pos hneg]
    rcases Width.scalar_cases hw with rfl | rfl | rfl | rfl
    all_goals
      simp only [Width.bits] at hlow hn hneg ⊢
      omega
  · rw [if_neg hneg]
    rcases Width.scalar_cases hw with rfl | rfl | rfl | rfl
    all_goals
      simp only [Width.bits] at hlow hn hneg ⊢
      omega

/-- **Lost products are told exactly.** An integer survives truncation at a width exactly if the
bits that count can stand for it. The product of two words without signs survives exactly if its
high half is zero, and this is the same when the product is read as a signed number of 128 bits. The
product of two signed words survives exactly if its high half repeats the sign of the low half. The
two halves together are the low bits of the product. -/
theorem lost_exact :
    (∀ (s : Sign) (w : Width) (p : Int), productLost s w p = false ↔
      let k := min w.bits 64
      match s with
      | .unsigned => 0 ≤ p ∧ p < 2 ^ k
      | .signed => -2 ^ (k - 1) ≤ p ∧ p < 2 ^ (k - 1)) ∧
    ∀ (s : Sign) (w : Width) (a b : Word), w.isScalar → ∃ q, ofFactors s w a b = .ok q ∧
      let n := s.value w a * s.value w b
      (match s with
        | .unsigned => q.lost = (q.high != 0) ∧
          q.lost = productLost .unsigned w (BitVec.ofInt 128 n).toInt
        | .signed => q.lost = (q.high != signFill w q.low) ∧ q.lost = productLost .signed w n) ∧
      (q.high.toNat : Int) * 2 ^ w.bits + q.low.toNat = n % 2 ^ (2 * w.bits) := by
  refine ⟨fun s w p => productLost_eq_false_iff, fun s w a b hw => ?_⟩
  refine ⟨_, ofFactors_eq s hw a b, ?_, halves hw⟩
  cases s with
  | unsigned =>
    obtain ⟨hn, -⟩ := toNat_high hw a b
    have hlt := (Checked.isWide_unsigned.mp (Checked.isWide_mul .unsigned w a b)).2
    constructor
    · rw [Bool.eq_iff_iff]
      exact decide_eq_true_iff.trans (bne_iff_ne.trans (high_ne_zero_iff hw a b)).symm
    · rw [Bool.eq_iff_iff, productLost_iff, inRange_toInt_iff hn hlt]
      exact decide_eq_true_iff
  | signed =>
    constructor
    · rw [Bool.eq_iff_iff]
      exact decide_eq_true_iff.trans (bne_iff_ne.trans (high_ne_signFill_iff hw a b)).symm
    · rw [Bool.eq_iff_iff, productLost_iff]
      exact decide_eq_true_iff

/-- The greatest product of two quadwords exceeds the signed numbers of 128 bits. -/
theorem lost_exact_greatest : ∃ q, ofFactors .unsigned .w64 (.allOnes 64) (.allOnes 64) = .ok q ∧
    q.lost = (q.high != 0) ∧ (q.high.toNat : Int) * 2 ^ 64 + q.low.toNat = (2 ^ 64 - 1) ^ 2 := by
  obtain ⟨q, hq, ⟨hlost, -⟩, hhalves⟩ :=
    lost_exact.2 .unsigned .w64 (.allOnes 64) (.allOnes 64) rfl
  exact ⟨q, hq, hlost, hhalves.trans (by decide)⟩

end Product

end X86
