import Mathlib
import X86.Flag.Update
import X86.Proofs.Carry

/-!
# Sums and differences of words

A sum or a difference of two words and a carry, as the instructions form it, is the low part of
the exact integer. The rules for the flags, which look at single bits and at comparisons of words,
tell where the exact integer lies.

* `Terms`, `Terms.exact`: what is joined, and the exact integer, unsigned or signed;
* `Terms.result`, `Terms.flag`: the result and the flags that belong to the exact integer;
* `Terms.word`: the result as instructions form it, with `Terms.toNat_word`;
* `Terms.sign_ne_overflow_iff`: how the sign of the exact integer shows;
* **`Terms.carryChain_eq`**, **`Terms.overflow_eq`**, **`Terms.auxCarry_eq`**: the rules for the
  carry, overflow and auxiliary carry flags agree with the exact integer.
-/

namespace X86

/-- What a sum or a difference joins. The carry is a term of a sum, and is subtracted like the
second word from the first one in a difference. -/
structure Terms where
  subtract : Bool
  lhs : Word
  rhs : Word
  carry : Bool := false

namespace Terms

/-! ## The exact integer -/

/-- The sum or the difference of the integers that the low bits of the words stand for. -/
def exact (x : Terms) (s : Sign) (w : Width) : Int :=
  if x.subtract then s.value w x.lhs - s.value w x.rhs - x.carry.toNat
  else s.value w x.lhs + s.value w x.rhs + x.carry.toNat

/-- The low bits of the exact integer. -/
def result (x : Terms) (w : Width) : Word :=
  .ofInt 64 (x.exact .unsigned w % 2 ^ w.bits)

/-- The flags of the exact integer. -/
def flag (x : Terms) (w : Width) : FlagName → Bool
  | .cf => ¬ (0 ≤ x.exact .unsigned w ∧ x.exact .unsigned w < 2 ^ w.bits)
  | .pf => (List.range 8).countP ((x.result w).getLsbD ·) % 2 = 0
  | .af =>
    if x.subtract then x.lhs.toNat % 16 < x.rhs.toNat % 16 + x.carry.toNat
    else 16 ≤ x.lhs.toNat % 16 + x.rhs.toNat % 16 + x.carry.toNat
  | .zf => x.exact .unsigned w % 2 ^ w.bits = 0
  | .sf => (x.result w).getLsbD (w.bits - 1)
  | .of => ¬ (-2 ^ (w.bits - 1) ≤ x.exact .signed w ∧ x.exact .signed w < 2 ^ (w.bits - 1))

/-! ## The result -/

/-- The rule for the terms. -/
def rule (x : Terms) : Rule :=
  if x.subtract then .sub else .add

/-- The carry as a word. -/
def carryWord (x : Terms) : Word :=
  if x.carry then 1 else 0

/-- The result as an instruction forms it: first the two words are joined, then the carry. -/
def word (x : Terms) (w : Width) : Word :=
  x.rule.apply w (x.rule.apply w x.lhs x.rhs) x.carryWord

/-- Both words have nothing above the bits that count. -/
structure Fits (x : Terms) (w : Width) : Prop where
  lhs : x.lhs.toNat < 2 ^ w.bits
  rhs : x.rhs.toNat < 2 ^ w.bits

variable {x : Terms} {w : Width}

theorem toNat_carryWord : x.carryWord.toNat = x.carry.toNat := by
  unfold carryWord
  cases x.carry <;> rfl

theorem toNat_trunc_carryWord : (w.trunc x.carryWord).toNat = x.carry.toNat := by
  have hone : 1 < 2 ^ w.scalarBits := Nat.one_lt_two_pow w.scalarBits_pos.ne'
  have hc := Bool.toNat_le x.carry
  rw [Width.trunc_of_lt (by rw [toNat_carryWord]; omega), toNat_carryWord]

theorem exact_unsigned (hw : w.isScalar) (hx : x.Fits w) :
    x.exact .unsigned w = if x.subtract then (x.lhs.toNat : Int) - x.rhs.toNat - x.carry.toNat
      else (x.lhs.toNat : Int) + x.rhs.toNat + x.carry.toNat := by
  have hb := Width.scalarBits_eq_bits hw
  rw [exact, Sign.value, Sign.value, Width.trunc_of_lt (hb ▸ hx.lhs),
    Width.trunc_of_lt (hb ▸ hx.rhs)]

/-- **The result is the low part of the exact integer.** -/
theorem toNat_word (hw : w.isScalar) (hx : x.Fits w) :
    ((x.word w).toNat : Int) = x.exact .unsigned w % 2 ^ w.bits := by
  have hb := Width.scalarBits_eq_bits hw
  have hl := x.lhs.isLt
  have hr := x.rhs.isLt
  have hc := Bool.toNat_le x.carry
  rw [exact_unsigned hw hx]
  cases hs : x.subtract with
  | false =>
    simp only [word, rule, hs, Bool.false_eq_true, if_false, Rule.apply, Width.toNat_trunc,
      BitVec.toNat_add, toNat_carryWord, hb]
    rcases Width.scalar_cases hw with rfl | rfl | rfl | rfl
    all_goals
      simp only [Width.bits]
      omega
  | true =>
    simp only [word, rule, hs, if_true, Rule.apply, Width.toNat_trunc, BitVec.toNat_sub,
      toNat_carryWord, hb]
    rcases Width.scalar_cases hw with rfl | rfl | rfl | rfl
    all_goals
      simp only [Width.bits]
      omega

theorem toNat_word_lt (hw : w.isScalar) (hx : x.Fits w) : (x.word w).toNat < 2 ^ w.bits := by
  have h := toNat_word hw hx
  have hlt := Int.emod_lt_of_pos (x.exact .unsigned w) (show (0 : Int) < 2 ^ w.bits by positivity)
  rw [← h] at hlt
  exact_mod_cast hlt

theorem word_eq_result (hw : w.isScalar) (hx : x.Fits w) : x.word w = x.result w := by
  apply BitVec.eq_of_toInt_eq
  unfold result
  rw [← toNat_word hw hx, BitVec.toInt_ofInt, BitVec.toInt_eq_toNat_bmod]

theorem exact_cases (hw : w.isScalar) (hx : x.Fits w) :
    x.exact .unsigned w = (x.word w).toNat ∨
      x.exact .unsigned w = (x.word w).toNat + 2 ^ w.bits ∨
      x.exact .unsigned w = (x.word w).toNat - 2 ^ w.bits := by
  have hl := hx.lhs
  have hr := hx.rhs
  have hc := Bool.toNat_le x.carry
  have h := toNat_word hw hx
  rw [exact_unsigned hw hx] at h ⊢
  cases hs : x.subtract with
  | false | true =>
    simp only [hs, Bool.false_eq_true, if_false, if_true] at h ⊢
    rcases Width.scalar_cases hw with rfl | rfl | rfl | rfl
    all_goals
      simp only [Width.bits] at hl hr h ⊢
      omega

/-! ## The range flags -/

/-- **The carry that is formed in two stages** tells that the exact integer is out of range. -/
theorem carryChain_eq (hw : w.isScalar) (hx : x.Fits w) :
    x.rule.carryChain w x.lhs x.rhs x.carryWord = x.flag w .cf := by
  have hb := Width.scalarBits_eq_bits hw
  have hl := Width.trunc_of_lt (hb ▸ hx.lhs)
  have hr := Width.trunc_of_lt (hb ▸ hx.rhs)
  have hlt := hx.lhs
  have hN : ((2 ^ w.bits : Nat) : Int) = 2 ^ w.bits := by push_cast; rfl
  rw [Bool.eq_iff_iff, flag, decide_eq_true_eq, exact_unsigned hw hx]
  cases hs : x.subtract with
  | false =>
    simp only [rule, hs, Bool.false_eq_true, if_false]
    rw [Rule.carryChain_add_iff, hl, hr, toNat_trunc_carryWord, hb]
    omega
  | true =>
    simp only [rule, hs, if_true]
    rw [Rule.carryChain_sub_iff, hl, hr, toNat_trunc_carryWord]
    omega

theorem isNegative_and (w : Width) (u v : Word) :
    w.isNegative (u &&& v) = (w.isNegative u && w.isNegative v) :=
  BitVec.getLsbD_and

theorem isNegative_xor (w : Width) (u v : Word) :
    w.isNegative (u ^^^ v) = (w.isNegative u ^^ w.isNegative v) :=
  BitVec.getLsbD_xor

theorem isNegative_of_lt {v : Word} (hw : w.isScalar) (hv : v.toNat < 2 ^ w.bits) :
    w.isNegative v = decide (2 ^ (w.bits - 1) ≤ v.toNat) := by
  rw [Width.isNegative_eq, Width.scalarBits_eq_bits hw, Nat.mod_eq_of_lt hv]

theorem signed_of_lt {v : Word} (hw : w.isScalar) (hv : v.toNat < 2 ^ w.bits) :
    Sign.signed.value w v = v.toNat - (if 2 ^ (w.bits - 1) ≤ v.toNat then 2 ^ w.bits else 0) := by
  have hb := Width.scalarBits_eq_bits hw
  rw [Sign.value, Width.signed_eq, Width.trunc_of_lt (hb ▸ hv), isNegative_of_lt hw hv, hb]
  simp only [decide_eq_true_eq]

/-- **The rule that compares signs** tells that the exact signed integer is out of range: a sum
leaves the range when both words have the other sign than the result, and a difference when the
first word has another sign than the second one and than the result. -/
theorem overflow_eq (hw : w.isScalar) (hx : x.Fits w) :
    x.rule.overflow w x.lhs x.rhs (x.word w) = x.flag w .of := by
  have hl := hx.lhs
  have hr := hx.rhs
  have hlt := toNat_word_lt hw hx
  have hc := Bool.toNat_le x.carry
  have hcases := exact_cases hw hx
  have hpow := w.two_pow_bits
  have hN : ((2 ^ w.bits : Nat) : Int) = 2 ^ w.bits := by push_cast; rfl
  have hH : ((2 ^ (w.bits - 1) : Nat) : Int) = 2 ^ (w.bits - 1) := by push_cast; rfl
  have hsum : ∀ p q r : Bool, ((p ^^ r) && (q ^^ r)) = true ↔ p = q ∧ p ≠ r := by decide
  have hdiff : ∀ p q r : Bool, ((p ^^ q) && (p ^^ r)) = true ↔ p ≠ q ∧ p ≠ r := by decide
  -- The exact integer and the result differ by the power or not at all, so three signs tell which.
  rw [exact_unsigned hw hx] at hcases
  rw [Bool.eq_iff_iff, flag, decide_eq_true_eq, exact, signed_of_lt hw hl, signed_of_lt hw hr]
  cases hs : x.subtract with
  | false =>
    simp only [rule, hs, Bool.false_eq_true, if_false] at hcases ⊢
    rw [Rule.overflow, isNegative_and, isNegative_xor, isNegative_xor, hsum,
      isNegative_of_lt hw hl, isNegative_of_lt hw hr, isNegative_of_lt hw hlt]
    simp only [ne_eq, decide_eq_decide]
    split <;> split <;> omega
  | true =>
    simp only [rule, hs, if_true] at hcases ⊢
    rw [Rule.overflow, isNegative_and, isNegative_xor, isNegative_xor, hdiff,
      isNegative_of_lt hw hl, isNegative_of_lt hw hr, isNegative_of_lt hw hlt]
    simp only [ne_eq, decide_eq_decide]
    split <;> split <;> omega

theorem isNegative_word (hw : w.isScalar) (hx : x.Fits w) :
    w.isNegative (x.word w) = x.flag w .sf := by
  unfold Width.isNegative
  rw [word_eq_result hw hx, Width.scalarBits_eq_bits hw]
  rfl

/-- **The sign and overflow flags differ** when the exact signed integer is negative. -/
theorem sign_ne_overflow_iff (hw : w.isScalar) (hx : x.Fits w) :
    x.flag w .sf ≠ x.flag w .of ↔ x.exact .signed w < 0 := by
  have hl := hx.lhs
  have hr := hx.rhs
  have hlt := toNat_word_lt hw hx
  have hc := Bool.toNat_le x.carry
  have hcases := exact_cases hw hx
  have hpow := w.two_pow_bits
  have hN : ((2 ^ w.bits : Nat) : Int) = 2 ^ w.bits := by push_cast; rfl
  have hH : ((2 ^ (w.bits - 1) : Nat) : Int) = 2 ^ (w.bits - 1) := by push_cast; rfl
  rw [exact_unsigned hw hx] at hcases
  rw [← isNegative_word hw hx, isNegative_of_lt hw hlt, flag, exact, signed_of_lt hw hl,
    signed_of_lt hw hr, ne_eq, decide_eq_decide]
  cases hsub : x.subtract with
  | false =>
    simp only [hsub, Bool.false_eq_true, if_false] at hcases ⊢
    split <;> split <;> omega
  | true =>
    simp only [hsub, if_true] at hcases ⊢
    split <;> split <;> omega

/-! ## The auxiliary carry flag -/

theorem getLsbD_xor_xor (u v r : Word) (i : Nat) : (u ^^^ v ^^^ r).getLsbD i =
    decide ((u.toNat / 2 ^ i + v.toNat / 2 ^ i + r.toNat / 2 ^ i) % 2 = 1) := by
  have hxor : ∀ p q r : Bool, (p ^^ q ^^ r) = decide ((p.toNat + q.toNat + r.toNat) % 2 = 1) := by
    decide
  have hbit : ∀ v : Word, (v.getLsbD i).toNat = v.toNat / 2 ^ i % 2 :=
    fun v => Nat.toNat_testBit _ _
  rw [BitVec.getLsbD_xor, BitVec.getLsbD_xor, hxor, hbit, hbit, hbit, decide_eq_decide]
  omega

/-- **Where the result differs from both words in bit 4**, a carry or a borrow has come from the
four bits below. -/
theorem auxCarry_eq (hw : w.isScalar) (hx : x.Fits w) :
    auxCarry x.lhs x.rhs (x.word w) = x.flag w .af := by
  have hcases := exact_cases hw hx
  have hc := Bool.toNat_le x.carry
  rw [exact_unsigned hw hx] at hcases
  unfold auxCarry flag
  rw [getLsbD_xor_xor]
  cases hs : x.subtract with
  | false =>
    simp only [hs, Bool.false_eq_true, if_false] at hcases ⊢
    rw [decide_eq_decide]
    rcases Width.scalar_cases hw with rfl | rfl | rfl | rfl
    all_goals
      simp only [Width.bits] at hcases
      omega
  | true =>
    simp only [hs, if_true] at hcases ⊢
    rw [decide_eq_decide]
    rcases Width.scalar_cases hw with rfl | rfl | rfl | rfl
    all_goals
      simp only [Width.bits] at hcases
      omega

/-! ## All flags -/

theorem isZero_eq (hw : w.isScalar) (hx : x.Fits w) : isZero w (x.word w) = x.flag w .zf := by
  have hlt := Width.scalarBits_eq_bits hw ▸ toNat_word_lt hw hx
  have hz : x.word w = 0 ↔ ((x.word w).toNat : Int) = 0 := by
    rw [← BitVec.toNat_inj]
    simp
  unfold isZero flag
  rw [Width.trunc_of_lt hlt, ← toNat_word hw hx, Bool.eq_iff_iff, beq_iff_eq,
    decide_eq_true_eq, hz]

/-- **All flags but the carry flag** are those of the exact integer. -/
theorem step_eq (hw : w.isScalar) (hx : x.Fits w) :
    FlagUpdate.step x.rule w x.lhs x.rhs (x.word w) =
      (FlagName.all.erase .cf).map fun n => (n, .ofBool (x.flag w n)) := by
  have hp : evenParity (x.word w) = x.flag w .pf := by
    unfold evenParity
    rw [word_eq_result hw hx]
    rfl
  unfold FlagUpdate.step
  rw [hp, auxCarry_eq hw hx, isZero_eq hw hx, isNegative_word hw hx, overflow_eq hw hx]
  rfl

/-- **All flags** are those of the exact integer. -/
theorem arith_eq (hw : w.isScalar) (hx : x.Fits w) :
    FlagUpdate.arith (x.rule.carryChain w x.lhs x.rhs x.carryWord) x.rule w x.lhs x.rhs (x.word w) =
      FlagName.all.map fun n => (n, .ofBool (x.flag w n)) := by
  unfold FlagUpdate.arith
  rw [carryChain_eq hw hx, step_eq hw hx]
  rfl

/-! ## Sums and differences without a carry -/

theorem word_of_carry (hc : x.carry = false) : x.word w = x.rule.apply w x.lhs x.rhs := by
  unfold word carryWord rule
  rw [hc]
  cases x.subtract with
  | false => exact (congrArg w.trunc (BitVec.add_zero _)).trans (Width.trunc_trunc _ _)
  | true => exact (congrArg w.trunc (BitVec.sub_zero _)).trans (Width.trunc_trunc _ _)

theorem carryChain_of_carry (hc : x.carry = false) :
    x.rule.carryChain w x.lhs x.rhs x.carryWord =
      x.rule.carry w x.lhs x.rhs (x.rule.apply w x.lhs x.rhs) := by
  have hzero : w.trunc x.carryWord = 0 := by
    apply BitVec.eq_of_toNat_eq
    rw [toNat_trunc_carryWord, hc]
    rfl
  exact Rule.carryChain_of_trunc hzero x.rule

end Terms

end X86
