import X86.Flag.Rule
import X86.Proofs.Width

/-!
# Carries of two and of three words

The sum of two words wraps around at most once, and it did so exactly if it is less than one of the
words. Three words are joined in two stages, each of which can wrap around, and the carry of the
chain arises in one of the stages or in both.

* `Width.toNat_trunc_add`, `Width.toNat_trunc_sub`: sums and differences, with at most one wrap;
* `Rule.carry_add_iff`, `Rule.carry_sub_iff`: the carry of one stage;
* `Rule.carryChain_add_iff`, `Rule.carryChain_sub_iff`: the carry of both stages;
* `Rule.carryChain_of_trunc`: a third word without bits that count;
* **`Rule.chain_exact`**: the chain on any three words, at any width.
-/

namespace X86

namespace Width

theorem toNat_trunc_add (w : Width) (u v : Word) : (w.trunc (u + v)).toNat =
    if 2 ^ w.scalarBits ≤ (w.trunc u).toNat + (w.trunc v).toNat then
      (w.trunc u).toNat + (w.trunc v).toNat - 2 ^ w.scalarBits
    else (w.trunc u).toNat + (w.trunc v).toNat := by
  have hdvd : 2 ^ w.scalarBits ∣ 2 ^ 64 := pow_dvd_pow 2 w.scalarBits_le
  rw [toNat_trunc, toNat_trunc, toNat_trunc, BitVec.toNat_add, Nat.mod_mod_of_dvd _ hdvd,
    Nat.add_mod_eq_ite]

theorem toNat_trunc_sub (w : Width) (u v : Word) : (w.trunc (u - v)).toNat =
    if (w.trunc u).toNat < (w.trunc v).toNat then
      (w.trunc u).toNat + 2 ^ w.scalarBits - (w.trunc v).toNat
    else (w.trunc u).toNat - (w.trunc v).toNat := by
  -- The difference is what gives the first word back when the second one is added.
  have hsum := w.toNat_trunc_add (u - v) v
  rw [BitVec.sub_add_cancel] at hsum
  have hd := w.toNat_trunc_lt (u - v)
  have hv := w.toNat_trunc_lt v
  split at hsum <;> split <;> omega

end Width

namespace Rule

variable {w : Width} {a b c res : Word}

/-! ## One stage -/

theorem carry_add_iff : add.carry w a b (add.apply w a b) ↔
    2 ^ w.scalarBits ≤ (w.trunc a).toNat + (w.trunc b).toNat := by
  have ha := w.toNat_trunc_lt a
  have hb := w.toNat_trunc_lt b
  rw [carry, apply, decide_eq_true_eq, BitVec.lt_def, Width.trunc_trunc, Width.toNat_trunc_add]
  · split <;> omega
  · nofun

theorem carry_sub_iff : sub.carry w a b res ↔ (w.trunc a).toNat < (w.trunc b).toNat := by
  rw [carry, decide_eq_true_eq, BitVec.lt_def]

/-! ## Both stages -/

/-- **The chain carries** when the sum of all three words is out of range, be it by one wrap or by
two. -/
theorem carryChain_add_iff : add.carryChain w a b c ↔
    2 ^ w.scalarBits ≤ (w.trunc a).toNat + (w.trunc b).toNat + (w.trunc c).toNat := by
  have hab : w.trunc (add.apply w a b) = w.trunc (a + b) := w.trunc_trunc (a + b)
  rw [carryChain, Bool.or_eq_true, carry_add_iff, carry_add_iff, hab, Width.toNat_trunc_add]
  split <;> omega

/-- **The chain borrows** when the second and the third word together exceed the first one. -/
theorem carryChain_sub_iff : sub.carryChain w a b c ↔
    (w.trunc a).toNat < (w.trunc b).toNat + (w.trunc c).toNat := by
  have hb := w.toNat_trunc_lt b
  have hab : w.trunc (sub.apply w a b) = w.trunc (a - b) := w.trunc_trunc (a - b)
  rw [carryChain, Bool.or_eq_true, carry_sub_iff, carry_sub_iff, hab, Width.toNat_trunc_sub]
  split <;> omega

theorem carryChain_of_trunc (h : w.trunc c = 0) (r : Rule) :
    r.carryChain w a b c = r.carry w a b (r.apply w a b) := by
  have hc : (w.trunc c).toNat = 0 := congrArg BitVec.toNat h
  cases r with
  | add => rw [Bool.eq_iff_iff, carryChain_add_iff, carry_add_iff, hc, Nat.add_zero]
  | sub => rw [Bool.eq_iff_iff, carryChain_sub_iff, carry_sub_iff, hc, Nat.add_zero]
  | mul | logical => rfl

/-- **The carry of three words is exact**, at every width, for words with any bits and for a third
one that is not just a carry. A sum carries when the numbers that the low bits of the words form
reach the number of words at the width. A difference borrows when the second and the third number
together exceed the first one. Products and bitwise operations do not carry. If the third number is
zero, the chain is the carry of its first stage. -/
theorem chain_exact (w : Width) (a b c : Word) :
    let M := w.mask.toNat + 1
    let a' := a.toNat % M
    let b' := b.toNat % M
    let c' := c.toNat % M
    M = 2 ^ min w.bits 64 ∧
      (add.carryChain w a b c ↔ M ≤ a' + b' + c') ∧
      (sub.carryChain w a b c ↔ a' < b' + c') ∧
      mul.carryChain w a b c = false ∧ logical.carryChain w a b c = false ∧
      (c' = 0 → ∀ r : Rule, r.carryChain w a b c = r.carry w a b (r.apply w a b)) := by
  intro M a' b' c'
  have hM : M = 2 ^ w.scalarBits := w.toNat_mask_succ
  have hmod (v : Word) : v.toNat % M = (w.trunc v).toNat := by rw [hM, Width.toNat_trunc]
  refine ⟨hM, ?_, ?_, rfl, rfl, fun hc r => ?_⟩
  · rw [carryChain_add_iff, ← hM, ← hmod, ← hmod, ← hmod]
  · rw [carryChain_sub_iff, ← hmod, ← hmod, ← hmod]
  · exact carryChain_of_trunc (BitVec.eq_of_toNat_eq ((hmod c).symm.trans hc)) r

/-- Of the third word only the low byte counts, which is zero here: `5 - 6` borrows at once. -/
theorem chain_exact_low_byte :
    (0x100 : Word).toNat % (Width.w8.mask.toNat + 1) = 0 ∧
      sub.carryChain .w8 0x205 0x306 0x100 = sub.carry .w8 0x205 0x306 0xff :=
  ⟨rfl, (chain_exact .w8 0x205 0x306 0x100).2.2.2.2.2 rfl sub⟩

/-- The sum of three bytes can wrap around in both stages. -/
example :
    let ab := add.apply .w8 0xff 0xff
    add.carry .w8 0xff 0xff ab = true ∧ add.carry .w8 ab 0xff (add.apply .w8 ab 0xff) = true := by
  decide

end Rule

end X86
