import X86.Proofs.Readiness
import X86.Proofs.Selection

/-!
# Shifts

SHL multiplies by a power of two and keeps the low bits. SHR and SAR divide by one and round down,
SHR as a number without sign. This holds for every count, also for those that push all bits out,
though only the bits within the width have a defined carry.

* `Shift`, `Table.shifts_iff`: the three shifts, and the entries that are meant;
* `Shift.steps`, `Shift.value`, `Shift.flag`: the count that an operand asks for, the integer that
  a shift leaves, and its flags;
* `Shift.result_result`, `Shift.getLsbD_result`: shifts in two steps, and the bits that remain;
* `Shifted.left_eq`, `Shifted.right_eq`: what the instructions form;
* `Shift.actions`, `Machine.transact_shift`: what they do;
* **`Machine.shift_exact`**: the effects of a shift.
-/

namespace X86

/-- A shift to the left, or to the right with zeros or copies of the sign filled in. -/
inductive Shift where
  | left
  | right (s : Sign)
  deriving DecidableEq

namespace Shift

def mnemonic : Shift → String
  | left => "SHL"
  | right .unsigned => "SHR"
  | right .signed => "SAR"

/-- The number of steps that an operand asks for. -/
def steps (w : Width) (count : Word) : Nat :=
  count.toNat % if w = .w64 then 64 else 32

/-- The integer that a shift of a word leaves. -/
def value : Shift → Width → Word → Nat → Int
  | left, w, v, n => v.toNat * 2 ^ n % 2 ^ w.bits
  | right .unsigned, _, v, n => v.toNat / 2 ^ n
  | right .signed, w, v, n => w.signed v / 2 ^ n % 2 ^ w.bits

/-- The word that a shift leaves. -/
def result (k : Shift) (w : Width) (v : Word) (n : Nat) : Word :=
  .ofInt 64 (k.value w v n)

/-- The position of the bit that is pushed out last. -/
def lastBit : Shift → Width → Nat → Nat
  | left, w, n => w.bits - n
  | right _, _, n => n - 1

/-- The flags of a shift. The carry flag is the bit that is pushed out last. The overflow flag is
defined for single steps, and tells for SHL and SHR whether the sign changes. -/
def flag (k : Shift) (w : Width) (v : Word) (n : Nat) : FlagName → Flag
  | .cf => if n < w.bits then .ofBool (v.getLsbD (k.lastBit w n)) else .undefined
  | .pf => .ofBool ((List.range 8).countP ((k.result w v n).getLsbD ·) % 2 = 0)
  | .af => .undefined
  | .zf => .ofBool (k.value w v n = 0)
  | .sf => .ofBool ((k.result w v n).getLsbD (w.bits - 1))
  | .of =>
    if n = 1 then
      match k with
      | left => .ofBool (v.getLsbD (w.bits - 1) ^^ (left.result w v 1).getLsbD (w.bits - 1))
      | right .unsigned => .ofBool (v.getLsbD (w.bits - 1))
      | right .signed => .clear
    else .undefined

end Shift

/-! ## The entries -/

/-- Whether an entry performs a shift. -/
def Entry.Shifts (e : Entry) : Shift → Prop
  | .left => e.op = .shl
  | .right s => e.op = .shr ∧ e.sign = s

theorem Entry.Shifts.packs {e : Entry} {k : Shift} (h : e.Shifts k) : e.op.packs = false := by
  cases k with
  | left => rw [show e.op = .shl from h]; rfl
  | right s => rw [h.1]; rfl

theorem Op.shift_iff {op : Op} {s : Sign} {mn : String} (h : mn ∈ op.mnemonics s) :
    (op = .shl ↔ mn = "SHL") ∧ (op = .shr ∧ s = .unsigned ↔ mn = "SHR") ∧
      (op = .shr ∧ s = .signed ↔ mn = "SAR") := by
  have key : ∀ mn ∈ op.mnemonics s, (op = .shl ↔ mn = "SHL") ∧
      (op = .shr ∧ s = .unsigned ↔ mn = "SHR") ∧ (op = .shr ∧ s = .signed ↔ mn = "SAR") := by
    cases op <;> cases s <;> decide
  exact key mn h

/-- **The entries that shift** are those for SHL, SHR and SAR. -/
theorem Table.shifts_iff {t : Table} {o : Options} {name : String} {e : Entry}
    (h : Table.build Rows.all o = .ok t) (hg : t.get? name = some e) (k : Shift) :
    e.Shifts k ↔ e.key.mnemonic = k.mnemonic := by
  obtain ⟨hl, hr, hs⟩ := Op.shift_iff (mnemonic_of_build h hg).1
  match k with
  | .left => exact hl
  | .right .unsigned => exact hr
  | .right .signed => exact hs

/-! ## The words that shifts leave -/

namespace Width

variable {w : Width} {v : Word} {n : Nat}

theorem one_lt_bits (w : Width) : 1 < w.bits := by
  cases w <;> decide

theorem toNat_trunc_shiftLeft (w : Width) (v : Word) (n : Nat) :
    (w.trunc (v <<< n)).toNat = v.toNat * 2 ^ n % 2 ^ w.scalarBits := by
  rw [toNat_trunc, BitVec.toNat_shiftLeft, Nat.shiftLeft_eq,
    Nat.mod_mod_of_dvd _ (pow_dvd_pow 2 w.scalarBits_le)]

theorem toNat_trunc_of_toInt (w : Width) (v : Word) :
    ((w.trunc v).toNat : Int) = v.toInt % 2 ^ w.scalarBits := by
  rw [← toNat_trunc_ofInt, BitVec.ofInt_toInt]

theorem toInt_ofInt_signed (w : Width) (v : Word) :
    (BitVec.ofInt 64 (w.signed v)).toInt = w.signed v := by
  rw [signed, ← BitVec.signExtend, BitVec.toInt_signExtend_of_le w.scalarBits_le]

theorem getLsbD_ofInt_signed {i : Nat} (h : i < w.scalarBits) :
    (BitVec.ofInt 64 (w.signed v)).getLsbD i = v.getLsbD i := by
  have hle := w.scalarBits_le
  rw [signed, ← BitVec.signExtend, BitVec.getLsbD_signExtend, if_pos h, BitVec.getLsbD_setWidth]
  simp [h, show i < 64 by omega]

theorem toInt_sshiftRight_signed (w : Width) (v : Word) (n : Nat) :
    ((BitVec.ofInt 64 (w.signed v)).sshiftRight n).toInt = w.signed v / 2 ^ n := by
  rw [BitVec.toInt_sshiftRight, Int.shiftRight_eq_div_pow, toInt_ofInt_signed]
  push_cast
  rfl

end Width

namespace Shift

variable {k : Shift} {w : Width} {v : Word} {n : Nat}

theorem eq_result {u : Word} (h : (u.toNat : Int) = k.value w v n) : u = k.result w v n := by
  rw [result, ← h, BitVec.ofInt_natCast, BitVec.ofNat_toNat, BitVec.setWidth_eq]

variable (hw : w.isScalar)

include hw

theorem trunc_shiftLeft (v : Word) (n : Nat) : w.trunc (v <<< n) = left.result w v n := by
  refine eq_result ?_
  rw [Width.toNat_trunc_shiftLeft, Width.scalarBits_eq_bits hw, value]
  push_cast
  rfl

theorem trunc_sshiftRight (v : Word) (n : Nat) :
    w.trunc ((BitVec.ofInt 64 (w.signed v)).sshiftRight n) = (right .signed).result w v n := by
  refine eq_result ?_
  rw [Width.toNat_trunc_of_toInt, Width.toInt_sshiftRight_signed, Width.scalarBits_eq_bits hw]
  rfl

omit hw in
theorem ushiftRight_eq (v : Word) (n : Nat) : v >>> n = (right .unsigned).result w v n := by
  refine eq_result ?_
  rw [BitVec.toNat_ushiftRight, Nat.shiftRight_eq_div_pow, value]
  push_cast
  rfl

theorem signed_result (n : Nat) :
    w.signed ((right .signed).result w v n) = w.signed v / 2 ^ n := by
  have hin : Sign.signed.InRange w (w.signed v / 2 ^ n) := by
    have hp : (0 : Int) < 2 ^ n := by positivity
    have hone : (1 : Int) ≤ 2 ^ n := Int.add_one_le_of_lt hp
    have hr := Sign.signed.inRange_value w v
    rw [Sign.inRange_signed] at hr ⊢
    change _ ≤ w.signed v ∧ w.signed v < _ at hr
    refine ⟨(Int.le_ediv_iff_mul_le hp).mpr ?_, Int.ediv_lt_of_lt_mul hp ?_⟩
    · nlinarith only [hr.1, hone, show (0 : Int) < 2 ^ (w.scalarBits - 1) by positivity]
    · nlinarith only [hr.2, hone, show (0 : Int) < 2 ^ (w.scalarBits - 1) by positivity]
  have heq : (right .signed).result w v n = w.trunc (.ofInt 64 (w.signed v / 2 ^ n)) := by
    refine (eq_result ?_).symm
    rw [Width.toNat_trunc_ofInt, Width.scalarBits_eq_bits hw]
    rfl
  rw [heq]
  exact Sign.value_trunc_ofInt (s := .signed) hin

theorem getLsbD_result (k : Shift) (h : n < w.bits) :
    (k.result w v n).getLsbD (k.lastBit w 1) = v.getLsbD (k.lastBit w (n + 1)) := by
  have hb := Width.scalarBits_eq_bits hw
  have hle := Width.isScalar_iff.mp hw
  match k with
  | left =>
    rw [← trunc_shiftLeft hw, Width.getLsbD_trunc, hb, lastBit, lastBit, BitVec.getLsbD_shiftLeft,
      Nat.sub_sub, Nat.add_comm 1 n]
    simp [show w.bits - 1 < w.bits by omega, show w.bits - 1 < 64 by omega,
      show ¬ w.bits - 1 < n by omega]
  | right .unsigned =>
    rw [← ushiftRight_eq, BitVec.getLsbD_ushiftRight]
    rfl
  | right .signed =>
    rw [← trunc_sshiftRight hw, Width.getLsbD_trunc, hb, lastBit, lastBit, Nat.sub_self,
      Nat.add_sub_cancel, BitVec.getLsbD_sshiftRight, Nat.add_zero, if_pos (by omega),
      Width.getLsbD_ofInt_signed (hb ▸ h)]
    simp [show 0 < w.bits by omega]

variable (hv : v.toNat < 2 ^ w.bits)

include hv

theorem result_zero (k : Shift) : k.result w v 0 = v := by
  have hlt : (v.toNat : Int) < 2 ^ w.bits := by exact_mod_cast hv
  refine (eq_result ?_).symm
  match k with
  | left => rw [value, pow_zero, mul_one, Int.emod_eq_of_lt (by omega) hlt]
  | right .unsigned => rw [value, pow_zero, Int.ediv_one]
  | right .signed =>
    have hb := Width.scalarBits_eq_bits hw
    have ht : w.trunc (.ofInt 64 (w.signed v)) = v :=
      (Sign.trunc_ofInt_value .signed w v).trans (Width.trunc_of_lt (hb ▸ hv))
    rw [value, pow_zero, Int.ediv_one, ← hb, ← Width.toNat_trunc_ofInt, ht]

omit hw in
theorem value_range (k : Shift) (n : Nat) : 0 ≤ k.value w v n ∧ k.value w v n < 2 ^ w.bits := by
  have hp : (0 : Int) < 2 ^ w.bits := by positivity
  match k with
  | left | right .signed => exact ⟨Int.emod_nonneg _ hp.ne', Int.emod_lt_of_pos _ hp⟩
  | right .unsigned =>
    have hlt : v.toNat / 2 ^ n < 2 ^ w.bits := lt_of_le_of_lt (Nat.div_le_self _ _) hv
    change 0 ≤ (v.toNat / 2 ^ n : Int) ∧ (v.toNat / 2 ^ n : Int) < 2 ^ w.bits
    exact ⟨by positivity, by exact_mod_cast hlt⟩

theorem toNat_result (k : Shift) (n : Nat) : ((k.result w v n).toNat : Int) = k.value w v n := by
  obtain ⟨h₀, hlt⟩ := value_range hv k n
  have hle : (2 : Int) ^ w.bits ≤ 2 ^ 64 :=
    pow_le_pow_right₀ (by norm_num) (Width.isScalar_iff.mp hw)
  have hmod : k.value w v n % (2 ^ 64 : Nat) = k.value w v n :=
    Int.emod_eq_of_lt h₀ (lt_of_lt_of_le hlt hle)
  rw [result, BitVec.toNat_ofInt, hmod, Int.toNat_of_nonneg h₀]

theorem result_lt (k : Shift) (n : Nat) : (k.result w v n).toNat < 2 ^ w.bits := by
  have h := (value_range hv k n).2
  rw [← toNat_result hw hv] at h
  exact_mod_cast h

/-- **A shift in two steps.** -/
theorem value_result (k : Shift) (i j : Nat) :
    k.value w (k.result w v i) j = k.value w v (i + j) := by
  match k with
  | left =>
    rw [value, toNat_result hw hv, value, value, pow_add, ← mul_assoc]
    exact (Int.mod_modEq _ _).mul_right _
  | right .unsigned =>
    rw [value, toNat_result hw hv, value, value, pow_add, Int.ediv_ediv_of_nonneg (by positivity)]
  | right .signed =>
    rw [value, signed_result hw, value, pow_add, Int.ediv_ediv_of_nonneg (by positivity)]

theorem result_result (k : Shift) (i j : Nat) :
    k.result w (k.result w v i) j = k.result w v (i + j) :=
  congrArg (BitVec.ofInt 64) (value_result hw hv k i j)

end Shift

/-! ## The shifts that instructions form -/

namespace Shift

variable {w : Width} {v : Word} {n : Nat}

/-- The result of a shift with its two range flags. -/
def outcome (k : Shift) (w : Width) (v : Word) (n : Nat) : Shifted :=
  ⟨k.result w v n, k.flag w v n .cf, k.flag w v n .of⟩

theorem isNegative_eq (hw : w.isScalar) (v : Word) : w.isNegative v = v.getLsbD (w.bits - 1) := by
  rw [Width.isNegative, Width.scalarBits_eq_bits hw]

theorem flag_cf_of_lt (k : Shift) (h : n < w.bits) :
    k.flag w v n .cf = .ofBool (v.getLsbD (k.lastBit w n)) :=
  if_pos h

theorem flag_of_ne_one (k : Shift) (h : n ≠ 1) : k.flag w v n .of = .undefined :=
  if_neg h

theorem outcome_of_le (k : Shift) (h : w.bits ≤ n) :
    k.outcome w v n = ⟨k.result w v n, .undefined, .undefined⟩ := by
  have hpos := w.one_lt_bits
  rw [outcome, flag_of_ne_one k (by omega)]
  congr 1
  exact if_neg (by omega)

end Shift

namespace Shifted

variable {w : Width} {v : Word} {n : Nat} (hw : w.isScalar)

include hw

theorem signed_ediv_of_le (h : w.bits ≤ n) :
    w.signed v / 2 ^ n = if w.isNegative v then -1 else 0 := by
  have hb := Width.scalarBits_eq_bits hw
  have hpow : (2 : Int) ^ w.bits ≤ 2 ^ n := pow_le_pow_right₀ (by norm_num) h
  have hlt : ((w.trunc v).toNat : Int) < 2 ^ w.bits := by exact_mod_cast hb ▸ w.toNat_trunc_lt v
  rw [Width.signed_eq, hb]
  split
  · refine Int.ediv_eq_neg_one_of_neg_of_le (by omega) (by omega)
  · rw [sub_zero]
    exact Int.ediv_eq_zero_of_lt (by omega) (by omega)

theorem result_of_le (s : Sign) (hv : v.toNat < 2 ^ w.bits) (h : w.bits ≤ n) :
    (match s with
      | .unsigned => 0
      | .signed => if w.isNegative v then w.mask else 0) = (Shift.right s).result w v n := by
  refine Shift.eq_result ?_
  cases s with
  | unsigned =>
    have hlt : v.toNat < 2 ^ n := lt_of_lt_of_le hv (Nat.pow_le_pow_right (by decide) h)
    change (0 : Int) = (v.toNat : Int) / 2 ^ n
    rw [Int.ediv_eq_zero_of_lt (by omega) (by exact_mod_cast hlt)]
  | signed =>
    change ((if w.isNegative v then w.mask else 0 : Word).toNat : Int) = w.signed v / 2 ^ n % _
    rw [signed_ediv_of_le hw h]
    split
    · rw [Width.mask, Width.toNat_trunc_of_toInt, BitVec.toInt_allOnes, Width.scalarBits_eq_bits hw]
      rfl
    · rfl

theorem moveRight_eq (s : Sign) (v : Word) (h : n < 64) :
    moveRight s w v n = .ok ((Shift.right s).result w v n) := by
  cases s with
  | unsigned => rw [moveRight, Checked.shiftRight, Checked.shift_of_lt h, Shift.ushiftRight_eq]
  | signed =>
    rw [moveRight, Checked.shiftRightSigned, Checked.shift_of_lt h, ← Shift.trunc_sshiftRight hw]
    rfl

variable (hv : v.toNat < 2 ^ w.bits)

include hv

/-- **SHL takes one step after the others**, and looks at the top bit in between. -/
theorem left_eq (h : n ≠ 0) : left w v n = .ok (Shift.left.outcome w v n) := by
  have hb := Width.isScalar_iff.mp hw
  unfold left
  by_cases h₁ : n = 1
  · subst h₁
    simp only [if_true, Shift.trunc_shiftLeft hw, Shift.isNegative_eq hw]
    rw [Shift.outcome, Shift.flag_cf_of_lt _ w.one_lt_bits]
    rfl
  · rw [if_neg h₁]
    by_cases h₂ : n < w.bits
    · obtain ⟨j, rfl⟩ : ∃ j, n = j + 1 := ⟨n - 1, by omega⟩
      rw [if_pos h₂, Checked.sub_of_le (by omega)]
      change (Checked.shift j (v <<< j) >>= _) = _
      rw [Checked.shift_of_lt (by omega)]
      refine congrArg Except.ok ?_
      rw [Shift.outcome, Shift.flag_cf_of_lt _ h₂, Shift.flag_of_ne_one _ h₁,
        ← Shift.getLsbD_result hw .left (by omega), ← Shift.result_result hw hv,
        ← Shift.trunc_shiftLeft hw _ 1, ← Shift.trunc_shiftLeft hw _ j, Shift.isNegative_eq hw]
      rfl
    · have hz : (0 : Word) = Shift.left.result w v n := by
        refine Shift.eq_result ?_
        have hdvd : (2 : Int) ^ w.bits ∣ v.toNat * 2 ^ n :=
          (pow_dvd_pow 2 (by omega)).mul_left _
        exact (Int.emod_eq_zero_of_dvd hdvd).symm
      rw [if_neg h₂, Shift.outcome_of_le _ (by omega), ← hz]

/-- **SHR and SAR look at the low bit** of a shift by one step less. -/
theorem right_eq (s : Sign) (h : n ≠ 0) : right s w v n = .ok ((Shift.right s).outcome w v n) := by
  have hb := Width.isScalar_iff.mp hw
  unfold right
  by_cases h₁ : n = 1
  · subst h₁
    rw [if_pos rfl, moveRight_eq hw s v (by omega), Shift.outcome,
      Shift.flag_cf_of_lt _ w.one_lt_bits]
    cases s with
    | unsigned => rw [Shift.isNegative_eq hw]; rfl
    | signed => rfl
  · rw [if_neg h₁]
    by_cases h₂ : n < w.bits
    · obtain ⟨j, rfl⟩ : ∃ j, n = j + 1 := ⟨n - 1, by omega⟩
      rw [if_pos h₂, Checked.sub_of_le (by omega)]
      change (moveRight s w v j >>= fun part => moveRight s w v (j + 1) >>= _) = _
      rw [moveRight_eq hw s v (by omega), moveRight_eq hw s v (by omega), Shift.outcome,
        Shift.flag_cf_of_lt _ h₂, Shift.flag_of_ne_one _ h₁,
        ← Shift.getLsbD_result hw (.right s) (by omega)]
      rfl
    · rw [if_neg h₂, Shift.outcome_of_le _ (by omega)]
      exact congrArg (fun u => Except.ok (Shifted.mk u .undefined .undefined))
        (result_of_le hw s hv (by omega))

end Shifted

theorem FlagUpdate.shift_eq {w : Width} {v : Word} (hw : w.isScalar) (hv : v.toNat < 2 ^ w.bits)
    (k : Shift) (n : Nat) :
    shift (k.flag w v n .cf) (k.flag w v n .of) w (k.result w v n) =
      FlagName.all.map fun f => (f, k.flag w v n f) := by
  have hz : isZero w (k.result w v n) = decide (k.value w v n = 0) := by
    have hr := Shift.toNat_result hw hv k n
    rw [isZero, Width.trunc_of_lt (Width.scalarBits_eq_bits hw ▸ Shift.result_lt hw hv k n),
      Bool.eq_iff_iff, beq_iff_eq, decide_eq_true_iff, ← hr, ← BitVec.toNat_inj]
    simp
  unfold shift
  rw [hz, Shift.isNegative_eq hw]
  rfl

/-! ## What the instructions do -/

namespace Shift

/-- What an instruction computes. -/
def compute : Shift → Width → Word → Nat → Except Cause Shifted
  | left, w => Shifted.left w
  | right s, w => Shifted.right s w

/-- What an instruction does: nothing unless there are steps to take. -/
def actions (k : Shift) (w : Width) (dst : Operand) (v : Word) (n : Nat) : List Action :=
  if n = 0 then []
  else [.write dst (.ofWord (k.result w v n)), .barrier .compiler,
    .assign (FlagName.all.map fun f => (f, k.flag w v n f))]

variable {k : Shift} {w : Width} {v : Word} {n : Nat}

theorem actions_of_ne_zero {dst : Operand} (h : n ≠ 0) :
    k.actions w dst v n = [.write dst (.ofWord (k.result w v n)), .barrier .compiler,
      .assign (FlagName.all.map fun f => (f, k.flag w v n f))] :=
  if_neg h

theorem update_actions {dst : Operand} (k : Shift) (h : n ≠ 0) :
    (k.actions w dst v n).flatMap Action.update =
      FlagName.all.map fun f => (f, k.flag w v n f) := by
  rw [actions_of_ne_zero h]
  exact List.append_nil _

theorem compute_eq (hw : w.isScalar) (hv : v.toNat < 2 ^ w.bits) (k : Shift) (h : n ≠ 0) :
    k.compute w v n = .ok (k.outcome w v n) := by
  cases k with
  | left => exact Shifted.left_eq hw hv h
  | right s => exact Shifted.right_eq hw hv s h

theorem toNat_and_countMask (w : Width) (count : Word) :
    (count &&& w.countMask).toNat = steps w count := by
  rw [BitVec.toNat_and, steps]
  cases w with
  | w64 => exact Nat.and_two_pow_sub_one_eq_mod _ 6
  | _ => exact Nat.and_two_pow_sub_one_eq_mod _ 5

end Shift

theorem Entry.actions_of_shifts {e : Entry} {k : Shift} (h : e.Shifts k) (o : Options)
    (ops : List Operand) :
    e.op.actions o (e.invoke ops) = (e.invoke ops).shiftWith (k.compute e.width) := by
  cases k with
  | left => rw [show e.op = .shl from h]; rfl
  | right s => rw [h.1, ← h.2]; rfl

theorem Invocation.run_shiftWith {i : Invocation} {s : State} {o : Options} {k : Shift}
    {dst : Operand} {v count : Word} (hw : i.width.isScalar)
    (hv : (i.scalar 1).run (.begin s o) = .ok v) (hc : (i.word 2).run (.begin s o) = .ok count)
    (hd : i.operands[0]? = some dst) :
    (i.shiftWith (k.compute i.width)).run (.begin s o) =
      .ok (k.actions i.width dst v (Shift.steps i.width count)) := by
  have hlt := (State.source?_of_run hw hv).2
  refine Fetch.run_bind_eq_ok.mpr ⟨v, hv, Fetch.run_bind_eq_ok.mpr ⟨count, hc, ?_⟩⟩
  rw [Shift.toNat_and_countMask, Shift.actions]
  dsimp only
  split_ifs with h
  · rfl
  · refine Fetch.run_bind_eq_ok.mpr ⟨dst, run_operand.mpr hd, ?_⟩
    rw [Shift.compute_eq hw hlt k h, ← FlagUpdate.shift_eq hw hlt]
    rfl

theorem Transaction.effects_of_write {s : State} {o : Options} {t : Transaction} {dst : Operand}
    {l : Lanes} {b : Barrier} {u : FlagUpdate}
    (h : (begin s o).perform [.write dst l, .barrier b, .assign u] = .ok t) :
    ∃ eff, dst.writing l = some eff ∧ t.effects = eff :: .barrier b :: u.effects ∧
      (Effect.replay s t.effects).read dst = .ok (Lanes.trunc dst.width l) := by
  obtain ⟨_, hact, -⟩ := perform_cons_eq_ok_iff.mp h
  obtain ⟨eff, heff, -⟩ := writing_of_act hact
  have hfx : t.effects = eff :: .barrier b :: u.effects := by
    rw [effects_perform h, List.flatMap_cons, Action.effects, heff]
    exact congrArg (eff :: .barrier b :: ·) (List.append_nil _)
  have hpost : ∀ f ∈ Effect.barrier b :: u.effects, f.isWrite = false := by
    intro f hf
    rcases List.mem_cons.mp hf with rfl | hf
    · rfl
    · obtain ⟨_, -, rfl⟩ := FlagUpdate.mem_effects_iff.mp hf
      rfl
  refine ⟨eff, heff, hfx, ?_⟩
  rw [hfx]
  change (Effect.replay (Effect.act s eff) _).read dst = _
  rw [State.read_replay hpost, State.read_act_writing heff]

namespace Machine

variable {m : Machine} {c : Call} {e : Entry} {k : Shift} {dst x y : Operand} {l₁ l₂ : Lanes}

/-- **A shift reads its value and its count**, and then it can only fail to write. -/
theorem transact_shift (hk : e.Shifts k) (hw : e.width.isScalar) (hx : x.width.isScalar)
    (hy : y.width.isScalar) (h₁ : m.state.read x = .ok l₁) (h₂ : m.state.read y = .ok l₂) :
    m.transact e [dst, x, y] = (Transaction.begin m.state m.options).perform
      (k.actions e.width dst (e.width.trunc l₁.low) (Shift.steps e.width l₂.low)) := by
  have hrun := Invocation.run_shiftWith (i := e.invoke [dst, x, y]) (s := m.state)
    (o := m.options) (k := k) hw
    (Invocation.run_scalar.mpr ⟨x, rfl, _, Transaction.read_begin.mpr ⟨hx, l₁, h₁, rfl⟩, rfl⟩)
    (Invocation.run_word.mpr ⟨y, rfl, Transaction.read_begin.mpr ⟨hy, l₂, h₂, rfl⟩⟩) rfl
  refine Op.eval_of_run ?_
  rw [Entry.actions_of_shifts hk]
  exact hrun

/-- **Shifts are exact.** A shift by no step does nothing at all, whether its destination can be
written or not. Any other one succeeds if its destination can be written. It leaves the product
with a power of two without its high bits, or the quotient rounded down, and its flags. -/
theorem shift_exact {tab : Table} {o : Options} {name : String}
    (hb : Table.build Rows.all o = .ok tab) (hg : tab.get? name = some e)
    (hmn : e.key.mnemonic = k.mnemonic) (hsel : c.select m.table = .ok e)
    (hops : c.operands = [dst, x, y]) (hshape : e.shape.check c.operands = .ok ())
    (hx : x.width.isScalar) (hy : y.width.isScalar) (h₁ : m.state.read x = .ok l₁)
    (h₂ : m.state.read y = .ok l₂) :
    let w := e.width
    let v := w.trunc l₁.low
    let n := Shift.steps w l₂.low
    let res := k.result w v n
    let r := m.call c
    (n = 0 → r.result = .ok [] ∧ r.machine = { m with executed := m.executed + 1 }) ∧
    (n ≠ 0 → (r.succeeded ↔ m.state.Accepts dst) ∧ (res.toNat : Int) = k.value w v n ∧
      ∀ fx, r.result = .ok fx →
        (∃ eff, dst.writing (.ofWord res) = some eff ∧
          fx = eff :: .barrier .compiler ::
            FlagName.all.map fun f => .setFlag f (k.flag w v n f)) ∧
        r.machine.state.read dst = .ok (Lanes.trunc dst.width (.ofWord res)) ∧
        ∀ f, r.machine.state.regs.flags.get f = k.flag w v n f) := by
  intro w v n res r
  have hk := (Table.shifts_iff hb hg k).mpr hmn
  have hw : e.width.isScalar := Table.isScalar_of_word hb hg hk.packs
  have ht : m.transact e c.operands = (Transaction.begin m.state m.options).perform
      (k.actions w dst v n) := hops ▸ transact_shift hk hw hx hy h₁ h₂
  have hv : v.toNat < 2 ^ w.bits := Width.scalarBits_eq_bits hw ▸ w.toNat_trunc_lt _
  refine ⟨fun h₀ => ?_, fun h₀ => ⟨?_, Shift.toNat_result hw hv k n, fun fx hfx => ?_⟩⟩
  · rw [Shift.actions, if_pos h₀] at ht
    exact ⟨result_of_transact hsel hshape ht, (call_of_transact hsel hshape ht).2⟩
  · have hends := @Transaction.ends_perform (.begin m.state m.options) (k.actions w dst v n)
    rw [Shift.actions_of_ne_zero h₀] at ht hends
    rw [succeeded_iff_transact hsel hshape, ht, hends.exists_iff]
    simp [Action.marks, Transaction.begin]
  · obtain ⟨_, t, hsel', -, ht', rfl, -, hm⟩ := call_of_ok hfx
    cases hsel.symm.trans hsel'
    have hp := ht.symm.trans ht'
    have hs : r.machine.state = Effect.replay m.state t.effects := congrArg Machine.state hm
    obtain ⟨eff, heff, hfx, hread⟩ :=
      Transaction.effects_of_write ((Shift.actions_of_ne_zero h₀).symm ▸ hp)
    refine ⟨⟨eff, heff, hfx⟩, hs ▸ hread, fun f => ?_⟩
    rw [hs, replay_transact ht']
    change t.regs.flags.get f = _
    rw [Transaction.flags_perform hp, Shift.update_actions k h₀, Flags.get_assign_map,
      if_pos f.mem_all]

/-- The form SAR of a word register by CL, as an entry of a table. -/
def sarEntry : Entry where
  key := ⟨"SAR", "GPRv_CL", .w16⟩
  name := "SAR_GPRv_CL_16"
  op := .shr
  sign := .signed
  width := .w16
  shape := [.rw, .r, .r]
  mode := .any
  extension := .base

/-- CL asks for 49 steps, of which 17 are taken. They fill AX with its sign, and the last one pushes
out no bit of it. -/
theorem shift_exact_sar :
    let m : Machine := { state := { regs := (({} : RegFile).set .rax 0x8001).set .rcx 0x31 } }
    let ops : List Operand := [.regW (.gpr .rax .word), .reg (.gpr .rax .word),
      .reg (.gpr .rcx .low8)]
    let r := m.call (.entry sarEntry ops)
    r.machine.state.read (.regW (.gpr .rax .word)) = .ok 0xffff ∧
      r.machine.state.regs.flags.get .cf = .undefined ∧
      r.machine.state.regs.flags.get .sf = .set := by
  intro m ops r
  have hr : { stem := "SAR_GPRv_CL", op := .shr, sign := .signed, shape := [.rw, .r, .r],
              sizes := .words } ∈ Rows.all := by
    decide +kernel
  obtain ⟨tab, hb⟩ := Table.exists_build {}
  have hg : tab.get? "SAR_GPRv_CL_16" = some sarEntry :=
    Table.get?_of_ofRow (p := (.w16, .any)) hb hr (by decide) rfl
  have hax : m.state.read (.reg (.gpr .rax .word)) = .ok 0x8001 := by decide +kernel
  have hcl : m.state.read (.reg (.gpr .rcx .low8)) = .ok 0x31 := by decide +kernel
  obtain ⟨-, h⟩ := shift_exact (m := m) (c := .entry sarEntry ops) (k := .right .signed)
    hb hg rfl rfl rfl rfl rfl rfl hax hcl
  obtain ⟨hok, -, h⟩ := h (by decide +kernel)
  obtain ⟨fx, hfx⟩ := Response.succeeded_iff.mp (hok.mpr ⟨fun _ hn => hn.elim, rfl⟩)
  obtain ⟨-, hread, hflag⟩ := h fx hfx
  exact ⟨hread.trans (by decide +kernel), (hflag .cf).trans (by decide +kernel),
    (hflag .sf).trans (by decide +kernel)⟩

end Machine

end X86
