import X86.Proofs.Checked
import X86.Proofs.Fetch
import X86.Proofs.Register
import X86.Proofs.Run
import X86.Proofs.Selection
import X86.Proofs.Width

/-!
# Divisions

DIV and IDIV divide the integer that the accumulator holds by the integer that their operand
stands for. The quotient is rounded toward zero.

* `RegFile.dividend`: the dividend as an integer;
* `dividend_eq`, `Invocation.run_dividendHalves`: instructions form this dividend;
* `Quotient.ofDividend_eq`: the quotient and the remainder, or the fault;
* `Invocation.run_divide`, `Machine.result_division`: the three ends of a division;
* `Machine.replay_divisionEffects`: the state that its effects lead to;
* **`Machine.division_exact`**: when a division succeeds, and what it then leaves behind.
-/

namespace X86

/-! ## The dividend -/

/-- The integer that the low bits of a number stand for. -/
def Sign.ofBits (s : Sign) (bits n : Nat) : Int :=
  match s with
  | .unsigned => (n % 2 ^ bits : Nat)
  | .signed => (n : Int).bmod (2 ^ bits)

/-- The dividend in the accumulator: AX for bytes, and otherwise two registers that are read as
one number. -/
def RegFile.dividend (r : RegFile) (s : Sign) (w : Width) : Int :=
  s.ofBits (2 * w.bits) <|
    if w = .w8 then (r.get .rax).toNat % 2 ^ 16
    else (r.get .rdx).toNat % 2 ^ w.bits * 2 ^ w.bits + (r.get .rax).toNat % 2 ^ w.bits

variable {w : Width} {s : State} {o : Options} {i : Invocation}

theorem RegFile.dividend_nonneg {r : RegFile} {sg : Sign} (h : sg = .unsigned) :
    0 ≤ r.dividend sg w := by
  subst h
  exact Int.natCast_nonneg _

theorem toNat_joined (hw : w.isScalar) (high low : Word) :
    ((w.trunc high).setWidth 128 <<< w.bits ||| (w.trunc low).setWidth 128).toNat =
      (w.trunc high).toNat * 2 ^ w.bits + (w.trunc low).toNat := by
  have hb := Width.scalarBits_eq_bits hw
  have hhigh := w.toNat_trunc_lt high
  have hlow := w.toNat_trunc_lt low
  rw [hb] at hhigh hlow
  have hlt : (w.trunc high).toNat * 2 ^ w.bits < 2 ^ 128 := by
    rcases Width.scalar_cases hw with rfl | rfl | rfl | rfl
    all_goals
      simp only [Width.bits] at hhigh ⊢
      omega
  rw [BitVec.toNat_or, BitVec.toNat_shiftLeft, BitVec.toNat_setWidth, BitVec.toNat_setWidth,
    Nat.mod_eq_of_lt (lt_trans (w.trunc high).isLt (by norm_num)),
    Nat.mod_eq_of_lt (lt_trans (w.trunc low).isLt (by norm_num)), Nat.shiftLeft_eq,
    Nat.mod_eq_of_lt hlt, ← Nat.shiftLeft_eq, ← Nat.shiftLeft_add_eq_or_of_lt hlow]

theorem toInt_sshiftRight_shiftLeft {n k : Nat} (hk : k < n) (v : BitVec n) :
    ((v <<< k).sshiftRight k).toInt = (v.toNat : Int).bmod (2 ^ (n - k)) := by
  have hpow : 2 ^ n = 2 ^ k * 2 ^ (n - k) := by rw [← pow_add, Nat.add_sub_cancel' hk.le]
  have heven : 2 ∣ 2 ^ (n - k) := dvd_pow_self 2 (by omega)
  have hshift : ((v.toNat <<< k : Nat) : Int) = (2 ^ k : Nat) * (v.toNat : Int) := by
    rw [Nat.shiftLeft_eq, mul_comm, Int.natCast_mul]
  rw [BitVec.toInt_sshiftRight, BitVec.toInt_shiftLeft, hshift, hpow,
    Int.mod_bmod_mul_of_pos _ _ (Nat.two_pow_pos k) heven, Int.shiftRight_eq_div_pow,
    Int.mul_ediv_cancel_left _ (by positivity)]

theorem dividend_eq (sg : Sign) (hw : w.isScalar) (high low : Word) :
    dividend sg w high low = .ok (sg.ofBits (2 * w.bits)
      ((w.trunc high).toNat * 2 ^ w.bits + (w.trunc low).toNat)) := by
  have hbits : 0 < w.bits ∧ w.bits ≤ 64 := by
    rcases Width.scalar_cases hw with rfl | rfl | rfl | rfl <;> decide
  have hj := toNat_joined hw high low
  have hlt : (w.trunc high).toNat * 2 ^ w.bits + (w.trunc low).toNat < 2 ^ (2 * w.bits) := by
    have hb := Width.scalarBits_eq_bits hw
    have hh : (w.trunc high).toNat + 1 ≤ 2 ^ w.bits := hb ▸ w.toNat_trunc_lt high
    have hl : (w.trunc low).toNat < 2 ^ w.bits := hb ▸ w.toNat_trunc_lt low
    rw [two_mul, pow_add]
    nlinarith only [hh, hl]
  -- Twice the width is at most 128 bits, so no shift fails.
  unfold dividend
  rw [Checked.shiftLeft, Checked.shift_of_lt (by omega)]
  cases sg with
  | unsigned =>
    change Except.ok _ = _
    rw [hj, Sign.ofBits, Nat.mod_eq_of_lt hlt]
  | signed =>
    rw [Checked.sub_of_le (by omega)]
    change (Checked.shift (128 - 2 * w.bits) _ >>= fun top =>
      Checked.shift (128 - 2 * w.bits) _ >>= fun v => Except.ok v.toInt) = _
    rw [Checked.shift_of_lt (by omega)]
    change (Checked.shift (128 - 2 * w.bits) _ >>= fun v => Except.ok v.toInt) = _
    rw [Checked.shift_of_lt (by omega)]
    change Except.ok _ = _
    rw [toInt_sshiftRight_shiftLeft (by omega), hj, Sign.ofBits,
      show 128 - (128 - 2 * w.bits) = 2 * w.bits by omega]

/-! ## The questions of a division -/

namespace Invocation

theorem run_view (hw : w.isScalar) (g : Gpr) :
    (Transaction.begin s o).read (.reg (g.view w)) = .ok (w.trunc (s.regs.get g)) := by
  refine Transaction.read_begin.mpr ⟨?_, _, rfl, s.regs.low_read_view hw g⟩
  rw [Operand.width, Gpr.width_view hw]
  exact hw

theorem run_register (hw : i.width.isScalar) (g : Gpr) :
    (i.register g).run (.begin s o) = .ok (i.width.trunc (s.regs.get g)) :=
  Except.bind_eq_ok_iff.mpr ⟨_, run_view hw g, rfl⟩

theorem bytes_of_word (v : Word) :
    (Width.w8.trunc (Width.w16.trunc v >>> 8)).toNat * 2 ^ 8 +
      (Width.w8.trunc (Width.w16.trunc v &&& 0xff)).toNat = v.toNat % 2 ^ 16 := by
  have hmask : (Width.w16.trunc v &&& 0xff).toNat = (Width.w16.trunc v).toNat % 2 ^ 8 := by
    rw [BitVec.toNat_and]
    exact Nat.and_two_pow_sub_one_eq_mod _ 8
  rw [Width.toNat_trunc, Width.toNat_trunc, hmask, BitVec.toNat_ushiftRight,
    Nat.shiftRight_eq_div_pow, Width.toNat_trunc]
  simp only [Width.scalarBits_eq_bits (show Width.w8.isScalar from rfl),
    Width.scalarBits_eq_bits (show Width.w16.isScalar from rfl), Width.bits]
  omega

/-- **The halves that a division asks for** make up the dividend. -/
theorem run_dividendHalves (hw : i.width.isScalar) (sg : Sign) :
    ∃ high low, i.dividendHalves.run (.begin s o) = .ok (high, low) ∧
      X86.dividend sg i.width high low = .ok (s.regs.dividend sg i.width) := by
  by_cases h : i.width = .w8
  · have hd : i.dividendHalves = .word (.reg (Gpr.rax.view .w16)) fun ax =>
        .done (ax >>> 8, ax &&& 0xff) := by
      unfold dividendHalves
      rw [h]
      rfl
    refine ⟨Width.w16.trunc (s.regs.get .rax) >>> 8, Width.w16.trunc (s.regs.get .rax) &&& 0xff,
      ?_, ?_⟩
    · rw [hd]
      exact Except.bind_eq_ok_iff.mpr ⟨_, run_view rfl .rax, rfl⟩
    · rw [dividend_eq sg hw, RegFile.dividend, if_pos h, h]
      exact congrArg _ (congrArg _ (bytes_of_word _))
  · have hd : i.dividendHalves = (do
        let high ← i.register .rdx
        let low ← i.register .rax
        return (high, low)) := by
      unfold dividendHalves
      split
      · exact absurd ‹_› h
      · rfl
    refine ⟨i.width.trunc (s.regs.get .rdx), i.width.trunc (s.regs.get .rax), ?_, ?_⟩
    · rw [hd]
      refine Fetch.run_bind_eq_ok.mpr ⟨_, run_register hw .rdx, ?_⟩
      exact Fetch.run_bind_eq_ok.mpr ⟨_, run_register hw .rax, rfl⟩
    · rw [dividend_eq sg hw, RegFile.dividend, if_neg h, Width.trunc_trunc, Width.trunc_trunc,
        Width.toNat_trunc, Width.toNat_trunc, Width.scalarBits_eq_bits hw]

end Invocation

/-! ## Quotient and remainder -/

/-- **The result of a division**: the quotient and the remainder of the integers, or the fault. -/
theorem Quotient.ofDividend_eq {sg : Sign} {checked : Bool} {high low divisor : Word} {n : Int}
    (hn : X86.dividend sg w high low = .ok n) :
    ofDividend sg w checked high low divisor =
      if sg.value w divisor = 0 then .error (.divideByZero w)
      else if checked ∧ ¬ sg.InRange w (n.tdiv (sg.value w divisor)) then
        .error (.divideOverflow w high low divisor)
      else .ok ⟨w.trunc (.ofInt 64 (n.tdiv (sg.value w divisor))),
        w.trunc (.ofInt 64 (n.tmod (sg.value w divisor)))⟩ := by
  have hw : w.isScalar := by
    by_contra hw
    rw [dividend_of_not_scalar hw] at hn
    cases hn
  unfold ofDividend
  rw [hn]
  change (if w.trunc divisor = 0 then _ else _) = _
  by_cases hd : sg.value w divisor = 0
  · rw [if_pos (Sign.value_eq_zero_iff.mp hd), if_pos hd]
  · have hpos : sg = .unsigned → 0 ≤ sg.value w divisor := by
      rintro rfl
      exact Int.natCast_nonneg _
    rw [if_neg (mt Sign.value_eq_zero_iff.mpr hd), if_neg hd,
      wide?_eq (isWide_of_dividend hn) hd hpos]
    by_cases hq : Checked.isWide sg (n.tdiv (sg.value w divisor))
    · rw [if_pos hq]
      change (fits sg w _ >>= _) = _
      rw [fits_eq hw hq]
      change (if checked ∧ ¬ decide (sg.InRange w _) = true then _ else _) = _
      simp only [decide_eq_true_eq]
      rfl
    · -- a quotient of more than 128 bits is out of range at every width
      have hr : ¬ sg.InRange w (n.tdiv (sg.value w divisor)) := mt Checked.isWide_of_inRange hq
      rw [if_neg hq]
      cases checked with
      | true => rw [if_pos rfl, if_pos ⟨rfl, hr⟩]; rfl
      | false =>
        rw [if_neg Bool.false_ne_true, if_neg fun h => Bool.false_ne_true h.1]
        change (fits sg w (Checked.wideValue sg _) >>= _) = _
        rw [fits_eq hw (Checked.isWide_wideValue sg _)]
        change Except.ok _ = _
        rw [Checked.ofInt_wideValue]

/-- **Division of integers** that rounds the quotient toward zero. -/
theorem tdiv_tmod_spec (n : Int) {d : Int} (hd : d ≠ 0) :
    n = n.tdiv d * d + n.tmod d ∧ |n.tmod d| < |d| ∧
      (n.tmod d = 0 ∨ (n.tmod d).sign = n.sign) := by
  refine ⟨(Int.tdiv_mul_add_tmod n d).symm, ?_, ?_⟩
  · rw [Int.abs_eq_natAbs, Int.abs_eq_natAbs, Int.natAbs_tmod]
    exact_mod_cast Nat.mod_lt _ (Int.natAbs_pos.mpr hd)
  · by_cases h : d ∣ n
    · exact .inl (Int.tmod_eq_zero_of_dvd h)
    · right
      rw [Int.sign_tmod, if_neg h]

theorem Sign.inRange_tmod {sg : Sign} {n : Int} {v : Word} (hn : sg = .unsigned → 0 ≤ n)
    (hd : sg.value w v ≠ 0) : sg.InRange w (n.tmod (sg.value w v)) := by
  obtain ⟨-, hlt, -⟩ := tdiv_tmod_spec n hd
  have hv := sg.inRange_value w v
  cases sg with
  | unsigned =>
    have hr := Int.tmod_nonneg (Sign.unsigned.value w v) (hn rfl)
    rw [inRange_unsigned] at hv ⊢
    rw [abs_of_nonneg hr, abs_of_nonneg hv.1] at hlt
    exact ⟨hr, hlt.trans hv.2⟩
  | signed =>
    rw [inRange_signed] at hv ⊢
    have hd : |Sign.signed.value w v| ≤ 2 ^ (w.scalarBits - 1) := abs_le.mpr ⟨hv.1, hv.2.le⟩
    exact ⟨(abs_lt.mp (hlt.trans_le hd)).1.le, (abs_lt.mp (hlt.trans_le hd)).2⟩

/-! ## What a division does -/

/-- The register for the remainder: AH for bytes, and otherwise a view of RDX. -/
def Reg.remainder : Width → Reg
  | .w8 => .gpr .rax .high8
  | w => Gpr.rdx.view w

theorem Reg.width_remainder (hw : w.isScalar) : (Reg.remainder w).width = w := by
  rcases Width.scalar_cases hw with rfl | rfl | rfl | rfl <;> rfl

theorem Reg.remainder_spares (hw : w.isScalar) : (Reg.remainder w).Spares (Gpr.rax.view w) := by
  rcases Width.scalar_cases hw with rfl | rfl | rfl | rfl
  · exact .inr ⟨rfl, .inr (by decide)⟩
  all_goals exact .inl (by decide)

theorem Lanes.trunc_ofWord_trunc (hw : w.isScalar) (v : Word) :
    trunc w (ofWord (w.trunc v)) = ofWord (w.trunc v) := by
  apply BitVec.eq_of_getLsbD_eq
  intro i _
  rw [getLsbD_trunc, getLsbD_ofWord, Width.getLsbD_trunc, Width.scalarBits_eq_bits hw]
  cases decide (i < w.bits) <;> simp

namespace Invocation

variable {op : Operand} {l : Lanes}

/-- The effects of a division with the given quotient and remainder. -/
def divisionEffects (w : Width) (q r : Word) : List Effect :=
  [.writeReg (Gpr.rax.view w) (.ofWord q), .writeReg (Reg.remainder w) (.ofWord r)] ++
    .barrier .compiler :: FlagName.all.map fun n => .setFlag n .undefined

theorem run_divide (checked : Bool) (hw : i.width.isScalar) (h₀ : i.operands[0]? = some op)
    (hs : op.width.isScalar) (hl : s.read op = .ok l) :
    ∃ high low, X86.dividend i.sign i.width high low = .ok (s.regs.dividend i.sign i.width) ∧
      (i.divide checked).run (.begin s o) =
        (Quotient.ofDividend i.sign i.width checked high low l.low >>= fun q =>
          .ok (deliver i.width q ++ [.barrier .compiler, .assign .undefined])) := by
  obtain ⟨high, low, hh, hn⟩ := run_dividendHalves (s := s) (o := o) hw i.sign
  have hword : (i.word 0).run (.begin s o) = .ok l.low :=
    run_word.mpr ⟨op, h₀, Transaction.read_begin.mpr ⟨hs, l, hl, rfl⟩⟩
  refine ⟨high, low, hn, ?_⟩
  unfold divide
  rw [Fetch.run_bind, hword]
  change (i.dividendHalves >>= _).run _ = _
  rw [Fetch.run_bind, hh]
  change (Fetch.ofExcept _ >>= _).run _ = _
  rw [Fetch.run_bind, Fetch.run_ofExcept]
  rfl

theorem perform_deliver (hw : w.isScalar) (q r : Word) :
    ∃ t, t.effects = divisionEffects w (w.trunc q) (w.trunc r) ∧
      (Transaction.begin s o).perform
        (deliver w ⟨w.trunc q, w.trunc r⟩ ++ [.barrier .compiler, .assign .undefined]) = .ok t := by
  have hd : deliver w ⟨w.trunc q, w.trunc r⟩ =
      [.write (.regW (Gpr.rax.view w)) (.ofWord (w.trunc q)),
        .write (.regW (Reg.remainder w)) (.ofWord (w.trunc r))] := by
    cases w <;> rfl
  have hp : ∃ t, (Transaction.begin s o).perform
      ([.write (.regW (Gpr.rax.view w)) (.ofWord (w.trunc q)),
        .write (.regW (Reg.remainder w)) (.ofWord (w.trunc r))] ++
          [.barrier .compiler, .assign .undefined]) = .ok t := ⟨_, rfl⟩
  obtain ⟨t, hp⟩ := hp
  refine ⟨t, ?_, hd ▸ hp⟩
  rw [Transaction.effects_perform hp, divisionEffects]
  simp only [List.flatMap_append, List.flatMap_cons, List.flatMap_nil, Action.effects,
    Operand.writing, Gpr.width_view hw, Reg.width_remainder hw, Lanes.trunc_ofWord_trunc hw]
  rfl

end Invocation

namespace Machine

variable {m : Machine} {c : Call} {e : Entry} {op : Operand} {l : Lanes}

theorem result_division (hsel : c.select m.table = .ok e) (hop : e.op = .divAcc)
    (hw : e.width.isScalar) (hshape : e.shape.check c.operands = .ok ())
    (h₀ : c.operands[0]? = some op) (hs : op.width.isScalar) (hl : m.state.read op = .ok l) :
    let n := m.state.regs.dividend e.sign e.width
    let d := e.sign.value e.width l.low
    ∃ high low, (m.call c).result =
      if d = 0 then .error (.ofCause m.state.regs (.divideByZero e.width))
      else if m.options.divChecks ∧ ¬ e.sign.InRange e.width (n.tdiv d) then
        .error (.ofCause m.state.regs (.divideOverflow e.width high low l.low))
      else .ok (Invocation.divisionEffects e.width (e.width.trunc (.ofInt 64 (n.tdiv d)))
        (e.width.trunc (.ofInt 64 (n.tmod d)))) := by
  intro n d
  obtain ⟨high, low, hn, hrun⟩ := Invocation.run_divide (i := e.invoke c.operands)
    (o := m.options) m.options.divChecks hw h₀ hs hl
  obtain ⟨t, ht, hp⟩ := Invocation.perform_deliver (s := m.state) (o := m.options) hw
    (.ofInt 64 (n.tdiv d)) (.ofInt 64 (n.tmod d))
  have hquot : Quotient.ofDividend e.sign e.width m.options.divChecks high low l.low =
      if d = 0 then .error (.divideByZero e.width)
      else if m.options.divChecks ∧ ¬ e.sign.InRange e.width (n.tdiv d) then
        .error (.divideOverflow e.width high low l.low)
      else .ok ⟨e.width.trunc (.ofInt 64 (n.tdiv d)), e.width.trunc (.ofInt 64 (n.tmod d))⟩ :=
    Quotient.ofDividend_eq hn
  have heval : m.transact e c.operands =
      Quotient.ofDividend e.sign e.width m.options.divChecks high low l.low >>= fun q =>
        (Transaction.begin m.state m.options).perform
          (Invocation.deliver e.width q ++ [.barrier .compiler, .assign .undefined]) := by
    unfold transact Op.eval
    rw [hop]
    change ((e.invoke c.operands).divide m.options.divChecks).run _ >>= _ = _
    rw [hrun]
    change Quotient.ofDividend e.sign e.width m.options.divChecks high low l.low >>= _ >>= _ = _
    cases Quotient.ofDividend e.sign e.width m.options.divChecks high low l.low <;> rfl
  rw [hquot] at heval
  refine ⟨high, low, ?_⟩
  by_cases hd : d = 0
  · rw [if_pos hd] at heval ⊢
    exact result_of_transact_error hsel hshape heval
  · rw [if_neg hd] at heval ⊢
    by_cases hq : m.options.divChecks ∧ ¬ e.sign.InRange e.width (n.tdiv d)
    · rw [if_pos hq] at heval ⊢
      exact result_of_transact_error hsel hshape heval
    · rw [if_neg hq] at heval ⊢
      rw [← ht]
      exact result_of_transact hsel hshape (heval.trans hp)

theorem replay_divisionEffects (hw : w.isScalar) (s : State) (q r : Word) :
    let regs := (Effect.replay s
      (Invocation.divisionEffects w (w.trunc q) (w.trunc r))).regs
    regs.read (Gpr.rax.view w) = .ofWord (w.trunc q) ∧
      regs.read (Reg.remainder w) = .ofWord (w.trunc r) ∧
      ∀ f, regs.flags.get f = .undefined := by
  intro regs
  -- Behind the two writes nothing changes what a register holds.
  let rest : List Effect := .barrier .compiler :: FlagName.all.map fun n => .setFlag n .undefined
  have hrest : ∀ f ∈ rest, f.isWrite = false := by decide
  have hread : ∀ x, regs.read x =
      ((s.regs.write (Gpr.rax.view w) (.ofWord (w.trunc q))).write (Reg.remainder w)
        (.ofWord (w.trunc r))).read x := by
    intro x
    have h := State.read_replay hrest (Effect.replay s
      [.writeReg (Gpr.rax.view w) (.ofWord (w.trunc q)),
        .writeReg (Reg.remainder w) (.ofWord (w.trunc r))]) (.reg x)
    rw [← Effect.replay_append] at h
    exact Except.ok.inj h
  refine ⟨?_, ?_, fun f => ?_⟩
  · rw [hread, RegFile.read_write_of_spares _ (Reg.remainder_spares hw), RegFile.read_write,
      Gpr.width_view hw, Lanes.trunc_ofWord_trunc hw]
  · rw [hread, RegFile.read_write, Reg.width_remainder hw, Lanes.trunc_ofWord_trunc hw]
  · cases f <;> rfl

/-- **Divisions are exact.** DIV without signs and IDIV with signs refuse to divide by zero, and a
quotient that no word of the width stands for if the options ask for the check. Otherwise the low
bits of the quotient and the remainder go to their registers. -/
theorem division_exact {tab : Table} {o : Options} {name : String} {sg : Sign}
    (hb : Table.build Rows.all o = .ok tab) (hg : tab.get? name = some e)
    (hmn : e.key.mnemonic = sg.divide) (hsel : c.select m.table = .ok e)
    (hshape : e.shape.check c.operands = .ok ()) (h₀ : c.operands[0]? = some op)
    (hs : op.width.isScalar) (hl : m.state.read op = .ok l) :
    let n := m.state.regs.dividend sg e.width
    let d := sg.value e.width l.low
    let q := n.tdiv d
    let r := n.tmod d
    let fits := ∃ v, sg.value e.width v = q
    let regs := (m.call c).machine.state.regs
    ((∃ err, (m.call c).result = .error err ∧ err.kind = .divideByZero) ↔ d = 0) ∧
    ((∃ err, (m.call c).result = .error err ∧ err.kind = .divideOverflow) ↔
      d ≠ 0 ∧ m.options.divChecks ∧ ¬ fits) ∧
    ((∃ fx, (m.call c).result = .ok fx) ↔ d ≠ 0 ∧ (m.options.divChecks → fits)) ∧
    ∀ fx, (m.call c).result = .ok fx → ∃ vq vr : Word,
      fx = Invocation.divisionEffects e.width vq vr ∧
      regs.read (Gpr.rax.view e.width) = .ofWord vq ∧
      regs.read (Reg.remainder e.width) = .ofWord vr ∧
      (vq.toNat : Int) = q % 2 ^ e.width.bits ∧
      (m.options.divChecks → sg.value e.width vq = q) ∧
      (vr.toNat : Int) = r % 2 ^ e.width.bits ∧ sg.value e.width vr = r ∧
      n = q * d + r ∧ |r| < |d| ∧ (r = 0 ∨ r.sign = n.sign) ∧
      ∀ f, regs.flags.get f = .undefined := by
  intro n d q r fits regs
  obtain ⟨hop, rfl⟩ := (Table.division_iff hb hg sg).mpr hmn
  have hw : e.width.isScalar := Table.isScalar_of_word hb hg (by rw [hop]; rfl)
  obtain ⟨high, low, hres⟩ := result_division hsel hop hw hshape h₀ hs hl
  have hfits : e.sign.InRange e.width q ↔ fits := Sign.inRange_iff
  change (m.call c).result = (if d = 0 then _ else
    if m.options.divChecks ∧ ¬ e.sign.InRange e.width q then _ else _) at hres
  by_cases hd : d = 0
  · rw [if_pos hd] at hres
    simp [hres, hd, Error.kind, Error.ofCause, Cause.kind]
  · rw [if_neg hd] at hres
    by_cases hq : m.options.divChecks ∧ ¬ e.sign.InRange e.width q
    · rw [if_pos hq] at hres
      rw [hfits] at hq
      simp [hres, hd, hq, Error.kind, Error.ofCause, Cause.kind]
    · rw [if_neg hq] at hres
      rw [hfits, not_and_not_right] at hq
      refine ⟨by simp [hres, hd], ?_, ?_, fun fx hfx => ?_⟩
      · exact iff_of_false (by simp [hres]) fun h => h.2.2 (hq h.2.1)
      · exact iff_of_true ⟨_, hres⟩ ⟨hd, hq⟩
      · obtain ⟨hreadq, hreadr, hflags⟩ :=
          replay_divisionEffects hw m.state (.ofInt 64 q) (.ofInt 64 r)
        rw [← state_of_ok hres] at hreadq hreadr hflags
        cases hres.symm.trans hfx
        obtain ⟨hn, hlt, hsign⟩ := tdiv_tmod_spec n hd
        have hr : e.sign.InRange e.width r :=
          Sign.inRange_tmod (fun hu => RegFile.dividend_nonneg hu) hd
        have hword : ∀ k : Int,
            ((e.width.trunc (.ofInt 64 k)).toNat : Int) = k % 2 ^ e.width.bits := fun k =>
          Width.scalarBits_eq_bits hw ▸ Width.toNat_trunc_ofInt e.width k
        exact ⟨_, _, rfl, hreadq, hreadr, hword q,
          fun hc => Sign.value_trunc_ofInt (hfits.mpr (hq hc)), hword r,
          Sign.value_trunc_ofInt hr, hn, hlt, hsign, hflags⟩

/-- The form IDIV of a general purpose register at 64 bits, as an entry of a table. -/
def idivEntry : Entry where
  key := ⟨"IDIV", "GPRv", .w64⟩
  name := "IDIV_GPRv_64"
  op := .divAcc
  sign := .signed
  width := .w64
  shape := [.r]
  mode := .long
  extension := .base

theorem get?_idivEntry {tab : Table} {o : Options} (hb : Table.build Rows.all o = .ok tab)
    (hlong : o.longMode) : tab.get? "IDIV_GPRv_64" = some idivEntry := by
  have hr : { stem := "IDIV_GPRv", op := .divAcc, sign := .signed, shape := [.r],
              sizes := .scalars } ∈ Rows.all := by
    decide +kernel
  exact Table.get?_of_ofRow (p := (.w64, .long)) hb hr (by
    simp [Row.instances, Extension.included, Row.expansion, Sizes.widths, Row.modeAt, Mode.applies,
      hlong])
    rfl

/-- Without the checks, the least dividend can be divided by -1. The quotient `2 ^ 127` leaves its
low bits. -/
theorem division_exact_least :
    let regs := (({} : RegFile).set .rdx (.intMin 64)).set .rbx (.allOnes 64)
    let m : Machine := { state := { regs }, options := { noDivChecks := true } }
    let r := m.execEntry idivEntry [.reg (Gpr.rbx.view .w64)]
    regs.dividend .signed .w64 = -2 ^ 127 ∧ (∃ fx, r.result = .ok fx) ∧
      r.machine.state.regs.read (Gpr.rax.view .w64) = 0 ∧
      r.machine.state.regs.read (Gpr.rdx.view .w64) = 0 := by
  intro regs m r
  obtain ⟨tab, hb⟩ := Table.exists_build m.options
  have hn : regs.dividend .signed .w64 = -2 ^ 127 := by decide +kernel
  have hd : Sign.signed.value .w64 (.allOnes 64) = -1 := rfl
  have hmn : idivEntry.key.mnemonic = Sign.signed.divide := rfl
  obtain ⟨-, -, hok, hres⟩ :=
    division_exact (m := m) (c := .entry idivEntry [.reg (Gpr.rbx.view .w64)]) (e := idivEntry)
      (l := .ofWord (.allOnes 64)) hb (get?_idivEntry hb rfl) hmn rfl rfl rfl rfl rfl
  obtain ⟨fx, hfx⟩ := hok.mpr ⟨by decide, nofun⟩
  obtain ⟨vq, vr, -, hq, hr, hvq, -, hvr, -⟩ := hres fx hfx
  change (vq.toNat : Int) = (regs.dividend .signed .w64).tdiv
    (Sign.signed.value .w64 (.allOnes 64)) % 2 ^ 64 at hvq
  change (vr.toNat : Int) = (regs.dividend .signed .w64).tmod
    (Sign.signed.value .w64 (.allOnes 64)) % 2 ^ 64 at hvr
  rw [hn, hd] at hvq hvr
  obtain rfl : vq = 0 := BitVec.eq_of_toNat_eq (Int.ofNat_inj.mp (hvq.trans (by decide)))
  obtain rfl : vr = 0 := BitVec.eq_of_toNat_eq (Int.ofNat_inj.mp (hvr.trans (by decide)))
  exact ⟨hn, ⟨fx, hfx⟩, hq.trans rfl, hr.trans rfl⟩

end Machine

end X86
