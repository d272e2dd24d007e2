import X86.Proofs.Packed

/-!
# Comparisons

CMP subtracts its operands and keeps only the flags. The carry and zero flags tell the order of the
operands as numbers without a sign. The order as signed numbers shows where the sign and overflow
flags differ, although the difference may leave the signed range.

* `Table.Offers`, `State.Gives`: forms that take some operands, and the values of operands;
* `Terms.flag_cf_difference`, `Terms.flag_zf_difference`, `Terms.sign_ne_overflow_difference`: the
  flags of a difference and the order of its terms;
* `Flags.Says`, `Flags.says_iff`: the order that the flags tell;
* `Machine.exec_compare`: what a comparison leaves;
* **`Machine.compare_exact`**: comparisons decide both orders.
-/

namespace X86

/-! ## Forms and values -/

/-- An entry of a table has some mnemonic and width, and its form takes the operands. -/
def Table.Offers (t : Table) (name mn : String) (w : Width) (ops : List Operand) : Prop :=
  ∃ e, t.get? name = some e ∧ e.key.mnemonic = mn ∧ e.width = w ∧ e.shape.check ops = .ok ()

/-- An operand fits a word and can be read, and a word is what its low bits are. -/
def State.Gives (s : State) (w : Width) (x : Operand) (a : Word) : Prop :=
  x.width.isScalar ∧ ∃ l, s.read x = .ok l ∧ w.trunc l.low = a

theorem State.Gives.toNat_lt {s : State} {w : Width} {x : Operand} {a : Word} (hw : w.isScalar)
    (h : s.Gives w x a) : a.toNat < 2 ^ w.bits := by
  obtain ⟨-, l, -, rfl⟩ := h
  exact Width.scalarBits_eq_bits hw ▸ w.toNat_trunc_lt _

theorem Invocation.run_scalar_begin {i : Invocation} {s : State} {o : Options} {k : Nat}
    {a : Word} :
    (i.scalar k).run (.begin s o) = .ok a ↔ ∃ x, i.operands[k]? = some x ∧ s.Gives i.width x a := by
  rw [run_scalar]
  refine exists_congr fun x => and_congr_right fun _ => ?_
  constructor
  · rintro ⟨u, hu, rfl⟩
    obtain ⟨hs, l, hl, rfl⟩ := Transaction.read_begin.mp hu
    exact ⟨hs, l, hl, rfl⟩
  · rintro ⟨hs, l, hl, rfl⟩
    exact ⟨_, Transaction.read_begin.mpr ⟨hs, l, hl, rfl⟩, rfl⟩

/-! ## The flags of a difference -/

namespace Terms

variable {w : Width} {a b : Word}

/-- The difference of two words. -/
def difference (a b : Word) : Terms :=
  ⟨true, a, b, false⟩

/-- The assignment of all flags. -/
def update (x : Terms) (w : Width) : FlagUpdate :=
  FlagName.all.map fun n => (n, .ofBool (x.flag w n))

theorem exact_difference (s : Sign) (w : Width) (a b : Word) :
    (difference a b).exact s w = s.value w a - s.value w b :=
  sub_zero _

variable (hw : w.isScalar) (ha : a.toNat < 2 ^ w.bits) (hb : b.toNat < 2 ^ w.bits)

include hw ha in
theorem unsigned_of_lt : Sign.unsigned.value w a = a.toNat := by
  rw [Sign.value, Width.trunc_of_lt (Width.scalarBits_eq_bits hw ▸ ha)]

include hw ha hb

theorem flag_cf_difference : (difference a b).flag w .cf = decide (a.toNat < b.toNat) := by
  have hN : ((2 ^ w.bits : Nat) : Int) = 2 ^ w.bits := by push_cast; rfl
  rw [flag, exact_difference, unsigned_of_lt hw ha, unsigned_of_lt hw hb, decide_eq_decide]
  omega

theorem flag_zf_difference : (difference a b).flag w .zf = decide (a = b) := by
  have hN : ((2 ^ w.bits : Nat) : Int) = 2 ^ w.bits := by push_cast; rfl
  rw [flag, exact_difference, unsigned_of_lt hw ha, unsigned_of_lt hw hb, decide_eq_decide,
    ← BitVec.toNat_inj, ← Int.emod_eq_emod_iff_emod_sub_eq_zero,
    Int.emod_eq_of_lt (by omega) (by omega), Int.emod_eq_of_lt (by omega) (by omega)]
  omega

/-- **The sign and overflow flags differ** when the first signed number is the smaller one. -/
theorem sign_ne_overflow_difference :
    (difference a b).flag w .sf ≠ (difference a b).flag w .of ↔ w.signed a < w.signed b := by
  rw [sign_ne_overflow_iff hw ⟨ha, hb⟩, exact_difference]
  exact sub_neg

end Terms

/-! ## The order that the flags tell -/

/-- The carry and zero flags tell that a number is below, equal to or above another one. For signed
numbers it is the sign and overflow flags that tell which one is less. -/
def Flags.Says (f : Flags) : Sign → Ordering → Prop
  | .unsigned, .lt => f.cf = .set
  | .unsigned, .gt => f.cf = .clear ∧ f.zf = .clear
  | .signed, .lt => f.sf ≠ f.of
  | .signed, .gt => f.zf = .clear ∧ f.sf = f.of
  | _, .eq => f.zf = .set

theorem Flag.ofBool_eq_clear {b : Bool} : ofBool b = .clear ↔ ¬ b := by
  cases b <;> decide

theorem Flag.ofBool_inj {b c : Bool} : ofBool b = ofBool c ↔ b = c := by
  cases b <;> cases c <;> decide

theorem Sign.value_inj {s : Sign} {w : Width} {a b : Word} (ha : w.trunc a = a)
    (hb : w.trunc b = b) : s.value w a = s.value w b ↔ a = b := by
  refine ⟨fun h => ?_, fun h => h ▸ rfl⟩
  rw [← ha, ← hb, ← s.trunc_ofInt_value, h, s.trunc_ofInt_value]

/-- **The flags of a difference tell the order** of its terms. -/
theorem Flags.says_iff {f : Flags} {w : Width} {a b : Word} (hw : w.isScalar)
    (ha : a.toNat < 2 ^ w.bits) (hb : b.toNat < 2 ^ w.bits)
    (hf : ∀ n, f.get n = .ofBool ((Terms.difference a b).flag w n)) (s : Sign) (c : Ordering) :
    f.Says s c ↔ compare (s.value w a) (s.value w b) = c := by
  have hcf : f.cf = .ofBool _ := (hf .cf).trans (congrArg _ (Terms.flag_cf_difference hw ha hb))
  have hzf : f.zf = .ofBool _ := (hf .zf).trans (congrArg _ (Terms.flag_zf_difference hw ha hb))
  have hsf : f.sf ≠ f.of ↔ w.signed a < w.signed b := by
    rw [show f.sf = _ from hf .sf, show f.of = _ from hf .of, ne_eq, Flag.ofBool_inj]
    exact Terms.sign_ne_overflow_difference hw ha hb
  have heq : s.value w a = s.value w b ↔ a = b := by
    rw [← Width.scalarBits_eq_bits hw] at ha hb
    exact Sign.value_inj (Width.trunc_of_lt ha) (Width.trunc_of_lt hb)
  cases c with
  | eq =>
    rw [compare_eq_iff_eq, heq]
    cases s <;> simp [Says, hzf, Flag.ofBool_eq_set]
  | lt =>
    rw [compare_lt_iff_lt]
    cases s with
    | unsigned =>
      rw [Terms.unsigned_of_lt hw ha, Terms.unsigned_of_lt hw hb, Says, hcf, Flag.ofBool_eq_set,
        decide_eq_true_eq, Nat.cast_lt]
    | signed => exact hsf
  | gt =>
    rw [compare_gt_iff_gt]
    cases s with
    | unsigned =>
      rw [Terms.unsigned_of_lt hw ha, Terms.unsigned_of_lt hw hb, Says, hcf, hzf,
        Flag.ofBool_eq_clear, Flag.ofBool_eq_clear, decide_eq_true_eq, decide_eq_true_eq,
        ← BitVec.toNat_inj, Nat.cast_lt]
      omega
    | signed =>
      have hge : f.sf = f.of ↔ ¬ w.signed a < w.signed b := by rw [← hsf, not_ne_iff]
      rw [Says, hzf, hge, Flag.ofBool_eq_clear, decide_eq_true_eq, ← heq]
      change w.signed a ≠ w.signed b ∧ ¬ w.signed a < w.signed b ↔ w.signed b < w.signed a
      omega

/-! ## Comparisons -/

theorem Invocation.run_compare {i : Invocation} {s : State} {o : Options} {a b : Word}
    (hw : i.width.isScalar) (hx : (i.scalar 0).run (.begin s o) = .ok a)
    (hy : (i.scalar 1).run (.begin s o) = .ok b) :
    i.compare.run (.begin s o) =
      .ok [.barrier .compiler, .assign ((Terms.difference a b).update i.width)] := by
  have hf : (Terms.difference a b).Fits i.width :=
    ⟨(State.source?_of_run hw hx).2, (State.source?_of_run hw hy).2⟩
  refine Fetch.run_bind_eq_ok.mpr ⟨a, hx, Fetch.run_bind_eq_ok.mpr ⟨b, hy, ?_⟩⟩
  rw [Terms.update, ← Terms.arith_eq hw hf, Terms.carryChain_of_carry rfl, Terms.word_of_carry rfl]
  rfl

namespace Machine

variable {m : Machine} {o : Options} {name : String} {w : Width} {x y : Operand} {a b : Word}

/-- **A comparison assigns the flags of the difference** and does nothing else. -/
theorem exec_compare (hb : Table.build Rows.all o = .ok m.table)
    (hf : m.table.Offers name "CMP" w [x, y]) (hx : m.state.Gives w x a)
    (hy : m.state.Gives w y b) :
    let r := m.exec name [x, y]
    w.isScalar ∧ r.succeeded ∧ r.machine = { m with
      state := m.state.assign ((Terms.difference a b).update w), executed := m.executed + 1 } := by
  intro r
  obtain ⟨e, he, hmn, rfl, hc⟩ := hf
  have hcmp : ("CMP", Op.cmp) ∈ Op.named := by decide
  obtain ⟨hop, hw⟩ := Table.op_of_named hb he hmn hcmp
  have ht : m.transact e [x, y] = (Transaction.begin m.state m.options).perform
      [.barrier .compiler, .assign ((Terms.difference a b).update e.width)] := by
    refine Op.eval_of_run ?_
    rw [hop]
    exact Invocation.run_compare (i := e.invoke [x, y]) hw
      (Invocation.run_scalar_begin.mpr ⟨x, rfl, hx⟩) (Invocation.run_scalar_begin.mpr ⟨y, rfl, hy⟩)
  obtain ⟨t, hp, -, hs⟩ := Transaction.exists_perform_assign m.state m.options .compiler
    ((Terms.difference a b).update e.width)
  rw [show r = m.call (.entry e [x, y]) from exec_of_get? he _, ← hs]
  exact ⟨hw, call_of_transact (c := .entry e [x, y]) rfl hc (ht.trans hp)⟩

/-- **Comparisons decide both orders.** On two operands that fit words and can be read, CMP is
executed and changes only the flags, none of which ends undefined. With `a` and `b` for the low bits
of the operands, the carry flag tells that `a` is below `b` without signs, the zero flag that they
are equal, and the sign and overflow flags differ where `a` is less as a signed number. So of below,
equal and above the flags say exactly one, and of less, equal and greater too, and it is the right
one. Comparing the operands the other way round turns what the flags say around. -/
theorem compare_exact (hb : Table.build Rows.all o = .ok m.table)
    (hf : m.table.Offers name "CMP" w [x, y]) (hx : m.state.Gives w x a)
    (hy : m.state.Gives w y b) :
    let s := m.state
    let r := m.exec name [x, y]
    let f := r.machine.state.regs.flags
    r.succeeded ∧
      r.machine = { m with
        state := { s with regs := { s.regs with flags := f } }, executed := m.executed + 1 } ∧
      (∀ n, f.get n ≠ .undefined) ∧
      (f.cf = .set ↔ a.toNat < b.toNat) ∧ (f.zf = .set ↔ a = b) ∧
      (f.sf ≠ f.of ↔ w.signed a < w.signed b) ∧
      (∀ sg, ∃! c, f.Says sg c) ∧
      (∀ sg c, f.Says sg c ↔ compare (sg.value w a) (sg.value w b) = c) ∧
      ∀ name' x' y', m.table.Offers name' "CMP" w [x', y'] → s.Gives w x' b → s.Gives w y' a →
        let f' := (m.exec name' [x', y']).machine.state.regs.flags
        ∀ sg c, f'.Says sg c ↔ f.Says sg c.swap := by
  intro s r f
  obtain ⟨hw, hok, hm⟩ := exec_compare hb hf hx hy
  have ha := hx.toNat_lt hw
  have hb' := hy.toNat_lt hw
  have hflag (n : FlagName) : f.get n = .ofBool ((Terms.difference a b).flag w n) :=
    (congrArg (·.state.regs.flags.get n) hm).trans (State.get_assign_all _ _ n)
  have hord := Flags.says_iff hw ha hb' hflag
  refine ⟨hok, ?_, fun n => hflag n ▸ Flag.ofBool_ne_undefined _, ?_, ?_, ?_, fun sg => ?_, hord,
    fun name' x' y' hf' hx' hy' => ?_⟩
  · rw [show f = _ from congrArg (·.state.regs.flags) hm]
    exact hm
  · rw [show f.cf = _ from hflag .cf, Flag.ofBool_eq_set, Terms.flag_cf_difference hw ha hb',
      decide_eq_true_eq]
  · rw [show f.zf = _ from hflag .zf, Flag.ofBool_eq_set, Terms.flag_zf_difference hw ha hb',
      decide_eq_true_eq]
  · rw [show f.sf = _ from hflag .sf, show f.of = _ from hflag .of, ne_eq, Flag.ofBool_inj]
    exact Terms.sign_ne_overflow_difference hw ha hb'
  · exact ⟨_, (hord sg _).mpr rfl, fun c hc => ((hord sg c).mp hc).symm⟩
  · intro f' sg c
    obtain ⟨-, -, hm'⟩ := exec_compare hb hf' hx' hy'
    have hord' := Flags.says_iff (f := f') hw hb' ha fun n =>
      (congrArg (·.state.regs.flags.get n) hm').trans (State.get_assign_all _ _ n)
    rw [hord', hord, Std.OrientedOrd.eq_swap (a := sg.value w b)]
    exact ⟨fun h => h ▸ (Ordering.swap_swap).symm, fun h => h ▸ Ordering.swap_swap⟩

/-- The form CMP of a byte register and an immediate value, as an entry of a table. -/
def cmpEntry : Entry where
  key := ⟨"CMP", "GPR8_IMMb_80r7", .w8⟩
  name := "CMP_GPR8_IMMb_80r7_8"
  op := .cmp
  sign := .unsigned
  width := .w8
  shape := [.r, .i]
  mode := .any
  extension := .base

/-- AL, which is zero at the start, is below 128, but greater than the signed number that a byte
with the same bits stands for. -/
theorem compare_exact_least : ∃ t, Table.build Rows.all {} = .ok t ∧
    let m : Machine := { table := t }
    let r := m.exec "CMP_GPR8_IMMb_80r7_8" [.reg (.gpr .rax .low8), .imm 128 .w8]
    r.succeeded ∧ r.machine.state.regs.flags.Says .unsigned .lt ∧
      r.machine.state.regs.flags.Says .signed .gt := by
  obtain ⟨t, ht⟩ := Table.exists_build {}
  refine ⟨t, ht, ?_⟩
  intro m r
  have hr : { stem := "CMP_GPR8_IMMb_80r7", op := .cmp, shape := [.r, .i], sizes := .byte } ∈
      Rows.all := by
    decide +kernel
  have hf : m.table.Offers "CMP_GPR8_IMMb_80r7_8" "CMP" .w8
      [.reg (.gpr .rax .low8), .imm 128 .w8] :=
    ⟨cmpEntry, Table.get?_of_ofRow (p := (.w8, .any)) ht hr (by decide) rfl, rfl, rfl, rfl⟩
  have hx : m.state.Gives .w8 (.reg (.gpr .rax .low8)) 0 := ⟨rfl, _, rfl, rfl⟩
  have hy : m.state.Gives .w8 (.imm 128 .w8) 128 := ⟨rfl, _, rfl, rfl⟩
  obtain ⟨hok, -, -, -, -, -, -, hord, -⟩ := compare_exact ht hf hx hy
  exact ⟨hok, (hord .unsigned .lt).mpr (by decide), (hord .signed .gt).mpr (by decide)⟩

end Machine

end X86
