import X86.Proofs.Comparison
import X86.Proofs.Frame
import X86.Proofs.Order

/-!
# Families that agree

Some instructions are special cases of others: ADC and SBB without a carry are ADD and SUB, INC and
DEC add and subtract one, and NEG subtracts from zero. CMP and TEST keep only the flags of SUB and
AND. Each is formed in its own way, but where both are executed they have the same effects.

* `Effect.assignment?`, `Effect.flags_replay`: the flags that effects assign;
* `Invocation.combineCarry_agrees`, `Invocation.stepBy_agrees`, `Invocation.negate_agrees`,
  `Invocation.compare_agrees`, `Invocation.testBits_agrees`: the actions of two families;
* `Machine.exists_run_of_succeeded`: what an executed entry with a known operation does;
* `Machine.bitwise_of_succeeded`: what AND, OR and XOR leave;
* `Machine.Relates`, `Machine.relates_of_run`: two families, related by what they do;
* **`Machine.families_agree`**: the effects of executed instructions of two families.
-/

namespace X86

/-! ## Flags that are assigned -/

/-- The flag that an effect assigns, with its value. -/
def Effect.assignment? : Effect → Option (FlagName × Flag)
  | setFlag n v => some (n, v)
  | _ => none

theorem Effect.flags_replay (s : State) (fx : List Effect) :
    (replay s fx).regs.flags = s.regs.flags.assign (fx.filterMap assignment?) := by
  induction fx generalizing s with
  | nil => rfl
  | cons f fx ih =>
    change (replay (act s f) fx).regs.flags = _
    rw [ih]
    cases f with
    | writeReg r v => cases r <;> rfl
    | writeMem x v | barrier b | setFlag n v => rfl

theorem Action.assignments_effects (as : List Action) :
    (as.flatMap effects).filterMap Effect.assignment? = as.flatMap update := by
  induction as with
  | nil => rfl
  | cons a as ih =>
    rw [List.flatMap_cons, List.filterMap_append, ih, List.flatMap_cons]
    congr 1
    cases a with
    | write x v => cases x <;> rfl
    | barrier b => rfl
    | assign u =>
      rw [effects, update, List.filterMap_map]
      exact List.filterMap_some

theorem Width.trunc_and (w : Width) (u v : Word) : w.trunc (w.trunc u &&& w.trunc v) =
    w.trunc (u &&& v) := by
  apply BitVec.eq_of_getLsbD_eq
  intro i _
  simp only [getLsbD_trunc, BitVec.getLsbD_and]
  by_cases hi : i < w.scalarBits <;> simp [hi]

theorem Terms.filter_effects_actions (x : Terms) (w : Width) (dst : Operand) :
    ((x.actions w dst FlagName.all).flatMap Action.effects).filter (fun f => f.mark ≠ .flag .cf) =
      (x.actions w dst (FlagName.all.erase .cf)).flatMap Action.effects := by
  cases dst <;> rfl

/-! ## The actions of two families -/

namespace State

variable {s : State} {w : Width} {x : Operand} {a b : Word}

theorem Gives.source? {ops : List Operand} {k : Nat} (hx : ops[k]? = some x)
    (h : s.Gives w x a) : s.source? w ops k = some a := by
  obtain ⟨-, l, hl, rfl⟩ := h
  rw [State.source?, hx, Option.bind_eq_bind, Option.bind_some, hl]
  rfl

theorem gives_imm_one {iw : Width} (hi : iw.isScalar) : s.Gives w (.imm 1 iw) 1 := by
  refine ⟨hi, _, rfl, ?_⟩
  rw [Lanes.low_ofWord]
  cases iw <;> cases w <;> rfl

end State

namespace Invocation

variable {s : State} {o : Options} {w : Width} {sg sg' : Sign} {ops : List Operand}
  {d x y z : Operand} {as as' : List Action}

theorem combineCarry_agrees (sub : Bool) (hw : w.isScalar) (hcf : s.regs.flags.cf = .clear)
    (h : (combineCarry ⟨w, sg, ops⟩ (if sub then .sub else .add)).run (.begin s o) = .ok as)
    (h' : (combine ⟨w, sg', ops⟩ (if sub then .sub else .add)).run (.begin s o) = .ok as') :
    as = as' := by
  obtain ⟨a, b, c, dst, ha, hb, hc, hd, -, rfl⟩ := combineCarry_eq sub hw h
  obtain ⟨a', b', dst', ha', hb', hd', -, rfl⟩ := combine_eq sub hw h'
  cases ha.symm.trans ha'
  cases hb.symm.trans hb'
  cases hd.symm.trans hd'
  have hclear : s.carry? o = some false := by
    rw [State.carry?, hcf]
    rfl
  cases hc.symm.trans hclear
  rfl

theorem stepBy_agrees (sub : Bool) {iw : Width} (hw : w.isScalar)
    (h : (stepBy ⟨w, sg, [d, x]⟩ (if sub then .sub else .add)).run (.begin s o) = .ok as)
    (h' : (combine ⟨w, sg', [d, x, .imm 1 iw]⟩ (if sub then .sub else .add)).run (.begin s o) =
      .ok as') :
    as.flatMap Action.effects =
      (as'.flatMap Action.effects).filter fun f => f.mark ≠ .flag .cf := by
  have hone : (scalar ⟨w, sg', [d, x, .imm 1 iw]⟩ 2).run (.begin s o) = .ok 1 := by
    obtain ⟨_, -, h'⟩ := Fetch.run_bind_eq_ok.mp h'
    obtain ⟨b, hb, -⟩ := Fetch.run_bind_eq_ok.mp h'
    obtain ⟨_, hy, hi, -⟩ := run_scalar_begin.mp hb
    cases hy
    exact run_scalar_begin.mpr ⟨_, rfl, State.gives_imm_one hi⟩
  obtain ⟨a, dst, ha, hd, -, rfl⟩ := stepBy_eq sub hw h
  obtain ⟨a', b', dst', ha', hb', hd', -, rfl⟩ := combine_eq sub hw h'
  cases ha.symm.trans ha'
  cases (State.source?_of_scalar hone).symm.trans hb'
  cases hd.symm.trans hd'
  exact (Terms.filter_effects_actions _ _ _).symm

theorem negate_agrees (hw : w.isScalar) (hz : s.Gives w z 0)
    (h : (negate ⟨w, sg, [d, x]⟩).run (.begin s o) = .ok as)
    (h' : (combine ⟨w, sg', [d, z, x]⟩ .sub).run (.begin s o) = .ok as') : as = as' := by
  obtain ⟨b, dst, hb, hd, -, rfl⟩ := negate_eq hw h
  obtain ⟨a', b', dst', ha', hb', hd', -, rfl⟩ := combine_eq true hw h'
  cases (hz.source? rfl).symm.trans ha'
  cases hb.symm.trans hb'
  cases hd.symm.trans hd'
  rfl

theorem compare_agrees (hw : w.isScalar)
    (h : (compare ⟨w, sg, [x, y]⟩).run (.begin s o) = .ok as)
    (h' : (combine ⟨w, sg', [d, x, y]⟩ .sub).run (.begin s o) = .ok as') :
    (as.flatMap Action.effects).filterMap Effect.assignment? =
      (as'.flatMap Action.effects).filterMap Effect.assignment? := by
  obtain ⟨a, ha, hrest⟩ := Fetch.run_bind_eq_ok.mp h
  obtain ⟨b, hb, -⟩ := Fetch.run_bind_eq_ok.mp hrest
  cases h.symm.trans (run_compare hw ha hb)
  obtain ⟨a', b', dst', ha', hb', hd', -, rfl⟩ := combine_eq true hw h'
  cases (State.source?_of_scalar ha).symm.trans ha'
  cases (State.source?_of_scalar hb).symm.trans hb'
  rw [Action.assignments_effects, Action.assignments_effects]
  rfl

theorem bitwise_eq {f : Word → Word → Word}
    (h : (bitwise ⟨w, sg, ops⟩ f).run (.begin s o) = .ok as) :
    ∃ x y a b dst, ops[1]? = some x ∧ ops[2]? = some y ∧ s.Gives w x a ∧ s.Gives w y b ∧
      ops[0]? = some dst ∧ as = [.write dst (.ofWord (w.trunc (f a b))), .barrier .compiler,
        .assign (.logical w (w.trunc (f a b)))] := by
  obtain ⟨a, ha, h⟩ := Fetch.run_bind_eq_ok.mp h
  obtain ⟨b, hb, h⟩ := Fetch.run_bind_eq_ok.mp h
  obtain ⟨dst, hd, h⟩ := Fetch.run_bind_eq_ok.mp h
  obtain ⟨x, hx, ha⟩ := run_scalar_begin.mp ha
  obtain ⟨y, hy, hb⟩ := run_scalar_begin.mp hb
  cases h
  exact ⟨x, y, a, b, dst, hx, hy, ha, hb, run_operand.mp hd, rfl⟩

theorem run_scalar_of_word {i : Invocation} {t : Transaction} {k : Nat} {v : Word}
    (h : (i.word k).run t = .ok v) : (i.scalar k).run t = .ok (i.width.trunc v) :=
  Fetch.run_bind_eq_ok.mpr ⟨v, h, rfl⟩

theorem testBits_agrees (h : (testBits ⟨w, sg, [x, y]⟩).run (.begin s o) = .ok as)
    (h' : (bitwise ⟨w, sg', [d, x, y]⟩ (· &&& ·)).run (.begin s o) = .ok as') :
    (as.flatMap Action.effects).filterMap Effect.assignment? =
      (as'.flatMap Action.effects).filterMap Effect.assignment? := by
  obtain ⟨u, hu, h⟩ := Fetch.run_bind_eq_ok.mp h
  obtain ⟨v, hv, h⟩ := Fetch.run_bind_eq_ok.mp h
  cases h
  obtain ⟨x', y', a, b, dst, hx, hy, ha, hb, hd, rfl⟩ := bitwise_eq h'
  cases hx
  cases hy
  cases (State.source?_of_scalar (run_scalar_of_word hu)).symm.trans (ha.source? rfl)
  cases (State.source?_of_scalar (run_scalar_of_word hv)).symm.trans (hb.source? rfl)
  rw [Action.assignments_effects, Action.assignments_effects]
  -- TEST does not cut its sources before it joins them.
  change FlagUpdate.logical w _ = FlagUpdate.logical w _
  rw [Width.trunc_and]

end Invocation

namespace Machine

variable {m : Machine} {o : Options} {w : Width} {name mn : String} {ops : List Operand}

/-! ## Executed entries -/

/-- **An executed entry** whose mnemonic tells its operation does what the operation does. -/
theorem exists_run_of_succeeded (hb : Table.build Rows.all o = .ok m.table) {op : Op}
    (hop : (mn, op) ∈ Op.named) (hf : m.table.Offers name mn w ops)
    (hok : (m.exec name ops).succeeded) :
    w.isScalar ∧ ∃ sg as t,
      (op.actions m.options ⟨w, sg, ops⟩).run (.begin m.state m.options) = .ok as ∧
      (Transaction.begin m.state m.options).perform as = .ok t ∧
      (m.exec name ops).effects = as.flatMap Action.effects := by
  obtain ⟨e, he, hmn, rfl, -⟩ := hf
  obtain ⟨rfl, hw⟩ := Table.op_of_named hb he hmn hop
  obtain ⟨fx, hfx⟩ := Response.succeeded_iff.mp hok
  obtain ⟨e', t, hs, -, ht, rfl, -, -⟩ := call_of_ok (c := .key name ops) hfx
  obtain rfl : e = e' := by
    have hl : m.table.lookup name = .ok e := by rw [Table.lookup, he]
    exact Except.ok.inj (hl.symm.trans hs)
  obtain ⟨as, has, hperf⟩ := Op.eval_eq_ok_iff.mp ht
  refine ⟨hw, e.sign, as, t, has, hperf, ?_⟩
  rw [Response.effects, hfx]
  exact Transaction.effects_perform hperf

/-- **AND, OR and XOR** write their result and assign its flags, whatever the flags were. -/
theorem bitwise_of_succeeded (hb : Table.build Rows.all o = .ok m.table) (op : Op)
    {g : Word → Word → Word} (hact : ∀ o i, op.actions o i = i.bitwise g)
    (hop : (mn, op) ∈ Op.named) {d x y : Operand} (hf : m.table.Offers name mn w [d, x, y])
    (hok : (m.exec name [d, x, y]).succeeded) :
    let r := m.exec name [d, x, y]
    let f := r.machine.state.regs.flags
    ∃ a b e, m.state.Gives w x a ∧ m.state.Gives w y b ∧
      let v := w.trunc (g a b)
      d.writing (.ofWord v) = some e ∧ e ∈ r.effects ∧
        f.cf = .clear ∧ f.of = .clear ∧ f.af = .undefined ∧ f.zf = .ofBool (v = 0) ∧
        f.sf = .ofBool (v.getLsbD (w.bits - 1)) ∧
        f.pf = .ofBool ((List.range 8).countP (v.getLsbD ·) % 2 = 0) := by
  intro r f
  obtain ⟨hw, sg, as, t, has, hperf, hfx⟩ := exists_run_of_succeeded hb hop hf hok
  rw [hact] at has
  obtain ⟨_, _, a, b, _, hx, hy, ha, hb', hd, rfl⟩ := Invocation.bitwise_eq has
  cases hx
  cases hy
  cases hd
  obtain ⟨e, he⟩ := Transaction.exists_writing_of_perform hperf List.mem_cons_self
  refine ⟨a, b, e, ha, hb', ?_⟩
  intro v
  have hmem : e ∈ r.effects := by
    rw [show r.effects = _ from hfx, List.flatMap_cons, Action.effects, he]
    exact List.mem_cons_self
  have hflags : f = m.state.regs.flags.assign (.logical w v) := by
    rw [show f = _ from congrArg (·.regs.flags) (state_exec _ _ _), Effect.flags_replay, hfx,
      Action.assignments_effects]
    rfl
  have hz : isZero w v = decide (v = 0) := by
    rw [isZero, Width.trunc_trunc, Bool.eq_iff_iff, beq_iff_eq, decide_eq_true_eq]
  rw [hflags, ← hz, ← Width.scalarBits_eq_bits hw]
  exact ⟨he, hmem, rfl, rfl, rfl, rfl, rfl, rfl⟩

/-! ## Two families -/

/-- Whenever an entry with one mnemonic and an entry with another one are both executed on their
operands at some width, what comes of them is related. -/
def Relates (m : Machine) (w : Width) (mn : String) (ops : List Operand) (mn' : String)
    (ops' : List Operand) (R : Response → Response → Prop) : Prop :=
  ∀ name name', m.table.Offers name mn w ops → m.table.Offers name' mn' w ops' →
    (m.exec name ops).succeeded → (m.exec name' ops').succeeded →
      R (m.exec name ops) (m.exec name' ops')

section

variable {mn' : String} {ops' : List Operand}

theorem Relates.and_machine
    (h : m.Relates w mn ops mn' ops' fun r r' => r.effects = r'.effects) :
    m.Relates w mn ops mn' ops' fun r r' => r.effects = r'.effects ∧ r.machine = r'.machine := by
  intro name name' hf hf' hok hok'
  have hfx := h name name' hf hf' hok hok'
  exact ⟨hfx, machine_call_congr (c := .key name ops) (d := .key name' ops') hfx
    (hok.trans hok'.symm)⟩

theorem Relates.and_flags (h : m.Relates w mn ops mn' ops' fun r r' =>
      r.effects.filterMap Effect.assignment? = r'.effects.filterMap Effect.assignment?) :
    m.Relates w mn ops mn' ops' fun r r' =>
      r.effects.filterMap Effect.assignment? = r'.effects.filterMap Effect.assignment? ∧
        r.machine.state.regs.flags = r'.machine.state.regs.flags := by
  intro name name' hf hf' hok hok'
  have hfx := h name name' hf hf' hok hok'
  refine ⟨hfx, ?_⟩
  rw [state_exec, state_exec, Effect.flags_replay, Effect.flags_replay, hfx]

theorem relates_of_run (hb : Table.build Rows.all o = .ok m.table) (op op' : Op)
    (R : List Effect → List Effect → Prop)
    (h : w.isScalar → ∀ sg sg' as as',
      (op.actions m.options ⟨w, sg, ops⟩).run (.begin m.state m.options) = .ok as →
      (op'.actions m.options ⟨w, sg', ops'⟩).run (.begin m.state m.options) = .ok as' →
      R (as.flatMap Action.effects) (as'.flatMap Action.effects))
    (hop : (mn, op) ∈ Op.named) (hop' : (mn', op') ∈ Op.named) :
    m.Relates w mn ops mn' ops' fun r r' => R r.effects r'.effects := by
  intro name name' hf hf' hok hok'
  obtain ⟨hw, sg, as, -, has, -, hfx⟩ := exists_run_of_succeeded hb hop hf hok
  obtain ⟨-, sg', as', -, has', -, hfx'⟩ := exists_run_of_succeeded hb hop' hf' hok'
  rw [hfx, hfx']
  exact h hw sg sg' as as' has has'

end

/-- **Families agree.** Where both are executed, ADC and SBB with a clear carry flag have the
effects of ADD and SUB and leave the same machine. INC and DEC have the effects of ADD and SUB of
one, but for the assignment to the carry flag. NEG has the effects of SUB from a source that reads
zero. CMP assigns the flags that SUB assigns, and TEST those that AND assigns. AND, OR and XOR write
a result and leave its parity, zero and sign flags, with the carry and overflow flags clear and the
auxiliary carry flag undefined, whatever the flags were. -/
theorem families_agree (m : Machine) (hb : Table.build Rows.all o = .ok m.table) (w : Width) :
    (m.state.regs.flags.cf = .clear → ∀ p ∈ [("ADC", "ADD"), ("SBB", "SUB")], ∀ ops,
      m.Relates w p.1 ops p.2 ops fun r r' => r.effects = r'.effects ∧ r.machine = r'.machine) ∧
    (∀ p ∈ [("INC", "ADD"), ("DEC", "SUB")], ∀ d x iw,
      m.Relates w p.1 [d, x] p.2 [d, x, .imm 1 iw] fun r r' =>
        r.effects = r'.effects.filter fun f => f.mark ≠ .flag .cf) ∧
    (∀ d x z, m.state.Gives w z 0 →
      m.Relates w "NEG" [d, x] "SUB" [d, z, x] fun r r' => r.effects = r'.effects) ∧
    (∀ p ∈ [("CMP", "SUB"), ("TEST", "AND")], ∀ d x y,
      m.Relates w p.1 [x, y] p.2 [d, x, y] fun r r' =>
        r.effects.filterMap Effect.assignment? = r'.effects.filterMap Effect.assignment? ∧
          r.machine.state.regs.flags = r'.machine.state.regs.flags) ∧
    ∀ p ∈ [("AND", fun a b : Word => a &&& b), ("OR", fun a b => a ||| b),
        ("XOR", fun a b => a ^^^ b)],
      ∀ name d x y, m.table.Offers name p.1 w [d, x, y] → (m.exec name [d, x, y]).succeeded →
        let r := m.exec name [d, x, y]
        let f := r.machine.state.regs.flags
        ∃ a b e, m.state.Gives w x a ∧ m.state.Gives w y b ∧
          let v := w.trunc (p.2 a b)
          d.writing (.ofWord v) = some e ∧ e ∈ r.effects ∧
            f.cf = .clear ∧ f.of = .clear ∧ f.af = .undefined ∧ f.zf = .ofBool (v = 0) ∧
            f.sf = .ofBool (v.getLsbD (w.bits - 1)) ∧
            f.pf = .ofBool ((List.range 8).countP (v.getLsbD ·) % 2 = 0) := by
  refine ⟨fun hcf p hp ops => .and_machine ?_, fun p hp d x iw => ?_, fun d x z hz => ?_,
    fun p hp d x y => .and_flags ?_, fun p hp name d x y hf hok => ?_⟩
  · rcases List.mem_pair.mp hp with rfl | rfl
    · exact relates_of_run hb .adc .add Eq (fun hw _ _ _ _ h h' => congrArg _
        (Invocation.combineCarry_agrees false hw hcf h h')) (by decide) (by decide)
    · exact relates_of_run hb .sbb .sub Eq (fun hw _ _ _ _ h h' => congrArg _
        (Invocation.combineCarry_agrees true hw hcf h h')) (by decide) (by decide)
  · rcases List.mem_pair.mp hp with rfl | rfl
    · exact relates_of_run hb .inc .add (fun fx fx' => fx = fx'.filter fun f => f.mark ≠ .flag .cf)
        (fun hw _ _ _ _ => Invocation.stepBy_agrees false hw) (by decide) (by decide)
    · exact relates_of_run hb .dec .sub (fun fx fx' => fx = fx'.filter fun f => f.mark ≠ .flag .cf)
        (fun hw _ _ _ _ => Invocation.stepBy_agrees true hw) (by decide) (by decide)
  · exact relates_of_run hb .neg .sub Eq (fun hw _ _ _ _ h h' => congrArg _
      (Invocation.negate_agrees hw hz h h')) (by decide) (by decide)
  · rcases List.mem_pair.mp hp with rfl | rfl
    · exact relates_of_run hb .cmp .sub
        (fun fx fx' => fx.filterMap Effect.assignment? = fx'.filterMap Effect.assignment?)
        (fun hw _ _ _ _ => Invocation.compare_agrees hw) (by decide) (by decide)
    · exact relates_of_run hb .test .and
        (fun fx fx' => fx.filterMap Effect.assignment? = fx'.filterMap Effect.assignment?)
        (fun _ _ _ _ _ => Invocation.testBits_agrees) (by decide) (by decide)
  · simp only [List.mem_cons, List.not_mem_nil, or_false] at hp
    rcases hp with rfl | rfl | rfl
    · exact bitwise_of_succeeded hb .and (fun _ _ => rfl) (by decide) hf hok
    · exact bitwise_of_succeeded hb .or (fun _ _ => rfl) (by decide) hf hok
    · exact bitwise_of_succeeded hb .xor (fun _ _ => rfl) (by decide) hf hok

/-- The form DEC of a byte register, as an entry of a table. -/
def decEntry : Entry :=
  { incEntry with key := ⟨"DEC", "GPR8", .w8⟩, name := "DEC_GPR8_8", op := .dec }

/-- The form SUB of a byte register and an immediate value, as an entry of a table. -/
def subEntry : Entry :=
  { adcEntry with
    key := ⟨"SUB", "GPR8_IMMb_80r5", .w8⟩, name := "SUB_GPR8_IMMb_80r5_8", op := .sub }

/-- DEC of AL, which is zero at the start, does not tell of the borrow that SUB of one assigns. -/
theorem families_agree_dec : ∃ t, Table.build Rows.all {} = .ok t ∧
    let m : Machine := { table := t }
    let al : Reg := .gpr .rax .low8
    let r := m.exec "DEC_GPR8_8" [.regW al, .reg al]
    let r' := m.exec "SUB_GPR8_IMMb_80r5_8" [.regW al, .reg al, .imm 1 .w8]
    r.succeeded ∧ .setFlag .cf .set ∈ r'.effects ∧
      r.effects = r'.effects.filter fun f => f.mark ≠ .flag .cf := by
  obtain ⟨t, ht⟩ := Table.exists_build {}
  refine ⟨t, ht, ?_⟩
  intro m al r r'
  have hdec : { stem := "DEC_GPR8", op := .dec, shape := [.rw, .r], sizes := .byte } ∈
      Rows.all := by
    decide +kernel
  have hsub : { stem := "SUB_GPR8_IMMb_80r5", op := .sub, shape := [.rw, .r, .i], sizes := .byte } ∈
      Rows.all := by
    decide +kernel
  have hg : t.get? "DEC_GPR8_8" = some decEntry :=
    Table.get?_of_ofRow (p := (.w8, .any)) ht hdec (by decide) rfl
  have hg' : t.get? "SUB_GPR8_IMMb_80r5_8" = some subEntry :=
    Table.get?_of_ofRow (p := (.w8, .any)) ht hsub (by decide) rfl
  have hr : r = m.execEntry decEntry [.regW al, .reg al] := exec_of_get? hg _
  have hr' : r' = m.execEntry subEntry [.regW al, .reg al, .imm 1 .w8] := exec_of_get? hg' _
  have hok : r.succeeded := by rw [hr]; rfl
  have hok' : r'.succeeded := by rw [hr']; rfl
  refine ⟨hok, ?_, ?_⟩
  · rw [hr']
    exact List.mem_of_getElem? (i := 2) rfl
  · exact (families_agree m ht .w8).2.1 ("DEC", "SUB") (by simp) (.regW al) (.reg al) .w8 _ _
      ⟨_, hg, rfl, rfl, rfl⟩ ⟨_, hg', rfl, rfl, rfl⟩ hok hok'

end Machine

end X86
