import X86.Proofs.Fetch
import X86.Proofs.Run
import X86.Proofs.Selection
import X86.Proofs.Sum

/-!
# Additions and subtractions

ADD, SUB, ADC, SBB, INC, DEC, NEG and XADD form one sum or difference each. They write its low part
to their first operand and set the flags to those of the exact integer.

* `State.source?`, `State.carry?`: the values that these instructions join;
* `Table.mem_sums_iff`: the entries that are meant;
* `Op.terms?`: the terms that an instruction joins in a state;
* `Op.Joins`, `Op.joins`: what these instructions do with their terms;
* **`Machine.sum_exact`**: the effects of an executed addition or subtraction.
-/

namespace X86

/-! ## What is joined -/

/-- The low bits of the operand at a position. -/
def State.source? (s : State) (w : Width) (ops : List Operand) (k : Nat) : Option Word := do
  let op ← ops[k]?
  let l ← (s.read op).toOption
  return w.trunc l.low

/-- The carry flag, or what stands in for an undefined one. -/
def State.carry? (s : State) (o : Options) : Option Bool :=
  match s.regs.flags.cf.value?, o.undefinedRead with
  | some b, _ => some b
  | none, .clear => some false
  | none, .set => some true
  | none, .error => none

/-- The additions and subtractions with a destination. -/
def Op.sums : List Op :=
  [add, sub, adc, sbb, inc, dec, neg, xadd]

theorem Table.mem_sums_iff {t : Table} {o : Options} {name : String} {e : Entry}
    (h : Table.build Rows.all o = .ok t) (hg : t.get? name = some e) :
    e.op ∈ Op.sums ↔
      e.key.mnemonic ∈ ["ADD", "SUB", "ADC", "SBB", "INC", "DEC", "NEG", "XADD"] :=
  op_mem_iff h hg (by intro op s; cases op <;> cases s <;> decide)

theorem Op.mem_named_of_sums {op : Op} {s : Sign} {mn : String} (hop : op ∈ sums)
    (h : mn ∈ op.mnemonics s) : (mn, op) ∈ named ∧ (op = xadd ↔ mn = "XADD") ∧
      (op = inc ∨ op = dec ↔ mn = "INC" ∨ mn = "DEC") := by
  have key : op ∈ sums → ∀ mn ∈ op.mnemonics s, (mn, op) ∈ named ∧ (op = xadd ↔ mn = "XADD") ∧
      (op = inc ∨ op = dec ↔ mn = "INC" ∨ mn = "DEC") := by
    cases op <;> cases s <;> decide
  exact key hop mn h

/-- The terms that an addition or subtraction joins in a state. -/
def Op.terms? (op : Op) (w : Width) (s : State) (o : Options) (ops : List Operand) :
    Option Terms :=
  match op with
  | add => do return ⟨false, ← s.source? w ops 1, ← s.source? w ops 2, false⟩
  | sub => do return ⟨true, ← s.source? w ops 1, ← s.source? w ops 2, false⟩
  | adc => do return ⟨false, ← s.source? w ops 1, ← s.source? w ops 2, ← s.carry? o⟩
  | sbb => do return ⟨true, ← s.source? w ops 1, ← s.source? w ops 2, ← s.carry? o⟩
  | inc => do return ⟨false, ← s.source? w ops 1, 1, false⟩
  | dec => do return ⟨true, ← s.source? w ops 1, 1, false⟩
  | neg => do return ⟨true, 0, ← s.source? w ops 1, false⟩
  | xadd => do return ⟨false, ← s.source? w ops 1, ← s.source? w ops 3, false⟩
  | _ => none

/-- The flags that an addition or subtraction assigns: INC and DEC leave the carry flag alone. -/
def Op.sumFlags (op : Op) : List FlagName :=
  if op = inc ∨ op = dec then FlagName.all.erase .cf else FlagName.all

variable {s : State} {o : Options} {i : Invocation} {as : List Action}

theorem State.source?_of_scalar {k : Nat} {v : Word} (h : (i.scalar k).run (.begin s o) = .ok v) :
    s.source? i.width i.operands k = some v := by
  obtain ⟨op, hop, u, hu, rfl⟩ := Invocation.run_scalar.mp h
  obtain ⟨-, l, hl, rfl⟩ := Transaction.read_begin.mp hu
  unfold source?
  rw [hop, Option.bind_eq_bind, Option.bind_some, hl]
  rfl

theorem State.lt_of_source? {w : Width} {ops : List Operand} {k : Nat} {v : Word}
    (hw : w.isScalar) (h : s.source? w ops k = some v) : v.toNat < 2 ^ w.bits := by
  obtain ⟨op, -, h⟩ := Option.bind_eq_some_iff.mp h
  obtain ⟨l, -, h⟩ := Option.bind_eq_some_iff.mp h
  cases h
  exact Width.scalarBits_eq_bits hw ▸ w.toNat_trunc_lt _

theorem State.source?_of_run {k : Nat} {v : Word} (hw : i.width.isScalar)
    (h : (i.scalar k).run (.begin s o) = .ok v) :
    s.source? i.width i.operands k = some v ∧ v.toNat < 2 ^ i.width.bits :=
  ⟨source?_of_scalar h, lt_of_source? hw (source?_of_scalar h)⟩

theorem State.carryIn_begin (s : State) (o : Options) :
    (Transaction.begin s o).carryIn = (s.carry? o).elim (.error .undefinedCarry) .ok := by
  have hf : (Transaction.begin s o).flag .cf = s.regs.flags.cf := rfl
  have ho : (Transaction.begin s o).options = o := rfl
  unfold Transaction.carryIn Transaction.assumedCarry? carry?
  rw [hf, ho]
  cases s.regs.flags.cf.value? <;> cases o.undefinedRead <;> rfl

theorem State.carry?_of_run {b : Bool} (h : (Transaction.begin s o).carryIn = .ok b) :
    s.carry? o = some b := by
  rw [carryIn_begin] at h
  cases hc : s.carry? o with
  | none => rw [hc] at h; cases h
  | some b' => rw [hc] at h; cases h; rfl

/-! ## What is done -/

/-- Writes the result of a sum or difference and assigns some of its flags. -/
def Terms.actions (x : Terms) (w : Width) (dst : Operand) (names : List FlagName) : List Action :=
  [.write dst (.ofWord (x.word w)), .barrier .compiler,
    .assign (names.map fun n => (n, .ofBool (x.flag w n)))]

namespace Invocation

theorem combine_eq (sub : Bool) (hw : i.width.isScalar)
    (h : (i.combine (if sub then .sub else .add)).run (.begin s o) = .ok as) :
    ∃ a b dst, s.source? i.width i.operands 1 = some a ∧ s.source? i.width i.operands 2 = some b ∧
      i.operands[0]? = some dst ∧ Terms.Fits ⟨sub, a, b, false⟩ i.width ∧
      as = Terms.actions ⟨sub, a, b, false⟩ i.width dst FlagName.all := by
  obtain ⟨a, ha, h⟩ := Fetch.run_bind_eq_ok.mp h
  obtain ⟨b, hb, h⟩ := Fetch.run_bind_eq_ok.mp h
  obtain ⟨dst, hd, h⟩ := Fetch.run_bind_eq_ok.mp h
  obtain ⟨ha, hla⟩ := State.source?_of_run hw ha
  obtain ⟨hb, hlb⟩ := State.source?_of_run hw hb
  have hx : Terms.Fits ⟨sub, a, b, false⟩ i.width := ⟨hla, hlb⟩
  refine ⟨a, b, dst, ha, hb, run_operand.mp hd, hx, ?_⟩
  cases h
  rw [Terms.actions, ← Terms.arith_eq hw hx, Terms.carryChain_of_carry rfl, Terms.word_of_carry rfl]
  rfl

theorem combineCarry_eq (sub : Bool) (hw : i.width.isScalar)
    (h : (i.combineCarry (if sub then .sub else .add)).run (.begin s o) = .ok as) :
    ∃ a b c dst, s.source? i.width i.operands 1 = some a ∧
      s.source? i.width i.operands 2 = some b ∧ s.carry? o = some c ∧
      i.operands[0]? = some dst ∧ Terms.Fits ⟨sub, a, b, c⟩ i.width ∧
      as = Terms.actions ⟨sub, a, b, c⟩ i.width dst FlagName.all := by
  obtain ⟨a, ha, h⟩ := Fetch.run_bind_eq_ok.mp h
  obtain ⟨b, hb, h⟩ := Fetch.run_bind_eq_ok.mp h
  obtain ⟨_, hc, h⟩ := Fetch.run_bind_eq_ok.mp h
  obtain ⟨dst, hd, h⟩ := Fetch.run_bind_eq_ok.mp h
  obtain ⟨c, hc, hcw⟩ := Except.bind_eq_ok_iff.mp hc
  obtain ⟨ha, hla⟩ := State.source?_of_run hw ha
  obtain ⟨hb, hlb⟩ := State.source?_of_run hw hb
  have hx : Terms.Fits ⟨sub, a, b, c⟩ i.width := ⟨hla, hlb⟩
  refine ⟨a, b, c, dst, ha, hb, State.carry?_of_run hc, run_operand.mp hd, hx, ?_⟩
  cases hcw
  cases h
  rw [Terms.actions, ← Terms.arith_eq hw hx]
  rfl

theorem stepBy_eq (sub : Bool) (hw : i.width.isScalar)
    (h : (i.stepBy (if sub then .sub else .add)).run (.begin s o) = .ok as) :
    ∃ a dst, s.source? i.width i.operands 1 = some a ∧ i.operands[0]? = some dst ∧
      Terms.Fits ⟨sub, a, 1, false⟩ i.width ∧
      as = Terms.actions ⟨sub, a, 1, false⟩ i.width dst (FlagName.all.erase .cf) := by
  obtain ⟨a, ha, h⟩ := Fetch.run_bind_eq_ok.mp h
  obtain ⟨dst, hd, h⟩ := Fetch.run_bind_eq_ok.mp h
  obtain ⟨ha, hla⟩ := State.source?_of_run hw ha
  have hone : (1 : Word).toNat < 2 ^ i.width.bits := by
    rcases Width.scalar_cases hw with hw | hw | hw | hw <;> rw [hw] <;> decide
  have hx : Terms.Fits ⟨sub, a, 1, false⟩ i.width := ⟨hla, hone⟩
  refine ⟨a, dst, ha, run_operand.mp hd, hx, ?_⟩
  cases h
  rw [Terms.actions, ← Terms.step_eq hw hx, Terms.word_of_carry rfl]
  rfl

theorem negate_eq (hw : i.width.isScalar) (h : i.negate.run (.begin s o) = .ok as) :
    ∃ b dst, s.source? i.width i.operands 1 = some b ∧ i.operands[0]? = some dst ∧
      Terms.Fits ⟨true, 0, b, false⟩ i.width ∧
      as = Terms.actions ⟨true, 0, b, false⟩ i.width dst FlagName.all := by
  obtain ⟨b, hb, h⟩ := Fetch.run_bind_eq_ok.mp h
  obtain ⟨dst, hd, h⟩ := Fetch.run_bind_eq_ok.mp h
  obtain ⟨hb, hlb⟩ := State.source?_of_run hw hb
  have hx : Terms.Fits ⟨true, 0, b, false⟩ i.width := ⟨Nat.two_pow_pos _, hlb⟩
  have hborrow : (b != 0) = Rule.sub.carry i.width 0 b (Rule.sub.apply i.width 0 b) := by
    have ht := Width.trunc_of_lt (Width.scalarBits_eq_bits hw ▸ hlb)
    have h₀ : (0 : Word).toNat = 0 := rfl
    rw [Rule.carry, ht, Bool.eq_iff_iff, bne_iff_ne, decide_eq_true_eq, BitVec.lt_def, ne_eq,
      ← BitVec.toNat_inj, Width.toNat_trunc, h₀, Nat.zero_mod]
    omega
  refine ⟨b, dst, hb, run_operand.mp hd, hx, ?_⟩
  cases h
  rw [Terms.actions, ← Terms.arith_eq hw hx, Terms.carryChain_of_carry rfl, Terms.word_of_carry rfl,
    hborrow]
  rfl

theorem run_exchangeAdd (h : i.exchangeAdd.run (.begin s o) = .ok as) :
    ∃ a b dst exchanged, s.source? i.width i.operands 1 = some a ∧
      s.source? i.width i.operands 3 = some b ∧ i.operands[0]? = some dst ∧
      i.operands[2]? = some exchanged ∧
      as = (if dst.isRegister then [.barrier .storeLoad] else []) ++
        [.write dst (.ofWord (Rule.add.apply i.width a b)), .barrier .compiler,
          .write exchanged (.ofWord a), .barrier .compiler,
          .assign (.arith (Rule.add.carry i.width a b (Rule.add.apply i.width a b)) .add i.width a b
            (Rule.add.apply i.width a b))] := by
  obtain ⟨a, ha, h⟩ := Fetch.run_bind_eq_ok.mp h
  obtain ⟨b, hb, h⟩ := Fetch.run_bind_eq_ok.mp h
  obtain ⟨dst, hd, h⟩ := Fetch.run_bind_eq_ok.mp h
  obtain ⟨exchanged, he, h⟩ := Fetch.run_bind_eq_ok.mp h
  refine ⟨a, b, dst, exchanged, State.source?_of_scalar ha, State.source?_of_scalar hb,
    run_operand.mp hd, run_operand.mp he, ?_⟩
  cases h
  rfl

theorem exchangeAdd_eq (hw : i.width.isScalar) (h : i.exchangeAdd.run (.begin s o) = .ok as) :
    ∃ a b dst exchanged, s.source? i.width i.operands 1 = some a ∧
      s.source? i.width i.operands 3 = some b ∧ i.operands[0]? = some dst ∧
      i.operands[2]? = some exchanged ∧ Terms.Fits ⟨false, a, b, false⟩ i.width ∧
      as = (if dst.isRegister then [.barrier .storeLoad] else []) ++
        [.write dst (.ofWord (Terms.word ⟨false, a, b, false⟩ i.width)), .barrier .compiler,
          .write exchanged (.ofWord a), .barrier .compiler, .assign (FlagName.all.map fun n =>
            (n, .ofBool (Terms.flag ⟨false, a, b, false⟩ i.width n)))] := by
  obtain ⟨a, b, dst, exchanged, ha, hb, hd, he, rfl⟩ := run_exchangeAdd h
  have hx : Terms.Fits ⟨false, a, b, false⟩ i.width :=
    ⟨State.lt_of_source? hw ha, State.lt_of_source? hw hb⟩
  refine ⟨a, b, dst, exchanged, ha, hb, hd, he, hx, ?_⟩
  rw [← Terms.arith_eq hw hx, Terms.carryChain_of_carry rfl, Terms.word_of_carry rfl]
  rfl

end Invocation

/-- What an addition or subtraction does with its terms: behind barriers it writes their result to
its first operand, and it assigns the flags of the exact integer. Only XADD writes anything else. -/
structure Op.Joins (op : Op) (i : Invocation) (x : Terms) (dst : Operand) (as : List Action) :
    Prop where
  fits : x.Fits i.width
  operand : i.operands[0]? = some dst
  write : ∃ pre post, as = pre ++ .write dst (.ofWord (x.word i.width)) :: post ∧
    (∀ a ∈ pre, ∃ b, a = .barrier b) ∧
    (op ≠ .xadd → ∃ u, post = [.barrier .compiler, .assign u])
  update : as.flatMap Action.update = op.sumFlags.map fun n => (n, .ofBool (x.flag i.width n))

theorem Op.Joins.of_actions {op : Op} {x : Terms} {dst : Operand} (hx : x.Fits i.width)
    (hd : i.operands[0]? = some dst) : op.Joins i x dst (x.actions i.width dst op.sumFlags) where
  fits := hx
  operand := hd
  write := ⟨[], _, rfl, by simp, fun _ => ⟨_, rfl⟩⟩
  update := List.append_nil _

theorem Op.joins {op : Op} (hop : op ∈ Op.sums) (hw : i.width.isScalar)
    (h : (op.actions o i).run (.begin s o) = .ok as) :
    ∃ x dst, op.terms? i.width s o i.operands = some x ∧ op.Joins i x dst as := by
  cases op with
  | add =>
    obtain ⟨a, b, dst, ha, hb, hd, hx, rfl⟩ := Invocation.combine_eq false hw h
    exact ⟨_, dst, by simp [terms?, ha, hb], .of_actions hx hd⟩
  | sub =>
    obtain ⟨a, b, dst, ha, hb, hd, hx, rfl⟩ := Invocation.combine_eq true hw h
    exact ⟨_, dst, by simp [terms?, ha, hb], .of_actions hx hd⟩
  | adc =>
    obtain ⟨a, b, c, dst, ha, hb, hc, hd, hx, rfl⟩ := Invocation.combineCarry_eq false hw h
    exact ⟨_, dst, by simp [terms?, ha, hb, hc], .of_actions hx hd⟩
  | sbb =>
    obtain ⟨a, b, c, dst, ha, hb, hc, hd, hx, rfl⟩ := Invocation.combineCarry_eq true hw h
    exact ⟨_, dst, by simp [terms?, ha, hb, hc], .of_actions hx hd⟩
  | inc =>
    obtain ⟨a, dst, ha, hd, hx, rfl⟩ := Invocation.stepBy_eq false hw h
    exact ⟨_, dst, by simp [terms?, ha], .of_actions hx hd⟩
  | dec =>
    obtain ⟨a, dst, ha, hd, hx, rfl⟩ := Invocation.stepBy_eq true hw h
    exact ⟨_, dst, by simp [terms?, ha], .of_actions hx hd⟩
  | neg =>
    obtain ⟨b, dst, hb, hd, hx, rfl⟩ := Invocation.negate_eq hw h
    exact ⟨_, dst, by simp [terms?, hb], .of_actions hx hd⟩
  | xadd =>
    obtain ⟨a, b, dst, exchanged, ha, hb, hd, he, hx, rfl⟩ := Invocation.exchangeAdd_eq hw h
    -- Only here a barrier may stand in front of the write.
    refine ⟨_, dst, by simp [terms?, ha, hb], hx, hd, ⟨_, _, rfl, ?_, fun h => absurd rfl h⟩, ?_⟩
    · intro a ha
      split at ha
      · exact ⟨_, List.mem_singleton.mp ha⟩
      · cases ha
    · rw [List.flatMap_append]
      split <;> exact List.append_nil _
  | cmp | and | or | xor | not | test | pand | pandn | por | pxor | ptest | imul | mulAcc | mulx
  | divAcc | shl | shr => exact absurd hop (by decide)

theorem Op.mem_sumFlags {op : Op} {n : FlagName} :
    n ∈ op.sumFlags ↔ ¬ (n = .cf ∧ (op = .inc ∨ op = .dec)) := by
  unfold sumFlags
  by_cases h : op = inc ∨ op = dec
  · rw [if_pos h]
    cases n <;> simp [FlagName.all, h]
  · rw [if_neg h]
    exact iff_of_true n.mem_all fun hn => h hn.2

namespace Machine

variable {m : Machine} {c : Call} {e : Entry} {fx : List Effect} {x : Terms} {dst : Operand}
  {t : Transaction}

/-- The effects of an addition or subtraction are barriers, the write of the result and effects
behind it, which write nothing unless the instruction is XADD. -/
theorem effects_of_joins {i : Invocation} (hj : e.op.Joins i x dst as)
    (hw : i.width.isScalar) (h : (Transaction.begin s o).perform as = .ok t) :
    ∃ pre eff post, t.effects = pre ++ eff :: post ∧ (∀ f ∈ pre, f.isWrite = false) ∧
      dst.writing (.ofWord (x.result i.width)) = some eff ∧ eff.isWrite ∧
      (e.op ≠ .xadd → ∀ f ∈ post, f.isWrite = false) := by
  obtain ⟨pre, post, rfl, hpre, hpost⟩ := hj.write
  obtain ⟨u, hu, h'⟩ := Transaction.perform_append_eq_ok_iff.mp h
  obtain ⟨v, hv, -⟩ := Transaction.perform_cons_eq_ok_iff.mp h'
  obtain ⟨eff, heff, hwrite⟩ := Transaction.writing_of_act hv
  refine ⟨pre.flatMap Action.effects, eff, post.flatMap Action.effects, ?_, ?_, ?_, hwrite, ?_⟩
  · rw [Transaction.effects_perform h, List.flatMap_append, List.flatMap_cons, Action.effects, heff]
    rfl
  · intro f hf
    obtain ⟨a, ha, hfa⟩ := List.mem_flatMap.mp hf
    obtain ⟨b, rfl⟩ := hpre a ha
    rw [List.mem_singleton.mp hfa]
    rfl
  · rw [← Terms.word_eq_result hw hj.fits]
    exact heff
  · intro hx f hf
    obtain ⟨q, rfl⟩ := hpost hx
    rcases List.mem_cons.mp hf with rfl | hf
    · rfl
    · change f ∈ q.map (fun p => Effect.setFlag p.1 p.2) ++ [] at hf
      rw [List.append_nil] at hf
      obtain ⟨p, -, rfl⟩ := List.mem_map.mp hf
      rfl

/-- **Additions and subtractions are exact.** Every entry for one of the eight mnemonics writes the
low part of the exact sum or difference of its terms, and assigns the flags of that integer. Only
INC and DEC leave the carry flag as it was. -/
theorem sum_exact {tab : Table} {name : String} (hb : Table.build Rows.all o = .ok tab)
    (hg : tab.get? name = some e)
    (hmn : e.key.mnemonic ∈ ["ADD", "SUB", "ADC", "SBB", "INC", "DEC", "NEG", "XADD"])
    (hsel : c.select m.table = .ok e) (hok : (m.call c).result = .ok fx) :
    let mn := e.key.mnemonic
    ∃ op x dst eff, (mn, op) ∈ Op.named ∧
      op.terms? e.width m.state m.options c.operands = some x ∧
      c.operands[0]? = some dst ∧
      dst.writing (.ofWord (x.result e.width)) = some eff ∧ fx.find? Effect.isWrite = some eff ∧
      (mn ≠ "XADD" → (m.call c).machine.state.read dst =
        .ok (Lanes.trunc dst.width (.ofWord (x.result e.width)))) ∧
      ∀ n, (m.call c).machine.state.regs.flags.get n =
        if n = .cf ∧ (mn = "INC" ∨ mn = "DEC") then m.state.regs.flags.get n
        else .ofBool (x.flag e.width n) := by
  intro mn
  have hop := (Table.mem_sums_iff hb hg).mpr hmn
  obtain ⟨hnamed, hxadd, hstep⟩ : (mn, e.op) ∈ Op.named ∧ (e.op = .xadd ↔ mn = "XADD") ∧
      (e.op = .inc ∨ e.op = .dec ↔ mn = "INC" ∨ mn = "DEC") :=
    Op.mem_named_of_sums hop (Table.mnemonic_of_build hb hg).1
  obtain ⟨-, hw⟩ := Table.op_of_named hb hg rfl hnamed
  obtain ⟨e', t, hsel', -, ht, rfl, -, hm⟩ := call_of_ok hok
  cases hsel.symm.trans hsel'
  obtain ⟨as, has, hp⟩ := Op.eval_eq_ok_iff.mp ht
  obtain ⟨x, dst, hx, hj⟩ := Op.joins hop hw has
  obtain ⟨pre, eff, post, hfx, hpre, hwr, heff, hpost⟩ := effects_of_joins hj hw hp
  refine ⟨e.op, x, dst, eff, hnamed, hx, hj.operand, hwr, ?_, fun hmn' => ?_, fun n => ?_⟩
  · rw [hfx, List.find?_append, List.find?_eq_none.mpr (by simpa using hpre)]
    simp [heff]
  · -- Effects behind the write of the result do not change operands.
    have hr : Effect.replay m.state (pre ++ eff :: post) =
        Effect.replay (Effect.act (Effect.replay m.state pre) eff) post := by
      rw [Effect.replay_append]
      rfl
    rw [hm, hfx]
    change (Effect.replay m.state (pre ++ eff :: post)).read dst = _
    rw [hr, State.read_replay (hpost (mt hxadd.mp hmn')), State.read_act_writing hwr]
    rfl
  · have hmem : n ∈ e.op.sumFlags ↔ ¬ (n = .cf ∧ (mn = "INC" ∨ mn = "DEC")) := by
      rw [Op.mem_sumFlags, hstep]
    rw [hm]
    change (Effect.replay m.state t.effects).regs.flags.get n = _
    rw [replay_transact ht]
    change t.regs.flags.get n = _
    rw [Transaction.flags_perform hp, hj.update, Flags.get_assign_map]
    by_cases hn : n ∈ e.op.sumFlags
    · rw [if_pos hn, if_neg (hmem.mp hn)]
      rfl
    · rw [if_neg hn, if_pos (not_not.mp (mt hmem.mpr hn))]
      rfl

/-- The form ADC of a byte register and an immediate value, as an entry of a table. -/
def adcEntry : Entry where
  key := ⟨"ADC", "GPR8_IMMb_80r2", .w8⟩
  name := "ADC_GPR8_IMMb_80r2_8"
  op := .adc
  sign := .unsigned
  width := .w8
  shape := [.rw, .r, .i]
  mode := .any
  extension := .base

theorem get?_adcEntry {tab : Table} (hb : Table.build Rows.all o = .ok tab) :
    tab.get? "ADC_GPR8_IMMb_80r2_8" = some adcEntry := by
  have hr : { stem := "ADC_GPR8_IMMb_80r2", op := .adc, shape := [.rw, .r, .i], sizes := .byte } ∈
      Rows.all := by
    decide +kernel
  exact Table.get?_of_ofRow (p := (.w8, .any)) hb hr (by
    simp [Row.instances, Extension.included, Row.expansion, Sizes.widths, Row.modeAt, Mode.applies])
    rfl

/-- With the carry flag set, adding 127 to AL, which is zero at the start, leaves the signed range
but not the unsigned one. -/
theorem sum_exact_adc :
    let m : Machine := { state := { regs := { flags := { cf := .set } } } }
    let al : Reg := .gpr .rax .low8
    let r := m.execEntry adcEntry [.regW al, .reg al, .imm 127 .w8]
    r.machine.state.read (.regW al) = .ok 128 ∧ r.machine.state.regs.flags.get .cf = .clear ∧
      r.machine.state.regs.flags.get .of = .set := by
  intro m al r
  obtain ⟨tab, hb⟩ := Table.exists_build {}
  have hok : ∃ fx, r.result = .ok fx := ⟨_, rfl⟩
  obtain ⟨fx, hok⟩ := hok
  have hx : Op.adc.terms? .w8 m.state m.options [.regW al, .reg al, .imm 127 .w8] =
      some ⟨false, 0, 127, true⟩ := rfl
  obtain ⟨op, x, dst, eff, hop, hx', hd, -, -, hread, hflag⟩ :=
    sum_exact (m := m) (c := .entry adcEntry [.regW al, .reg al, .imm 127 .w8]) (e := adcEntry)
      hb (get?_adcEntry hb) (by decide) rfl hok
  obtain rfl : Op.adc = op := Op.eq_of_named _ hop .adc .unsigned (List.mem_singleton.mpr rfl)
  cases hd
  cases hx.symm.trans hx'
  exact ⟨(hread (by decide)).trans rfl, (hflag .cf).trans rfl, (hflag .of).trans rfl⟩

end Machine

end X86
