import X86.Proofs.Fault
import X86.Proofs.Success

/-!
# Undefined carry flags

The options decide what ADC and SBB do where the carry flag is undefined: they read it as clear or
as set, or they are refused. Reading it as some value is the same as starting from the state in
which the flag has that value. A flag that is defined is read as it is, whatever the options say,
and after ADC and SBB all flags are defined.

* `Machine.withPolicy`, `Machine.withCarry`: machines with other options, and in another state;
* `State.replay_withCarry`: effects that assign the carry flag do not depend on it;
* `Machine.exec_of_policy`: undefined flags that are read;
* `Machine.refused_of_undefined`, `Machine.result_of_undefined`: undefined flags that are not;
* `Machine.flag_ne_undefined`: the flags after ADC and SBB;
* `Machine.exec_withPolicy`: where the flag is defined;
* **`Machine.carry_policy`**: the treatment of undefined carry flags.
-/

namespace X86

/-- The policy that reads undefined flags as some value. -/
def UndefinedRead.ofBool : Bool → UndefinedRead
  | false => clear
  | true => set

/-- A state with another carry flag. -/
def State.withCarry (s : State) (b : Bool) : State :=
  { s with regs := s.regs.setFlag .cf (.ofBool b) }

namespace Machine

def withCarry (m : Machine) (b : Bool) : Machine :=
  { m with state := m.state.withCarry b }

/-- A machine with another policy for undefined flags. -/
def withPolicy (m : Machine) (p : UndefinedRead) : Machine :=
  { m with options := { m.options with undefinedRead := p } }

end Machine

/-! ## The carry that is read -/

namespace State

variable {s : State} {o : Options}

theorem carry?_withCarry (s : State) (b : Bool) (o : Options) :
    (s.withCarry b).carry? o = some b := by
  cases b <;> rfl

theorem carry?_of_undefined (h : s.regs.flags.cf = .undefined) (b : Bool) :
    s.carry? { o with undefinedRead := .ofBool b } = some b := by
  cases b <;> rw [carry?, h] <;> rfl

theorem carry?_of_defined (h : s.regs.flags.cf ≠ .undefined) (p q : UndefinedRead) :
    s.carry? { o with undefinedRead := p } = s.carry? { o with undefinedRead := q } := by
  unfold carry?
  cases hcf : s.regs.flags.cf with
  | clear | set => rfl
  | undefined => exact absurd hcf h

theorem agreesAt_withCarry (s : State) (b : Bool) (p : Place) : (s.withCarry b).AgreesAt s p := by
  cases p with
  | slot r => exact RegFile.slot_setFlag s.regs .cf (.ofBool b) r
  | byte a => rfl

theorem replay_withCarry {fx : List Effect} (h : ∃ v, .setFlag .cf v ∈ fx) (s : State) (b : Bool) :
    Effect.replay (s.withCarry b) fx = Effect.replay s fx := by
  refine eq_of_agreesAt (fun p => (s.agreesAt_withCarry b p).replay fx) fun n => ?_
  rcases Effect.flag_replay fx n with ⟨v, -, hv⟩ | ⟨hn, hkeep⟩
  · rw [hv, hv]
  · have hcf : n ≠ .cf := by
      rintro rfl
      obtain ⟨v, hv⟩ := h
      exact hn v hv
    rw [hkeep, hkeep]
    simp [withCarry, hcf.symm]

end State

theorem Fetch.assumed_of_defined {α : Type} {t : Transaction} (h : t.flag .cf ≠ .undefined)
    (x : Fetch α) : x.assumed t = [] := by
  induction x with
  | done a | fail c => rfl
  | word op next ih =>
    unfold assumed
    split
    · exact ih _
    · rfl
  | lanes op next ih =>
    unfold assumed
    split
    · exact ih _
    · rfl
  | carry next ih =>
    unfold assumed
    split
    · rw [if_neg h, ih, List.nil_append]
    · rfl

theorem Invocation.run_combineCarry_of_undefined {i : Invocation} {s : State} {o : Options}
    {x₁ x₂ : Operand} (h₁ : i.operands[1]? = some x₁) (h₂ : i.operands[2]? = some x₂)
    (hx₁ : s.HasWord x₁) (hx₂ : s.HasWord x₂) (hc : s.carry? o = none) (r : Rule) :
    (i.combineCarry r).run (.begin s o) = .error .undefinedCarry := by
  obtain ⟨a, ha⟩ := (ends_scalar (F := fun _ => True) (fun _ _ => trivial) h₁).exists_iff.mpr hx₁
  obtain ⟨b, hb⟩ := (ends_scalar (F := fun _ => True) (fun _ _ => trivial) h₂).exists_iff.mpr hx₂
  have hcarry : (Transaction.begin s o).carryIn = .error .undefinedCarry := by
    rw [State.carryIn_begin, hc]
    rfl
  rw [combineCarry, Fetch.run_bind, ha]
  change (i.scalar 2 >>= _).run _ = _
  rw [Fetch.run_bind, hb]
  change (Fetch.carry _ >>= _).run _ = _
  rw [Fetch.run_bind, Fetch.run, hcarry]
  rfl

namespace Machine

variable {m : Machine} {e : Entry} {ops : List Operand} {o : Options} {name : String}
  {fx : List Effect}

/-! ## Undefined flags -/

theorem setFlag_mem_of_readsCarry (hlen : e.shape.length = e.op.arity) (hr : e.op.ReadsCarry)
    (hok : (m.execEntry e ops).result = .ok fx) (n : FlagName) : ∃ v, .setFlag n v ∈ fx := by
  have hi : ¬ e.op.Idles e.width m.state ops := fun hi => by
    rcases hr with h | h <;> rcases hi.1 with h' | h' <;> cases h.symm.trans h'
  rw [Effect.exists_setFlag_iff, (laidOut_of_ok hlen hok).layout hi, Op.flag_mem_layout_iff]
  rcases hr with h | h <;> rw [h] <;> exact n.mem_all

theorem flag_ne_undefined (hw : e.width.isScalar) (hr : e.op.ReadsCarry)
    (hok : (m.execEntry e ops).succeeded) (n : FlagName) :
    (m.execEntry e ops).machine.state.regs.flags.get n ≠ .undefined := by
  obtain ⟨fx, hok⟩ := Response.succeeded_iff.mp hok
  obtain ⟨_, t, he, -, ht, rfl, -, hm⟩ := call_of_ok (c := .entry e ops) hok
  cases he
  obtain ⟨as, has, hp⟩ := Op.eval_eq_ok_iff.mp ht
  have hop : e.op ∈ Op.sums ∧ n ∈ e.op.sumFlags := by
    rcases hr with h | h <;> rw [h, Op.mem_sumFlags] <;> simp [Op.sums]
  obtain ⟨x, dst, -, hj⟩ := Op.joins hop.1 hw has
  have hflags : (m.execEntry e ops).machine.state.regs.flags.get n = t.regs.flags.get n :=
    congrArg (fun n' : Machine => n'.state.regs.flags.get n) hm |>.trans <| by
      change (Effect.replay m.state t.effects).regs.flags.get n = _
      rw [replay_transact ht]
  rw [hflags, Transaction.flags_perform hp, hj.update, Flags.get_assign_map, if_pos hop.2]
  cases x.flag _ n <;> decide

/-- **A policy stands in for the flag**: an entry has the same outcome as from the state in which
the carry flag has the value, and leads to the same state. -/
theorem exec_of_policy (hlen : e.shape.length = e.op.arity) (hr : e.op.ReadsCarry)
    (hcf : m.state.regs.flags.cf = .undefined) (b : Bool) :
    let r := (m.withPolicy (.ofBool b)).execEntry e ops
    let q := ((m.withCarry b).withPolicy (.ofBool b)).execEntry e ops
    r.outcome = q.outcome ∧ (r.succeeded → r.machine.state = q.machine.state) := by
  intro r q
  have hcarry : (Transaction.begin m.state (m.withPolicy (.ofBool b)).options).carryIn =
      (Transaction.begin (m.state.withCarry b) (m.withPolicy (.ofBool b)).options).carryIn := by
    rw [State.carryIn_begin, State.carryIn_begin, State.carry?_withCarry]
    exact congrArg (Option.elim · _ _) (State.carry?_of_undefined hcf b)
  have hout : r.outcome = q.outcome :=
    outcome_congr_of_carryIn rfl (fun _ _ _ p _ => (m.state.agreesAt_withCarry b p).symm)
      fun _ => hcarry
  refine ⟨hout, fun hok => ?_⟩
  obtain ⟨fx, hok⟩ := Response.succeeded_iff.mp hok
  have hfx : q.effects = fx :=
    (Response.effects_of_outcome hout).1.symm.trans (by rw [Response.effects, hok])
  have hr' : r.machine.state = Effect.replay m.state fx := state_of_ok (c := .entry e ops) hok
  have hq : q.machine.state = Effect.replay (m.state.withCarry b) q.effects :=
    state_call ((m.withCarry b).withPolicy (.ofBool b)) (.entry e ops)
  rw [hr', hq, hfx, State.replay_withCarry (setFlag_mem_of_readsCarry hlen hr hok .cf)]

section

variable (hlen : e.shape.length = e.op.arity) (hr : e.op.ReadsCarry)
  (hcf : m.state.carry? m.options = none)

include hlen hr hcf

/-- **A refused read changes nothing**, and no fault handler sees it. -/
theorem refused_of_undefined :
    (m.execEntry e ops).machine = m ∧ (m.execEntry e ops).faults = [] := by
  cases h : (m.execEntry e ops).result with
  | ok fx =>
    obtain ⟨_, t, he, hc, ht, -⟩ := call_of_ok (c := .entry e ops) h
    cases he
    have hready := (succeeded_iff_ready hlen hc).mp (Response.succeeded_iff.mpr ⟨fx, h⟩)
    have hsome := hready.1.carry hr
    rw [hcf] at hsome
    cases hsome
  | error err =>
    obtain ⟨-, -, hm, hf, -⟩ := call_of_error (c := .entry e ops) h
    refine ⟨hm, hf.trans (if_neg fun hfault => ?_)⟩
    obtain ⟨-, e', he, hdiv⟩ :=
      exists_division_of_fault (show (m.call (.entry e ops)).result = .error err from h) hfault
    cases he
    rcases hr with h' | h' <;> cases h'.symm.trans hdiv

theorem result_of_undefined (hc : e.shape.check ops = .ok ())
    (hs : ∀ k ∈ e.op.reads, ∀ x, ops[k]? = some x → m.state.HasWord x) :
    (m.execEntry e ops).result = .error ⟨.undefinedCarry, some m.state.regs⟩ := by
  have hop : e.op.arity = 3 ∧ e.op.reads = [1, 2] ∧
      ∃ r, e.op.actions m.options (e.invoke ops) = (e.invoke ops).combineCarry r := by
    rcases hr with h | h <;> rw [h] <;> exact ⟨rfl, rfl, _, rfl⟩
  obtain ⟨harity, hreads, r, hact⟩ := hop
  rw [hreads] at hs
  obtain ⟨x₀, x₁, x₂, rfl⟩ := List.length_eq_three.mp
    ((Shape.length_of_check hc).symm.trans (hlen.trans harity))
  have hrun := Invocation.run_combineCarry_of_undefined (i := e.invoke [x₀, x₁, x₂]) rfl rfl
    (hs 1 (by simp) x₁ rfl) (hs 2 (by simp) x₂ rfl) hcf r
  refine result_of_transact_error (c := .entry e [x₀, x₁, x₂]) rfl hc ?_
  change (e.op.actions m.options (e.invoke [x₀, x₁, x₂])).run _ >>= _ = _
  rw [hact, hrun]
  rfl

end

/-! ## Defined flags -/

theorem evaluate_eq (m : Machine) (e : Entry) (ops : List Operand) :
    m.evaluate e ops = e.shape.check ops >>= fun _ =>
      ((m.transact e ops).map Transaction.effects).map
        fun fx => (Effect.replay m.state fx, fx) := by
  cases hc : e.shape.check ops with
  | error c => exact evaluate_eq_error_iff.mpr (.inl hc)
  | ok _ =>
    cases ht : m.transact e ops with
    | error c => exact evaluate_eq_error_iff.mpr (.inr ⟨hc, ht⟩)
    | ok t => exact evaluate_eq_ok_iff.mpr ⟨hc, t, ht, rfl, rfl⟩

/-- **The policy makes no difference** where the carry flag is defined. -/
theorem execEntry_withPolicy (hcf : m.state.regs.flags.cf ≠ .undefined) (p q : UndefinedRead)
    (e : Entry) (ops : List Operand) :
    (m.withPolicy q).execEntry e ops =
      let r := (m.withPolicy p).execEntry e ops
      { r with machine := r.machine.withPolicy q } := by
  have hcarry : (Transaction.begin m.state (m.withPolicy q).options).carryIn =
      (Transaction.begin m.state (m.withPolicy p).options).carryIn := by
    rw [State.carryIn_begin, State.carryIn_begin]
    exact congrArg (Option.elim · _ _) (State.carry?_of_defined hcf q p)
  have ht : ((m.withPolicy q).transact e ops).map Transaction.effects =
      ((m.withPolicy p).transact e ops).map Transaction.effects :=
    transact_congr rfl (fun _ _ p _ => .refl m.state p) fun _ => hcarry
  have hev : (m.withPolicy q).evaluate e ops = (m.withPolicy p).evaluate e ops := by
    rw [evaluate_eq, evaluate_eq, ht]
    rfl
  have has (p : UndefinedRead) : (m.withPolicy p).assumptions e ops = [] := by
    unfold assumptions
    split
    · exact Fetch.assumed_of_defined (t := .begin m.state (m.withPolicy p).options) hcf _
    · rfl
  unfold execEntry
  rw [hev, has, has]
  cases (m.withPolicy p).evaluate e ops <;> rfl

theorem exec_withPolicy (hcf : m.state.regs.flags.cf ≠ .undefined) (p q : UndefinedRead)
    (name : String) (ops : List Operand) :
    (m.withPolicy q).exec name ops =
      let r := (m.withPolicy p).exec name ops
      { r with machine := r.machine.withPolicy q } := by
  cases he : m.table.get? name with
  | some e =>
    rw [exec_of_get? (m := m.withPolicy q) he, exec_of_get? (m := m.withPolicy p) he]
    exact execEntry_withPolicy hcf p q e ops
  | none =>
    rw [exec_of_unknown (m := m.withPolicy q) he, exec_of_unknown (m := m.withPolicy p) he]
    rfl

/-- **Undefined carry flags are treated as the options say.** Where the flag is undefined, ADC and
SBB do under the policy of some value what they do where the flag has that value. Where undefined
flags are not to be read they are refused without any change or fault, and once both sources can be
read, for the flag and with the registers. No flag is undefined after an executed ADC or SBB. Where
the flag is defined, every instruction does the same under all policies. -/
theorem carry_policy (m : Machine) (hb : Table.build Rows.all o = .ok m.table) (name : String)
    (ops : List Operand) :
    (∀ e, m.table.get? name = some e → e.key.mnemonic = "ADC" ∨ e.key.mnemonic = "SBB" →
      (m.state.regs.flags.cf = .undefined →
        (∀ b : Bool,
          let r := (m.withPolicy (.ofBool b)).exec name ops
          let q := ((m.withCarry b).withPolicy (.ofBool b)).exec name ops
          r.outcome = q.outcome ∧ (r.succeeded → r.machine.state = q.machine.state)) ∧
        let r := (m.withPolicy .error).exec name ops
        r.machine = m.withPolicy .error ∧ r.faults = [] ∧
          (e.shape.check ops = .ok () →
            (∀ x, e.HasSource ops x → x.width.bits ≤ 64 ∧ m.state.Maps x) →
            r.result = .error ⟨.undefinedCarry, some m.state.regs⟩)) ∧
      ∀ p, let r := (m.withPolicy p).exec name ops
        r.succeeded → ∀ n, r.machine.state.regs.flags.get n ≠ .undefined) ∧
    (m.state.regs.flags.cf ≠ .undefined → ∀ p q,
      (m.withPolicy q).exec name ops =
        let r := (m.withPolicy p).exec name ops
        { r with machine := r.machine.withPolicy q }) := by
  refine ⟨fun e he hmn => ?_, fun hcf p q => exec_withPolicy hcf p q name ops⟩
  have hlen := Table.arity_of_build hb he
  have hr : e.op.ReadsCarry := (Table.readsCarry_iff hb he).mpr hmn
  have hw : e.width.isScalar := Table.isScalar_of_word hb he (by
    rcases hr with h | h <;> rw [h] <;> rfl)
  have hexec (p : UndefinedRead) : (m.withPolicy p).exec name ops =
      (m.withPolicy p).execEntry e ops := exec_of_get? (m := m.withPolicy p) he ops
  refine ⟨fun hcf => ⟨fun b => ?_, ?_⟩, fun p => ?_⟩
  · rw [hexec, exec_of_get? (m := (m.withCarry b).withPolicy (.ofBool b)) he ops]
    exact exec_of_policy hlen hr hcf b
  · have hnone : (m.withPolicy .error).state.carry? (m.withPolicy .error).options = none := by
      change m.state.carry? _ = none
      rw [State.carry?, hcf]
      rfl
    rw [hexec]
    refine ⟨(refused_of_undefined hlen hr hnone).1, (refused_of_undefined hlen hr hnone).2, ?_⟩
    refine fun hc hs => result_of_undefined hlen hr hnone hc ?_
    refine (Entry.forall_reads_iff hb he _ _).mpr fun x hx => ?_
    exact ⟨(hs x hx).2, Width.isScalar_iff.mpr (hs x hx).1⟩
  · rw [hexec]
    exact flag_ne_undefined hw hr

/-- With an undefined carry flag, ADC of AL and a byte is refused under the strict policy, and does
otherwise what it does with the flag set. -/
theorem carry_policy_adc :
    let s : State := { regs := { flags := { cf := .undefined } } }
    ∃ t, Table.build Rows.all {} = .ok t ∧
      let m : Machine := { state := s, table := t }
      let adc (m : Machine) := m.exec "ADC_GPR8_IMMb_80r2_8" adcOperands
      (adc (m.withPolicy .error)).result = .error ⟨.undefinedCarry, some s.regs⟩ ∧
      (adc (m.withPolicy .set)).outcome = (adc ((m.withCarry true).withPolicy .set)).outcome := by
  intro s
  obtain ⟨t, ht⟩ := Table.exists_build {}
  refine ⟨t, ht, ?_⟩
  intro m adc
  obtain ⟨hundef, -⟩ :=
    (carry_policy m ht "ADC_GPR8_IMMb_80r2_8" adcOperands).1 adcEntry (get?_adcEntry ht) (.inl rfl)
  obtain ⟨hpolicy, -, -, herr⟩ := hundef rfl
  refine ⟨herr rfl fun x ⟨_, _, _, _, hx⟩ => ?_, (hpolicy true).1⟩
  exact maps_of_mem_adcOperands m.state x (List.mem_of_getElem? hx)

end Machine

end X86
