import X86.Proofs.Place
import X86.Proofs.Scope

/-!
# What an instruction depends on

The outcome of an instruction depends on the places that its operation asks for and writes, on the
options, and for ADC and SBB on the carry flag. It writes no other places than those of its targets.
So what comes of an instruction can be told from a part of the state.

* `Transaction.perform_congr`, `Machine.transact_congr`: transactions with the same effects;
* `Action.names_of_writes`: the places that the effects of actions write;
* `Response.outcome`: the effects, or the kind and the wording of the error;
* `Machine.outcome_congr_of_carryIn`, **`Machine.outcome_congr`**: states with the same outcome of
  an entry;
* **`Machine.names_of_writes`**: the places that an entry writes.
-/

namespace X86

/-! ## Actions in two transactions -/

theorem Operand.names_of_writes {op : Operand} {v : Lanes} {e : Effect} {p : Place}
    (h : op.writing v = some e) (hp : e.Writes p) : op.Names p := by
  cases op with
  | regW r | memW m =>
    cases h
    cases p with
    | slot s => exact hp
    | byte a => exact hp
  | reg r | mem m | imm v w => cases h

/-- **Effects write the places of the operands** that the actions write. -/
theorem Action.names_of_writes {W : Operand → Prop} {as : List Action} (h : WritesOnly W as)
    {e : Effect} (he : e ∈ as.flatMap Action.effects) {p : Place} (hp : e.Writes p) :
    ∃ op, W op ∧ op.Names p := by
  induction as with
  | nil => cases he
  | cons a as ih =>
    rw [List.flatMap_cons, List.mem_append] at he
    cases a with
    | write op v =>
      rcases he with he | he
      · exact ⟨op, h.1, Operand.names_of_writes (Option.mem_toList.mp he) hp⟩
      · exact ih h.2 he
    | barrier b =>
      rcases he with he | he
      · cases List.mem_singleton.mp he
        cases p <;> cases hp
      · exact ih h he
    | assign u =>
      rcases he with he | he
      · obtain ⟨q, -, rfl⟩ := List.mem_map.mp he
        cases p <;> cases hp
      · exact ih h he

namespace Transaction

variable {t u : Transaction} {a : Action} {as : List Action} {W : Operand → Prop}

theorem act_error_congr (ha : Action.WritesOnly W (a :: as))
    (hW : ∀ m, W (.memW m) →
      t.before.mem.check m.address m.width = u.before.mem.check m.address m.width) (c : Cause) :
    t.act a = .error c ↔ u.act a = .error c := by
  cases a with
  | write op v =>
    cases op with
    | regW r => exact iff_of_false (fun h => nomatch h) (fun h => nomatch h)
    | memW m =>
      change (t.before.mem.check m.address m.width >>= fun _ => .ok (t.store m v)) = .error c ↔
        (u.before.mem.check m.address m.width >>= fun _ => .ok (u.store m v)) = .error c
      rw [hW m ha.1, Except.bind_eq_error_iff, Except.bind_eq_error_iff]
      simp
    | reg r | mem m | imm v w => exact Iff.rfl
  | barrier b | assign q => exact iff_of_false (fun h => nomatch h) (fun h => nomatch h)

theorem perform_congr (has : Action.WritesOnly W as)
    (hW : ∀ m, W (.memW m) →
      t.before.mem.check m.address m.width = u.before.mem.check m.address m.width)
    (he : t.effects = u.effects) :
    (t.perform as).map effects = (u.perform as).map effects := by
  induction as generalizing t u with
  | nil => exact congrArg Except.ok he
  | cons a as ih =>
    have herr := act_error_congr has hW
    have htail : Action.WritesOnly W as := by
      cases a with
      | write op v => exact has.2
      | barrier b => exact has
      | assign q => exact has
    cases ht : t.act a with
    | error c => rw [perform, perform, ht, (herr c).mp ht]
    | ok t' =>
      cases hu : u.act a with
      | error c =>
        rw [(herr c).mpr hu] at ht
        cases ht
      | ok u' =>
        rw [perform, perform, ht, hu]
        refine ih htail ?_ ?_
        · rw [before_act ht, before_act hu]
          exact hW
        · rw [effects_act ht, effects_act hu, he]

theorem carryIn_congr (ho : t.options = u.options) (hf : t.regs.flags.cf = u.regs.flags.cf) :
    t.carryIn = u.carryIn := by
  have hcf : t.flag .cf = u.flag .cf := hf
  rw [carryIn, carryIn, hcf, assumedCarry?, assumedCarry?, ho]

end Transaction

theorem Op.actions_congr {o o' : Options} (h : o.divChecks = o'.divChecks) (op : Op)
    (i : Invocation) : op.actions o i = op.actions o' i := by
  cases op with
  | divAcc => exact congrArg i.divide h
  | _ => rfl

/-! ## Outcomes -/

/-- The effects of a response, or the kind and the wording of its error. -/
def Response.outcome (r : Response) : Except (ErrorKind × String) (List Effect) :=
  r.result.mapError fun err => (err.kind, err.message)

theorem Response.effects_of_outcome {r q : Response} (h : r.outcome = q.outcome) :
    r.effects = q.effects ∧ r.succeeded = q.succeeded := by
  unfold outcome at h
  unfold effects succeeded
  cases hr : r.result with
  | ok fx =>
    cases hq : q.result with
    | ok gx =>
      rw [hr, hq] at h
      cases h
      exact ⟨rfl, rfl⟩
    | error err =>
      rw [hr, hq] at h
      cases h
  | error err =>
    cases hq : q.result with
    | ok gx =>
      rw [hr, hq] at h
      cases h
    | error err' => exact ⟨rfl, rfl⟩

namespace Machine

variable {m n : Machine} {e : Entry} {ops : List Operand}

theorem transact_congr (ho : m.options.divChecks = n.options.divChecks)
    (hp : ∀ x, e.op.Asks (e.invoke ops) x ∨ e.op.Targets (e.invoke ops) x →
      ∀ p, x.Names p → m.state.AgreesAt n.state p)
    (hcf : e.op.ReadsCarry → (Transaction.begin m.state m.options).carryIn =
      (Transaction.begin n.state n.options).carryIn) :
    (m.transact e ops).map Transaction.effects = (n.transact e ops).map Transaction.effects := by
  have hw := e.op.within_actions n.options (e.invoke ops)
  have hrun : (e.op.actions n.options (e.invoke ops)).run (.begin m.state m.options) =
      (e.op.actions n.options (e.invoke ops)).run (.begin n.state n.options) := by
    refine hw.run_congr (fun x hx => ?_) hcf
    rw [Transaction.readLanes_begin, Transaction.readLanes_begin]
    exact State.read_congr (hp x (.inl hx))
  change ((e.op.actions m.options (e.invoke ops)).run (.begin m.state m.options) >>=
      fun as => (Transaction.begin m.state m.options).perform as).map _ =
    ((e.op.actions n.options (e.invoke ops)).run (.begin n.state n.options) >>=
      fun as => (Transaction.begin n.state n.options).perform as).map _
  rw [Op.actions_congr ho, ← hrun]
  cases h : (e.op.actions n.options (e.invoke ops)).run (.begin m.state m.options) with
  | error c => rfl
  | ok as =>
    exact Transaction.perform_congr (hw.run_ok h)
      (fun r hr => State.check_congr (hp _ (.inr hr))) rfl

theorem outcome_execEntry (m : Machine) (e : Entry) (ops : List Operand) :
    (m.execEntry e ops).outcome =
      (e.shape.check ops >>= fun _ => (m.transact e ops).map Transaction.effects).mapError
        fun c => (c.kind, c.message) := by
  cases hc : e.shape.check ops with
  | error c =>
    rw [execEntry_of_error (evaluate_eq_error_iff.mpr (.inl hc))]
    rfl
  | ok _ =>
    cases ht : m.transact e ops with
    | error c =>
      rw [execEntry_of_error (evaluate_eq_error_iff.mpr (.inr ⟨hc, ht⟩))]
      rfl
    | ok t =>
      have hr := result_of_transact (c := .entry e ops) rfl hc ht
      exact congrArg (Except.mapError fun err => (err.kind, err.message)) hr

/-- The outcome of an entry depends on the check of quotients, on the places that it asks for and
writes, and for ADC and SBB on the carry that it reads. -/
theorem outcome_congr_of_carryIn (ho : m.options.divChecks = n.options.divChecks)
    (hp : e.shape.check ops = .ok () → ∀ x, e.op.Asks (e.invoke ops) x ∨
      e.op.Targets (e.invoke ops) x → ∀ p, x.Names p → m.state.AgreesAt n.state p)
    (hcf : e.op.ReadsCarry → (Transaction.begin m.state m.options).carryIn =
      (Transaction.begin n.state n.options).carryIn) :
    (m.execEntry e ops).outcome = (n.execEntry e ops).outcome := by
  rw [outcome_execEntry, outcome_execEntry]
  cases hc : e.shape.check ops with
  | error c => rfl
  | ok _ =>
    congr 1
    exact transact_congr ho (hp hc) hcf

/-- **The outcome of an entry depends on the places that it asks for and writes**, and for ADC and
SBB on the carry flag. -/
theorem outcome_congr (ho : m.options = n.options)
    (hp : e.shape.check ops = .ok () → ∀ x, e.op.Asks (e.invoke ops) x ∨
      e.op.Targets (e.invoke ops) x → ∀ p, x.Names p → m.state.AgreesAt n.state p)
    (hcf : e.op.ReadsCarry → m.state.regs.flags.cf = n.state.regs.flags.cf) :
    (m.execEntry e ops).outcome = (n.execEntry e ops).outcome :=
  outcome_congr_of_carryIn (congrArg Options.divChecks ho) hp fun hc =>
    Transaction.carryIn_congr ho (hcf hc)

/-- **An entry writes the places of its targets** and no others. -/
theorem names_of_writes {fx : Effect} (hf : fx ∈ (m.execEntry e ops).effects) {p : Place}
    (hp : fx.Writes p) :
    e.shape.check ops = .ok () ∧ ∃ x, e.op.Targets (e.invoke ops) x ∧ x.Names p := by
  obtain ⟨e', t, he, hc, ht, hfx, -, -⟩ :=
    call_of_ok (c := .entry e ops) (Response.result_of_mem hf)
  cases he
  obtain ⟨as, has, hperf⟩ := Op.eval_eq_ok_iff.mp ht
  replace hf : fx ∈ t.effects := hfx ▸ hf
  rw [Transaction.effects_perform hperf] at hf
  exact ⟨hc, Action.names_of_writes ((e.op.within_actions _ _).run_ok has) hf hp⟩

end Machine

end X86
