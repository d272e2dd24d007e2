import X86.Machine
import X86.Proofs.Transaction

/-!
# Runs of a machine

A machine is driven by calls, each of which names an instruction by its key or hands over its
entry. Every call either executes an instruction or is refused.

* `Call`, `Machine.call`, `Machine.run`, `Machine.responses`: one call and a list of calls;
* `Machine.evaluate_eq_ok_iff`, `Machine.evaluate_eq_error_iff`: an evaluation fails in the check of
  the operands or in the operation, and never when it is committed;
* `Machine.call_of_ok`, `Machine.call_of_error`: what comes of a call;
* `Machine.state_call`, `Machine.state_run`, `Machine.executed_run`: the state and the count
  afterwards;
* **`Machine.run_eq_replay`**: the state after a run is the replay of the effects that it returned.
-/

namespace X86

/-- A request to execute an instruction, which is named by its key or given by its entry. -/
inductive Call where
  | key (key : String) (operands : List Operand)
  | entry (e : Entry) (operands : List Operand)

namespace Call

def operands : Call → List Operand
  | key _ ops | entry _ ops => ops

/-- The entry that a call selects. -/
def select (t : Table) : Call → Except Cause Entry
  | key k _ => t.lookup k
  | entry e _ => .ok e

end Call

namespace Response

/-- The effects of a response, of which a refused request has none. -/
def effects (r : Response) : List Effect :=
  match r.result with
  | .ok fx => fx
  | .error _ => []

/-- Whether an instruction was executed. -/
def succeeded (r : Response) : Bool :=
  match r.result with
  | .ok _ => true
  | .error _ => false

theorem succeeded_iff {r : Response} : r.succeeded ↔ ∃ fx, r.result = .ok fx := by
  unfold succeeded
  cases r.result <;> simp

theorem result_of_mem {r : Response} {f : Effect} (h : f ∈ r.effects) :
    r.result = .ok r.effects := by
  unfold effects at h ⊢
  cases hr : r.result with
  | ok fx => rfl
  | error err =>
    rw [hr] at h
    cases h

end Response

theorem Effect.byte?_act_writeMem (s : State) (r : MemRef) (v : Lanes) (a : Address) :
    (act s (.writeMem r v)).mem.byte? a =
      if (a - r.address).toNat < r.width.bytes then some (v.byte (a - r.address).toNat)
      else s.mem.byte? a := by
  change (s.mem.apply ⟨r.address, r.width, v⟩).byte? a = _
  rw [Memory.byte?_apply, Store.byteAt?]
  split <;> rfl

namespace Machine

/-- What comes of a call. -/
def call (m : Machine) : Call → Response
  | .key k ops => m.exec k ops
  | .entry e ops => m.execEntry e ops

/-- The machine after a list of calls. -/
def run (m : Machine) (cs : List Call) : Machine :=
  cs.foldl (fun m c => (m.call c).machine) m

/-- The responses to a list of calls, of which each goes to the machine that the last one left. -/
def responses (m : Machine) : List Call → List Response
  | [] => []
  | c :: cs => m.call c :: (m.call c).machine.responses cs

/-- The transaction in which an entry is evaluated on operands. -/
def transact (m : Machine) (e : Entry) (ops : List Operand) : Except Cause Transaction :=
  e.op.eval (e.invoke ops) (.begin m.state m.options)

variable {m : Machine} {c : Call} {e : Entry} {ops : List Operand} {cause : Cause}

/-! ## One evaluation -/

theorem commit_transact {t : Transaction} (h : m.transact e ops = .ok t) :
    t.commit = .ok (Effect.replay m.state t.effects) := by
  rw [(Op.coherent_eval h (Transaction.coherent_begin _ _)).commit, Op.before_eval h]
  rfl

theorem replay_transact {t : Transaction} (h : m.transact e ops = .ok t) :
    Effect.replay m.state t.effects = ⟨t.regs, t.stores.foldl Memory.apply m.state.mem⟩ := by
  have hc := (Op.coherent_eval h (Transaction.coherent_begin _ _)).replay_eq
  rw [Op.before_eval h] at hc
  exact hc

theorem evaluate_eq_ok_iff {s : State} {fx : List Effect} :
    m.evaluate e ops = .ok (s, fx) ↔ e.shape.check ops = .ok () ∧
      ∃ t, m.transact e ops = .ok t ∧ t.effects = fx ∧ Effect.replay m.state fx = s := by
  simp only [evaluate, Except.bind_eq_ok_iff, Except.pure_eq_ok_iff, Prod.mk.injEq]
  constructor
  · rintro ⟨_, hc, t, ht, s', hs, rfl, rfl⟩
    rw [commit_transact ht] at hs
    cases hs
    exact ⟨hc, t, ht, rfl, rfl⟩
  · rintro ⟨hc, t, ht, rfl, rfl⟩
    exact ⟨(), hc, t, ht, _, commit_transact ht, rfl, rfl⟩

theorem evaluate_eq_error_iff :
    m.evaluate e ops = .error cause ↔ e.shape.check ops = .error cause ∨
      e.shape.check ops = .ok () ∧ m.transact e ops = .error cause := by
  simp only [evaluate, Except.bind_eq_error_iff, Except.pure_ne_error]
  constructor
  · rintro (h | ⟨_, hc, h | ⟨t, ht, h | ⟨_, -, h⟩⟩⟩)
    · exact .inl h
    · exact .inr ⟨hc, h⟩
    · rw [commit_transact ht] at h
      cases h
    · exact h.elim
  · rintro (h | ⟨hc, h⟩)
    · exact .inl h
    · exact .inr ⟨(), hc, .inl h⟩

/-! ## One call -/

theorem call_of_select (h : c.select m.table = .ok e) : m.call c = m.execEntry e c.operands := by
  cases c with
  | key k ops => rw [call, exec, show m.table.lookup k = .ok e from h]; rfl
  | entry e' ops => cases h; rfl

theorem call_of_select_error (h : c.select m.table = .error cause) :
    m.call c = m.refuse (.ofCause m.state.regs cause) [] := by
  cases c with
  | key k ops => rw [call, exec, show m.table.lookup k = .error cause from h]
  | entry e' ops => cases h

theorem execEntry_of_error (h : m.evaluate e ops = .error cause) :
    m.execEntry e ops = m.refuse (.ofCause m.state.regs cause) (m.assumptions e ops) := by
  unfold execEntry
  rw [h]

theorem result_of_transact {t : Transaction} (hs : c.select m.table = .ok e)
    (hc : e.shape.check c.operands = .ok ()) (ht : m.transact e c.operands = .ok t) :
    (m.call c).result = .ok t.effects := by
  have he := evaluate_eq_ok_iff.mpr ⟨hc, t, ht, rfl, rfl⟩
  rw [call_of_select hs, execEntry, he]
  rfl

theorem result_of_transact_error {cause : Cause} (hs : c.select m.table = .ok e)
    (hc : e.shape.check c.operands = .ok ()) (ht : m.transact e c.operands = .error cause) :
    (m.call c).result = .error (.ofCause m.state.regs cause) := by
  rw [call_of_select hs, execEntry_of_error (evaluate_eq_error_iff.mpr (.inr ⟨hc, ht⟩))]
  rfl

/-- **An executed call**: the entry that it selects accepts the operands and is evaluated, and the
new state is the replay of the effects. -/
theorem call_of_ok {fx : List Effect} (h : (m.call c).result = .ok fx) :
    ∃ e t, c.select m.table = .ok e ∧ e.shape.check c.operands = .ok () ∧
      m.transact e c.operands = .ok t ∧ t.effects = fx ∧ (m.call c).faults = [] ∧
      (m.call c).machine =
        { m with state := Effect.replay m.state fx, executed := m.executed + 1 } := by
  cases hs : c.select m.table with
  | error cause =>
    rw [call_of_select_error hs] at h
    cases h
  | ok e =>
    rw [call_of_select hs] at h ⊢
    cases he : m.evaluate e c.operands with
    | error cause =>
      rw [execEntry_of_error he] at h
      cases h
    | ok r =>
      obtain ⟨s, gx⟩ := r
      simp only [execEntry, he] at h ⊢
      cases h
      obtain ⟨hc, t, ht, hfx, rfl⟩ := evaluate_eq_ok_iff.mp he
      exact ⟨e, t, rfl, hc, ht, hfx, rfl, rfl⟩

/-- **A refused call**: the machine stays, the fault handler sees the division faults, and the
cause comes from the selection, from the check of the operands or from the operation. -/
theorem call_of_error {err : Error} (h : (m.call c).result = .error err) :
    ∃ cause, err = .ofCause m.state.regs cause ∧ (m.call c).machine = m ∧
      (m.call c).faults = (if err.isFault then [(m.state, err)] else []) ∧
      (c.select m.table = .error cause ∨ ∃ e, c.select m.table = .ok e ∧
        (e.shape.check c.operands = .error cause ∨ m.transact e c.operands = .error cause)) := by
  cases hs : c.select m.table with
  | error cause =>
    rw [call_of_select_error hs] at h ⊢
    cases h
    exact ⟨cause, rfl, rfl, rfl, .inl rfl⟩
  | ok e =>
    rw [call_of_select hs] at h ⊢
    cases he : m.evaluate e c.operands with
    | error cause =>
      rw [execEntry_of_error he] at h ⊢
      cases h
      refine ⟨cause, rfl, rfl, rfl, .inr ⟨e, rfl, ?_⟩⟩
      exact (evaluate_eq_error_iff.mp he).imp id And.right
    | ok r =>
      simp only [execEntry, he] at h
      cases h

theorem call_of_transact {t : Transaction} (hs : c.select m.table = .ok e)
    (hc : e.shape.check c.operands = .ok ()) (ht : m.transact e c.operands = .ok t) :
    (m.call c).succeeded ∧ (m.call c).machine = { m with
      state := ⟨t.regs, t.stores.foldl Memory.apply m.state.mem⟩, executed := m.executed + 1 } := by
  have hr := result_of_transact hs hc ht
  obtain ⟨_, _, -, -, -, -, -, hm⟩ := call_of_ok hr
  rw [replay_transact ht] at hm
  exact ⟨by rw [Response.succeeded, hr], hm⟩

theorem succeeded_iff_transact (hs : c.select m.table = .ok e)
    (hc : e.shape.check c.operands = .ok ()) :
    (m.call c).succeeded ↔ ∃ t, m.transact e c.operands = .ok t := by
  rw [Response.succeeded_iff]
  constructor
  · rintro ⟨fx, h⟩
    obtain ⟨_, t, hs', -, ht, -⟩ := call_of_ok h
    cases hs.symm.trans hs'
    exact ⟨t, ht⟩
  · rintro ⟨t, ht⟩
    exact ⟨_, result_of_transact hs hc ht⟩

/-! ## Runs -/

theorem state_call (m : Machine) (c : Call) :
    (m.call c).machine.state = Effect.replay m.state (m.call c).effects := by
  unfold Response.effects
  cases h : (m.call c).result with
  | ok fx =>
    obtain ⟨e, t, -, -, -, -, -, hm⟩ := call_of_ok h
    rw [hm]
  | error err =>
    obtain ⟨_, -, hm, -⟩ := call_of_error h
    rw [hm]
    rfl

theorem state_of_ok {fx : List Effect} (h : (m.call c).result = .ok fx) :
    (m.call c).machine.state = Effect.replay m.state fx := by
  rw [state_call, Response.effects, h]

theorem executed_call (m : Machine) (c : Call) :
    (m.call c).machine.executed = m.executed + (if (m.call c).succeeded then 1 else 0) ∧
      (m.call c).machine.options = m.options ∧ (m.call c).machine.table = m.table := by
  unfold Response.succeeded
  cases h : (m.call c).result with
  | ok fx =>
    obtain ⟨e, t, -, -, -, -, -, hm⟩ := call_of_ok h
    rw [hm]
    exact ⟨rfl, rfl, rfl⟩
  | error err =>
    obtain ⟨_, -, hm, -⟩ := call_of_error h
    rw [hm]
    exact ⟨rfl, rfl, rfl⟩

theorem machine_call (m : Machine) (c : Call) :
    (m.call c).machine = { m with
      state := Effect.replay m.state (m.call c).effects
      executed := m.executed + if (m.call c).succeeded then 1 else 0 } := by
  unfold Response.effects Response.succeeded
  cases h : (m.call c).result with
  | ok fx =>
    obtain ⟨e, t, -, -, -, -, -, hm⟩ := call_of_ok h
    rw [hm]
    rfl
  | error err =>
    obtain ⟨_, -, hm, -⟩ := call_of_error h
    rw [hm]
    rfl

theorem machine_call_congr {c d : Call} (hfx : (m.call c).effects = (m.call d).effects)
    (hok : (m.call c).succeeded = (m.call d).succeeded) :
    (m.call c).machine = (m.call d).machine := by
  rw [machine_call, machine_call, hfx, hok]

theorem state_run (m : Machine) (cs : List Call) :
    (m.run cs).state = Effect.replay m.state ((m.responses cs).flatMap Response.effects) := by
  -- The rest of a run starts from the machine that its first call leaves.
  induction cs generalizing m with
  | nil => rfl
  | cons c cs ih =>
    change ((m.call c).machine.run cs).state = _
    rw [ih, state_call, responses, List.flatMap_cons, Effect.replay_append]

theorem executed_run (m : Machine) (cs : List Call) :
    (m.run cs).executed = m.executed + (m.responses cs).countP Response.succeeded ∧
      (m.run cs).options = m.options ∧ (m.run cs).table = m.table := by
  induction cs generalizing m with
  | nil => exact ⟨rfl, rfl, rfl⟩
  | cons c cs ih =>
    obtain ⟨hx, ho, ht⟩ := ih (m.call c).machine
    obtain ⟨hx', ho', ht'⟩ := executed_call m c
    refine ⟨?_, ho.trans ho', ht.trans ht'⟩
    change ((m.call c).machine.run cs).executed = _
    rw [hx, hx', responses, List.countP_cons]
    omega

/-- **Effects are complete.** The state after a run is the replay of the effects of the executed
calls, in order and joined to one list. Every executed call is counted once, and a run keeps the
options and the table. In the replay, a write to a register is one to the register file. A write to
memory stores the bytes of its value from the lowest on at ascending addresses, an assignment gives
one flag its value, and both keep everything else. A barrier changes nothing. -/
theorem run_eq_replay (m : Machine) (cs : List Call) :
    (m.run cs).state = Effect.replay m.state ((m.responses cs).flatMap Response.effects) ∧
      (m.run cs).executed = m.executed + (m.responses cs).countP Response.succeeded ∧
      (m.run cs).options = m.options ∧ (m.run cs).table = m.table ∧
      (∀ s r v, Effect.act s (.writeReg r v) = { s with regs := s.regs.write r v }) ∧
      (∀ s r v, let s' := Effect.act s (.writeMem r v)
        s'.regs = s.regs ∧ ∀ a, s'.mem.byte? a =
          if (a - r.address).toNat < r.width.bytes then some (v.byte (a - r.address).toNat)
          else s.mem.byte? a) ∧
      (∀ s n v, let s' := Effect.act s (.setFlag n v)
        s'.mem = s.mem ∧ (∀ q, s'.regs.slot q = s.regs.slot q) ∧
          ∀ k, s'.regs.flags.get k = if n = k then v else s.regs.flags.get k) ∧
      ∀ s b, Effect.act s (.barrier b) = s := by
  obtain ⟨hx, ho, ht⟩ := executed_run m cs
  refine ⟨state_run m cs, hx, ho, ht, fun s r v => rfl, fun s r v => ⟨rfl, fun a => ?_⟩,
    fun s n v => ⟨rfl, fun q => RegFile.slot_setFlag s.regs n v q, fun k => ?_⟩, fun s b => rfl⟩
  · exact Effect.byte?_act_writeMem s r v a
  · exact Flags.get_set s.regs.flags n k v

end Machine

end X86
