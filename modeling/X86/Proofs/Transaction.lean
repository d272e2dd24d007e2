import X86.Instruction
import X86.Proofs.Memory

/-!
# What a transaction keeps in step

A transaction holds the working registers, the pending stores and the effects side by side. They
always tell the same story: replaying the effects on the state before gives the working registers
and the memory with all stores made, and the range of every pending store is mapped. So a
transaction that was built by an instruction can always be committed.

* `Flags.get_assign_map`, `State.read_act_writing`, `State.read_replay`: what effects do to flags
  and operands;
* `Transaction.Coherent`: the invariant, with `coherent_begin` and `Coherent.act`;
* `Transaction.act_cases`, `Transaction.act_eq_error`: what one action can do, and why it can fail;
* `Transaction.perform_of_act`: what every action keeps, a list of actions keeps;
* `Transaction.effects_perform`, `Transaction.flags_perform`: the effects and flags after actions;
* `Transaction.Coherent.commit`: a coherent transaction commits to the replay of its effects.
-/

namespace X86

/-- The flags after assignments in order. -/
def Flags.assign (f : Flags) (u : FlagUpdate) : Flags :=
  u.foldl (fun f p => f.set p.1 p.2) f

/-- The effect of writing a value to an operand, which only a writable operand has. -/
def Operand.writing (op : Operand) (v : Lanes) : Option Effect :=
  match op with
  | .regW r => some (.writeReg r (Lanes.trunc r.width v))
  | .memW m => some (.writeMem m (Lanes.trunc m.width v))
  | _ => none

/-- The effects of an action. -/
def Action.effects : Action → List Effect
  | .write op v => (op.writing v).toList
  | .barrier b => [.barrier b]
  | .assign u => u.map fun p => .setFlag p.1 p.2

/-- The assignments to flags that an action makes. -/
def Action.update : Action → FlagUpdate
  | .assign u => u
  | _ => []

/-- Whether an effect writes a register or memory. -/
def Effect.isWrite : Effect → Bool
  | writeReg _ _ | writeMem _ _ => true
  | barrier _ | setFlag _ _ => false

/-! ## Flags and operands after effects -/

theorem Flags.get_assign_map (f : Flags) (names : List FlagName) (v : FlagName → Flag)
    (n : FlagName) :
    (f.assign (names.map fun n => (n, v n))).get n = if n ∈ names then v n else f.get n := by
  induction names generalizing f with
  | nil => rfl
  | cons n' names ih =>
    change ((f.set n' (v n')).assign (names.map fun n => (n, v n))).get n = _
    rw [ih, Flags.get_set]
    by_cases h : n ∈ names
    · simp [h]
    · by_cases h' : n' = n
      · simp [h']
      · simp [h, h', Ne.symm h']

theorem State.read_act_writing {s : State} {op : Operand} {v : Lanes} {e : Effect}
    (h : op.writing v = some e) : (Effect.act s e).read op = .ok (Lanes.trunc op.width v) := by
  cases op with
  | regW r =>
    cases h
    exact congrArg Except.ok ((RegFile.read_write _ _ _).trans (Lanes.trunc_trunc _ _))
  | memW m =>
    cases h
    have hr := Memory.read_apply s.mem ⟨m.address, m.width, Lanes.trunc m.width v⟩
    rw [Lanes.trunc_trunc] at hr
    exact hr
  | reg r | mem m | imm v w => cases h

theorem State.read_replay {fx : List Effect} (h : ∀ e ∈ fx, e.isWrite = false) (s : State)
    (op : Operand) : (Effect.replay s fx).read op = s.read op := by
  induction fx generalizing s with
  | nil => rfl
  | cons e fx ih =>
    have hw := h e List.mem_cons_self
    have he : (Effect.act s e).read op = s.read op := by
      cases e with
      | writeReg r v | writeMem m v => cases hw
      | barrier b => rfl
      | setFlag n v =>
        cases op with
        | reg r | regW r => simp [Effect.act, State.read, RegFile.read]
        | mem m | memW m | imm v w => rfl
    change (Effect.replay (Effect.act s e) fx).read op = _
    rw [ih fun e he => h e (List.mem_cons_of_mem _ he), he]

theorem Effect.replay_append (s : State) (fx gx : List Effect) :
    Effect.replay s (fx ++ gx) = Effect.replay (Effect.replay s fx) gx :=
  List.foldl_append

namespace Transaction

variable {t t' : Transaction} {a : Action} {as : List Action}

/-! ## One action and a list of actions -/

theorem setFlags_eq (t : Transaction) (u : FlagUpdate) :
    t.setFlags u = { t with
      regs := { t.regs with flags := t.regs.flags.assign u },
      effects := t.effects ++ u.map fun p => .setFlag p.1 p.2 } := by
  induction u generalizing t with
  | nil => simp [setFlags, Flags.assign]
  | cons p u ih =>
    change (t.setFlag p.1 p.2).setFlags u = _
    rw [ih]
    simp [setFlag, RegFile.setFlag, Flags.assign]

theorem act_cases (h : t.act a = .ok t') :
    (∃ r v, a = .write (.regW r) v ∧ t' = t.writeReg r v) ∨
    (∃ m v, a = .write (.memW m) v ∧ t.before.mem.check m.address m.width = .ok () ∧
      t' = t.store m v) ∨
    (∃ b, a = .barrier b ∧ t' = t.barrier b) ∨
    (∃ u, a = .assign u ∧ t' = t.setFlags u) := by
  cases a with
  | write op v =>
    cases op with
    | regW r => cases h; exact .inl ⟨r, v, rfl, rfl⟩
    | memW m =>
      obtain ⟨_, hc, h⟩ := Except.bind_eq_ok_iff.mp h
      cases h
      exact .inr (.inl ⟨m, v, rfl, hc, rfl⟩)
    | reg r | mem m | imm v w => cases h
  | barrier b => cases h; exact .inr (.inr (.inl ⟨b, rfl, rfl⟩))
  | assign u => cases h; exact .inr (.inr (.inr ⟨u, rfl, rfl⟩))

/-- An action fails only when it writes an operand that is read-only or not mapped. -/
theorem act_eq_error {c : Cause} (h : t.act a = .error c) :
    (∃ op, c = .readOnly op) ∨ ∃ w x, c = .unmappedWrite w x := by
  cases a with
  | write op v =>
    cases op with
    | regW r => cases h
    | memW m =>
      rcases Except.bind_eq_error_iff.mp h with h | ⟨_, -, h⟩
      · exact .inr ⟨_, _, Memory.check_eq_error h⟩
      · cases h
    | reg r | mem m | imm v w => cases h; exact .inl ⟨_, rfl⟩
  | barrier b | assign u => cases h

theorem perform_cons_eq_ok_iff :
    t.perform (a :: as) = .ok t' ↔ ∃ u, t.act a = .ok u ∧ u.perform as = .ok t' :=
  Except.bind_eq_ok_iff

theorem perform_append_eq_ok_iff {bs : List Action} :
    t.perform (as ++ bs) = .ok t' ↔ ∃ u, t.perform as = .ok u ∧ u.perform bs = .ok t' := by
  induction as generalizing t with
  | nil => simp [perform]
  | cons a as ih =>
    simp only [List.cons_append, perform_cons_eq_ok_iff, ih]
    constructor
    · rintro ⟨u, hu, v, hv, h⟩
      exact ⟨v, ⟨u, hu, hv⟩, h⟩
    · rintro ⟨v, ⟨u, hu, hv⟩, h⟩
      exact ⟨u, hu, v, hv, h⟩

theorem writing_of_act {op : Operand} {v : Lanes} (h : t.act (.write op v) = .ok t') :
    ∃ e, op.writing v = some e ∧ e.isWrite := by
  cases op with
  | regW r | memW m => exact ⟨_, rfl, rfl⟩
  | reg r | mem m | imm v w => cases h

/-- **What every action keeps, a list of actions keeps.** -/
theorem perform_of_act {P : Transaction → Prop}
    (hact : ∀ {t a t'}, t.act a = .ok t' → P t → P t')
    (h : t.perform as = .ok t') (ht : P t) : P t' := by
  induction as generalizing t with
  | nil => cases h; exact ht
  | cons a as ih =>
    obtain ⟨u, hu, h⟩ := perform_cons_eq_ok_iff.mp h
    exact ih h (hact hu ht)

theorem exists_act_eq_error {c : Cause} (h : t.perform as = .error c) :
    ∃ a ∈ as, ∃ u : Transaction, u.act a = .error c := by
  induction as generalizing t with
  | nil => cases h
  | cons a as ih =>
    rcases Except.bind_eq_error_iff.mp h with h | ⟨u, -, h⟩
    · exact ⟨a, List.mem_cons_self, t, h⟩
    · obtain ⟨b, hb, hact⟩ := ih h
      exact ⟨b, List.mem_cons_of_mem a hb, hact⟩

theorem perform_eq_error {c : Cause} (h : t.perform as = .error c) :
    (∃ op, c = .readOnly op) ∨ ∃ w x, c = .unmappedWrite w x := by
  obtain ⟨_, -, _, h⟩ := exists_act_eq_error h
  exact act_eq_error h

theorem before_act (h : t.act a = .ok t') : t'.before = t.before := by
  obtain ⟨r, v, -, rfl⟩ | ⟨m, v, -, -, rfl⟩ | ⟨b, -, rfl⟩ | ⟨u, -, rfl⟩ := act_cases h
  · rfl
  · rfl
  · rfl
  · rw [setFlags_eq]

theorem before_perform (h : t.perform as = .ok t') : t'.before = t.before :=
  perform_of_act (P := fun u => u.before = t.before) (fun hu hb => (before_act hu).trans hb) h rfl

theorem effects_act (h : t.act a = .ok t') : t'.effects = t.effects ++ a.effects := by
  obtain ⟨r, v, rfl, rfl⟩ | ⟨m, v, rfl, -, rfl⟩ | ⟨b, rfl, rfl⟩ | ⟨u, rfl, rfl⟩ := act_cases h
  · rfl
  · rfl
  · rfl
  · rw [setFlags_eq]
    rfl

theorem effects_perform (h : t.perform as = .ok t') :
    t'.effects = t.effects ++ as.flatMap Action.effects := by
  induction as generalizing t with
  | nil => cases h; simp
  | cons a as ih =>
    obtain ⟨u, hu, h⟩ := perform_cons_eq_ok_iff.mp h
    rw [ih h, effects_act hu, List.flatMap_cons, List.append_assoc]

theorem flags_act (h : t.act a = .ok t') : t'.regs.flags = t.regs.flags.assign a.update := by
  obtain ⟨r, v, rfl, rfl⟩ | ⟨m, v, rfl, -, rfl⟩ | ⟨b, rfl, rfl⟩ | ⟨u, rfl, rfl⟩ := act_cases h
  · exact RegFile.flags_write _ _ _
  · rfl
  · rfl
  · rw [setFlags_eq]
    rfl

theorem flags_perform (h : t.perform as = .ok t') :
    t'.regs.flags = t.regs.flags.assign (as.flatMap Action.update) := by
  induction as generalizing t with
  | nil => cases h; rfl
  | cons a as ih =>
    obtain ⟨u, hu, h⟩ := perform_cons_eq_ok_iff.mp h
    rw [ih h, flags_act hu, List.flatMap_cons, Flags.assign, Flags.assign, Flags.assign,
      List.foldl_append]

/-! ## Coherence -/

/-- The effects account for the working registers and for the pending stores, and the range of
every pending store is mapped. -/
structure Coherent (t : Transaction) : Prop where
  replay_eq : Effect.replay t.before t.effects =
    ⟨t.regs, t.stores.foldl Memory.apply t.before.mem⟩
  mapped : ∀ s ∈ t.stores, t.before.mem.check s.address s.width = .ok ()

theorem coherent_begin (s : State) (o : Options) : (begin s o).Coherent where
  replay_eq := rfl
  mapped := by simp [begin]

theorem Coherent.writeReg (h : t.Coherent) (r : Reg) (v : Lanes) : (t.writeReg r v).Coherent where
  replay_eq := by
    change Effect.replay t.before (t.effects ++ _) = _
    rw [Effect.replay_append, h.replay_eq]
    rfl
  mapped := h.mapped

theorem Coherent.store (h : t.Coherent) {m : MemRef}
    (hm : t.before.mem.check m.address m.width = .ok ()) (v : Lanes) : (t.store m v).Coherent where
  replay_eq := by
    change Effect.replay t.before (t.effects ++ _) = ⟨t.regs, (t.stores ++ _).foldl _ _⟩
    rw [Effect.replay_append, h.replay_eq, List.foldl_append]
    rfl
  mapped := by
    intro s hs
    rcases List.mem_append.mp hs with hs | hs
    · exact h.mapped s hs
    · obtain rfl := List.mem_singleton.mp hs
      exact hm

theorem Coherent.barrier (h : t.Coherent) (b : Barrier) : (t.barrier b).Coherent where
  replay_eq := by
    change Effect.replay t.before (t.effects ++ _) = _
    rw [Effect.replay_append, h.replay_eq]
    rfl
  mapped := h.mapped

theorem Coherent.setFlag (h : t.Coherent) (n : FlagName) (v : Flag) : (t.setFlag n v).Coherent where
  replay_eq := by
    change Effect.replay t.before (t.effects ++ _) = _
    rw [Effect.replay_append, h.replay_eq]
    rfl
  mapped := h.mapped

theorem Coherent.setFlags (h : t.Coherent) (u : FlagUpdate) : (t.setFlags u).Coherent := by
  induction u generalizing t with
  | nil => exact h
  | cons p u ih => exact ih (h.setFlag p.1 p.2)

theorem Coherent.act (hact : t.act a = .ok t') (h : t.Coherent) : t'.Coherent := by
  obtain ⟨r, v, -, rfl⟩ | ⟨m, v, -, hm, rfl⟩ | ⟨b, -, rfl⟩ | ⟨u, -, rfl⟩ := act_cases hact
  · exact h.writeReg r v
  · exact h.store hm v
  · exact h.barrier b
  · exact h.setFlags u

/-- **A coherent transaction commits to the replay of its effects.** -/
theorem Coherent.commit (h : t.Coherent) : t.commit = .ok (Effect.replay t.before t.effects) := by
  rw [Transaction.commit, Memory.commit_eq_ok_iff.mpr ⟨h.mapped, rfl⟩, h.replay_eq]
  rfl

end Transaction

/-! ## The evaluation of an operation -/

namespace Op

variable {op : Op} {i : Invocation} {t t' : Transaction}

theorem eval_eq_ok_iff : op.eval i t = .ok t' ↔
    ∃ as, (op.actions t.options i).run t = .ok as ∧ t.perform as = .ok t' :=
  Except.bind_eq_ok_iff

theorem eval_of_run {as : List Action} (h : (op.actions t.options i).run t = .ok as) :
    op.eval i t = t.perform as := by
  rw [eval, h]
  rfl

theorem before_eval (h : op.eval i t = .ok t') : t'.before = t.before := by
  obtain ⟨as, -, h⟩ := eval_eq_ok_iff.mp h
  exact Transaction.before_perform h

theorem coherent_eval (h : op.eval i t = .ok t') (ht : t.Coherent) : t'.Coherent := by
  obtain ⟨as, -, h⟩ := eval_eq_ok_iff.mp h
  exact Transaction.perform_of_act (fun ha => Transaction.Coherent.act ha) h ht

end Op

end X86
