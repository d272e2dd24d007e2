import X86.Proofs.Fetch
import X86.Proofs.Register
import X86.Proofs.Transaction
import X86.Transaction.Request

/-!
# Requests to a transaction and to a state

A transaction stands for the state that it shows. Whatever is asked of it, in whatever order and
however the ranges of the stores overlap, it answers as this state would, and what it writes is
written to this state. So it can be committed at any time, and the commit leads to this state.

* `State.write`: writing an operand of a state at once;
* `Transaction.attempt_cases`: a granted request is a read or one action;
* `Transaction.coherent_after`, `Transaction.before_after`: what every request keeps;
* `Transaction.Coherent.check_view`: pending stores do not change which ranges are mapped;
* `Transaction.writeLanes_view`: writing to a transaction is writing to the state that it shows;
* **`Transaction.refines_view`**: a transaction after any requests, compared with that state.
-/

namespace X86

/-- The state after a write to an operand, which has to be writable and, in memory, mapped. -/
def State.write (s : State) (op : Operand) (v : Lanes) : Except Cause State :=
  match op with
  | .regW r => .ok { s with regs := s.regs.write r v }
  | .memW m => do return { s with mem := ← s.mem.write ⟨m.address, m.width, v⟩ }
  | _ => .error (.readOnly op)

namespace Transaction

variable {t t' : Transaction} {q : Request}

/-! ## What every request keeps -/

theorem attempt_cases {reply : Reply} (h : t.attempt q = .ok (reply, t')) :
    t' = t ∨ ∃ a, t.act a = .ok t' := by
  cases q with
  | read op | readLanes op | carryIn =>
    obtain ⟨_, -, h⟩ := Except.bind_eq_ok_iff.mp h
    cases h
    exact .inl rfl
  | readReg r | flag n =>
    cases h
    exact .inl rfl
  | write op v =>
    obtain ⟨u, hu, h⟩ := Except.bind_eq_ok_iff.mp h
    cases h
    exact .inr ⟨.write op (.ofWord v), hu⟩
  | writeLanes op v =>
    obtain ⟨u, hu, h⟩ := Except.bind_eq_ok_iff.mp h
    cases h
    exact .inr ⟨.write op v, hu⟩
  | writeReg r v =>
    cases h
    exact .inr ⟨.write (.regW r) (.ofWord v), rfl⟩
  | setFlag n v =>
    cases h
    exact .inr ⟨.assign [(n, v)], rfl⟩
  | barrier b =>
    cases h
    exact .inr ⟨.barrier b, rfl⟩
  | setFlags u =>
    cases h
    exact .inr ⟨.assign u, rfl⟩

theorem respond_of_act {P : Transaction → Prop}
    (hact : ∀ {t a t'}, t.act a = .ok t' → P t → P t') (ht : P t) (q : Request) :
    P (t.respond q).2 := by
  unfold respond
  split
  · next h =>
    obtain rfl | ⟨a, ha⟩ := attempt_cases h
    · exact ht
    · exact hact ha ht
  · exact ht

theorem after_of_act {P : Transaction → Prop}
    (hact : ∀ {t a t'}, t.act a = .ok t' → P t → P t') (ht : P t) (qs : List Request) :
    P (t.after qs) := by
  induction qs generalizing t with
  | nil => exact ht
  | cons q qs ih => exact ih (respond_of_act hact ht q)

theorem coherent_after (s : State) (o : Options) (qs : List Request) :
    ((begin s o).after qs).Coherent :=
  after_of_act (fun ha => Coherent.act ha) (coherent_begin s o) qs

theorem before_after (s : State) (o : Options) (qs : List Request) :
    ((begin s o).after qs).before = s :=
  after_of_act (P := fun t => t.before = s) (fun ha hb => (before_act ha).trans hb) rfl qs

/-! ## A transaction and the state that it shows -/

theorem Coherent.commit_stores (h : t.Coherent) :
    t.before.mem.commit t.stores = .ok t.view.mem :=
  Memory.commit_eq_ok_iff.mpr ⟨h.mapped, rfl⟩

theorem Coherent.check_view (h : t.Coherent) (a : Address) (w : Width) :
    t.before.mem.check a w = t.view.mem.check a w :=
  Memory.check_congr fun _ _ => (Memory.isSome_byte?_foldl_apply h.mapped _).symm

theorem read_view (t : Transaction) (op : Operand) : t.read op =
    if op.width.bits ≤ 64 then (t.view.read op).map Lanes.low else .error (.notScalar op) := by
  unfold read Width.isScalar
  rw [readLanes_view]
  simp only [decide_eq_true_eq]
  split
  · cases t.view.read op <;> rfl
  · rfl

/-- **Writing to a transaction is writing to the state that it shows.** -/
theorem writeLanes_view (h : t.Coherent) (op : Operand) (v : Lanes) :
    (t.writeLanes op v).map view = t.view.write op v := by
  cases op with
  | regW r =>
    change Except.ok (State.mk (t.regs.write r (Lanes.trunc r.width v)) t.view.mem) = _
    rw [RegFile.write_trunc]
    rfl
  | memW m =>
    have hstore : (t.store m v).view =
        { t.view with mem := t.view.mem.apply ⟨m.address, m.width, v⟩ } := by
      change State.mk t.regs ((t.stores ++ [_]).foldl Memory.apply t.before.mem) = _
      rw [List.foldl_append, ← Memory.apply_trunc]
      rfl
    change (t.before.mem.check m.address m.width >>= fun _ => .ok (t.store m v)).map view =
      ((t.view.mem.check m.address m.width >>= fun _ => .ok _) >>= fun mem =>
        .ok { t.view with mem := mem })
    rw [h.check_view]
    cases t.view.mem.check m.address m.width with
    | ok _ => exact congrArg Except.ok hstore
    | error c => rfl
  | reg r | mem m | imm v w => rfl

/-- **A transaction refines the state that it shows.** After any requests, granted or refused, the
pending stores can be made in the memory before. Every operand is then read as from the working
registers and the memory with these stores made, where asking for a word fails besides for wide
operands, and writing an operand succeeds, fails and acts as it does there. The state before is
still at hand, and a refused request leaves the transaction as it was. -/
theorem refines_view (s : State) (o : Options) (qs : List Request) :
    let t := (begin s o).after qs
    ∃ mem, s.mem.commit t.stores = .ok mem ∧
      (∀ op, t.readLanes op = State.read ⟨t.regs, mem⟩ op) ∧
      (∀ op, t.read op = if op.width.bits ≤ 64 then (State.read ⟨t.regs, mem⟩ op).map Lanes.low
        else .error (.notScalar op)) ∧
      (∀ op v, (t.writeLanes op v).map view = State.write ⟨t.regs, mem⟩ op v) ∧
      t.before = s ∧
      ∀ q err, (t.respond q).1 = .error err →
        (t.respond q).2.regs = t.regs ∧ (t.respond q).2.stores = t.stores ∧
          (t.respond q).2.effects = t.effects ∧ (t.respond q).2.before = s := by
  intro t
  have hb : t.before = s := before_after s o qs
  have hc : t.Coherent := coherent_after s o qs
  refine ⟨t.view.mem, ?_, t.readLanes_view, t.read_view, writeLanes_view hc, hb, ?_⟩
  · rw [← hb]
    exact hc.commit_stores
  · intro q err h
    have hq : (t.respond q).2 = t := by
      unfold respond at h ⊢
      split at h
      · cases h
      · rfl
    rw [hq]
    exact ⟨rfl, rfl, rfl, hb⟩

/-- A store of two bytes into the middle of a doubleword is seen by a read of the doubleword
before it is made, and a store to an address that is not mapped is refused. -/
theorem refines_view_overlap :
    let s : State := { mem := ({} : Memory).load 0x100 [0x11, 0x22, 0x33, 0x44] }
    let t := (begin s {}).after [.write (.memW ⟨0x101, .w16⟩) 0xbbaa]
    t.read (.mem ⟨0x100, .w32⟩) = .ok 0x44bbaa11 ∧
      (t.respond (.write (.memW ⟨0x104, .w8⟩) 1)).2.stores = t.stores := by
  intro s t
  obtain ⟨mem, hmem, -, hread, -, -, href⟩ :=
    refines_view s {} [.write (.memW ⟨0x101, .w16⟩) 0xbbaa]
  have herr : ∃ err, (t.respond (.write (.memW ⟨0x104, .w8⟩) 1)).1 = .error err := ⟨_, rfl⟩
  obtain ⟨err, herr⟩ := herr
  refine ⟨?_, (href _ err herr).2.1⟩
  rw [hread]
  cases hmem
  rfl

end Transaction

end X86
