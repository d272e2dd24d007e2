import X86.Proofs.Run
import X86.Proofs.Scope
import X86.Proofs.Table

/-!
# Failures and faults

A call that fails leaves the machine as it was, wherever it fails. Only the two division faults
reach the fault handler, and only divisions raise them.

* `Op.eval_eq_error`, `Shape.check_eq_error`, `Call.select_eq_error`: the failures of each stage;
* `Machine.exists_division_of_fault`: where the fault of a call comes from;
* **`Machine.call_atomic`**: what a failed call leaves behind and what the fault handler sees.
-/

namespace X86

variable {c : Cause}

namespace Op

theorem eval_eq_error {op : Op} {i : Invocation} {t : Transaction} (h : op.eval i t = .error c) :
    op.Raises c := by
  rcases Except.bind_eq_error_iff.mp h with h | ⟨as, -, h⟩
  · rcases (op.within_actions _ i).run_error h with h | ⟨_, rfl⟩ | ⟨_, rfl⟩ | rfl
    · exact h
    all_goals exact op.raises_of_plain rfl
  · rcases Transaction.perform_eq_error h with ⟨_, rfl⟩ | ⟨_, _, rfl⟩
    all_goals exact op.raises_of_plain rfl

end Op

/-! ## Calls -/

theorem Shape.exists_mismatch {s : Shape} {ops : List Operand} {position : Nat}
    (h : s.checkFrom position ops = .error c) : ∃ n x κ, c = .operandMismatch n x κ := by
  induction s generalizing position ops with
  | nil => cases ops <;> cases h
  | cons k s ih =>
    cases ops with
    | nil => cases h
    | cons op ops =>
      unfold checkFrom at h
      split at h
      · exact ih h
      · cases h
        exact ⟨_, _, _, rfl⟩

theorem Shape.check_cases {s : Shape} {ops : List Operand} (h : s.check ops = .error c) :
    (∃ n k, c = .operandCount n k) ∨ ∃ n x κ, c = .operandMismatch n x κ := by
  unfold check at h
  split at h
  · exact .inr (exists_mismatch h)
  · cases h
    exact .inl ⟨_, _, rfl⟩

theorem Shape.check_eq_error {s : Shape} {ops : List Operand} (h : s.check ops = .error c) :
    c.kind = .operand := by
  obtain ⟨_, _, rfl⟩ | ⟨_, _, _, rfl⟩ := check_cases h
  all_goals rfl

theorem Call.select_eq_error {t : Table} {call : Call} (h : call.select t = .error c) :
    c.Plain := by
  cases call with
  | key k ops =>
    change t.lookup k = .error c at h
    unfold Table.lookup at h
    split at h <;> cases h
    rfl
  | entry e ops => cases h

namespace Machine

variable {m : Machine} {call : Call} {err : Error}

theorem exists_division_of_fault (h : (m.call call).result = .error err) (hf : err.isFault) :
    err.context = some m.state.regs ∧ ∃ e, call.select m.table = .ok e ∧ e.op = .divAcc := by
  obtain ⟨c, rfl, -, -, hc⟩ := call_of_error h
  have hp : ¬ c.Plain := fun hp => by
    unfold Error.isFault Error.kind Error.ofCause at hf
    rw [hp] at hf
    cases hf
  rcases hc with hc | ⟨e, he, hc | hc⟩
  · exact absurd (Call.select_eq_error hc) hp
  · exact absurd (congrArg ErrorKind.isFault (Shape.check_eq_error hc)) hp
  · obtain ⟨hop, hs⟩ := Op.eval_eq_error hc hf
    refine ⟨?_, e, he, hop⟩
    rw [Error.ofCause, if_pos hs]

/-- **Failure is atomic.** A failed call leaves the machine as it was. The fault handler is called
once when a division fault is returned, with that fault and the state before, which is also the
state that the fault shows, and is not called otherwise. Only DIV and IDIV raise these faults, and
whatever an operation has written can be committed. -/
theorem call_atomic (m : Machine) (call : Call) :
    (∀ err, (m.call call).result = .error err →
      (m.call call).machine = m ∧
      (err.kind = .divideByZero ∨ err.kind = .divideOverflow →
        (m.call call).faults = [(m.state, err)] ∧
        err.context = some m.state.regs ∧
        ∃ e, call.select m.table = .ok e ∧ e.op = .divAcc ∧
          ∀ o t name, Table.build Rows.all o = .ok t → t.get? name = some e →
            e.key.mnemonic = "DIV" ∨ e.key.mnemonic = "IDIV") ∧
      (err.kind ≠ .divideByZero → err.kind ≠ .divideOverflow → (m.call call).faults = [])) ∧
    (∀ fx, (m.call call).result = .ok fx → (m.call call).faults = []) ∧
    ∀ e ops t, m.transact e ops = .ok t → ∃ mem, m.state.mem.commit t.stores = .ok mem := by
  refine ⟨fun err h => ?_, fun fx h => ?_, fun e ops t h => ?_⟩
  · obtain ⟨c, -, hm, hfaults, -⟩ := call_of_error h
    refine ⟨hm, fun hk => ?_, fun hz ho => ?_⟩
    · have hf : err.isFault := by
        unfold Error.isFault
        rcases hk with hk | hk <;> rw [hk] <;> rfl
      obtain ⟨hctx, e, he, hop⟩ := exists_division_of_fault h hf
      refine ⟨by rw [hfaults, if_pos hf], hctx, e, he, hop, fun o t name ht hn => ?_⟩
      have hmn := (Table.division_iff ht hn e.sign).mp ⟨hop, rfl⟩
      cases hs : e.sign with
      | unsigned => exact .inl (hmn.trans (congrArg Sign.divide hs))
      | signed => exact .inr (hmn.trans (congrArg Sign.divide hs))
    · have hf : ¬ err.isFault := by
        unfold Error.isFault ErrorKind.isFault
        split <;> simp_all
      rw [hfaults, if_neg hf]
  · obtain ⟨e, t, -, -, -, -, hfaults, -⟩ := call_of_ok h
    exact hfaults
  · -- The stores go to the memory that the transaction began with.
    obtain ⟨mem, hmem, -⟩ := Except.bind_eq_ok_iff.mp (commit_transact h)
    rw [Op.before_eval h] at hmem
    exact ⟨mem, hmem⟩

/-- The form DIV of a byte register, as an entry of a table. -/
def divisionEntry : Entry where
  key := ⟨"DIV", "GPR8", .w8⟩
  name := "DIV_GPR8_8"
  op := .divAcc
  sign := .unsigned
  width := .w8
  shape := [.r]
  mode := .any
  extension := .base

/-- A division by BL, which is zero at the start, is refused and reaches the fault handler. -/
theorem call_atomic_zero_divisor :
    ∃ err, (({} : Machine).execEntry divisionEntry [.reg (.gpr .rbx .low8)]).result = .error err ∧
      err.kind = .divideByZero ∧
      (({} : Machine).execEntry divisionEntry [.reg (.gpr .rbx .low8)]).faults = [({}, err)] := by
  have h : (({} : Machine).execEntry divisionEntry [.reg (.gpr .rbx .low8)]).result =
      .error ⟨.divideByZero .w8, some {}⟩ := rfl
  obtain ⟨-, hfault, -⟩ := (call_atomic {} (.entry divisionEntry _)).1 _ h
  exact ⟨_, h, rfl, (hfault (.inl rfl)).1⟩

end Machine

end X86
