import X86.Instruction
import X86.Proofs.Memory

/-!
# Answers to questions

The answers that an instruction gets are the values of the state that it starts from. Questions
have an answer unless an operand cannot be read or the carry flag is undefined, and none of these
failures is a division fault.

* `Invocation.run_operand`, `Invocation.run_word`, `Invocation.run_lanes`, `Invocation.run_scalar`:
  asking for operands;
* `Transaction.view`, `Transaction.readLanes_view`: the state that a transaction shows;
* `Transaction.readLanes_begin`, `Transaction.read_begin`: the answers when nothing is done yet;
* `Scope`, `Fetch.Within`: bounds on the questions, failures and results of an instruction;
* `Fetch.Within.run_error`: the failures of an instruction that is given answers;
* `Fetch.Within.run_congr`: only the answers in its scope matter.
-/

namespace X86

/-! ## Reads of a transaction -/

namespace Transaction

variable {t : Transaction} {op : Operand} {c : Cause}

/-- The state that a transaction shows: the working registers, and the memory with all pending
stores made. -/
def view (t : Transaction) : State :=
  ⟨t.regs, t.stores.foldl Memory.apply t.before.mem⟩

theorem readByte_view (t : Transaction) (a : Address) : t.readByte a = t.view.mem.readByte a := by
  unfold readByte Memory.readByte
  rw [view, Memory.byte?_foldl_apply]
  cases t.stores.reverse.findSome? (·.byteAt? a) <;> rfl

theorem readBytes_view (t : Transaction) (a : Address) (len : Nat) :
    t.readBytes a len = t.view.mem.readBytes a len := by
  induction len generalizing a with
  | zero => rfl
  | succ len ih => rw [readBytes, Memory.readBytes, readByte_view, ih]

/-- **Operands are read from the state that a transaction shows.** -/
theorem readLanes_view (t : Transaction) (op : Operand) : t.readLanes op = t.view.read op := by
  cases op with
  | reg r | regW r => rfl
  | mem m | memW m => rw [readLanes, readBytes_view]; rfl
  | imm v w => rfl

theorem readLanes_begin (s : State) (o : Options) (op : Operand) :
    (begin s o).readLanes op = s.read op :=
  readLanes_view _ op

theorem read_begin {s : State} {o : Options} {v : Word} : (begin s o).read op = .ok v ↔
    op.width.isScalar ∧ ∃ l, s.read op = .ok l ∧ l.low = v := by
  unfold read
  rw [readLanes_begin]
  split
  · simp only [Except.bind_eq_ok_iff, Except.pure_eq_ok_iff, *, true_and]
  · simp [*]

theorem readBytes_eq_error {a : Address} {len : Nat} (h : t.readBytes a len = .error c) :
    ∃ x, c = .unmappedRead x := by
  induction len generalizing a with
  | zero => cases h
  | succ len ih =>
    rcases Except.bind_eq_error_iff.mp h with h | ⟨b, -, h⟩
    · unfold readByte at h
      split at h
      · cases h
      · exact ⟨a, Memory.readByte_eq_error h⟩
    · rcases Except.bind_eq_error_iff.mp h with h | ⟨bs, -, h⟩
      · exact ih h
      · cases h

theorem readLanes_eq_error (h : t.readLanes op = .error c) : ∃ x, c = .unmappedRead x := by
  cases op with
  | reg r | regW r | imm v w => cases h
  | mem m | memW m =>
    rcases Except.bind_eq_error_iff.mp h with h | ⟨bs, -, h⟩
    · exact readBytes_eq_error h
    · cases h

theorem read_eq_error (h : t.read op = .error c) :
    c = .notScalar op ∨ ∃ x, c = .unmappedRead x := by
  unfold read at h
  split at h
  · rcases Except.bind_eq_error_iff.mp h with h | ⟨l, -, h⟩
    · exact .inr (readLanes_eq_error h)
    · cases h
  · cases h
    exact .inl rfl

theorem carryIn_eq_error (h : t.carryIn = .error c) : c = .undefinedCarry := by
  unfold carryIn at h
  split at h
  · cases h
  · split at h
    · cases h
    · cases h
      rfl

end Transaction

/-! ## Questions for operands -/

theorem Fetch.run_bind_eq_ok {α β : Type} {x : Fetch α} {f : α → Fetch β} {t : Transaction}
    {b : β} :
    (x >>= f).run t = .ok b ↔ ∃ a, x.run t = .ok a ∧ (f a).run t = .ok b := by
  rw [Fetch.run_bind, Except.bind_eq_ok_iff]

namespace Invocation

variable {i : Invocation} {t : Transaction} {k : Nat} {v : Word} {l : Lanes} {op : Operand}

theorem run_operand : (i.operand k).run t = .ok op ↔ i.operands[k]? = some op := by
  unfold operand
  split <;> simp [Fetch.run, *]

theorem run_word :
    (i.word k).run t = .ok v ↔ ∃ op, i.operands[k]? = some op ∧ t.read op = .ok v := by
  simp only [word, Fetch.run_bind_eq_ok, run_operand]
  refine exists_congr fun op => and_congr_right fun _ => ?_
  simp [Fetch.run, Except.bind_eq_ok_iff]

theorem run_lanes :
    (i.lanes k).run t = .ok l ↔ ∃ op, i.operands[k]? = some op ∧ t.readLanes op = .ok l := by
  simp only [lanes, Fetch.run_bind_eq_ok, run_operand]
  refine exists_congr fun op => and_congr_right fun _ => ?_
  simp [Fetch.run, Except.bind_eq_ok_iff]

theorem run_scalar : (i.scalar k).run t = .ok v ↔
    ∃ op, i.operands[k]? = some op ∧ ∃ u, t.read op = .ok u ∧ i.width.trunc u = v := by
  simp only [scalar, Fetch.run_bind_eq_ok, run_word, Fetch.run_pure, Except.ok.injEq]
  constructor
  · rintro ⟨u, ⟨op, hop, hu⟩, hv⟩
    exact ⟨op, hop, u, hu, hv⟩
  · rintro ⟨op, hop, u, hu, hv⟩
    exact ⟨u, ⟨op, hop, hu⟩, hv⟩

end Invocation

/-! ## What holds whatever the answers are -/

/-- Bounds on what is asked for, and on the failures that come from no question. -/
structure Scope where
  asks : Operand → Prop
  /-- whether the carry flag may be asked for -/
  carry : Prop
  fails : Cause → Prop

namespace Fetch

variable {α β : Type} {S : Scope} {P : α → Prop} {Q : β → Prop}

/-- Questions stay in a scope, and every result has a property, whatever the answers are. -/
def Within (S : Scope) (P : α → Prop) : Fetch α → Prop
  | done a => P a
  | fail c => S.fails c
  | word op next => S.asks op ∧ ∀ v, (next v).Within S P
  | lanes op next => S.asks op ∧ ∀ l, (next l).Within S P
  | carry next => S.carry ∧ ∀ b, (next b).Within S P

namespace Within

theorem pure {a : α} (h : P a) : (Pure.pure a : Fetch α).Within S P :=
  h

theorem bind {x : Fetch α} {f : α → Fetch β} (hx : x.Within S P)
    (hf : ∀ a, P a → (f a).Within S Q) : (x >>= f).Within S Q := by
  change (x.bind f).Within S Q
  induction x with
  | done a => exact hf a hx
  | fail c => exact hx
  | word op next ih => exact ⟨hx.1, fun v => ih v (hx.2 v)⟩
  | lanes op next ih => exact ⟨hx.1, fun l => ih l (hx.2 l)⟩
  | carry next ih => exact ⟨hx.1, fun b => ih b (hx.2 b)⟩

theorem ofExcept {x : Except Cause α} (h : ∀ c, x = .error c → S.fails c) :
    (Fetch.ofExcept x).Within S fun a => x = .ok a := by
  cases x with
  | ok a => exact rfl
  | error c => exact h c rfl

theorem run_ok {x : Fetch α} (h : x.Within S P) {t : Transaction} {a : α}
    (ha : x.run t = .ok a) : P a := by
  induction x with
  | done a' => cases ha; exact h
  | fail c => cases ha
  | word op next ih =>
    obtain ⟨v, -, ha⟩ := Except.bind_eq_ok_iff.mp ha
    exact ih v (h.2 v) ha
  | lanes op next ih =>
    obtain ⟨l, -, ha⟩ := Except.bind_eq_ok_iff.mp ha
    exact ih l (h.2 l) ha
  | carry next ih =>
    obtain ⟨b, -, ha⟩ := Except.bind_eq_ok_iff.mp ha
    exact ih b (h.2 b) ha

theorem run_error {x : Fetch α} (h : x.Within S P) {t : Transaction} {c : Cause}
    (hc : x.run t = .error c) :
    S.fails c ∨ (∃ op, c = .notScalar op) ∨ (∃ a, c = .unmappedRead a) ∨ c = .undefinedCarry := by
  induction x with
  | done a => cases hc
  | fail c' => cases hc; exact .inl h
  | word op next ih =>
    rcases Except.bind_eq_error_iff.mp hc with hc | ⟨v, -, hc⟩
    · rcases Transaction.read_eq_error hc with rfl | hc
      · exact .inr (.inl ⟨op, rfl⟩)
      · exact .inr (.inr (.inl hc))
    · exact ih v (h.2 v) hc
  | lanes op next ih =>
    rcases Except.bind_eq_error_iff.mp hc with hc | ⟨l, -, hc⟩
    · exact .inr (.inr (.inl (Transaction.readLanes_eq_error hc)))
    · exact ih l (h.2 l) hc
  | carry next ih =>
    rcases Except.bind_eq_error_iff.mp hc with hc | ⟨b, -, hc⟩
    · exact .inr (.inr (.inr (Transaction.carryIn_eq_error hc)))
    · exact ih b (h.2 b) hc

/-- **The answers in the scope decide**: transactions that give the same ones lead to the same
result. -/
theorem run_congr {x : Fetch α} (h : x.Within S P) {t u : Transaction}
    (hop : ∀ op, S.asks op → t.readLanes op = u.readLanes op)
    (hcf : S.carry → t.carryIn = u.carryIn) : x.run t = x.run u := by
  induction x with
  | done a => rfl
  | fail c => rfl
  | word op next ih =>
    have hr : t.read op = u.read op := by rw [Transaction.read, Transaction.read, hop op h.1]
    rw [run, run, hr]
    exact bind_congr fun v => ih v (h.2 v)
  | lanes op next ih =>
    rw [run, run, hop op h.1]
    exact bind_congr fun l => ih l (h.2 l)
  | carry next ih =>
    rw [run, run, hcf h.1]
    exact bind_congr fun b => ih b (h.2 b)

end Within

end Fetch

end X86
