import X86.Proofs.Arithmetic
import X86.Proofs.Layout

/-!
# When an instruction can be executed

An instruction is executed exactly when everything that it asks for has an answer and everything
that it writes can be written. The condition is found step by step: questions that are asked one
after the other are all answered when each of them is.

* `Except.Ends`, `Fetch.Ends`: a condition for success together with what then holds and with the
  failures otherwise; `Fetch.Ends.bind` joins the conditions of two steps;
* `State.Maps`, `State.exists_read_iff`: the operands that can be read;
* `Product.ends_ofFactors`, `Shifted.exists_left`, `Shifted.exists_right`: arithmetic that
  cannot fail;
* `Invocation.ends_…`: the condition for each instruction;
* `Op.Ready`, `Op.Refuses`, **`Op.ends_actions`**: the condition for every operation;
* **`Machine.ends_transact`**: when an entry is executed on its operands.
-/

namespace Except

variable {ε α β : Type} {Q Q' : Prop} {P P' : α → Prop} {R : β → Prop} {F : ε → Prop}

/-- A computation has a value, and one with some property, exactly if a condition holds, and ends
with one of some failures otherwise. -/
def Ends (Q : Prop) (P : α → Prop) (F : ε → Prop) : Except ε α → Prop
  | ok a => Q ∧ P a
  | error c => ¬ Q ∧ F c

namespace Ends

theorem pure {a : α} (h : P a) : (Pure.pure a : Except ε α).Ends True P F :=
  ⟨trivial, h⟩

theorem exists_iff {x : Except ε α} (h : x.Ends Q P F) : (∃ a, x = .ok a) ↔ Q := by
  cases x with
  | ok a => exact iff_of_true ⟨a, rfl⟩ h.1
  | error c => exact iff_of_false nofun h.1

theorem of_ok {x : Except ε α} (h : x.Ends Q P F) {a : α} (ha : x = .ok a) : P a := by
  subst ha
  exact h.2

theorem of_error {x : Except ε α} (h : x.Ends Q P F) {c : ε} (hc : x = .error c) : F c := by
  subst hc
  exact h.2

theorem attach {x : Except ε α} (h : x.Ends Q P F) : x.Ends Q (fun a => x = ok a) F := by
  cases x with
  | ok a => exact ⟨h.1, rfl⟩
  | error c => exact h

theorem mono {x : Except ε α} {F' : ε → Prop} (h : x.Ends Q P F) (hq : Q ↔ Q')
    (hp : ∀ a, P a → P' a) (hf : ∀ c, F c → F' c) : x.Ends Q' P' F' := by
  cases x with
  | ok a => exact ⟨hq.mp h.1, hp a h.2⟩
  | error c => exact ⟨mt hq.mpr h.1, hf c h.2⟩

/-- **Two steps both succeed** if the condition of each of them holds. -/
theorem bind {x : Except ε β} {f : β → Except ε α} (hx : x.Ends Q R F)
    (hf : ∀ b, R b → (f b).Ends Q' P F) : (x >>= f).Ends (Q ∧ Q') P F := by
  cases x with
  | error c => exact ⟨fun h => hx.1 h.1, hx.2⟩
  | ok b =>
    obtain ⟨hq, hr⟩ := hx
    exact (hf b hr).mono ⟨fun h => ⟨hq, h⟩, And.right⟩ (fun _ => id) fun _ => id

end Ends

end Except

namespace X86

namespace Fetch

variable {α β : Type} {t : Transaction} {Q Q' : Prop} {P P' : α → Prop} {R : β → Prop}
  {F : Cause → Prop}

/-- Questions are all answered exactly if a condition holds. -/
def Ends (t : Transaction) (Q : Prop) (P : α → Prop) (F : Cause → Prop) (x : Fetch α) : Prop :=
  (x.run t).Ends Q P F

namespace Ends

theorem pure {a : α} (h : P a) : (Pure.pure a : Fetch α).Ends t True P F :=
  ⟨trivial, h⟩

theorem fail {c : Cause} (h : F c) : (Fetch.fail c : Fetch α).Ends t False P F :=
  ⟨not_false, h⟩

theorem bind {x : Fetch β} {f : β → Fetch α} (hx : x.Ends t Q R F)
    (hf : ∀ b, R b → (f b).Ends t Q' P F) : (x >>= f).Ends t (Q ∧ Q') P F := by
  unfold Ends
  rw [run_bind]
  exact Except.Ends.bind hx hf

theorem of_iff {x : Fetch α} (h : x.Ends t Q P F) (hq : Q ↔ Q') : x.Ends t Q' P F :=
  Except.Ends.mono h hq (fun _ => id) fun _ => id

theorem imp {x : Fetch α} (h : x.Ends t Q P F) (hp : ∀ a, P a → P' a) : x.Ends t Q P' F :=
  Except.Ends.mono h Iff.rfl hp fun _ => id

theorem bind_total {x : Fetch β} {f : β → Fetch α} (hx : x.Ends t Q R F)
    (hf : ∀ b, R b → (f b).Ends t True P F) : (x >>= f).Ends t Q P F :=
  (hx.bind hf).of_iff (Iff.of_eq (and_true Q))

theorem total_bind {x : Fetch β} {f : β → Fetch α} (hx : x.Ends t True R F)
    (hf : ∀ b, R b → (f b).Ends t Q P F) : (x >>= f).Ends t Q P F :=
  (hx.bind hf).of_iff (Iff.of_eq (true_and Q))

theorem ofExcept {x : Except Cause α} (h : x.Ends Q P F) : (Fetch.ofExcept x).Ends t Q P F := by
  unfold Ends
  rw [run_ofExcept]
  exact h

end Ends

end Fetch

/-! ## Operands that can be read and written -/

theorem Memory.exists_readBytes_iff {m : Memory} {a : Address} {len : Nat} :
    (∃ bs, m.readBytes a len = .ok bs) ↔ m.isMapped a len := by
  induction len generalizing a with
  | zero => exact iff_of_true ⟨[], rfl⟩ rfl
  | succ len ih =>
    simp only [readBytes, isMapped, Except.bind_eq_ok_iff, Except.pure_eq_ok_iff,
      readByte_eq_ok_iff, Bool.and_eq_true, Option.isSome_iff_exists, ← ih]
    constructor
    · rintro ⟨_, b, hb, bs, hbs, -⟩
      exact ⟨⟨b, hb⟩, bs, hbs⟩
    · rintro ⟨⟨b, hb⟩, bs, hbs⟩
      exact ⟨_, b, hb, bs, hbs, rfl⟩

theorem Memory.exists_read_iff {m : Memory} {a : Address} {w : Width} :
    (∃ l, m.read a w = .ok l) ↔ m.check a w = .ok () := by
  have hr : (∃ l, m.read a w = .ok l) ↔ ∃ bs, m.readBytes a w.bytes = .ok bs := by
    constructor
    · rintro ⟨l, h⟩
      obtain ⟨bs, hbs, -⟩ := Except.bind_eq_ok_iff.mp h
      exact ⟨bs, hbs⟩
    · rintro ⟨bs, hbs⟩
      exact ⟨_, Except.bind_eq_ok_iff.mpr ⟨bs, hbs, rfl⟩⟩
  rw [hr, exists_readBytes_iff, check]
  split <;> simp [*]

namespace State

variable {s : State} {x : Operand}

/-- All bytes of an operand are mapped, if it is in memory. -/
def Maps (s : State) (x : Operand) : Prop :=
  ∀ a, x.Names (.byte a) → (s.mem.byte? a).isSome

/-- An operand fits a word and can be read. -/
def HasWord (s : State) (x : Operand) : Prop :=
  s.Maps x ∧ x.width.isScalar

/-- An operand can be written. -/
def Accepts (s : State) (x : Operand) : Prop :=
  s.Maps x ∧ x.isWritable

theorem check_iff_maps {m : MemRef} :
    s.mem.check m.address m.width = .ok () ↔ s.Maps (.memW m) :=
  Memory.check_eq_ok_iff

/-- **An operand has a value** when all its bytes are mapped. -/
theorem exists_read_iff : (∃ l, s.read x = .ok l) ↔ s.Maps x := by
  cases x with
  | reg r | regW r | imm v w => exact iff_of_true ⟨_, rfl⟩ fun _ h => h.elim
  | mem m | memW m =>
    change (∃ l, s.mem.read m.address m.width = .ok l) ↔ s.Maps (.memW m)
    exact Memory.exists_read_iff.trans check_iff_maps

end State

/-- A vector register. -/
def Operand.IsVector (x : Operand) : Prop :=
  ∃ r, x.register? = some r ∧ r.isGpr = false

/-! ## Arithmetic that cannot fail -/

theorem Checked.ends_shift {n : Nat} (amount : Nat) (v : BitVec n) :
    (shift amount v).Ends (amount < n) (fun _ => True) fun c => c.kind = .general := by
  unfold shift
  split
  · exact ⟨‹_›, trivial⟩
  · exact ⟨‹_›, rfl⟩

/-- **Factors have a product** exactly at the widths of words. -/
theorem Product.ends_ofFactors (s : Sign) (w : Width) (a b : Word) :
    (ofFactors s w a b).Ends w.isScalar (fun _ => True) fun c => c.kind = .general := by
  have hbits : w.isScalar ↔ w.bits < 128 := by cases w <;> decide
  have hwide : (Checked.wideProduct s (s.value w a) (s.value w b)).Ends True (fun _ => True)
      fun c => c.kind = .general := by
    rw [Checked.wideProduct_of_isWide (Checked.isWide_mul s w a b)]
    exact ⟨trivial, trivial⟩
  have hshift (p : Wide) : (Checked.shiftRightBy s p w.bits).Ends (w.bits < 128) (fun _ => True)
      fun c => c.kind = .general := by
    cases s <;> exact Checked.ends_shift _ _
  have hboth : (ofFactors s w a b).Ends (True ∧ w.bits < 128 ∧ True) (fun _ => True)
      fun c => c.kind = .general :=
    hwide.bind fun p _ => (hshift p).bind fun q _ => .pure trivial
  exact hboth.mono (by simp [hbits]) (fun _ => id) fun _ => id

namespace Shifted

variable {w : Width} {v : Word} {count : Nat} {s : Sign}

theorem exists_left (hpos : count ≠ 0) (h : count < 64) : ∃ r, left w v count = .ok r := by
  unfold left
  split
  · exact ⟨_, rfl⟩
  · split
    · rw [Checked.sub_of_le (by omega)]
      change ∃ r, (Checked.shift (count - 1) (v <<< (count - 1)) >>= _) = .ok r
      rw [Checked.shift_of_lt (by omega)]
      exact ⟨_, rfl⟩
    · exact ⟨_, rfl⟩

theorem exists_moveRight (h : count < 64) : ∃ r, moveRight s w v count = .ok r := by
  cases s with
  | unsigned => exact ⟨_, Checked.shift_of_lt h _⟩
  | signed =>
    rw [moveRight, Checked.shiftRightSigned, Checked.shift_of_lt h]
    exact ⟨_, rfl⟩

theorem exists_right (hpos : count ≠ 0) (h : count < 64) : ∃ r, right s w v count = .ok r := by
  unfold right
  split
  · obtain ⟨r, hr⟩ : ∃ r, moveRight s w v 1 = .ok r := exists_moveRight (by norm_num)
    rw [hr]
    exact ⟨_, rfl⟩
  · split
    · obtain ⟨q, hq⟩ : ∃ q, moveRight s w v (count - 1) = .ok q := exists_moveRight (by omega)
      obtain ⟨r, hr⟩ : ∃ r, moveRight s w v count = .ok r := exists_moveRight h
      rw [Checked.sub_of_le (by omega)]
      change ∃ r', (moveRight s w v (count - 1) >>= fun _ => moveRight s w v count >>= _) = _
      rw [hq]
      change ∃ r', (moveRight s w v count >>= _) = _
      rw [hr]
      exact ⟨_, rfl⟩
    · exact ⟨_, rfl⟩

end Shifted

/-! ## Instructions -/

/-- A division has a quotient, and one that some word stands for if the options ask for that. -/
def RegFile.Divides (r : RegFile) (o : Options) (s : Sign) (w : Width) (divisor : Word) : Prop :=
  s.value w divisor ≠ 0 ∧
    (o.divChecks → s.InRange w ((r.dividend s w).tdiv (s.value w divisor)))

namespace Invocation

open Fetch

variable {s : State} {o : Options} {i : Invocation} {F : Cause → Prop} {k : Nat}
  {x x₀ x₁ x₂ x₃ : Operand}

theorem ends_operand (h : i.operands[k]? = some x) :
    (i.operand k).Ends (.begin s o) True (x = ·) F := by
  unfold operand
  rw [h]
  exact ⟨trivial, rfl⟩

theorem ends_product {w : Width} {sg : Sign} {a b : Word}
    (hg : ¬ w.isScalar → ∀ c, c.kind = .general → F c) :
    (Fetch.ofExcept (Product.ofFactors sg w a b)).Ends (.begin s o) w.isScalar
      (fun _ => True) F := by
  refine .ofExcept ?_
  have h := Product.ends_ofFactors sg w a b
  cases hp : Product.ofFactors sg w a b with
  | ok p => exact ⟨(hp ▸ h).1, trivial⟩
  | error c =>
    rw [hp] at h
    exact ⟨h.1, hg h.1 c h.2⟩

theorem ends_register {g : Gpr} : (i.register g).Ends (.begin s o) True (fun _ => True) F := by
  have hw : (g.view i.width).width.isScalar := by cases i.width <;> rfl
  have hr : (Transaction.begin s o).read (.reg (g.view i.width)) =
      .ok (s.regs.read (g.view i.width)).low :=
    Transaction.read_begin.mpr ⟨hw, _, rfl, rfl⟩
  unfold Fetch.Ends register
  rw [Fetch.run, hr]
  exact ⟨trivial, trivial⟩

theorem ends_dividendHalves : i.dividendHalves.Ends (.begin s o) True
    (fun p => i.width.isScalar → X86.dividend i.sign i.width p.1 p.2 =
      .ok (s.regs.dividend i.sign i.width)) F := by
  by_cases hw : i.width.isScalar
  · obtain ⟨high, low, hh, hn⟩ := run_dividendHalves (s := s) (o := o) hw i.sign
    unfold Fetch.Ends
    rw [hh]
    exact ⟨trivial, fun _ => hn⟩
  · unfold dividendHalves
    split
    · next h =>
      rw [h] at hw
      exact absurd rfl hw
    · exact .total_bind ends_register fun high _ => .total_bind ends_register fun low _ =>
        .pure fun h => absurd h hw

variable (hF : ∀ c, c.kind = .operand ∨ c.kind = .memory → F c)

include hF

/-! ### Questions -/

theorem ends_lanes (h : i.operands[k]? = some x) :
    (i.lanes k).Ends (.begin s o) (s.Maps x) (fun l => s.read x = .ok l) F := by
  refine .total_bind (ends_operand h) fun _ hx => ?_
  subst hx
  unfold Fetch.Ends
  rw [Fetch.run, Transaction.readLanes_begin]
  have hx := State.exists_read_iff (s := s) (x := x)
  cases hr : s.read x with
  | ok l => exact ⟨hx.mp ⟨l, hr⟩, rfl⟩
  | error c =>
    obtain ⟨a, rfl⟩ := Transaction.readLanes_eq_error ((Transaction.readLanes_begin s o x).trans hr)
    refine ⟨fun h => ?_, hF _ (.inr rfl)⟩
    obtain ⟨l, hl⟩ := hx.mpr h
    cases hr.symm.trans hl

theorem ends_word (h : i.operands[k]? = some x) : (i.word k).Ends (.begin s o) (s.HasWord x)
    (fun v => ∃ l, s.read x = .ok l ∧ l.low = v) F := by
  refine .total_bind (ends_operand h) fun _ hx => ?_
  subst hx
  unfold Fetch.Ends
  rw [Fetch.run]
  cases hr : (Transaction.begin s o).read x with
  | ok v =>
    obtain ⟨hw, l, hl, hv⟩ := Transaction.read_begin.mp hr
    exact ⟨⟨State.exists_read_iff.mp ⟨l, hl⟩, hw⟩, l, hl, hv⟩
  | error c =>
    refine ⟨fun h => ?_, hF _ ?_⟩
    · obtain ⟨l, hl⟩ := State.exists_read_iff.mpr h.1
      rw [Transaction.read_begin.mpr ⟨h.2, l, hl, rfl⟩] at hr
      cases hr
    · rcases Transaction.read_eq_error hr with rfl | ⟨a, rfl⟩
      · exact .inl rfl
      · exact .inr rfl

theorem ends_scalar (h : i.operands[k]? = some x) :
    (i.scalar k).Ends (.begin s o) (s.HasWord x) (fun _ => True) F :=
  .bind_total (ends_word hF h) fun _ _ => .pure trivial

theorem ends_vectorWidth (h : i.operands[k]? = some x) :
    (i.vectorWidth k).Ends (.begin s o) x.IsVector (fun _ => True) F := by
  refine .total_bind (ends_operand h) fun _ hx => ?_
  subst hx
  unfold Operand.IsVector
  cases x.register? with
  | none => exact (Ends.fail (hF _ (.inl rfl))).of_iff (by simp)
  | some r =>
    by_cases hr : r.isGpr
    · simp only [hr, if_true]
      exact (Ends.fail (hF _ (.inl rfl))).of_iff (by simp [hr])
    · simp only [hr]
      exact (Ends.pure trivial).of_iff (by simp [hr])

/-! ### Instructions without a destination -/

theorem ends_compare (h₀ : i.operands[0]? = some x₀) (h₁ : i.operands[1]? = some x₁) :
    i.compare.Ends (.begin s o) (s.HasWord x₀ ∧ s.HasWord x₁)
      (fun as => as.flatMap Action.marks = Op.cmp.layout i.width i.operands) F :=
  .bind (ends_scalar hF h₀) fun _ _ => .bind_total (ends_scalar hF h₁) fun _ _ => .pure rfl

theorem ends_testBits (h₀ : i.operands[0]? = some x₀) (h₁ : i.operands[1]? = some x₁) :
    i.testBits.Ends (.begin s o) (s.HasWord x₀ ∧ s.HasWord x₁)
      (fun as => as.flatMap Action.marks = Op.test.layout i.width i.operands) F :=
  .bind (ends_word hF h₀) fun _ _ => .bind_total (ends_word hF h₁) fun _ _ => .pure rfl

theorem ends_packedTest (h₀ : i.operands[0]? = some x₀) (h₁ : i.operands[1]? = some x₁) :
    i.packedTest.Ends (.begin s o) (x₀.IsVector ∧ s.Maps x₀ ∧ s.Maps x₁)
      (fun as => as.flatMap Action.marks = Op.ptest.layout i.width i.operands) F :=
  .bind (ends_vectorWidth hF h₀) fun _ _ => .bind (ends_lanes hF h₀) fun _ _ =>
    .bind_total (ends_lanes hF h₁) fun _ _ => .pure rfl

/-! ### Instructions with a destination -/

variable (h₀ : i.operands[0]? = some x₀) (h₁ : i.operands[1]? = some x₁)

include h₀ h₁

theorem ends_combine (r : Rule) (h₂ : i.operands[2]? = some x₂) :
    (i.combine r).Ends (.begin s o) (s.HasWord x₁ ∧ s.HasWord x₂)
      (fun as => as.flatMap Action.marks = Op.add.layout i.width i.operands) F := by
  refine .bind (ends_scalar hF h₁) fun lhs _ => .bind_total (ends_scalar hF h₂) fun rhs _ => ?_
  refine .total_bind (ends_operand h₀) fun dst hd => .pure ?_
  exact hd ▸ Op.marks_eq_layout h₀ rfl rfl

theorem ends_combineCarry (hc : F .undefinedCarry) (r : Rule) (h₂ : i.operands[2]? = some x₂) :
    (i.combineCarry r).Ends (.begin s o) (s.HasWord x₁ ∧ s.HasWord x₂ ∧ (s.carry? o).isSome)
      (fun as => as.flatMap Action.marks = Op.adc.layout i.width i.operands) F := by
  have hcarry : (Fetch.carry fun b => .done (if b then 1 else 0 : Word)).Ends (.begin s o)
      (s.carry? o).isSome (fun _ => True) F := by
    unfold Fetch.Ends
    rw [Fetch.run, State.carryIn_begin]
    cases s.carry? o with
    | none => exact ⟨Bool.false_ne_true, hc⟩
    | some b => exact ⟨rfl, trivial⟩
  refine .bind (ends_scalar hF h₁) fun lhs _ => .bind (ends_scalar hF h₂) fun rhs _ => ?_
  refine .bind_total hcarry fun carry _ => ?_
  refine .total_bind (ends_operand h₀) fun dst hd => .pure ?_
  exact hd ▸ Op.marks_eq_layout h₀ rfl rfl

theorem ends_stepBy (r : Rule) :
    (i.stepBy r).Ends (.begin s o) (s.HasWord x₁)
      (fun as => as.flatMap Action.marks = Op.inc.layout i.width i.operands) F := by
  refine .bind_total (ends_scalar hF h₁) fun val _ => ?_
  refine .total_bind (ends_operand h₀) fun dst hd => .pure ?_
  exact hd ▸ Op.marks_eq_layout h₀ rfl rfl

theorem ends_negate :
    i.negate.Ends (.begin s o) (s.HasWord x₁)
      (fun as => as.flatMap Action.marks = Op.neg.layout i.width i.operands) F := by
  refine .bind_total (ends_scalar hF h₁) fun val _ => ?_
  refine .total_bind (ends_operand h₀) fun dst hd => .pure ?_
  exact hd ▸ Op.marks_eq_layout h₀ rfl rfl

theorem ends_bitwise (f : Word → Word → Word) (h₂ : i.operands[2]? = some x₂) :
    (i.bitwise f).Ends (.begin s o) (s.HasWord x₁ ∧ s.HasWord x₂)
      (fun as => as.flatMap Action.marks = Op.and.layout i.width i.operands) F := by
  refine .bind (ends_scalar hF h₁) fun lhs _ => .bind_total (ends_scalar hF h₂) fun rhs _ => ?_
  refine .total_bind (ends_operand h₀) fun dst hd => .pure ?_
  exact hd ▸ Op.marks_eq_layout h₀ rfl rfl

theorem ends_complement :
    i.complement.Ends (.begin s o) (s.HasWord x₁)
      (fun as => as.flatMap Action.marks = Op.not.layout i.width i.operands) F := by
  refine .bind_total (ends_word hF h₁) fun val _ => ?_
  refine .total_bind (ends_operand h₀) fun dst hd => .pure ?_
  subst hd
  exact (congrArg (· ++ []) (Op.out_of_getElem? h₀)).symm

theorem ends_packed (f : Lanes → Lanes → Lanes) (h₂ : i.operands[2]? = some x₂) :
    (i.packed f).Ends (.begin s o) (x₀.IsVector ∧ s.Maps x₁ ∧ s.Maps x₂)
      (fun as => as.flatMap Action.marks = Op.pand.layout i.width i.operands) F := by
  refine .bind (ends_vectorWidth hF h₀) fun w _ => .bind (ends_lanes hF h₁) fun src₁ _ => ?_
  refine .bind_total (ends_lanes hF h₂) fun src₂ _ => ?_
  refine .total_bind (ends_operand h₀) fun dst hd => .pure ?_
  exact hd ▸ Op.marks_eq_layout h₀ rfl rfl

theorem ends_multiply (hg : ¬ i.width.isScalar → ∀ c, c.kind = .general → F c)
    (h₂ : i.operands[2]? = some x₂) :
    i.multiply.Ends (.begin s o) (s.HasWord x₁ ∧ s.HasWord x₂ ∧ i.width.isScalar)
      (fun as => as.flatMap Action.marks = Op.imul.layout i.width i.operands) F := by
  refine .bind (ends_word hF h₁) fun a _ => .bind (ends_word hF h₂) fun b _ => ?_
  refine .total_bind (ends_operand h₀) fun dst hd => ?_
  refine .bind_total (ends_product hg) fun p _ => .pure ?_
  exact hd ▸ Op.marks_eq_layout h₀ rfl rfl

theorem ends_shiftWith {op : Op} (hop : op = .shl ∨ op = .shr)
    {f : Word → Nat → Except Cause Shifted}
    (hf : ∀ v count, count ≠ 0 → count < 64 → ∃ r, f v count = .ok r)
    (h₂ : i.operands[2]? = some x₂) :
    (i.shiftWith f).Ends (.begin s o) (s.HasWord x₁ ∧ s.HasWord x₂)
      (fun as => op.LaidOut i.width s i.operands (as.flatMap Action.marks)) F := by
  refine .bind (ends_scalar hF h₁) fun v _ => .bind_total (ends_word hF h₂) fun _ hn => ?_
  obtain ⟨l, hl, rfl⟩ := hn
  have hidle : op.Idles i.width s i.operands ↔ (l.low &&& i.width.countMask).toNat = 0 := by
    rw [Op.idles_iff hop h₂ hl, ← BitVec.toNat_inj]
    rfl
  -- The number of steps counts modulo 64 or 32, so no shift is by too many bits.
  have hlt : (l.low &&& i.width.countMask).toNat < 64 := by
    rw [BitVec.toNat_and]
    exact lt_of_le_of_lt Nat.and_le_right (by cases i.width <;> decide)
  dsimp only
  split
  · next h => exact .pure ⟨fun _ => rfl, fun hn => absurd (hidle.mpr h) hn⟩
  · next h =>
    obtain ⟨r, hr⟩ := hf v _ h hlt
    refine .total_bind (ends_operand h₀) fun dst hd => ?_
    rw [hr]
    refine .pure ⟨fun hi => absurd (hidle.mp hi) h, fun _ => ?_⟩
    rcases hop with rfl | rfl <;> exact hd ▸ Op.marks_eq_layout h₀ rfl rfl

theorem ends_exchangeAdd (h₂ : i.operands[2]? = some x₂) (h₃ : i.operands[3]? = some x₃) :
    i.exchangeAdd.Ends (.begin s o) (s.HasWord x₁ ∧ s.HasWord x₃)
      (fun as => as.flatMap Action.marks = Op.xadd.layout i.width i.operands) F := by
  refine .bind (ends_scalar hF h₁) fun lhs _ => .bind_total (ends_scalar hF h₃) fun rhs _ => ?_
  refine .total_bind (ends_operand h₀) fun dst hd => ?_
  refine .total_bind (ends_operand h₂) fun exchanged he => .pure ?_
  subst hd he
  simp only [Op.layout, Op.body, Op.out_of_getElem? h₀, Op.out_of_getElem? h₂, h₀, Option.any_some]
  split <;> rfl

theorem ends_multiplyExtended (hg : ¬ i.width.isScalar → ∀ c, c.kind = .general → F c)
    (h₂ : i.operands[2]? = some x₂) :
    i.multiplyExtended.Ends (.begin s o) (s.HasWord x₂ ∧ i.width.isScalar)
      (fun as => as.flatMap Action.marks = Op.mulx.layout i.width i.operands) F := by
  refine .bind (ends_word hF h₂) fun src _ => .total_bind ends_register fun rdx _ => ?_
  refine .total_bind (ends_operand h₀) fun high hh => .total_bind (ends_operand h₁) fun low hl => ?_
  refine .bind_total (ends_product hg) fun p _ => .pure ?_
  subst hh hl
  simp only [Op.layout, Op.body, Op.out_of_getElem? h₀, Op.out_of_getElem? h₁]
  rfl

omit h₁

/-! ### Instructions that use the accumulator -/

theorem ends_multiplyAccumulator (hg : ¬ i.width.isScalar → ∀ c, c.kind = .general → F c) :
    i.multiplyAccumulator.Ends (.begin s o) (s.HasWord x₀ ∧ i.width.isScalar)
      (fun as => as.flatMap Action.marks = Op.mulAcc.layout i.width i.operands) F := by
  refine .bind (ends_word hF h₀) fun src _ => .total_bind ends_register fun acc _ => ?_
  refine .bind_total (ends_product hg) fun p _ => .pure ?_
  cases i.width <;> rfl

theorem ends_divide (hg : ¬ i.width.isScalar → ∀ c, c.kind = .general → F c)
    (hfault : ∀ c, c.kind.isFault → F c) :
    (i.divide o.divChecks).Ends (.begin s o) (s.HasWord x₀ ∧ i.width.isScalar ∧
        ∀ l, s.read x₀ = .ok l → s.regs.Divides o i.sign i.width l.low)
      (fun as => as.flatMap Action.marks = Op.divAcc.layout i.width i.operands) F := by
  refine .bind (ends_word hF h₀) fun _ hd => .total_bind ends_dividendHalves fun p hp => ?_
  obtain ⟨l, hl, rfl⟩ := hd
  have hdiv : (∀ l', s.read x₀ = .ok l' → s.regs.Divides o i.sign i.width l'.low) ↔
      s.regs.Divides o i.sign i.width l.low :=
    ⟨fun h => h l hl, fun h l' hl' => by cases hl.symm.trans hl'; exact h⟩
  rw [hdiv]
  have hquot : (Quotient.ofDividend i.sign i.width o.divChecks p.1 p.2 l.low).Ends
      (i.width.isScalar ∧ s.regs.Divides o i.sign i.width l.low) (fun _ => True) F := by
    by_cases hw : i.width.isScalar
    · rw [Quotient.ofDividend_eq (hp hw)]
      unfold RegFile.Divides
      split
      · next h => exact ⟨fun hq => hq.2.1 h, hfault _ rfl⟩
      · next h =>
        split
        · next hq => exact ⟨fun hr => hq.2 (hr.2.2 hq.1), hfault _ rfl⟩
        · next hq => exact ⟨⟨hw, h, not_and_not_right.mp hq⟩, trivial⟩
    · rw [Quotient.ofDividend, dividend_of_not_scalar hw]
      exact ⟨fun h => hw h.1, hg hw _ rfl⟩
  refine .bind_total (.ofExcept hquot) fun q _ => .pure ?_
  cases i.width <;> rfl

end Invocation

/-! ## Operations -/

namespace Op

/-- The number of operands of an operation. -/
def arity : Op → Nat
  | mulAcc | divAcc => 1
  | inc | dec | neg | cmp | not | test | ptest => 2
  | xadd => 4
  | _ => 3

/-- The positions of the operands that an operation reads. -/
def reads : Op → List Nat
  | cmp | test | ptest => [0, 1]
  | inc | dec | neg | not => [1]
  | mulAcc | divAcc => [0]
  | mulx => [2]
  | xadd => [1, 3]
  | _ => [1, 2]

/-- The operations on numbers of double width. -/
def doubles : Op → Bool
  | imul | mulAcc | mulx | divAcc => true
  | _ => false

/-- Everything that an operation asks for has an answer. -/
@[mk_iff]
structure Ready (op : Op) (s : State) (o : Options) (i : Invocation) : Prop where
  /-- operands are mapped, and fit a word unless the operation works on vectors -/
  sources : ∀ k ∈ op.reads, ∀ x, i.operands[k]? = some x →
    s.Maps x ∧ (op.packs = false → x.width.isScalar)
  vector : op.packs → ∀ x, i.operands[0]? = some x → x.IsVector
  carry : op.ReadsCarry → (s.carry? o).isSome
  width : op.doubles → i.width.isScalar
  quotient : op = divAcc → ∀ x, i.operands[0]? = some x → ∀ l, s.read x = .ok l →
    s.regs.Divides o i.sign i.width l.low

/-- The causes for which an operation can be refused. -/
def Refuses (op : Op) (w : Width) (c : Cause) : Prop :=
  c.kind = .operand ∨ c.kind = .memory ∨ op.ReadsCarry ∧ c = .undefinedCarry ∨
    op = divAcc ∧ c.kind.isFault ∨ op.doubles ∧ ¬ w.isScalar ∧ c.kind = .general

theorem ends_of_layout {op : Op} {s : State} {o : Options} {i : Invocation} {Q : Prop}
    {F : Cause → Prop} {x : Fetch (List Action)} (hop : op ≠ shl ∧ op ≠ shr)
    (h : x.Ends (.begin s o) Q
      (fun as => as.flatMap Action.marks = op.layout i.width i.operands) F)
    (hq : Q ↔ op.Ready s o i) :
    x.Ends (.begin s o) (op.Ready s o i)
      (fun as => op.LaidOut i.width s i.operands (as.flatMap Action.marks)) F :=
  (h.imp fun _ hm => .of_eq hop hm).of_iff hq

/-- **An operation is ready, or it is refused**, and then its effects are laid out. -/
theorem ends_actions (op : Op) (s : State) (o : Options) (i : Invocation)
    (hlen : i.operands.length = op.arity) :
    (op.actions o i).Ends (.begin s o) (op.Ready s o i)
      (fun as => op.LaidOut i.width s i.operands (as.flatMap Action.marks))
      (op.Refuses i.width) := by
  obtain ⟨w, sg, ops⟩ := i
  have hF : ∀ c, c.kind = .operand ∨ c.kind = .memory → op.Refuses w c :=
    fun c hc => hc.elim .inl fun h => .inr (.inl h)
  have hg : op.doubles → ¬ w.isScalar → ∀ c, c.kind = .general → op.Refuses w c :=
    fun hd hw c hc => .inr (.inr (.inr (.inr ⟨hd, hw, hc⟩)))
  cases op with
  | add | sub =>
    obtain ⟨x₀, x₁, x₂, rfl⟩ := List.length_eq_three.mp hlen
    refine ends_of_layout (by decide) (Invocation.ends_combine hF rfl rfl _ rfl) ?_
    simp [ready_iff, reads, packs, doubles, ReadsCarry, State.HasWord]
  | adc =>
    obtain ⟨x₀, x₁, x₂, rfl⟩ := List.length_eq_three.mp hlen
    have hc : adc.Refuses w .undefinedCarry := .inr (.inr (.inl ⟨.inl rfl, rfl⟩))
    refine ends_of_layout (by decide) (Invocation.ends_combineCarry hF rfl rfl hc _ rfl) ?_
    simp [ready_iff, reads, packs, doubles, ReadsCarry, State.HasWord, and_assoc]
  | sbb =>
    obtain ⟨x₀, x₁, x₂, rfl⟩ := List.length_eq_three.mp hlen
    have hc : sbb.Refuses w .undefinedCarry := .inr (.inr (.inl ⟨.inr rfl, rfl⟩))
    refine ends_of_layout (by decide) (Invocation.ends_combineCarry hF rfl rfl hc _ rfl) ?_
    simp [ready_iff, reads, packs, doubles, ReadsCarry, State.HasWord, and_assoc]
  | inc | dec =>
    obtain ⟨x₀, x₁, rfl⟩ := List.length_eq_two.mp hlen
    refine ends_of_layout (by decide) (Invocation.ends_stepBy hF rfl rfl _) ?_
    simp [ready_iff, reads, packs, doubles, ReadsCarry, State.HasWord]
  | neg =>
    obtain ⟨x₀, x₁, rfl⟩ := List.length_eq_two.mp hlen
    refine ends_of_layout (by decide) (Invocation.ends_negate hF rfl rfl) ?_
    simp [ready_iff, reads, packs, doubles, ReadsCarry, State.HasWord]
  | cmp =>
    obtain ⟨x₀, x₁, rfl⟩ := List.length_eq_two.mp hlen
    refine ends_of_layout (by decide) (Invocation.ends_compare hF rfl rfl) ?_
    simp [ready_iff, reads, packs, doubles, ReadsCarry, State.HasWord]
  | and | or | xor =>
    obtain ⟨x₀, x₁, x₂, rfl⟩ := List.length_eq_three.mp hlen
    refine ends_of_layout (by decide) (Invocation.ends_bitwise hF rfl rfl _ rfl) ?_
    simp [ready_iff, reads, packs, doubles, ReadsCarry, State.HasWord]
  | not =>
    obtain ⟨x₀, x₁, rfl⟩ := List.length_eq_two.mp hlen
    refine ends_of_layout (by decide) (Invocation.ends_complement hF rfl rfl) ?_
    simp [ready_iff, reads, packs, doubles, ReadsCarry, State.HasWord]
  | test =>
    obtain ⟨x₀, x₁, rfl⟩ := List.length_eq_two.mp hlen
    refine ends_of_layout (by decide) (Invocation.ends_testBits hF rfl rfl) ?_
    simp [ready_iff, reads, packs, doubles, ReadsCarry, State.HasWord]
  | pand | pandn | por | pxor =>
    obtain ⟨x₀, x₁, x₂, rfl⟩ := List.length_eq_three.mp hlen
    refine ends_of_layout (by decide) (Invocation.ends_packed hF rfl rfl _ rfl) ?_
    simp [ready_iff, reads, packs, doubles, ReadsCarry, and_comm]
  | ptest =>
    obtain ⟨x₀, x₁, rfl⟩ := List.length_eq_two.mp hlen
    refine ends_of_layout (by decide) (Invocation.ends_packedTest hF rfl rfl) ?_
    simp [ready_iff, reads, packs, doubles, ReadsCarry, and_comm]
  | imul =>
    obtain ⟨x₀, x₁, x₂, rfl⟩ := List.length_eq_three.mp hlen
    refine ends_of_layout (by decide) (Invocation.ends_multiply hF rfl rfl (hg rfl) rfl) ?_
    simp [ready_iff, reads, packs, doubles, ReadsCarry, State.HasWord, and_assoc]
  | mulAcc =>
    obtain ⟨x₀, rfl⟩ := List.length_eq_one_iff.mp hlen
    refine ends_of_layout (by decide) (Invocation.ends_multiplyAccumulator hF rfl (hg rfl)) ?_
    simp [ready_iff, reads, packs, doubles, ReadsCarry, State.HasWord]
  | mulx =>
    obtain ⟨x₀, x₁, x₂, rfl⟩ := List.length_eq_three.mp hlen
    refine ends_of_layout (by decide) (Invocation.ends_multiplyExtended hF rfl rfl (hg rfl) rfl) ?_
    simp [ready_iff, reads, packs, doubles, ReadsCarry, State.HasWord]
  | divAcc =>
    obtain ⟨x₀, rfl⟩ := List.length_eq_one_iff.mp hlen
    have hfault : ∀ c, c.kind.isFault → divAcc.Refuses w c :=
      fun c hc => .inr (.inr (.inr (.inl ⟨rfl, hc⟩)))
    refine ends_of_layout (by decide) (Invocation.ends_divide hF rfl (hg rfl) hfault) ?_
    simp [ready_iff, reads, packs, doubles, ReadsCarry, State.HasWord]
  | shl =>
    obtain ⟨x₀, x₁, x₂, rfl⟩ := List.length_eq_three.mp hlen
    refine (Invocation.ends_shiftWith hF rfl rfl (.inl rfl)
      (fun _ _ => Shifted.exists_left) rfl).of_iff ?_
    simp [ready_iff, reads, packs, doubles, ReadsCarry, State.HasWord]
  | shr =>
    obtain ⟨x₀, x₁, x₂, rfl⟩ := List.length_eq_three.mp hlen
    refine (Invocation.ends_shiftWith hF rfl rfl (.inr rfl)
      (fun _ _ => Shifted.exists_right) rfl).of_iff ?_
    simp [ready_iff, reads, packs, doubles, ReadsCarry, State.HasWord]
  | xadd =>
    obtain ⟨x₀, x₁, x₂, x₃, rfl⟩ := List.length_eq_four.mp hlen
    refine ends_of_layout (by decide) (Invocation.ends_exchangeAdd hF rfl rfl rfl rfl) ?_
    simp [ready_iff, reads, packs, doubles, ReadsCarry, State.HasWord]

end Op

/-! ## Entries -/

namespace Transaction

variable {t : Transaction} {as : List Action}

theorem ends_act (a : Action) :
    (t.act a).Ends (∀ x, Mark.write x ∈ a.marks → t.before.Accepts x) (fun _ => True)
      fun c => c.kind = .operand ∨ c.kind = .memory := by
  cases a with
  | barrier b => exact ⟨by simp [Action.marks], trivial⟩
  | assign u => exact ⟨by simp [Action.marks], trivial⟩
  | write x v =>
    have hx : (∀ y, Mark.write y ∈ (Action.write x v).marks → t.before.Accepts y) ↔
        t.before.Accepts x := by simp [Action.marks]
    rw [hx]
    cases x with
    | reg r | mem m | imm v w => exact ⟨fun h => Bool.false_ne_true h.2, .inl rfl⟩
    | regW r => exact ⟨⟨fun _ h => h.elim, rfl⟩, trivial⟩
    | memW m =>
      have hm := State.check_iff_maps (s := t.before) (m := m)
      change (t.before.mem.check m.address m.width >>= fun _ => .ok (t.store m v)).Ends _ _ _
      cases hc : t.before.mem.check m.address m.width with
      | ok _ => exact ⟨⟨hm.mp hc, rfl⟩, trivial⟩
      | error c =>
        rw [hc] at hm
        refine ⟨fun h => ?_, .inr ?_⟩
        · cases hm.mpr h.1
        · rw [Memory.check_eq_error hc]
          rfl

/-- **Actions are all performed** when every operand that they write can be written. -/
theorem ends_perform :
    (t.perform as).Ends (∀ x, Mark.write x ∈ as.flatMap Action.marks → t.before.Accepts x)
      (fun t' => t'.effects.map Effect.mark =
        t.effects.map Effect.mark ++ as.flatMap Action.marks)
      fun c => c.kind = .operand ∨ c.kind = .memory := by
  suffices h : (t.perform as).Ends (∀ x, Mark.write x ∈ as.flatMap Action.marks →
      t.before.Accepts x) (fun _ => True) fun c => c.kind = .operand ∨ c.kind = .memory from
    h.attach.mono Iff.rfl (fun _ => marks_perform) fun _ => id
  induction as generalizing t with
  | nil => exact ⟨by simp, trivial⟩
  | cons a as ih =>
    refine ((ends_act a).attach.bind fun u hu => before_act hu ▸ ih).mono ?_ (fun _ => id)
      fun _ => id
    simp [List.flatMap_cons, or_imp, forall_and]

end Transaction

theorem Shape.length_of_check {s : Shape} {ops : List Operand} (h : s.check ops = .ok ()) :
    s.length = ops.length := by
  unfold check at h
  split at h
  · assumption
  · cases h

namespace Machine

variable {m : Machine} {e : Entry} {ops : List Operand}

/-- **An entry is executed** exactly when everything that it asks for has an answer and, unless it
is a shift by zero, its targets can be written. -/
theorem ends_transact (hlen : ops.length = e.op.arity) :
    (m.transact e ops).Ends
      (e.op.Ready m.state m.options (e.invoke ops) ∧ (e.op.Idles e.width m.state ops ∨
        ∀ k ∈ e.op.targets, ∀ x, ops[k]? = some x → m.state.Accepts x))
      (fun t => e.op.LaidOut e.width m.state ops (t.effects.map Effect.mark))
      (e.op.Refuses e.width) := by
  refine Except.Ends.bind (Op.ends_actions e.op m.state m.options (e.invoke ops) hlen)
    fun as has => ?_
  refine Transaction.ends_perform.mono ?_ (fun t ht => ?_) fun c hc => ?_
  · by_cases hi : e.op.Idles e.width m.state ops
    · rw [has.idle hi]
      simp [hi]
    · rw [has.layout hi]
      simp only [Op.write_mem_layout_iff, Op.write_mem_body_iff]
      constructor
      · intro h
        exact .inr fun k hk x hx => h x (.inl ⟨k, hk, hx⟩)
      · rintro h x (⟨k, hk, hx⟩ | ⟨r, -, rfl⟩)
        · exact h.resolve_left hi k hk x hx
        · exact ⟨fun _ hn => hn.elim, rfl⟩
  · rw [ht]
    exact has
  · exact hc.elim .inl fun h => .inr (.inl h)

theorem laidOut_of_ok (hlen : e.shape.length = e.op.arity) {fx : List Effect}
    (h : (m.execEntry e ops).result = .ok fx) :
    e.op.LaidOut e.width m.state ops (fx.map Effect.mark) := by
  obtain ⟨e', t, he, hc, ht, rfl, -, -⟩ := call_of_ok (c := .entry e ops) h
  cases he
  exact (ends_transact ((Shape.length_of_check hc).symm.trans hlen)).of_ok ht

end Machine

end X86
