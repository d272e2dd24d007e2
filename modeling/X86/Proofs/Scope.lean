import X86.Proofs.Checked
import X86.Proofs.Fetch

/-!
# The scope of each instruction

What an instruction may ask for, why it may fail, and where it may write, whatever the values of
its operands are. An instruction asks for nothing but its operands, and a few registers that it does
not name; only ADC and SBB ask for the carry flag. It writes the operands at fixed positions, or
registers that it does not name.

* `Op.targets`, `Op.sources`, `Op.sinks`: what operations write and read;
* `Op.Asks`, `Op.Targets`, `Op.Raises`, `Op.scope`: the bounds for an operation;
* `Invocation.within_…`: every instruction keeps them;
* **`Op.within_actions`**: every operation keeps them.
-/

namespace X86

/-- All operands that a list of actions writes have a property. -/
def Action.WritesOnly (W : Operand → Prop) : List Action → Prop
  | [] => True
  | .write op _ :: as => W op ∧ WritesOnly W as
  | .barrier _ :: as | .assign _ :: as => WritesOnly W as

theorem Action.writesOnly_append {W : Operand → Prop} {as bs : List Action} :
    WritesOnly W (as ++ bs) ↔ WritesOnly W as ∧ WritesOnly W bs := by
  induction as with
  | nil => simp [WritesOnly]
  | cons a as ih => cases a <;> simp [WritesOnly, ih, and_assoc]

/-- The registers that hold a number of double width. Bytes have both halves in AX. -/
def Width.accumulators : Width → List Gpr
  | .w8 => [.rax]
  | _ => [.rax, .rdx]

theorem Width.rax_mem_accumulators (w : Width) : .rax ∈ w.accumulators := by
  cases w <;> decide

theorem Width.rdx_mem_accumulators {w : Width} (h : w ≠ .w8) : .rdx ∈ w.accumulators := by
  cases w with
  | w8 => exact absurd rfl h
  | _ => decide

theorem Gpr.slot_view (g : Gpr) (w : Width) : (g.view w).slot = .gpr g := by
  cases w <;> rfl

variable {c : Cause}

/-! ## Operations with a limited range -/

theorem Quotient.ofDividend_eq_error {s : Sign} {w : Width} {checked : Bool}
    {high low divisor : Word} (h : Quotient.ofDividend s w checked high low divisor = .error c) :
    c.kind.isFault → c.showsRegisters := by
  have hplain : c.Plain → c.kind.isFault → c.showsRegisters := fun hp hf => by
    rw [hp] at hf
    cases hf
  rcases Except.bind_eq_error_iff.mp h with h | ⟨n, -, h⟩
  · exact hplain (trapsOnly_dividend.plain h)
  · split at h
    · cases h
      exact fun _ => rfl
    · rcases Except.bind_eq_error_iff.mp h with h | ⟨qr, -, h⟩
      · exact hplain (trapsOnly_wide?.plain h)
      · split at h
        · cases h
          exact fun _ => rfl
        · rcases Except.bind_eq_error_iff.mp h with h | ⟨b, -, h⟩
          · exact hplain (trapsOnly_fits.plain h)
          · split at h <;> cases h
            exact fun _ => rfl

/-! ## Instructions -/

namespace Invocation

open Fetch

/-- A scope for an instruction, which may ask for its operands and fail without a fault. -/
structure Admits (i : Invocation) (S : Scope) : Prop where
  asks : ∀ op ∈ i.operands, S.asks op
  fails : ∀ c, c.Plain → S.fails c

section

variable {w : Width} {W : Operand → Prop}
  (hacc : ∀ g ∈ w.accumulators, ∀ r : Reg, r.slot = .gpr g → W (.regW r))

include hacc

theorem writesOnly_accumulate (p : Product) : Action.WritesOnly W (accumulate w p) := by
  have hrax := hacc .rax w.rax_mem_accumulators
  cases w with
  | w8 => exact ⟨hrax _ rfl, trivial⟩
  | _ => exact ⟨hrax _ rfl, hacc .rdx (by decide) _ rfl, trivial⟩

theorem writesOnly_deliver (q : Quotient) : Action.WritesOnly W (deliver w q) := by
  have hrax := hacc .rax w.rax_mem_accumulators
  cases w with
  | w8 => exact ⟨hrax _ rfl, hrax _ rfl, trivial⟩
  | _ => exact ⟨hrax _ rfl, hacc .rdx (by decide) _ rfl, trivial⟩

end

variable {i : Invocation} {S : Scope} {W : Operand → Prop} (hS : i.Admits S) (k : Nat) (r : Rule)

include hS

theorem within_operand : (i.operand k).Within S fun op => i.operands[k]? = some op := by
  unfold operand
  split
  · assumption
  · exact hS.fails _ rfl

theorem within_word : (i.word k).Within S fun _ => True :=
  .bind (within_operand hS k) fun _ h => ⟨hS.asks _ (List.mem_of_getElem? h), fun _ => trivial⟩

theorem within_scalar : (i.scalar k).Within S fun _ => True :=
  .bind (within_word hS k) fun _ _ => .pure trivial

theorem within_lanes : (i.lanes k).Within S fun _ => True :=
  .bind (within_operand hS k) fun _ h => ⟨hS.asks _ (List.mem_of_getElem? h), fun _ => trivial⟩

omit hS in
theorem within_register {g : Gpr} (hg : S.asks (.reg (g.view i.width))) :
    (i.register g).Within S fun _ => True :=
  ⟨hg, fun _ => trivial⟩

theorem within_vectorWidth : (i.vectorWidth k).Within S fun _ => True := by
  refine .bind (within_operand hS k) fun op _ => ?_
  split
  · split
    · exact hS.fails _ rfl
    · trivial
  · exact hS.fails _ rfl

/-! ### Instructions without a destination -/

theorem within_compare : i.compare.Within S (Action.WritesOnly W) := by
  refine .bind (within_scalar hS 0) fun lhs _ => ?_
  refine .bind (within_scalar hS 1) fun rhs _ => .pure ?_
  simp [Action.WritesOnly]

theorem within_testBits : i.testBits.Within S (Action.WritesOnly W) := by
  refine .bind (within_word hS 0) fun lhs _ => ?_
  refine .bind (within_word hS 1) fun rhs _ => .pure ?_
  simp [Action.WritesOnly]

theorem within_packedTest : i.packedTest.Within S (Action.WritesOnly W) := by
  refine .bind (within_vectorWidth hS 0) fun w _ => ?_
  refine .bind (within_lanes hS 0) fun src₁ _ => ?_
  refine .bind (within_lanes hS 1) fun src₂ _ => .pure ?_
  simp [Action.WritesOnly]

/-! ### Instructions with a destination -/

variable (h₀ : ∀ op, i.operands[0]? = some op → W op)

include h₀

theorem within_combine : (i.combine r).Within S (Action.WritesOnly W) := by
  refine .bind (within_scalar hS 1) fun lhs _ => ?_
  refine .bind (within_scalar hS 2) fun rhs _ => ?_
  refine .bind (within_operand hS 0) fun dst hd => .pure ?_
  simp [Action.WritesOnly, h₀ dst hd]

theorem within_combineCarry (hc : S.carry) : (i.combineCarry r).Within S (Action.WritesOnly W) := by
  refine .bind (within_scalar hS 1) fun lhs _ => ?_
  refine .bind (within_scalar hS 2) fun rhs _ => ?_
  refine .bind (P := fun _ => True) ⟨hc, fun _ => trivial⟩ fun carry _ => ?_
  refine .bind (within_operand hS 0) fun dst hd => .pure ?_
  simp [Action.WritesOnly, h₀ dst hd]

theorem within_stepBy : (i.stepBy r).Within S (Action.WritesOnly W) := by
  refine .bind (within_scalar hS 1) fun val _ => ?_
  refine .bind (within_operand hS 0) fun dst hd => .pure ?_
  simp [Action.WritesOnly, h₀ dst hd]

theorem within_negate : i.negate.Within S (Action.WritesOnly W) := by
  refine .bind (within_scalar hS 1) fun val _ => ?_
  refine .bind (within_operand hS 0) fun dst hd => .pure ?_
  simp [Action.WritesOnly, h₀ dst hd]

theorem within_bitwise (f : Word → Word → Word) : (i.bitwise f).Within S (Action.WritesOnly W) := by
  refine .bind (within_scalar hS 1) fun lhs _ => ?_
  refine .bind (within_scalar hS 2) fun rhs _ => ?_
  refine .bind (within_operand hS 0) fun dst hd => .pure ?_
  simp [Action.WritesOnly, h₀ dst hd]

theorem within_complement : i.complement.Within S (Action.WritesOnly W) := by
  refine .bind (within_word hS 1) fun val _ => ?_
  refine .bind (within_operand hS 0) fun dst hd => .pure ?_
  simp [Action.WritesOnly, h₀ dst hd]

theorem within_packed (f : Lanes → Lanes → Lanes) :
    (i.packed f).Within S (Action.WritesOnly W) := by
  refine .bind (within_vectorWidth hS 0) fun w _ => ?_
  refine .bind (within_lanes hS 1) fun src₁ _ => ?_
  refine .bind (within_lanes hS 2) fun src₂ _ => ?_
  refine .bind (within_operand hS 0) fun dst hd => .pure ?_
  simp [Action.WritesOnly, h₀ dst hd]

theorem within_multiply : i.multiply.Within S (Action.WritesOnly W) := by
  refine .bind (within_word hS 1) fun a _ => ?_
  refine .bind (within_word hS 2) fun b _ => ?_
  refine .bind (within_operand hS 0) fun dst hd => ?_
  refine .bind (.ofExcept fun _ h => hS.fails _ (Product.trapsOnly_ofFactors.plain h))
    fun p _ => .pure ?_
  simp [Action.WritesOnly, h₀ dst hd]

theorem within_shiftWith {f : Word → Nat → Except Cause Shifted}
    (hf : ∀ v count c, f v count = .error c → c.Plain) :
    (i.shiftWith f).Within S (Action.WritesOnly W) := by
  refine .bind (within_scalar hS 1) fun v _ => ?_
  refine .bind (within_word hS 2) fun n _ => ?_
  dsimp only
  split
  · exact .pure trivial
  · refine .bind (within_operand hS 0) fun dst hd => ?_
    refine .bind (.ofExcept fun _ h => hS.fails _ (hf _ _ _ h)) fun r _ => .pure ?_
    simp [Action.WritesOnly, h₀ dst hd]

theorem within_exchangeAdd (h₂ : ∀ op, i.operands[2]? = some op → W op) :
    i.exchangeAdd.Within S (Action.WritesOnly W) := by
  refine .bind (within_scalar hS 1) fun src₁ _ => ?_
  refine .bind (within_scalar hS 3) fun src₂ _ => ?_
  refine .bind (within_operand hS 0) fun dst hd => ?_
  refine .bind (within_operand hS 2) fun exchanged he => .pure ?_
  cases dst.isRegister <;> simp [Action.WritesOnly, h₀ dst hd, h₂ exchanged he]

theorem within_multiplyExtended (h₁ : ∀ op, i.operands[1]? = some op → W op)
    (hrdx : S.asks (.reg (Gpr.rdx.view i.width))) :
    i.multiplyExtended.Within S (Action.WritesOnly W) := by
  refine .bind (within_word hS 2) fun src _ => ?_
  refine .bind (within_register hrdx) fun rdx _ => ?_
  refine .bind (within_operand hS 0) fun high hh => ?_
  refine .bind (within_operand hS 1) fun low hl => ?_
  refine .bind (.ofExcept fun _ h => hS.fails _ (Product.trapsOnly_ofFactors.plain h))
    fun p _ => .pure ?_
  simp [Action.WritesOnly, h₀ high hh, h₁ low hl]

omit h₀

/-! ### Instructions that use the accumulator -/

omit hS in
theorem within_dividendHalves
    (hacc : ∀ g ∈ i.width.accumulators, ∀ r : Reg, r.slot = .gpr g → S.asks (.reg r)) :
    i.dividendHalves.Within S fun _ => True := by
  have hrax := hacc .rax i.width.rax_mem_accumulators
  unfold dividendHalves
  split
  · refine .bind (P := fun _ => True) ⟨hrax _ rfl, fun _ => trivial⟩ fun ax _ => .pure trivial
  · next hw =>
    have hrdx := hacc .rdx (Width.rdx_mem_accumulators hw)
    refine .bind (within_register (hrdx _ (Gpr.slot_view _ _))) fun high _ => ?_
    exact .bind (within_register (hrax _ (Gpr.slot_view _ _))) fun low _ => .pure trivial

theorem within_multiplyAccumulator (hrax : S.asks (.reg (Gpr.rax.view i.width)))
    (hacc : ∀ g ∈ i.width.accumulators, ∀ r : Reg, r.slot = .gpr g → W (.regW r)) :
    i.multiplyAccumulator.Within S (Action.WritesOnly W) := by
  refine .bind (within_word hS 0) fun src _ => ?_
  refine .bind (within_register hrax) fun acc _ => ?_
  refine .bind (.ofExcept fun _ h => hS.fails _ (Product.trapsOnly_ofFactors.plain h))
    fun p _ => .pure ?_
  exact Action.writesOnly_append.mpr ⟨writesOnly_accumulate hacc p, trivial⟩

theorem within_divide (checked : Bool)
    (hfault : ∀ c, (c.kind.isFault → c.showsRegisters) → S.fails c)
    (hask : ∀ g ∈ i.width.accumulators, ∀ r : Reg, r.slot = .gpr g → S.asks (.reg r))
    (hacc : ∀ g ∈ i.width.accumulators, ∀ r : Reg, r.slot = .gpr g → W (.regW r)) :
    (i.divide checked).Within S (Action.WritesOnly W) := by
  refine .bind (within_word hS 0) fun divisor _ => ?_
  refine .bind (within_dividendHalves hask) fun _ _ => ?_
  refine .bind (.ofExcept fun _ h => hfault _ (Quotient.ofDividend_eq_error h)) fun q _ => .pure ?_
  exact Action.writesOnly_append.mpr ⟨writesOnly_deliver hacc q, trivial⟩

end Invocation

/-! ## Operations -/

namespace Op

/-- The positions of the operands that an operation writes. -/
def targets : Op → List Nat
  | cmp | test | ptest | mulAcc | divAcc => []
  | mulx => [0, 1]
  | xadd => [0, 2]
  | _ => [0]

/-- The registers that an operation reads without naming them in an operand. -/
def sources (op : Op) (w : Width) : List Gpr :=
  match op with
  | mulAcc => [.rax]
  | divAcc => w.accumulators
  | mulx => [.rdx]
  | _ => []

/-- The registers that an operation writes without naming them in an operand. -/
def sinks (op : Op) (w : Width) : List Gpr :=
  match op with
  | mulAcc | divAcc => w.accumulators
  | _ => []

/-- The operands that an operation may read. -/
def Asks (op : Op) (i : Invocation) (x : Operand) : Prop :=
  x ∈ i.operands ∨ ∃ g ∈ op.sources i.width, ∃ r, x = .reg r ∧ r.slot = .gpr g

/-- The operands that an operation may write. -/
def Targets (op : Op) (i : Invocation) (x : Operand) : Prop :=
  (∃ k ∈ op.targets, i.operands[k]? = some x) ∨
    ∃ g ∈ op.sinks i.width, ∃ r, x = .regW r ∧ r.slot = .gpr g

/-- Only divisions raise faults, and these show the registers. -/
def Raises (op : Op) (c : Cause) : Prop :=
  c.kind.isFault → op = .divAcc ∧ c.showsRegisters

/-- The operations that read the carry flag. -/
def ReadsCarry (op : Op) : Prop :=
  op = .adc ∨ op = .sbb

def scope (op : Op) (i : Invocation) : Scope where
  asks := op.Asks i
  carry := op.ReadsCarry
  fails := op.Raises

theorem raises_of_plain (op : Op) (h : c.Plain) : op.Raises c := by
  intro hf
  rw [h] at hf
  cases hf

theorem admits_scope (op : Op) (i : Invocation) : i.Admits (op.scope i) where
  asks _ h := .inl h
  fails _ := op.raises_of_plain

/-- **Every operation stays in its scope and writes its targets.** -/
theorem within_actions (op : Op) (o : Options) (i : Invocation) :
    (op.actions o i).Within (op.scope i) (Action.WritesOnly (op.Targets i)) := by
  have hS := op.admits_scope i
  have ht : ∀ k ∈ op.targets, ∀ x, i.operands[k]? = some x → op.Targets i x :=
    fun k hk x hx => .inl ⟨k, hk, hx⟩
  have hr : ∀ g ∈ op.sources i.width, ∀ r : Reg, r.slot = .gpr g → (op.scope i).asks (.reg r) :=
    fun g hg r hr => .inr ⟨g, hg, r, rfl, hr⟩
  have hw : ∀ g ∈ op.sinks i.width, ∀ r : Reg, r.slot = .gpr g → op.Targets i (.regW r) :=
    fun g hg r hr => .inr ⟨g, hg, r, rfl, hr⟩
  cases op with
  | add | sub => exact Invocation.within_combine hS _ (ht 0 (by decide))
  | adc => exact Invocation.within_combineCarry hS _ (ht 0 (by decide)) (.inl rfl)
  | sbb => exact Invocation.within_combineCarry hS _ (ht 0 (by decide)) (.inr rfl)
  | inc | dec => exact Invocation.within_stepBy hS _ (ht 0 (by decide))
  | neg => exact Invocation.within_negate hS (ht 0 (by decide))
  | cmp => exact Invocation.within_compare hS
  | and | or | xor => exact Invocation.within_bitwise hS (ht 0 (by decide)) _
  | not => exact Invocation.within_complement hS (ht 0 (by decide))
  | test => exact Invocation.within_testBits hS
  | pand | pandn | por | pxor => exact Invocation.within_packed hS (ht 0 (by decide)) _
  | ptest => exact Invocation.within_packedTest hS
  | imul => exact Invocation.within_multiply hS (ht 0 (by decide))
  | mulAcc =>
    exact Invocation.within_multiplyAccumulator hS
      (hr .rax (List.mem_singleton_self _) _ (Gpr.slot_view _ _)) hw
  | mulx =>
    exact Invocation.within_multiplyExtended hS (ht 0 (by decide)) (ht 1 (by decide))
      (hr .rdx (List.mem_singleton_self _) _ (Gpr.slot_view _ _))
  | divAcc => exact Invocation.within_divide hS _ (fun c hc hf => ⟨rfl, hc hf⟩) hr hw
  | shl =>
    exact Invocation.within_shiftWith hS (ht 0 (by decide))
      fun _ _ _ => Shifted.trapsOnly_left.plain
  | shr =>
    exact Invocation.within_shiftWith hS (ht 0 (by decide))
      fun _ _ _ => Shifted.trapsOnly_right.plain
  | xadd => exact Invocation.within_exchangeAdd hS (ht 0 (by decide)) (ht 2 (by decide))

end Op

end X86
