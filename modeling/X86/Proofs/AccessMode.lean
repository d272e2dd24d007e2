import X86.Proofs.Fault
import X86.Proofs.Success

/-!
# Access modes of operands that are only read

In positions that are only read, operands that are also writable are accepted, and it makes no
difference which of the two access modes an operand has. In writable positions only writable
operands are accepted, so nothing is ever written through a read-only operand.

* `Operand.switched`, `Operand.Same`, `Shape.Switches`: operands with other access modes;
* `Kind.Fits`, `Shape.check_iff_fits`: the operands that a shape accepts;
* `Cause.Alike`, `Fetch.Alike`: questions with the same answer, or with failures that read alike;
* `Invocation.alike_…`, `Op.alike_actions`: what instructions ask for and do;
* `Entry.isWritable_of_write`, `Machine.permitted_of_error`: nothing read-only is written;
* **`Machine.access_mode_irrelevant`**: access modes in positions that are only read.
-/

namespace X86

/-! ## Operands with other access modes -/

namespace Operand

/-- The same register or memory with the other access mode. -/
def switched : Operand → Operand
  | reg r => regW r
  | regW r => reg r
  | mem m => memW m
  | memW m => mem m
  | imm v w => imm v w

variable {x y : Operand}

@[simp] theorem width_switched (x : Operand) : x.switched.width = x.width := by
  cases x <;> rfl

@[simp] theorem register?_switched (x : Operand) : x.switched.register? = x.register? := by
  cases x <;> rfl

@[simp] theorem render_switched (x : Operand) : x.switched.render = x.render := by
  cases x <;> rfl

@[simp] theorem readLanes_switched (t : Transaction) (x : Operand) :
    t.readLanes x.switched = t.readLanes x := by
  cases x <;> rfl

/-- Operands that are equal up to their access modes. -/
def Same (x y : Operand) : Prop :=
  y = x ∨ y = x.switched

theorem Same.congr {α : Type} (h : x.Same y) (f : Operand → α) (hf : ∀ x, f x.switched = f x) :
    f x = f y := by
  rcases h with h | h
  · rw [h]
  · rw [h, hf]

/-- Operands at every position are equal up to their access modes. -/
def AllSame (ops ops' : List Operand) : Prop :=
  ops.length = ops'.length ∧
    ∀ (k : Nat) (x y : Operand), ops[k]? = some x → ops'[k]? = some y → x.Same y

theorem AllSame.refl (ops : List Operand) : AllSame ops ops :=
  ⟨rfl, fun _ _ _ hx hy => .inl (Option.some.inj (hy.symm.trans hx))⟩

theorem AllSame.cases {ops ops' : List Operand} (h : AllSame ops ops') (k : Nat) :
    ops[k]? = none ∧ ops'[k]? = none ∨
      ∃ x y, ops[k]? = some x ∧ ops'[k]? = some y ∧ x.Same y := by
  by_cases hk : k < ops.length
  · have hk' : k < ops'.length := h.1 ▸ hk
    have hx := List.getElem?_eq_getElem hk
    have hy := List.getElem?_eq_getElem hk'
    exact .inr ⟨_, _, hx, hy, h.2 k _ _ hx hy⟩
  · have hk' := Nat.le_of_not_lt hk
    exact .inl ⟨List.getElem?_eq_none hk', List.getElem?_eq_none (h.1 ▸ hk')⟩

end Operand

/-- Some operands in positions for registers or memory to read have the other access mode. -/
def Shape.Switches (s : Shape) (ops ops' : List Operand) : Prop :=
  ops.length = ops'.length ∧
    ∀ (k : Nat) (x y : Operand), ops[k]? = some x → ops'[k]? = some y →
      y = x ∨ (s[k]? = some .r ∨ s[k]? = some .m) ∧ y = x.switched

theorem Shape.Switches.allSame {s : Shape} {ops ops' : List Operand} (h : s.Switches ops ops') :
    Operand.AllSame ops ops' :=
  ⟨h.1, fun k x y hx hy => (h.2 k x y hx hy).imp_right And.right⟩

theorem Shape.Switches.getElem?_eq {s : Shape} {ops ops' : List Operand} (h : s.Switches ops ops')
    {k : Nat} (hr : s[k]? ≠ some .r) (hm : s[k]? ≠ some .m) : ops[k]? = ops'[k]? := by
  rcases h.allSame.cases k with ⟨hx, hy⟩ | ⟨x, y, hx, hy, -⟩
  · rw [hx, hy]
  · rcases h.2 k x y hx hy with rfl | ⟨hk | hk, -⟩
    · rw [hx, hy]
    · exact absurd hk hr
    · exact absurd hk hm

/-! ## What a shape accepts -/

/-- What stands in a position of some kind. -/
def Kind.Fits : Kind → Operand → Prop
  | r, x => ∃ reg, x = .reg reg ∨ x = .regW reg
  | rw, x => ∃ reg, x = .regW reg
  | m, x => ∃ mem, x = .mem mem ∨ x = .memW mem
  | mw, x => ∃ mem, x = .memW mem
  | i, x => ∃ v w, x = .imm v w

theorem Kind.accepts_iff_fits {κ : Kind} {x : Operand} : κ.accepts x ↔ κ.Fits x := by
  cases κ <;> cases x <;>
    simp [accepts, Fits, Operand.isRegister, Operand.register?, Operand.memory?, Operand.kind]

theorem Kind.Fits.switched {κ : Kind} {x : Operand} (hκ : κ = .r ∨ κ = .m) (h : κ.Fits x) :
    κ.Fits x.switched := by
  rcases hκ with rfl | rfl
  all_goals
    obtain ⟨_, rfl | rfl⟩ := h
    · exact ⟨_, .inr rfl⟩
    · exact ⟨_, .inl rfl⟩

namespace Shape

variable {s : Shape} {ops ops' : List Operand}

/-- **A shape accepts** operands as many as it has kinds, each of which fits its position. -/
theorem check_iff_fits : s.check ops = .ok () ↔ ops.length = s.length ∧
    ∀ (k : Nat) (κ : Kind) (x : Operand), s[k]? = some κ → ops[k]? = some x → κ.Fits x := by
  rw [check_eq_ok_iff, List.forall₂_iff_get, eq_comm]
  refine and_congr_right fun _ => ⟨fun h k κ x hκ hx => ?_, fun h k hk hk' => ?_⟩
  · obtain ⟨hk, rfl⟩ := List.getElem?_eq_some_iff.mp hκ
    obtain ⟨hk', rfl⟩ := List.getElem?_eq_some_iff.mp hx
    exact Kind.accepts_iff_fits.mp (h k hk hk')
  · exact Kind.accepts_iff_fits.mpr
      (h k _ _ (List.getElem?_eq_getElem hk) (List.getElem?_eq_getElem hk'))

theorem Switches.check (h : s.Switches ops ops') (hc : s.check ops = .ok ()) :
    s.check ops' = .ok () := by
  obtain ⟨hlen, hfit⟩ := check_iff_fits.mp hc
  refine check_iff_fits.mpr ⟨h.1.symm.trans hlen, fun k κ y hκ hy => ?_⟩
  rcases h.allSame.cases k with ⟨-, hn⟩ | ⟨x, _, hx, hy', -⟩
  · cases hn.symm.trans hy
  · cases hy'.symm.trans hy
    have hx' := hfit k κ x hκ hx
    rcases h.2 k x y hx hy with rfl | ⟨hr, rfl⟩
    · exact hx'
    · rw [hκ, Option.some.injEq, Option.some.injEq] at hr
      exact hx'.switched hr

/-- **A read-only operand in a writable position** is refused. -/
theorem exists_check_eq_error {k : Nat} {κ : Kind} {x : Operand} (hκ : s[k]? = some κ)
    (hw : κ = .rw ∨ κ = .mw) (hx : ops[k]? = some x) (hro : x.isWritable = false) :
    ∃ c, s.check ops = .error c ∧ c.kind = .operand := by
  cases hc : s.check ops with
  | error c => exact ⟨c, rfl, check_eq_error hc⟩
  | ok _ =>
    have ha := Kind.accepts_iff_fits.mpr ((check_iff_fits.mp hc).2 k κ x hκ hx)
    rw [Kind.isWritable_of_accepts hw ha] at hro
    cases hro

end Shape

/-! ## Failures that read alike -/

/-- A cause is anything but a write to a read-only operand. -/
def Cause.Permitted : Cause → Prop
  | readOnly _ => False
  | _ => True

theorem Cause.Permitted.ne_readOnly {c : Cause} (h : c.Permitted) (x : Operand) :
    c ≠ .readOnly x := by
  rintro rfl
  exact h

/-- Causes with the same kind and wording, none of which is a write to a read-only operand. -/
structure Cause.Alike (c d : Cause) : Prop where
  kind : c.kind = d.kind
  message : c.message = d.message
  permitted : c.Permitted

theorem Cause.message_congr {c d : Cause} (hh : c.heading = d.heading) (hd : c.detail = d.detail) :
    c.message = d.message := by
  rw [message, message, hh, hd]

section

variable {x y : Operand} (h : x.Same y)

include h

theorem Cause.Alike.notScalar : Cause.Alike (.notScalar x) (.notScalar y) where
  kind := rfl
  message := message_congr rfl <|
    congrArg (· ++ " is not a scalar operand") (h.congr Operand.render Operand.render_switched)
  permitted := trivial

theorem Cause.Alike.notVector : Cause.Alike (.notVector x) (.notVector y) where
  kind := rfl
  message := message_congr rfl <|
    congrArg (· ++ " is not a vector register") (h.congr Operand.render Operand.render_switched)
  permitted := trivial

end

theorem Cause.permitted_of_trapsOnly {α : Type} {x : Except Cause α} {c : Cause}
    (hx : x.TrapsOnly) (h : x = .error c) : c.Permitted := by
  obtain ⟨t, rfl⟩ := hx c h
  exact trivial

theorem Quotient.permitted_of_error {s : Sign} {w : Width} {checked : Bool}
    {high low divisor : Word} {c : Cause}
    (h : ofDividend s w checked high low divisor = .error c) : c.Permitted := by
  rcases Except.bind_eq_error_iff.mp h with h | ⟨n, -, h⟩
  · exact Cause.permitted_of_trapsOnly trapsOnly_dividend h
  · split at h
    · cases h
      exact trivial
    · rcases Except.bind_eq_error_iff.mp h with h | ⟨qr, -, h⟩
      · exact Cause.permitted_of_trapsOnly trapsOnly_wide? h
      · split at h
        · cases h
          exact trivial
        · rcases Except.bind_eq_error_iff.mp h with h | ⟨b, -, h⟩
          · exact Cause.permitted_of_trapsOnly trapsOnly_fits h
          · split at h <;> cases h
            exact trivial

namespace Fetch

variable {α β : Type} {t : Transaction}

/-- Questions that lead to the same result, or to failures that read alike. -/
def Alike (t : Transaction) (x y : Fetch α) : Prop :=
  (∃ a, x.run t = .ok a ∧ y.run t = .ok a) ∨
    ∃ c d, x.run t = .error c ∧ y.run t = .error d ∧ c.Alike d

namespace Alike

theorem pure (a : α) : Alike t (Pure.pure a) (Pure.pure a) :=
  .inl ⟨a, rfl, rfl⟩

theorem of_run_eq {x y : Fetch α} (hxy : x.run t = y.run t)
    (h : ∀ c, x.run t = .error c → c.Permitted) : Alike t x y := by
  cases hx : x.run t with
  | ok a => exact .inl ⟨a, hx, hxy ▸ hx⟩
  | error c => exact .inr ⟨c, c, hx, hxy ▸ hx, rfl, rfl, h c hx⟩

theorem of_permitted {x : Fetch α} (h : ∀ c, x.run t = .error c → c.Permitted) : Alike t x x :=
  of_run_eq rfl h

theorem bind {x y : Fetch β} {f g : β → Fetch α} (h : Alike t x y)
    (hfg : ∀ b, Alike t (f b) (g b)) : Alike t (x >>= f) (y >>= g) := by
  rcases h with ⟨b, hx, hy⟩ | ⟨c, d, hx, hy, hcd⟩
  · have hf : (x >>= f).run t = (f b).run t := by rw [run_bind, hx]; rfl
    have hg : (y >>= g).run t = (g b).run t := by rw [run_bind, hy]; rfl
    rw [Alike, hf, hg]
    exact hfg b
  · refine .inr ⟨c, d, ?_, ?_, hcd⟩
    · rw [run_bind, hx]; rfl
    · rw [run_bind, hy]; rfl

theorem ofExcept {x : Except Cause α} (h : ∀ c, x = .error c → c.Permitted) :
    Alike t (Fetch.ofExcept x) (Fetch.ofExcept x) :=
  of_permitted fun c hc => h c ((run_ofExcept t x).symm.trans hc)

variable {x y : Operand}

theorem word (h : x.Same y) : Alike t (.word x .done) (.word y .done) := by
  have hrun (z : Operand) : (Fetch.word z .done).run t = t.read z := by
    change t.read z >>= (fun v => .ok v) = _
    cases t.read z <;> rfl
  have hwidth := h.congr Operand.width Operand.width_switched
  have hread := h.congr t.readLanes (Operand.readLanes_switched t)
  by_cases hw : x.width.isScalar
  · have heq : t.read x = t.read y := by
      rw [Transaction.read, Transaction.read, ← hwidth, ← hread]
      simp [hw]
    refine of_run_eq (by rw [hrun, hrun, heq]) fun c hc => ?_
    rcases Transaction.read_eq_error ((hrun x).symm.trans hc) with rfl | ⟨_, rfl⟩ <;> exact trivial
  · refine .inr ⟨.notScalar x, .notScalar y, ?_, ?_, .notScalar h⟩
    · rw [hrun, Transaction.read, if_neg hw]
    · rw [hrun, Transaction.read, if_neg (hwidth ▸ hw)]

theorem lanes (h : x.Same y) : Alike t (.lanes x .done) (.lanes y .done) := by
  have hrun (z : Operand) : (Fetch.lanes z .done).run t = t.readLanes z := by
    change t.readLanes z >>= (fun v => .ok v) = _
    cases t.readLanes z <;> rfl
  have hread := h.congr t.readLanes (Operand.readLanes_switched t)
  refine of_run_eq (by rw [hrun, hrun, hread]) fun c hc => ?_
  obtain ⟨_, rfl⟩ := Transaction.readLanes_eq_error ((hrun x).symm.trans hc)
  exact trivial

theorem carry {f : Bool → α} :
    Alike t (Fetch.carry fun b => .done (f b)) (.carry fun b => .done (f b)) :=
  of_permitted fun c hc => by
    rcases Except.bind_eq_error_iff.mp hc with hc | ⟨_, -, hc⟩
    · rw [Transaction.carryIn_eq_error hc]
      exact trivial
    · cases hc

end Alike

end Fetch

/-! ## Instructions -/

namespace Invocation

open Fetch

variable {i : Invocation} {ops : List Operand} {t : Transaction}

section

variable (h : Operand.AllSame i.operands ops) (k : Nat)

include h

theorem alike_bind_operand {α : Type} {f : Operand → Fetch α}
    (hf : ∀ x y, x.Same y → Alike t (f x) (f y)) :
    Alike t (i.operand k >>= f) ({ i with operands := ops }.operand k >>= f) := by
  unfold operand
  rcases h.cases k with ⟨hx, hy⟩ | ⟨x, y, hx, hy, hxy⟩
  · rw [hx, hy]
    exact .inr ⟨_, _, rfl, rfl, rfl, rfl, trivial⟩
  · rw [hx, hy]
    exact hf x y hxy

theorem alike_word : Alike t (i.word k) ({ i with operands := ops }.word k) :=
  alike_bind_operand h k fun _ _ => .word

theorem alike_lanes : Alike t (i.lanes k) ({ i with operands := ops }.lanes k) :=
  alike_bind_operand h k fun _ _ => .lanes

theorem alike_scalar : Alike t (i.scalar k) ({ i with operands := ops }.scalar k) :=
  .bind (alike_word h k) fun _ => .pure _

theorem alike_vectorWidth :
    Alike t (i.vectorWidth k) ({ i with operands := ops }.vectorWidth k) := by
  refine alike_bind_operand h k fun x y hxy => ?_
  have hfail : Alike t (.fail (.notVector x)) (.fail (.notVector y) : Fetch Width) :=
    .inr ⟨_, _, rfl, rfl, .notVector hxy⟩
  rw [← hxy.congr Operand.register? Operand.register?_switched]
  cases x.register? with
  | none => exact hfail
  | some r =>
    dsimp only
    split
    · exact hfail
    · exact .pure _

end

theorem alike_operand {k : Nat} (hk : i.operands[k]? = ops[k]?) :
    Alike t (i.operand k) ({ i with operands := ops }.operand k) := by
  unfold operand
  rw [hk]
  refine .of_permitted fun c hc => ?_
  split at hc <;> cases hc
  exact trivial

theorem alike_register (i : Invocation) (g : Gpr) : Alike t (i.register g) (i.register g) :=
  .word (.inl rfl)

theorem alike_dividendHalves (i : Invocation) : Alike t i.dividendHalves i.dividendHalves := by
  unfold dividendHalves
  split
  · exact .bind (.word (.inl rfl)) fun _ => .pure _
  · exact .bind (alike_register i .rdx) fun _ => .bind (alike_register i .rax) fun _ => .pure _

theorem alike_ofFactors {s : Sign} {w : Width} {a b : Word} :
    Alike t (.ofExcept (Product.ofFactors s w a b)) (.ofExcept (Product.ofFactors s w a b)) :=
  .ofExcept fun _ => Cause.permitted_of_trapsOnly Product.trapsOnly_ofFactors

/-! ### Instructions without a destination -/

section

variable (h : Operand.AllSame i.operands ops)

include h

theorem alike_compare : Alike t i.compare { i with operands := ops }.compare :=
  .bind (alike_scalar h 0) fun _ => .bind (alike_scalar h 1) fun _ => .pure _

theorem alike_testBits : Alike t i.testBits { i with operands := ops }.testBits :=
  .bind (alike_word h 0) fun _ => .bind (alike_word h 1) fun _ => .pure _

theorem alike_packedTest : Alike t i.packedTest { i with operands := ops }.packedTest :=
  .bind (alike_vectorWidth h 0) fun _ => .bind (alike_lanes h 0) fun _ =>
    .bind (alike_lanes h 1) fun _ => .pure _

theorem alike_multiplyAccumulator :
    Alike t i.multiplyAccumulator { i with operands := ops }.multiplyAccumulator :=
  .bind (alike_word h 0) fun _ => .bind (alike_register i .rax) fun _ =>
    .bind alike_ofFactors fun _ => .pure _

theorem alike_divide (checked : Bool) :
    Alike t (i.divide checked) ({ i with operands := ops }.divide checked) :=
  .bind (alike_word h 0) fun _ => .bind (alike_dividendHalves i) fun _ =>
    .bind (.ofExcept fun _ => Quotient.permitted_of_error) fun _ => .pure _

/-! ### Instructions with a destination -/

variable (h₀ : i.operands[0]? = ops[0]?) (r : Rule)

include h₀

theorem alike_combine : Alike t (i.combine r) ({ i with operands := ops }.combine r) :=
  .bind (alike_scalar h 1) fun _ => .bind (alike_scalar h 2) fun _ =>
    .bind (alike_operand h₀) fun _ => .pure _

theorem alike_combineCarry :
    Alike t (i.combineCarry r) ({ i with operands := ops }.combineCarry r) :=
  .bind (alike_scalar h 1) fun _ => .bind (alike_scalar h 2) fun _ => .bind .carry fun _ =>
    .bind (alike_operand h₀) fun _ => .pure _

theorem alike_stepBy : Alike t (i.stepBy r) ({ i with operands := ops }.stepBy r) :=
  .bind (alike_scalar h 1) fun _ => .bind (alike_operand h₀) fun _ => .pure _

theorem alike_negate : Alike t i.negate { i with operands := ops }.negate :=
  .bind (alike_scalar h 1) fun _ => .bind (alike_operand h₀) fun _ => .pure _

theorem alike_bitwise (f : Word → Word → Word) :
    Alike t (i.bitwise f) ({ i with operands := ops }.bitwise f) :=
  .bind (alike_scalar h 1) fun _ => .bind (alike_scalar h 2) fun _ =>
    .bind (alike_operand h₀) fun _ => .pure _

theorem alike_complement : Alike t i.complement { i with operands := ops }.complement :=
  .bind (alike_word h 1) fun _ => .bind (alike_operand h₀) fun _ => .pure _

theorem alike_packed (f : Lanes → Lanes → Lanes) :
    Alike t (i.packed f) ({ i with operands := ops }.packed f) :=
  .bind (alike_vectorWidth h 0) fun _ => .bind (alike_lanes h 1) fun _ =>
    .bind (alike_lanes h 2) fun _ => .bind (alike_operand h₀) fun _ => .pure _

theorem alike_multiply : Alike t i.multiply { i with operands := ops }.multiply :=
  .bind (alike_word h 1) fun _ => .bind (alike_word h 2) fun _ =>
    .bind (alike_operand h₀) fun _ => .bind alike_ofFactors fun _ => .pure _

theorem alike_shiftWith {f : Word → Nat → Except Cause Shifted} (hf : ∀ v n, (f v n).TrapsOnly) :
    Alike t (i.shiftWith f) ({ i with operands := ops }.shiftWith f) := by
  refine .bind (alike_scalar h 1) fun v => .bind (alike_word h 2) fun n => ?_
  dsimp only
  split
  · exact .pure _
  · exact .bind (alike_operand h₀) fun _ =>
      .bind (.ofExcept fun _ => Cause.permitted_of_trapsOnly (hf _ _)) fun _ => .pure _

theorem alike_exchangeAdd (h₂ : i.operands[2]? = ops[2]?) :
    Alike t i.exchangeAdd { i with operands := ops }.exchangeAdd :=
  .bind (alike_scalar h 1) fun _ => .bind (alike_scalar h 3) fun _ =>
    .bind (alike_operand h₀) fun _ => .bind (alike_operand h₂) fun _ => .pure _

theorem alike_multiplyExtended (h₁ : i.operands[1]? = ops[1]?) :
    Alike t i.multiplyExtended { i with operands := ops }.multiplyExtended :=
  .bind (alike_word h 2) fun _ => .bind (alike_register i .rdx) fun _ =>
    .bind (alike_operand h₀) fun _ => .bind (alike_operand h₁) fun _ =>
      .bind alike_ofFactors fun _ => .pure _

end

end Invocation

/-- **An operation asks for the same and does the same** whatever the access modes of its operands
are, apart from those that it writes. -/
theorem Op.alike_actions (op : Op) (o : Options) {i : Invocation} {ops : List Operand}
    {t : Transaction} (h : Operand.AllSame i.operands ops)
    (ht : ∀ k ∈ op.targets, i.operands[k]? = ops[k]?) :
    Fetch.Alike t (op.actions o i) (op.actions o { i with operands := ops }) := by
  cases op with
  | add | sub => exact Invocation.alike_combine h (ht 0 (by decide)) _
  | adc | sbb => exact Invocation.alike_combineCarry h (ht 0 (by decide)) _
  | inc | dec => exact Invocation.alike_stepBy h (ht 0 (by decide)) _
  | neg => exact Invocation.alike_negate h (ht 0 (by decide))
  | cmp => exact Invocation.alike_compare h
  | and | or | xor => exact Invocation.alike_bitwise h (ht 0 (by decide)) _
  | not => exact Invocation.alike_complement h (ht 0 (by decide))
  | test => exact Invocation.alike_testBits h
  | pand | pandn | por | pxor => exact Invocation.alike_packed h (ht 0 (by decide)) _
  | ptest => exact Invocation.alike_packedTest h
  | imul => exact Invocation.alike_multiply h (ht 0 (by decide))
  | mulAcc => exact Invocation.alike_multiplyAccumulator h
  | mulx => exact Invocation.alike_multiplyExtended h (ht 0 (by decide)) (ht 1 (by decide))
  | divAcc => exact Invocation.alike_divide h _
  | shl =>
    exact Invocation.alike_shiftWith h (ht 0 (by decide)) fun _ _ => Shifted.trapsOnly_left
  | shr =>
    exact Invocation.alike_shiftWith h (ht 0 (by decide)) fun _ _ => Shifted.trapsOnly_right
  | xadd => exact Invocation.alike_exchangeAdd h (ht 0 (by decide)) (ht 2 (by decide))

/-! ## Writes -/

theorem Action.writesOnly_iff {W : Operand → Prop} {as : List Action} :
    WritesOnly W as ↔ ∀ x v, .write x v ∈ as → W x := by
  induction as with
  | nil => simp [WritesOnly]
  | cons a as ih =>
    cases a with
    | write y u =>
      rw [WritesOnly, ih]
      constructor
      · rintro ⟨hy, has⟩ x v hx
        rcases List.mem_cons.mp hx with hx | hx
        · cases hx
          exact hy
        · exact has x v hx
      · intro h
        exact ⟨h y u List.mem_cons_self, fun x v hx => h x v (List.mem_cons_of_mem _ hx)⟩
    | barrier b | assign u => simp [WritesOnly, ih]

namespace Transaction

variable {t : Transaction} {a : Action} {as : List Action} {c : Cause}

theorem permitted_of_act (hw : ∀ x v, a = .write x v → x.isWritable) (h : t.act a = .error c) :
    c.Permitted := by
  cases a with
  | write x v =>
    have hx := hw x v rfl
    cases x with
    | regW r => cases h
    | memW m =>
      rcases Except.bind_eq_error_iff.mp h with h | ⟨_, -, h⟩
      · rw [Memory.check_eq_error h]
        exact trivial
      · cases h
    | reg r | mem m | imm v w => cases hx
  | barrier b | assign u => cases h

theorem permitted_of_perform (hw : ∀ x v, .write x v ∈ as → x.isWritable)
    (h : t.perform as = .error c) : c.Permitted := by
  obtain ⟨a, ha, _, h⟩ := exists_act_eq_error h
  exact permitted_of_act (fun x v hx => hw x v (hx ▸ ha)) h

end Transaction

theorem Shape.permitted_of_check {s : Shape} {ops : List Operand} {c : Cause}
    (h : s.check ops = .error c) : c.Permitted := by
  obtain ⟨_, _, rfl⟩ | ⟨_, _, _, rfl⟩ := check_cases h
  all_goals exact trivial

/-! ## Entries -/

section

variable {t : Table} {o o' : Options} {name : String} {e : Entry} {m : Machine}
  {ops ops' : List Operand} {tr : Transaction} {as : List Action}
  (hb : Table.build Rows.all o = .ok t) (he : t.get? name = some e)

include hb he

/-- **An entry writes only writable operands.** -/
theorem Entry.isWritable_of_write (hc : e.shape.check ops = .ok ())
    (has : (e.op.actions o' (e.invoke ops)).run tr = .ok as) {x : Operand} {v : Lanes}
    (hx : .write x v ∈ as) : x.isWritable := by
  have hw := (e.op.within_actions o' (e.invoke ops)).run_ok has
  rcases Action.writesOnly_iff.mp hw x v hx with ⟨k, hk, hop⟩ | ⟨_, -, r, rfl, -⟩
  · obtain ⟨κ, hκ, ha⟩ := Shape.exists_accepts_of_check hc hop
    have hk := (Table.mem_targets_iff hb he k).mp hk
    rw [hκ, Option.some.injEq, Option.some.injEq] at hk
    exact Kind.isWritable_of_accepts hk ha
  · rfl

namespace Machine

/-- **No entry fails because it writes a read-only operand.** -/
theorem permitted_of_error {err : Error} (h : (m.execEntry e ops).result = .error err) :
    err.cause.Permitted := by
  cases hc : e.shape.check ops with
  | error c =>
    rw [execEntry_of_error (evaluate_eq_error_iff.mpr (.inl hc))] at h
    cases h
    exact Shape.permitted_of_check hc
  | ok _ =>
    obtain ⟨c, rfl, -, -, hs | ⟨_, hs, hc' | ht⟩⟩ := call_of_error (c := .entry e ops) h
    · cases hs
    · cases hs
      cases hc.symm.trans hc'
    · cases hs
      rcases Except.bind_eq_error_iff.mp ht with hrun | ⟨as, has, hperf⟩
      · -- An operation that fails does so like itself, and failures that read alike are permitted.
        have ha := e.op.alike_actions m.options (i := e.invoke ops)
          (t := .begin m.state m.options) (.refl ops) fun _ _ => rfl
        rcases ha with ⟨_, hok, -⟩ | ⟨d, _, hd, -, hdd⟩
        · cases hrun.symm.trans hok
        · cases hrun.symm.trans hd
          exact hdd.permitted
      · exact Transaction.permitted_of_perform
          (fun _ _ => Entry.isWritable_of_write hb he hc has) hperf

theorem transact_alike (hs : e.shape.Switches ops ops') :
    m.transact e ops = m.transact e ops' ∨
      ∃ c d, m.transact e ops = .error c ∧ m.transact e ops' = .error d ∧ c.Alike d := by
  have ht : ∀ k ∈ e.op.targets, ops[k]? = ops'[k]? := by
    intro k hk
    rcases (Table.mem_targets_iff hb he k).mp hk with hk | hk
    · exact hs.getElem?_eq (by simp [hk]) (by simp [hk])
    · exact hs.getElem?_eq (by simp [hk]) (by simp [hk])
  have ha := e.op.alike_actions m.options (i := e.invoke ops)
    (t := .begin m.state m.options) hs.allSame ht
  rcases ha with ⟨as, hx, hy⟩ | ⟨c, d, hx, hy, hcd⟩
  · exact .inl ((Op.eval_of_run hx).trans (Op.eval_of_run hy).symm)
  · exact .inr ⟨c, d, Except.bind_eq_error_iff.mpr (.inl hx),
      Except.bind_eq_error_iff.mpr (.inl hy), hcd⟩

theorem outcome_of_switches (hc : e.shape.check ops = .ok ()) (hs : e.shape.Switches ops ops') :
    (m.execEntry e ops').outcome = (m.execEntry e ops).outcome := by
  rw [outcome_execEntry, outcome_execEntry, hc, hs.check hc]
  rcases transact_alike (m := m) hb he hs with h | ⟨c, d, h, h', hcd⟩
  · rw [h]
  · rw [h, h']
    exact congrArg Except.error (Prod.ext hcd.kind.symm hcd.message.symm)

/-- **Access modes in positions that are only read make no difference.** Operands with other access
modes there are accepted like the first ones, and have the same outcome and leave the same machine.
A shape accepts operands as many as it has kinds, each of which fits its position. A read-only
operand in a writable position is refused before the evaluation. Among accepted operands an entry
writes only writable ones, and it never fails because it writes a read-only one. -/
theorem access_mode_irrelevant (m : Machine) (ops : List Operand) :
    (e.shape.check ops = .ok () → ∀ ops', e.shape.Switches ops ops' →
      e.shape.check ops' = .ok () ∧
      (m.execEntry e ops').outcome = (m.execEntry e ops).outcome ∧
      (m.execEntry e ops').machine = (m.execEntry e ops).machine) ∧
    (∀ s : Shape, s.check ops = .ok () ↔ ops.length = s.length ∧
      ∀ (k : Nat) (κ : Kind) (x : Operand), s[k]? = some κ → ops[k]? = some x → κ.Fits x) ∧
    (∀ (k : Nat) (κ : Kind) (x : Operand), e.shape[k]? = some κ → κ = .rw ∨ κ = .mw →
      ops[k]? = some x → x.isWritable = false → ∃ c, e.shape.check ops = .error c ∧
        c.kind = .operand ∧ m.execEntry e ops = m.refuse (.ofCause m.state.regs c) []) ∧
    (e.shape.check ops = .ok () → ∀ as,
      (e.op.actions m.options (e.invoke ops)).run (.begin m.state m.options) = .ok as →
        ∀ x v, .write x v ∈ as → x.isWritable) ∧
    ∀ err, (m.execEntry e ops).result = .error err → ∀ x, err.cause ≠ .readOnly x := by
  refine ⟨fun hc ops' hs => ?_, fun s => Shape.check_iff_fits, fun k κ x hκ hw hx hro => ?_,
    fun hc as has x v => Entry.isWritable_of_write hb he hc has,
    fun err herr => (permitted_of_error hb he herr).ne_readOnly⟩
  · have hout := outcome_of_switches (m := m) hb he hc hs
    obtain ⟨hfx, hok⟩ := Response.effects_of_outcome hout
    exact ⟨hs.check hc, hout,
      machine_call_congr (c := .entry e ops') (d := .entry e ops) hfx hok⟩
  · obtain ⟨c, hc, hkind⟩ := Shape.exists_check_eq_error hκ hw hx hro
    refine ⟨c, hc, hkind, ?_⟩
    rw [execEntry_of_error (evaluate_eq_error_iff.mpr (.inl hc)), assumptions, hc]

end Machine

end

/-- ADC reads its first source alike through a writable operand, but does not write through a
read-only one. -/
theorem Machine.access_mode_irrelevant_adc : ∃ t, Table.build Rows.all {} = .ok t ∧
    let m : Machine := { table := t }
    let al : Reg := .gpr .rax .low8
    let r := m.execEntry adcEntry [.regW al, .reg al, .imm 1 .w8]
    let r' := m.execEntry adcEntry [.regW al, .regW al, .imm 1 .w8]
    let q := m.execEntry adcEntry [.reg al, .reg al, .imm 1 .w8]
    r.succeeded ∧ r'.outcome = r.outcome ∧ r'.machine = r.machine ∧ q.succeeded = false := by
  obtain ⟨t, ht⟩ := Table.exists_build {}
  refine ⟨t, ht, ?_⟩
  intro m al r r' q
  have hs : adcEntry.shape.Switches [.regW al, .reg al, .imm 1 .w8]
      [.regW al, .regW al, .imm 1 .w8] := by
    refine ⟨rfl, fun k x y hx hy => ?_⟩
    match k with
    | 0 | 2 => exact .inl (Option.some.inj (hy.symm.trans hx))
    | 1 =>
      cases hx
      cases hy
      exact .inr ⟨.inl rfl, rfl⟩
    | k + 3 => cases hx
  have he := Machine.get?_adcEntry ht
  obtain ⟨-, hout, hmach⟩ :=
    (Machine.access_mode_irrelevant ht he m [.regW al, .reg al, .imm 1 .w8]).1 rfl _ hs
  obtain ⟨c, -, -, hq⟩ :=
    (Machine.access_mode_irrelevant ht he m [.reg al, .reg al, .imm 1 .w8]).2.2.1
      0 .rw (.reg al) rfl (.inl rfl) rfl rfl
  refine ⟨rfl, hout, hmach, ?_⟩
  rw [show q = _ from hq]
  rfl

end X86
