import X86.Proofs.Arithmetic
import X86.Proofs.Limbs
import X86.Proofs.Selection

/-!
# Carry chains

A number of many limbs in memory is added to or subtracted from by one ADC or SBB for each limb,
from the lowest one on. The carry flag takes the carry from each limb to the next one, and at the
end the flags tell about the sum or difference of the whole numbers.

* `limbRow`, `limbCalls`: the instruction forms for one limb, and the calls for a list of limbs;
* `Invocation.run_combineCarry`, `Machine.execEntry_limb`: what one of these calls does;
* `State.Chained`: what a chain leaves behind, with `State.Chained.cons` for one more limb;
* `Machine.run_chained`: what a run of these calls leaves behind;
* **`Machine.limbs_exact`**: additions and subtractions of many limbs are exact.
-/

namespace X86

/-! ## The calls -/

/-- The form of ADC or SBB that joins an immediate value to memory. -/
def limbRow (sub : Bool) (w : Width) : Row where
  stem := match sub, w with
    | false, .w8 => "ADC_MEMb_IMMb_80r2"
    | false, _ => "ADC_MEMv_IMMz"
    | true, .w8 => "SBB_MEMb_IMMb_80r3"
    | true, _ => "SBB_MEMv_IMMz"
  op := if sub then .sbb else .adc
  shape := [.mw, .m, .i]
  sizes := if w = .w8 then .byte else .words

theorem limbRow_mem (sub : Bool) (w : Width) : limbRow sub w ∈ Rows.all := by
  have hrows : limbRow false .w8 ∈ Rows.all ∧ limbRow false .w16 ∈ Rows.all ∧
      limbRow true .w8 ∈ Rows.all ∧ limbRow true .w16 ∈ Rows.all := by
    decide +kernel
  obtain ⟨h₁, h₂, h₃, h₄⟩ := hrows
  cases sub with
  | false =>
    cases w with
    | w8 => exact h₁
    | _ => exact h₂
  | true =>
    cases w with
    | w8 => exact h₃
    | _ => exact h₄

/-- The operands of a call for one limb. -/
def limbOperands (w : Width) (a : Address) (y : Word) : List Operand :=
  [.memW ⟨a, w⟩, .mem ⟨a, w⟩, .imm y w]

/-- The calls that join a list of limbs to the limbs in memory, in ascending order. -/
def limbCalls (sub : Bool) (w : Width) (a : Address) (ys : List Word) : List Call :=
  ys.mapIdx fun i y =>
    .key ((limbRow sub w).key w) (limbOperands w (a + BitVec.ofNat 64 (i * w.bytes)) y)

theorem limbCalls_cons (sub : Bool) (w : Width) (a : Address) (y : Word) (ys : List Word) :
    limbCalls sub w a (y :: ys) =
      .key ((limbRow sub w).key w) (limbOperands w a y) ::
        limbCalls sub w (a + BitVec.ofNat 64 w.bytes) ys := by
  have hsucc : ∀ i : Nat, a + BitVec.ofNat 64 ((i + 1) * w.bytes) =
      a + BitVec.ofNat 64 w.bytes + BitVec.ofNat 64 (i * w.bytes) := by
    intro i
    rw [BitVec.add_assoc, ← BitVec.ofNat_add, Nat.succ_mul, Nat.add_comm]
  unfold limbCalls
  rw [List.mapIdx_cons, Nat.zero_mul, show a + BitVec.ofNat 64 0 = a from BitVec.add_zero a]
  simp only [hsucc]

/-! ## One limb -/

theorem Invocation.run_combineCarry {i : Invocation} {s : State} {o : Options} {sub c : Bool}
    {x y : Word} {dst : Operand} (hw : i.width.isScalar)
    (hf : Terms.Fits ⟨sub, x, y, c⟩ i.width) (hx : (i.scalar 1).run (.begin s o) = .ok x)
    (hy : (i.scalar 2).run (.begin s o) = .ok y) (hc : (Transaction.begin s o).carryIn = .ok c)
    (hd : i.operands[0]? = some dst) :
    (i.combineCarry (if sub then .sub else .add)).run (.begin s o) =
      .ok (Terms.actions ⟨sub, x, y, c⟩ i.width dst FlagName.all) := by
  have hcarry : (Fetch.carry fun b => .done (if b then 1 else 0 : Word)).run (.begin s o) =
      .ok (Terms.carryWord ⟨sub, x, y, c⟩) :=
    Except.bind_eq_ok_iff.mpr ⟨c, hc, rfl⟩
  refine Fetch.run_bind_eq_ok.mpr ⟨x, hx, Fetch.run_bind_eq_ok.mpr ⟨y, hy, ?_⟩⟩
  refine Fetch.run_bind_eq_ok.mpr ⟨_, hcarry, ?_⟩
  refine Fetch.run_bind_eq_ok.mpr ⟨dst, run_operand.mpr hd, ?_⟩
  rw [Terms.actions, ← Terms.arith_eq hw hf]
  rfl

theorem Transaction.perform_terms {s : State} {o : Options} {x : Terms} {w : Width} {r : MemRef}
    (h : s.mem.check r.address r.width = .ok ()) :
    (begin s o).perform (x.actions w (.memW r) FlagName.all) =
      .ok ((((begin s o).store r (.ofWord (x.word w))).barrier .compiler).setFlags
        (FlagName.all.map fun n => (n, .ofBool (x.flag w n)))) := by
  have hact : (begin s o).act (.write (.memW r) (.ofWord (x.word w))) =
      .ok ((begin s o).store r (.ofWord (x.word w))) :=
    Except.bind_eq_ok_iff.mpr ⟨(), h, rfl⟩
  exact perform_cons_eq_ok_iff.mpr ⟨_, hact, rfl⟩

/-- The state after one limb. -/
def State.afterLimb (s : State) (w : Width) (a : Address) (x : Terms) : State where
  regs := { s.regs with
    flags := s.regs.flags.assign (FlagName.all.map fun n => (n, .ofBool (x.flag w n))) }
  mem := s.mem.apply ⟨a, w, .ofWord (x.word w)⟩

namespace Machine

variable {m : Machine} {e : Entry} {sub c : Bool} {a : Address} {x y : Word}

theorem transact_limb (hop : e.op = if sub then .sbb else .adc) (hw : e.width.isScalar)
    (hx : m.state.mem.number a e.width.bytes = .ok x.toNat)
    (hf : Terms.Fits ⟨sub, x, y, c⟩ e.width) (hc : m.state.regs.flags.cf = .ofBool c) :
    ∃ t, m.transact e (limbOperands e.width a y) = .ok t ∧
      Effect.replay m.state t.effects = m.state.afterLimb e.width a ⟨sub, x, y, c⟩ := by
  have hb := Width.scalarBits_eq_bits hw
  have hact : e.op.actions m.options (e.invoke (limbOperands e.width a y)) =
      (e.invoke (limbOperands e.width a y)).combineCarry (if sub then .sub else .add) := by
    rw [hop]
    cases sub <;> rfl
  obtain ⟨l, hl, hlx⟩ := Memory.number_eq_ok_iff.mp hx
  have hlow : e.width.trunc l.low = x := by
    apply BitVec.eq_of_toNat_eq
    rw [Lanes.toNat_trunc_low hw (hlx ▸ hf.lhs), hlx]
  have hy : e.width.trunc (Lanes.low (.ofWord (e.width.trunc y))) = y := by
    rw [Lanes.low_ofWord, Width.trunc_trunc, Width.trunc_of_lt (hb ▸ hf.rhs)]
  have hcarry : (Transaction.begin m.state m.options).carryIn = .ok c := by
    rw [State.carryIn_begin, State.carry?, hc, Flag.value?_ofBool]
    rfl
  have hrun := Invocation.run_combineCarry (i := e.invoke (limbOperands e.width a y)) hw hf
    (Invocation.run_scalar.mpr ⟨_, rfl, _, Transaction.read_begin.mpr ⟨hw, l, hl, rfl⟩, hlow⟩)
    (Invocation.run_scalar.mpr ⟨_, rfl, _, Transaction.read_begin.mpr ⟨hw, _, rfl, rfl⟩, hy⟩)
    hcarry rfl
  rw [← hact] at hrun
  have ht : m.transact e (limbOperands e.width a y) = .ok _ :=
    Op.eval_eq_ok_iff.mpr ⟨_, hrun, Transaction.perform_terms (Memory.check_of_number hx)⟩
  refine ⟨_, ht, ?_⟩
  rw [replay_transact ht, Transaction.setFlags_eq, State.afterLimb, ← Memory.apply_trunc]
  rfl

/-- **What the call for one limb does.** -/
theorem execEntry_limb (hop : e.op = if sub then .sbb else .adc) (hs : e.shape = [.mw, .m, .i])
    (hw : e.width.isScalar) (hx : m.state.mem.number a e.width.bytes = .ok x.toNat)
    (hf : Terms.Fits ⟨sub, x, y, c⟩ e.width) (hc : m.state.regs.flags.cf = .ofBool c) :
    let r := m.execEntry e (limbOperands e.width a y)
    r.succeeded ∧ r.machine = { m with
      state := m.state.afterLimb e.width a ⟨sub, x, y, c⟩, executed := m.executed + 1 } := by
  intro r
  obtain ⟨t, ht, hstate⟩ := transact_limb hop hw hx hf hc
  obtain ⟨hok, hm⟩ := call_of_transact (c := .entry e (limbOperands e.width a y)) rfl
    (by rw [hs]; rfl) ht
  rw [← replay_transact ht, hstate] at hm
  exact ⟨hok, hm⟩

end Machine

/-! ## Many limbs -/

/-- The sign and overflow flags tell where a signed integer of some bits lies. -/
def Flags.Tell (f : Flags) (bits : Nat) (n : Int) : Prop :=
  ∃ sf of : Bool, f.sf = .ofBool sf ∧ f.of = .ofBool of ∧
    (of = true ↔ ¬ (-2 ^ (bits - 1) ≤ n ∧ n < 2 ^ (bits - 1))) ∧ (sf ≠ of ↔ n < 0)

theorem Flags.tell_of_terms {f : Flags} {x : Terms} {w : Width} (hw : w.isScalar) (hx : x.Fits w)
    (hf : ∀ n, f.get n = .ofBool (x.flag w n)) : f.Tell w.bits (x.exact .signed w) :=
  ⟨_, _, hf .sf, hf .of, decide_eq_true_iff, Terms.sign_ne_overflow_iff hw hx⟩

theorem Flags.Tell.scaled {f : Flags} {b n : Nat} {r e : Int} (h : f.Tell n e) (hn : 0 < n)
    (h₀ : 0 ≤ r) (h₁ : r < 2 ^ b) : f.Tell (b + n) (r + 2 ^ b * e) := by
  obtain ⟨sf, of, hsf, hof, hover, hneg⟩ := h
  have hpow : (2 : Int) ^ (b + n - 1) = 2 ^ b * 2 ^ (n - 1) := by
    rw [← pow_add, Nat.add_sub_assoc hn]
  refine ⟨sf, of, hsf, hof, ?_, ?_⟩
  · rw [hover, hpow, ← mul_neg, scaled_le h₀ h₁, scaled_lt h₀ h₁]
  · rw [hneg, ← scaled_lt h₀ h₁, mul_zero]

/-- What a chain of calls leaves behind, where `X` is the number in memory before. -/
structure State.Chained (sub : Bool) (w : Width) (a : Address) (ys : List Word) (X : Nat)
    (c : Bool) (s s' : State) : Prop where
  number : ∃ R : Nat, s'.mem.number a (ys.length * w.bytes) = .ok R ∧
    (R : Int) = joined sub X (limbNumber w ys) c % 2 ^ (ys.length * w.bits)
  carry : s'.regs.flags.cf = .ofBool (¬ (0 ≤ joined sub X (limbNumber w ys) c ∧
    joined sub X (limbNumber w ys) c < 2 ^ (ys.length * w.bits)))
  signs : ys ≠ [] → s'.regs.flags.Tell (ys.length * w.bits)
    (joinedSigned sub (ys.length * w.bits) X (limbNumber w ys) c)
  idle : ys = [] → s' = s
  mem : ∀ z, ys.length * w.bytes ≤ (z - a).toNat → s'.mem.byte? z = s.mem.byte? z
  regs : s'.regs = { s.regs with flags := s'.regs.flags }

namespace State

variable {s s' : State} {sub c : Bool} {w : Width} {a : Address} {ys : List Word} {X : Nat}
  {t : Terms}

theorem chained_nil (hc : s.regs.flags.cf = .ofBool c) : Chained sub w a [] 0 c s s where
  number := by
    refine ⟨0, ?_, ?_⟩
    · rw [List.length_nil, Nat.zero_mul]
      rfl
    · rw [List.length_nil, Nat.zero_mul, pow_zero, Int.emod_one]
      rfl
  carry := by
    rw [List.length_nil, Nat.zero_mul, pow_zero, hc]
    cases sub <;> cases c <;> rfl
  signs h := absurd rfl h
  idle _ := rfl
  mem _ _ := rfl
  regs := rfl

theorem get_flags_afterLimb (s : State) (w : Width) (a : Address) (x : Terms) (n : FlagName) :
    (s.afterLimb w a x).regs.flags.get n = .ofBool (x.flag w n) := by
  change (s.regs.flags.assign _).get n = _
  rw [Flags.get_assign_map, if_pos n.mem_all]

theorem byte?_afterLimb {z : Address} (h : w.bytes ≤ (z - a).toNat) (t : Terms) :
    (s.afterLimb w a t).mem.byte? z = s.mem.byte? z := by
  change (s.mem.apply _).byte? z = _
  rw [Memory.byte?_apply, Store.byteAt?, if_neg (Nat.not_lt.mpr h)]
  rfl

theorem number_afterLimb (hw : w.isScalar) (ht : t.Fits w) :
    (s.afterLimb w a t).mem.number a w.bytes = .ok (t.word w).toNat := by
  rw [← Nat.mod_eq_of_lt (Terms.toNat_word_lt hw ht)]
  exact Memory.number_apply _ _ _ _

/-- **One more limb below a chain.** -/
theorem Chained.cons (hw : w.isScalar) (ht : t.Fits w)
    (hX : X < 2 ^ (ys.length * w.bits)) (hY : limbNumber w ys < 2 ^ (ys.length * w.bits))
    (hlen : w.bytes + ys.length * w.bytes ≤ 2 ^ 64)
    (h : Chained t.subtract w (a + BitVec.ofNat 64 w.bytes) ys X (t.flag w .cf)
      (s.afterLimb w a t) s') :
    Chained t.subtract w a (t.rhs :: ys) (t.lhs.toNat + 2 ^ w.bits * X) t.carry s s' := by
  have hbytes : (t.rhs :: ys).length * w.bytes = w.bytes + ys.length * w.bytes := by
    rw [List.length_cons, Nat.succ_mul, Nat.add_comm]
  have hbits : (t.rhs :: ys).length * w.bits = w.bits + ys.length * w.bits := by
    rw [List.length_cons, Nat.succ_mul, Nat.add_comm]
  have h₀ : (0 : Int) ≤ (t.word w).toNat := Int.natCast_nonneg _
  have h₁ : ((t.word w).toNat : Int) < 2 ^ w.bits := by
    exact_mod_cast Terms.toNat_word_lt hw ht
  have hjoin := Terms.joined_cons hw ht X ys
  refine {
    number := ?number
    carry := ?carry
    signs := fun _ => ?signs
    idle := fun hnil => absurd hnil (List.cons_ne_nil t.rhs ys)
    mem := fun z hz => ?mem
    regs := h.regs.trans rfl }
  case number =>
    obtain ⟨R, hR, hval⟩ := h.number
    have hlow : s'.mem.number a w.bytes = .ok (t.word w).toNat := by
      rw [Memory.number_congr fun z hz => h.mem z ?_, number_afterLimb hw ht]
      exact (Memory.le_toNat_sub_add_iff hlen).mpr (.inl hz)
    refine ⟨_, hbytes ▸ Memory.number_add.mpr ⟨_, R, hlow, hR, rfl⟩, ?_⟩
    rw [hjoin, hbits, pow_add, emod_split h₀ h₁ (by positivity), ← hval, Width.pow_bytes]
    push_cast
    rfl
  case carry =>
    have hnonneg := scaled_le h₀ h₁ (k := 0)
      (e := joined t.subtract X (limbNumber w ys) (t.flag w .cf))
    rw [mul_zero] at hnonneg
    rw [h.carry, hjoin, hbits, pow_add]
    simp only [hnonneg, scaled_lt h₀ h₁]
  case signs =>
    by_cases hys : ys = []
    · -- The highest limb is the only one, so its own flags tell.
      subst hys
      have hone : limbNumber w [t.rhs] = t.rhs.toNat := limbNumber_cons w t.rhs []
      rw [List.length_nil, Nat.zero_mul, pow_zero, Nat.lt_one_iff] at hX
      rw [h.idle rfl, hX, hone, hbits, List.length_nil, Nat.zero_mul, Nat.add_zero, Nat.mul_zero,
        Nat.add_zero, Terms.joinedSigned_one hw]
      exact Flags.tell_of_terms hw ht (get_flags_afterLimb s w a t)
    · have hpos : 0 < ys.length * w.bits :=
        Nat.mul_pos (List.length_pos_iff.mpr hys) (by cases w <;> decide)
      rw [hbits, Terms.joinedSigned_cons hw ht hX hY hpos]
      exact (h.signs hys).scaled hpos h₀ h₁
  case mem =>
    rw [hbytes] at hz
    rw [h.mem z ((Memory.le_toNat_sub_add_iff hlen).mpr (.inr hz)), byte?_afterLimb (by omega)]

end State

namespace Machine

variable {m : Machine} {e : Entry} {sub c : Bool} {a : Address} {ys : List Word} {X : Nat}

/-- **What a run over limbs leaves behind.** -/
theorem run_chained (hop : e.op = if sub then .sbb else .adc) (hs : e.shape = [.mw, .m, .i])
    (hw : e.width.isScalar)
    (hg : m.table.get? ((limbRow sub e.width).key e.width) = some e)
    (hy : ∀ y ∈ ys, y.toNat < 2 ^ e.width.bits) (hlen : ys.length * e.width.bytes ≤ 2 ^ 64)
    (hX : m.state.mem.number a (ys.length * e.width.bytes) = .ok X)
    (hc : m.state.regs.flags.cf = .ofBool c) :
    (∀ r ∈ m.responses (limbCalls sub e.width a ys), r.succeeded) ∧
      m.state.Chained sub e.width a ys X c (m.run (limbCalls sub e.width a ys)).state := by
  induction ys generalizing m a X c with
  | nil =>
    rw [List.length_nil, Nat.zero_mul] at hX
    cases hX
    exact ⟨by simp [limbCalls, responses], State.chained_nil hc⟩
  | cons y ys ih =>
    have hw64 : e.width.bits ≤ 64 := of_decide_eq_true hw
    rw [List.length_cons, Nat.succ_mul, Nat.add_comm] at hX hlen
    obtain ⟨x, R, hx, hR, rfl⟩ := Memory.number_add.mp hX
    have hxlt := Memory.number_lt hx
    have hRlt := Memory.number_lt hR
    rw [Width.pow_bytes] at hxlt ⊢
    rw [Nat.mul_comm, pow_mul, Width.pow_bytes, ← pow_mul, Nat.mul_comm] at hRlt
    obtain ⟨x, rfl⟩ : ∃ v : Word, v.toNat = x :=
      ⟨.ofNat 64 x, Nat.mod_eq_of_lt (lt_of_lt_of_le hxlt (Nat.pow_le_pow_right (by decide) hw64))⟩
    have hys := fun z hz => hy z (List.mem_cons_of_mem y hz)
    have ht : Terms.Fits ⟨sub, x, y, c⟩ e.width := ⟨hxlt, hy y List.mem_cons_self⟩
    obtain ⟨hok, hm⟩ := execEntry_limb hop hs hw hx ht hc
    have hcall : m.call (.key ((limbRow sub e.width).key e.width) (limbOperands e.width a y)) =
        m.execEntry e (limbOperands e.width a y) :=
      call_of_select (c := .key _ _) (by rw [Call.select, Table.lookup, hg])
    -- The other limbs are still in place after the first one.
    have hrest : (m.state.afterLimb e.width a ⟨sub, x, y, c⟩).mem.number
        (a + BitVec.ofNat 64 e.width.bytes) (ys.length * e.width.bytes) = .ok R := by
      rw [← hR]
      refine Memory.number_congr fun z hz => State.byte?_afterLimb ?_ _
      exact ((Memory.toNat_sub_add_lt_iff hlen).mp hz).1
    obtain ⟨hoks, hchain⟩ := ih (m := { m with
      state := m.state.afterLimb e.width a ⟨sub, x, y, c⟩, executed := m.executed + 1 })
      hg hys (by omega) hrest (State.get_flags_afterLimb m.state e.width a _ .cf)
    rw [limbCalls_cons, responses, run, List.foldl_cons, hcall, hm]
    refine ⟨fun r hr => ?_, hchain.cons hw ht hRlt (limbNumber_lt hys) hlen⟩
    rcases List.mem_cons.mp hr with rfl | hr
    · exact hok
    · exact hoks r hr

/-- **Additions and subtractions of many limbs are exact.** Let a range of memory hold the number
`X`, and let the carry flag be `c`. ADC with the limbs of a number `Y`, from the lowest one on,
leaves the low bits of `X + Y + c` in the range, and SBB those of `X - Y - c`. At the end the carry
flag tells that the sum or the difference is out of range, and the sign and overflow flags tell
about the sum or the difference of the signed readings. No other byte of memory and no register
changes. -/
theorem limbs_exact {o : Options} {w : Width} (hb : Table.build Rows.all o = .ok m.table)
    (hw : w.isScalar) (hg : (m.table.get? ((limbRow sub w).key w)).isSome) (hne : ys ≠ [])
    (hy : ∀ y ∈ ys, y.toNat < 2 ^ w.bits) (hlen : ys.length * w.bytes ≤ 2 ^ 64)
    (hX : m.state.mem.number a (ys.length * w.bytes) = .ok X)
    (hc : m.state.regs.flags.cf = .ofBool c) :
    let bits := ys.length * w.bits
    let Y := limbNumber w ys
    let calls := limbCalls sub w a ys
    let s := (m.run calls).state
    (∀ r ∈ m.responses calls, r.succeeded) ∧
      (∃ R : Nat, s.mem.number a (ys.length * w.bytes) = .ok R ∧
        (R : Int) = (if sub then (X : Int) - Y - c.toNat else X + Y + c.toNat) % 2 ^ bits) ∧
      s.regs.flags.cf =
        .ofBool (if sub then X < Y + c.toNat else 2 ^ bits ≤ X + Y + c.toNat) ∧
      s.regs.flags.Tell bits (joinedSigned sub bits X Y c) ∧
      (∀ z, ys.length * w.bytes ≤ (z - a).toNat → s.mem.byte? z = m.state.mem.byte? z) ∧
      s.regs = { m.state.regs with flags := s.regs.flags } := by
  intro bits Y calls s
  obtain ⟨e, he⟩ := Option.isSome_iff_exists.mp hg
  obtain ⟨hop, -, rfl, hs⟩ := Table.fields_of_get? hb (limbRow_mem sub w) he
  obtain ⟨hoks, h⟩ := run_chained hop hs hw he hy hlen hX hc
  refine ⟨hoks, h.number, h.carry.trans ?_, h.signs hne, h.mem, h.regs⟩
  have hXlt : X < 2 ^ bits := by
    have := Memory.number_lt hX
    rwa [Nat.mul_comm, pow_mul, Width.pow_bytes, ← pow_mul, Nat.mul_comm] at this
  have hpow : ((2 ^ bits : Nat) : Int) = 2 ^ bits := by push_cast; rfl
  have hcarry : (¬ (0 ≤ joined sub X Y c ∧ joined sub X Y c < 2 ^ bits)) ↔
      (if sub then X < Y + c.toNat else 2 ^ bits ≤ X + Y + c.toNat) := by
    unfold joined
    cases sub with
    | false =>
      simp only [Bool.false_eq_true, if_false]
      omega
    | true =>
      simp only [if_true]
      omega
  congr 1
  rw [Bool.eq_iff_iff, decide_eq_true_iff, hcarry]
  cases sub <;> simp

/-- Adding one to a number of two bytes, of which the second one is at address zero behind the last
address, takes the carry from the first byte to the second one. -/
theorem limbs_exact_wrap : ∃ t, Table.build Rows.all {} = .ok t ∧
    let m : Machine := {
      table := t
      state := { mem := ({} : Memory).load 0xffffffffffffffff [0xff, 0x00] } }
    let s := (m.run (limbCalls false .w8 0xffffffffffffffff [1, 0])).state
    s.mem.number 0xffffffffffffffff 2 = .ok 0x100 ∧ s.regs.flags.cf = .clear := by
  obtain ⟨t, ht⟩ := Table.exists_build {}
  refine ⟨t, ht, ?_⟩
  intro m s
  obtain ⟨e, -, he⟩ :=
    Table.get?_of_build ht (limbRow_mem false .w8) (p := (.w8, .any)) (by decide)
  have hg : (m.table.get? ((limbRow false .w8).key .w8)).isSome := by rw [he]; rfl
  have hne : ([1, 0] : List Word) ≠ [] := by decide
  have hy : ∀ y ∈ ([1, 0] : List Word), y.toNat < 2 ^ Width.w8.bits := by simp [Width.bits]
  have hlen : ([1, 0] : List Word).length * Width.w8.bytes ≤ 2 ^ 64 := by
    simp [Width.bytes, Width.bits]
  have hX : m.state.mem.number 0xffffffffffffffff 2 = .ok 0xff := rfl
  have hc : m.state.regs.flags.cf = .ofBool false := rfl
  obtain ⟨-, ⟨R, hR, hval⟩, hcf, -⟩ := limbs_exact ht (by decide) hg hne hy hlen hX hc
  refine ⟨hR.trans (congrArg Except.ok ?_), hcf.trans rfl⟩
  exact Int.natCast_inj.mp (hval.trans rfl)

end Machine

end X86
