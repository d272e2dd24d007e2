import X86.Proofs.Forms
import X86.Proofs.Selection
import X86.Proofs.Shift

/-!
# Shifts step by step

A shift by some number does the same as that many shifts by one, and a shift to the left by one the
same as adding a number to itself. What remains of the flags is that of the result, and the bit
that is pushed out last is the same.

* `Location`, `State.put`: what a shift can change in place, and the state after it is written;
* `State.put_put`, `State.read_put`: only the last value counts;
* `Transaction.exists_perform_writeReg`, `Transaction.exists_perform_put`: what instructions do that
  write one value and all flags;
* `Location.shift`, `Machine.call_shift`: one shift in place;
* `Machine.run_steps`: what shifts by one leave behind;
* `Terms.word_double`, `Terms.flag_double`: the sum of a word and itself;
* **`Machine.shift_steps`**: one shift, many shifts by one, and a sum.
-/

namespace X86

/-! ## Writing in place -/

/-- A register or a piece of memory that an instruction reads and writes. -/
inductive Location where
  | reg (r : Reg)
  | mem (x : MemRef)

namespace Location

def width : Location → Width
  | reg r => r.width
  | mem x => x.width

/-- The operand for writing. -/
def target : Location → Operand
  | reg r => .regW r
  | mem x => .memW x

/-- The operand for reading. -/
def source : Location → Operand
  | reg r => .reg r
  | mem x => .mem x

/-- What a form with an immediate value expects that changes such a location. -/
def shape : Location → Shape
  | reg _ => [.rw, .r, .i]
  | mem _ => [.mw, .m, .i]

end Location

theorem Memory.apply_apply (m : Memory) (a : Address) (w : Width) (u v : Lanes) :
    (m.apply ⟨a, w, u⟩).apply ⟨a, w, v⟩ = m.apply ⟨a, w, v⟩ := by
  refine ext_byte? fun x => ?_
  rw [byte?_apply, byte?_apply, byte?_apply, Store.byteAt?, Store.byteAt?]
  split <;> rfl

namespace State

variable {s : State} {loc : Location} {u v : Word} {up : FlagUpdate}

/-- The state with a word written to a location. -/
def put (s : State) : Location → Word → State
  | .reg r, v => { s with regs := s.regs.write r (.ofWord v) }
  | .mem x, v => { s with mem := s.mem.apply ⟨x.address, x.width, .ofWord v⟩ }

/-- The state with flags assigned. -/
def assign (s : State) (u : FlagUpdate) : State :=
  { s with regs := { s.regs with flags := s.regs.flags.assign u } }

theorem put_put (s : State) (loc : Location) (u v : Word) :
    (s.put loc u).put loc v = s.put loc v := by
  cases loc with
  | reg r => exact congrArg (State.mk · s.mem) (RegFile.write_write _ _ _ _)
  | mem x => exact congrArg (State.mk s.regs ·) (Memory.apply_apply _ _ _ _ _)

theorem read_put (s : State) (loc : Location) (v : Word) :
    (s.put loc v).read loc.source = .ok (Lanes.trunc loc.width (.ofWord v)) := by
  cases loc with
  | reg r => exact congrArg Except.ok (RegFile.read_write _ _ _)
  | mem x => exact Memory.read_apply s.mem ⟨x.address, x.width, .ofWord v⟩

/-- Whether the low bits of a location are those of a word. -/
def Contains (s : State) (loc : Location) (v : Word) : Prop :=
  ∃ l, s.read loc.source = .ok l ∧ loc.width.trunc l.low = v

theorem contains_put (hw : loc.width.isScalar) (hv : v.toNat < 2 ^ loc.width.bits) :
    (s.put loc v).Contains loc v := by
  have ht := Width.trunc_of_lt (Width.scalarBits_eq_bits hw ▸ hv)
  refine ⟨_, s.read_put loc v, ?_⟩
  rw [← ht, Lanes.trunc_ofWord_trunc hw, Lanes.low_ofWord, Width.trunc_trunc]

theorem exists_contains (hm : s.Maps loc.target) :
    ∃ v, s.Contains loc v ∧ v.toNat < 2 ^ loc.width.scalarBits := by
  obtain ⟨l, hl⟩ := State.exists_read_iff.mpr hm
  refine ⟨_, ⟨l, ?_, rfl⟩, loc.width.toNat_trunc_lt _⟩
  cases loc <;> exact hl

theorem maps_put (h : s.Maps loc.target) (v : Word) : (s.put loc v).Maps loc.target := by
  cases loc with
  | reg r => exact fun _ hn => hn.elim
  | mem x =>
    intro a ha
    change ((s.mem.apply _).byte? a).isSome
    rw [Memory.byte?_apply, Option.isSome_or, h a ha, Bool.or_true]

/-! ### Assigned flags -/

theorem put_assign (s : State) (loc : Location) (v : Word) (u : FlagUpdate) :
    (s.assign u).put loc v = (s.put loc v).assign u := by
  cases loc with
  | reg r => cases r <;> rfl
  | mem x => rfl

theorem slot_assign (s : State) (u : FlagUpdate) (q : Slot) :
    (s.assign u).regs.slot q = s.regs.slot q := by
  cases q <;> rfl

theorem read_assign (s : State) (u : FlagUpdate) (r : Reg) :
    (s.assign u).regs.read r = s.regs.read r := by
  rw [RegFile.read, slot_assign, RegFile.read]

theorem get_assign_all (s : State) (g : FlagName → Flag) (n : FlagName) :
    (s.assign (FlagName.all.map fun n => (n, g n))).regs.flags.get n = g n := by
  change (Flags.assign _ _).get n = _
  rw [Flags.get_assign_map, if_pos n.mem_all]

theorem assign_assign_all (s : State) (u : FlagUpdate) (g : FlagName → Flag) :
    (s.assign u).assign (FlagName.all.map fun n => (n, g n)) =
      s.assign (FlagName.all.map fun n => (n, g n)) := by
  have hf : ((s.assign u).assign (FlagName.all.map fun n => (n, g n))).regs.flags =
      (s.assign (FlagName.all.map fun n => (n, g n))).regs.flags :=
    Flags.ext_get fun n => (get_assign_all _ g n).trans (get_assign_all s g n).symm
  exact congrArg (fun f => { s with regs := { s.regs with flags := f } }) hf

theorem contains_assign : (s.assign up).Contains loc v ↔ s.Contains loc v := by
  cases loc with
  | reg r => cases r <;> exact Iff.rfl
  | mem x => exact Iff.rfl

theorem sameData_assign (s : State) (u u' : FlagUpdate) : (s.assign u).SameData (s.assign u') :=
  ⟨rfl, rfl, rfl, rfl⟩

end State

/-! ## Instructions that write one location -/

theorem Transaction.exists_perform_writeReg (s : State) (o : Options) (d : Reg) (v : Lanes)
    (b : Barrier) (u : FlagUpdate) :
    ∃ t, (begin s o).perform [.write (.regW d) v, .barrier b, .assign u] = .ok t ∧
      t.effects = .writeReg d (Lanes.trunc d.width v) :: .barrier b :: u.effects ∧
      (⟨t.regs, t.stores.foldl Memory.apply s.mem⟩ : State) =
        ({ s with regs := s.regs.write d v } : State).assign u := by
  refine ⟨_, rfl, ?_, ?_⟩
  · rw [setFlags_eq]
    rfl
  · rw [setFlags_eq, State.assign, ← RegFile.write_trunc]
    rfl

theorem Transaction.exists_perform_put {s : State} {o : Options} {loc : Location} {b : Barrier}
    (h : s.Maps loc.target) (v : Word) (u : FlagUpdate) :
    ∃ t, (begin s o).perform [.write loc.target (.ofWord v), .barrier b, .assign u] = .ok t ∧
      (⟨t.regs, t.stores.foldl Memory.apply s.mem⟩ : State) = (s.put loc v).assign u := by
  cases loc with
  | reg r =>
    obtain ⟨t, hp, -, hs⟩ := exists_perform_writeReg s o r (.ofWord v) b u
    exact ⟨t, hp, hs⟩
  | mem x =>
    have hact : (begin s o).act (.write (.memW x) (.ofWord v)) =
        .ok ((begin s o).store x (.ofWord v)) :=
      Except.bind_eq_ok_iff.mpr ⟨(), State.check_iff_maps.mpr h, rfl⟩
    refine ⟨_, perform_cons_eq_ok_iff.mpr ⟨_, hact, rfl⟩, ?_⟩
    rw [setFlags_eq, State.assign, State.put, ← Memory.apply_trunc]
    rfl

theorem Invocation.run_combine {i : Invocation} {s : State} {o : Options} {x y : Word}
    {dst : Operand} (hw : i.width.isScalar) (hf : Terms.Fits ⟨false, x, y, false⟩ i.width)
    (hx : (i.scalar 1).run (.begin s o) = .ok x) (hy : (i.scalar 2).run (.begin s o) = .ok y)
    (hd : i.operands[0]? = some dst) :
    (i.combine .add).run (.begin s o) =
      .ok (Terms.actions ⟨false, x, y, false⟩ i.width dst FlagName.all) := by
  refine Fetch.run_bind_eq_ok.mpr ⟨x, hx, Fetch.run_bind_eq_ok.mpr ⟨y, hy, ?_⟩⟩
  refine Fetch.run_bind_eq_ok.mpr ⟨dst, run_operand.mpr hd, ?_⟩
  rw [Terms.actions, ← Terms.arith_eq hw hf, Terms.carryChain_of_carry rfl, Terms.word_of_carry rfl]
  rfl

/-! ## The sum of a word and itself -/

namespace Terms

variable {w : Width} {v : Word} (hw : w.isScalar) (hv : v.toNat < 2 ^ w.bits)

/-- A word is added to itself. -/
def double (v : Word) : Terms :=
  ⟨false, v, v, false⟩

include hw hv

theorem exact_double : (double v).exact .unsigned w = 2 * v.toNat := by
  rw [exact_unsigned hw ⟨hv, hv⟩]
  change (v.toNat : Int) + v.toNat + (0 : Nat) = _
  omega

theorem word_double : (double v).word w = Shift.left.result w v 1 := by
  refine Shift.eq_result ?_
  rw [toNat_word hw ⟨hv, hv⟩, exact_double hw hv, Shift.value, pow_one, mul_comm]

/-- **The flags of a doubled word** are those of a shift, but for the one that a shift leaves
undefined. -/
theorem flag_double {f : FlagName} (h : f ≠ .af) :
    .ofBool ((double v).flag w f) = Shift.left.flag w v 1 f := by
  have hx : (double v).Fits w := ⟨hv, hv⟩
  have hres : (double v).result w = Shift.left.result w v 1 :=
    (word_eq_result hw hx).symm.trans (word_double hw hv)
  have hpow := w.two_pow_bits
  cases f with
  | af => exact absurd rfl h
  | cf =>
    have hN : ((2 ^ w.bits : Nat) : Int) = 2 ^ w.bits := by push_cast; rfl
    rw [Shift.flag_cf_of_lt _ w.one_lt_bits, Shift.lastBit, ← Shift.isNegative_eq hw,
      isNegative_of_lt hw hv, flag, exact_double hw hv]
    congr 1
    rw [decide_eq_decide]
    omega
  | pf =>
    rw [flag, hres]
    rfl
  | zf => rw [flag, exact_double hw hv, Shift.flag, Shift.value, pow_one, mul_comm]
  | sf =>
    rw [flag, hres]
    rfl
  | of =>
    rw [← overflow_eq hw hx, word_double hw hv]
    change Flag.ofBool (w.isNegative
      ((v ^^^ Shift.left.result w v 1) &&& (v ^^^ Shift.left.result w v 1))) = _
    rw [isNegative_and, isNegative_xor, Bool.and_self, Shift.isNegative_eq hw,
      Shift.isNegative_eq hw]
    rfl

end Terms

theorem Shift.flag_result {w : Width} {v : Word} (hw : w.isScalar) (hv : v.toNat < 2 ^ w.bits)
    (k : Shift) {n : Nat} {f : FlagName} (hf : f ≠ .of) (hcf : f = .cf → n + 1 < w.bits) :
    k.flag w (k.result w v n) 1 f = k.flag w v (n + 1) f := by
  cases f with
  | cf =>
    rw [flag_cf_of_lt _ w.one_lt_bits, flag_cf_of_lt _ (hcf rfl), getLsbD_result hw k
      (Nat.lt_of_succ_lt (hcf rfl))]
  | pf | sf => rw [flag, flag, result_result hw hv]
  | af => rfl
  | zf => rw [flag, flag, value_result hw hv]
  | of => exact absurd rfl hf

/-! ## Calls -/

theorem Table.add_iff {t : Table} {o : Options} {name : String} {e : Entry}
    (h : Table.build Rows.all o = .ok t) (hg : t.get? name = some e) :
    e.op = .add ↔ e.key.mnemonic = "ADD" := by
  have hmem : e.op ∈ [Op.add] ↔ e.key.mnemonic ∈ ["ADD"] :=
    op_mem_iff h hg (by intro op s; cases op <;> cases s <;> decide)
  simpa using hmem

/-- The call of a form that shifts a location by an immediate value. -/
def Location.shift (loc : Location) (name : String) (iw : Width) (n : Nat) : Call :=
  .key name [loc.target, loc.source, .imm (.ofNat 64 n) iw]

/-- The call of a form that adds a register to itself. -/
def Call.double (name : String) (r : Reg) : Call :=
  .key name [.regW r, .reg r, .reg r]

theorem Shift.steps_imm {w iw : Width} {n : Nat} (hi : iw.isScalar) (hn : n ≤ w.countMask.toNat) :
    steps w (Lanes.low (.ofWord (iw.trunc (.ofNat 64 n)))) = n := by
  have hlt : n < if w = .w64 then 64 else 32 := by
    cases w with
    | w64 => exact Nat.lt_succ_of_le hn
    | _ => exact Nat.lt_succ_of_le hn
  have h64 : n < 64 := lt_of_lt_of_le hlt (by split <;> decide)
  have hword : (BitVec.ofNat 64 n).toNat = n := Nat.mod_eq_of_lt (by omega)
  have himm : n < 2 ^ iw.scalarBits := by
    rcases Width.scalar_cases hi with rfl | rfl | rfl | rfl <;>
      exact lt_of_lt_of_le h64 (by decide)
  rw [Lanes.low_ofWord, Width.trunc_of_lt (hword.symm ▸ himm), steps, hword, Nat.mod_eq_of_lt hlt]

namespace Machine

variable {m : Machine} {c : Call} {e : Entry} {k : Shift} {loc : Location} {v : Word}
  {name : String} {iw : Width} {n : Nat}

/-- **A call that writes one location** and then flags. -/
theorem call_put (loc : Location) {b : Barrier} {u : FlagUpdate} (hsel : c.select m.table = .ok e)
    (hshape : e.shape.check c.operands = .ok ()) (hm : m.state.Maps loc.target)
    (ht : m.transact e c.operands = (Transaction.begin m.state m.options).perform
      [.write loc.target (.ofWord v), .barrier b, .assign u]) :
    (m.call c).succeeded ∧ (m.call c).machine =
      { m with state := (m.state.put loc v).assign u, executed := m.executed + 1 } := by
  obtain ⟨t, hp, hs⟩ := Transaction.exists_perform_put hm v u
  obtain ⟨hok, hmach⟩ := call_of_transact hsel hshape (ht.trans hp)
  rw [hs] at hmach
  exact ⟨hok, hmach⟩

section Shifts

variable (hg : m.table.get? name = some e) (hk : e.Shifts k) (hs : e.shape = loc.shape)
  (hw : e.width.isScalar) (hl : loc.width = e.width) (hi : iw.isScalar)

include hg hk hs hw hl hi

/-- **One shift in place.** -/
theorem call_shift (hm : m.state.Maps loc.target) (hv : m.state.Contains loc v) (h₀ : n ≠ 0)
    (hn : n ≤ e.width.countMask.toNat) :
    let r := m.call (loc.shift name iw n)
    r.succeeded ∧ r.machine = { m with
      state := (m.state.put loc (k.result e.width v n)).assign
        (FlagName.all.map fun f => (f, k.flag e.width v n f)),
      executed := m.executed + 1 } := by
  intro r
  obtain ⟨l, hread, hlv⟩ := hv
  have hsrc : loc.source.width.isScalar := by
    rw [show loc.source.width = loc.width by cases loc <;> rfl, hl]
    exact hw
  have hshape : e.shape.check [loc.target, loc.source, .imm (.ofNat 64 n) iw] = .ok () := by
    rw [hs]
    cases loc <;> rfl
  have ht : m.transact e [loc.target, loc.source, .imm (.ofNat 64 n) iw] = _ :=
    transact_shift hk hw hsrc hi hread rfl
  rw [Shift.steps_imm hi hn, Shift.actions_of_ne_zero h₀, ← hl, hlv, hl] at ht
  exact call_put loc (c := loc.shift name iw n)
    (by rw [Location.shift, Call.select, Table.lookup, hg]) hshape hm ht

/-- **Shifts by one, one after the other**: each starts from the word that the last one left. -/
theorem run_steps (hm : m.state.Maps loc.target) (hv : m.state.Contains loc v)
    (hlt : v.toNat < 2 ^ e.width.bits) (n : Nat) :
    let cs := List.replicate (n + 1) (loc.shift name iw 1)
    (∀ r ∈ m.responses cs, r.succeeded) ∧
      (m.run cs).state = (m.state.put loc (k.result e.width v (n + 1))).assign
        (FlagName.all.map fun f => (f, k.flag e.width (k.result e.width v n) 1 f)) := by
  have hone : 1 ≤ e.width.countMask.toNat := by cases e.width <;> decide
  induction n generalizing m v with
  | zero =>
    obtain ⟨hok, hr⟩ := call_shift hg hk hs hw hl hi hm hv one_ne_zero hone
    refine ⟨by simpa [responses] using hok, ?_⟩
    rw [Shift.result_zero hw hlt]
    exact congrArg Machine.state hr
  | succ n ih =>
    obtain ⟨hok, hr⟩ := call_shift hg hk hs hw hl hi hm hv one_ne_zero hone
    have hlt₁ := Shift.result_lt hw hlt k 1
    have hv₁ : (m.state.put loc (k.result e.width v 1)).Contains loc (k.result e.width v 1) :=
      State.contains_put (hl ▸ hw) (hl ▸ hlt₁)
    obtain ⟨hoks, hrun⟩ := @ih (m.call (loc.shift name iw 1)).machine (k.result e.width v 1)
      (by rw [hr]; exact hg) (by rw [hr]; exact State.maps_put hm _)
      (by rw [hr]; exact State.contains_assign.mpr hv₁) hlt₁
    refine ⟨fun r hmem => ?_, ?_⟩
    · rcases List.mem_cons.mp hmem with rfl | hmem
      · exact hok
      · exact hoks r hmem
    · change ((m.call (loc.shift name iw 1)).machine.run _).state = _
      rw [hrun, hr, State.put_assign, State.put_put, State.assign_assign_all,
        Shift.result_result hw hlt, Shift.result_result hw hlt, Nat.add_comm 1, Nat.add_comm 1]

end Shifts

theorem call_double {r : Reg} (hg : m.table.get? name = some e) (hop : e.op = .add)
    (hs : e.shape = [.rw, .r, .r]) (hw : e.width.isScalar) (hr : r.width = e.width)
    (hv : m.state.Contains (.reg r) v) (hlt : v.toNat < 2 ^ e.width.bits) :
    let a := m.call (.double name r)
    a.succeeded ∧ a.machine = { m with
      state := (m.state.put (.reg r) (Shift.left.result e.width v 1)).assign
        (FlagName.all.map fun f => (f, .ofBool ((Terms.double v).flag e.width f))),
      executed := m.executed + 1 } := by
  intro a
  obtain ⟨l, hread, hlv⟩ := hv
  rw [show (Location.reg r).width = e.width from hr] at hlv
  have hscalar (j : Nat) (hj : [Operand.regW r, .reg r, .reg r][j]? = some (.reg r)) :
      ((e.invoke [.regW r, .reg r, .reg r]).scalar j).run (.begin m.state m.options) = .ok v :=
    Invocation.run_scalar.mpr ⟨_, hj, _,
      Transaction.read_begin.mpr ⟨show r.width.isScalar from hr ▸ hw, l, hread, rfl⟩, hlv⟩
  have hrun := Invocation.run_combine (i := e.invoke [.regW r, .reg r, .reg r]) hw ⟨hlt, hlt⟩
    (hscalar 1 rfl) (hscalar 2 rfl) rfl
  have ht : m.transact e [.regW r, .reg r, .reg r] =
      (Transaction.begin m.state m.options).perform
        ((Terms.double v).actions e.width (.regW r) FlagName.all) := by
    refine Op.eval_of_run ?_
    rw [hop]
    exact hrun
  rw [Terms.actions, Terms.word_double hw hlt] at ht
  exact call_put (.reg r) (c := .double name r)
    (by rw [Call.double, Call.select, Table.lookup, hg]) (by rw [hs]; rfl) (fun _ hn => hn.elim) ht

/-- **Shifts add up.** A shift in place by a number of steps and as many shifts by one step all
succeed and leave the same registers and memory and the same flags, apart from the overflow flag
and, past the width, the carry flag. A single step to the left leaves what the sum of a register and
itself leaves, apart from the auxiliary carry flag. -/
theorem shift_steps {o : Options} (hb : Table.build Rows.all o = .ok m.table)
    (hg : m.table.get? name = some e) (hk : e.key.mnemonic = k.mnemonic)
    (hs : e.shape = loc.shape) (hl : loc.width = e.width) (hm : m.state.Maps loc.target)
    (hi : iw.isScalar) :
    (∀ n, 1 ≤ n → n ≤ e.width.countMask.toNat →
      let once := m.call (loc.shift name iw n)
      let steps := List.replicate n (loc.shift name iw 1)
      let s := once.machine.state
      let s' := (m.run steps).state
      once.succeeded ∧ (∀ r ∈ m.responses steps, r.succeeded) ∧ s.SameData s' ∧
        (∀ f ∈ [FlagName.pf, .zf, .sf, .af], s.regs.flags.get f = s'.regs.flags.get f) ∧
        (n < e.width.bits → s.regs.flags.get .cf = s'.regs.flags.get .cf)) ∧
    ∀ r add sum, loc = .reg r → k = .left → m.table.get? add = some sum →
      sum.key.mnemonic = "ADD" → sum.shape = [.rw, .r, .r] → sum.width = e.width →
      let once := m.call (loc.shift name iw 1)
      let double := m.call (.double add r)
      let s := once.machine.state
      let s' := double.machine.state
      once.succeeded ∧ double.succeeded ∧ s.SameData s' ∧
        ∀ f ∈ [FlagName.cf, .pf, .zf, .sf, .of], s.regs.flags.get f = s'.regs.flags.get f := by
  have hshift := (Table.shifts_iff hb hg k).mpr hk
  have hw : e.width.isScalar := Table.isScalar_of_word hb hg hshift.packs
  obtain ⟨v, hv, hlt⟩ := State.exists_contains hm
  rw [hl, Width.scalarBits_eq_bits hw] at hlt
  constructor
  · intro n h₁ hn once steps s s'
    obtain ⟨j, rfl⟩ : ∃ j, n = j + 1 := ⟨n - 1, by omega⟩
    obtain ⟨hok, hr⟩ := call_shift hg hshift hs hw hl hi hm hv (Nat.succ_ne_zero j) hn
    obtain ⟨hoks, hrun⟩ := run_steps hg hshift hs hw hl hi hm hv hlt j
    have hs : s = _ := congrArg Machine.state hr
    have hs' : s' = _ := hrun
    have hflag : ∀ f, f ≠ .of → (f = .cf → j + 1 < e.width.bits) →
        s.regs.flags.get f = s'.regs.flags.get f := by
      intro f hf hcf
      rw [hs, hs', State.get_assign_all, State.get_assign_all, Shift.flag_result hw hlt k hf hcf]
    refine ⟨hok, hoks, ?_, fun f hf => hflag f ?_ ?_, fun h => hflag .cf nofun fun _ => h⟩
    · rw [hs, hs']
      exact State.sameData_assign _ _ _
    · rintro rfl
      simp at hf
    · rintro rfl
      simp at hf
  · rintro r add sum rfl rfl hg' hmn hs' hw' once double s s'
    have hone : 1 ≤ e.width.countMask.toNat := by cases e.width <;> decide
    obtain ⟨hok, hr⟩ := call_shift hg hshift hs hw hl hi hm hv one_ne_zero hone
    obtain ⟨hok', hr'⟩ := call_double hg' ((Table.add_iff hb hg').mpr hmn) hs' (hw' ▸ hw)
      (hl.trans hw'.symm) hv (hw' ▸ hlt)
    have hs : s = _ := congrArg Machine.state hr
    have hs' : s' = _ := congrArg Machine.state hr'
    rw [hw'] at hs'
    rw [hs, hs']
    refine ⟨hok, hok', State.sameData_assign _ _ _, fun f hf => ?_⟩
    rw [State.get_assign_all, State.get_assign_all, Terms.flag_double hw hlt]
    rintro rfl
    simp at hf

/-- The form SHL of a byte register by an immediate value, as an entry of a table. -/
def shlEntry : Entry where
  key := ⟨"SHL", "GPR8_IMMb_C0r4", .w8⟩
  name := "SHL_GPR8_IMMb_C0r4_8"
  op := .shl
  sign := .unsigned
  width := .w8
  shape := [.rw, .r, .i]
  mode := .any
  extension := .base

/-- The form ADD of two byte registers, as an entry of a table. -/
def addEntry : Entry where
  key := ⟨"ADD", "GPR8_GPR8_00", .w8⟩
  name := "ADD_GPR8_GPR8_00_8"
  op := .add
  sign := .unsigned
  width := .w8
  shape := [.rw, .r, .r]
  mode := .any
  extension := .base

/-- Nine steps empty AH, all at once or one by one. The first one doubles it. -/
theorem shift_steps_ah : ∃ t, Table.build Rows.all {} = .ok t ∧
    let m : Machine := { table := t, state := { regs := ({} : RegFile).set .rax 0xc1ff } }
    let ah : Reg := .gpr .rax .high8
    let call (n : Nat) := (Location.reg ah).shift "SHL_GPR8_IMMb_C0r4_8" .w8 n
    let double := Call.double "ADD_GPR8_GPR8_00_8" ah
    (m.call (call 9)).machine.state.SameData (m.run (List.replicate 9 (call 1))).state ∧
      (m.call (call 1)).machine.state.SameData (m.call double).machine.state ∧
      (m.call (call 1)).machine.state.regs.flags.get .cf =
        (m.call double).machine.state.regs.flags.get .cf := by
  obtain ⟨t, ht⟩ := Table.exists_build {}
  refine ⟨t, ht, ?_⟩
  intro m ah call double
  have hr : { stem := "SHL_GPR8_IMMb_C0r4", op := .shl, shape := [.rw, .r, .i],
              sizes := .byte } ∈ Rows.all := by
    decide +kernel
  have hr' : { stem := "ADD_GPR8_GPR8_00", op := .add, shape := [.rw, .r, .r],
               sizes := .byte } ∈ Rows.all := by
    decide +kernel
  have hg : t.get? "SHL_GPR8_IMMb_C0r4_8" = some shlEntry :=
    Table.get?_of_ofRow (p := (.w8, .any)) ht hr (by decide) rfl
  have hg' : t.get? "ADD_GPR8_GPR8_00_8" = some addEntry :=
    Table.get?_of_ofRow (p := (.w8, .any)) ht hr' (by decide) rfl
  obtain ⟨hsteps, hdouble⟩ := @shift_steps m shlEntry .left (.reg ah) _ .w8 _ ht hg rfl rfl rfl
    (fun _ hn => hn.elim) rfl
  obtain ⟨-, -, hdata, -⟩ := hsteps 9 (by decide) (by decide)
  obtain ⟨-, -, hdata', hflag⟩ := hdouble ah _ addEntry rfl rfl hg' rfl rfl rfl
  exact ⟨hdata, hdata', hflag .cf (by decide)⟩

end Machine

end X86
