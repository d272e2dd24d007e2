import X86.Proofs.Register
import X86.Proofs.Steps
import X86.Proofs.Success

/-!
# Bitwise operations on vectors

PAND, PANDN, POR and PXOR and their variants join two vectors bit by bit, at the width of the
register that they write. PTEST sets flags by two of these joins and writes nothing. The width of
the form is not the width of the vectors.

* `Bitwise`, `Bitwise.bit`, `Bitwise.join`: the operations on bits and on vectors;
* `Bitwise.getLsbD_trunc_join`, `Bitwise.trunc_join_eq_zero_iff`: the bits of a joined vector, and
  whether there are any;
* `Invocation.run_packed`, `Invocation.run_packedTest`: what the instructions do;
* `Table.Joins`, `Table.exists_joins`: the entries that join vectors;
* `Machine.exec_join`, `Machine.exec_ptest`: the effects and the state afterwards;
* **`Machine.join_exact`**: the registers and flags after a join;
* **`Machine.ptest_exact`**: the flags after a test, and the joins that they tell of.
-/

namespace X86

/-! ## Operations on bits -/

/-- An operation that joins two vectors bit by bit. -/
inductive Bitwise where
  | and | andNot | or | xor
  deriving DecidableEq

namespace Bitwise

def op : Bitwise → Op
  | and => .pand
  | andNot => .pandn
  | or => .por
  | xor => .pxor

/-- The names of an operation on vectors of integers and of floating-point numbers. -/
def mnemonics (k : Bitwise) : List String :=
  k.op.mnemonics .unsigned

/-- What an operation makes of one bit of each source. -/
def bit : Bitwise → Bool → Bool → Bool
  | and, a, b => a && b
  | andNot, a, b => !a && b
  | or, a, b => a || b
  | xor, a, b => a ^^ b

def join : Bitwise → Lanes → Lanes → Lanes
  | and => (· &&& ·)
  | andNot => (~~~· &&& ·)
  | or => (· ||| ·)
  | xor => (· ^^^ ·)

variable {w : Width} {a b : Lanes} {i : Nat}

theorem actions_op (k : Bitwise) (o : Options) (i : Invocation) :
    k.op.actions o i = i.packed k.join := by
  cases k <;> rfl

/-- **The bits of a joined vector**, of which a complement sets more than the width has. -/
theorem getLsbD_trunc_join (k : Bitwise) (w : Width) (a b : Lanes) (i : Nat) :
    (Lanes.trunc w (k.join a b)).getLsbD i =
      (decide (i < w.bits) && k.bit (a.getLsbD i) (b.getLsbD i)) := by
  have hw : w.bits ≤ 256 := by cases w <;> decide
  rw [Lanes.getLsbD_trunc]
  by_cases hi : i < w.bits
  · have hi' : i < 256 := Nat.lt_of_lt_of_le hi hw
    cases k <;> simp [join, bit, hi, hi']
  · simp [hi]

theorem trunc_join_eq_zero_iff {k : Bitwise} :
    Lanes.trunc w (k.join a b) = 0 ↔ ∀ i < w.bits, k.bit (a.getLsbD i) (b.getLsbD i) = false := by
  constructor
  · intro h i hi
    have hb := k.getLsbD_trunc_join w a b i
    simpa [h, hi] using hb.symm
  · intro h
    apply BitVec.eq_of_getLsbD_eq
    intro i _
    rw [getLsbD_trunc_join]
    by_cases hi : i < w.bits
    · simp [hi, h i hi]
    · simp [hi]

theorem trunc_join_congr (k : Bitwise) {b' : Lanes}
    (h : ∀ i < w.bits, b'.getLsbD i = b.getLsbD i) :
    Lanes.trunc w (k.join a b') = Lanes.trunc w (k.join a b) := by
  apply BitVec.eq_of_getLsbD_eq
  intro i _
  rw [getLsbD_trunc_join, getLsbD_trunc_join]
  by_cases hi : i < w.bits
  · rw [h i hi]
  · simp [hi]

theorem beq_zero_and : (Lanes.trunc w (and.join a b) == 0) =
    decide (∀ i < w.bits, ¬ (a.getLsbD i ∧ b.getLsbD i)) := by
  rw [Bool.eq_iff_iff, beq_iff_eq, trunc_join_eq_zero_iff, decide_eq_true_eq]
  simp [bit]

theorem beq_zero_andNot : (Lanes.trunc w (andNot.join a b) == 0) =
    decide (∀ i < w.bits, b.getLsbD i → a.getLsbD i) := by
  rw [Bool.eq_iff_iff, beq_iff_eq, trunc_join_eq_zero_iff, decide_eq_true_eq]
  refine forall_congr' fun i => forall_congr' fun _ => ?_
  cases a.getLsbD i <;> cases b.getLsbD i <;> decide

end Bitwise

/-! ## What the instructions do -/

namespace Invocation

variable {i : Invocation} {t : Transaction} {s : State} {o : Options} {n : Nat} {x y : Operand}
  {r d : Reg} {l l₁ l₂ : Lanes}

theorem run_vectorWidth (h : i.operands[n]? = some x) (hx : x.register? = some r) :
    (i.vectorWidth n).run t = if r.isGpr then .error (.notVector x) else .ok r.width := by
  cases x with
  | reg r' | regW r' =>
    cases hx
    rw [vectorWidth, Fetch.run_bind, run_operand.mpr h]
    cases r <;> rfl
  | mem m | memW m | imm v w => cases hx

theorem run_lanes_begin (h : i.operands[n]? = some x) (hl : s.read x = .ok l) :
    (i.lanes n).run (.begin s o) = .ok l :=
  run_lanes.mpr ⟨x, h, (Transaction.readLanes_begin s o x).trans hl⟩

theorem run_packed (f : Lanes → Lanes → Lanes) (hops : i.operands = [.regW d, x, y])
    (hd : d.isGpr = false) (h₁ : s.read x = .ok l₁) (h₂ : s.read y = .ok l₂) :
    (i.packed f).run (.begin s o) = .ok
      [.write (.regW d) (.trunc d.width (f l₁ l₂)), .barrier .compiler, .assign .packed] := by
  have hget (k : Nat) : i.operands[k]? = [.regW d, x, y][k]? := by rw [hops]
  have hw : (i.vectorWidth 0).run (.begin s o) = .ok d.width := by
    rw [run_vectorWidth (hget 0) rfl, hd]
    rfl
  exact Fetch.run_bind_eq_ok.mpr ⟨_, hw, Fetch.run_bind_eq_ok.mpr ⟨l₁, run_lanes_begin (hget 1) h₁,
    Fetch.run_bind_eq_ok.mpr ⟨l₂, run_lanes_begin (hget 2) h₂,
      Fetch.run_bind_eq_ok.mpr ⟨_, run_operand.mpr (hget 0), rfl⟩⟩⟩⟩

theorem run_packed_of_isGpr (f : Lanes → Lanes → Lanes) (hops : i.operands = [.regW d, x, y])
    (hd : d.isGpr) : (i.packed f).run t = .error (.notVector (.regW d)) := by
  rw [packed, Fetch.run_bind, run_vectorWidth (x := .regW d) (by rw [hops]; rfl) rfl, if_pos hd]
  rfl

theorem run_packedTest (hops : i.operands = [x, y]) (hx : x.register? = some r)
    (hr : r.isGpr = false) (h₁ : s.read x = .ok l₁) (h₂ : s.read y = .ok l₂) :
    i.packedTest.run (.begin s o) = .ok [.barrier .compiler,
      .assign (.test (Lanes.trunc r.width (Bitwise.andNot.join l₁ l₂) == 0)
        (Lanes.trunc r.width (Bitwise.and.join l₁ l₂) == 0))] := by
  have hget (k : Nat) : i.operands[k]? = [x, y][k]? := by rw [hops]
  have hw : (i.vectorWidth 0).run (.begin s o) = .ok r.width := by
    rw [run_vectorWidth (hget 0) hx, hr]
    rfl
  exact Fetch.run_bind_eq_ok.mpr ⟨_, hw, Fetch.run_bind_eq_ok.mpr ⟨l₁, run_lanes_begin (hget 0) h₁,
    Fetch.run_bind_eq_ok.mpr ⟨l₂, run_lanes_begin (hget 1) h₂, rfl⟩⟩⟩

end Invocation

theorem Flag.ofBool_eq_set {b : Bool} : ofBool b = .set ↔ b := by
  cases b <;> decide

namespace State

theorem get_assign_test (s : State) (carry zero : Bool) (f : FlagName) :
    (s.assign (.test carry zero)).regs.flags.get f =
      match f with
      | .cf => .ofBool carry
      | .zf => .ofBool zero
      | _ => .clear :=
  s.get_assign_all (fun f => match f with
    | .cf => .ofBool carry
    | .zf => .ofBool zero
    | _ => .clear) f

end State

namespace Transaction

theorem exists_perform_assign (s : State) (o : Options) (b : Barrier) (u : FlagUpdate) :
    ∃ t, (begin s o).perform [.barrier b, .assign u] = .ok t ∧
      t.effects = .barrier b :: u.effects ∧
      (⟨t.regs, t.stores.foldl Memory.apply s.mem⟩ : State) = s.assign u := by
  refine ⟨_, rfl, ?_, ?_⟩
  · rw [setFlags_eq]
    rfl
  · rw [setFlags_eq]
    rfl

end Transaction

/-! ## Entries -/

theorem Kind.eq_regW_of_accepts {x : Operand} (h : Kind.rw.accepts x) : ∃ d, x = .regW d := by
  cases x with
  | regW d => exact ⟨d, rfl⟩
  | reg r | mem m | memW m | imm v w => cases h

namespace Rows

theorem shape_of_join : ∀ r ∈ Rows.all, r.op ∈ [Op.pand, .pandn, .por, .pxor] →
    ∃ κ ∈ [Kind.r, .m], r.shape = [.rw, .r, κ] := by
  decide +kernel

theorem shape_of_ptest : ∀ r ∈ Rows.all, r.op = .ptest → ∃ κ ∈ [Kind.r, .m], r.shape = [.r, κ] := by
  decide +kernel

theorem exists_join : ∀ op ∈ [Op.pand, .pandn, .por, .pxor], ∀ κ ∈ [Kind.r, .m], ∃ r ∈ Rows.all,
    r.op = op ∧ r.shape = [.rw, .r, κ] ∧ r.sizes = .only .w32 ∧ r.mode = .any ∧
      r.extension = .base := by
  decide +kernel

end Rows

namespace Table

/-- An entry of a table joins vectors, and its form takes the operands. -/
structure Joins (t : Table) (k : Bitwise) (name : String) (e : Entry) (ops : List Operand) :
    Prop where
  entry : t.get? name = some e
  mnemonic : e.key.mnemonic ∈ k.mnemonics
  operands : e.shape.check ops = .ok ()

variable {t : Table} {o : Options} {name : String} {e : Entry} {k : Bitwise}
  (h : build Rows.all o = .ok t) (hg : t.get? name = some e)

include h hg

theorem join_iff (k : Bitwise) : e.op = k.op ↔ e.key.mnemonic ∈ k.mnemonics := by
  have hmem : e.op ∈ [k.op] ↔ e.key.mnemonic ∈ k.mnemonics :=
    op_mem_iff h hg (by intro op s; cases k <;> cases op <;> cases s <;> decide)
  simpa using hmem

theorem ptest_iff : e.op = .ptest ↔ e.key.mnemonic ∈ ["PTEST", "VPTEST"] := by
  have hmem : e.op ∈ [Op.ptest] ↔ e.key.mnemonic ∈ ["PTEST", "VPTEST"] :=
    op_mem_iff h hg (by intro op s; cases op <;> cases s <;> decide)
  simpa using hmem

theorem shape_of_join (hk : e.op = k.op) : ∃ κ ∈ [Kind.r, .m], e.shape = [.rw, .r, κ] :=
  of_rows (P := fun op s _ => op ∈ [Op.pand, .pandn, .por, .pxor] →
      ∃ κ ∈ [Kind.r, .m], s = [.rw, .r, κ]) (fun r hr _ _ => Rows.shape_of_join r hr) h hg
    (by rw [hk]; cases k <;> decide)

theorem shape_of_ptest (hp : e.op = .ptest) : ∃ κ ∈ [Kind.r, .m], e.shape = [.r, κ] :=
  of_rows (P := fun op s _ => op = .ptest → ∃ κ ∈ [Kind.r, .m], s = [.r, κ])
    (fun r hr _ _ => Rows.shape_of_ptest r hr) h hg hp

omit hg in
theorem exists_join (k : Bitwise) {κ : Kind} (hκ : κ ∈ [Kind.r, .m]) :
    ∃ name e, t.get? name = some e ∧ e.op = k.op ∧ e.shape = [.rw, .r, κ] := by
  obtain ⟨r, hr, hop, hs, hsize, hmode, hext⟩ :=
    Rows.exists_join k.op (by cases k <;> decide) κ hκ
  obtain ⟨e, -, he⟩ := get?_of_build h hr (p := (.w32, .any)) (by
    simp [Row.instances, Extension.included, Row.expansion, Sizes.widths, Row.modeAt, Mode.applies,
      hsize, hmode, hext])
  obtain ⟨hop', -, -, hs'⟩ := fields_of_get? h hr he
  exact ⟨_, e, he, hop'.trans hop, hs'.trans hs⟩

theorem exists_joins (hp : e.op = .ptest) {x y : Operand} (hc : e.shape.check [x, y] = .ok ())
    (k : Bitwise) (d : Reg) : ∃ name e, t.Joins k name e [.regW d, x, y] := by
  obtain ⟨κ, hκ, hs⟩ := shape_of_ptest h hg hp
  obtain ⟨name', e', he', hop, hs'⟩ := exists_join h k hκ
  refine ⟨name', e', he', (join_iff h he' k).mp hop, ?_⟩
  rw [hs, Shape.check_eq_ok_iff] at hc
  rw [hs', Shape.check_eq_ok_iff]
  exact .cons rfl hc

end Table

namespace Machine

variable {m : Machine} {o : Options} {name : String} {e : Entry} {k : Bitwise}
  {ops : List Operand} {x y : Operand} {d rx : Reg} {l₁ l₂ : Lanes}

theorem execEntry_congr {e e' : Entry} (hn : e.name = e'.name) (hs : e.shape = e'.shape)
    (ha : ∀ o, e.op.actions o (e.invoke ops) = e'.op.actions o (e'.invoke ops)) :
    m.execEntry e ops = m.execEntry e' ops := by
  simp only [execEntry, evaluate, assumptions, accept, Op.eval, hn, hs, ha]

theorem exec_of_transact {t : Transaction} (he : m.table.get? name = some e)
    (hc : e.shape.check ops = .ok ()) (ht : m.transact e ops = .ok t) :
    (m.exec name ops).result = .ok t.effects ∧
      (m.exec name ops).machine.state = ⟨t.regs, t.stores.foldl Memory.apply m.state.mem⟩ := by
  rw [exec_of_get? he]
  exact ⟨result_of_transact (c := .entry e ops) rfl hc ht,
    congrArg Machine.state (call_of_transact (c := .entry e ops) rfl hc ht).2⟩

theorem exec_join (he : m.table.get? name = some e) (hk : e.op = k.op)
    (hc : e.shape.check [.regW d, x, y] = .ok ()) (hd : d.isGpr = false)
    (h₁ : m.state.read x = .ok l₁) (h₂ : m.state.read y = .ok l₂) :
    let v := Lanes.trunc d.width (k.join l₁ l₂)
    let r := m.exec name [.regW d, x, y]
    r.result = .ok (.writeReg d v :: .barrier .compiler :: FlagUpdate.packed.effects) ∧
      r.machine.state =
        ({ m.state with regs := m.state.regs.write d v } : State).assign .packed := by
  intro v r
  have ht : m.transact e [.regW d, x, y] = (Transaction.begin m.state m.options).perform
      [.write (.regW d) v, .barrier .compiler, .assign .packed] := by
    refine Op.eval_of_run ?_
    rw [hk, Bitwise.actions_op]
    exact Invocation.run_packed k.join rfl hd h₁ h₂
  obtain ⟨t, hp, hfx, hs⟩ :=
    Transaction.exists_perform_writeReg m.state m.options d v .compiler .packed
  have hr := exec_of_transact he hc (ht.trans hp)
  rwa [hfx, hs, Lanes.trunc_trunc] at hr

theorem exec_join_of_isGpr (he : m.table.get? name = some e) (hk : e.op = k.op)
    (hc : e.shape.check [.regW d, x, y] = .ok ()) (hd : d.isGpr) :
    let r := m.exec name [.regW d, x, y]
    r.machine = m ∧ r.result = .error (.ofCause m.state.regs (.notVector (.regW d))) := by
  intro r
  have ht : m.transact e [.regW d, x, y] = .error (.notVector (.regW d)) := by
    rw [transact, Op.eval, hk, Bitwise.actions_op, Invocation.run_packed_of_isGpr k.join rfl hd]
    rfl
  have hr : r = m.call (.entry e [.regW d, x, y]) := exec_of_get? he _
  have hres := result_of_transact_error (c := .entry e [.regW d, x, y]) rfl hc ht
  obtain ⟨_, -, hm, -⟩ := call_of_error hres
  rw [hr]
  exact ⟨hm, hres⟩

theorem exec_ptest (he : m.table.get? name = some e) (hp : e.op = .ptest)
    (hc : e.shape.check [x, y] = .ok ()) (hx : x.register? = some d) (hd : d.isGpr = false)
    (h₁ : m.state.read x = .ok l₁) (h₂ : m.state.read y = .ok l₂) :
    let u := FlagUpdate.test (Lanes.trunc d.width (Bitwise.andNot.join l₁ l₂) == 0)
      (Lanes.trunc d.width (Bitwise.and.join l₁ l₂) == 0)
    let r := m.exec name [x, y]
    r.result = .ok (.barrier .compiler :: u.effects) ∧ r.machine.state = m.state.assign u := by
  intro u r
  have ht : m.transact e [x, y] = (Transaction.begin m.state m.options).perform
      [.barrier .compiler, .assign u] := by
    refine Op.eval_of_run ?_
    rw [hp]
    exact Invocation.run_packedTest rfl hx hd h₁ h₂
  obtain ⟨t, hp, hfx, hs⟩ := Transaction.exists_perform_assign m.state m.options .compiler u
  have hr := exec_of_transact he hc (ht.trans hp)
  rwa [hfx, hs] at hr

/-- **Vectors are joined bit by bit.** The operands are a register to write and two sources. If it
is a general purpose register, the entry is refused. If it is a vector register and the sources are
mapped, every bit of it is that of the joined sources, and all flags end clear. An XMM register in
legacy encoding keeps the upper half of its YMM register, and one in VEX encoding clears it. Other
registers and memory stay. The width and the signedness of the entry do not matter. -/
theorem join_exact (hb : Table.build Rows.all o = .ok m.table)
    (h : m.table.Joins k name e ops) :
    let s := m.state
    let r := m.exec name ops
    let s' := r.machine.state
    ∃ d x y, ops = [.regW d, x, y] ∧
      (∀ w sg, m.execEntry { e with width := w, sign := sg } ops = r) ∧
      (d.isGpr → r.machine = m ∧ ∃ err, r.result = .error err ∧ err.kind = .operand) ∧
      (¬ d.isGpr → (∀ z ∈ ops, s.Maps z) →
        ∃ l₁ l₂, s.read x = .ok l₁ ∧ s.read y = .ok l₂ ∧ r.succeeded ∧
          (∀ i, (s'.regs.read d).getLsbD i =
            (decide (i < d.width.bits) && k.bit (l₁.getLsbD i) (l₂.getLsbD i))) ∧
          (∀ j enc, d = .xmm j enc → ∀ i, 128 ≤ i → (s'.regs.slot d.slot).getLsbD i =
            (decide (enc = .legacy) && (s.regs.slot d.slot).getLsbD i)) ∧
          (∀ q ≠ d.slot, s'.regs.slot q = s.regs.slot q) ∧ s'.mem = s.mem ∧
          ∀ f, s'.regs.flags.get f = .clear) := by
  intro s r s'
  have hk := (Table.join_iff hb h.entry k).mpr h.mnemonic
  obtain ⟨κ, -, hshape⟩ := Table.shape_of_join hb h.entry hk
  obtain ⟨_, x, y, rfl, ha⟩ := Shape.exists_of_check_three (hshape ▸ h.operands)
  obtain ⟨d, rfl⟩ := Kind.eq_regW_of_accepts ha
  refine ⟨d, x, y, rfl, fun w sg => ?_, fun hd => ?_, fun hd hm => ?_⟩
  · -- The questions and the actions mention neither the width nor the signedness.
    rw [show r = m.execEntry e _ from exec_of_get? h.entry _]
    refine execEntry_congr rfl rfl fun o => ?_
    change e.op.actions o _ = e.op.actions o _
    rw [hk, Bitwise.actions_op, Bitwise.actions_op]
    rfl
  · obtain ⟨hmach, hres⟩ := exec_join_of_isGpr h.entry hk h.operands hd
    exact ⟨hmach, _, hres, rfl⟩
  · obtain ⟨l₁, h₁⟩ := State.exists_read_iff.mpr (hm x (by simp))
    obtain ⟨l₂, h₂⟩ := State.exists_read_iff.mpr (hm y (by simp))
    obtain ⟨hres, hs⟩ := exec_join h.entry hk h.operands (Bool.eq_false_iff.mpr hd) h₁ h₂
    have hs' : s' = _ := hs
    refine ⟨l₁, l₂, h₁, h₂, Response.succeeded_iff.mpr ⟨_, hres⟩, fun i => ?_, ?_, fun q hq => ?_,
      ?_, fun f => ?_⟩
    · rw [hs', State.read_assign, RegFile.read_write, Lanes.trunc_trunc,
        Bitwise.getLsbD_trunc_join]
    · rintro j enc rfl i hi
      rw [hs', State.slot_assign]
      exact RegFile.getLsbD_slot_write_xmm _ j enc _ hi
    · rw [hs', State.slot_assign]
      exact RegFile.slot_write_of_ne _ hq.symm _
    · rw [hs']
      rfl
    · rw [hs']
      exact State.get_assign_all _ (fun _ => .clear) f

theorem exists_result_of_joins (hb : Table.build Rows.all o = .ok m.table)
    (h : m.table.Joins k name e [.regW d, x, y]) (hd : d.isGpr = false)
    (h₁ : m.state.read x = .ok l₁) (h₂ : m.state.read y = .ok l₂) :
    ∃ fx, (m.exec name [.regW d, x, y]).result = .ok fx ∧
      (.writeReg d 0 ∈ fx ↔ Lanes.trunc d.width (k.join l₁ l₂) = 0) := by
  have hk := (Table.join_iff hb h.entry k).mpr h.mnemonic
  refine ⟨_, (exec_join h.entry hk h.operands hd h₁ h₂).1, fun hmem => ?_, fun hz => ?_⟩
  · rcases List.mem_cons.mp hmem with hmem | hmem
    · exact (Effect.writeReg.inj hmem).2.symm
    · obtain ⟨_, -, hf⟩ :=
        FlagUpdate.mem_effects_iff.mp ((List.mem_cons.mp hmem).resolve_left nofun)
      cases hf
  · rw [hz]
    exact List.mem_cons_self

/-- The form PANDN of XMM registers, as an entry of a table. -/
def pandnEntry : Entry where
  key := ⟨"PANDN", "XMMdq_XMMdq", .w32⟩
  name := "PANDN_XMMdq_XMMdq_32"
  op := .pandn
  sign := .unsigned
  width := .w32
  shape := [.rw, .r, .r]
  mode := .any
  extension := .base

/-- All bits of YMM2 are set, and the top bit of YMM0. -/
def pandnRegs : RegFile :=
  (({} : RegFile).write (.ymm 0) (.twoPow 256 255)).write (.ymm 2) (.allOnes 256)

/-- The complement of XMM1 has more bits than XMM0, of whose YMM register the upper half stays. -/
theorem join_exact_pandn : ∃ t, Table.build Rows.all {} = .ok t ∧
    let m : Machine := { table := t, state := { regs := pandnRegs } }
    let s := (m.exec "PANDN_XMMdq_XMMdq_32"
      [.regW (.xmm 0 .legacy), .reg (.xmm 1 .legacy), .reg (.ymm 2)]).machine.state
    (s.regs.read (.xmm 0 .legacy)).getLsbD 127 = true ∧
      (s.regs.slot (.ymm 0)).getLsbD 128 = false ∧ (s.regs.slot (.ymm 0)).getLsbD 255 = true ∧
      s.regs.flags.get .cf = .clear := by
  obtain ⟨t, ht⟩ := Table.exists_build {}
  refine ⟨t, ht, ?_⟩
  intro m s
  have hr : { stem := "PANDN_XMMdq_XMMdq", op := .pandn, shape := [.rw, .r, .r],
              sizes := .only .w32 } ∈ Rows.all := by
    decide +kernel
  have hj : m.table.Joins .andNot "PANDN_XMMdq_XMMdq_32" pandnEntry
      [.regW (.xmm 0 .legacy), .reg (.xmm 1 .legacy), .reg (.ymm 2)] :=
    ⟨Table.get?_of_ofRow (p := (.w32, .any)) ht hr (by decide) rfl, by decide, rfl⟩
  have hxmm : m.state.read (.reg (.xmm 1 .legacy)) = .ok 0 :=
    congrArg Except.ok (by decide +kernel : pandnRegs.read (.xmm 1 .legacy) = 0)
  have hymm : m.state.read (.reg (.ymm 2)) = .ok (.allOnes 256) :=
    congrArg Except.ok (by decide +kernel : pandnRegs.read (.ymm 2) = .allOnes 256)
  obtain ⟨d, x, y, hops, -, -, h⟩ := join_exact ht hj
  cases hops
  obtain ⟨l₁, l₂, h₁, h₂, -, hbit, hupper, -, -, hflag⟩ := h (by decide) fun z hz => by
    simp only [List.mem_cons, List.not_mem_nil, or_false] at hz
    rcases hz with rfl | rfl | rfl <;> exact fun _ hn => hn.elim
  cases hxmm.symm.trans h₁
  cases hymm.symm.trans h₂
  have hold (i : Nat) (hi : 128 ≤ i) :
      (s.regs.slot (.ymm 0)).getLsbD i = (pandnRegs.slot (.ymm 0)).getLsbD i :=
    hupper 0 .legacy rfl i hi
  exact ⟨(hbit 127).trans (by decide), (hold 128 (by decide)).trans (by decide +kernel),
    (hold 255 (by decide)).trans (by decide +kernel), hflag .cf⟩

/-- **Vectors are tested as they are joined.** A test of a vector register with a register or mapped
memory writes nothing. The zero flag tells that no bit of the register is set in both, and the carry
flag that every bit of the second operand is set in the register. The other flags end clear. So the
two flags tell whether PAND and PANDN, for which the table has entries, would write zero to a
register of that width. Higher bits of the second operand do not matter. -/
theorem ptest_exact (hb : Table.build Rows.all o = .ok m.table)
    (he : m.table.get? name = some e) (hmn : e.key.mnemonic ∈ ["PTEST", "VPTEST"])
    (hc : e.shape.check [x, y] = .ok ()) (hx : x.register? = some rx) (hv : rx.isGpr = false)
    (hy : m.state.Maps y) :
    let s := m.state
    let r := m.exec name [x, y]
    let s' := r.machine.state
    let W := rx.width.bits
    ∃ l₁ l₂, s.read x = .ok l₁ ∧ s.read y = .ok l₂ ∧ r.succeeded ∧
      (∀ fx ∈ r.effects, fx.isWrite = false) ∧ s.SameData s' ∧
      s'.regs.flags.get .zf = .ofBool (decide (∀ i < W, ¬ (l₁.getLsbD i ∧ l₂.getLsbD i))) ∧
      s'.regs.flags.get .cf = .ofBool (decide (∀ i < W, l₂.getLsbD i → l₁.getLsbD i)) ∧
      (∀ f ∈ [FlagName.pf, .af, .sf, .of], s'.regs.flags.get f = .clear) ∧
      (∀ p ∈ [(Bitwise.and, FlagName.zf), (.andNot, .cf)], ∀ d : Reg, d.isGpr = false →
        d.width = rx.width →
          (∃ name e, m.table.Joins p.1 name e [.regW d, x, y]) ∧
          ∀ name e, m.table.Joins p.1 name e [.regW d, x, y] →
            ∃ fx, (m.exec name [.regW d, x, y]).result = .ok fx ∧
              (s'.regs.flags.get p.2 = .set ↔ .writeReg d 0 ∈ fx)) ∧
      ∀ (t : State) (y' : Operand) (l : Lanes), t.read x = .ok l₁ → t.read y' = .ok l →
        (∀ i < W, l.getLsbD i = l₂.getLsbD i) → e.shape.check [x, y'] = .ok () →
          ({ m with state := t }.exec name [x, y']).result = r.result := by
  intro s r s' W
  have hp := (Table.ptest_iff hb he).mpr hmn
  obtain ⟨l₁, h₁⟩ := State.exists_read_iff.mpr (Operand.IsVector.maps ⟨rx, hx, hv⟩ m.state)
  obtain ⟨l₂, h₂⟩ := State.exists_read_iff.mpr hy
  obtain ⟨hres, hs⟩ := exec_ptest he hp hc hx hv h₁ h₂
  have hs' : s' = _ := hs
  have hflag (f : FlagName) : s'.regs.flags.get f = _ :=
    (congrArg (·.regs.flags.get f) hs).trans (State.get_assign_test _ _ _ f)
  have hzero : ∀ p ∈ [(Bitwise.and, FlagName.zf), (.andNot, .cf)], s'.regs.flags.get p.2 =
      .ofBool (Lanes.trunc rx.width (p.1.join l₁ l₂) == 0) := by
    intro p hp
    rcases List.mem_pair.mp hp with rfl | rfl <;> exact hflag _
  refine ⟨l₁, l₂, h₁, h₂, Response.succeeded_iff.mpr ⟨_, hres⟩, fun fx hfx => ?_,
    hs' ▸ ⟨rfl, rfl, rfl, rfl⟩, (hflag .zf).trans (congrArg Flag.ofBool Bitwise.beq_zero_and),
    (hflag .cf).trans (congrArg Flag.ofBool Bitwise.beq_zero_andNot), fun f hf => ?_,
    fun p hp' d hd hw => ⟨Table.exists_joins hb he hp hc p.1 d, fun name' e' hj => ?_⟩,
    fun t y' l ht hl hlow hc' => ?_⟩
  · rw [Response.effects, hres] at hfx
    rcases List.mem_cons.mp hfx with rfl | hfx
    · rfl
    · obtain ⟨_, -, rfl⟩ := FlagUpdate.mem_effects_iff.mp hfx
      rfl
  · rw [hflag]
    cases f with
    | pf | af | sf | of => rfl
    | cf | zf => simp at hf
  · obtain ⟨fx, hfx, hz⟩ := exists_result_of_joins hb hj hd h₁ h₂
    exact ⟨fx, hfx, by rw [hz, hzero p hp', hw, Flag.ofBool_eq_set, beq_iff_eq]⟩
  · have hres' := (exec_ptest (m := { m with state := t }) he hp hc' hx hv ht hl).1
    rw [Bitwise.trunc_join_congr _ hlow, Bitwise.trunc_join_congr _ hlow] at hres'
    exact hres'.trans hres.symm

/-- The form VPTEST of XMM registers, as an entry of a table. -/
def vptestEntry : Entry where
  key := ⟨"VPTEST", "XMMdq_XMMdq", .w32⟩
  name := "VPTEST_XMMdq_XMMdq_32"
  op := .ptest
  sign := .unsigned
  width := .w32
  shape := [.r, .r]
  mode := .any
  extension := .vex

def vptestRegs : RegFile :=
  (({} : RegFile).write (.xmm 1 .vex) 0x0f).write (.ymm 2) (.twoPow 256 192)

/-- The bit of YMM2 is not among those that XMM1 has, and changes no flag. -/
theorem ptest_exact_vptest : ∃ t, Table.build Rows.all {} = .ok t ∧
    let m : Machine := { table := t, state := { regs := vptestRegs } }
    let s := (m.exec "VPTEST_XMMdq_XMMdq_32" [.reg (.xmm 1 .vex), .reg (.ymm 2)]).machine.state
    s.regs.flags.get .zf = .set ∧ s.regs.flags.get .cf = .set := by
  obtain ⟨t, ht⟩ := Table.exists_build {}
  refine ⟨t, ht, ?_⟩
  intro m s
  have hr : { stem := "VPTEST_XMMdq_XMMdq", op := .ptest, shape := [.r, .r], sizes := .only .w32,
              extension := .vex } ∈ Rows.all := by
    decide +kernel
  have hg : m.table.get? "VPTEST_XMMdq_XMMdq_32" = some vptestEntry :=
    Table.get?_of_ofRow (p := (.w32, .any)) ht hr (by decide) rfl
  have hymm : m.state.read (.reg (.ymm 2)) = .ok (.twoPow 256 192) :=
    congrArg Except.ok (by decide +kernel : vptestRegs.read (.ymm 2) = .twoPow 256 192)
  obtain ⟨l₁, l₂, -, h₂, -, -, -, hzf, hcf, -⟩ := ptest_exact (m := m) (x := .reg (.xmm 1 .vex))
    (y := .reg (.ymm 2)) ht hg (by decide) rfl rfl rfl fun _ hn => hn.elim
  cases hymm.symm.trans h₂
  have hlow : ∀ i < 128, (BitVec.twoPow 256 192).getLsbD i = false := by decide
  have hz : ∀ i < 128, ¬ (l₁.getLsbD i ∧ (BitVec.twoPow 256 192).getLsbD i) := by
    intro i hi h
    simp [hlow i hi] at h
  have hc : ∀ i < 128, (BitVec.twoPow 256 192).getLsbD i → l₁.getLsbD i := by
    intro i hi h
    simp [hlow i hi] at h
  exact ⟨hzf.trans (congrArg Flag.ofBool (decide_eq_true hz)),
    hcf.trans (congrArg Flag.ofBool (decide_eq_true hc))⟩

end Machine

end X86
