import X86.Proofs.Arithmetic
import X86.Proofs.Index
import X86.Proofs.Limbs
import X86.Proofs.Register
import X86.Proofs.Success

/-!
# Fetch and add

XADD on a cell of memory adds a register to the cell and leaves the old content of the cell in the
register. So a run of such calls on one cell adds up their increments, and each call fetches the
sum of all increments before it.

* `RegFile.number`: the number in a register;
* `exchangeRow`, `Table.exists_exchangeRow`: the instruction forms of XADD;
* `Invocation.exchangeActions`, `Machine.transact_exchange`: what one call does;
* `Machine.execEntry_fetchAdd`, `Machine.execEntry_exchange`: XADD on memory and on registers;
* `Turn`, `Machine.fetchAdds`: runs in which the registers may change between the calls;
* `Machine.run_fetchAdds`: what a run leaves behind;
* **`Machine.fetch_and_add`**: fetched values and the final cell, and XADD on registers.
-/

namespace X86

/-! ## Numbers in registers -/

namespace RegFile

variable {r : RegFile} {reg : Reg} {w : Width}

/-- The number in a register. -/
def number (r : RegFile) (reg : Reg) : Nat :=
  (r.read reg).toNat

theorem number_lt (r : RegFile) (reg : Reg) : r.number reg < 2 ^ reg.width.bits := by
  rw [number, read, Lanes.toNat_trunc]
  exact Nat.mod_lt _ (by positivity)

theorem number_flags (r : RegFile) (f : Flags) (reg : Reg) :
    { r with flags := f }.number reg = r.number reg := by
  unfold number read
  cases reg.slot <;> rfl

theorem number_write (r : RegFile) (reg : Reg) (v : Word) :
    (r.write reg (.ofWord v)).number reg = v.toNat % 2 ^ reg.width.bits := by
  rw [number, read_write, Lanes.toNat_trunc, Lanes.toNat_ofWord]

theorem toNat_trunc_low_read (hw : reg.width.isScalar) :
    (reg.width.trunc (r.read reg).low).toNat = r.number reg :=
  Lanes.toNat_trunc_low hw (r.number_lt reg)

theorem number_view (r : RegFile) (hw : w.isScalar) (g : Gpr) :
    r.number (g.view w) = (r.get g).toNat % 2 ^ w.bits := by
  have hv := Gpr.width_view hw g
  have hvw : (g.view w).width.isScalar := by rwa [hv]
  rw [← toNat_trunc_low_read hvw, hv, low_read_view r hw, Width.trunc_trunc, Width.toNat_trunc,
    Width.scalarBits_eq_bits hw]

end RegFile

/-! ## The instruction forms -/

/-- The form of XADD at a width, on memory or on two registers. -/
def exchangeRow (memory : Bool) (w : Width) : Row where
  stem := match memory, w with
    | true, .w8 => "XADD_MEMb_GPR8"
    | true, _ => "XADD_MEMv_GPRv"
    | false, .w8 => "XADD_GPR8_GPR8"
    | false, _ => "XADD_GPRv_GPRv"
  op := .xadd
  shape := if memory then [.mw, .m, .rw, .r] else [.rw, .r, .rw, .r]
  sizes := if w = .w8 then .byte else .words

theorem exchangeRow_mem (memory : Bool) (w : Width) : exchangeRow memory w ∈ Rows.all := by
  have hrows : exchangeRow true .w8 ∈ Rows.all ∧ exchangeRow true .w16 ∈ Rows.all ∧
      exchangeRow false .w8 ∈ Rows.all ∧ exchangeRow false .w16 ∈ Rows.all := by
    decide +kernel
  obtain ⟨h₁, h₂, h₃, h₄⟩ := hrows
  cases memory with
  | true =>
    cases w with
    | w8 => exact h₁
    | _ => exact h₂
  | false =>
    cases w with
    | w8 => exact h₃
    | _ => exact h₄

theorem Table.exists_exchangeRow {t : Table} {o : Options} {w : Width}
    (hb : Table.build Rows.all o = .ok t) (hw : w.isScalar) (hl : w = .w64 → o.longMode)
    (memory : Bool) :
    ∃ e, t.get? ((exchangeRow memory w).key w) = some e ∧ e.op = .xadd ∧ e.width = w ∧
      e.shape = (exchangeRow memory w).shape := by
  have hp : (exchangeRow memory w).IsPermitted o w := by
    refine ⟨?_, nofun, ?_, nofun⟩
    · rcases Width.scalar_cases hw with rfl | rfl | rfl | rfl <;> simp [exchangeRow, Sizes.widths]
    · rintro (h | ⟨h, -⟩)
      · cases h
      · exact hl h
  obtain ⟨m, hm⟩ := Row.exists_instances_iff.mpr hp
  obtain ⟨e, -, he⟩ := get?_of_build hb (exchangeRow_mem memory w) hm
  obtain ⟨hop, -, hew, hs⟩ := fields_of_get? hb (exchangeRow_mem memory w) he
  exact ⟨e, he, hop, hew, hs⟩

/-! ## One call -/

/-- What XADD does with the old values of its two operands. -/
def Invocation.exchangeActions (w : Width) (dst : Operand) (r : Reg) (x y : Word) : List Action :=
  let res := Rule.add.apply w x y
  (if dst.isRegister then [.barrier .storeLoad] else []) ++ [
    .write dst (.ofWord res),
    .barrier .compiler,
    .write (.regW r) (.ofWord x),
    .barrier .compiler,
    .assign (.arith (Rule.add.carry w x y res) .add w x y res)]

theorem Invocation.run_exchangeAdd_of_scalars {i : Invocation} {s : State} {o : Options}
    {dst : Operand} {r : Reg} {x y : Word} (hx : (i.scalar 1).run (.begin s o) = .ok x)
    (hy : (i.scalar 3).run (.begin s o) = .ok y) (hd : i.operands[0]? = some dst)
    (hr : i.operands[2]? = some (.regW r)) :
    i.exchangeAdd.run (.begin s o) = .ok (exchangeActions i.width dst r x y) := by
  refine Fetch.run_bind_eq_ok.mpr ⟨x, hx, Fetch.run_bind_eq_ok.mpr ⟨y, hy, ?_⟩⟩
  refine Fetch.run_bind_eq_ok.mpr ⟨dst, run_operand.mpr hd, ?_⟩
  exact Fetch.run_bind_eq_ok.mpr ⟨.regW r, run_operand.mpr hr, rfl⟩

theorem Rule.toNat_add {w : Width} (hw : w.isScalar) (x y : Word) :
    (Rule.add.apply w x y).toNat = (x.toNat + y.toNat) % 2 ^ w.bits := by
  have hdvd : 2 ^ w.bits ∣ 2 ^ 64 := pow_dvd_pow 2 (Width.isScalar_iff.mp hw)
  have happly : Rule.add.apply w x y = w.trunc (x + y) := rfl
  rw [happly, Width.toNat_trunc, Width.scalarBits_eq_bits hw, BitVec.toNat_add,
    Nat.mod_mod_of_dvd _ hdvd]

namespace Transaction

variable {s : State} {o : Options} {v w : Width} {a : Address} {q r : Reg} {x y : Word}

theorem perform_fetchAdd (h : s.mem.check a w = .ok ()) :
    ∃ t, (begin s o).perform (Invocation.exchangeActions v (.memW ⟨a, w⟩) r x y) = .ok t ∧
      t.regs = { s.regs.write r (.ofWord x) with flags := t.regs.flags } ∧
      t.stores = [⟨a, w, Lanes.trunc w (.ofWord (Rule.add.apply v x y))⟩] := by
  have hact : (begin s o).act (.write (.memW ⟨a, w⟩) (.ofWord (Rule.add.apply v x y))) =
      .ok ((begin s o).store ⟨a, w⟩ (.ofWord (Rule.add.apply v x y))) :=
    Except.bind_eq_ok_iff.mpr ⟨(), h, rfl⟩
  refine ⟨_, perform_cons_eq_ok_iff.mpr ⟨_, hact, rfl⟩, ?_, ?_⟩
  · rw [setFlags_eq, ← RegFile.write_trunc]
    rfl
  · rw [setFlags_eq]
    rfl

theorem perform_exchange :
    ∃ t, (begin s o).perform (Invocation.exchangeActions v (.regW q) r x y) = .ok t ∧
      t.regs = { (s.regs.write q (.ofWord (Rule.add.apply v x y))).write r (.ofWord x) with
        flags := t.regs.flags } ∧ t.stores = [] := by
  refine ⟨_, rfl, ?_, ?_⟩
  · rw [setFlags_eq, ← RegFile.write_trunc _ r, ← RegFile.write_trunc _ q]
    rfl
  · rw [setFlags_eq]
    rfl

end Transaction

namespace Machine

variable {m : Machine} {e : Entry} {a : Address} {q r : Reg} {X : Nat}

/-- The operands of XADD on memory. -/
def fetchOperands (w : Width) (a : Address) (r : Reg) : List Operand :=
  [.memW ⟨a, w⟩, .mem ⟨a, w⟩, .regW r, .reg r]

/-- The operands of XADD on registers. -/
def exchangeOperands (q r : Reg) : List Operand :=
  [.regW q, .reg q, .regW r, .reg r]

theorem transact_exchange (ops : List Operand) {dst : Operand} {x y : Word} {t : Transaction}
    (hop : e.op = .xadd)
    (hx : ((e.invoke ops).scalar 1).run (.begin m.state m.options) = .ok x)
    (hy : ((e.invoke ops).scalar 3).run (.begin m.state m.options) = .ok y)
    (hd : ops[0]? = some dst) (hr : ops[2]? = some (.regW r))
    (ht : (Transaction.begin m.state m.options).perform
      (Invocation.exchangeActions e.width dst r x y) = .ok t) :
    m.transact e ops = .ok t := by
  have hact : e.op.actions m.options (e.invoke ops) = (e.invoke ops).exchangeAdd := by rw [hop]; rfl
  exact Op.eval_eq_ok_iff.mpr ⟨_, hact ▸ Invocation.run_exchangeAdd_of_scalars hx hy hd hr, ht⟩

theorem run_scalar_reg {ops : List Operand} {k : Nat} (hk : ops[k]? = some (.reg r))
    (hw : r.width.isScalar) :
    ((e.invoke ops).scalar k).run (.begin m.state m.options) =
      .ok (e.width.trunc (m.state.regs.read r).low) :=
  Invocation.run_scalar.mpr ⟨_, hk, _, Transaction.read_begin.mpr ⟨hw, _, rfl, rfl⟩, rfl⟩

/-- **XADD on memory** leaves the sum in the cell and the old content of the cell in the
register. -/
theorem execEntry_fetchAdd (hop : e.op = .xadd) (hs : e.shape = [.mw, .m, .rw, .r])
    (hw : e.width.isScalar) (hr : r.width = e.width)
    (hX : m.state.mem.number a e.width.bytes = .ok X) :
    let p := m.execEntry e (fetchOperands e.width a r)
    p.succeeded ∧ ∃ x sum : Word, x.toNat = X ∧
      sum.toNat = (X + m.state.regs.number r) % 2 ^ e.width.bits ∧
      p.machine = { m with
        state := ⟨{ m.state.regs.write r (.ofWord x) with flags := p.machine.state.regs.flags },
          m.state.mem.apply ⟨a, e.width, .ofWord sum⟩⟩
        executed := m.executed + 1 } := by
  intro p
  have hrw : r.width.isScalar := hr ▸ hw
  obtain ⟨l, hl, hlX⟩ := Memory.number_eq_ok_iff.mp hX
  have hXlt := Memory.number_lt hX
  rw [Width.pow_bytes] at hXlt
  have hx : (e.width.trunc l.low).toNat = X := by
    rw [← hlX] at hXlt ⊢
    exact Lanes.toNat_trunc_low hw hXlt
  have hy : (e.width.trunc (m.state.regs.read r).low).toNat = m.state.regs.number r := by
    rw [← hr, RegFile.toNat_trunc_low_read hrw]
  obtain ⟨t, ht, hregs, hstores⟩ := Transaction.perform_fetchAdd (o := m.options) (r := r)
    (v := e.width) (x := e.width.trunc l.low) (y := e.width.trunc (m.state.regs.read r).low)
    (Memory.check_of_number hX)
  have htr := transact_exchange (fetchOperands e.width a r) hop
    (Invocation.run_scalar.mpr ⟨_, rfl, _, Transaction.read_begin.mpr ⟨hw, l, hl, rfl⟩, rfl⟩)
    (run_scalar_reg rfl hrw) rfl rfl ht
  obtain ⟨hok, hm⟩ := call_of_transact (c := .entry e (fetchOperands e.width a r)) rfl
    (by rw [hs]; rfl) htr
  change p.machine = _ at hm
  refine ⟨hok, _, _, hx, by rw [← hx, ← hy, Rule.toNat_add hw], ?_⟩
  rw [hm, hstores, ← Memory.apply_trunc, ← hregs]
  rfl

/-- **XADD on registers** writes the sum to the first one and then the old content of the first one
to the second one. -/
theorem execEntry_exchange (hop : e.op = .xadd) (hs : e.shape = [.rw, .r, .rw, .r])
    (hw : e.width.isScalar) (hq : q.width = e.width) (hr : r.width = e.width) :
    let p := m.execEntry e (exchangeOperands q r)
    p.succeeded ∧ ∃ x sum : Word, x.toNat = m.state.regs.number q ∧
      sum.toNat = (m.state.regs.number q + m.state.regs.number r) % 2 ^ e.width.bits ∧
      p.machine.state.regs = { (m.state.regs.write q (.ofWord sum)).write r (.ofWord x) with
        flags := p.machine.state.regs.flags } := by
  intro p
  have hqw : q.width.isScalar := hq ▸ hw
  have hrw : r.width.isScalar := hr ▸ hw
  have hx : (e.width.trunc (m.state.regs.read q).low).toNat = m.state.regs.number q := by
    rw [← hq, RegFile.toNat_trunc_low_read hqw]
  have hy : (e.width.trunc (m.state.regs.read r).low).toNat = m.state.regs.number r := by
    rw [← hr, RegFile.toNat_trunc_low_read hrw]
  obtain ⟨t, ht, hregs, -⟩ := Transaction.perform_exchange (s := m.state) (o := m.options)
    (v := e.width) (q := q) (r := r) (x := e.width.trunc (m.state.regs.read q).low)
    (y := e.width.trunc (m.state.regs.read r).low)
  have htr := transact_exchange (exchangeOperands q r) hop (run_scalar_reg rfl hqw)
    (run_scalar_reg rfl hrw) rfl rfl ht
  obtain ⟨hok, hm⟩ := call_of_transact (c := .entry e (exchangeOperands q r)) rfl
    (by rw [hs]; rfl) htr
  change p.machine = _ at hm
  refine ⟨hok, _, _, hx, by rw [← hx, ← hy, Rule.toNat_add hw], ?_⟩
  rw [hm]
  exact hregs

end Machine

/-! ## Runs of calls -/

/-- One turn of a run: the registers may change, and one of them then holds the increment. -/
structure Turn where
  change : RegFile → RegFile
  reg : Reg

/-- One call of a run, with the machine that it starts from. -/
structure FetchAdd where
  before : Machine
  reg : Reg
  response : Response

namespace FetchAdd

/-- The content of the register when the call is made. -/
def increment (f : FetchAdd) : Nat :=
  f.before.state.regs.number f.reg

/-- The content of the register after the call. -/
def fetched (f : FetchAdd) : Nat :=
  f.response.machine.state.regs.number f.reg

end FetchAdd

namespace Machine

/-- The call of one turn. -/
def fetchAdd (m : Machine) (w : Width) (a : Address) (c : Turn) : FetchAdd :=
  let n := { m with state := { m.state with regs := c.change m.state.regs } }
  ⟨n, c.reg, n.exec ((exchangeRow true w).key w) (fetchOperands w a c.reg)⟩

/-- The calls of a run on one cell, in order. -/
def fetchAdds (m : Machine) (w : Width) (a : Address) : List Turn → List FetchAdd
  | [] => []
  | c :: cs =>
    let f := m.fetchAdd w a c
    f :: f.response.machine.fetchAdds w a cs

/-- The machine after a run on one cell. -/
def afterFetchAdds (m : Machine) (w : Width) (a : Address) (cs : List Turn) : Machine :=
  cs.foldl (fun m c => (m.fetchAdd w a c).response.machine) m

variable {m : Machine} {e : Entry} {a : Address} {X : Nat} {cs : List Turn}

/-- **One turn** fetches the cell and adds the increment to it. -/
theorem fetchAdd_spec {c : Turn}
    (hg : m.table.get? ((exchangeRow true e.width).key e.width) = some e) (hop : e.op = .xadd) (hs : e.shape = [.mw, .m, .rw, .r]) (hw : e.width.isScalar)
    (hc : c.reg.width = e.width) (hX : m.state.mem.number a e.width.bytes = .ok X) :
    let f := m.fetchAdd e.width a c
    let n := f.response.machine
    f.response.succeeded ∧ f.fetched = X ∧ n.table = m.table ∧
      n.state.mem.number a e.width.bytes = .ok ((X + f.increment) % 2 ^ e.width.bits) ∧
      ∀ z, e.width.bytes ≤ (z - a).toNat → n.state.mem.byte? z = m.state.mem.byte? z := by
  intro f n
  have hXlt := Memory.number_lt hX
  rw [Width.pow_bytes] at hXlt
  obtain ⟨hok, x, sum, rfl, hsum, hm⟩ := execEntry_fetchAdd (m := f.before) hop hs hw hc hX
  have hexec : f.response = f.before.execEntry e (fetchOperands e.width a c.reg) :=
    exec_of_get? (m := f.before) hg _
  rw [← hexec] at hok hm
  refine ⟨hok, ?_, ?_, ?_, fun z hz => ?_⟩
  · change f.response.machine.state.regs.number c.reg = _
    rw [hm, RegFile.number_flags, RegFile.number_write, hc, Nat.mod_eq_of_lt hXlt]
  · change f.response.machine.table = _
    rw [hm]
    rfl
  · change f.response.machine.state.mem.number _ _ = _
    rw [hm, Memory.number_apply, hsum, Nat.mod_mod]
    rfl
  · change f.response.machine.state.mem.byte? z = _
    rw [hm, Memory.byte?_apply, Store.byteAt?, if_neg (Nat.not_lt.mpr hz)]
    rfl

/-- **A run adds up its increments**, and every call fetches the sum of those before it. -/
theorem run_fetchAdds (hg : m.table.get? ((exchangeRow true e.width).key e.width) = some e)
    (hop : e.op = .xadd) (hs : e.shape = [.mw, .m, .rw, .r]) (hw : e.width.isScalar)
    (hcs : ∀ c ∈ cs, c.reg.width = e.width) (hX : m.state.mem.number a e.width.bytes = .ok X) :
    let fs := m.fetchAdds e.width a cs
    let n := m.afterFetchAdds e.width a cs
    (∀ f ∈ fs, f.response.succeeded) ∧
      (∀ k f, fs[k]? = some f →
        f.fetched = (X + ((fs.take k).map FetchAdd.increment).sum) % 2 ^ e.width.bits) ∧
      n.state.mem.number a e.width.bytes =
        .ok ((X + (fs.map FetchAdd.increment).sum) % 2 ^ e.width.bits) ∧
      ∀ z, e.width.bytes ≤ (z - a).toNat → n.state.mem.byte? z = m.state.mem.byte? z := by
  have hXlt := Memory.number_lt hX
  rw [Width.pow_bytes] at hXlt
  induction cs generalizing m X with
  | nil =>
    refine ⟨by simp [fetchAdds], by simp [fetchAdds], ?_, fun _ _ => rfl⟩
    rw [fetchAdds, List.map_nil, List.sum_nil, Nat.add_zero, Nat.mod_eq_of_lt hXlt]
    exact hX
  | cons c cs ih =>
    obtain ⟨hok, hfetched, htable, hnumber, hframe⟩ :=
      fetchAdd_spec hg hop hs hw (hcs c List.mem_cons_self) hX
    obtain ⟨hoks, hall, hfinal, hrest⟩ := ih (htable ▸ hg)
      (fun d hd => hcs d (List.mem_cons_of_mem c hd)) hnumber (Nat.mod_lt _ (by positivity))
    refine ⟨?_, ?_, ?_, fun z hz => (hrest z hz).trans (hframe z hz)⟩
    · intro f hf
      rcases List.mem_cons.mp hf with rfl | hf
      · exact hok
      · exact hoks f hf
    · intro k f hf
      cases k with
      | zero =>
        cases hf
        rw [List.take_zero, List.map_nil, List.sum_nil, Nat.add_zero, Nat.mod_eq_of_lt hXlt]
        exact hfetched
      | succ k =>
        rw [hall k f hf, Nat.mod_add_mod, fetchAdds, List.take_succ_cons, List.map_cons,
          List.sum_cons, Nat.add_assoc]
    · rw [Nat.mod_add_mod, Nat.add_assoc] at hfinal
      exact hfinal

end Machine

/-! ## Registers that do not overlap -/

/-- Two registers have no bit in common. -/
def Reg.Apart (a b : Reg) : Prop :=
  a.slot ≠ b.slot ∨ a.offset + a.width.bits ≤ b.offset ∨ b.offset + b.width.bits ≤ a.offset

theorem Reg.Apart.spares {q r : Reg} (h : q.Apart r) (hw : r.width.isScalar)
    (hqr : q.width = r.width) : r.Spares q := by
  rcases h with h | h
  · exact .inl (Ne.symm h)
  · refine .inr ⟨?_, h.symm⟩
    rw [hqr] at h
    cases r with
    | gpr g p =>
      cases p with
      | dword =>
        -- a doubleword is all of the slot that a view of its width can name
        cases q with
        | gpr g' p' => cases p' <;> simp_all [offset, width, Part.width, Width.bits]
        | mmx i => cases hqr
        | xmm i enc => cases hqr
        | ymm i => cases hqr
      | _ => rfl
    | mmx i => rfl
    | xmm i enc => cases hw
    | ymm i => cases hw

namespace Machine

variable {m : Machine} {o : Options} {w : Width}

/-- **Fetch and add.** In a run of calls of XADD on one cell, in which the registers may change
between the calls, every call succeeds and fetches the old content of the cell plus all increments
before it, modulo the width. At the end the cell has all of them, in whatever order they came, and
no other memory has changed. On two registers without common bits, XADD leaves the sum in the first
one and the old content of the first one in the second one; a register keeps its content when both
operands name it. -/
theorem fetch_and_add (hb : Table.build Rows.all o = .ok m.table) (hw : w.isScalar)
    (hl : w = .w64 → o.longMode) :
    (∀ a X cs, m.state.mem.number a w.bytes = .ok X → (∀ c ∈ cs, c.reg.width = w) →
      let fs := m.fetchAdds w a cs
      let n := m.afterFetchAdds w a cs
      (∀ f ∈ fs, f.response.succeeded) ∧
        (∀ k f, fs[k]? = some f →
          f.fetched = (X + ((fs.take k).map FetchAdd.increment).sum) % 2 ^ w.bits) ∧
        n.state.mem.number a w.bytes =
          .ok ((X + (fs.map FetchAdd.increment).sum) % 2 ^ w.bits) ∧
        (∀ cs', (∀ c ∈ cs', c.reg.width = w) →
          ((m.fetchAdds w a cs').map FetchAdd.increment).Perm (fs.map FetchAdd.increment) →
          (m.afterFetchAdds w a cs').state.mem.number a w.bytes =
            n.state.mem.number a w.bytes) ∧
        ∀ z, w.bytes ≤ (z - a).toNat → n.state.mem.byte? z = m.state.mem.byte? z) ∧
    ∀ q r : Reg, q.width = w → r.width = w →
      let p := m.exec ((exchangeRow false w).key w) (exchangeOperands q r)
      let regs := p.machine.state.regs
      p.succeeded ∧
        (q.Apart r →
          regs.number q = (m.state.regs.number q + m.state.regs.number r) % 2 ^ w.bits ∧
            regs.number r = m.state.regs.number q) ∧
        (q = r → regs.number q = m.state.regs.number q) := by
  constructor
  · intro a X cs hX hcs fs n
    obtain ⟨e, hg, hop, rfl, hs⟩ := Table.exists_exchangeRow hb hw hl true
    obtain ⟨hok, hall, hfinal, hframe⟩ := run_fetchAdds hg hop hs hw hcs hX
    refine ⟨hok, hall, hfinal, fun cs' hcs' hperm => ?_, hframe⟩
    obtain ⟨-, -, hfinal', -⟩ := run_fetchAdds hg hop hs hw hcs' hX
    rw [hfinal', hfinal, hperm.sum_eq]
  · intro q r hq hr p regs
    obtain ⟨e, hg, hop, rfl, hs⟩ := Table.exists_exchangeRow hb hw hl false
    obtain ⟨hok, x, sum, hx, hsum, hregs⟩ := execEntry_exchange (m := m) hop hs hw hq hr
    rw [← exec_of_get? hg] at hok hregs
    have hread : regs.number r = x.toNat := by
      change p.machine.state.regs.number r = _
      rw [hregs, RegFile.number_flags, RegFile.number_write, hr, ← hq, Nat.mod_eq_of_lt]
      rw [hx]
      exact RegFile.number_lt _ q
    refine ⟨hok, fun hap => ⟨?_, hread.trans hx⟩, fun h => ?_⟩
    · change p.machine.state.regs.number q = _
      rw [hregs, RegFile.number_flags, RegFile.number,
        RegFile.read_write_of_spares _ (hap.spares (hr ▸ hw) (hq.trans hr.symm))]
      change RegFile.number _ q = _
      rw [RegFile.number_write, hsum, hq, Nat.mod_mod]
    · subst h
      exact hread.trans hx

/-- Two calls on a cell behind the last address, where the second register is loaded between the
calls, and a call on AL and AH. -/
theorem fetch_and_add_wrap : ∃ t, Table.build Rows.all {} = .ok t ∧
    let m : Machine := {
      table := t
      state := {
        regs := ({} : RegFile).set .rax 0x0203
        mem := ({} : Memory).load 0xffffffffffffffff [0xff, 0x00] } }
    let cs : List Turn := [⟨id, Gpr.rax.view .w16⟩, ⟨fun r => r.set .rbx 0xffff, Gpr.rbx.view .w16⟩]
    let p := m.exec "XADD_GPR8_GPR8_8" (exchangeOperands (.gpr .rax .low8) (.gpr .rax .high8))
    (m.afterFetchAdds .w16 0xffffffffffffffff cs).state.mem.number 0xffffffffffffffff 2 =
        .ok 0x0301 ∧
      p.machine.state.regs.number (.gpr .rax .low8) = 5 ∧
      p.machine.state.regs.number (.gpr .rax .high8) = 3 := by
  obtain ⟨t, ht⟩ := Table.exists_build {}
  refine ⟨t, ht, ?_⟩
  intro m cs p
  have hcs : ∀ c ∈ cs, c.reg.width = .w16 := by simp [cs, Gpr.view, Reg.width, Part.width]
  have hX : m.state.mem.number 0xffffffffffffffff 2 = .ok 0xff := rfl
  obtain ⟨-, -, hfinal, -⟩ :=
    (fetch_and_add (m := m) (w := .w16) ht (by decide) (by decide)).1 _ 0xff cs hX hcs
  obtain ⟨-, hregs, -⟩ := (fetch_and_add (m := m) (w := .w8) ht (by decide) (by decide)).2
    (.gpr .rax .low8) (.gpr .rax .high8) rfl rfl
  have hinc : (m.fetchAdds .w16 0xffffffffffffffff cs).map FetchAdd.increment =
      [0x0203, 0xffff] := by
    let n := (m.fetchAdd .w16 0xffffffffffffffff cs[0]).response.machine
    change [m.state.regs.number (Gpr.rax.view .w16),
      (n.state.regs.set .rbx 0xffff).number (Gpr.rbx.view .w16)] = _
    rw [RegFile.number_view _ rfl, RegFile.number_view _ rfl, RegFile.get_set, RegFile.get_set]
    rfl
  rw [hinc] at hfinal
  obtain ⟨hal, hah⟩ := hregs (.inr (.inl (by decide)))
  have hold : m.state.regs.number (.gpr .rax .low8) = 3 ∧
      m.state.regs.number (.gpr .rax .high8) = 2 := by
    change (({} : RegFile).set .rax 0x0203).number _ = 3 ∧
      (({} : RegFile).set .rax 0x0203).number _ = 2
    decide +kernel
  rw [hold.1, hold.2] at hal
  exact ⟨hfinal, hal, hah.trans hold.1⟩

end Machine

end X86
