import X86.Proofs.Independence

/-!
# The condition for success

Whether an instruction is executed can be told from its form, its operands and the state. Operands
in positions that are only read have to be mapped and to fit a word, memory that is written has to
be mapped, ADC and SBB need a carry flag, and divisions a quotient. Operations on vectors need a
vector register in front.

* `Entry.HasSource`, `Entry.HasTarget`: the operands that an entry reads and writes;
* `Entry.forall_reads_iff`, `Entry.forall_targets_iff`: the same as positions of the operation;
* `Entry.ready_iff_of_word`, `Entry.ready_iff_of_vector`: operations on words and on vectors;
* `Machine.succeeded_iff_ready`, `Machine.refuses_of_error`: entries that are executed or refused;
* **`Machine.success_exact`**: when an instruction is executed, and how it fails otherwise.
-/

namespace X86

theorem Operand.IsVector.maps {x : Operand} (h : x.IsVector) (s : State) : s.Maps x := by
  obtain ⟨r, hr, -⟩ := h
  cases x with
  | reg r | regW r | imm v w => exact fun _ hn => hn.elim
  | mem m | memW m => cases hr

theorem Op.packs_of_doubles {op : Op} (h : op.doubles) : op.packs = false := by
  cases op <;> first | rfl | cases h

theorem Op.of_packs {op : Op} (h : op.packs) :
    ¬ op.ReadsCarry ∧ op.doubles = false ∧ op ≠ divAcc ∧ 0 < op.arity ∧
      ∀ k ∈ op.targets, k = 0 := by
  cases op <;> simp [packs, ReadsCarry, doubles, arity, targets] at h ⊢

theorem ErrorKind.isFault_iff {k : ErrorKind} :
    k.isFault ↔ k = .divideByZero ∨ k = .divideOverflow := by
  cases k <;> decide

theorem Kind.isWritable_of_accepts {κ : Kind} {x : Operand} (hκ : κ = .rw ∨ κ = .mw)
    (h : κ.accepts x) : x.isWritable := by
  rcases hκ with rfl | rfl <;> cases x <;> first | rfl | cases h

theorem State.isSome_carry?_iff {s : State} {o : Options} :
    (s.carry? o).isSome ↔ s.regs.flags.cf ≠ .undefined ∨ o.undefinedRead ≠ .error := by
  unfold carry?
  cases s.regs.flags.cf <;> cases o.undefinedRead <;> simp [Flag.value?]

theorem RegFile.divides_iff {r : RegFile} {o : Options} {s : Sign} {w : Width} {divisor : Word} :
    r.Divides o s w divisor ↔ s.value w divisor ≠ 0 ∧
      (o.divChecks → ∃ v, s.value w v = (r.dividend s w).tdiv (s.value w divisor)) := by
  unfold Divides
  rw [Sign.inRange_iff]

namespace Entry

/-- An operand in a position that is only read. -/
def HasSource (e : Entry) (ops : List Operand) (x : Operand) : Prop :=
  ∃ (k : Nat) (κ : Kind), e.shape[k]? = some κ ∧ κ.isSource ∧ ops[k]? = some x

/-- An operand in a position that is written. -/
def HasTarget (e : Entry) (ops : List Operand) (x : Operand) : Prop :=
  ∃ (k : Nat) (κ : Kind), e.shape[k]? = some κ ∧ (κ = .rw ∨ κ = .mw) ∧ ops[k]? = some x

variable {e : Entry} {ops : List Operand} {t : Table} {o o' : Options} {name : String} {s : State}
  (hb : Table.build Rows.all o = .ok t) (he : t.get? name = some e)
  (hc : e.shape.check ops = .ok ())

include hb he

/-! ## Operands by their positions -/

theorem forall_reads_iff (ops : List Operand) (P : Operand → Prop) :
    (∀ k ∈ e.op.reads, ∀ x, ops[k]? = some x → P x) ↔ ∀ x, e.HasSource ops x → P x := by
  constructor
  · rintro h x ⟨k, κ, hκ, hs, hx⟩
    exact h k ((Table.mem_reads_iff hb he k).mpr ⟨κ, hκ, hs⟩) x hx
  · intro h k hk x hx
    obtain ⟨κ, hκ, hs⟩ := (Table.mem_reads_iff hb he k).mp hk
    exact h x ⟨k, κ, hκ, hs, hx⟩

include hc in
theorem forall_targets_iff :
    (∀ k ∈ e.op.targets, ∀ x, ops[k]? = some x → s.Accepts x) ↔
      ∀ x, e.HasTarget ops x → s.Maps x := by
  constructor
  · rintro h x ⟨k, κ, hκ, hw, hx⟩
    refine (h k ((Table.mem_targets_iff hb he k).mpr ?_) x hx).1
    rcases hw with rfl | rfl
    · exact .inl hκ
    · exact .inr hκ
  · intro h k hk x hx
    obtain ⟨κ, hκ, ha⟩ := Shape.exists_accepts_of_check hc hx
    have hw : κ = .rw ∨ κ = .mw := by
      have hk := (Table.mem_targets_iff hb he k).mp hk
      rwa [hκ, Option.some.injEq, Option.some.injEq] at hk
    exact ⟨h x ⟨k, κ, hκ, hw, hx⟩, Kind.isWritable_of_accepts hw ha⟩

/-! ## Operations on words and on vectors -/

/-- **Operations on words** need words to read, a carry flag if they are ADC or SBB, and a quotient
if they are divisions. -/
theorem ready_iff_of_word (hp : e.op.packs = false) :
    e.op.Ready s o' (e.invoke ops) ↔
      (∀ x, e.HasSource ops x → x.width.bits ≤ 64 ∧ s.Maps x) ∧
      (e.op.ReadsCarry → s.regs.flags.cf ≠ .undefined ∨ o'.undefinedRead ≠ .error) ∧
      (e.op = .divAcc → ∀ x, e.HasSource ops x → ∀ l, s.read x = .ok l →
        s.regs.Divides o' e.sign e.width l.low) := by
  have hsrc : (∀ k ∈ e.op.reads, ∀ x, ops[k]? = some x →
      s.Maps x ∧ (e.op.packs = false → x.width.isScalar)) ↔
      ∀ x, e.HasSource ops x → x.width.bits ≤ 64 ∧ s.Maps x := by
    rw [forall_reads_iff hb he]
    simp only [hp, true_implies, Width.isScalar_iff, and_comm]
  have hdiv : (e.op = .divAcc → ∀ x, ops[0]? = some x → ∀ l, s.read x = .ok l →
      s.regs.Divides o' e.sign e.width l.low) ↔
      (e.op = .divAcc → ∀ x, e.HasSource ops x → ∀ l, s.read x = .ok l →
        s.regs.Divides o' e.sign e.width l.low) := by
    refine forall_congr' fun hop => ?_
    have h := forall_reads_iff hb he ops
      fun x => ∀ l, s.read x = .ok l → s.regs.Divides o' e.sign e.width l.low
    rw [hop, show Op.divAcc.reads = [0] from rfl] at h
    simpa using h
  rw [Op.ready_iff]
  constructor
  · rintro ⟨h₁, -, h₃, -, h₅⟩
    exact ⟨hsrc.mp h₁, fun hr => State.isSome_carry?_iff.mp (h₃ hr), hdiv.mp h₅⟩
  · rintro ⟨h₁, h₂, h₃⟩
    exact ⟨hsrc.mpr h₁, fun h => by simp [hp] at h, fun hr => State.isSome_carry?_iff.mpr (h₂ hr),
      fun _ => Table.isScalar_of_word hb he hp, hdiv.mpr h₃⟩

include hc in
/-- **Operations on vectors** need a vector register in front and operands that are mapped. -/
theorem ready_iff_of_vector (hp : e.op.packs) :
    (e.op.Ready s o' (e.invoke ops) ∧ ∀ x, e.HasTarget ops x → s.Maps x) ↔
      (∃ x, ops[0]? = some x ∧ x.IsVector) ∧ ∀ x, e.HasSource ops x → s.Maps x := by
  obtain ⟨hcarry, hd, hdiv, hpos, htarget⟩ := Op.of_packs hp
  have hlen : 0 < ops.length := by
    rwa [← Shape.length_of_check hc, Table.arity_of_build hb he]
  have hsrc := forall_reads_iff hb he ops s.Maps
  constructor
  · rintro ⟨h, -⟩
    exact ⟨⟨ops[0], List.getElem?_eq_getElem hlen, h.vector hp _ (List.getElem?_eq_getElem hlen)⟩,
      hsrc.mp fun k hk x hx => (h.sources k hk x hx).1⟩
  · rintro ⟨⟨x, hx, hv⟩, h⟩
    refine ⟨⟨fun k hk y hy => ⟨hsrc.mpr h k hk y hy, fun hn => by simp [hp] at hn⟩,
      fun _ y hy => ?_, fun hr => absurd hr hcarry, fun hn => by simp [hd] at hn,
      fun hn => absurd hn hdiv⟩, fun y hy => ?_⟩
    · cases hx.symm.trans hy
      exact hv
    · obtain ⟨k, κ, hκ, hw, hy⟩ := hy
      obtain rfl : k = 0 := htarget k ((Table.mem_targets_iff hb he k).mpr (hκ ▸ by simpa using hw))
      cases hx.symm.trans hy
      exact hv.maps s

end Entry

namespace Machine

variable {m : Machine} {e : Entry} {ops : List Operand} {o : Options} {name : String}

/-! ## Executed and refused entries -/

/-- **An entry is executed** when its operation is ready and its targets can be written. -/
theorem succeeded_iff_ready (hlen : e.shape.length = e.op.arity)
    (hc : e.shape.check ops = .ok ()) :
    (m.execEntry e ops).succeeded ↔
      e.op.Ready m.state m.options (e.invoke ops) ∧ (e.op.Idles e.width m.state ops ∨
        ∀ k ∈ e.op.targets, ∀ x, ops[k]? = some x → m.state.Accepts x) := by
  rw [← (ends_transact ((Shape.length_of_check hc).symm.trans hlen)).exists_iff]
  exact succeeded_iff_transact (c := .entry e ops) rfl hc

/-- **A refused entry** whose operands are accepted is refused by its operation. -/
theorem refuses_of_error (hlen : e.shape.length = e.op.arity) (hc : e.shape.check ops = .ok ())
    {err : Error} (h : (m.execEntry e ops).result = .error err) :
    ∃ c, e.op.Refuses e.width c ∧ err = .ofCause m.state.regs c := by
  obtain ⟨c, rfl, -, -, hs | ⟨_, hs, hf⟩⟩ := call_of_error (c := .entry e ops) h
  · cases hs
  · cases hs
    rcases hf with hf | hf
    · rw [show e.shape.check (Call.entry e ops).operands = .ok () from hc] at hf
      cases hf
    · exact ⟨c, (ends_transact ((Shape.length_of_check hc).symm.trans hlen)).of_error hf, rfl⟩

/-- **The condition for success is exact.** On operands that its shape accepts, an operation on
words is executed exactly if all operands in read-only positions are mapped and have 64 bits at
most, all written memory is mapped unless it is a shift by zero, the carry flag of ADC and SBB is
defined or the options tell what to read, and the divisor of DIV and IDIV is not zero and its
quotient fits if the options ask for that. An operation on vectors is executed exactly if its first
operand is a vector register and all operands in read-only positions are mapped. -/
theorem success_exact (hb : Table.build Rows.all o = .ok m.table)
    (he : m.table.get? name = some e) (hc : e.shape.check ops = .ok ()) :
    let s := m.state
    let mn := e.key.mnemonic
    let r := m.exec name ops
    let n := s.regs.dividend e.sign e.width
    (e.op.packs = false → (r.succeeded ↔
      (∀ x, e.HasSource ops x → x.width.bits ≤ 64 ∧ s.Maps x) ∧
      (e.op.Idles e.width s ops ∨ ∀ x, e.HasTarget ops x → s.Maps x) ∧
      (mn = "ADC" ∨ mn = "SBB" →
        s.regs.flags.cf ≠ .undefined ∨ m.options.undefinedRead ≠ .error) ∧
      (mn = "DIV" ∨ mn = "IDIV" → ∀ x, e.HasSource ops x → ∀ l, s.read x = .ok l →
        let d := e.sign.value e.width l.low
        d ≠ 0 ∧ (m.options.divChecks → ∃ v, e.sign.value e.width v = n.tdiv d)))) ∧
    (e.op.packs → (r.succeeded ↔
      (∃ x, ops[0]? = some x ∧ x.IsVector) ∧ ∀ x, e.HasSource ops x → s.Maps x)) ∧
    ∀ err, r.result = .error err →
      err.kind ∈ [.operand, .memory, .undefinedFlag, .divideByZero, .divideOverflow] ∧
      (err.kind = .undefinedFlag → mn = "ADC" ∨ mn = "SBB") := by
  intro s mn r n
  have hlen := Table.arity_of_build hb he
  have hcarry : e.op.ReadsCarry ↔ mn = "ADC" ∨ mn = "SBB" := Table.readsCarry_iff hb he
  have hdiv : e.op = .divAcc ↔ mn = "DIV" ∨ mn = "IDIV" :=
    List.mem_singleton.symm.trans <|
      (Table.op_mem_iff hb he (by intro op s; cases op <;> cases s <;> decide)).trans List.mem_pair
  have hr : r = m.execEntry e ops := exec_of_get? he ops
  have hok : r.succeeded ↔ e.op.Ready s m.options (e.invoke ops) ∧
      (e.op.Idles e.width s ops ∨ ∀ x, e.HasTarget ops x → s.Maps x) := by
    rw [hr, succeeded_iff_ready hlen hc, Entry.forall_targets_iff hb he hc]
  refine ⟨fun hp => ?_, fun hp => ?_, fun err herr => ?_⟩
  · rw [hok, Entry.ready_iff_of_word hb he hp]
    constructor
    · rintro ⟨⟨hsrc, hcf, hq⟩, ht⟩
      exact ⟨hsrc, ht, fun hm => hcf (hcarry.mpr hm),
        fun hm x hx l hl => RegFile.divides_iff.mp (hq (hdiv.mpr hm) x hx l hl)⟩
    · rintro ⟨hsrc, ht, hcf, hq⟩
      exact ⟨⟨hsrc, fun hr => hcf (hcarry.mp hr),
        fun hop x hx l hl => RegFile.divides_iff.mpr (hq (hdiv.mp hop) x hx l hl)⟩, ht⟩
  · have hi : ¬ e.op.Idles e.width s ops := fun hi => by
      rcases hi.1 with h | h <;> rw [h] at hp <;> cases hp
    rw [hok, or_iff_right hi]
    exact Entry.ready_iff_of_vector hb he hc hp
  · rw [hr] at herr
    obtain ⟨c, hc, rfl⟩ := refuses_of_error hlen hc herr
    change c.kind ∈ _ ∧ (c.kind = _ → _)
    rcases hc with h | h | ⟨h, rfl⟩ | ⟨-, h⟩ | ⟨hd, hw, -⟩
    · simp [h]
    · simp [h]
    · exact ⟨by decide, fun _ => hcarry.mp h⟩
    · rcases ErrorKind.isFault_iff.mp h with h | h <;> simp [h]
    · exact absurd (Table.isScalar_of_word hb he (Op.packs_of_doubles hd)) hw

/-- The operands that add 127 to AL. -/
def adcOperands : List Operand :=
  [.regW (.gpr .rax .low8), .reg (.gpr .rax .low8), .imm 127 .w8]

theorem maps_of_mem_adcOperands (s : State) :
    ∀ x ∈ adcOperands, x.width.bits ≤ 64 ∧ s.Maps x := by
  simp [adcOperands, State.Maps, Operand.Names, Operand.width, Reg.width, Part.width, Width.bits]

/-- With an undefined carry flag, ADC of AL and a byte is executed exactly if the options tell what
to read. -/
theorem success_exact_adc :
    let s : State := { regs := { flags := { cf := .undefined } } }
    ∃ t, Table.build Rows.all {} = .ok t ∧ ∀ p : UndefinedRead,
      let m : Machine := { state := s, table := t, options := { undefinedRead := p } }
      (m.exec "ADC_GPR8_IMMb_80r2_8" adcOperands).succeeded ↔ p ≠ .error := by
  intro s
  obtain ⟨t, ht⟩ := Table.exists_build {}
  refine ⟨t, ht, fun p => ?_⟩
  intro m
  have hm := maps_of_mem_adcOperands m.state
  refine ((success_exact (m := m) ht (get?_adcEntry ht) rfl).1 rfl).trans ⟨fun h => ?_, fun h => ?_⟩
  · exact (h.2.2.1 (.inl rfl)).resolve_left fun hn => hn rfl
  · exact ⟨fun x ⟨_, _, _, _, hx⟩ => hm x (List.mem_of_getElem? hx),
      .inr fun x ⟨_, _, _, _, hx⟩ => (hm x (List.mem_of_getElem? hx)).2, fun _ => .inr h,
      fun hd => absurd hd (by decide)⟩

end Machine

end X86
