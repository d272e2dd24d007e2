import X86.Proofs.Arithmetic
import X86.Proofs.Locality
import X86.Proofs.Selection

/-!
# Flags do not interfere

Only ADC and SBB read a flag, and that is the carry flag. Every other instruction does the same in
states that differ in their flags alone, and it merges no old flag into a new one: a flag is
assigned the same value in both states, or keeps in each state the value that it had there.

* `Table.readsCarry_iff`: the entries that read the carry flag;
* **`Machine.flags_noninterference`**: an entry in two states that differ in their flags.
-/

namespace X86

/-- **The entries that read the carry flag** are those for ADC and SBB. -/
theorem Table.readsCarry_iff {t : Table} {o : Options} {name : String} {e : Entry}
    (h : Table.build Rows.all o = .ok t) (hg : t.get? name = some e) :
    e.op.ReadsCarry ↔ e.key.mnemonic = "ADC" ∨ e.key.mnemonic = "SBB" := by
  have hmem : e.op ∈ [.adc, .sbb] ↔ e.key.mnemonic ∈ ["ADC", "SBB"] :=
    op_mem_iff h hg (by intro op s; cases op <;> cases s <;> decide)
  exact List.mem_pair.symm.trans (hmem.trans List.mem_pair)

namespace Machine

variable {t : Table} {o : Options} {name : String} {e : Entry} {m n : Machine}

/-- **Flags do not interfere.** In states that differ in their flags, where the carry flag is the
same if the instruction is ADC or SBB, an entry of the table has the same effects, or fails in the
same way. The states afterwards differ in their flags again: each flag is assigned the same value in
both by an effect, or by no effect, and then it keeps its value in both. -/
theorem flags_noninterference (ht : Table.build Rows.all o = .ok t) (he : t.get? name = some e)
    (ho : m.options = n.options) (hd : m.state.SameData n.state)
    (hcf : e.key.mnemonic = "ADC" ∨ e.key.mnemonic = "SBB" →
      m.state.regs.flags.cf = n.state.regs.flags.cf) (ops : List Operand) :
    let r := m.execEntry e ops
    let q := n.execEntry e ops
    r.outcome = q.outcome ∧ r.machine.state.SameData q.machine.state ∧
      ∀ f : FlagName,
        (∃ v, .setFlag f v ∈ r.effects ∧ .setFlag f v ∈ q.effects ∧
          r.machine.state.regs.flags.get f = v ∧ q.machine.state.regs.flags.get f = v) ∨
        (∀ v, .setFlag f v ∉ r.effects ∧ .setFlag f v ∉ q.effects) ∧
          r.machine.state.regs.flags.get f = m.state.regs.flags.get f ∧
          q.machine.state.regs.flags.get f = n.state.regs.flags.get f := by
  intro r q
  have hagree := State.sameData_iff.mp hd
  have hout : r.outcome = q.outcome :=
    outcome_congr ho (fun _ _ _ p _ => hagree p) fun hc => hcf ((Table.readsCarry_iff ht he).mp hc)
  have hfx : r.effects = q.effects := (Response.effects_of_outcome hout).1
  have hr : r.machine.state = Effect.replay m.state q.effects :=
    (state_call m (.entry e ops)).trans (congrArg _ hfx)
  have hq : q.machine.state = Effect.replay n.state q.effects := state_call n (.entry e ops)
  rw [hr, hq, hfx]
  refine ⟨hout, State.sameData_iff.mpr fun p => (hagree p).replay _, fun f => ?_⟩
  rcases Effect.flag_replay q.effects f with ⟨v, hv, h⟩ | ⟨hn, h⟩
  · exact .inl ⟨v, hv, hv, h _, h _⟩
  · exact .inr ⟨fun v => ⟨hn v, hn v⟩, h _, h _⟩

/-- With the carry flag set, ADC does the same whether other flags are clear or undefined, and the
states afterwards have the same registers and the same overflow flag. -/
theorem flags_noninterference_adc :
    let m : Machine := { state := { regs := { flags := { cf := .set } } } }
    let f : Flags := { cf := .set, af := .undefined, zf := .undefined, of := .undefined }
    let n : Machine := { state := { regs := { flags := f } } }
    let ops : List Operand := [.regW (.gpr .rax .low8), .reg (.gpr .rax .low8), .imm 127 .w8]
    let r := m.execEntry adcEntry ops
    let q := n.execEntry adcEntry ops
    r.outcome = q.outcome ∧ r.machine.state.regs.gpr = q.machine.state.regs.gpr ∧
      q.machine.state.regs.flags.get .of = .set := by
  intro m f n ops r q
  obtain ⟨t, ht⟩ := Table.exists_build {}
  have hd : m.state.SameData n.state := ⟨rfl, rfl, rfl, rfl⟩
  obtain ⟨hout, hdata, hflags⟩ :=
    flags_noninterference ht (get?_adcEntry ht) (m := m) (n := n) rfl hd (fun _ => rfl) ops
  have hset : r.machine.state.regs.flags.get .of = .set := by decide
  refine ⟨hout, hdata.gpr, ?_⟩
  rcases hflags .of with ⟨v, -, -, hv, hq⟩ | ⟨-, hkeep, -⟩
  · rw [hq, ← hv]
    exact hset
  · -- A kept overflow flag would still be clear.
    exact absurd (hset.symm.trans hkeep) (by decide)

end Machine

end X86
