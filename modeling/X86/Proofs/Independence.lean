import X86.Proofs.Forms
import X86.Proofs.Noninterference

/-!
# Independent instructions

Two instructions are independent when neither of them writes a place that the other one reads or
writes. In which order they are executed then makes no difference, up to the flags.

* `Entry.Written`, `Entry.Read`, `Entry.Independent`: the places of an instruction, which its
  operands and its shape tell;
* `Shape.check_eq_ok_iff`: the operands that a shape accepts;
* `Entry.written_of_targets`, `Entry.written_or_read`: an operation keeps to these places;
* `Machine.exec_congr`, `Machine.written_of_writes`: what an instruction reads and writes;
* `Machine.exec_after`: the outcome of an instruction after one that it is independent of;
* **`Machine.exec_comm`**: independent instructions commute.
-/

namespace X86

/-! ## The places of an instruction -/

/-- The places that an operand in a position of some kind is written at. -/
def Kind.Writes : Kind → Operand → Place → Prop
  | .rw, op, .slot s => op.Names (.slot s)
  | .mw, op, .byte a => op.Names (.byte a)
  | _, _, _ => False

/-- The places that an entry may write: the registers and the memory in writable positions, and the
registers that its operation writes unnamed. -/
def Entry.Written (e : Entry) (ops : List Operand) (p : Place) : Prop :=
  (∃ (k : Nat) (κ : Kind) (op : Operand), e.shape[k]? = some κ ∧ ops[k]? = some op ∧
    κ.Writes op p) ∨
    ∃ g ∈ e.op.sinks e.width, p = .slot (.gpr g)

/-- The places that an entry may read besides: all other operands, and the registers that its
operation reads unnamed. -/
def Entry.Read (e : Entry) (ops : List Operand) (p : Place) : Prop :=
  (∃ (k : Nat) (op : Operand), ops[k]? = some op ∧ e.shape[k]? ≠ some .rw ∧
    e.shape[k]? ≠ some .mw ∧ op.Names p) ∨
    ∃ g ∈ e.op.sources e.width, p = .slot (.gpr g)

/-- Neither of two instructions writes a place that the other one reads or writes. -/
def Entry.Independent (e₁ : Entry) (ops₁ : List Operand) (e₂ : Entry) (ops₂ : List Operand) :
    Prop :=
  ∀ p, (e₁.Written ops₁ p → ¬ e₂.Written ops₂ p ∧ ¬ e₂.Read ops₂ p) ∧
    (e₂.Written ops₂ p → ¬ e₁.Written ops₁ p ∧ ¬ e₁.Read ops₁ p)

theorem Entry.Independent.symm {e₁ e₂ : Entry} {ops₁ ops₂ : List Operand}
    (h : e₁.Independent ops₁ e₂ ops₂) : e₂.Independent ops₂ e₁ ops₁ :=
  fun p => ⟨(h p).2, (h p).1⟩

theorem Kind.names_of_writes {κ : Kind} {op : Operand} {p : Place} (h : κ.Writes op p) :
    op.Names p := by
  cases p with
  | slot s =>
    cases κ with
    | rw => exact h
    | r | m | mw | i => exact h.elim
  | byte a =>
    cases κ with
    | mw => exact h
    | r | rw | m | i => exact h.elim

theorem Kind.writes_of_names {κ : Kind} {op : Operand} {p : Place} (hκ : κ = .rw ∨ κ = .mw)
    (ha : κ.accepts op) (hp : op.Names p) : κ.Writes op p := by
  rcases hκ with rfl | rfl
  · have hk : op.kind = .rw := (of_decide_eq_true ha).symm
    cases op with
    | regW r =>
      cases p with
      | slot s => exact hp
      | byte a => exact hp.elim
    | reg r | mem m | memW m | imm v w => cases hk
  · have hk : op.kind = .mw := (of_decide_eq_true ha).symm
    cases op with
    | memW m =>
      cases p with
      | slot s => exact hp.elim
      | byte a => exact hp
    | reg r | regW r | mem m | imm v w => cases hk

theorem Shape.checkFrom_eq_ok_iff {s : Shape} {ops : List Operand} {position : Nat}
    (hlen : s.length = ops.length) :
    s.checkFrom position ops = .ok () ↔ List.Forall₂ (fun κ x => κ.accepts x) s ops := by
  induction s generalizing ops position with
  | nil =>
    obtain rfl := List.length_eq_zero_iff.mp hlen.symm
    exact iff_of_true rfl .nil
  | cons κ s ih =>
    cases ops with
    | nil => cases hlen
    | cons x ops =>
      rw [checkFrom, List.forall₂_cons, ← @ih ops (position + 1) (Nat.succ.inj hlen)]
      split <;> simp [*]

/-- **Operands pass the check** if they are of the kinds of the shape, one by one. -/
theorem Shape.check_eq_ok_iff {s : Shape} {ops : List Operand} :
    s.check ops = .ok () ↔ List.Forall₂ (fun κ x => κ.accepts x) s ops := by
  unfold check
  split
  · exact checkFrom_eq_ok_iff ‹_›
  · next hlen => exact iff_of_false nofun fun h => hlen h.length_eq

theorem Shape.exists_accepts_of_check {s : Shape} {ops : List Operand} (h : s.check ops = .ok ())
    {k : Nat} {op : Operand} (hop : ops[k]? = some op) :
    ∃ κ, s[k]? = some κ ∧ κ.accepts op := by
  have hall := check_eq_ok_iff.mp h
  clear h
  induction hall generalizing k with
  | nil => cases hop
  | cons ha _ ih =>
    cases k with
    | zero =>
      cases hop
      exact ⟨_, rfl, ha⟩
    | succ k => exact ih hop

theorem Shape.exists_of_check_three {κ₀ κ₁ κ₂ : Kind} {ops : List Operand}
    (h : Shape.check [κ₀, κ₁, κ₂] ops = .ok ()) :
    ∃ x₀ x₁ x₂, ops = [x₀, x₁, x₂] ∧ κ₀.accepts x₀ := by
  obtain _ | ⟨h₀, _ | ⟨-, _ | ⟨-, ⟨⟩⟩⟩⟩ := check_eq_ok_iff.mp h
  exact ⟨_, _, _, rfl, h₀⟩

section

variable {t : Table} {o : Options} {name : String} {e : Entry} {ops : List Operand} {x : Operand}
  {p : Place}

namespace Entry

theorem written_of_targets (h : Table.build Rows.all o = .ok t) (hg : t.get? name = some e)
    (hc : e.shape.check ops = .ok ()) (hx : e.op.Targets (e.invoke ops) x) (hp : x.Names p) :
    e.Written ops p := by
  rcases hx with ⟨k, hk, hx⟩ | ⟨g, hg, r, rfl, hr⟩
  · obtain ⟨κ, hκ, ha⟩ := Shape.exists_accepts_of_check hc hx
    have hw := (Table.mem_targets_iff h hg k).mp hk
    rw [hκ, Option.some.injEq, Option.some.injEq] at hw
    exact .inl ⟨k, κ, x, hκ, hx, Kind.writes_of_names hw ha hp⟩
  · refine .inr ⟨g, hg, ?_⟩
    cases p with
    | slot s => exact congrArg Place.slot ((Eq.symm hp).trans hr)
    | byte a => exact hp.elim

theorem written_or_read (hc : e.shape.check ops = .ok ()) (hx : e.op.Asks (e.invoke ops) x)
    (hp : x.Names p) : e.Written ops p ∨ e.Read ops p := by
  rcases hx with hx | ⟨g, hg, r, rfl, hr⟩
  · obtain ⟨k, hk⟩ := List.mem_iff_getElem?.mp hx
    obtain ⟨κ, hκ, ha⟩ := Shape.exists_accepts_of_check hc hk
    by_cases hw : κ = .rw ∨ κ = .mw
    · exact .inl (.inl ⟨k, κ, x, hκ, hk, Kind.writes_of_names hw ha hp⟩)
    · rw [not_or] at hw
      exact .inr (.inl ⟨k, x, hk, by simp [hκ, hw.1], by simp [hκ, hw.2], hp⟩)
  · refine .inr (.inr ⟨g, hg, ?_⟩)
    cases p with
    | slot s => exact congrArg Place.slot ((Eq.symm hp).trans hr)
    | byte a => exact hp.elim

theorem place_of_unary {e : Entry} {r : Reg} {p : Place} (hs : e.op = .inc ∨ e.op = .not)
    (h : e.Written [.regW r, .reg r] p ∨ e.Read [.regW r, .reg r] p) : p = .slot r.slot := by
  have hnames : ∀ {k : Nat} {op : Operand}, [Operand.regW r, .reg r][k]? = some op →
      op.Names p → p = .slot r.slot := by
    intro k op hop hn
    rcases List.mem_pair.mp (List.mem_of_getElem? hop) with rfl | rfl
    all_goals
      cases p with
      | slot s => exact congrArg Place.slot (Eq.symm hn)
      | byte a => exact hn.elim
  have hregs : e.op.sinks e.width = [] ∧ e.op.sources e.width = [] := by
    rcases hs with hs | hs <;> rw [hs] <;> exact ⟨rfl, rfl⟩
  rcases h with (⟨k, κ, op, -, hop, hw⟩ | ⟨g, hg, -⟩) | (⟨k, op, hop, -, -, hn⟩ | ⟨g, hg, -⟩)
  · exact hnames hop (Kind.names_of_writes hw)
  · rw [hregs.1] at hg
    cases hg
  · exact hnames hop hn
  · rw [hregs.2] at hg
    cases hg

theorem independent_of_unary {e₁ e₂ : Entry} {r₁ r₂ : Reg} (h₁ : e₁.op = .inc ∨ e₁.op = .not)
    (h₂ : e₂.op = .inc ∨ e₂.op = .not) (hr : r₁.slot ≠ r₂.slot) :
    e₁.Independent [.regW r₁, .reg r₁] e₂ [.regW r₂, .reg r₂] := by
  intro p
  have hne : p = .slot r₁.slot → p ≠ .slot r₂.slot := by
    rintro rfl h
    exact hr (Place.slot.inj h)
  constructor
  · intro hw
    have hp := hne (place_of_unary h₁ (.inl hw))
    exact ⟨fun h => hp (place_of_unary h₂ (.inl h)), fun h => hp (place_of_unary h₂ (.inr h))⟩
  · intro hw
    have hp := place_of_unary h₂ (.inl hw)
    exact ⟨fun h => hne (place_of_unary h₁ (.inl h)) hp,
      fun h => hne (place_of_unary h₁ (.inr h)) hp⟩

end Entry

end

/-! ## Two instructions -/

namespace Machine

variable {m n : Machine} {o : Options} {name : String} {ops : List Operand}

theorem exec_of_get? {e : Entry} (h : m.table.get? name = some e) (ops : List Operand) :
    m.exec name ops = m.execEntry e ops := by
  rw [exec, Table.lookup, h]

theorem exec_of_unknown (h : m.table.get? name = none) (ops : List Operand) :
    m.exec name ops = m.refuse (.ofCause m.state.regs (.unknownKey name)) [] := by
  rw [exec, Table.lookup, h]

theorem exec_congr (hb : Table.build Rows.all o = .ok m.table) (ht : m.table = n.table)
    (ho : m.options = n.options) (hcf : ∀ e, m.table.get? name = some e → ¬ e.op.ReadsCarry)
    (hp : ∀ e, m.table.get? name = some e → ∀ p, e.Written ops p ∨ e.Read ops p →
      m.state.AgreesAt n.state p) :
    (m.exec name ops).outcome = (n.exec name ops).outcome := by
  cases he : m.table.get? name with
  | none => rw [exec_of_unknown he, exec_of_unknown (ht ▸ he)]; rfl
  | some e =>
    rw [exec_of_get? he, exec_of_get? (ht ▸ he)]
    refine outcome_congr ho (fun hc x hx p hxp => hp e he p ?_) fun hc => absurd hc (hcf e he)
    rcases hx with hx | hx
    · exact Entry.written_or_read hc hx hxp
    · exact .inl (Entry.written_of_targets hb he hc hx hxp)

theorem written_of_writes (hb : Table.build Rows.all o = .ok m.table) {fx : Effect}
    (hf : fx ∈ (m.exec name ops).effects) {p : Place} (hp : fx.Writes p) :
    ∃ e, m.table.get? name = some e ∧ e.Written ops p := by
  cases he : m.table.get? name with
  | none =>
    rw [exec_of_unknown he] at hf
    cases hf
  | some e =>
    rw [exec_of_get? he] at hf
    obtain ⟨hc, x, hx, hxp⟩ := names_of_writes hf hp
    exact ⟨e, rfl, Entry.written_of_targets hb he hc hx hxp⟩

theorem state_exec (m : Machine) (name : String) (ops : List Operand) :
    (m.exec name ops).machine.state = Effect.replay m.state (m.exec name ops).effects :=
  state_call m (.key name ops)

theorem executed_exec (m : Machine) (name : String) (ops : List Operand) :
    (m.exec name ops).machine.executed =
      m.executed + if (m.exec name ops).succeeded then 1 else 0 :=
  (executed_call m (.key name ops)).1

section

variable {k₁ k₂ : String} {ops₁ ops₂ : List Operand}
  (hb : Table.build Rows.all o = .ok m.table)
  (hind : ∀ e₁ e₂, m.table.get? k₁ = some e₁ → m.table.get? k₂ = some e₂ →
    e₁.Independent ops₁ e₂ ops₂)

include hb hind

theorem not_writes_or_not_writes (p : Place) :
    (∀ fx ∈ (m.exec k₁ ops₁).effects, ¬ fx.Writes p) ∨
      ∀ fx ∈ (m.exec k₂ ops₂).effects, ¬ fx.Writes p := by
  by_cases hw : ∃ fx ∈ (m.exec k₁ ops₁).effects, fx.Writes p
  · obtain ⟨fx, hfx, hw⟩ := hw
    obtain ⟨e₁, he₁, hw₁⟩ := written_of_writes hb hfx hw
    refine .inr fun gx hgx hgw => ?_
    obtain ⟨e₂, he₂, hw₂⟩ := written_of_writes hb hgx hgw
    exact ((hind e₁ e₂ he₁ he₂ p).1 hw₁).1 hw₂
  · exact .inl fun fx hfx hfw => hw ⟨fx, hfx, hfw⟩

theorem exec_after (hcf : ∀ e, m.table.get? k₂ = some e → ¬ e.op.ReadsCarry) :
    (m.exec k₂ ops₂).outcome = ((m.exec k₁ ops₁).machine.exec k₂ ops₂).outcome := by
  obtain ⟨-, ho, ht⟩ := executed_call m (.key k₁ ops₁)
  refine exec_congr hb ht.symm ho.symm hcf fun e₂ he₂ p hp => ?_
  rw [state_exec]
  refine (State.agreesAt_replay (fun fx hfx hw => ?_) m.state).symm
  obtain ⟨e₁, he₁, hw₁⟩ := written_of_writes hb hfx hw
  obtain ⟨hnw, hnr⟩ := ((hind e₁ e₂ he₁ he₂) p).1 hw₁
  exact hp.elim hnw hnr

end

/-- **Independent instructions commute.** If neither of two instructions, which are not ADC or SBB,
writes a place that the other one reads or writes, then each of them has the same outcome in both
orders, and the states afterwards differ in their flags at most. An unknown key has no places. -/
theorem exec_comm (m : Machine) (hb : Table.build Rows.all o = .ok m.table) {k₁ k₂ : String}
    {ops₁ ops₂ : List Operand}
    (h₁ : ∀ e, m.table.get? k₁ = some e → e.key.mnemonic ≠ "ADC" ∧ e.key.mnemonic ≠ "SBB")
    (h₂ : ∀ e, m.table.get? k₂ = some e → e.key.mnemonic ≠ "ADC" ∧ e.key.mnemonic ≠ "SBB")
    (hind : ∀ e₁ e₂, m.table.get? k₁ = some e₁ → m.table.get? k₂ = some e₂ →
      e₁.Independent ops₁ e₂ ops₂) :
    let r₁ := m.exec k₁ ops₁
    let r₂ := m.exec k₂ ops₂
    let r₁₂ := r₁.machine.exec k₂ ops₂
    let r₂₁ := r₂.machine.exec k₁ ops₁
    r₁.outcome = r₂₁.outcome ∧ r₂.outcome = r₁₂.outcome ∧
      r₁₂.machine.state.SameData r₂₁.machine.state ∧
      r₁₂.machine.executed = r₂₁.machine.executed := by
  intro r₁ r₂ r₁₂ r₂₁
  have hcf : ∀ {k : String}, (∀ e, m.table.get? k = some e →
      e.key.mnemonic ≠ "ADC" ∧ e.key.mnemonic ≠ "SBB") →
      ∀ e, m.table.get? k = some e → ¬ e.op.ReadsCarry := by
    intro k h e he hc
    exact ((Table.readsCarry_iff hb he).mp hc).elim (h e he).1 (h e he).2
  have hout₂ : r₂.outcome = r₁₂.outcome := exec_after hb hind (hcf h₂)
  have hout₁ : r₁.outcome = r₂₁.outcome :=
    exec_after hb (fun e₂ e₁ he₂ he₁ => (hind e₁ e₂ he₁ he₂).symm) (hcf h₁)
  obtain ⟨hfx₁, hok₁⟩ := Response.effects_of_outcome hout₁
  obtain ⟨hfx₂, hok₂⟩ := Response.effects_of_outcome hout₂
  refine ⟨hout₁, hout₂, State.sameData_iff.mpr fun p => ?_, ?_⟩
  · -- Both states are replays of the same two lists of effects, in different orders.
    have hs₁ : r₁.machine.state = Effect.replay m.state r₁.effects := state_exec m k₁ ops₁
    have hs₂ : r₂.machine.state = Effect.replay m.state r₂.effects := state_exec m k₂ ops₂
    have hs₁₂ : r₁₂.machine.state = _ := state_exec r₁.machine k₂ ops₂
    have hs₂₁ : r₂₁.machine.state = _ := state_exec r₂.machine k₁ ops₁
    rw [hs₁₂, hs₂₁, hs₁, hs₂, ← hfx₁, ← hfx₂]
    exact State.agreesAt_replay_comm (not_writes_or_not_writes hb hind p) m.state
  · have hx₁ : r₁.machine.executed = _ := executed_exec m k₁ ops₁
    have hx₂ : r₂.machine.executed = _ := executed_exec m k₂ ops₂
    have hx₁₂ : r₁₂.machine.executed = _ := executed_exec r₁.machine k₂ ops₂
    have hx₂₁ : r₂₁.machine.executed = _ := executed_exec r₂.machine k₁ ops₁
    rw [hx₁₂, hx₂₁, hx₁, hx₂, ← hok₁, ← hok₂]
    exact Nat.add_right_comm _ _ _

abbrev bl : Reg := .gpr .rbx .low8

abbrev cl : Reg := .gpr .rcx .low8

/-- The form INC of a byte register. -/
def incRow : Row :=
  { stem := "INC_GPR8", op := .inc, shape := [.rw, .r], sizes := .byte }

/-- The form NOT of a byte register. -/
def notRow : Row :=
  { stem := "NOT_GPR8", op := .not, shape := [.rw, .r], sizes := .byte }

/-- INC of BL and NOT of CL are independent, and lead to the same registers in both orders. -/
theorem exec_comm_inc_not : ∃ t e₁ e₂, Table.build Rows.all {} = .ok t ∧
    t.get? "INC_GPR8_8" = some e₁ ∧ t.get? "NOT_GPR8_8" = some e₂ ∧
    e₁.Independent [.regW bl, .reg bl] e₂ [.regW cl, .reg cl] ∧
    let inc (m : Machine) := (m.exec "INC_GPR8_8" [.regW bl, .reg bl]).machine
    let not (m : Machine) := (m.exec "NOT_GPR8_8" [.regW cl, .reg cl]).machine
    (not (inc { table := t })).state.SameData (inc (not { table := t })).state := by
  obtain ⟨t, ht⟩ := Table.exists_build {}
  have hr₁ : incRow ∈ Rows.all := by decide +kernel
  have hr₂ : notRow ∈ Rows.all := by decide +kernel
  obtain ⟨e₁, -, he₁⟩ := Table.get?_of_build ht hr₁ (p := (.w8, .any)) (by decide)
  obtain ⟨e₂, -, he₂⟩ := Table.get?_of_build ht hr₂ (p := (.w8, .any)) (by decide)
  have hop₁ : e₁.op = .inc := (Table.fields_of_get? ht hr₁ he₁).1
  have hop₂ : e₂.op = .not := (Table.fields_of_get? ht hr₂ he₂).1
  have hind : e₁.Independent [.regW bl, .reg bl] e₂ [.regW cl, .reg cl] :=
    Entry.independent_of_unary (.inl hop₁) (.inr hop₂) (by decide)
  have hcf : ∀ {name e}, t.get? name = some e → e.op = .inc ∨ e.op = .not →
      e.key.mnemonic ≠ "ADC" ∧ e.key.mnemonic ≠ "SBB" := by
    intro name e he hop
    refine not_or.mp fun hm => ?_
    rcases (Table.readsCarry_iff ht he).mpr hm with h | h <;> rw [h] at hop <;> simp at hop
  refine ⟨t, e₁, e₂, ht, he₁, he₂, hind, ?_⟩
  refine (exec_comm { table := t } ht (fun e he => ?_) (fun e he => ?_) fun e e' he he' => ?_).2.2.1
  · cases he₁.symm.trans he
    exact hcf he (.inl hop₁)
  · cases he₂.symm.trans he
    exact hcf he (.inr hop₂)
  · cases he₁.symm.trans he
    cases he₂.symm.trans he'
    exact hind

end Machine

end X86
