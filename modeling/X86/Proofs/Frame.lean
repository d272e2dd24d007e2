import X86.Proofs.Independence

/-!
# What an instruction leaves alone

A call changes the places that its entry names for writing, and in a general purpose register only
the bits of the view that is named, or all higher ones of a doubleword. The set of mapped addresses
never changes. What holds of one call holds of every run of calls.

* `State.getLsbD_replay_of_keeps`, `State.getLsbD_replay_of_clears`: bits that no write names;
* `Machine.isSome_byte?_call`: mapped addresses stay mapped, and no other ones become so;
* `Machine.target_of_writeReg`, `Machine.exists_writeReg`: the registers that an entry writes;
* `Machine.flag_of_notMem`: the flags that it does not assign;
* `Entry.Frame`: what one call leaves alone;
* **`Machine.frame`**: every call and every run of calls.
-/

namespace X86

/-! ## Bits of a register -/

/-- A bit of the slot of a register is not one that the register names. -/
def Reg.Leaves (r : Reg) (i : Nat) : Prop :=
  i < r.offset ∨ r.offset + r.width.bits ≤ i

namespace State

variable {fx : List Effect} {q : Slot} {i : Nat}

theorem getLsbD_act_writeReg {r : Reg} (hr : r.slot = q) (hi : i < q.width.bits)
    (h : r.Leaves i) (s : State) (v : Lanes) :
    ((Effect.act s (.writeReg r v)).regs.slot q).getLsbD i =
      (!r.clearsRest && (s.regs.slot q).getLsbD i) := by
  subst hr
  refine (RegFile.getLsbD_slot_write s.regs r v i hi).trans (if_neg ?_)
  unfold Reg.Leaves at h
  omega

theorem getLsbD_replay_of_keeps (hi : i < q.width.bits)
    (h : ∀ r v, .writeReg r v ∈ fx → r.slot = q → r.Leaves i ∧ r.clearsRest = false) (s : State) :
    ((Effect.replay s fx).regs.slot q).getLsbD i = (s.regs.slot q).getLsbD i := by
  induction fx generalizing s with
  | nil => rfl
  | cons f fx ih =>
    refine (ih (fun r v hv => h r v (List.mem_cons_of_mem _ hv)) _).trans ?_
    by_cases hf : f.Writes (.slot q)
    · cases f with
      | writeReg r v =>
        obtain ⟨hl, hc⟩ := h r v List.mem_cons_self hf
        rw [getLsbD_act_writeReg hf hi hl, hc]
        rfl
      | writeMem m v | barrier b | setFlag n v => exact hf.elim
    · exact congrArg (·.getLsbD i) (agreesAt_act hf s)

theorem getLsbD_replay_of_clears (hi : i < q.width.bits)
    (h : ∀ r v, .writeReg r v ∈ fx → r.slot = q → r.Leaves i ∧ r.clearsRest) (s : State)
    (hw : (∃ r v, .writeReg r v ∈ fx ∧ r.slot = q) ∨ (s.regs.slot q).getLsbD i = false) :
    ((Effect.replay s fx).regs.slot q).getLsbD i = false := by
  induction fx generalizing s with
  | nil =>
    rcases hw with ⟨r, v, hm, -⟩ | hw
    · cases hm
    · exact hw
  | cons f fx ih =>
    refine ih (fun r v hv => h r v (List.mem_cons_of_mem _ hv)) _ ?_
    by_cases hf : f.Writes (.slot q)
    · cases f with
      | writeReg r v =>
        obtain ⟨hl, hc⟩ := h r v List.mem_cons_self hf
        right
        rw [getLsbD_act_writeReg hf hi hl, hc]
        rfl
      | writeMem m v | barrier b | setFlag n v => exact hf.elim
    · rcases hw with ⟨r, v, hm, hr⟩ | hw
      · rcases List.mem_cons.mp hm with rfl | hm
        · exact absurd hr hf
        · exact .inl ⟨r, v, hm, hr⟩
      · exact .inr ((congrArg (·.getLsbD i) (agreesAt_act hf s)).trans hw)

end State

theorem RegFile.getLsbD_slot_gpr (r : RegFile) (g : Gpr) (i : Nat) :
    (r.slot (.gpr g)).getLsbD i = (r.get g).getLsbD i :=
  Lanes.getLsbD_ofWord _ _

namespace Machine

variable {m : Machine} {e : Entry} {ops : List Operand} {fx : List Effect} {o : Options}

/-! ## Memory -/

/-- **The set of mapped addresses never changes.** -/
theorem isSome_byte?_call (m : Machine) (c : Call) (a : Address) :
    ((m.call c).machine.state.mem.byte? a).isSome = (m.state.mem.byte? a).isSome := by
  cases h : (m.call c).result with
  | error err =>
    obtain ⟨-, -, hm, -⟩ := call_of_error h
    rw [hm]
  | ok fx =>
    obtain ⟨e, t, -, -, ht, rfl, -, hm⟩ := call_of_ok h
    have hs := (Op.coherent_eval ht (Transaction.coherent_begin _ _)).mapped
    rw [Op.before_eval ht] at hs
    rw [hm, replay_transact ht]
    exact Memory.isSome_byte?_foldl_apply hs a

/-! ## Registers -/

/-- **A written register** is a target of the operation, or one of its results. -/
theorem target_of_writeReg (hlen : e.shape.length = e.op.arity)
    (hok : (m.execEntry e ops).result = .ok fx) {r : Reg} {v : Lanes} (hr : .writeReg r v ∈ fx) :
    (∃ k ∈ e.op.targets, ops[k]? = some (.regW r)) ∨ r ∈ e.op.results e.width := by
  have hm := (laidOut_of_ok hlen hok).mem_layout (List.mem_map_of_mem (f := Effect.mark) hr)
  rcases Op.write_mem_body_iff.mp (Op.write_mem_layout_iff.mp hm) with h | ⟨r', hr', h⟩
  · exact .inl h
  · cases h
    exact .inr hr'

theorem exists_writeReg (hlen : e.shape.length = e.op.arity)
    (hok : (m.execEntry e ops).result = .ok fx) (hi : ¬ e.op.Idles e.width m.state ops) {k : Nat}
    (hk : k ∈ e.op.targets) {r : Reg} (hr : ops[k]? = some (.regW r)) :
    ∃ v, .writeReg r v ∈ fx := by
  have hm : Mark.write (.regW r) ∈ fx.map Effect.mark := by
    rw [(laidOut_of_ok hlen hok).layout hi, Op.write_mem_layout_iff, Op.write_mem_body_iff]
    exact .inl ⟨k, hk, hr⟩
  obtain ⟨f, hf, hmark⟩ := List.mem_map.mp hm
  cases f with
  | writeReg r' v => cases hmark; exact ⟨v, hf⟩
  | writeMem m v | barrier b | setFlag n v => cases hmark

/-! ## Flags -/

theorem flag_of_notMem (hlen : e.shape.length = e.op.arity) {n : FlagName}
    (hn : n ∉ e.op.assigned) :
    (m.execEntry e ops).machine.state.regs.flags.get n = m.state.regs.flags.get n := by
  have hs := state_call m (.entry e ops)
  change (m.execEntry e ops).machine.state = Effect.replay m.state (m.execEntry e ops).effects at hs
  rw [hs]
  rcases Effect.flag_replay (m.execEntry e ops).effects n with ⟨v, hv, -⟩ | ⟨-, h⟩
  · have hl := laidOut_of_ok hlen (Response.result_of_mem hv)
    have hm := hl.mem_layout (Effect.exists_setFlag_iff.mp ⟨v, hv⟩)
    exact absurd (Op.flag_mem_layout_iff.mp hm) hn
  · exact h m.state

end Machine

/-- What a call with an entry leaves alone, from a state on to the response. -/
structure Entry.Frame (e : Entry) (ops : List Operand) (s : State) (r : Response) : Prop where
  /-- a refused call and a shift by zero change nothing -/
  idle : r.succeeded = false ∨ e.op.Idles e.width s ops → r.machine.state = s
  /-- in a register that one operand names for writing, the bits outside of the view stay, or are
  cleared if it is a doubleword -/
  view : r.succeeded → ¬ e.op.Idles e.width s ops → ∀ (k : Nat) (g : Gpr) (part : Part),
    e.shape[k]? = some .rw → ops[k]? = some (.regW (.gpr g part)) →
    (∀ k' x, e.shape[k']? = some .rw → ops[k']? = some x → x.Names (.slot (.gpr g)) → k' = k) →
    ∀ i < 64, (Reg.gpr g part).Leaves i → (r.machine.state.regs.get g).getLsbD i =
      if part = .dword then false else (s.regs.get g).getLsbD i
  /-- bytes are multiplied and divided in AX -/
  accumulator : e.op = .mulAcc ∨ e.op = .divAcc → e.width = .w8 → ∀ i, 16 ≤ i →
    (r.machine.state.regs.get .rax).getLsbD i = (s.regs.get .rax).getLsbD i
  data : e.key.mnemonic ∈ ["CMP", "TEST", "PTEST", "VPTEST"] → r.machine.state.SameData s
  flags : e.key.mnemonic ∈ ["NOT", "MULX"] → r.machine.state.regs.flags = s.regs.flags
  carry : e.key.mnemonic ∈ ["INC", "DEC"] → r.machine.state.regs.flags.cf = s.regs.flags.cf

namespace Machine

variable {m : Machine} {e : Entry} {ops : List Operand} {fx : List Effect} {o : Options}
  {t : Table} {name : String}

/-! ## One call -/

theorem state_of_idle (hlen : e.shape.length = e.op.arity)
    (h : (m.execEntry e ops).succeeded = false ∨ e.op.Idles e.width m.state ops) :
    (m.execEntry e ops).machine.state = m.state := by
  have hfx : (m.execEntry e ops).effects = [] := by
    unfold Response.effects
    cases hr : (m.execEntry e ops).result with
    | error err => rfl
    | ok fx =>
      have hi := h.resolve_left fun hs => by
        have := Response.succeeded_iff.mpr ⟨fx, hr⟩
        rw [hs] at this
        cases this
      exact List.map_eq_nil_iff.mp ((laidOut_of_ok hlen hr).idle hi)
  exact (state_call m (.entry e ops)).trans (congrArg (Effect.replay m.state) hfx)

section

variable (hb : Table.build Rows.all o = .ok t) (he : t.get? name = some e)

include hb he

theorem eq_of_writeReg (hok : (m.execEntry e ops).result = .ok fx) {k : Nat} {r : Reg}
    (hk : e.shape[k]? = some .rw)
    (huniq : ∀ k' x, e.shape[k']? = some .rw → ops[k']? = some x → x.Names (.slot r.slot) → k' = k)
    (hr : ops[k]? = some (.regW r)) {r' : Reg} {v : Lanes} (hw : .writeReg r' v ∈ fx)
    (hs : r'.slot = r.slot) : r' = r := by
  obtain ⟨e', _, hsel, hc, -⟩ := call_of_ok (c := .entry e ops) hok
  cases hsel
  rcases target_of_writeReg (Table.arity_of_build hb he) hok hw with ⟨k', hk', hr'⟩ | hres
  · obtain ⟨κ, hκ, ha⟩ := Shape.exists_accepts_of_check hc hr'
    have hrw : e.shape[k']? = some .rw := by
      rcases (Table.mem_targets_iff hb he k').mp hk' with h | h
      · exact h
      · cases hκ.symm.trans h
        exact (Kind.writes_of_names (p := .slot r'.slot) (.inr rfl) ha rfl).elim
    cases huniq k' _ hrw hr' hs
    cases hr.symm.trans hr'
    rfl
  · -- Operations with results of their own have no other target.
    have ht := (Table.mem_targets_iff hb he k).mpr (.inl hk)
    have hnone : e.op.results e.width ≠ [] → e.op.targets = [] := by
      cases e.op <;> simp [Op.results, Op.targets]
    rw [hnone (List.ne_nil_of_mem hres)] at ht
    cases ht

theorem getLsbD_of_view (hok : (m.execEntry e ops).result = .ok fx)
    (hi : ¬ e.op.Idles e.width m.state ops) {k : Nat} {g : Gpr} {part : Part}
    (hk : e.shape[k]? = some .rw) (hr : ops[k]? = some (.regW (.gpr g part)))
    (huniq : ∀ k' x, e.shape[k']? = some .rw → ops[k']? = some x → x.Names (.slot (.gpr g)) →
      k' = k) {i : Nat} (hi64 : i < 64) (hl : (Reg.gpr g part).Leaves i) :
    ((m.execEntry e ops).machine.state.regs.get g).getLsbD i =
      if part = .dword then false else (m.state.regs.get g).getLsbD i := by
  have hs : (m.execEntry e ops).machine.state = Effect.replay m.state fx :=
    state_of_ok (c := .entry e ops) hok
  have hw : ∀ r v, .writeReg r v ∈ fx → r.slot = .gpr g → r = .gpr g part :=
    fun r v h hr' => eq_of_writeReg hb he hok (r := .gpr g part) hk huniq hr h hr'
  rw [hs, ← RegFile.getLsbD_slot_gpr, ← RegFile.getLsbD_slot_gpr]
  split
  · next hp =>
    obtain ⟨v, hv⟩ := exists_writeReg (Table.arity_of_build hb he) hok hi
      ((Table.mem_targets_iff hb he k).mpr (.inl hk)) hr
    refine State.getLsbD_replay_of_clears hi64 (fun r v' h hr' => ?_) m.state (.inl ⟨_, v, hv, rfl⟩)
    rw [hw r v' h hr']
    exact ⟨hl, hp ▸ rfl⟩
  · next hp =>
    refine State.getLsbD_replay_of_keeps hi64 (fun r v' h hr' => ?_) m.state
    rw [hw r v' h hr']
    exact ⟨hl, by cases part <;> first | rfl | exact absurd rfl hp⟩

theorem mem_results_of_writeReg (ht : e.op.targets = [])
    (hok : (m.execEntry e ops).result = .ok fx) {r : Reg} {v : Lanes} (hr : .writeReg r v ∈ fx) :
    r ∈ e.op.results e.width := by
  rcases target_of_writeReg (Table.arity_of_build hb he) hok hr with ⟨k, hk, -⟩ | h
  · rw [ht] at hk
    cases hk
  · exact h

/-- **Bytes are multiplied and divided in AX**, and the higher bits of the accumulator stay. -/
theorem getLsbD_accumulator (hop : e.op = .mulAcc ∨ e.op = .divAcc) (h8 : e.width = .w8) {i : Nat}
    (hi : 16 ≤ i) :
    ((m.execEntry e ops).machine.state.regs.get .rax).getLsbD i =
      (m.state.regs.get .rax).getLsbD i := by
  by_cases hi64 : i < 64
  · cases hr : (m.execEntry e ops).result with
    | error err =>
      obtain ⟨-, -, hm, -⟩ := call_of_error (c := .entry e ops) hr
      exact congrArg (fun n : Machine => (n.state.regs.get .rax).getLsbD i) hm
    | ok fx =>
      have hs : (m.execEntry e ops).machine.state = Effect.replay m.state fx :=
        state_of_ok (c := .entry e ops) hr
      rw [hs, ← RegFile.getLsbD_slot_gpr, ← RegFile.getLsbD_slot_gpr]
      refine State.getLsbD_replay_of_keeps hi64 (fun r v hw _ => ?_) m.state
      have ht : e.op.targets = [] := by rcases hop with h | h <;> rw [h] <;> rfl
      have hres := mem_results_of_writeReg hb he ht hr hw
      have hall : ∀ r ∈ e.op.results .w8, r.offset + r.width.bits ≤ 16 ∧ r.clearsRest = false := by
        rcases hop with h | h <;> rw [h] <;> decide
      obtain ⟨hle, hc⟩ := hall r (h8 ▸ hres)
      exact ⟨.inr (hle.trans hi), hc⟩
  · rw [BitVec.getLsbD_of_ge _ _ (not_lt.mp hi64), BitVec.getLsbD_of_ge _ _ (not_lt.mp hi64)]

omit hb he in
theorem sameData_of_targets (ht : e.op.targets = []) (hs : e.op.sinks e.width = []) :
    (m.execEntry e ops).machine.state.SameData m.state := by
  have hst : (m.execEntry e ops).machine.state = _ := state_call m (.entry e ops)
  refine State.sameData_iff.mpr fun p => hst ▸ State.agreesAt_replay (fun f hf hw => ?_) m.state
  obtain ⟨-, x, ⟨k, hk, -⟩ | ⟨g, hg, -⟩, -⟩ := names_of_writes hf hw
  · rw [ht] at hk
    cases hk
  · have hg : g ∈ e.op.sinks e.width := hg
    rw [hs] at hg
    cases hg

/-- **What one call leaves alone.** -/
theorem frame_execEntry (m : Machine) (ops : List Operand) :
    e.Frame ops m.state (m.execEntry e ops) := by
  have hlen := Table.arity_of_build hb he
  have hcmp : e.op ∈ [.cmp, .test, .ptest] ↔ e.key.mnemonic ∈ ["CMP", "TEST", "PTEST", "VPTEST"] :=
    Table.op_mem_iff hb he (by intro op s; cases op <;> cases s <;> decide)
  have hnone : e.op ∈ [.not, .mulx] ↔ e.key.mnemonic ∈ ["NOT", "MULX"] :=
    Table.op_mem_iff hb he (by intro op s; cases op <;> cases s <;> decide)
  have hstep : e.op ∈ [.inc, .dec] ↔ e.key.mnemonic ∈ ["INC", "DEC"] :=
    Table.op_mem_iff hb he (by intro op s; cases op <;> cases s <;> decide)
  refine {
    idle := state_of_idle hlen
    view := fun hok hi k g part hk hr huniq i hi64 hl => ?_
    accumulator := fun hop h8 i hi => getLsbD_accumulator hb he hop h8 hi
    data := fun h => ?_
    flags := fun h => ?_
    carry := fun h => flag_of_notMem (n := .cf) hlen ?_ }
  · obtain ⟨fx, hok⟩ := Response.succeeded_iff.mp hok
    exact getLsbD_of_view hb he hok hi hk hr huniq hi64 hl
  · have hall : ∀ op ∈ ([.cmp, .test, .ptest] : List Op), op.targets = [] := by decide
    have hs : ∀ op ∈ ([.cmp, .test, .ptest] : List Op), op.sinks e.width = [] := by simp [Op.sinks]
    exact sameData_of_targets (hall e.op (hcmp.mpr h)) (hs e.op (hcmp.mpr h))
  · have hall : ∀ op ∈ ([.not, .mulx] : List Op), op.assigned = [] := by decide
    refine Flags.ext_get fun n => flag_of_notMem hlen ?_
    rw [hall e.op (hnone.mpr h)]
    exact List.not_mem_nil
  · have hall : ∀ op ∈ ([.inc, .dec] : List Op), FlagName.cf ∉ op.assigned := by decide
    exact hall e.op (hstep.mpr h)

end

/-! ## Runs of calls -/

theorem agreesAt_exec (hb : Table.build Rows.all o = .ok m.table) (name : String)
    (ops : List Operand) (p : Place) :
    (m.exec name ops).machine.state.AgreesAt m.state p ∨
      ∃ e, m.table.get? name = some e ∧ e.Written ops p := by
  by_cases hw : ∃ f ∈ (m.exec name ops).effects, f.Writes p
  · obtain ⟨f, hf, hp⟩ := hw
    exact .inr (written_of_writes hb hf hp)
  · rw [state_exec]
    exact .inl (State.agreesAt_replay (fun f hf hp => hw ⟨f, hf, hp⟩) m.state)

/-- A request by key. -/
abbrev request (q : String × List Operand) : Call :=
  .key q.1 q.2

/-- **Frame.** A run of calls keeps the set of mapped addresses, and all places but those that the
operands of some call name for writing, or that its operation writes unnamed. What one call leaves
alone besides is the frame of its entry. -/
theorem frame (m : Machine) (hb : Table.build Rows.all o = .ok m.table) :
    (∀ qs : List (String × List Operand),
      let s := (m.run (qs.map request)).state
      (∀ a, (s.mem.byte? a).isSome = (m.state.mem.byte? a).isSome) ∧
        ∀ p, s.AgreesAt m.state p ∨
          ∃ q ∈ qs, ∃ e, m.table.get? q.1 = some e ∧ e.Written q.2 p) ∧
      ∀ name e ops, m.table.get? name = some e → e.Frame ops m.state (m.exec name ops) := by
  refine ⟨fun qs => ?_, fun name e ops he => ?_⟩
  · -- The rest of a run starts from the machine that its first call leaves, with the same table.
    induction qs generalizing m with
    | nil => exact ⟨fun _ => rfl, fun p => .inl (.refl _ p)⟩
    | cons q qs ih =>
      obtain ⟨-, -, ht⟩ := executed_call m (request q)
      obtain ⟨hmap, hp⟩ := ih (m.call (request q)).machine (hb.trans (congrArg _ ht.symm))
      refine ⟨fun a => (hmap a).trans (isSome_byte?_call m (request q) a), fun p => ?_⟩
      rcases hp p with h | ⟨q', hq', e, he, hw⟩
      · rcases agreesAt_exec hb q.1 q.2 p with h' | ⟨e, he, hw⟩
        · exact .inl (h.trans h')
        · exact .inr ⟨q, List.mem_cons_self, e, he, hw⟩
      · exact .inr ⟨q', List.mem_cons_of_mem _ hq', e, ht ▸ he, hw⟩
  · rw [exec_of_get? he]
    exact frame_execEntry hb he m ops

/-- The form INC of a byte register, as an entry of a table. -/
def incEntry : Entry where
  key := ⟨"INC", "GPR8", .w8⟩
  name := "INC_GPR8_8"
  op := .inc
  sign := .unsigned
  width := .w8
  shape := [.rw, .r]
  mode := .any
  extension := .base

/-- INC of BH overflows its byte, and keeps the other seven bytes of RBX and the carry flag. -/
theorem frame_inc_high :
    let regs : RegFile := ({ flags := { cf := .set } } : RegFile).set .rbx 0xFFFF
    let bh : Reg := .gpr .rbx .high8
    ∃ t, Table.build Rows.all {} = .ok t ∧
      let r := ({ state := { regs }, table := t } : Machine).exec "INC_GPR8_8" [.regW bh, .reg bh]
      r.succeeded ∧ (∀ i < 64, i < 8 ∨ 16 ≤ i →
        (r.machine.state.regs.get .rbx).getLsbD i = (regs.get .rbx).getLsbD i) ∧
      r.machine.state.regs.flags.cf = .set := by
  intro regs bh
  obtain ⟨t, ht⟩ := Table.exists_build {}
  have hr : incRow ∈ Rows.all := by decide +kernel
  have he : t.get? "INC_GPR8_8" = some incEntry :=
    Table.get?_of_ofRow (p := (.w8, .any)) ht hr (by decide) rfl
  refine ⟨t, ht, ?_⟩
  intro r
  have hf : incEntry.Frame [.regW bh, .reg bh] { regs } r :=
    (frame { state := { regs }, table := t } ht).2 _ _ _ he
  have hs : r.succeeded := by
    change (exec _ _ _).succeeded = true
    rw [exec_of_get? he]
    rfl
  have hi : ¬ incEntry.op.Idles incEntry.width { regs } [.regW bh, .reg bh] := fun h => by
    rcases h.1 with h | h <;> cases h
  refine ⟨hs, fun i hi64 hleave => ?_, hf.carry (by decide)⟩
  refine hf.view hs hi 0 .rbx .high8 rfl rfl (fun k x hk hx _ => ?_) i hi64 hleave
  match k with
  | 0 => rfl
  | 1 => cases hk
  | k + 2 => cases hk

end Machine

end X86
