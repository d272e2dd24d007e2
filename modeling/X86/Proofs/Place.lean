import X86.Proofs.Run

/-!
# Places of a state

A state consists of places, which are the slots of the register file and the bytes of memory, and
of the flags. An operand names some places, and an effect writes some. What is at a place after
effects depends on what was there before, and on nothing else.

* `Place`, `Operand.Names`, `Effect.Writes`;
* `State.AgreesAt`, `State.sameData_iff`: states with the same content at a place, or at all;
* `State.read_congr`: an operand has the same value where the places that it names agree;
* `State.AgreesAt.replay`, `State.agreesAt_replay`: effects keep agreement at a place, and a place
  that none of them writes keeps its content;
* `State.agreesAt_replay_comm`: effects on different places commute;
* `Effect.flag_replay`: effects assign a flag or keep it.
-/

namespace X86

/-- A part of a state that operands can name. -/
inductive Place where
  | slot (s : Slot)
  | byte (a : Address)
  deriving DecidableEq

/-- Whether an address is in the range of a piece of memory. -/
def MemRef.Covers (m : MemRef) (a : Address) : Prop :=
  (a - m.address).toNat < m.width.bytes

/-- The places of an operand. A register stands for its whole slot. -/
def Operand.Names : Operand → Place → Prop
  | .reg r, .slot s | .regW r, .slot s => r.slot = s
  | .mem m, .byte a | .memW m, .byte a => m.Covers a
  | _, _ => False

/-- The places that an effect may change. -/
def Effect.Writes : Effect → Place → Prop
  | .writeReg r _, .slot s => r.slot = s
  | .writeMem m _, .byte a => m.Covers a
  | _, _ => False

/-- Two states have the same content at a place. -/
def State.AgreesAt (s t : State) : Place → Prop
  | .slot r => s.regs.slot r = t.regs.slot r
  | .byte a => s.mem.byte? a = t.mem.byte? a

/-- Two states differ in their flags, if at all. -/
structure State.SameData (s t : State) : Prop where
  gpr : s.regs.gpr = t.regs.gpr
  mmx : s.regs.mmx = t.regs.mmx
  ymm : s.regs.ymm = t.regs.ymm
  mem : s.mem = t.mem

/-! ## Agreement -/

namespace State

variable {s t u : State} {p : Place}

theorem AgreesAt.refl (s : State) (p : Place) : s.AgreesAt s p := by
  cases p <;> rfl

theorem AgreesAt.symm (h : s.AgreesAt t p) : t.AgreesAt s p := by
  cases p with
  | slot r => exact Eq.symm h
  | byte a => exact Eq.symm h

theorem AgreesAt.trans (h : s.AgreesAt t p) (h' : t.AgreesAt u p) : s.AgreesAt u p := by
  cases p with
  | slot r => exact Eq.trans h h'
  | byte a => exact Eq.trans h h'

theorem sameData_iff : s.SameData t ↔ ∀ p, s.AgreesAt t p := by
  constructor
  · rintro ⟨hg, hm, hy, hmem⟩ p
    cases p with
    | slot r => cases r <;> simp [AgreesAt, RegFile.slot, RegFile.get, hg, hm, hy]
    | byte a => exact congrArg (·.byte? a) hmem
  · intro h
    have hr : { s.regs with flags := t.regs.flags } = t.regs := by
      refine RegFile.ext_slot (fun r => ?_) rfl
      have hs := h (.slot r)
      cases r <;> exact hs
    have hg := congrArg RegFile.gpr hr
    have hm := congrArg RegFile.mmx hr
    have hy := congrArg RegFile.ymm hr
    exact ⟨hg, hm, hy, Memory.ext_byte? fun a => h (.byte a)⟩

theorem eq_of_agreesAt (h : ∀ p, s.AgreesAt t p)
    (hf : ∀ n, s.regs.flags.get n = t.regs.flags.get n) : s = t := by
  have hr : s.regs = t.regs := RegFile.ext_slot (fun r => h (.slot r)) (Flags.ext_get hf)
  have hm : s.mem = t.mem := Memory.ext_byte? fun a => h (.byte a)
  obtain ⟨r, mem⟩ := s
  obtain rfl : r = t.regs := hr
  obtain rfl : mem = t.mem := hm
  rfl

/-! ## Operands -/

theorem read_congr {op : Operand} (h : ∀ p, op.Names p → s.AgreesAt t p) :
    s.read op = t.read op := by
  cases op with
  | reg r | regW r =>
    have hs : s.regs.slot r.slot = t.regs.slot r.slot := h (.slot r.slot) rfl
    simp only [read, RegFile.read, hs]
  | mem m | memW m =>
    have hb : s.mem.readBytes m.address m.width.bytes = t.mem.readBytes m.address m.width.bytes :=
      Memory.readBytes_congr fun a ha => h (.byte a) ha
    simp only [read, Memory.read, hb]
  | imm v w => rfl

theorem check_congr {m : MemRef} (h : ∀ p, (Operand.memW m).Names p → s.AgreesAt t p) :
    s.mem.check m.address m.width = t.mem.check m.address m.width :=
  Memory.check_congr fun a ha => congrArg Option.isSome (h (.byte a) ha)

/-! ## Effects -/

theorem AgreesAt.act (h : s.AgreesAt t p) (e : Effect) :
    (Effect.act s e).AgreesAt (Effect.act t e) p := by
  cases e with
  | writeReg r v =>
    cases p with
    | slot q =>
      change (s.regs.write r v).slot q = (t.regs.write r v).slot q
      have hq : s.regs.slot q = t.regs.slot q := h
      simp only [RegFile.write, RegFile.slot_setSlot]
      by_cases hr : r.slot = q
      · rw [hr, hq]
      · rw [if_neg hr, if_neg hr, hq]
    | byte a => exact h
  | writeMem m v =>
    cases p with
    | slot q => exact h
    | byte a =>
      have ha : s.mem.byte? a = t.mem.byte? a := h
      change (Effect.act s _).mem.byte? a = (Effect.act t _).mem.byte? a
      rw [Effect.byte?_act_writeMem, Effect.byte?_act_writeMem, ha]
  | barrier b => exact h
  | setFlag n v =>
    cases p with
    | slot q =>
      change (s.regs.setFlag n v).slot q = (t.regs.setFlag n v).slot q
      rw [RegFile.slot_setFlag, RegFile.slot_setFlag]
      exact h
    | byte a => exact h

/-- **What is at a place after effects** depends on what was there before. -/
theorem AgreesAt.replay (h : s.AgreesAt t p) (fx : List Effect) :
    (Effect.replay s fx).AgreesAt (Effect.replay t fx) p := by
  induction fx generalizing s t with
  | nil => exact h
  | cons e fx ih => exact ih (h.act e)

theorem agreesAt_act {e : Effect} (h : ¬ e.Writes p) (s : State) :
    (Effect.act s e).AgreesAt s p := by
  cases e with
  | writeReg r v =>
    cases p with
    | slot q => exact RegFile.slot_write_of_ne s.regs h v
    | byte a => rfl
  | writeMem m v =>
    cases p with
    | slot q => rfl
    | byte a => exact (Effect.byte?_act_writeMem s m v a).trans (if_neg h)
  | barrier b => cases p <;> rfl
  | setFlag n v =>
    cases p with
    | slot q => exact RegFile.slot_setFlag s.regs n v q
    | byte a => rfl

/-- **A place that no effect writes** keeps its content. -/
theorem agreesAt_replay {fx : List Effect} (h : ∀ e ∈ fx, ¬ e.Writes p) (s : State) :
    (Effect.replay s fx).AgreesAt s p := by
  induction fx generalizing s with
  | nil => exact .refl s p
  | cons e fx ih =>
    exact (ih (fun f hf => h f (List.mem_cons_of_mem _ hf)) _).trans
      (agreesAt_act (h e List.mem_cons_self) s)

/-- **Lists of effects commute at a place** that one of them does not write. -/
theorem agreesAt_replay_comm {fx gx : List Effect}
    (h : (∀ e ∈ fx, ¬ e.Writes p) ∨ ∀ e ∈ gx, ¬ e.Writes p) (s : State) :
    (Effect.replay (Effect.replay s fx) gx).AgreesAt (Effect.replay (Effect.replay s gx) fx) p := by
  rcases h with h | h
  · exact ((agreesAt_replay h s).replay gx).trans (agreesAt_replay h _).symm
  · exact (agreesAt_replay h _).trans ((agreesAt_replay h s).replay fx).symm

end State

/-- **Effects assign a flag or keep it**, and an assigned flag does not depend on the state. -/
theorem Effect.flag_replay (fx : List Effect) (n : FlagName) :
    (∃ v, .setFlag n v ∈ fx ∧ ∀ s, (replay s fx).regs.flags.get n = v) ∨
      (∀ v, .setFlag n v ∉ fx) ∧ ∀ s, (replay s fx).regs.flags.get n = s.regs.flags.get n := by
  induction fx with
  | nil => exact .inr ⟨fun v => List.not_mem_nil, fun s => rfl⟩
  | cons e fx ih =>
    rcases ih with ⟨v, hv, h⟩ | ⟨hn, h⟩
    · exact .inl ⟨v, List.mem_cons_of_mem _ hv, fun s => h _⟩
    · -- The rest keeps the flag, so the first effect decides.
      have hkeep : (∀ v, e ≠ .setFlag n v) →
          (∀ s, (act s e).regs.flags.get n = s.regs.flags.get n) →
          (∀ v, .setFlag n v ∉ e :: fx) ∧
            ∀ s, (replay s (e :: fx)).regs.flags.get n = s.regs.flags.get n := by
        intro hne hs
        exact ⟨fun v hv => (List.mem_cons.mp hv).elim (fun hv => hne v hv.symm) (hn v),
          fun s => (h _).trans (hs s)⟩
      cases e with
      | writeReg r v => exact .inr (hkeep (by simp) fun s => by simp [act])
      | writeMem m v => exact .inr (hkeep (by simp) fun s => rfl)
      | barrier b => exact .inr (hkeep (by simp) fun s => rfl)
      | setFlag n' v =>
        by_cases hn' : n' = n
        · subst hn'
          exact .inl ⟨v, List.mem_cons_self, fun s => (h _).trans (by simp [act])⟩
        · exact .inr (hkeep (by simp [hn']) fun s => by simp [act, hn'])

end X86
