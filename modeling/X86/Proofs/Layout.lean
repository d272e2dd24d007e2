import X86.Proofs.Division
import X86.Proofs.Place
import X86.Proofs.Scope

/-!
# The layout of effects

Up to the values that are written and assigned, an operation always has the same effects: the same
operands are written in the same order, the barriers stand at the same places, and the same flags
are assigned at the end. Only a shift by zero has no effect at all.

* `Mark`, `Effect.mark`, `Action.marks`: effects and actions without their values;
* `Op.results`, `Op.assigned`, `Op.body`, `Op.layout`: what an operation does, as marks;
* `Op.Idles`: a shift by zero;
* `Op.write_mem_body_iff`, `Op.fence_of_body`, `Op.body_of_assigned`: what a layout writes, and
  where its barriers stand;
* `Transaction.marks_perform`: the effects of actions have the marks of the actions;
* `Effect.exists_setFlags`: effects that only assign flags.
-/

namespace X86

/-- An effect without its value. -/
inductive Mark where
  | write (x : Operand)
  | barrier (b : Barrier)
  | flag (n : FlagName)
  deriving DecidableEq

def Effect.mark : Effect → Mark
  | writeReg r _ => .write (.regW r)
  | writeMem m _ => .write (.memW m)
  | barrier b => .barrier b
  | setFlag n _ => .flag n

def Action.marks : Action → List Mark
  | write x _ => [.write x]
  | barrier b => [.barrier b]
  | assign u => u.map fun p => .flag p.1

/-- The assignments of a flag update, in order. -/
def FlagUpdate.effects (u : FlagUpdate) : List Effect :=
  u.map fun p => .setFlag p.1 p.2

@[simp] theorem FlagUpdate.mem_effects_iff {u : FlagUpdate} {f : Effect} :
    f ∈ u.effects ↔ ∃ p ∈ u, f = .setFlag p.1 p.2 := by
  simp [effects, eq_comm]

/-- The write to the operand at a position. -/
def Mark.out (ops : List Operand) (k : Nat) : List Mark :=
  (ops[k]?.map write).toList

namespace Op

variable {op : Op} {w : Width} {ops : List Operand} {x : Operand}

/-- The registers that an operation writes without naming them in an operand, in order. -/
def results (op : Op) (w : Width) : List Reg :=
  match op, w with
  | mulAcc, .w8 => [Gpr.rax.view .w16]
  | mulAcc, w => [Gpr.rax.view w, Gpr.rdx.view w]
  | divAcc, w => [Gpr.rax.view w, Reg.remainder w]
  | _, _ => []

/-- The flags that an operation assigns, in order. -/
def assigned : Op → List FlagName
  | not | mulx => []
  | inc | dec => FlagName.all.erase .cf
  | _ => FlagName.all

/-- What an operation does before it assigns flags. -/
def body (op : Op) (w : Width) (ops : List Operand) : List Mark :=
  match op with
  | cmp | ptest => [.barrier .compiler]
  | test => []
  | not => Mark.out ops 0
  | mulx => Mark.out ops 1 ++ Mark.out ops 0
  | mulAcc | divAcc => (op.results w).map (fun r => .write (.regW r)) ++ [.barrier .compiler]
  | xadd =>
    (if ops[0]?.any Operand.isRegister then [.barrier .storeLoad] else []) ++ Mark.out ops 0 ++
      [.barrier .compiler] ++ Mark.out ops 2 ++ [.barrier .compiler]
  | _ => Mark.out ops 0 ++ [.barrier .compiler]

/-- The effects of an operation without their values. -/
def layout (op : Op) (w : Width) (ops : List Operand) : List Mark :=
  op.body w ops ++ op.assigned.map .flag

/-- A shift by a number of which the processor looks at no set bit. -/
def Idles (op : Op) (w : Width) (s : State) (ops : List Operand) : Prop :=
  (op = shl ∨ op = shr) ∧
    ∃ x l, ops[2]? = some x ∧ s.read x = .ok l ∧ l.low &&& w.countMask = 0

/-- The marks of what an operation does: nothing for a shift by zero, and otherwise its layout. -/
structure LaidOut (op : Op) (w : Width) (s : State) (ops : List Operand) (ms : List Mark) :
    Prop where
  idle : op.Idles w s ops → ms = []
  layout : ¬ op.Idles w s ops → ms = op.layout w ops

theorem LaidOut.of_eq {s : State} {ms : List Mark} (h : op ≠ shl ∧ op ≠ shr)
    (hm : ms = op.layout w ops) : op.LaidOut w s ops ms where
  idle hi := absurd hi.1 (not_or.mpr h)
  layout _ := hm

theorem LaidOut.mem_layout {s : State} {ms : List Mark} (h : op.LaidOut w s ops ms) {k : Mark}
    (hk : k ∈ ms) : k ∈ op.layout w ops := by
  by_cases hi : op.Idles w s ops
  · rw [h.idle hi] at hk
    cases hk
  · exact h.layout hi ▸ hk

theorem idles_iff {s : State} {l : Lanes} (hop : op = shl ∨ op = shr) (h₂ : ops[2]? = some x)
    (hl : s.read x = .ok l) : op.Idles w s ops ↔ l.low &&& w.countMask = 0 := by
  constructor
  · rintro ⟨-, y, l', hy, hl', hz⟩
    cases h₂.symm.trans hy
    cases hl.symm.trans hl'
    exact hz
  · intro hz
    exact ⟨hop, x, l, h₂, hl, hz⟩

/-! ## What a layout contains -/

theorem write_mem_out_iff {k : Nat} : Mark.write x ∈ Mark.out ops k ↔ ops[k]? = some x := by
  simp [Mark.out]

/-- **An operation writes its targets and its results.** -/
theorem write_mem_body_iff : Mark.write x ∈ op.body w ops ↔
    (∃ k ∈ op.targets, ops[k]? = some x) ∨ ∃ r ∈ op.results w, x = .regW r := by
  cases op with
  | mulAcc | divAcc => simp [body, targets, eq_comm]
  | xadd =>
    by_cases hf : ops[0]?.any Operand.isRegister <;>
      simp [body, targets, results, write_mem_out_iff, hf]
  | mulx => simp [body, targets, results, write_mem_out_iff, or_comm]
  | _ => simp [body, targets, results, write_mem_out_iff]

theorem flag_notMem_out {k : Nat} {n : FlagName} : Mark.flag n ∉ Mark.out ops k := by
  simp [Mark.out]

theorem flag_notMem_body {n : FlagName} : Mark.flag n ∉ op.body w ops := by
  cases op with
  | xadd => by_cases hf : ops[0]?.any Operand.isRegister <;> simp [body, flag_notMem_out, hf]
  | _ => simp [body, flag_notMem_out]

theorem barrier_notMem_out {k : Nat} {b : Barrier} : Mark.barrier b ∉ Mark.out ops k := by
  simp [Mark.out]

/-- **Only XADD of a register starts with a full fence**, and it has no other one. -/
theorem fence_of_body (op : Op) (w : Width) (ops : List Operand) :
    if op = xadd ∧ ops[0]?.any Operand.isRegister then
      ∃ rest, op.body w ops = .barrier .storeLoad :: rest ∧ Mark.barrier .storeLoad ∉ rest
    else Mark.barrier .storeLoad ∉ op.body w ops := by
  by_cases h : op = xadd ∧ ops[0]?.any Operand.isRegister
  · obtain ⟨rfl, hf⟩ := h
    rw [if_pos ⟨rfl, hf⟩]
    refine ⟨Mark.out ops 0 ++ [.barrier .compiler] ++ Mark.out ops 2 ++ [.barrier .compiler], ?_,
      by simp [barrier_notMem_out]⟩
    simp [body, hf]
  · rw [if_neg h]
    cases op with
    | xadd =>
      have hf : ¬ ops[0]?.any Operand.isRegister := fun hf => h ⟨rfl, hf⟩
      simp [body, hf, barrier_notMem_out]
    | _ => simp [body, barrier_notMem_out]

/-- **A barrier stands between writes and flags.** -/
theorem body_of_assigned (h : op.assigned ≠ []) (w : Width) (ops : List Operand) :
    (∀ x, Mark.write x ∉ op.body w ops) ∨ ∃ pre, op.body w ops = pre ++ [.barrier .compiler] := by
  cases op with
  | not | mulx => exact absurd rfl h
  | test => exact .inl fun x => List.not_mem_nil
  | cmp | ptest => exact .inr ⟨[], rfl⟩
  | _ => exact .inr ⟨_, rfl⟩

theorem out_of_getElem? {k : Nat} (h : ops[k]? = some x) : Mark.out ops k = [.write x] := by
  rw [Mark.out, h]
  rfl

theorem marks_eq_layout {v : Lanes} {u : FlagUpdate} (h₀ : ops[0]? = some x)
    (hb : op.body w ops = Mark.out ops 0 ++ [.barrier .compiler])
    (hu : u.map Prod.fst = op.assigned) :
    [.write x v, .barrier .compiler, .assign u].flatMap Action.marks = op.layout w ops := by
  rw [layout, hb, out_of_getElem? h₀, ← hu, List.map_map]
  exact congrArg (fun ms => Mark.write x :: .barrier .compiler :: ms) (List.append_nil _)

theorem flag_mem_layout_iff {n : FlagName} : Mark.flag n ∈ op.layout w ops ↔ n ∈ op.assigned := by
  simp [layout, flag_notMem_body]

theorem write_mem_layout_iff : Mark.write x ∈ op.layout w ops ↔ Mark.write x ∈ op.body w ops := by
  simp [layout]

end Op

/-! ## Effects and actions with their marks -/

namespace Transaction

variable {t t' : Transaction} {a : Action} {as : List Action}

theorem marks_act (h : t.act a = .ok t') :
    t'.effects.map Effect.mark = t.effects.map Effect.mark ++ a.marks := by
  rw [effects_act h, List.map_append]
  obtain ⟨r, v, rfl, -⟩ | ⟨m, v, rfl, -, -⟩ | ⟨b, rfl, -⟩ | ⟨u, rfl, -⟩ := act_cases h
  · rfl
  · rfl
  · rfl
  · simp [Action.effects, Action.marks, Effect.mark, Function.comp_def]

/-- **The effects of actions have the marks of the actions.** -/
theorem marks_perform (h : t.perform as = .ok t') :
    t'.effects.map Effect.mark = t.effects.map Effect.mark ++ as.flatMap Action.marks := by
  induction as generalizing t with
  | nil => cases h; simp
  | cons a as ih =>
    obtain ⟨u, hu, h⟩ := perform_cons_eq_ok_iff.mp h
    rw [ih h, marks_act hu, List.flatMap_cons, List.append_assoc]

end Transaction

namespace Effect

variable {fx : List Effect} {ms : List Mark}

theorem exists_setFlags {names : List FlagName} (h : fx.map mark = names.map .flag) :
    ∃ u : FlagUpdate, fx = u.effects ∧ u.map Prod.fst = names := by
  induction fx generalizing names with
  | nil => exact ⟨[], rfl, (List.map_eq_nil_iff.mp h.symm).symm⟩
  | cons f fx ih =>
    cases names with
    | nil => cases h
    | cons n names =>
      obtain ⟨hf, h⟩ := List.cons.inj h
      obtain ⟨u, rfl, rfl⟩ := ih h
      cases f with
      | setFlag n' v => cases hf; exact ⟨(n, v) :: u, rfl, rfl⟩
      | writeReg r v | writeMem m v | barrier b => cases hf

theorem eq_barrier_of_mark {f : Effect} {b : Barrier} (h : f.mark = .barrier b) :
    f = .barrier b := by
  cases f with
  | barrier b' => cases h; rfl
  | writeReg r v | writeMem m v | setFlag n v => cases h

theorem barrier_mem_iff {b : Barrier} :
    Effect.barrier b ∈ fx ↔ Mark.barrier b ∈ fx.map mark := by
  constructor
  · exact List.mem_map_of_mem (f := mark)
  · intro h
    obtain ⟨f, hf, hm⟩ := List.mem_map.mp h
    exact eq_barrier_of_mark hm ▸ hf

theorem exists_setFlag_iff {n : FlagName} :
    (∃ v, Effect.setFlag n v ∈ fx) ↔ Mark.flag n ∈ fx.map mark := by
  constructor
  · rintro ⟨v, hv⟩
    exact List.mem_map_of_mem (f := mark) hv
  · intro h
    obtain ⟨f, hf, hm⟩ := List.mem_map.mp h
    cases f with
    | setFlag n' v => cases hm; exact ⟨v, hf⟩
    | writeReg r v | writeMem m v | barrier b => cases hm

theorem writes_iff_mark {f : Effect} : f.isWrite ↔ ∃ x, f.mark = .write x := by
  cases f <;> simp [isWrite, mark]

end Effect

end X86
