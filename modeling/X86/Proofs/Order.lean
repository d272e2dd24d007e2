import X86.Proofs.Forms
import X86.Proofs.Selection

/-!
# The order of effects

The effects of an executed instruction stand in a fixed order: writes and barriers come first, and
one block of assignments to flags follows, in ascending order of their bits. Between the last write
and the block stands a barrier. A full fence occurs only at the start of XADD on a register.

* `Op.LaidOut.split`: the two parts of a list of effects with known marks;
* `Op.pairwise_assigned`, `Op.assigned_eq_nil_iff`, `Op.assigned_eq_erase_iff`: the block;
* `Op.compiler_mem_of_write`, `Op.fence_mem_iff`: the barriers;
* `Machine.exchange_of_ok`: the two writes of XADD;
* **`Machine.effects_in_order`**: the order of the effects of an executed entry.
-/

namespace X86

namespace Op

variable {op : Op} {w : Width} {s : State} {ops : List Operand} {fx body : List Effect}

/-! ## The block of flags -/

/-- **Effects fall into two parts**: what an operation does, and the flags that it assigns. -/
theorem LaidOut.split (h : op.LaidOut w s ops (fx.map Effect.mark)) :
    ∃ (body : List Effect) (u : FlagUpdate), fx = body ++ u.effects ∧
      (op.Idles w s ops → body = [] ∧ u = []) ∧
      (¬ op.Idles w s ops →
        body.map Effect.mark = op.body w ops ∧ u.map Prod.fst = op.assigned) := by
  by_cases hi : op.Idles w s ops
  · have hfx : fx = [] := List.map_eq_nil_iff.mp (h.idle hi)
    exact ⟨[], [], hfx, fun _ => ⟨rfl, rfl⟩, fun hn => absurd hi hn⟩
  · obtain ⟨body, flags, rfl, hb, hf⟩ := List.map_eq_append_iff.mp (h.layout hi)
    obtain ⟨u, rfl, hu⟩ := Effect.exists_setFlags hf
    exact ⟨body, u, rfl, fun hi' => absurd hi' hi, fun _ => ⟨hb, hu⟩⟩

theorem pairwise_assigned (op : Op) : op.assigned.Pairwise fun n k => n.mask < k.mask := by
  cases op <;> decide

theorem assigned_cases (op : Op) :
    op.assigned = FlagName.all ∨ op.assigned = FlagName.all.erase .cf ∨ op.assigned = [] := by
  cases op <;> decide

theorem assigned_eq_nil_iff : op.assigned = [] ↔ op ∈ [not, mulx] := by
  cases op <;> decide

theorem assigned_eq_erase_iff : op.assigned = FlagName.all.erase .cf ↔ op ∈ [inc, dec] := by
  cases op <;> decide

theorem setFlag_notMem_body (hb : body.map Effect.mark = op.body w ops) (n : FlagName) (v : Flag) :
    Effect.setFlag n v ∉ body := by
  intro h
  have hm : Mark.flag n ∈ op.body w ops := hb ▸ List.mem_map_of_mem (f := Effect.mark) h
  exact flag_notMem_body hm

/-! ## Barriers -/

/-- **A barrier follows every write** of an operation that assigns flags. -/
theorem compiler_mem_of_write (hb : body.map Effect.mark = op.body w ops) (ha : op.assigned ≠ [])
    {pre post : List Effect} {f : Effect} (he : body = pre ++ f :: post) (hf : f.isWrite) :
    Effect.barrier .compiler ∈ post := by
  obtain ⟨x, hx⟩ := Effect.writes_iff_mark.mp hf
  subst he
  rcases body_of_assigned ha w ops with h | ⟨ms, h⟩
  · refine absurd ?_ (h x)
    rw [← hb, ← hx]
    exact List.mem_map_of_mem (by simp)
  · -- The last effect of the body is a barrier, so it is not the write but stands behind it.
    rw [h] at hb
    rcases List.eq_nil_or_concat' post with rfl | ⟨init, g, rfl⟩
    · rw [List.map_append] at hb
      have hlast := (List.append_inj' hb rfl).2
      rw [List.map_singleton, hx] at hlast
      cases hlast
    · rw [← List.cons_append, ← List.append_assoc, List.map_append] at hb
      have hlast := List.singleton_inj.mp (List.append_inj' hb rfl).2
      exact Effect.eq_barrier_of_mark hlast ▸ List.mem_append_right _ (List.mem_singleton_self _)

/-- **A full fence** stands in front of XADD on a register, and nowhere else. -/
theorem fence_mem_iff (hb : body.map Effect.mark = op.body w ops) :
    Effect.barrier .storeLoad ∈ body ↔ op = xadd ∧ ops[0]?.any Operand.isRegister := by
  have hf := fence_of_body op w ops
  rw [Effect.barrier_mem_iff, hb]
  split at hf
  · obtain ⟨rest, hr, -⟩ := hf
    exact iff_of_true (hr ▸ List.mem_cons_self) ‹_›
  · exact iff_of_false hf ‹_›

theorem fence_first (hb : body.map Effect.mark = op.body w ops)
    (h : Effect.barrier .storeLoad ∈ body) :
    ∃ rest, body = .barrier .storeLoad :: rest ∧ Effect.barrier .storeLoad ∉ rest := by
  have hf := fence_of_body op w ops
  rw [if_pos ((fence_mem_iff hb).mp h), ← hb] at hf
  obtain ⟨ms, hms, hn⟩ := hf
  obtain ⟨f, rest, rfl, hf, rfl⟩ := List.map_eq_cons_iff.mp hms
  exact ⟨rest, by rw [Effect.eq_barrier_of_mark hf], mt Effect.barrier_mem_iff.mp hn⟩

end Op

/-! ## Executed entries -/

theorem Transaction.exists_writing_of_perform {t t' : Transaction} {as : List Action}
    (h : t.perform as = .ok t') {x : Operand} {v : Lanes} (hx : .write x v ∈ as) :
    ∃ f, x.writing v = some f := by
  have hm : Mark.write x ∈ as.flatMap Action.marks :=
    List.mem_flatMap.mpr ⟨_, hx, List.mem_singleton_self _⟩
  have hw := (ends_perform.exists_iff.mp ⟨t', h⟩ x hm).2
  cases x with
  | regW r | memW m => exact ⟨_, rfl⟩
  | reg r | mem m | imm v w => cases hw

namespace Machine

variable {m : Machine} {e : Entry} {ops : List Operand} {fx : List Effect}

/-- **XADD writes the sum first**, and behind a barrier the old value of its first source. -/
theorem exchange_of_ok (hop : e.op = .xadd) (h : (m.execEntry e ops).result = .ok fx) :
    ∃ (pre post : List Effect) (x y : Operand) (wx wy : Effect) (a b : Word),
      ops[0]? = some x ∧ ops[2]? = some y ∧
      m.state.source? e.width ops 1 = some a ∧ m.state.source? e.width ops 3 = some b ∧
      x.writing (.ofWord (e.width.trunc (a + b))) = some wx ∧ y.writing (.ofWord a) = some wy ∧
      fx = pre ++ wx :: .barrier .compiler :: wy :: post ∧
      (∀ f ∈ pre, f.isWrite = false) ∧ ∀ f ∈ post, f.isWrite = false := by
  obtain ⟨e', t, he, -, ht, rfl, -, -⟩ := call_of_ok (c := .entry e ops) h
  cases he
  obtain ⟨as, has, hperf⟩ := Op.eval_eq_ok_iff.mp ht
  rw [hop] at has
  obtain ⟨a, b, x, y, ha, hb, hx, hy, rfl⟩ := Invocation.run_exchangeAdd has
  generalize FlagUpdate.arith _ _ _ _ _ _ = u at hperf
  obtain ⟨wx, hwx⟩ := Transaction.exists_writing_of_perform hperf
    (List.mem_append_right _ List.mem_cons_self)
  obtain ⟨wy, hwy⟩ := Transaction.exists_writing_of_perform hperf
    (List.mem_append_right _ (List.mem_cons_of_mem _ (List.mem_cons_of_mem _ List.mem_cons_self)))
  have hfx : t.effects = (if x.isRegister then [.barrier .storeLoad] else []) ++
      wx :: .barrier .compiler :: wy :: .barrier .compiler :: u.effects := by
    rw [Transaction.effects_perform hperf, List.flatMap_append]
    simp only [List.flatMap_cons, List.flatMap_nil, Action.effects, hwx, hwy, List.append_nil]
    split <;> rfl
  refine ⟨_, _, x, y, wx, wy, a, b, hx, hy, ha, hb, hwx, hwy, hfx, ?_, ?_⟩
  · split <;> simp [Effect.isWrite]
  · rw [List.forall_mem_cons]
    refine ⟨rfl, fun f hf => ?_⟩
    obtain ⟨p, -, rfl⟩ := FlagUpdate.mem_effects_iff.mp hf
    rfl

variable {t : Table} {o : Options} {name : String}

/-- **Effects are in order.** The effects of an executed entry, also at another width or with
another signedness, end with a block of assignments to flags in ascending order: to all flags, or
for INC and DEC to all but the carry flag, or for NOT, MULX and shifts by zero to none. A compiler
barrier stands between every write and the block. A full fence stands in front of XADD on a register
and nowhere else. XADD writes the sum, and behind a compiler barrier its old first source. -/
theorem effects_in_order (ht : Table.build Rows.all o = .ok t) (he : t.get? name = some e)
    (w : Width) (sg : Sign)
    (hok : (m.execEntry { e with width := w, sign := sg } ops).result = .ok fx) :
    let mn := e.key.mnemonic
    ∃ (body : List Effect) (u : FlagUpdate), fx = body ++ u.effects ∧
      (∀ n v, .setFlag n v ∉ body) ∧
      (u.map Prod.fst).Pairwise (fun n k => n.mask < k.mask) ∧
      (u.map Prod.fst = FlagName.all ∨ u.map Prod.fst = FlagName.all.erase .cf ∨ u = []) ∧
      (u.map Prod.fst = FlagName.all.erase .cf ↔ mn = "INC" ∨ mn = "DEC") ∧
      (u = [] ↔ mn = "NOT" ∨ mn = "MULX" ∨ e.op.Idles w m.state ops) ∧
      (u ≠ [] → ∀ (pre post : List Effect) (f : Effect), body = pre ++ f :: post → f.isWrite →
        .barrier .compiler ∈ post) ∧
      (.barrier .storeLoad ∈ fx ↔ mn = "XADD" ∧
        ∃ x : Operand, ops[0]? = some x ∧ x.isRegister) ∧
      (.barrier .storeLoad ∈ fx →
        ∃ rest, fx = .barrier .storeLoad :: rest ∧ .barrier .storeLoad ∉ rest) ∧
      (mn = "XADD" →
        ∃ (pre post : List Effect) (x y : Operand) (wx wy : Effect) (a b : Word),
        ops[0]? = some x ∧ ops[2]? = some y ∧
        m.state.source? w ops 1 = some a ∧ m.state.source? w ops 3 = some b ∧
        x.writing (.ofWord (w.trunc (a + b))) = some wx ∧ y.writing (.ofWord a) = some wy ∧
        fx = pre ++ wx :: .barrier .compiler :: wy :: post ∧
        (∀ f ∈ pre, f.isWrite = false) ∧ ∀ f ∈ post, f.isWrite = false) := by
  intro mn
  have hstep : e.op ∈ [.inc, .dec] ↔ mn = "INC" ∨ mn = "DEC" :=
    (Table.op_mem_iff ht he (by intro op s; cases op <;> cases s <;> decide)).trans List.mem_pair
  have hnone : e.op ∈ [.not, .mulx] ↔ mn = "NOT" ∨ mn = "MULX" :=
    (Table.op_mem_iff ht he (by intro op s; cases op <;> cases s <;> decide)).trans List.mem_pair
  have hxadd : e.op ∈ [.xadd] ↔ mn = "XADD" :=
    (Table.op_mem_iff ht he (by intro op s; cases op <;> cases s <;> decide)).trans
      List.mem_singleton
  have hlen := Table.arity_of_build ht he
  obtain ⟨body, u, hfx, hidle, hbody⟩ :=
    (laidOut_of_ok (e := { e with width := w, sign := sg }) hlen hok).split
  refine ⟨body, u, hfx, ?_⟩
  by_cases hi : e.op.Idles w m.state ops
  · -- A shift by zero has no effects, and its mnemonic is none of those that are named here.
    obtain ⟨rfl, rfl⟩ := hidle hi
    obtain rfl : fx = [] := hfx
    have hop : e.op ∉ [.inc, .dec] ∧ e.op ∉ [.xadd] := by
      rcases hi.1 with h | h <;> rw [h] <;> decide
    exact ⟨fun _ _ => List.not_mem_nil, .nil, .inr (.inr rfl),
      iff_of_false (by decide) (mt hstep.mpr hop.1), iff_of_true rfl (.inr (.inr hi)),
      fun h => absurd rfl h, iff_of_false List.not_mem_nil fun h => hop.2 (hxadd.mpr h.1),
      fun h => absurd h List.not_mem_nil, fun h => absurd (hxadd.mpr h) hop.2⟩
  · obtain ⟨hb, hu⟩ := hbody hi
    have hnil : u = [] ↔ e.op.assigned = [] := by rw [← hu, List.map_eq_nil_iff]
    have hfence : Effect.barrier .storeLoad ∈ fx ↔ Effect.barrier .storeLoad ∈ body := by
      simp [hfx]
    refine ⟨Op.setFlag_notMem_body hb, hu ▸ e.op.pairwise_assigned, ?_, ?_, ?_,
      fun hne pre post f => Op.compiler_mem_of_write hb (mt hnil.mpr hne), ?_, fun h => ?_,
      fun h => ?_⟩
    · rw [hnil, hu]
      exact e.op.assigned_cases
    · rw [hu, ← hstep]
      exact Op.assigned_eq_erase_iff
    · rw [hnil, ← or_assoc, ← hnone, or_iff_left hi]
      exact Op.assigned_eq_nil_iff
    · rw [hfence, Op.fence_mem_iff hb, ← hxadd, List.mem_singleton, Option.any_eq_true]
    · obtain ⟨rest, rfl, hrest⟩ := Op.fence_first hb (hfence.mp h)
      exact ⟨_, hfx, by simpa using hrest⟩
    · exact exchange_of_ok (e := { e with width := w, sign := sg })
        (List.mem_singleton.mp (hxadd.mpr h)) hok

/-- The form XADD of two byte registers. -/
def xaddRow : Row :=
  { stem := "XADD_GPR8_GPR8", op := .xadd, shape := [.rw, .r, .rw, .r], sizes := .byte }

/-- The form XADD of two byte registers, as an entry of a table. -/
def xaddEntry : Entry where
  key := ⟨"XADD", "GPR8_GPR8", .w8⟩
  name := "XADD_GPR8_GPR8_8"
  op := .xadd
  sign := .unsigned
  width := .w8
  shape := [.rw, .r, .rw, .r]
  mode := .any
  extension := .base

/-- XADD of AX and BX, which is the form of byte registers at another width, starts with its only
full fence and ends with assignments to all flags. -/
theorem effects_in_order_xadd :
    let ax : Reg := .gpr .rax .word
    let bx : Reg := .gpr .rbx .word
    ∃ (fx body : List Effect) (u : FlagUpdate),
      (({} : Machine).execEntry { xaddEntry with width := .w16, sign := .signed }
        [.regW ax, .reg ax, .regW bx, .reg bx]).result = .ok fx ∧
      fx = body ++ u.effects ∧ u.map Prod.fst = FlagName.all ∧
      ∃ rest, fx = .barrier .storeLoad :: rest ∧ .barrier .storeLoad ∉ rest := by
  intro ax bx
  obtain ⟨t, ht⟩ := Table.exists_build {}
  have hr : xaddRow ∈ Rows.all := by
    have h : xaddRow ∈ Rows.exchange := by decide
    delta Rows.all
    simp only [List.mem_append, h, true_or, or_true]
  have he : t.get? "XADD_GPR8_GPR8_8" = some xaddEntry :=
    Table.get?_of_ofRow (p := (.w8, .any)) ht hr (by decide) rfl
  have hs : (({} : Machine).execEntry { xaddEntry with width := .w16, sign := .signed }
      [.regW ax, .reg ax, .regW bx, .reg bx]).succeeded := by decide +kernel
  obtain ⟨fx, hok⟩ := Response.succeeded_iff.mp hs
  obtain ⟨body, u, hfx, -, -, hall, hstep, hnil, -, hfence, hfirst, -⟩ :=
    effects_in_order ht he .w16 .signed hok
  refine ⟨fx, body, u, hok, hfx, ?_, hfirst (hfence.mpr ⟨rfl, _, rfl, rfl⟩)⟩
  rcases hall with h | h | h
  · exact h
  · exact absurd (hstep.mp h) (by decide)
  · rcases hnil.mp h with h | h | h
    · exact absurd h (by decide)
    · exact absurd h (by decide)
    · exact absurd h.1 (by decide)

end Machine

end X86
