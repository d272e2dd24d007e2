import X86.Proofs.FetchAdd
import X86.Proofs.Product

/-!
# Divisions undo multiplications

The accumulator forms of MUL and IMUL leave a product of double width where DIV and IDIV look for
their dividend. So a division by the factor gives the accumulator back, and no remainder. The
quotient is always in range, whatever the factors are.

* `Sign.multiply`: the mnemonic of the multiplication that a division undoes;
* `Sign.ofBits_mul`: the bits of double width stand for the product;
* `Transaction.dividend_product`: the dividend that a multiplication leaves behind;
* `Operand.IsFactor`, `Op.not_names_of_parts`: the operands that a multiplication keeps;
* `Machine.call_multiply`, `Machine.call_divide`: the two calls;
* **`Machine.divide_multiply`**: a multiplication and the division after it.
-/

namespace X86

namespace Sign

/-- The mnemonic of the multiplication of the accumulator. -/
def multiply : Sign → String
  | unsigned => "MUL"
  | signed => "IMUL"

variable {w : Width}

theorem eq_of_multiply {op : Op} {s sg : Sign}
    (h : (sg.multiply, 1, op, s) ∈ Op.multiplications) : op = .mulAcc ∧ s = sg := by
  have key : ∀ q ∈ Op.multiplications, q.1 = sg.multiply → q.2.1 = 1 →
      q.2.2.1 = .mulAcc ∧ q.2.2.2 = sg := by
    cases sg <;> decide
  exact key _ h rfl rfl

theorem ofBits_mul (hw : w.isScalar) (s : Sign) (a b : Word) {k : Nat}
    (h : (k : Int) = s.value w a * s.value w b % 2 ^ (2 * w.bits)) :
    s.ofBits (2 * w.bits) k = s.value w a * s.value w b := by
  have ha := s.inRange_value w a
  have hb := s.inRange_value w b
  have hpow : (2 : Int) ^ (2 * w.bits) = 2 ^ w.bits * 2 ^ w.bits := by rw [two_mul, pow_add]
  cases s with
  | unsigned =>
    rw [inRange_unsigned, Width.scalarBits_eq_bits hw] at ha hb
    rw [ofBits]
    push_cast
    rw [h, Int.emod_emod, Int.emod_eq_of_lt (mul_nonneg ha.1 hb.1)]
    rw [hpow]
    exact mul_lt_mul'' ha.2 hb.2 ha.1 hb.1
  | signed =>
    rw [inRange_signed, Width.scalarBits_eq_bits hw] at ha hb
    have hhalf : (2 : Int) ^ w.bits = 2 * 2 ^ (w.bits - 1) := by exact_mod_cast w.two_pow_bits
    have hp : (0 : Int) < 2 ^ (w.bits - 1) := by positivity
    have habs := abs_le.mp (abs_signed_mul_le w a b)
    rw [Width.scalarBits_eq_bits hw] at habs
    have hcast : ((2 ^ (2 * w.bits) : Nat) : Int) = 2 ^ (2 * w.bits) := by push_cast; rfl
    have hfour : (2 : Int) ^ (2 * w.bits) = 4 * (2 ^ (w.bits - 1) * 2 ^ (w.bits - 1)) := by
      rw [hpow, hhalf]
      ring
    have hpp := mul_pos hp hp
    rw [ofBits, h, ← hcast, Int.emod_bmod]
    exact Int.bmod_eq_of_le (by omega) (by omega)

end Sign

/-! ## The dividend behind a product -/

variable {s : State} {o : Options} {w : Width}

theorem State.Holds.get_emod {g : Gpr} {n : Int} (hw : w.isScalar)
    (h : s.Holds (.reg (g.view w)) n) : (((s.regs.get g).toNat % 2 ^ w.bits : Nat) : Int) = n := by
  obtain ⟨l, hl, rfl⟩ := h
  cases hl
  rw [← s.regs.number_view hw g]
  rfl

theorem Transaction.dividend_product {t : Transaction} {sg : Sign} {op : Op} {a b : Word}
    {ops : List Operand} {parts : List (Operand × Word)} (hw : w.isScalar)
    (hparts : Op.mulAcc.parts? w ops (sg.value w a * sg.value w b) = some parts)
    (h : (begin s o).perform (op.productActions sg w (sg.value w a * sg.value w b) parts) = .ok t) :
    (Effect.replay s t.effects).regs.dividend sg w = sg.value w a * sg.value w b := by
  refine Sign.ofBits_mul hw sg a b ?_
  by_cases h8 : w = .w8
  · subst h8
    rw [if_pos rfl]
    exact (perform_byte hparts h).1.get_emod rfl
  · obtain ⟨hlow, hhigh⟩ := perform_split hw h8 hparts h
    rw [if_neg h8, Int.natCast_add, Int.natCast_mul, hlow.get_emod hw, hhigh.get_emod hw]
    push_cast
    exact Int.ediv_mul_add_emod _ _

theorem RegFile.read_view (r : RegFile) (hw : w.isScalar) (g : Gpr) :
    r.read (g.view w) = .ofWord (w.trunc (r.get g)) := by
  apply BitVec.eq_of_toNat_eq
  rw [Lanes.toNat_ofWord, Width.toNat_trunc, Width.scalarBits_eq_bits hw, ← r.number_view hw]
  rfl

/-! ## The factors that a multiplication keeps -/

namespace Operand

variable {x : Operand} {l : Lanes}

/-- An operand in memory or in a general purpose register other than RAX and RDX. -/
def IsFactor (x : Operand) : Prop :=
  x.memory?.isSome ∨ ∃ g p, x.register? = some (.gpr g p) ∧ g ≠ .rax ∧ g ≠ .rdx

theorem IsFactor.not_names (h : x.IsFactor) :
    ¬ x.Names (.slot (.gpr .rax)) ∧ ¬ x.Names (.slot (.gpr .rdx)) := by
  rcases h with h | ⟨g, p, h, ha, hd⟩
  · cases x with
    | reg r | regW r | imm v w => cases h
    | mem y | memW y => exact ⟨id, id⟩
  · cases x with
    | reg r | regW r =>
      cases h
      exact ⟨fun hn => ha (Slot.gpr.inj hn), fun hn => hd (Slot.gpr.inj hn)⟩
    | imm v w | mem y | memW y => cases h

theorem toNat_lt_of_read (hw : x.width.isScalar) (h : s.read x = .ok l) :
    l.toNat < 2 ^ x.width.bits := by
  cases x with
  | reg r | regW r =>
    cases h
    exact s.regs.number_lt r
  | mem y | memW y =>
    rw [← Width.pow_bytes]
    exact Memory.number_lt (Memory.number_eq_ok_iff.mpr ⟨l, h, rfl⟩)
  | imm v w =>
    cases h
    rw [Lanes.toNat_ofWord]
    exact Width.scalarBits_eq_bits hw ▸ w.toNat_trunc_lt v

theorem value_ne_zero {sg : Sign} (hw : x.width.isScalar) (h : s.read x = .ok l) (h₀ : l ≠ 0) :
    sg.value x.width l.low ≠ 0 := by
  rw [ne_eq, Sign.value_eq_zero_iff]
  intro hz
  refine h₀ (BitVec.eq_of_toNat_eq ?_)
  rw [← Lanes.toNat_trunc_low hw (toNat_lt_of_read hw h), hz]
  rfl

end Operand

theorem Op.not_names_of_parts {ops : List Operand} {n : Int} {parts : List (Operand × Word)}
    {p : Place} (h : mulAcc.parts? w ops n = some parts) (ha : p ≠ .slot (.gpr .rax))
    (hd : p ≠ .slot (.gpr .rdx)) : ∀ q ∈ parts, ¬ q.1.Names p := by
  have hnames : ∀ (g : Gpr) v, p ≠ .slot (.gpr g) → ¬ (Operand.regW (g.view v)).Names p := by
    intro g v hg hn
    cases p with
    | slot r => exact hg (congrArg Place.slot ((Gpr.slot_view g v).symm.trans hn).symm)
    | byte a => exact hn
  rw [parts?] at h
  by_cases h8 : w = .w8
  · rw [if_pos h8] at h
    cases h
    simpa using hnames .rax _ ha
  · rw [if_neg h8] at h
    cases h
    simpa using ⟨hnames .rax _ ha, hnames .rdx _ hd⟩

namespace Machine

variable {m : Machine} {c : Call} {e : Entry} {x : Operand} {l : Lanes}

/-- **A multiplication of the accumulator** succeeds, and leaves its exact product as a dividend.
Its factor stays, unless it is in one of the registers for the product. -/
theorem call_multiply (hsel : c.select m.table = .ok e) (hop : e.op = .mulAcc)
    (hw : e.width.isScalar) (hc : e.shape.check [x] = .ok ()) (hops : c.operands = [x])
    (hs : x.width.isScalar) (hl : m.state.read x = .ok l) :
    let r := m.call c
    let s := r.machine.state
    r.succeeded ∧ r.faults = [] ∧
      s.regs.dividend e.sign e.width =
        e.sign.value e.width (m.state.regs.get .rax) * e.sign.value e.width l.low ∧
      (x.IsFactor → s.read x = .ok l) ∧ r.machine.table = m.table := by
  intro r s
  have hlen : e.shape.length = e.op.arity := by
    rw [hop, Shape.length_of_check hc]
    rfl
  have hready : e.op.Ready m.state m.options (e.invoke [x]) := by
    rw [hop]
    refine ⟨fun k hk y hy => ?_, nofun, ?_, fun _ => hw, nofun⟩
    · obtain rfl : k = 0 := List.mem_singleton.mp hk
      cases hy
      exact ⟨State.exists_read_iff.mp ⟨l, hl⟩, fun _ => hs⟩
    · rintro (h | h) <;> cases h
  have hok : r.succeeded := by
    have hr : r = m.execEntry e [x] := hops ▸ call_of_select hsel
    rw [hr, succeeded_iff_ready hlen hc, hop]
    exact ⟨hop ▸ hready, .inr nofun⟩
  obtain ⟨fx, hfx⟩ := Response.succeeded_iff.mp hok
  obtain ⟨e', t, hsel', -, ht, rfl, hfaults, hm⟩ := call_of_ok hfx
  cases hsel.symm.trans hsel'
  rw [hops] at ht
  obtain ⟨as, has, hp⟩ := Op.eval_eq_ok_iff.mp ht
  obtain ⟨n, parts, hn, hparts, rfl⟩ :=
    Op.multiplies (i := e.invoke [x]) (by rw [hop]; decide) hw has
  rw [hop] at hn hparts
  obtain rfl : e.sign.value e.width (m.state.regs.get .rax) * e.sign.value e.width l.low = n := by
    have hx := State.value?_of_read e.sign e.width (o := m.options)
      (Transaction.read_begin.mpr ⟨hs, l, hl, rfl⟩)
    have ha := State.value?_of_read e.sign e.width (o := m.options)
      (Invocation.run_view (s := m.state) hw .rax)
    have hprod : Op.mulAcc.product? e.sign e.width m.state [x] = some n := hn
    simpa [Op.product?, hx, ha, Sign.value_trunc] using hprod
  have hstate : s = Effect.replay m.state t.effects := congrArg Machine.state hm
  refine ⟨hok, hfaults, ?_, fun hx => ?_, congrArg (·.table) hm⟩
  · rw [hstate]
    exact Transaction.dividend_product hw hparts hp
  · rw [hstate, ← hl]
    refine State.read_congr fun p hxp => Transaction.agreesAt_product hp ?_
    obtain ⟨ha, hd⟩ := hx.not_names
    refine Op.not_names_of_parts hparts ?_ ?_
    · rintro rfl
      exact ha hxp
    · rintro rfl
      exact hd hxp

/-- **A division of a product by one of its factors** succeeds and leaves the other factor. -/
theorem call_divide {a : Word} (hsel : c.select m.table = .ok e) (hop : e.op = .divAcc)
    (hw : e.width.isScalar) (hc : e.shape.check c.operands = .ok ())
    (h₀ : c.operands[0]? = some x) (hs : x.width.isScalar) (hl : m.state.read x = .ok l)
    (hd : e.sign.value e.width l.low ≠ 0)
    (hn : m.state.regs.dividend e.sign e.width =
      e.sign.value e.width a * e.sign.value e.width l.low) :
    let r := m.call c
    let regs := r.machine.state.regs
    r.succeeded ∧ r.faults = [] ∧ regs.read (Gpr.rax.view e.width) = .ofWord (e.width.trunc a) ∧
      regs.read (Reg.remainder e.width) = 0 := by
  intro r regs
  obtain ⟨high, low, hres⟩ := result_division hsel hop hw hc h₀ hs hl
  have hq : (m.state.regs.dividend e.sign e.width).tdiv (e.sign.value e.width l.low) =
      e.sign.value e.width a := by
    rw [hn, Int.mul_tdiv_cancel _ hd]
  have hr : (m.state.regs.dividend e.sign e.width).tmod (e.sign.value e.width l.low) = 0 := by
    rw [hn, Int.mul_tmod_left]
  -- the quotient is the value of a word, so the range check finds nothing
  rw [if_neg hd, hq, hr, if_neg fun h => h.2 (Sign.inRange_value _ _ _),
    Sign.trunc_ofInt_value] at hres
  obtain ⟨_, _, -, -, -, -, hfaults, -⟩ := call_of_ok hres
  obtain ⟨hquot, hrem, -⟩ := replay_divisionEffects hw m.state a (.ofInt 64 0)
  rw [← state_of_ok hres] at hquot hrem
  refine ⟨Response.succeeded_iff.mpr ⟨_, hres⟩, hfaults, hquot, hrem.trans ?_⟩
  cases e.width <;> rfl

/-- **Divisions undo multiplications.** If the accumulator is multiplied by a factor that is not
zero and then divided by it, with or without signs, then both calls succeed and none of them faults,
whatever the options are. The accumulator has its old content again, and the remainder is zero. -/
theorem divide_multiply {o : Options} {sg : Sign} {mul div : String} {e₁ e₂ : Entry}
    (hb : Table.build Rows.all o = .ok m.table) (hg₁ : m.table.get? mul = some e₁)
    (hg₂ : m.table.get? div = some e₂) (hmul : e₁.key.mnemonic = sg.multiply)
    (hdiv : e₂.key.mnemonic = sg.divide) (hw₁ : e₁.width = x.width) (hw₂ : e₂.width = x.width)
    (hc₁ : e₁.shape.check [x] = .ok ()) (hc₂ : e₂.shape.check [x] = .ok ()) (hx : x.IsFactor)
    (hl : m.state.read x = .ok l) (h₀ : l ≠ 0) :
    let p := m.call (.key mul [x])
    let q := p.machine.call (.key div [x])
    let regs := q.machine.state.regs
    p.succeeded ∧ p.faults = [] ∧ q.succeeded ∧ q.faults = [] ∧
      regs.read (Gpr.rax.view x.width) = m.state.regs.read (Gpr.rax.view x.width) ∧
      regs.read (Reg.remainder x.width) = 0 := by
  intro p q regs
  obtain ⟨hop₁, hsg₁⟩ : e₁.op = .mulAcc ∧ e₁.sign = sg := by
    have hop := (Table.mem_products_iff hb hg₁).mpr (by rw [hmul]; cases sg <;> decide)
    have hmem := Table.mem_multiplications hb hg₁ hop
    rw [hmul, Shape.length_of_check hc₁] at hmem
    exact Sign.eq_of_multiply hmem
  obtain ⟨hop₂, hsg₂⟩ := (Table.division_iff hb hg₂ sg).mpr hdiv
  have hw : x.width.isScalar := hw₁ ▸ Table.isScalar_of_word hb hg₁ (by rw [hop₁]; rfl)
  have hsel (n : Machine) {k : String} {e : Entry} (h : n.table.get? k = some e) :
      (Call.key k [x]).select n.table = .ok e := by
    rw [Call.select, Table.lookup, h]
  obtain ⟨hok, hfaults, hprod, hkeep, ht⟩ :=
    call_multiply (hsel m hg₁) hop₁ (hw₁ ▸ hw) hc₁ rfl hw hl
  rw [hsg₁, hw₁, ← hw₂, ← hsg₂] at hprod
  have hd : e₂.sign.value e₂.width l.low ≠ 0 := hw₂ ▸ Operand.value_ne_zero hw hl h₀
  obtain ⟨hok', hfaults', hquot, hrem⟩ := call_divide (hsel p.machine (ht ▸ hg₂)) hop₂ (hw₂ ▸ hw)
    hc₂ rfl hw (hkeep hx) hd hprod
  rw [hw₂] at hquot hrem
  exact ⟨hok, hfaults, hok', hfaults', hquot.trans (m.state.regs.read_view hw .rax).symm, hrem⟩

/-- The form IDIV of a byte in memory, as an entry of a table. -/
def idivByteEntry : Entry where
  key := ⟨"IDIV", "MEMb", .w8⟩
  name := "IDIV_MEMb_8"
  op := .divAcc
  sign := .signed
  width := .w8
  shape := [.m]
  mode := .any
  extension := .base

/-- The form IMUL of a byte in memory, as an entry of a table. -/
def imulByteEntry : Entry :=
  { idivByteEntry with key := ⟨"IMUL", "MEMb", .w8⟩, name := "IMUL_MEMb_8", op := .mulAcc }

/-- -128 times -1 is no signed byte, but it can be divided by -1 again. -/
theorem divide_multiply_least :
    let x : Operand := .mem ⟨0, .w8⟩
    let s : State := { regs := ({} : RegFile).set .rax 0x80, mem := ({} : Memory).put 0 0xff }
    ∃ t, Table.build Rows.all {} = .ok t ∧
      let m : Machine := { state := s, table := t }
      let p := m.call (.key "IMUL_MEMb_8" [x])
      let q := p.machine.call (.key "IDIV_MEMb_8" [x])
      q.succeeded ∧ q.machine.state.regs.read (Gpr.rax.view .w8) = 0x80 := by
  intro x s
  have hl : s.read x = .ok 0xff := by decide +kernel +zetaReduce
  have hacc : s.regs.read (Gpr.rax.view .w8) = 0x80 := by decide +kernel +zetaReduce
  have hr : { stem := "IMUL_MEMb", op := .mulAcc, sign := .signed, shape := [.m],
              sizes := .byte } ∈ Rows.all := by
    decide +kernel
  have hr' : { stem := "IDIV_MEMb", op := .divAcc, sign := .signed, shape := [.m],
               sizes := .byte } ∈ Rows.all := by
    decide +kernel
  obtain ⟨t, ht⟩ := Table.exists_build {}
  have hg : t.get? "IMUL_MEMb_8" = some imulByteEntry :=
    Table.get?_of_ofRow (p := (.w8, .any)) ht hr (by decide) rfl
  have hg' : t.get? "IDIV_MEMb_8" = some idivByteEntry :=
    Table.get?_of_ofRow (p := (.w8, .any)) ht hr' (by decide) rfl
  obtain ⟨-, -, hok, -, hquot, -⟩ := @divide_multiply ⟨s, {}, t, 0⟩ x 0xff _ .signed _ _ _ _ ht hg
    hg' rfl rfl rfl rfl rfl rfl (.inl rfl) hl (by decide)
  exact ⟨t, ht, hok, hquot.trans hacc⟩

end Machine

end X86
