import X86.Proofs.Forms
import X86.Proofs.Locality
import X86.Proofs.Selection

/-!
# Multiplications

MUL, IMUL and MULX multiply the integers that their two factors stand for. They read both factors
before they write, and what they write are the parts of the exact product.

* `Product.ofInt`, `Product.ofFactors_eq`: the halves of an integer are what instructions form;
* `Op.product?`, `Op.parts?`, `Sign.productFlag`: the exact product in a state, where its parts go,
  and its flags;
* `Table.mem_products_iff`, `Op.multiplications`, `Table.mem_multiplications`: the entries that are
  meant, and what their mnemonic and the number of their operands tell;
* `Op.multiplies`: what these instructions do with their product;
* `State.Holds`, `Transaction.holds_of_perform`: what is written last stays;
* **`Machine.product_exact`**: the effects of an executed multiplication.
-/

namespace X86

/-! ## The halves of a product -/

namespace Product

variable {s : Sign} {w : Width} {n : Int}

/-- The halves of an integer. -/
def ofInt (s : Sign) (w : Width) (n : Int) : Product where
  low := w.trunc (.ofInt 64 n)
  high := w.trunc (.ofInt 64 (n / 2 ^ w.bits))
  lost := ¬ s.InRange w n

theorem toNat_high (hw : w.isScalar) (a b : Word) :
    let n := Sign.unsigned.value w a * Sign.unsigned.value w b
    0 ≤ n ∧ ((w.trunc (.ofInt 64 (n / 2 ^ w.bits))).toNat : Int) = n / 2 ^ w.bits := by
  intro n
  have ha := Sign.unsigned.inRange_value w a
  have hb := Sign.unsigned.inRange_value w b
  rw [Sign.inRange_unsigned, Width.scalarBits_eq_bits hw] at ha hb
  have hn : 0 ≤ n := mul_nonneg ha.1 hb.1
  have hlt : n < 2 ^ w.bits * 2 ^ w.bits := mul_lt_mul'' ha.2 hb.2 ha.1 hb.1
  have hp : (0 : Int) < 2 ^ w.bits := by positivity
  refine ⟨hn, ?_⟩
  rw [Width.toNat_trunc_ofInt, Width.scalarBits_eq_bits hw]
  exact Int.emod_eq_of_lt (Int.ediv_nonneg hn hp.le) (Int.ediv_lt_of_lt_mul hp hlt)

theorem high_ne_zero_iff (hw : w.isScalar) (a b : Word) :
    let n := Sign.unsigned.value w a * Sign.unsigned.value w b
    (ofInt .unsigned w n).high ≠ 0 ↔ ¬ Sign.unsigned.InRange w n := by
  intro n
  obtain ⟨hn, hhigh⟩ := toNat_high hw a b
  have hp : (0 : Int) < 2 ^ w.bits := by positivity
  rw [ne_eq, not_iff_not, ← BitVec.toNat_inj, ← Int.natCast_inj, Sign.inRange_unsigned,
    Width.scalarBits_eq_bits hw]
  change ((w.trunc (.ofInt 64 (n / 2 ^ w.bits))).toNat : Int) = 0 ↔ _
  rw [hhigh]
  refine ⟨fun h => ⟨hn, ?_⟩, fun h => Int.ediv_eq_zero_of_lt h.1 h.2⟩
  have hdiv := Int.lt_ediv_add_one_mul_self n hp
  rwa [h, zero_add, one_mul] at hdiv

theorem productLost_iff : productLost s w n ↔ ¬ s.InRange w n := by
  rw [productLost, bne_iff_ne, ne_eq, not_iff_not, Sign.inRange_iff]
  exact ⟨fun h => ⟨_, h⟩, fun h => Sign.value_trunc_ofInt (Sign.inRange_iff.mpr h)⟩

/-- **The product that instructions form** is that of the integers. -/
theorem ofFactors_eq (s : Sign) (hw : w.isScalar) (a b : Word) :
    ofFactors s w a b = .ok (ofInt s w (s.value w a * s.value w b)) := by
  have hwide := Checked.isWide_mul s w a b
  have hbits : w.bits < 128 := by
    rcases Width.scalar_cases hw with rfl | rfl | rfl | rfl <;> decide
  have hp : Checked.wideValue s (.ofInt 128 (s.value w a * s.value w b)) =
      s.value w a * s.value w b := of_decide_eq_true hwide
  obtain ⟨q, hq, hqv⟩ := Checked.exists_shiftRightBy s
    (.ofInt 128 (s.value w a * s.value w b)) hbits
  unfold ofFactors
  rw [Checked.wideProduct_of_isWide hwide]
  change (Checked.shiftRightBy s (.ofInt 128 (s.value w a * s.value w b)) w.bits >>= _) = _
  rw [hq]
  change Except.ok _ = _
  have hlow : (BitVec.ofInt 128 (s.value w a * s.value w b)).setWidth 64 =
      BitVec.ofInt 64 (s.value w a * s.value w b) := by
    rw [Checked.setWidth_eq_ofInt s, hp]
  have hhigh : q.setWidth 64 = BitVec.ofInt 64 (s.value w a * s.value w b / 2 ^ w.bits) := by
    rw [Checked.setWidth_eq_ofInt s, hqv, hp]
  rw [hlow, hhigh]
  refine congrArg Except.ok ?_
  unfold ofInt
  congr 1
  rw [Bool.eq_iff_iff, decide_eq_true_iff]
  cases s with
  | unsigned => exact bne_iff_ne.trans (high_ne_zero_iff hw a b)
  | signed =>
    change productLost .signed w (Checked.wideValue .signed _) ↔ _
    rw [hp, productLost_iff]

theorem emod_double (n : Int) (w : Width) :
    n % 2 ^ (2 * w.bits) % 2 ^ w.bits = n % 2 ^ w.bits ∧
      n % 2 ^ (2 * w.bits) / 2 ^ w.bits = n / 2 ^ w.bits % 2 ^ w.bits := by
  have hp : (0 : Int) < 2 ^ w.bits := by positivity
  have hsq : (2 : Int) ^ (2 * w.bits) = 2 ^ w.bits * 2 ^ w.bits := by rw [two_mul, pow_add]
  rw [hsq]
  refine ⟨Int.emod_emod_of_dvd n (dvd_mul_right _ _), ?_⟩
  rw [Int.emod_def, Int.emod_def, ← Int.ediv_ediv_of_nonneg hp.le, mul_assoc,
    Int.sub_mul_ediv_left _ _ hp.ne']

end Product

theorem trunc_word_eq (n : Int) :
    Width.w8.trunc (.ofInt 64 (n / 2 ^ 8)) <<< 8 ||| Width.w8.trunc (.ofInt 64 n) =
      Width.w16.trunc (.ofInt 64 n) := by
  have hlow := Width.toNat_trunc_ofInt .w8 n
  have hhigh := Width.toNat_trunc_ofInt .w8 (n / 2 ^ 8)
  have hword := Width.toNat_trunc_ofInt .w16 n
  simp only [Width.scalarBits_eq_bits (show Width.w8.isScalar from rfl),
    Width.scalarBits_eq_bits (show Width.w16.isScalar from rfl), Width.bits] at hlow hhigh hword
  have hlt : (Width.w8.trunc (.ofInt 64 n)).toNat < 2 ^ 8 := by omega
  apply BitVec.eq_of_toNat_eq
  rw [BitVec.toNat_or, BitVec.toNat_shiftLeft, Nat.mod_eq_of_lt,
    ← Nat.shiftLeft_add_eq_or_of_lt hlt, Nat.shiftLeft_eq]
  · omega
  · rw [Nat.shiftLeft_eq]
    omega

/-! ## What is multiplied -/

/-- The integer that the low bits of an operand stand for. -/
def State.value? (s : State) (sg : Sign) (w : Width) (op : Operand) : Option Int := do
  return sg.value w (← (s.read op).toOption).low

/-- The exact product of the factors of a multiplication. With one operand, the other factor is the
accumulator, and MULX multiplies RDX without a sign. -/
def Op.product? (op : Op) (sg : Sign) (w : Width) (s : State) (ops : List Operand) : Option Int :=
  match op with
  | imul => do return (← s.value? sg w (← ops[1]?)) * (← s.value? sg w (← ops[2]?))
  | mulAcc => do return (← s.value? sg w (.reg (Gpr.rax.view w))) * (← s.value? sg w (← ops[0]?))
  | mulx => do
    return (← s.value? .unsigned w (.reg (Gpr.rdx.view w))) * (← s.value? .unsigned w (← ops[2]?))
  | _ => none

/-- The multiplications. -/
def Op.products : List Op :=
  [imul, mulAcc, mulx]

/-- The multiplications by mnemonic and number of operands, each with the sign of its factors. -/
def Op.multiplications : List (String × Nat × Op × Sign) := [
  ("MUL", 1, mulAcc, .unsigned), ("IMUL", 1, mulAcc, .signed), ("IMUL", 3, imul, .signed),
  ("MULX", 3, mulx, .unsigned)]

theorem Rows.sign_of_multiplication : ∀ r ∈ Rows.all,
    (r.op = .imul → r.sign = .signed) ∧ (r.op = .mulx → r.sign = .unsigned) := by
  decide +kernel

theorem Op.mem_multiplications {op : Op} {s : Sign} {mn : String} (hop : op ∈ products)
    (hs : (op = imul → s = .signed) ∧ (op = mulx → s = .unsigned)) (h : mn ∈ op.mnemonics s) :
    (mn, op.arity, op, s) ∈ multiplications := by
  have key : op ∈ products → (op = imul → s = .signed) ∧ (op = mulx → s = .unsigned) →
      ∀ mn ∈ op.mnemonics s, (mn, op.arity, op, s) ∈ multiplications := by
    cases op <;> cases s <;> decide
  exact key hop hs mn h

theorem Table.mem_products_iff {t : Table} {o : Options} {name : String} {e : Entry}
    (h : Table.build Rows.all o = .ok t) (hg : t.get? name = some e) :
    e.op ∈ Op.products ↔ e.key.mnemonic ∈ ["MUL", "IMUL", "MULX"] :=
  op_mem_iff h hg (by intro op s; cases op <;> cases s <;> decide)

/-- **What a multiplication does is told by its mnemonic** and the number of its operands. The forms
of IMUL with one operand use the accumulator as those of MUL do. -/
theorem Table.mem_multiplications {t : Table} {o : Options} {name : String} {e : Entry}
    (h : Table.build Rows.all o = .ok t) (hg : t.get? name = some e) (hop : e.op ∈ Op.products) :
    (e.key.mnemonic, e.shape.length, e.op, e.sign) ∈ Op.multiplications := by
  have hsign : (e.op = .imul → e.sign = .signed) ∧ (e.op = .mulx → e.sign = .unsigned) := by
    obtain ⟨r, hr, hro, hrs, -⟩ := row_of_get? h hg
    rw [hro, hrs]
    exact Rows.sign_of_multiplication r hr
  rw [arity_of_build h hg]
  exact Op.mem_multiplications hop hsign (mnemonic_of_build h hg).1

/-- The operands that a multiplication writes, in order, and the parts of the product for them. The
high half of MULX comes last. -/
def Op.parts? (op : Op) (w : Width) (ops : List Operand) (n : Int) :
    Option (List (Operand × Word)) :=
  let low := w.trunc (.ofInt 64 n)
  let high := w.trunc (.ofInt 64 (n / 2 ^ w.bits))
  match op with
  | imul => do return [(← ops[0]?, low)]
  | mulAcc =>
    if w = .w8 then some [(.regW (Gpr.rax.view .w16), Width.w16.trunc (.ofInt 64 n))]
    else some [(.regW (Gpr.rax.view w), low), (.regW (Gpr.rdx.view w), high)]
  | mulx => do return [(← ops[1]?, low), (← ops[0]?, high)]
  | _ => none

/-- The flags of a product. -/
def Sign.productFlag (sg : Sign) (w : Width) (n : Int) : FlagName → Flag
  | .cf | .of => .ofBool (¬ sg.InRange w n)
  | .sf =>
    match sg with
    | .signed => .ofBool (n / 2 ^ (w.bits - 1) % 2 = 1)
    | .unsigned => .undefined
  | .pf | .af | .zf => .undefined

/-- What a multiplication does with its product: it writes the parts, and unless it is MULX it
assigns the flags. -/
def Op.productActions (op : Op) (sg : Sign) (w : Width) (n : Int)
    (parts : List (Operand × Word)) : List Action :=
  parts.map (fun p => .write p.1 (.ofWord p.2)) ++
    if op = mulx then []
    else [.barrier .compiler, .assign (FlagName.all.map fun f => (f, sg.productFlag w n f))]

variable {s : State} {o : Options} {i : Invocation} {as : List Action} {w : Width}

theorem State.value?_of_read {op : Operand} {v : Word} (sg : Sign) (w : Width)
    (h : (Transaction.begin s o).read op = .ok v) : s.value? sg w op = some (sg.value w v) := by
  obtain ⟨-, l, hl, rfl⟩ := Transaction.read_begin.mp h
  unfold value?
  rw [hl]
  rfl

theorem Invocation.accumulate_eq (sg : Sign) (hw : w.isScalar) (n : Int) (ops : List Operand) :
    ∃ parts, Op.mulAcc.parts? w ops n = some parts ∧
      accumulate w (Product.ofInt sg w n) =
        parts.map fun p => Action.write p.1 (.ofWord p.2) := by
  rcases Width.scalar_cases hw with rfl | rfl | rfl | rfl
  · exact ⟨_, rfl, congrArg (fun v => [Action.write (.regW (Gpr.rax.view .w16)) (.ofWord v)])
      (trunc_word_eq n)⟩
  all_goals exact ⟨_, rfl, rfl⟩

theorem FlagUpdate.product_eq (sg : Sign) (hw : w.isScalar) (n : Int) :
    product (Product.ofInt sg w n).lost sg w (Product.ofInt sg w n).low =
      FlagName.all.map fun f => (f, sg.productFlag w n f) := by
  have hsign : w.isNegative (w.trunc (.ofInt 64 n)) = decide (n / 2 ^ (w.bits - 1) % 2 = 1) := by
    have hlow := Width.toNat_trunc_ofInt w n
    rw [Width.isNegative_eq, decide_eq_decide, ← Width.toNat_trunc, Width.trunc_trunc]
    rw [Width.scalarBits_eq_bits hw] at hlow ⊢
    rcases Width.scalar_cases hw with rfl | rfl | rfl | rfl
    all_goals
      simp only [Width.bits] at hlow ⊢
      omega
  cases sg with
  | unsigned => rfl
  | signed =>
    change [_, _, _, _, (FlagName.sf, Flag.ofBool (w.isNegative (w.trunc (.ofInt 64 n)))), _] = _
    rw [hsign]
    rfl

/-- **What multiplications do.** -/
theorem Op.multiplies {op : Op} (hop : op ∈ Op.products) (hw : i.width.isScalar)
    (h : (op.actions o i).run (.begin s o) = .ok as) :
    ∃ n parts, op.product? i.sign i.width s i.operands = some n ∧
      op.parts? i.width i.operands n = some parts ∧
      as = op.productActions i.sign i.width n parts := by
  cases op with
  | imul =>
    obtain ⟨a, ha, h⟩ := Fetch.run_bind_eq_ok.mp h
    obtain ⟨b, hb, h⟩ := Fetch.run_bind_eq_ok.mp h
    obtain ⟨dst, hd, h⟩ := Fetch.run_bind_eq_ok.mp h
    obtain ⟨x, hx, ha⟩ := Invocation.run_word.mp ha
    obtain ⟨y, hy, hb⟩ := Invocation.run_word.mp hb
    refine ⟨i.sign.value i.width a * i.sign.value i.width b, _, ?_,
      by rw [parts?, Invocation.run_operand.mp hd]; rfl, ?_⟩
    · simp [product?, hx, hy, State.value?_of_read i.sign i.width ha,
        State.value?_of_read i.sign i.width hb]
    · rw [Product.ofFactors_eq i.sign hw] at h
      cases h
      rw [FlagUpdate.product_eq i.sign hw]
      rfl
  | mulAcc =>
    obtain ⟨b, hb, h⟩ := Fetch.run_bind_eq_ok.mp h
    obtain ⟨a, ha, h⟩ := Fetch.run_bind_eq_ok.mp h
    obtain ⟨y, hy, hb⟩ := Invocation.run_word.mp hb
    obtain ⟨_, ha, hav⟩ := Except.bind_eq_ok_iff.mp ha
    cases hav
    obtain ⟨parts, hparts, hacc⟩ := Invocation.accumulate_eq i.sign hw
      (i.sign.value i.width a * i.sign.value i.width b) i.operands
    refine ⟨i.sign.value i.width a * i.sign.value i.width b, parts, ?_, hparts, ?_⟩
    · simp [product?, hy, State.value?_of_read i.sign i.width ha,
        State.value?_of_read i.sign i.width hb]
    · rw [Product.ofFactors_eq i.sign hw] at h
      cases h
      rw [FlagUpdate.product_eq i.sign hw, hacc]
      rfl
  | mulx =>
    obtain ⟨b, hb, h⟩ := Fetch.run_bind_eq_ok.mp h
    obtain ⟨a, ha, h⟩ := Fetch.run_bind_eq_ok.mp h
    obtain ⟨high, hh, h⟩ := Fetch.run_bind_eq_ok.mp h
    obtain ⟨low, hl, h⟩ := Fetch.run_bind_eq_ok.mp h
    obtain ⟨y, hy, hb⟩ := Invocation.run_word.mp hb
    obtain ⟨_, ha, hav⟩ := Except.bind_eq_ok_iff.mp ha
    cases hav
    refine ⟨Sign.unsigned.value i.width a * Sign.unsigned.value i.width b, _, ?_,
      by rw [parts?, Invocation.run_operand.mp hh, Invocation.run_operand.mp hl]; rfl, ?_⟩
    · simp [product?, hy, State.value?_of_read .unsigned i.width ha,
        State.value?_of_read .unsigned i.width hb]
    · rw [Product.ofFactors_eq .unsigned hw] at h
      cases h
      rfl
  | add | sub | adc | sbb | inc | dec | neg | cmp | and | or | xor | not | test | pand | pandn
  | por | pxor | ptest | divAcc | shl | shr | xadd => exact absurd hop (by decide)

/-! ## What is left behind -/

/-- An operand has a number as its content. -/
def State.Holds (s : State) (op : Operand) (n : Int) : Prop :=
  ∃ l, s.read op = .ok l ∧ (l.toNat : Int) = n

/-- **What is written last stays**: the number in an operand that no later action writes. -/
theorem Transaction.holds_of_perform {t : Transaction} {pre post : List Action} {op : Operand}
    {v : Word} (h : (begin s o).perform (pre ++ .write op (.ofWord v) :: post) = .ok t)
    (hpost : Action.WritesOnly (fun x => ∀ p, op.Names p → ¬ x.Names p) post) :
    (Effect.replay s t.effects).Holds op (v.toNat % 2 ^ op.width.bits) := by
  obtain ⟨u, -, h'⟩ := perform_append_eq_ok_iff.mp h
  obtain ⟨u', hu', -⟩ := perform_cons_eq_ok_iff.mp h'
  obtain ⟨f, hf, -⟩ := writing_of_act hu'
  have hfx : t.effects = pre.flatMap Action.effects ++ f :: post.flatMap Action.effects := by
    rw [effects_perform h, List.flatMap_append, List.flatMap_cons, Action.effects, hf]
    rfl
  have hrest : ∀ p, op.Names p → ∀ g ∈ post.flatMap Action.effects, ¬ g.Writes p := by
    intro p hp g hg hw
    obtain ⟨x, hx, hxp⟩ := Action.names_of_writes hpost hg hw
    exact hx p hp hxp
  rw [hfx, Effect.replay_append]
  change (Effect.replay (Effect.act _ f) _).Holds op _
  refine ⟨Lanes.trunc op.width (.ofWord v), ?_, ?_⟩
  · rw [State.read_congr fun p hp => State.agreesAt_replay (hrest p hp) _]
    exact State.read_act_writing hf
  · rw [Lanes.toNat_trunc, Lanes.toNat_ofWord]
    push_cast
    rfl

theorem Op.exists_of_product?_mulx {sg : Sign} {ops : List Operand} {n : Int}
    (h : mulx.product? sg w s ops = some n) :
    ∃ a b, n = Sign.unsigned.value w a * Sign.unsigned.value w b := by
  -- a register can always be read, so the first factor is no obstacle
  obtain ⟨_, -, h⟩ := Option.bind_eq_some_iff.mp h
  obtain ⟨_, hb, h⟩ := Option.bind_eq_some_iff.mp h
  obtain ⟨_, -, hb⟩ := Option.bind_eq_some_iff.mp hb
  cases hb
  cases h
  exact ⟨_, _, rfl⟩

/-! ## Performed multiplications -/

section Performed

variable {t : Transaction} {x : Operand} {v : Word} {n : Int} {sg : Sign} {op : Op}
  {parts : List (Operand × Word)}

theorem Op.writesOnly_productActions {W : Operand → Prop} (h : ∀ q ∈ parts, W q.1) :
    Action.WritesOnly W (op.productActions sg w n parts) := by
  refine Action.writesOnly_append.mpr ⟨?_, by split <;> trivial⟩
  induction parts with
  | nil => trivial
  | cons q parts ih =>
    exact ⟨h q List.mem_cons_self, ih fun q hq => h q (List.mem_cons_of_mem _ hq)⟩

theorem Transaction.holds_part (pre post : List (Operand × Word))
    (h : (begin s o).perform (op.productActions sg w n (pre ++ (x, v) :: post)) = .ok t)
    (hpost : ∀ q ∈ post, ∀ p, x.Names p → ¬ q.1.Names p) :
    (Effect.replay s t.effects).Holds x (v.toNat % 2 ^ x.width.bits) := by
  have hsplit : op.productActions sg w n (pre ++ (x, v) :: post) =
      pre.map (fun q => .write q.1 (.ofWord q.2)) ++
        .write x (.ofWord v) :: op.productActions sg w n post := by
    simp [Op.productActions]
  rw [hsplit] at h
  exact holds_of_perform h (Op.writesOnly_productActions hpost)

theorem Transaction.agreesAt_product {p : Place}
    (h : (begin s o).perform (op.productActions sg w n parts) = .ok t)
    (hp : ∀ q ∈ parts, ¬ q.1.Names p) : (Effect.replay s t.effects).AgreesAt s p := by
  refine State.agreesAt_replay (fun g hg hw => ?_) s
  rw [effects_perform h] at hg
  obtain ⟨y, hy, hyp⟩ := Action.names_of_writes
    (W := fun y => ¬ y.Names p) (Op.writesOnly_productActions hp) hg hw
  exact hy hyp

theorem Transaction.flags_product
    (h : (begin s o).perform (op.productActions sg w n parts) = .ok t) (k : FlagName) :
    t.regs.flags.get k = if op = .mulx then s.regs.flags.get k else sg.productFlag w n k := by
  have hparts : (parts.map fun q => Action.write q.1 (.ofWord q.2)).flatMap Action.update = [] := by
    refine List.flatMap_eq_nil_iff.mpr fun a ha => ?_
    obtain ⟨q, -, rfl⟩ := List.mem_map.mp ha
    rfl
  rw [flags_perform h, Op.productActions, List.flatMap_append, hparts, List.nil_append]
  split
  · rfl
  · change ((begin s o).regs.flags.assign (FlagName.all.map fun k => (k, sg.productFlag w n k))).get
      k = _
    rw [Flags.get_assign_map, if_pos k.mem_all]

theorem State.Holds.of_view {g : Gpr} (hw : w.isScalar)
    (h : s.Holds (.regW (g.view w))
      ((w.trunc (.ofInt 64 n)).toNat % 2 ^ (Operand.regW (g.view w)).width.bits)) :
    s.Holds (.reg (g.view w)) (n % 2 ^ w.bits) := by
  have hv : (Operand.regW (g.view w)).width = w := Gpr.width_view hw g
  rw [hv, Width.toNat_trunc_ofInt, Width.scalarBits_eq_bits hw, Int.emod_emod] at h
  exact h

variable {ops : List Operand}

theorem Transaction.perform_byte (hparts : Op.mulAcc.parts? .w8 ops n = some parts)
    (h : (begin s o).perform (op.productActions sg .w8 n parts) = .ok t) :
    (Effect.replay s t.effects).Holds (.reg (Gpr.rax.view .w16)) (n % 2 ^ 16) ∧
      (Effect.replay s t.effects).regs.get .rdx = s.regs.get .rdx := by
  cases hparts
  refine ⟨(holds_part [] [] h (by simp)).of_view rfl, ?_⟩
  have hrdx : (Effect.replay s t.effects).AgreesAt s (.slot (.gpr .rdx)) :=
    agreesAt_product h (by simp [Operand.Names, Gpr.view, Reg.slot])
  have hlow := congrArg Lanes.low hrdx
  rwa [RegFile.slot, RegFile.slot, Lanes.low_ofWord, Lanes.low_ofWord] at hlow

theorem Transaction.perform_split (hw : w.isScalar) (h8 : w ≠ .w8)
    (hparts : Op.mulAcc.parts? w ops n = some parts)
    (h : (begin s o).perform (op.productActions sg w n parts) = .ok t) :
    (Effect.replay s t.effects).Holds (.reg (Gpr.rax.view w))
        (n % 2 ^ (2 * w.bits) % 2 ^ w.bits) ∧
      (Effect.replay s t.effects).Holds (.reg (Gpr.rdx.view w))
        (n % 2 ^ (2 * w.bits) / 2 ^ w.bits) := by
  rw [Op.parts?, if_neg h8] at hparts
  cases hparts
  obtain ⟨hlow, hhigh⟩ := Product.emod_double n w
  rw [hlow, hhigh]
  refine ⟨(holds_part [] _ h ?_).of_view hw,
    (holds_part [_] [] h (by simp)).of_view hw⟩
  rintro q hq p hp hq'
  rw [List.mem_singleton.mp hq] at hq'
  cases p with
  | slot r =>
    have hrax : Slot.gpr .rax = r := (Gpr.slot_view .rax w).symm.trans hp
    have hrdx : Slot.gpr .rdx = r := (Gpr.slot_view .rdx w).symm.trans hq'
    cases hrax.trans hrdx.symm
  | byte a => exact hp

theorem Transaction.perform_low (hw : w.isScalar) (hparts : Op.imul.parts? w ops n = some parts)
    (h : (begin s o).perform (op.productActions sg w n parts) = .ok t) :
    ∃ dst, ops[0]? = some dst ∧
      (Effect.replay s t.effects).Holds dst (n % 2 ^ w.bits % 2 ^ dst.width.bits) := by
  obtain ⟨dst, hd, hparts⟩ := Option.bind_eq_some_iff.mp hparts
  cases hparts
  refine ⟨dst, hd, ?_⟩
  have hdst := holds_part [] [] h (by simp)
  rwa [Width.toNat_trunc_ofInt, Width.scalarBits_eq_bits hw] at hdst

theorem Transaction.perform_halves (hw : w.isScalar) {a b : Word}
    (hn : n = Sign.unsigned.value w a * Sign.unsigned.value w b)
    (hparts : Op.mulx.parts? w ops n = some parts)
    (h : (begin s o).perform (op.productActions sg w n parts) = .ok t) :
    ∃ high low, ops[0]? = some high ∧ ops[1]? = some low ∧
      (Effect.replay s t.effects).Holds high (n / 2 ^ w.bits % 2 ^ high.width.bits) ∧
      ((∀ p, low.Names p → ¬ high.Names p) →
        (Effect.replay s t.effects).Holds low (n % 2 ^ w.bits % 2 ^ low.width.bits)) := by
  obtain ⟨low, hl, hparts⟩ := Option.bind_eq_some_iff.mp hparts
  obtain ⟨high, hh, hparts⟩ := Option.bind_eq_some_iff.mp hparts
  cases hparts
  refine ⟨high, low, hh, hl, ?_, fun hd => ?_⟩
  · have hhigh := holds_part [_] [] h (by simp)
    rw [hn, (Product.toNat_high hw a b).2, ← hn] at hhigh
    exact hhigh
  · have hlow := holds_part [] _ h (by simpa using hd)
    rwa [Width.toNat_trunc_ofInt, Width.scalarBits_eq_bits hw] at hlow

end Performed

namespace Machine

variable {m : Machine} {c : Call} {e : Entry} {fx : List Effect}

/-- **Multiplications are exact.** The parts of the exact product of the factors, which are read
before anything is written, go to their operands. The accumulator forms leave the product of bytes
in AX and of wider factors in two registers, IMUL with more operands leaves its low part, and the
carry and overflow flags tell whether the low part stands for another integer. MULX leaves the high
half where both halves go to one place, and keeps all flags. -/
theorem product_exact {tab : Table} {o : Options} {name : String}
    (hb : Table.build Rows.all o = .ok tab) (hg : tab.get? name = some e)
    (hmn : e.key.mnemonic ∈ ["MUL", "IMUL", "MULX"]) (hsel : c.select m.table = .ok e)
    (hok : (m.call c).result = .ok fx) :
    let w := e.width
    let s := (m.call c).machine.state
    ∃ op sg n parts, (e.key.mnemonic, e.shape.length, op, sg) ∈ Op.multiplications ∧
      op.product? sg w m.state c.operands = some n ∧ op.parts? w c.operands n = some parts ∧
      fx = (op.productActions sg w n parts).flatMap Action.effects ∧
      (op = .mulAcc → w = .w8 →
        s.Holds (.reg (Gpr.rax.view .w16)) (n % 2 ^ 16) ∧
          s.regs.get .rdx = m.state.regs.get .rdx) ∧
      (op = .mulAcc → w ≠ .w8 →
        s.Holds (.reg (Gpr.rax.view w)) (n % 2 ^ (2 * w.bits) % 2 ^ w.bits) ∧
          s.Holds (.reg (Gpr.rdx.view w)) (n % 2 ^ (2 * w.bits) / 2 ^ w.bits)) ∧
      (op = .imul → ∃ dst, c.operands[0]? = some dst ∧
        s.Holds dst (n % 2 ^ w.bits % 2 ^ dst.width.bits)) ∧
      (op = .mulx → ∃ high low, c.operands[0]? = some high ∧ c.operands[1]? = some low ∧
        s.Holds high (n / 2 ^ w.bits % 2 ^ high.width.bits) ∧
        ((∀ p, low.Names p → ¬ high.Names p) →
          s.Holds low (n % 2 ^ w.bits % 2 ^ low.width.bits))) ∧
      ∀ f, s.regs.flags.get f =
        if op = .mulx then m.state.regs.flags.get f else sg.productFlag w n f := by
  intro w s
  have hop := (Table.mem_products_iff hb hg).mpr hmn
  have hmem := Table.mem_multiplications hb hg hop
  have hw : e.width.isScalar := Table.isScalar_of_word hb hg <| by
    have hp : ∀ op ∈ Op.products, op.packs = false := by decide
    exact hp e.op hop
  obtain ⟨e', t, hsel', -, ht, rfl, -, hm⟩ := call_of_ok hok
  cases hsel.symm.trans hsel'
  obtain ⟨as, has, hp⟩ := Op.eval_eq_ok_iff.mp ht
  obtain ⟨n, parts, hn, hparts, rfl⟩ := Op.multiplies (i := e.invoke c.operands) hop hw has
  change e.op.product? e.sign w m.state c.operands = some n at hn
  change e.op.parts? w c.operands n = some parts at hparts
  change (Transaction.begin m.state m.options).perform
    (e.op.productActions e.sign w n parts) = .ok t at hp
  have hs : s = Effect.replay m.state t.effects := congrArg Machine.state hm
  rw [hs]
  refine ⟨e.op, e.sign, n, parts, hmem, hn, hparts, Transaction.effects_perform hp,
    fun ho h8 => ?_, fun ho h8 => ?_, fun ho => ?_, fun ho => ?_, fun k => ?_⟩
  · rw [ho, h8] at hparts
    rw [h8] at hp
    exact Transaction.perform_byte hparts hp
  · exact Transaction.perform_split hw h8 (ho ▸ hparts) hp
  · exact Transaction.perform_low hw (ho ▸ hparts) hp
  · rw [ho] at hn
    obtain ⟨a, b, hab⟩ := Op.exists_of_product?_mulx hn
    exact Transaction.perform_halves hw hab (ho ▸ hparts) hp
  · rw [replay_transact ht]
    exact Transaction.flags_product hp k

/-- The form IMUL of a byte register, as an entry of a table. -/
def imulEntry : Entry where
  key := ⟨"IMUL", "GPR8", .w8⟩
  name := "IMUL_GPR8_8"
  op := .mulAcc
  sign := .signed
  width := .w8
  shape := [.r]
  mode := .any
  extension := .base

/-- Both factors are in AX, where the product goes. -128 times -1 is no signed byte. -/
theorem product_exact_ah :
    let m : Machine := { state := { regs := ({} : RegFile).set .rax 0x80ff } }
    let s := (m.call (.entry imulEntry [.reg (.gpr .rax .high8)])).machine.state
    s.Holds (.reg (Gpr.rax.view .w16)) 128 ∧ s.regs.flags.get .cf = .set ∧
      s.regs.flags.get .sf = .set ∧ s.regs.flags.get .zf = .undefined := by
  intro m s
  have hr : { stem := "IMUL_GPR8", op := .mulAcc, sign := .signed, shape := [.r],
              sizes := .byte } ∈ Rows.all := by
    decide +kernel
  obtain ⟨tab, hb⟩ := Table.exists_build {}
  have hg : tab.get? "IMUL_GPR8_8" = some imulEntry :=
    Table.get?_of_ofRow (p := (.w8, .any)) hb hr (by decide) rfl
  have hok : (m.call (.entry imulEntry [.reg (.gpr .rax .high8)])).succeeded := by decide +kernel
  obtain ⟨fx, hok⟩ := Response.succeeded_iff.mp hok
  have hn : Op.mulAcc.product? .signed .w8 m.state [.reg (.gpr .rax .high8)] = some 128 := by
    decide +kernel
  obtain ⟨op, sg, n, parts, hop, hn', -, -, hax, -, -, -, hflag⟩ :=
    product_exact (m := m) (c := .entry imulEntry [.reg (.gpr .rax .high8)]) (e := imulEntry)
      hb hg (by decide) rfl hok
  obtain ⟨rfl, rfl⟩ : op = .mulAcc ∧ sg = .signed := by
    simpa [Op.multiplications, imulEntry] using hop
  cases hn.symm.trans hn'
  have hf : Sign.signed.productFlag .w8 128 .cf = .set ∧
      Sign.signed.productFlag .w8 128 .sf = .set := by decide +kernel
  exact ⟨(hax rfl rfl).1, (hflag .cf).trans hf.1, (hflag .sf).trans hf.2, hflag .zf⟩

end Machine

end X86
