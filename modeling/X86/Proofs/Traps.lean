import X86.Proofs.Codec
import X86.Proofs.Division
import X86.Proofs.Fault
import X86.Proofs.Success

/-!
# Entries of the table never trap

A trap is an operation outside its range: an operand that is not there, a shift by too many bits, a
negative difference, a result of more than 128 bits, or a division by zero. The shape of an entry
and the widths of words exclude all of them. Numbers of registers and flags are in range by their
types.

* `Width.topBit_eq`, `Width.extended_eq`: shifts within one word are in range;
* `Lanes.byteAt`, `Lanes.cut`, `Lanes.joined`: bytes and low bits of values, where every quadword
  has to be there;
* `State.readAt`, `Effect.actAt`, `Effect.foldlM_actAt`: reads and effects made of these, one effect
  and a list of effects;
* **`Machine.no_trap`**: no entry of the table traps, not even at another width of words.
-/

namespace X86

/-! ## Shifts within a word -/

namespace Width

/-- The word with the top bit that counts, by a shift. -/
def topBit (w : Width) : Except Cause Word := do
  Checked.shiftLeft (1 : Word) (← Checked.sub w.scalarBits 1)

/-- The low bits of a word as a two's complement number, by shifts to the top and back. -/
def extended (w : Width) (v : Word) : Except Cause Int := do
  let fill ← Checked.sub 64 w.scalarBits
  let top ← Checked.shiftLeft v fill
  return (← Checked.shiftRightSigned top fill).toInt

theorem quads_le (w : Width) : (w.bits + 63) / 64 ≤ 4 := by
  cases w <;> decide

theorem topBit_eq (w : Width) : w.topBit = .ok w.signBit := by
  have hpos := w.scalarBits_pos
  have hle := w.scalarBits_le
  rw [topBit, Checked.sub_of_le hpos]
  change Checked.shift (w.scalarBits - 1) _ = _
  rw [Checked.shift_of_lt (by omega)]
  rfl

theorem extended_eq (w : Width) (v : Word) : w.extended v = .ok (w.signed v) := by
  have hpos := w.scalarBits_pos
  have hle := w.scalarBits_le
  rw [extended, Checked.sub_of_le hle]
  change (Checked.shift (64 - w.scalarBits) _ >>= fun top =>
    Checked.shift (64 - w.scalarBits) _ >>= fun v => Except.ok v.toInt) = _
  rw [Checked.shift_of_lt (by omega)]
  change (Checked.shift (64 - w.scalarBits) _ >>= fun v => Except.ok v.toInt) = _
  rw [Checked.shift_of_lt (by omega)]
  refine congrArg Except.ok ?_
  rw [toInt_sshiftRight_shiftLeft (by omega), signed, BitVec.toInt_setWidth,
    show 64 - (64 - w.scalarBits) = w.scalarBits by omega]

end Width

namespace Lanes

/-- The byte at a position, cut from the quadword that has it. -/
def byteAt (l : Lanes) (k : Nat) : Option (Except Cause Byte) :=
  l.quads[k / 8]?.map fun q => do return (← Checked.shiftRight q (8 * (k % 8))).setWidth 8

theorem byteAt_eq {w : Width} {k : Nat} (h : k < w.bytes) (l : Lanes) :
    l.byteAt k = some (.ok (l.byte k)) := by
  have hw := w.bytes_le
  have hq : l.quads[k / 8]? = some (l.quad (k / 8)) := by
    rw [getElem?_quads, if_pos (by omega)]
  rw [byteAt, hq, Option.map_some, Checked.shiftRight, Checked.shift_of_lt (by omega),
    ← Quads.byte_quads, Quads.byte, hq]
  rfl

/-- The bytes of a value, each cut from its quadword. -/
def bytesAt (w : Width) (l : Lanes) : Option (List Byte) :=
  (List.range w.bytes).mapM fun k => (l.byteAt k).bind Except.toOption

theorem bytesAt_eq (w : Width) (l : Lanes) : l.bytesAt w = some (l.toBytes w) := by
  have hmap : ∀ ks : List Nat, (∀ k ∈ ks, k < w.bytes) →
      (ks.mapM fun k => (l.byteAt k).bind Except.toOption) = some (ks.map l.byte) := by
    intro ks h
    induction ks with
    | nil => rfl
    | cons k ks ih =>
      rw [List.mapM_cons, byteAt_eq (h k List.mem_cons_self),
        ih fun j hj => h j (List.mem_cons_of_mem _ hj)]
      rfl
  exact hmap _ fun k hk => List.mem_range.mp hk

/-- The value of a list of quadwords, of which there have to be four. -/
def ofQuads? : List Word → Option Lanes
  | [q₀, q₁, q₂, q₃] => some (ofQuads q₀ q₁ q₂ q₃)
  | _ => none

theorem ofQuads?_quads (l : Lanes) : ofQuads? l.quads = some l := by
  refine congrArg some (BitVec.eq_of_getLsbD_eq fun i _ => ?_)
  simp only [ofQuads, BitVec.getLsbD_append, getLsbD_quad]
  split_ifs <;> grind

/-- The low bits of a value by a slice of its quadwords, which must not have fewer of them. -/
def cut (w : Width) (l : Lanes) : Option Lanes :=
  if (w.bits + 63) / 64 ≤ l.quads.length then ofQuads? (Quads.trunc w l.quads) else none

theorem cut_eq (w : Width) (l : Lanes) : l.cut w = some (trunc w l) := by
  have hlen : (w.bits + 63) / 64 ≤ l.quads.length := w.quads_le
  rw [cut, if_pos hlen, Quads.trunc_quads, ofQuads?_quads]

end Lanes

namespace Quads

variable {qs : List Word} {i : Nat}

/-- Joins a byte to the quadword that has its position, which has to be there. -/
def putAt (qs : List Word) (i : Nat) (b : Byte) : Option (List Word) := do
  let v ← (Checked.shiftLeft (b.setWidth 64) (8 * (i % 8))).toOption
  if i / 8 < qs.length then some (qs.modify (i / 8) (· ||| v)) else none

/-- Joins bytes to quadwords, the first one at the given position. -/
def fillAt (qs : List Word) (i : Nat) : List Byte → Option (List Word)
  | [] => some qs
  | b :: bs => do fillAt (← putAt qs i b) (i + 1) bs

theorem putAt_eq (h : i < 8 * qs.length) (b : Byte) : putAt qs i b = some (put qs i b) := by
  rw [putAt, Checked.shiftLeft, Checked.shift_of_lt (by omega)]
  exact if_pos (by omega)

theorem fillAt_eq {bs : List Byte} (h : i + bs.length ≤ 8 * qs.length) :
    fillAt qs i bs = some (fill qs i bs) := by
  induction bs generalizing qs i with
  | nil => rfl
  | cons b bs ih =>
    rw [List.length_cons] at h
    have hlen : (put qs i b).length = qs.length := List.length_modify _ _ _
    rw [fillAt, putAt_eq (by omega)]
    exact ih (by omega)

end Quads

/-- The value of bytes, each joined to its quadword. Bytes behind the last quadword are left out. -/
def Lanes.joined (bs : List Byte) : Option Lanes := do
  ofQuads? (← Quads.fillAt (List.replicate 4 0) 0 (bs.take 32))

theorem Lanes.joined_eq (bs : List Byte) : joined bs = some (ofBytes bs) := by
  have hlen : 0 + (bs.take 32).length ≤ 8 * (List.replicate 4 (0 : Word)).length := by
    rw [List.length_take, List.length_replicate]
    omega
  rw [joined, Quads.fillAt_eq hlen]
  change ofQuads? (Quads.ofBytes bs) = _
  rw [← quads_ofBytes, ofQuads?_quads]

/-! ## Reads and effects -/

/-- The value of an operand by quadwords, where each of them has to be there. -/
def State.readAt (s : State) : Operand → Option (Except Cause Lanes)
  | .reg r | .regW r => (Lanes.cut r.width (s.regs.slot r.slot >>> r.offset)).map .ok
  | .mem m | .memW m =>
    match s.mem.readBytes m.address m.width.bytes with
    | .ok bs => (Lanes.joined bs).map .ok
    | .error c => some (.error c)
  | .imm v w => some (.ok (.ofWord (w.trunc v)))

theorem State.readAt_eq (s : State) (op : Operand) : s.readAt op = some (s.read op) := by
  cases op with
  | reg r | regW r => rw [readAt, Lanes.cut_eq]; rfl
  | mem m | memW m =>
    rw [readAt, read, Memory.read]
    cases s.mem.readBytes m.address m.width.bytes with
    | ok bs => exact congrArg (Option.map Except.ok) (Lanes.joined_eq bs)
    | error c => rfl
  | imm v w => rfl

namespace Effect

/-- The state after an effect, whose value is cut and taken apart by its quadwords. -/
def actAt (s : State) : Effect → Option State
  | writeReg r v => do return { s with regs := s.regs.write r (← v.cut r.width) }
  | writeMem m v => do
    let bs ← (← v.cut m.width).bytesAt m.width
    return { s with mem := s.mem.load m.address bs }
  | barrier _ => some s
  | setFlag n v => some { s with regs := s.regs.setFlag n v }

theorem actAt_eq (s : State) (f : Effect) : actAt s f = some (act s f) := by
  cases f with
  | writeReg r v =>
    rw [actAt, Lanes.cut_eq]
    exact congrArg (fun regs => some { s with regs }) (s.regs.write_trunc r v)
  | writeMem m v =>
    rw [actAt, Lanes.cut_eq]
    change (Lanes.bytesAt m.width (Lanes.trunc m.width v) >>= _) = _
    rw [Lanes.bytesAt_eq]
    exact congrArg (fun mem => some { s with mem }) (s.mem.apply_trunc m.address m.width v)
  | barrier b => rfl
  | setFlag n v => rfl

/-- **No effect in a list needs a quadword that is not there.** -/
theorem foldlM_actAt (s : State) (fx : List Effect) : fx.foldlM actAt s = some (replay s fx) := by
  induction fx generalizing s with
  | nil => rfl
  | cons f fx ih =>
    rw [List.foldlM_cons, actAt_eq]
    exact ih _

end Effect

namespace Machine

variable {t : Table} {o : Options} {name : String} {e : Entry} {w : Width} {m : Machine}
  {ops : List Operand}

theorem result_of_check_error {c : Cause} (h : e.shape.check ops = .error c) :
    (m.execEntry e ops).result = .error (.ofCause m.state.regs c) := by
  rw [execEntry_of_error (evaluate_eq_error_iff.mpr (.inl h))]
  rfl

theorem cause_ne_trap {err : Error} (hlen : e.shape.length = e.op.arity)
    (hw : e.op.doubles → e.width.isScalar) (h : (m.execEntry e ops).result = .error err)
    (tr : Trap) : err.cause ≠ .trap tr := by
  intro htrap
  have hkind : err.cause.kind = .general := congrArg Cause.kind htrap
  cases hc : e.shape.check ops with
  | error c =>
    rw [result_of_check_error hc] at h
    cases h
    exact absurd (hkind.symm.trans (Shape.check_eq_error hc)) (by decide)
  | ok _ =>
    obtain ⟨c, hc, rfl⟩ := refuses_of_error hlen hc h
    change c.kind = .general at hkind
    rcases hc with hk | hk | ⟨-, rfl⟩ | ⟨-, hk⟩ | ⟨hd, hns, -⟩
    · exact absurd (hkind.symm.trans hk) (by decide)
    · exact absurd (hkind.symm.trans hk) (by decide)
    · exact absurd hkind (by decide)
    · rw [hkind] at hk
      cases hk
    · exact hns (hw hd)

/-- **No entry of the table traps**, whatever the state, the operands and the options of the machine
are, and also with any signedness and the width of any word. Every read of the state finds the
quadwords that it needs, and so do the effects that lead to the new state. The shifts that find the
sign at the width are by fewer bits than a word has. -/
theorem no_trap (hb : Table.build Rows.all o = .ok t) (he : t.get? name = some e)
    (hw : w = e.width ∨ w.isScalar) (s : Sign) (m : Machine) (hm : m.executed < 2 ^ 64 - 1)
    (ops : List Operand) :
    let r := m.execEntry { e with width := w, sign := s } ops
    (∀ err tr, r.result = .error err → err.cause ≠ .trap tr) ∧ r.machine.executed < 2 ^ 64 ∧
      (∀ x, m.state.readAt x = some (m.state.read x)) ∧
      r.effects.foldlM Effect.actAt m.state = some r.machine.state ∧
      w.topBit = .ok w.signBit ∧ ∀ v, w.extended v = .ok (w.signed v) := by
  intro r
  have hcall := state_call m (.entry { e with width := w, sign := s } ops)
  refine ⟨fun err tr h => ?_, ?_, m.state.readAt_eq, ?_, w.topBit_eq, w.extended_eq⟩
  · have hlen := Table.arity_of_build hb he
    have hd : e.op.doubles → w.isScalar := by
      intro hd
      rcases hw with rfl | hw
      · exact Table.isScalar_of_word hb he (Op.packs_of_doubles hd)
      · exact hw
    exact cause_ne_trap (e := { e with width := w, sign := s }) hlen hd h tr
  · have hx := (executed_call m (.entry { e with width := w, sign := s } ops)).1
    change r.machine.executed = _ at hx
    rw [hx]
    split <;> omega
  · rw [Effect.foldlM_actAt]
    exact congrArg some hcall.symm

/-- Without the checks, the least dividend divided by -1 does not trap. -/
theorem no_trap_least :
    let regs := (({} : RegFile).set .rdx (.intMin 64)).set .rbx (.allOnes 64)
    let m : Machine := { state := { regs }, options := { noDivChecks := true } }
    (∀ err tr, (m.execEntry idivEntry [.reg (Gpr.rbx.view .w64)]).result = .error err →
      err.cause ≠ .trap tr) := by
  intro regs m
  obtain ⟨t, ht⟩ := Table.exists_build m.options
  exact (no_trap ht (get?_idivEntry ht rfl) (.inl rfl) .signed m (by decide)
    [.reg (Gpr.rbx.view .w64)]).1

/-- Outside the table a trap is possible: there are no products of 128-bit factors. -/
example :
    let e := { idivEntry with op := .mulAcc, width := .w128 }
    (({} : Machine).execEntry e [.reg (Gpr.rbx.view .w64)]).result =
      .error ⟨.trap (.shift 128 128), none⟩ := by
  decide

end Machine

end X86
