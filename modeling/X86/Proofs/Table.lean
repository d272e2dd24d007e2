import X86.Table
import X86.Proofs.Key
import X86.Proofs.Memory

/-!
# The entries of a built table

Every entry of a table comes from a row at one of the widths that the options permit, and is found
by the key of the row there. So what an entry does is told by its mnemonic.

* `Table.get?_insert`, `Table.get?_build`: the entries of a table, and where they come from;
* `Key.parse_eq_ok`: the key of a stem at a width has its mnemonic and the width;
* `Table.row_of_get?`, `Table.of_rows`: what an entry has from its row, and what holds of all rows;
* `Op.packs`, `Table.isScalar_of_word`: operations on words have the widths of words;
* `Op.mnemonics`: the mnemonics of an operation;
* **`Table.mnemonic_of_build`**: the mnemonic of every entry is one of its operation;
* `Table.op_mem_iff`: a family of operations by its mnemonics;
* `Op.named`, `Table.op_of_named`: the operations that have one mnemonic to themselves;
* `Sign.divide`, **`Table.division_iff`**: which entries divide.
-/

namespace X86

/-! ## Where entries come from -/

namespace Table

variable {t t' : Table} {e e' : Entry} {name : String} {o : Options} {r : Row} {rows : List Row}

theorem get?_insert (h : t.insert e = .ok t') (name : String) :
    t'.get? name = if e.name = name then some e else t.get? name := by
  unfold insert at h
  split at h
  · cases h
  · cases h
    rw [get?, Std.ExtTreeMap.getElem?_insert]
    simp only [Std.compare_eq_iff_eq]
    rfl

theorem get?_insertRow {ps : List (Width × Mode)} (h : t.insertRow r ps = .ok t')
    (hg : t'.get? name = some e) :
    t.get? name = some e ∨ ∃ p ∈ ps, Entry.ofRow r p.1 p.2 = .ok e ∧ e.name = name := by
  induction ps generalizing t with
  | nil => cases h; exact .inl hg
  | cons p ps ih =>
    obtain ⟨e', he', h⟩ := Except.bind_eq_ok_iff.mp h
    obtain ⟨u, hu, h⟩ := Except.bind_eq_ok_iff.mp h
    rcases ih h with hg | ⟨q, hq, he⟩
    · rw [get?_insert hu] at hg
      split at hg
      · cases hg
        exact .inr ⟨p, List.mem_cons_self, he', ‹_›⟩
      · exact .inl hg
    · exact .inr ⟨q, List.mem_cons_of_mem _ hq, he⟩

theorem get?_insertRows (h : t.insertRows o rows = .ok t') (hg : t'.get? name = some e) :
    t.get? name = some e ∨
      ∃ r ∈ rows, ∃ p ∈ r.instances o, Entry.ofRow r p.1 p.2 = .ok e ∧ e.name = name := by
  induction rows generalizing t with
  | nil => cases h; exact .inl hg
  | cons r rows ih =>
    obtain ⟨u, hu, h⟩ := Except.bind_eq_ok_iff.mp h
    rcases ih h with hg | ⟨q, hq, he⟩
    · rcases get?_insertRow hu hg with hg | he
      · exact .inl hg
      · exact .inr ⟨r, List.mem_cons_self, he⟩
    · exact .inr ⟨q, List.mem_cons_of_mem _ hq, he⟩

/-- **Every entry of a table comes from a row** at a width that the options permit. -/
theorem get?_build (h : build rows o = .ok t) (hg : t.get? name = some e) :
    ∃ r ∈ rows, ∃ p ∈ r.instances o, Entry.ofRow r p.1 p.2 = .ok e ∧ e.name = name := by
  rcases get?_insertRows h hg with hg | he
  · rw [get?, Std.ExtTreeMap.getElem?_empty] at hg
    cases hg
  · exact he

theorem row_of_get? (h : build rows o = .ok t) (hg : t.get? name = some e) :
    ∃ r ∈ rows, e.op = r.op ∧ e.sign = r.sign ∧ e.shape = r.shape ∧ e.width ∈ r.sizes.widths := by
  obtain ⟨r, hr, ⟨w, m⟩, hp, he, -⟩ := get?_build h hg
  obtain ⟨_, -, he⟩ := Except.bind_eq_ok_iff.mp he
  cases he
  refine ⟨r, hr, rfl, rfl, rfl, ?_⟩
  unfold Row.instances at hp
  split at hp
  · obtain ⟨v, hv, hm⟩ := List.mem_filterMap.mp (List.mem_filter.mp hp).1
    obtain ⟨m', -, hm⟩ := Option.map_eq_some_iff.mp hm
    cases hm
    exact hv
  · cases hp

theorem of_rows {P : Op → Shape → Width → Prop}
    (hrows : ∀ r ∈ rows, ∀ w ∈ r.sizes.widths, P r.op r.shape w)
    (h : build rows o = .ok t) (hg : t.get? name = some e) : P e.op e.shape e.width := by
  obtain ⟨r, hr, hop, -, hs, hw⟩ := row_of_get? h hg
  rw [hop, hs]
  exact hrows r hr e.width hw

end Table

/-! ## The widths of entries -/

/-- The operations on vector registers. -/
def Op.packs : Op → Bool
  | pand | pandn | por | pxor | ptest => true
  | _ => false

theorem Rows.isScalar_of_word : ∀ r ∈ Rows.all, r.op.packs = false →
    ∀ w ∈ r.sizes.widths, w.isScalar := by
  decide +kernel

theorem Table.isScalar_of_word {t : Table} {o : Options} {name : String} {e : Entry}
    (h : Table.build Rows.all o = .ok t) (hg : t.get? name = some e) (hp : e.op.packs = false) :
    e.width.isScalar :=
  of_rows (P := fun op _ w => op.packs = false → w.isScalar)
    (fun r hr w hw hp => Rows.isScalar_of_word r hr hp w hw) h hg hp

/-! ## The parts of a key -/

namespace Key

/-- The mnemonic in front of a stem, which ends at the first underscore. -/
def stemMnemonic (stem : String) : String :=
  String.ofList (stem.toList.takeWhile (· ≠ '_'))

theorem stemMnemonic_eq {stem mn : String} (h : ∀ c ∈ mn.toList, c ≠ '_')
    (hs : stem = mn ∨ ∃ tail, stem = mn ++ "_" ++ tail) : stemMnemonic stem = mn := by
  have hp : ∀ c ∈ mn.toList, decide (c ≠ '_') = true := fun c hc => decide_eq_true (h c hc)
  have ht : stem.toList.takeWhile (· ≠ '_') = mn.toList := by
    rcases hs with rfl | ⟨tail, rfl⟩
    · have h := @List.takeWhile_append_of_pos _ _ stem.toList [] hp
      simpa using h
    · rw [String.toList_append, String.toList_append, List.append_assoc,
        List.takeWhile_append_of_pos hp]
      simp
  rw [stemMnemonic, ht, String.ofList_toList]

theorem parse_eq_ok {stem : String} {w : Width} {k : Key}
    (h : parse (stem ++ "_" ++ w.render) = .ok k) :
    k.mnemonic = stemMnemonic stem ∧ k.width = w := by
  obtain ⟨hk, hs⟩ := parse_eq_ok_iff.mp h
  have hcut := cutLast_key stem w
  rw [hs, chars, cutLast_append (not_mem_render k.width), Option.some.injEq,
    Prod.mk.injEq] at hcut
  have hmn := ne_of_isMnemonic (wellFormed_iff.mp hk).1
  refine ⟨?_, render_inj hcut.2⟩
  rw [stemMnemonic, ← hcut.1, ((eq_append_iff hmn).mp rfl).1, String.ofList_toList]

end Key

/-! ## What a mnemonic tells -/

/-- The mnemonics of an operation. -/
def Op.mnemonics (op : Op) (s : Sign) : List String :=
  match op, s with
  | add, _ => ["ADD"]
  | sub, _ => ["SUB"]
  | adc, _ => ["ADC"]
  | sbb, _ => ["SBB"]
  | inc, _ => ["INC"]
  | dec, _ => ["DEC"]
  | neg, _ => ["NEG"]
  | cmp, _ => ["CMP"]
  | and, _ => ["AND"]
  | or, _ => ["OR"]
  | xor, _ => ["XOR"]
  | not, _ => ["NOT"]
  | test, _ => ["TEST"]
  | pand, _ =>
    ["PAND", "PANDq", "PANDqq", "VPAND", "ANDPD", "ANDPS", "VANDPD", "VANDPS"]
  | pandn, _ =>
    ["PANDN", "PANDNq", "PANDNqq", "VPANDN", "ANDNPD", "ANDNPS", "VANDNPD", "VANDNPS"]
  | por, _ =>
    ["POR", "PORq", "PORqq", "VPOR", "ORPD", "ORPS", "VORPD", "VORPS"]
  | pxor, _ =>
    ["PXOR", "PXORq", "PXORqq", "VPXOR", "XORPD", "XORPS", "VXORPD", "VXORPS"]
  | ptest, _ => ["PTEST", "VPTEST"]
  | imul, _ => ["IMUL"]
  | mulAcc, .unsigned => ["MUL"]
  | mulAcc, .signed => ["IMUL"]
  | mulx, _ => ["MULX"]
  | divAcc, .unsigned => ["DIV"]
  | divAcc, .signed => ["IDIV"]
  | shl, _ => ["SHL"]
  | shr, .unsigned => ["SHR"]
  | shr, .signed => ["SAR"]
  | xadd, _ => ["XADD"]

theorem Op.not_mem_of_mem_mnemonics {op : Op} {s : Sign} {mn : String} (h : mn ∈ op.mnemonics s) :
    '_' ∉ mn.toList := by
  have key : ∀ mn ∈ op.mnemonics s, '_' ∉ mn.toList := by
    cases op <;> cases s <;> decide
  exact key mn h

/-- What stands in a stem behind its mnemonic and the underscore. All stems are in ASCII. -/
def Row.formChars (r : Row) (mn : String) : List Char :=
  (r.stem.toByteArray.data.toList.drop (mn.utf8ByteSize + 1)).map fun b => Char.ofNat b.toNat

def Row.form (r : Row) (mn : String) : String :=
  String.ofList (r.formChars mn)

theorem Rows.exists_mnemonic : ∀ r ∈ Rows.all, ∃ mn ∈ r.op.mnemonics r.sign,
    r.stem = mn ∨
      r.stem = mn ++ "_" ++ r.form mn ∧ Key.isForm (r.formChars mn) ∧ r.formChars mn ≠ [] := by
  decide +kernel

theorem Rows.stemMnemonic_mem {r : Row} (h : r ∈ Rows.all) :
    Key.stemMnemonic r.stem ∈ r.op.mnemonics r.sign := by
  obtain ⟨mn, hmn, hs⟩ := Rows.exists_mnemonic r h
  have hm : Key.stemMnemonic r.stem = mn := by
    have hp : ∀ c ∈ mn.toList, c ≠ '_' :=
      fun c hc h => Op.not_mem_of_mem_mnemonics hmn (h ▸ hc)
    rcases hs with hs | ⟨hs, -⟩
    · exact Key.stemMnemonic_eq hp (.inl hs)
    · exact Key.stemMnemonic_eq hp (.inr ⟨_, hs⟩)
  rw [hm]
  exact hmn

/-- **The mnemonic of every entry is one of its operation.** -/
theorem Table.mnemonic_of_build {t : Table} {o : Options} {name : String} {e : Entry}
    (h : Table.build Rows.all o = .ok t) (hg : t.get? name = some e) :
    e.key.mnemonic ∈ e.op.mnemonics e.sign ∧ e.key.width = e.width := by
  obtain ⟨r, hr, ⟨w, m⟩, -, he, -⟩ := get?_build h hg
  obtain ⟨k, hk, he⟩ := Except.bind_eq_ok_iff.mp he
  cases he
  obtain ⟨hm, hw⟩ := Key.parse_eq_ok hk
  refine ⟨?_, hw⟩
  rw [hm]
  exact Rows.stemMnemonic_mem hr

/-- **A family of operations is told by its mnemonics**, if no other operation has one of them. -/
theorem Table.op_mem_iff {t : Table} {o : Options} {name : String} {e : Entry} {ops : List Op}
    {names : List String} (h : Table.build Rows.all o = .ok t) (hg : t.get? name = some e)
    (hkey : ∀ op s, ∀ mn ∈ op.mnemonics s, (op ∈ ops ↔ mn ∈ names)) :
    e.op ∈ ops ↔ e.key.mnemonic ∈ names :=
  hkey _ _ _ (mnemonic_of_build h hg).1

/-- The operations that have one mnemonic, which no other operation has. -/
def Op.named : List (String × Op) := [
  ("ADD", add), ("SUB", sub), ("ADC", adc), ("SBB", sbb), ("INC", inc), ("DEC", dec), ("NEG", neg),
  ("CMP", cmp), ("AND", and), ("OR", or), ("XOR", xor), ("NOT", not), ("TEST", test),
  ("MULX", mulx), ("SHL", shl), ("XADD", xadd)]

theorem Op.eq_of_named : ∀ q ∈ named, ∀ op s, q.1 ∈ mnemonics op s → op = q.2 := by
  intro q hq op s
  revert q
  cases op <;> cases s <;> decide

theorem Table.op_of_named {t : Table} {o : Options} {name mn : String} {e : Entry} {op : Op}
    (h : Table.build Rows.all o = .ok t) (hg : t.get? name = some e) (hmn : e.key.mnemonic = mn)
    (hop : (mn, op) ∈ Op.named) : e.op = op ∧ e.width.isScalar := by
  obtain rfl : e.op = op := Op.eq_of_named _ hop _ _ (hmn ▸ (mnemonic_of_build h hg).1)
  have hp : ∀ q ∈ Op.named, q.2.packs = false := by decide
  exact ⟨rfl, isScalar_of_word h hg (hp _ hop)⟩

/-- The mnemonic of the division of the accumulator. -/
def Sign.divide : Sign → String
  | unsigned => "DIV"
  | signed => "IDIV"

theorem Op.division_iff {op : Op} {s : Sign} {mn : String} (h : mn ∈ op.mnemonics s) (sg : Sign) :
    op = .divAcc ∧ s = sg ↔ mn = sg.divide := by
  have key : ∀ mn ∈ op.mnemonics s, (op = .divAcc ∧ s = sg ↔ mn = sg.divide) := by
    cases op <;> cases s <;> cases sg <;> decide
  exact key mn h

/-- **The entries that divide** are those for DIV and IDIV, which is the signed one. -/
theorem Table.division_iff {t : Table} {o : Options} {name : String} {e : Entry}
    (h : Table.build Rows.all o = .ok t) (hg : t.get? name = some e) (sg : Sign) :
    e.op = .divAcc ∧ e.sign = sg ↔ e.key.mnemonic = sg.divide :=
  Op.division_iff (mnemonic_of_build h hg).1 sg

end X86
