import Mathlib
import X86.Proofs.Selection

/-!
# The two indexes of a table

A table is built from any list of rows, one form after the other. Building stops at the first form
whose name is malformed or taken. Otherwise the index by name and the index by mnemonic agree on
the forms that the options permit.

* `Text.byteValues_lt`: texts in ASCII are ordered by their bytes;
* `Row.IsPermitted`, `Row.exists_instances_iff`: what the options permit of a row;
* `Form`, `Table.build_eq`: the table is built by one pass over the permitted forms;
* `Table.Holds`, `Table.holds_insert`: what a table with given forms has in its indexes;
* `Table.foldlM_insertForm`: how a pass over forms ends;
* **`Table.build_cases`**: what building a table can end with, and what the table lists.
-/

namespace X86

/-! ## The order of texts -/

namespace Text

/-- The values of the bytes of a text in UTF-8. -/
def byteValues (s : String) : List Nat :=
  s.toByteArray.data.toList.map UInt8.toNat

def IsAscii (s : String) : Prop :=
  ∀ c ∈ s.toList, c.toNat < 128

theorem byteValues_eq {s : String} (h : IsAscii s) : byteValues s = s.toList.map Char.toNat := by
  have hl : ∀ cs : List Char, (∀ c ∈ cs, c.toNat < 128) →
      (cs.flatMap String.utf8EncodeChar).map UInt8.toNat = cs.map Char.toNat := by
    intro cs hcs
    induction cs with
    | nil => rfl
    | cons c cs ih =>
      have hc : c.val.toNat < 128 := hcs c List.mem_cons_self
      have he : String.utf8EncodeChar c = [UInt8.ofNat c.val.toNat] := if_pos (by omega)
      have hv : (UInt8.ofNat c.val.toNat).toNat = c.toNat := Nat.mod_eq_of_lt (by omega)
      rw [List.flatMap_cons, List.map_append, ih fun d hd => hcs d (List.mem_cons_of_mem _ hd), he,
        List.map_singleton, hv, List.map_cons, List.singleton_append]
  have hs : s.toByteArray.data.toList = s.toList.flatMap String.utf8EncodeChar := by
    conv_lhs => rw [← String.ofList_toList (s := s), String.toByteArray_ofList]
    rw [List.utf8Encode, List.data_toByteArray]
  rw [byteValues, hs, hl _ h]

/-- **Texts in ASCII are ordered by their bytes.** -/
theorem byteValues_lt {s t : String} (hs : IsAscii s) (ht : IsAscii t) (h : s < t) :
    byteValues s < byteValues t := by
  rw [byteValues_eq hs, byteValues_eq ht]
  exact List.map_lt (fun _ _ h => h) (String.lt_iff_toList_lt.mp h)

theorem toNat_lt_of_isAlphanum {c : Char} (h : c.isAlphanum) : c.toNat < 128 := by
  simp only [Char.isAlphanum, Char.isAlpha, Char.isUpper, Char.isLower, Char.isDigit,
    Bool.or_eq_true, Bool.and_eq_true, decide_eq_true_eq, UInt32.le_iff_toNat_le] at h
  have hc : c.toNat = c.val.toNat := rfl
  simp at h
  omega

end Text

/-! ## Keys are in ASCII -/

namespace Key

theorem isAscii_of_isMnemonic {cs : List Char} (h : isMnemonic cs) : ∀ c ∈ cs, c.toNat < 128 := by
  cases cs with
  | nil => simp
  | cons c cs =>
    simp only [isMnemonic, Bool.and_eq_true, List.all_eq_true] at h
    intro d hd
    rcases List.mem_cons.mp hd with rfl | hd
    · exact Text.toNat_lt_of_isAlphanum (by simp [Char.isAlphanum, Char.isAlpha, h.1])
    · exact Text.toNat_lt_of_isAlphanum (h.2 d hd)

theorem isAscii_of_isForm {cs : List Char} (h : isForm cs) : ∀ c ∈ cs, c.toNat < 128 := by
  intro c hc
  have hf := List.all_eq_true.mp h c hc
  rw [Bool.or_eq_true] at hf
  rcases hf with hf | hf
  · exact Text.toNat_lt_of_isAlphanum hf
  · rw [eq_of_beq hf]
    decide

theorem isAscii_render (w : Width) : ∀ c ∈ w.render.toList, c.toNat < 128 := by
  have hall : w.render.toList.all (·.toNat < 128) := by cases w <;> decide
  exact fun c hc => of_decide_eq_true (List.all_eq_true.mp hall c hc)

/-- **A well-formed key is in ASCII**, and so is its mnemonic. -/
theorem isAscii_of_parse {s : String} {k : Key} (h : parse s = .ok k) :
    Text.IsAscii s ∧ Text.IsAscii k.mnemonic := by
  obtain ⟨hk, hs⟩ := parse_eq_ok_iff.mp h
  obtain ⟨hmn, hform⟩ := wellFormed_iff.mp hk
  refine ⟨fun c hc => ?_, isAscii_of_isMnemonic hmn⟩
  rw [hs, chars, List.mem_append, List.mem_append, List.mem_cons] at hc
  rcases hc with (hc | hc) | rfl | hc
  · exact isAscii_of_isMnemonic hmn c hc
  · rcases mem_formText hc with rfl | hc
    · decide
    · exact isAscii_of_isForm hform c hc
  · decide
  · exact isAscii_render k.width c hc

end Key

/-! ## The forms that the options permit -/

/-- What the options permit of a row. Rows with several widths have the 64-bit one in long mode
only. -/
structure Row.IsPermitted (o : Options) (r : Row) (w : Width) : Prop where
  width : w ∈ r.sizes.widths
  extension : r.extension = .vex → o.vex
  long : r.mode = .long ∨ (w = .w64 ∧ r.sizes ≠ .only .w64) → o.longMode
  legacy : r.mode = .legacy → o.longMode = false

theorem Row.exists_instances_iff {o : Options} {r : Row} {w : Width} :
    (∃ m, (w, m) ∈ r.instances o) ↔ r.IsPermitted o w := by
  have hx : r.extension.included o ↔ (r.extension = .vex → o.vex) := by
    cases r.extension <;> simp [Extension.included]
  have hm : (∃ m, r.modeAt w = some m ∧ m.applies o) ↔
      (r.mode = .long ∨ (w = .w64 ∧ r.sizes ≠ .only .w64) → o.longMode) ∧
        (r.mode = .legacy → o.longMode = false) := by
    unfold Row.modeAt
    split
    · next hw => cases r.mode <;> simp [hw, Mode.applies]
    · next hw => cases r.mode <;> simp [hw, Mode.applies]
  have hi : (∃ m, (w, m) ∈ r.instances o) ↔
      r.extension.included o ∧ w ∈ r.sizes.widths ∧ ∃ m, r.modeAt w = some m ∧ m.applies o := by
    unfold Row.instances Row.expansion
    split
    · next hx =>
      simp only [hx, List.mem_filter, List.mem_filterMap, Option.map_eq_some_iff, Prod.mk.injEq,
        true_and]
      constructor
      · rintro ⟨m, ⟨_, hw, m', hm', rfl, rfl⟩, ha⟩
        exact ⟨hw, m', hm', ha⟩
      · rintro ⟨hw, m, hm, ha⟩
        exact ⟨m, ⟨w, hw, m, hm, rfl, rfl⟩, ha⟩
    · next hx => simp [hx]
  rw [hi, hx, hm]
  exact ⟨fun h => ⟨h.2.1, h.1, h.2.2.1, h.2.2.2⟩, fun h => ⟨h.2, h.1, h.3, h.4⟩⟩

/-- A row of a list at a width. -/
structure Form where
  /-- where the row stands in the list -/
  index : Nat
  row : Row
  width : Width
  mode : Mode

namespace Form

def place (f : Form) : Nat × Width :=
  (f.index, f.width)

def name (f : Form) : String :=
  f.row.key f.width

def mnemonic (f : Form) : String :=
  Key.stemMnemonic f.row.stem

def entry (f : Form) : Except Cause Entry :=
  Entry.ofRow f.row f.width f.mode

/-- The forms of all rows that the options permit. -/
def all (rows : List Row) (o : Options) : List Form :=
  rows.zipIdx.flatMap fun p => (p.1.instances o).map fun q => ⟨p.2, p.1, q.1, q.2⟩

variable {rows : List Row} {o : Options} {f : Form} {e : Entry}

theorem mem_all : f ∈ all rows o ↔
    rows[f.index]? = some f.row ∧ (f.width, f.mode) ∈ f.row.instances o := by
  rw [all, List.mem_flatMap]
  constructor
  · rintro ⟨⟨r, i⟩, hr, hf⟩
    obtain ⟨q, hq, rfl⟩ := List.mem_map.mp hf
    exact ⟨List.mem_zipIdx_iff_getElem?.mp hr, hq⟩
  · rintro ⟨hr, hq⟩
    exact ⟨(f.row, f.index), List.mem_zipIdx_iff_getElem?.mpr hr, List.mem_map.mpr ⟨_, hq, rfl⟩⟩

theorem nodup_place (rows : List Row) (o : Options) : ((all rows o).map place).Nodup := by
  rw [all, List.map_flatMap, List.nodup_flatMap]
  refine ⟨?_, ?_⟩
  · rintro ⟨r, i⟩ -
    have hw := (Table.nodup_instances r o).map (f := fun w => (i, w)) fun _ _ h => (Prod.mk.inj h).2
    rwa [List.map_map] at hw ⊢
  · have hi : (rows.zipIdx.map Prod.snd).Nodup := by
      rw [List.zipIdx_map_snd]
      exact List.nodup_range'
    refine (List.pairwise_map.mp hi).imp fun {p q} hne => ?_
    rw [Function.onFun, List.disjoint_left]
    intro x hp hq
    rw [List.map_map] at hp hq
    obtain ⟨v, -, rfl⟩ := List.mem_map.mp hp
    obtain ⟨w, -, hw⟩ := List.mem_map.mp hq
    exact hne (congrArg Prod.fst hw).symm

theorem entry_eq_ok : f.entry = .ok e ↔ ∃ k, Key.parse f.name = .ok k ∧
    e = ⟨k, f.name, f.row.op, f.row.sign, f.width, f.row.shape, f.mode, f.row.extension⟩ := by
  rw [entry, Entry.ofRow, Except.bind_eq_ok_iff]
  exact exists_congr fun k => and_congr_right fun _ => ⟨fun h => by cases h; rfl, fun h => h ▸ rfl⟩

theorem entry_eq_error {c : Cause} (h : f.entry = .error c) :
    c = .malformedKey f.name ∧ ∀ k, Key.parse f.name ≠ .ok k := by
  rcases Except.bind_eq_error_iff.mp h with hk | ⟨k, -, hk⟩
  · refine ⟨?_, fun k hok => by cases hok.symm.trans hk⟩
    unfold Key.parse at hk
    split at hk
    · cases hk
    · cases hk
      rfl
  · cases hk

theorem mnemonic_of_entry (h : f.entry = .ok e) : e.key.mnemonic = f.mnemonic := by
  obtain ⟨k, hk, rfl⟩ := entry_eq_ok.mp h
  exact (Key.parse_eq_ok hk).1

end Form

/-! ## One pass over the forms -/

namespace Table

variable {t t' : Table} {e : Entry} {f : Form} {fs done : List Form} {rows : List Row} {o : Options}

/-- The table with the entry of one more form. -/
def insertForm (t : Table) (f : Form) : Except Cause Table := do
  t.insert (← f.entry)

theorem insertRow_eq (t : Table) (r : Row) (i : Nat) (ps : List (Width × Mode)) :
    t.insertRow r ps = (ps.map fun p => (⟨i, r, p.1, p.2⟩ : Form)).foldlM insertForm t := by
  induction ps generalizing t with
  | nil => rfl
  | cons p ps ih =>
    rw [List.map_cons, List.foldlM_cons, insertForm, insertRow]
    simp only [bind_assoc, ih]
    rfl

theorem build_eq (rows : List Row) (o : Options) :
    build rows o = (Form.all rows o).foldlM insertForm {} := by
  have h : ∀ (t : Table) (n : Nat), t.insertRows o rows =
      ((rows.zipIdx n).flatMap fun p =>
        (p.1.instances o).map fun q => (⟨p.2, p.1, q.1, q.2⟩ : Form)).foldlM insertForm t := by
    induction rows with
    | nil => exact fun _ _ => rfl
    | cons r rows ih =>
      intro t n
      rw [insertRows, List.zipIdx_cons, List.flatMap_cons, List.foldlM_append, insertRow_eq t r n]
      simp only [ih _ (n + 1)]
  exact h {} 0

/-! ## What is in the indexes -/

/-- What a table with the entries of some forms has in its indexes. -/
structure Holds (t : Table) (fs : List Form) : Prop where
  entry : ∀ f ∈ fs, ∃ e, f.entry = .ok e
  get : ∀ s e, t.get? s = some e ↔ ∃ f ∈ fs, f.entry = .ok e ∧ f.name = s
  nodup : (fs.map Form.name).Nodup
  names : ∀ mn, t.names mn = (fs.filter (·.mnemonic = mn)).map Form.name
  keys : ∀ mn, mn ∈ t.mnemonics ↔ mn ∈ fs.map Form.mnemonic
  size : t.size = fs.length

theorem holds_empty : Holds {} [] where
  entry _ h := nomatch h
  get s e := by
    rw [get?, Std.ExtTreeMap.getElem?_empty]
    simp
  nodup := List.nodup_nil
  names mn := by
    rw [names, Std.ExtTreeMap.getElem?_empty]
    rfl
  keys mn := by
    rw [mnemonics, Std.ExtTreeMap.mem_keys]
    simp
  size := Std.ExtTreeMap.size_empty

theorem insert_eq_ok_iff : t.insert e = .ok t' ↔ t.get? e.name = none ∧ t' = {
    byName := t.byName.insert e.name e
    byMnemonic := t.byMnemonic.insert e.key.mnemonic (t.names e.key.mnemonic ++ [e.name]) } := by
  unfold insert
  cases t.get? e.name with
  | some e' => simp
  | none => simp [eq_comm]

theorem names_insert (h : t.insert e = .ok t') (mn : String) :
    t'.names mn = if e.key.mnemonic = mn then t.names mn ++ [e.name] else t.names mn := by
  obtain ⟨-, rfl⟩ := insert_eq_ok_iff.mp h
  rw [names, Std.ExtTreeMap.getElem?_insert]
  simp only [Std.compare_eq_iff_eq]
  split
  · next hm => rw [← hm, Option.getD_some]
  · rfl

theorem mem_mnemonics_insert (h : t.insert e = .ok t') (mn : String) :
    mn ∈ t'.mnemonics ↔ mn ∈ t.mnemonics ∨ mn = e.key.mnemonic := by
  obtain ⟨-, rfl⟩ := insert_eq_ok_iff.mp h
  rw [mnemonics, mnemonics, Std.ExtTreeMap.mem_keys, Std.ExtTreeMap.mem_keys,
    Std.ExtTreeMap.mem_insert, Std.compare_eq_iff_eq, or_comm, eq_comm]

theorem size_insert (h : t.insert e = .ok t') : t'.size = t.size + 1 := by
  obtain ⟨hn, rfl⟩ := insert_eq_ok_iff.mp h
  have hc : t.byName.contains e.name = false := by
    rw [Std.ExtTreeMap.contains_eq_isSome_getElem?]
    exact congrArg Option.isSome hn
  rw [size, Std.ExtTreeMap.size_insert, hc]
  rfl

theorem holds_insert (h : t.Holds fs) (he : f.entry = .ok e) (hi : t.insert e = .ok t') :
    t'.Holds (fs ++ [f]) := by
  have hn : e.name = f.name := name_ofRow he
  have hm : e.key.mnemonic = f.mnemonic := Form.mnemonic_of_entry he
  have hnew : ∀ g ∈ fs, g.name ≠ f.name := by
    intro g hg hgn
    obtain ⟨e', he'⟩ := h.entry g hg
    have hsome := (h.get e.name e').mpr ⟨g, hg, he', hgn.trans hn.symm⟩
    rw [(insert_eq_ok_iff.mp hi).1] at hsome
    cases hsome
  refine ⟨?_, ?_, ?_, ?_, ?_, ?_⟩
  · intro g hg
    rcases List.mem_append.mp hg with hg | hg
    · exact h.entry g hg
    · exact ⟨e, List.mem_singleton.mp hg ▸ he⟩
  · intro s e'
    simp only [get?_insert hi, hn, List.mem_append, List.mem_singleton, or_and_right, exists_or,
      exists_eq_left, he]
    split
    · next hs =>
      rw [← hs]
      refine ⟨fun h' => .inr ⟨congrArg _ (Option.some.inj h'), rfl⟩, ?_⟩
      rintro (⟨g, hg, -, hgn⟩ | ⟨h', -⟩)
      · exact absurd hgn (hnew g hg)
      · exact congrArg some (Except.ok.inj h')
    · next hs =>
      rw [h.get]
      exact ⟨.inl, fun h' => h'.resolve_right fun hr => hs hr.2⟩
  · rw [List.map_append, List.map_singleton, List.nodup_append]
    refine ⟨h.nodup, List.nodup_singleton _, ?_⟩
    intro s hs s' hs'
    obtain ⟨g, hg, rfl⟩ := List.mem_map.mp hs
    rw [List.mem_singleton.mp hs']
    exact hnew g hg
  · intro mn
    rw [names_insert hi, hm, hn, h.names, List.filter_append, List.map_append]
    split
    · next hs => simp [hs]
    · next hs => simp [hs]
  · intro mn
    rw [mem_mnemonics_insert hi, h.keys, hm, List.map_append, List.mem_append, List.map_singleton,
      List.mem_singleton]
  · rw [size_insert hi, h.size, List.length_append, List.length_singleton]

/-- **One more form** is entered in both indexes, unless its name is malformed or taken. -/
theorem insertForm_cases (h : t.Holds fs) (f : Form) :
    (t.insertForm f = .error (.malformedKey f.name) ∧ ∀ k, Key.parse f.name ≠ .ok k) ∨
      (t.insertForm f = .error (.duplicateKey f.name) ∧ ∃ g ∈ fs, g.name = f.name) ∨
      ∃ t', t.insertForm f = .ok t' ∧ t'.Holds (fs ++ [f]) := by
  cases he : f.entry with
  | error c =>
    obtain ⟨rfl, hk⟩ := Form.entry_eq_error he
    refine .inl ⟨?_, hk⟩
    rw [insertForm, he]
    rfl
  | ok e =>
    have hf : t.insertForm f = t.insert e := by
      rw [insertForm, he]
      rfl
    have hn : e.name = f.name := name_ofRow he
    rw [hf]
    refine .inr ?_
    cases hg : t.get? e.name with
    | some e' =>
      obtain ⟨g, hgm, -, hgn⟩ := (h.get _ _).mp hg
      refine .inl ⟨?_, g, hgm, hgn.trans hn⟩
      rw [insert, hg, hn]
    | none =>
      have hi := insert_eq_ok_iff.mpr ⟨hg, rfl⟩
      exact .inr ⟨_, hi, holds_insert h he hi⟩

/-- **How a pass over forms ends**: at the first form whose name is malformed or taken, or with all
forms in both indexes. -/
theorem foldlM_insertForm (h : t.Holds done) (fs : List Form) :
    (∃ f ∈ fs, (∀ k, Key.parse f.name ≠ .ok k) ∧
        fs.foldlM insertForm t = .error (.malformedKey f.name)) ∨
      (∃ front f back, done ++ fs = front ++ f :: back ∧ (∃ g ∈ front, g.name = f.name) ∧
        fs.foldlM insertForm t = .error (.duplicateKey f.name)) ∨
      ∃ t', fs.foldlM insertForm t = .ok t' ∧ t'.Holds (done ++ fs) := by
  induction fs generalizing t done with
  | nil => exact .inr (.inr ⟨t, rfl, by rwa [List.append_nil]⟩)
  | cons f fs ih =>
    rw [List.foldlM_cons]
    rcases insertForm_cases h f with ⟨hf, hk⟩ | ⟨hf, hg⟩ | ⟨u, hf, hu⟩
    · rw [hf]
      exact .inl ⟨f, List.mem_cons_self, hk, rfl⟩
    · rw [hf]
      exact .inr (.inl ⟨done, f, fs, rfl, hg, rfl⟩)
    · rw [hf, List.append_cons]
      rcases ih hu with ⟨g, hg, hk, hr⟩ | hd | hok
      · exact .inl ⟨g, List.mem_cons_of_mem _ hg, hk, hr⟩
      · exact .inr (.inl hd)
      · exact .inr (.inr hok)

/-! ## Listings -/

namespace Holds

variable {mn s : String}

theorem eq_of_name (h : t.Holds fs) {f g : Form} (hf : f ∈ fs) (hg : g ∈ fs)
    (hn : f.name = g.name) : f = g :=
  List.inj_on_of_nodup_map h.nodup hf hg hn

theorem get?_name (h : t.Holds fs) (hf : f ∈ fs) :
    ∃ e, t.get? f.name = some e ∧ f.entry = .ok e ∧ e.name = f.name := by
  obtain ⟨e, he⟩ := h.entry f hf
  exact ⟨e, (h.get _ _).mpr ⟨f, hf, he, rfl⟩, he, name_ofRow he⟩

theorem mem_withMnemonic (h : t.Holds fs) :
    e ∈ t.withMnemonic mn ↔ t.get? e.name = some e ∧ e.key.mnemonic = mn := by
  rw [withMnemonic, List.mem_mergeSort, List.mem_filterMap, h.names]
  constructor
  · rintro ⟨s, hs, hg⟩
    obtain ⟨f, hf, rfl⟩ := List.mem_map.mp hs
    obtain ⟨hf, hm⟩ := List.mem_filter.mp hf
    obtain ⟨e', he', hfe, hn⟩ := h.get?_name hf
    cases hg.symm.trans he'
    exact ⟨hn ▸ hg, (Form.mnemonic_of_entry hfe).trans (of_decide_eq_true hm)⟩
  · rintro ⟨hg, hm⟩
    obtain ⟨f, hf, he, hn⟩ := (h.get _ _).mp hg
    refine ⟨e.name, List.mem_map.mpr ⟨f, List.mem_filter.mpr ⟨hf, ?_⟩, hn⟩, hg⟩
    exact decide_eq_true ((Form.mnemonic_of_entry he).symm.trans hm)

theorem names_withMnemonic (h : t.Holds fs) (mn : String) :
    ((t.withMnemonic mn).map Entry.name).Perm (t.names mn) := by
  have hl : ((t.names mn).filterMap t.get?).map Entry.name = t.names mn := by
    have hs : ∀ s ∈ t.names mn, (t.get? s).map Entry.name = some s := by
      intro s hs
      rw [h.names] at hs
      obtain ⟨f, hf, rfl⟩ := List.mem_map.mp hs
      obtain ⟨e, hg, -, hn⟩ := h.get?_name (List.mem_filter.mp hf).1
      rw [hg, Option.map_some, hn]
    rw [List.map_filterMap, List.filterMap_congr hs, List.filterMap_some]
  have hp := (List.mergeSort_perm ((t.names mn).filterMap t.get?) fun a b => a.name ≤ b.name).map
    Entry.name
  rwa [hl] at hp

theorem isAscii_name (h : t.Holds fs) (he : e ∈ t.withMnemonic mn) :
    Text.IsAscii e.name := by
  obtain ⟨f, -, he, -⟩ := (h.get _ _).mp (h.mem_withMnemonic.mp he).1
  obtain ⟨k, hk, rfl⟩ := Form.entry_eq_ok.mp he
  exact (Key.isAscii_of_parse hk).1

/-- **The listing for a mnemonic is strictly ascending.** -/
theorem pairwise_withMnemonic (h : t.Holds fs) (mn : String) :
    (t.withMnemonic mn).Pairwise fun a b => Text.byteValues a.name < Text.byteValues b.name := by
  have hle : (t.withMnemonic mn).Pairwise fun a b => a.name ≤ b.name := by
    have hs := @List.pairwise_mergeSort Entry (fun a b => decide (a.name ≤ b.name))
      (by simp only [decide_eq_true_eq]; exact fun a b c => String.le_trans)
      (by simp [String.le_total]) ((t.names mn).filterMap t.get?)
    rw [withMnemonic]
    simpa only [decide_eq_true_eq] using hs
  have hne : (t.withMnemonic mn).Pairwise fun a b => a.name ≠ b.name := by
    refine List.pairwise_map.mp ((h.names_withMnemonic mn).nodup_iff.mpr ?_)
    rw [h.names]
    exact h.nodup.sublist (List.filter_sublist.map _)
  refine (hle.and hne).imp_of_mem fun {a b} ha hb hab => ?_
  exact Text.byteValues_lt (h.isAscii_name ha) (h.isAscii_name hb) (lt_of_le_of_ne hab.1 hab.2)

theorem isAscii_mnemonic (h : t.Holds fs) (hmn : mn ∈ t.mnemonics) : Text.IsAscii mn := by
  obtain ⟨f, hf, rfl⟩ := List.mem_map.mp ((h.keys _).mp hmn)
  obtain ⟨e, he⟩ := h.entry f hf
  obtain ⟨k, hk, rfl⟩ := Form.entry_eq_ok.mp he
  rw [← Form.mnemonic_of_entry he]
  exact (Key.isAscii_of_parse hk).2

theorem pairwise_mnemonics (t : Table) : t.mnemonics.Pairwise (· < ·) :=
  Std.ExtTreeMap.ordered_keys.imp compare_lt_iff_lt.mp

/-- **The listings have as many entries as the table.** -/
theorem sum_withMnemonic (h : t.Holds fs) :
    (t.mnemonics.map fun mn => (t.withMnemonic mn).length).sum = t.size := by
  have hl : ∀ mn, (t.withMnemonic mn).length = (fs.map Form.mnemonic).count mn := by
    intro mn
    have hn := (h.names_withMnemonic mn).length_eq
    rw [List.length_map, h.names, List.length_map] at hn
    rw [hn, List.count, List.countP_map, List.countP_eq_length_filter]
    rfl
  have hp : t.mnemonics.Perm (fs.map Form.mnemonic).dedup :=
    (List.perm_ext_iff_of_nodup ((pairwise_mnemonics t).imp ne_of_lt) (List.nodup_dedup _)).mpr
      fun mn => by rw [h.keys, List.mem_dedup]
  simp only [hl]
  rw [(hp.map _).sum_eq, List.sum_map_count_dedup_eq_length, List.length_map, h.size]

end Holds

/-! ## Built tables -/

/-- The row at a place of a list is permitted at a width and has a name there. -/
def Gives (rows : List Row) (o : Options) (p : Nat × Width) (s : String) : Prop :=
  ∃ r, rows[p.1]? = some r ∧ r.IsPermitted o p.2 ∧ r.key p.2 = s

theorem gives_iff {p : Nat × Width} {s : String} :
    Gives rows o p s ↔ ∃ f ∈ Form.all rows o, f.place = p ∧ f.name = s := by
  constructor
  · rintro ⟨r, hr, hp, hs⟩
    obtain ⟨m, hm⟩ := Row.exists_instances_iff.mpr hp
    exact ⟨⟨p.1, r, p.2, m⟩, Form.mem_all.mpr ⟨hr, hm⟩, rfl, hs⟩
  · rintro ⟨f, hf, rfl, hs⟩
    obtain ⟨hr, hm⟩ := Form.mem_all.mp hf
    exact ⟨f.row, hr, Row.exists_instances_iff.mp ⟨_, hm⟩, hs⟩

/-- What a table of the permitted forms of some rows finds and lists. -/
structure Indexes (t : Table) (rows : List Row) (o : Options) : Prop where
  wellFormed : ∀ p s, Gives rows o p s → ∃ k, Key.parse s = .ok k
  unique : ∀ p q s, Gives rows o p s → Gives rows o q s → p = q
  found : ∀ s, (∃ e, t.lookup s = .ok e) ↔ ∃ p, Gives rows o p s
  entry : ∀ s e, t.lookup s = .ok e → ∃ i r,
    Gives rows o (i, e.width) s ∧ rows[i]? = some r ∧ e.name = s ∧ Key.parse s = .ok e.key ∧
      e.op = r.op ∧ e.sign = r.sign ∧ e.shape = r.shape ∧ e.extension = r.extension
  listed : ∀ mn e, e ∈ t.withMnemonic mn ↔ t.lookup e.name = .ok e ∧ e.key.mnemonic = mn
  ascending : ∀ mn, (t.withMnemonic mn).Pairwise fun a b =>
    Text.byteValues a.name < Text.byteValues b.name
  mnemonics : t.mnemonics.Pairwise fun a b => Text.byteValues a < Text.byteValues b
  size : (t.mnemonics.map fun mn => (t.withMnemonic mn).length).sum = t.size

theorem lookup_eq_ok_iff {s : String} : t.lookup s = .ok e ↔ t.get? s = some e := by
  unfold lookup
  cases t.get? s <;> simp

theorem Holds.indexes (h : t.Holds (Form.all rows o)) : t.Indexes rows o where
  wellFormed p s hp := by
    obtain ⟨f, hf, -, rfl⟩ := gives_iff.mp hp
    obtain ⟨e, he⟩ := h.entry f hf
    obtain ⟨k, hk, -⟩ := Form.entry_eq_ok.mp he
    exact ⟨k, hk⟩
  unique p q s hp hq := by
    obtain ⟨f, hf, rfl, rfl⟩ := gives_iff.mp hp
    obtain ⟨g, hg, rfl, hn⟩ := gives_iff.mp hq
    rw [h.eq_of_name hg hf hn]
  found s := by
    simp only [lookup_eq_ok_iff, h.get, gives_iff]
    constructor
    · rintro ⟨e, f, hf, -, hn⟩
      exact ⟨f.place, f, hf, rfl, hn⟩
    · rintro ⟨-, f, hf, -, hn⟩
      obtain ⟨e, he⟩ := h.entry f hf
      exact ⟨e, f, hf, he, hn⟩
  entry s e he := by
    obtain ⟨f, hf, hfe, rfl⟩ := (h.get _ _).mp (lookup_eq_ok_iff.mp he)
    obtain ⟨k, hk, rfl⟩ := Form.entry_eq_ok.mp hfe
    refine ⟨f.index, f.row, gives_iff.mpr ⟨f, hf, rfl, rfl⟩, (Form.mem_all.mp hf).1, rfl, hk, ?_⟩
    exact ⟨rfl, rfl, rfl, rfl⟩
  listed mn e := by rw [h.mem_withMnemonic, lookup_eq_ok_iff]
  ascending := h.pairwise_withMnemonic
  mnemonics := (pairwise_mnemonics t).imp_of_mem fun ha hb hab =>
    Text.byteValues_lt (h.isAscii_mnemonic ha) (h.isAscii_mnemonic hb) hab
  size := h.sum_withMnemonic

/-- **What building a table can end with.** A name that the options permit is malformed, two rows
or widths have the same name, or the names are well-formed and unique and the table finds and lists
them. The last is the case for the rows of the instruction forms. -/
theorem build_cases (rows : List Row) (o : Options) :
    ((∃ s, build rows o = .error (.malformedKey s) ∧ (∃ p, Gives rows o p s) ∧
          ∀ k, Key.parse s ≠ .ok k) ∨
        (∃ s, build rows o = .error (.duplicateKey s) ∧
          ∃ p q, p ≠ q ∧ Gives rows o p s ∧ Gives rows o q s) ∨
        ∃ t, build rows o = .ok t ∧ t.Indexes rows o) ∧
      ∃ t, build Rows.all o = .ok t := by
  refine ⟨?_, exists_build o⟩
  rw [build_eq]
  rcases foldlM_insertForm holds_empty (Form.all rows o) with ⟨f, hf, hk, hr⟩ |
    ⟨front, f, back, hfs, ⟨g, hg, hn⟩, hr⟩ | ⟨t, hr, ht⟩
  · exact .inl ⟨f.name, hr, ⟨f.place, gives_iff.mpr ⟨f, hf, rfl, rfl⟩⟩, hk⟩
  · rw [List.nil_append] at hfs
    have hgm : g ∈ Form.all rows o := hfs ▸ List.mem_append_left _ hg
    have hfm : f ∈ Form.all rows o := hfs ▸ List.mem_append_right _ List.mem_cons_self
    refine .inr (.inl ⟨f.name, hr, g.place, f.place, ?_, gives_iff.mpr ⟨g, hgm, rfl, hn⟩,
      gives_iff.mpr ⟨f, hfm, rfl, rfl⟩⟩)
    -- forms at the same place would make a place occur twice
    intro hp
    have hnd := Form.nodup_place rows o
    rw [hfs, List.map_append, List.map_cons, List.nodup_append] at hnd
    exact hnd.2.2 _ (List.mem_map_of_mem hg) _ List.mem_cons_self hp
  · exact .inr (.inr ⟨t, hr, ht.indexes⟩)

end Table

end X86
