import Mathlib.Data.List.Nodup
import Mathlib.Data.List.TakeWhile
import Std.Data.TreeSet
import X86.Proofs.Table

/-!
# Selecting instruction forms

The keys of the instruction forms are well-formed and different from each other. So a table can be
built under all options, and it has every form that the options permit under its key.

* `Rows.nodup_stem`, `Rows.exists_parse`: the stems are different, and their keys well-formed;
* `Row.key_inj`: a key determines the stem and the width;
* `Table.get?_of_insertRows`: what is inserted stays;
* **`Table.exists_build`**: under all options there is a table;
* **`Table.get?_of_build`**: it has the forms that the options permit;
* **`Table.fields_of_get?`**: what the entry with the key of a form is.
-/

namespace X86

/-! ## The stems are different -/

/-- A number for a text, by which texts are told apart quickly. -/
def textCode (s : String) : Nat :=
  s.toByteArray.data.toList.foldl (fun n b => 256 * n + b.toNat) 0

/-- Whether numbers are different from each other and from those seen before. -/
def areNew (seen : Std.TreeSet Nat) : List Nat → Bool
  | [] => true
  | n :: ns => !seen.contains n && areNew (seen.insert n) ns

theorem nodup_of_areNew {seen : Std.TreeSet Nat} {ns : List Nat} (h : areNew seen ns) :
    ns.Nodup ∧ ∀ n ∈ ns, n ∉ seen := by
  induction ns generalizing seen with
  | nil => simp
  | cons n ns ih =>
    simp only [areNew, Bool.and_eq_true, Bool.not_eq_true', ← Bool.not_eq_true,
      Std.TreeSet.contains_iff_mem] at h
    obtain ⟨hn, hns⟩ := ih h.2
    refine ⟨List.nodup_cons.mpr ⟨fun hmem => ?_, hn⟩, fun x hx => ?_⟩
    · exact hns n hmem Std.TreeSet.mem_insert_self
    · rcases List.mem_cons.mp hx with rfl | hx
      · exact h.1
      · exact fun hseen => hns x hx (Std.TreeSet.mem_insert.mpr (.inr hseen))

theorem Rows.nodup_stem : (Rows.all.map Row.stem).Nodup := by
  have h : areNew ∅ ((Rows.all.map Row.stem).map textCode) := by decide +kernel
  exact List.Nodup.of_map _ (nodup_of_areNew h).1

/-! ## Keys -/

theorem Row.key_inj {r r' : Row} {w w' : Width} (h : r.key w = r'.key w') :
    r.stem = r'.stem ∧ w = w' := by
  have hcut := Key.cutLast_key r.stem w
  rw [← Row.key, h, Row.key, Key.cutLast_key, Option.some.injEq, Prod.mk.injEq] at hcut
  exact ⟨String.toList_inj.mp hcut.1.symm, Key.render_inj hcut.2.symm⟩

theorem Op.isMnemonic_of_mem {op : Op} {s : Sign} {mn : String} (h : mn ∈ op.mnemonics s) :
    Key.isMnemonic mn.toList := by
  have key : ∀ mn ∈ op.mnemonics s, Key.isMnemonic mn.toList := by
    cases op <;> cases s <;> decide
  exact key mn h

theorem Rows.exists_parse {r : Row} (h : r ∈ Rows.all) (w : Width) :
    ∃ k, Key.parse (r.key w) = .ok k := by
  obtain ⟨mn, hmn, hs⟩ := Rows.exists_mnemonic r h
  have hm := Op.isMnemonic_of_mem hmn
  rcases hs with hs | ⟨hs, hform, hne⟩
  · refine ⟨⟨mn, "", w⟩, Key.parse_eq_ok_iff_spells.mpr ⟨Key.wellFormed_iff.mpr ⟨hm, rfl⟩, ?_⟩⟩
    exact .inl ⟨rfl, by rw [Row.key, hs]; rfl⟩
  · have hl : (r.form mn).toList = r.formChars mn := String.toList_ofList
    refine ⟨⟨mn, r.form mn, w⟩, Key.parse_eq_ok_iff_spells.mpr
      ⟨Key.wellFormed_iff.mpr ⟨hm, hl ▸ hform⟩, .inr ⟨fun hn => hne ?_, ?_⟩⟩⟩
    · rw [← hl, show r.form mn = "" from hn]
      rfl
    · rw [Row.key, hs]
      rfl

/-! ## Building a table -/

namespace Table

variable {t t' : Table} {e : Entry} {o : Options} {r : Row} {rows : List Row} {name : String}

theorem get?_of_insert {e' : Entry} (h : t.insert e' = .ok t') (hg : t.get? name = some e) :
    t'.get? name = some e := by
  rw [get?_insert h, if_neg]
  · exact hg
  · -- No entry replaces another one.
    rintro rfl
    unfold insert at h
    rw [hg] at h
    cases h

theorem get?_of_insertRow {ps : List (Width × Mode)} (h : t.insertRow r ps = .ok t')
    (hg : t.get? name = some e) : t'.get? name = some e := by
  induction ps generalizing t with
  | nil => cases h; exact hg
  | cons p ps ih =>
    obtain ⟨e', -, h⟩ := Except.bind_eq_ok_iff.mp h
    obtain ⟨u, hu, h⟩ := Except.bind_eq_ok_iff.mp h
    exact ih h (get?_of_insert hu hg)

theorem get?_of_insertRows (h : t.insertRows o rows = .ok t') (hg : t.get? name = some e) :
    t'.get? name = some e := by
  induction rows generalizing t with
  | nil => cases h; exact hg
  | cons r rows ih =>
    obtain ⟨u, hu, h⟩ := Except.bind_eq_ok_iff.mp h
    exact ih h (get?_of_insertRow hu hg)

theorem name_ofRow {w : Width} {m : Mode} (h : Entry.ofRow r w m = .ok e) : e.name = r.key w := by
  obtain ⟨k, -, h⟩ := Except.bind_eq_ok_iff.mp h
  cases h
  rfl

theorem get?_of_mem_insertRow {ps : List (Width × Mode)} (h : t.insertRow r ps = .ok t')
    {p : Width × Mode} (hp : p ∈ ps) :
    ∃ e, Entry.ofRow r p.1 p.2 = .ok e ∧ t'.get? (r.key p.1) = some e := by
  induction ps generalizing t with
  | nil => cases hp
  | cons q ps ih =>
    obtain ⟨e, he, hrest⟩ := Except.bind_eq_ok_iff.mp h
    obtain ⟨u, hu, hps⟩ := Except.bind_eq_ok_iff.mp hrest
    rcases List.mem_cons.mp hp with rfl | hp
    · refine ⟨e, he, get?_of_insertRow hps ?_⟩
      rw [get?_insert hu, if_pos (name_ofRow he)]
    · exact ih hps hp

theorem get?_of_mem_insertRows (h : t.insertRows o rows = .ok t') (hr : r ∈ rows)
    {p : Width × Mode} (hp : p ∈ r.instances o) :
    ∃ e, Entry.ofRow r p.1 p.2 = .ok e ∧ t'.get? (r.key p.1) = some e := by
  induction rows generalizing t with
  | nil => cases hr
  | cons q rows ih =>
    obtain ⟨u, hu, hrows⟩ := Except.bind_eq_ok_iff.mp h
    rcases List.mem_cons.mp hr with rfl | hr
    · obtain ⟨e, he, hg⟩ := get?_of_mem_insertRow hu hp
      exact ⟨e, he, get?_of_insertRows hrows hg⟩
    · exact ih hrows hr

/-- **A table has the forms that the options permit.** -/
theorem get?_of_build (h : build rows o = .ok t) (hr : r ∈ rows) {p : Width × Mode}
    (hp : p ∈ r.instances o) :
    ∃ e, Entry.ofRow r p.1 p.2 = .ok e ∧ t.get? (r.key p.1) = some e :=
  get?_of_mem_insertRows h hr hp

theorem get?_of_ofRow (h : build rows o = .ok t) (hr : r ∈ rows) {p : Width × Mode}
    (hp : p ∈ r.instances o) (he : Entry.ofRow r p.1 p.2 = .ok e) :
    t.get? (r.key p.1) = some e := by
  obtain ⟨e', he', hg⟩ := get?_of_build h hr hp
  cases he.symm.trans he'
  exact hg

/-- **The entry with the key of a row** is that of the row. -/
theorem fields_of_get? (h : build Rows.all o = .ok t) (hr : r ∈ Rows.all) {w : Width}
    (hg : t.get? (r.key w) = some e) :
    e.op = r.op ∧ e.sign = r.sign ∧ e.width = w ∧ e.shape = r.shape := by
  obtain ⟨r', hr', p, -, he, hname⟩ := get?_build h hg
  rw [name_ofRow he] at hname
  obtain ⟨hstem, hw⟩ := Row.key_inj hname
  obtain rfl : r' = r := List.inj_on_of_nodup_map Rows.nodup_stem hr' hr hstem
  obtain ⟨_, -, he⟩ := Except.bind_eq_ok_iff.mp he
  cases he
  exact ⟨rfl, rfl, hw, rfl⟩

theorem nodup_instances (r : Row) (o : Options) : ((r.instances o).map Prod.fst).Nodup := by
  have hw : r.sizes.widths.Nodup := by
    cases r.sizes with
    | byte | words | scalars => decide
    | only w => exact List.nodup_singleton w
  have he : (r.expansion.map Prod.fst).Nodup := by
    refine List.Nodup.sublist ?_ hw
    unfold Row.expansion
    induction r.sizes.widths with
    | nil => exact List.Sublist.refl _
    | cons w ws ih =>
      rw [List.filterMap_cons]
      cases r.modeAt w with
      | none => exact ih.cons _
      | some m => exact ih.cons_cons _
  unfold Row.instances
  split
  · exact he.sublist (List.filter_sublist.map _)
  · exact List.nodup_nil

theorem exists_insertRow {ps : List (Width × Mode)} (hk : ∀ w, ∃ k, Key.parse (r.key w) = .ok k)
    (hw : (ps.map Prod.fst).Nodup) (hn : ∀ p ∈ ps, t.get? (r.key p.1) = none) :
    ∃ t', t.insertRow r ps = .ok t' := by
  induction ps generalizing t with
  | nil => exact ⟨t, rfl⟩
  | cons p ps ih =>
    rw [List.map_cons, List.nodup_cons] at hw
    obtain ⟨k, hk'⟩ := hk p.1
    obtain ⟨e, he⟩ : ∃ e, Entry.ofRow r p.1 p.2 = .ok e :=
      ⟨_, Except.bind_eq_ok_iff.mpr ⟨k, hk', rfl⟩⟩
    obtain ⟨u, hu⟩ : ∃ u, t.insert e = .ok u := by
      unfold insert
      rw [name_ofRow he, hn p List.mem_cons_self]
      exact ⟨_, rfl⟩
    obtain ⟨t', ht'⟩ := ih (t := u) hw.2 fun q hq => by
      rw [get?_insert hu, if_neg, hn q (List.mem_cons_of_mem _ hq)]
      rw [name_ofRow he]
      intro h
      exact hw.1 ((Row.key_inj h).2 ▸ List.mem_map_of_mem hq)
    exact ⟨t', Except.bind_eq_ok_iff.mpr ⟨e, he, Except.bind_eq_ok_iff.mpr ⟨u, hu, ht'⟩⟩⟩

theorem exists_insertRows (hk : ∀ r ∈ rows, ∀ w, ∃ k, Key.parse (r.key w) = .ok k)
    (hs : (rows.map Row.stem).Nodup) (hn : ∀ r ∈ rows, ∀ w, t.get? (r.key w) = none) :
    ∃ t', t.insertRows o rows = .ok t' := by
  induction rows generalizing t with
  | nil => exact ⟨t, rfl⟩
  | cons r rows ih =>
    rw [List.map_cons, List.nodup_cons] at hs
    obtain ⟨u, hu⟩ := exists_insertRow (hk r List.mem_cons_self) (nodup_instances r o)
      fun p _ => hn r List.mem_cons_self p.1
    obtain ⟨t', ht'⟩ := ih (t := u) (fun q hq => hk q (List.mem_cons_of_mem _ hq)) hs.2
      fun q hq w => by
        cases hg : u.get? (q.key w) with
        | none => rfl
        | some e =>
          rcases get?_insertRow hu hg with hg | ⟨p, -, he, hname⟩
          · rw [hn q (List.mem_cons_of_mem _ hq)] at hg
            cases hg
          · rw [name_ofRow he] at hname
            exact absurd (List.mem_map_of_mem hq) ((Row.key_inj hname).1 ▸ hs.1)
    exact ⟨t', Except.bind_eq_ok_iff.mpr ⟨u, hu, ht'⟩⟩

/-- **Under all options there is a table** of the instruction forms. -/
theorem exists_build (o : Options) : ∃ t, build Rows.all o = .ok t :=
  exists_insertRows (fun _ hr => Rows.exists_parse hr) Rows.nodup_stem fun r _ w => by
    rw [get?, Std.ExtTreeMap.getElem?_empty]

end Table

end X86
