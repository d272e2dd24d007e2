import Mathlib.Algebra.Group.Nat.Defs
import X86.State

/-!
# Checked access to memory

A read or a write of a range succeeds exactly when the whole range is mapped. What is read after a
batch of stores is what was stored.

* `Except.bind_eq_ok_iff`, `Except.bind_eq_error_iff`: when a joined computation ends with a value,
  and when with an error;
* `Memory.readBytes_eq_ok_iff`, `Memory.readByte_eq_error`: the bytes of a range, and why one is
  missing;
* `Memory.commit_eq_ok_iff`: a batch of stores is made when every range in it is mapped;
* `Memory.byte?_foldl_apply`: after a batch of stores the last one that covers an address decides;
* `Memory.read_apply`: a range that a store has filled reads as the stored value;
* `Memory.isSome_byte?_foldl_apply`, `Memory.check_congr`: stores keep the mapped addresses, and
  these decide whether a range can be written.
-/

namespace Except

variable {ε α β : Type}

theorem bind_eq_ok_iff {x : Except ε α} {f : α → Except ε β} {b : β} :
    x >>= f = .ok b ↔ ∃ a, x = .ok a ∧ f a = .ok b := by
  cases x with
  | ok a =>
    constructor
    · intro h
      exact ⟨a, rfl, h⟩
    · rintro ⟨a', h, h'⟩
      cases h
      exact h'
  | error c =>
    constructor
    · intro h
      cases h
    · rintro ⟨a, h, -⟩
      cases h

theorem bind_eq_error_iff {x : Except ε α} {f : α → Except ε β} {c : ε} :
    x >>= f = .error c ↔ x = .error c ∨ ∃ a, x = .ok a ∧ f a = .error c := by
  cases x with
  | ok a =>
    constructor
    · intro h
      exact .inr ⟨a, rfl, h⟩
    · rintro (h | ⟨a', h, h'⟩) <;> cases h
      exact h'
  | error c' =>
    constructor
    · intro h
      cases h
      exact .inl rfl
    · rintro (h | ⟨a, h, -⟩) <;> cases h
      rfl

theorem pure_eq_ok_iff {a b : α} : (pure a : Except ε α) = .ok b ↔ a = b :=
  ⟨fun h => by cases h; rfl, fun h => h ▸ rfl⟩

theorem pure_ne_error {a : α} {c : ε} : (pure a : Except ε α) ≠ .error c :=
  fun h => nomatch h

end Except

namespace X86.Memory

/-! ## Addresses of a range -/

theorem toNat_add_ofNat_sub (a : Address) {i : Nat} (h : i < 2 ^ 64) :
    (a + BitVec.ofNat 64 i - a).toNat = i := by
  rw [BitVec.add_comm, BitVec.add_sub_cancel, BitVec.toNat_ofNat, Nat.mod_eq_of_lt h]

theorem add_ofNat_toNat_sub (a x : Address) : a + BitVec.ofNat 64 (x - a).toNat = x := by
  rw [BitVec.ofNat_toNat, BitVec.setWidth_eq, BitVec.add_comm, BitVec.sub_add_cancel]

theorem toNat_sub_add_lt_iff {a x : Address} {j k : Nat} (h : j + k ≤ 2 ^ 64) :
    (x - (a + BitVec.ofNat 64 j)).toNat < k ↔ j ≤ (x - a).toNat ∧ (x - a).toNat < j + k := by
  have hx := x.isLt
  have ha := a.isLt
  simp only [BitVec.toNat_sub, BitVec.toNat_add, BitVec.toNat_ofNat]
  omega

theorem le_toNat_sub_add_iff {a x : Address} {j k : Nat} (h : j + k ≤ 2 ^ 64) :
    k ≤ (x - (a + BitVec.ofNat 64 j)).toNat ↔ (x - a).toNat < j ∨ j + k ≤ (x - a).toNat := by
  rw [← Nat.not_lt, toNat_sub_add_lt_iff h]
  omega

/-! ## Reading a range -/

theorem readByte_eq_ok_iff {m : Memory} {a : Address} {b : Byte} :
    m.readByte a = .ok b ↔ m.byte? a = some b := by
  unfold readByte
  cases m.byte? a <;> simp

theorem readBytes_eq_ok_iff {m : Memory} {a : Address} {len : Nat} {bs : List Byte} :
    m.readBytes a len = .ok bs ↔
      bs.length = len ∧ ∀ i < len, m.byte? (a + BitVec.ofNat 64 i) = bs[i]? := by
  induction len generalizing a bs with
  | zero =>
    rw [readBytes, Except.ok.injEq, List.length_eq_zero_iff]
    exact ⟨fun h => ⟨h.symm, by simp⟩, fun h => h.1.symm⟩
  | succ len ih =>
    simp only [readBytes, Except.bind_eq_ok_iff, Except.pure_eq_ok_iff, readByte_eq_ok_iff, ih]
    constructor
    · rintro ⟨b, hb, cs, ⟨hlen, hcs⟩, rfl⟩
      refine ⟨by simp [hlen], fun i hi => ?_⟩
      cases i with
      | zero => simpa using hb
      | succ i => rw [add_ofNat_succ]; simpa using hcs i (by omega)
    · rintro ⟨hlen, h⟩
      cases bs with
      | nil => simp at hlen
      | cons b cs =>
        refine ⟨b, by simpa using h 0 (by omega), cs, ⟨by simpa using hlen, fun i hi => ?_⟩, rfl⟩
        rw [← add_ofNat_succ]
        simpa using h (i + 1) (by omega)

theorem readBytes_congr {m n : Memory} {a : Address} {len : Nat}
    (h : ∀ x, (x - a).toNat < len → m.byte? x = n.byte? x) :
    m.readBytes a len = n.readBytes a len := by
  induction len generalizing a with
  | zero => rfl
  | succ len ih =>
    have hfirst : m.byte? a = n.byte? a := h a (by rw [BitVec.sub_self]; exact Nat.succ_pos len)
    have hrest : m.readBytes (a + 1) len = n.readBytes (a + 1) len := by
      refine ih fun x hx => ?_
      by_cases hxa : x = a
      · rw [hxa, hfirst]
      · exact h x (by rw [toNat_sub_succ hxa]; omega)
    rw [readBytes, readBytes, readByte, readByte, hfirst, hrest]

theorem readByte_eq_error {m : Memory} {a : Address} {c : Cause} (h : m.readByte a = .error c) :
    c = .unmappedRead a := by
  unfold readByte at h
  split at h <;> cases h
  rfl

/-! ## Writing -/

theorem check_eq_error {m : Memory} {a : Address} {w : Width} {c : Cause}
    (h : m.check a w = .error c) : c = .unmappedWrite w a := by
  unfold check at h
  split at h <;> cases h
  rfl

theorem checkAll_eq_ok_iff {m : Memory} {ss : List Store} :
    m.checkAll ss = .ok () ↔ ∀ s ∈ ss, m.check s.address s.width = .ok () := by
  induction ss with
  | nil => simp [checkAll]
  | cons s ss ih =>
    simp only [checkAll, Except.bind_eq_ok_iff, ih, List.mem_cons, forall_eq_or_imp]
    exact ⟨fun ⟨_, h, h'⟩ => ⟨h, h'⟩, fun ⟨h, h'⟩ => ⟨(), h, h'⟩⟩

/-- **A batch of stores is made exactly when every range in it is mapped.** -/
theorem commit_eq_ok_iff {m n : Memory} {ss : List Store} :
    m.commit ss = .ok n ↔
      (∀ s ∈ ss, m.check s.address s.width = .ok ()) ∧ ss.foldl apply m = n := by
  simp only [commit, Except.bind_eq_ok_iff, Except.pure_eq_ok_iff, ← checkAll_eq_ok_iff]
  exact ⟨fun ⟨_, h, h'⟩ => ⟨h, h'⟩, fun ⟨h, h'⟩ => ⟨(), h, h'⟩⟩

theorem byte?_foldl_apply (m : Memory) (ss : List Store) (a : Address) :
    (ss.foldl apply m).byte? a = (ss.reverse.findSome? (·.byteAt? a)).or (m.byte? a) := by
  induction ss generalizing m with
  | nil => rfl
  | cons s ss ih =>
    rw [List.foldl_cons, ih, byte?_apply, List.reverse_cons, List.findSome?_append, Option.or_assoc]
    congr 2
    simp

theorem apply_trunc (m : Memory) (a : Address) (w : Width) (v : Lanes) :
    m.apply ⟨a, w, Lanes.trunc w v⟩ = m.apply ⟨a, w, v⟩ := by
  have h : (Lanes.trunc w v).toBytes w = v.toBytes w := by
    rw [← Lanes.ofBytes_toBytes, Lanes.toBytes_ofBytes (Lanes.length_toBytes w v)]
  simp only [apply, h]

theorem read_apply (m : Memory) (s : Store) :
    (m.apply s).read s.address s.width = .ok (Lanes.trunc s.width s.value) := by
  have hw := s.width.bytes_le
  have h : (m.apply s).readBytes s.address s.width.bytes = .ok (s.value.toBytes s.width) := by
    refine readBytes_eq_ok_iff.mpr ⟨Lanes.length_toBytes _ _, fun i hi => ?_⟩
    rw [byte?_apply, Store.byteAt?, toNat_add_ofNat_sub _ (by omega), Lanes.getElem?_toBytes,
      if_pos hi]
    rfl
  unfold read
  rw [h]
  exact congrArg Except.ok (Lanes.ofBytes_toBytes _ _)

/-! ## The mapped addresses -/

theorem check_eq_ok_iff {m : Memory} {a : Address} {w : Width} : m.check a w = .ok () ↔
    ∀ x, (x - a).toNat < w.bytes → (m.byte? x).isSome := by
  have hw := w.bytes_le
  have hm : m.isMapped a w.bytes ↔ ∀ x, (x - a).toNat < w.bytes → (m.byte? x).isSome := by
    rw [isMapped_iff]
    constructor
    · intro h x hx
      rw [← add_ofNat_toNat_sub a x]
      exact h _ hx
    · intro h i hi
      exact h _ (by rw [toNat_add_ofNat_sub _ (by omega)]; exact hi)
  rw [← hm]
  unfold check
  split <;> simp [*]

theorem check_congr {m n : Memory} {a : Address} {w : Width}
    (h : ∀ x, (x - a).toNat < w.bytes → (m.byte? x).isSome = (n.byte? x).isSome) :
    m.check a w = n.check a w := by
  have hiff : m.check a w = .ok () ↔ n.check a w = .ok () := by
    rw [check_eq_ok_iff, check_eq_ok_iff]
    exact forall_congr' fun x => imp_congr_right fun hx => by rw [h x hx]
  cases hm : m.check a w with
  | ok _ => exact (hiff.mp hm).symm
  | error c =>
    cases hn : n.check a w with
    | ok _ => rw [hiff.mpr hn] at hm; cases hm
    | error c' => rw [check_eq_error hm, check_eq_error hn]

theorem isSome_byte?_foldl_apply {m : Memory} {ss : List Store}
    (h : ∀ s ∈ ss, m.check s.address s.width = .ok ()) (a : Address) :
    ((ss.foldl apply m).byte? a).isSome = (m.byte? a).isSome := by
  rw [byte?_foldl_apply, Option.isSome_or]
  cases hb : ss.reverse.findSome? (·.byteAt? a) with
  | none => rfl
  | some b =>
    obtain ⟨s, hs, hb⟩ := List.exists_of_findSome?_eq_some hb
    have hcov : (a - s.address).toNat < s.width.bytes := by
      simp only [Store.byteAt?, Option.ite_none_right_eq_some] at hb
      exact hb.1
    rw [check_eq_ok_iff.mp (h s (List.mem_reverse.mp hs)) a hcov]
    rfl

end X86.Memory
