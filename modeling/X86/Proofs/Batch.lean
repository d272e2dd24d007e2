import X86.Proofs.Limbs
import X86.Proofs.Readiness

/-!
# Batches of stores

A batch checks the ranges of all its stores before it makes the first of them. Stores keep the
mapped addresses, so the checks could as well be made one by one between the stores, but then a
refused store would leave those before it behind.

* `Store.Covers`, `Memory.MapsRange`: the addresses of a store, and ranges that are mapped;
* `Memory.read_eq_ok_iff`: a range is read as the number that its bytes form;
* `Memory.checkAll_congr`, `Memory.commit_eq_foldlM`: checks before and between the stores;
* `Memory.byte?_foldl_apply_of_last`: the last store that covers an address decides on its byte;
* `Memory.InPlace`, `InPlace.run_commit`: batches that change a memory in place;
* `InPlace.run_writes`: what stores without a common check leave behind;
* **`Memory.commit_exact`**: when a batch is made, and what it then leaves behind.
-/

namespace X86

namespace Store

variable {s : Store} {x : Address}

/-- An address is in the range of a store, which may go on at zero behind the last address. -/
def Covers (s : Store) (x : Address) : Prop :=
  (x - s.address).toNat < s.width.bytes

theorem isSome_byteAt?_iff : (s.byteAt? x).isSome ↔ s.Covers x := by
  simp [byteAt?, Covers]

theorem byteAt?_of_not_covers (h : ¬ s.Covers x) : s.byteAt? x = none :=
  if_neg h

end Store

namespace Memory

variable {m n : Memory} {a : Address} {w : Width} {ss : List Store} {x : Address}

/-! ## Mapped ranges -/

/-- All bytes from an address on are mapped, as many as the width has. -/
def MapsRange (m : Memory) (a : Address) (w : Width) : Prop :=
  ∀ i < w.bytes, (m.byte? (a + .ofNat 64 i)).isSome

theorem check_iff_mapsRange : m.check a w = .ok () ↔ m.MapsRange a w := by
  rw [MapsRange, ← isMapped_iff, check]
  split <;> simp [*]

theorem exists_commit_iff :
    (∃ n, m.commit ss = .ok n) ↔ ∀ s ∈ ss, m.MapsRange s.address s.width := by
  simp [commit_eq_ok_iff, check_iff_mapsRange]

/-- **A range is read as the number that its bytes form**, the lowest byte first. -/
theorem read_eq_ok_iff {l : Lanes} : m.read a w = .ok l ↔
    ∃ bs : List Byte, bs.length = w.bytes ∧
      (∀ i < w.bytes, m.byte? (a + .ofNat 64 i) = bs[i]?) ∧
      l.toNat = Nat.ofDigits 256 (bs.map BitVec.toNat) := by
  have hnum : m.read a w = .ok l ↔ m.number a w.bytes = .ok l.toNat := by
    rw [number_eq_ok_iff]
    constructor
    · intro h
      exact ⟨l, h, rfl⟩
    · rintro ⟨k, h, hk⟩
      rwa [BitVec.eq_of_toNat_eq hk] at h
  simp only [hnum, number_eq_ok, readBytes_eq_ok_iff, and_assoc, eq_comm (a := l.toNat)]

/-! ## Checks between the stores -/

theorem checkAll_congr (h : ∀ x, (m.byte? x).isSome = (n.byte? x).isSome) (ss : List Store) :
    m.checkAll ss = n.checkAll ss := by
  induction ss with
  | nil => rfl
  | cons s ss ih => rw [checkAll, checkAll, ih, check_congr fun x _ => h x]

theorem isSome_byte?_apply {s : Store} (h : m.check s.address s.width = .ok ()) (x : Address) :
    ((m.apply s).byte? x).isSome = (m.byte? x).isSome :=
  @isSome_byte?_foldl_apply m [s] (by simpa using h) x

theorem commit_cons (m : Memory) (s : Store) (ss : List Store) :
    m.commit (s :: ss) = m.write s >>= fun n => n.commit ss := by
  unfold commit write
  rw [checkAll]
  cases h : m.check s.address s.width with
  | error c => rfl
  | ok _ =>
    change (m.checkAll ss >>= _) = ((m.apply s).checkAll ss >>= _)
    rw [checkAll_congr (isSome_byte?_apply h)]
    rfl

/-- **A batch is the same as its stores one after the other**, each with a check of its own. -/
theorem commit_eq_foldlM (m : Memory) (ss : List Store) : m.commit ss = ss.foldlM write m := by
  induction ss generalizing m with
  | nil => rfl
  | cons s ss ih =>
    rw [commit_cons, List.foldlM_cons]
    exact congrArg (m.write s >>= ·) (funext ih)

/-! ## The last store to an address -/

theorem byte?_foldl_apply_of_not_covers (m : Memory) (h : ∀ s ∈ ss, ¬ s.Covers x) :
    (ss.foldl apply m).byte? x = m.byte? x := by
  rw [byte?_foldl_apply, List.findSome?_eq_none_iff.mpr, Option.none_or]
  intro s hs
  exact Store.byteAt?_of_not_covers (h s (List.mem_reverse.mp hs))

/-- **The last store that covers an address** decides on its byte. -/
theorem byte?_foldl_apply_of_last (m : Memory) {pre post : List Store} {s : Store}
    (hs : s.Covers x) (hpost : ∀ r ∈ post, ¬ r.Covers x) :
    ((pre ++ s :: post).foldl apply m).byte? x = s.byteAt? x := by
  rw [List.foldl_append, List.foldl_cons, byte?_foldl_apply_of_not_covers _ hpost, byte?_apply,
    Option.or_of_isSome (Store.isSome_byteAt?_iff.mpr hs)]

/-! ## Changes in place -/

/-- Computations that change a memory in place and can fail. What a failed one has changed stays
changed. -/
abbrev InPlace := EStateM Cause Memory

/-- How a computation ends that keeps the memory if it fails. -/
def orKeep (m : Memory) : Except Cause Memory → EStateM.Result Cause Memory Unit
  | .ok n => .ok () n
  | .error c => .error c m

namespace InPlace

def check (s : Store) : InPlace Unit := do
  match (← get).check s.address s.width with
  | .ok () => return
  | .error c => throw c

def apply (s : Store) : InPlace Unit :=
  modify (·.apply s)

def write (s : Store) : InPlace Unit := do
  check s
  apply s

/-- A batch of stores: all checks first, and then the stores. -/
def commit (ss : List Store) : InPlace Unit := do
  ss.forM check
  ss.forM apply

theorem run_check (m : Memory) (s : Store) :
    (check s).run m = m.orKeep (m.check s.address s.width >>= fun _ => .ok m) := by
  change (match m.check s.address s.width with
    | .ok () => (pure () : InPlace Unit)
    | .error c => throw c).run m = _
  cases m.check s.address s.width <;> rfl

theorem run_write (m : Memory) (s : Store) : (write s).run m = m.orKeep (m.write s) := by
  rw [write, EStateM.run_bind, run_check, Memory.write]
  cases m.check s.address s.width <;> rfl

theorem run_checks (m : Memory) (ss : List Store) :
    (ss.forM check).run m = m.orKeep (m.checkAll ss >>= fun _ => .ok m) := by
  induction ss with
  | nil => rfl
  | cons s ss ih =>
    change (check s >>= fun _ => ss.forM check).run m = _
    rw [EStateM.run_bind, run_check, checkAll]
    cases m.check s.address s.width with
    | error c => rfl
    | ok _ => exact ih

theorem run_applies (m : Memory) (ss : List Store) :
    (ss.forM apply).run m = .ok () (ss.foldl Memory.apply m) := by
  induction ss generalizing m with
  | nil => rfl
  | cons s ss ih => exact ih (m.apply s)

/-- **A batch in place keeps the memory if it fails.** -/
theorem run_commit (m : Memory) (ss : List Store) :
    (commit ss).run m = m.orKeep (m.commit ss) := by
  rw [commit, EStateM.run_bind, run_checks, Memory.commit]
  cases m.checkAll ss with
  | error c => rfl
  | ok _ => exact run_applies m ss

/-- **Stores one after the other** stop at the first range that is not mapped, and those before it
stay. -/
theorem run_writes (m : Memory) (ss : List Store) :
    (∃ n, m.commit ss = .ok n ∧ (ss.forM write).run m = .ok () n) ∨
      ∃ pre s post c, ss = pre ++ s :: post ∧ m.commit ss = .error c ∧
        m.check s.address s.width = .error c ∧
        (ss.forM write).run m = .error c (pre.foldl Memory.apply m) := by
  induction ss generalizing m with
  | nil => exact .inl ⟨m, rfl, rfl⟩
  | cons s ss ih =>
    have hrun : ((s :: ss).forM write).run m = (write s >>= fun _ => ss.forM write).run m := rfl
    rw [hrun, EStateM.run_bind, run_write, commit_cons, Memory.write]
    cases hc : m.check s.address s.width with
    | error c => exact .inr ⟨[], s, ss, c, rfl, rfl, hc, rfl⟩
    | ok _ =>
      rcases ih (m.apply s) with ⟨n, hn, hr⟩ | ⟨pre, r, post, c, rfl, hn, hr, hp⟩
      · exact .inl ⟨n, hn, hr⟩
      · refine .inr ⟨s :: pre, r, post, c, rfl, hn, ?_, hp⟩
        rwa [check_congr fun x _ => isSome_byte?_apply hc x] at hr

end InPlace

/-- **Batches are all or nothing.** A batch of stores is made exactly when the ranges of all of them
are mapped, and one that fails keeps the memory. A batch that is made does what its stores do one
after the other. It keeps the mapped addresses, and at every address the last store that covers it
decides on the byte. A range can be read exactly when it is mapped, as the number that its bytes
form. -/
theorem commit_exact (m : Memory) (ss : List Store) :
    ((∃ n, m.commit ss = .ok n) ↔ ∀ s ∈ ss, m.MapsRange s.address s.width) ∧
    (∀ c, m.commit ss = .error c → (InPlace.commit ss).run m = .error c m) ∧
    (∀ n, m.commit ss = .ok n →
      (InPlace.commit ss).run m = .ok () n ∧
      ss.foldlM write m = .ok n ∧ (ss.forM InPlace.write).run m = .ok () n ∧
      ∀ x, (n.byte? x).isSome = (m.byte? x).isSome ∧
        (∀ pre s post, ss = pre ++ s :: post → s.Covers x → (∀ r ∈ post, ¬ r.Covers x) →
          n.byte? x = s.byteAt? x) ∧
        ((∀ s ∈ ss, ¬ s.Covers x) → n.byte? x = m.byte? x)) ∧
    ∀ n a w, ((∃ l, read n a w = .ok l) ↔ n.MapsRange a w) ∧
      ∀ l, n.read a w = .ok l → ∃ bs : List Byte, bs.length = w.bytes ∧
        (∀ i < w.bytes, n.byte? (a + .ofNat 64 i) = bs[i]?) ∧
        l.toNat = Nat.ofDigits 256 (bs.map BitVec.toNat) := by
  refine ⟨exists_commit_iff, fun c hc => ?_, fun n hn => ?_,
    fun n a w => ⟨exists_read_iff.trans check_iff_mapsRange, fun l => read_eq_ok_iff.mp⟩⟩
  · rw [InPlace.run_commit, hc]
    rfl
  · obtain ⟨hmap, rfl⟩ := commit_eq_ok_iff.mp hn
    refine ⟨?_, ?_, ?_, fun x => ⟨isSome_byte?_foldl_apply hmap x, ?_,
      byte?_foldl_apply_of_not_covers m⟩⟩
    · rw [InPlace.run_commit, hn]
      rfl
    · rw [← commit_eq_foldlM, hn]
    · rcases InPlace.run_writes m ss with ⟨n, hn', hr⟩ | ⟨_, _, _, c, -, hc, -⟩
      · cases hn.symm.trans hn'
        exact hr
      · cases hn.symm.trans hc
    · rintro pre s post rfl hs hpost
      exact byte?_foldl_apply_of_last m hs hpost

/-- Stores may go on at zero behind the last address, and the later one of two stores to an address
counts. -/
example :
    let m := ({} : Memory).map (-2) 4
    let ss : List Store := [⟨-2, .w32, 0x44332211⟩, ⟨-1, .w16, 0xbbaa⟩]
    (m.commit ss >>= fun n => n.read (-2) .w32) = .ok 0x44bbaa11 := by
  decide +kernel

end Memory

end X86
