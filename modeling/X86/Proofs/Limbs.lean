import X86.Proofs.Memory
import X86.Proofs.Sum

/-!
# Numbers of many limbs

A range of memory holds a little-endian number, and a list of words is one whose digits are the
words. A sum or a difference of two such numbers and a carry is that of the lowest limbs and, with
the carry that arises there, that of the other limbs.

* `Memory.number`, `Memory.number_add`: the number in a range, and in two ranges side by side;
* `Memory.number_eq_ok_iff`, `Memory.number_apply`: the number in the range of one operand, and
  after it is written;
* `limbNumber`: the number of a list of words;
* `scaled_le`, `scaled_lt`, `emod_split`, `bmod_split`: order, remainders and the signed reading of
  a number, told by its highest limbs;
* `joined`, `Terms.joined_eq`: a sum or a difference, and the carry that arises in one limb;
* **`Terms.joined_cons`**, **`Terms.joinedSigned_cons`**: sums and differences, limb by limb.
-/

namespace X86

/-! ## Numbers in memory -/

/-- The little-endian number in a range that has to be mapped. -/
def Memory.number (m : Memory) (a : Address) (len : Nat) : Except Cause Nat := do
  return Nat.ofDigits 256 ((← m.readBytes a len).map BitVec.toNat)

theorem Lanes.toNat_ofBytes {bs : List Byte} (h : bs.length ≤ 32) :
    (ofBytes bs).toNat = Nat.ofDigits 256 (bs.map BitVec.toNat) := by
  induction bs with
  | nil => rfl
  | cons b bs ih =>
    rw [List.length_cons] at h
    have hb := b.isLt
    have hlt : Nat.ofDigits 256 (bs.map BitVec.toNat) * 2 ^ 8 < 2 ^ 256 := by
      have hd : Nat.ofDigits 256 (bs.map BitVec.toNat) < 256 ^ (bs.map BitVec.toNat).length := by
        refine Nat.ofDigits_lt_base_pow_length (by decide) fun d hd => ?_
        obtain ⟨c, -, rfl⟩ := List.mem_map.mp hd
        exact c.isLt
      rw [List.length_map] at hd
      have hp : (256 : Nat) ^ bs.length ≤ 256 ^ 31 := Nat.pow_le_pow_right (by decide) (by omega)
      omega
    rw [ofBytes, BitVec.toNat_or, BitVec.toNat_setWidth, BitVec.toNat_shiftLeft, ih (by omega),
      Nat.shiftLeft_eq, Nat.mod_eq_of_lt hlt, Nat.mod_eq_of_lt (by omega), Nat.or_comm,
      ← Nat.shiftLeft_eq, ← Nat.shiftLeft_add_eq_or_of_lt hb, Nat.shiftLeft_eq, List.map_cons,
      Nat.ofDigits_cons]
    omega

namespace Memory

variable {m n : Memory} {a : Address} {j k len X : Nat} {w : Width}

theorem readBytes_add {bs : List Byte} : m.readBytes a (j + k) = .ok bs ↔
    ∃ cs ds, m.readBytes a j = .ok cs ∧ m.readBytes (a + BitVec.ofNat 64 j) k = .ok ds ∧
      cs ++ ds = bs := by
  induction j generalizing a bs with
  | zero =>
    rw [Nat.zero_add, show a + BitVec.ofNat 64 0 = a from BitVec.add_zero a]
    constructor
    · intro h
      exact ⟨[], bs, rfl, h, rfl⟩
    · rintro ⟨cs, ds, h, hd, rfl⟩
      cases h
      exact hd
  | succ j ih =>
    rw [Nat.succ_add]
    simp only [readBytes, Except.bind_eq_ok_iff, Except.pure_eq_ok_iff, ih, add_ofNat_succ]
    constructor
    · rintro ⟨b, hb, es, ⟨cs, ds, hc, hd, rfl⟩, rfl⟩
      exact ⟨b :: cs, ds, ⟨b, hb, cs, hc, rfl⟩, hd, rfl⟩
    · rintro ⟨_, ds, ⟨b, hb, cs, hc, rfl⟩, hd, rfl⟩
      exact ⟨b, hb, cs ++ ds, ⟨cs, ds, hc, hd, rfl⟩, rfl⟩

theorem number_eq_ok : m.number a len = .ok X ↔
    ∃ bs, m.readBytes a len = .ok bs ∧ Nat.ofDigits 256 (bs.map BitVec.toNat) = X := by
  simp only [number, Except.bind_eq_ok_iff, Except.pure_eq_ok_iff]

/-- **The number in two ranges side by side.** -/
theorem number_add : m.number a (j + k) = .ok X ↔
    ∃ x y, m.number a j = .ok x ∧ m.number (a + BitVec.ofNat 64 j) k = .ok y ∧
      x + 256 ^ j * y = X := by
  simp only [number_eq_ok, readBytes_add]
  constructor
  · rintro ⟨_, ⟨cs, ds, hc, hd, rfl⟩, rfl⟩
    refine ⟨_, _, ⟨cs, hc, rfl⟩, ⟨ds, hd, rfl⟩, ?_⟩
    rw [List.map_append, Nat.ofDigits_append, List.length_map, (readBytes_eq_ok_iff.mp hc).1]
  · rintro ⟨_, _, ⟨cs, hc, rfl⟩, ⟨ds, hd, rfl⟩, rfl⟩
    refine ⟨_, ⟨cs, ds, hc, hd, rfl⟩, ?_⟩
    rw [List.map_append, Nat.ofDigits_append, List.length_map, (readBytes_eq_ok_iff.mp hc).1]

theorem number_lt (h : m.number a len = .ok X) : X < 256 ^ len := by
  obtain ⟨bs, hbs, rfl⟩ := number_eq_ok.mp h
  have hd := Nat.ofDigits_lt_base_pow_length (b := 256) (l := bs.map BitVec.toNat) (by decide)
    fun d hd => by
      obtain ⟨c, -, rfl⟩ := List.mem_map.mp hd
      exact c.isLt
  rwa [List.length_map, (readBytes_eq_ok_iff.mp hbs).1] at hd

theorem number_congr (h : ∀ x, (x - a).toNat < len → m.byte? x = n.byte? x) :
    m.number a len = n.number a len := by
  rw [number, number, readBytes_congr h]

theorem check_of_number (h : m.number a w.bytes = .ok X) : m.check a w = .ok () := by
  obtain ⟨bs, hbs, -⟩ := number_eq_ok.mp h
  obtain ⟨hlen, hb⟩ := readBytes_eq_ok_iff.mp hbs
  refine check_eq_ok_iff.mpr fun x hx => ?_
  rw [← add_ofNat_toNat_sub a x, hb _ hx, List.getElem?_eq_getElem (hlen ▸ hx)]
  rfl

theorem number_eq_ok_iff : m.number a w.bytes = .ok X ↔ ∃ l, m.read a w = .ok l ∧ l.toNat = X := by
  have hw := w.bytes_le
  simp only [number_eq_ok, read, Except.bind_eq_ok_iff, Except.pure_eq_ok_iff]
  constructor
  · rintro ⟨bs, hbs, rfl⟩
    have hlen := (readBytes_eq_ok_iff.mp hbs).1
    exact ⟨_, ⟨bs, hbs, rfl⟩, Lanes.toNat_ofBytes (hlen ▸ hw)⟩
  · rintro ⟨_, ⟨bs, hbs, rfl⟩, rfl⟩
    have hlen := (readBytes_eq_ok_iff.mp hbs).1
    exact ⟨bs, hbs, (Lanes.toNat_ofBytes (hlen ▸ hw)).symm⟩

theorem number_apply (m : Memory) (a : Address) (w : Width) (v : Word) :
    (m.apply ⟨a, w, .ofWord v⟩).number a w.bytes = .ok (v.toNat % 2 ^ w.bits) := by
  refine number_eq_ok_iff.mpr ⟨_, read_apply _ _, ?_⟩
  change (Lanes.trunc w (.ofWord v)).toNat = _
  rw [Lanes.toNat_trunc, Lanes.toNat_ofWord]

end Memory

theorem Width.pow_bytes (w : Width) : 256 ^ w.bytes = 2 ^ w.bits := by
  cases w <;> decide

/-! ## Lists of limbs -/

/-- The number whose digits are the given words, the lowest one first. -/
def limbNumber (w : Width) (ys : List Word) : Nat :=
  Nat.ofDigits (2 ^ w.bits) (ys.map BitVec.toNat)

theorem limbNumber_cons (w : Width) (y : Word) (ys : List Word) :
    limbNumber w (y :: ys) = y.toNat + 2 ^ w.bits * limbNumber w ys :=
  Nat.ofDigits_cons

theorem limbNumber_lt {w : Width} {ys : List Word} (h : ∀ y ∈ ys, y.toNat < 2 ^ w.bits) :
    limbNumber w ys < 2 ^ (ys.length * w.bits) := by
  have hw : 1 < 2 ^ w.bits := by cases w <;> decide
  have hd := Nat.ofDigits_lt_base_pow_length (l := ys.map BitVec.toNat) hw fun d hd => by
    obtain ⟨y, hy, rfl⟩ := List.mem_map.mp hd
    exact h y hy
  rwa [List.length_map, ← pow_mul, Nat.mul_comm] at hd

/-! ## Limbs and order -/

section

variable {r b k e : Int} (h₀ : 0 ≤ r) (h₁ : r < b)

include h₀ h₁

theorem scaled_le : b * k ≤ r + b * e ↔ k ≤ e := by
  constructor
  · intro h
    by_contra hlt
    have hstep : b * (e + 1) ≤ b * k := mul_le_mul_of_nonneg_left (by omega) (by omega)
    linarith
  · intro h
    have hstep : b * k ≤ b * e := mul_le_mul_of_nonneg_left h (by omega)
    linarith

theorem scaled_lt : r + b * e < b * k ↔ e < k := by
  rw [← not_le, ← not_le, scaled_le h₀ h₁]

theorem emod_split {n : Nat} (hb : 0 < b) : (r + b * e) % (b * 2 ^ n) = r + b * (e % 2 ^ n) := by
  have hn : (0 : Int) < 2 ^ n := by positivity
  have he : r + b * e = r + b * (e % 2 ^ n) + b * 2 ^ n * (e / 2 ^ n) := by
    have := Int.emod_add_mul_ediv e (2 ^ n)
    linear_combination -b * this
  rw [he, Int.add_mul_emod_self_left]
  refine Int.emod_eq_of_lt ?_ ((scaled_lt h₀ h₁).mpr (Int.emod_lt_of_pos e hn))
  have hpos := mul_nonneg hb.le (Int.emod_nonneg e hn.ne')
  omega

end

theorem bmod_of_lt {X n : Nat} (hX : X < 2 ^ (n + 1)) :
    (X : Int).bmod (2 ^ (n + 1)) = X - if 2 ^ n ≤ X then 2 ^ (n + 1) else 0 := by
  have hm : (X : Int) % (2 ^ (n + 1) : Nat) = X :=
    Int.emod_eq_of_lt (by omega) (by exact_mod_cast hX)
  have hhalf : (((2 ^ (n + 1) : Nat) : Int) + 1) / 2 = (2 ^ n : Nat) := by
    rw [pow_succ]
    omega
  rw [Int.bmod_def, hm, hhalf]
  split <;> split <;> push_cast <;> omega

/-- **The signed reading of a number** is that of its highest limbs. -/
theorem bmod_split {x X b n : Nat} (hx : x < 2 ^ b) (hX : X < 2 ^ n) (hn : 0 < n) :
    ((x + 2 ^ b * X : Nat) : Int).bmod (2 ^ (b + n)) = x + 2 ^ b * (X : Int).bmod (2 ^ n) := by
  obtain ⟨n, rfl⟩ := Nat.exists_eq_add_one.mpr hn
  have hb : (x : Int) < 2 ^ b := by exact_mod_cast hx
  have hlt : x + 2 ^ b * X < 2 ^ (b + n + 1) := by
    have h : ((x + 2 ^ b * X : Nat) : Int) < (2 ^ (b + n + 1) : Nat) := by
      push_cast
      rw [Nat.add_assoc, pow_add]
      exact (scaled_lt (by omega) hb).mpr (by exact_mod_cast hX)
    exact_mod_cast h
  have hhalf : 2 ^ (b + n) ≤ x + 2 ^ b * X ↔ 2 ^ n ≤ X := by
    have h : ((2 ^ (b + n) : Nat) : Int) ≤ (x + 2 ^ b * X : Nat) ↔ ((2 ^ n : Nat) : Int) ≤ X := by
      push_cast
      rw [pow_add]
      exact scaled_le (by omega) hb
    exact_mod_cast h
  rw [← Nat.add_assoc, bmod_of_lt hlt, bmod_of_lt hX]
  simp only [hhalf]
  split
  · push_cast
    ring
  · push_cast
    ring

theorem signed_value_eq {w : Width} (hw : w.isScalar) (v : Word) :
    Sign.signed.value w v = (v.toNat : Int).bmod (2 ^ w.bits) := by
  rw [Sign.value, Width.signed, BitVec.toInt_eq_toNat_bmod, BitVec.toNat_setWidth,
    Width.scalarBits_eq_bits hw, Int.natCast_mod, Int.emod_bmod]

/-! ## Sums and differences, limb by limb -/

/-- The sum or the difference of two integers and a carry. -/
def joined (sub : Bool) (x y : Int) (c : Bool) : Int :=
  if sub then x - y - c.toNat else x + y + c.toNat

/-- **The lowest limb of a sum or difference**, in units of which the other limbs count `b`. -/
theorem joined_split {sub c c' : Bool} {x y r b : Int}
    (h : joined sub x y c = r + b * joined sub 0 0 c') (x' y' : Int) :
    joined sub (x + b * x') (y + b * y') c = r + b * joined sub x' y' c' := by
  unfold joined at h ⊢
  cases sub with
  | false =>
    simp only [Bool.false_eq_true, if_false] at h ⊢
    linear_combination h
  | true =>
    simp only [if_true] at h ⊢
    linear_combination h

theorem Terms.exact_eq_joined (x : Terms) (s : Sign) (w : Width) :
    x.exact s w = joined x.subtract (s.value w x.lhs) (s.value w x.rhs) x.carry :=
  rfl

/-- **The result of one limb, and the carry that arises there.** -/
theorem Terms.joined_eq {x : Terms} {w : Width} (hw : w.isScalar) (hx : x.Fits w) :
    joined x.subtract x.lhs.toNat x.rhs.toNat x.carry =
      (x.word w).toNat + 2 ^ w.bits * joined x.subtract 0 0 (x.flag w .cf) := by
  have hl := hx.lhs
  have hr := hx.rhs
  have hlt := Terms.toNat_word_lt hw hx
  have hc := Bool.toNat_le x.carry
  have hcases := Terms.exact_cases hw hx
  have hN : ((2 ^ w.bits : Nat) : Int) = 2 ^ w.bits := by push_cast; rfl
  have hcf : x.flag w .cf = true ↔
      ¬ (0 ≤ x.exact .unsigned w ∧ x.exact .unsigned w < 2 ^ w.bits) := decide_eq_true_iff
  rw [Terms.exact_unsigned hw hx] at hcases hcf
  unfold joined
  cases hs : x.subtract with
  | false =>
    simp only [hs, Bool.false_eq_true, if_false] at hcases hcf ⊢
    cases hf : x.flag w .cf with
    | false =>
      simp only [hf, Bool.false_eq_true, false_iff, not_not] at hcf
      simp only [Bool.toNat_false, Nat.cast_zero]
      omega
    | true =>
      simp only [hf, true_iff] at hcf
      simp only [Bool.toNat_true, Nat.cast_one]
      omega
  | true =>
    simp only [hs, if_true] at hcases hcf ⊢
    cases hf : x.flag w .cf with
    | false =>
      simp only [hf, Bool.false_eq_true, false_iff, not_not] at hcf
      simp only [Bool.toNat_false, Nat.cast_zero]
      omega
    | true =>
      simp only [hf, true_iff] at hcf
      simp only [Bool.toNat_true, Nat.cast_one]
      omega

/-- The sum or the difference of the signed readings of two numbers. -/
def joinedSigned (sub : Bool) (bits X Y : Nat) (c : Bool) : Int :=
  joined sub ((X : Int).bmod (2 ^ bits)) ((Y : Int).bmod (2 ^ bits)) c

namespace Terms

variable {x : Terms} {w : Width} {ys : List Word} {X : Nat}

/-- **Sums and differences, limb by limb**: the lowest one is that of an instruction, and the carry
that arises there goes to the other limbs. -/
theorem joined_cons (hw : w.isScalar) (hx : x.Fits w) (X : Nat) (ys : List Word) :
    joined x.subtract (x.lhs.toNat + 2 ^ w.bits * X : Nat) (limbNumber w (x.rhs :: ys)) x.carry =
      (x.word w).toNat + 2 ^ w.bits * joined x.subtract X (limbNumber w ys) (x.flag w .cf) := by
  rw [limbNumber_cons]
  push_cast
  exact joined_split (joined_eq hw hx) _ _

theorem joinedSigned_cons (hw : w.isScalar) (hx : x.Fits w) {n : Nat} (hX : X < 2 ^ n)
    (hY : limbNumber w ys < 2 ^ n) (hn : 0 < n) :
    joinedSigned x.subtract (w.bits + n) (x.lhs.toNat + 2 ^ w.bits * X)
        (limbNumber w (x.rhs :: ys)) x.carry =
      (x.word w).toNat +
        2 ^ w.bits * joinedSigned x.subtract n X (limbNumber w ys) (x.flag w .cf) := by
  rw [joinedSigned, limbNumber_cons, bmod_split hx.lhs hX hn, bmod_split hx.rhs hY hn]
  exact joined_split (joined_eq hw hx) _ _

theorem joinedSigned_one (hw : w.isScalar) (x : Terms) :
    joinedSigned x.subtract w.bits x.lhs.toNat x.rhs.toNat x.carry = x.exact .signed w := by
  rw [exact_eq_joined, signed_value_eq hw, signed_value_eq hw]
  rfl

end Terms

end X86
