import X86.Proofs.Memory

/-!
# Values as bytes and as quadwords

The bytes of a value give the value back, and bytes are given back by the value that they form. A
value is at hand as four quadwords. Its bytes, its low bits and the value of given bytes can be
formed quadword by quadword, and are the same.

* `Lanes.quad_trunc`, `Lanes.quad_shiftLeft_byte`: the quadwords of a cut value and of one byte;
* `Quads.byte`, `Quads.toBytes`, `Quads.trunc`: the bytes and the low bits of quadwords;
* `Quads.put`, `Quads.fill`, `Quads.ofBytes`: quadwords that are filled byte by byte;
* `Quads.put_quads`, **`Quads.fill_quads`**: one step and a run of filling;
* `Lanes.ofBytes_take`, `Lanes.trunc_ofBytes`, `Lanes.trunc_trunc_eq`: what is cut off;
* `Store.byteAt?_add`, `Store.byteAt?_eq_none`: which bytes a store has;
* **`Lanes.codec_exact`**: values, their bytes and the bytes of stores.
-/

namespace X86

namespace Lanes

/-! ## Quadwords -/

theorem getLsbD_quad (l : Lanes) (k j : Nat) :
    (l.quad k).getLsbD j = (decide (j < 64) && l.getLsbD (64 * k + j)) := by
  simp [quad, BitVec.getLsbD_extractLsb']

theorem getElem?_quads (l : Lanes) (k : Nat) :
    l.quads[k]? = if k < 4 then some (l.quad k) else none := by
  match k with
  | 0 | 1 | 2 | 3 => rfl
  | k + 4 => rfl

theorem quad_or (l m : Lanes) (k : Nat) : (l ||| m).quad k = l.quad k ||| m.quad k := by
  apply BitVec.eq_of_getLsbD_eq
  intro j _
  simp only [getLsbD_quad, BitVec.getLsbD_or, Bool.and_or_distrib_left]

theorem quad_trunc (w : Width) (l : Lanes) (k : Nat) : (trunc w l).quad k =
    if k = 0 then l.quad 0 &&& w.mask else if 64 * k < w.bits then l.quad k else 0 := by
  apply BitVec.eq_of_getLsbD_eq
  intro j hj
  rw [getLsbD_quad, getLsbD_trunc]
  by_cases h₀ : k = 0
  · subst h₀
    have hmin : j < w.scalarBits ↔ j < w.bits := by
      unfold Width.scalarBits
      omega
    rw [if_pos rfl, BitVec.getLsbD_and, getLsbD_quad, Width.mask, Width.getLsbD_trunc,
      BitVec.getLsbD_allOnes]
    simp [hj, hmin, Bool.and_comm]
  · -- Behind the lowest quadword, a width has whole quadwords or nothing.
    have hwhole : 64 * k + j < w.bits ↔ 64 * k < w.bits := by
      cases w <;> simp only [Width.bits] <;> omega
    rw [if_neg h₀]
    by_cases hk : 64 * k < w.bits
    · rw [if_pos hk, getLsbD_quad]
      simp [hwhole, hk]
    · rw [if_neg hk]
      simp [hwhole, hk]

theorem quad_shiftLeft_byte (b : Byte) {i : Nat} (hi : i < 32) (k : Nat) :
    quad (b.setWidth 256 <<< (8 * i)) k =
      if i / 8 = k then b.setWidth 64 <<< (8 * (i % 8)) else 0 := by
  apply BitVec.eq_of_getLsbD_eq
  intro j hj
  have hsplit : 8 * i = 64 * (i / 8) + 8 * (i % 8) := by omega
  rw [getLsbD_quad, BitVec.getLsbD_shiftLeft, BitVec.getLsbD_setWidth]
  by_cases hk : i / 8 = k
  · subst hk
    have hpos : 64 * (i / 8) + j - 8 * i = j - 8 * (i % 8) := by omega
    have hle : 64 * (i / 8) + j < 8 * i ↔ j < 8 * (i % 8) := by omega
    have h₁ : 64 * (i / 8) + j < 256 := by omega
    have h₂ : j - 8 * (i % 8) < 256 := by omega
    have h₃ : j - 8 * (i % 8) < 64 := by omega
    rw [if_pos rfl, BitVec.getLsbD_shiftLeft, BitVec.getLsbD_setWidth, hpos]
    simp [hj, hle, h₁, h₂, h₃]
  · rw [if_neg hk]
    rcases Nat.lt_or_gt_of_ne hk with hk | hk
    · rw [BitVec.getLsbD_of_ge b _ (by omega)]
      simp
    · have hlt : 64 * k + j < 8 * i := by omega
      simp [hlt]

end Lanes

/-! ## Quadword by quadword -/

namespace Quads

/-- The byte at a position, cut from the quadword that has it. -/
def byte (qs : List Word) (i : Nat) : Byte :=
  (qs[i / 8]?.getD 0 >>> (8 * (i % 8))).setWidth 8

def toBytes (w : Width) (qs : List Word) : List Byte :=
  (List.range w.bytes).map (byte qs)

/-- As many quadwords as the width has, the lowest one masked, and zeros behind them. -/
def trunc (w : Width) (qs : List Word) : List Word :=
  let n := (w.bits + 63) / 64
  (qs.take n).modify 0 (· &&& w.mask) ++ List.replicate (4 - n) 0

/-- Joins a byte to the quadword that has its position. -/
def put (qs : List Word) (i : Nat) (b : Byte) : List Word :=
  qs.modify (i / 8) (· ||| b.setWidth 64 <<< (8 * (i % 8)))

/-- Joins bytes to quadwords, the first one at the given position. -/
def fill (qs : List Word) (i : Nat) : List Byte → List Word
  | [] => qs
  | b :: bs => fill (put qs i b) (i + 1) bs

/-- As many bytes as four quadwords have, joined to zeros. -/
def ofBytes (bs : List Byte) : List Word :=
  fill (List.replicate 4 0) 0 (bs.take 32)

theorem byte_quads (l : Lanes) (i : Nat) : byte l.quads i = l.byte i := by
  apply BitVec.eq_of_getLsbD_eq
  intro j hj
  have hpos : 64 * (i / 8) + (8 * (i % 8) + j) = 8 * i + j := by omega
  have hlt : 8 * (i % 8) + j < 64 := by omega
  rw [byte, Lanes.getLsbD_byte, BitVec.getLsbD_setWidth, BitVec.getLsbD_ushiftRight,
    Lanes.getElem?_quads]
  by_cases hi : i / 8 < 4
  · rw [if_pos hi, Option.getD_some, Lanes.getLsbD_quad, hpos]
    simp [hlt]
  · rw [if_neg hi, BitVec.getLsbD_of_ge l _ (by omega)]
    simp

theorem toBytes_quads (w : Width) (l : Lanes) : toBytes w l.quads = Lanes.toBytes w l :=
  List.map_congr_left fun i _ => byte_quads l i

theorem trunc_quads (w : Width) (l : Lanes) : trunc w l.quads = (Lanes.trunc w l).quads := by
  unfold Lanes.quads
  rw [Lanes.quad_trunc, Lanes.quad_trunc, Lanes.quad_trunc, Lanes.quad_trunc]
  cases w <;> rfl

/-- **One byte** is joined to a value when it is joined to its quadwords. -/
theorem put_quads (l : Lanes) {i : Nat} (hi : i < 32) (b : Byte) :
    put l.quads i b = (l ||| b.setWidth 256 <<< (8 * i)).quads := by
  apply List.ext_getElem?
  intro k
  rw [put, List.getElem?_modify, Lanes.getElem?_quads, Lanes.getElem?_quads, Lanes.quad_or,
    Lanes.quad_shiftLeft_byte b hi]
  by_cases hk : i / 8 = k
  · have hlt : k < 4 := by omega
    simp [hk, hlt]
  · by_cases hlt : k < 4 <;> simp [hk, hlt]

/-- **A run of bytes** joins the value that they form, from the given position on. -/
theorem fill_quads {bs : List Byte} {i : Nat} (h : i + bs.length ≤ 32) (l : Lanes) :
    fill l.quads i bs = (l ||| Lanes.ofBytes bs <<< (8 * i)).quads := by
  induction bs generalizing i l with
  | nil => simp [fill, Lanes.ofBytes]
  | cons b bs ih =>
    rw [List.length_cons] at h
    have hshift : Lanes.ofBytes (b :: bs) <<< (8 * i) =
        b.setWidth 256 <<< (8 * i) ||| Lanes.ofBytes bs <<< (8 * (i + 1)) := by
      rw [Lanes.ofBytes, BitVec.shiftLeft_or_distrib, ← BitVec.shiftLeft_add, Nat.mul_succ,
        Nat.add_comm 8]
    rw [fill, put_quads l (by omega), ih (by omega), hshift, BitVec.or_assoc]

end Quads

namespace Lanes

variable {w : Width} {bs : List Byte}

/-! ## What is cut off -/

theorem ofBytes_take (bs : List Byte) : ofBytes (bs.take 32) = ofBytes bs := by
  apply BitVec.eq_of_getLsbD_eq
  intro i hi
  rw [getLsbD_ofBytes _ i hi, getLsbD_ofBytes _ i hi, List.getElem?_take_of_lt (by omega)]

theorem trunc_ofBytes (h : bs.length = w.bytes) : trunc w (ofBytes bs) = ofBytes bs := by
  rw [← ofBytes_toBytes, toBytes_ofBytes h]

theorem quads_ofBytes (bs : List Byte) : (ofBytes bs).quads = Quads.ofBytes bs := by
  have hzero : List.replicate 4 0 = (0 : Lanes).quads := rfl
  have hlen : 0 + (bs.take 32).length ≤ 32 := by
    rw [Nat.zero_add, List.length_take]
    exact Nat.min_le_left _ _
  rw [Quads.ofBytes, hzero, Quads.fill_quads hlen, ofBytes_take]
  simp

theorem trunc_trunc_eq (v w : Width) (l : Lanes) :
    trunc v (trunc w l) = trunc (if v.bits ≤ w.bits then v else w) l := by
  by_cases h : v.bits ≤ w.bits
  · rw [if_pos h, trunc_trunc_of_le h]
  · apply BitVec.eq_of_getLsbD_eq
    intro i _
    rw [if_neg h, getLsbD_trunc, getLsbD_trunc]
    by_cases hi : i < w.bits
    · simp [hi, show i < v.bits by omega]
    · simp [hi]

end Lanes

/-! ## The bytes of a store -/

namespace Store

variable {s : Store} {x : Address}

theorem byteAt?_add {i : Nat} (h : i < s.width.bytes) :
    s.byteAt? (s.address + .ofNat 64 i) = some (s.value.byte i) := by
  have hw := s.width.bytes_le
  rw [byteAt?, Memory.toNat_add_ofNat_sub _ (by omega), if_pos h]

theorem byteAt?_eq_none (h : ∀ i < s.width.bytes, x ≠ s.address + .ofNat 64 i) :
    s.byteAt? x = none :=
  if_neg fun hi => h _ hi (Memory.add_ofNat_toNat_sub s.address x).symm

end Store

/-- **Values and bytes stand for each other.** The bytes of a value give the value back, cut to the
width. As many bytes as the width has are the bytes of the value that they form, which has nothing
above the width; bytes behind the last lane do not count. Cutting twice is cutting to the narrower
width. A store has the bytes of its value at the addresses of its range, which may go on at zero
behind the last address, and no byte anywhere else. Quadword by quadword, the bytes of a value, its
low bits, the value of given bytes and the bytes of a store are the same. -/
theorem Lanes.codec_exact :
    (∀ (w : Width) (l : Lanes), ofBytes (toBytes w l) = trunc w l) ∧
    (∀ (w : Width) (bs : List Byte), bs.length = w.bytes →
      toBytes w (ofBytes bs) = bs ∧ trunc w (ofBytes bs) = ofBytes bs) ∧
    (∀ bs, ofBytes (bs.take 32) = ofBytes bs) ∧
    (∀ (v w : Width) (l : Lanes),
      trunc v (trunc w l) = trunc (if v.bits ≤ w.bits then v else w) l) ∧
    (∀ s : Store,
      (∀ i < s.width.bytes, ∃ b, (toBytes s.width s.value)[i]? = some b ∧
        s.byteAt? (s.address + .ofNat 64 i) = some b) ∧
      ∀ x, (∀ i < s.width.bytes, x ≠ s.address + .ofNat 64 i) → s.byteAt? x = none) ∧
    (∀ (w : Width) (l : Lanes), Quads.toBytes w l.quads = toBytes w l) ∧
    (∀ (w : Width) (l : Lanes), Quads.trunc w l.quads = (trunc w l).quads) ∧
    (∀ bs, Quads.ofBytes bs = (ofBytes bs).quads) ∧
    ∀ (s : Store) x b, s.byteAt? x = some b →
      Quads.byte s.value.quads (x - s.address).toNat = b := by
  refine ⟨ofBytes_toBytes, ?_, ofBytes_take, trunc_trunc_eq, ?_, Quads.toBytes_quads,
    Quads.trunc_quads, fun bs => (quads_ofBytes bs).symm, ?_⟩
  · intro w bs h
    exact ⟨toBytes_ofBytes h, trunc_ofBytes h⟩
  · intro s
    refine ⟨fun i hi => ⟨s.value.byte i, ?_, Store.byteAt?_add hi⟩, fun x => Store.byteAt?_eq_none⟩
    rw [getElem?_toBytes, if_pos hi]
  · intro s x b h
    rw [Store.byteAt?] at h
    split at h
    · rw [Quads.byte_quads]
      exact Option.some.inj h
    · cases h

/-- A doubleword at the last two addresses has its upper two bytes at the first two. -/
theorem Lanes.codec_exact_wrap :
    let s : Store := ⟨-2, .w32, 0x44332211⟩
    s.byteAt? 1 = some 0x44 ∧ s.byteAt? 2 = none := by
  intro s
  obtain ⟨hin, hout⟩ := Lanes.codec_exact.2.2.2.2.1 s
  obtain ⟨b, hb, hs⟩ := hin 3 (by decide)
  have htop : (Lanes.toBytes s.width s.value)[3]? = some 0x44 := by decide
  have haddr : s.address + .ofNat 64 3 = 1 := by decide
  rw [htop] at hb
  rw [← hb, haddr] at hs
  exact ⟨hs, hout 2 (by decide)⟩

end X86
