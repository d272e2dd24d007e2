import X86.Text
import X86.Width

/-!
# Lanes: values of up to 256 bits

The content of a register or of a piece of memory, with zeros above its width. Bytes and
quadwords are numbered from the least significant end, which is also the order in memory.

* `Lanes.trunc`, `Lanes.splice`: the low bits of a value, and a value with some of its bits
  replaced (`getLsbD_trunc`, `getLsbD_splice` say which bits these are);
* `Lanes.byte`, `Lanes.toBytes`, `Lanes.ofBytes`: the little-endian bytes of a value, with
  `ofBytes_toBytes` and `toBytes_ofBytes`;
* `Lanes.quad`, `Lanes.ofQuads`: its four quadwords.
-/

namespace X86

/-- Up to 256 bits of register or memory content. -/
abbrev Lanes := BitVec 256

namespace Lanes

/-- A word with zeros above it. -/
def ofWord (v : Word) : Lanes :=
  v.setWidth 256

/-- The least significant word. -/
def low (l : Lanes) : Word :=
  l.setWidth 64

/-- The low bits of a value, with zeros above them. -/
def trunc (w : Width) (l : Lanes) : Lanes :=
  (l.setWidth w.bits).setWidth 256

/-- The value `old` with the bits from `offset` on, as many as the width has, taken from `new`. -/
def splice (w : Width) (offset : Nat) (old new : Lanes) : Lanes :=
  (old &&& ~~~(trunc w (BitVec.allOnes 256) <<< offset)) ||| (trunc w new <<< offset)

/-! ## Bytes -/

/-- The byte at position `i`. -/
def byte (l : Lanes) (i : Nat) : Byte :=
  l.extractLsb' (8 * i) 8

/-- The bytes of a value of the given width, least significant first. -/
def toBytes (w : Width) (l : Lanes) : List Byte :=
  (List.range w.bytes).map l.byte

/-- The value with the given bytes, least significant first. Bytes past the last lane are lost. -/
def ofBytes : List Byte → Lanes
  | [] => 0
  | b :: bs => b.setWidth 256 ||| (ofBytes bs <<< 8)

/-! ## Quadwords -/

/-- The quadword at position `i`. -/
def quad (l : Lanes) (i : Nat) : Word :=
  l.extractLsb' (64 * i) 64

/-- The four quadwords of a value, least significant first. -/
def quads (l : Lanes) : List Word :=
  [l.quad 0, l.quad 1, l.quad 2, l.quad 3]

/-- The value with the given quadwords, least significant first. -/
def ofQuads (q₀ q₁ q₂ q₃ : Word) : Lanes :=
  q₃ ++ q₂ ++ q₁ ++ q₀

/-- A value that fits a word is written as one number, a wider one as four quadwords of sixteen
digits each, most significant first. -/
def render (l : Lanes) : String :=
  if l = ofWord l.low then Text.hex l.low.toNat
  else "_".intercalate (l.quads.reverse.map fun q => Text.hexPadded 16 q.toNat)

/-! ## Which bits a value has -/

theorem getLsbD_ofWord (v : Word) (i : Nat) : (ofWord v).getLsbD i = v.getLsbD i := by
  simp only [ofWord, BitVec.getLsbD_setWidth, Bool.and_eq_right_iff_imp, decide_eq_true_eq]
  intro h
  have := BitVec.lt_of_getLsbD h
  omega

theorem getLsbD_low (l : Lanes) (i : Nat) : l.low.getLsbD i = (decide (i < 64) && l.getLsbD i) := by
  simp [low, BitVec.getLsbD_setWidth]

@[simp] theorem low_ofWord (v : Word) : low (ofWord v) = v := by
  apply BitVec.eq_of_getLsbD_eq
  intro i hi
  rw [getLsbD_low, getLsbD_ofWord]
  simp [hi]

theorem getLsbD_trunc (w : Width) (l : Lanes) (i : Nat) :
    (trunc w l).getLsbD i = (decide (i < w.bits) && l.getLsbD i) := by
  simp only [trunc, BitVec.getLsbD_setWidth]
  by_cases hi : i < 256
  · simp [hi]
  · simp [BitVec.getLsbD_of_ge l i (by omega), hi]

@[simp] theorem trunc_ofWord (v : Word) : trunc .w64 (ofWord v) = ofWord v := by
  apply BitVec.eq_of_getLsbD_eq
  intro i _
  rw [getLsbD_trunc, getLsbD_ofWord]
  by_cases h : i < Width.w64.bits
  · simp [h]
  · simp [h, BitVec.getLsbD_of_ge v i (Nat.not_lt.mp h)]

theorem ofWord_low (l : Lanes) : ofWord l.low = trunc .w64 l := by
  apply BitVec.eq_of_getLsbD_eq
  intro i _
  rw [getLsbD_trunc, getLsbD_ofWord, getLsbD_low]
  rfl

theorem trunc_trunc_of_le {v w : Width} (h : v.bits ≤ w.bits) (l : Lanes) :
    trunc v (trunc w l) = trunc v l := by
  apply BitVec.eq_of_getLsbD_eq
  intro i _
  simp only [getLsbD_trunc]
  by_cases hi : i < v.bits
  · simp [hi, show i < w.bits by omega]
  · simp [hi]

@[simp] theorem trunc_trunc (w : Width) (l : Lanes) : trunc w (trunc w l) = trunc w l :=
  trunc_trunc_of_le (Nat.le_refl _) l

/-- The bits of the spliced field come from the new value, all others from the old one. -/
theorem getLsbD_splice (w : Width) (offset : Nat) (old new : Lanes) (i : Nat) (hi : i < 256) :
    (splice w offset old new).getLsbD i =
      if offset ≤ i ∧ i < offset + w.bits then new.getLsbD (i - offset) else old.getLsbD i := by
  simp only [splice, BitVec.getLsbD_or, BitVec.getLsbD_and, BitVec.getLsbD_not,
    BitVec.getLsbD_shiftLeft, getLsbD_trunc, BitVec.getLsbD_allOnes, hi, decide_true, Bool.true_and]
  by_cases h₁ : offset ≤ i
  · by_cases h₂ : i < offset + w.bits
    · have h₃ : i - offset < w.bits := by omega
      have h₄ : i - offset < 256 := by omega
      simp [h₁, h₂, h₃, h₄, Nat.not_lt.mpr h₁]
    · have h₃ : ¬ i - offset < w.bits := by omega
      simp [h₁, h₂, h₃]
  · have h₂ : i < offset := by omega
    simp [h₁, h₂]

/-! ## Which bytes a value has -/

theorem getLsbD_byte (l : Lanes) (i j : Nat) :
    (l.byte i).getLsbD j = (decide (j < 8) && l.getLsbD (8 * i + j)) := by
  simp [byte, BitVec.getLsbD_extractLsb']

@[simp] theorem length_toBytes (w : Width) (l : Lanes) : (toBytes w l).length = w.bytes := by
  simp [toBytes]

theorem getElem?_toBytes (w : Width) (l : Lanes) (i : Nat) :
    (toBytes w l)[i]? = if i < w.bytes then some (l.byte i) else none := by
  by_cases h : i < w.bytes
  · simp [toBytes, h]
  · simp [toBytes, h]

/-- Each bit of a value read from bytes comes from the byte at its position. -/
theorem getLsbD_ofBytes (bs : List Byte) (i : Nat) (hi : i < 256) :
    (ofBytes bs).getLsbD i = (bs[i / 8]?.getD 0).getLsbD (i % 8) := by
  induction bs generalizing i with
  | nil => simp [ofBytes]
  | cons b bs ih =>
    simp only [ofBytes, BitVec.getLsbD_or, BitVec.getLsbD_setWidth, BitVec.getLsbD_shiftLeft, hi,
      decide_true, Bool.true_and]
    by_cases h : i < 8
    · simp [h, Nat.div_eq_of_lt h, Nat.mod_eq_of_lt h]
    · have h₁ : i / 8 = (i - 8) / 8 + 1 := by omega
      have h₂ : i % 8 = (i - 8) % 8 := by omega
      rw [BitVec.getLsbD_of_ge b i (by omega), ih (i - 8) (by omega), h₁, h₂]
      simp [h]

/-- Reading the bytes of a value gives the value back, cut to its width. -/
theorem ofBytes_toBytes (w : Width) (l : Lanes) : ofBytes (toBytes w l) = trunc w l := by
  apply BitVec.eq_of_getLsbD_eq
  intro i hi
  have hw : 8 * w.bytes = w.bits := by cases w <;> rfl
  rw [getLsbD_ofBytes _ i hi, getLsbD_trunc, getElem?_toBytes]
  by_cases h : i < w.bits
  · rw [if_pos (by omega), Option.getD_some, getLsbD_byte]
    simp [h, Nat.mod_lt, Nat.div_add_mod]
  · rw [if_neg (by omega)]
    simp [h]

/-- As many bytes as a width has are the bytes of their value. -/
theorem toBytes_ofBytes {w : Width} {bs : List Byte} (h : bs.length = w.bytes) :
    toBytes w (ofBytes bs) = bs := by
  apply List.ext_getElem?
  intro i
  have hw := w.bytes_le
  rw [getElem?_toBytes]
  by_cases hi : i < w.bytes
  · rw [if_pos hi, List.getElem?_eq_getElem (h ▸ hi)]
    congr 1
    apply BitVec.eq_of_getLsbD_eq
    intro j hj
    have h₁ : (8 * i + j) / 8 = i := by omega
    have h₂ : (8 * i + j) % 8 = j := by omega
    rw [getLsbD_byte, getLsbD_ofBytes _ _ (by omega), h₁, h₂, List.getElem?_eq_getElem (h ▸ hi)]
    simp [hj]
  · rw [if_neg hi, List.getElem?_eq_none (by omega)]

end Lanes

end X86
