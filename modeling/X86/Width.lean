/-!
# Widths, words and signedness

An instruction works at one of six widths. Scalar values live in 64-bit words: at width `w` only
the low `w.scalarBits` bits of a word count, and the two vector widths use the whole word.

* `Width`, `Width.bits`, `Width.ofBits?`: the six widths;
* `Width.trunc`, `Width.isNegative`, `Width.signed`: the low bits of a word, their top bit, and
  their reading as a two's complement number;
* `Sign.value`: the integer that the low bits of a word stand for.
-/

namespace X86

/-- A machine word, the content of a general purpose register. -/
abbrev Word := BitVec 64

/-- An address in memory. Address arithmetic wraps around at `2 ^ 64`. -/
abbrev Address := BitVec 64

abbrev Byte := BitVec 8

/-- The width of an operand. Scalar instructions use `w8` to `w64`, packed ones `w64` to `w256`. -/
inductive Width where
  | w8 | w16 | w32 | w64 | w128 | w256
  deriving DecidableEq

namespace Width

def bits : Width → Nat
  | w8 => 8
  | w16 => 16
  | w32 => 32
  | w64 => 64
  | w128 => 128
  | w256 => 256

def bytes (w : Width) : Nat :=
  w.bits / 8

theorem bytes_le (w : Width) : w.bytes ≤ 32 := by
  cases w <;> decide

def ofBits? : Nat → Option Width
  | 8 => some w8
  | 16 => some w16
  | 32 => some w32
  | 64 => some w64
  | 128 => some w128
  | 256 => some w256
  | _ => none

@[simp] theorem ofBits?_bits (w : Width) : ofBits? w.bits = some w := by
  cases w <;> rfl

def all : List Width :=
  [w8, w16, w32, w64, w128, w256]

theorem mem_all (w : Width) : w ∈ all := by
  cases w <;> decide

/-- A scalar value fits into one word. -/
def isScalar (w : Width) : Bool :=
  w.bits ≤ 64

/-- The number of bits of a word that count at this width. -/
def scalarBits (w : Width) : Nat :=
  min w.bits 64

/-- The low bits of a word, with zeros above them. -/
def trunc (w : Width) (v : Word) : Word :=
  (v.setWidth w.scalarBits).setWidth 64

/-- The word in which exactly the bits that count are set. -/
def mask (w : Width) : Word :=
  w.trunc (BitVec.allOnes 64)

/-- The word in which exactly the top bit that counts is set. -/
def signBit (w : Width) : Word :=
  BitVec.twoPow 64 (w.scalarBits - 1)

/-- The top bit that counts. -/
def isNegative (w : Width) (v : Word) : Bool :=
  v.getLsbD (w.scalarBits - 1)

/-- The low bits of a word as a two's complement number. -/
def signed (w : Width) (v : Word) : Int :=
  (v.setWidth w.scalarBits).toInt

/-- The bits of a shift count that the processor looks at. -/
def countMask : Width → Word
  | w64 => 0x3f
  | _ => 0x1f

def double (w : Width) : Option Width :=
  ofBits? (2 * w.bits)

def render (w : Width) : String :=
  toString w.bits

theorem scalarBits_pos (w : Width) : 0 < w.scalarBits := by
  cases w <;> decide

theorem scalarBits_le (w : Width) : w.scalarBits ≤ 64 :=
  Nat.min_le_right _ _

theorem scalarBits_eq_bits {w : Width} (h : w.isScalar) : w.scalarBits = w.bits :=
  Nat.min_eq_left (of_decide_eq_true h)

theorem getLsbD_trunc (w : Width) (v : Word) (i : Nat) :
    (w.trunc v).getLsbD i = (decide (i < w.scalarBits) && v.getLsbD i) := by
  have h := w.scalarBits_le
  simp only [trunc, BitVec.getLsbD_setWidth]
  by_cases hi : i < w.scalarBits
  · simp [hi, show i < 64 by omega]
  · simp [hi]

@[simp] theorem trunc_trunc (w : Width) (v : Word) : w.trunc (w.trunc v) = w.trunc v := by
  apply BitVec.eq_of_getLsbD_eq
  intro i _
  simp only [getLsbD_trunc]
  by_cases hi : i < w.scalarBits <;> simp [hi]

end Width

/-- How the bits of a value are read as an integer. -/
inductive Sign where
  | unsigned | signed
  deriving DecidableEq

/-- The integer that the low bits of a word stand for. -/
def Sign.value : Sign → Width → Word → Int
  | .unsigned, w, v => (w.trunc v).toNat
  | .signed, w, v => w.signed v

/-- An integer is in range when the bits that count can stand for it. -/
def Sign.InRange (s : Sign) (w : Width) (n : Int) : Prop :=
  match s with
  | .unsigned => 0 ≤ n ∧ n ≤ (BitVec.allOnes w.scalarBits).toNat
  | .signed => (BitVec.intMin w.scalarBits).toInt ≤ n ∧ n ≤ (BitVec.intMax w.scalarBits).toInt

instance (s : Sign) (w : Width) (n : Int) : Decidable (s.InRange w n) := by
  unfold Sign.InRange
  cases s <;> infer_instance

end X86
