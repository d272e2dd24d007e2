import Std.Data.ExtTreeMap
import X86.Error

/-!
# Memory

A sparse memory: some addresses are mapped to a byte, and only these can be read or written. Ranges
of addresses wrap around behind the last address.

* `Memory.byte?`, `Memory.ext_byte?`: the byte at an address; memories with the same bytes are
  equal;
* `Memory.map`, `Memory.load`: mapping a range with zeros, and filling a range;
* `Memory.read`: the little-endian value of a range;
* `Store`, `Memory.write`, `Memory.commit`: one write, and a batch of writes of which either all or
  none are made;
* `Memory.runs`: the mapped bytes as maximal ranges in ascending order.

Main statements: `byte?_load` and `byte?_apply` say which bytes a filled range and a store change,
and `isMapped_iff` when a range is mapped.
-/

namespace X86

structure Memory where
  bytes : Std.ExtTreeMap Address Byte := ∅
  deriving DecidableEq

/-- A write of a value to a range of addresses. -/
structure Store where
  address : Address
  width : Width
  value : Lanes
  deriving DecidableEq

/-- The byte that a store writes at an address, if its range covers the address. -/
def Store.byteAt? (s : Store) (a : Address) : Option Byte :=
  let i := (a - s.address).toNat
  if i < s.width.bytes then some (s.value.byte i) else none

namespace Memory

/-- The byte at an address, if the address is mapped. -/
def byte? (m : Memory) (a : Address) : Option Byte :=
  m.bytes[a]?

def put (m : Memory) (a : Address) (b : Byte) : Memory :=
  ⟨m.bytes.insert a b⟩

/-- Whether all addresses of a range are mapped. -/
def isMapped (m : Memory) (a : Address) : (len : Nat) → Bool
  | 0 => true
  | len + 1 => (m.byte? a).isSome && m.isMapped (a + 1) len

/-- Maps a range to zeros. Addresses that are mapped already keep their bytes. -/
def map (m : Memory) (a : Address) : (len : Nat) → Memory
  | 0 => m
  | len + 1 => (if (m.byte? a).isSome then m else m.put a 0).map (a + 1) len

def load (m : Memory) (a : Address) : List Byte → Memory
  | [] => m
  | b :: bs => (m.put a b).load (a + 1) bs

/-- The byte at an address that has to be mapped. -/
def readByte (m : Memory) (a : Address) : Except Cause Byte :=
  match m.byte? a with
  | some b => .ok b
  | none => .error (.unmappedRead a)

/-- The bytes of a range that has to be mapped. The first address that is not is reported. -/
def readBytes (m : Memory) (a : Address) : (len : Nat) → Except Cause (List Byte)
  | 0 => .ok []
  | len + 1 => do
    let b ← m.readByte a
    let bs ← m.readBytes (a + 1) len
    return b :: bs

/-- The little-endian value of a range. -/
def read (m : Memory) (a : Address) (w : Width) : Except Cause Lanes := do
  return Lanes.ofBytes (← m.readBytes a w.bytes)

/-- A range has to be mapped before it is written. -/
def check (m : Memory) (a : Address) (w : Width) : Except Cause Unit :=
  if m.isMapped a w.bytes then .ok () else .error (.unmappedWrite w a)

/-- The memory after a store to a mapped range. -/
def apply (m : Memory) (s : Store) : Memory :=
  m.load s.address (s.value.toBytes s.width)

/-- Makes a store, if its range is mapped. -/
def write (m : Memory) (s : Store) : Except Cause Memory := do
  m.check s.address s.width
  return m.apply s

def checkAll (m : Memory) : List Store → Except Cause Unit
  | [] => .ok ()
  | s :: ss => do
    m.check s.address s.width
    m.checkAll ss

/-- Makes a batch of stores in order, if the ranges of all of them are mapped. -/
def commit (m : Memory) (ss : List Store) : Except Cause Memory := do
  m.checkAll ss
  return ss.foldl apply m

/-- Joins bytes at ascending addresses into maximal runs of neighbours. -/
def joinRuns : List (Address × Byte) → List (Address × List Byte)
  | [] => []
  | (a, b) :: rest =>
    match joinRuns rest with
    | (a', bs) :: runs =>
      if a.toNat + 1 = a'.toNat then (a, b :: bs) :: runs else (a, [b]) :: (a', bs) :: runs
    | [] => [(a, [b])]

/-- The mapped bytes as maximal runs, in ascending order of their addresses. -/
def runs (m : Memory) : List (Address × List Byte) :=
  joinRuns m.bytes.toList

/-! ## Bytes are independent -/

theorem ext_byte? {m n : Memory} (h : ∀ a, m.byte? a = n.byte? a) : m = n := by
  obtain ⟨b⟩ := m
  obtain ⟨c⟩ := n
  exact congrArg Memory.mk (Std.ExtTreeMap.ext_getElem? h)

@[simp] theorem byte?_empty (a : Address) : ({} : Memory).byte? a = none := by
  simp [byte?]

@[simp] theorem byte?_put (m : Memory) (a x : Address) (b : Byte) :
    (m.put a b).byte? x = if a = x then some b else m.byte? x := by
  simp only [byte?, put, Std.ExtTreeMap.getElem?_insert]
  simp

theorem toNat_sub_succ {a x : Address} (h : x ≠ a) :
    (x - a).toNat = (x - (a + 1)).toNat + 1 := by
  have hx := x.isLt
  have ha := a.isLt
  have hne : x.toNat ≠ a.toNat := fun e => h (BitVec.eq_of_toNat_eq e)
  simp only [BitVec.toNat_sub, BitVec.toNat_add]
  simp only [show (1 : Address).toNat = 1 from rfl]
  omega

/-- A filled range holds the given bytes, and every other address what it held. -/
theorem byte?_load (m : Memory) (a x : Address) (bs : List Byte) (h : bs.length ≤ UInt64.size) :
    (m.load a bs).byte? x = bs[(x - a).toNat]?.or (m.byte? x) := by
  induction bs generalizing m a with
  | nil => simp [load]
  | cons b bs ih =>
    simp only [List.length_cons, UInt64.size] at h
    rw [load, ih _ _ (by rw [UInt64.size]; omega), byte?_put]
    by_cases e : a = x
    · subst e
      have : bs[(a - (a + 1)).toNat]? = none := by
        apply List.getElem?_eq_none
        simp only [BitVec.toNat_sub, BitVec.toNat_add, show (1 : Address).toNat = 1 from rfl]
        have := a.isLt
        omega
      rw [this, BitVec.sub_self]
      simp
    · rw [toNat_sub_succ (Ne.symm e)]
      simp [e]

theorem add_ofNat_succ (a : Address) (i : Nat) :
    a + BitVec.ofNat 64 (i + 1) = a + 1 + BitVec.ofNat 64 i := by
  rw [BitVec.add_assoc]
  congr 1
  apply BitVec.eq_of_toNat_eq
  simp only [BitVec.toNat_add, BitVec.toNat_ofNat, show (1 : Address).toNat = 1 from rfl]
  omega

/-- A range is mapped when every address of it is. -/
theorem isMapped_iff (m : Memory) (a : Address) (len : Nat) :
    m.isMapped a len ↔ ∀ i < len, (m.byte? (a + BitVec.ofNat 64 i)).isSome := by
  induction len generalizing a with
  | zero => simp [isMapped]
  | succ len ih =>
    simp only [isMapped, Bool.and_eq_true, ih]
    constructor
    · rintro ⟨h₀, h⟩ i hi
      cases i with
      | zero => simpa using h₀
      | succ i => exact add_ofNat_succ a i ▸ h i (by omega)
    · intro h
      exact ⟨by simpa using h 0 (by omega), fun i hi => add_ofNat_succ a i ▸ h (i + 1) (by omega)⟩

/-- A store changes the bytes that it covers and no others. -/
theorem byte?_apply (m : Memory) (s : Store) (x : Address) :
    (m.apply s).byte? x = (s.byteAt? x).or (m.byte? x) := by
  have hw := s.width.bytes_le
  rw [apply, byte?_load _ _ _ _ (by rw [Lanes.length_toBytes, UInt64.size]; omega),
    Lanes.getElem?_toBytes]
  rfl

end Memory

end X86
