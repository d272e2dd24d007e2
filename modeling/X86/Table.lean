import Std.Data.ExtTreeMap
import X86.Table.Rows

/-!
# The selection table

Maps the key of an instruction form at a width to what the instruction does there. A table is
built from rows under given options; no two entries have the same key. The keys are indexed by
their mnemonics.

* `Entry`, `Entry.ofRow`: one row at one width;
* `Table.build`: the table of the rows that the options permit;
* `Table.get?`, `Table.lookup`: the entry with a key;
* `Table.withMnemonic`, `Table.mnemonics`: listings in ascending order.
-/

namespace X86

/-- One instruction form at one width. -/
structure Entry where
  key : Key
  name : String
  op : Op
  sign : Sign
  width : Width
  shape : Shape
  mode : Mode
  extension : Extension
  deriving DecidableEq

namespace Entry

/-- The entry for a row at a width. The key of the row has to be well-formed. -/
def ofRow (r : Row) (w : Width) (m : Mode) : Except Cause Entry := do
  return {
    key := ← Key.parse (r.key w)
    name := r.key w
    op := r.op
    sign := r.sign
    width := w
    shape := r.shape
    mode := m
    extension := r.extension }

/-- What an entry is applied with to evaluate it on operands. -/
def invoke (e : Entry) (operands : List Operand) : Invocation :=
  ⟨e.width, e.sign, operands⟩

/-- One line with the fields of an entry. -/
def describe (e : Entry) : String :=
  "Entry \x7b name: \"" ++ e.name ++ "\", sign: " ++ e.sign.name ++ ", width: W" ++ e.width.render
    ++ ", shape: [" ++ ", ".intercalate (e.shape.map Kind.name) ++ "], mode: " ++ e.mode.name
    ++ ", ext: " ++ e.extension.name ++ " \x7d"

end Entry

/-- Entries by name, and their names by mnemonic. -/
structure Table where
  byName : Std.ExtTreeMap String Entry := ∅
  /-- the names with a mnemonic, in the order of the insertions -/
  byMnemonic : Std.ExtTreeMap String (List String) := ∅

namespace Table

/-- The entry with a name. -/
def get? (t : Table) (name : String) : Option Entry :=
  t.byName[name]?

/-- The entry with a name that has to exist. -/
def lookup (t : Table) (name : String) : Except Cause Entry :=
  match t.get? name with
  | some e => .ok e
  | none => .error (.unknownKey name)

/-- The names of the entries with a mnemonic, in the order of the insertions. -/
def names (t : Table) (mnemonic : String) : List String :=
  t.byMnemonic[mnemonic]?.getD []

/-- The table with one more entry, whose name has to be new. -/
def insert (t : Table) (e : Entry) : Except Cause Table :=
  match t.get? e.name with
  | some _ => .error (.duplicateKey e.name)
  | none => .ok {
      byName := t.byName.insert e.name e
      byMnemonic := t.byMnemonic.insert e.key.mnemonic (t.names e.key.mnemonic ++ [e.name]) }

/-- The table with the entries of a row at the given widths. -/
def insertRow (t : Table) (r : Row) : List (Width × Mode) → Except Cause Table
  | [] => .ok t
  | (w, m) :: rest => do (← t.insert (← Entry.ofRow r w m)).insertRow r rest

/-- The table with the entries of all rows that the options permit. -/
def insertRows (t : Table) (o : Options) : List Row → Except Cause Table
  | [] => .ok t
  | r :: rs => do (← t.insertRow r (r.instances o)).insertRows o rs

/-- The table of the given rows under the given options. -/
def build (rows : List Row) (o : Options) : Except Cause Table :=
  ({} : Table).insertRows o rows

/-- The number of entries. -/
def size (t : Table) : Nat :=
  t.byName.size

/-- The entries with a mnemonic, by ascending name. -/
def withMnemonic (t : Table) (mnemonic : String) : List Entry :=
  ((t.names mnemonic).filterMap t.get?).mergeSort fun a b => a.name ≤ b.name

/-- The mnemonics of all entries, in ascending order. -/
def mnemonics (t : Table) : List String :=
  t.byMnemonic.keys

end Table

end X86
