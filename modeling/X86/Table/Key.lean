import X86.Error

/-!
# Selection keys

The key of an instruction form at a width joins a mnemonic, the form of the operands and the width
by underscores. The form may be absent, and may itself contain underscores.

* `Key`, `Key.render`: a key and how it is written;
* `Key.ofChars?`, `Key.parse`: reading a key. The mnemonic ends at the first underscore and the
  width begins behind the last one.
-/

namespace X86

/-- The parts of a selection key. -/
structure Key where
  mnemonic : String
  /-- the form of the operands, empty if the key has none -/
  form : String
  width : Width
  deriving DecidableEq

namespace Key

/-- A key is written with underscores between its parts. An empty form is left out. -/
def render (k : Key) : String :=
  if k.form.isEmpty then k.mnemonic ++ "_" ++ k.width.render
  else k.mnemonic ++ "_" ++ k.form ++ "_" ++ k.width.render

/-- What stands in front of the last underscore and behind it. -/
def cutLast : List Char → Option (List Char × List Char)
  | [] => none
  | c :: cs =>
    match cutLast cs with
    | some (front, back) => some (c :: front, back)
    | none => if c = '_' then some ([], cs) else none

/-- The width that a text names. -/
def width? (cs : List Char) : Option Width :=
  Width.all.find? fun w => w.render.toList = cs

/-- A mnemonic is a capital letter followed by letters and digits of ASCII. -/
def isMnemonic : List Char → Bool
  | [] => false
  | c :: cs => c.isUpper && cs.all Char.isAlphanum

/-- A form consists of letters, digits and underscores of ASCII. -/
def isForm (cs : List Char) : Bool :=
  cs.all fun c => c.isAlphanum || c == '_'

/-- What stands behind the mnemonic: nothing, or an underscore and a form that is not empty. -/
def form? : List Char → Option (List Char)
  | [] => some []
  | [_] => none
  | _ :: form => some form

/-- The key that characters are written for. -/
def ofChars? (cs : List Char) : Option Key := do
  let (body, suffix) ← cutLast cs
  let w ← width? suffix
  let mnemonic := body.takeWhile (· ≠ '_')
  let form ← form? (body.dropWhile (· ≠ '_'))
  if isMnemonic mnemonic && isForm form then
    some ⟨String.ofList mnemonic, String.ofList form, w⟩
  else none

/-- The key that a text is written for. -/
def parse (text : String) : Except Cause Key :=
  match ofChars? text.toList with
  | some k => .ok k
  | none => .error (.malformedKey text)

end Key

end X86
