import X86.Text
import X86.Width

/-!
# Status flags

Every status flag has three values: besides clear and set it may be undefined, and then nothing
pins it to a concrete value.

* `Flag`, `FlagName`, `Flags`: a flag, its name, and the set of all six;
* `Flags.get_set`: writing one flag changes that flag and no other;
* `Flags.ofRflags`, `Flags.toRflags?`: a set without undefined flags as an image of RFLAGS.
-/

namespace X86

inductive Flag where
  | clear | set | undefined
  deriving DecidableEq

namespace Flag

def ofBool (b : Bool) : Flag :=
  if b then set else clear

/-- The concrete value of a flag that has one. -/
def value? : Flag → Option Bool
  | clear => some false
  | set => some true
  | undefined => none

/-- A flag is written as one character. -/
def symbol : Flag → Char
  | clear => '0'
  | set => '1'
  | undefined => '?'

@[simp] theorem value?_ofBool (b : Bool) : (ofBool b).value? = some b := by
  cases b <;> rfl

@[simp] theorem ofBool_ne_undefined (b : Bool) : ofBool b ≠ undefined := by
  cases b <;> decide

end Flag

/-- The six status flags. -/
inductive FlagName where
  | cf | pf | af | zf | sf | of
  deriving DecidableEq

namespace FlagName

def all : List FlagName :=
  [cf, pf, af, zf, sf, of]

theorem mem_all (n : FlagName) : n ∈ all := by
  cases n <;> decide

/-- The bit of a flag in RFLAGS. -/
def mask : FlagName → Word
  | cf => 0x001
  | pf => 0x004
  | af => 0x010
  | zf => 0x040
  | sf => 0x080
  | of => 0x800

def short : FlagName → String
  | cf => "CF"
  | pf => "PF"
  | af => "AF"
  | zf => "ZF"
  | sf => "SF"
  | of => "OF"

def long : FlagName → String
  | cf => "carry"
  | pf => "parity"
  | af => "auxiliary carry"
  | zf => "zero"
  | sf => "sign"
  | of => "overflow"

end FlagName

/-- The values of the six status flags. In a fresh set every flag is clear. -/
structure Flags where
  cf : Flag := .clear
  pf : Flag := .clear
  af : Flag := .clear
  zf : Flag := .clear
  sf : Flag := .clear
  of : Flag := .clear
  deriving DecidableEq

namespace Flags

def get (f : Flags) : FlagName → Flag
  | .cf => f.cf
  | .pf => f.pf
  | .af => f.af
  | .zf => f.zf
  | .sf => f.sf
  | .of => f.of

def set (f : Flags) (n : FlagName) (v : Flag) : Flags :=
  match n with
  | .cf => { f with cf := v }
  | .pf => { f with pf := v }
  | .af => { f with af := v }
  | .zf => { f with zf := v }
  | .sf => { f with sf := v }
  | .of => { f with of := v }

/-- The concrete set that an image of RFLAGS shows. -/
def ofRflags (r : Word) : Flags :=
  FlagName.all.foldl (fun f n => f.set n (.ofBool (r &&& n.mask != 0))) {}

/-- The image of a set in RFLAGS, if no flag is undefined. -/
def toRflags? (f : Flags) : Option Word :=
  FlagName.all.foldlM
    (fun r n => (f.get n).value?.map fun b => if b then r ||| n.mask else r) (0 : Word)

/-- The undefined flags, in the order of their bits. -/
def undefined (f : Flags) : List FlagName :=
  FlagName.all.filter fun n => f.get n = .undefined

/-- The flags with their abbreviations, in the order of their bits. -/
def render (f : Flags) : String :=
  " ".intercalate <| FlagName.all.map fun n =>
    Text.Color.green.paint (n.short ++ ":") ++ String.singleton (f.get n).symbol

@[simp] theorem get_set (f : Flags) (n m : FlagName) (v : Flag) :
    (f.set n v).get m = if n = m then v else f.get m := by
  cases n <;> cases m <;> rfl

theorem ext_get {f g : Flags} (h : ∀ n, f.get n = g.get n) : f = g := by
  obtain ⟨c, p, a, z, s, o⟩ := f
  obtain ⟨c', p', a', z', s', o'⟩ := g
  have hc := h .cf
  have hp := h .pf
  have ha := h .af
  have hz := h .zf
  have hs := h .sf
  have ho := h .of
  simp only [get] at hc hp ha hz hs ho
  simp [hc, hp, ha, hz, hs, ho]

end Flags

end X86
