import X86.Options

/-!
# Options on a command line

Arguments are read from left to right. The value of an option that stands in an argument of its
own is looked at only when the next option is recognised or the arguments end, so an argument that
is not recognised at all is reported before a bad value in front of it.

* `Options.parse`: the options that a list of arguments stands for, or why it stands for none;
* `ArgumentError`: the reasons, among them the requests for help and for the version.
-/

namespace X86

/-- Why a list of arguments stands for no options. -/
inductive ArgumentError where
  /-- no option has this name, or an argument is no option at all -/
  | unknownArgument
  /-- the value of an option is missing or is not among its possible values -/
  | invalidValue
  /-- an option is given twice -/
  | conflict
  /-- a value is given to a switch -/
  | tooManyValues
  /-- the arguments ask for a description of the options -/
  | helpRequested
  /-- the arguments ask for the version -/
  | versionRequested
  deriving DecidableEq

inductive Switch where
  | ia32 | noVex | noDivChecks | trace | help | version
  deriving DecidableEq

namespace Switch

def ofLong? : String → Option Switch
  | "ia32" => some ia32
  | "no-vex" => some noVex
  | "no-div-checks" => some noDivChecks
  | "trace" => some trace
  | "help" => some help
  | "version" => some version
  | _ => none

def ofShort? : Char → Option Switch
  | 't' => some trace
  | 'h' => some help
  | 'V' => some version
  | _ => none

/-- Turns a switch on, unless it is on already. -/
def turnOn (s : Switch) (o : Options) : Except ArgumentError Options :=
  match s with
  | ia32 => if o.ia32 then .error .conflict else .ok { o with ia32 := true }
  | noVex => if o.noVex then .error .conflict else .ok { o with noVex := true }
  | noDivChecks => if o.noDivChecks then .error .conflict else .ok { o with noDivChecks := true }
  | trace => if o.trace then .error .conflict else .ok { o with trace := true }
  | help => .error .helpRequested
  | version => .error .versionRequested

end Switch

/-- The treatment of undefined flags that an argument names. -/
def UndefinedRead.ofArgument? : String → Option UndefinedRead
  | "clear" => some clear
  | "set" => some set
  | "error" => some error
  | _ => none

namespace Options

/-- What the option `--undef-read` still waits for. -/
inductive Awaiting where
  | nothing
  | value
  /-- a look at the value that was given -/
  | look (value : String)

/-- The options recognised so far. -/
structure Progress where
  options : Options := {}
  /-- whether `--undef-read` was given with a value -/
  undefinedReadGiven : Bool := false
  awaiting : Awaiting := .nothing

namespace Progress

/-- Takes over the value of `--undef-read`. -/
def assign (p : Progress) (value : String) : Except ArgumentError Progress :=
  if p.undefinedReadGiven then .error .conflict
  else
    match UndefinedRead.ofArgument? value with
    | none => .error .invalidValue
    | some u => .ok {
        options := { p.options with undefinedRead := u },
        undefinedReadGiven := true,
        awaiting := .nothing }

/-- Settles an option whose value was not looked at yet. -/
def settle (p : Progress) : Except ArgumentError Progress :=
  match p.awaiting with
  | .nothing => .ok p
  | .value => .error .invalidValue
  | .look value => p.assign value

def switch (p : Progress) (s : Switch) : Except ArgumentError Progress := do
  let p ← p.settle
  let o ← s.turnOn p.options
  return { p with options := o }

/-- Takes over a cluster of switches with names of one letter. -/
def switches (p : Progress) : List Char → Except ArgumentError Progress
  | [] => .ok p
  | c :: cs =>
    match Switch.ofShort? c with
    | none => .error .unknownArgument
    | some s => do (← p.switch s).switches cs

/-- Takes over an option with a name of several letters and the value behind its equals sign. -/
def long (p : Progress) (name : String) (value? : Option String) :
    Except ArgumentError Progress :=
  if name = "undef-read" then do
    let p ← p.settle
    match value? with
    | some value => p.assign value
    | none => return { p with awaiting := .value }
  else
    match Switch.ofLong? name, value? with
    | none, _ => .error .unknownArgument
    | some _, some _ => .error .tooManyValues
    | some s, none => p.switch s

end Progress

/-- Splits an option at its first equals sign. -/
def splitValue (cs : List Char) : String × Option String :=
  (String.ofList (cs.takeWhile (· ≠ '=')),
    match cs.dropWhile (· ≠ '=') with
    | [] => none
    | _ :: value => some (String.ofList value))

/-- Reads arguments one after the other. Behind a lone `--` no option follows. -/
def parseFrom (p : Progress) : List String → Except ArgumentError Options
  | [] => do return (← p.settle).options
  | arg :: args =>
    match arg.toList with
    | ['-', '-'] => if args.isEmpty then do return (← p.settle).options else .error .unknownArgument
    | '-' :: '-' :: cs => do
      let (name, value?) := splitValue cs
      parseFrom (← p.long name value?) args
    | '-' :: c :: cs => do parseFrom (← p.switches (c :: cs)) args
    | _ =>
      match p.awaiting with
      | .value => parseFrom { p with awaiting := .look arg } args
      | _ => .error .unknownArgument

def parse (args : List String) : Except ArgumentError Options :=
  parseFrom {} args

end Options

end X86
