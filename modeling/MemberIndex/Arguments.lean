import MemberIndex.Path.Basic

/-! # Arguments

The command line, read from left to right. A value that was read is settled only when
the next known option, the root or the end comes, so that what directly follows it
may be found wrong first.
-/

namespace MemberIndex

structure Arguments where
  root : Path
  disassembler : Option Path := none
  disassemblerArguments : List String := []
  output : Path := .ofString "class_info.json"
  log : Path := .ofString "javap_output.log"
  appendLog : Bool := false
  jobs : Option Nat := none
  timeout : Nat := 60
  extension : String := "class"

inductive UsageError
  | unknownArgument
  | missingValue
  | invalidValue
  | repeated
  | unexpectedValue
  | missingRoot
  | help
deriving DecidableEq

namespace UsageError

def exitCode : UsageError → Nat
  | help => 0
  | _ => 2

end UsageError

inductive ValueOption
  | disassembler
  | disassemblerArgument
  | output
  | log
  | jobs
  | timeout
  | extension
deriving DecidableEq

inductive OptionName
  | value (o : ValueOption)
  | appendLog
  | help
deriving DecidableEq

namespace OptionName

def ofLong? (name : String) : Option OptionName :=
  if name = "javap" then some (value .disassembler)
  else if name = "javap-arg" then some (value .disassemblerArgument)
  else if name = "output" then some (value .output)
  else if name = "log" then some (value .log)
  else if name = "append-log" then some appendLog
  else if name = "jobs" then some (value .jobs)
  else if name = "timeout" then some (value .timeout)
  else if name = "extension" then some (value .extension)
  else if name = "help" then some help
  else none

def ofShort? (c : Char) : Option OptionName :=
  if c = 'o' then some (value .output)
  else if c = 'j' then some (value .jobs)
  else if c = 'h' then some help
  else none

end OptionName

namespace Arguments

/-- An argument by its first characters; a dash alone is a value like any other. -/
inductive Word
  | separator
  | long (name : String) (attached : Option String)
  | short (flags : List Char)
  | plain

def Word.of (s : String) : Word :=
  match s.toList with
  | ['-', '-'] => .separator
  | '-' :: '-' :: cs =>
    .long (String.ofList (cs.takeWhile (· ≠ '=')))
      (match cs.dropWhile (· ≠ '=') with
        | [] => none
        | _ :: value => some (String.ofList value))
  | '-' :: c :: cs => .short (c :: cs)
  | _ => .plain

/-- What was read last and is not settled yet: a root, or an option with or without its
value. -/
inductive Pending
  | root (value : String)
  | option (o : ValueOption) (value : Option String)
deriving DecidableEq

structure State where
  settled : Arguments := { root := ⟨[]⟩ }
  given : List ValueOption := []
  rootGiven : Bool := false
  pending : Option Pending := none
  separated : Bool := false

/-- A number below a bound, in decimal digits behind an optional plus sign. -/
def natBelow? (bound : Nat) (s : String) : Option Nat :=
  let digits := match s.toList with
    | '+' :: cs => cs
    | cs => cs
  if digits ≠ [] ∧ digits.all (fun c => '0' ≤ c && c ≤ '9') then
    let n := digits.foldl (fun n c => n * 10 + (c.toNat - 48)) 0
    if n < bound then some n else none
  else none

def path (s : String) : Except UsageError Path :=
  if s = "" then .error .missingValue else .ok (.ofString s)

def number (s : String) : Except UsageError Nat :=
  match natBelow? UInt64.size s with
  | some n => .ok n
  | none => .error .invalidValue

def set (a : Arguments) (value : String) : ValueOption → Except UsageError Arguments
  | .disassembler => return { a with disassembler := some (← path value) }
  | .disassemblerArgument =>
    .ok { a with disassemblerArguments := a.disassemblerArguments ++ [value] }
  | .output => return { a with output := ← path value }
  | .log => return { a with log := ← path value }
  | .jobs => return { a with jobs := some (← number value) }
  | .timeout => return { a with timeout := ← number value }
  | .extension => .ok { a with extension := value }

namespace State

/-- Gives an option its value; only one option may be given twice. -/
def give (s : State) (o : ValueOption) (value : String) : Except UsageError State := do
  if o ≠ .disassemblerArgument ∧ o ∈ s.given then throw .repeated
  return { s with settled := ← s.settled.set value o, given := o :: s.given }

def settle (s : State) : Except UsageError State :=
  match s.pending with
  | none => .ok s
  | some (.root value) => do
    return { s with settled := { s.settled with root := ← path value }, pending := none }
  | some (.option _ none) => .error .missingValue
  | some (.option o (some value)) => { s with pending := none }.give o value

def awaits (s : State) : Option ValueOption :=
  match s.pending with
  | some (.option o none) => some o
  | _ => none

def takeOption (s : State) (o : ValueOption) (attached : Option String) :
    Except UsageError State := do
  let s ← s.settle
  match attached with
  | some value => s.give o value
  | none => return { s with pending := some (.option o none) }

def takeAppendLog (s : State) : Except UsageError State := do
  let s ← s.settle
  if s.settled.appendLog then throw .repeated
  return { s with settled := { s.settled with appendLog := true } }

def takeHelp (s : State) : Except UsageError State := do
  let _ ← s.settle
  throw .help

def takeLong (s : State) (name : String) (attached : Option String) :
    Except UsageError State :=
  match OptionName.ofLong? name, attached with
  | none, _ => .error .unknownArgument
  | some (.value o), attached => s.takeOption o attached
  | some _, some _ => .error .unexpectedValue
  | some .appendLog, none => s.takeAppendLog
  | some .help, none => s.takeHelp

/-- Takes a cluster of one-letter options; none of those without a value lets another
follow. -/
def takeShort (s : State) : List Char → Except UsageError State
  | [] => .ok s
  | c :: rest =>
    match OptionName.ofShort? c with
    | none => .error .unknownArgument
    | some (.value o) =>
      s.takeOption o (match rest with
        | [] => none
        | '=' :: value => some (String.ofList value)
        | value => some (String.ofList value))
    | some .appendLog => s.takeAppendLog
    | some .help => s.takeHelp

def takeRoot (s : State) (value : String) : Except UsageError State := do
  if s.rootGiven then throw .unknownArgument
  let s ← s.settle
  return { s with rootGiven := true, pending := some (.root value) }

def takeValue (s : State) (value : String) : Except UsageError State :=
  match s.awaits with
  | some o => .ok { s with pending := some (.option o (some value)) }
  | none => s.takeRoot value

/-- Takes the next argument. An option that hands its value on takes any argument
as one. -/
def take (s : State) (arg : String) : Except UsageError State :=
  if s.separated then s.takeRoot arg
  else if s.awaits = some .disassemblerArgument then s.takeValue arg
  else match Word.of arg with
    | .separator => .ok { s with separated := true }
    | .long name attached => s.takeLong name attached
    | .short flags => s.takeShort flags
    | .plain => s.takeValue arg

end State

def parse (args : List String) : Except UsageError Arguments := do
  let s ← args.foldlM State.take {}
  let s ← s.settle
  if s.rootGiven then return s.settled else throw .missingRoot

end Arguments

end MemberIndex
