import MemberIndex.Disassembler.Interpreter
import MemberIndex.Disassembler.Session
import MemberIndex.FileTree.Resolve

/-! # Launching a disassembler

Starting a program of the file tree on an artifact, which it is given as an absolute
path behind its other arguments.
-/

namespace MemberIndex

/-- A disassembler to run. The search path, if it is given, names the directories that a
program without a slash is looked for in. -/
structure Disassembler where
  program : Path
  arguments : List (List UInt8)
  timeout : Option Duration
  searchPath : Option (List UInt8) := none

structure Tool where
  name : String
  limit : Option Duration
  start : Path → Except IoError Behaviour

namespace Disassembler

def defaultArguments : List String := ["-v"]

def limit (d : Disassembler) : Option Duration := d.timeout.filter (·.nanos ≠ 0)

/-- An argument of so many bytes or more is too long for the system. -/
def argumentLimit : Nat := 131072

def maxInterpreters : Nat := 5

/-- The file that a path names, if it may be executed: that needs the permission, and
that nobody holds the file open for writing. -/
def executable (t : FileTree) (writing : List Location) (p : Path) : Except IoError File := do
  let place ← t.locate true p
  match t.entryAt? place with
  | some (.file f) =>
    if !f.executable then throw (.os .permissionDenied)
    else if writing.any (t.isSame place) then throw (.os .textFileBusy)
    else return f
  | _ => throw (.os .permissionDenied)

def executableFor (t : FileTree) (writing : List Location) (i : Interpreter) :
    Except IoError File :=
  if i.program.isEmpty then .error (.os .permissionDenied) else executable t writing i.program

/-- What the disassembler that a file is, or is run by in the end, is given before the
arguments. A file that names an interpreter is run by it, with its own path as the last
of what it is given. A disassembler is run by an interpreter of its own too. -/
def leading (t : FileTree) (writing : List Location) :
    (turns : Nat) → Path → List (List UInt8) → Content → Except IoError (List (List UInt8))
  | 0, _, _, .disassembler => .error (.os .tooManyLinks)
  | _ + 1, _, given, .disassembler => .ok given
  | _, _, _, .code _ => .error (.os .notExecutableFormat)
  | turns, p, given, .data bytes =>
    match Interpreter.ofBytes? bytes with
    | none => .error (.os .notExecutableFormat)
    | some i => do
      let f ← executableFor t writing i
      match turns with
      | 0 => throw (.os .tooManyLinks)
      | n + 1 => leading t writing n i.program (i.argument.toList ++ p.bytes :: given) f.content

def launch (t : FileTree) (writing : List Location) (arguments : List (List UInt8))
    (p : Path) : Except IoError (List (List UInt8)) := do
  let f ← executable t writing p
  if arguments.any (argumentLimit ≤ ·.length) then throw (.os .argumentsTooLong)
  leading t writing maxInterpreters p [] f.content

def colon : UInt8 := 58

def directories (searchPath : List UInt8) : List (List UInt8) :=
  let fits (d : List UInt8) : Bool := d.length < FileTree.pathLimit
  let all := Text.fields colon searchPath
  (if all.getLast?.any fits then all else all.dropLast).map fun d => if fits d then d else []

def candidate (name directory : List UInt8) : Path :=
  ⟨if directory = [] then name else directory ++ Path.slash :: name⟩

/-- Whether the next directory is searched after this error. -/
def isPassedOver (e : IoError) : Bool :=
  e = .os .permissionDenied || e = .os .noEntry || e = .os .notDirectory

/-- The first success along candidates. A failure that is not passed over ends the
search; where all fail, a refused permission tells more than the last failure. -/
def search {α : Type} (attempt : Path → Except IoError α) (denied : Bool) (last : IoError) :
    List Path → Except IoError α
  | [] => .error (if denied then .os .permissionDenied else last)
  | p :: ps =>
    match attempt p with
    | .ok a => .ok a
    | .error e =>
      if isPassedOver e then search attempt (denied || e = .os .permissionDenied) e ps
      else .error e

/-- Why a name is not found in the system's own directories, where no disassembler
stands: dots lead to directories there too. -/
def searchFault (name : Name) : Errno :=
  if name = [Path.dot] ∨ name = [Path.dot, Path.dot] then .permissionDenied
  else if FileTree.maxName < name.length then .nameTooLong
  else .noEntry

/-- Finds a program that can be run on arguments, and what it is given before them. A name
without a slash is looked for on the search path. -/
def findProgram (d : Disassembler) (t : FileTree) (writing : List Location)
    (arguments : List (List UInt8)) : Except IoError (List (List UInt8)) :=
  if d.program.bytes.contains Path.slash then launch t writing arguments d.program
  else if d.program.isEmpty then .error (.os .noEntry)
  else match d.searchPath with
    | none => .error (.os (searchFault d.program.bytes))
    | some s =>
      search (launch t writing arguments) false (.os .noChild)
        ((directories s).map (candidate d.program.bytes))

def startUp : Duration := ⟨1000000⟩

/-- What a disassembler does with a target: it follows the code that it finds there,
has nothing to say of any other file, and refuses what is no file. -/
def disassemble (t : FileTree) (target : Path) (arguments : List (List UInt8)) : Behaviour :=
  match t.find? target with
  | some (.file f) =>
    match f.content with
    | .code script => script.perform arguments
    | _ => {}
  | _ => { diagnostics := Text.Utf8.encode "no such class file\n", ending := .exits (.code 2) }

def start (d : Disassembler) (t : FileTree) (writing : List Location) (artifact : Path) :
    Except IoError Behaviour := do
  let target := match Path.absolute t.current.path artifact with
    | .ok p => p
    | .error _ => artifact
  let arguments := d.arguments ++ [target.bytes]
  if (d.program.bytes :: arguments).any (·.contains 0) then throw .nulInCommand
  let front ← d.findProgram t writing arguments
  return { disassemble t target (front ++ arguments) with delay := startUp }

def tool (d : Disassembler) (t : FileTree) (writing : List Location) : Tool where
  name := d.program.display
  limit := d.limit
  start := d.start t writing

end Disassembler

end MemberIndex
