import MemberIndex.Program

/-! # Command line

The program on the files of a machine. Those that a command line reaches are read into
a file tree, the program runs on the tree, and what it changed there is written back.
Nothing can be started from here: no file of the tree may be executed, so every
artifact of a run ends as a failure to start its disassembler.
-/

namespace MemberIndex.Main

def text (bytes : List UInt8) : String := Text.Utf8.decode bytes

def locate (current : Location) (p : Path) : Location :=
  (if p.isAbsolute then [] else current) ++ p.components.filterMap fun
    | .name n => some n
    | _ => none

/-- What an entry of the machine is in a tree. The text of a link cannot be asked for: the path that
it is resolved to stands for it. Of the special files only the two devices of a tree are known. -/
def describe (e : IO.FS.DirEntry) : IO (Option Entry) := do
  match (← e.path.symlinkMetadata).type with
  | .dir => return some .directory
  | .file => return some (.file { content := .data (← IO.FS.readBinFile e.path).toList })
  | .symlink => return some (.link (Text.Utf8.encode (← IO.FS.realPath e.path).toString))
  | .other =>
    return match e.path.toString with
      | "/dev/null" => some (.device .null)
      | "/dev/full" => some (.device .full)
      | _ => none

def readEntry (e : IO.FS.DirEntry) (place : Location) (t : FileTree) : IO FileTree := do
  try return ((← describe e).map (t.put place)).getD t catch _ => return t

partial def readBelow (e : IO.FS.DirEntry) (place : Location) (t : FileTree) : IO FileTree := do
  let t ← readEntry e place t
  if !t.isDirectoryAt place then return t
  try
    (← e.path.readDir).foldlM (fun t e => readBelow e (place ++ [Text.Utf8.encode e.fileName]) t) t
  catch _ => return t

def named (place : Location) : IO IO.FS.DirEntry := do
  return { root := ← IO.currentDir, fileName := (Location.path place).display }

def readAbove (place : Location) (t : FileTree) : IO FileTree :=
  ((List.range place.length).drop 1).foldlM (fun t n => do
    readEntry (← named (place.take n)) (place.take n) t) t

def readPath (place : Location) (t : FileTree) : IO FileTree := do
  readEntry (← named place) place (← readAbove place t)

/-- Reads an entry into a tree, and what it leads to if it is a link. -/
def readThrough (place : Location) (t : FileTree) : IO FileTree := do
  let t ← readPath place t
  match t.entryAt? place with
  | some (.link target) => readPath (locate [] ⟨target⟩) t
  | _ => return t

/-- The part of the machine that a command line reaches. Whether two names are those of one file
cannot be asked: each is taken for a file of its own. -/
def readTree (env : Environment) (args : List String) : IO FileTree := do
  let current := locate [] (.ofString (← IO.currentDir).toString)
  let a := (Arguments.parse args).toOption
  let home := env.javaHome.map fun p => (p.join (.ofString "bin")).join (.ofString "javap")
  let whole := (a.map (·.root)).toList
  let single := (a.map fun a => [a.output, Report.draftPath a.output, a.log]).getD [] ++ home.toList
  let t ← readPath current { current := current }
  let t ← single.foldlM (fun t p => readThrough (locate current p) t) t
  whole.foldlM (fun t p => do
    let place := locate current p
    readBelow (← named place) place (← readAbove place t)) t

def writeEntry (place : Location) : Entry → IO Unit
  | .directory => IO.FS.createDirAll (Location.path place).display
  | .file f => IO.FS.writeBinFile (Location.path place).display ⟨f.content.bytes.toArray⟩
  | _ => return

/-- Where the links of a tree come from that are new there: from where the same links stood in the
tree before and stand no more. -/
def movedLinks (before after : FileTree) : List (Location × Location) :=
  after.toList.filterMap fun (place, e) => match e with
    | .link _ =>
      if before.entryAt? place = some e then none
      else (before.toList.find? fun (l, f) => f = e && (after.entryAt? l).isNone).map (·.1, place)
    | _ => none

/-- Brings the machine from one tree to another. -/
def writeTree (before after : FileTree) : IO Unit := do
  let moved := movedLinks before after
  for (place, e) in before.toList do
    let isGone := match after.entryAt? place, e with
      | none, _ => moved.all (·.1 ≠ place)
      -- a file written where a link stands would be written where the link leads
      | some e', .link _ => e' ≠ e
      | some _, _ => false
    if isGone then IO.FS.removeFile (Location.path place).display
  for (source, place) in moved do
    IO.FS.rename (Location.path source).display (Location.path place).display
  for (place, e) in after.toList do
    if before.entryAt? place ≠ some e then writeEntry place e

def setting? (name : String) : IO (Option Path) := do
  return (← IO.getEnv name).map Path.ofString

def levelName : Level → String
  | .debug => "DEBUG"
  | .info => "INFO"
  | .warn => "WARN"
  | .error => "ERROR"

/-- Tells an event, unless it is one of those that only a search for faults needs. -/
def tell (e : Event) : IO Unit :=
  if e.level = .debug then return
  else IO.eprintln <| " ".intercalate
    (levelName e.level :: e.message :: e.values.map fun (key, value) => key ++ "=" ++ value)

def usage : String := "usage: member-index [OPTIONS] ROOT"

def usageText : UsageError → String
  | .unknownArgument => "error: unexpected argument"
  | .missingValue => "error: a value is required"
  | .invalidValue => "error: invalid value"
  | .repeated => "error: an option was given twice"
  | .unexpectedValue => "error: unexpected value"
  | .missingRoot => "error: ROOT was not given"
  | .help => usage

def present (milliseconds : Nat) : Conclusion → IO Unit
  | .summary s => IO.println (s.document milliseconds).render
  | .usage .help => IO.println usage
  | .usage e => IO.eprintln (usageText e)
  | .failed causes => IO.eprint (Program.diagnosis causes)
  | .stalled stall => IO.eprintln stall.message

end MemberIndex.Main

open MemberIndex MemberIndex.Main in
def main (args : List String) : IO UInt32 := do
  let start ← IO.monoNanosNow
  let env : Environment := {
    disassembler := ← setting? "CLASS_INVENTORY_JAVAP"
    javaHome := ← setting? "JAVA_HOME"
    searchPath := (← setting? "PATH").map (·.bytes) }
  let before ← readTree env args
  let r := Program.run env ⟨start⟩ args before
  writeTree before r.tree
  r.events.forM tell
  present (((← IO.monoNanosNow) - start) / 1000000) r.conclusion
  return r.conclusion.exitCode.toUInt32
