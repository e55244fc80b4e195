import MemberIndex.Arguments
import MemberIndex.Disassembler.Launch

/-! # Settings

A run's settings, from the command line, the environment and the file tree.
-/

namespace MemberIndex

structure Environment where
  disassembler : Option Path := none
  javaHome : Option Path := none
  searchPath : Option (List UInt8) := none

structure Settings where
  root : Path
  extension : String
  disassembler : Disassembler
  jobs : Nat
  output : Path
  log : Path
  appendLog : Bool

inductive SettingsError
  | root (path : Path) (source : IoError)
  | emptyExtension
deriving DecidableEq

namespace SettingsError

def causes : SettingsError → List String
  | root p e => ["Failed to resolve scan root: " ++ p.display, e.text]
  | emptyExtension => ["--extension must not be empty"]

end SettingsError

namespace Settings

def installed? (t : FileTree) (home : Path) : Option Path :=
  let p := (home.join (.ofString "bin")).join (.ofString "javap")
  if t.isFile p then some p else none

/-- The disassembler to use: the one asked for, then the environment's, then that of
the Java installation, then whatever the search path holds. -/
def pickDisassembler (t : FileTree) (env : Environment) (asked : Option Path) : Path :=
  match asked, env.disassembler.filter (!·.isEmpty), env.javaHome.bind (installed? t) with
  | some p, _, _ => p
  | none, some p, _ => p
  | none, none, some p => p
  | none, none, none => .ofString "javap"

def bareExtension (s : String) : String := String.ofList (s.toList.dropWhile (· = '.'))

def resolve (t : FileTree) (env : Environment) (a : Arguments) :
    Except SettingsError Settings := do
  let root ← (Path.absolute t.current.path a.root).mapError (.root a.root)
  let extension := bareExtension a.extension
  if extension = "" then throw .emptyExtension
  let arguments := if a.disassemblerArguments = [] then Disassembler.defaultArguments
    else a.disassemblerArguments
  return {
    root := root
    extension := extension
    disassembler := {
      program := pickDisassembler t env a.disassembler
      arguments := arguments.map Text.Utf8.encode
      timeout := if a.timeout = 0 then none else some (.ofSeconds a.timeout)
      searchPath := env.searchPath }
    jobs := a.jobs.getD 0
    output := a.output
    log := a.log
    appendLog := a.appendLog }

end Settings

end MemberIndex
