import MemberIndex.Disassembler.Session
import MemberIndex.Text.Blank

/-! # Events

What a run says about itself as it goes on.
-/

namespace MemberIndex

inductive Level
  | debug
  | info
  | warn
  | error
deriving DecidableEq

inductive Event
  | discovered (root : Path) (artifacts : Nat)
  | skipped (path : Path) (error : IoError)
  | processing (path : Path)
  | exited (path : Path) (exit : ToolEnd)
  | overwritten (path : Path) (identity : String)
  | failed (path : Path) (error : TaskError)
  | transcriptFailed (path : Path) (error : IoError)
deriving DecidableEq

namespace Event

def level : Event → Level
  | processing _ => .debug
  | discovered .. => .info
  | skipped .. | exited .. | overwritten .. => .warn
  | failed .. | transcriptFailed .. => .error

def message : Event → String
  | discovered .. => "discovered class files"
  | skipped .. => "skipping unreadable entry"
  | processing _ => "processing"
  | exited .. => "javap exited unsuccessfully, keeping partial output"
  | overwritten .. => "identity already recorded by another class file, overwriting"
  | failed .. => "failed to extract class file"
  | transcriptFailed .. => "failed to write transcript log"

def values : Event → List (String × String)
  | discovered root n => [("root", root.display), ("artifacts", toString n)]
  | skipped path e => [("error", path.display ++ ": " ++ e.text)]
  | processing path => [("path", path.display)]
  | exited path exit =>
    [("path", path.display), ("status", exit.status.text),
      ("stderr", Text.trim exit.diagnostics)]
  | overwritten path identity => [("path", path.display), ("identity", identity)]
  | failed path e => [("path", path.display), ("kind", e.kind), ("error", e.message)]
  | transcriptFailed path e => [("path", path.display), ("error", e.text)]

end Event

end MemberIndex
