import MemberIndex.FileTree.Change
import MemberIndex.Transcript.Sink

/-! # Logs

A sink over a file of a tree. What the sink's writer took stands in the file once the
sink is shut down.
-/

namespace MemberIndex.Log

def openAt (p : Path) (append : Bool) : Change Location := do
  FileTree.makeParents p
  FileTree.openFile p append

/-- A sink for an opened log: a full device has no room at all. -/
def sink (t : FileTree) (place : Location) : Sink :=
  match t.entryAt? place with
  | some (.device .full) => { writer := { room := some 0 } }
  | _ => {}

/-- The tree once a sink's bytes are in its log. -/
def settle (t : FileTree) (place : Location) (s : Sink) : FileTree :=
  match t.entryAt? place with
  | some (.file f) =>
    t.rewrite place { f with content := f.content.append s.writer.written.toList }
  | _ => t

end MemberIndex.Log
