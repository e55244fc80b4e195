import MemberIndex.Failure
import MemberIndex.FileTree.Change
import MemberIndex.Report.Printer

/-! # Writing reports

A report is written beside its path and moved there when it is complete, so that the
path never holds a part of one.
-/

namespace MemberIndex.Report

/-- The path that a report is written at before it is moved. -/
def draftPath (p : Path) : Path := ⟨p.bytes ++ Text.Utf8.encode ".tmp"⟩

def save (p : Path) (r : Records) : Change Unit := do
  FileTree.makeParents p
  FileTree.writeFile (draftPath p) (Text.Utf8.encode (fileText r))
  tryCatch (FileTree.move (draftPath p) p) fun e => do
    tryCatch (FileTree.remove (draftPath p)) fun _ => pure ()
    throw e

/-- Writes a report; the tree afterwards holds what was done before an error. Nothing is refused
here but what the tree itself rules out; `Ends` has the outcomes where a system refuses more. -/
def write (p : Path) (r : Records) (t : FileTree) : Except RunError Unit × FileTree :=
  let (result, t') := (save p r).run.run t
  (result.mapError fun e => ⟨.report, p, e⟩, t')

end MemberIndex.Report
