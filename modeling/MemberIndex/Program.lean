import MemberIndex.Inventory
import MemberIndex.Report.Write

/-! # The program

From a command line to an exit code: the inventory is built, the report written and a
summary shown, or the causes of what went wrong.
-/

namespace MemberIndex

structure Summary where
  inventory : Inventory
  output : Path
  log : Path

namespace Summary

def failure (f : FailedTask) : Report.Document :=
  .table [("path", .text f.path), ("kind", .text f.kind), ("message", .text f.message)]

def document (s : Summary) (milliseconds : Nat) : Report.Document :=
  let i := s.inventory
  .table <|
    [("root", .text i.root.display),
      ("discovered", .number i.discovered),
      ("extracted", .number i.tally.extracted),
      ("failed", .number i.tally.failures.length),
      ("tool_warnings", .number i.tally.toolWarnings),
      ("collisions", .number i.tally.collisions),
      ("skipped_entries", .number i.skipped),
      ("transcript_lines", .number i.transcriptLines)] ++
    (i.transcriptFault.map fun e => ("transcript_error", .text e.text)).toList ++
    [("report_path", .text s.output.display),
      ("log_path", .text s.log.display),
      ("duration_ms", .number milliseconds),
      ("failures", .list (i.tally.failures.map failure))]

end Summary

inductive Conclusion
  | summary (s : Summary)
  | usage (e : UsageError)
  | failed (causes : List String)
  | stalled (stall : Stall)

namespace Conclusion

def exitCode : Conclusion → Nat
  | summary _ => 0
  | usage e => e.exitCode
  | failed _ => 1
  | stalled _ => 101

end Conclusion

namespace Program

def indented (width : Nat) (cause : String) : String :=
  let lines := (Text.fields '\n' cause.toList).map String.ofList
  String.intercalate (String.ofList ('\n' :: List.replicate width ' ')) lines

def numbered (i : Nat) (cause : String) : String :=
  let number := toString i
  String.ofList (List.replicate (5 - number.length) ' ') ++ number ++ ": " ++ indented 7 cause

/-- The causes of an error as they are shown: the outermost first, the others listed
below it, with numbers where there are several. -/
def diagnosis : List String → String
  | [] => "Error: \n"
  | [c] => "Error: " ++ c ++ "\n"
  | [c, d] => "Error: " ++ c ++ "\n\nCaused by:\n    " ++ indented 4 d ++ "\n"
  | c :: causes =>
    "Error: " ++ c ++ "\n\nCaused by:\n" ++
      String.join (causes.zipIdx.map fun (d, i) => numbered i d ++ "\n")

structure Result where
  conclusion : Conclusion
  tree : FileTree
  events : List Event := []

def conclude (s : Settings) (r : Run) : Result :=
  match r.outcome with
  | .stalled stall => ⟨.stalled stall, r.tree, r.events⟩
  | .failed e =>
    let context := "Failed to inventory " ++ s.root.display
    ⟨.failed [context, e.message, e.source.text], r.tree, r.events⟩
  | .complete i =>
    match Report.write s.output i.records r.tree with
    | (.error e, t) => ⟨.failed [e.message, e.source.text], t, r.events⟩
    | (.ok _, t) => ⟨.summary ⟨i, s.output, s.log⟩, t, r.events⟩

def run (env : Environment) (clock : Moment) (args : List String) (t : FileTree) : Result :=
  match Arguments.parse args with
  | .error e => { conclusion := .usage e, tree := t }
  | .ok a =>
    match Settings.resolve t env a with
    | .error e => { conclusion := .failed e.causes, tree := t }
    | .ok s => conclude s (Run.build s clock t)

end Program

end MemberIndex
