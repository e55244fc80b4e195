import MemberIndex.Disassembler.Launch
import MemberIndex.Identity
import MemberIndex.Members.Listing
import MemberIndex.Records
import MemberIndex.Transcript.Sink

/-! # Tasks

One artifact's way into the index: its identity, the tool's lines into a block of the
transcript and into a record, the block into the sink and the record into the index.
-/

namespace MemberIndex

/-- What reading lines into a record and a block comes to, and what was not read. -/
structure Extraction where
  result : Except TaskError Members
  block : Block
  unread : List (Except TaskError String)

def extract (m : Members) (b : Block) : List (Except TaskError String) → Extraction
  | [] => ⟨.ok m, b, []⟩
  | .error e :: rest => ⟨.error e, b, rest⟩
  | .ok line :: rest => extract (m.scanLine line) (b.push line) rest

/-- What every task of a run shares: the root, the tool, and the time at which tools
are started. -/
structure Workbench where
  root : Path
  tool : Tool
  clock : Moment := ⟨0⟩

/-- What disassembling an artifact comes to: its block, and its members with the
tool's exit. -/
structure Attempt where
  block : Block
  result : Except TaskError (Members × ToolEnd)

structure Recording where
  identity : String
  exit : ToolEnd
  replaced : Option Members

namespace Workbench

variable (p : Workbench)

def attend (b : Block) (s : Session) : Except Stall Attempt := do
  let (lines, s) ← s.readAll p.clock
  let x := extract ∅ b lines
  match x.result with
  | .error e => return ⟨x.block, .error e⟩
  | .ok m =>
    let (exit, _) ← s.await Session.finish p.clock
    return ⟨x.block, exit.map (m, ·)⟩

def attempt (path : Path) : Except Stall Attempt :=
  let block := Block.forArtifact path
  match p.tool.start path with
  | .error e => .ok ⟨block, .error (.invocation p.tool.name e)⟩
  | .ok b => do p.attend block (← Session.start p.clock p.tool.limit b)

/-- One task from beginning to end, on the index and the sink as they are. -/
def process (path : Path) (records : Records) (sink : Sink) :
    Except Stall (Except TaskError Recording × Records × Sink) :=
  match identity? p.root path with
  | none => .ok (.error (.identity path), records, sink)
  | some identity => do
    let a ← p.attempt path
    let sink := sink.submit a.block
    match a.result with
    | .error e => return (.error e, records, sink)
    | .ok (m, exit) =>
      let (replaced, records) := records.put identity m
      return (.ok ⟨identity, exit, replaced⟩, records, sink)

end Workbench

end MemberIndex
