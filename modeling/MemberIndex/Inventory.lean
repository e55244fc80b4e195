import MemberIndex.Discovery
import MemberIndex.Run.Crew
import MemberIndex.Settings
import MemberIndex.Transcript.Log

/-! # Inventories

A whole run: artifacts are discovered, the log is opened, every artifact has its task,
and the log is shut down. What goes wrong with the log once it is open is told and
changes nothing else.
-/

namespace MemberIndex

structure Inventory where
  root : Path
  discovered : Nat
  skipped : Nat
  transcriptLines : Nat
  transcriptFault : Option IoError
  tally : Tally
  records : Records

inductive Outcome
  | complete (inventory : Inventory)
  | failed (error : RunError)
  | stalled (stall : Stall)

structure Run where
  outcome : Outcome
  tree : FileTree
  events : List Event

/-- A run whose artifacts are known and whose log is open. -/
structure OpenRun where
  settings : Settings
  discovery : Discovery
  tree : FileTree
  log : Location
  events : List Event

namespace OpenRun

variable (r : OpenRun)

/-- What the tasks work with: the log is held open for writing all the while. -/
def bench (clock : Moment) : Workbench :=
  ⟨r.settings.root, r.settings.disassembler.tool r.tree [r.log], clock⟩

def shared : Shared := { sink := Log.sink r.tree r.log, events := r.events }

def close (shared : Shared) : Run :=
  let (closed, sink) := shared.sink.shutdown
  let fault := match closed with
    | .ok _ => none
    | .error e => some e
  { outcome := .complete {
      root := r.settings.root
      discovered := r.discovery.artifacts.length
      skipped := r.discovery.skipped.length
      transcriptLines := sink.submitted
      transcriptFault := fault
      tally := shared.tally r.discovery.artifacts.length
      records := shared.records }
    tree := Log.settle r.tree r.log sink
    events := shared.events ++ (fault.map (.transcriptFailed r.settings.log)).toList }

end OpenRun

namespace Run

def start (s : Settings) (t : FileTree) : Except Run OpenRun :=
  match discover t s.root s.extension with
  | .error e => .error ⟨.failed e, t, []⟩
  | .ok d =>
    let events := d.skipped.map (fun (p, e) => .skipped p e) ++
      [.discovered s.root d.artifacts.length]
    match (Log.openAt s.log s.appendLog).run.run t with
    | (.error e, t') => .error ⟨.failed ⟨.transcript, s.log, e⟩, t', events⟩
    | (.ok place, t') => .ok ⟨s, d, t', place, events⟩

/-- Builds the inventory that settings ask for, on a file tree and on a machine that grants the run
all its threads: those of the pool, of the log's writer and of the readers of each tool. -/
def build (s : Settings) (clock : Moment) (t : FileTree) : Run :=
  match start s t with
  | .error r => r
  | .ok r =>
    match (r.bench clock).runCrew s.jobs r.shared r.discovery.artifacts with
    | (some stall, _) => ⟨.stalled stall, r.tree, r.events⟩
    | (none, shared) => r.close shared

/-- The runs that settings may come to, the steps of the tasks taken in any order. -/
inductive Builds (s : Settings) (clock : Moment) (t : FileTree) : Run → Prop
  | ended {r : Run} (h : start s t = .error r) : Builds s clock t r
  | completed {r : OpenRun} {c : Crew} (h : start s t = .ok r)
    (hc : Crew.Reaches (r.bench clock) (.init r.discovery.artifacts r.shared) c)
    (hd : c.IsDone) : Builds s clock t (r.close c.shared)

end Run

end MemberIndex
