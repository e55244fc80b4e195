import MemberIndex.Run.Event
import MemberIndex.Run.Task

/-! # Crews

The tasks of a run on the state that they share. A task goes from phase to phase, and
each step is atomic; a run is any order of steps. The order that is carried out does one
task after another.
-/

namespace MemberIndex

structure FailedTask where
  path : String
  kind : String
  message : String
deriving DecidableEq

namespace FailedTask

def of (path : Path) (e : TaskError) : FailedTask := ⟨path.display, e.kind, e.message⟩

end FailedTask

structure Tally where
  scheduled : Nat
  extracted : Nat
  toolWarnings : Nat
  collisions : Nat
  failures : List FailedTask
deriving DecidableEq

structure Shared where
  records : Records := ∅
  sink : Sink := {}
  extracted : Nat := 0
  toolWarnings : Nat := 0
  collisions : Nat := 0
  failures : List FailedTask := []
  events : List Event := []

namespace Shared

def emit (s : Shared) (e : Event) : Shared := { s with events := s.events ++ [e] }

def tally (s : Shared) (scheduled : Nat) : Tally where
  scheduled := scheduled
  extracted := s.extracted
  toolWarnings := s.toolWarnings
  collisions := s.collisions
  failures := s.failures.mergeSort fun a b => (compare a.path b.path).isLE

end Shared

inductive Phase
  | scheduled
  | announced
  | disassembled (identity : String) (result : Except TaskError (Members × ToolEnd))
  | stored (outcome : Recording)
  | counted (outcome : Recording)
  | warned (outcome : Recording)
  | checked (outcome : Recording)
  | collided (outcome : Recording)
  | refused (error : TaskError)
  | reported (error : TaskError)
  | finished

namespace Phase

/-- A bound on the steps that a task still takes. -/
def remaining : Phase → Nat
  | scheduled => 8
  | announced => 7
  | disassembled .. => 6
  | stored _ => 5
  | counted _ => 4
  | warned _ => 3
  | checked _ => 2
  | collided _ => 1
  | refused _ => 2
  | reported _ => 1
  | finished => 0

end Phase

namespace Workbench

variable (p : Workbench)

def advance (path : Path) (s : Shared) : Phase → Except Stall (Phase × Shared)
  | .scheduled => .ok (.announced, s.emit (.processing path))
  | .announced =>
    match identity? p.root path with
    | none => .ok (.refused (.identity path), s)
    | some identity => do
      let a ← p.attempt path
      return (.disassembled identity a.result, { s with sink := s.sink.submit a.block })
  | .disassembled _ (.error e) => .ok (.refused e, s)
  | .disassembled identity (.ok (m, exit)) =>
    let (replaced, records) := s.records.put identity m
    .ok (.stored ⟨identity, exit, replaced⟩, { s with records := records })
  | .stored o => .ok (.counted o, { s with extracted := s.extracted + 1 })
  | .counted o =>
    if o.exit.status.success then .ok (.checked o, s)
    else .ok (.warned o, { s with toolWarnings := s.toolWarnings + 1 })
  | .warned o => .ok (.checked o, s.emit (.exited path o.exit))
  | .checked o =>
    if o.replaced.isNone then .ok (.finished, s)
    else .ok (.collided o, { s with collisions := s.collisions + 1 })
  | .collided o => .ok (.finished, s.emit (.overwritten path o.identity))
  | .refused e => .ok (.reported e, s.emit (.failed path e))
  | .reported e => .ok (.finished, { s with failures := s.failures ++ [.of path e] })
  | .finished => .ok (.finished, s)

def advanceBy (path : Path) : Nat → Phase → Shared → Except Stall (Phase × Shared)
  | 0, phase, s => .ok (phase, s)
  | n + 1, phase, s => do
    let (phase, s) ← p.advance path s phase
    advanceBy path n phase s

def runTask (path : Path) (s : Shared) : Except Stall Shared := do
  return (← p.advanceBy path Phase.scheduled.remaining .scheduled s).2

/-- Tasks one after another, in the order of their paths. A stall keeps what was done
before it. -/
def runTasks (s : Shared) : List Path → Option Stall × Shared
  | [] => (none, s)
  | path :: rest =>
    match p.runTask path s with
    | .ok s' => runTasks s' rest
    | .error e => (some e, s)

/-- The order in which so many workers take the tasks of paths. One worker takes them from
the first to the last. Several may take them in any order, of which this is one: they
begin at the last. -/
def order (workers : Nat) (paths : List Path) : List Path :=
  if workers = 1 then paths else paths.reverse

theorem order_perm (workers : Nat) (paths : List Path) : (order workers paths).Perm paths := by
  rw [order]
  split
  · exact .refl _
  · exact List.reverse_perm paths

def runCrew (workers : Nat) (s : Shared) (paths : List Path) : Option Stall × Shared :=
  p.runTasks s (order workers paths)

end Workbench

/-- A run on its way: every task with its phase, and what they share. -/
structure Crew where
  tasks : List (Path × Phase)
  shared : Shared

namespace Crew

def init (paths : List Path) (s : Shared) : Crew := ⟨paths.map (·, .scheduled), s⟩

/-- One step of one task, any of those that are not finished, or of the log's writer. -/
inductive Step (p : Workbench) : Crew → Crew → Prop
  | task {before after : List (Path × Phase)} {path : Path} {phase phase' : Phase}
    {s s' : Shared} (hp : phase ≠ .finished)
    (h : p.advance path s phase = .ok (phase', s')) :
    Step p ⟨before ++ (path, phase) :: after, s⟩ ⟨before ++ (path, phase') :: after, s'⟩
  | writer (c : Crew) (h : c.shared.sink.queue ≠ []) :
    Step p c ⟨c.tasks, { c.shared with sink := c.shared.sink.drainOne }⟩

/-- The states that a run may come to, in any order of steps. -/
inductive Reaches (p : Workbench) : Crew → Crew → Prop
  | refl (c : Crew) : Reaches p c c
  | tail {c d e : Crew} (h : Reaches p c d) (hs : Step p d e) : Reaches p c e

def IsDone (c : Crew) : Prop := ∀ t ∈ c.tasks, t.2 = .finished

end Crew

end MemberIndex
