import MemberIndex.Disassembler.Behaviour
import MemberIndex.Failure

/-! # Sessions

A started tool as its caller holds it: the queue of lines that a reader fills, the
child process, and the deadline. A call that asks the session at a moment is answered
or has to wait; the clock, the reader and the child move on between the calls.
-/

namespace MemberIndex

/-- A child process, by what its parent may still learn of it. -/
inductive Child
  | running
  | ended (status : ExitStatus)
  | collected (status : ExitStatus)
deriving DecidableEq

namespace Child

def stop : Child → Child
  | running => collected .killed
  | ended s | collected s => collected s

end Child

structure ToolEnd where
  status : ExitStatus
  diagnostics : String
deriving DecidableEq

structure Session where
  queue : List (Except IoError String)
  feeding : Bool
  child : Child
  diagnostics : String
  limit : Option Duration
  deadline : Option Moment
  exhausted : Bool := false
  /-- Whether processes that the child has started hold its pipes open, and do so behind its end. -/
  held : Bool := false

/-- What a call at a moment comes to. -/
inductive Reply (α : Type)
  | answer (a : α)
  | waiting

namespace Session

def expired (s : Session) (now : Moment) : Bool :=
  s.deadline.any fun d => d.nanos ≤ now.nanos

def abort (s : Session) : TaskError × Session :=
  (.timeout (s.limit.getD ⟨0⟩), { s with child := s.child.stop, exhausted := true })

/-- The next line, error or end. A line that waits in the queue is handed out whatever
the clock says. -/
def next (s : Session) (now : Moment) : Reply (Option (Except TaskError String)) × Session :=
  if s.exhausted then (.answer none, s)
  else match s.queue with
    | .ok line :: rest => (.answer (some (.ok line)), { s with queue := rest })
    | .error e :: rest =>
      (.answer (some (.error (.reading e))), { s with queue := rest, exhausted := true })
    | [] =>
      if !s.feeding then (.answer none, { s with exhausted := true })
      else if s.expired now then (.answer (some (.error s.abort.1)), s.abort.2)
      else (.waiting, s)

/-- The child's exit. Once it is known the readers are waited for, until their pipes are closed
and whatever the clock says. -/
def finish (s : Session) (now : Moment) : Reply (Except TaskError ToolEnd) × Session :=
  match s.child with
  | .ended status | .collected status =>
    (if s.held then .waiting else .answer (.ok ⟨status, s.diagnostics⟩),
      { s with child := .collected status })
  | .running =>
    if s.expired now then (.answer (.error s.abort.1), s.abort.2) else (.waiting, s)

def close (s : Session) : Session := { s with child := s.child.stop }

/-- What the world may do to a session between the calls. -/
inductive Happens : Session → Session → Prop
  | line (s : Session) (l : String) (h : s.feeding = true) :
    Happens s { s with queue := s.queue ++ [.ok l] }
  | fault (s : Session) (e : IoError) (h : s.feeding = true) :
    Happens s { s with queue := s.queue ++ [.error e], feeding := false }
  | stopsFeeding (s : Session) (h : s.feeding = true) : Happens s { s with feeding := false }
  | ends (s : Session) (status : ExitStatus) (h : s.child = .running) :
    Happens s { s with child := .ended status }
  | leaves (s : Session) (h : s.child = .running) : Happens s { s with held := true }
  | releases (s : Session) : Happens s { s with held := false }

/-- What a reader puts into the queue for a behaviour. An unfinished line goes there only
with the end of the output. -/
def deliveries (b : Behaviour) : List (Except IoError String) :=
  let lines := if b.closesOutput then Text.pipeLines b.output else Text.openPipeLines b.output
  lines.map .ok ++ (b.fault.map .error).toList

/-- The session of a tool that has done all it does by itself before the deadline, or
nothing yet. -/
def start (now : Moment) (limit : Option Duration) (b : Behaviour) : Except Stall Session :=
  let b := b.within limit
  let s : Session :=
    { queue := deliveries b
      feeding := b.ending = .hangs && b.fault.isNone
      child := match b.ending with
        | .exits status | .leaves status => .ended status
        | _ => .running
      held := match b.ending with
        | .leaves _ => true
        | _ => false
      diagnostics := Text.Utf8.decode b.diagnostics
      limit := limit
      deadline := none }
  match limit with
  | none => .ok s
  | some d =>
    match now.after? d with
    | some m => .ok { s with deadline := some m }
    | none => .error .clockOverflow

def await {α : Type} (call : Session → Moment → Reply α × Session) (now : Moment)
    (s : Session) : Except Stall (α × Session) :=
  match call s now with
  | (.answer a, s') => .ok (a, s')
  | (.waiting, s') =>
    match s'.deadline with
    | none => .error .endless
    | some d =>
      match call s' d with
      | (.answer a, s'') => .ok (a, s'')
      | (.waiting, _) => .error .endless

def take (now : Moment) :
    Nat → Session → Except Stall (List (Except TaskError String) × Bool × Session)
  | 0, s => .ok ([], false, s)
  | n + 1, s => do
    let (line, s) ← s.await next now
    match line with
    | none => return ([], true, s)
    | some l =>
      let (ls, ended, s) ← take now n s
      return (l :: ls, ended, s)

/-- Every line up to the end or the first error: those of the queue, at most one error
behind them, and the end. -/
def readAll (now : Moment) (s : Session) :
    Except Stall (List (Except TaskError String) × Session) := do
  let (ls, _, s) ← s.take now (s.queue.length + 2)
  return (ls, s)

end Session

end MemberIndex
