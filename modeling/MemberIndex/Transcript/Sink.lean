import MemberIndex.IoError
import MemberIndex.Transcript.Block

/-! # Transcript sinks

Blocks are sent whole to a queue that one writer empties. The writer stops writing at
its first failure but goes on taking blocks, and the failure comes out when the sink
is shut down.
-/

namespace MemberIndex

/-- A destination of bytes: what it took, how many more it takes and what it says
then, and what it says when it is flushed. -/
structure Writer where
  written : Array UInt8 := #[]
  room : Option Nat := none
  full : IoError := .os .noSpace
  flushFault : Option IoError := none
deriving DecidableEq

namespace Writer

def write (w : Writer) (bytes : List UInt8) : Writer × Option IoError :=
  match w.room with
  | none => ({ w with written := w.written ++ bytes }, none)
  | some n =>
    ({ w with written := w.written ++ bytes.take n, room := some (n - bytes.length) },
      if bytes.length ≤ n then none else some w.full)

def writeAll (w : Writer) : List (List UInt8) → Writer × Option IoError
  | [] => (w, none)
  | piece :: rest =>
    match w.write piece with
    | (w', none) => writeAll w' rest
    | (w', some e) => (w', some e)

def writeBlock (w : Writer) (b : Block) : Writer × Option IoError :=
  w.writeAll (b.lines.flatMap fun line => [Text.Utf8.encode line, [10]])

end Writer

structure Sink where
  writer : Writer := {}
  queue : List Block := []
  submitted : Nat := 0
  failure : Option IoError := none
deriving DecidableEq

namespace Sink

/-- Sends a block and counts its lines. An empty block is not sent. -/
def submit (s : Sink) (b : Block) : Sink :=
  if b.isEmpty then s
  else { s with queue := s.queue ++ [b], submitted := s.submitted + b.size }

def submitLine (s : Sink) (line : String) : Sink := s.submit ⟨[line]⟩

def drainOne : Sink → Sink
  | ⟨w, b :: rest, submitted, none⟩ =>
    let (w, failure) := w.writeBlock b
    ⟨w, rest, submitted, failure⟩
  | ⟨w, _ :: rest, submitted, some e⟩ => ⟨w, rest, submitted, some e⟩
  | s => s

def drain (s : Sink) : Sink :=
  s.queue.foldl (fun s _ => s.drainOne) s

/-- What the writer answers once the queue is closed and empty: its first failure, or
what a flush says. -/
def shutdown (s : Sink) : Except IoError Unit × Sink :=
  let s := s.drain
  (match s.failure, s.writer.flushFault with
    | some e, _ | none, some e => .error e
    | none, none => .ok (), s)

/-- A step of a sink that many hands share: one of them submits a block, or the writer
takes one. -/
inductive Step : Sink → Sink → Prop
  | submit (s : Sink) (b : Block) : Step s (s.submit b)
  | drain (s : Sink) (h : s.queue ≠ []) : Step s s.drainOne

end Sink

end MemberIndex
