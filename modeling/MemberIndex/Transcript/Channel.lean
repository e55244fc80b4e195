import MemberIndex.Transcript.Sink

/-! # Channels

A sink as the hands that share it and its writer see it. Every hand holds a handle, sends
blocks with it, and counts a block's lines only once the block is sent. The writer takes a
block from the queue and writes it piece by piece. It comes to its end where the queue is
empty and neither a handle nor the sink itself is left that could send another block.
-/

namespace MemberIndex

/-- A sink whose handles are numbered in the order in which they were made. -/
structure Channel where
  sink : Sink
  /-- What the writer has yet to write of the block that it took last. -/
  writing : List (List UInt8) := []
  made : Nat := 0
  held : List Nat := []
  /-- The blocks that are sent but not counted yet, by their senders and their lines. -/
  uncounted : List (Nat × Nat) := []
  /-- Whether the sink has not been asked to shut down. -/
  owned : Bool := true
  /-- What the writer has answered in the end. -/
  answer : Option (Except IoError Unit) := none

namespace Channel

def new (w : Writer) : Channel := { sink := { writer := w } }

def extend (c : Channel) : Channel :=
  { c with made := c.made + 1, held := c.held ++ [c.made] }

def enqueue (c : Channel) (i : Nat) (b : Block) : Channel :=
  { c with
    sink := { c.sink with queue := c.sink.queue ++ [b] }
    uncounted := c.uncounted ++ [(i, b.size)] }

def count (c : Channel) (x : Nat × Nat) : Channel :=
  { c with
    sink := { c.sink with submitted := c.sink.submitted + x.2 }
    uncounted := c.uncounted.erase x }

/-- The writer takes a block that is next in the queue, and passes over it once it has
failed. -/
def accept (c : Channel) (b : Block) (rest : List Block) : Channel :=
  { c with
    sink := { c.sink with queue := rest }
    writing := if c.sink.failure.isSome then [] else b.pieces }

def put (c : Channel) (piece : List UInt8) (rest : List (List UInt8)) : Channel :=
  let (w, failure) := c.sink.writer.write piece
  { c with
    sink := { c.sink with writer := w, failure := failure }
    writing := if failure.isSome then [] else rest }

/-- A step of a hand or of the writer, with the call that it makes: the sender and the block.
A line is sent as a block of its own. -/
inductive Step : Channel → Option (Nat × Block) → Channel → Prop
  | handle (c : Channel) (ho : c.owned = true) : Step c none c.extend
  | clone (c : Channel) {i : Nat} (hi : i ∈ c.held) : Step c none c.extend
  | ignores (c : Channel) {i : Nat} {b : Block} (hi : i ∈ c.held) (hb : b.isEmpty = true) :
    Step c (some (i, b)) c
  | sends (c : Channel) {i : Nat} {b : Block} (hi : i ∈ c.held) (hb : b.isEmpty = false)
    (ha : c.answer = none) : Step c (some (i, b)) (c.enqueue i b)
  | refused (c : Channel) {i : Nat} {b : Block} (hi : i ∈ c.held) (hb : b.isEmpty = false)
    (ha : c.answer.isSome = true) : Step c (some (i, b)) c
  | counts (c : Channel) {x : Nat × Nat} (hx : x ∈ c.uncounted) : Step c none (c.count x)
  | drops (c : Channel) {i : Nat} (hi : i ∈ c.held) (hx : ∀ x ∈ c.uncounted, x.1 ≠ i) :
    Step c none { c with held := c.held.erase i }
  | shutsDown (c : Channel) (ho : c.owned = true) : Step c none { c with owned := false }
  | takes (c : Channel) {b : Block} {rest : List Block} (hw : c.writing = [])
    (hq : c.sink.queue = b :: rest) : Step c none (c.accept b rest)
  | writes (c : Channel) {piece : List UInt8} {rest : List (List UInt8)}
    (hw : c.writing = piece :: rest) : Step c none (c.put piece rest)
  | ends (c : Channel) (ho : c.owned = false) (hh : c.held = []) (hw : c.writing = [])
    (hq : c.sink.queue = []) (ha : c.answer = none) :
    Step c none { c with answer := some c.sink.shutdown.1 }

inductive Runs (w : Writer) : List (Nat × Block) → Channel → Prop
  | new : Runs w [] (new w)
  | step {calls : List (Nat × Block)} {c d : Channel} {call : Option (Nat × Block)}
    (h : Runs w calls c) (hs : Step c call d) : Runs w (calls ++ call.toList) d

end Channel

end MemberIndex
