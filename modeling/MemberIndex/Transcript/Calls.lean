import MemberIndex.Transcript.Channel

/-! # Calls

What the writer of a channel asks of its destination, call by call. A destination may take less
than it is offered, and then it is offered the rest, so that a hand may have its turn while a
line is half written. A destination that takes nothing ends the writing, and a flush ends all.
-/

namespace MemberIndex

/-- A call to a destination with its answer: how many of the offered bytes it takes, or why it
takes none, and what it says when it is flushed. -/
inductive Call
  | write (offered : List UInt8) (answer : Except IoError Nat)
  | flush (fault : Option IoError)

namespace Call

def taken : Call → List UInt8
  | write offered (.ok n) => offered.take n
  | write _ (.error _) | flush _ => []

def isRefused : Call → Bool
  | write _ (.ok n) => n = 0
  | write _ (.error _) => true
  | flush _ => false

def isFlush : Call → Bool
  | write .. => false
  | flush _ => true

end Call

namespace Writer

def accept (w : Writer) (offered : List UInt8) (n : Nat) : Writer :=
  { w with written := w.written ++ offered.take n, room := w.room.map (· - n) }

def flushed (w : Writer) : Except IoError Unit :=
  match w.flushFault with
  | none => .ok ()
  | some e => .error e

end Writer

namespace Channel

/-- The writer leaves the block where the destination takes no more of it. -/
def fail (c : Channel) : Channel :=
  { c with sink := { c.sink with failure := some c.sink.writer.full }, writing := [] }

/-- A step of a hand or of the writer, with what the hand sends and what the writer asks. A
destination takes any part of a piece that it has room for. One that has no room says that it is
full, or that it takes no byte. -/
inductive Serves : Channel → Option (Nat × Block) → Option Call → Channel → Prop
  | quiet {c d : Channel} {call : Option (Nat × Block)} (h : Step c call d)
    (hw : d.sink.writer = c.sink.writer) (hf : d.sink.failure = c.sink.failure)
    (ha : d.answer = c.answer) : Serves c call none d
  | takes (c : Channel) {piece : List UInt8} {rest : List (List UInt8)} {n : Nat}
    (hw : c.writing = piece :: rest) (hn : 0 < n) (hle : n ≤ piece.length)
    (hroom : ∀ m ∈ c.sink.writer.room, n ≤ m) :
    Serves c none (some (.write piece (.ok n)))
      { c with
        sink := { c.sink with writer := c.sink.writer.accept piece n }
        writing := piece.drop n :: rest }
  | refuses (c : Channel) {piece : List UInt8} {rest : List (List UInt8)}
    (hw : c.writing = piece :: rest) (hp : piece ≠ []) (hroom : c.sink.writer.room = some 0) :
    Serves c none (some (.write piece (.error c.sink.writer.full))) c.fail
  | takesNone (c : Channel) {piece : List UInt8} {rest : List (List UInt8)}
    (hw : c.writing = piece :: rest) (hp : piece ≠ []) (hroom : c.sink.writer.room = some 0)
    (hfull : c.sink.writer.full = .writeZero) :
    Serves c none (some (.write piece (.ok 0))) c.fail
  | flushes (c : Channel) (ho : c.owned = false) (hh : c.held = []) (hw : c.writing = [])
    (hq : c.sink.queue = []) (ha : c.answer = none) (hf : c.sink.failure = none) :
    Serves c none (some (.flush c.sink.writer.flushFault))
      { c with answer := some c.sink.writer.flushed }
  | givesUp (c : Channel) {e : IoError} (ho : c.owned = false) (hh : c.held = [])
    (hw : c.writing = []) (hq : c.sink.queue = []) (ha : c.answer = none)
    (hf : c.sink.failure = some e) : Serves c none none { c with answer := some (.error e) }

inductive Served (w : Writer) : List (Nat × Block) → List Call → Channel → Prop
  | new : Served w [] [] (new w)
  | step {calls : List (Nat × Block)} {asked : List Call} {c d : Channel}
    {call : Option (Nat × Block)} {ask : Option Call} (h : Served w calls asked c)
    (hs : Serves c call ask d) : Served w (calls ++ call.toList) (asked ++ ask.toList) d

end Channel

end MemberIndex
