/-! # Durations

Spans of time and moments of a clock, both in nanoseconds. A duration is written
in the largest unit that it fills, with the fraction that is left of it.
-/

namespace MemberIndex

structure Duration where
  nanos : Nat
deriving DecidableEq

structure Moment where
  nanos : Nat
deriving DecidableEq

namespace Duration

def ofSeconds (s : Nat) : Duration := ⟨s * 1000000000⟩

def decimal (whole fraction places : Nat) : String :=
  let digits := (Nat.toDigits 10 (Nat.pow 10 places + fraction)).drop 1
  let kept := (digits.reverse.dropWhile (· == '0')).reverse
  if kept = [] then toString whole else toString whole ++ "." ++ String.ofList kept

def inUnit (d : Duration) (places : Nat) : String :=
  decimal (d.nanos / Nat.pow 10 places) (d.nanos % Nat.pow 10 places) places

def text (d : Duration) : String :=
  if Nat.pow 10 9 ≤ d.nanos then d.inUnit 9 ++ "s"
  else if Nat.pow 10 6 ≤ d.nanos then d.inUnit 6 ++ "ms"
  else if Nat.pow 10 3 ≤ d.nanos then d.inUnit 3 ++ "µs"
  else d.inUnit 0 ++ "ns"

end Duration

namespace Moment

def lastSecond : Nat := Nat.pow 2 63 - 1

/-- The moment a duration later, if the clock can name it. -/
def after? (m : Moment) (d : Duration) : Option Moment :=
  if (m.nanos + d.nanos) / Nat.pow 10 9 ≤ lastSecond then some ⟨m.nanos + d.nanos⟩ else none

end Moment

end MemberIndex
