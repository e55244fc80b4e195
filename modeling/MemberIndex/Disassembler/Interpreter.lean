import MemberIndex.Path.Basic

/-! # Interpreter lines

A program may be a text whose first line names the program that runs it, and an
argument for it. Only the start of the file is looked at, and a file that is shorter
counts as filled up with zeros.
-/

namespace MemberIndex

structure Interpreter where
  program : Path
  argument : Option (List UInt8)
deriving DecidableEq

namespace Interpreter

/-- How many bytes behind the mark are looked at. -/
def window : Nat := 254

def isGap (b : UInt8) : Bool := b = 32 || b = 9

def endsName (b : UInt8) : Bool := isGap b || b = 0

def trim (line : List UInt8) : List UInt8 :=
  (line.reverse.dropWhile isGap).reverse.dropWhile isGap

/-- What a line behind the mark names. What follows a gap is one argument, up to a
zero, which may be its first byte. -/
def ofLine? (line : List UInt8) : Option Interpreter :=
  let line := trim line
  let behind := line.dropWhile (!endsName ·)
  if line = [] then none
  else some {
    program := ⟨line.takeWhile (!endsName ·)⟩
    argument :=
      if behind.head?.any isGap then some ((behind.dropWhile isGap).takeWhile (· ≠ 0))
      else none }

/-- What the bytes behind the mark name. A line that does not end within the window is
taken as far as that reaches, but must not be cut inside the name. -/
def ofWindow? (seen : List UInt8) : Option Interpreter :=
  let text := seen.takeWhile (· ≠ 0)
  if text.contains 10 then ofLine? (text.takeWhile (· ≠ 10))
  else if (seen.dropWhile isGap).any endsName then ofLine? seen.dropLast
  else none

def ofBytes? : List UInt8 → Option Interpreter
  | 35 :: 33 :: rest =>
    let seen := rest.take window
    ofWindow? (seen ++ List.replicate (window - seen.length) 0)
  | _ => none

end Interpreter

end MemberIndex
