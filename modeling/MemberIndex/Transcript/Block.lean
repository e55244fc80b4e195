import MemberIndex.Path.Basic

/-! # Transcript blocks

One artifact's share of the transcript: a header that names it, and every line that
the tool printed.
-/

namespace MemberIndex

structure Block where
  lines : List String := []
deriving DecidableEq

namespace Block

def headerMark : String := "Class: "

def title (p : Path) : String :=
  match p.fileName? with
  | some n => Text.Utf8.decode n
  | none => p.display

def header (p : Path) : String := headerMark ++ title p

def forArtifact (p : Path) : Block := ⟨[header p]⟩

def push (b : Block) (line : String) : Block := ⟨b.lines ++ [line]⟩

def size (b : Block) : Nat := b.lines.length

def isEmpty (b : Block) : Bool := b.lines.isEmpty

/-- The pieces that a block is written in, each line and each line feed by itself. -/
def pieces (b : Block) : List (List UInt8) :=
  b.lines.flatMap fun line => [Text.Utf8.encode line, [10]]

def render (b : Block) : List UInt8 :=
  b.lines.flatMap fun line => Text.Utf8.encode line ++ [10]

end Block

end MemberIndex
