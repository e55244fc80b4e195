import MemberIndex.IoError
import MemberIndex.Text.Lines

/-! # Paths

A path is a string of bytes, read as a list of components: slashes that repeat or
end it and dots inside it name nothing, a dot that begins it stays.
-/

namespace MemberIndex

abbrev Name := List UInt8

structure Path where
  bytes : List UInt8
deriving DecidableEq

namespace Path

def slash : UInt8 := 47
def dot : UInt8 := 46

inductive Component
  | root
  | here
  | up
  | name (n : Name)
deriving DecidableEq

namespace Component

def bytes : Component → List UInt8
  | root => [slash]
  | here => [dot]
  | up => [dot, dot]
  | name n => n

def ofPiece? (piece : List UInt8) : Option Component :=
  if piece = [] ∨ piece = [dot] then none
  else if piece = [dot, dot] then some up
  else some (name piece)

end Component

def ofString (s : String) : Path := ⟨Text.Utf8.encode s⟩

def display (p : Path) : String := Text.Utf8.decode p.bytes

def isEmpty (p : Path) : Bool := p.bytes.isEmpty

def isAbsolute (p : Path) : Bool := p.bytes.head? == some slash

def pieces (p : Path) : List (List UInt8) := Text.fields slash p.bytes

def components (p : Path) : List Component :=
  (if p.isAbsolute then [Component.root]
    else if p.pieces.head? = some [dot] then [Component.here] else []) ++
    p.pieces.filterMap Component.ofPiece?

/-- A path seen from another one; an absolute path is the same from everywhere. -/
def join (p q : Path) : Path :=
  if q.isAbsolute then q
  else match p.bytes.getLast? with
    | none => q
    | some b => if b = slash then ⟨p.bytes ++ q.bytes⟩ else ⟨p.bytes ++ slash :: q.bytes⟩

def extend (p : Path) (cs : List Component) : Path :=
  cs.foldl (fun p c => p.join ⟨c.bytes⟩) p

def ofComponents (cs : List Component) : Path := extend ⟨[]⟩ cs

/-- Pieces without those at their end that name nothing. -/
def trimPieces (pieces : List (List UInt8)) : List (List UInt8) :=
  (pieces.reverse.dropWhile fun piece => piece = [] ∨ piece = [dot]).reverse

/-- The path without its last component, if that is not the root. What stands before
that component keeps its spelling. -/
def parent? (p : Path) : Option Path :=
  match p.components.getLast? with
  | none | some .root => none
  | some _ =>
    match trimPieces (trimPieces p.pieces).dropLast with
    | [] => some (ofComponents p.components.dropLast)
    | before => some ⟨[slash].intercalate before⟩

def climb : Nat → Path → List Path
  | 0, _ => []
  | n + 1, p => p :: match p.parent? with
    | none => []
    | some q => climb n q

/-- A path and the paths of all that it lies in, the empty path left out. -/
def ancestors (p : Path) : List Path := climb p.components.length p

def fileName? (p : Path) : Option Name :=
  match p.components.getLast? with
  | some (.name n) => some n
  | _ => none

/-- A name cut at its last dot. A dot that begins the name does not cut it. -/
def splitName (n : Name) : Name × Option Name :=
  let after := (n.reverse.takeWhile (· ≠ dot)).reverse
  match n.reverse.dropWhile (· ≠ dot) with
  | [] | [_] => (n, none)
  | _ :: before => (before.reverse, some after)

def stem? (p : Path) : Option Name := p.fileName?.map fun n => (splitName n).1

def extension? (p : Path) : Option Name := p.fileName?.bind fun n => (splitName n).2

/-- The components of a path behind those of another, if it begins with them. -/
def stripPrefix? (p root : Path) : Option (List Component) :=
  if root.components.isPrefixOf p.components then
    some (p.components.drop root.components.length)
  else none

/-- The path as it reads from everywhere when it is meant from a directory. Inner
dots and repeated slashes go; two slashes that begin it and one that ends it stay. -/
def absolute (cwd p : Path) : Except IoError Path :=
  if p.isEmpty then .error .emptyPath
  else
    let start : Path × List Component :=
      if p.isAbsolute then
        if p.bytes.take 2 = [slash, slash] ∧ p.bytes[2]? ≠ some slash then
          (⟨[slash, slash]⟩, p.components.drop 1)
        else (⟨[]⟩, p.components)
      else (cwd, p.components.filter (· ≠ .here))
    let whole := start.1.extend start.2
    .ok (if p.bytes.getLast? = some slash then whole.join ⟨[]⟩ else whole)

end Path

end MemberIndex
