import MemberIndex.Failure
import MemberIndex.FileTree.Resolve

/-! # Discovery

The artifacts below a root: the files, and the links that lead to files, whose last
name has the wanted extension. Directories are entered, links to them are not; a
directory whose path is too long to be read is counted and passed over.
-/

namespace MemberIndex

namespace Path

/-- What orders paths: their components, names by their bytes. -/
def sortKey (p : Path) : List (List Nat) :=
  p.components.map fun
    | .root => [0]
    | .here => [1]
    | .up => [2]
    | .name n => 3 :: n.map UInt8.toNat

/-- Whether a path comes before another, or is spelled from the same components. -/
def precedes (p q : Path) : Bool := (compare p.sortKey q.sortKey).isLE

end Path

inductive Encounter
  | entry (path : Path) (e : Entry)
  | unreadable (path : Path) (error : IoError)
deriving DecidableEq

structure Discovery where
  artifacts : List Path
  skipped : List (Path × IoError)

namespace Discovery

/-- Everything that a walk comes upon below a directory. -/
def walk (directory : Path) : Forest Entry → List Encounter
  | .nil => []
  | .cons name entry below siblings =>
    let p := directory.join ⟨name⟩
    let met := match entry with
      | none => []
      | some .directory =>
        .entry p .directory ::
          if p.bytes.length < FileTree.pathLimit then walk p below
          else [.unreadable p (.os .nameTooLong)]
      | some e => [.entry p e]
    met ++ walk directory siblings

/-- A root spelled as one dash stands for the input stream, which holds no entries. -/
def isStream (root : Path) : Bool := root.components = [.name [45]]

def isArtifact (t : FileTree) (extension : String) (p : Path) : Entry → Bool
  | .file _ => p.extension? = some (Text.Utf8.encode extension)
  | .link _ => p.extension? = some (Text.Utf8.encode extension) && t.isFile p
  | _ => false

def ofEncounters (t : FileTree) (extension : String) (met : List Encounter) : Discovery where
  artifacts := (met.filterMap fun
    | .entry p e => if isArtifact t extension p e then some p else none
    | .unreadable .. => none).mergeSort Path.precedes
  skipped := met.filterMap fun
    | .entry .. => none
    | .unreadable p e => some (p, e)

end Discovery

open Discovery in
def discover (t : FileTree) (root : Path) (extension : String) :
    Except RunError Discovery :=
  match t.locate true root with
  | .error e => .error ⟨.discovery, root, e⟩
  | .ok place =>
    if !t.isDirectoryAt place then .error ⟨.discovery, root, .os .notDirectory⟩
    else .ok (ofEncounters t extension
        (if isStream root then [] else walk root (t.entries.under place)))

end MemberIndex
