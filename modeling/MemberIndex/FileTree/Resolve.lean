import MemberIndex.FileTree.Basic

/-! # Resolving paths

From a path to the location that it leads to, piece by piece, through at most forty
links.
-/

namespace MemberIndex.FileTree

open MemberIndex.Path (slash dot)

def maxLinks : Nat := 40
def maxName : Nat := 255

def pathLimit : Nat := 4096

/-- A place that a path has come to: the names that lead there, the last one first, what
stands there, and what stands below it. -/
structure Position where
  trail : List Name
  entry : Option Entry
  below : Forest Entry

def Position.step (p : Position) (n : Name) : Position :=
  let x := p.below.child n
  ⟨n :: p.trail, x.1, x.2⟩

def position (t : FileTree) (l : Location) : Position :=
  ⟨l.reverse, t.entryAt? l, t.entries.under l⟩

theorem step_position (t : FileTree) (l : Location) (n : Name) :
    (t.position l).step n = t.position (l ++ [n]) := by
  simp [position, Position.step, entryAt?, Forest.get?_append_singleton, Forest.under_append,
    Forest.under]

/-- A location that a path leads to, and how many links may still be followed. -/
structure Reached where
  place : Location
  links : Nat

/-- Where pieces lead to from a position. The last one is followed through links only
if asked for. -/
def follow (t : FileTree) (followLast : Bool) (links : Nat) (p : Position) :
    List (List UInt8) → Except Errno Reached
  | [] => .ok ⟨p.trail.reverse, links⟩
  | piece :: rest =>
    if p.entry ≠ some .directory then .error .notDirectory
    else if piece = [] ∨ piece = [dot] then t.follow followLast links p rest
    else if piece = [dot, dot] then
      t.follow followLast links (t.position p.trail.tail.reverse) rest
    else if maxName < piece.length then .error .nameTooLong
    else
      let q := p.step piece
      match q.entry, links with
      | none, _ => .error .noEntry
      | some (.link target), links =>
        if rest = [] ∧ !followLast then .ok ⟨q.trail.reverse, links⟩
        else match links with
          | 0 => .error .tooManyLinks
          | n + 1 =>
            t.follow followLast n (if target.head? = some slash then t.position [] else p)
              (Text.fields slash target ++ rest)
      | some _, links => t.follow followLast links q rest
termination_by pieces => (links, pieces.length)

def walk (t : FileTree) (followLast : Bool) (links : Nat) (place : Location)
    (pieces : List (List UInt8)) : Except Errno Reached :=
  t.follow followLast links (t.position place) pieces

theorem walk_nil (t : FileTree) (followLast : Bool) (links : Nat) (place : Location) :
    t.walk followLast links place [] = .ok ⟨place, links⟩ := by
  rw [walk, follow]
  simp [position]

theorem walk_cons (t : FileTree) (followLast : Bool) (links : Nat) (place : Location)
    (piece : List UInt8) (rest : List (List UInt8)) :
    t.walk followLast links place (piece :: rest) =
      if !t.isDirectoryAt place then .error .notDirectory
      else if piece = [] ∨ piece = [dot] then t.walk followLast links place rest
      else if piece = [dot, dot] then t.walk followLast links place.dropLast rest
      else if maxName < piece.length then .error .nameTooLong
      else match t.entryAt? (place ++ [piece]), links with
        | none, _ => .error .noEntry
        | some (.link target), links =>
          if rest = [] ∧ !followLast then .ok ⟨place ++ [piece], links⟩
          else match links with
            | 0 => .error .tooManyLinks
            | n + 1 =>
              t.walk followLast n (if target.head? = some slash then [] else place)
                (Text.fields slash target ++ rest)
        | some _, links => t.walk followLast links (place ++ [piece]) rest := by
  have hup : (t.position place).trail.tail.reverse = place.dropLast := by simp [position]
  have hplace : (t.position (place ++ [piece])).trail.reverse = place ++ [piece] := by
    simp [position]
  have hentry (l : Location) : (t.position l).entry = t.entryAt? l := rfl
  simp only [walk, isDirectoryAt, apply_ite t.position]
  rw [follow, step_position, hup]
  simp only [hplace, hentry, Bool.not_eq_true', decide_eq_false_iff_not]

def checkPath (p : Path) : Except IoError Unit :=
  if p.bytes.contains 0 then .error .nulInPath
  else if p.isEmpty then .error (.os .noEntry)
  else if pathLimit ≤ p.bytes.length then .error (.os .nameTooLong)
  else .ok ()

def origin (t : FileTree) (p : Path) : Location :=
  if p.isAbsolute then [] else t.current

def liftErrno {α : Type} : Except Errno α → Except IoError α
  | .ok a => .ok a
  | .error e => .error (.os e)

def locate (t : FileTree) (followLast : Bool) (p : Path) : Except IoError Location := do
  checkPath p
  liftErrno ((t.walk followLast maxLinks (t.origin p) p.pieces).map (·.place))

def find? (t : FileTree) (p : Path) : Option Entry :=
  match t.locate true p with
  | .ok l => t.entryAt? l
  | .error _ => none

def isDirectory (t : FileTree) (p : Path) : Bool := t.find? p = some .directory

def isFile (t : FileTree) (p : Path) : Bool :=
  match t.find? p with
  | some (.file _) => true
  | _ => false

/-- The last step of a path: the directory it is taken in, the name, and whether a
slash follows. -/
structure LastStep where
  directory : Location
  links : Nat
  name : List UInt8
  slashed : Bool

/-- The pieces before the last one that is not empty, that one, and whether more
follow it. -/
def splitLast? (pieces : List (List UInt8)) :
    Option (List (List UInt8) × List UInt8 × Bool) :=
  match pieces.reverse.dropWhile (· = []) with
  | [] => none
  | last :: before => some (before.reverse, last, before.length + 1 < pieces.length)

def lastStep (t : FileTree) (links : Nat) (place : Location) (pieces : List (List UInt8)) :
    Except Errno (Option LastStep) :=
  match splitLast? pieces with
  | none => .ok none
  | some (before, last, slashed) => do
    let r ← t.walk true links place before
    if t.isDirectoryAt r.place then return some ⟨r.place, r.links, last, slashed⟩
    else throw .notDirectory

namespace LastStep

def isNamed (s : LastStep) : Bool := s.name ≠ [dot] && s.name ≠ [dot, dot]

def place (s : LastStep) : Location := s.directory ++ [s.name]

theorem place_ne_nil (s : LastStep) : s.place ≠ [] := by simp [place]

end LastStep

end MemberIndex.FileTree
