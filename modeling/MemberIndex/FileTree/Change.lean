import MemberIndex.FileTree.Resolve

/-! # Changing a file tree

Making directories, opening and writing files, moving and removing entries. A change
that fails keeps what it did before it failed.
-/

namespace MemberIndex

/-- A change of a file tree that may fail on the way. -/
abbrev Change (α : Type) := ExceptT IoError (StateM FileTree) α

namespace FileTree

def attempt {α : Type} : Except IoError α → Change α
  | .ok a => pure a
  | .error e => throw e

def lastStepOf (p : Path) : Change (Option LastStep) := do
  let t ← get
  attempt do
    checkPath p
    liftErrno (t.lastStep maxLinks (t.origin p) p.pieces)

def makeDirectory (p : Path) : Change Unit := do
  match ← lastStepOf p with
  | none => throw (.os .alreadyExists)
  | some s =>
    let t ← get
    if !s.isNamed then throw (.os .alreadyExists)
    else if maxName < s.name.length then throw (.os .nameTooLong)
    else if (t.entryAt? s.place).isSome then throw (.os .alreadyExists)
    else set (t.put s.place .directory)

/-- Passes over an error where a directory stands in spite of it. -/
def unlessDirectory (p : Path) (e : IoError) : Change Unit := do
  if (← get).isDirectory p then pure () else throw e

/-- Makes the first of these directories; those behind it, each of which holds the one
before, only when they turn out to be missing. -/
def makeFirst : List Path → Change Unit
  | [] => pure ()
  | p :: holders =>
    tryCatch (makeDirectory p) fun e =>
      if e = .os .noEntry then do
        makeFirst holders
        tryCatch (makeDirectory p) (unlessDirectory p)
      else unlessDirectory p e

def makeDirectories (p : Path) : Change Unit := makeFirst p.ancestors

def makeParents (p : Path) : Change Unit :=
  match p.parent? with
  | none => pure ()
  | some parent => makeDirectories parent

/-- The trees that come of making directories where these paths lead, any of which a system may
refuse to make. -/
inductive Made (ps : List Path) : FileTree → FileTree → Prop
  | refl (t : FileTree) : Made ps t t
  | tail {t t' : FileTree} {p : Path} (h : Made ps t t') (hp : p ∈ ps) :
    Made ps t ((makeDirectory p).run.run t').2

/-- The last step of pieces that a file is opened for writing at, and the target of the
link that stands there, if one does. -/
def aim (t : FileTree) (links : Nat) (place : Location) (pieces : List (List UInt8)) :
    Except Errno (LastStep × Option (List UInt8)) := do
  match ← t.lastStep links place pieces with
  | none => throw .isDirectory
  | some s =>
    if !s.isNamed || s.slashed then throw .isDirectory
    else if maxName < s.name.length then throw .nameTooLong
    else match t.entryAt? s.place with
      | some .directory => throw .isDirectory
      | some (.link target) => return (s, some target)
      | _ => return (s, none)

/-- The location that a file is opened for writing at, where pieces lead to; `turns`
bounds how often the last name may turn out to be a link. -/
def target (t : FileTree) : (turns links : Nat) → Location → List (List UInt8) →
    Except Errno Location
  | 0, links, place, pieces => do
    match ← t.aim links place pieces with
    | (s, none) => return s.place
    | (_, some _) => throw .tooManyLinks
  | turns + 1, links, place, pieces => do
    match ← t.aim links place pieces with
    | (s, none) => return s.place
    | (s, some target) =>
      match s.links with
      | 0 => throw .tooManyLinks
      | n + 1 =>
        t.target turns n (if target.head? = some Path.slash then [] else s.directory)
          (Text.fields Path.slash target)

def openFile (p : Path) (append : Bool) : Change Location := do
  let t ← get
  let place ← attempt do
    checkPath p
    liftErrno (t.target maxLinks maxLinks (t.origin p) p.pieces)
  match t.entryAt? place with
  | none => set (t.put place (.file {}))
  | some (.file f) =>
    if append then pure () else set (t.rewrite place { f with content := .data [] })
  | some _ => pure ()
  return place

/-- Writes bytes behind what an opened file holds. A full device takes none. -/
def writeAt (place : Location) (bytes : List UInt8) : Change Unit := do
  let t ← get
  match t.entryAt? place with
  | some (.file f) => set (t.rewrite place { f with content := f.content.append bytes })
  | some (.device .full) => if bytes = [] then pure () else throw (.os .noSpace)
  | _ => pure ()

def writeFile (p : Path) (bytes : List UInt8) : Change Unit := do
  writeAt (← openFile p false) bytes

/-- Moves an entry that is no directory over another one that is none, or to where
there is none. Of two names of one file both are kept. -/
def move (p q : Path) : Change Unit := do
  match ← lastStepOf p, ← lastStepOf q with
  | some s, some d =>
    let t ← get
    if !s.isNamed || !d.isNamed then throw (.os .busy)
    else match t.entryAt? s.place with
      | none => throw (.os .noEntry)
      | some e =>
        if maxName < d.name.length then throw (.os .nameTooLong)
        else if s.slashed || d.slashed then throw (.os .notDirectory)
        else if t.isSame s.place d.place then pure ()
        else if e = .directory || t.isDirectoryAt d.place then throw (.os .isDirectory)
        else set (t.carry s.place d.place d.place_ne_nil)
  | _, _ => throw (.os .busy)

def remove (p : Path) : Change Unit := do
  match ← lastStepOf p with
  | none => throw (.os .isDirectory)
  | some s =>
    let t ← get
    match t.entryAt? s.place with
    | none => throw (.os .noEntry)
    | some e =>
      if !s.isNamed || e = .directory then throw (.os .isDirectory)
      else if s.slashed then throw (.os .notDirectory)
      else set (t.erase s.place)

end FileTree

end MemberIndex
