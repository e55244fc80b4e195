/-! # Patterns

Patterns over characters, read as a search reads them: of two alternatives the first one is
tried before the second, a repetition is taken once more before it is left, and a pattern is
found at the first place of a text where it can be read at all.
-/

namespace MemberIndex.Text

inductive Pattern where
  /-- One character of a class. -/
  | one (p : Char → Bool)
  | empty
  | seq (r s : Pattern)
  | alt (r s : Pattern)
  | many (r : Pattern)
  /-- What is read inside is kept. -/
  | group (r : Pattern)

/-- What a pattern reads where a text begins, what it leaves of the text, and what its group
kept when it was last passed. -/
structure Reading where
  word : List Char
  rest : List Char
  kept : Option (List Char)

namespace Reading

def andThen (x y : Reading) : Reading :=
  ⟨x.word ++ y.word, y.rest, y.kept.or x.kept⟩

theorem andThen_assoc (x y z : Reading) : (x.andThen y).andThen z = x.andThen (y.andThen z) := by
  simp only [andThen, List.append_assoc, Option.or_assoc]

end Reading

namespace Pattern

/-- The readings of a repetition, given those of what is repeated. Nothing is repeated that
reads nothing. -/
def repeated (f : List Char → List Reading) (cs : List Char) : List Reading :=
  ((f cs).flatMap fun x =>
    if x.rest.length < cs.length then (repeated f x.rest).map x.andThen else []) ++
    [⟨[], cs, none⟩]
termination_by cs.length

/-- The ways in which a pattern reads the beginning of a text, in the order in which they are
tried. -/
def readings : Pattern → List Char → List Reading
  | one _, [] => []
  | one p, c :: cs => if p c then [⟨[c], cs, none⟩] else []
  | empty, cs => [⟨[], cs, none⟩]
  | seq r s, cs => (r.readings cs).flatMap fun x => (s.readings x.rest).map x.andThen
  | alt r s, cs => r.readings cs ++ s.readings cs
  | many r, cs => repeated r.readings cs
  | group r, cs => (r.readings cs).map fun x => { x with kept := some x.word }

/-- The reading that is tried first at the first place where there is one. -/
def find? (r : Pattern) : List Char → Option Reading
  | [] => (r.readings []).head?
  | c :: cs => (r.readings (c :: cs)).head?.or (r.find? cs)

/-- What the group keeps where the pattern is found. -/
def kept? (r : Pattern) (cs : List Char) : Option (List Char) :=
  (r.find? cs).bind (·.kept)

def findAll (r : Pattern) (cs : List Char) : List (List Char) :=
  match r.find? cs with
  | none => []
  | some x => if x.rest.length < cs.length then x.word :: r.findAll x.rest else [x.word]
termination_by cs.length

def just (c : Char) : Pattern :=
  one (· == c)

def never : Pattern :=
  one fun _ => false

def text (cs : List Char) : Pattern :=
  cs.foldr (fun c r => seq (just c) r) empty

def anyOf (words : List String) : Pattern :=
  words.foldr (fun w r => alt (text w.toList) r) never

def oneOrMore (r : Pattern) : Pattern :=
  seq r (many r)

def optional (r : Pattern) : Pattern :=
  alt r empty

def hasGroup : Pattern → Bool
  | one _ | empty => false
  | seq r s | alt r s => r.hasGroup || s.hasGroup
  | many r => r.hasGroup
  | group _ => true

end Pattern

end MemberIndex.Text
