import MemberIndex.Text.Blank

/-! # Declarations

A member is declared where a name stands behind a blank, a type word and blanks:
a field when a semicolon ends the name, a method when a parenthesised list and
perhaps a throws clause stand between the name and the semicolon. The first
place of a line that declares one names it.
-/

namespace MemberIndex.Declaration

open Text (isBlank)

def isWordChar (c : Char) : Bool :=
  ('a' ≤ c && c ≤ 'z') || ('A' ≤ c && c ≤ 'Z') || ('0' ≤ c && c ≤ '9') || c == '_'

def isTypeChar (c : Char) : Bool :=
  isWordChar c || c == '$' || c == '.' || c == '<' || c == '>' || c == '[' || c == ']'

def isThrowsChar (c : Char) : Bool :=
  isWordChar c || c == '$' || c == '.' || c == ',' || isBlank c

/-- The name declared by what stands before a place, read backwards from it: the
name, blanks, a type word and one more blank. -/
def nameBefore? (before : List Char) : Option (List Char) :=
  let name := before.takeWhile isWordChar
  let gap := before.dropWhile isWordChar
  let typed := gap.dropWhile isBlank
  let rest := typed.dropWhile isTypeChar
  if name ≠ [] ∧ (gap.head?.any isBlank) ∧ (typed.head?.any isTypeChar) ∧
      (rest.head?.any isBlank) then some name.reverse
  else none

def endsDeclaration (after : List Char) : Bool :=
  let clause := after.dropWhile isBlank
  after.head? == some ';' ||
    (after.head?.any isBlank && "throws".toList.isPrefixOf clause &&
      let names := clause.drop 6
      names.head?.any isBlank && decide (2 ≤ (names.takeWhile isThrowsChar).length) &&
        (names.dropWhile isThrowsChar).head? == some ';')

/-- A parameter list is closed, before any line feed, where a declaration ends. -/
def closesParameters : List Char → Bool
  | [] => false
  | c :: cs => (c == ')' && endsDeclaration cs) || (c != '\n' && closesParameters cs)

/-- The first name declared before a place where `stop` stands and `tail` holds of
what follows; `before` is what was passed, backwards. -/
def firstName? (stop : Char) (tail : List Char → Bool) :
    List Char → List Char → Option (List Char)
  | _, [] => none
  | before, c :: cs =>
    if c = stop ∧ (nameBefore? before).isSome ∧ tail cs then nameBefore? before
    else firstName? stop tail (c :: before) cs

def method? (line : List Char) : Option (List Char) :=
  firstName? '(' closesParameters [] line

def field? (line : List Char) : Option (List Char) :=
  firstName? ';' (fun _ => true) [] line

end MemberIndex.Declaration
