import MemberIndex.Text.Utf8

/-! # Lines

Cutting a sequence at a mark, of characters and of bytes alike. The lines of a
text lose a carriage return only before the line feed that ends them; a raw line
read from a pipe loses it also where the output ends.
-/

namespace MemberIndex.Text

variable {α : Type} [DecidableEq α]

/-- The pieces of a sequence that each end with the mark; the last may lack it. -/
def chunks (mark : α) : List α → List (List α)
  | [] => []
  | a :: as =>
    if a = mark then [a] :: chunks mark as
    else match chunks mark as with
      | [] => [[a]]
      | piece :: rest => (a :: piece) :: rest

def fields (mark : α) : List α → List (List α)
  | [] => [[]]
  | a :: as =>
    if a = mark then [] :: fields mark as
    else match fields mark as with
      | [] => [[a]]
      | piece :: rest => (a :: piece) :: rest

def dropEnd (mark : α) (as : List α) : List α :=
  if as.getLast? = some mark then as.dropLast else as

theorem flatten_chunks (mark : α) (as : List α) : (chunks mark as).flatten = as := by
  induction as with
  | nil => rfl
  | cons a as ih =>
    rw [chunks]
    split
    · simp [ih]
    · split <;> simp_all

theorem length_fields (mark : α) (as : List α) :
    (fields mark as).length = as.count mark + 1 := by
  induction as with
  | nil => rfl
  | cons a as ih =>
    rw [fields]
    split
    · simp_all
    · rename_i h
      split <;> simp_all

def unterminated (piece : List Char) : List Char :=
  if piece.getLast? = some '\n' then dropEnd '\r' piece.dropLast else piece

def lines (s : String) : List String :=
  (chunks '\n' s.toList).map fun piece => String.ofList (unterminated piece)

/-- The text of one raw line: its line feed and one carriage return dropped, the
rest decoded leniently. -/
def decodeLine (raw : List UInt8) : String :=
  Utf8.decode (dropEnd 13 (dropEnd 10 raw))

/-- The lines a reader takes from a pipe that carries these bytes and is closed. -/
def pipeLines (bytes : List UInt8) : List String :=
  (chunks 10 bytes).map decodeLine

/-- The lines a reader takes from a pipe that stays open behind these bytes: what no
line feed ends is still waited for. -/
def openPipeLines (bytes : List UInt8) : List String :=
  ((chunks 10 bytes).filter (·.getLast? = some 10)).map decodeLine

end MemberIndex.Text
