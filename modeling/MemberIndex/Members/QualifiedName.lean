import MemberIndex.Text.Lines

/-! # Qualified names

A qualified name is two or more identifiers joined by single dots. The names of
a text are found from left to right, each as long as it can be.
-/

namespace MemberIndex.QualifiedName

def isNameStart (c : Char) : Bool :=
  ('a' ≤ c && c ≤ 'z') || ('A' ≤ c && c ≤ 'Z') || c == '_' || c == '$'

def isNameChar (c : Char) : Bool :=
  isNameStart c || ('0' ≤ c && c ≤ '9')

/-- The dotted tail that stands at the beginning of a text: as many further
identifiers as follow, each behind its dot, and what is left. -/
def tail : List Char → List Char × List Char
  | '.' :: c :: cs =>
    if isNameStart c then
      let name := cs.takeWhile isNameChar
      let more := tail (cs.dropWhile isNameChar)
      ('.' :: c :: name ++ more.1, more.2)
    else ([], '.' :: c :: cs)
  | cs => ([], cs)
termination_by cs => cs.length
decreasing_by
  have := (List.dropWhile_sublist isNameChar (l := cs)).length_le
  simp only [List.length_cons]
  omega

theorem length_tail_le (cs : List Char) : (tail cs).2.length ≤ cs.length := by
  fun_induction tail cs with
  | case1 c cs _ _ more ih =>
    have := (List.dropWhile_sublist isNameChar (l := cs)).length_le
    change (tail (cs.dropWhile isNameChar)).2.length ≤ _
    simp only [List.length_cons]
    omega
  | case2 => simp
  | case3 => simp

def findAll : List Char → List (List Char)
  | [] => []
  | c :: cs =>
    if isNameStart c then
      let name := c :: cs.takeWhile isNameChar
      let more := tail (cs.dropWhile isNameChar)
      if more.1 = [] then findAll more.2
      else (name ++ more.1) :: findAll more.2
    else findAll cs
termination_by cs => cs.length
decreasing_by
  all_goals
    have := (List.dropWhile_sublist isNameChar (l := cs)).length_le
    have := length_tail_le (cs.dropWhile isNameChar)
    simp only [List.length_cons]
    omega

def IsIdentifier (w : List Char) : Prop :=
  ∃ c cs, w = c :: cs ∧ isNameStart c = true ∧ ∀ d ∈ cs, isNameChar d = true

/-- A qualified name: an identifier, then one or more identifiers behind dots. -/
inductive IsQualified : List Char → Prop
  | two {u v : List Char} (hu : IsIdentifier u) (hv : IsIdentifier v) :
    IsQualified (u ++ '.' :: v)
  | cons {u w : List Char} (hu : IsIdentifier u) (hw : IsQualified w) :
    IsQualified (u ++ '.' :: w)

end MemberIndex.QualifiedName
