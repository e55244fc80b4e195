import MemberIndex.Members.Basic
import MemberIndex.Members.Declaration
import MemberIndex.Members.QualifiedName
import MemberIndex.Text.Lines

/-! # Listings

The members that a disassembler's listing shows, line by line.
-/

namespace MemberIndex.Members

def namesIn (line : String) : List String :=
  (QualifiedName.findAll line.toList).map String.ofList

def ofLine (line : String) : Members where
  methods := ((Declaration.method? line.toList).map String.ofList).toList
  fields := ((Declaration.field? line.toList).map String.ofList).toList
  dependencies := Std.ExtTreeSet.ofList (namesIn line)

def scanLine (m : Members) (line : String) : Members :=
  m ++ ofLine line

def ofLines (ls : List String) : Members :=
  ls.foldl scanLine ∅

def ofText (s : String) : Members :=
  ofLines (Text.lines s)

end MemberIndex.Members
