import MemberIndex.Path.Basic

/-! # Identities

The name of an artifact in the index: its directories below the root and its stem,
joined by dots.
-/

namespace MemberIndex

open MemberIndex.Path (Component)

namespace Identity

/-- The text of a directory's component on the way to an artifact; a leading dot
says nothing, and neither a root nor a step up may stand there. -/
def segments? : List Component → Option (List String)
  | [] => some []
  | .name n :: cs => (segments? cs).map (Text.Utf8.decode n :: ·)
  | .here :: cs => segments? cs
  | _ :: _ => none

def ofComponents? (cs : List Component) : Option String :=
  match cs.getLast? with
  | some (.name n) =>
    (segments? cs.dropLast).map fun directories =>
      ".".intercalate (directories ++ [Text.Utf8.decode (Path.splitName n).1])
  | _ => none

end Identity

/-- The identity of an artifact below a root, if its path begins with the root's. -/
def identity? (root path : Path) : Option String :=
  (path.stripPrefix? root).bind Identity.ofComponents?

end MemberIndex
