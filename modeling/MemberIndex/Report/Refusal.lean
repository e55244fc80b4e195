import MemberIndex.Report.Write

/-! # Refusals

A system may refuse any step of the writing of a report, or break it off, on grounds that a file
tree does not show: permissions, owners, a lack of room. Whatever it refuses, the writing comes to
one of five ends.
-/

namespace MemberIndex.Report

open FileTree

/-- What becomes of a report's draft. -/
inductive Fate
  | unwritten
  | broken
  | moved
  | dropped
  | left
deriving DecidableEq

/-- How the writing of a report ends that goes on from a tree in which its directories were made.
The draft is not opened; or only a part of it is written; or the whole draft is moved, or cannot
be moved and is removed, or can be neither moved nor removed. -/
inductive Ends (p : Path) (r : Records) (t : FileTree) :
    Fate → Except RunError Unit → FileTree → Prop
  | unwritten (e : IoError) : Ends p r t .unwritten (.error ⟨.report, p, e⟩) t
  | broken {t' : FileTree} (n : Nat) (e : IoError)
    (hn : n < (Text.Utf8.encode (fileText r)).length)
    (hwrite : (writeFile (draftPath p) ((Text.Utf8.encode (fileText r)).take n)).run.run t =
      (.ok (), t')) : Ends p r t .broken (.error ⟨.report, p, e⟩) t'
  | moved {t₁ t' : FileTree}
    (hwrite : (writeFile (draftPath p) (Text.Utf8.encode (fileText r))).run.run t = (.ok (), t₁))
    (hmove : (move (draftPath p) p).run.run t₁ = (.ok (), t')) : Ends p r t .moved (.ok ()) t'
  | dropped {t₁ t' : FileTree} (e : IoError)
    (hwrite : (writeFile (draftPath p) (Text.Utf8.encode (fileText r))).run.run t = (.ok (), t₁))
    (hremove : (remove (draftPath p)).run.run t₁ = (.ok (), t')) :
    Ends p r t .dropped (.error ⟨.report, p, e⟩) t'
  | left {t' : FileTree} (e : IoError)
    (hwrite : (writeFile (draftPath p) (Text.Utf8.encode (fileText r))).run.run t = (.ok (), t')) :
    Ends p r t .left (.error ⟨.report, p, e⟩) t'

end MemberIndex.Report
