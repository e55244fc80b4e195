import MemberIndex.Members.Basic
import Std.Data.ExtTreeMap

/-! # Records

The index itself: the members recorded under each identity, in the order of the
identities. A later record replaces an earlier one, which is handed back.
-/

namespace MemberIndex

abbrev Records := Std.ExtTreeMap String Members

namespace Records

def empty : Records := ∅

/-- The record that `put` replaces, and the records afterwards. -/
def put (r : Records) (identity : String) (m : Members) : Option Members × Records :=
  (r[identity]?, r.insert identity m)

theorem getElem?_put (r : Records) (i : String) (m : Members) (j : String) :
    (r.put i m).2[j]? = if i = j then some m else r[j]? := by
  simp [put, Std.ExtTreeMap.getElem?_insert]

end Records

end MemberIndex
