import MemberIndex.Proofs.Members.Listing

/-! # Texts joined by a line feed

What a text shows is what its pieces between line feeds show, one after another: a carriage
return at the end of a piece is not seen, and an empty piece shows nothing. So it makes no
difference how the lines of a text are ended.
-/

namespace MemberIndex

namespace Members

/-! ## Members read one after another -/

theorem empty_append (m : Members) : ∅ ++ m = m := by
  apply Members.ext
  · exact List.nil_append m.methods
  · exact List.nil_append m.fields
  · apply Std.ExtTreeSet.ext_mem
    intro d
    change d ∈ ∅ ∪ m.dependencies ↔ _
    simp

theorem append_empty (m : Members) : m ++ ∅ = m := by
  apply Members.ext
  · exact List.append_nil m.methods
  · exact List.append_nil m.fields
  · apply Std.ExtTreeSet.ext_mem
    intro d
    change d ∈ m.dependencies ∪ ∅ ↔ _
    simp

theorem append_assoc (m n k : Members) : m ++ n ++ k = m ++ (n ++ k) := by
  apply Members.ext
  · exact List.append_assoc ..
  · exact List.append_assoc ..
  · apply Std.ExtTreeSet.ext_mem
    intro d
    change d ∈ (m.dependencies ∪ n.dependencies) ∪ k.dependencies ↔
      d ∈ m.dependencies ∪ (n.dependencies ∪ k.dependencies)
    simp only [Std.ExtTreeSet.mem_union_iff, or_assoc]

theorem foldl_scanLine (m : Members) (ls : List String) :
    ls.foldl scanLine m = m ++ ofLines ls := by
  induction ls generalizing m with
  | nil => exact (append_empty m).symm
  | cons l ls ih =>
    rw [ofLines, List.foldl_cons, List.foldl_cons, ih, ih, scanLine, scanLine, empty_append,
      append_assoc]

theorem ofLines_append (ls ks : List String) : ofLines (ls ++ ks) = ofLines ls ++ ofLines ks := by
  rw [ofLines, List.foldl_append, foldl_scanLine, ← ofLines]

theorem ofLines_cons (l : String) (ls : List String) :
    ofLines (l :: ls) = ofLine l ++ ofLines ls := by
  rw [ofLines, List.foldl_cons, foldl_scanLine, scanLine, empty_append]

/-! ## The pieces of a text -/

theorem ofLine_empty : ofLine "" = ∅ := by
  have hnames : namesIn "" = [] := by simp [namesIn, QualifiedName.findAll]
  apply Members.ext
  · rfl
  · rfl
  · change Std.ExtTreeSet.ofList (namesIn "") = ∅
    rw [hnames, Std.ExtTreeSet.ofList_nil]

theorem ofLine_dropEnd (cs : List Char) :
    ofLine (String.ofList (Text.dropEnd '\r' cs)) = ofLine (String.ofList cs) := by
  unfold Text.dropEnd
  split
  · rename_i hlast
    obtain ⟨bs, rfl⟩ := List.getLast?_eq_some_iff.1 hlast
    rw [List.dropLast_concat]
    exact (ofLine_of_return (by simp)).symm
  · rfl

def ofPieces (pieces : List (List Char)) : Members :=
  ofLines (pieces.map String.ofList)

theorem ofPieces_append (ps qs : List (List Char)) :
    ofPieces (ps ++ qs) = ofPieces ps ++ ofPieces qs := by
  rw [ofPieces, List.map_append, ofLines_append]
  rfl

theorem ofPieces_singleton (cs : List Char) : ofPieces [cs] = ofLine (String.ofList cs) := by
  rw [ofPieces, List.map_singleton, ofLines_cons]
  exact append_empty _

theorem ofText_eq_ofPieces (s : String) : ofText s = ofPieces (Text.fields '\n' s.toList) := by
  rw [ofText, Text.lines]
  generalize s.toList = cs
  induction cs using Text.marks_induction '\n' with
  | last cs hnot =>
    rw [Text.fields_of_notMem hnot, ofPieces_singleton]
    by_cases hnil : cs = []
    · subst hnil
      exact ofLine_empty.symm
    · have hlast : cs.getLast? ≠ some '\n' := fun h => hnot (List.mem_of_getLast? h)
      rw [Text.chunks_of_notMem hnot hnil, List.map_singleton, ofLines_cons, Text.unterminated,
        if_neg hlast]
      exact append_empty _
  | next as bs has ih =>
    have hpiece : Text.unterminated (as ++ ['\n']) = Text.dropEnd '\r' as := by
      simp [Text.unterminated]
    rw [Text.chunks_append_cons has, Text.fields_append_cons, Text.fields_of_notMem has,
      ofPieces_append, ofPieces_singleton, List.map_cons, ofLines_cons, hpiece, ofLine_dropEnd, ih]

end Members

namespace Text

def putReturns (cs : List Char) : List Char :=
  cs.flatMap fun c => if c = '\n' then ['\r', '\n'] else [c]

def withReturns (s : String) : String :=
  String.ofList (putReturns s.toList)

theorem putReturns_of_notMem {cs : List Char} (h : '\n' ∉ cs) : putReturns cs = cs := by
  induction cs with
  | nil => rfl
  | cons c cs ih =>
    obtain ⟨hc, hcs⟩ := not_or.1 (mt List.mem_cons.2 h)
    have hrest := ih hcs
    rw [putReturns] at hrest
    rw [putReturns, List.flatMap_cons, if_neg (Ne.symm hc), hrest, List.singleton_append]

theorem putReturns_append_cons (as bs : List Char) :
    putReturns (as ++ '\n' :: bs) = (putReturns as ++ ['\r']) ++ '\n' :: putReturns bs := by
  simp [putReturns]

end Text

namespace Members

theorem ofPieces_putReturns (cs : List Char) :
    ofPieces (Text.fields '\n' (Text.putReturns cs)) = ofPieces (Text.fields '\n' cs) := by
  induction cs using Text.marks_induction '\n' with
  | last cs hnot => rw [Text.putReturns_of_notMem hnot]
  | next as bs has ih =>
    have hreturn : '\n' ∉ as ++ ['\r'] := by simp [has]
    have hpiece : ofLine (String.ofList (as ++ ['\r'])) = ofLine (String.ofList as) :=
      ofLine_of_return (by simp)
    rw [Text.putReturns_append_cons, Text.putReturns_of_notMem has, Text.fields_append_cons,
      Text.fields_append_cons, Text.fields_of_notMem hreturn, Text.fields_of_notMem has,
      ofPieces_append, ofPieces_append, ofPieces_singleton, ofPieces_singleton, hpiece, ih]

/-- Two texts joined by a line feed show what the first one shows and then what the second one
shows, however the first one ends; and a text shows the same whether or not its line feeds have
carriage returns before them. -/
theorem ofText_joined (a b : String) :
    ((ofText (a ++ "\n" ++ b)).methods = (ofText a).methods ++ (ofText b).methods ∧
      (ofText (a ++ "\n" ++ b)).fields = (ofText a).fields ++ (ofText b).fields ∧
      (ofText (a ++ "\n" ++ b)).dependencies = (ofText a).dependencies ∪ (ofText b).dependencies) ∧
    ∀ s, ofText (Text.withReturns s) = ofText s := by
  have hjoined : ofText (a ++ "\n" ++ b) = ofText a ++ ofText b := by
    have htext : (a ++ "\n" ++ b).toList = a.toList ++ '\n' :: b.toList := by simp
    rw [ofText_eq_ofPieces, htext, Text.fields_append_cons, ofPieces_append, ← ofText_eq_ofPieces,
      ← ofText_eq_ofPieces]
  constructor
  · rw [hjoined]
    exact ⟨rfl, rfl, rfl⟩
  · intro s
    rw [ofText_eq_ofPieces, ofText_eq_ofPieces, Text.withReturns, String.toList_ofList,
      ofPieces_putReturns]

end Members

end MemberIndex
