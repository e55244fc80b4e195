import MemberIndex.Members.Listing
import MemberIndex.Proofs.Disassembler.Hearing
import MemberIndex.Proofs.Text.Lines

/-! # Carriage returns at the end of a line

No name and no declaration reaches to a carriage return that ends a line, so a line shows
the same members with it and without it.
-/

namespace MemberIndex

section Append

variable {α : Type} {p : α → Bool} {d : α}

theorem takeWhile_append_of_end (hd : p d = false) (as bs : List α) :
    (as ++ d :: bs).takeWhile p = as.takeWhile p := by
  induction as with
  | nil => simp [hd]
  | cons a as ih =>
    cases ha : p a <;> simp [ha, ih]

theorem dropWhile_append_of_end (hd : p d = false) (as bs : List α) :
    (as ++ d :: bs).dropWhile p = as.dropWhile p ++ d :: bs := by
  induction as with
  | nil => simp [hd]
  | cons a as ih =>
    cases ha : p a <;> simp [ha, ih]

theorem isPrefixOf_append_of_notMem [DecidableEq α] {w : List α} (hd : d ∉ w) (as : List α) :
    w.isPrefixOf (as ++ [d]) = w.isPrefixOf as := by
  induction w generalizing as with
  | nil => simp
  | cons a w ih =>
    obtain ⟨ha, hw⟩ := not_or.1 (mt List.mem_cons.2 hd)
    cases as with
    | nil => simp [List.isPrefixOf, Ne.symm ha]
    | cons b as => simp [List.isPrefixOf, ih hw]

end Append

namespace QualifiedName

variable {d : Char}

theorem isNameStart_of_not_isNameChar (hd : isNameChar d = false) : isNameStart d = false := by
  unfold isNameChar at hd
  exact (Bool.or_eq_false_iff.1 hd).1

theorem tail_append (hd : isNameChar d = false) (hdot : d ≠ '.') (cs ds : List Char) :
    tail (cs ++ d :: ds) = ((tail cs).1, (tail cs).2 ++ d :: ds) := by
  have hstart := isNameStart_of_not_isNameChar hd
  fun_induction tail cs with
  | case1 c cs hc name more ih =>
    rw [List.cons_append, List.cons_append, tail, if_pos hc, takeWhile_append_of_end hd,
      dropWhile_append_of_end hd, ih]
  | case2 c cs hc =>
    rw [List.cons_append, List.cons_append, tail, if_neg hc]
  | case3 cs hcs =>
    by_cases hone : cs = ['.']
    · subst hone
      rw [List.cons_append, List.nil_append, tail, if_neg (by simp [hstart])]
    · rw [tail.eq_2]
      intro c as h
      cases cs with
      | nil => exact hdot (List.cons.inj h).1
      | cons b bs =>
        cases bs with
        | nil => cases h; exact hone rfl
        | cons b' bs => cases h; exact hcs _ _ rfl

/-- A character that no name contains parts the names before it from those behind it. -/
theorem findAll_append (hd : isNameChar d = false) (hdot : d ≠ '.') (cs ds : List Char) :
    findAll (cs ++ d :: ds) = findAll cs ++ findAll ds := by
  have hstart := isNameStart_of_not_isNameChar hd
  fun_induction findAll cs with
  | case1 => simp [findAll, hstart]
  | case2 c cs hc more hnil ih =>
    have htail := tail_append hd hdot (cs.dropWhile isNameChar) ds
    rw [List.cons_append, findAll, if_pos hc, takeWhile_append_of_end hd,
      dropWhile_append_of_end hd, htail]
    exact (if_pos hnil).trans ih
  | case3 c cs hc name more hne ih =>
    have htail := tail_append hd hdot (cs.dropWhile isNameChar) ds
    rw [List.cons_append, findAll, if_pos hc, takeWhile_append_of_end hd,
      dropWhile_append_of_end hd, htail]
    exact (if_neg hne).trans (congrArg _ ih)
  | case4 c cs hc ih =>
    rw [List.cons_append, findAll, if_neg hc, ih]

end QualifiedName

namespace Declaration

open Text (isBlank)

theorem head?_append_of_ne_nil {as : List Char} (h : as ≠ []) (d : Char) :
    (as ++ [d]).head? = as.head? := by
  cases as with
  | nil => exact absurd rfl h
  | cons a as => rfl

def endsClause (names : List Char) : Bool :=
  names.head?.any isBlank && decide (2 ≤ (names.takeWhile isThrowsChar).length) &&
    (names.dropWhile isThrowsChar).head? == some ';'

theorem endsClause_append_return (names : List Char) :
    endsClause (names ++ ['\r']) = endsClause names := by
  by_cases hnil : names = []
  · subst hnil
    rfl
  · unfold endsClause
    rw [head?_append_of_ne_nil hnil, List.takeWhile_append, List.dropWhile_append]
    by_cases hall : names.dropWhile isThrowsChar = []
    · simp [hall, show isThrowsChar '\r' = true by decide]
    · have hlen : (names.takeWhile isThrowsChar).length ≠ names.length := by
        intro h
        have := List.takeWhile_append_dropWhile (p := isThrowsChar) (l := names)
        have := congrArg List.length this
        rw [List.length_append, h] at this
        exact hall (List.length_eq_zero_iff.1 (by omega))
      rw [if_neg hlen, if_neg (by simpa using hall), head?_append_of_ne_nil hall]

theorem endsDeclaration_append_return (after : List Char) :
    endsDeclaration (after ++ ['\r']) = endsDeclaration after := by
  by_cases hnil : after = []
  · subst hnil
    decide
  · change (_ || (_ && _ && endsClause _)) = (_ || (_ && _ && endsClause _))
    rw [head?_append_of_ne_nil hnil, List.dropWhile_append]
    by_cases hclause : after.dropWhile isBlank = []
    · rw [hclause]
      rfl
    · rw [if_neg (by simpa using hclause), isPrefixOf_append_of_notMem (by decide)]
      cases hword : "throws".toList.isPrefixOf (after.dropWhile isBlank) with
      | false => simp only [Bool.and_false, Bool.false_and]
      | true =>
        have hlen : 6 ≤ (after.dropWhile isBlank).length :=
          (List.isPrefixOf_iff_prefix.1 hword).length_le
        rw [List.drop_append_of_le_length hlen, endsClause_append_return]

theorem closesParameters_append_return (cs : List Char) :
    closesParameters (cs ++ ['\r']) = closesParameters cs := by
  induction cs with
  | nil => rfl
  | cons c cs ih =>
    rw [List.cons_append, closesParameters, closesParameters, ih, endsDeclaration_append_return]

theorem firstName?_append_return {stop : Char} {tail : List Char → Bool} (hstop : '\r' ≠ stop)
    (htail : ∀ cs, tail (cs ++ ['\r']) = tail cs) (before cs : List Char) :
    firstName? stop tail before (cs ++ ['\r']) = firstName? stop tail before cs := by
  induction cs generalizing before with
  | nil => simp [firstName?, hstop]
  | cons c cs ih => rw [List.cons_append, firstName?, firstName?, htail, ih]

end Declaration

namespace Members

theorem ofLine_of_return {l k : String} (h : k.toList = l.toList ++ ['\r']) :
    ofLine k = ofLine l := by
  have hmethod : Declaration.method? k.toList = Declaration.method? l.toList := by
    rw [h]
    exact Declaration.firstName?_append_return (by decide)
      Declaration.closesParameters_append_return [] l.toList
  have hfield : Declaration.field? k.toList = Declaration.field? l.toList := by
    rw [h]
    exact Declaration.firstName?_append_return (by decide) (fun _ => rfl) [] l.toList
  have hnames : namesIn k = namesIn l := by
    rw [namesIn, h, QualifiedName.findAll_append (by decide) (by decide), QualifiedName.findAll,
      List.append_nil]
    rfl
  rw [ofLine, hmethod, hfield, hnames]
  rfl

/-- The lines that are read from a closed pipe show what the decoded output shows. -/
theorem ofLines_pipeLines (bytes : List UInt8) :
    ofLines (Text.pipeLines bytes) = ofText (Text.Utf8.decode bytes) := by
  rcases Text.pipeLines_cases bytes with ⟨-, heq⟩ | ⟨-, before, last, hpipe, hlines⟩
  · rw [ofText, heq]
  · have hlast : ofLine (last ++ "\r") = ofLine last := ofLine_of_return (String.toList_append ..)
    rw [ofText, hpipe, hlines, ofLines, ofLines, List.foldl_append, List.foldl_append,
      List.foldl_cons, List.foldl_cons, scanLine, scanLine, hlast]

/-- A task that reads a tool's output from a pipe takes the lines of the decoded output, but
for a carriage return at its very end, and records what the decoded output shows. -/
theorem extract_pipeLines (bytes : List UInt8) (b : Block) :
    ((bytes.getLast? ≠ some 13 ∧
        Text.lines (Text.Utf8.decode bytes) = Text.pipeLines bytes) ∨
      bytes.getLast? = some 13 ∧ ∃ before last, Text.pipeLines bytes = before ++ [last] ∧
        Text.lines (Text.Utf8.decode bytes) = before ++ [last ++ "\r"]) ∧
    extract ∅ b ((Text.pipeLines bytes).map .ok) =
      ⟨.ok (ofText (Text.Utf8.decode bytes)), ⟨b.lines ++ Text.pipeLines bytes⟩, []⟩ := by
  constructor
  · exact Text.pipeLines_cases bytes
  · have hread := extract_ok ∅ b (Text.pipeLines bytes) []
    rw [List.append_nil, extract] at hread
    rw [hread, ← ofLines_pipeLines]
    rfl

end Members

end MemberIndex
