import Mathlib.Data.List.DropRight
import MemberIndex.Members.Patterns
import MemberIndex.Proofs.Members.LongestNames
import MemberIndex.Proofs.Text.Pattern

/-! # The pattern of a qualified name

The names that are read off a text from left to right are what the pattern of a qualified name
finds in it: of all the readings of a name the longest one is tried first, and no name is found
inside an identifier that no dot and identifier follow.
-/

namespace MemberIndex.QualifiedName

open Text (Pattern Reading)

variable {c : Char} {cs w : List Char} {g : Option (List Char)}

theorem furtherIdentifier_cases (cs : List Char) :
    furtherIdentifier.readings cs = [] ∧ tail cs = ([], cs) ∨
      ∃ x, (furtherIdentifier.readings cs).head? = some x ∧ x.word ≠ [] ∧ x.kept = none ∧
        x.rest.length < cs.length ∧ tail cs = (x.word ++ (tail x.rest).1, (tail x.rest).2) := by
  fun_cases tail cs with
  | case1 c cs hc name more =>
    right
    have hdot : ((Pattern.just '.').readings ('.' :: c :: cs)).head? =
        some ⟨['.'], c :: cs, none⟩ := rfl
    have hstart : ((Pattern.one isNameStart).readings (c :: cs)).head? =
        some ⟨[c], cs, none⟩ := by
      rw [Pattern.readings_one_of_pos hc]
      rfl
    have hname := Pattern.head?_readings_seq hdot
      (Pattern.head?_readings_seq hstart (Pattern.head?_readings_many_one (p := isNameChar) cs))
    have hlt : (cs.dropWhile isNameChar).length < ('.' :: c :: cs).length := by
      have := (List.dropWhile_sublist isNameChar (l := cs)).length_le
      simp only [List.length_cons]
      omega
    exact ⟨_, hname, List.cons_ne_nil _ _, rfl, hlt, rfl⟩
  | case2 c cs hc =>
    left
    refine ⟨?_, rfl⟩
    simp [furtherIdentifier, Pattern.just, Pattern.readings, hc]
  | case3 cs hcs =>
    left
    refine ⟨?_, rfl⟩
    cases cs with
    | nil => rfl
    | cons d ds =>
      by_cases hd : d = '.'
      · subst hd
        cases ds with
        | nil => rfl
        | cons c ds => exact absurd rfl (hcs c ds)
      · simp [furtherIdentifier, Pattern.just, Pattern.readings, hd]

/-- Of all the ways to go on with a name the whole dotted tail is tried first. -/
theorem head?_readings_many_furtherIdentifier (cs : List Char) :
    ((Pattern.many furtherIdentifier).readings cs).head? =
      some ⟨(tail cs).1, (tail cs).2, none⟩ := by
  induction hn : cs.length using Nat.strongRecOn generalizing cs with
  | _ n ih =>
    subst hn
    rcases furtherIdentifier_cases cs with ⟨hnil, htail⟩ | ⟨x, hx, -, hkept, hlt, htail⟩
    · rw [Pattern.readings_many_of_nil hnil, htail]
      rfl
    · rw [Pattern.head?_readings_many hx hlt (ih _ hlt x.rest rfl), htail, Reading.andThen, hkept]
      rfl

theorem head?_readings_oneOrMore_furtherIdentifier (cs : List Char) :
    ((Pattern.oneOrMore furtherIdentifier).readings cs).head? =
      if (tail cs).1 = [] then none else some ⟨(tail cs).1, (tail cs).2, none⟩ := by
  rcases furtherIdentifier_cases cs with ⟨hnil, htail⟩ | ⟨x, hx, hne, hkept, -, htail⟩
  · rw [Pattern.oneOrMore, Pattern.readings_seq_of_nil hnil, htail]
    rfl
  · have hword : (tail cs).1 ≠ [] := by
      rw [htail]
      exact List.append_ne_nil_of_left_ne_nil hne _
    have hmore := head?_readings_many_furtherIdentifier x.rest
    rw [Pattern.oneOrMore, Pattern.head?_readings_seq hx hmore, if_neg hword, htail,
      Reading.andThen, hkept]
    rfl

theorem readings_oneOrMore_furtherIdentifier_cons (hc : isNameChar c = true) (cs : List Char) :
    (Pattern.oneOrMore furtherIdentifier).readings (c :: cs) = [] := by
  have hdot : c ≠ '.' := by
    rintro rfl
    exact absurd hc (by decide)
  simp [Pattern.oneOrMore, furtherIdentifier, Pattern.just, Pattern.readings, hdot]

theorem readings_pattern_of_not (hc : ¬ isNameStart c = true) (cs : List Char) :
    pattern.readings (c :: cs) = [] :=
  Pattern.readings_seq_of_nil (Pattern.readings_one_of_neg hc cs)

theorem head?_readings_pattern (hc : isNameStart c = true) (cs : List Char) :
    (pattern.readings (c :: cs)).head? =
      if (tail (cs.dropWhile isNameChar)).1 = [] then none
      else some ⟨c :: cs.takeWhile isNameChar ++ (tail (cs.dropWhile isNameChar)).1,
        (tail (cs.dropWhile isNameChar)).2, none⟩ := by
  rw [pattern, Pattern.readings, Pattern.readings_one_of_pos hc, List.flatMap_singleton,
    Pattern.readings_seq_many_one fun d ds hd => readings_oneOrMore_furtherIdentifier_cons hd ds,
    List.head?_map, List.head?_map, head?_readings_oneOrMore_furtherIdentifier]
  split
  · rfl
  · rfl

theorem find?_pattern_append (hw : ∀ d ∈ w, isNameChar d = true)
    (hcs : cs.dropWhile isNameChar = cs) (hnil : (tail cs).1 = []) :
    pattern.find? (w ++ cs) = pattern.find? cs := by
  induction w with
  | nil => rfl
  | cons d w ih =>
    have hw' : ∀ e ∈ w, isNameChar e = true := fun e he => hw e (List.mem_cons_of_mem _ he)
    have hhead : (pattern.readings (d :: (w ++ cs))).head? = none := by
      by_cases hd : isNameStart d = true
      · rw [head?_readings_pattern hd, List.dropWhile_append_of_pos hw', hcs, if_pos hnil]
      · rw [readings_pattern_of_not hd]
        rfl
    rw [List.cons_append, Pattern.find?_cons, hhead, ih hw', Option.none_or]

theorem ne_nil_of_reads_pattern (h : pattern.Reads w g) : w ≠ [] := by
  obtain ⟨u, v, k, l, hu, -, rfl, -⟩ := Pattern.reads_seq_iff.1 h
  obtain ⟨c, -, rfl, -⟩ := Pattern.reads_one_iff.1 hu
  exact List.cons_ne_nil _ _

/-- The names of a text are what the pattern finds in it. -/
theorem findAll_pattern (cs : List Char) : pattern.findAll cs = findAll cs := by
  have hstep := Pattern.findAll_eq fun _ _ => ne_nil_of_reads_pattern
  fun_induction findAll cs with
  | case1 =>
    rw [hstep]
    rfl
  | case2 c cs hc more hnil ih =>
    have hmore : more.2 = cs.dropWhile isNameChar := by
      have hsplit := tail_fst_append_snd (cs.dropWhile isNameChar)
      rwa [show (tail (cs.dropWhile isNameChar)).1 = [] from hnil, List.nil_append] at hsplit
    have hfind : pattern.find? (c :: cs) = pattern.find? more.2 := by
      have hrun : ∀ d ∈ cs.takeWhile isNameChar, isNameChar d = true :=
        fun _ => List.mem_takeWhile_imp
      have hpass := find?_pattern_append hrun (List.dropWhile_idempotent isNameChar cs) hnil
      rw [List.takeWhile_append_dropWhile] at hpass
      rw [Pattern.find?_cons, head?_readings_pattern hc, if_pos hnil, Option.none_or, hpass, hmore]
    rw [hstep, hfind, ← hstep, ih]
  | case3 c cs hc name more hne ih =>
    have hfind : pattern.find? (c :: cs) = some ⟨name ++ more.1, more.2, none⟩ := by
      rw [Pattern.find?_cons, head?_readings_pattern hc]
      exact congrArg (Option.or · _) (if_neg hne)
    rw [hstep, hfind, ← ih]
    rfl
  | case4 c cs hc ih =>
    rw [hstep, Pattern.find?_cons, readings_pattern_of_not hc, ← ih, hstep]
    rfl

end MemberIndex.QualifiedName

namespace MemberIndex.Members

theorem namesIn_eq (line : String) :
    namesIn line = (QualifiedName.pattern.findAll line.toList).map String.ofList := by
  rw [QualifiedName.findAll_pattern, namesIn]

end MemberIndex.Members
