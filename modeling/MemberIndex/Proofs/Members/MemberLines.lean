import MemberIndex.Proofs.Members.LastWords

/-! # Lines that declare members

A member is printed behind blanks and modifiers: a field with a type and a name, a method with
its parameters besides and perhaps with what it throws, a constructor without a type. What is
read of a method or of a constructor is its name where a type word stands before it; any word
is taken for one, a modifier too. What is read as a field is an exception that is thrown alone,
since the word that announces it is taken for a type.
-/

namespace MemberIndex.Declaration

open Text (isBlank IsRun RunOf)

/-! ## What is printed -/

def modifierWords : List String :=
  ["public", "protected", "private", "static", "final", "abstract", "default", "native",
    "synchronized", "strictfp", "transient", "volatile"]

structure Modifier where
  word : String
  isModifier : word ∈ modifierWords
  gap : RunOf isBlank

def Modifier.text (m : Modifier) : List Char := m.word.toList ++ m.gap.text

/-- The indentation of a member and its modifiers. -/
structure Opening where
  indent : RunOf isBlank
  modifiers : List Modifier

def Opening.text (o : Opening) : List Char := o.indent.text ++ o.modifiers.flatMap Modifier.text

def marks : List Char := ['(', ')', ';', ',', '<', '>', '?', '[', ']']

def isClassChar (c : Char) : Bool := !isBlank c && !marks.contains c

abbrev ClassName := RunOf isClassChar

/-- A name that a type word may hold. -/
def IsPlainName (n : ClassName) : Prop := ∀ c ∈ n.text, isTypeChar c = true

instance (n : ClassName) : Decidable (IsPlainName n) :=
  decidable_of_iff (n.text.all isTypeChar = true) List.all_eq_true

structure Parameters where
  text : List Char
  unmarked : ∀ c ∈ text, c ∉ ['(', ')', ';', '\n']

structure Listed where
  name : ClassName
  gap : List Char
  blank : ∀ c ∈ gap, isBlank c = true

def Listed.text (x : Listed) : List Char := x.name.text ++ ',' :: x.gap

/-- The exceptions that a method throws, one at least. -/
structure Thrown where
  earlier : List Listed
  last : ClassName

namespace Thrown

def names (x : Thrown) : List ClassName := x.earlier.map (·.name) ++ [x.last]

def text (x : Thrown) : List Char := x.earlier.flatMap Listed.text ++ x.last.text

def announced (x : Thrown) : List Char := ' ' :: ("throws".toList ++ ' ' :: x.text)

def clause : Option Thrown → List Char
  | none => []
  | some x => x.announced

/-- An exception that is thrown alone, if its name may be the name of a member. -/
def alone? : Option Thrown → Option (List Char)
  | some ⟨[], n⟩ => if n.text.all isWordChar then some n.text else none
  | _ => none

end Thrown

/-- What follows the name of a method. -/
structure Signature where
  parameters : Parameters
  thrown : Option Thrown

namespace Signature

def text (s : Signature) : List Char :=
  '(' :: (s.parameters.text ++ ')' :: (Thrown.clause s.thrown ++ [';']))

def IsPlain (s : Signature) : Prop := ∀ x ∈ s.thrown, ∀ n ∈ x.names, IsPlainName n

instance (s : Signature) : Decidable s.IsPlain := by
  unfold IsPlain
  infer_instance

end Signature

def methodLine (o : Opening) (type : List Char) (gap : RunOf isBlank) (name : RunOf isWordChar)
    (s : Signature) : String :=
  String.ofList (o.text ++ (type ++ gap.text) ++ name.text ++ s.text)

def fieldLine (o : Opening) (type : List Char) (gap : RunOf isBlank) (name : RunOf isWordChar) :
    String :=
  String.ofList (o.text ++ (type ++ gap.text) ++ name.text ++ [';'])

def constructorLine (o : Opening) (name : ClassName) (s : Signature) : String :=
  String.ofList (o.text ++ name.text ++ s.text)

/-! ## Its characters -/

variable {o : Opening} {before n : List Char} {c : Char}

theorem exists_concat_of_blanks (gap : RunOf isBlank) :
    ∃ front b, gap.text = front ++ [b] ∧ isBlank b = true := by
  obtain ⟨hne, hall⟩ := gap.isRun
  exact ⟨_, _, (List.dropLast_append_getLast hne).symm, hall _ (List.getLast_mem hne)⟩

theorem isRun_blank : IsRun isBlank [' '] := ⟨List.cons_ne_nil _ _, List.all_eq_true.1 rfl⟩

theorem Opening.exists_concat (o : Opening) :
    ∃ front b, o.text = front ++ [b] ∧ isBlank b = true := by
  rcases List.eq_nil_or_concat o.modifiers with hnil | ⟨init, m, hconcat⟩
  · obtain ⟨front, b, h, hb⟩ := exists_concat_of_blanks o.indent
    exact ⟨front, b, by simp [Opening.text, hnil, h], hb⟩
  · obtain ⟨front, b, h, hb⟩ := exists_concat_of_blanks m.gap
    exact ⟨o.indent.text ++ (init.flatMap Modifier.text ++ (m.word.toList ++ front)), b,
      by simp [Opening.text, hconcat, Modifier.text, h], hb⟩

theorem isTypeChar_of_mem_modifier (m : Modifier) (hc : c ∈ m.word.toList) :
    isTypeChar c = true := by
  have hall : ∀ w ∈ modifierWords, w.toList.all isTypeChar = true := by decide
  exact List.all_eq_true.1 (hall m.word m.isModifier) c hc

theorem Opening.mem_text (hc : c ∈ o.text) : isBlank c = true ∨ isTypeChar c = true := by
  rcases List.mem_append.1 hc with hc | hc
  · exact .inl (o.indent.isRun.all c hc)
  · obtain ⟨m, -, hc⟩ := List.mem_flatMap.1 hc
    rcases List.mem_append.1 hc with hc | hc
    · exact .inr (isTypeChar_of_mem_modifier m hc)
    · exact .inl (m.gap.isRun.all c hc)

theorem notMem_before {stop : Char} (hblank : isBlank stop = false)
    (htype : isTypeChar stop = false) {type : List Char} (hmem : stop ∉ type)
    (gap : RunOf isBlank) (name : RunOf isWordChar) :
    stop ∉ o.text ++ (type ++ gap.text) ++ name.text := by
  simp only [List.mem_append, not_or]
  refine ⟨⟨?_, hmem, ?_⟩, ?_⟩
  · intro h
    rcases Opening.mem_text h with h | h
    · exact absurd h (by simp [hblank])
    · exact absurd h (by simp [htype])
  · intro h
    exact absurd (gap.isRun.all _ h) (by simp [hblank])
  · intro h
    exact absurd (isTypeChar_of_isWordChar (name.isRun.all _ h)) (by simp [htype])

theorem isClassChar_iff :
    isClassChar c = true ↔ isBlank c = false ∧ c ∉ marks := by
  simp [isClassChar]

theorem isBlank_of_mem_className (x : ClassName) : ∀ c ∈ x.text, isBlank c = false :=
  fun c hc => (isClassChar_iff.1 (x.isRun.all c hc)).1

theorem isWord_iff (x : ClassName) : IsRun isWordChar x.text ↔ x.text.all isWordChar = true := by
  constructor
  · intro h
    exact List.all_eq_true.2 h.all
  · intro h
    exact ⟨x.isRun.ne_nil, List.all_eq_true.1 h⟩

theorem Thrown.mem_text {x : Thrown} (hc : c ∈ x.text) :
    (∃ y ∈ x.names, c ∈ y.text) ∨ c = ',' ∨ isBlank c = true := by
  rcases List.mem_append.1 hc with hc | hc
  · obtain ⟨y, hy, hc⟩ := List.mem_flatMap.1 hc
    rcases List.mem_append.1 hc with hc | hc
    · exact .inl ⟨y.name, List.mem_append_left _ (List.mem_map_of_mem hy), hc⟩
    · rcases List.mem_cons.1 hc with rfl | hc
      · exact .inr (.inl rfl)
      · exact .inr (.inr (y.blank c hc))
  · exact .inl ⟨x.last, List.mem_append_right _ List.mem_cons_self, hc⟩

theorem Thrown.mem_text_of_mem {x : Thrown} {y : ClassName} (hy : y ∈ x.names)
    (hc : c ∈ y.text) : c ∈ x.text := by
  rcases List.mem_append.1 hy with hy | hy
  · obtain ⟨z, hz, rfl⟩ := List.mem_map.1 hy
    exact List.mem_append_left _ (List.mem_flatMap.2 ⟨z, hz, List.mem_append_left _ hc⟩)
  · obtain rfl := List.mem_singleton.1 hy
    exact List.mem_append_right _ hc

theorem Thrown.notMem_clause (hc : c ∈ ['(', ')', ';']) (x : Option Thrown) :
    c ∉ Thrown.clause x := by
  obtain ⟨hblank, hnone, hcomma, hspace, hword⟩ : isBlank c = false ∧ c ∈ marks ∧ c ≠ ',' ∧
      c ≠ ' ' ∧ c ∉ "throws".toList := by
    obtain rfl | rfl | rfl : c = '(' ∨ c = ')' ∨ c = ';' := by simpa using hc
    all_goals decide
  cases x with
  | none => exact List.not_mem_nil
  | some x =>
    have htext : c ∉ x.text := by
      intro h
      rcases Thrown.mem_text h with ⟨y, -, h⟩ | h | h
      · exact (isClassChar_iff.1 (y.isRun.all c h)).2 hnone
      · exact hcomma h
      · exact absurd h (by simp [hblank])
    change c ∉ x.announced
    rw [Thrown.announced, List.mem_cons, List.mem_append, List.mem_cons]
    simp only [hspace, hword, htext, or_self, not_false_eq_true]

theorem Parameters.notMem (p : Parameters) (hc : c ∈ ['(', ')', ';', '\n']) : c ∉ p.text :=
  fun h => p.unmarked c h hc

/-! ## What is read of it -/

theorem names_opening_iff (o : Opening) {type : List Char} (htype : lastWord type ≠ [])
    (gap : RunOf isBlank) (name : RunOf isWordChar) :
    Names (o.text ++ (type ++ gap.text) ++ name.text) n ↔
      n = name.text ∧ EndsInType type := by
  obtain ⟨front, b, htext, hb⟩ := o.exists_concat
  have hopening : o.text ++ (type ++ gap.text) = front ++ b :: (type ++ gap.text) := by
    rw [htext, List.append_assoc, List.singleton_append]
  have hgap : lastWord (o.text ++ (type ++ gap.text)) = [] := by
    obtain ⟨front', b', h, hb'⟩ := exists_concat_of_blanks gap
    rw [h, ← List.append_assoc, ← List.append_assoc]
    exact lastWord_concat_of_blank hb' _
  rw [names_append_iff hgap (isBlank_of_mem_name name.isRun), hopening,
    typed_append_iff hb htype gap.isRun, and_iff_right name.isRun]

theorem nameBefore?_eq_ite {P : Prop} [Decidable P] {name : List Char}
    (h : ∀ n, Names before n ↔ n = name ∧ P) :
    nameBefore? before.reverse = if P then some name else none := by
  apply Option.ext
  intro n
  rw [nameBefore?_eq_some_iff, h]
  by_cases hP : P
  · simp [hP, eq_comm]
  · simp [hP]

theorem closesParameters_append {params rest : List Char} (hclose : ')' ∉ params)
    (hline : '\n' ∉ params) (hrest : ')' ∉ rest) :
    closesParameters (params ++ ')' :: rest) = endsDeclaration rest := by
  have hnone : closesParameters rest = false := by
    rw [← Bool.not_eq_true, closesParameters_iff]
    rintro ⟨params', rest', rfl, -⟩
    exact hrest (List.mem_append_right _ List.mem_cons_self)
  induction params with
  | nil => simp [closesParameters, hnone]
  | cons c params ih =>
    obtain ⟨hc, hclose⟩ := not_or.1 (mt List.mem_cons.2 hclose)
    obtain ⟨hn, hline⟩ := not_or.1 (mt List.mem_cons.2 hline)
    rw [List.cons_append, closesParameters, ih hclose hline, beq_false_of_ne (Ne.symm hc),
      bne_iff_ne.2 (Ne.symm hn), Bool.false_and, Bool.false_or, Bool.true_and]

theorem isThrowsChar_iff_of_isClassChar (hc : isClassChar c = true) :
    isThrowsChar c = true ↔ isTypeChar c = true := by
  obtain ⟨hblank, hmarks⟩ := isClassChar_iff.1 hc
  simp only [marks, List.mem_cons, not_or] at hmarks
  simp [isThrowsChar, isTypeChar, hblank, hmarks]

theorem Thrown.isPlain_iff {x : Thrown} : (∀ c ∈ x.text, isThrowsChar c = true) ↔
    ∀ y ∈ x.names, IsPlainName y := by
  constructor
  · intro h y hy c hc
    rw [← isThrowsChar_iff_of_isClassChar (y.isRun.all c hc)]
    exact h c (Thrown.mem_text_of_mem hy hc)
  · intro h c hc
    rcases Thrown.mem_text hc with ⟨y, hy, hc⟩ | rfl | hc
    · exact (isThrowsChar_iff_of_isClassChar (y.isRun.all c hc)).2 (h y hy c hc)
    · decide
    · exact isThrowsChar_of_isBlank hc

theorem Thrown.endsClause_text (x : Thrown) :
    endsClause (' ' :: (x.text ++ [';'])) = true ↔ ∀ c ∈ x.text, isThrowsChar c = true := by
  have hne : x.text ≠ [] := List.append_ne_nil_of_right_ne_nil _ x.last.isRun.ne_nil
  have hmem : ';' ∉ ' ' :: x.text := by
    intro h
    refine Thrown.notMem_clause (c := ';') (by decide) (some x) ?_
    exact List.mem_cons_of_mem _ (List.mem_append_right _ h)
  rw [endsClause_iff]
  constructor
  · rintro ⟨gap, names, rest, h, hgap, hnames⟩ c hc
    have hsplit : (' ' :: x.text) ++ ';' :: [] = (gap ++ names) ++ ';' :: rest := by simpa using h
    obtain ⟨htext, -, -⟩ := (List.append_cons_inj_of_notMem hmem List.not_mem_nil).1 hsplit
    rcases List.mem_append.1 (htext ▸ List.mem_cons_of_mem ' ' hc) with hc | hc
    · exact isThrowsChar_of_isBlank (hgap.all c hc)
    · exact hnames.all c hc
  · intro hall
    exact ⟨[' '], x.text, [], rfl, isRun_blank, hne, hall⟩

theorem Signature.endsDeclaration_clause (s : Signature) :
    endsDeclaration (Thrown.clause s.thrown ++ [';']) = true ↔ s.IsPlain := by
  rw [Signature.IsPlain]
  cases s.thrown with
  | none => exact ⟨fun _ _ h => (nomatch h), fun _ => rfl⟩
  | some x =>
    have hclause : endsDeclaration (Thrown.clause (some x) ++ [';']) =
        endsClause (' ' :: (x.text ++ [';'])) := rfl
    rw [hclause, x.endsClause_text, Thrown.isPlain_iff]
    simp

theorem Signature.method?_append (s : Signature) (h : '(' ∉ before) :
    method? (before ++ s.text) = if s.IsPlain then nameBefore? before.reverse else none := by
  have hparameters : '(' ∉ s.parameters.text := s.parameters.notMem (by decide)
  have hclause (c : Char) (hc : c ∈ ['(', ')', ';']) (hne : c ≠ ';') :
      c ∉ Thrown.clause s.thrown ++ [';'] := by
    simp [Thrown.notMem_clause hc, hne]
  have hrest : '(' ∉ s.parameters.text ++ ')' :: (Thrown.clause s.thrown ++ [';']) := by
    rw [List.mem_append, List.mem_cons, not_or, not_or]
    exact ⟨hparameters, by decide, hclause '(' (by decide) (by decide)⟩
  have hcloses : closesParameters
      (s.parameters.text ++ ')' :: (Thrown.clause s.thrown ++ [';'])) = true ↔ s.IsPlain := by
    rw [closesParameters_append (s.parameters.notMem (by decide))
      (s.parameters.notMem (by decide)) (hclause ')' (by decide) (by decide)),
      s.endsDeclaration_clause]
  rw [method?, Signature.text, firstName?_append_cons h hrest, List.append_nil]
  simp only [hcloses]

theorem nameBefore?_eq_none (h : ∀ n, ¬ Names before n) : nameBefore? before.reverse = none :=
  Option.eq_none_iff_forall_ne_some.2 fun n hn => h n (nameBefore?_eq_some_iff.1 hn)

theorem not_names_of_comma {front gap v : List Char} (hgap : ∀ c ∈ gap, isBlank c = true)
    (hv : ∀ c ∈ v, isBlank c = false) : ¬ Names (front ++ ',' :: (gap ++ v)) n := by
  rcases List.eq_nil_or_concat gap with rfl | ⟨init, b, rfl⟩
  · exact not_names_append_cons (by decide) (by decide) hv
  · have hb : isBlank b = true := hgap b (by simp)
    have hword : lastWord (front ++ ',' :: init.concat b) = [] := by
      rw [List.concat_eq_append, ← List.cons_append, ← List.append_assoc]
      exact lastWord_concat_of_blank hb _
    intro h
    rw [← List.cons_append, ← List.append_assoc, names_append_iff hword hv] at h
    exact not_typed_append_cons (by decide) (by decide) hgap h.2.2

/-- The word that announces an exception stands before it as a type would. -/
theorem typed_of_throws (front : List Char) :
    Typed (front ++ ' ' :: ("throws".toList ++ [' '])) := by
  rw [typed_append_iff (by decide) (by decide) isRun_blank]
  decide

/-- Of a throws clause only an exception that is thrown alone is declared as a name. -/
theorem Thrown.nameBefore?_clause (x : Option Thrown) (front : List Char) :
    nameBefore? (front ++ ')' :: Thrown.clause x).reverse = Thrown.alone? x := by
  match x with
  | none =>
    exact nameBefore?_eq_none fun n =>
      not_names_append_cons (v := []) (by decide) (by decide) nofun
  | some ⟨[], e⟩ =>
    have hnames (n : List Char) : Names (front ++ ')' :: Thrown.clause (some ⟨[], e⟩)) n ↔
        n = e.text ∧ e.text.all isWordChar = true := by
      have hsplit : front ++ ')' :: Thrown.clause (some ⟨[], e⟩) =
          (front ++ [')'] ++ ' ' :: ("throws".toList ++ [' '])) ++ e.text := by
        simp [Thrown.clause, Thrown.announced, Thrown.text]
      rw [hsplit, names_append_iff (typed_of_throws _).lastWord_eq_nil (isBlank_of_mem_className e),
        isWord_iff, and_iff_left (typed_of_throws _)]
    exact nameBefore?_eq_ite hnames
  | some ⟨y :: ys, e⟩ =>
    obtain ⟨init, z, hconcat⟩ :=
      (List.eq_nil_or_concat (y :: ys)).resolve_left (List.cons_ne_nil _ _)
    refine nameBefore?_eq_none fun n => ?_
    have hsplit : front ++ ')' :: Thrown.clause (some ⟨y :: ys, e⟩) =
        (front ++ ')' :: ' ' :: ("throws".toList ++
          ' ' :: (init.flatMap Listed.text ++ z.name.text))) ++ ',' :: (z.gap ++ e.text) := by
      simp [Thrown.clause, Thrown.announced, Thrown.text, hconcat, Listed.text]
    rw [hsplit]
    exact not_names_of_comma z.blank (isBlank_of_mem_className e)

theorem Signature.field?_append (s : Signature) (h : ';' ∉ before) :
    field? (before ++ s.text) = Thrown.alone? s.thrown := by
  have hsplit : before ++ s.text =
      (before ++ '(' :: s.parameters.text ++ ')' :: Thrown.clause s.thrown) ++ ';' :: [] := by
    simp [Signature.text]
  have hmem : ';' ∉ before ++ '(' :: s.parameters.text ++ ')' :: Thrown.clause s.thrown := by
    simp [h, s.parameters.notMem (c := ';') (by decide),
      Thrown.notMem_clause (c := ';') (by decide)]
  rw [hsplit, field?, firstName?_append_cons hmem List.not_mem_nil, if_pos rfl, List.append_nil,
    Thrown.nameBefore?_clause]

theorem method?_methodLine (o : Opening) {type : List Char} (htype : lastWord type ≠ [])
    (hmem : '(' ∉ type) (gap : RunOf isBlank) (name : RunOf isWordChar) (s : Signature) :
    method? (methodLine o type gap name s).toList =
      if s.IsPlain ∧ EndsInType type then some name.text else none := by
  rw [methodLine, String.toList_ofList,
    s.method?_append (notMem_before (by decide) (by decide) hmem gap name),
    nameBefore?_eq_ite fun n => names_opening_iff o htype gap name, ite_and]

theorem field?_fieldLine (o : Opening) {type : List Char} (htype : lastWord type ≠ [])
    (hmem : ';' ∉ type) (gap : RunOf isBlank) (name : RunOf isWordChar) :
    field? (fieldLine o type gap name).toList =
      if EndsInType type then some name.text else none := by
  rw [fieldLine, String.toList_ofList, field?,
    firstName?_append_cons (notMem_before (by decide) (by decide) hmem gap name)
      List.not_mem_nil, if_pos rfl, List.append_nil,
    nameBefore?_eq_ite fun n => names_opening_iff o htype gap name]

theorem Opening.typed_iff (o : Opening) : Typed o.text ↔ o.modifiers ≠ [] := by
  constructor
  · intro h hnil
    have htext : o.text = o.indent.text := by simp [Opening.text, hnil]
    rw [htext] at h
    exact not_typed_of_blanks o.indent.isRun.all h
  · intro h
    obtain ⟨init, m, hconcat⟩ := (List.eq_nil_or_concat o.modifiers).resolve_left h
    obtain ⟨front, b, hfront, hb⟩ := Opening.exists_concat ⟨o.indent, init⟩
    have htext : o.text = front ++ b :: (m.word.toList ++ m.gap.text) := by
      have hsplit : o.text = (Opening.text ⟨o.indent, init⟩) ++ m.text := by
        simp [Opening.text, hconcat]
      rw [hsplit, hfront, Modifier.text, List.append_assoc, List.singleton_append]
    have hword : IsRun isTypeChar m.word.toList := by
      have hne : ∀ w ∈ modifierWords, w.toList ≠ [] := by decide
      exact ⟨hne m.word m.isModifier, fun c => isTypeChar_of_mem_modifier m⟩
    rw [htext]
    exact ⟨front, b, m.word.toList, m.gap.text, rfl, hb, hword, m.gap.isRun⟩

/-- A constructor is read as a method if its name is one word and a modifier stands before
it. -/
theorem method?_constructorLine (o : Opening) (name : ClassName) (s : Signature) :
    method? (constructorLine o name s).toList =
      if s.IsPlain ∧ name.text.all isWordChar = true ∧ o.modifiers ≠ [] then
        some name.text else none := by
  have hmem : '(' ∉ o.text ++ name.text := by
    rw [List.mem_append, not_or]
    constructor
    · intro h
      rcases Opening.mem_text h with h | h
      · exact absurd h (by decide)
      · exact absurd h (by decide)
    · intro h
      exact absurd (name.isRun.all _ h) (by decide)
  have hlast : lastWord o.text = [] := by
    obtain ⟨front, b, h, hb⟩ := o.exists_concat
    rw [h]
    exact lastWord_concat_of_blank hb front
  have hnames (n : List Char) : Names (o.text ++ name.text) n ↔
      n = name.text ∧ name.text.all isWordChar = true ∧ o.modifiers ≠ [] := by
    rw [names_append_iff hlast (isBlank_of_mem_className name), o.typed_iff, isWord_iff]
  rw [constructorLine, String.toList_ofList, s.method?_append hmem, nameBefore?_eq_ite hnames]
  exact (ite_and ..).symm

end MemberIndex.Declaration

namespace MemberIndex.Members

open Declaration Text

theorem methods_scanLine (m : Members) (line : String) : (m.scanLine line).methods =
    m.methods ++ ((method? line.toList).map String.ofList).toList := rfl

theorem fields_scanLine (m : Members) (line : String) : (m.scanLine line).fields =
    m.fields ++ ((field? line.toList).map String.ofList).toList := rfl

theorem toList_map_ite {P : Prop} [Decidable P] (name : List Char) :
    ((if P then some name else none).map String.ofList).toList =
      if P then [String.ofList name] else [] := by
  by_cases hP : P
  · simp [hP]
  · simp [hP]

/-- The line of a method adds its name, where the names of its exceptions are plain, and as a
field the exception that it throws alone. -/
theorem adds_lone_exception (o : Opening) (type : RunOf isTypeChar) (gap : RunOf isBlank)
    (name : RunOf isWordChar) (s : Signature) (m : Members) :
    (m.scanLine (methodLine o type.text gap name s)).methods =
        m.methods ++ (if s.IsPlain then [String.ofList name.text] else []) ∧
      (m.scanLine (methodLine o type.text gap name s)).fields =
        m.fields ++ ((Thrown.alone? s.thrown).map String.ofList).toList := by
  have hword : lastWord type.text = type.text := lastWord_of_forall (isBlank_of_mem_type type.isRun)
  have hnot {c : Char} (hc : isTypeChar c = false) : c ∉ type.text := by
    intro h
    exact absurd (type.isRun.all c h) (by simp [hc])
  constructor
  · have hread := method?_methodLine o (by rw [hword]; exact type.isRun.ne_nil)
      (hnot (by decide)) gap name s
    have hplain : s.IsPlain ∧ EndsInType type.text ↔ s.IsPlain := by
      rw [EndsInType, hword, and_iff_left type.isRun.all]
    rw [if_congr hplain rfl rfl] at hread
    rw [methods_scanLine, hread, toList_map_ite]
  · rw [fields_scanLine, methodLine, String.toList_ofList,
      s.field?_append (notMem_before (by decide) (by decide) (hnot (by decide)) gap name)]

/-- The line of a constructor adds to the methods the class's name if that is one word, not
qualified, and some modifier stands before it. -/
theorem adds_modified_constructor (o : Opening) (name : ClassName) (s : Signature) (m : Members) :
    (m.scanLine (constructorLine o name s)).methods = m.methods ++
      if s.IsPlain ∧ name.text.all isWordChar = true ∧ o.modifiers ≠ [] then
        [String.ofList name.text] else [] := by
  rw [methods_scanLine, method?_constructorLine, toList_map_ite]

section Samples

def runOf (p : Char → Bool) (s : String) (h : s.toList ≠ [] ∧ s.toList.all p = true) : RunOf p :=
  ⟨s.toList, h.1, List.all_eq_true.1 h.2⟩

def indented (modifiers : List Modifier) : Opening :=
  ⟨runOf isBlank "  " (by decide), modifiers⟩

def oneBlank : RunOf isBlank := runOf isBlank " " (by decide)

def isPublic : Modifier := ⟨"public", by decide, oneBlank⟩

def noParameters : Parameters := ⟨[], nofun⟩

def throwing (thrown : Option Thrown) : Signature := ⟨noParameters, thrown⟩

/-- An exception that is thrown is added as a field. -/
theorem exists_exception_added :
    let line := methodLine (indented []) "void".toList oneBlank (runOf isWordChar "run" (by decide))
      (throwing (some ⟨[], runOf isClassChar "Exception" (by decide)⟩))
    line = "  void run() throws Exception;" ∧ ((∅ : Members).scanLine line).methods = ["run"] ∧
      ((∅ : Members).scanLine line).fields = ["Exception"] := by
  intro line
  have hline : line = "  void run() throws Exception;" := by decide
  have hmethod : method? "  void run() throws Exception;".toList = some "run".toList := by decide
  have hfield : field? "  void run() throws Exception;".toList = some "Exception".toList := by
    decide
  refine ⟨hline, ?_, ?_⟩
  · rw [methods_scanLine, hline, hmethod]
    rfl
  · rw [fields_scanLine, hline, hfield]
    rfl

/-- A constructor behind a modifier is added as a method. -/
theorem exists_constructor_added :
    let line := constructorLine (indented [isPublic]) (runOf isClassChar "Widget" (by decide))
      (throwing none)
    line = "  public Widget();" ∧ ((∅ : Members).scanLine line).methods = ["Widget"] := by
  intro line
  have hline : line = "  public Widget();" := by decide
  have hmethod : method? "  public Widget();".toList = some "Widget".toList := by decide
  refine ⟨hline, ?_⟩
  rw [methods_scanLine, hline, hmethod]
  rfl

end Samples

end MemberIndex.Members
