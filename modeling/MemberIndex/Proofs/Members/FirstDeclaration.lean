import MemberIndex.Members.Patterns
import MemberIndex.Proofs.Members.Places
import MemberIndex.Proofs.Text.Pattern

/-! # The first declaration of a line

The first place of a line where a member is declared is the place where the pattern of a
declaration is found, whatever words the pattern admits as modifiers.
-/

namespace MemberIndex.Declaration

open Text (isBlank IsRun Pattern)

variable {before after name line w : List Char} {stop : Char}

/-! ## The pattern of a declaration -/

/-- The character that ends a name stands in no part of a declaration before it, and behind it
nothing is kept. -/
structure Delimits (modifiers : List String) (stop : Char) (rest : Pattern) : Prop where
  notBlank : isBlank stop = false
  notType : isTypeChar stop = false
  notMem : ∀ x ∈ modifiers, stop ∉ x.toList
  plain : rest.hasGroup = false

variable {modifiers : List String} {rest : Pattern} {g : Option (List Char)}

namespace Delimits

variable (hd : Delimits modifiers stop rest)

include hd

theorem notMem_of_blank (hw : ∀ c ∈ w, isBlank c = true) : stop ∉ w := by
  intro h
  have := hw stop h
  rw [hd.notBlank] at this
  cases this

theorem notMem_of_type (hw : ∀ c ∈ w, isTypeChar c = true) : stop ∉ w := by
  intro h
  have := hw stop h
  rw [hd.notType] at this
  cases this

theorem notMem_of_modifiers (h : (Pattern.many (.anyOf modifiers)).Reads w g) : stop ∉ w := by
  apply Pattern.notMem_of_reads_many _ h
  intro u k hu
  obtain ⟨x, hx, rfl⟩ := Pattern.exists_mem_of_reads_anyOf hu
  exact hd.notMem x hx

end Delimits

theorem Delimits.exists_names (hd : Delimits modifiers stop rest)
    (h : (pattern modifiers stop rest).Reads w g) :
    ∃ before name u, w = before ++ stop :: u ∧ stop ∉ before ∧ Names before name ∧
      rest.Reads u none ∧ g = some name := by
  have hplain : (Pattern.many (.anyOf modifiers)).hasGroup = false :=
    Pattern.hasGroup_anyOf modifiers
  obtain ⟨lead, w₁, hlead, h₁, rfl⟩ := (Pattern.reads_seq_iff_of_plain rfl).1 h
  obtain ⟨mods, w₂, hmods, h₂, rfl⟩ := (Pattern.reads_seq_iff_of_plain hplain).1 h₁
  obtain ⟨blanks, w₃, hblanks, h₃, rfl⟩ := (Pattern.reads_seq_iff_of_plain rfl).1 h₂
  obtain ⟨type, w₄, htype, h₄, rfl⟩ := (Pattern.reads_seq_iff_of_plain rfl).1 h₃
  obtain ⟨gap, w₅, hgap, h₅, rfl⟩ := (Pattern.reads_seq_iff_of_plain rfl).1 h₄
  obtain ⟨name, w₆, l, k, hname, h₆, rfl, rfl⟩ := Pattern.reads_seq_iff.1 h₅
  obtain ⟨s, u, hs, hu, rfl⟩ := (Pattern.reads_seq_iff_of_plain rfl).1 h₆
  obtain ⟨hlead, -⟩ := Pattern.reads_many_one_iff.1 hlead
  obtain ⟨hblanks, -⟩ := Pattern.reads_oneOrMore_one_iff.1 hblanks
  obtain ⟨htype, -⟩ := Pattern.reads_oneOrMore_one_iff.1 htype
  obtain ⟨hgap, -⟩ := Pattern.reads_oneOrMore_one_iff.1 hgap
  obtain ⟨rfl, j, hname⟩ := Pattern.reads_group_iff.1 hname
  obtain ⟨hname, -⟩ := Pattern.reads_oneOrMore_one_iff.1 hname
  obtain ⟨rfl, -⟩ := Pattern.reads_just_iff.1 hs
  obtain rfl := hu.eq_none hd.plain
  refine ⟨lead ++ (mods ++ (blanks ++ (type ++ (gap ++ name)))), name, u, by simp, ?_, ?_, hu, rfl⟩
  · simp only [List.mem_append, not_or]
    exact ⟨hd.notMem_of_blank hlead, hd.notMem_of_modifiers hmods, hd.notMem_of_blank hblanks.all,
      hd.notMem_of_type htype.all, hd.notMem_of_blank hgap.all,
      hd.notMem_of_type fun c hc => isTypeChar_of_isWordChar (hname.all c hc)⟩
  · -- the last of the blanks before the type word is the one that must stand there
    obtain ⟨init, b, rfl⟩ : ∃ init b, blanks = init ++ [b] :=
      ⟨_, _, (List.dropLast_concat_getLast hblanks.ne_nil).symm⟩
    have hb : isBlank b = true := hblanks.all b (by simp)
    have hnames : Names (init ++ b :: (type ++ (gap ++ name))) name :=
      ⟨init, b, type, gap, rfl, hb, htype, hgap, hname⟩
    rw [List.append_assoc init, List.singleton_append]
    exact (hnames.append_left mods).append_left lead

theorem Names.exists_begins (modifiers : List String) (hnames : Names before name)
    (hrest : rest.Begins after) :
    ∃ front w, before = front ++ w ∧ (pattern modifiers stop rest).Begins (w ++ stop :: after) := by
  obtain ⟨front, b, type, gap, rfl, hb, htype, hgap, hname⟩ := hnames
  obtain ⟨u, t, k, rfl, hu⟩ := hrest
  have hone : IsRun isBlank [b] := ⟨List.cons_ne_nil _ _, by simpa using hb⟩
  have hreads : (pattern modifiers stop rest).Reads _ _ :=
    .seq .stop <| .seq .stop <| .seq (Pattern.reads_oneOrMore_one_iff.2 ⟨hone, rfl⟩) <|
      .seq (Pattern.reads_oneOrMore_one_iff.2 ⟨htype, rfl⟩) <|
      .seq (Pattern.reads_oneOrMore_one_iff.2 ⟨hgap, rfl⟩) <|
      .seq (.group (Pattern.reads_oneOrMore_one_iff.2 ⟨hname, rfl⟩)) <|
      .seq (Pattern.reads_just_iff.2 ⟨rfl, rfl⟩) hu
  exact ⟨front, b :: (type ++ (gap ++ name)), rfl, _, t, _, by simp, hreads⟩

theorem Delimits.exists_firstDeclaredAt (hd : Delimits modifiers stop rest)
    (h : (pattern modifiers stop rest).kept? line = some name) :
    ∃ p, FirstDeclaredAt stop rest.Begins line p name := by
  obtain ⟨x, hfind, hkept⟩ := Option.bind_eq_some_iff.1 h
  obtain ⟨front, hline, hreads, hleftmost⟩ := Pattern.find?_eq_some hfind
  obtain ⟨before, n, u, hword, hstop, hnames, hu, hx⟩ := hd.exists_names hreads
  obtain rfl : n = name := Option.some.inj (hx.symm.trans hkept)
  have hsplit : line = (front ++ before) ++ stop :: (u ++ x.rest) := by
    rw [hline, hword]
    simp
  refine ⟨(front ++ before).length, ?_, ?_⟩
  · rw [hsplit]
    exact declaredAt_length_iff.2 ⟨rfl, hnames.append_left front, u, x.rest, none, rfl, hu⟩
  · intro q m hdeclared
    obtain ⟨before', after', hsplit', rfl, hnames', hbegins⟩ := hdeclared.exists_split
    obtain ⟨front', w, rfl, hbegins⟩ := hnames'.exists_begins modifiers hbegins
    have hfront := hleftmost front' _ (by rw [hsplit', List.append_assoc]) hbegins
    -- an earlier place would lie in what is read before the character that ends the name
    by_contra hlt
    have hget := hdeclared.ended
    rw [hsplit, List.getElem?_append_left (Nat.lt_of_not_le hlt),
      List.getElem?_append_right (by rw [List.length_append]; omega)] at hget
    exact hstop (List.mem_of_getElem? hget)

theorem Delimits.kept?_pattern_iff (hd : Delimits modifiers stop rest) :
    (pattern modifiers stop rest).kept? line = some name ↔
      ∃ p, FirstDeclaredAt stop rest.Begins line p name := by
  constructor
  · exact hd.exists_firstDeclaredAt
  · rintro ⟨p, hp⟩
    obtain ⟨before, after, rfl, -, hnames, hbegins⟩ := hp.exists_split
    obtain ⟨front, w, rfl, hbegins⟩ := hnames.exists_begins modifiers hbegins
    obtain ⟨x, hx⟩ := Option.isSome_iff_exists.1 (hbegins.isSome_find? front)
    obtain ⟨-, n, -, -, -, -, -, hn⟩ := hd.exists_names (Pattern.find?_eq_some hx).choose_spec.2.1
    have hkept : (pattern modifiers stop rest).kept? (front ++ w ++ stop :: after) = some n := by
      rw [Pattern.kept?, List.append_assoc, hx]
      exact hn
    obtain ⟨q, hq⟩ := hd.exists_firstDeclaredAt hkept
    rw [hkept, (hp.unique hq).2]

theorem reads_throwsClause_iff : throwsClause.Reads w g ↔
    (∃ gap gap' names, w = gap ++ ("throws".toList ++ (gap' ++ names)) ∧ IsRun isBlank gap ∧
      IsRun isBlank gap' ∧ IsRun isThrowsChar names) ∧ g = none := by
  constructor
  · intro h
    refine ⟨?_, h.eq_none rfl⟩
    obtain ⟨gap, w₁, hgap, h₁, rfl⟩ := (Pattern.reads_seq_iff_of_plain rfl).1 h
    obtain ⟨v, w₂, hv, h₂, rfl⟩ := (Pattern.reads_seq_iff_of_plain rfl).1 h₁
    obtain ⟨gap', names, hgap', hnames, rfl⟩ := (Pattern.reads_seq_iff_of_plain rfl).1 h₂
    obtain ⟨rfl, -⟩ := Pattern.reads_text_iff.1 hv
    exact ⟨gap, gap', names, rfl, (Pattern.reads_oneOrMore_one_iff.1 hgap).1,
      (Pattern.reads_oneOrMore_one_iff.1 hgap').1, (Pattern.reads_oneOrMore_one_iff.1 hnames).1⟩
  · rintro ⟨⟨gap, gap', names, rfl, hgap, hgap', hnames⟩, rfl⟩
    exact .seq (Pattern.reads_oneOrMore_one_iff.2 ⟨hgap, rfl⟩) <|
      .seq (Pattern.reads_text_iff.2 ⟨rfl, rfl⟩) <|
      .seq (Pattern.reads_oneOrMore_one_iff.2 ⟨hgap', rfl⟩)
        (Pattern.reads_oneOrMore_one_iff.2 ⟨hnames, rfl⟩)

theorem begins_parameters_iff : parameters.Begins after ↔ Closes after := by
  constructor
  · rintro ⟨w, t, g, rfl, h⟩
    obtain ⟨params, w₁, hparams, h₁, rfl⟩ := (Pattern.reads_seq_iff_of_plain rfl).1 h
    obtain ⟨v, w₂, hv, h₂, rfl⟩ := (Pattern.reads_seq_iff_of_plain rfl).1 h₁
    obtain ⟨clause, v', hclause, hv', rfl⟩ := (Pattern.reads_seq_iff_of_plain rfl).1 h₂
    obtain ⟨hparams, -⟩ := Pattern.reads_many_one_iff.1 hparams
    obtain ⟨rfl, -⟩ := Pattern.reads_just_iff.1 hv
    obtain ⟨rfl, -⟩ := Pattern.reads_just_iff.1 hv'
    refine ⟨params, clause ++ ';' :: t, by simp, fun hmem => by simpa using hparams _ hmem, ?_⟩
    rcases Pattern.reads_alt_iff.1 hclause with hclause | hclause
    · obtain ⟨⟨gap, gap', names, rfl, hgap, hgap', hnames⟩, -⟩ := reads_throwsClause_iff.1 hclause
      exact .inr ⟨gap, gap', names, t, by simp, hgap, hgap', hnames⟩
    · obtain ⟨rfl, -⟩ := Pattern.reads_empty_iff.1 hclause
      exact .inl ⟨t, rfl⟩
  · rintro ⟨params, rest, rfl, hparams, hends⟩
    have hline : (Pattern.many (.one (· != '\n'))).Reads params none := by
      refine Pattern.reads_many_one_iff.2 ⟨?_, rfl⟩
      intro c hc
      rw [bne_iff_ne]
      rintro rfl
      exact hparams hc
    have hclose : (Pattern.just ')').Reads [')'] none := Pattern.reads_just_iff.2 ⟨rfl, rfl⟩
    have hsemicolon : (Pattern.just ';').Reads [';'] none := Pattern.reads_just_iff.2 ⟨rfl, rfl⟩
    rcases hends with ⟨t, rfl⟩ | ⟨gap, gap', names, t, rfl, hgap, hgap', hnames⟩
    · have hreads : parameters.Reads _ _ :=
        .seq hline <| .seq hclose <| .seq (.right .empty) hsemicolon
      exact ⟨_, t, _, by simp, hreads⟩
    · have hclause := reads_throwsClause_iff.2 ⟨⟨gap, gap', names, rfl, hgap, hgap', hnames⟩, rfl⟩
      have hreads : parameters.Reads _ _ :=
        .seq hline <| .seq hclose <| .seq (.left hclause) hsemicolon
      exact ⟨_, t, _, by simp, hreads⟩

/-! ## Reading a line and finding the pattern -/

/-- Reading a line for the first declaration finds the name that the pattern keeps. -/
theorem Delimits.firstName?_eq_kept? (hd : Delimits modifiers stop rest)
    {tail : List Char → Bool} (htail : ∀ cs, tail cs = true ↔ rest.Begins cs)
    (line : List Char) :
    firstName? stop tail [] line = (pattern modifiers stop rest).kept? line := by
  have hfollows : (tail · = true) = rest.Begins := funext fun cs => propext (htail cs)
  apply Option.ext
  intro name
  rw [firstName?_nil_eq_some_iff, hd.kept?_pattern_iff, hfollows]

theorem method?_eq_kept? (hm : ∀ x ∈ modifiers, '(' ∉ x.toList) (line : List Char) :
    method? line = (pattern modifiers '(' parameters).kept? line := by
  have hd : Delimits modifiers '(' parameters := ⟨by decide, by decide, hm, rfl⟩
  apply hd.firstName?_eq_kept?
  intro cs
  rw [closesParameters_iff, begins_parameters_iff]

theorem field?_eq_kept? (hm : ∀ x ∈ modifiers, ';' ∉ x.toList) (line : List Char) :
    field? line = (pattern modifiers ';' .empty).kept? line := by
  have hd : Delimits modifiers ';' .empty := ⟨by decide, by decide, hm, rfl⟩
  apply hd.firstName?_eq_kept?
  intro cs
  exact ⟨fun _ => ⟨[], cs, none, rfl, .empty⟩, fun _ => rfl⟩

end MemberIndex.Declaration

namespace MemberIndex.Members

open Declaration

/-- A line adds to the methods the name that stands before the first parenthesis at which a
method is declared. It is the name that the pattern keeps, and words which the pattern admits
as modifiers, whatever they are, change nothing. -/
theorem adds_first_method (modifiers : List String) (hm : ∀ x ∈ modifiers, '(' ∉ x.toList)
    (m : Members) (line : String) :
    (m.scanLine line).methods =
      m.methods ++ ((methodPattern.kept? line.toList).map String.ofList).toList ∧
    (pattern modifiers '(' parameters).kept? line.toList = methodPattern.kept? line.toList ∧
    AddsFirst (DeclaredAt '(' Closes line.toList) m.methods (m.scanLine line).methods := by
  have hpattern : method? line.toList = methodPattern.kept? line.toList :=
    method?_eq_kept? (by decide) line.toList
  refine ⟨by rw [← hpattern]; rfl, by rw [← hpattern, method?_eq_kept? hm], ?_⟩
  apply addsFirst_of_eq_some_iff
  intro name
  have hfollows : (closesParameters · = true) = Closes :=
    funext fun cs => propext closesParameters_iff
  rw [method?, firstName?_nil_eq_some_iff, hfollows]

/-- No type word stands before the first parenthesis, and a word that stands for a modifier is
read as one here. -/
theorem adds_first_method_of_default :
    let line := "f(x) default B run(C); D g(h);"
    (∀ x ∈ ["default", "strictfp"], '(' ∉ x.toList) ∧
      (pattern ["default", "strictfp"] '(' parameters).kept? line.toList = some "run".toList ∧
      ((∅ : Members).scanLine line).methods = ["run"] := by
  intro line
  have hm : ∀ x ∈ ["default", "strictfp"], '(' ∉ x.toList := by decide
  obtain ⟨hadds, hsame, -⟩ := adds_first_method ["default", "strictfp"] hm ∅ line
  have hread : method? line.toList = some "run".toList := by decide
  have hfound : methodPattern.kept? line.toList = some "run".toList :=
    (method?_eq_kept? (by decide) line.toList).symm.trans hread
  refine ⟨hm, hsame.trans hfound, ?_⟩
  rw [hadds, hfound]
  rfl

/-- A line adds to the fields the name that stands before the first semicolon at which a field
is declared. It is the name that the pattern keeps, and words which the pattern admits as
modifiers, whatever they are, change nothing. -/
theorem adds_first_field (modifiers : List String) (hm : ∀ x ∈ modifiers, ';' ∉ x.toList)
    (m : Members) (line : String) :
    (m.scanLine line).fields =
      m.fields ++ ((fieldPattern.kept? line.toList).map String.ofList).toList ∧
    (pattern modifiers ';' .empty).kept? line.toList = fieldPattern.kept? line.toList ∧
    AddsFirst (DeclaredAt ';' (fun _ => True) line.toList) m.fields (m.scanLine line).fields := by
  have hpattern : field? line.toList = fieldPattern.kept? line.toList :=
    field?_eq_kept? (by decide) line.toList
  refine ⟨by rw [← hpattern]; rfl, by rw [← hpattern, field?_eq_kept? hm], ?_⟩
  apply addsFirst_of_eq_some_iff
  intro name
  rw [field?, firstName?_nil_eq_some_iff]
  simp

/-- The part of a type that a blank cuts off is not seen, and a field behind it is not the
first. -/
theorem adds_first_field_of_split_type :
    let line := "x; Map<K, V> cache; int n;"
    (∀ x ∈ ["default", "strictfp"], ';' ∉ x.toList) ∧
      (pattern ["default", "strictfp"] ';' .empty).kept? line.toList = some "cache".toList ∧
      ((∅ : Members).scanLine line).fields = ["cache"] := by
  intro line
  have hm : ∀ x ∈ ["default", "strictfp"], ';' ∉ x.toList := by decide
  obtain ⟨hadds, hsame, -⟩ := adds_first_field ["default", "strictfp"] hm ∅ line
  have hread : field? line.toList = some "cache".toList := by decide
  have hfound : fieldPattern.kept? line.toList = some "cache".toList :=
    (field?_eq_kept? (by decide) line.toList).symm.trans hread
  refine ⟨hm, hsame.trans hfound, ?_⟩
  rw [hadds, hfound]
  rfl

end MemberIndex.Members
