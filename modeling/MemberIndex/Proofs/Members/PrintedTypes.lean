import MemberIndex.Proofs.Members.MemberLines

/-! # Members of printed types

The arguments of a generic type are printed with blanks between them, and a bounded argument
has blanks inside, so that only the last word of a type stands before a member's name. It is a
type word unless it ends in an argument without a bound.
-/

namespace MemberIndex.Declaration

open Text (isBlank IsRun RunOf)

/-! ## Types and their text -/

def primitiveWords : List String :=
  ["boolean", "byte", "short", "int", "long", "char", "float", "double", "void"]

def boundWords : List String := ["extends", "super"]

mutual

inductive PrintedType where
  | primitive (word : String) (h : word ∈ primitiveWords)
  | named (n : ClassName)
  | generic (n : ClassName) (arguments : Arguments)
  | array (t : PrintedType)

/-- An argument of a generic type: a type, or a wildcard with or without a bound. -/
inductive Argument where
  | exact (t : PrintedType)
  | any
  | bounded (word : String) (h : word ∈ boundWords) (t : PrintedType)

inductive Arguments where
  | last (a : Argument)
  | more (a : Argument) (rest : Arguments)

end

mutual

def PrintedType.text : PrintedType → List Char
  | .primitive word _ => word.toList
  | .named n => n.text
  | .generic n as => n.text ++ '<' :: (as.text ++ ['>'])
  | .array t => t.text ++ ['[', ']']

def Argument.text : Argument → List Char
  | .exact t => t.text
  | .any => ['?']
  | .bounded word _ t => '?' :: ' ' :: (word.toList ++ ' ' :: t.text)

def Arguments.text : Arguments → List Char
  | .last a => a.text
  | .more a rest => a.text ++ ',' :: ' ' :: rest.text

end

mutual

def PrintedType.endsInWildcard : PrintedType → Bool
  | .primitive _ _ => false
  | .named _ => false
  | .generic _ as => as.endsInWildcard
  | .array t => t.endsInWildcard

def Argument.endsInWildcard : Argument → Bool
  | .exact t => t.endsInWildcard
  | .any => true
  | .bounded _ _ t => t.endsInWildcard

def Arguments.endsInWildcard : Arguments → Bool
  | .last a => a.endsInWildcard
  | .more _ rest => rest.endsInWildcard

end

mutual

/-- The names of all classes in a type may stand in a type word. -/
def PrintedType.IsPlain : PrintedType → Prop
  | .primitive _ _ => True
  | .named n => IsPlainName n
  | .generic n as => IsPlainName n ∧ as.IsPlain
  | .array t => t.IsPlain

def Argument.IsPlain : Argument → Prop
  | .exact t => t.IsPlain
  | .any => True
  | .bounded _ _ t => t.IsPlain

def Arguments.IsPlain : Arguments → Prop
  | .last a => a.IsPlain
  | .more a rest => a.IsPlain ∧ rest.IsPlain

end

/-! ## The last word of a type -/

variable {c : Char}

theorem isRun_primitive {word : String} (h : word ∈ primitiveWords) :
    IsRun isTypeChar word.toList := by
  have hall : ∀ w ∈ primitiveWords, w.toList ≠ [] ∧ w.toList.all isTypeChar = true := by decide
  obtain ⟨hne, htype⟩ := hall word h
  exact ⟨hne, List.all_eq_true.1 htype⟩

theorem isRun_brackets : IsRun isTypeChar ['[', ']'] :=
  ⟨List.cons_ne_nil _ _, List.all_eq_true.1 rfl⟩

theorem isRun_closing : IsRun isTypeChar ['>'] :=
  ⟨List.cons_ne_nil _ _, List.all_eq_true.1 rfl⟩

theorem notMem_of_mark {cs : List Char} (hc : c ∈ ['(', ';']) (h : '(' ∉ cs ∧ ';' ∉ cs) :
    c ∉ cs := by
  obtain rfl | rfl : c = '(' ∨ c = ';' := by simpa using hc
  · exact h.1
  · exact h.2

theorem notMem_className (n : ClassName) (hc : c ∈ ['(', ';']) : c ∉ n.text := by
  apply notMem_of_mark hc
  constructor
  · exact fun h => absurd (n.isRun.all _ h) (by decide)
  · exact fun h => absurd (n.isRun.all _ h) (by decide)

theorem endsInType_of_forall {cs : List Char} (h : ∀ c ∈ cs, isTypeChar c = true) :
    EndsInType cs :=
  fun c hc => h c ((List.rtakeWhile_suffix _ _).subset hc)

theorem PrintedType.lastWord_text_ne_nil (t : PrintedType) : lastWord t.text ≠ [] := by
  cases t with
  | primitive word h =>
    rw [PrintedType.text, lastWord_of_forall (isBlank_of_mem_type (isRun_primitive h))]
    exact (isRun_primitive h).ne_nil
  | named n =>
    rw [PrintedType.text, lastWord_of_forall (isBlank_of_mem_className n)]
    exact n.isRun.ne_nil
  | generic n as =>
    rw [PrintedType.text, ← List.cons_append, ← List.append_assoc, lastWord_concat (by decide)]
    exact List.append_ne_nil_of_right_ne_nil _ (List.cons_ne_nil _ _)
  | array t =>
    rw [PrintedType.text, lastWord_append (isBlank_of_mem_type isRun_brackets)]
    exact List.append_ne_nil_of_right_ne_nil _ (List.cons_ne_nil _ _)

mutual

/-- With plain names the last word of a type is a type word unless it ends in a wildcard. -/
theorem PrintedType.endsInType_iff (t : PrintedType) (ht : t.IsPlain) :
    EndsInType t.text ↔ t.endsInWildcard = false := by
  cases t with
  | primitive word h =>
    exact ⟨fun _ => rfl, fun _ => endsInType_of_forall (isRun_primitive h).all⟩
  | named n => exact ⟨fun _ => rfl, fun _ => endsInType_of_forall ht⟩
  | generic n as =>
    obtain ⟨hn, has⟩ := ht
    have hopen : ∀ c ∈ n.text ++ ['<'], isTypeChar c = true :=
      List.forall_mem_append.2 ⟨hn, List.all_eq_true.1 rfl⟩
    rw [PrintedType.text, ← List.cons_append, ← List.append_assoc,
      endsInType_append_right isRun_closing.all, List.append_cons, endsInType_append_left hopen]
    exact as.endsInType_iff has
  | array t =>
    rw [PrintedType.text, endsInType_append_right isRun_brackets.all]
    exact t.endsInType_iff ht

theorem Argument.endsInType_iff (a : Argument) (ha : a.IsPlain) :
    EndsInType a.text ↔ a.endsInWildcard = false := by
  cases a with
  | exact t => exact t.endsInType_iff ha
  | any => exact ⟨fun h => absurd h (by decide), nofun⟩
  | bounded word h t =>
    rw [Argument.text, ← List.cons_append, ← List.cons_append, endsInType_append_cons (by decide)]
    exact t.endsInType_iff ha

theorem Arguments.endsInType_iff (as : Arguments) (has : as.IsPlain) :
    EndsInType as.text ↔ as.endsInWildcard = false := by
  cases as with
  | last a => exact a.endsInType_iff has
  | more a rest =>
    rw [Arguments.text, List.append_cons, endsInType_append_cons (by decide)]
    exact rest.endsInType_iff has.2

end

mutual

theorem PrintedType.notMem_text (t : PrintedType) (hc : c ∈ ['(', ';']) : c ∉ t.text := by
  cases t with
  | primitive word h =>
    have hall : ∀ w ∈ primitiveWords, '(' ∉ w.toList ∧ ';' ∉ w.toList := by decide
    exact notMem_of_mark hc (hall word h)
  | named n => exact notMem_className n hc
  | generic n as =>
    have hmark : c ∉ ['<', '>'] := notMem_of_mark hc (by decide)
    rw [PrintedType.text]
    simp only [List.mem_append, List.mem_cons, not_or] at hmark ⊢
    exact ⟨notMem_className n hc, hmark.1, as.notMem_text hc, hmark.2⟩
  | array t =>
    rw [PrintedType.text, List.mem_append, not_or]
    exact ⟨t.notMem_text hc, notMem_of_mark hc (by decide)⟩

theorem Argument.notMem_text (a : Argument) (hc : c ∈ ['(', ';']) : c ∉ a.text := by
  cases a with
  | exact t => exact t.notMem_text hc
  | any => exact notMem_of_mark hc (by decide)
  | bounded word h t =>
    have hall : ∀ w ∈ boundWords, '(' ∉ '?' :: ' ' :: (w.toList ++ [' ']) ∧
        ';' ∉ '?' :: ' ' :: (w.toList ++ [' ']) := by decide
    have hword := notMem_of_mark hc (hall word h)
    rw [Argument.text]
    simp only [List.mem_append, List.mem_cons, List.not_mem_nil, or_false, not_or] at hword ⊢
    exact ⟨hword.1, hword.2.1, hword.2.2.1, hword.2.2.2, t.notMem_text hc⟩

theorem Arguments.notMem_text (as : Arguments) (hc : c ∈ ['(', ';']) : c ∉ as.text := by
  cases as with
  | last a => exact a.notMem_text hc
  | more a rest =>
    have hmark : c ∉ [',', ' '] := notMem_of_mark hc (by decide)
    rw [Arguments.text]
    simp only [List.mem_append, List.mem_cons, List.not_mem_nil, or_false, not_or] at hmark ⊢
    exact ⟨a.notMem_text hc, hmark.1, hmark.2, rest.notMem_text hc⟩

end

end MemberIndex.Declaration

namespace MemberIndex.Members

open Declaration Text

/-- The line of a method or of a field adds its name where the type's last word is a type word;
if the names of classes are plain, where the type does not end in a wildcard without a bound. -/
theorem adds_typed_member (o : Opening) (t : PrintedType) (gap : RunOf isBlank)
    (name : RunOf isWordChar) (parameters : Parameters) (m : Members) :
    (m.scanLine (methodLine o t.text gap name ⟨parameters, none⟩)).methods =
        m.methods ++ (if EndsInType t.text then [String.ofList name.text] else []) ∧
      (m.scanLine (fieldLine o t.text gap name)).fields =
        m.fields ++ (if EndsInType t.text then [String.ofList name.text] else []) ∧
      (t.IsPlain → (EndsInType t.text ↔ t.endsInWildcard = false)) := by
  have hne := t.lastWord_text_ne_nil
  have hplain : Signature.IsPlain ⟨parameters, none⟩ := nofun
  refine ⟨?_, ?_, t.endsInType_iff⟩
  · have hread := method?_methodLine o hne (t.notMem_text (by decide)) gap name ⟨parameters, none⟩
    rw [if_congr (and_iff_right hplain) rfl rfl] at hread
    rw [methods_scanLine, hread, toList_map_ite]
  · rw [fields_scanLine, field?_fieldLine o hne (t.notMem_text (by decide)), toList_map_ite]

section Samples

def className (s : String) (h : s.toList ≠ [] ∧ s.toList.all isClassChar = true) : PrintedType :=
  .named (runOf isClassChar s h)

def mapsOfLists : PrintedType :=
  .array <| .generic (runOf isClassChar "java.util.Map" (by decide)) <|
    .more (.exact (className "K" (by decide))) <| .last <| .exact <|
    .generic (runOf isClassChar "List" (by decide)) <| .last <|
    .bounded "extends" (by decide) (className "Number" (by decide))

def lists : PrintedType := .generic (runOf isClassChar "java.util.List" (by decide)) (.last .any)

theorem adds_typed_member_of_maps :
    let line := fieldLine (indented []) mapsOfLists.text oneBlank
      (runOf isWordChar "cache" (by decide))
    mapsOfLists.IsPlain ∧ mapsOfLists.endsInWildcard = false ∧
      line = "  java.util.Map<K, List<? extends Number>>[] cache;" ∧
      ((∅ : Members).scanLine line).fields = ["cache"] := by
  intro line
  obtain ⟨-, hfields, hread⟩ := adds_typed_member (indented []) mapsOfLists oneBlank
    (runOf isWordChar "cache" (by decide)) noParameters ∅
  have hplain : mapsOfLists.IsPlain := by
    change IsPlainName _ ∧ IsPlainName _ ∧ IsPlainName _ ∧ IsPlainName _
    decide
  refine ⟨hplain, rfl, by decide, ?_⟩
  rw [hfields, if_pos ((hread hplain).2 rfl)]
  rfl

/-- A member of a type that ends in a wildcard without a bound is left out. -/
theorem exists_typed_member_left_out :
    let field := fieldLine (indented []) lists.text oneBlank (runOf isWordChar "items" (by decide))
    let method := methodLine (indented []) lists.text oneBlank
      (runOf isWordChar "items" (by decide)) (throwing none)
    field = "  java.util.List<?> items;" ∧ method = "  java.util.List<?> items();" ∧
      ((∅ : Members).scanLine field).fields = [] ∧
      ((∅ : Members).scanLine method).methods = [] := by
  intro field method
  have hline : field = "  java.util.List<?> items;" := by decide
  have hline' : method = "  java.util.List<?> items();" := by decide
  have hfield : field? "  java.util.List<?> items;".toList = none := by decide
  have hmethod : method? "  java.util.List<?> items();".toList = none := by decide
  refine ⟨hline, hline', ?_, ?_⟩
  · rw [fields_scanLine, hline, hfield]
    rfl
  · rw [methods_scanLine, hline', hmethod]
    rfl

end Samples

end MemberIndex.Members
