import Mathlib.Data.List.DropRight
import MemberIndex.Proofs.Members.Places

/-! # The last words before a place

What stands before a place declares a name if its last word is a name and the word before that
one is a type word. A word ends at a blank, so that no part of a longer word counts, and a type
word needs a blank before it.
-/

namespace MemberIndex.Declaration

open Text (isBlank IsRun)

variable {as bs cs front gap t v n : List Char} {b c : Char}

/-! ## Words and the blanks behind them -/

def lastWord (cs : List Char) : List Char := cs.rtakeWhile fun c => !isBlank c

theorem lastWord_concat_of_blank (hb : isBlank b = true) (cs : List Char) :
    lastWord (cs ++ [b]) = [] :=
  List.rtakeWhile_concat_neg _ _ _ (by simp [hb])

theorem lastWord_concat (hc : isBlank c = false) (cs : List Char) :
    lastWord (cs ++ [c]) = lastWord cs ++ [c] :=
  List.rtakeWhile_concat_pos _ _ _ (by simp [hc])

theorem lastWord_append (hv : ∀ c ∈ v, isBlank c = false) (front : List Char) :
    lastWord (front ++ v) = lastWord front ++ v := by
  induction v using List.reverseRecOn with
  | nil => simp
  | append_singleton v c ih =>
    rw [← List.append_assoc, lastWord_concat (hv c (by simp)),
      ih fun d hd => hv d (List.mem_append_left _ hd), List.append_assoc]

theorem lastWord_append_cons (hb : isBlank b = true) (front cs : List Char) :
    lastWord (front ++ b :: cs) = lastWord cs := by
  induction cs using List.reverseRecOn with
  | nil => exact lastWord_concat_of_blank hb front
  | append_singleton cs c ih =>
    rw [← List.cons_append, ← List.append_assoc]
    by_cases hc : isBlank c = true
    · rw [lastWord_concat_of_blank hc, lastWord_concat_of_blank hc]
    · rw [Bool.not_eq_true] at hc
      rw [lastWord_concat hc, lastWord_concat hc, ih]

theorem lastWord_of_forall (hv : ∀ c ∈ v, isBlank c = false) : lastWord v = v :=
  lastWord_append hv []

theorem exists_append_lastWord (hb : isBlank b = true) (front cs : List Char) :
    ∃ front' b', front ++ b :: cs = front' ++ b' :: lastWord cs ∧ isBlank b' = true := by
  induction cs using List.reverseRecOn with
  | nil => exact ⟨front, b, rfl, hb⟩
  | append_singleton cs c ih =>
    by_cases hc : isBlank c = true
    · rw [lastWord_concat_of_blank hc]
      exact ⟨front ++ b :: cs, c, by simp, hc⟩
    · rw [Bool.not_eq_true] at hc
      obtain ⟨front', b', h, hb'⟩ := ih
      rw [lastWord_concat hc]
      exact ⟨front', b', by rw [← List.cons_append, ← List.append_assoc, h]; simp, hb'⟩

theorem eq_of_append_blanks {gap' : List Char} (h : as ++ gap = bs ++ gap') (has : lastWord as ≠ [])
    (hbs : lastWord bs ≠ []) (hgap : ∀ c ∈ gap, isBlank c = true)
    (hgap' : ∀ c ∈ gap', isBlank c = true) : as = bs := by
  have hstrip {cs gap : List Char} (hcs : lastWord cs ≠ []) (hgap : ∀ c ∈ gap, isBlank c = true) :
      (cs ++ gap).rdropWhile isBlank = cs := by
    induction gap using List.reverseRecOn with
    | nil =>
      rw [List.append_nil, List.rdropWhile_eq_self_iff]
      intro hne hlast
      rw [← List.dropLast_append_getLast hne, lastWord_concat_of_blank hlast] at hcs
      exact hcs rfl
    | append_singleton gap c ih =>
      rw [← List.append_assoc, List.rdropWhile_concat_pos _ _ _ (hgap c (by simp)),
        ih fun d hd => hgap d (List.mem_append_left _ hd)]
  rw [← hstrip has hgap, h, hstrip hbs hgap']

/-! ## What declares a name -/

/-- The last word of a text consists of characters that a type word may have. -/
def EndsInType (cs : List Char) : Prop := ∀ c ∈ lastWord cs, isTypeChar c = true

instance (cs : List Char) : Decidable (EndsInType cs) :=
  decidable_of_iff ((lastWord cs).all isTypeChar = true) List.all_eq_true

theorem endsInType_append_cons (hb : isBlank b = true) (front cs : List Char) :
    EndsInType (front ++ b :: cs) ↔ EndsInType cs := by
  rw [EndsInType, lastWord_append_cons hb, EndsInType]

theorem endsInType_append_left (has : ∀ c ∈ as, isTypeChar c = true) (bs : List Char) :
    EndsInType (as ++ bs) ↔ EndsInType bs := by
  by_cases hbs : ∃ b ∈ bs, isBlank b = true
  · obtain ⟨b, hmem, hb⟩ := hbs
    obtain ⟨cs, ds, rfl⟩ := List.append_of_mem hmem
    rw [← List.append_assoc, endsInType_append_cons hb, endsInType_append_cons hb]
  · have hsolid : ∀ c ∈ bs, isBlank c = false := by
      intro c hc
      rw [← Bool.not_eq_true]
      exact fun h => hbs ⟨c, hc, h⟩
    rw [EndsInType, lastWord_append hsolid, EndsInType, lastWord_of_forall hsolid,
      List.forall_mem_append, and_iff_right]
    exact fun c hc => has c ((List.rtakeWhile_suffix _ _).subset hc)

theorem endsInType_append_right (hbs : ∀ c ∈ bs, isTypeChar c = true) (as : List Char) :
    EndsInType (as ++ bs) ↔ EndsInType as := by
  rw [EndsInType, lastWord_append fun c hc => not_isBlank_of_isTypeChar (hbs c hc),
    List.forall_mem_append, and_iff_left hbs, EndsInType]

/-- What stands before the name in a declaration: a blank, a type word and blanks. -/
def Typed (before : List Char) : Prop :=
  ∃ front b type gap, before = front ++ b :: (type ++ gap) ∧ isBlank b = true ∧
    IsRun isTypeChar type ∧ IsRun isBlank gap

theorem names_iff {before : List Char} :
    Names before n ↔ ∃ t, before = t ++ n ∧ Typed t ∧ IsRun isWordChar n := by
  constructor
  · rintro ⟨front, b, type, gap, rfl, hb, htype, hgap, hname⟩
    exact ⟨front ++ b :: (type ++ gap), by simp, ⟨front, b, type, gap, rfl, hb, htype, hgap⟩, hname⟩
  · rintro ⟨_, rfl, ⟨front, b, type, gap, rfl, hb, htype, hgap⟩, hname⟩
    exact ⟨front, b, type, gap, by simp, hb, htype, hgap, hname⟩

theorem isBlank_of_mem_type (h : IsRun isTypeChar v) : ∀ c ∈ v, isBlank c = false :=
  fun c hc => not_isBlank_of_isTypeChar (h.all c hc)

theorem isBlank_of_mem_name (h : IsRun isWordChar v) : ∀ c ∈ v, isBlank c = false :=
  fun c hc => not_isBlank_of_isTypeChar (isTypeChar_of_isWordChar (h.all c hc))

theorem Typed.lastWord_eq_nil (h : Typed t) : lastWord t = [] := by
  obtain ⟨front, b, type, gap, rfl, -, -, hgap⟩ := h
  rw [← List.dropLast_append_getLast hgap.ne_nil, ← List.append_assoc, ← List.cons_append,
    ← List.append_assoc]
  exact lastWord_concat_of_blank (hgap.all _ (List.getLast_mem hgap.ne_nil)) _

theorem names_append_iff (ht : lastWord t = []) (hv : ∀ c ∈ v, isBlank c = false) :
    Names (t ++ v) n ↔ n = v ∧ IsRun isWordChar v ∧ Typed t := by
  rw [names_iff]
  constructor
  · rintro ⟨t', h, htyped, hn⟩
    have hwords := congrArg lastWord h
    rw [lastWord_append hv, ht, lastWord_append (isBlank_of_mem_name hn),
      htyped.lastWord_eq_nil] at hwords
    obtain rfl : v = n := hwords
    obtain rfl := List.append_cancel_right h
    exact ⟨rfl, hn, htyped⟩
  · rintro ⟨rfl, hn, htyped⟩
    exact ⟨t, rfl, htyped, hn⟩

theorem not_names_append_cons (hc : isBlank c = false) (hword : isWordChar c = false)
    (hv : ∀ d ∈ v, isBlank d = false) : ¬ Names (t ++ c :: v) n := by
  rw [names_iff]
  rintro ⟨t', h, htyped, hn⟩
  have hwords := congrArg lastWord h
  rw [lastWord_append (List.forall_mem_cons.2 ⟨hc, hv⟩),
    lastWord_append (isBlank_of_mem_name hn), htyped.lastWord_eq_nil, List.nil_append] at hwords
  have hmem : c ∈ n := by
    rw [← hwords]
    simp
  rw [hn.all c hmem] at hword
  cases hword

/-- Behind a blank the type is the whole last word. -/
theorem typed_append_iff (hb : isBlank b = true) (hcs : lastWord cs ≠ [])
    (hgap : IsRun isBlank gap) : Typed (front ++ b :: (cs ++ gap)) ↔ EndsInType cs := by
  constructor
  · rintro ⟨front', b', type, gap', h, hb', htype, hgap'⟩
    have hwhole : (front ++ b :: cs) ++ gap = (front' ++ b' :: type) ++ gap' := by simpa using h
    have htext : front ++ b :: cs = front' ++ b' :: type := by
      refine eq_of_append_blanks hwhole ?_ ?_ hgap.all hgap'.all
      · rwa [lastWord_append_cons hb]
      · rw [lastWord_append_cons hb', lastWord_of_forall (isBlank_of_mem_type htype)]
        exact htype.ne_nil
    have hword := congrArg lastWord htext
    rw [lastWord_append_cons hb, lastWord_append_cons hb',
      lastWord_of_forall (isBlank_of_mem_type htype)] at hword
    rw [EndsInType, hword]
    exact htype.all
  · intro hall
    obtain ⟨front', b', h, hb'⟩ := exists_append_lastWord hb front cs
    refine ⟨front', b', lastWord cs, gap, ?_, hb', ⟨hcs, hall⟩, hgap⟩
    rw [← List.cons_append, ← List.append_assoc, h]
    simp

theorem not_typed_append_cons (hc : isBlank c = false) (htype : isTypeChar c = false)
    (hgap : ∀ d ∈ gap, isBlank d = true) : ¬ Typed (front ++ c :: gap) := by
  rintro ⟨front', b', type, gap', h, hb', htyped, hgap'⟩
  have hword : lastWord (front' ++ b' :: type) = type := by
    rw [lastWord_append_cons hb', lastWord_of_forall (isBlank_of_mem_type htyped)]
  have hwhole : (front ++ [c]) ++ gap = (front' ++ b' :: type) ++ gap' := by simpa using h
  have htext : front ++ [c] = front' ++ b' :: type := by
    refine eq_of_append_blanks hwhole ?_ ?_ hgap hgap'.all
    · simp [lastWord_concat hc]
    · rw [hword]
      exact htyped.ne_nil
  have hmem : c ∈ type := by
    rw [← hword, ← htext, lastWord_concat hc]
    simp
  rw [htyped.all c hmem] at htype
  cases htype

theorem not_typed_of_blanks (hgap : ∀ d ∈ gap, isBlank d = true) : ¬ Typed gap := by
  rintro ⟨front, b, type, gap', rfl, -, htype, -⟩
  obtain ⟨c, type, rfl⟩ := List.exists_cons_of_ne_nil htype.ne_nil
  have hblank := hgap c (by simp)
  rw [not_isBlank_of_isTypeChar (htype.all c List.mem_cons_self)] at hblank
  cases hblank

/-! ## A line in which one character may end a name -/

variable {stop : Char} {tail : List Char → Bool}

theorem firstName?_of_notMem (h : stop ∉ cs) (before : List Char) :
    firstName? stop tail before cs = none := by
  induction cs generalizing before with
  | nil => rfl
  | cons c cs ih =>
    obtain ⟨hc, hcs⟩ := not_or.1 (mt List.mem_cons.2 h)
    rw [firstName?, if_neg fun h => hc h.1.symm, ih hcs]

theorem firstName?_append_cons (has : stop ∉ as) (hbs : stop ∉ bs) (before : List Char) :
    firstName? stop tail before (as ++ stop :: bs) =
      if tail bs then nameBefore? (as.reverse ++ before) else none := by
  induction as generalizing before with
  | nil =>
    rw [List.nil_append, firstName?, firstName?_of_notMem hbs]
    by_cases htail : tail bs = true
    · cases hname : nameBefore? before with
      | none => simp [hname]
      | some name => simp [htail, hname]
    · simp [htail]
  | cons a as ih =>
    obtain ⟨ha, has'⟩ := not_or.1 (mt List.mem_cons.2 has)
    rw [List.cons_append, firstName?, if_neg fun h => ha h.1.symm, ih has']
    simp

end MemberIndex.Declaration
