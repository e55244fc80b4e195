import Mathlib.Data.List.TakeWhile
import MemberIndex.Members.Listing

/-! # The names of a text are its longest ones

Reading a text from left to right and taking each qualified name as long as it goes finds the
places where a qualified name stands that lies in no longer one: all of them, nothing else,
in order and apart from each other. A text is read piece by piece, and no name reaches over
the seam between two pieces.
-/

namespace MemberIndex.QualifiedName

variable {as bs cs u v w : List Char} {c : Char}

/-! ## What a name is made of -/

theorem isNameChar_of_isNameStart (hc : isNameStart c = true) : isNameChar c = true := by
  simp [isNameChar, hc]

/-- A text begins in such a way that a name which stands before it may go on into it. -/
def GoesOn (cs : List Char) : Prop :=
  (∃ c ds, cs = c :: ds ∧ isNameChar c = true) ∨
    ∃ c ds, cs = '.' :: c :: ds ∧ isNameStart c = true

theorem GoesOn.mono (hv : GoesOn v) (h : v <+: cs) : GoesOn cs := by
  obtain ⟨t, rfl⟩ := h
  rcases hv with ⟨c, ds, rfl, hc⟩ | ⟨c, ds, rfl, hc⟩
  · exact .inl ⟨c, ds ++ t, rfl, hc⟩
  · exact .inr ⟨c, ds ++ t, rfl, hc⟩

namespace IsIdentifier

theorem takeWhile (hc : isNameStart c = true) (cs : List Char) :
    IsIdentifier (c :: cs.takeWhile isNameChar) := by
  refine ⟨c, _, rfl, hc, ?_⟩
  intro d hd
  exact List.mem_takeWhile_imp hd

theorem exists_start (hw : IsIdentifier w) : ∃ c ds, w = c :: ds ∧ isNameStart c = true := by
  obtain ⟨c, cs, rfl, hc, -⟩ := hw
  exact ⟨c, cs, rfl, hc⟩

theorem isNameChar_of_mem (hw : IsIdentifier w) : ∀ d ∈ w, isNameChar d = true := by
  obtain ⟨c, cs, rfl, hc, hcs⟩ := hw
  rintro d (_ | ⟨_, hd⟩)
  · exact isNameChar_of_isNameStart hc
  · exact hcs d hd

theorem dot_notMem (hw : IsIdentifier w) : '.' ∉ w := by
  intro h
  exact absurd (hw.isNameChar_of_mem _ h) (by decide)

theorem goesOn_of_suffix (hw : IsIdentifier w) (h : v <:+ w) (hv : v ≠ []) : GoesOn v := by
  cases v with
  | nil => exact absurd rfl hv
  | cons d ds => exact .inl ⟨d, ds, rfl, hw.isNameChar_of_mem d (h.subset List.mem_cons_self)⟩

theorem goesOn_of_suffix_dot (hu : IsIdentifier u)
    (hstart : ∃ c ds, w = c :: ds ∧ isNameStart c = true)
    (hw : ∀ v, v <:+ w → v ≠ [] → GoesOn v) (h : v <:+ u ++ '.' :: w) (hv : v ≠ []) :
    GoesOn v := by
  have hdot : GoesOn ('.' :: w) := by
    obtain ⟨c, ds, rfl, hc⟩ := hstart
    exact .inr ⟨c, ds, rfl, hc⟩
  obtain ⟨t, ht⟩ := h
  rcases List.append_eq_append_iff.1 ht with ⟨a, rfl, rfl⟩ | ⟨b, -, hb⟩
  · cases a with
    | nil => exact hdot
    | cons d a => exact .inl ⟨d, a ++ '.' :: w, rfl, hu.isNameChar_of_mem d (by simp)⟩
  · rcases List.cons_eq_append_iff.1 hb with ⟨-, rfl⟩ | ⟨b, -, rfl⟩
    · exact hdot
    · exact hw v (List.suffix_append b v) hv

end IsIdentifier

namespace IsQualified

theorem exists_start (hw : IsQualified w) : ∃ c ds, w = c :: ds ∧ isNameStart c = true := by
  cases hw with
  | two hu | cons hu =>
    obtain ⟨c, cs, rfl, hc⟩ := hu.exists_start
    exact ⟨c, _, rfl, hc⟩

theorem ne_nil (hw : IsQualified w) : w ≠ [] := by
  obtain ⟨c, ds, rfl, -⟩ := hw.exists_start
  exact List.cons_ne_nil c ds

theorem dot_mem (hw : IsQualified w) : '.' ∈ w := by
  cases hw with
  | two | cons => exact List.mem_append_right _ List.mem_cons_self

/-- Wherever a name is cut, what stands behind the cut goes on with it. -/
theorem goesOn_of_suffix (hw : IsQualified w) (h : v <:+ w) (hv : v ≠ []) : GoesOn v := by
  induction hw generalizing v with
  | two hu hw =>
    apply hu.goesOn_of_suffix_dot hw.exists_start _ h hv
    intro v
    exact hw.goesOn_of_suffix
  | cons hu hw ih =>
    apply hu.goesOn_of_suffix_dot hw.exists_start _ h hv
    intro v
    exact ih

end IsQualified

/-! ## How far a name is read -/

theorem tail_fst_append_snd (cs : List Char) : (tail cs).1 ++ (tail cs).2 = cs := by
  fun_induction tail cs with
  | case1 c cs _ name more ih =>
    change '.' :: c :: name ++ (tail (cs.dropWhile isNameChar)).1 ++
      (tail (cs.dropWhile isNameChar)).2 = _
    rw [List.append_assoc, ih]
    exact congrArg ('.' :: c :: ·) (List.takeWhile_append_dropWhile ..)
  | case2 => rfl
  | case3 => rfl

theorem isQualified_append_tail (cs : List Char) :
    (tail cs).1 = [] ∨ ∀ u, IsIdentifier u → IsQualified (u ++ (tail cs).1) := by
  fun_induction tail cs with
  | case1 c cs hc name more ih =>
    right
    intro u hu
    change IsQualified (u ++ '.' :: (c :: name ++ more.1))
    have hname : IsIdentifier (c :: name) := .takeWhile hc cs
    rcases ih with hmore | hmore
    · rw [hmore, List.append_nil]
      exact .two hu hname
    · exact .cons hu (hmore _ hname)
  | case2 => exact .inl rfl
  | case3 => exact .inl rfl

theorem not_isNameChar_dropWhile (cs : List Char) :
    ∀ d ds, cs.dropWhile isNameChar = d :: ds → isNameChar d = false := by
  intro d ds hd
  have hnot := List.head?_dropWhile_not isNameChar cs
  rw [hd] at hnot
  simpa using hnot

theorem not_goesOn_tail (h : ∀ d ds, cs = d :: ds → isNameChar d = false) :
    ¬ GoesOn (tail cs).2 := by
  fun_induction tail cs with
  | case1 c cs hc name more ih =>
    exact ih (not_isNameChar_dropWhile cs)
  | case2 c cs hc =>
    rintro (⟨d, ds, heq, hd⟩ | ⟨d, ds, heq, hd⟩)
    · simp [h d ds heq] at hd
    · cases heq
      exact hc hd
  | case3 cs hcs =>
    rintro (⟨d, ds, heq, hd⟩ | ⟨d, ds, heq, hd⟩)
    · simp [h d ds heq] at hd
    · exact hcs d ds heq

/-! ## Places in a text -/

/-- A place in a text: the word that stands there, what stands before it and what after it. -/
structure Place where
  before : List Char
  word : List Char
  after : List Char

namespace Place

def text (o : Place) : List Char :=
  o.before ++ o.word ++ o.after

def LiesIn (o o' : Place) : Prop :=
  o'.before.length ≤ o.before.length ∧ o'.after.length ≤ o.after.length

/-- A qualified name stands at the place of the text, and in no longer one. -/
structure IsLongestIn (cs : List Char) (o : Place) : Prop where
  text : o.text = cs
  name : IsQualified o.word
  longest : ∀ o' : Place, o'.text = cs → IsQualified o'.word → o.LiesIn o' → o' = o

def upTo (o : Place) (bs : List Char) : Place :=
  { o with after := o.after ++ bs }

def behind (as : List Char) (o : Place) : Place :=
  { o with before := as ++ o.before }

theorem text_upTo (o : Place) (bs : List Char) : (o.upTo bs).text = o.text ++ bs := by
  simp [text, upTo]

theorem text_behind (as : List Char) (o : Place) : (o.behind as).text = as ++ o.text := by
  simp [text, behind]

theorem length_text (o : Place) :
    o.text.length = o.before.length + o.word.length + o.after.length := by
  simp only [text, List.length_append]

end Place

/-- No name of the joined text reaches over the seam. -/
def Severs (as bs : List Char) : Prop :=
  ∀ o : Place, o.text = as ++ bs → IsQualified o.word →
    (∃ p : Place, p.text = as ∧ o = p.upTo bs) ∨ ∃ p : Place, p.text = bs ∧ o = p.behind as

/-- It is enough that no end of the first text and beginning of the second make a name. -/
theorem Severs.intro (h : ∀ u v, u ≠ [] → v ≠ [] → u <:+ as → v <+: bs → ¬ IsQualified (u ++ v)) :
    Severs as bs := by
  rintro ⟨before, word, after⟩ htext hname
  change before ++ word ++ after = as ++ bs at htext
  rw [List.append_assoc] at htext
  rcases List.append_eq_append_iff.1 htext with ⟨u, rfl, hbs⟩ | ⟨d, rfl, rfl⟩
  · rcases List.append_eq_append_iff.1 hbs with ⟨x, rfl, rfl⟩ | ⟨v, rfl, rfl⟩
    · left
      exact ⟨⟨before, word, x⟩, List.append_assoc .., rfl⟩
    · by_cases hu : u = []
      · subst hu
        right
        exact ⟨⟨[], v, after⟩, rfl, by simp [Place.behind]⟩
      · by_cases hv : v = []
        · subst hv
          left
          exact ⟨⟨before, u, []⟩, by simp [Place.text], by simp [Place.upTo]⟩
        · have hnot := h u v hu hv (List.suffix_append before u) (List.prefix_append v after)
          exact absurd hname hnot
  · right
    exact ⟨⟨d, word, after⟩, List.append_assoc .., rfl⟩

theorem Severs.of_not_goesOn (as : List Char) (h : ¬ GoesOn bs) : Severs as bs := by
  apply Severs.intro
  intro u v _ hv _ hprefix hname
  exact h ((hname.goesOn_of_suffix (List.suffix_append u v) hv).mono hprefix)

theorem Severs.singleton (hc : isNameStart c = false) (bs : List Char) : Severs [c] bs := by
  apply Severs.intro
  intro u v hu _ hsuffix _ hname
  obtain ⟨d, ds, heq, hd⟩ := hname.exists_start
  cases u with
  | nil => exact hu rfl
  | cons e u =>
    cases heq
    have he : d = c := by simpa using hsuffix.subset List.mem_cons_self
    simp [he, hc] at hd

namespace Place

variable {o o' : Place} {os os' : List Place}

theorem isLongestIn_upTo (h : Severs as bs) :
    (o.upTo bs).IsLongestIn (as ++ bs) ↔ o.IsLongestIn as := by
  constructor
  · rintro ⟨htext, hname, hlongest⟩
    rw [text_upTo] at htext
    refine ⟨List.append_cancel_right htext, hname, ?_⟩
    intro o' htext' hname' hin
    have heq := hlongest (o'.upTo bs) (by rw [text_upTo, htext']) hname'
      ⟨hin.1, by simpa [upTo] using hin.2⟩
    cases o
    cases o'
    simpa [upTo] using heq
  · rintro ⟨htext, hname, hlongest⟩
    refine ⟨by rw [text_upTo, htext], hname, ?_⟩
    intro o' htext' hname' hin
    rcases h o' htext' hname' with ⟨p, hp, rfl⟩ | ⟨p, -, rfl⟩
    · have heq := hlongest p hp hname' ⟨hin.1, by simpa [upTo] using hin.2⟩
      rw [heq]
    · -- a place behind the seam begins where the word has already ended
      have hpos := List.length_pos_iff.2 hname.ne_nil
      have hlen := o.length_text
      have hbefore := hin.1
      simp only [upTo, behind, List.length_append, htext] at hbefore hlen
      omega

theorem isLongestIn_behind (h : Severs as bs) :
    (o.behind as).IsLongestIn (as ++ bs) ↔ o.IsLongestIn bs := by
  constructor
  · rintro ⟨htext, hname, hlongest⟩
    rw [text_behind] at htext
    refine ⟨List.append_cancel_left htext, hname, ?_⟩
    intro o' htext' hname' hin
    have heq := hlongest (o'.behind as) (by rw [text_behind, htext']) hname'
      ⟨by simpa [behind] using hin.1, hin.2⟩
    cases o
    cases o'
    simpa [behind] using heq
  · rintro ⟨htext, hname, hlongest⟩
    refine ⟨by rw [text_behind, htext], hname, ?_⟩
    intro o' htext' hname' hin
    rcases h o' htext' hname' with ⟨p, -, rfl⟩ | ⟨p, hp, rfl⟩
    · have hpos := List.length_pos_iff.2 hname.ne_nil
      have hlen := o.length_text
      have hafter := hin.2
      simp only [upTo, behind, List.length_append, htext] at hafter hlen
      omega
    · have heq := hlongest p hp hname' ⟨by simpa [behind] using hin.1, hin.2⟩
      rw [heq]

structure AreLongestIn (cs : List Char) (os : List Place) : Prop where
  mem_iff : ∀ o, o ∈ os ↔ o.IsLongestIn cs
  apart : os.Pairwise fun o o' => o.before.length + o.word.length ≤ o'.before.length

namespace AreLongestIn

theorem nil (h : ∀ o : Place, o.text = cs → ¬ IsQualified o.word) : AreLongestIn cs [] where
  mem_iff o := by
    constructor
    · rintro ⟨⟩
    · rintro ⟨htext, hname, -⟩
      exact absurd hname (h o htext)
  apart := .nil

theorem of_dot_notMem (h : '.' ∉ cs) : AreLongestIn cs [] := by
  apply nil
  rintro o rfl hname
  apply h
  simp [text, hname.dot_mem]

theorem of_not_isNameStart (hc : isNameStart c = false) : AreLongestIn [c] [] := by
  apply nil
  intro o htext hname
  obtain ⟨d, ds, heq, hd⟩ := hname.exists_start
  have hmem : d ∈ o.text := by simp [text, heq]
  rw [htext] at hmem
  simp [List.mem_singleton.1 hmem, hc] at hd

theorem singleton (hw : IsQualified w) : AreLongestIn w [⟨[], w, []⟩] where
  mem_iff o := by
    have hwhole : (⟨[], w, []⟩ : Place).text = w := by simp [text]
    constructor
    · rintro (_ | ⟨_, ⟨⟩⟩)
      refine ⟨hwhole, hw, ?_⟩
      rintro ⟨before, word, after⟩ htext - ⟨hbefore, hafter⟩
      have hbefore := List.length_eq_zero_iff.1 (Nat.le_zero.1 hbefore)
      have hafter := List.length_eq_zero_iff.1 (Nat.le_zero.1 hafter)
      subst hbefore hafter
      simpa [text] using htext
    · rintro ⟨-, -, hlongest⟩
      rw [← hlongest _ hwhole hw ⟨Nat.zero_le _, Nat.zero_le _⟩]
      exact List.mem_singleton_self _
  apart := List.pairwise_singleton ..

theorem append (h : Severs as bs) (hos : AreLongestIn as os) (hos' : AreLongestIn bs os') :
    AreLongestIn (as ++ bs) (os.map (·.upTo bs) ++ os'.map (·.behind as)) where
  mem_iff o := by
    rw [List.mem_append, List.mem_map, List.mem_map]
    constructor
    · rintro (⟨p, hp, rfl⟩ | ⟨p, hp, rfl⟩)
      · exact (isLongestIn_upTo h).2 ((hos.mem_iff p).1 hp)
      · exact (isLongestIn_behind h).2 ((hos'.mem_iff p).1 hp)
    · intro ho
      rcases h o ho.text ho.name with ⟨p, -, rfl⟩ | ⟨p, -, rfl⟩
      · exact .inl ⟨p, (hos.mem_iff p).2 ((isLongestIn_upTo h).1 ho), rfl⟩
      · exact .inr ⟨p, (hos'.mem_iff p).2 ((isLongestIn_behind h).1 ho), rfl⟩
  apart := by
    rw [List.pairwise_append, List.pairwise_map, List.pairwise_map]
    refine ⟨hos.apart, ?_, ?_⟩
    · apply hos'.apart.imp
      intro o o' hapart
      simp only [behind, List.length_append]
      omega
    · intro p hp q hq
      obtain ⟨o, ho, rfl⟩ := List.mem_map.1 hp
      obtain ⟨o', -, rfl⟩ := List.mem_map.1 hq
      have hlen := o.length_text
      rw [((hos.mem_iff o).1 ho).text] at hlen
      simp only [upTo, behind, List.length_append]
      omega

end AreLongestIn

end Place

/-! ## What is found -/

/-- The names that are found stand at the longest places of the text, from left to right. -/
theorem findAll_spec (cs : List Char) :
    ∃ os : List Place, findAll cs = os.map (·.word) ∧ Place.AreLongestIn cs os := by
  fun_induction findAll cs with
  | case1 => exact ⟨[], rfl, .of_dot_notMem List.not_mem_nil⟩
  | case2 c cs hc more hnil ih =>
    have hident : IsIdentifier (c :: cs.takeWhile isNameChar) := .takeWhile hc cs
    obtain ⟨os, hos, hlongest⟩ := ih
    have hseam := Severs.of_not_goesOn (c :: cs.takeWhile isNameChar)
      (not_goesOn_tail (not_isNameChar_dropWhile cs))
    have hjoined := (Place.AreLongestIn.of_dot_notMem hident.dot_notMem).append hseam hlongest
    have htext : (tail (cs.dropWhile isNameChar)).2 = cs.dropWhile isNameChar := by
      have := tail_fst_append_snd (cs.dropWhile isNameChar)
      rwa [hnil] at this
    rw [htext, List.cons_append, List.takeWhile_append_dropWhile] at hjoined
    refine ⟨_, ?_, hjoined⟩
    rw [List.map_append, List.map_map, List.map_map, hos]
    rfl
  | case3 c cs hc name more hne ih =>
    have hname : IsQualified (name ++ more.1) :=
      (isQualified_append_tail (cs.dropWhile isNameChar)).resolve_left hne name (.takeWhile hc cs)
    obtain ⟨os, hos, hlongest⟩ := ih
    have hseam := Severs.of_not_goesOn (name ++ more.1)
      (not_goesOn_tail (not_isNameChar_dropWhile cs))
    have hjoined := (Place.AreLongestIn.singleton hname).append hseam hlongest
    have htext : name ++ more.1 ++ more.2 = c :: cs := by
      rw [List.append_assoc, tail_fst_append_snd]
      exact congrArg (c :: ·) (List.takeWhile_append_dropWhile ..)
    rw [htext] at hjoined
    refine ⟨_, ?_, hjoined⟩
    rw [List.map_append, List.map_map, List.map_map, hos]
    rfl
  | case4 c cs hc ih =>
    obtain ⟨os, hos, hlongest⟩ := ih
    have hstart : isNameStart c = false := by simpa using hc
    have hjoined := (Place.AreLongestIn.of_not_isNameStart hstart).append
      (Severs.singleton hstart cs) hlongest
    refine ⟨_, ?_, hjoined⟩
    rw [List.map_append, List.map_map, List.map_map, hos]
    rfl

end MemberIndex.QualifiedName

namespace MemberIndex.Members

open QualifiedName (Place)

theorem mem_dependencies_scanLine (m : Members) (line d : String) :
    d ∈ (m.scanLine line).dependencies ↔ d ∈ m.dependencies ∨ d ∈ namesIn line := by
  change d ∈ m.dependencies ∪ Std.ExtTreeSet.ofList (namesIn line) ↔ _
  rw [Std.ExtTreeSet.mem_union_iff, Std.ExtTreeSet.mem_ofList, List.contains_iff_mem]

/-- A line adds to the dependencies the words of its longest places, those and no others:
the names that are found in it, from left to right, are these words place by place. -/
theorem dependencies_longest (m : Members) (line : String) :
    (∀ d : String, d ∈ (m.scanLine line).dependencies ↔
      d ∈ m.dependencies ∨ ∃ o : Place, o.IsLongestIn line.toList ∧ d = String.ofList o.word) ∧
    ∃ os : List Place, Place.AreLongestIn line.toList os ∧
      namesIn line = os.map fun o => String.ofList o.word := by
  obtain ⟨os, hfound, hlongest⟩ := QualifiedName.findAll_spec line.toList
  have hnames : namesIn line = os.map fun o => String.ofList o.word := by
    rw [namesIn, hfound, List.map_map]
    rfl
  constructor
  · intro d
    rw [mem_dependencies_scanLine, hnames, List.mem_map]
    apply or_congr_right
    constructor
    · rintro ⟨o, ho, rfl⟩
      exact ⟨o, (hlongest.mem_iff o).1 ho, rfl⟩
    · rintro ⟨o, ho, rfl⟩
      exact ⟨o, (hlongest.mem_iff o).2 ho, rfl⟩
  · exact ⟨os, hlongest, hnames⟩

/-- Digits, dots and letters that touch a name are left out or taken in as they may be. -/
example : namesIn "3a.b.4c.d..e.f" = ["a.b", "c.d", "e.f"] := by cbv

end MemberIndex.Members
