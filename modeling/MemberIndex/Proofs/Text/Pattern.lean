import MemberIndex.Proofs.Text.Run
import MemberIndex.Text.Pattern

/-! # What a pattern reads

The words of a pattern are described without regard to the order in which they are tried: a
reading of a text is a word of the pattern that the text begins with. Where a pattern is found,
none of its words begins earlier.
-/

namespace MemberIndex.Text.Pattern

variable {p : Char → Bool} {r s : Pattern} {u v w cs : List Char} {g : Option (List Char)}

/-- The words of a pattern, each with what the group keeps of it. -/
inductive Reads : Pattern → List Char → Option (List Char) → Prop where
  | one {p : Char → Bool} {c : Char} (hc : p c = true) : Reads (one p) [c] none
  | empty : Reads empty [] none
  | seq {r s : Pattern} {u v : List Char} {k l : Option (List Char)}
      (hr : Reads r u k) (hs : Reads s v l) : Reads (seq r s) (u ++ v) (l.or k)
  | left {r s : Pattern} {w : List Char} {g : Option (List Char)} (h : Reads r w g) :
      Reads (alt r s) w g
  | right {r s : Pattern} {w : List Char} {g : Option (List Char)} (h : Reads s w g) :
      Reads (alt r s) w g
  | stop {r : Pattern} : Reads (many r) [] none
  | more {r : Pattern} {u v : List Char} {k l : Option (List Char)} (hr : Reads r u k)
      (hu : u ≠ []) (h : Reads (many r) v l) : Reads (many r) (u ++ v) (l.or k)
  | group {r : Pattern} {w : List Char} {g : Option (List Char)} (h : Reads r w g) :
      Reads (group r) w (some w)

/-! ## Readings are words -/

theorem mem_repeated_iff {f : List Char → List Reading} {x : Reading} :
    x ∈ repeated f cs ↔ x = ⟨[], cs, none⟩ ∨
      ∃ y ∈ f cs, y.rest.length < cs.length ∧ ∃ z ∈ repeated f y.rest, y.andThen z = x := by
  rw [repeated, List.mem_append, List.mem_flatMap, List.mem_singleton, or_comm]
  apply or_congr_right
  apply exists_congr
  intro y
  apply and_congr_right
  intro _
  by_cases hlt : y.rest.length < cs.length
  · simp [hlt]
  · simp [hlt]

theorem reads_of_mem_repeated
    (hr : ∀ cs, ∀ x ∈ r.readings cs, r.Reads x.word x.kept ∧ x.word ++ x.rest = cs) {x : Reading}
    (hx : x ∈ repeated r.readings cs) : (many r).Reads x.word x.kept ∧ x.word ++ x.rest = cs := by
  induction hn : cs.length using Nat.strongRecOn generalizing cs x with
  | _ n ih =>
    subst hn
    rcases mem_repeated_iff.1 hx with rfl | ⟨y, hy, hlt, z, hz, rfl⟩
    · exact ⟨.stop, rfl⟩
    · obtain ⟨hword, hcs⟩ := hr cs y hy
      obtain ⟨hmore, hrest⟩ := ih _ hlt hz rfl
      have hne : y.word ≠ [] := by
        intro hnil
        rw [hnil, List.nil_append] at hcs
        exact absurd hlt (by simp [hcs])
      refine ⟨.more hword hne hmore, ?_⟩
      rw [← hcs, ← hrest]
      exact List.append_assoc ..

theorem reads_of_mem_readings {x : Reading} (hx : x ∈ r.readings cs) :
    r.Reads x.word x.kept ∧ x.word ++ x.rest = cs := by
  induction r generalizing cs x with
  | one p =>
    cases cs with
    | nil => cases hx
    | cons c cs =>
      by_cases hc : p c = true
      · obtain rfl : x = ⟨[c], cs, none⟩ := by simpa [readings, hc] using hx
        exact ⟨.one hc, rfl⟩
      · simp [readings, hc] at hx
  | empty =>
    obtain rfl := List.mem_singleton.1 hx
    exact ⟨.empty, rfl⟩
  | seq r s ihr ihs =>
    obtain ⟨y, hy, hx⟩ := List.mem_flatMap.1 hx
    obtain ⟨z, hz, rfl⟩ := List.mem_map.1 hx
    obtain ⟨hyword, hcs⟩ := ihr hy
    obtain ⟨hzword, hrest⟩ := ihs hz
    refine ⟨.seq hyword hzword, ?_⟩
    rw [← hcs, ← hrest]
    exact List.append_assoc ..
  | alt r s ihr ihs =>
    rcases List.mem_append.1 hx with hx | hx
    · exact ⟨.left (ihr hx).1, (ihr hx).2⟩
    · exact ⟨.right (ihs hx).1, (ihs hx).2⟩
  | many r ih => exact reads_of_mem_repeated (fun _ _ => ih) hx
  | group r ih =>
    obtain ⟨y, hy, rfl⟩ := List.mem_map.1 hx
    exact ⟨.group (ih hy).1, (ih hy).2⟩

theorem Reads.mem_readings (h : r.Reads w g) (rest : List Char) :
    ⟨w, rest, g⟩ ∈ r.readings (w ++ rest) := by
  induction h generalizing rest with
  | one hc => simp [readings, hc]
  | empty => simp [readings]
  | @seq r s u v k l _ _ ihr ihs =>
    rw [List.append_assoc]
    exact List.mem_flatMap.2 ⟨_, ihr (v ++ rest), List.mem_map.2 ⟨_, ihs rest, rfl⟩⟩
  | left _ ih => exact List.mem_append_left _ (ih rest)
  | right _ ih => exact List.mem_append_right _ (ih rest)
  | stop => exact mem_repeated_iff.2 (.inl rfl)
  | @more r u v k l _ hu _ ihr ih =>
    have hlt : (v ++ rest).length < (u ++ (v ++ rest)).length := by
      have := List.length_pos_iff.2 hu
      simp only [List.length_append]
      omega
    rw [List.append_assoc]
    exact mem_repeated_iff.2 (.inr ⟨_, ihr (v ++ rest), hlt, _, ih rest, rfl⟩)
  | group _ ih => exact List.mem_map.2 ⟨_, ih rest, rfl⟩

/-! ## Where a pattern is found -/

def Begins (r : Pattern) (cs : List Char) : Prop :=
  ∃ w rest g, cs = w ++ rest ∧ r.Reads w g

theorem begins_iff : r.Begins cs ↔ r.readings cs ≠ [] := by
  constructor
  · rintro ⟨w, rest, g, rfl, h⟩
    exact List.ne_nil_of_mem (h.mem_readings rest)
  · intro h
    obtain ⟨x, hx⟩ := List.exists_mem_of_ne_nil _ h
    obtain ⟨hword, hcs⟩ := reads_of_mem_readings hx
    exact ⟨x.word, x.rest, x.kept, hcs.symm, hword⟩

theorem find?_cons (c : Char) (cs : List Char) :
    r.find? (c :: cs) = (r.readings (c :: cs)).head?.or (r.find? cs) := rfl

/-- A pattern is found where one of its words begins, and none of them begins earlier. -/
theorem find?_eq_some {x : Reading} (h : r.find? cs = some x) :
    ∃ before, cs = before ++ (x.word ++ x.rest) ∧ r.Reads x.word x.kept ∧
      ∀ b bs, cs = b ++ bs → r.Begins bs → before.length ≤ b.length := by
  induction cs with
  | nil =>
    obtain ⟨hword, hcs⟩ := reads_of_mem_readings (List.mem_of_mem_head? h)
    exact ⟨[], hcs.symm, hword, fun _ _ _ _ => Nat.zero_le _⟩
  | cons c cs ih =>
    rw [find?_cons] at h
    cases hhead : (r.readings (c :: cs)).head? with
    | some y =>
      obtain rfl : y = x := by simpa [hhead] using h
      obtain ⟨hword, hcs⟩ := reads_of_mem_readings (List.mem_of_mem_head? hhead)
      exact ⟨[], hcs.symm, hword, fun _ _ _ _ => Nat.zero_le _⟩
    | none =>
      rw [hhead] at h
      obtain ⟨before, hcs, hword, hfirst⟩ := ih h
      refine ⟨c :: before, congrArg (c :: ·) hcs, hword, ?_⟩
      intro b bs hsplit hbegins
      cases b with
      | nil =>
        rw [List.nil_append] at hsplit
        rw [← hsplit, begins_iff] at hbegins
        exact absurd (List.head?_eq_none_iff.1 hhead) hbegins
      | cons d b =>
        obtain ⟨rfl, hcs'⟩ := List.cons.inj hsplit
        exact Nat.succ_le_succ (hfirst b bs hcs' hbegins)

theorem Begins.isSome_find? (h : r.Begins cs) (before : List Char) :
    (r.find? (before ++ cs)).isSome = true := by
  induction before with
  | nil =>
    have hhead := List.isSome_head?.2 (begins_iff.1 h)
    rw [List.nil_append]
    cases cs with
    | nil => exact hhead
    | cons c cs => rw [find?_cons, Option.isSome_or, hhead, Bool.true_or]
  | cons c before ih =>
    rw [List.cons_append, find?_cons, Option.isSome_or, ih, Bool.or_true]

theorem findAll_eq (hr : ∀ u k, r.Reads u k → u ≠ []) (cs : List Char) :
    r.findAll cs = (r.find? cs).elim [] fun x => x.word :: r.findAll x.rest := by
  rw [findAll]
  cases hfind : r.find? cs with
  | none => rfl
  | some x =>
    obtain ⟨before, rfl, hword, -⟩ := find?_eq_some hfind
    have := List.length_pos_iff.2 (hr x.word x.kept hword)
    have hlt : x.rest.length < (before ++ (x.word ++ x.rest)).length := by
      simp only [List.length_append]
      omega
    exact if_pos hlt

/-! ## The words of a pattern, from its parts -/

theorem Reads.eq_none (h : r.Reads w g) (hr : r.hasGroup = false) : g = none := by
  induction h with
  | one | empty | stop => rfl
  | seq _ _ ihr ihs =>
    obtain ⟨hr, hs⟩ := Bool.or_eq_false_iff.1 hr
    rw [ihr hr, ihs hs]
    rfl
  | left _ ih => exact ih (Bool.or_eq_false_iff.1 hr).1
  | right _ ih => exact ih (Bool.or_eq_false_iff.1 hr).2
  | more _ _ _ ihr ih =>
    rw [ihr hr, ih hr]
    rfl
  | group => cases hr

theorem reads_one_iff : (one p).Reads w g ↔ ∃ c, p c = true ∧ w = [c] ∧ g = none := by
  constructor
  · rintro ⟨hc⟩
    exact ⟨_, hc, rfl, rfl⟩
  · rintro ⟨c, hc, rfl, rfl⟩
    exact .one hc

theorem reads_empty_iff : empty.Reads w g ↔ w = [] ∧ g = none := by
  constructor
  · rintro ⟨⟩
    exact ⟨rfl, rfl⟩
  · rintro ⟨rfl, rfl⟩
    exact .empty

theorem reads_seq_iff : (seq r s).Reads w g ↔
    ∃ u v k l, r.Reads u k ∧ s.Reads v l ∧ w = u ++ v ∧ g = l.or k := by
  constructor
  · rintro ⟨⟩
    exact ⟨_, _, _, _, ‹_›, ‹_›, rfl, rfl⟩
  · rintro ⟨u, v, k, l, hr, hs, rfl, rfl⟩
    exact .seq hr hs

theorem reads_alt_iff : (alt r s).Reads w g ↔ r.Reads w g ∨ s.Reads w g := by
  constructor
  · intro h
    cases h with
    | left h => exact .inl h
    | right h => exact .inr h
  · rintro (h | h)
    · exact .left h
    · exact .right h

theorem reads_group_iff : (group r).Reads w g ↔ g = some w ∧ ∃ k, r.Reads w k := by
  constructor
  · rintro ⟨⟩
    exact ⟨rfl, _, ‹_›⟩
  · rintro ⟨rfl, k, h⟩
    exact .group h

theorem reads_seq_iff_of_plain (hr : r.hasGroup = false) : (seq r s).Reads w g ↔
    ∃ u v, r.Reads u none ∧ s.Reads v g ∧ w = u ++ v := by
  rw [reads_seq_iff]
  constructor
  · rintro ⟨u, v, k, l, hu, hv, rfl, rfl⟩
    obtain rfl := hu.eq_none hr
    rw [Option.or_none]
    exact ⟨u, v, hu, hv, rfl⟩
  · rintro ⟨u, v, hu, hv, rfl⟩
    exact ⟨u, v, none, g, hu, hv, rfl, (Option.or_none ..).symm⟩

theorem reads_just_iff {c : Char} : (just c).Reads w g ↔ w = [c] ∧ g = none := by
  rw [just, reads_one_iff]
  simp

theorem reads_text_iff : (text cs).Reads w g ↔ w = cs ∧ g = none := by
  induction cs generalizing w g with
  | nil => exact reads_empty_iff
  | cons c cs ih =>
    change (seq (just c) (text cs)).Reads w g ↔ _
    rw [reads_seq_iff_of_plain rfl]
    simp only [reads_just_iff, ih, and_true]
    constructor
    · rintro ⟨u, v, rfl, ⟨rfl, rfl⟩, rfl⟩
      exact ⟨rfl, rfl⟩
    · rintro ⟨rfl, rfl⟩
      exact ⟨[c], cs, rfl, ⟨rfl, rfl⟩, rfl⟩

theorem hasGroup_text (cs : List Char) : (text cs).hasGroup = false := by
  induction cs with
  | nil => rfl
  | cons c cs ih => exact ih

theorem hasGroup_anyOf (words : List String) : (anyOf words).hasGroup = false := by
  induction words with
  | nil => rfl
  | cons x words ih => exact Bool.or_eq_false_iff.2 ⟨hasGroup_text x.toList, ih⟩

theorem exists_mem_of_reads_anyOf {words : List String} (h : (anyOf words).Reads w g) :
    ∃ x ∈ words, w = x.toList := by
  induction words with
  | nil =>
    obtain ⟨c, hc, -⟩ := reads_one_iff.1 h
    cases hc
  | cons x words ih =>
    rcases reads_alt_iff.1 h with h | h
    · exact ⟨x, List.mem_cons_self, (reads_text_iff.1 h).1⟩
    · obtain ⟨y, hy, rfl⟩ := ih h
      exact ⟨y, List.mem_cons_of_mem _ hy, rfl⟩

theorem notMem_of_reads_many {c : Char} (hr : ∀ u k, r.Reads u k → c ∉ u)
    (h : (many r).Reads w g) : c ∉ w := by
  generalize hm : many r = m at h
  induction h with
  | one | empty | seq | left | right | group => cases hm
  | stop => exact List.not_mem_nil
  | more hu _ _ _ ih =>
    cases hm
    rw [List.mem_append, not_or]
    exact ⟨hr _ _ hu, ih rfl⟩

theorem reads_many_one_iff :
    (many (one p)).Reads w g ↔ (∀ c ∈ w, p c = true) ∧ g = none := by
  constructor
  · intro h
    refine ⟨?_, h.eq_none rfl⟩
    generalize hm : many (one p) = m at h
    induction h with
    | one | empty | seq | left | right | group => cases hm
    | stop => exact nofun
    | more hu _ _ _ ih =>
      cases hm
      obtain ⟨c, hc, rfl, -⟩ := reads_one_iff.1 hu
      rintro d (_ | ⟨_, hd⟩)
      · exact hc
      · exact ih rfl d hd
  · rintro ⟨hw, rfl⟩
    induction w with
    | nil => exact .stop
    | cons c w ih =>
      have hc := hw c List.mem_cons_self
      exact .more (.one hc) (List.cons_ne_nil _ _) (ih fun d hd => hw d (List.mem_cons_of_mem _ hd))

theorem reads_oneOrMore_one_iff : (oneOrMore (one p)).Reads w g ↔ IsRun p w ∧ g = none := by
  rw [oneOrMore, reads_seq_iff_of_plain rfl]
  simp only [reads_one_iff, reads_many_one_iff, and_true]
  constructor
  · rintro ⟨_, v, ⟨c, hc, rfl⟩, ⟨hv, rfl⟩, rfl⟩
    refine ⟨⟨List.cons_ne_nil _ _, ?_⟩, rfl⟩
    rintro d (_ | ⟨_, hd⟩)
    · exact hc
    · exact hv d hd
  · rintro ⟨⟨hne, hall⟩, rfl⟩
    obtain ⟨c, v, rfl⟩ := List.exists_cons_of_ne_nil hne
    refine ⟨[c], v, ⟨c, hall c List.mem_cons_self, rfl⟩, ⟨?_, rfl⟩, rfl⟩
    intro d hd
    exact hall d (List.mem_cons_of_mem _ hd)

/-! ## What is tried first -/

theorem readings_one_of_pos {c : Char} (hc : p c = true) (cs : List Char) :
    (one p).readings (c :: cs) = [⟨[c], cs, none⟩] := by
  rw [readings, if_pos hc]

theorem readings_one_of_neg {c : Char} (hc : ¬ p c = true) (cs : List Char) :
    (one p).readings (c :: cs) = [] := by
  rw [readings, if_neg hc]

theorem readings_seq_of_nil (h : r.readings cs = []) : (seq r s).readings cs = [] := by
  rw [readings, h, List.flatMap_nil]

theorem head?_readings_seq {x y : Reading} (hx : (r.readings cs).head? = some x)
    (hy : (s.readings x.rest).head? = some y) :
    ((seq r s).readings cs).head? = some (x.andThen y) := by
  obtain ⟨xs, hxs⟩ := List.head?_eq_some_iff.1 hx
  obtain ⟨ys, hys⟩ := List.head?_eq_some_iff.1 hy
  rw [readings, hxs, List.flatMap_cons, hys]
  rfl

theorem readings_many_of_nil (h : r.readings cs = []) :
    (many r).readings cs = [⟨[], cs, none⟩] := by
  rw [readings, repeated, h]
  rfl

theorem head?_readings_many {x y : Reading} (hx : (r.readings cs).head? = some x)
    (hlt : x.rest.length < cs.length) (hy : ((many r).readings x.rest).head? = some y) :
    ((many r).readings cs).head? = some (x.andThen y) := by
  obtain ⟨xs, hxs⟩ := List.head?_eq_some_iff.1 hx
  obtain ⟨ys, hys⟩ := List.head?_eq_some_iff.1 hy
  rw [readings] at hys ⊢
  rw [repeated, hxs, List.flatMap_cons, if_pos hlt, hys]
  rfl

theorem readings_many_one_cons {c : Char} (hc : p c = true) (cs : List Char) :
    (many (one p)).readings (c :: cs) =
      ((many (one p)).readings cs).map (Reading.andThen ⟨[c], cs, none⟩) ++
        [⟨[], c :: cs, none⟩] := by
  have hlt : cs.length < (c :: cs).length := Nat.lt_succ_self _
  rw [readings, repeated, readings_one_of_pos hc, List.flatMap_singleton, if_pos hlt, readings]

theorem head?_readings_many_one (cs : List Char) : ((many (one p)).readings cs).head? =
    some ⟨cs.takeWhile p, cs.dropWhile p, none⟩ := by
  induction cs with
  | nil =>
    rw [readings_many_of_nil rfl]
    rfl
  | cons c cs ih =>
    by_cases hc : p c = true
    · rw [readings_many_one_cons hc, List.head?_append, List.head?_map, ih,
        List.takeWhile_cons_of_pos hc, List.dropWhile_cons_of_pos hc]
      rfl
    · rw [readings_many_of_nil (readings_one_of_neg hc cs), List.takeWhile_cons_of_neg hc,
        List.dropWhile_cons_of_neg hc]
      rfl

/-- Only as many characters of a class as there are can stand before what does not begin with
one of them. -/
theorem readings_seq_many_one (hs : ∀ c cs, p c = true → s.readings (c :: cs) = [])
    (cs : List Char) : (seq (many (one p)) s).readings cs =
      (s.readings (cs.dropWhile p)).map
        (Reading.andThen ⟨cs.takeWhile p, cs.dropWhile p, none⟩) := by
  induction cs with
  | nil =>
    rw [readings, readings_many_of_nil rfl, List.flatMap_singleton]
    rfl
  | cons c cs ih =>
    by_cases hc : p c = true
    · rw [readings] at ih
      rw [readings, readings_many_one_cons hc, List.flatMap_append, List.flatMap_singleton,
        hs c cs hc, List.map_nil, List.append_nil, List.flatMap_map]
      have hmap (x : Reading) : (s.readings x.rest).map
          (Reading.andThen ⟨[c], cs, none⟩ x).andThen =
          ((s.readings x.rest).map x.andThen).map (Reading.andThen ⟨[c], cs, none⟩) := by
        rw [List.map_map]
        exact List.map_congr_left fun y _ => Reading.andThen_assoc _ x y
      change ((many (one p)).readings cs).flatMap (fun x => (s.readings x.rest).map
        (Reading.andThen ⟨[c], cs, none⟩ x).andThen) = _
      simp only [hmap]
      rw [← List.map_flatMap, ih, List.map_map, List.takeWhile_cons_of_pos hc,
        List.dropWhile_cons_of_pos hc]
      exact List.map_congr_left fun y _ => (Reading.andThen_assoc ⟨[c], cs, none⟩ _ y).symm
    · rw [readings, readings_many_of_nil (readings_one_of_neg hc cs), List.flatMap_singleton,
        List.takeWhile_cons_of_neg hc, List.dropWhile_cons_of_neg hc]

end MemberIndex.Text.Pattern
