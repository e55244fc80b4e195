import Mathlib.Data.List.Dedup
import Mathlib.Logic.Relation
import MemberIndex.Proofs.Records
import MemberIndex.Store

/-! # What a store keeps

However the hands of a store take turns, no record is lost and none is told twice: what was put
is what came back from the puts and what stands in the end. Under an identity stands the last
record that was put there.
-/

namespace MemberIndex

namespace Records

variable {r s : Records} {i : String} {m : Members}

theorem pairwise_toList (r : Records) : r.toList.Pairwise (·.1 < ·.1) :=
  r.ordered_keys_toList.imp fun h => compareOfLessAndEq_eq_lt.1 h

theorem nodup_identities (r : Records) : (r.toList.map (·.1)).Nodup := by
  apply List.pairwise_map.2
  apply r.pairwise_toList.imp
  intro e f h he
  exact String.lt_irrefl f.1 (he ▸ h)

theorem nodup_toList (r : Records) : r.toList.Nodup := r.nodup_identities.of_map

/-- Records as they are gathered from all their entries, in whatever order these are met. -/
inductive Gathers (r : Records) : Records → Prop
  | intro {entries : List (String × Members)} (h : entries.Perm r.toList) :
    Gathers r ((∅ : Records).putAll entries)

theorem toList_insert_perm (r : Records) (i : String) (m : Members) :
    (r.insert i m).toList.Perm ((i, m) :: r.toList.filter (·.1 ≠ i)) := by
  apply (List.perm_ext_iff_of_nodup (nodup_toList _) _).2
  · rintro ⟨j, n⟩
    by_cases hij : i = j
    · subst hij
      simp [eq_comm]
    · simp [Std.ExtTreeMap.getElem?_insert, hij, Ne.symm hij]
  · refine List.nodup_cons.2 ⟨?_, r.nodup_toList.filter _⟩
    simp

/-- A put takes its entry in and gives back the one that it replaces. -/
theorem entries_put (r : Records) (i : String) (m : Members) :
    ((i, m) :: r.toList).Perm
      (((r.put i m).1.map (i, ·)).toList ++ (r.put i m).2.toList) := by
  have hput : (r.put i m).2.toList.Perm ((i, m) :: r.toList.filter (·.1 ≠ i)) :=
    r.toList_insert_perm i m
  cases hi : r[i]? with
  | none =>
    have hother : r.toList.filter (·.1 ≠ i) = r.toList := by
      apply List.filter_eq_self.2
      rintro ⟨j, n⟩ hmem
      have hn := Std.ExtTreeMap.mem_toList_iff_getElem?_eq_some.1 hmem
      simp only [ne_eq, decide_eq_true_eq]
      rintro rfl
      cases hi.symm.trans hn
    rw [hother] at hput
    simpa [put, hi] using hput.symm
  | some n =>
    have hsame : r.insert i n = r := by
      apply Std.ExtTreeMap.ext_getElem?
      intro j
      by_cases hij : i = j
      · subst hij
        simp [hi]
      · simp [Std.ExtTreeMap.getElem?_insert, hij]
    have hold := r.toList_insert_perm i n
    rw [hsame] at hold
    have hswap := (hold.cons (i, m)).trans (.swap _ _ _)
    simpa [put, hi] using hswap.trans (hput.symm.cons (i, n))

theorem Gathers.eq (h : r.Gathers s) : s = r := by
  cases h with
  | @intro entries h =>
    conv_rhs => rw [← putAll_toList r]
    apply Std.ExtTreeMap.ext_getElem?
    intro i
    have hone : entries.countP (·.1 = i) ≤ 1 := by
      have hcount := List.nodup_iff_count_le_one.1 r.nodup_identities i
      rw [List.count, List.countP_map] at hcount
      rwa [h.countP_eq]
    exact getElem?_putAll_of_perm h hone

theorem gathers_iff : r.Gathers s ↔ s = r := by
  constructor
  · exact Gathers.eq
  · rintro rfl
    have hown := Gathers.intro (.refl s.toList)
    rwa [putAll_toList] at hown

theorem size_putAll (entries : List (String × Members)) :
    ((∅ : Records).putAll entries).size = (entries.map (·.1)).dedup.length := by
  rw [← Std.ExtTreeMap.length_keys]
  apply List.Perm.length_eq
  apply (List.perm_ext_iff_of_nodup Std.ExtTreeMap.nodup_keys (List.nodup_dedup _)).2
  intro i
  rw [Std.ExtTreeMap.mem_keys, mem_putAll_iff, List.mem_dedup]
  simp

end Records

namespace Store

open scoped List

variable {entries : List (List (String × Members))} {s s' : Store}

/-- What holds of a store at any time, told by the puts that were made. -/
structure Accounts (entries : List (List (String × Members))) (s : Store) : Prop where
  inOrder : ∀ hand, (s.puts.filter (·.hand = hand)).map Put.entry ++ s.waiting.getD hand [] =
    entries.getD hand []
  records : s.records = (∅ : Records).putAll (s.puts.map Put.entry)
  first : s.puts.countP (·.replaced.isNone) = s.records.size
  conserved : (s.puts.map Put.entry).Perm (s.puts.filterMap Put.returned? ++ s.records.toList)

theorem accounts_init (entries : List (List (String × Members))) :
    Accounts entries (init entries) where
  inOrder _ := rfl
  records := rfl
  first := rfl
  conserved := .nil

theorem Accounts.put (h : Accounts entries s) {hand : Nat} {e : String × Members}
    {rest : List (String × Members)} (hw : s.waiting[hand]? = some (e :: rest)) :
    Accounts entries (s.put hand e rest) := by
  constructor
  · intro other
    rw [← h.inOrder other]
    by_cases ho : hand = other
    · subst ho
      obtain ⟨hlt, hget⟩ := List.getElem?_eq_some_iff.1 hw
      simp [Store.put, Put.entry, hlt, hget]
    · simp [Store.put, ho]
  · simp [Store.put, Put.entry, h.records, Records.putAll]
  · have hsize := s.records.size_put e.1 e.2
    have hfirst := h.first
    simp only [Store.put, List.countP_append, List.countP_singleton]
    change _ + (if s.records[e.1]?.isNone then 1 else 0) = _
    cases hr : s.records[e.1]? <;> simp [hr] at hsize ⊢ <;> omega
  · have hreturned : (s.put hand e rest).puts.filterMap Put.returned? =
        s.puts.filterMap Put.returned? ++ ((s.records.put e.1 e.2).1.map (e.1, ·)).toList := by
      simp only [Store.put, List.filterMap_append]
      cases hr : (s.records.put e.1 e.2).1 <;> simp [Put.returned?]
    calc (s.put hand e rest).puts.map Put.entry
      _ = s.puts.map Put.entry ++ [e] := List.map_append
      _ ~ e :: s.puts.map Put.entry := List.perm_append_singleton _ _
      _ ~ e :: (s.puts.filterMap Put.returned? ++ s.records.toList) := h.conserved.cons e
      _ ~ s.puts.filterMap Put.returned? ++ e :: s.records.toList := List.perm_middle.symm
      _ ~ _ := by
        rw [hreturned, List.append_assoc]
        exact (s.records.entries_put e.1 e.2).append_left _

theorem Step.accounts (hs : Step s s') (h : Accounts entries s) : Accounts entries s' := by
  cases hs with
  | put hw => exact h.put hw

theorem accounts_of_steps (h : Relation.ReflTransGen Step (init entries) s) :
    Accounts entries s := by
  induction h with
  | refl => exact accounts_init entries
  | tail _ hs ih => exact hs.accounts ih

/-- Any number of hands on a store that was empty, at any time. Each has made its puts in its
order. Under an identity stands what was put there last, and nothing stands under another one.
The puts that replaced nothing are as many as the identities. All that was put was either given
back or stands, each record once. However the records are gathered from the store, they are the
same, in the order of their identities. -/
theorem keeps_every_record (h : Relation.ReflTransGen Step (init entries) s) :
    (∀ hand, (s.puts.filter (·.hand = hand)).map Put.entry ++ s.waiting.getD hand [] =
      entries.getD hand []) ∧
    (∀ i, s.records[i]? = (s.puts.filter (·.identity = i)).getLast?.map (·.members)) ∧
    (s.puts.countP (·.replaced.isNone) = s.records.size ∧
      s.records.size = (s.puts.map (·.identity)).dedup.length) ∧
    (s.puts.map Put.entry).Perm (s.puts.filterMap Put.returned? ++ s.records.toList) ∧
    (∀ r, s.records.Gathers r ↔ r = s.records) ∧
    s.records.toList.Pairwise (·.1 < ·.1) := by
  have hall := accounts_of_steps h
  refine ⟨hall.inOrder, ?_, ⟨hall.first, ?_⟩, hall.conserved, fun r => Records.gathers_iff,
    s.records.pairwise_toList⟩
  · intro i
    rw [hall.records, Records.getElem?_putAll, List.filter_map, List.getLast?_map,
      Std.ExtTreeMap.getElem?_empty, Option.or_none, Option.map_map]
    rfl
  · rw [hall.records, Records.size_putAll, List.map_map]
    rfl

theorem keeps_every_record_of_two_hands :
    ∃ s, Relation.ReflTransGen Step
        (init [[("a", { methods := ["f"] }), ("a", { methods := ["g"] })], [("a", ∅)]]) s ∧
      s.puts.map (·.hand) = [0, 1, 0] ∧ s.records["a"]? = some { methods := ["g"] } ∧
      s.records.size = 1 ∧ [("a", { methods := ["f"] }), ("a", ∅), ("a", { methods := ["g"] })].Perm
        ([("a", { methods := ["f"] }), ("a", ∅)] ++ s.records.toList) := by
  have hfirst := Relation.ReflTransGen.refl.tail (@Step.put (init
    [[("a", { methods := ["f"] }), ("a", { methods := ["g"] })], [("a", ∅)]]) 0 _ _ rfl)
  have hsecond := hfirst.tail (@Step.put _ 1 _ _ rfl)
  have hthird := hsecond.tail (@Step.put _ 0 _ _ rfl)
  obtain ⟨-, hlast, ⟨hfresh, -⟩, hall, -⟩ := keeps_every_record hthird
  exact ⟨_, hthird, rfl, hlast "a", hfresh.symm, hall⟩

end Store

end MemberIndex
