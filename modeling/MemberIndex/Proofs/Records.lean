import Mathlib.Data.List.Induction
import MemberIndex.Records

/-! # Records put one after another

What stands under an identity once entries have been put is the last of them that has the
identity, or what stood there before.
-/

namespace MemberIndex.Records

def putAll (r : Records) (entries : List (String × Members)) : Records :=
  entries.foldl (fun r e => (r.put e.1 e.2).2) r

variable {r : Records} {entries : List (String × Members)} {i : String} {m : Members}

theorem putAll_append (r : Records) (es fs : List (String × Members)) :
    r.putAll (es ++ fs) = (r.putAll es).putAll fs := List.foldl_append

theorem getElem?_putAll (r : Records) (entries : List (String × Members)) (i : String) :
    (r.putAll entries)[i]? = ((entries.filter (·.1 = i)).getLast?.map (·.2)).or r[i]? := by
  induction entries using List.reverseRecOn with
  | nil => simp [putAll]
  | append_singleton es e ih =>
    rw [putAll_append]
    change ((r.putAll es).put e.1 e.2).2[i]? = _
    rw [getElem?_put, ih]
    by_cases he : e.1 = i <;> simp [List.filter_append, he]

theorem getElem?_putAll_of_forall_ne (h : ∀ e ∈ entries, e.1 ≠ i) :
    (r.putAll entries)[i]? = r[i]? := by
  have : entries.filter (·.1 = i) = [] := by simpa using h
  rw [getElem?_putAll, this]
  rfl

theorem mem_of_getElem?_putAll (h : (r.putAll entries)[i]? = some m) :
    (i, m) ∈ entries ∨ r[i]? = some m := by
  rw [getElem?_putAll] at h
  cases hl : (entries.filter (·.1 = i)).getLast? with
  | none => exact .inr (by simpa [hl] using h)
  | some e =>
    obtain ⟨hmem, hi⟩ := List.mem_filter.1 (List.mem_of_getLast? hl)
    obtain rfl := of_decide_eq_true hi
    obtain rfl : e.2 = m := by simpa [hl] using h
    exact .inl hmem

theorem exists_getElem?_putAll (h : (i, m) ∈ entries) :
    ∃ n, (i, n) ∈ entries ∧ (r.putAll entries)[i]? = some n := by
  have hne : entries.filter (·.1 = i) ≠ [] := List.ne_nil_of_mem (List.mem_filter.2 ⟨h, by simp⟩)
  obtain ⟨e, he⟩ : ∃ e, (entries.filter (·.1 = i)).getLast? = some e :=
    ⟨_, List.getLast?_eq_some_getLast hne⟩
  obtain ⟨hmem, hi⟩ := List.mem_filter.1 (List.mem_of_getLast? he)
  obtain rfl := of_decide_eq_true hi
  exact ⟨e.2, hmem, by simp [getElem?_putAll, he]⟩

theorem putAll_toList (r : Records) : (∅ : Records).putAll r.toList = r := by
  apply Std.ExtTreeMap.ext_getElem?
  intro i
  cases hi : r[i]? with
  | none =>
    rw [getElem?_putAll_of_forall_ne]
    · simp
    · rintro ⟨j, m⟩ hm rfl
      rw [Std.ExtTreeMap.mem_toList_iff_getElem?_eq_some] at hm
      cases hi.symm.trans hm
  | some m =>
    obtain ⟨n, hn, hput⟩ := exists_getElem?_putAll (r := ∅)
      (Std.ExtTreeMap.mem_toList_iff_getElem?_eq_some.2 hi)
    rw [hput, ← hi]
    exact (Std.ExtTreeMap.mem_toList_iff_getElem?_eq_some.1 hn).symm

theorem mem_putAll_iff : i ∈ r.putAll entries ↔ i ∈ r ∨ ∃ m, (i, m) ∈ entries := by
  rw [Std.ExtTreeMap.mem_iff_isSome_getElem?, Std.ExtTreeMap.mem_iff_isSome_getElem?]
  by_cases h : ∃ m, (i, m) ∈ entries
  · obtain ⟨m, hm⟩ := h
    obtain ⟨n, -, hn⟩ := exists_getElem?_putAll (r := r) hm
    simpa [hn] using Or.inr ⟨m, hm⟩
  · rw [getElem?_putAll_of_forall_ne]
    · simp [h]
    · rintro ⟨j, m⟩ hm rfl
      exact h ⟨m, hm⟩

theorem size_put (r : Records) (i : String) (m : Members) :
    (r.put i m).2.size + (if r[i]?.isSome then 1 else 0) = r.size + 1 := by
  rw [put, Std.ExtTreeMap.size_insert, ← Std.ExtTreeMap.contains_eq_isSome_getElem?]
  split <;> rfl

theorem size_putAll_of_nodup (h : (entries.map (·.1)).Nodup) :
    ((∅ : Records).putAll entries).size = entries.length := by
  have hp : ((∅ : Records).putAll entries).keys.Perm (entries.map (·.1)) := by
    rw [List.perm_ext_iff_of_nodup Std.ExtTreeMap.nodup_keys h]
    intro i
    rw [Std.ExtTreeMap.mem_keys, mem_putAll_iff]
    simp
  rw [← Std.ExtTreeMap.length_keys, hp.length_eq, List.length_map]

theorem getElem?_putAll_of_filter_perm {es fs : List (String × Members)}
    (hp : (es.filter (·.1 = i)).Perm (fs.filter (·.1 = i))) (hone : es.countP (·.1 = i) ≤ 1) :
    (r.putAll es)[i]? = (r.putAll fs)[i]? := by
  rw [List.countP_eq_length_filter] at hone
  have heq : es.filter (·.1 = i) = fs.filter (·.1 = i) := by
    cases hl : es.filter (·.1 = i) with
    | nil => exact (List.nil_perm.1 (hl ▸ hp)).symm
    | cons e rest =>
      obtain rfl : rest = [] := by
        rw [hl] at hone
        exact List.length_eq_zero_iff.1 (Nat.le_zero.1 (Nat.le_of_succ_le_succ hone))
      exact List.singleton_perm.1 (hl ▸ hp)
  rw [getElem?_putAll, getElem?_putAll, heq]

/-- Where at most one entry was put, the order of the entries is of no matter. -/
theorem getElem?_putAll_of_perm {es fs : List (String × Members)} (hp : es.Perm fs)
    (hone : es.countP (·.1 = i) ≤ 1) : (r.putAll es)[i]? = (r.putAll fs)[i]? :=
  getElem?_putAll_of_filter_perm (hp.filter _) hone

theorem size_eq_of_mem_iff {r s : Records} (h : ∀ i, i ∈ r ↔ i ∈ s) : r.size = s.size := by
  have hp : r.keys.Perm s.keys := by
    rw [List.perm_ext_iff_of_nodup Std.ExtTreeMap.nodup_keys Std.ExtTreeMap.nodup_keys]
    intro i
    rw [Std.ExtTreeMap.mem_keys, Std.ExtTreeMap.mem_keys]
    exact h i
  rw [← Std.ExtTreeMap.length_keys, ← Std.ExtTreeMap.length_keys]
  exact hp.length_eq

end MemberIndex.Records
