import MemberIndex.Proofs.Run.Carried
import MemberIndex.Proofs.Run.Finish

/-! # Conservation

The accounts of a finished run balance: every task is counted once, every record that was
put either stands or was replaced, and every line that was read has been submitted.
-/

namespace MemberIndex

theorem isLE_compare_iff (a b : String) : (compare a b).isLE = true ↔ a ≤ b :=
  isLE_compareOfLessAndEq String.le_antisymm String.not_le String.le_total

namespace Shared

variable (s : Shared) (n : Nat)

theorem tally_failures_perm : (s.tally n).failures.Perm s.failures := List.mergeSort_perm _ _

theorem tally_failures_sorted : (s.tally n).failures.Pairwise (·.path ≤ ·.path) := by
  have htrans (a b c : FailedTask) : (compare a.path b.path).isLE = true →
      (compare b.path c.path).isLE = true → (compare a.path c.path).isLE = true := by
    simp only [isLE_compare_iff]
    exact String.le_trans
  have htotal (a b : FailedTask) :
      ((compare a.path b.path).isLE || (compare b.path a.path).isLE) = true := by
    simp only [Bool.or_eq_true, isLE_compare_iff]
    exact String.le_total _ _
  exact (List.pairwise_mergeSort htrans htotal s.failures).imp (isLE_compare_iff _ _).1

end Shared

namespace Workbench

variable {p : Workbench} {path : Path} {ds : List Deed}

theorem Story.isSome_failure (h : p.Story path ds) :
    (p.failure? path).isSome = !(p.finding? path).isSome := by
  cases h with
  | failed he => simp [he, finding?_of_failure he]
  | recorded hx => simp [hx, failure?_of_finding hx]

theorem isSome_finding_of_isWarned (h : p.isWarned path = true) :
    (p.finding? path).isSome = true := by
  unfold isWarned at h
  cases hx : p.finding? path with
  | none => simp [hx] at h
  | some x => rfl

theorem sum_size_blocks (p : Workbench) (paths : List Path) :
    ((paths.filterMap p.block?).map Block.size).sum =
      ((paths.filter fun path => (identity? p.root path).isSome).map
        fun path => 1 + (p.heard path).length).sum := by
  induction paths with
  | nil => rfl
  | cons path paths ih =>
    cases hi : identity? p.root path with
    | none => simpa [block?, hi] using ih
    | some i =>
      have hb : p.block? path = some ⟨Block.header path :: p.heard path⟩ := by simp [block?, hi]
      rw [List.filterMap_cons_some hb, List.filter_cons_of_pos (by simp [hi]), List.map_cons,
        List.map_cons, List.sum_cons, List.sum_cons, ih]
      simp [Block.size, Nat.add_comm]

end Workbench

/-- The accounts of a run of the tasks of paths, begun on records and a sink. -/
structure Balanced (p : Workbench) (paths : List Path) (r : Records) (k : Sink) (s : Shared) :
    Prop where
  scheduled : (s.tally paths.length).scheduled = paths.length
  ended : paths.length = (s.tally paths.length).extracted + (s.tally paths.length).failures.length
  extracted : (s.tally paths.length).extracted = paths.countP fun q => (p.finding? q).isSome
  size : s.records.size + (s.tally paths.length).collisions =
    r.size + (s.tally paths.length).extracted
  warnings : (s.tally paths.length).toolWarnings = paths.countP p.isWarned
  warned : (s.tally paths.length).toolWarnings ≤ (s.tally paths.length).extracted
  failures : (s.tally paths.length).failures.Perm (paths.filterMap p.failedTask?)
  sorted : (s.tally paths.length).failures.Pairwise (·.path ≤ ·.path)
  submitted : s.sink.submitted = k.submitted +
    ((paths.filter fun q => (identity? p.root q).isSome).map fun q => 1 + (p.heard q).length).sum

namespace Crew

variable {p : Workbench} {paths : List Path} {r : Records} {k : Sink} {es : List Event} {c : Crew}

theorem Runs.length_eq {s : Shared} {h : History} (hr : Runs p (.init paths s) h c)
    (hd : c.IsDone) :
    paths.length = (paths.countP fun q => (p.finding? q).isSome) +
      (paths.filterMap p.failedTask?).length := by
  obtain ⟨stories, hs, -⟩ := hr.exists_stories hd
  rw [List.length_eq_countP_add_countP (fun q => (p.finding? q).isSome),
    List.length_filterMap_eq_countP]
  congr 1
  apply List.countP_congr
  intro q hq
  obtain ⟨n, hn, rfl⟩ := List.getElem_of_mem hq
  have hstory := (List.forall₂_iff_get.1 hs).2 n hn ((List.forall₂_iff_get.1 hs).1 ▸ hn)
  have hsome := Workbench.Story.isSome_failure hstory
  simp only [List.get_eq_getElem] at hsome
  simp [Workbench.failedTask?, hsome]

/-- Whatever the order of the steps, the accounts balance once every task is done. -/
theorem Runs.balanced {h : History}
    (hr : Runs p (.init paths { records := r, sink := k, events := es }) h c) (hd : c.IsDone) :
    Balanced p paths r k c.shared := by
  have hshared := hr.shared_eq
  have hextracted : c.shared.extracted = paths.countP fun q => (p.finding? q).isSome := by
    rw [← hr.counts hd, hshared]
    exact Nat.zero_add _
  have hwarnings : c.shared.toolWarnings = paths.countP p.isWarned := by
    rw [← hr.warnings hd, hshared]
    exact Nat.zero_add _
  have hfailures : c.shared.failures.Perm (paths.filterMap p.failedTask?) := by
    rw [hshared]
    exact hr.failedTasks hd
  have hcollisions : c.shared.collisions = h.deeds.countP Deed.isReplacement := by
    rw [← hr.collisions hd, hshared]
    exact Nat.zero_add _
  have hentries : (h.deeds.filterMap Deed.row?).length = c.shared.extracted := by
    rw [hextracted, (hr.entries hd).length_eq, List.length_filterMap_eq_countP]
    simp [Workbench.row?]
  have hsum := ((hr.blocks hd).map Block.size).sum_nat.trans (Workbench.sum_size_blocks p paths)
  have hperm := c.shared.tally_failures_perm paths.length
  constructor
  · rfl
  · rw [(hperm.trans hfailures).length_eq]
    change paths.length = c.shared.extracted + _
    rw [hextracted]
    exact hr.length_eq hd
  · exact hextracted
  · change c.shared.records.size + c.shared.collisions = r.size + c.shared.extracted
    rw [hcollisions, ← hentries]
    exact hr.size_records
  · exact hwarnings
  · change c.shared.toolWarnings ≤ c.shared.extracted
    rw [hwarnings, hextracted]
    exact List.countP_mono_left fun q _ => Workbench.isSome_finding_of_isWarned
  · exact hperm.trans hfailures
  · exact c.shared.tally_failures_sorted paths.length
  · rw [hr.submitted, hsum]
    rfl

end Crew

end MemberIndex
