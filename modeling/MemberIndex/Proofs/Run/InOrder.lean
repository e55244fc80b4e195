import MemberIndex.Proofs.Run.LogFailure
import MemberIndex.Proofs.Run.Settling

/-! # Runs in order

One worker finishes a task before it turns to the next, so the history of its run is the
stories of the tasks one behind the other. What the tasks give to the run stands then in
their order, where it is merged in some order otherwise.
-/

namespace MemberIndex

namespace History

variable {h : History} {n : Nat}

/-- No deed of a task stands behind one of a later task. -/
def IsInOrder (h : History) : Prop := h.Pairwise fun x y => x.1 ≤ y.1

theorem IsInOrder.filter_lt_succ (hs : h.IsInOrder) (n : Nat) :
    h.filter (·.1 < n + 1) = h.filter (·.1 < n) ++ h.filter (·.1 = n) := by
  induction h with
  | nil => rfl
  | cons x h ih =>
    obtain ⟨hx, hs⟩ := List.pairwise_cons.1 hs
    rcases Nat.lt_trichotomy x.1 n with hlt | heq | hgt
    · rw [List.filter_cons_of_pos (by simp; omega), List.filter_cons_of_pos (by simpa using hlt),
        List.filter_cons_of_neg (by simp; omega), ih hs, List.cons_append]
    · -- nothing behind this deed stands at an earlier place
      have hnone : h.filter (·.1 < n) = [] := by
        apply List.filter_eq_nil_iff.2
        intro y hy
        simpa [heq] using hx y hy
      rw [List.filter_cons_of_pos (by simp; omega), List.filter_cons_of_neg (by simp; omega),
        List.filter_cons_of_pos (by simpa using heq), ih hs, hnone, List.nil_append,
        List.nil_append]
    · rw [List.filter_cons_of_neg (by simp; omega), List.filter_cons_of_neg (by simp; omega),
        List.filter_cons_of_neg (by simp; omega), ih hs]

/-- The deeds of a history in order are those of its tasks, one task behind the other. -/
theorem IsInOrder.deeds_eq_own (hs : h.IsInOrder) (hn : ∀ x ∈ h, x.1 < n) :
    h.deeds = (List.range n).flatMap fun t => own t h := by
  have key (n : Nat) : (h.filter (·.1 < n)).map (·.2) = (List.range n).flatMap (own · h) := by
    induction n with
    | zero => simp
    | succ n ih =>
      rw [hs.filter_lt_succ, List.map_append, ih, List.range_succ, List.flatMap_append]
      simp [own]
  have hall : h.filter (·.1 < n) = h := List.filter_eq_self.2 (by simpa using hn)
  rw [← key, hall, deeds]

end History

namespace Crew

variable {p : Workbench} {workers : Nat} {paths : List Path} {s : Shared} {h : History}
  {c d : Crew}

theorem Works.exists_runs (hw : Works p workers c d) :
    ∃ h, Runs p c h d ∧ (workers = 1 → h.IsInOrder) := by
  -- a task that has done something has none before it that is not finished
  suffices ∃ h, Runs p c h d ∧ (workers = 1 → h.IsInOrder ∧
      ∀ x ∈ h, ∀ t ∈ d.tasks.take x.1, t.2 = .finished) by
    obtain ⟨h, hr, hin⟩ := this
    exact ⟨h, hr, fun hn => (hin hn).1⟩
  induction hw with
  | refl => exact ⟨[], .refl, fun _ => ⟨.nil, by simp⟩⟩
  | @task before after path phase phase' s s' _ hb hp ha ih =>
    obtain ⟨h, hr, hin⟩ := ih
    obtain ⟨ds, ht, rfl⟩ := turn_of_advance hp ha
    refine ⟨_, .task hr ht, ?_⟩
    intro hn
    obtain ⟨hs, hbehind⟩ := hin hn
    have hle : ∀ x ∈ h, x.1 ≤ before.length := by
      intro x hx
      by_contra hlt
      apply hp
      apply hbehind x hx (path, phase)
      rw [List.take_append]
      apply List.mem_append_right
      obtain ⟨k, hk⟩ := Nat.exists_eq_add_of_lt (Nat.not_le.1 hlt)
      rw [hk, Nat.add_assoc, Nat.add_sub_cancel_left]
      exact List.mem_cons_self
    constructor
    · apply List.pairwise_append.2
      refine ⟨hs, ?_, ?_⟩
      · exact List.pairwise_map.2 (List.pairwise_of_forall fun _ _ => Nat.le_refl _)
      · rintro x hx y hy
        obtain ⟨_, -, rfl⟩ := List.mem_map.1 hy
        exact hle x hx
    · intro x hx t ht
      apply hb hn
      have hx : x.1 ≤ before.length := by
        rcases List.mem_append.1 hx with hx | hx
        · exact hle x hx
        · obtain ⟨_, -, rfl⟩ := List.mem_map.1 hx
          exact Nat.le_refl _
      rw [List.take_append_of_le_length hx] at ht
      exact List.mem_of_mem_take ht
  | writer _ hq ih =>
    obtain ⟨h, hr, hin⟩ := ih
    exact ⟨h, .writer hr hq, hin⟩

section

variable (hr : Runs p (.init paths s) h d) (hd : d.IsDone) (hin : h.IsInOrder)
include hr hd hin

theorem Runs.exists_stories_inOrder :
    ∃ stories, List.Forall₂ p.Story paths stories ∧ h.deeds = stories.flatten := by
  refine ⟨_, hr.forall₂_story hd, ?_⟩
  rw [← List.flatMap_def]
  exact hin.deeds_eq_own hr.told.2.1

theorem Runs.entries_inOrder : h.deeds.filterMap Deed.row? = paths.filterMap p.row? := by
  obtain ⟨stories, hs, hdeeds⟩ := hr.exists_stories_inOrder hd hin
  rw [hdeeds]
  exact filterMap_flatten_of_forall₂ hs fun _ _ h => h.yields.entry

theorem Runs.blocks_inOrder : h.deeds.filterMap Deed.block? = paths.filterMap p.block? := by
  obtain ⟨stories, hs, hdeeds⟩ := hr.exists_stories_inOrder hd hin
  rw [hdeeds]
  exact filterMap_flatten_of_forall₂ hs fun _ _ h => h.yields.block

end

end Crew

namespace Workbench

variable {p : Workbench} {paths : List Path}

theorem exists_works (hanswered : ∀ q ∈ paths, ∃ a, p.attempt q = .ok a) (workers : Nat)
    (s : Shared) : ∃ c, Crew.Works p workers (.init paths s) c ∧ c.IsDone := by
  cases hc : (p.runCrew workers s paths).1 with
  | some e =>
    obtain ⟨q, hq, -, he⟩ := runTasks_eq_some hc
    obtain ⟨a, ha⟩ := hanswered q ((order_perm _ _).mem_iff.1 hq)
    cases ha.symm.trans he
  | none =>
    obtain ⟨c, hw, hd, -⟩ := works_of_runCrew hc
    exact ⟨c, hw, hd⟩

end Workbench

namespace Run

variable {tool : Tool} {s : Settings} {clock : Moment} {t : FileTree} {r : OpenRun}

theorem exists_worksTo (workers : Nat) (w : Writer) (hs : start s t = .ok r)
    (hanswered : ∀ q ∈ r.discovery.artifacts,
      ∃ a, (⟨s.root, tool, clock⟩ : Workbench).attempt q = .ok a) :
    ∃ run inv, WorksTo workers tool w s clock t run ∧ run.outcome = .complete inv := by
  obtain ⟨c, hw, hd⟩ := Workbench.exists_works hanswered workers _
  exact ⟨_, _, .completed hs hw hd, rfl⟩

end Run

end MemberIndex
