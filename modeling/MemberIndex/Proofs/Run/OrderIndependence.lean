import Mathlib.Data.List.Nodup
import MemberIndex.Proofs.Run.Conservation
import MemberIndex.Report.Printer

/-! # Independence of the order

Two finished runs of the same tasks differ in their events and in the order of their
failures before these are sorted. They agree on the tally and on the identities, and on
every record that no two tasks contend for.
-/

namespace MemberIndex

attribute [ext] Tally

namespace Workbench

variable {p : Workbench} {paths : List Path}

/-- Whether the task of a path ends well and records this identity. -/
def produces (p : Workbench) (i : String) (path : Path) : Bool :=
  (p.finding? path).any (·.identity = i)

theorem countP_entries (p : Workbench) (i : String) (paths : List Path) :
    (paths.filterMap p.row?).countP (·.1 = i) = paths.countP (p.produces i) := by
  induction paths with
  | nil => rfl
  | cons path paths ih =>
    rw [List.countP_cons, ← ih]
    cases hx : p.finding? path with
    | none => simp [row?, produces, hx]
    | some x => simp [row?, produces, hx, List.countP_cons]

theorem nodup_failedTasks (hn : (paths.map Path.display).Nodup) :
    ((paths.filterMap p.failedTask?).map (·.path)).Nodup := by
  refine hn.sublist ?_
  induction paths with
  | nil => exact List.Sublist.refl _
  | cons path paths ih =>
    have hrest := ih (List.nodup_cons.1 hn).2
    cases he : p.failure? path with
    | none =>
      rw [List.filterMap_cons_none (by simp [failedTask?, he])]
      exact hrest.cons _
    | some e =>
      rw [List.filterMap_cons_some (b := .of path e) (by simp [failedTask?, he])]
      exact hrest.cons_cons _

end Workbench

theorem eq_of_sorted_by_path {fs gs : List FailedTask} (hp : fs.Perm gs)
    (hf : fs.Pairwise (·.path ≤ ·.path)) (hg : gs.Pairwise (·.path ≤ ·.path))
    (hn : (gs.map (·.path)).Nodup) : fs = gs := by
  refine hp.eq_of_pairwise ?_ hf hg
  intro f g hf' hg' hfg hgf
  exact List.inj_on_of_nodup_map hn (hp.subset hf') hg' (String.le_antisymm hfg hgf)

section

variable {p : Workbench} {paths : List Path} {r : Records} {k k' : Sink} {s s' : Shared}

theorem Balanced.of_clock {clock : Moment} (hb : Balanced { p with clock := clock } paths r k s) :
    Balanced p paths r k s where
  scheduled := hb.scheduled
  ended := hb.ended
  extracted := hb.extracted
  size := hb.size
  warnings := hb.warnings
  warned := hb.warned
  failures := hb.failures
  sorted := hb.sorted
  submitted := hb.submitted

theorem Balanced.failures_eq (hb : Balanced p paths r k s) (hb' : Balanced p paths r k' s')
    (hn : (paths.map Path.display).Nodup) :
    (s.tally paths.length).failures = (s'.tally paths.length).failures :=
  eq_of_sorted_by_path (hb.failures.trans hb'.failures.symm) hb.sorted hb'.sorted
    ((hb'.failures.map _).nodup_iff.2 (Workbench.nodup_failedTasks hn))

/-- The number of the collisions is what the size of the records leaves it to be. -/
theorem Balanced.tally_eq (hb : Balanced p paths r k s) (hb' : Balanced p paths r k' s')
    (hn : (paths.map Path.display).Nodup) (hsize : s.records.size = s'.records.size) :
    s.tally paths.length = s'.tally paths.length := by
  have hextracted := hb.extracted.trans hb'.extracted.symm
  apply Tally.ext
  · rfl
  · exact hextracted
  · exact hb.warnings.trans hb'.warnings.symm
  · have h := hb.size
    rw [hsize, hextracted, ← hb'.size] at h
    exact Nat.add_left_cancel h
  · exact hb.failures_eq hb' hn

end

namespace Crew

variable {p : Workbench} {paths : List Path} {s : Shared} {h : History} {c : Crew}

theorem Runs.exists_records_eq (hr : Runs p (.init paths s) h c) (hd : c.IsDone) :
    ∃ entries, entries.Perm (paths.filterMap p.row?) ∧
      c.shared.records = s.records.putAll entries := by
  refine ⟨h.deeds.filterMap Deed.row?, hr.entries hd, ?_⟩
  rw [hr.shared_eq]
  rfl

/-- Two runs of the same tasks on the same records, whatever the order of their steps. -/
theorem order_independent {clock : Moment} {r : Records} {k k' : Sink} {es es' : List Event}
    {c' : Crew} (hn : (paths.map Path.display).Nodup)
    (hr : Reaches p (.init paths { records := r, sink := k, events := es }) c) (hd : c.IsDone)
    (hr' : Reaches { p with clock := clock }
      (.init paths { records := r, sink := k', events := es' }) c') (hd' : c'.IsDone) :
    c.shared.tally paths.length = c'.shared.tally paths.length ∧
      (∀ i, i ∈ c.shared.records ↔ i ∈ c'.shared.records) ∧
      (∀ i, paths.countP (p.produces i) ≤ 1 → c.shared.records[i]? = c'.shared.records[i]?) ∧
      ((∀ i, paths.countP (p.produces i) ≤ 1) →
        Report.render c.shared.records = Report.render c'.shared.records) := by
  obtain ⟨h, hruns⟩ := reaches_iff_runs.1 hr
  obtain ⟨h', hruns'⟩ := reaches_iff_runs.1 hr'
  obtain ⟨entries, hp, hrec⟩ := hruns.exists_records_eq hd
  obtain ⟨entries', hp', hrec'⟩ := hruns'.exists_records_eq hd'
  have hperm : entries.Perm entries' := hp.trans hp'.symm
  have hkeys : ∀ i, i ∈ c.shared.records ↔ i ∈ c'.shared.records := by
    intro i
    rw [hrec, hrec', Records.mem_putAll_iff, Records.mem_putAll_iff]
    simp only [hperm.mem_iff]
  have hone : ∀ i, paths.countP (p.produces i) ≤ 1 →
      c.shared.records[i]? = c'.shared.records[i]? := by
    intro i hi
    rw [hrec, hrec']
    refine Records.getElem?_putAll_of_perm hperm ?_
    rw [hp.countP_eq, Workbench.countP_entries]
    exact hi
  refine ⟨?_, hkeys, hone, ?_⟩
  · have hb' := (hruns'.balanced hd').of_clock
    exact (hruns.balanced hd).tally_eq hb' hn (Records.size_eq_of_mem_iff hkeys)
  · intro hall
    rw [Std.ExtTreeMap.ext_getElem? fun i => hone i (hall i)]

theorem order_independent_of_two_orders :
    ∃ c c', Reaches ⟨.ofString "in", .always {}, ⟨0⟩⟩
        (.init [.ofString "in/A.class", .ofString "C.class", .ofString "B.class"] {}) c ∧ c.IsDone ∧
      Reaches ⟨.ofString "in", .always {}, ⟨0⟩⟩
        (.init [.ofString "in/A.class", .ofString "C.class", .ofString "B.class"] {}) c' ∧
      c'.IsDone ∧ c.shared.failures ≠ c'.shared.failures ∧
      c.shared.tally 3 = c'.shared.tally 3 := by
  have hone : ((⟨.ofString "in", .always {}, ⟨0⟩⟩ : Workbench).runCrew 1 {}
      [.ofString "in/A.class", .ofString "C.class", .ofString "B.class"]).1 = none := by decide
  have htwo : ((⟨.ofString "in", .always {}, ⟨0⟩⟩ : Workbench).runCrew 2 {}
      [.ofString "in/A.class", .ofString "C.class", .ofString "B.class"]).1 = none := by decide
  obtain ⟨c, hr, hd, hs⟩ := Workbench.reaches_of_runCrew hone
  obtain ⟨c', hr', hd', hs'⟩ := Workbench.reaches_of_runCrew htwo
  exact ⟨c, c', hr, hd, hr', hd', by rw [hs, hs']; decide,
    (order_independent (by decide) hr hd hr' hd').1⟩

end Crew

end MemberIndex
