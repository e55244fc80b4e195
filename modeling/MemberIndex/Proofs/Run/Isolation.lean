import MemberIndex.Proofs.Run.OrderIndependence

/-! # Isolation of tasks

Two finished runs of the same tasks, with tools that differ on one artifact alone, whatever
the order of the steps in each of them. What one task gets of its tool shows in its own
record, its own failure and its own block, and nowhere else.
-/

namespace MemberIndex

/-- Tools that do the same on every artifact but one. -/
structure Tool.DiffersAt (tool tool' : Tool) (a : Path) : Prop where
  name : tool.name = tool'.name
  limit : tool.limit = tool'.limit
  start : ∀ q, q ≠ a → tool.start q = tool'.start q

def History.besides (paths : List Path) (a : Path) (h : History) : History :=
  h.filter fun x => paths[x.1]? ≠ some a

def FailedTask.besides (paths : List Path) (a : Path) (f : FailedTask) : Bool :=
  f.path ∈ (paths.filter (· ≠ a)).map Path.display

/-- Every path is accounted for: its task has counted what it found, or a failure names it,
and not both. -/
structure Accounts (paths : List Path) (h : History) (s : Shared) : Prop where
  ended : paths.length = (s.tally paths.length).extracted + (s.tally paths.length).failures.length
  counted : ∀ t q, paths[t]? = some q →
    (.counts ∈ h.own t ↔ ∀ f ∈ (s.tally paths.length).failures, f.path ≠ q.display)

section Tasks

variable {root a q : Path} {tool tool' : Tool} {clock clock' : Moment} {i : String}

theorem Tool.DiffersAt.hearing?_eq (ht : tool.DiffersAt tool' a) (hq : q ≠ a) :
    tool.hearing? q = tool'.hearing? q := by
  rw [hearing?, hearing?, ht.name, ht.limit, ht.start q hq]

theorem Tool.DiffersAt.task_eq (ht : tool.DiffersAt tool' a) (hq : q ≠ a) :
    (⟨root, tool, clock⟩ : Workbench).row? q = (⟨root, tool', clock'⟩ : Workbench).row? q ∧
    (⟨root, tool, clock⟩ : Workbench).failedTask? q =
      (⟨root, tool', clock'⟩ : Workbench).failedTask? q ∧
    (⟨root, tool, clock⟩ : Workbench).block? q = (⟨root, tool', clock'⟩ : Workbench).block? q := by
  have hh := ht.hearing?_eq hq
  refine ⟨?_, ?_, ?_⟩
  · simp only [Workbench.row?, Workbench.finding?, hh]
  · simp only [Workbench.failedTask?, Workbench.failure?, hh]
  · simp only [Workbench.block?, Workbench.heard, hh]

theorem Tool.DiffersAt.rows_eq (ht : tool.DiffersAt tool' a) (hi : identity? root a ≠ some i)
    (paths : List Path) :
    (paths.filterMap (⟨root, tool, clock⟩ : Workbench).row?).filter (·.1 = i) =
      (paths.filterMap (⟨root, tool', clock'⟩ : Workbench).row?).filter (·.1 = i) := by
  rw [List.filter_filterMap, List.filter_filterMap]
  refine List.filterMap_congr fun q _ => ?_
  by_cases hq : q = a
  · subst hq
    have hnone (tool : Tool) (clock : Moment) :
        ((⟨root, tool, clock⟩ : Workbench).row? q).filter (·.1 = i) = none := by
      rw [Option.filter_eq_none_iff]
      intro e he heq
      exact hi ((Workbench.identity?_of_row he).trans (congrArg some (of_decide_eq_true heq)))
    rw [hnone, hnone]
  · rw [(ht.task_eq hq).1]

theorem Tool.DiffersAt.failedTasks_eq (ht : tool.DiffersAt tool' a) {paths : List Path}
    (hn : (paths.map Path.display).Nodup) :
    (paths.filterMap (⟨root, tool, clock⟩ : Workbench).failedTask?).filter (·.besides paths a) =
      (paths.filterMap (⟨root, tool', clock'⟩ : Workbench).failedTask?).filter
        (·.besides paths a) := by
  rw [List.filter_filterMap, List.filter_filterMap]
  refine List.filterMap_congr fun q hmem => ?_
  by_cases hq : q = a
  · subst hq
    have hnone (tool : Tool) (clock : Moment) :
        ((⟨root, tool, clock⟩ : Workbench).failedTask? q).filter (·.besides paths q) = none := by
      rw [Option.filter_eq_none_iff]
      intro f hf hother
      obtain ⟨e, -, rfl⟩ := Option.map_eq_some_iff.1 hf
      obtain ⟨q', hq', hdisplay⟩ := List.mem_map.1 (of_decide_eq_true hother)
      obtain ⟨hmem', hne⟩ := List.mem_filter.1 hq'
      exact of_decide_eq_true hne (List.inj_on_of_nodup_map hn hmem' hmem hdisplay)
    rw [hnone, hnone]
  · rw [(ht.task_eq hq).2.1]

end Tasks

namespace Crew

variable {p : Workbench} {paths : List Path} {s : Shared} {h : History} {c : Crew}

theorem own_besides {a : Path} {t : Nat} :
    (h.besides paths a).own t = if paths[t]? = some a then [] else h.own t := by
  rw [History.own, History.besides, List.filter_filter]
  split
  · rename_i ht
    rw [List.map_eq_nil_iff, List.filter_eq_nil_iff]
    rintro x - hx
    simp only [Bool.and_eq_true, decide_eq_true_eq] at hx
    exact hx.2 (hx.1 ▸ ht)
  · rename_i ht
    refine congrArg (List.map _) (List.filter_congr fun x _ => ?_)
    by_cases hx : x.1 = t
    · simp [hx, ht]
    · simp [hx]

/-- The blocks that the tasks of other paths submit in a finished run. -/
theorem Runs.blocks_besides (hr : Runs p (.init paths s) h c) (hd : c.IsDone) (a : Path) :
    ((h.besides paths a).deeds.filterMap Deed.block?).Perm
      (paths.filterMap fun q => if q = a then none else p.block? q) := by
  have hlt : ∀ x ∈ h.besides paths a, x.1 < paths.length := fun x hx =>
    hr.told.2.1 x (List.mem_filter.1 hx).1
  have hparts : List.Forall₂ (fun q ds => if q = a then ds = [] else p.Story q ds) paths
      ((List.range paths.length).map ((h.besides paths a).own ·)) := by
    refine List.forall₂_iff_get.2 ⟨by simp, ?_⟩
    intro t ht ht'
    have hstory := hr.story hd (List.getElem?_eq_getElem ht)
    by_cases hq : paths[t] = a <;> simp [own_besides, hq, ht, hstory]
  refine ((History.deeds_perm_own hlt).filterMap _).trans (.of_eq ?_)
  rw [List.flatMap_def]
  refine filterMap_flatten_of_forall₂ hparts fun q ds hds => ?_
  by_cases hq : q = a
  · rw [if_pos hq] at hds ⊢
    rw [hds]
    rfl
  · rw [if_neg hq] at hds ⊢
    exact hds.yields.block

theorem Runs.accounts {r : Records} {k : Sink} {es : List Event}
    (hr : Runs p (.init paths { records := r, sink := k, events := es }) h c) (hd : c.IsDone)
    (hn : (paths.map Path.display).Nodup) : Accounts paths h c.shared := by
  have hb := hr.balanced hd
  refine ⟨hb.ended, fun t q ht => ?_⟩
  have hstory := hr.story hd ht
  have hcounts : .counts ∈ h.own t ↔ (p.finding? q).isSome = true := by
    have hpos : .counts ∈ h.own t ↔ 0 < (h.own t).countP Deed.isCount := by
      rw [List.countP_pos_iff]
      constructor
      · intro hmem
        exact ⟨_, hmem, rfl⟩
      · rintro ⟨deed, hmem, his⟩
        cases deed <;> first | exact hmem | cases his
    rw [hpos, hstory.yields.count]
    split <;> simp [*]
  have hfailed : (∃ f ∈ (c.shared.tally paths.length).failures, f.path = q.display) ↔
      (p.failure? q).isSome = true := by
    simp only [hb.failures.mem_iff, List.mem_filterMap]
    constructor
    · rintro ⟨f, ⟨q', hq', hf⟩, hpath⟩
      obtain ⟨e, he, rfl⟩ := Option.map_eq_some_iff.1 hf
      obtain rfl : q' = q := List.inj_on_of_nodup_map hn hq' (List.mem_of_getElem? ht) hpath
      exact Option.isSome_of_eq_some he
    · intro he
      obtain ⟨e, he⟩ := Option.isSome_iff_exists.1 he
      exact ⟨.of q e, ⟨q, List.mem_of_getElem? ht, by rw [Workbench.failedTask?, he]; rfl⟩, rfl⟩
  rw [hcounts, ← not_iff_not, Bool.not_eq_true, ← Bool.not_eq_true', ← hstory.isSome_failure,
    ← hfailed]
  simp only [not_forall, not_not, exists_prop]

/-- Two finished runs of the same tasks on the same records, with tools that differ on one
artifact, whatever the order of the steps: they agree on each record that one task puts
alone, if the artifact does not have its identity, on the failures that name other paths and
on the blocks of the other tasks; and both of them account for every path. -/
theorem isolated {root a : Path} {tool tool' : Tool} {clock clock' : Moment} {r : Records}
    {k k' : Sink} {es es' : List Event} {h' : History} {c' : Crew}
    (ht : tool.DiffersAt tool' a) (hn : (paths.map Path.display).Nodup)
    (hr : Runs ⟨root, tool, clock⟩
      (.init paths { records := r, sink := k, events := es }) h c) (hd : c.IsDone)
    (hr' : Runs ⟨root, tool', clock'⟩
      (.init paths { records := r, sink := k', events := es' }) h' c') (hd' : c'.IsDone) :
    (∀ i, identity? root a ≠ some i →
      paths.countP ((⟨root, tool, clock⟩ : Workbench).produces i) ≤ 1 →
        c.shared.records[i]? = c'.shared.records[i]?) ∧
    (c.shared.tally paths.length).failures.filter (·.besides paths a) =
      (c'.shared.tally paths.length).failures.filter (·.besides paths a) ∧
    ((h.besides paths a).deeds.filterMap Deed.block?).Perm
      ((h'.besides paths a).deeds.filterMap Deed.block?) ∧
    Accounts paths h c.shared ∧ Accounts paths h' c'.shared := by
  have hb := hr.balanced hd
  have hb' := hr'.balanced hd'
  refine ⟨?_, ?_, ?_, hr.accounts hd hn, hr'.accounts hd' hn⟩
  · intro i hi hone
    obtain ⟨entries, hp, hrec⟩ := hr.exists_records_eq hd
    obtain ⟨entries', hp', hrec'⟩ := hr'.exists_records_eq hd'
    rw [hrec, hrec']
    refine Records.getElem?_putAll_of_filter_perm ?_ ?_
    · exact (hp.filter _).trans (.trans (.of_eq (ht.rows_eq hi paths)) (hp'.filter _).symm)
    · rw [hp.countP_eq, Workbench.countP_entries]
      exact hone
  · refine eq_of_sorted_by_path ?_ (hb.sorted.filter _) (hb'.sorted.filter _) ?_
    · exact (hb.failures.filter _).trans
        (.trans (.of_eq (ht.failedTasks_eq hn)) (hb'.failures.filter _).symm)
    · refine .sublist (List.filter_sublist.map _) ?_
      exact (hb'.failures.map _).nodup_iff.2 (Workbench.nodup_failedTasks hn)
  · refine (hr.blocks_besides hd a).trans (.trans (.of_eq ?_) (hr'.blocks_besides hd' a).symm)
    refine List.filterMap_congr fun q _ => ?_
    by_cases hq : q = a
    · rw [if_pos hq, if_pos hq]
    · rw [if_neg hq, if_neg hq, (ht.task_eq hq).2.2]

def alwaysBut (a : Path) (b : Behaviour) : Tool :=
  { Tool.always b with start := fun q => if q = a then .error (.os .noEntry) else .ok b }

/-- One run in which every task ends well, and one in the other order in which a tool cannot be
started. -/
theorem isolated_of_failing_start :
    ∃ c c', Reaches ⟨.ofString "in", .always {}, ⟨0⟩⟩
        (.init [.ofString "in/A.class", .ofString "in/B.class"] {}) c ∧ c.IsDone ∧
      Reaches ⟨.ofString "in", alwaysBut (.ofString "in/A.class") {}, ⟨7⟩⟩
        (.init [.ofString "in/A.class", .ofString "in/B.class"] {}) c' ∧ c'.IsDone ∧
      c.shared.failures = [] ∧ c'.shared.failures ≠ [] ∧
      c.shared.records["B"]?.isSome = true ∧
      c.shared.records["B"]? = c'.shared.records["B"]? := by
  have hone : ((⟨.ofString "in", .always {}, ⟨0⟩⟩ : Workbench).runCrew 1 {}
      [.ofString "in/A.class", .ofString "in/B.class"]).1 = none := by decide
  have htwo : ((⟨.ofString "in", alwaysBut (.ofString "in/A.class") {}, ⟨7⟩⟩ :
      Workbench).runCrew 2 {} [.ofString "in/A.class", .ofString "in/B.class"]).1 = none := by
    decide
  obtain ⟨c, hr, hd, hs⟩ := Workbench.reaches_of_runCrew hone
  obtain ⟨c', hr', hd', hs'⟩ := Workbench.reaches_of_runCrew htwo
  obtain ⟨h, hruns⟩ := reaches_iff_runs.1 hr
  obtain ⟨h', hruns'⟩ := reaches_iff_runs.1 hr'
  have hdiffers : (Tool.always {}).DiffersAt (alwaysBut (.ofString "in/A.class") {})
      (.ofString "in/A.class") := ⟨rfl, rfl, fun q hq => (if_neg hq).symm⟩
  obtain ⟨hrecords, -⟩ := isolated hdiffers (by decide) hruns hd hruns' hd'
  exact ⟨c, c', hr, hd, hr', hd', by rw [hs]; decide, by rw [hs']; decide, by rw [hs]; decide,
    hrecords "B" (by decide) (by decide)⟩

end Crew

end MemberIndex
