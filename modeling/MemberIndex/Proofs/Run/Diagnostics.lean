import Mathlib.Data.List.DropRight
import Mathlib.Data.List.TakeWhile
import MemberIndex.Proofs.Run.Conservation

/-! # Diagnostics beside the statistics

What a run tells on its way and what it counts are two accounts of the same tasks. Each task
tells of itself what it gives to the statistics, and so the two agree task by task and in
number, whatever the tool does to each task and in whatever order the tasks' steps are taken.
-/

namespace MemberIndex

namespace Text

/-- What is left of a text between the blanks at its two ends. -/
def IsTrimmed (s u : String) : Prop :=
  ∃ before after, s.toList = before ++ u.toList ++ after ∧ (∀ c ∈ before, isBlank c = true) ∧
    (∀ c ∈ after, isBlank c = true) ∧ (∀ c, u.toList.head? = some c → isBlank c = false) ∧
    ∀ c, u.toList.getLast? = some c → isBlank c = false

theorem isTrimmed_trim (s : String) : IsTrimmed s (trim s) := by
  have hsplit : (s.toList.dropWhile isBlank).rdropWhile isBlank ++
      (s.toList.dropWhile isBlank).rtakeWhile isBlank = s.toList.dropWhile isBlank :=
    List.rdropWhile_append_rtakeWhile ..
  have htrim : (trim s).toList = (s.toList.dropWhile isBlank).rdropWhile isBlank := by
    rw [trim, String.toList_ofList]
    rfl
  refine ⟨s.toList.takeWhile isBlank, (s.toList.dropWhile isBlank).rtakeWhile isBlank, ?_, ?_, ?_,
    ?_, ?_⟩
  · rw [htrim, List.append_assoc, hsplit, List.takeWhile_append_dropWhile]
  · intro c hc
    exact List.mem_takeWhile_imp hc
  · intro c hc
    exact List.mem_rtakeWhile_imp hc
  · intro c hc
    have hhead := List.head?_dropWhile_not isBlank s.toList
    rw [htrim] at hc
    rw [← hsplit, List.head?_append, hc] at hhead
    simpa using hhead
  · intro c hc
    rw [htrim] at hc
    have hne : (s.toList.dropWhile isBlank).rdropWhile isBlank ≠ [] := by
      intro hnil
      rw [hnil] at hc
      cases hc
    have hlast := List.rdropWhile_last_not _ _ hne
    rw [List.getLast?_eq_some_getLast hne, Option.some.injEq] at hc
    rw [hc] at hlast
    simpa using hlast

end Text

namespace Event

@[simp] def isProcessing : Event → Bool
  | processing _ => true
  | _ => false

@[simp] def isFailed : Event → Bool
  | failed .. => true
  | _ => false

@[simp] def isExited : Event → Bool
  | exited .. => true
  | _ => false

@[simp] def isOverwritten : Event → Bool
  | overwritten .. => true
  | _ => false

def isOfTask (e : Event) : Bool :=
  e.isProcessing || e.isFailed || e.isExited || e.isOverwritten

theorem isOfTask_eq_false_iff {e : Event} : e.isOfTask = false ↔ e.isProcessing = false ∧
    e.isFailed = false ∧ e.isExited = false ∧ e.isOverwritten = false := by
  simp only [isOfTask, Bool.or_eq_false_iff, and_assoc]

/-- The failure that an event shows among its values, with a path, a kind and an error. -/
def failedTask? (e : Event) : Option FailedTask := do
  return ⟨← e.values.lookup "path", ← e.values.lookup "kind", ← e.values.lookup "error"⟩

theorem isSome_failedTask? (e : Event) : e.failedTask?.isSome = e.isFailed := by
  cases e <;> rfl

theorem length_failedTasks (es : List Event) :
    (es.filterMap failedTask?).length = es.countP isFailed := by
  rw [List.length_filterMap_eq_countP]
  simp only [isSome_failedTask?]

end Event

/-- A tally that agrees with what was told: entry by entry in the failures, and in number. -/
structure Tally.AgreesWith (y : Tally) (es : List Event) : Prop where
  processing : es.countP Event.isProcessing = y.scheduled
  failed : es.countP Event.isFailed = y.failures.length
  failures : (es.filterMap Event.failedTask?).Perm y.failures
  exited : es.countP Event.isExited = y.toolWarnings
  overwritten : es.countP Event.isOverwritten = y.collisions

namespace Workbench

/-- What a finished task has told, from its first event to its last. A failure is shown as it is
entered, and a warning shows the tool's exit or the identity whose record was replaced. -/
inductive Diagnosis (p : Workbench) (path : Path) (ds : List Deed) : Prop
  | failed {e : TaskError} (he : p.failure? path = some e)
    (events : ds.filterMap Deed.event? = [.processing path, .failed path e])
    (entry : ds.filterMap Deed.failedTask? = [.of path e])
    (shown : (Event.failed path e).level = .error ∧
      (Event.failed path e).failedTask? = some (.of path e))
  | recorded {x : Finding} {replaced : Option Members} {stderr : String}
    (hx : p.finding? path = some x) (entry : .records x.identity x.members replaced ∈ ds)
    (events : ds.filterMap Deed.event? = .processing path ::
      ((if x.exit.status.success then [] else [.exited path x.exit]) ++
        if replaced.isSome then [.overwritten path x.identity] else []))
    (trimmed : Text.IsTrimmed x.exit.diagnostics stderr)
    (status : (Event.exited path x.exit).level = .warn ∧ (Event.exited path x.exit).values =
      [("path", path.display), ("status", x.exit.status.text), ("stderr", stderr)])
    (identity : (Event.overwritten path x.identity).level = .warn ∧
      (Event.overwritten path x.identity).values =
        [("path", path.display), ("identity", x.identity)])

/-- The deeds of a task that tells as much as it gives to the statistics. -/
structure Concordant (ds : List Deed) : Prop where
  processing : (ds.filterMap Deed.event?).countP Event.isProcessing = 1
  failures : (ds.filterMap Deed.event?).filterMap Event.failedTask? =
    ds.filterMap Deed.failedTask?
  exited : (ds.filterMap Deed.event?).countP Event.isExited = ds.countP Deed.isWarning
  overwritten : (ds.filterMap Deed.event?).countP Event.isOverwritten = ds.countP Deed.isCollision

variable {p : Workbench} {path : Path} {ds : List Deed}

theorem prelude_cases (p : Workbench) (path : Path) :
    p.prelude path = [.tells (.processing path)] ∨
      ∃ b, p.prelude path = [.tells (.processing path), .submits b] := by
  cases hb : p.block? path with
  | none => exact .inl (by simp [prelude, hb])
  | some b => exact .inr ⟨b, by simp [prelude, hb]⟩

theorem Story.diagnosis (h : p.Story path ds) : p.Diagnosis path ds := by
  cases h with
  | @failed e he =>
    rcases prelude_cases p path with hp | ⟨b, hp⟩ <;>
      exact .failed he (by rw [hp]; rfl) (by rw [hp]; rfl) ⟨rfl, rfl⟩
  | @recorded x hx replaced =>
    have hentry : .records x.identity x.members replaced ∈
        p.prelude path ++ [.records x.identity x.members replaced, .counts] ++
          warnings path x.exit ++
          if replaced.isSome then [.collides, .tells (.overwritten path x.identity)] else [] := by
      simp
    refine .recorded hx hentry ?_ (Text.isTrimmed_trim _) ⟨rfl, rfl⟩ ⟨rfl, rfl⟩
    rcases prelude_cases p path with hp | ⟨b, hp⟩ <;> rw [hp] <;>
      cases hs : x.exit.status.success <;> cases replaced <;> simp only [warnings, hs] <;> rfl

/-- Whatever a task comes to, it tells as much as it gives to the statistics. -/
theorem Story.concordant (h : p.Story path ds) : Concordant ds := by
  cases h with
  | @failed e he =>
    rcases prelude_cases p path with hp | ⟨b, hp⟩ <;> rw [hp] <;> constructor <;> rfl
  | @recorded x hx replaced =>
    rcases prelude_cases p path with hp | ⟨b, hp⟩ <;> rw [hp] <;>
      cases hs : x.exit.status.success <;> cases replaced <;> simp only [warnings, hs] <;>
      constructor <;> rfl

end Workbench

namespace History

variable {n : Nat} {h : History}

theorem filterMap_deeds_perm {α : Type} (hn : ∀ x ∈ h, x.1 < n) (f : Deed → Option α) :
    (h.deeds.filterMap f).Perm ((List.range n).flatMap fun t => (h.own t).filterMap f) := by
  rw [← List.filterMap_flatMap]
  exact (deeds_perm_own hn).filterMap f

theorem countP_deeds (hn : ∀ x ∈ h, x.1 < n) (f : Deed → Bool) :
    h.deeds.countP f = ((List.range n).map fun t => (h.own t).countP f).sum := by
  rw [(deeds_perm_own hn).countP_eq, List.countP_flatMap]
  rfl

theorem countP_events (hn : ∀ x ∈ h, x.1 < n) (f : Event → Bool) :
    (h.deeds.filterMap Deed.event?).countP f =
      ((List.range n).map fun t => ((h.own t).filterMap Deed.event?).countP f).sum := by
  rw [(filterMap_deeds_perm hn _).countP_eq, List.countP_flatMap]
  rfl

/-- Every record that was put replaced what stood under its identity when it was put. -/
def PutsOver (r : Records) (h : History) : Prop :=
  ∀ n t i m replaced, h[n]? = some (t, .records i m replaced) →
    replaced = (r.putAll ((deeds (h.take n)).filterMap Deed.row?))[i]?

end History

theorem eq_of_mem_turn {p : Workbench} {path : Path} {r : Records} {phase phase' : Phase}
    {ds : List Deed} {i : String} {m : Members} {replaced : Option Members}
    (ht : Turn p path r phase ds phase') (hmem : .records i m replaced ∈ ds) :
    ds = [.records i m replaced] ∧ replaced = r[i]? := by
  cases ht with
  | record =>
    cases List.mem_singleton.1 hmem
    exact ⟨rfl, rfl⟩
  | _ => simp at hmem

theorem History.PutsOver.turn {p : Workbench} {path : Path} {r : Records} {h : History}
    {phase phase' : Phase} {ds : List Deed} (hput : h.PutsOver r) (t : Nat)
    (ht : Turn p path (r.putAll (h.deeds.filterMap Deed.row?)) phase ds phase') :
    History.PutsOver r (h ++ ds.map (t, ·)) := by
  intro n t' i m replaced hn
  rcases Nat.lt_or_ge n h.length with hlt | hge
  · rw [List.getElem?_append_left hlt] at hn
    rw [List.take_append_of_le_length (Nat.le_of_lt hlt)]
    exact hput n t' i m replaced hn
  · rw [List.getElem?_append_right hge] at hn
    obtain ⟨d, hd, heq⟩ := List.mem_map.1 (List.mem_of_getElem? hn)
    cases heq
    obtain ⟨rfl, rfl⟩ := eq_of_mem_turn ht hd
    have hzero : n - h.length < 1 := (List.getElem?_eq_some_iff.1 hn).1
    obtain rfl : n = h.length := by omega
    rw [List.take_left]

namespace Crew

variable {bench : Nat → Workbench} {paths : List Path} {r : Records} {k : Sink} {es : List Event}
  {c d : Crew} {h : History}

theorem RunsWith.putsOver (hr : RunsWith bench c h d) : h.PutsOver c.shared.records := by
  induction hr with
  | refl =>
    intro n t i m replaced hn
    simp at hn
  | @task h before after path phase phase' s ds hr ht ih =>
    have hrecords : s.records = c.shared.records.putAll (h.deeds.filterMap Deed.row?) :=
      congrArg Shared.records hr.shared_eq
    rw [hrecords] at ht
    exact ih.turn _ ht
  | writer _ _ ih => exact ih

theorem RunsWith.concordant {s : Shared} (hr : RunsWith bench (.init paths s) h d) (hd : d.IsDone) :
    ∀ t ∈ List.range paths.length, Workbench.Concordant (h.own t) := by
  intro t ht
  exact (hr.story hd (List.getElem?_eq_getElem (List.mem_range.1 ht))).concordant

/-- What a finished run of the tasks of paths has told beside its statistics, if it was begun on
records and when something had been told already. -/
structure Diagnosed (bench : Nat → Workbench) (paths : List Path) (r : Records) (es : List Event)
    (h : History) (s : Shared) : Prop where
  events : s.events = es ++ h.deeds.filterMap Deed.event?
  places : ∀ x ∈ h, x.1 < paths.length
  tasks : ∀ t path, paths[t]? = some path → (bench t).Diagnosis path (h.own t)
  concordant : ∀ t < paths.length, Workbench.Concordant (h.own t)
  replaced : h.PutsOver r
  tally : (s.tally paths.length).AgreesWith (h.deeds.filterMap Deed.event?)

/-- The events of a finished run agree with its tally. -/
theorem RunsWith.agreesWith
    (hr : RunsWith bench (.init paths { records := r, sink := k, events := es }) h c)
    (hd : c.IsDone) :
    (c.shared.tally paths.length).AgreesWith (h.deeds.filterMap Deed.event?) := by
  have hn := hr.told.2.1
  have hc := hr.concordant hd
  have hshared := hr.shared_eq
  have hwarnings : c.shared.toolWarnings = h.deeds.countP Deed.isWarning := by
    rw [hshared]
    exact Nat.zero_add _
  have hcollisions : c.shared.collisions = h.deeds.countP Deed.isCollision := by
    rw [hshared]
    exact Nat.zero_add _
  have hentries : c.shared.failures = h.deeds.filterMap Deed.failedTask? := by
    rw [hshared]
    rfl
  have hfailures : ((h.deeds.filterMap Deed.event?).filterMap Event.failedTask?).Perm
      (c.shared.tally paths.length).failures := by
    calc (h.deeds.filterMap Deed.event?).filterMap Event.failedTask?
      _ |>.Perm ((List.range paths.length).flatMap fun t =>
            ((h.own t).filterMap Deed.event?).filterMap Event.failedTask?) := by
          rw [← List.filterMap_flatMap]
          exact (h.filterMap_deeds_perm hn _).filterMap _
      _ = (List.range paths.length).flatMap fun t => (h.own t).filterMap Deed.failedTask? :=
          List.flatMap_congr fun t ht => (hc t ht).failures
      _ |>.Perm (h.deeds.filterMap Deed.failedTask?) := (h.filterMap_deeds_perm hn _).symm
      _ |>.Perm (c.shared.tally paths.length).failures :=
          hentries ▸ (c.shared.tally_failures_perm _).symm
  constructor
  · rw [h.countP_events hn, List.map_congr_left fun t ht => (hc t ht).processing]
    simp [Shared.tally]
  · rw [← Event.length_failedTasks, hfailures.length_eq]
  · exact hfailures
  · rw [h.countP_events hn, List.map_congr_left fun t ht => (hc t ht).exited, ← h.countP_deeds hn]
    exact hwarnings.symm
  · rw [h.countP_events hn, List.map_congr_left fun t ht => (hc t ht).overwritten,
      ← h.countP_deeds hn]
    exact hcollisions.symm

theorem RunsWith.diagnosed
    (hr : RunsWith bench (.init paths { records := r, sink := k, events := es }) h c)
    (hd : c.IsDone) : Diagnosed bench paths r es h c.shared where
  events := congrArg Shared.events hr.shared_eq
  places := hr.told.2.1
  tasks _ _ ht := (hr.story hd ht).diagnosis
  concordant t ht := hr.concordant hd t (List.mem_range.2 ht)
  replaced := hr.putsOver
  tally := hr.agreesWith hd

end Crew

theorem Tally.AgreesWith.surround {y : Tally} {es before after : List Event}
    (h : y.AgreesWith es) (hb : ∀ e ∈ before, e.isOfTask = false)
    (ha : ∀ e ∈ after, e.isOfTask = false) : y.AgreesWith (before ++ es ++ after) := by
  have hcount (f : Event → Bool) (hf : ∀ e, e.isOfTask = false → f e = false) :
      (before ++ es ++ after).countP f = es.countP f := by
    have hbefore : before.countP f = 0 :=
      List.countP_eq_zero.2 fun e he => by simp [hf e (hb e he)]
    have hafter : after.countP f = 0 :=
      List.countP_eq_zero.2 fun e he => by simp [hf e (ha e he)]
    rw [List.countP_append, List.countP_append, hbefore, hafter, Nat.zero_add, Nat.add_zero]
  have hnone (e : Event) (he : e.isOfTask = false) : e.failedTask? = none := by
    rw [← Option.not_isSome_iff_eq_none, Event.isSome_failedTask?,
      (Event.isOfTask_eq_false_iff.1 he).2.1]
    exact Bool.false_ne_true
  have hshown : (before ++ es ++ after).filterMap Event.failedTask? =
      es.filterMap Event.failedTask? := by
    rw [List.filterMap_append, List.filterMap_append,
      List.filterMap_eq_nil_iff.2 fun e he => hnone e (hb e he),
      List.filterMap_eq_nil_iff.2 fun e he => hnone e (ha e he), List.nil_append, List.append_nil]
  constructor
  · rw [hcount _ fun e he => (Event.isOfTask_eq_false_iff.1 he).1, h.processing]
  · rw [hcount _ fun e he => (Event.isOfTask_eq_false_iff.1 he).2.1, h.failed]
  · rw [hshown]
    exact h.failures
  · rw [hcount _ fun e he => (Event.isOfTask_eq_false_iff.1 he).2.2.1, h.exited]
  · rw [hcount _ fun e he => (Event.isOfTask_eq_false_iff.1 he).2.2.2, h.overwritten]

namespace Run

variable {tool : Tool} {s : Settings} {clock : Moment} {t : FileTree} {run : Run} {inv : Inventory}

theorem BuildsWith.agreesWith (hb : BuildsWith tool s clock t run)
    (hinv : run.outcome = .complete inv) : inv.tally.AgreesWith run.events := by
  cases hb with
  | ended he =>
    obtain ⟨e, he'⟩ := failed_of_start_eq_error he
    cases he'.symm.trans hinv
  | @completed r c hs hc hd =>
    obtain ⟨h, hr⟩ := Crew.reaches_iff_runs.1 hc
    have hdiagnosed := hr.runsWith.diagnosed hd
    cases hinv
    change (c.shared.tally r.discovery.artifacts.length).AgreesWith (c.shared.events ++ _)
    rw [hdiagnosed.events]
    apply hdiagnosed.tally.surround
    · intro e he
      rw [events_of_start hs] at he
      rcases List.mem_append.1 he with he | he
      · obtain ⟨x, -, rfl⟩ := List.mem_map.1 he
        rfl
      · cases List.mem_singleton.1 he
        rfl
    · intro e he
      obtain ⟨fault, -, rfl⟩ := Option.map_eq_some_iff.1 (Option.mem_toList.1 he)
      rfl

end Run

namespace Crew

/-- What is told of the tasks agrees with what is counted of them, in every finished run of any
tasks: whatever the tool does to each of them, as each has a workbench of its own, and whatever
the order of the steps. A run with one tool for all tasks is one of these runs, and what an
inventory's whole run tells agrees with its tally too. -/
theorem diagnostics_agree :
    (∀ (bench : Nat → Workbench) (paths : List Path) (r : Records) (k : Sink) (es : List Event)
      (h : History) (c : Crew),
      RunsWith bench (.init paths { records := r, sink := k, events := es }) h c → c.IsDone →
        Diagnosed bench paths r es h c.shared) ∧
    (∀ (p : Workbench) (c d : Crew), Reaches p c d → ∃ h, RunsWith (fun _ => p) c h d) ∧
    ∀ (tool : Tool) (s : Settings) (clock : Moment) (t : FileTree) (run : Run) (inv : Inventory),
      Run.BuildsWith tool s clock t run → run.outcome = .complete inv →
        inv.tally.AgreesWith run.events := by
  refine ⟨?_, ?_, ?_⟩
  · intro bench paths r k es h c hr hd
    exact hr.diagnosed hd
  · intro p c d hr
    obtain ⟨h, hr⟩ := reaches_iff_runs.1 hr
    exact ⟨h, hr.runsWith⟩
  · intro tool s clock t run inv hb hinv
    exact hb.agreesWith hinv

theorem diagnostics_agree_of_collision :
    ∃ h c, RunsWith (fun _ => ⟨.ofString "in", .always { ending := .exits (.code 1) }, ⟨0⟩⟩)
        (.init [.ofString "in/A.class", .ofString "in/A.jar", .ofString "B.class"] {}) h c ∧
      c.IsDone ∧ c.shared.events.length = 7 ∧
      Diagnosed (fun _ => ⟨.ofString "in", .always { ending := .exits (.code 1) }, ⟨0⟩⟩)
        [.ofString "in/A.class", .ofString "in/A.jar", .ofString "B.class"] ∅ [] h c.shared := by
  have hdone : ((⟨.ofString "in", .always { ending := .exits (.code 1) }, ⟨0⟩⟩ :
      Workbench).runCrew 1 {}
        [.ofString "in/A.class", .ofString "in/A.jar", .ofString "B.class"]).1 = none := by
    decide
  obtain ⟨c, hr, hd, hs⟩ := Workbench.reaches_of_runCrew hdone
  obtain ⟨h, hr⟩ := reaches_iff_runs.1 hr
  exact ⟨h, c, hr.runsWith, hd, by rw [hs]; decide,
    diagnostics_agree.1 _ _ _ _ _ _ _ hr.runsWith hd⟩

end Crew

end MemberIndex
