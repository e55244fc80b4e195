import MemberIndex.Inventory
import MemberIndex.Proofs.Run.History

/-! # The run that is carried out

One worker takes the tasks of a crew from the first to the last; several take them in any
order. Tasks taken one after another, in the order of any number of workers, are one of the
runs of so many workers. The run of an inventory with any tool in the disassembler's place is
stated here too.
-/

namespace MemberIndex

namespace Crew

variable {p : Workbench} {workers : Nat} {c d e : Crew}

/-- The states that so many workers may bring a crew to. One worker goes on with a task only
when all tasks before it are finished; several may go on with any task. -/
inductive Works (p : Workbench) (workers : Nat) (c : Crew) : Crew → Prop
  | refl : Works p workers c c
  | task {before after : List (Path × Phase)} {path : Path} {phase phase' : Phase}
    {s s' : Shared} (hw : Works p workers c ⟨before ++ (path, phase) :: after, s⟩)
    (hb : workers = 1 → ∀ t ∈ before, t.2 = .finished) (hp : phase ≠ .finished)
    (h : p.advance path s phase = .ok (phase', s')) :
    Works p workers c ⟨before ++ (path, phase') :: after, s'⟩
  | writer {d : Crew} (hw : Works p workers c d) (hq : d.shared.sink.queue ≠ []) :
    Works p workers c ⟨d.tasks, { d.shared with sink := d.shared.sink.drainOne }⟩

theorem Works.trans (hcd : Works p workers c d) (hde : Works p workers d e) :
    Works p workers c e := by
  induction hde with
  | refl => exact hcd
  | task _ hb hp h ih => exact .task ih hb hp h
  | writer _ hq ih => exact .writer ih hq

theorem Works.reaches (hw : Works p workers c d) : Reaches p c d := by
  induction hw with
  | refl => exact .refl c
  | task _ _ hp h ih => exact .tail ih (.task hp h)
  | writer _ hq ih => exact .tail ih (.writer _ hq)

/-- Several workers may take the tasks' steps in any order. -/
theorem works_iff_reaches (hn : workers ≠ 1) : Works p workers c d ↔ Reaches p c d := by
  constructor
  · exact Works.reaches
  · intro h
    induction h with
    | refl => exact .refl
    | tail _ hs ih =>
      cases hs with
      | task hp h => exact .task ih (absurd · hn) hp h
      | writer _ hq => exact .writer ih hq

end Crew

namespace Workbench

open Crew

variable {p : Workbench} {workers : Nat} {path : Path} {phase phase' : Phase} {s s' : Shared}

theorem remaining_advance (h : p.advance path s phase = .ok (phase', s')) :
    phase'.remaining ≤ phase.remaining - 1 := by
  by_cases hp : phase = .finished
  · subst hp; cases h; exact Nat.le_refl _
  · obtain ⟨ds, ht, -⟩ := turn_of_advance hp h
    cases ht <;> simp [Phase.remaining]

section

variable {before : List (Path × Phase)} (after : List (Path × Phase))
  (hb : workers = 1 → ∀ t ∈ before, t.2 = .finished)
include hb

theorem works_of_advanceBy {n : Nat} (h : p.advanceBy path n phase s = .ok (phase', s')) :
    Works p workers ⟨before ++ (path, phase) :: after, s⟩
      ⟨before ++ (path, phase') :: after, s'⟩ ∧
      phase'.remaining ≤ phase.remaining - n := by
  induction n generalizing phase s with
  | zero =>
    cases h
    exact ⟨.refl, by simp⟩
  | succ n ih =>
    unfold advanceBy at h
    cases ha : p.advance path s phase with
    | error e => simp [ha, bind, Except.bind] at h
    | ok x =>
      obtain ⟨phase₁, s₁⟩ := x
      simp only [ha, bind, Except.bind] at h
      obtain ⟨hr, hn⟩ := ih h
      have hrem := remaining_advance ha
      refine ⟨?_, by omega⟩
      by_cases hp : phase = .finished
      · subst hp
        cases ha
        exact hr
      · exact Works.trans (.task .refl hb hp ha) hr

theorem works_of_runTask (h : p.runTask path s = .ok s') :
    Works p workers ⟨before ++ (path, .scheduled) :: after, s⟩
      ⟨before ++ (path, .finished) :: after, s'⟩ := by
  unfold runTask at h
  cases ha : p.advanceBy path Phase.scheduled.remaining .scheduled s with
  | error e => simp [ha, bind, Except.bind] at h
  | ok x =>
    obtain ⟨phase, s₁⟩ := x
    simp only [ha, bind, Except.bind, pure, Except.pure, Except.ok.injEq] at h
    subst h
    obtain ⟨hr, hn⟩ := works_of_advanceBy after hb ha
    obtain rfl : phase = .finished := by
      cases phase <;> simp [Phase.remaining] at hn ⊢
    exact hr

end

theorem runTasks_cons {rest : List Path} (h : p.runTasks s (path :: rest) = (none, s')) :
    ∃ s₁, p.runTask path s = .ok s₁ ∧ p.runTasks s₁ rest = (none, s') := by
  unfold runTasks at h
  cases hs : p.runTask path s with
  | error e => simp [hs] at h
  | ok s₁ =>
    simp only [hs] at h
    exact ⟨s₁, rfl, h⟩

theorem works_of_runTasks (hn : workers ≠ 1) {order : List Path}
    {tasks done : List (Path × Phase)}
    (hp : tasks.Perm (order.map (·, .scheduled) ++ done)) (hd : ∀ t ∈ done, t.2 = .finished)
    (h : p.runTasks s order = (none, s')) :
    ∃ c, Works p workers ⟨tasks, s⟩ c ∧ c.IsDone ∧ c.shared = s' := by
  induction order generalizing tasks done s with
  | nil =>
    cases h
    exact ⟨_, .refl, fun t ht => hd t (hp.mem_iff.1 ht), rfl⟩
  | cons path order ih =>
    obtain ⟨s₁, hs, hrest⟩ := runTasks_cons h
    obtain ⟨before, after, rfl⟩ :=
      List.append_of_mem (hp.mem_iff.2 (by simp : (path, Phase.scheduled) ∈ _))
    have hp' : (before ++ (path, .finished) :: after).Perm
        (order.map (·, .scheduled) ++ (path, .finished) :: done) := by
      refine List.perm_middle.trans (.trans (.cons _ ?_) List.perm_middle.symm)
      exact (List.perm_middle.symm.trans hp).cons_inv
    obtain ⟨c, hr, hc, hsh⟩ := ih hp' (by simpa using hd) hrest
    exact ⟨c, (works_of_runTask after (absurd · hn) hs).trans hr, hc, hsh⟩

theorem works_of_runTasks_inOrder {paths : List Path} {done : List (Path × Phase)}
    (hd : ∀ t ∈ done, t.2 = .finished) (h : p.runTasks s paths = (none, s')) :
    ∃ c, Works p workers ⟨done ++ paths.map (·, .scheduled), s⟩ c ∧ c.IsDone ∧
      c.shared = s' := by
  induction paths generalizing done s with
  | nil =>
    cases h
    exact ⟨_, .refl, by simpa [IsDone] using hd, rfl⟩
  | cons path paths ih =>
    obtain ⟨s₁, hs, hrest⟩ := runTasks_cons h
    have hd' : ∀ t ∈ done ++ [(path, Phase.finished)], t.2 = .finished := by
      intro t ht
      rcases List.mem_append.1 ht with ht | ht
      · exact hd t ht
      · rw [List.mem_singleton.1 ht]
    obtain ⟨c, hr, hc, hsh⟩ := ih hd' hrest
    rw [List.append_assoc] at hr
    exact ⟨c, (works_of_runTask _ (fun _ => hd) hs).trans hr, hc, hsh⟩

theorem works_of_runCrew {paths : List Path} (h : (p.runCrew workers s paths).1 = none) :
    ∃ c, Works p workers (.init paths s) c ∧ c.IsDone ∧
      c.shared = (p.runCrew workers s paths).2 := by
  have hrun : p.runTasks s (order workers paths) = (none, (p.runCrew workers s paths).2) :=
    Prod.ext h rfl
  by_cases hn : workers = 1
  · rw [order, if_pos hn] at hrun
    have hdone : ∀ t ∈ ([] : List (Path × Phase)), t.2 = .finished := by simp
    exact works_of_runTasks_inOrder hdone hrun
  · have hp : (paths.map (·, Phase.scheduled)).Perm
        ((order workers paths).map (·, .scheduled) ++ []) := by
      simpa using ((order_perm workers paths).map _).symm
    exact works_of_runTasks hn hp (by simp) hrun

theorem reaches_of_runCrew {paths : List Path} (h : (p.runCrew workers s paths).1 = none) :
    ∃ c, Reaches p (.init paths s) c ∧ c.IsDone ∧ c.shared = (p.runCrew workers s paths).2 := by
  obtain ⟨c, hw, hd, hs⟩ := works_of_runCrew h
  exact ⟨c, hw.reaches, hd, hs⟩

end Workbench

def Tool.always (b : Behaviour) : Tool := ⟨"javap", none, fun _ => .ok b⟩

namespace Run

/-- The runs that settings may come to with any tool in the disassembler's place. -/
inductive BuildsWith (tool : Tool) (s : Settings) (clock : Moment) (t : FileTree) : Run → Prop
  | ended {r : Run} (h : start s t = .error r) : BuildsWith tool s clock t r
  | completed {r : OpenRun} {c : Crew} (h : start s t = .ok r)
    (hc : Crew.Reaches ⟨s.root, tool, clock⟩ (.init r.discovery.artifacts r.shared) c)
    (hd : c.IsDone) : BuildsWith tool s clock t (r.close c.shared)

def inventory? (run : Run) : Option Inventory :=
  match run.outcome with
  | .complete i => some i
  | _ => none

theorem inventory?_eq_some {run : Run} {i : Inventory} (h : run.inventory? = some i) :
    run.outcome = .complete i := by
  unfold inventory? at h
  split at h
  · rename_i hi
    cases h
    exact hi
  · cases h

variable {s : Settings} {clock : Moment} {t : FileTree}

theorem start_eq_ok {r : OpenRun} (h : start s t = .ok r) :
    r.settings = s ∧ discover t s.root s.extension = .ok r.discovery := by
  unfold start at h
  split at h
  · cases h
  · rename_i d hd
    simp only at h
    split at h
    · cases h
    · cases h; exact ⟨rfl, hd⟩

theorem events_of_start {r : OpenRun} (h : start s t = .ok r) :
    r.events = r.discovery.skipped.map (fun (p, e) => .skipped p e) ++
      [.discovered s.root r.discovery.artifacts.length] := by
  unfold start at h
  split at h
  · cases h
  · simp only at h
    split at h
    · cases h
    · cases h; rfl

theorem failed_of_start_eq_error {run : Run} (h : start s t = .error run) :
    ∃ e, run.outcome = .failed e := by
  unfold start at h
  split at h
  · cases h; exact ⟨_, rfl⟩
  · simp only at h
    split at h
    · cases h; exact ⟨_, rfl⟩
    · cases h

theorem bench_eq (clock : Moment) {r : OpenRun} (h : start s t = .ok r) :
    r.bench clock = ⟨s.root, s.disassembler.tool r.tree [r.log], clock⟩ := by
  rw [OpenRun.bench, (start_eq_ok h).1]

/-- The disassembler of the settings is one of the tools. -/
theorem builds_iff {r : OpenRun} (h : start s t = .ok r) (run : Run) :
    Builds s clock t run ↔ BuildsWith (s.disassembler.tool r.tree [r.log]) s clock t run := by
  have hbench := bench_eq clock h
  constructor
  · intro hb
    cases hb with
    | ended he => exact .ended he
    | completed hr hc hd =>
      cases h.symm.trans hr
      exact .completed h (hbench ▸ hc) hd
  · intro hb
    cases hb with
    | ended he => exact .ended he
    | completed hr hc hd =>
      cases h.symm.trans hr
      exact .completed h (hbench ▸ hc) hd

/-- What is carried out for settings with any tool in the disassembler's place. -/
def buildWith (tool : Tool) (s : Settings) (clock : Moment) (t : FileTree) : Run :=
  match start s t with
  | .error r => r
  | .ok r =>
    match (⟨s.root, tool, clock⟩ : Workbench).runCrew s.jobs r.shared r.discovery.artifacts with
    | (some stall, _) => ⟨.stalled stall, r.tree, r.events⟩
    | (none, shared) => r.close shared

theorem buildsWith_buildWith {tool : Tool}
    (h : ∀ stall, (buildWith tool s clock t).outcome ≠ .stalled stall) :
    BuildsWith tool s clock t (buildWith tool s clock t) := by
  unfold buildWith at h ⊢
  cases hs : start s t with
  | error r => exact .ended hs
  | ok r =>
    simp only [hs] at h ⊢
    cases hc : (⟨s.root, tool, clock⟩ : Workbench).runCrew s.jobs r.shared
        r.discovery.artifacts with
    | mk stall shared =>
      cases stall with
      | some stall =>
        simp only [hc] at h
        exact absurd rfl (h stall)
      | none =>
        obtain ⟨c, hr, hd, hcs⟩ := Workbench.reaches_of_runCrew (congrArg Prod.fst hc)
        obtain rfl : c.shared = shared := by rw [hcs, hc]
        exact .completed hs hr hd

theorem build_eq_buildWith {r : OpenRun} (h : start s t = .ok r) :
    build s clock t = buildWith (s.disassembler.tool r.tree [r.log]) s clock t := by
  cases hc : (r.bench clock).runCrew s.jobs r.shared r.discovery.artifacts with
  | mk stall shared =>
    have hc' := hc
    rw [bench_eq clock h] at hc'
    cases stall <;> simp only [build, buildWith, h, hc, hc']

/-- What is carried out for settings is one of the runs that they may come to, unless a task
stalls. -/
theorem builds_build (h : ∀ stall, (build s clock t).outcome ≠ .stalled stall) :
    Builds s clock t (build s clock t) := by
  cases hs : start s t with
  | error r =>
    have hr : build s clock t = r := by simp only [build, hs]
    rw [hr]
    exact .ended hs
  | ok r =>
    rw [build_eq_buildWith hs] at h ⊢
    exact (builds_iff hs _).2 (buildsWith_buildWith h)

end Run

end MemberIndex
