import MemberIndex.Program
import MemberIndex.Proofs.FileTree.Parents
import MemberIndex.Proofs.Run.LogFailure

/-! # Runs that fail as a whole

A run fails as a whole only before it has tasks: while it discovers the artifacts, which
changes nothing, or while it opens the log, which adds at most directories for it. The program
then ends at once, so what an earlier run has left where the report goes stays there.
-/

namespace MemberIndex

theorem stage_of_discover_eq_error {t : FileTree} {root : Path} {extension : String}
    {e : RunError} (h : discover t root extension = .error e) : e.stage = .discovery := by
  unfold discover at h
  split at h
  · cases h
    rfl
  · split at h <;> cases h
    rfl

namespace Run

variable {tool tool' : Tool} {s : Settings} {clock clock' : Moment} {t : FileTree}
  {run run' : Run} {e : RunError}

/-- What has become of a run that ends before its tasks. -/
inductive FailsEarly (s : Settings) (t : FileTree) (run : Run) (e : RunError) : Prop
  | discovery (hs : e.stage = .discovery) (ht : run.tree = t) (he : run.events = [])
  | transcript (hs : e.stage = .transcript) (ht : t.GrowsTo run.tree s.log.holders)
    {d : Discovery} (hd : discover t s.root s.extension = .ok d)
    (he : run.events = d.skipped.map (fun (p, e) => .skipped p e) ++
      [.discovered s.root d.artifacts.length])

theorem failsEarly_of_start (h : start s t = .error run) :
    ∃ e, run.outcome = .failed e ∧ FailsEarly s t run e := by
  unfold start at h
  cases hd : discover t s.root s.extension with
  | error e =>
    rw [hd] at h
    cases h
    exact ⟨e, rfl, .discovery (stage_of_discover_eq_error hd) rfl rfl⟩
  | ok d =>
    simp only [hd] at h
    cases ho : (Log.openAt s.log s.appendLog).run.run t with
    | mk r t' =>
      rw [ho] at h
      cases r with
      | ok place => cases h
      | error x =>
        cases h
        exact ⟨_, rfl, .transcript rfl (Log.growsTo_of_openAt_eq_error ho) hd rfl⟩

theorem FailsEarly.processing_notMem (h : FailsEarly s t run e) (q : Path) :
    .processing q ∉ run.events := by
  cases h with
  | discovery _ _ he =>
    rw [he]
    exact List.not_mem_nil
  | transcript _ _ _ he => simp [he]

theorem FailsEarly.extends (h : FailsEarly s t run e) : t.Extends run.tree := by
  cases h with
  | discovery _ ht =>
    rw [ht]
    exact (FileTree.growsTo_refl t []).extends
  | transcript _ ht => exact ht.extends

theorem BuildsWith.start_eq_error (hb : BuildsWith tool s clock t run)
    (he : run.outcome = .failed e) : start s t = .error run := by
  cases hb with
  | ended h => exact h
  | completed => cases he

/-- A run that ends before its tasks is the only one, whatever the tool and the time. -/
theorem buildsWith_iff_of_start_eq_error (h : start s t = .error run) :
    BuildsWith tool s clock t run' ↔ run' = run := by
  constructor
  · intro hb
    cases hb with
    | ended h' => exact Except.error.inj (h'.symm.trans h)
    | completed h' => cases h'.symm.trans h
  · rintro rfl
    exact .ended h

theorem build_of_start_eq_error (h : start s t = .error run) : build s clock t = run := by
  simp only [build, h]

theorem run_of_start_eq_error (clock : Moment) (h : start s t = .error run)
    (he : run.outcome = .failed e)
    {env : Environment} {args : List String} {a : Arguments} (ha : Arguments.parse args = .ok a)
    (hs : Settings.resolve t env a = .ok s) :
    (Program.run env clock args t).conclusion.exitCode = 1 ∧
      (Program.run env clock args t).tree = run.tree := by
  have hrun : Program.run env clock args t = Program.conclude s run := by
    simp only [Program.run, ha, hs, build_of_start_eq_error h]
  rw [hrun, Program.conclude, he]
  exact ⟨rfl, rfl⟩

/-- A run that fails as a whole, which it does while it discovers or while it opens the log. It
is the same run with every tool and at every time, and no task is announced in it. In the first
case the tree is what it was. In the second one it has the same files, links and devices as
before, and directories that were missing where the log was to lie. The program fails with the
run, and files at the report's path or beside it, where it is drafted, stay what they are. -/
theorem failure_leaves_results (hb : BuildsWith tool s clock t run)
    (he : run.outcome = .failed e) :
    (e.stage = .discovery ∨ e.stage = .transcript) ∧
      (∀ tool' clock' run', BuildsWith tool' s clock' t run' ↔ run' = run) ∧
      (∀ clock', build s clock' t = run) ∧
      (∀ q, .processing q ∉ run.events) ∧
      (e.stage = .discovery → run.tree = t) ∧
      (e.stage = .transcript → t.GrowsTo run.tree s.log.holders) ∧
      ∀ env clock' args a, Arguments.parse args = .ok a → Settings.resolve t env a = .ok s →
        (Program.run env clock' args t).conclusion.exitCode = 1 ∧
          (Program.run env clock' args t).tree = run.tree ∧
          ∀ p ∈ [s.output, Report.draftPath s.output], ∀ f, t.find? p = some (.file f) →
            (Program.run env clock' args t).tree.find? p = some (.file f) := by
  have hstart := hb.start_eq_error he
  obtain ⟨e', he', hearly⟩ := failsEarly_of_start hstart
  cases he.symm.trans he'
  refine ⟨?_, ?_, ?_, hearly.processing_notMem, ?_, ?_, ?_⟩
  · cases hearly with
    | discovery hs => exact .inl hs
    | transcript hs => exact .inr hs
  · intro tool' clock' run'
    exact buildsWith_iff_of_start_eq_error hstart
  · intro clock'
    exact build_of_start_eq_error hstart
  · intro hs
    cases hearly with
    | discovery _ ht => exact ht
    | transcript hs' => cases hs.symm.trans hs'
  · intro hs
    cases hearly with
    | discovery hs' => cases hs.symm.trans hs'
    | transcript _ ht => exact ht
  · intro env clock' args a ha hs
    obtain ⟨hcode, htree⟩ := run_of_start_eq_error clock' hstart he ha hs
    refine ⟨hcode, htree, ?_⟩
    intro p _ f hf
    rw [htree]
    exact hearly.extends.find? hf

/-- The settings of a command line, and the run they come to if it ends before its tasks. -/
def endsEarly? (args : List String) (t : FileTree) : Option (Arguments × Settings × Run) :=
  match Arguments.parse args with
  | .error _ => none
  | .ok a =>
    match Settings.resolve t {} a with
    | .error _ => none
    | .ok s =>
      match start s t with
      | .error run => some (a, s, run)
      | .ok _ => none

theorem endsEarly?_eq_some {args : List String} {a : Arguments}
    (h : endsEarly? args t = some (a, s, run)) :
    Arguments.parse args = .ok a ∧ Settings.resolve t {} a = .ok s ∧
      BuildsWith (.always {}) s ⟨0⟩ t run := by
  unfold endsEarly? at h
  split at h
  · cases h
  · rename_i ha
    split at h
    · cases h
    · rename_i hs
      split at h
      · rename_i hstart
        cases h
        exact ⟨ha, hs, .ended hstart⟩
      · cases h

def failedStage? (run : Run) : Option RunStage :=
  match run.outcome with
  | .failed e => some e.stage
  | _ => none

theorem failedStage?_eq_some {stage : RunStage} (h : run.failedStage? = some stage) :
    ∃ e, run.outcome = .failed e ∧ e.stage = stage := by
  unfold failedStage? at h
  split at h
  · rename_i e he
    exact ⟨e, he, Option.some.inj h⟩
  · cases h

def earlier : File := { content := .data [123, 125] }

def twoClassesAndReport : FileTree := twoClasses.put [Text.Utf8.encode "r"] (.file earlier)

/-- A root that is missing leaves everything as it is. A log that is the directory around one
that is to hold it leaves that one, and the report. -/
theorem failure_leaves_results_of_two_failures :
    (∃ a s run, endsEarly? ["/absent"] twoClassesAndReport = some (a, s, run) ∧
      run.failedStage? = some .discovery ∧ run.tree = twoClassesAndReport) ∧
    ∃ a s run, endsEarly? ["/in", "-o", "/r", "--log", "/new/.."] twoClassesAndReport =
        some (a, s, run) ∧ run.failedStage? = some .transcript ∧
      run.tree.find? (.ofString "/new") = some .directory ∧
      twoClassesAndReport.GrowsTo run.tree s.log.holders ∧
      (Program.run {} ⟨0⟩ ["/in", "-o", "/r", "--log", "/new/.."]
        twoClassesAndReport).conclusion.exitCode = 1 ∧
      (Program.run {} ⟨0⟩ ["/in", "-o", "/r", "--log", "/new/.."]
        twoClassesAndReport).tree.find? (.ofString "/r") = some (.file earlier) := by
  constructor
  · have hends : (endsEarly? ["/absent"] twoClassesAndReport).map
        (fun (_, _, run) => run.failedStage?) = some (some .discovery) := by cbv
    obtain ⟨⟨a, s, run⟩, hrun, hstage⟩ := Option.map_eq_some_iff.1 hends
    obtain ⟨-, -, hb⟩ := endsEarly?_eq_some hrun
    obtain ⟨e, he, hdiscovery⟩ := failedStage?_eq_some hstage
    obtain ⟨-, -, -, -, htree, -⟩ := failure_leaves_results hb he
    exact ⟨a, s, run, hrun, hstage, htree hdiscovery⟩
  · have hends : (endsEarly? ["/in", "-o", "/r", "--log", "/new/.."] twoClassesAndReport).map
        (fun (_, s, run) => (run.failedStage?, run.tree.find? (.ofString "/new"), s.output)) =
        some (some .transcript, some .directory, .ofString "/r") := by cbv
    have hreport : twoClassesAndReport.find? (.ofString "/r") = some (.file earlier) := by cbv
    obtain ⟨⟨a, s, run⟩, hrun, hfacts⟩ := Option.map_eq_some_iff.1 hends
    obtain ⟨hstage, hrest⟩ := Prod.mk.inj hfacts
    obtain ⟨hnew, houtput⟩ := Prod.mk.inj hrest
    obtain ⟨ha, hs, hb⟩ := endsEarly?_eq_some hrun
    obtain ⟨e, he, htranscript⟩ := failedStage?_eq_some hstage
    obtain ⟨-, -, -, -, -, hgrows, hends⟩ := failure_leaves_results hb he
    obtain ⟨hcode, -, hkept⟩ := hends {} ⟨0⟩ _ a ha hs
    exact ⟨a, s, run, hrun, hstage, hnew, hgrows htranscript, hcode,
      hkept _ (by simp [houtput]) _ hreport⟩

end Run

end MemberIndex
