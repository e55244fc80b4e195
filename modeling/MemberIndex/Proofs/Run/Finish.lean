import MemberIndex.Proofs.Run.Replay

/-! # Finished runs

What each task gives to a finished run, whatever the order of the steps: its entry or its
failure, its block, and one or no warning.
-/

namespace MemberIndex

namespace Workbench

variable {p : Workbench} {path : Path} {ds : List Deed}

/-- The entry that the task of a path puts into the records, if it ends well. -/
def row? (p : Workbench) (path : Path) : Option (String × Members) :=
  (p.finding? path).map fun x => (x.identity, x.members)

def isWarned (p : Workbench) (path : Path) : Bool :=
  (p.finding? path).any fun x => !x.exit.status.success

def failedTask? (p : Workbench) (path : Path) : Option FailedTask :=
  (p.failure? path).map (.of path)

theorem finding?_of_failure {e : TaskError} (h : p.failure? path = some e) :
    p.finding? path = none := by
  unfold failure? at h
  unfold finding?
  cases hi : identity? p.root path with
  | none => rfl
  | some i =>
    cases hx : p.tool.hearing? path with
    | none => rfl
    | some x =>
      obtain ⟨ls, ending⟩ := x
      cases ending <;> simp_all

theorem failure?_of_finding {x : Finding} (h : p.finding? path = some x) :
    p.failure? path = none := by
  cases hf : p.failure? path with
  | none => rfl
  | some e => simp [finding?_of_failure hf] at h

theorem identity?_of_finding {x : Finding} (h : p.finding? path = some x) :
    identity? p.root path = some x.identity := by
  unfold finding? at h
  split at h
  · rename_i hi _
    cases h
    exact hi
  · cases h

theorem identity?_of_row {e : String × Members} (h : p.row? path = some e) :
    identity? p.root path = some e.1 := by
  obtain ⟨x, hx, rfl⟩ := Option.map_eq_some_iff.1 h
  exact identity?_of_finding hx

/-- What the deeds of a whole task come to, part by part. -/
structure Yields (p : Workbench) (path : Path) (ds : List Deed) : Prop where
  entry : ds.filterMap Deed.row? = (p.row? path).toList
  failedTask : ds.filterMap Deed.failedTask? = (p.failedTask? path).toList
  block : ds.filterMap Deed.block? = (p.block? path).toList
  count : ds.countP Deed.isCount = if (p.finding? path).isSome then 1 else 0
  warning : ds.countP Deed.isWarning = if p.isWarned path then 1 else 0
  collision : ds.countP Deed.isCollision = ds.countP Deed.isReplacement

theorem Story.yields (h : p.Story path ds) : p.Yields path ds := by
  cases h with
  | @failed e he =>
    have hx := finding?_of_failure he
    constructor <;> cases hb : p.block? path <;>
      simp [prelude, hb, row?, failedTask?, isWarned, hx, he, List.filterMap_cons]
  | @recorded x hx replaced =>
    have he := failure?_of_finding hx
    constructor <;> cases hb : p.block? path <;> cases replaced <;>
      cases hs : x.exit.status.success <;>
      simp [prelude, warnings, hb, hs, row?, failedTask?, isWarned, hx, he, List.filterMap_cons,
        List.countP_cons]

end Workbench

namespace Crew

variable {p : Workbench} {paths : List Path} {s : Shared} {h : History} {d : Crew}

section

variable (hr : Runs p (.init paths s) h d) (hd : d.IsDone)
include hr hd

theorem Runs.entries : (h.deeds.filterMap Deed.row?).Perm (paths.filterMap p.row?) := by
  obtain ⟨stories, hs, hp⟩ := hr.exists_stories hd
  rw [← filterMap_flatten_of_forall₂ hs fun _ _ h => h.yields.entry]
  exact hp.filterMap _

theorem Runs.failedTasks :
    (h.deeds.filterMap Deed.failedTask?).Perm (paths.filterMap p.failedTask?) := by
  obtain ⟨stories, hs, hp⟩ := hr.exists_stories hd
  rw [← filterMap_flatten_of_forall₂ hs fun _ _ h => h.yields.failedTask]
  exact hp.filterMap _

theorem Runs.blocks : (h.deeds.filterMap Deed.block?).Perm (paths.filterMap p.block?) := by
  obtain ⟨stories, hs, hp⟩ := hr.exists_stories hd
  rw [← filterMap_flatten_of_forall₂ hs fun _ _ h => h.yields.block]
  exact hp.filterMap _

theorem Runs.counts : h.deeds.countP Deed.isCount = paths.countP (p.finding? · |>.isSome) := by
  obtain ⟨stories, hs, hp⟩ := hr.exists_stories hd
  rw [← countP_flatten_of_forall₂ hs fun _ _ h => h.yields.count]
  exact hp.countP_eq _

theorem Runs.warnings : h.deeds.countP Deed.isWarning = paths.countP p.isWarned := by
  obtain ⟨stories, hs, hp⟩ := hr.exists_stories hd
  rw [← countP_flatten_of_forall₂ hs fun _ _ h => h.yields.warning]
  exact hp.countP_eq _

theorem Runs.collisions :
    h.deeds.countP Deed.isCollision = h.deeds.countP Deed.isReplacement := by
  obtain ⟨stories, hs, hp⟩ := hr.exists_stories hd
  rw [hp.countP_eq, hp.countP_eq, countP_flatten_congr hs fun _ _ h => h.yields.collision]

end

end Crew

end MemberIndex
