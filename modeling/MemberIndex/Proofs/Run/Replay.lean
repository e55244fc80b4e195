import MemberIndex.Proofs.Records
import MemberIndex.Proofs.Run.Story
import MemberIndex.Proofs.Transcript.Writing

/-! # Replaying a history

The shared state of a run is read off its history, but for the blocks that the log's
writer has taken. For a finished run its parts are sums and merges over the tasks.
-/

namespace MemberIndex

namespace Deed

@[simp] def isCount : Deed → Bool
  | counts => true
  | _ => false

@[simp] def isWarning : Deed → Bool
  | warns => true
  | _ => false

@[simp] def isCollision : Deed → Bool
  | collides => true
  | _ => false

@[simp] def isReplacement : Deed → Bool
  | records _ _ replaced => replaced.isSome
  | _ => false

@[simp] def event? : Deed → Option Event
  | tells e => some e
  | _ => none

@[simp] def block? : Deed → Option Block
  | submits b => some b
  | _ => none

@[simp] def row? : Deed → Option (String × Members)
  | records i m _ => some (i, m)
  | _ => none

@[simp] def failedTask? : Deed → Option FailedTask
  | fails f => some f
  | _ => none

end Deed

namespace Shared

/-- A shared state after deeds, if the log's writer takes nothing meanwhile. -/
def after (s : Shared) (ds : List Deed) : Shared where
  records := s.records.putAll (ds.filterMap Deed.row?)
  sink := (ds.filterMap Deed.block?).foldl Sink.submit s.sink
  extracted := s.extracted + ds.countP Deed.isCount
  toolWarnings := s.toolWarnings + ds.countP Deed.isWarning
  collisions := s.collisions + ds.countP Deed.isCollision
  failures := s.failures ++ ds.filterMap Deed.failedTask?
  events := s.events ++ ds.filterMap Deed.event?

variable (s : Shared) (ds es : List Deed)

@[simp] theorem after_nil : s.after [] = s := by simp [after, Records.putAll]

theorem after_append : s.after (ds ++ es) = (s.after ds).after es := by
  simp [after, Records.putAll_append, List.foldl_append, Nat.add_assoc]

theorem after_singleton (d : Deed) : s.after [d] = d.act s := by
  cases d <;> simp [after, Deed.act, Shared.emit, Records.putAll, List.filterMap_cons]

theorem foldl_act : ds.foldl Deed.act s = s.after ds := by
  induction ds generalizing s with
  | nil => simp
  | cons d ds ih =>
    rw [List.foldl_cons, ih, ← after_singleton, ← after_append]
    rfl

end Shared

namespace Crew

variable {p : Workbench} {bench : Nat → Workbench} {c d : Crew} {h : History}

theorem RunsWith.shared_eq (hr : RunsWith bench c h d) :
    d.shared = { c.shared.after h.deeds with sink := d.shared.sink } := by
  induction hr with
  | refl => simp [History.deeds]
  | @task h before after path phase phase' s ds _ _ ih =>
    rw [History.deeds_append_turn, Shared.foldl_act, Shared.after_append]
    change s = { c.shared.after h.deeds with sink := s.sink } at ih
    change s.after ds = _
    conv_lhs => rw [ih]
    rfl
  | writer _ _ ih => rw [ih]

theorem Runs.shared_eq (hr : Runs p c h d) :
    d.shared = { c.shared.after h.deeds with sink := d.shared.sink } :=
  hr.runsWith.shared_eq

theorem Runs.submitted (hr : Runs p c h d) :
    d.shared.sink.submitted =
      c.shared.sink.submitted + ((h.deeds.filterMap Deed.block?).map Block.size).sum := by
  induction hr with
  | refl => simp [History.deeds]
  | task _ _ ih =>
    rw [Shared.foldl_act, History.deeds_append_turn, List.filterMap_append, List.map_append,
      List.sum_append, ← Nat.add_assoc, ← ih]
    exact Sink.submitted_foldl_submit _ _
  | writer _ _ ih => exact (Sink.submitted_drainOne _).trans ih

/-- Every record put either adds to the size or replaces another one. -/
theorem Runs.size_records (hr : Runs p c h d) :
    d.shared.records.size + h.deeds.countP Deed.isReplacement =
      c.shared.records.size + (h.deeds.filterMap Deed.row?).length := by
  induction hr with
  | refl => rfl
  | @task h before after path phase phase' s ds _ ht ih =>
    have hturn : (ds.foldl Deed.act s).records.size + ds.countP Deed.isReplacement =
        s.records.size + (ds.filterMap Deed.row?).length := by
      cases ht with
      | @record i m exit =>
        simpa [Deed.act, Deed.isReplacement, Deed.row?] using s.records.size_put i m
      | _ => rfl
    rw [History.deeds_append_turn, List.countP_append, List.filterMap_append, List.length_append]
    change s.records.size + _ = _ at ih
    change (ds.foldl Deed.act s).records.size + _ = _
    omega
  | writer _ _ ih => exact ih

end Crew

end MemberIndex
