import MemberIndex.Run.Crew

/-! # Histories of runs

What a task does to the state that it shares is told by deeds, one for each step that
does anything. A run of a crew has a history, which names every deed with the place of
its task; the shared state is what the deeds of the history make of the first one, but
for the blocks that the log's writer has taken.
-/

namespace MemberIndex

/-- What a step of a task does to the shared state. -/
inductive Deed
  | tells (event : Event)
  | submits (block : Block)
  | records (identity : String) (m : Members) (replaced : Option Members)
  | counts
  | warns
  | collides
  | fails (task : FailedTask)

namespace Deed

def act (s : Shared) : Deed → Shared
  | tells e => s.emit e
  | submits b => { s with sink := s.sink.submit b }
  | records i m _ => { s with records := (s.records.put i m).2 }
  | counts => { s with extracted := s.extracted + 1 }
  | warns => { s with toolWarnings := s.toolWarnings + 1 }
  | collides => { s with collisions := s.collisions + 1 }
  | fails f => { s with failures := s.failures ++ [f] }

end Deed

/-- The turns of the task of a path while some records stand in the index: the phases
before and after, and the deeds of the turn. -/
inductive Turn (p : Workbench) (path : Path) (r : Records) : Phase → List Deed → Phase → Prop
  | announce : Turn p path r .scheduled [.tells (.processing path)] .announced
  | stray (h : identity? p.root path = none) :
    Turn p path r .announced [] (.refused (.identity path))
  | disassemble {i : String} {a : Attempt} (hi : identity? p.root path = some i)
    (ha : p.attempt path = .ok a) :
    Turn p path r .announced [.submits a.block] (.disassembled i a.result)
  | refuse {i : String} {e : TaskError} : Turn p path r (.disassembled i (.error e)) [] (.refused e)
  | record {i : String} {m : Members} {exit : ToolEnd} :
    Turn p path r (.disassembled i (.ok (m, exit))) [.records i m r[i]?] (.stored ⟨i, exit, r[i]?⟩)
  | count {o : Recording} : Turn p path r (.stored o) [.counts] (.counted o)
  | pass {o : Recording} (h : o.exit.status.success = true) :
    Turn p path r (.counted o) [] (.checked o)
  | warn {o : Recording} (h : o.exit.status.success = false) :
    Turn p path r (.counted o) [.warns] (.warned o)
  | tellExit {o : Recording} :
    Turn p path r (.warned o) [.tells (.exited path o.exit)] (.checked o)
  | settle {o : Recording} (h : o.replaced = none) : Turn p path r (.checked o) [] .finished
  | collide {o : Recording} {m : Members} (h : o.replaced = some m) :
    Turn p path r (.checked o) [.collides] (.collided o)
  | tellOverwritten {o : Recording} :
    Turn p path r (.collided o) [.tells (.overwritten path o.identity)] .finished
  | tellFailure {e : TaskError} : Turn p path r (.refused e) [.tells (.failed path e)] (.reported e)
  | fail {e : TaskError} : Turn p path r (.reported e) [.fails (.of path e)] .finished

section Turn

variable {p : Workbench} {path : Path} {phase phase' : Phase} {s s' : Shared}

theorem turn_of_advance (hp : phase ≠ .finished) (h : p.advance path s phase = .ok (phase', s')) :
    ∃ ds, Turn p path s.records phase ds phase' ∧ s' = ds.foldl Deed.act s := by
  cases phase with
  | scheduled =>
    cases h
    exact ⟨_, .announce, rfl⟩
  | announced =>
    cases hi : identity? p.root path with
    | none =>
      simp only [Workbench.advance, hi] at h
      cases h
      exact ⟨_, .stray hi, rfl⟩
    | some i =>
      cases ha : p.attempt path with
      | error e => simp [Workbench.advance, hi, ha, bind, Except.bind] at h
      | ok a =>
        simp only [Workbench.advance, hi, ha, bind, Except.bind] at h
        cases h
        exact ⟨_, .disassemble hi ha, rfl⟩
  | disassembled i result =>
    cases result with
    | error e =>
      cases h
      exact ⟨_, .refuse, rfl⟩
    | ok x =>
      cases h
      exact ⟨_, .record, rfl⟩
  | stored o =>
    cases h
    exact ⟨_, .count, rfl⟩
  | counted o =>
    cases hs : o.exit.status.success <;> simp only [Workbench.advance, hs] at h <;> cases h
    · exact ⟨_, .warn hs, rfl⟩
    · exact ⟨_, .pass hs, rfl⟩
  | warned o =>
    cases h
    exact ⟨_, .tellExit, rfl⟩
  | checked o =>
    cases hr : o.replaced <;> simp only [Workbench.advance, hr] at h <;> cases h
    · exact ⟨_, .settle hr, rfl⟩
    · exact ⟨_, .collide hr, rfl⟩
  | collided o =>
    cases h
    exact ⟨_, .tellOverwritten, rfl⟩
  | refused e =>
    cases h
    exact ⟨_, .tellFailure, rfl⟩
  | reported e =>
    cases h
    exact ⟨_, .fail, rfl⟩
  | finished => exact absurd rfl hp

theorem advance_of_turn {ds : List Deed} (h : Turn p path s.records phase ds phase') :
    phase ≠ .finished ∧ p.advance path s phase = .ok (phase', ds.foldl Deed.act s) := by
  cases h with
  | stray hi => exact ⟨nofun, by simp [Workbench.advance, hi]⟩
  | disassemble hi ha =>
    refine ⟨nofun, ?_⟩
    simp only [Workbench.advance, hi, ha, bind, Except.bind]
    rfl
  | pass hs | warn hs => exact ⟨nofun, by simp [Workbench.advance, hs, Deed.act]⟩
  | settle hr | collide hr => exact ⟨nofun, by simp [Workbench.advance, hr, Deed.act]⟩
  | _ => exact ⟨nofun, rfl⟩

end Turn

/-- The deeds of a run in their order, each with the place of its task. -/
abbrev History := List (Nat × Deed)

namespace History

def deeds (h : History) : List Deed := h.map (·.2)

def own (t : Nat) (h : History) : List Deed := (h.filter (·.1 = t)).map (·.2)

theorem deeds_append_turn (h : History) (n : Nat) (ds : List Deed) :
    (h ++ ds.map (n, ·)).deeds = h.deeds ++ ds := by
  simp [deeds, Function.comp_def]

end History

namespace Crew

/-- The runs of a crew, with the history that each has had since its beginning. -/
inductive Runs (p : Workbench) (c : Crew) : History → Crew → Prop
  | refl : Runs p c [] c
  | task {h : History} {before after : List (Path × Phase)} {path : Path} {phase phase' : Phase}
    {s : Shared} {ds : List Deed} (hr : Runs p c h ⟨before ++ (path, phase) :: after, s⟩)
    (ht : Turn p path s.records phase ds phase') :
    Runs p c (h ++ ds.map (before.length, ·))
      ⟨before ++ (path, phase') :: after, ds.foldl Deed.act s⟩
  | writer {h : History} {d : Crew} (hr : Runs p c h d) (hq : d.shared.sink.queue ≠ []) :
    Runs p c h ⟨d.tasks, { d.shared with sink := d.shared.sink.drainOne }⟩

/-- The runs of a crew in which the task at each place has a workbench of its own: another tool,
or the tool at another time. -/
inductive RunsWith (bench : Nat → Workbench) (c : Crew) : History → Crew → Prop
  | refl : RunsWith bench c [] c
  | task {h : History} {before after : List (Path × Phase)} {path : Path} {phase phase' : Phase}
    {s : Shared} {ds : List Deed} (hr : RunsWith bench c h ⟨before ++ (path, phase) :: after, s⟩)
    (ht : Turn (bench before.length) path s.records phase ds phase') :
    RunsWith bench c (h ++ ds.map (before.length, ·))
      ⟨before ++ (path, phase') :: after, ds.foldl Deed.act s⟩
  | writer {h : History} {d : Crew} (hr : RunsWith bench c h d) (hq : d.shared.sink.queue ≠ []) :
    RunsWith bench c h ⟨d.tasks, { d.shared with sink := d.shared.sink.drainOne }⟩

theorem Runs.runsWith {p : Workbench} {c d : Crew} {h : History} (hr : Runs p c h d) :
    RunsWith (fun _ => p) c h d := by
  induction hr with
  | refl => exact .refl
  | task _ ht ih => exact .task ih ht
  | writer _ hq ih => exact .writer ih hq

theorem reaches_iff_runs {p : Workbench} {c d : Crew} : Reaches p c d ↔ ∃ h, Runs p c h d := by
  constructor
  · intro h
    induction h with
    | refl => exact ⟨[], .refl⟩
    | tail _ hs ih =>
      obtain ⟨h, hr⟩ := ih
      cases hs with
      | task hp ha =>
        obtain ⟨ds, ht, rfl⟩ := turn_of_advance hp ha
        exact ⟨_, .task hr ht⟩
      | writer _ hq => exact ⟨h, .writer hr hq⟩
  · rintro ⟨h, hr⟩
    induction hr with
    | refl => exact .refl _
    | task _ ht ih =>
      obtain ⟨hp, ha⟩ := advance_of_turn ht
      exact .tail ih (.task hp ha)
    | writer _ hq ih => exact .tail ih (.writer _ hq)

end Crew

end MemberIndex
