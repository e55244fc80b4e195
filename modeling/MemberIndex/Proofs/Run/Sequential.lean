import MemberIndex.Proofs.Run.InOrder

/-! # One worker is a fold

What one worker does comes to one task after another, each done at once and then counted and
told. The log's writer may take blocks at any time meanwhile; once it has emptied its queue, the
log is the same too.
-/

namespace MemberIndex

namespace Sink

variable {k l : Sink}

theorem drain_eq_iff : k.drain = l.drain ↔ k.submitted = l.submitted ∧
    Writer.push (k.writer, k.failure) (k.queue.flatMap Block.render) =
      Writer.push (l.writer, l.failure) (l.queue.flatMap Block.render) := by
  obtain ⟨hq, hs, hw⟩ := k.drain_spec
  obtain ⟨hq', hs', hw'⟩ := l.drain_spec
  rw [← hs, ← hs', ← hw, ← hw']
  constructor
  · intro h
    rw [h]
    exact ⟨rfl, rfl⟩
  · rintro ⟨hsubmitted, hwritten⟩
    exact eq_of_fields hwritten (hq.trans hq'.symm) hsubmitted

theorem drain_drainOne (hq : k.queue ≠ []) : k.drainOne.drain = k.drain := by
  obtain ⟨b, rest, h⟩ := List.exists_cons_of_ne_nil hq
  obtain ⟨hrest, hsubmitted, hwritten⟩ := drainOne_of_cons h
  rw [drain_eq_iff, hrest, hwritten, h, List.flatMap_cons, Writer.push_append]
  exact ⟨hsubmitted, rfl⟩

theorem drain_submit_congr (h : k.drain = l.drain) (b : Block) :
    (k.submit b).drain = (l.submit b).drain := by
  obtain ⟨hsubmitted, hwritten⟩ := drain_eq_iff.1 h
  have hpush (k : Sink) : Writer.push ((k.submit b).writer, (k.submit b).failure)
      ((k.submit b).queue.flatMap Block.render) =
        Writer.push (Writer.push (k.writer, k.failure) (k.queue.flatMap Block.render))
          b.render := by
    obtain ⟨hw, hf, hq⟩ := k.foldl_submit_spec [b]
    rw [List.foldl_cons, List.foldl_nil] at hw hf hq
    rw [hw, hf, hq, Writer.push_append, List.flatMap_singleton]
  rw [drain_eq_iff, submitted_submit, submitted_submit, hsubmitted, hpush, hpush, hwritten]
  exact ⟨rfl, rfl⟩

end Sink

namespace Shared

variable {s s' : Shared}

/-- The states differ at most in what the log's writer has taken of the same blocks. -/
structure Agrees (s s' : Shared) : Prop where
  eq : s = { s' with sink := s.sink }
  drained : s.sink.drain = s'.sink.drain

theorem Agrees.refl (s : Shared) : s.Agrees s := ⟨rfl, rfl⟩

theorem Agrees.records (h : s.Agrees s') : s.records = s'.records := by
  rw [h.eq]

theorem Agrees.act (h : s.Agrees s') (d : Deed) : (d.act s).Agrees (d.act s') := by
  obtain ⟨heq, hdrained⟩ := h
  cases d with
  | submits b =>
    refine ⟨?_, Sink.drain_submit_congr hdrained b⟩
    rw [heq]
    rfl
  | _ =>
    refine ⟨?_, hdrained⟩
    rw [heq]
    rfl

theorem Agrees.foldl (h : s.Agrees s') (ds : List Deed) :
    (ds.foldl Deed.act s).Agrees (ds.foldl Deed.act s') := by
  induction ds generalizing s s' with
  | nil => exact h
  | cons d ds ih => exact ih (h.act d)

theorem Agrees.drainOne (h : s.Agrees s') (hq : s.sink.queue ≠ []) :
    Agrees { s with sink := s.sink.drainOne } s' where
  eq := by rw [h.eq]
  drained := (Sink.drain_drainOne hq).trans h.drained

def account (s : Shared) (path : Path) : Except TaskError Recording → Shared
  | .error e =>
    { s.emit (.failed path e) with failures := s.failures ++ [.of path e] }
  | .ok o =>
    { s with
      extracted := s.extracted + 1
      toolWarnings := s.toolWarnings + if o.exit.status.success then 0 else 1
      collisions := s.collisions + if o.replaced.isNone then 0 else 1
      events := s.events ++ (if o.exit.status.success then [] else [.exited path o.exit]) ++
        if o.replaced.isNone then [] else [.overwritten path o.identity] }

end Shared

namespace Workbench

variable {p : Workbench} {path : Path} {phase phase' : Phase} {s s' : Shared} {n : Nat}

/-- One task done at once on the records and the log, and then counted and told. -/
def serve (p : Workbench) (s : Shared) (path : Path) : Except Stall Shared := do
  let (outcome, records, sink) ← p.process path s.records s.sink
  return ({ s.emit (.processing path) with records := records, sink := sink } : Shared).account
    path outcome

theorem advanceBy_of_turn {ds : List Deed} (ht : Turn p path s.records phase ds phase') (n : Nat) :
    p.advanceBy path (n + 1) phase s = p.advanceBy path n phase' (ds.foldl Deed.act s) := by
  rw [advanceBy, (advance_of_turn ht).2]
  rfl

theorem advanceBy_finished (n : Nat) : p.advanceBy path n .finished s = .ok (.finished, s) := by
  induction n with
  | zero => rfl
  | succ n ih => exact ih

theorem advanceBy_concat {phase'' : Phase} {s'' : Shared}
    (h : p.advanceBy path n phase s = .ok (phase', s'))
    (ha : p.advance path s' phase' = .ok (phase'', s'')) :
    p.advanceBy path (n + 1) phase s = .ok (phase'', s'') := by
  induction n generalizing phase s with
  | zero =>
    cases h
    simp only [advanceBy, ha, bind, Except.bind]
  | succ n ih =>
    unfold advanceBy at h ⊢
    cases hstep : p.advance path s phase with
    | error e => simp [hstep, bind, Except.bind] at h
    | ok x =>
      simp only [hstep, bind, Except.bind] at h ⊢
      exact ih h

theorem runTask_of_advanceBy (h : p.advanceBy path n .scheduled s = .ok (.finished, s'))
    (hn : n ≤ Phase.scheduled.remaining) : p.runTask path s = .ok s' := by
  have hmore (k : Nat) : p.advanceBy path (n + k) .scheduled s = .ok (.finished, s') := by
    induction k with
    | zero => exact h
    | succ k ih => exact advanceBy_concat ih rfl
  have hall := hmore (Phase.scheduled.remaining - n)
  rw [Nat.add_sub_cancel' hn] at hall
  rw [runTask, hall]
  rfl

theorem advanceBy_announced_error (hi : ∃ i, identity? p.root path = some i) {e : Stall}
    (ha : p.attempt path = .error e) (n : Nat) :
    p.advanceBy path (n + 1) .announced s = .error e := by
  obtain ⟨i, hi⟩ := hi
  simp only [advanceBy, advance, hi, ha, bind, Except.bind]

theorem advanceBy_counted (o : Recording) (s : Shared) :
    p.advanceBy path 4 (.counted o) { s with extracted := s.extracted + 1 } =
      .ok (.finished, s.account path (.ok o)) := by
  cases hs : o.exit.status.success with
  | true =>
    rw [advanceBy_of_turn (.pass hs)]
    cases hr : o.replaced with
    | none =>
      rw [advanceBy_of_turn (.settle hr), advanceBy_finished]
      simp [Shared.account, hs, hr]
    | some m =>
      rw [advanceBy_of_turn (.collide hr), advanceBy_of_turn .tellOverwritten, advanceBy_finished]
      simp [Shared.account, Deed.act, Shared.emit, hs, hr]
  | false =>
    rw [advanceBy_of_turn (.warn hs), advanceBy_of_turn .tellExit]
    cases hr : o.replaced with
    | none =>
      rw [advanceBy_of_turn (.settle hr), advanceBy_finished]
      simp [Shared.account, Deed.act, Shared.emit, hs, hr]
    | some m =>
      rw [advanceBy_of_turn (.collide hr), advanceBy_of_turn .tellOverwritten, advanceBy_finished]
      simp [Shared.account, Deed.act, Shared.emit, hs, hr]

/-- The steps of a task with nothing in between are the task done at once. -/
theorem runTask_eq_serve (p : Workbench) (path : Path) (s : Shared) :
    p.runTask path s = p.serve s path := by
  rw [runTask, Phase.remaining, advanceBy_of_turn .announce, serve, process]
  cases hi : identity? p.root path with
  | none =>
    rw [advanceBy_of_turn (.stray hi), advanceBy_of_turn .tellFailure, advanceBy_of_turn .fail,
      advanceBy_finished]
    rfl
  | some i =>
    cases ha : p.attempt path with
    | error e =>
      rw [advanceBy_announced_error ⟨i, hi⟩ ha]
      rfl
    | ok a =>
      rw [advanceBy_of_turn (.disassemble hi ha)]
      obtain ⟨block, result⟩ := a
      cases result with
      | error e =>
        rw [advanceBy_of_turn .refuse, advanceBy_of_turn .tellFailure, advanceBy_of_turn .fail,
          advanceBy_finished]
        rfl
      | ok x =>
        obtain ⟨m, exit⟩ := x
        rw [advanceBy_of_turn .record, advanceBy_of_turn .count]
        exact congrArg (· >>= fun y => pure y.2) (advanceBy_counted ⟨i, exit, s.records[i]?⟩ _)

theorem foldlM_serve_of_runTasks {paths : List Path} (h : p.runTasks s paths = (none, s')) :
    paths.foldlM p.serve s = .ok s' := by
  induction paths generalizing s with
  | nil =>
    cases h
    rfl
  | cons path paths ih =>
    obtain ⟨s₁, hs, hrest⟩ := runTasks_cons h
    rw [runTask_eq_serve] at hs
    rw [List.foldlM_cons, hs]
    exact ih hrest

end Workbench

namespace Crew

variable {p : Workbench} {path : Path} {phase : Phase} {paths : List Path}
  {rest : List (Path × Phase)} {s : Shared} {d : Crew}

theorem Works.cons_cases (hw : Works p 1 ⟨(path, phase) :: rest, s⟩ d) :
    ∃ phase' rest', d.tasks = (path, phase') :: rest' ∧
      ((rest' = rest ∧ Works p 1 ⟨[(path, phase)], s⟩ ⟨[(path, phase')], d.shared⟩) ∨
        phase' = .finished ∧ ∃ s₁, Works p 1 ⟨[(path, phase)], s⟩ ⟨[(path, .finished)], s₁⟩ ∧
          Works p 1 ⟨rest, s₁⟩ ⟨rest', d.shared⟩) := by
  induction hw with
  | refl => exact ⟨phase, rest, rfl, .inl ⟨rfl, .refl⟩⟩
  | @task before after path' ph ph' t t' _ hb hp h ih =>
    obtain ⟨phase', rest', htasks, hcases⟩ := ih
    cases before with
    | nil =>
      cases htasks
      rcases hcases with ⟨rfl, hfirst⟩ | ⟨hfinished, -⟩
      · have htask : Works p 1 ⟨[(path, phase)], s⟩ ⟨[] ++ (path, ph') :: [], t'⟩ :=
          .task hfirst (fun _ => by simp) hp h
        exact ⟨ph', _, rfl, .inl ⟨rfl, htask⟩⟩
      · exact absurd hfinished hp
    | cons b before =>
      cases htasks
      have hfinished : phase' = .finished := hb rfl _ List.mem_cons_self
      have hbefore : 1 = 1 → ∀ t ∈ before, t.2 = .finished :=
        fun _ t ht => hb rfl t (List.mem_cons_of_mem _ ht)
      subst hfinished
      refine ⟨_, _, rfl, .inr ⟨rfl, ?_⟩⟩
      rcases hcases with ⟨rfl, hfirst⟩ | ⟨-, s₁, hfirst, hrest⟩
      · exact ⟨t, hfirst, .task .refl hbefore hp h⟩
      · exact ⟨s₁, hfirst, .task hrest hbefore hp h⟩
  | writer _ hq ih =>
    obtain ⟨phase', rest', htasks, ⟨rfl, hfirst⟩ | ⟨hfinished, s₁, hfirst, hrest⟩⟩ := ih
    · exact ⟨phase', _, htasks, .inl ⟨rfl, .writer hfirst hq⟩⟩
    · exact ⟨phase', rest', htasks, .inr ⟨hfinished, s₁, hfirst, .writer hrest hq⟩⟩

theorem Works.exists_advanceBy {s₀ : Shared} (hw : Works p 1 ⟨[(path, phase)], s⟩ d)
    (hs : s.Agrees s₀) :
    ∃ phase' n s', d.tasks = [(path, phase')] ∧ p.advanceBy path n phase s₀ = .ok (phase', s') ∧
      d.shared.Agrees s' ∧ n + phase'.remaining ≤ phase.remaining := by
  induction hw with
  | refl => exact ⟨phase, 0, s₀, rfl, rfl, hs, by simp⟩
  | @task before after path' ph ph' t t' _ hb hp h ih =>
    obtain ⟨phase', n, s', htasks, hsteps, hagrees, hn⟩ := ih
    obtain ⟨rfl, htasks⟩ : before = [] ∧ (path', ph) :: after = [(path, phase')] := by
      cases before with
      | nil => exact ⟨rfl, htasks⟩
      | cons b before => cases before <;> cases htasks
    cases htasks
    obtain ⟨ds, ht, rfl⟩ := turn_of_advance hp h
    have hless := Workbench.remaining_advance h
    have hpos : 0 < ph.remaining := by
      cases ph <;> first | exact absurd rfl hp | exact Nat.succ_pos _
    have ht' : Turn p path s'.records ph ds ph' := hagrees.records ▸ ht
    refine ⟨ph', n + 1, _, rfl, Workbench.advanceBy_concat hsteps (advance_of_turn ht').2,
      hagrees.foldl ds, ?_⟩
    omega
  | writer _ hq ih =>
    obtain ⟨phase', n, s', htasks, hsteps, hagrees, hn⟩ := ih
    exact ⟨phase', n, s', htasks, hsteps, hagrees.drainOne hq, hn⟩

theorem Works.agrees_of_nil {s₀ : Shared} (hw : Works p 1 ⟨[], s⟩ d) (hs : s.Agrees s₀) :
    d.tasks = [] ∧ d.shared.Agrees s₀ := by
  induction hw with
  | refl => exact ⟨rfl, hs⟩
  | task _ _ _ _ ih => simp at ih
  | writer _ hq ih => exact ⟨ih.1, ih.2.drainOne hq⟩

/-- What one worker has done when all tasks are finished is what the tasks do one after
another. -/
theorem Works.exists_runTasks {s₀ : Shared} (hw : Works p 1 (.init paths s) d) (hd : d.IsDone)
    (hs : s.Agrees s₀) : ∃ s', p.runTasks s₀ paths = (none, s') ∧ d.shared.Agrees s' := by
  induction paths generalizing s s₀ d with
  | nil => exact ⟨s₀, rfl, (hw.agrees_of_nil hs).2⟩
  | cons path paths ih =>
    obtain ⟨phase', rest', htasks, hcases⟩ := hw.cons_cases
    obtain rfl : phase' = .finished := by
      apply hd (path, phase')
      rw [htasks]
      exact List.mem_cons_self
    obtain ⟨s₁, hfirst, hrest⟩ : ∃ s₁,
        Works p 1 ⟨[(path, .scheduled)], s⟩ ⟨[(path, .finished)], s₁⟩ ∧
          Works p 1 (.init paths s₁) ⟨rest', d.shared⟩ := by
      rcases hcases with ⟨rfl, hfirst⟩ | ⟨-, s₁, hfirst, hrest⟩
      · exact ⟨d.shared, hfirst, .refl⟩
      · exact ⟨s₁, hfirst, hrest⟩
    have hdone : IsDone ⟨rest', d.shared⟩ := by
      intro t ht
      apply hd t
      rw [htasks]
      exact List.mem_cons_of_mem _ ht
    obtain ⟨phase', n, s', hone, hsteps, hagrees, hn⟩ := hfirst.exists_advanceBy hs
    cases hone
    have htask := Workbench.runTask_of_advanceBy hsteps (by simpa [Phase.remaining] using hn)
    obtain ⟨s'', hall, hend⟩ := ih hrest hdone hagrees
    refine ⟨s'', ?_, hend⟩
    rw [Workbench.runTasks, htask]
    exact hall

theorem Works.exists_foldlM (hw : Works p 1 (.init paths s) d) (hd : d.IsDone) :
    ∃ s', paths.foldlM p.serve s = .ok s' ∧ d.shared.Agrees s' := by
  obtain ⟨s', hall, hagrees⟩ := hw.exists_runTasks hd (.refl s)
  exact ⟨s', Workbench.foldlM_serve_of_runTasks hall, hagrees⟩

end Crew

end MemberIndex
