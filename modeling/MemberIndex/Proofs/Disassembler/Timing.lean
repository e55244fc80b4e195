import MemberIndex.Proofs.Disassembler.Lateness

/-! # Tasks in time

A tool prints, breaks off, closes its output and exits at moments of its own, while a task
takes lines and waits for the exit. In every such course the task's block holds exactly the
lines that were brought until its tool failed it, was too late, or ended.
-/

namespace MemberIndex

/-- A session, and what its reader has yet to bring. -/
structure Feed where
  session : Session
  pending : List (Except IoError String)

/-- How far a task has come with its tool when it is over: not as far as to start it, to
reading with so much not brought, or to waiting for the exit. -/
inductive Stage
  | unstarted
  | reading (left : List (Except IoError String))
  | waiting

namespace Feed

def start (now : Moment) (limit : Option Duration) (b : Behaviour) : Feed where
  session := {
    queue := []
    feeding := true
    child := .running
    diagnostics := Text.Utf8.decode b.diagnostics
    limit := limit
    deadline := limit.bind now.after? }
  pending := Session.deliveries b

/-- What a tool with a behaviour does next, and the reader of its output. -/
inductive Goes (b : Behaviour) : Feed → Feed → Prop
  | brings {s : Session} {x : Except IoError String} {rest : List (Except IoError String)}
    (hf : s.feeding = true) :
    Goes b ⟨s, x :: rest⟩ ⟨{ s with queue := s.queue ++ [x], feeding := x.isOk }, rest⟩
  | closes {s : Session} (hf : s.feeding = true) (hb : b.closesOutput = true) :
    Goes b ⟨s, []⟩ ⟨{ s with feeding := false }, []⟩
  | exits {s : Session} {rest : List (Except IoError String)} {status : ExitStatus}
    (hc : s.child = .running) (hb : b.ending = .exits status) :
    Goes b ⟨s, rest⟩ ⟨{ s with child := .ended status }, rest⟩
  | leaves {s : Session} {rest : List (Except IoError String)} {status : ExitStatus}
    (hc : s.child = .running) (hb : b.ending = .leaves status) :
    Goes b ⟨s, rest⟩ ⟨{ s with child := .ended status, held := true }, rest⟩
  | holds {s : Session} {rest : List (Except IoError String)} (held : Bool)
    (hb : ∀ status, b.ending ≠ .leaves status) : Goes b ⟨s, rest⟩ ⟨{ s with held := held }, rest⟩

inductive Awaits (b : Behaviour) : Feed → Except TaskError ToolEnd → Prop
  | goes {w v : Feed} {r : Except TaskError ToolEnd} (h : Goes b w v) (ha : Awaits b v r) :
    Awaits b w r
  | answer {w : Feed} {now : Moment} {r : Except TaskError ToolEnd} {s : Session}
    (h : w.session.finish now = (.answer r, s)) : Awaits b w r

/-- Reading into a block and a record, up to an error or the end, and then waiting. -/
inductive Attends (b : Behaviour) : Block → Members → Feed → Attempt → Stage → Prop
  | goes {block : Block} {m : Members} {w v : Feed} {a : Attempt} {stage : Stage}
    (h : Goes b w v) (ha : Attends b block m v a stage) : Attends b block m w a stage
  | line {block : Block} {m : Members} {w : Feed} {now : Moment} {l : String} {s : Session}
    {a : Attempt} {stage : Stage} (h : w.session.next now = (.answer (some (.ok l)), s))
    (ha : Attends b (block.push l) (m.scanLine l) ⟨s, w.pending⟩ a stage) :
    Attends b block m w a stage
  | breaks {block : Block} {m : Members} {w : Feed} {now : Moment} {e : TaskError}
    {s : Session} (h : w.session.next now = (.answer (some (.error e)), s)) :
    Attends b block m w ⟨block, .error e⟩ (.reading w.pending)
  | ends {block : Block} {m : Members} {w : Feed} {now : Moment} {s : Session}
    {r : Except TaskError ToolEnd} (h : w.session.next now = (.answer none, s))
    (ha : Awaits b ⟨s, w.pending⟩ r) :
    Attends b block m w ⟨block, r.map (m, ·)⟩ .waiting

end Feed

/-- What an attempt on a tool with a behaviour comes to, by the stage at which it is over. -/
def Behaviour.Accounts (b : Behaviour) (limit : Option Duration) (header : String)
    (a : Attempt) (stage : Stage) : Prop :=
  match a.result, stage with
  | .error (.reading e), .reading left =>
    left = [] ∧ b.fault = some e ∧ a.block = ⟨header :: Text.openPipeLines b.output⟩
  | .error (.timeout d), .reading left =>
    limit = some d ∧ ∃ ls, ls.map .ok ++ left = Session.deliveries b ∧ a.block = ⟨header :: ls⟩
  | .error (.timeout d), .waiting =>
    limit = some d ∧ b.closesOutput = true ∧ a.block = ⟨header :: Text.pipeLines b.output⟩
  | .ok (m, exit), .waiting =>
    b.fault = none ∧ b.ending = .exits exit.status ∧
      exit.diagnostics = Text.Utf8.decode b.diagnostics ∧
      m = Members.ofLines (Text.pipeLines b.output) ∧
      a.block = ⟨header :: Text.pipeLines b.output⟩
  | _, _ => False

namespace Session

variable {s t : Session} {now : Moment} {b : Behaviour}

theorem next_eq_line {l : String} (h : s.next now = (.answer (some (.ok l)), t)) :
    ∃ rest, s.queue = .ok l :: rest ∧ t = { s with queue := rest } := by
  rcases next_eq_answer h with ⟨-, ha, -⟩ | ⟨-, l', rest, hq, ha, ht⟩ | ⟨-, -, -, ha, -⟩
  · cases ha
  · cases ha
    exact ⟨rest, hq, ht⟩
  · exact absurd rfl (ha l)

theorem next_eq_error {e : TaskError} (h : s.next now = (.answer (some (.error e)), t)) :
    (∃ x rest, s.queue = .error x :: rest ∧ e = .reading x) ∨
      (s.queue = [] ∧ s.deadline.isSome = true ∧ e = .timeout (s.limit.getD ⟨0⟩)) := by
  unfold next at h
  split at h
  · cases h
  · split at h
    · cases h
    · rename_i x rest hq
      cases h
      exact .inl ⟨x, rest, hq, rfl⟩
    · rename_i hq
      split at h
      · cases h
      · split at h
        · rename_i hx
          cases h
          refine .inr ⟨hq, ?_, rfl⟩
          cases hd : s.deadline <;> simp_all [expired]
        · cases h

theorem next_eq_end (hx : s.exhausted = false) (h : s.next now = (.answer none, t)) :
    s.queue = [] ∧ s.feeding = false ∧ t = { s with exhausted := true } := by
  unfold next at h
  simp only [hx, Bool.false_eq_true, if_false] at h
  split at h
  · cases h
  · cases h
  · rename_i hq
    split at h
    · rename_i hf
      cases h
      exact ⟨hq, by simpa using hf, rfl⟩
    · split at h <;> cases h

theorem finish_eq_answer {r : Except TaskError ToolEnd} (h : s.finish now = (.answer r, t)) :
    (∃ status, (s.child = .ended status ∨ s.child = .collected status) ∧ s.held = false ∧
      r = .ok ⟨status, s.diagnostics⟩) ∨
    (s.child = .running ∧ s.deadline.isSome = true ∧ r = .error (.timeout (s.limit.getD ⟨0⟩))) := by
  have hjoined : ∀ status, (if s.held then Reply.waiting else .answer (.ok ⟨status, s.diagnostics⟩),
      { s with child := .collected status }) = (Reply.answer r, t) →
      s.held = false ∧ r = .ok ⟨status, s.diagnostics⟩ := by
    intro status h
    cases hh : s.held <;> simp_all
  unfold finish at h
  split at h
  · rename_i status hc
    exact .inl ⟨status, .inl hc, hjoined status h⟩
  · rename_i status hc
    exact .inl ⟨status, .inr hc, hjoined status h⟩
  · rename_i hc
    split at h
    · rename_i hx
      cases h
      refine .inr ⟨hc, ?_, rfl⟩
      cases hd : s.deadline <;> simp_all [expired]
    · cases h

theorem deliveries_eq (b : Behaviour) :
    deliveries b = b.lines.map .ok ++ (b.fault.map .error).toList := rfl

theorem map_ok_inj {ls ls' : List String}
    (h : (ls.map .ok : List (Except IoError String)) = ls'.map .ok) : ls = ls' :=
  (List.map_inj_right fun _ _ => Except.ok.inj).1 h

theorem error_notMem_ok (e : IoError) (ls : List String) :
    (.error e : Except IoError String) ∉ ls.map .ok := by
  simp

/-- An error is the last of what is brought. -/
theorem of_error_deliveries {before after : List (Except IoError String)} {e : IoError}
    (h : before ++ .error e :: after = deliveries b) :
    b.fault = some e ∧ before = b.lines.map .ok ∧ after = [] := by
  rw [deliveries_eq] at h
  rcases List.append_eq_append_iff.1 h with ⟨middle, hl, hr⟩ | ⟨middle, hl, hr⟩
  · cases middle with
    | nil =>
      rw [List.append_nil] at hl
      cases hb : b.fault <;> simp_all
    | cons y middle =>
      cases hr
      exact absurd (hl ▸ List.mem_append_right before (List.mem_cons_self ..))
        (error_notMem_ok e b.lines)
  · cases hb : b.fault with
    | none => simp [hb] at hr
    | some x => cases middle <;> simp_all

theorem of_lines_deliveries {ls : List String} (h : ls.map .ok = deliveries b) :
    b.fault = none ∧ ls = b.lines := by
  rw [deliveries_eq] at h
  cases hb : b.fault with
  | some e =>
    refine absurd ?_ (error_notMem_ok e ls)
    simp [h, hb]
  | none =>
    refine ⟨rfl, map_ok_inj ?_⟩
    simpa [hb] using h

end Session

theorem Behaviour.lines_of_closesOutput {b : Behaviour} (h : b.closesOutput = true) :
    b.lines = Text.pipeLines b.output := by
  rw [lines, if_pos h]

theorem Behaviour.lines_of_fault {b : Behaviour} {e : IoError} (h : b.fault = some e) :
    b.lines = Text.openPipeLines b.output := by
  simp [lines, closesOutput, h]

namespace Feed

variable {b : Behaviour} {now : Moment} {limit : Option Duration} {w v : Feed} {ls : List String}

/-- A session of a tool that nobody has stopped. -/
structure Held (b : Behaviour) (limit : Option Duration) (s : Session) : Prop where
  under : s.limit = limit
  timed : s.deadline.isSome = true → limit.isSome = true
  tells : s.diagnostics = Text.Utf8.decode b.diagnostics
  child : s.child = .running ∨ ∃ status, s.child = .ended status ∧
    (b.ending = .exits status ∨ b.ending = .leaves status ∧ s.held = true)

theorem Held.goes (h : Held b limit w.session) (hg : Goes b w v) : Held b limit v.session := by
  cases hg with
  | brings | closes => exact ⟨h.under, h.timed, h.tells, h.child⟩
  | exits _ hb => exact ⟨h.under, h.timed, h.tells, .inr ⟨_, rfl, .inl hb⟩⟩
  | leaves _ hb => exact ⟨h.under, h.timed, h.tells, .inr ⟨_, rfl, .inr ⟨hb, rfl⟩⟩⟩
  | holds _ hb =>
    refine ⟨h.under, h.timed, h.tells, h.child.imp_right ?_⟩
    rintro ⟨status, hended, hown | ⟨hleft, -⟩⟩
    · exact ⟨status, hended, .inl hown⟩
    · exact absurd hleft (hb status)

theorem Held.timeout {s : Session} (h : Held b limit s) (hd : s.deadline.isSome = true) :
    limit = some (s.limit.getD ⟨0⟩) := by
  obtain ⟨d, rfl⟩ := Option.isSome_iff_exists.1 (h.timed hd)
  rw [h.under, Option.getD_some]

theorem Awaits.cases_of_held {r : Except TaskError ToolEnd} (h : Awaits b w r)
    (hw : Held b limit w.session) :
    (∃ status, b.ending = .exits status ∧
      r = .ok ⟨status, Text.Utf8.decode b.diagnostics⟩) ∨
    ∃ d, limit = some d ∧ r = .error (.timeout d) := by
  induction h with
  | goes hg _ ih => exact ih (hw.goes hg)
  | answer hn =>
    rcases Session.finish_eq_answer hn with ⟨status, hc, hfree, rfl⟩ | ⟨-, hd, rfl⟩
    · rcases hw.child with hrunning | ⟨own, hended, hb | ⟨-, hheld⟩⟩
      · simp [hrunning] at hc
      · obtain rfl : own = status := by simpa [hended] using hc
        exact .inl ⟨own, hb, by rw [hw.tells]⟩
      · cases hfree.symm.trans hheld
    · exact .inr ⟨_, hw.timeout hd, rfl⟩

/-- A session on its way, of which so many lines have been taken. -/
structure Took (b : Behaviour) (limit : Option Duration) (ls : List String) (w : Feed) : Prop
    extends Held b limit w.session where
  going : w.session.exhausted = false
  order : ls.map .ok ++ (w.session.queue ++ w.pending) = Session.deliveries b
  closed : w.session.feeding = false → w.pending = [] ∧ (b.fault = none → b.closesOutput = true)

theorem took_start (b : Behaviour) (limit : Option Duration) (now : Moment) :
    Took b limit [] (start now limit b) where
  under := rfl
  timed := by cases limit <;> simp [start]
  tells := rfl
  child := .inl rfl
  going := rfl
  order := rfl
  closed h := by cases h

theorem Took.goes (h : Took b limit ls w) (hg : Goes b w v) : Took b limit ls v := by
  refine ⟨h.toHeld.goes hg, ?_, ?_, ?_⟩
  · cases hg <;> exact h.going
  · have horder := h.order
    cases hg <;> simpa using horder
  · intro hclosed
    cases hg with
    | @brings s x rest hf =>
      -- the reader stops behind an error, and behind that nothing is left to bring
      obtain ⟨e, rfl⟩ : ∃ e, x = .error e := by
        cases x with
        | ok l => cases hclosed
        | error e => exact ⟨e, rfl⟩
      have hlast : ls.map .ok ++ s.queue ++ .error e :: rest = Session.deliveries b := by
        simpa using h.order
      obtain ⟨hfault, -, hrest⟩ := Session.of_error_deliveries hlast
      exact ⟨hrest, by simp [hfault]⟩
    | closes _ hb => exact ⟨rfl, fun _ => hb⟩
    | exits | leaves | holds => exact h.closed hclosed

theorem Took.line (h : Took b limit ls w) {l : String} {s : Session}
    (hn : w.session.next now = (.answer (some (.ok l)), s)) :
    Took b limit (ls ++ [l]) ⟨s, w.pending⟩ := by
  obtain ⟨rest, hq, rfl⟩ := Session.next_eq_line hn
  refine ⟨⟨h.under, h.timed, h.tells, h.child⟩, h.going, ?_, h.closed⟩
  have horder := h.order
  rw [hq] at horder
  simpa using horder

theorem Took.ended (h : Took b limit ls w) {s : Session}
    (hn : w.session.next now = (.answer none, s)) :
    Held b limit s ∧ b.fault = none ∧ b.closesOutput = true ∧ ls = Text.pipeLines b.output := by
  obtain ⟨hq, hf, rfl⟩ := Session.next_eq_end h.going hn
  obtain ⟨hpending, hcloses⟩ := h.closed hf
  have hall : ls.map .ok = Session.deliveries b := by
    simpa [hq, hpending] using h.order
  obtain ⟨hfault, rfl⟩ := Session.of_lines_deliveries hall
  have hb := hcloses hfault
  exact ⟨⟨h.under, h.timed, h.tells, h.child⟩, hfault, hb, Behaviour.lines_of_closesOutput hb⟩

/-- In whatever course, an attempt is over as its behaviour accounts for. -/
theorem Attends.accounts {header : String} {block : Block} {m : Members} {a : Attempt}
    {stage : Stage} (h : Attends b block m w a stage) (hw : Took b limit ls w)
    (hblock : block = ⟨header :: ls⟩) (hm : m = Members.ofLines ls) :
    b.Accounts limit header a stage := by
  induction h generalizing ls with
  | goes hg _ ih => exact ih (hw.goes hg) hblock hm
  | @line _ _ _ _ l _ _ _ hn _ ih =>
    apply ih (hw.line hn)
    · rw [hblock]
      rfl
    · rw [hm, Members.ofLines, Members.ofLines, List.foldl_append, List.foldl_cons, List.foldl_nil]
  | breaks hn =>
    subst hblock
    rcases Session.next_eq_error hn with ⟨e, rest, hq, rfl⟩ | ⟨hq, hd, rfl⟩
    · have hlast := hw.order
      rw [hq, List.cons_append] at hlast
      obtain ⟨hfault, hls, hrest⟩ := Session.of_error_deliveries hlast
      refine ⟨(List.append_eq_nil_iff.1 hrest).2, hfault, ?_⟩
      rw [← Behaviour.lines_of_fault hfault, Session.map_ok_inj hls]
    · refine ⟨hw.timeout hd, ls, ?_, rfl⟩
      simpa [hq] using hw.order
  | ends hn ha =>
    obtain ⟨hheld, hfault, hb, rfl⟩ := hw.ended hn
    subst hblock hm
    rcases ha.cases_of_held hheld with ⟨status, hstatus, rfl⟩ | ⟨d, hd, rfl⟩
    · exact ⟨hfault, hstatus, rfl, rfl, rfl⟩
    · exact ⟨hd, hb, rfl⟩

section Carried

variable {block : Block} {m : Members} {s : Session} {rest : List (Except IoError String)}
  {a : Attempt} {stage : Stage}

theorem attends_of_lines (he : s.exhausted = false) (hq : s.queue = []) (hf : s.feeding = true)
    (ls : List String)
    (h : Attends b ⟨block.lines ++ ls⟩ (ls.foldl Members.scanLine m) ⟨s, rest⟩ a stage) :
    Attends b block m ⟨s, ls.map .ok ++ rest⟩ a stage := by
  induction ls generalizing block m with
  | nil => simpa using h
  | cons l ls ih =>
    have hnext : ({ s with queue := s.queue ++ [.ok l], feeding := true } : Session).next ⟨0⟩ =
        (.answer (some (.ok l)), s) := by
      obtain ⟨queue, feeding, child, diagnostics, limit, deadline, exhausted, held⟩ := s
      cases he
      cases hq
      cases hf
      simp [Session.next]
    refine .goes (.brings hf) (.line hnext (ih ?_))
    simpa [Block.push] using h

theorem attends_of_fault (he : s.exhausted = false) (hq : s.queue = []) (hf : s.feeding = true)
    (e : IoError) :
    Attends b block m ⟨s, [.error e]⟩ ⟨block, .error (.reading e)⟩ (.reading []) := by
  have hnext : ({ s with queue := s.queue ++ [.error e], feeding := false } : Session).next ⟨0⟩ =
      (.answer (some (.error (.reading e))),
        { s with queue := [], feeding := false, exhausted := true }) := by
    simp [Session.next, he, hq]
  exact .goes (.brings hf) (.breaks hnext)

theorem attends_of_late (he : s.exhausted = false) (hq : s.queue = []) (hf : s.feeding = true)
    {d : Moment} (hd : s.deadline = some d) :
    Attends b block m ⟨s, rest⟩ ⟨block, .error (.timeout (s.limit.getD ⟨0⟩))⟩ (.reading rest) := by
  have hnext : s.next d = (.answer (some (.error s.abort.1)), s.abort.2) := by
    simp [Session.next, he, hq, hf, Session.expired_deadline hd]
  exact .breaks (w := ⟨s, rest⟩) hnext

theorem attends_of_awaits (he : s.exhausted = false) (hq : s.queue = []) (hf : s.feeding = true)
    (hb : b.closesOutput = true) {r : Except TaskError ToolEnd}
    (h : Awaits b ⟨{ s with feeding := false, exhausted := true }, []⟩ r) :
    Attends b block m ⟨s, []⟩ ⟨block, r.map (m, ·)⟩ .waiting := by
  have hnext : ({ s with feeding := false } : Session).next ⟨0⟩ =
      (.answer none, { s with feeding := false, exhausted := true }) := by
    simp [Session.next, he, hq]
  exact .goes (.closes hf hb) (.ends hnext h)

theorem awaits_of_exits (hc : s.child = .running) (hh : s.held = false) {status : ExitStatus}
    (hb : b.ending = .exits status) : Awaits b ⟨s, rest⟩ (.ok ⟨status, s.diagnostics⟩) := by
  have hfinish : ({ s with child := .ended status } : Session).finish ⟨0⟩ =
      (.answer (.ok ⟨status, s.diagnostics⟩), { s with child := .collected status }) := by
    simp [Session.finish, hh]
  exact .goes (.exits hc hb) (.answer hfinish)

theorem awaits_of_late (hc : s.child = .running) {d : Moment} (hd : s.deadline = some d) :
    Awaits b ⟨s, rest⟩ (.error (.timeout (s.limit.getD ⟨0⟩))) := by
  have hfinish : s.finish d = (.answer (.error s.abort.1), s.abort.2) := by
    simp [Session.finish, hc, Session.expired_deadline hd]
  exact .answer (w := ⟨s, rest⟩) hfinish

theorem exists_deadline (b : Behaviour) (hd : ∀ d ∈ limit, (now.after? d).isSome = true)
    {d : Duration} (hl : limit = some d) :
    ∃ t, (start now limit b).session.deadline = some t := by
  subst hl
  exact Option.isSome_iff_exists.1 (hd d rfl)

theorem attends_of_hearing_lines {x : Hearing} (hx : b.hearing? limit = some x)
    (hd : ∀ d ∈ limit, (now.after? d).isSome = true) :
    ∃ stage, Attends b block m ⟨(start now limit b).session, (b.fault.map .error).toList⟩
      ⟨block, x.ending.map (m, ·)⟩ stage := by
  unfold Behaviour.hearing? at hx
  split at hx
  · rename_i e hfault
    cases hx
    rw [hfault]
    exact ⟨_, attends_of_fault rfl rfl rfl e⟩
  · rename_i status hfault hending
    cases hx
    rw [hfault]
    have hb : b.closesOutput = true := by simp [Behaviour.closesOutput, hfault, hending]
    exact ⟨_, attends_of_awaits rfl rfl rfl hb (awaits_of_exits rfl rfl hending)⟩
  · cases hx
  · rename_i d hfault _ _
    cases hx
    rw [hfault]
    obtain ⟨t, ht⟩ := exists_deadline b hd rfl
    cases hb : b.closesOutput with
    | true => exact ⟨_, attends_of_awaits rfl rfl rfl hb (awaits_of_late rfl ht)⟩
    | false => exact ⟨_, attends_of_late rfl rfl rfl ht⟩
  · cases hx

/-- What is heard of a tool within its limit is one of its courses. -/
theorem attends_of_hearing {header : String} {x : Hearing}
    (hx : (b.within limit).hearing? limit = some x)
    (hd : ∀ d ∈ limit, (now.after? d).isSome = true) :
    ∃ stage, Attends b ⟨[header]⟩ ∅ (start now limit b)
      ⟨⟨header :: x.lines⟩, x.ending.map (Members.ofLines x.lines, ·)⟩ stage := by
  unfold Behaviour.within at hx
  split at hx
  · rename_i hlate
    obtain ⟨d, hl⟩ := Option.isSome_iff_exists.1 (Option.isSome_of_any hlate)
    obtain ⟨t, ht⟩ := exists_deadline b hd hl
    subst hl
    cases hx
    exact ⟨_, attends_of_late rfl rfl rfl ht⟩
  · obtain ⟨stage, h⟩ := attends_of_hearing_lines hx hd
    refine ⟨stage, attends_of_lines rfl rfl rfl b.lines ?_⟩
    rw [Behaviour.lines_of_hearing hx]
    exact h

end Carried

end Feed

end MemberIndex
