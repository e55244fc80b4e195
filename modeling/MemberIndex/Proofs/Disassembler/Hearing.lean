import MemberIndex.Run.Task

/-! # What is heard of a tool

All that a task gets of a tool is settled by the tool's behaviour within its limit: the
lines up to the end or the first error, and the exit or that error. An attempt that is
answered at all puts these lines into its block and scans the same lines into its record.
-/

namespace MemberIndex

/-- All that a caller gets of a tool: the lines that it takes, and the exit or the error
that it meets in the end. -/
structure Hearing where
  lines : List String
  ending : Except TaskError ToolEnd

def Behaviour.lines (b : Behaviour) : List String :=
  if b.closesOutput then Text.pipeLines b.output else Text.openPipeLines b.output

/-- What is heard of a behaviour under a limit; nothing, if it never comes to an end. -/
def Behaviour.hearing? (limit : Option Duration) (b : Behaviour) : Option Hearing :=
  match b.fault, b.ending, limit with
  | some e, _, _ => some ⟨b.lines, .error (.reading e)⟩
  | none, .exits status, _ => some ⟨b.lines, .ok ⟨status, Text.Utf8.decode b.diagnostics⟩⟩
  | none, .leaves _, _ => none
  | none, _, some d => some ⟨b.lines, .error (.timeout d)⟩
  | none, _, none => none

def Tool.hearing? (tool : Tool) (path : Path) : Option Hearing :=
  match tool.start path with
  | .error e => some ⟨[], .error (.invocation tool.name e)⟩
  | .ok b => (b.within tool.limit).hearing? tool.limit

theorem Behaviour.lines_of_hearing {b : Behaviour} {limit : Option Duration} {x : Hearing}
    (h : b.hearing? limit = some x) : x.lines = b.lines := by
  unfold hearing? at h
  split at h <;> cases h <;> rfl

theorem Behaviour.exits_of_hearing {b : Behaviour} {limit : Option Duration} {ls : List String}
    {exit : ToolEnd} (h : b.hearing? limit = some ⟨ls, .ok exit⟩) :
    b.fault = none ∧ b.ending = .exits exit.status := by
  unfold hearing? at h
  split at h
  · cases h
  · rename_i status hfault hending
    cases h
    exact ⟨hfault, hending⟩
  · cases h
  · cases h
  · cases h

theorem extract_ok (m : Members) (b : Block) (ls : List String)
    (rest : List (Except TaskError String)) :
    extract m b (ls.map .ok ++ rest) =
      extract (ls.foldl Members.scanLine m) ⟨b.lines ++ ls⟩ rest := by
  induction ls generalizing m b with
  | nil => simp
  | cons l ls ih => simp [extract, ih, Block.push]

namespace Session

variable {s : Session} {now : Moment}

theorem await_next_line (now : Moment) (he : s.exhausted = false) {l : String}
    {q : List (Except IoError String)} (hq : s.queue = .ok l :: q) :
    s.await next now = .ok (some (.ok l), { s with queue := q }) := by
  simp [await, next, he, hq]

theorem take_lines (he : s.exhausted = false) (ls : List String)
    {q : List (Except IoError String)} (hq : s.queue = ls.map .ok ++ q) (n : Nat) :
    s.take now (ls.length + n) =
      (({ s with queue := q } : Session).take now n).map fun r => (ls.map .ok ++ r.1, r.2) := by
  induction ls generalizing s with
  | nil =>
    obtain rfl : s.queue = q := by simpa using hq
    cases h : s.take now n <;> simp [h, Except.map]
  | cons l ls ih =>
    have hstep := await_next_line now he (l := l) (q := ls.map .ok ++ q) (by simpa using hq)
    have hrest := ih (s := { s with queue := ls.map .ok ++ q }) he rfl
    rw [List.length_cons, Nat.add_right_comm, take, hstep]
    simp only [bind, Except.bind, hrest]
    cases ({ s with queue := q } : Session).take now n <;> rfl

theorem take_fault (he : s.exhausted = false) {e : IoError} (hq : s.queue = [.error e]) :
    s.take now 3 =
      .ok ([.error (.reading e)], true, { s with queue := [], exhausted := true }) := by
  simp [take, await, next, he, hq, bind, Except.bind, pure, Except.pure]

theorem take_closed (he : s.exhausted = false) (hq : s.queue = []) (hf : s.feeding = false) :
    s.take now 2 = .ok ([], true, { s with exhausted := true }) := by
  simp [take, await, next, he, hq, hf, bind, Except.bind, pure, Except.pure]

theorem expired_deadline {d : Moment} (hd : s.deadline = some d) : s.expired d = true := by
  simp [expired, hd]

theorem await_next_late (he : s.exhausted = false) (hq : s.queue = []) (hf : s.feeding = true)
    {d : Moment} (hd : s.deadline = some d) :
    s.await next now = .ok (some (.error s.abort.1), s.abort.2) := by
  have hx := expired_deadline hd
  cases hn : s.expired now <;> simp [await, next, he, hq, hf, hd, hn, hx]

theorem await_next_endless (he : s.exhausted = false) (hq : s.queue = []) (hf : s.feeding = true)
    (hd : s.deadline = none) : s.await next now = .error .endless := by
  simp [await, next, expired, he, hq, hf, hd]

theorem take_late (he : s.exhausted = false) (hq : s.queue = []) (hf : s.feeding = true)
    {d : Moment} (hd : s.deadline = some d) :
    s.take now 2 = .ok ([.error s.abort.1], true, s.abort.2) := by
  have hnext : s.abort.2.await next now = .ok (none, s.abort.2) := by
    simp [await, next, abort]
  simp [take, await_next_late he hq hf hd, hnext, bind, Except.bind, pure, Except.pure]

theorem take_endless (he : s.exhausted = false) (hq : s.queue = []) (hf : s.feeding = true)
    (hd : s.deadline = none) : s.take now 2 = .error .endless := by
  simp [take, await_next_endless he hq hf hd, bind, Except.bind]

/-- Reading is reading the lines that wait, and then what stands behind them. -/
theorem readAll_lines (he : s.exhausted = false) (ls : List String)
    {q : List (Except IoError String)} (hq : s.queue = ls.map .ok ++ q)
    {rest : List (Except TaskError String)} {ended : Bool} {t : Session}
    (ht : ({ s with queue := q } : Session).take now (q.length + 2) = .ok (rest, ended, t)) :
    s.readAll now = .ok (ls.map .ok ++ rest, t) := by
  have hn : s.queue.length + 2 = ls.length + (q.length + 2) := by
    rw [hq, List.length_append, List.length_map, Nat.add_assoc]
  rw [readAll, hn, take_lines he ls hq, ht]
  rfl

section

variable (he : s.exhausted = false) {ls : List String}
include he

theorem readAll_fault {e : IoError} (hq : s.queue = ls.map .ok ++ [.error e]) :
    s.readAll now =
      .ok (ls.map .ok ++ [.error (.reading e)], { s with queue := [], exhausted := true }) :=
  readAll_lines he ls hq (take_fault (s := { s with queue := [.error e] }) he rfl)

theorem readAll_closed (now : Moment) (hq : s.queue = ls.map .ok) (hf : s.feeding = false) :
    ∃ t, s.readAll now = .ok (ls.map .ok, t) ∧ t.child = s.child ∧ t.held = s.held ∧
      t.deadline = s.deadline ∧ t.limit = s.limit ∧ t.diagnostics = s.diagnostics := by
  refine ⟨{ s with queue := [], exhausted := true }, ?_, rfl, rfl, rfl, rfl, rfl⟩
  simpa using readAll_lines he ls (q := []) (by simpa using hq)
    (take_closed (s := { s with queue := [] }) he rfl hf)

theorem readAll_late (hq : s.queue = ls.map .ok) (hf : s.feeding = true) {d : Moment}
    (hd : s.deadline = some d) :
    s.readAll now =
      .ok (ls.map .ok ++ [.error s.abort.1], ({ s with queue := [] } : Session).abort.2) :=
  readAll_lines he ls (q := []) (by simpa using hq)
    (take_late (s := { s with queue := [] }) he rfl hf hd)

theorem readAll_endless (hq : s.queue = ls.map .ok) (hf : s.feeding = true)
    (hd : s.deadline = none) : s.readAll now = .error .endless := by
  have hn : s.queue.length + 2 = ls.length + 2 := by rw [hq, List.length_map]
  rw [readAll, hn, take_lines he ls (q := []) (by simpa using hq),
    take_endless (s := { s with queue := [] }) he rfl hf hd]
  rfl

end

theorem start_eq_ok {limit : Option Duration} {b : Behaviour} (h : start now limit b = .ok s) :
    s.queue = deliveries (b.within limit) ∧
      s.feeding = ((b.within limit).ending = .hangs && (b.within limit).fault.isNone) ∧
      (s.child = match (b.within limit).ending with
        | .exits status | .leaves status => .ended status
        | _ => .running) ∧
      (s.held = match (b.within limit).ending with
        | .leaves _ => true
        | _ => false) ∧
      s.diagnostics = Text.Utf8.decode (b.within limit).diagnostics ∧ s.limit = limit ∧
      s.deadline.isSome = limit.isSome ∧ s.exhausted = false := by
  unfold start at h
  cases limit with
  | none => cases h; cases he : (b.within none).ending <;> simp
  | some d =>
    simp only at h
    cases hm : now.after? d with
    | none => simp [hm] at h
    | some m =>
      simp only [hm, Except.ok.injEq] at h
      subst h
      cases he : (b.within (some d)).ending <;> simp

theorem await_finish_ended {status : ExitStatus} (hc : s.child = .ended status)
    (hh : s.held = false) : s.await finish now =
      .ok (.ok ⟨status, s.diagnostics⟩, { s with child := .collected status }) := by
  simp [await, finish, hc, hh]

/-- No deadline ends the waiting for the readers. -/
theorem await_finish_held {status : ExitStatus} (hc : s.child = .ended status)
    (hh : s.held = true) : s.await finish now = .error .endless := by
  cases hd : s.deadline <;> simp [await, finish, hc, hh, hd]

theorem await_finish_late (hc : s.child = .running) {d : Moment} (hd : s.deadline = some d) :
    s.await finish now = .ok (.error s.abort.1, s.abort.2) := by
  have hx := expired_deadline hd
  cases hn : s.expired now <;> simp [await, finish, hc, hd, hn, hx]

theorem await_finish_endless (hc : s.child = .running) (hd : s.deadline = none) :
    s.await finish now = .error .endless := by
  simp [await, finish, expired, hc, hd]

end Session

namespace Workbench

variable {p : Workbench} {path : Path}

section Attend

variable {header : String} {s t : Session} {ls : List String}

theorem attend_of_readAll_error {e : TaskError}
    (h : s.readAll p.clock = .ok (ls.map .ok ++ [.error e], t)) :
    p.attend ⟨[header]⟩ s = .ok ⟨⟨header :: ls⟩, .error e⟩ := by
  simp only [attend, h, bind, Except.bind, extract_ok, extract]
  rfl

theorem attend_of_readAll_end (h : s.readAll p.clock = .ok (ls.map .ok, t)) :
    p.attend ⟨[header]⟩ s = (t.await Session.finish p.clock).map fun r =>
      ⟨⟨header :: ls⟩, r.1.map (Members.ofLines ls, ·)⟩ := by
  have hx := extract_ok ∅ ⟨[header]⟩ ls []
  rw [List.append_nil, extract] at hx
  simp only [attend, h, bind, Except.bind, hx]
  cases t.await Session.finish p.clock <;> rfl

theorem attend_of_readAll_stall {e : Stall} (h : s.readAll p.clock = .error e) :
    p.attend ⟨[header]⟩ s = .error e := by
  simp only [attend, h, bind, Except.bind]

end Attend

/-- Attending to a started tool is told by its behaviour within the limit. -/
theorem attend_eq {header : String} {limit : Option Duration} {b : Behaviour} {s : Session}
    (hs : Session.start p.clock limit b = .ok s) :
    p.attend ⟨[header]⟩ s = match (b.within limit).hearing? limit with
      | some x => .ok ⟨⟨header :: x.lines⟩, x.ending.map (Members.ofLines x.lines, ·)⟩
      | none => .error .endless := by
  obtain ⟨hq, hf, hchild, hheld, hg, rfl, hd, he⟩ := Session.start_eq_ok hs
  generalize b.within s.limit = b at *
  have hnone : s.limit = none → s.deadline = none := by
    intro hl; simpa [hl] using hd
  have hsome : ∀ d, s.limit = some d → ∃ m, s.deadline = some m := by
    intro d hl; simpa [hl, Option.isSome_iff_exists] using hd
  cases hfault : b.fault with
  | some e =>
    have hlines : s.queue = b.lines.map .ok ++ [.error e] := by
      rw [hq, Session.deliveries, hfault]; rfl
    have hx : b.hearing? s.limit = some ⟨b.lines, .error (.reading e)⟩ := by
      simp [Behaviour.hearing?, hfault]
    rw [attend_of_readAll_error (Session.readAll_fault he hlines), hx]
    rfl
  | none =>
    have hlines : s.queue = b.lines.map .ok := by simp [hq, Session.deliveries, hfault]; rfl
    cases hending : b.ending with
    | exits status =>
      rw [hending] at hchild hheld
      obtain ⟨t, ht, hc, hh, -, -, hg'⟩ :=
        Session.readAll_closed he p.clock hlines (by simp [hf, hending])
      have hx : b.hearing? s.limit =
          some ⟨b.lines, .ok ⟨status, Text.Utf8.decode b.diagnostics⟩⟩ := by
        simp [Behaviour.hearing?, hfault, hending]
      rw [attend_of_readAll_end ht,
        Session.await_finish_ended (hc.trans hchild) (hh.trans hheld), hg', hg, hx]
      rfl
    | leaves status =>
      rw [hending] at hchild hheld
      obtain ⟨t, ht, hc, hh, -⟩ :=
        Session.readAll_closed he p.clock hlines (by simp [hf, hending])
      have hx : b.hearing? s.limit = none := by simp [Behaviour.hearing?, hfault, hending]
      rw [attend_of_readAll_end ht,
        Session.await_finish_held (hc.trans hchild) (hh.trans hheld), hx]
      rfl
    | hangs =>
      have hfeeding : s.feeding = true := by simp [hf, hending, hfault]
      cases hlimit : s.limit with
      | none =>
        have hx : b.hearing? none = none := by simp [Behaviour.hearing?, hfault, hending]
        rw [attend_of_readAll_stall (Session.readAll_endless he hlines hfeeding (hnone hlimit)), hx]
      | some d =>
        obtain ⟨m, hm⟩ := hsome d hlimit
        have hx : b.hearing? (some d) = some ⟨b.lines, .error (.timeout d)⟩ := by
          simp [Behaviour.hearing?, hfault, hending]
        rw [attend_of_readAll_error (Session.readAll_late he hlines hfeeding hm), hx]
        simp [Session.abort, hlimit, Except.map]
    | closesAndHangs =>
      obtain ⟨t, ht, hc, -, hdl, hl, -⟩ :=
        Session.readAll_closed he p.clock hlines (by simp [hf, hending])
      have hchild := hc.trans (by rw [hchild, hending])
      cases hlimit : s.limit with
      | none =>
        have hx : b.hearing? none = none := by simp [Behaviour.hearing?, hfault, hending]
        rw [attend_of_readAll_end ht,
          Session.await_finish_endless hchild (hdl.trans (hnone hlimit)), hx]
        rfl
      | some d =>
        obtain ⟨m, hm⟩ := hsome d hlimit
        have hx : b.hearing? (some d) = some ⟨b.lines, .error (.timeout d)⟩ := by
          simp [Behaviour.hearing?, hfault, hending]
        rw [attend_of_readAll_end ht, Session.await_finish_late hchild (hdl.trans hm), hx]
        simp [Session.abort, hl, hlimit, Except.map]

theorem attempt_of_start {b : Behaviour} (hb : p.tool.start path = .ok b) {s : Session}
    (hs : Session.start p.clock p.tool.limit b = .ok s) :
    p.attempt path = match p.tool.hearing? path with
      | some x => .ok ⟨⟨Block.header path :: x.lines⟩, x.ending.map (Members.ofLines x.lines, ·)⟩
      | none => .error .endless := by
  simp only [attempt, hb, hs, bind, Except.bind, Tool.hearing?]
  exact attend_eq hs

theorem attempt_eq_ok {a : Attempt} (h : p.attempt path = .ok a) :
    ∃ x, p.tool.hearing? path = some x ∧
      a = ⟨⟨Block.header path :: x.lines⟩, x.ending.map (Members.ofLines x.lines, ·)⟩ := by
  cases hb : p.tool.start path with
  | error e =>
    simp only [attempt, hb, Except.ok.injEq] at h
    subst h
    exact ⟨⟨[], .error (.invocation p.tool.name e)⟩, by simp [Tool.hearing?, hb], rfl⟩
  | ok b =>
    cases hs : Session.start p.clock p.tool.limit b with
    | error e => simp [attempt, hb, hs, bind, Except.bind] at h
    | ok s =>
      rw [attempt_of_start hb hs] at h
      cases hx : p.tool.hearing? path with
      | none => simp [hx] at h
      | some x =>
        rw [hx] at h
        exact ⟨x, rfl, (Except.ok.inj h).symm⟩

end Workbench

end MemberIndex
