import MemberIndex.Proofs.Disassembler.LineOrder

/-! # The end of a child

No child outlives its session. Whatever is read of a session before its exit is waited for or it
is let go of, and whatever the child and the reader do between any two of the steps: once the
session is gone its child has ended once, by itself or stopped, and has been collected.
-/

namespace MemberIndex

namespace Child

/-- Looks whether a child has ended, without waiting for it. One that has is collected. -/
def look : Child → Option ExitStatus × Child
  | running => (none, running)
  | ended s | collected s => (some s, collected s)

theorem look_eq_some {c d : Child} {status : ExitStatus} (h : c.look = (some status, d)) :
    d = collected status ∧ (c = ended status ∨ c = collected status) := by
  cases c with
  | running => cases h
  | ended _ =>
    cases h
    exact ⟨rfl, .inl rfl⟩
  | collected _ =>
    cases h
    exact ⟨rfl, .inr rfl⟩

end Child

/-- What is noted of a child: its own exit, or that it was stopped while it ran; and, while its
exit is waited for, whether it was seen to run, and the time of which the deadline was asked. -/
inductive Note
  | exits (status : ExitStatus)
  | stopped
  | looked (running : Bool)
  | timed (now : Moment)
deriving DecidableEq

namespace Note

def status? : Note → Option ExitStatus
  | exits status => some status
  | stopped => some .killed
  | _ => none

def isWatch : Note → Bool
  | looked _ | timed _ => true
  | _ => false

def endings (notes : List Note) : List ExitStatus := notes.filterMap status?

def watch (notes : List Note) : List Note := notes.filter isWatch

@[simp] theorem endings_append (notes more : List Note) :
    endings (notes ++ more) = endings notes ++ endings more := List.filterMap_append

@[simp] theorem watch_append (notes more : List Note) :
    watch (notes ++ more) = watch notes ++ watch more := List.filter_append ..

end Note

open Note

namespace Child

/-- What is noted where a child has come from one state to another. -/
def turn : Child → Child → List Note
  | running, ended status => [.exits status]
  | running, collected _ => [.stopped]
  | _, _ => []

@[simp] theorem watch_turn (c d : Child) : watch (c.turn d) = [] := by
  cases c <;> cases d <;> rfl

@[simp] theorem turn_self (c : Child) : c.turn c = [] := by
  cases c <;> rfl

theorem turn_of_look {c d : Child} {status : ExitStatus} (h : c.look = (some status, d)) :
    c.turn d = [] := by
  obtain ⟨rfl, rfl | rfl⟩ := look_eq_some h <;> rfl

/-- The statuses that are noted of a child are the one that it has come to, if it has ended. -/
def Told (statuses : List ExitStatus) : Child → Prop
  | running => statuses = []
  | ended status | collected status => statuses = [status]

inductive Moves : Child → Child → Prop
  | stays (c : Child) : Moves c c
  | exits (status : ExitStatus) : Moves running (ended status)
  | stop (c : Child) : Moves c c.stop
  | look (c : Child) : Moves c c.look.2

theorem Told.turn {c d : Child} {statuses : List ExitStatus} (h : c.Told statuses)
    (hm : Moves c d) : d.Told (statuses ++ endings (c.turn d)) := by
  cases hm with
  | stays => cases c <;> simpa [Child.turn, endings] using h
  | exits => simpa [Told, Child.turn, endings, Note.status?] using h
  | stop | look =>
    cases c <;> simpa [Told, Child.turn, endings, Note.status?, Child.stop, Child.look] using h

theorem exists_stop (c : Child) : ∃ status, c.stop = collected status := by
  cases c <;> exact ⟨_, rfl⟩

theorem Moves.of_collected {d : Child} {status : ExitStatus} (h : Moves (collected status) d) :
    d = collected status := by
  cases h <;> rfl

end Child

namespace Session

open Child

variable {s t u : Session} {now : Moment} {notes new : List Note}

/-- How far the holder of a session is with it: it reads lines; it waits for the exit, and may
just have seen the child run; it has the exit and waits for the readers; it lets go of the session
with an answer, and may just have seen the child run; or the session is gone. -/
inductive Hold
  | reading
  | finishing (running : Bool)
  | joining (status : ExitStatus)
  | leaving (answer : Option (Except TaskError ToolEnd)) (running : Bool)
  | gone (answer : Option (Except TaskError ToolEnd))

/-- One step of a session and its holder. Looking at the child, asking the time and stopping the
child are steps of their own, and the world may go on between them. -/
inductive Step : Hold → Session → List Note → Hold → Session → Prop
  | world {s t : Session} (hold : Hold) (h : Happens s t) :
    Step hold s (s.child.turn t.child) hold t
  | read {s t : Session} {now : Moment} {a : Option (Except TaskError String)}
    (h : s.next now = (.answer a, t)) : Step .reading s (s.child.turn t.child) .reading t
  | finish (s : Session) : Step .reading s [] (.finishing false) s
  | collect {s : Session} {status : ExitStatus} {c : Child} (h : s.child.look = (some status, c)) :
    Step (.finishing false) s [.looked false] (.joining status) { s with child := c }
  | watch {s : Session} (h : s.child.look.1 = none) :
    Step (.finishing false) s [.looked true] (.finishing true) s
  | sleep {s : Session} {now : Moment} (h : s.expired now = false) :
    Step (.finishing true) s [.timed now] (.finishing false) s
  | late {s : Session} {now : Moment} (h : s.expired now = true) :
    Step (.finishing true) s (.timed now :: s.child.turn s.abort.2.child)
      (.leaving (some (.error s.abort.1)) false) s.abort.2
  | join {s : Session} (status : ExitStatus) (h : s.held = false) :
    Step (.joining status) s [] (.leaving (some (.ok ⟨status, s.diagnostics⟩)) false) s
  | leave (s : Session) : Step .reading s [] (.leaving none false) s
  | pass {s : Session} {status : ExitStatus} {c : Child} (h : s.child.look = (some status, c))
    (r : Option (Except TaskError ToolEnd)) :
    Step (.leaving r false) s [] (.gone r) { s with child := c }
  | see {s : Session} (h : s.child.look.1 = none) (r : Option (Except TaskError ToolEnd)) :
    Step (.leaving r false) s [] (.leaving r true) s
  | stop (s : Session) (r : Option (Except TaskError ToolEnd)) :
    Step (.leaving r true) s (s.child.turn s.close.child) (.gone r) s.close

inductive Runs (s : Session) : Hold → List Note → Session → Prop
  | start : Runs s .reading [] s
  | step {hold hold' : Hold} {notes new : List Note} {t u : Session} (h : Runs s hold notes t)
    (hs : Step hold t new hold' u) : Runs s hold' (notes ++ new) u

variable {hold hold' : Hold}

theorem Happens.moves (h : Happens s t) : Moves s.child t.child := by
  cases h with
  | line | fault | stopsFeeding | leaves | releases => exact .stays _
  | ends status hrunning =>
    rw [hrunning]
    exact .exits status

theorem moves_of_next {a : Option (Except TaskError String)} (h : s.next now = (.answer a, t)) :
    Moves s.child t.child := by
  unfold next at h
  split at h
  · cases h
    exact .stays _
  · split at h
    · cases h
      exact .stays _
    · cases h
      exact .stays _
    · split at h
      · cases h
        exact .stays _
      · split at h <;> cases h
        exact .stop _

theorem Step.moves (h : Step hold s new hold' t) : Moves s.child t.child := by
  cases h with
  | world _ h => exact h.moves
  | read h => exact moves_of_next h
  | finish | watch | sleep | join | leave | see => exact .stays _
  | late | stop => exact .stop _
  | collect h | pass h =>
    have hlook := Moves.look s.child
    rwa [h] at hlook

theorem Step.frame (h : Step hold s new hold' t) :
    t.limit = s.limit ∧ t.deadline = s.deadline ∧ t.diagnostics = s.diagnostics := by
  cases h with
  | world _ h => cases h <;> exact ⟨rfl, rfl, rfl⟩
  | read h => exact next_frame h
  | _ => exact ⟨rfl, rfl, rfl⟩

theorem Runs.frame (h : Runs s hold notes t) :
    t.limit = s.limit ∧ t.deadline = s.deadline ∧ t.diagnostics = s.diagnostics := by
  induction h with
  | start => exact ⟨rfl, rfl, rfl⟩
  | step _ hs ih =>
    obtain ⟨hlimit, hdeadline, hdiagnostics⟩ := hs.frame
    exact ⟨hlimit.trans ih.1, hdeadline.trans ih.2.1, hdiagnostics.trans ih.2.2⟩

theorem Step.endings_eq (h : Step hold s new hold' t) :
    endings new = endings (s.child.turn t.child) := by
  cases h with
  | world | read | stop | late => rfl
  | finish | watch | sleep | join | leave | see => simp [endings, Note.status?]
  | collect h | pass h => simp [turn_of_look h, endings, Note.status?]

/-- Every end of a child is noted once. -/
theorem Runs.told (h : Runs s hold notes t) (hc : s.child = .running) :
    t.child.Told (endings notes) := by
  induction h with
  | start => exact hc ▸ rfl
  | step _ hs ih =>
    rw [endings_append, hs.endings_eq]
    exact ih.turn hs.moves

theorem Runs.collected (h : Runs s hold notes t) {status : ExitStatus}
    (hc : s.child = .collected status) : t.child = .collected status := by
  induction h with
  | start => exact hc
  | step _ hs ih => exact (ih ▸ hs.moves).of_collected

/-- What a session is let go of with: nothing, the status of the child that has been collected,
or an error because the child was seen to run when it was last looked at, and the deadline had
passed then. -/
def Answers (s : Session) (notes : List Note) (t : Session) :
    Option (Except TaskError ToolEnd) → Prop
  | none => True
  | some (.ok exit) => t.child = .collected exit.status ∧ exit.diagnostics = s.diagnostics
  | some (.error e) => e = .timeout (s.limit.getD ⟨0⟩) ∧ ∃ before now,
      watch notes = before ++ [.looked true, .timed now] ∧ s.expired now = true

/-- How far a holder is, by what has been noted. -/
def Held (s : Session) (notes : List Note) (t : Session) : Hold → Prop
  | .reading | .finishing false => True
  | .finishing true => ∃ before, watch notes = before ++ [.looked true]
  | .joining status => t.child = .collected status
  | .leaving r _ => Answers s notes t r
  | .gone r => Answers s notes t r ∧ ∃ status, t.child = .collected status

theorem Answers.keep {r : Option (Except TaskError ToolEnd)} (h : Answers s notes t r)
    (hm : Moves t.child u.child) (hw : watch new = []) : Answers s (notes ++ new) u r := by
  match r with
  | none => trivial
  | some (.ok exit) => exact ⟨(h.1 ▸ hm).of_collected, h.2⟩
  | some (.error e) =>
    obtain ⟨he, before, now, hwatch, hexpired⟩ := h
    exact ⟨he, before, now, by rw [watch_append, hw, List.append_nil, hwatch], hexpired⟩

theorem Held.step (h : Held s notes t hold) (hs : Step hold t new hold' u)
    (hframe : t.limit = s.limit ∧ t.deadline = s.deadline ∧ t.diagnostics = s.diagnostics) :
    Held s (notes ++ new) u hold' := by
  have hm := hs.moves
  cases hs with
  | world hold hw =>
    match hold with
    | .reading | .finishing false => trivial
    | .finishing true =>
      obtain ⟨before, hwatch⟩ := h
      exact ⟨before, by rw [watch_append, watch_turn, List.append_nil, hwatch]⟩
    | .joining status => exact (h ▸ hm : Moves (.collected status) _).of_collected
    | .leaving r _ => exact h.keep hm (watch_turn ..)
    | .gone r =>
      obtain ⟨hanswers, status, hc⟩ := h
      exact ⟨hanswers.keep hm (watch_turn ..), status, (hc ▸ hm).of_collected⟩
  | read | finish | sleep | leave => trivial
  | collect hlook => exact (look_eq_some hlook).1
  | join => exact ⟨h, hframe.2.2⟩
  | watch => exact ⟨watch notes, watch_append ..⟩
  | @late t now hexpired =>
    obtain ⟨before, hwatch⟩ := h
    refine ⟨by rw [← hframe.1]; rfl, before, now, ?_, ?_⟩
    · have hlast : watch (.timed now :: t.child.turn t.abort.2.child) = [.timed now] :=
        congrArg (Note.timed now :: ·) (watch_turn ..)
      rw [watch_append, hwatch, hlast, List.append_assoc]
      rfl
    · rwa [expired, ← hframe.2.1]
  | pass hlook => exact ⟨h.keep hm rfl, _, (look_eq_some hlook).1⟩
  | see => exact h.keep hm rfl
  | stop => exact ⟨h.keep hm (watch_turn ..), exists_stop _⟩

theorem Runs.held (h : Runs s hold notes t) : Held s notes t hold := by
  induction h with
  | start => trivial
  | step h hs ih => exact ih.step hs h.frame

theorem Runs.pass {r : Option (Except TaskError ToolEnd)}
    (h : Runs s (.leaving r false) notes t) : ∃ more, Runs s (.gone r) more t.close := by
  cases hc : t.child with
  | running =>
    have hseen : t.child.look.1 = none := by rw [hc]; rfl
    exact ⟨_, .step (.step h (.see hseen r)) (.stop t r)⟩
  | ended status | collected status =>
    have hlook : t.child.look = (some status, t.child.stop) := by rw [hc]; rfl
    exact ⟨_, .step h (.pass hlook r)⟩

theorem Runs.finish (h : Runs s .reading notes t) {r : Except TaskError ToolEnd}
    (hf : t.finish now = (.answer r, u)) : ∃ more, Runs s (.gone (some r)) more u.close := by
  have hwaits := h.step (.finish t)
  cases hc : t.child with
  | running =>
    have hseen : t.child.look.1 = none := by rw [hc]; rfl
    cases hx : t.expired now with
    | true =>
      simp only [Session.finish, hc, hx, if_true] at hf
      cases hf
      exact ((hwaits.step (.watch hseen)).step (.late hx)).pass
    | false => simp [Session.finish, hc, hx] at hf
  | ended status | collected status =>
    have hlook : t.child.look = (some status, .collected status) := by rw [hc]; rfl
    cases hh : t.held with
    | true => simp [Session.finish, hc, hh] at hf
    | false =>
      have hanswer : t.finish now =
          (.answer (.ok ⟨status, t.diagnostics⟩), { t with child := .collected status }) := by
        simp [Session.finish, hc, hh]
      cases hanswer.symm.trans hf
      exact ((hwaits.step (.collect hlook)).step (.join status hh)).pass

end MemberIndex.Session
