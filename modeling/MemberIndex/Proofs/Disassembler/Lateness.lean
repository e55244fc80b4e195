import Mathlib.Data.List.Induction
import MemberIndex.Proofs.Disassembler.Hearing

/-! # Late calls

What a session answers to calls at or past its deadline. The deadline counts only where no line
waits: a line that is in the queue is handed out however late it is, so that a tool which goes
on printing is not stopped as long as its lines are asked for no faster than it prints them.
-/

namespace MemberIndex

theorem Child.stop_ne_running (c : Child) : c.stop ≠ .running := by
  cases c <;> simp [stop]

namespace Session

variable {s t : Session} {now : Moment}

/-- Whether a call is answered as a deadline asks for that has passed: there are no more lines,
or the tool is late and its child has been stopped. -/
def KeepsDeadline (s : Session) (now : Moment) : Prop :=
  (s.next now).1 = .answer none ∨ s.next now = (.answer (some (.error s.abort.1)), s.abort.2)

/-- A late call is answered as the deadline asks for where nothing waits, and only there. -/
theorem keepsDeadline_iff (h : s.expired now = true) :
    s.KeepsDeadline now ↔ s.exhausted = true ∨ s.queue = [] := by
  unfold KeepsDeadline
  cases hx : s.exhausted with
  | true => simp [next, hx]
  | false =>
    cases hq : s.queue with
    | nil => cases hf : s.feeding <;> simp [next, hx, hq, hf, h]
    | cons x rest => cases x <;> simp [next, hx, hq, abort]

theorem Happens.frame (h : Happens s t) : t.exhausted = s.exhausted ∧ t.limit = s.limit ∧
    t.deadline = s.deadline ∧ s.queue <+: t.queue ∧
    (s.child ≠ .running → t.child ≠ .running) := by
  cases h <;> simp_all

/-- What an answered call comes to: the end once more, the line that waited longest, or an
answer that ends the lines. -/
theorem next_eq_answer {a : Option (Except TaskError String)} (h : s.next now = (.answer a, t)) :
    (s.exhausted = true ∧ a = none ∧ t = s) ∨
    (s.exhausted = false ∧ ∃ l rest, s.queue = .ok l :: rest ∧ a = some (.ok l) ∧
      t = { s with queue := rest }) ∨
    (s.exhausted = false ∧ t.exhausted = true ∧ t.limit = s.limit ∧ (∀ l, a ≠ some (.ok l)) ∧
      (a = some (.error (.timeout (s.limit.getD ⟨0⟩))) → t.child ≠ .running)) := by
  unfold next at h
  split at h
  · rename_i hx
    cases h
    exact .inl ⟨hx, rfl, rfl⟩
  · rename_i hx
    simp only [Bool.not_eq_true] at hx
    split at h
    · rename_i l rest hq
      cases h
      exact .inr (.inl ⟨hx, l, rest, hq, rfl, rfl⟩)
    · cases h
      exact .inr (.inr ⟨hx, rfl, rfl, by simp, by simp⟩)
    · split at h
      · cases h
        exact .inr (.inr ⟨hx, rfl, rfl, by simp, by simp⟩)
      · split at h
        · cases h
          exact .inr (.inr ⟨hx, rfl, rfl, by simp, fun _ => Child.stop_ne_running _⟩)
        · cases h

/-- What comes of a session to which all calls are made from a moment on: what a reader has put
into its queue, and one answer for each call that is not left to wait. -/
inductive Course (since : Moment) (s : Session) :
    List (Except IoError String) → List (Option (Except TaskError String)) → Session → Prop
  | refl : Course since s [] [] s
  | world {delivered : List (Except IoError String)}
    {answers : List (Option (Except TaskError String))} {t u : Session}
    (h : Course since s delivered answers t) (hw : Happens t u) :
    Course since s (delivered ++ u.queue.drop t.queue.length) answers u
  | call {delivered : List (Except IoError String)}
    {answers : List (Option (Except TaskError String))} {t u : Session} {now : Moment}
    {a : Option (Except TaskError String)} (h : Course since s delivered answers t)
    (hnow : since.nanos ≤ now.nanos) (hn : t.next now = (.answer a, u)) :
    Course since s delivered (answers ++ [a]) u

def handingOut (ls : List String) : List (Option (Except TaskError String)) :=
  ls.map fun l => some (.ok l)

/-- The answers of a session, of which the first have handed out lines: either all of them have,
and what is left waits in the queue, or one other answer has followed, and then only the end. -/
structure Answered (s t : Session) (delivered : List (Except IoError String))
    (answers : List (Option (Except TaskError String))) (ls : List String) : Prop where
  limit : t.limit = s.limit
  order : ls.map .ok <+: s.queue ++ delivered
  going : t.exhausted = false → answers = handingOut ls ∧
    ls.map .ok ++ t.queue = s.queue ++ delivered
  ended : t.exhausted = true → ∃ last n, answers = handingOut ls ++ last :: List.replicate n none ∧
    (∀ l, last ≠ some (.ok l)) ∧
    (last = some (.error (.timeout (s.limit.getD ⟨0⟩))) → t.child ≠ .running)

variable {delivered : List (Except IoError String)}
  {answers : List (Option (Except TaskError String))} {ls : List String}

theorem Answered.world {u : Session} (h : Answered s t delivered answers ls) (hw : Happens t u) :
    Answered s u (delivered ++ u.queue.drop t.queue.length) answers ls := by
  obtain ⟨hx, hlimit, -, ⟨new, hqueue⟩, hchild⟩ := hw.frame
  have hdrop : u.queue.drop t.queue.length = new := by rw [← hqueue, List.drop_left]
  rw [hdrop]
  refine ⟨hlimit.trans h.limit, ?_, ?_, ?_⟩
  · rw [← List.append_assoc]
    exact h.order.trans (List.prefix_append _ _)
  · intro hgoing
    obtain ⟨hanswers, hrest⟩ := h.going (hx ▸ hgoing)
    refine ⟨hanswers, ?_⟩
    rw [← hqueue, ← List.append_assoc, hrest, List.append_assoc]
  · intro hended
    obtain ⟨last, n, hanswers, hlast, hstopped⟩ := h.ended (hx ▸ hended)
    exact ⟨last, n, hanswers, hlast, fun hl => hchild (hstopped hl)⟩

theorem Answered.call {u : Session} {a : Option (Except TaskError String)}
    (h : Answered s t delivered answers ls) (hn : t.next now = (.answer a, u)) :
    ∃ ls', Answered s u delivered (answers ++ [a]) ls' := by
  rcases next_eq_answer hn with ⟨hx, rfl, rfl⟩ | ⟨hx, l, rest, hq, rfl, rfl⟩ |
    ⟨hx, hx', hlimit, hlast, hstopped⟩
  · refine ⟨ls, h.limit, h.order, fun hgoing => ?_, fun _ => ?_⟩
    · cases hx.symm.trans hgoing
    · obtain ⟨last, n, hanswers, hlast, hstopped⟩ := h.ended hx
      refine ⟨last, n + 1, ?_, hlast, hstopped⟩
      rw [hanswers, List.append_assoc, List.cons_append, List.replicate_succ']
  · obtain ⟨hanswers, hrest⟩ := h.going hx
    rw [hq] at hrest
    have hmore : (ls ++ [l]).map .ok ++ rest = s.queue ++ delivered := by
      rw [← hrest]
      simp
    refine ⟨ls ++ [l], h.limit, ⟨rest, hmore⟩, fun _ => ⟨?_, hmore⟩, fun hended => ?_⟩
    · rw [hanswers, handingOut, handingOut, List.map_append]
      rfl
    · cases hx.symm.trans hended
  · obtain ⟨hanswers, -⟩ := h.going hx
    refine ⟨ls, hlimit.trans h.limit, h.order, fun hgoing => ?_, fun _ => ?_⟩
    · cases hx'.symm.trans hgoing
    · refine ⟨a, 0, by rw [hanswers]; rfl, hlast, ?_⟩
      rw [← h.limit]
      exact hstopped

/-- In every course of calls the lines are handed out in their order, and none behind the answer
that ends them. -/
theorem Course.answered {since : Moment} (h : Course since s delivered answers t)
    (hx : s.exhausted = false) : ∃ ls, Answered s t delivered answers ls := by
  induction h with
  | refl =>
    refine ⟨[], rfl, List.nil_prefix, fun _ => ⟨rfl, by simp⟩, fun hended => ?_⟩
    cases hx.symm.trans hended
  | world _ hw ih =>
    obtain ⟨ls, hanswered⟩ := ih
    exact ⟨ls, hanswered.world hw⟩
  | call _ _ hn ih =>
    obtain ⟨ls, hanswered⟩ := ih
    exact hanswered.call hn

theorem course_of_lines (hx : s.exhausted = false) (hq : s.queue = []) (hf : s.feeding = true)
    (now : Moment) (ls : List String) : Course now s (ls.map .ok) (handingOut ls) s := by
  induction ls using List.reverseRecOn with
  | nil => exact .refl
  | append_singleton ls l ih =>
    have hnext : ({ s with queue := s.queue ++ [.ok l] } : Session).next now =
        (.answer (some (.ok l)), s) := by
      obtain ⟨queue, feeding, child, diagnostics, limit, deadline, exhausted, held⟩ := s
      cases hq
      cases hx
      simp [next]
    have hcall := (ih.world (.line s l hf)).call (Nat.le_refl _) hnext
    simpa [handingOut, hq] using hcall

/-- Late calls: one that finds nothing waiting ends the lines, and stops the child of a tool
that may still print; one that finds a line hands it out, and there is no end to those while the
tool goes on. Whatever is answered, lines come in their order and none behind the end. -/
theorem late_calls {d : Moment} (hd : s.deadline = some d) :
    (∀ now, d.nanos ≤ now.nanos →
      (s.KeepsDeadline now ↔ s.exhausted = true ∨ s.queue = [])) ∧
    (s.exhausted = false → ∀ delivered answers t, Course d s delivered answers t →
      ∃ ls, Answered s t delivered answers ls) ∧
    (s.exhausted = false → s.queue = [] → s.feeding = true →
      ∀ now, d.nanos ≤ now.nanos → ∀ ls : List String,
        Course now s (ls.map .ok) (handingOut ls) s) := by
  refine ⟨?_, ?_, ?_⟩
  · intro now hnow
    exact keepsDeadline_iff (by simpa [expired, hd] using hnow)
  · intro hx delivered answers t hcourse
    exact hcourse.answered hx
  · intro hx hq hf now _ ls
    exact course_of_lines hx hq hf now ls

def ofSilent : Session where
  queue := []
  feeding := true
  child := .running
  diagnostics := ""
  limit := some ⟨100⟩
  deadline := some ⟨100⟩

/-- A silent tool is stopped by the first late call, but not one that goes on to print. -/
theorem late_calls_of_silent :
    start ⟨0⟩ (some ⟨100⟩) { ending := .hangs } = .ok ofSilent ∧
      ofSilent.KeepsDeadline ⟨100⟩ ∧ ofSilent.child = .running ∧
      Course ⟨7000⟩ ofSilent [.ok "a", .ok "b"] (handingOut ["a", "b"]) ofSilent := by
  obtain ⟨hkeeps, -, hlines⟩ := late_calls (s := ofSilent) rfl
  exact ⟨rfl, (hkeeps ⟨100⟩ (by decide)).2 (.inr rfl), rfl,
    hlines rfl rfl rfl ⟨7000⟩ (by decide) ["a", "b"]⟩

/-- A line that waits when the deadline has passed is handed out, and the child goes on
running. -/
theorem exists_late_line :
    ∃ s, start ⟨0⟩ (some ⟨100⟩) { output := Text.Utf8.encode "a\nb\n", ending := .hangs } = .ok s ∧
      s.deadline = some ⟨100⟩ ∧ (s.next ⟨100⟩).1 = .answer (some (.ok "a")) ∧
      (s.next ⟨100⟩).2.child = .running ∧ ¬ s.KeepsDeadline ⟨100⟩ := by
  refine ⟨_, rfl, rfl, by rfl, by rfl, ?_⟩
  rw [keepsDeadline_iff (by decide)]
  decide

end Session

end MemberIndex
