import MemberIndex.Proofs.Disassembler.Timing

/-! # The order of lines

A session that is asked again and again hands out what its reader has sent, in that order and
from the first line on, until one answer ends the lines: the end, if the reader has stopped and
everything has been handed out, or a single error. Every answer behind that one is the end, and
no call is left to wait while there is something to say.
-/

namespace MemberIndex.Session

variable {s t u : Session} {now since : Moment} {sent : List (Except IoError String)}
  {answers : List (Option (Except TaskError String))} {ls : List String}

/-- The answer behind the lines: the end, where the reader has stopped and has sent nothing but
them, the error that it sent behind them, or the one of a passed deadline. -/
inductive Ends (s t : Session) (sent : List (Except IoError String)) (ls : List String) :
    Option (Except TaskError String) → Prop
  | closed (hf : t.feeding = false) (h : ls.map .ok = s.queue ++ sent) : Ends s t sent ls none
  | fault {e : IoError} (h : ls.map .ok ++ [.error e] <+: s.queue ++ sent) :
    Ends s t sent ls (some (.error (.reading e)))
  | late (hd : s.deadline.isSome = true) (h : ls.map .ok <+: s.queue ++ sent) :
    Ends s t sent ls (some (.error (.timeout (s.limit.getD ⟨0⟩))))

/-- What the answers of a session amount to: lines from the first one on, with the rest in the
queue, or lines, the answer that ended them, and the end from then on. -/
inductive Tells (s t : Session) (sent : List (Except IoError String)) :
    List (Option (Except TaskError String)) → Prop
  | going {ls : List String} (hx : t.exhausted = false)
    (h : ls.map .ok ++ t.queue = s.queue ++ sent) : Tells s t sent (handingOut ls)
  | ended {ls : List String} {last : Option (Except TaskError String)} (hx : t.exhausted = true)
    (h : Ends s t sent ls last) (n : Nat) :
    Tells s t sent (handingOut ls ++ last :: List.replicate n none)

theorem Ends.ls_prefix {last : Option (Except TaskError String)} (h : Ends s t sent ls last) :
    ls.map .ok <+: s.queue ++ sent := by
  cases h with
  | closed _ h => exact h ▸ List.prefix_rfl
  | fault h => exact (List.prefix_append _ _).trans h
  | late _ h => exact h

theorem Ends.not_line {last : Option (Except TaskError String)} (h : Ends s t sent ls last)
    (l : String) : last ≠ some (.ok l) := by
  cases h <;> simp

theorem eq_of_handingOut_append {ls ls' : List String}
    {last last' : Option (Except TaskError String)}
    {rest rest' : List (Option (Except TaskError String))}
    (h : handingOut ls ++ last :: rest = handingOut ls' ++ last' :: rest')
    (hlast : ∀ l, last ≠ some (.ok l)) (hlast' : ∀ l, last' ≠ some (.ok l)) :
    ls = ls' ∧ last = last' := by
  induction ls generalizing ls' with
  | nil =>
    cases ls' with
    | nil => exact ⟨rfl, (List.cons.inj h).1⟩
    | cons l _ => exact absurd (List.cons.inj h).1 (hlast l)
  | cons l ls ih =>
    cases ls' with
    | nil => exact absurd (List.cons.inj h).1.symm (hlast' l)
    | cons l' ls' =>
      obtain ⟨hl, htail⟩ := List.cons.inj h
      cases hl
      obtain ⟨rfl, rfl⟩ := ih htail
      exact ⟨rfl, rfl⟩

theorem Happens.eq_queue (h : Happens t u) (hf : t.feeding = false) :
    u.queue = t.queue ∧ u.feeding = false := by
  cases h with
  | line _ hfeeding | fault _ hfeeding | stopsFeeding hfeeding => cases hf.symm.trans hfeeding
  | ends | leaves | releases => exact ⟨rfl, hf⟩

theorem Ends.world {last : Option (Except TaskError String)} (h : Ends s t sent ls last)
    (hw : Happens t u) : Ends s u (sent ++ u.queue.drop t.queue.length) ls last := by
  have hmore : s.queue ++ sent <+: s.queue ++ (sent ++ u.queue.drop t.queue.length) :=
    (List.prefix_append_right_inj _).2 (List.prefix_append _ _)
  cases h with
  | closed hf h =>
    obtain ⟨hqueue, hstopped⟩ := hw.eq_queue hf
    exact .closed hstopped (by rw [h, hqueue, List.drop_length, List.append_nil])
  | fault h => exact .fault (h.trans hmore)
  | late hd h => exact .late hd (h.trans hmore)

theorem Tells.world (h : Tells s t sent answers) (hw : Happens t u) :
    Tells s u (sent ++ u.queue.drop t.queue.length) answers := by
  obtain ⟨hexhausted, -, -, ⟨new, hqueue⟩, -⟩ := hw.frame
  cases h with
  | going hx h =>
    refine .going (hexhausted.trans hx) ?_
    rw [← hqueue, List.drop_left, ← List.append_assoc, h, List.append_assoc]
  | ended hx h n => exact .ended (hexhausted.trans hx) (h.world hw) n

theorem next_of_exhausted (hx : s.exhausted = true) (now : Moment) :
    s.next now = (.answer none, s) := by
  rw [next, if_pos hx]

/-- A call is left to wait only where nothing is there to be said: no line and no error, while
the reader goes on and the deadline has not passed. -/
theorem waits_iff : (s.next now).1 = .waiting ↔
    s.exhausted = false ∧ s.queue = [] ∧ s.feeding = true ∧ s.expired now = false := by
  cases hx : s.exhausted with
  | true => simp [next_of_exhausted hx]
  | false =>
    cases hq : s.queue with
    | nil => cases hf : s.feeding <;> cases hd : s.expired now <;> simp [next, hx, hq, hf, hd]
    | cons x rest => cases x <;> simp [next, hx, hq]

theorem next_frame {a : Option (Except TaskError String)} (h : s.next now = (.answer a, t)) :
    t.limit = s.limit ∧ t.deadline = s.deadline ∧ t.diagnostics = s.diagnostics := by
  unfold next at h
  split at h
  · cases h
    exact ⟨rfl, rfl, rfl⟩
  · split at h
    · cases h
      exact ⟨rfl, rfl, rfl⟩
    · cases h
      exact ⟨rfl, rfl, rfl⟩
    · split at h
      · cases h
        exact ⟨rfl, rfl, rfl⟩
      · split at h <;> cases h
        exact ⟨rfl, rfl, rfl⟩

theorem Course.frame (h : Course since s sent answers t) :
    t.limit = s.limit ∧ t.deadline = s.deadline := by
  induction h with
  | refl => exact ⟨rfl, rfl⟩
  | world _ hw ih =>
    obtain ⟨-, hlimit, hdeadline, -⟩ := hw.frame
    exact ⟨hlimit.trans ih.1, hdeadline.trans ih.2⟩
  | call _ _ hn ih =>
    obtain ⟨hlimit, hdeadline, -⟩ := next_frame hn
    exact ⟨hlimit.trans ih.1, hdeadline.trans ih.2⟩

theorem ends_of_next {a : Option (Except TaskError String)} (hx : t.exhausted = false)
    (h : ls.map .ok ++ t.queue = s.queue ++ sent)
    (hframe : t.limit = s.limit ∧ t.deadline = s.deadline) (hn : t.next now = (.answer a, u))
    (ha : ∀ l, a ≠ some (.ok l)) : Ends s u sent ls a := by
  match a with
  | some (.ok l) => exact absurd rfl (ha l)
  | none =>
    obtain ⟨hq, hf, rfl⟩ := next_eq_end hx hn
    exact .closed hf (by simpa [hq] using h)
  | some (.error e) =>
    rcases next_eq_error hn with ⟨x, rest, hq, rfl⟩ | ⟨hq, hd, rfl⟩
    · refine .fault ⟨rest, ?_⟩
      rw [← h, hq, List.append_assoc]
      rfl
    · rw [hframe.1]
      exact .late (hframe.2 ▸ hd) ⟨t.queue, h⟩

theorem Tells.call {a : Option (Except TaskError String)} (h : Tells s t sent answers)
    (hframe : t.limit = s.limit ∧ t.deadline = s.deadline) (hn : t.next now = (.answer a, u)) :
    Tells s u sent (answers ++ [a]) := by
  cases h with
  | ended hx h n =>
    cases (next_of_exhausted hx now).symm.trans hn
    rw [List.append_assoc, List.cons_append, ← List.replicate_succ']
    exact .ended hx h (n + 1)
  | @going ls hx h =>
    rcases next_eq_answer hn with ⟨hx', -, -⟩ | ⟨-, l, rest, hq, rfl, rfl⟩ | ⟨-, hx', -, ha, -⟩
    · cases hx.symm.trans hx'
    · have hline : Tells s { t with queue := rest } sent (handingOut (ls ++ [l])) := by
        refine .going hx ?_
        rw [← h, hq]
        simp
      rwa [handingOut, List.map_append] at hline
    · exact .ended hx' (ends_of_next hx h hframe hn ha) 0

/-- In every course the answers are lines in their order, and then what ends them. -/
theorem Course.tells (h : Course since s sent answers t) (hx : s.exhausted = false) :
    Tells s t sent answers := by
  induction h with
  | refl =>
    change Tells s s [] (handingOut [])
    exact .going hx (by simp)
  | world _ hw ih => exact ih.world hw
  | call h _ hn ih => exact ih.call h.frame hn

/-- Whatever a reader sends, wherever it stops and whenever the calls are made: the lines come in
the order in which they were sent, from the first one on and without a gap, and then, if they
end, one answer that says why and the end at every call behind it. -/
theorem lines_then_end (hx : s.exhausted = false) (h : Course since s sent answers t) :
    (∃ ls, ls.map .ok <+: s.queue ++ sent ∧ (answers = handingOut ls ∨
      ∃ last n, answers = handingOut ls ++ last :: List.replicate n none ∧
        Ends s t sent ls last ∧ ∀ now, t.next now = (.answer none, t))) ∧
      ∀ now, (t.next now).1 = .waiting ↔
        t.exhausted = false ∧ t.queue = [] ∧ t.feeding = true ∧ t.expired now = false := by
  refine ⟨?_, fun now => waits_iff⟩
  cases h.tells hx with
  | @going ls _ hrest => exact ⟨ls, ⟨t.queue, hrest⟩, .inl rfl⟩
  | @ended ls last hover hends n =>
    exact ⟨ls, hends.ls_prefix, .inr ⟨last, n, rfl, hends, next_of_exhausted hover⟩⟩

def ofTwoLines : Session where
  queue := [.ok "a", .ok "b"]
  feeding := true
  child := .running
  diagnostics := ""
  limit := some ⟨100⟩
  deadline := some ⟨100⟩

def answersOfTwoLines : List (Option (Except TaskError String)) :=
  [some (.ok "a"), some (.ok "b"), some (.error (.timeout ⟨100⟩)), none]

theorem lines_then_end_of_two_lines :
    start ⟨0⟩ (some ⟨100⟩) { output := Text.Utf8.encode "a\nb\n", ending := .hangs } =
      .ok ofTwoLines ∧
    ∃ t, Course ⟨5⟩ ofTwoLines [] answersOfTwoLines t ∧
      Ends ofTwoLines t [] ["a", "b"] (some (.error (.timeout ⟨100⟩))) ∧
      ∀ now, t.next now = (.answer none, t) := by
  refine ⟨by rfl, ?_⟩
  have hfirst : Course ⟨5⟩ ofTwoLines [] [some (.ok "a")]
      { ofTwoLines with queue := [.ok "b"] } :=
    Course.refl.call (by decide) (show ofTwoLines.next ⟨5⟩ = _ from rfl)
  have hsecond : Course ⟨5⟩ ofTwoLines [] [some (.ok "a"), some (.ok "b")]
      { ofTwoLines with queue := [] } :=
    hfirst.call (by decide) (show next _ ⟨150⟩ = _ from rfl)
  have hlate : Course ⟨5⟩ ofTwoLines []
      [some (.ok "a"), some (.ok "b"), some (.error (.timeout ⟨100⟩))]
      ({ ofTwoLines with queue := [] } : Session).abort.2 :=
    hsecond.call (by decide) (show next _ ⟨300⟩ = _ from rfl)
  have hcourse : Course ⟨5⟩ ofTwoLines [] answersOfTwoLines
      ({ ofTwoLines with queue := [] } : Session).abort.2 :=
    hlate.call (by decide) (show next _ ⟨301⟩ = _ from rfl)
  obtain ⟨⟨ls, -, hgoing | ⟨last, n, hover, hends, hnext⟩⟩, -⟩ := lines_then_end rfl hcourse
  · have hend : none ∈ handingOut ls := hgoing ▸ by simp [answersOfTwoLines]
    simp [handingOut] at hend
  · obtain ⟨rfl, rfl⟩ := eq_of_handingOut_append
      (show handingOut ["a", "b"] ++ _ :: _ = _ from hover) (by simp) hends.not_line
    exact ⟨_, hcourse, hends, hnext⟩

end MemberIndex.Session
