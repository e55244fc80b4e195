import MemberIndex.Proofs.Disassembler.Hearing

/-! # Deadlines

A session needs a deadline that the clock can name, if its tool has a limit. An attempt is
answered unless it is stuck with a tool that it has started: one without a limit that never
ends, one that leaves a process behind which holds its diagnostics open, whatever the limit, or
one whose deadline cannot be named, and then nothing holds the tool.
-/

namespace MemberIndex

/-- Whether a tool comes to an end by itself: it exits, or reading it breaks off. -/
def Behaviour.Ends (b : Behaviour) : Prop :=
  b.fault.isSome = true ∨ ∃ status, b.ending = .exits status

/-- Whether a tool lets go of its pipes once it has ended, or reading them breaks off. -/
def Behaviour.Releases (b : Behaviour) : Prop :=
  b.fault.isSome = true ∨ ∀ status, b.ending ≠ .leaves status

theorem Behaviour.Ends.releases {b : Behaviour} (h : b.Ends) : b.Releases := by
  rcases h with hfault | ⟨status, hending⟩
  · exact .inl hfault
  · refine .inr fun other hother => ?_
    cases hending.symm.trans hother

theorem Behaviour.within_none (b : Behaviour) : b.within none = b := by
  simp [within]

theorem Behaviour.isSome_hearing?_iff {b : Behaviour} {limit : Option Duration} :
    (b.hearing? limit).isSome = true ↔ (limit.isSome = true ∧ b.Releases) ∨ b.Ends := by
  unfold hearing? Releases Ends
  cases b.fault <;> cases b.ending <;> cases limit <;> simp

section Deadlines

variable {now : Moment} {limit : Option Duration} {b : Behaviour}

/-- The clock counts whole seconds, and a limit of whole seconds adds nothing to the rest. -/
theorem Moment.isSome_after?_iff (now : Moment) (n : Nat) :
    (now.after? (.ofSeconds n)).isSome = true ↔ now.nanos / Nat.pow 10 9 + n ≤ lastSecond := by
  have hsum : (now.nanos + n * 1000000000) / Nat.pow 10 9 = now.nanos / Nat.pow 10 9 + n :=
    Nat.add_mul_div_right _ _ (by decide)
  rw [after?, Duration.ofSeconds, hsum]
  split <;> simp [*]

theorem Session.start_cases (now : Moment) (limit : Option Duration) (b : Behaviour) :
    ((∀ d ∈ limit, (now.after? d).isSome = true) ∧ ∃ s, start now limit b = .ok s) ∨
      (∃ d, limit = some d ∧ now.after? d = none) ∧ start now limit b = .error .clockOverflow := by
  unfold start
  cases limit with
  | none => exact .inl ⟨by simp, _, rfl⟩
  | some d =>
    cases hd : now.after? d with
    | none => exact .inr ⟨⟨d, rfl, hd⟩, by simp [hd]⟩
    | some m => exact .inl ⟨by simp [hd], by simp [hd]⟩

end Deadlines

namespace Workbench

variable {p : Workbench} {path : Path} {b : Behaviour}

/-- Whether a task gets away from a tool that it has started: the clock can name the tool's
deadline, and the tool lets go of its pipes; or there is no deadline, and the tool ends. -/
def LetsGo (p : Workbench) (b : Behaviour) : Prop :=
  match p.tool.limit with
  | none => b.Ends
  | some d => (p.clock.after? d).isSome = true ∧ (b.within (some d)).Releases

theorem attempt_of_overflow (hb : p.tool.start path = .ok b) {d : Duration}
    (hd : p.tool.limit = some d) (hover : p.clock.after? d = none) :
    Session.start p.clock p.tool.limit b = .error .clockOverflow ∧
      p.attempt path = .error .clockOverflow := by
  rcases Session.start_cases p.clock p.tool.limit b with ⟨hall, -⟩ | ⟨-, hs⟩
  · simpa [hover] using hall d hd
  · exact ⟨hs, by simp only [attempt, hb, hs, bind, Except.bind]⟩

/-- An attempt is answered unless it is stuck with a tool that it has started. -/
theorem attempt_isOk_iff :
    (∃ a, p.attempt path = .ok a) ↔ ∀ b, p.tool.start path = .ok b → p.LetsGo b := by
  cases hb : p.tool.start path with
  | error e => simp [attempt, hb]
  | ok b =>
    simp only [Except.ok.injEq, forall_eq']
    rcases Session.start_cases p.clock p.tool.limit b with ⟨hall, held, hs⟩ | ⟨⟨d, hd, hover⟩, -⟩
    · have hheard : (∃ a, p.attempt path = .ok a) ↔ (p.tool.hearing? path).isSome = true := by
        rw [attempt_of_start hb hs]
        cases p.tool.hearing? path <;> simp
      rw [hheard, Tool.hearing?, hb, LetsGo]
      simp only [Behaviour.isSome_hearing?_iff]
      cases hl : p.tool.limit with
      | none => simp [Behaviour.within_none]
      | some d =>
        have hends : (b.within (some d)).Ends → (b.within (some d)).Releases := (·.releases)
        simpa [hall d hl] using hends
    · rw [(attempt_of_overflow hb hd hover).2, LetsGo, hd]
      simp [hover]

theorem exists_stall_of_not_letsGo (hb : p.tool.start path = .ok b) (h : ¬ p.LetsGo b) :
    ∃ e, p.attempt path = .error e := by
  cases ha : p.attempt path with
  | ok a => exact absurd (attempt_isOk_iff.1 ⟨a, ha⟩ b hb) h
  | error e => exact ⟨e, rfl⟩

theorem eq_clockOverflow_of_attempt {d : Duration} (hd : p.tool.limit = some d)
    (hover : p.clock.after? d = none) {e : Stall} (h : p.attempt path = .error e) :
    e = .clockOverflow := by
  cases hb : p.tool.start path with
  | error _ => simp [attempt, hb] at h
  | ok b =>
    rw [(attempt_of_overflow hb hd hover).2] at h
    exact (Except.error.inj h).symm

end Workbench

end MemberIndex
