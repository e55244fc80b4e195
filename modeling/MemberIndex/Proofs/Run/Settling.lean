import MemberIndex.Proofs.Disassembler.Deadline
import MemberIndex.Proofs.Discovery.Identities
import MemberIndex.Proofs.Run.WriteAhead

/-! # Settling

A run settles if it comes to its end, whatever the order of its steps. No order of steps goes
on for ever, so a run settles unless one of its tasks is stuck with a tool that it started: a
tool without a limit that never ends, a tool that leaves a process behind which holds its
diagnostics open, or a tool whose deadline the clock cannot name. A command line may ask for
limits under which the last of these happens, and then nothing holds the tool.
-/

namespace MemberIndex

namespace Workbench

variable {p : Workbench} {path : Path} {phase phase' : Phase} {s s' : Shared}

theorem advance_eq_error {e : Stall} (h : p.advance path s phase = .error e) :
    (∃ i, identity? p.root path = some i) ∧ p.attempt path = .error e := by
  cases phase with
  | announced =>
    cases hi : identity? p.root path with
    | none => simp [advance, hi] at h
    | some i =>
      cases ha : p.attempt path with
      | ok a => simp [advance, hi, ha, bind, Except.bind, pure, Except.pure] at h
      | error e' =>
        simp only [advance, hi, ha, bind, Except.bind, Except.error.injEq] at h
        exact ⟨⟨i, rfl⟩, by rw [h]⟩
  | disassembled i result => cases result <;> cases h
  | counted o | checked o =>
    simp only [advance] at h
    split at h <;> cases h
  | _ => cases h

theorem advanceBy_eq_error {n : Nat} {e : Stall} (h : p.advanceBy path n phase s = .error e) :
    (∃ i, identity? p.root path = some i) ∧ p.attempt path = .error e := by
  induction n generalizing phase s with
  | zero => cases h
  | succ n ih =>
    unfold advanceBy at h
    cases ha : p.advance path s phase with
    | error e' =>
      simp only [ha, bind, Except.bind, Except.error.injEq] at h
      exact h ▸ advance_eq_error ha
    | ok x =>
      simp only [ha, bind, Except.bind] at h
      exact ih h

theorem runTasks_eq_some {order : List Path} {e : Stall} (h : (p.runTasks s order).1 = some e) :
    ∃ q ∈ order, (∃ i, identity? p.root q = some i) ∧ p.attempt q = .error e := by
  induction order generalizing s with
  | nil => cases h
  | cons q order ih =>
    unfold runTasks at h
    cases hs : p.runTask q s with
    | ok s₁ =>
      simp only [hs] at h
      obtain ⟨q', hq', hstuck⟩ := ih h
      exact ⟨q', List.mem_cons_of_mem _ hq', hstuck⟩
    | error e' =>
      simp only [hs, Option.some.injEq] at h
      subst h
      refine ⟨q, List.mem_cons_self, ?_⟩
      unfold runTask at hs
      cases ha : p.advanceBy q Phase.scheduled.remaining .scheduled s with
      | error e' =>
        simp only [ha, bind, Except.bind, Except.error.injEq] at hs
        exact hs ▸ advanceBy_eq_error ha
      | ok x => simp [ha, bind, Except.bind, pure, Except.pure] at hs

end Workbench

namespace Crew

open Workbench

variable {p : Workbench} {paths : List Path} {s : Shared} {c d : Crew}

/-- A bound on the steps that a crew still takes. A task's step may leave one more block to the
log's writer. -/
def remaining (c : Crew) : Nat :=
  (c.tasks.map fun t => 2 * t.2.remaining).sum + c.shared.sink.queue.length

theorem length_queue_of_turn {path : Path} {phase phase' : Phase} {ds : List Deed}
    (h : Turn p path s.records phase ds phase') :
    (ds.foldl Deed.act s).sink.queue.length ≤ s.sink.queue.length + 1 := by
  cases h with
  | disassemble hi ha =>
    simp only [List.foldl_cons, List.foldl_nil, Deed.act, Sink.submit]
    split <;> simp
  | _ => exact Nat.le_succ _

theorem Step.remaining_lt (h : Step p c d) : d.remaining < c.remaining := by
  cases h with
  | @task before after path phase phase' s s' hp ha =>
    obtain ⟨ds, ht, rfl⟩ := turn_of_advance hp ha
    have hqueue := length_queue_of_turn ht
    have hless := remaining_advance ha
    have hpos : 0 < phase.remaining := by
      cases phase <;> first | exact absurd rfl hp | exact Nat.succ_pos _
    simp only [remaining, List.map_append, List.map_cons, List.sum_append, List.sum_cons]
    omega
  | writer c hq =>
    obtain ⟨b, hb, -⟩ := Sink.drainOne_of_ne_nil hq
    have hlength : c.shared.sink.drainOne.queue.length < c.shared.sink.queue.length := by
      rw [hb]
      exact Nat.lt_succ_self _
    exact Nat.add_lt_add_left hlength _

/-- No order of steps goes on for ever. -/
theorem acc_step (p : Workbench) (c : Crew) : Acc (fun d c => Step p c d) c :=
  Subrelation.accessible (fun h => Step.remaining_lt h)
    (InvImage.accessible remaining (Nat.lt_wfRel.wf.apply _))

/-- A crew that comes to its end whatever the order of its steps. -/
structure Settles (p : Workbench) (c : Crew) : Prop where
  ends : Acc (fun d c => Step p c d) c
  goesOn : ∀ d, Reaches p c d → ¬ d.IsDone → ∃ e, Step p d e

theorem Settles.exists_done (h : Settles p c) : ∃ d, Reaches p c d ∧ d.IsDone := by
  suffices hfrom : ∀ d, Reaches p c d → ∃ e, Reaches p c e ∧ e.IsDone from hfrom c (.refl c)
  intro d hd
  induction acc_step p d with
  | intro d _ ih =>
    by_cases hdone : d.IsDone
    · exact ⟨d, hd, hdone⟩
    · obtain ⟨e, he⟩ := h.goesOn d hd hdone
      exact ih e he (.tail hd he)

def Attempted (p : Workbench) (path : Path) : Phase → Prop
  | .scheduled | .announced => True
  | _ => (∃ i, identity? p.root path = some i) → ∃ a, p.attempt path = .ok a

theorem attempted_turn {path : Path} {r : Records} {phase phase' : Phase} {ds : List Deed}
    (h : Turn p path r phase ds phase') (ha : Attempted p path phase) :
    Attempted p path phase' := by
  cases h with
  | announce => trivial
  | stray hi =>
    rintro ⟨i, hi'⟩
    cases hi.symm.trans hi'
  | disassemble _ hanswered => exact fun _ => ⟨_, hanswered⟩
  | _ => exact ha

theorem Reaches.attempted (h : Reaches p (.init paths s) c) :
    ∀ t ∈ c.tasks, Attempted p t.1 t.2 := by
  induction h with
  | refl =>
    intro t ht
    obtain ⟨path, -, rfl⟩ := List.mem_map.1 ht
    trivial
  | tail _ hs ih =>
    cases hs with
    | @task before after path phase phase' s s' hp ha =>
      obtain ⟨ds, hturn, -⟩ := turn_of_advance hp ha
      intro t ht
      rcases List.mem_append.1 ht with ht | ht
      · exact ih t (List.mem_append_left _ ht)
      rcases List.mem_cons.1 ht with rfl | ht
      · exact attempted_turn hturn (ih (path, phase) (by simp))
      · exact ih t (List.mem_append_right _ (List.mem_cons_of_mem _ ht))
    | writer _ _ => exact ih

theorem Reaches.answered (h : Reaches p (.init paths s) c) (hd : c.IsDone) {q : Path}
    (hq : q ∈ paths) (hi : ∃ i, identity? p.root q = some i) : ∃ a, p.attempt q = .ok a := by
  obtain ⟨history, hr⟩ := reaches_iff_runs.1 h
  rw [← hr.told.1] at hq
  obtain ⟨⟨q, phase⟩, ht, rfl⟩ := List.mem_map.1 hq
  obtain rfl : phase = .finished := hd _ ht
  exact h.attempted _ ht hi

theorem Reaches.not_isDone (h : Reaches p (.init paths s) c) {q : Path} (hq : q ∈ paths)
    (hi : ∃ i, identity? p.root q = some i) {e : Stall} (he : p.attempt q = .error e) :
    ¬ c.IsDone := by
  intro hd
  obtain ⟨a, ha⟩ := h.answered hd hq hi
  cases ha.symm.trans he

/-- A crew settles if no task is stuck with its tool. -/
theorem settles_iff : Settles p (.init paths s) ↔
    ∀ q ∈ paths, (∃ i, identity? p.root q = some i) → ∃ a, p.attempt q = .ok a := by
  constructor
  · intro h q hq hi
    cases ha : p.attempt q with
    | ok a => exact ⟨a, rfl⟩
    | error e =>
      obtain ⟨d, hd, hdone⟩ := h.exists_done
      exact absurd hdone (hd.not_isDone hq hi ha)
  · intro h
    refine ⟨acc_step p _, fun d hd hdone => ?_⟩
    obtain ⟨history, hr⟩ := reaches_iff_runs.1 hd
    simp only [IsDone, not_forall] at hdone
    obtain ⟨⟨path, phase⟩, ht, hphase⟩ := hdone
    have hpath : path ∈ paths := by
      rw [← hr.told.1]
      exact List.mem_map_of_mem ht
    obtain ⟨before, after, htasks⟩ := List.append_of_mem ht
    obtain ⟨tasks, shared⟩ := d
    cases htasks
    cases ha : p.advance path shared phase with
    | ok x => exact ⟨_, .task hphase ha⟩
    | error e =>
      obtain ⟨hi, hstuck⟩ := advance_eq_error ha
      obtain ⟨a, hok⟩ := h path hpath hi
      cases hok.symm.trans hstuck

end Crew

theorem Settings.limit_of_resolve {t : FileTree} {env : Environment} {a : Arguments}
    {s : Settings} (h : resolve t env a = .ok s) :
    s.disassembler.limit = if a.timeout = 0 then none else some (.ofSeconds a.timeout) := by
  unfold resolve at h
  cases hroot : (Path.absolute t.current.path a.root).mapError (SettingsError.root a.root) with
  | error e => simp [hroot, bind, Except.bind] at h
  | ok root =>
    simp only [hroot, bind, Except.bind] at h
    split at h
    · cases h
    · cases h
      by_cases h0 : a.timeout = 0 <;>
        simp [Disassembler.limit, h0, Option.filter, Duration.ofSeconds]

namespace Run

open Discovery

variable {t t₀ : FileTree} {env : Environment} {a : Arguments} {s : Settings} {clock : Moment}
  {tool : Tool} {r : OpenRun}

/-- Whether a run under a command line gets away from a tool that it has started: the clock can
name the moment so many seconds later, and the tool lets go of its pipes; or the limit is off,
and the tool ends. -/
def LetsGo (a : Arguments) (clock : Moment) (b : Behaviour) : Prop :=
  if a.timeout = 0 then b.Ends
  else clock.nanos / Nat.pow 10 9 + a.timeout ≤ Moment.lastSecond ∧
    (b.within (some (.ofSeconds a.timeout))).Releases

theorem letsGo_iff (hs : Settings.resolve t₀ env a = .ok s)
    (hlimit : tool.limit = s.disassembler.limit) {root : Path} {b : Behaviour} :
    (⟨root, tool, clock⟩ : Workbench).LetsGo b ↔ LetsGo a clock b := by
  rw [Settings.limit_of_resolve hs] at hlimit
  unfold Workbench.LetsGo LetsGo
  by_cases h0 : a.timeout = 0
  · rw [if_pos h0] at hlimit ⊢
    simp only [hlimit]
  · rw [if_neg h0] at hlimit ⊢
    simp only [hlimit]
    exact and_congr_left' (Moment.isSome_after?_iff clock a.timeout)

theorem exists_identity_of_start (hr : start s t = .ok r) (ht : t.IsNamed) {q : Path}
    (hq : q ∈ r.discovery.artifacts) : ∃ i, identity? s.root q = some i := by
  obtain ⟨_, _, _, -, -, -, hi⟩ :=
    (discovers_of_discover (start_eq_ok hr).2).exists_identity ht hq
  exact ⟨_, hi⟩

theorem complete_of_settles (hr : start s t = .ok r)
    (hgo : Crew.Settles ⟨s.root, tool, clock⟩ (.init r.discovery.artifacts r.shared)) :
    ∃ inv, (buildWith tool s clock t).outcome = .complete inv ∧
      r.discovery.artifacts.length = inv.tally.extracted + inv.tally.failures.length := by
  cases hc : (⟨s.root, tool, clock⟩ : Workbench).runCrew s.jobs r.shared
      r.discovery.artifacts with
  | mk stall shared =>
    cases stall with
    | some e =>
      obtain ⟨q, hq, hi, he⟩ := Workbench.runTasks_eq_some (congrArg Prod.fst hc)
      have hmem := (Workbench.order_perm _ _).mem_iff.1 hq
      obtain ⟨answer, ha⟩ := Crew.settles_iff.1 hgo q hmem hi
      cases ha.symm.trans he
    | none =>
      obtain ⟨c, hreach, hd, hcs⟩ := Workbench.reaches_of_runCrew (congrArg Prod.fst hc)
      obtain ⟨history, hruns⟩ := Crew.reaches_iff_runs.1 hreach
      refine ⟨_, by simp only [buildWith, hr, hc]; rfl, ?_⟩
      have hended := (hruns.balanced hd).ended
      rw [hcs, hc] at hended
      exact hended

theorem not_isDone_of_not_letsGo (hs : Settings.resolve t₀ env a = .ok s)
    (hlimit : tool.limit = s.disassembler.limit) (ht : t.IsNamed) (hr : start s t = .ok r)
    {q : Path} (hq : q ∈ r.discovery.artifacts) {b : Behaviour} (hb : tool.start q = .ok b)
    (h : ¬ LetsGo a clock b) {c : Crew}
    (hc : Crew.Reaches ⟨s.root, tool, clock⟩ (.init r.discovery.artifacts r.shared) c) :
    ¬ c.IsDone := by
  have hstuck : ¬ (⟨s.root, tool, clock⟩ : Workbench).LetsGo b := mt (letsGo_iff hs hlimit).1 h
  obtain ⟨e, he⟩ := Workbench.exists_stall_of_not_letsGo hb hstuck
  exact hc.not_isDone hq (exists_identity_of_start hr ht hq) he

/-- Under a limit that leads beyond the clock, a run that starts a tool is lost. -/
theorem stalled_of_overflow (clock : Moment) (hs : Settings.resolve t₀ env a = .ok s)
    (hlimit : tool.limit = s.disassembler.limit) (ht : t.IsNamed) (hr : start s t = .ok r)
    (h0 : a.timeout ≠ 0) (hover : Moment.lastSecond < clock.nanos / Nat.pow 10 9 + a.timeout)
    {q : Path} (hq : q ∈ r.discovery.artifacts) {b : Behaviour} (hb : tool.start q = .ok b) :
    Session.start clock tool.limit b = .error .clockOverflow ∧
      (buildWith tool s clock t).outcome = .stalled .clockOverflow := by
  have hd := hlimit.trans (Settings.limit_of_resolve hs)
  rw [if_neg h0] at hd
  have hnone : clock.after? (.ofSeconds a.timeout) = none := by
    rw [← Option.not_isSome_iff_eq_none, Moment.isSome_after?_iff]
    exact Nat.not_le.2 hover
  obtain ⟨hsession, hattempt⟩ :=
    Workbench.attempt_of_overflow (p := ⟨s.root, tool, clock⟩) hb hd hnone
  refine ⟨hsession, ?_⟩
  cases hc : (⟨s.root, tool, clock⟩ : Workbench).runCrew s.jobs r.shared
      r.discovery.artifacts with
  | mk stall shared =>
    cases stall with
    | some e =>
      obtain ⟨q', -, -, he⟩ := Workbench.runTasks_eq_some (congrArg Prod.fst hc)
      cases Workbench.eq_clockOverflow_of_attempt hd hnone he
      simp only [buildWith, hr, hc]
    | none =>
      obtain ⟨c, hreach, hdone, -⟩ := Workbench.reaches_of_runCrew (congrArg Prod.fst hc)
      exact absurd hdone (hreach.not_isDone hq (exists_identity_of_start hr ht hq) hattempt)

/-- A run with a limit from the command line and any tool, on a machine that grants it all its
threads. It fails before its tasks begin, or its tasks settle exactly if each gets away from its
tool, and then every tool that was started is held by a session and every artifact is counted;
behind a tool that does not let go, no order of steps brings the run to its end. Where the limit
is on, a task gets away if the clock can name the moment so many seconds later and the tool leaves
no process behind that holds its diagnostics open. If the clock cannot name that moment, the first
tool that is started is held by nothing, whatever it does, and the run is lost. -/
theorem settles_iff_letsGo (clock : Moment) (hs : Settings.resolve t₀ env a = .ok s)
    (hlimit : tool.limit = s.disassembler.limit) (ht : t.IsNamed) :
    (∀ run, start s t = .error run → ∃ e, (buildWith tool s clock t).outcome = .failed e) ∧
    ∀ r, start s t = .ok r →
      (Crew.Settles ⟨s.root, tool, clock⟩ (.init r.discovery.artifacts r.shared) ↔
        ∀ q ∈ r.discovery.artifacts, ∀ b, tool.start q = .ok b → LetsGo a clock b) ∧
      ((∀ q ∈ r.discovery.artifacts, ∀ b, tool.start q = .ok b → LetsGo a clock b) →
        (∃ inv, (buildWith tool s clock t).outcome = .complete inv ∧
          r.discovery.artifacts.length = inv.tally.extracted + inv.tally.failures.length) ∧
        ∀ q ∈ r.discovery.artifacts, ∀ b, tool.start q = .ok b →
          ∃ held, Session.start clock tool.limit b = .ok held) ∧
      ∀ q ∈ r.discovery.artifacts, ∀ b, tool.start q = .ok b →
        (¬ LetsGo a clock b →
          ∀ c, Crew.Reaches ⟨s.root, tool, clock⟩ (.init r.discovery.artifacts r.shared) c →
            ¬ c.IsDone) ∧
        (a.timeout ≠ 0 → Moment.lastSecond < clock.nanos / Nat.pow 10 9 + a.timeout →
          Session.start clock tool.limit b = .error .clockOverflow ∧
            (buildWith tool s clock t).outcome = .stalled .clockOverflow) := by
  constructor
  · intro run hr
    obtain ⟨e, he⟩ := failed_of_start_eq_error hr
    exact ⟨e, by simp only [buildWith, hr, he]⟩
  intro r hr
  have hsettles : Crew.Settles ⟨s.root, tool, clock⟩ (.init r.discovery.artifacts r.shared) ↔
      ∀ q ∈ r.discovery.artifacts, ∀ b, tool.start q = .ok b → LetsGo a clock b := by
    rw [Crew.settles_iff]
    refine forall_congr' fun q => forall_congr' fun hq => ?_
    rw [Workbench.attempt_isOk_iff]
    simp only [letsGo_iff hs hlimit]
    exact forall_prop_of_true (exists_identity_of_start hr ht hq)
  refine ⟨hsettles, fun hgo => ⟨complete_of_settles hr (hsettles.2 hgo), fun q hq b hb => ?_⟩, ?_⟩
  · rcases Session.start_cases clock tool.limit b with ⟨-, hheld⟩ | ⟨⟨d, hd, hover⟩, -⟩
    · exact hheld
    · have h : (⟨s.root, tool, clock⟩ : Workbench).LetsGo b :=
        (letsGo_iff hs hlimit).2 (hgo q hq b hb)
      simp [Workbench.LetsGo, hd, hover] at h
  · intro q hq b hb
    exact ⟨fun hstuck c => not_isDone_of_not_letsGo hs hlimit ht hr hq hb hstuck,
      fun h0 hover => stalled_of_overflow clock hs hlimit ht hr h0 hover hq hb⟩

section Samples

def asked (seconds : Nat) : Arguments := { root := .ofString "c", timeout := seconds }

def forLimit (seconds : Nat) : Settings where
  root := .ofString "/c"
  extension := "class"
  disassembler :=
    ⟨.ofString "javap", [Text.Utf8.encode "-v"], some (.ofSeconds seconds), none⟩
  jobs := 0
  output := .ofString "class_info.json"
  log := .ofString "javap_output.log"
  appendLog := false

def toolUnder (seconds : Nat) (b : Behaviour) : Tool :=
  { Tool.always b with limit := (forLimit seconds).disassembler.limit }

theorem exists_start {s : Settings} (h : ((start s circled).toOption.map
    (·.discovery.artifacts)) = some [.ofString "/c/C.class", .ofString "/c/L.class"]) :
    ∃ r, start s circled = .ok r ∧
      r.discovery.artifacts = [.ofString "/c/C.class", .ofString "/c/L.class"] := by
  cases hr : start s circled with
  | error run => simp [hr, Except.toOption] at h
  | ok r =>
    rw [hr] at h
    exact ⟨r, rfl, Option.some.inj h⟩

set_option maxRecDepth 10000 in
theorem settles_iff_letsGo_of_minute :
    Arguments.parse ["--timeout", "60", "c"] = .ok (asked 60) ∧
    ∃ r inv, start (forLimit 60) circled = .ok r ∧ r.discovery.artifacts.length = 2 ∧
      Crew.Settles ⟨.ofString "/c", toolUnder 60 { ending := .hangs }, ⟨0⟩⟩
        (.init r.discovery.artifacts r.shared) ∧
      (buildWith (toolUnder 60 { ending := .hangs }) (forLimit 60) ⟨0⟩ circled).outcome =
        .complete inv ∧ inv.tally.extracted + inv.tally.failures.length = 2 := by
  refine ⟨by rfl, ?_⟩
  obtain ⟨r, hr, hartifacts⟩ := exists_start (s := forLimit 60) (by cbv)
  have hlength : r.discovery.artifacts.length = 2 := by rw [hartifacts]; rfl
  have hresolve : Settings.resolve circled {} (asked 60) = .ok (forLimit 60) := by cbv
  have hlimit : (toolUnder 60 { ending := .hangs }).limit = (forLimit 60).disassembler.limit := rfl
  obtain ⟨-, hruns⟩ := settles_iff_letsGo ⟨0⟩ hresolve hlimit (t := circled) (by decide)
  obtain ⟨hsettles, hcomplete, -⟩ := hruns r hr
  have hgo : ∀ q ∈ r.discovery.artifacts, ∀ b,
      (toolUnder 60 { ending := .hangs }).start q = .ok b → LetsGo (asked 60) ⟨0⟩ b := by
    rintro q - b hb
    cases hb
    exact ⟨by decide, .inr (by simp [Behaviour.within])⟩
  obtain ⟨⟨inv, hinv, hcounted⟩, -⟩ := hcomplete hgo
  exact ⟨r, inv, hr, hlength, hsettles.2 hgo, hinv, hcounted.symm.trans hlength⟩

set_option maxRecDepth 10000 in
/-- The greatest limit is accepted, and a run with a tool that exits at once is lost. -/
theorem stalls_at_greatest_limit :
    Arguments.parse ["--timeout", "18446744073709551615", "c"] =
      .ok (asked 18446744073709551615) ∧
    Settings.resolve circled {} (asked 18446744073709551615) =
      .ok (forLimit 18446744073709551615) ∧
    Session.start ⟨0⟩ (forLimit 18446744073709551615).disassembler.limit {} =
      .error .clockOverflow ∧
    (buildWith (toolUnder 18446744073709551615 {}) (forLimit 18446744073709551615) ⟨0⟩
      circled).outcome = .stalled .clockOverflow := by
  have hresolve : Settings.resolve circled {} (asked 18446744073709551615) =
      .ok (forLimit 18446744073709551615) := by cbv
  obtain ⟨r, hr, hartifacts⟩ := exists_start (s := forLimit 18446744073709551615) (by cbv)
  have hlimit : (toolUnder 18446744073709551615 {}).limit =
      (forLimit 18446744073709551615).disassembler.limit := rfl
  have hmem : .ofString "/c/C.class" ∈ r.discovery.artifacts := by
    rw [hartifacts]
    exact List.mem_cons_self
  obtain ⟨hsession, hstalled⟩ := stalled_of_overflow ⟨0⟩ hresolve hlimit (by decide) hr (by decide)
    (by decide) hmem rfl
  exact ⟨by rfl, hresolve, hsession, hstalled⟩

end Samples

end Run

end MemberIndex
