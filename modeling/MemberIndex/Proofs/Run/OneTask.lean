import MemberIndex.Proofs.Disassembler.Deadline
import MemberIndex.Proofs.Disassembler.Timing
import MemberIndex.Proofs.Members.Listing

/-! # One task from end to end

What a task does to the index and to the sink is told by how it is over. A stray path leaves
both alone; a tool that cannot be started leaves its header in the sink; a tool that fails or
is too late leaves its header and the lines that were taken; and only a tool that ends by
itself changes the index, at the identity of its artifact.
-/

namespace MemberIndex

/-- What an attempt on the artifact of an identity makes of an index and a sink. -/
def Attempt.outcome (a : Attempt) (identity : String) (records : Records) (sink : Sink) :
    Except TaskError Recording × Records × Sink :=
  match a.result with
  | .error e => (.error e, records, sink.submit a.block)
  | .ok (m, exit) =>
    (.ok ⟨identity, exit, records[identity]?⟩, (records.put identity m).2, sink.submit a.block)

namespace Workbench

variable (p : Workbench) (path : Path) (records : Records) (sink : Sink)

/-- What a task may come to, its tool and the reader of its output going on at any moments. -/
inductive Processes : Except TaskError Recording × Records × Sink → Stage → Prop
  | stray (hi : identity? p.root path = none) :
    Processes (.error (.identity path), records, sink) .unstarted
  | unstarted {identity : String} {e : IoError} (hi : identity? p.root path = some identity)
    (he : p.tool.start path = .error e) :
    Processes (Attempt.outcome ⟨.forArtifact path, .error (.invocation p.tool.name e)⟩
      identity records sink) .unstarted
  | attended {identity : String} {b : Behaviour} {a : Attempt} {stage : Stage}
    (hi : identity? p.root path = some identity) (hb : p.tool.start path = .ok b)
    (hd : ∀ d ∈ p.tool.limit, (p.clock.after? d).isSome = true)
    (ha : Feed.Attends b (.forArtifact path) ∅ (Feed.start p.clock p.tool.limit b) a stage) :
    Processes (a.outcome identity records sink) stage

/-- What the index, the sink and the answer are after a task, by the way it is over. -/
def Accounts (x : Except TaskError Recording × Records × Sink) (stage : Stage) : Prop :=
  match x.1, stage with
  | .error (.identity q), .unstarted =>
    identity? p.root path = none ∧ q = path ∧ x.2 = (records, sink)
  | .error (.invocation name e), .unstarted =>
    (identity? p.root path).isSome = true ∧ p.tool.start path = .error e ∧ name = p.tool.name ∧
      x.2 = (records, sink.submit ⟨[Block.header path]⟩)
  | .error (.reading e), .reading left =>
    (identity? p.root path).isSome = true ∧ ∃ b, p.tool.start path = .ok b ∧
      b.fault = some e ∧ left = [] ∧
      x.2 = (records, sink.submit ⟨Block.header path :: Text.openPipeLines b.output⟩)
  | .error (.timeout d), .reading left =>
    (identity? p.root path).isSome = true ∧ ∃ b ls, p.tool.start path = .ok b ∧
      p.tool.limit = some d ∧ ls.map .ok ++ left = Session.deliveries b ∧
      x.2 = (records, sink.submit ⟨Block.header path :: ls⟩)
  | .error (.timeout d), .waiting =>
    (identity? p.root path).isSome = true ∧ ∃ b, p.tool.start path = .ok b ∧
      p.tool.limit = some d ∧ b.closesOutput = true ∧
      x.2 = (records, sink.submit ⟨Block.header path :: Text.pipeLines b.output⟩)
  | .ok o, .waiting =>
    identity? p.root path = some o.identity ∧ ∃ b, p.tool.start path = .ok b ∧
      b.fault = none ∧ b.ending = .exits o.exit.status ∧
      o.exit.diagnostics = Text.Utf8.decode b.diagnostics ∧
      o.replaced = records[o.identity]? ∧
      (∀ j, x.2.1[j]? = if o.identity = j then some (Members.ofText (Text.Utf8.decode b.output))
        else records[j]?) ∧
      x.2.2 = sink.submit ⟨Block.header path :: Text.pipeLines b.output⟩
  | _, _ => False

variable {p path records sink} {x : Except TaskError Recording × Records × Sink} {stage : Stage}

theorem process_of_stray (hi : identity? p.root path = none) (tool : Tool) (clock : Moment) :
    ({ p with tool, clock } : Workbench).process path records sink =
      .ok (.error (.identity path), records, sink) := by
  simp only [process, hi]

theorem process_eq {identity : String} (hi : identity? p.root path = some identity) :
    p.process path records sink = (p.attempt path).map (·.outcome identity records sink) := by
  simp only [process, hi, bind, Except.bind]
  cases p.attempt path with
  | error e => rfl
  | ok a =>
    obtain ⟨block, result⟩ := a
    cases result <;> rfl

theorem Processes.accounts (h : p.Processes path records sink x stage) :
    p.Accounts path records sink x stage := by
  cases h with
  | stray hi => exact ⟨hi, rfl, rfl⟩
  | unstarted hi he => exact ⟨by simp [hi], he, rfl, rfl⟩
  | @attended identity b a stage hi hb hd ha =>
    have hacc := ha.accounts (Feed.took_start b p.tool.limit p.clock) rfl rfl
    have hsome : (identity? p.root path).isSome = true := by simp [hi]
    obtain ⟨block, result⟩ := a
    unfold Behaviour.Accounts at hacc
    split at hacc
    · rename_i hresult
      cases hresult
      obtain ⟨hleft, hfault, hblock⟩ := hacc
      cases hblock
      exact ⟨hsome, b, hb, hfault, hleft, rfl⟩
    · rename_i hresult
      cases hresult
      obtain ⟨hlimit, ls, hleft, hblock⟩ := hacc
      cases hblock
      exact ⟨hsome, b, ls, hb, hlimit, hleft, rfl⟩
    · rename_i hresult
      cases hresult
      obtain ⟨hlimit, hcloses, hblock⟩ := hacc
      cases hblock
      exact ⟨hsome, b, hb, hlimit, hcloses, rfl⟩
    · rename_i exit hresult
      cases hresult
      obtain ⟨hfault, hending, hdiagnostics, hm, hblock⟩ := hacc
      cases hblock
      refine ⟨hi, b, hb, hfault, hending, hdiagnostics, rfl, ?_, rfl⟩
      rw [hm, Members.ofLines_pipeLines]
      exact Records.getElem?_put records identity _
    · exact hacc.elim

theorem exists_hearing (h : p.process path records sink = .ok x) {identity : String}
    (hi : identity? p.root path = some identity) {b : Behaviour}
    (hb : p.tool.start path = .ok b) :
    (∀ d ∈ p.tool.limit, (p.clock.after? d).isSome = true) ∧
      ∃ y, (b.within p.tool.limit).hearing? p.tool.limit = some y ∧
        x = Attempt.outcome ⟨⟨Block.header path :: y.lines⟩,
          y.ending.map (Members.ofLines y.lines, ·)⟩ identity records sink := by
  rw [process_eq hi] at h
  cases ha : p.attempt path with
  | error e => simp [ha, Except.map] at h
  | ok a =>
    rw [ha] at h
    cases h
    obtain ⟨y, hy, rfl⟩ := attempt_eq_ok ha
    simp only [Tool.hearing?, hb] at hy
    refine ⟨?_, y, hy, rfl⟩
    intro d hd
    have hgo := attempt_isOk_iff.1 ⟨_, ha⟩ b hb
    rw [LetsGo, Option.mem_def.1 hd] at hgo
    exact hgo.1

/-- The task that is carried out is one of those. -/
theorem exists_processes (h : p.process path records sink = .ok x) :
    ∃ stage, p.Processes path records sink x stage := by
  cases hi : identity? p.root path with
  | none =>
    rw [process_of_stray hi p.tool p.clock] at h
    cases h
    exact ⟨_, .stray hi⟩
  | some identity =>
    cases hb : p.tool.start path with
    | error e =>
      rw [process_eq hi, attempt, hb] at h
      cases h
      exact ⟨_, .unstarted hi hb⟩
    | ok b =>
      obtain ⟨hd, y, hy, rfl⟩ := exists_hearing h hi hb
      obtain ⟨stage, ha⟩ := Feed.attends_of_hearing hy hd
      exact ⟨stage, .attended hi hb hd ha⟩

theorem process_isOk_iff :
    (∃ x, p.process path records sink = .ok x) ↔
      ∀ identity b, identity? p.root path = some identity → p.tool.start path = .ok b →
        p.LetsGo b := by
  cases hi : identity? p.root path with
  | none => simp [process_of_stray hi p.tool p.clock]
  | some identity =>
    rw [process_eq hi]
    constructor
    · rintro ⟨x, hx⟩ _ b - hb
      cases ha : p.attempt path with
      | error e => simp [ha, Except.map] at hx
      | ok a => exact attempt_isOk_iff.1 ⟨a, ha⟩ b hb
    · intro hgo
      obtain ⟨a, ha⟩ := attempt_isOk_iff.2 fun b => hgo identity b rfl
      exact ⟨_, by rw [ha]; rfl⟩

theorem process_records_iff :
    (∃ o y, p.process path records sink = .ok (.ok o, y)) ↔
      (identity? p.root path).isSome = true ∧ ∃ b status, p.tool.start path = .ok b ∧
        (∀ d ∈ p.tool.limit, (p.clock.after? d).isSome = true) ∧
        (b.within p.tool.limit).fault = none ∧
        (b.within p.tool.limit).ending = .exits status := by
  constructor
  · rintro ⟨o, y, h⟩
    obtain ⟨stage, hp⟩ := exists_processes h
    have hacc := hp.accounts
    cases stage with
    | unstarted | reading => exact hacc.elim
    | waiting =>
      obtain ⟨hi, b, hb, -⟩ := hacc
      obtain ⟨hd, ⟨lines, ending⟩, hx, hy⟩ := exists_hearing h hi hb
      obtain ⟨exit, rfl⟩ : ∃ exit, ending = .ok exit := by
        cases ending with
        | error e => cases hy
        | ok exit => exact ⟨exit, rfl⟩
      obtain ⟨hfault, hending⟩ := Behaviour.exits_of_hearing hx
      exact ⟨by simp [hi], b, exit.status, hb, hd, hfault, hending⟩
  · rintro ⟨hi, b, status, hb, hd, hfault, hending⟩
    obtain ⟨identity, hi⟩ := Option.isSome_iff_exists.1 hi
    rcases Session.start_cases p.clock p.tool.limit b with ⟨-, s, hs⟩ | ⟨⟨d, hl, hover⟩, -⟩
    · have hheard : p.tool.hearing? path = some ⟨(b.within p.tool.limit).lines,
          .ok ⟨status, Text.Utf8.decode (b.within p.tool.limit).diagnostics⟩⟩ := by
        simp [Tool.hearing?, hb, Behaviour.hearing?, hfault, hending]
      rw [process_eq hi, attempt_of_start hb hs, hheard]
      exact ⟨_, _, rfl⟩
    · simpa [hover] using hd d hl

/-- One task, in every course that it may take: how it is over tells its answer, its block in
the sink and its entry in the index. The task that is carried out takes one of these courses;
it is over unless it is stuck with a tool that it has started, and records where the tool ends
by itself in time. -/
theorem one_task (p : Workbench) (path : Path) (records : Records) (sink : Sink) :
    (∀ x stage, p.Processes path records sink x stage → p.Accounts path records sink x stage) ∧
    (∀ x, p.process path records sink = .ok x → ∃ stage, p.Processes path records sink x stage) ∧
    ((∃ x, p.process path records sink = .ok x) ↔
      ∀ identity b, identity? p.root path = some identity → p.tool.start path = .ok b →
        p.LetsGo b) ∧
    ((∃ o y, p.process path records sink = .ok (.ok o, y)) ↔
      (identity? p.root path).isSome = true ∧ ∃ b status, p.tool.start path = .ok b ∧
        (∀ d ∈ p.tool.limit, (p.clock.after? d).isSome = true) ∧
        (b.within p.tool.limit).fault = none ∧
        (b.within p.tool.limit).ending = .exits status) ∧
    (identity? p.root path = none → ∀ tool clock,
      ({ p with tool, clock } : Workbench).process path records sink =
        .ok (.error (.identity path), records, sink)) := by
  refine ⟨?_, ?_, process_isOk_iff, process_records_iff, process_of_stray⟩
  · rintro x stage h
    exact h.accounts
  · rintro x h
    exact exists_processes h

def ofTwoLines : Workbench where
  root := .ofString "/in"
  tool := {
    name := "javap"
    limit := some ⟨5⟩
    start := fun _ => .ok { output := Text.Utf8.encode "a\nb\n" } }

/-- The two lines are recorded if they come in time. Where the second does not, the first
stands in the block behind the header, and the index is left alone. -/
theorem one_task_of_two_lines :
    let late : Except TaskError Recording × Records × Sink :=
      (.error (.timeout ⟨5⟩), ∅, { queue := [⟨["Class: A.class", "a"]⟩], submitted := 2 })
    ofTwoLines.Processes (.ofString "/in/A.class") ∅ {} late (.reading [.ok "b"]) ∧
      ofTwoLines.Accounts (.ofString "/in/A.class") ∅ {} late (.reading [.ok "b"]) ∧
      ∃ o y, ofTwoLines.process (.ofString "/in/A.class") ∅ {} = .ok (.ok o, y) := by
  intro late
  obtain ⟨haccounts, -, -, hrecords, -⟩ := one_task ofTwoLines (.ofString "/in/A.class") ∅ {}
  have hlate : ofTwoLines.Processes (.ofString "/in/A.class") ∅ {} late (.reading [.ok "b"]) := by
    have hi : identity? (.ofString "/in") (.ofString "/in/A.class") = some "A" := by decide
    have hlines : Feed.start ⟨0⟩ (some ⟨5⟩) { output := Text.Utf8.encode "a\nb\n" } =
        ⟨(Feed.start ⟨0⟩ (some ⟨5⟩) {}).session, ["a"].map .ok ++ [.ok "b"]⟩ := by rfl
    refine .attended (a := ⟨⟨["Class: A.class", "a"]⟩, .error (.timeout ⟨5⟩)⟩) hi rfl (by decide) ?_
    change Feed.Attends _ _ _ (Feed.start ⟨0⟩ (some ⟨5⟩) _) _ _
    rw [hlines]
    exact Feed.attends_of_lines rfl rfl rfl ["a"] (Feed.attends_of_late rfl rfl rfl rfl)
  refine ⟨hlate, haccounts late _ hlate, hrecords.2 ⟨by decide, _, .code 0, rfl, ?_, rfl, rfl⟩⟩
  decide

end Workbench

end MemberIndex
